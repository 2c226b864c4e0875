/-
  What an instruction can change in the registers.

  Each data register and each flag has its writers, and the stack pointer moves
  by a distance that the operation alone decides.  An instruction leaves every
  other part of the register file as it finds it, which is what a program
  relies on when it keeps a value there.  Of the writers of Z and N, those that
  produce a byte let the two flags describe it: the byte that a register holds
  afterwards, or the one that went out to memory.
-/
import Nmos6502.Proofs.Traffic

namespace Nmos6502

/-! ## The writers -/

inductive Flag where
  | n | v | b | d | i | z | c
deriving DecidableEq

def Status.get (p : Status) : Flag → Bool
  | .n => p.n
  | .v => p.v
  | .b => p.b
  | .d => p.d
  | .i => p.i
  | .z => p.z
  | .c => p.c

/-- Whether an instruction can change a data register.  A shift changes the
    accumulator when that is its operand. -/
def Reg.writtenBy : Reg → OpcodeEntry → Bool
  | .a, e => e.operation ∈ [.lda, .txa, .tya, .pla, .adc, .sbc, .and, .ora, .eor] ||
      e.operation ∈ [.asl, .lsr, .rol, .ror] && e.mode = .accumulator
  | .x, e => e.operation ∈ [.ldx, .tax, .tsx, .inx, .dex]
  | .y, e => e.operation ∈ [.ldy, .tay, .iny, .dey]

/-- Whether an operation can change a flag. -/
def Flag.writtenBy : Flag → Operation → Bool
  | .c, o => o ∈ [.adc, .sbc, .cmp, .cpx, .cpy, .asl, .lsr, .rol, .ror, .clc, .sec, .plp, .rti]
  | .v, o => o ∈ [.adc, .sbc, .bit, .clv, .plp, .rti]
  | .d, o => o ∈ [.sed, .cld, .plp, .rti]
  | .i, o => o ∈ [.sei, .cli, .brk, .plp, .rti]
  | .b, o => o ∈ [.brk, .plp, .rti]
  | .n, o | .z, o => o ∉ [.sta, .stx, .sty, .bcc, .bcs, .bne, .beq, .bpl, .bmi, .bvc, .bvs,
      .jmp, .jsr, .rts, .brk, .nop, .pha, .php, .txs, .clc, .sec, .cli, .sei, .cld, .sed, .clv]

namespace Operation

/-- The stack pointer after an operation, modulo the size of its page. -/
def stackAfter (r : Registers) : Operation → Byte
  | .txs => r.x
  | .pha | .php => r.s - 1
  | .pla | .plp => r.s + 1
  | .jsr => r.s - 2
  | .rts => r.s + 2
  | .brk => r.s - 3
  | .rti => r.s + 3
  | _ => r.s

end Operation

/-- Where an instruction can leave the byte that it produces. -/
inductive Destination where
  | register (reg : Reg)
  /-- The cell at the operand address. -/
  | cell
deriving DecidableEq

/-- Where an instruction leaves its byte, if it is one of those that let Z and N
    describe what they produce. -/
def OpcodeEntry.destination? (e : OpcodeEntry) : Option Destination :=
  match e.operation with
  | .lda | .txa | .tya | .pla | .adc | .sbc | .and | .ora | .eor => some (.register .a)
  | .ldx | .tax | .tsx | .inx | .dex => some (.register .x)
  | .ldy | .tay | .iny | .dey => some (.register .y)
  | .asl | .lsr | .rol | .ror => if e.mode = .accumulator then some (.register .a) else some .cell
  | .inc | .dec => some .cell
  | _ => none

/-- Z tells whether the byte is zero, N repeats its bit seven. -/
def Status.Describes (p : Status) (v : Byte) : Prop := p.z = (v == 0) ∧ p.n = v.msb

theorem Registers.get_load {reg written : Reg} (h : reg ≠ written) (r : Registers) (v : Byte) :
    (r.load written v).get reg = r.get reg := by
  cases written with
  | a =>
    cases reg with
    | a => exact absurd rfl h
    | x | y => rfl
  | x =>
    cases reg with
    | x => exact absurd rfl h
    | a | y => rfl
  | y =>
    cases reg with
    | y => exact absurd rfl h
    | a | x => rfl

namespace Processor

variable {M : Type} [Bus M]

/-! ## The parts of the register file -/

theorem get_perform (p : Processor M) {e : OpcodeEntry} (he : e.Suited) (ea : Addr) {reg : Reg}
    (h : reg.writtenBy e = false) :
    (p.perform e.mode ea e.operation).regs.get reg = p.regs.get reg := by
  have hcell := he.cell
  obtain ⟨o, mode, cycles⟩ := e
  have hbranch (c : Bool) : (p.branch c ea).regs.get reg = p.regs.get reg := by
    rw [regs_branch]
    cases reg <;> rfl
  have hother {written : Reg} (hw : written.writtenBy ⟨o, mode, cycles⟩) : reg ≠ written := by
    rintro rfl
    exact Bool.false_ne_true (h.symm.trans hw)
  cases o with
  | lda | ldx | ldy | and | ora | eor | inx | iny | dex | dey | tax | tay | txa | tya | tsx =>
    exact Registers.get_load (hother rfl) _ _
  | adc | sbc | pla =>
    cases reg with
    | a => cases h
    | x | y => rfl
  | asl | lsr | rol | ror =>
    refine part_modify (·.get reg) p mode ea (fun r m => by cases reg <;> rfl) ?_
    rintro rfl r v
    cases reg with
    | a => cases h
    | x | y => rfl
  | inc | dec =>
    exact part_modify (·.get reg) p mode ea (fun r m => by cases reg <;> rfl)
      fun hmode => absurd hmode (hcell (by simp))
  | bcc | bcs | bne | beq | bpl | bmi | bvc | bvs => exact hbranch _
  | brk =>
    refine (congrArg (·.get reg) (regs_softwareInterrupt p)).trans ?_
    cases reg <;> rfl
  | rti =>
    refine (congrArg (·.get reg) (regs_leaveHandler p)).trans ?_
    cases reg <;> rfl
  | _ => cases reg <;> rfl

theorem flag_perform (p : Processor M) (mode : Mode) (ea : Addr) {o : Operation} {flag : Flag}
    (h : flag.writtenBy o = false) :
    (p.perform mode ea o).regs.p.get flag = p.regs.p.get flag := by
  have hmodify {f : Registers → Byte → Byte × Registers}
      (hf : ∀ r m, (f r m).2.p.get flag = r.p.get flag) :
      (p.modify mode ea f).regs.p.get flag = p.regs.p.get flag :=
    part_modify (·.p.get flag) p mode ea hf fun _ _ _ => rfl
  have hbranch (c : Bool) : (p.branch c ea).regs.p.get flag = p.regs.p.get flag := by
    rw [regs_branch]
  -- the operations by the flags that they write, which contradict `h`
  cases o with
  | lda | ldx | ldy | and | ora | eor | inx | iny | dex | dey | pla | tax | tay | txa | tya
  | tsx =>
    cases flag with
    | n | z => cases h
    | _ => rfl
  | adc | sbc =>
    cases flag with
    | n | v | z | c => cases h
    | _ => rfl
  | cmp | cpx | cpy =>
    cases flag with
    | n | z | c => cases h
    | _ => rfl
  | bit =>
    cases flag with
    | n | v | z => cases h
    | _ => rfl
  | asl | lsr | rol | ror =>
    refine hmodify fun _ _ => ?_
    cases flag with
    | n | z | c => cases h
    | _ => rfl
  | inc | dec =>
    refine hmodify fun _ _ => ?_
    cases flag with
    | n | z => cases h
    | _ => rfl
  | bcc | bcs | bne | beq | bpl | bmi | bvc | bvs => exact hbranch _
  | plp | rti => cases flag <;> cases h
  | brk =>
    refine (congrArg (·.p.get flag) (regs_softwareInterrupt p)).trans ?_
    cases flag with
    | b | i => cases h
    | _ => rfl
  | clc | sec =>
    cases flag with
    | c => cases h
    | _ => rfl
  | cli | sei =>
    cases flag with
    | i => cases h
    | _ => rfl
  | cld | sed =>
    cases flag with
    | d => cases h
    | _ => rfl
  | clv =>
    cases flag with
    | v => cases h
    | _ => rfl
  | _ => rfl

theorem s_perform (p : Processor M) (mode : Mode) (ea : Addr) (o : Operation) :
    (p.perform mode ea o).regs.s = o.stackAfter p.regs := by
  cases o with
  | asl | lsr | rol | ror | inc | dec =>
    exact part_modify (·.s) p mode ea (fun _ _ => rfl) fun _ _ _ => rfl
  | bcc | bcs | bne | beq | bpl | bmi | bvc | bvs => exact congrArg (·.s) (regs_branch p _ ea)
  -- these move the pointer one byte at a time
  | jsr =>
    show p.regs.s - 1 - 1 = p.regs.s - 2
    bv_omega
  | rts =>
    show p.regs.s + 1 + 1 = p.regs.s + 2
    bv_omega
  | brk =>
    refine (congrArg (·.s) (regs_softwareInterrupt p)).trans ?_
    show p.regs.s - 1 - 1 - 1 = p.regs.s - 3
    bv_omega
  | rti =>
    refine (congrArg (·.s) (regs_leaveHandler p)).trans ?_
    show p.regs.s + 1 + 1 + 1 = p.regs.s + 3
    bv_omega
  | _ => rfl

theorem stackAfter_poised (p : Processor M) (o : Operation) :
    o.stackAfter p.poised.regs = o.stackAfter p.regs := by
  rw [regs_poised]
  cases o <;> rfl

/-- Besides what its operation does to it, a step changes a part of the registers
    only if that shows the program counter or the cycles. -/
theorem part_step {α : Type} (part : Registers → α) {p : Processor M} (hlegal : p.nextEntry.legal)
    (hpc : ∀ r pc, part { r with pc } = part r)
    (hcycles : ∀ r cycles, part { r with cycles } = part r)
    (h : part (p.poised.perform p.nextEntry.mode p.operandPlace p.nextEntry.operation).regs =
      part p.poised.regs) : part p.step.2.regs = part p.regs := by
  rw [regs_step_of_legal hlegal, hcycles, h, regs_poised, hpc]

theorem get_step {p : Processor M} (hlegal : p.nextEntry.legal) {reg : Reg}
    (h : reg.writtenBy p.nextEntry = false) : p.step.2.regs.get reg = p.regs.get reg := by
  have hget := p.poised.get_perform (suited_opcodeEntry _) p.operandPlace h
  refine part_step (·.get reg) hlegal ?_ ?_ hget <;> cases reg <;> exact fun _ _ => rfl

theorem flag_step {p : Processor M} (hlegal : p.nextEntry.legal) {flag : Flag}
    (h : flag.writtenBy p.nextEntry.operation = false) :
    p.step.2.regs.p.get flag = p.regs.p.get flag :=
  part_step (·.p.get flag) hlegal (fun _ _ => rfl) (fun _ _ => rfl)
    (p.poised.flag_perform p.nextEntry.mode p.operandPlace h)

theorem s_step {p : Processor M} (hlegal : p.nextEntry.legal) :
    p.step.2.regs.s = p.nextEntry.operation.stackAfter p.regs := by
  rw [regs_step_of_legal hlegal, ← stackAfter_poised]
  exact s_perform _ _ _ _

/-! ## The byte produced -/

/-- A sum or difference of binary numbers is described like any other byte. -/
theorem describes_accept_binary (r : Registers) (m : Byte) (hd : r.p.d = false) :
    (r.add m).p.Describes (r.add m).a ∧ (r.sub m).p.Describes (r.sub m).a := by
  rw [Registers.add, Registers.sub, hd]
  exact ⟨⟨rfl, rfl⟩, rfl, rfl⟩

theorem describes_register (p : Processor M) {e : OpcodeEntry} (ea : Addr)
    (hbinary : e.operation = .adc ∨ e.operation = .sbc → p.regs.p.d = false) {reg : Reg}
    (h : e.destination? = some (.register reg)) :
    (p.perform e.mode ea e.operation).regs.p.Describes
      ((p.perform e.mode ea e.operation).regs.get reg) := by
  obtain ⟨o, mode, cycles⟩ := e
  cases o with
  | lda | ldx | ldy | and | ora | eor | inx | iny | dex | dey | pla | tax | tay | txa | tya
  | tsx =>
    cases h
    exact ⟨rfl, rfl⟩
  | adc =>
    cases h
    exact (describes_accept_binary p.regs _ (hbinary (.inl rfl))).1
  | sbc =>
    cases h
    exact (describes_accept_binary p.regs _ (hbinary (.inr rfl))).2
  | asl | lsr | rol | ror =>
    by_cases hmode : mode = .accumulator
    · subst hmode
      cases h
      exact ⟨rfl, rfl⟩
    · cases (if_neg hmode).symm.trans h
  | _ => cases h

/-- The byte that goes out to memory is the last that does. -/
theorem describes_cell (p : Processor M) {e : OpcodeEntry} (he : e.Suited) (ea : Addr)
    (h : e.destination? = some .cell) :
    ∃ bus v, (p.perform e.mode ea e.operation).bus = Bus.write bus ea v ∧
      (p.perform e.mode ea e.operation).regs.p.Describes v := by
  have hcell := he.cell
  obtain ⟨o, mode, cycles⟩ := e
  have hmodify (hmode : mode ≠ .accumulator) {f : Registers → Byte → Byte × Registers}
      (hf : ∀ r m, (f r m).2.p.Describes (f r m).1) :
      ∃ bus v, (p.modify mode ea f).bus = Bus.write bus ea v ∧
        (p.modify mode ea f).regs.p.Describes v := by
    rw [modify_cell p hmode]
    exact ⟨_, _, rfl, hf _ _⟩
  cases o with
  | asl | lsr | rol | ror =>
    refine hmodify ?_ fun _ _ => ⟨rfl, rfl⟩
    rintro rfl
    cases h
  | inc | dec => exact hmodify (hcell (by simp)) fun _ _ => ⟨rfl, rfl⟩
  | _ => cases h

theorem describes_step_register {p : Processor M} (hlegal : p.nextEntry.legal)
    (hbinary : p.nextEntry.operation = .adc ∨ p.nextEntry.operation = .sbc → p.regs.p.d = false)
    {reg : Reg} (h : p.nextEntry.destination? = some (.register reg)) :
    p.step.2.regs.p.Describes (p.step.2.regs.get reg) := by
  have hpoised : p.poised.regs.p = p.regs.p := by rw [regs_poised]
  rw [← hpoised] at hbinary
  have hdescribes := p.poised.describes_register p.operandPlace hbinary h
  rw [regs_step_of_legal hlegal]
  cases reg <;> exact hdescribes

theorem describes_step_cell {p : Processor M} (hlegal : p.nextEntry.legal)
    (h : p.nextEntry.destination? = some .cell) :
    ∃ bus v, p.step.2.bus = Bus.write bus p.operandPlace v ∧ p.step.2.regs.p.Describes v := by
  obtain ⟨bus, v, hbus, hdescribes⟩ :=
    p.poised.describes_cell (suited_opcodeEntry _) p.operandPlace h
  refine ⟨bus, v, ?_, ?_⟩
  · rw [step_of_legal hlegal, bus_spend]
    exact hbus
  · rw [regs_step_of_legal hlegal]
    exact hdescribes

end Processor

namespace Machine

variable {M S : Type} [Bus M]

/-- A machine whose bus is on record takes the same step as one on the bare bus. -/
theorem recorded_step (m : Machine M S) :
    m.recorded.step.2.regs = m.step.2.regs ∧ m.recorded.step.2.bus.inner = m.step.2.bus := by
  have halike : Processor.Alike (fun recorded bare => recorded.inner = bare ∧
      Bus.Replays m.bus recorded.log.toList bare) m.core.recorded m.core := ⟨rfl, rfl, rfl⟩
  obtain ⟨-, hregs, hinner, -⟩ := halike.step (Recorded.simulation m.bus)
  rw [step_snd m.recorded, step_snd m]
  exact ⟨hregs, hinner⟩

/-- A documented instruction writes no register and no flag but those that its
    operation is entered for, moves the stack pointer as the operation says, and
    leaves the switches of the machine alone.  Those that produce a byte, sums and
    differences of decimal numbers excepted, let Z and N describe it as it stands
    in its register, or as it went out to memory in their last access. -/
theorem step_keeps_to_footprint (m : Machine M S) (h : m.core.nextEntry.legal) :
    let e := m.core.nextEntry
    let m' := m.step.2
    m.step.1 = none ∧
    (∀ reg, m'.regs.get reg ≠ m.regs.get reg → reg.writtenBy e) ∧
    m'.regs.s = e.operation.stackAfter m.regs ∧
    (∀ flag, m'.regs.p.get flag ≠ m.regs.p.get flag → flag.writtenBy e.operation) ∧
    (m'.quit = m.quit ∧ m'.trace = m.trace ∧ m'.singleStep = m.singleStep) ∧
    ((e.operation = .adc ∨ e.operation = .sbc → m.regs.p.d = false) →
      (∀ reg, e.destination? = some (.register reg) → m'.regs.p.Describes (m'.regs.get reg)) ∧
      (e.destination? = some .cell → ∃ bus ea v, m'.bus = Bus.write bus ea v ∧
        m.recorded.step.2.bus.log.back? = some (.write ea v) ∧ m'.regs.p.Describes v)) := by
  intro e m'
  have hstep := step_of_legal h
  have hcore : m'.core = m.core.step.2 := by
    show m.step.2.core = _
    rw [hstep]
  have hregs : m'.regs = m.core.step.2.regs := congrArg (·.regs) hcore
  refine ⟨by rw [hstep], fun reg hreg => ?_, ?_, fun flag hflag => ?_, ?_, fun hbinary => ?_⟩
  · rw [hregs] at hreg
    exact Decidable.byContradiction fun hnot =>
      hreg (Processor.get_step h (Bool.eq_false_iff.mpr hnot))
  · rw [hregs]
    exact Processor.s_step h
  · rw [hregs] at hflag
    exact Decidable.byContradiction fun hnot =>
      hflag (Processor.flag_step h (Bool.eq_false_iff.mpr hnot))
  · show m.step.2.quit = _ ∧ m.step.2.trace = _ ∧ m.step.2.singleStep = _
    rw [hstep]
    exact ⟨rfl, rfl, rfl⟩
  · refine ⟨fun reg hreg => ?_, fun hcell => ?_⟩
    · rw [hregs]
      exact Processor.describes_step_register h hbinary hreg
    -- on record the write is the last entry, and the bare bus has taken it too
    · obtain ⟨hsame, hinner⟩ := m.recorded_step
      obtain ⟨bus, v, hbus, hdescribes⟩ :=
        Processor.describes_step_cell (p := m.core.recorded) h hcell
      have hrecorded : m.recorded.step.2.bus = Bus.write bus m.core.recorded.operandPlace v := by
        rw [step_snd]
        exact hbus
      refine ⟨bus.inner, m.core.recorded.operandPlace, v, ?_, ?_, ?_⟩
      · show m.step.2.bus = _
        rw [← hinner, hrecorded]
        rfl
      · rw [hrecorded]
        exact Array.back?_push
      · show m.step.2.regs.p.Describes v
        rw [← hsame, step_snd]
        exact hdescribes

/-- `ROR $10`: the rotated byte is described as it goes out to memory, and the
    accumulator, which other forms of the operation rotate, keeps its byte. -/
theorem footprint_of_rotated_cell :
    let m : Machine Flat Unit := {
      Machine.powerOn (((Flat.zero.set 0 0x66).set 1 0x10).set 0x10 0x02) () with
      core.regs := { Registers.powerOn with a := 0x7C, p.c := true } }
    m.core.nextEntry.legal ∧ m.step.2.regs.a = 0x7C ∧ m.step.2.regs.s = 0xFF ∧
      m.step.2.regs.p.v = false ∧
      ∃ ea v, m.recorded.step.2.bus.log.back? = some (.write ea v) ∧
        m.step.2.regs.p.Describes v := by
  intro m
  have hget : (Bus.read m.bus 0).1 = 0x66 := by
    show Flat.get (((Flat.zero.set 0 0x66).set 1 0x10).set 0x10 0x02) 0 = _
    rw [Flat.get_set, Flat.get_set, Flat.get_set]
    rfl
  have hentry : m.core.nextEntry = ⟨.ror, .zeroPage, 5⟩ := congrArg opcodeEntry hget
  have hlegal : m.core.nextEntry.legal := by
    rw [hentry]
    rfl
  obtain ⟨-, hreg, hs, hflag, -, hdescribes⟩ := step_keeps_to_footprint m hlegal
  rw [hentry] at hreg hs hflag hdescribes
  obtain ⟨bus, ea, v, -, hlast, hv⟩ := (hdescribes (by simp)).2 rfl
  refine ⟨hlegal, ?_, hs, ?_, ea, v, hlast, hv⟩
  · exact Decidable.byContradiction fun hne => Bool.false_ne_true (hreg .a hne)
  · exact Decidable.byContradiction fun hne => Bool.false_ne_true (hflag .v hne)

end Machine

end Nmos6502
