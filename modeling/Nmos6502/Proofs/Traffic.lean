/-
  What an instruction does on the bus.

  A device may change when it is read, so it matters which cells an instruction
  touches, in which order, and that it touches no others.  `Mode.Locates` lists
  the accesses by which each addressing mode finds its operand and
  `Operation.Touches` those by which each operation works on it.  The theorem
  at the end says that a documented instruction reads its opcode, makes these
  two lists of accesses, and makes no more, on every bus.

  The accesses are taken from a bus that keeps a record.  The record changes
  nothing: played back on the bare bus it gets the same answers, and leaves
  that bus as the bare step leaves it.
-/
import Nmos6502.Bus.Flat
import Nmos6502.Bus.Recorded
import Nmos6502.Proofs.Simulation

namespace Nmos6502

/-! ## The accesses of a mode and of an operation -/

/-- The accesses `t` by which an instruction at `r.pc` finds the operand address
    `ea`.  Pointers in page zero do not leave it, and the pointer of an indirect
    jump does not leave its page. -/
def Mode.Locates (r : Registers) (t : List Access) (ea : Addr) : Mode → Prop
  | .implied | .accumulator => t = []
  | .immediate => t = [] ∧ ea = r.pc + 1
  | .zeroPage => ∃ z, t = [.read (r.pc + 1) z] ∧ ea = z.setWidth 16
  | .zeroPageX => ∃ z, t = [.read (r.pc + 1) z] ∧ ea = (z + r.x).setWidth 16
  | .zeroPageY => ∃ z, t = [.read (r.pc + 1) z] ∧ ea = (z + r.y).setWidth 16
  | .relative => ∃ d, t = [.read (r.pc + 1) d] ∧ ea = r.pc + 2 + d.signExtend 16
  | .absolute => ∃ lo hi, t = [.read (r.pc + 1) lo, .read (r.pc + 2) hi] ∧ ea = word lo hi
  | .absoluteX => ∃ lo hi, t = [.read (r.pc + 1) lo, .read (r.pc + 2) hi] ∧
      ea = word lo hi + r.x.setWidth 16
  | .absoluteY => ∃ lo hi, t = [.read (r.pc + 1) lo, .read (r.pc + 2) hi] ∧
      ea = word lo hi + r.y.setWidth 16
  | .indirect => ∃ lo hi lo' hi', t = [.read (r.pc + 1) lo, .read (r.pc + 2) hi,
      .read (word lo hi) lo',
      .read (if lo = 0xFF then word 0x00 hi else word lo hi + 1) hi'] ∧ ea = word lo' hi'
  | .indexedIndirect => ∃ z lo hi, t = [.read (r.pc + 1) z, .read ((z + r.x).setWidth 16) lo,
      .read ((z + r.x + 1).setWidth 16) hi] ∧ ea = word lo hi
  | .indirectIndexed => ∃ z lo hi, t = [.read (r.pc + 1) z, .read (z.setWidth 16) lo,
      .read ((z + 1).setWidth 16) hi] ∧ ea = word lo hi + r.y.setWidth 16

/-- The accesses `t` that an operation itself makes, when the instruction lies at
    `r.pc` and its operand at `ea`. -/
def Operation.Touches (r : Registers) (mode : Mode) (ea : Addr) (t : List Access) :
    Operation → Prop
  | .lda | .ldx | .ldy | .adc | .sbc | .and | .ora | .eor | .cmp | .cpx | .cpy | .bit =>
    ∃ m, t = [.read ea m]
  | .sta => t = [.write ea r.a]
  | .stx => t = [.write ea r.x]
  | .sty => t = [.write ea r.y]
  | .inc => ∃ m, t = [.read ea m, .write ea (m + 1)]
  | .dec => ∃ m, t = [.read ea m, .write ea (m - 1)]
  | .asl => if mode = .accumulator then t = [] else
      ∃ m, t = [.read ea m, .write ea (Shift.left m false).1]
  | .lsr => if mode = .accumulator then t = [] else
      ∃ m, t = [.read ea m, .write ea (Shift.right m false).1]
  | .rol => if mode = .accumulator then t = [] else
      ∃ m, t = [.read ea m, .write ea (Shift.left m r.p.c).1]
  | .ror => if mode = .accumulator then t = [] else
      ∃ m, t = [.read ea m, .write ea (Shift.right m r.p.c).1]
  | .pha => t = [.write (stackCell r.s) r.a]
  | .php => t = [.write (stackCell r.s) { r.p with b := true }.pack]
  | .pla | .plp => ∃ m, t = [.read (stackCell (r.s + 1)) m]
  | .jsr => t = [.write (stackCell r.s) (highByte (r.pc + 2)),
      .write (stackCell (r.s - 1)) (lowByte (r.pc + 2))]
  | .rts => ∃ lo hi, t = [.read (stackCell (r.s + 1)) lo, .read (stackCell (r.s + 2)) hi]
  | .rti => ∃ flags lo hi, t = [.read (stackCell (r.s + 1)) flags,
      .read (stackCell (r.s + 2)) lo, .read (stackCell (r.s + 3)) hi]
  | .brk => ∃ lo hi, t = [.write (stackCell r.s) (highByte (r.pc + 2)),
      .write (stackCell (r.s - 1)) (lowByte (r.pc + 2)),
      .write (stackCell (r.s - 2)) { r.p with b := true }.pack,
      .read 0xFFFE lo, .read 0xFFFF hi]
  | _ => t = []

/-! ## Addresses in the two forms -/

/-- The displacement of a branch counts from the instruction behind it. -/
theorem branchDestination_eq (pc : Addr) (d : Byte) :
    branchDestination pc d = pc + 2 + d.signExtend 16 := by
  rw [branchDestination, BitVec.ofInt_add, BitVec.ofInt_add, BitVec.ofInt_natCast,
    BitVec.ofNat_toNat, BitVec.setWidth_eq]
  rfl

/-- The second byte of a pointer follows the first, but stays in its page. -/
theorem pointerHigh_word (lo hi : Byte) :
    Bus.pointerHigh (word lo hi) = if lo = 0xFF then word 0x00 hi else word lo hi + 1 := by
  rw [Bus.pointerHigh, lowByte_word, highByte_word]

/-! ## Playing a record back -/

namespace Bus

variable {M : Type} [Bus M]

/-- The bus answers every read of a record as noted there, takes every write, and
    is `after` in the end. -/
def Replays : M → List Access → M → Prop
  | bus, [], after => bus = after
  | bus, .read a b :: log, after => (read bus a).1 = b ∧ Replays (read bus a).2 log after
  | bus, .write a b :: log, after => Replays (write bus a b) log after

theorem Replays.append {bus mid after : M} {log log' : List Access}
    (h : Replays bus log mid) (h' : Replays mid log' after) : Replays bus (log ++ log') after := by
  induction log generalizing bus with
  | nil =>
    obtain rfl : bus = mid := h
    exact h'
  | cons access log ih =>
    cases access with
    | read a b => exact ⟨h.1, ih h.2⟩
    | write a b => exact ih h

end Bus

namespace Recorded

variable {M : Type}

/-- The record grows by the accesses `t`. -/
def Adds (bus : Recorded M) (t : List Access) (bus' : Recorded M) : Prop :=
  bus'.log.toList = bus.log.toList ++ t

theorem adds_nil (bus : Recorded M) : bus.Adds [] bus := (List.append_nil _).symm

theorem Adds.append {bus bus' bus'' : Recorded M} {t t' : List Access}
    (h : bus.Adds t bus') (h' : bus'.Adds t' bus'') : bus.Adds (t ++ t') bus'' := by
  rw [Adds] at *
  rw [h', h, List.append_assoc]

variable [Bus M]

theorem adds_read (bus : Recorded M) (a : Addr) :
    bus.Adds [.read a (Bus.read bus a).1] (Bus.read bus a).2 := Array.toList_push

theorem adds_write (bus : Recorded M) (a : Addr) (b : Byte) :
    bus.Adds [.write a b] (Bus.write bus a b) := Array.toList_push

theorem adds_wordAt (bus : Recorded M) (a : Addr) :
    ∃ lo hi, bus.Adds [.read a lo, .read (a + 1) hi] (Bus.wordAt bus a).2 ∧
      (Bus.wordAt bus a).1 = word lo hi :=
  ⟨_, _, (adds_read _ _).append (adds_read _ _), rfl⟩

theorem adds_zeroPageWordAt (bus : Recorded M) (z : Byte) :
    ∃ lo hi, bus.Adds [.read (z.setWidth 16) lo, .read ((z + 1).setWidth 16) hi]
        (Bus.zeroPageWordAt bus z).2 ∧
      (Bus.zeroPageWordAt bus z).1 = word lo hi := by
  rw [← zeroPage_eq, ← zeroPage_eq]
  exact ⟨_, _, (adds_read _ _).append (adds_read _ _), rfl⟩

theorem adds_jumpTargetAt (bus : Recorded M) (lo hi : Byte) :
    ∃ lo' hi', bus.Adds [.read (word lo hi) lo',
          .read (if lo = 0xFF then word 0x00 hi else word lo hi + 1) hi']
        (Bus.jumpTargetAt bus (word lo hi)).2 ∧
      (Bus.jumpTargetAt bus (word lo hi)).1 = word lo' hi' := by
  rw [← pointerHigh_word]
  exact ⟨_, _, (adds_read _ _).append (adds_read _ _), rfl⟩

/-- A bus with a record and the bare bus cannot be told apart, and the record can
    be played back from the bus at which it began. -/
theorem simulation (start : M) : Bus.Simulation fun (recorded : Recorded M) (bare : M) =>
    recorded.inner = bare ∧ Bus.Replays start recorded.log.toList bare where
  read := by
    rintro recorded bare ⟨rfl, hlog⟩ a
    refine ⟨rfl, rfl, ?_⟩
    rw [recorded.adds_read a]
    exact hlog.append ⟨rfl, rfl⟩
  write := by
    rintro recorded bare ⟨rfl, hlog⟩ a b
    refine ⟨rfl, ?_⟩
    rw [recorded.adds_write a b]
    exact hlog.append rfl

end Recorded

namespace Processor

variable {M : Type} [Bus M]

/-! ## The record of a step -/

/-- Finding the operand adds to the record what the addressing mode says. -/
theorem adds_operandAddress (p : Processor (Recorded M)) (mode : Mode) :
    ∃ t, p.bus.Adds t (p.operandAddress mode).2.bus ∧
      mode.Locates p.regs t (p.operandAddress mode).1 := by
  have hbyte := p.bus.adds_read (p.regs.pc + 1)
  have htwo : p.regs.pc + 1 + 1 = p.regs.pc + 2 := by rw [BitVec.add_assoc]; rfl
  obtain ⟨lo, hi, hword, hptr⟩ := p.bus.adds_wordAt (p.regs.pc + 1)
  rw [htwo] at hword
  cases mode with
  | implied | accumulator => exact ⟨[], p.bus.adds_nil, rfl⟩
  | immediate => exact ⟨[], p.bus.adds_nil, rfl, rfl⟩
  | zeroPage | zeroPageX | zeroPageY => exact ⟨_, hbyte, _, rfl, zeroPage_eq _⟩
  | relative => exact ⟨_, hbyte, _, rfl, branchDestination_eq _ _⟩
  | absolute => exact ⟨_, hword, lo, hi, rfl, hptr⟩
  | absoluteX | absoluteY => exact ⟨_, hword, lo, hi, rfl, congrArg (· + _) hptr⟩
  | indirect =>
    obtain ⟨lo', hi', hjump, htarget⟩ := Recorded.adds_jumpTargetAt
      (Bus.wordAt p.bus (p.regs.pc + 1)).2 lo hi
    -- the pointer followed is the word whose two bytes are on record
    rw [← hptr] at hjump htarget
    exact ⟨_, hword.append hjump, lo, hi, lo', hi', by rw [← hptr]; rfl, htarget⟩
  | indexedIndirect =>
    obtain ⟨lo, hi, hcell, ha⟩ := Recorded.adds_zeroPageWordAt
      (Bus.read p.bus (p.regs.pc + 1)).2 ((Bus.read p.bus (p.regs.pc + 1)).1 + p.regs.x)
    exact ⟨_, hbyte.append hcell, _, lo, hi, rfl, ha⟩
  | indirectIndexed =>
    obtain ⟨lo, hi, hcell, ha⟩ := Recorded.adds_zeroPageWordAt
      (Bus.read p.bus (p.regs.pc + 1)).2 (Bus.read p.bus (p.regs.pc + 1)).1
    exact ⟨_, hbyte.append hcell, _, lo, hi, rfl, congrArg (· + _) ha⟩

theorem adds_modify (p : Processor (Recorded M)) (mode : Mode) (ea : Addr)
    (f : Registers → Byte → Byte × Registers) :
    ∃ t, p.bus.Adds t (p.modify mode ea f).bus ∧ if mode = .accumulator then t = [] else
      ∃ m, t = [.read ea m, .write ea (f p.regs m).1] := by
  by_cases h : mode = .accumulator
  · subst h
    refine ⟨[], p.bus.adds_nil, ?_⟩
    rw [if_pos rfl]
  · rw [modify_cell p h]
    refine ⟨_, (p.bus.adds_read ea).append (Recorded.adds_write _ _ _), ?_⟩
    rw [if_neg h]
    exact ⟨_, rfl⟩

omit [Bus M] in
theorem adds_branch (p : Processor (Recorded M)) (c : Bool) (a : Addr) :
    p.bus.Adds [] (p.branch c a).bus := by
  rw [bus_branch]
  exact p.bus.adds_nil

theorem adds_pushAddr (p : Processor (Recorded M)) (w : Addr) :
    p.bus.Adds [.write (stackCell p.regs.s) (highByte w),
      .write (stackCell (p.regs.s - 1)) (lowByte w)] (p.pushAddr w).bus :=
  (p.bus.adds_write _ _).append (Recorded.adds_write _ _ _)

theorem adds_pullAddr (p : Processor (Recorded M)) :
    ∃ lo hi, p.bus.Adds [.read (stackCell (p.regs.s + 1)) lo,
      .read (stackCell (p.regs.s + 2)) hi] p.pullAddr.2.bus := by
  rw [show p.regs.s + 2 = p.regs.s + 1 + 1 by bv_omega]
  exact ⟨_, _, (p.bus.adds_read _).append (Recorded.adds_read _ _)⟩

theorem adds_leaveHandler (p : Processor (Recorded M)) :
    ∃ flags lo hi, p.bus.Adds [.read (stackCell (p.regs.s + 1)) flags,
      .read (stackCell (p.regs.s + 2)) lo, .read (stackCell (p.regs.s + 3)) hi]
      p.leaveHandler.bus := by
  obtain ⟨lo, hi, hword⟩ := p.pull.2.adds_pullAddr
  rw [regs_pull, show p.regs.s + 1 + 1 = p.regs.s + 2 by bv_omega,
    show p.regs.s + 1 + 2 = p.regs.s + 3 by bv_omega] at hword
  exact ⟨_, lo, hi, (p.bus.adds_read _).append hword⟩

/-- The accesses by which a handler is entered: the return address and the flags
    are written, and then the vector is read. -/
theorem adds_enterHandler (p : Processor (Recorded M)) (back : Addr) (pushed : Status) (v : Addr) :
    ∃ lo hi, p.bus.Adds [.write (stackCell p.regs.s) (highByte back),
      .write (stackCell (p.regs.s - 1)) (lowByte back),
      .write (stackCell (p.regs.s - 2)) pushed.pack,
      .read v lo, .read (v + 1) hi] (p.enterHandler back pushed v).bus := by
  rw [bus_enterHandler, bus_push]
  have hframe := (p.adds_pushAddr back).append
    ((p.pushAddr back).bus.adds_write (stackCell (p.regs.s - 1 - 1)) pushed.pack)
  obtain ⟨lo, hi, hvector, -⟩ := Recorded.adds_wordAt
    (Bus.write (p.pushAddr back).bus (stackCell (p.regs.s - 1 - 1)) pushed.pack) v
  rw [show p.regs.s - 2 = p.regs.s - 1 - 1 by bv_omega]
  exact ⟨lo, hi, hframe.append hvector⟩

theorem adds_softwareInterrupt (p : Processor (Recorded M)) :
    ∃ lo hi, p.bus.Adds [.write (stackCell p.regs.s) (highByte (p.regs.pc + 1)),
      .write (stackCell (p.regs.s - 1)) (lowByte (p.regs.pc + 1)),
      .write (stackCell (p.regs.s - 2)) { p.regs.p with b := true }.pack,
      .read 0xFFFE lo, .read 0xFFFF hi] p.softwareInterrupt.bus :=
  adds_enterHandler (p.update fun r => { r with p := { r.p with b := true } }) _ _ _

/-- Performing the operation of a documented opcode adds to the record what the
    operation says.  The processor stands behind the instruction, which lies at
    `r.pc`. -/
theorem adds_perform (p : Processor (Recorded M)) {r : Registers} (opcode : Byte) (ea : Addr)
    (hp : p.regs = { r with pc := r.pc + BitVec.ofNat 16 (opcodeEntry opcode).size }) :
    ∃ t, p.bus.Adds t
        (p.perform (opcodeEntry opcode).mode ea (opcodeEntry opcode).operation).bus ∧
      (opcodeEntry opcode).operation.Touches r (opcodeEntry opcode).mode ea t := by
  have hcell := (suited_opcodeEntry opcode).cell
  have hjsr := (suited_opcodeEntry opcode).jsr
  have hbrk := (suited_opcodeEntry opcode).brk
  obtain ⟨regs, bus⟩ := p
  obtain rfl : regs = _ := hp
  have hread := bus.adds_read ea
  -- the entry is now any one with the properties taken from the matrix
  generalize opcodeEntry opcode = e at *
  cases ho : e.operation with
  | lda | ldx | ldy | adc | sbc | and | ora | eor | cmp | cpx | cpy | bit =>
    exact ⟨_, hread, _, rfl⟩
  | sta | stx | sty => exact ⟨_, bus.adds_write ea _, rfl⟩
  | pha | php => exact ⟨_, bus.adds_write (stackCell r.s) _, rfl⟩
  | pla | plp => exact ⟨_, bus.adds_read (stackCell (r.s + 1)), _, rfl⟩
  | asl | lsr | rol | ror => exact adds_modify _ e.mode ea _
  | inc =>
    obtain ⟨t, hadds, ht⟩ := adds_modify ⟨_, bus⟩ e.mode ea (Registers.bump 1)
    rw [if_neg (hcell (.inl ho))] at ht
    exact ⟨t, hadds, ht⟩
  | dec =>
    obtain ⟨t, hadds, ht⟩ := adds_modify ⟨_, bus⟩ e.mode ea (Registers.bump (-1))
    rw [if_neg (hcell (.inr ho))] at ht
    obtain ⟨m, rfl⟩ := ht
    -- the operation adds minus one
    exact ⟨_, hadds, m, by rw [BitVec.sub_eq_add_neg]; rfl⟩
  | rts =>
    obtain ⟨lo, hi, hadds⟩ := adds_pullAddr ⟨_, bus⟩
    exact ⟨_, hadds, lo, hi, rfl⟩
  | rti =>
    obtain ⟨flags, lo, hi, hadds⟩ := adds_leaveHandler ⟨_, bus⟩
    exact ⟨_, hadds, flags, lo, hi, rfl⟩
  | jsr =>
    -- what is pushed is the address of the last byte of the call
    have hback : r.pc + BitVec.ofNat 16 e.size - 1 = r.pc + 2 := by
      rw [OpcodeEntry.size, hjsr ho,
        show BitVec.ofNat 16 (1 + Mode.operandLength .absolute) = 2 + 1 from rfl,
        ← BitVec.add_assoc, BitVec.add_sub_cancel]
    have hadds := adds_pushAddr ⟨{ r with pc := r.pc + BitVec.ofNat 16 e.size }, bus⟩
      (r.pc + BitVec.ofNat 16 e.size - 1)
    refine ⟨_, hadds, ?_⟩
    rw [hback]
    rfl
  | brk =>
    -- the byte behind the opcode is passed over
    have hback : r.pc + BitVec.ofNat 16 e.size + 1 = r.pc + 2 := by
      rw [OpcodeEntry.size, hbrk ho]
      exact BitVec.add_assoc _ _ _
    obtain ⟨lo, hi, hadds⟩ :=
      adds_softwareInterrupt ⟨{ r with pc := r.pc + BitVec.ofNat 16 e.size }, bus⟩
    refine ⟨_, hadds, lo, hi, ?_⟩
    rw [hback]
  | bcc | bcs | bne | beq | bpl | bmi | bvc | bvs =>
    exact ⟨[], adds_branch _ _ ea, rfl⟩
  | _ => exact ⟨[], bus.adds_nil, rfl⟩

/-- The processor with its bus on record from now on. -/
def recorded (p : Processor M) : Processor (Recorded M) := ⟨p.regs, ⟨p.bus, #[]⟩⟩

/-- A documented instruction adds to the record the opcode that it reads and what
    its mode and its operation say. -/
theorem adds_step (p : Processor (Recorded M)) (h : p.nextEntry.legal) :
    ∃ found own ea,
      p.bus.Adds (.read p.regs.pc (Bus.read p.bus p.regs.pc).1 :: (found ++ own)) p.step.2.bus ∧
      p.nextEntry.mode.Locates p.regs found ea ∧
      p.nextEntry.operation.Touches p.regs p.nextEntry.mode ea own := by
  obtain ⟨found, hfound, hlocates⟩ := p.fetched.adds_operandAddress p.nextEntry.mode
  obtain ⟨own, hown, htouches⟩ := p.poised.adds_perform _ p.operandPlace p.regs_poised
  rw [step_of_legal h, bus_spend]
  exact ⟨found, own, p.operandPlace, (p.bus.adds_read _).append (hfound.append hown), hlocates,
    htouches⟩

end Processor

namespace Machine

variable {M S : Type} [Bus M]

/-- The machine with its bus on record from now on. -/
def recorded (m : Machine M S) : Machine (Recorded M) S where
  core := m.core.recorded
  source := m.source
  trace := m.trace
  singleStep := m.singleStep
  quit := m.quit
  onIllegal := m.onIllegal
  journal := m.journal

/-- A documented instruction reads its opcode, then makes the accesses by which its
    mode finds the operand, then those of its operation, and no others; and what
    is recorded is what passes between the machine and its bare bus. -/
theorem step_traffic (m : Machine M S) (h : m.core.nextEntry.legal) :
    let e := m.core.nextEntry
    let m' := m.recorded.step.2
    (∃ found own ea,
      m'.bus.log.toList = .read m.regs.pc (Bus.read m.bus m.regs.pc).1 :: (found ++ own) ∧
      e.mode.Locates m.regs found ea ∧ e.operation.Touches m.regs e.mode ea own) ∧
    Bus.Replays m.bus m'.bus.log.toList m.step.2.bus ∧
    m.recorded.step.1 = none ∧ m.step.1 = none ∧ m'.regs = m.step.2.regs := by
  intro e m'
  have hrecorded : m.recorded.step = (none, { m.recorded with core := m.recorded.core.step.2 }) :=
    step_of_legal h
  have hbare := step_of_legal h
  -- the two steps begin alike, with nothing on record
  have halike : Processor.Alike (fun recorded bare => recorded.inner = bare ∧
      Bus.Replays m.bus recorded.log.toList bare) m.core.recorded m.core := ⟨rfl, rfl, rfl⟩
  obtain ⟨-, hregs, hinner, hreplays⟩ := halike.step (Recorded.simulation m.bus)
  obtain ⟨found, own, ea, hadds, hlocates, htouches⟩ := m.core.recorded.adds_step h
  refine ⟨⟨found, own, ea, ?_, hlocates, htouches⟩, ?_, ?_, ?_, ?_⟩
  · show m.recorded.step.2.bus.log.toList = _
    rw [hrecorded]
    exact hadds
  · show Bus.Replays m.bus m.recorded.step.2.bus.log.toList _
    rw [hrecorded, hbare]
    exact hreplays
  · rw [hrecorded]
  · rw [hbare]
  · show m.recorded.step.2.regs = _
    rw [hrecorded, hbare]
    exact hregs

/-- The pointer of `JMP ($10FF)` lies at the end of a page, so its second byte is
    read from the beginning of that page. -/
theorem traffic_of_jump_through_page_end :
    let m : Machine Flat Unit := .powerOn (((Flat.zero.set 0 0x6C).set 1 0xFF).set 2 0x10) ()
    m.core.nextEntry.legal ∧ m.recorded.step.2.bus.log.toList =
      [.read 0x0000 0x6C, .read 0x0001 0xFF, .read 0x0002 0x10, .read 0x10FF 0,
        .read 0x1000 0] := by
  intro m
  have hget (a : Addr) : (Bus.read m.bus a).1 =
      if 2 = a then 0x10 else if 1 = a then 0xFF else if 0 = a then 0x6C else 0 := by
    show Flat.get (((Flat.zero.set 0 0x6C).set 1 0xFF).set 2 0x10) a = _
    rw [Flat.get_set, Flat.get_set, Flat.get_set, Flat.get_zero]
  have hentry : m.core.nextEntry = ⟨.jmp, .indirect, 5⟩ := congrArg opcodeEntry (hget 0)
  have hlegal : m.core.nextEntry.legal := by
    rw [hentry]
    rfl
  obtain ⟨⟨found, own, ea, hlog, hlocates, htouches⟩, hreplays, -⟩ := step_traffic m hlegal
  rw [hentry] at hlocates htouches
  obtain ⟨lo, hi, lo', hi', rfl, -⟩ := hlocates
  obtain rfl : own = [] := htouches
  rw [hlog] at hreplays
  obtain ⟨-, hlo, hhi, hlo', hhi', -⟩ := hreplays
  obtain rfl : 0xFF = lo := (hget 1).symm.trans hlo
  obtain rfl : 0x10 = hi := (hget 2).symm.trans hhi
  obtain rfl : 0 = lo' := (hget 0x10FF).symm.trans hlo'
  obtain rfl : 0 = hi' := (hget 0x1000).symm.trans hhi'
  rw [hget] at hlog
  exact ⟨hlegal, hlog⟩

end Machine

end Nmos6502
