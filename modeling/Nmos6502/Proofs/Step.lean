/-
  The parts of a step.

  A step has read the opcode and found the operand before it performs the
  operation.  `poised` is the processor at that moment: its registers are those
  before the step, except that the program counter stands behind the
  instruction.  What a step does is then what `perform` does to it, and for the
  program counter that is one of three things: it stays, it goes to the operand
  address, or it comes from the stack or a vector.
-/
import Nmos6502.Machine
import Nmos6502.Proofs.Action

namespace Nmos6502

/-! ## Which operations lead where -/

namespace Operation

/-- The flag condition under which a conditional branch is taken. -/
def condition : Operation → Status → Bool
  | .bcc, p => !p.c
  | .bcs, p => p.c
  | .bne, p => !p.z
  | .beq, p => p.z
  | .bpl, p => !p.n
  | .bmi, p => p.n
  | .bvc, p => !p.v
  | .bvs, p => p.v
  | _, _ => false

/-- Whether the operation leads to its operand address when it is taken. -/
def leadsToOperand (o : Operation) : Bool := o.isConditional || o == .jmp || o == .jsr

/-- Whether the operation takes the program counter from memory. -/
def leadsElsewhere (o : Operation) : Bool := o == .rts || o == .rti || o == .brk

end Operation

/-! ## Facts about the opcode matrix -/

/-- The operation and the mode of an entry suit each other, as far as proofs
    about a step need it. -/
structure OpcodeEntry.Suited (e : OpcodeEntry) : Prop where
  relative : e.mode = .relative ↔ e.operation.isConditional
  indirect : e.mode = .indirect → e.operation = .jmp
  jmp : e.operation = .jmp → e.mode = .absolute ∨ e.mode = .indirect
  jsr : e.operation = .jsr → e.mode = .absolute
  brk : e.operation = .brk → e.mode = .implied
  cell : e.operation = .inc ∨ e.operation = .dec → e.mode ≠ .accumulator

instance (e : OpcodeEntry) : Decidable e.Suited :=
  decidable_of_iff _ ⟨fun ⟨h₁, h₂, h₃, h₄, h₅, h₆⟩ => ⟨h₁, h₂, h₃, h₄, h₅, h₆⟩,
    fun ⟨h₁, h₂, h₃, h₄, h₅, h₆⟩ =>
      (⟨h₁, h₂, h₃, h₄, h₅, h₆⟩ : _ ∧ _ ∧ _ ∧ _ ∧ _ ∧ _)⟩

/-- Checked on the 256 entries, one by one. -/
theorem suited_opcodeEntry : ∀ opcode, (opcodeEntry opcode).Suited := by
  decide +kernel

theorem OpcodeEntry.legal_iff (e : OpcodeEntry) : e.legal ↔ e.operation ≠ .illegal := by
  simp [legal]

theorem OpcodeEntry.not_legal_iff (e : OpcodeEntry) : ¬ e.legal ↔ e.operation = .illegal := by
  simp [legal]

namespace Processor

variable {M : Type} [Bus M]

/-! ## Before the operation -/

/-- The entry of the opcode at the program counter. -/
def nextEntry (p : Processor M) : OpcodeEntry := opcodeEntry (Bus.read p.bus p.regs.pc).1

/-- The processor when it has read the opcode. -/
def fetched (p : Processor M) : Processor M := (p.read p.regs.pc).2

/-- What is reported when the opcode at the program counter is undocumented. -/
def refusal (p : Processor M) : IllegalOpcode := ⟨(Bus.read p.bus p.regs.pc).1, p.regs.pc⟩

/-- The address that the next instruction works on. -/
def operandPlace (p : Processor M) : Addr := (p.fetched.operandAddress p.nextEntry.mode).1

/-- The processor when it is about to perform the next operation. -/
def poised (p : Processor M) : Processor M :=
  (p.fetched.operandAddress p.nextEntry.mode).2.advance p.nextEntry.size

/-- The byte in the cell that the next instruction works on. -/
def operandByte (p : Processor M) : Byte := (Bus.read p.poised.bus p.operandPlace).1

@[simp] theorem regs_fetched (p : Processor M) : p.fetched.regs = p.regs := rfl

@[simp] theorem regs_operandAddress (p : Processor M) (mode : Mode) :
    (p.operandAddress mode).2.regs = p.regs := by
  cases mode <;> rfl

theorem regs_poised (p : Processor M) :
    p.poised.regs =
      { p.regs with pc := p.regs.pc + BitVec.ofNat 16 p.nextEntry.size } := by
  rw [poised, regs_advance, regs_operandAddress, regs_fetched]

/-! ## The step -/

theorem step_of_legal {p : Processor M} (h : p.nextEntry.legal) :
    p.step = (.ok (), (p.poised.perform p.nextEntry.mode p.operandPlace
      p.nextEntry.operation).spend p.nextEntry.cycles) := by
  unfold step
  exact if_pos h

theorem step_of_illegal {p : Processor M} (h : ¬ p.nextEntry.legal) :
    p.step = (.error p.refusal, p.fetched) := by
  unfold step
  exact if_neg h

theorem regs_step_of_legal {p : Processor M} (h : p.nextEntry.legal) :
    p.step.2.regs = { (p.poised.perform p.nextEntry.mode p.operandPlace
      p.nextEntry.operation).regs with
        cycles := (p.poised.perform p.nextEntry.mode p.operandPlace
          p.nextEntry.operation).regs.cycles + BitVec.ofNat 64 p.nextEntry.cycles } := by
  rw [step_of_legal h, regs_spend]

/-- An instruction that takes its operand into the registers is always
    documented, and what it takes in is the operand byte. -/
theorem step_of_consume {p : Processor M} {f : Registers → Byte → Registers}
    (h : p.nextEntry.operation.action = .consume f) :
    p.step = (.ok (), (⟨f p.poised.regs p.operandByte,
      (Bus.read p.poised.bus p.operandPlace).2⟩ : Processor M).spend p.nextEntry.cycles) := by
  have hlegal : p.nextEntry.legal := by
    rw [OpcodeEntry.legal_iff]
    intro hop
    rw [hop] at h
    cases h
  rw [step_of_legal hlegal, perform_eq_act, h, act, consume_eq]
  rfl

/-! ## Where the operation leads -/

/-- A replaced operand concerns the program counter only as far as the function
    that replaces it does. -/
theorem pc_modify (p : Processor M) (mode : Mode) (ea : Addr)
    {f : Registers → Byte → Byte × Registers} (hf : ∀ r m, (f r m).2.pc = r.pc) :
    (p.modify mode ea f).regs.pc = p.regs.pc :=
  part_modify (·.pc) p mode ea hf fun _ _ _ => rfl

/-- All operations but branches, jumps, calls and returns go on with the next
    instruction. -/
theorem pc_perform (p : Processor M) (mode : Mode) (ea : Addr) {o : Operation}
    (hto : o.leadsToOperand = false) (helse : o.leadsElsewhere = false) :
    (p.perform mode ea o).regs.pc = p.regs.pc := by
  cases o
  case asl | lsr | rol | ror | inc | dec => exact pc_modify p mode ea fun _ _ => rfl
  case bcc | bcs | bne | beq | bpl | bmi | bvc | bvs | jmp | jsr => cases hto
  case rts | rti | brk => cases helse
  all_goals rfl

theorem pc_perform_of_conditional (p : Processor M) (mode : Mode) (ea : Addr) {o : Operation}
    (h : o.isConditional) :
    (p.perform mode ea o).regs.pc = if o.condition p.regs.p then ea else p.regs.pc := by
  have hbranch (c : Bool) : (p.branch c ea).regs.pc = if c then ea else p.regs.pc := by
    rw [regs_branch]
  cases o
  case bcc | bcs | bne | beq | bpl | bmi | bvc | bvs => exact hbranch _
  all_goals cases h

theorem pc_perform_of_jump (p : Processor M) (mode : Mode) (ea : Addr) {o : Operation}
    (h : o = .jmp ∨ o = .jsr) : (p.perform mode ea o).regs.pc = ea := by
  rcases h with rfl | rfl
  · rfl
  · rfl

end Processor

/-- How a step ends under a policy when it meets an undocumented opcode. -/
def IllegalPolicy.stop : IllegalPolicy → IllegalOpcode → Stop
  | .report => .illegal
  | .exit => .exit

namespace Machine

variable {M S : Type} [Bus M]

theorem step_of_ok {m : Machine M S} {p : Processor M} (h : m.core.step = (.ok (), p)) :
    m.step = (none, { m with core := p }) := by
  simp only [step, askCore, h]

theorem step_of_legal {m : Machine M S} (h : m.core.nextEntry.legal) :
    m.step = (none, { m with core := m.core.step.2 }) := by
  refine step_of_ok ?_
  rw [Processor.step_of_legal h]

theorem step_of_consume {m : Machine M S} {f : Registers → Byte → Registers}
    (h : m.core.nextEntry.operation.action = .consume f) :
    m.step.1 = none ∧ m.step.2.regs =
      { f m.core.poised.regs m.core.operandByte with
        cycles := (f m.core.poised.regs m.core.operandByte).cycles +
          BitVec.ofNat 64 m.core.nextEntry.cycles } := by
  have hcore := Processor.step_of_consume h
  simp only [step, askCore, hcore]
  exact ⟨trivial, Processor.regs_spend _ _⟩

/-- If the outcome of a sum or difference is what an instruction takes in, then
    accumulator and flags show it afterwards. -/
theorem step_of_accept {m : Machine M S} {f : Registers → Byte → Registers} {res : ArithResult}
    (h : m.core.nextEntry.operation.action = .consume f)
    (hf : f m.core.poised.regs m.core.operandByte = m.core.poised.regs.accept res) :
    m.step.1 = none ∧ m.step.2.regs = { m.regs.accept res with
      pc := m.core.poised.regs.pc
      cycles := m.regs.cycles + BitVec.ofNat 64 m.core.nextEntry.cycles } := by
  obtain ⟨hok, hregs⟩ := step_of_consume h
  refine ⟨hok, ?_⟩
  rw [hregs, hf, Processor.regs_poised]
  rfl

theorem step_of_illegal {m : Machine M S} (h : ¬ m.core.nextEntry.legal) :
    m.step = (some (m.onIllegal.stop m.core.refusal),
      { m with core := m.core.fetched }.note (.illegal m.core.refusal)) := by
  have hcore := Processor.step_of_illegal h
  cases hpolicy : m.onIllegal with
  | report | exit => simp [step, askCore, hcore, note, hpolicy, IllegalPolicy.stop]

/-- A step works on the processor alone: beyond it only the journal may change. -/
theorem step_snd (m : Machine M S) :
    m.step.2 = { m with core := m.core.step.2, journal := m.step.2.journal } := by
  by_cases h : m.core.nextEntry.legal
  · rw [step_of_legal h]
  · rw [step_of_illegal h, Processor.step_of_illegal h]
    rfl

/-- A step fails on an undocumented opcode and on nothing else. -/
theorem isSome_step_iff (m : Machine M S) :
    m.step.1.isSome ↔ m.core.nextEntry.operation = .illegal := by
  by_cases h : m.core.nextEntry.legal
  · rw [step_of_legal h]
    simpa using (OpcodeEntry.legal_iff _).mp h
  · rw [step_of_illegal h]
    exact iff_of_true rfl ((OpcodeEntry.not_legal_iff _).mp h)

/-! ## Several steps -/

/-- The machine after `n` steps, or the reason why one of them failed and the
    machine as that one left it. -/
def after (m : Machine M S) (n : Nat) : Option Stop × Machine M S :=
  (m.steps (fun sum _ => sum) () n).2

theorem after_succ_of_ok {m : Machine M S} (h : m.step.1 = none) (n : Nat) :
    m.after (n + 1) = m.step.2.after n := by
  rw [after, steps]
  generalize m.step = outcome at h
  obtain ⟨stop, m'⟩ := outcome
  cases h
  rfl

theorem after_succ_of_stop {m : Machine M S} {stop : Stop} (h : m.step.1 = some stop) (n : Nat) :
    m.after (n + 1) = m.step := by
  rw [after, steps]
  generalize m.step = outcome at h
  obtain ⟨stop', m'⟩ := outcome
  cases h
  rfl

end Machine

end Nmos6502
