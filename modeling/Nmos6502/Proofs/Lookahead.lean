/-
  Looking ahead.

  The instruction decoded from memory and the step taken there find their
  operand in two different ways: the one collects bytes and works a destination
  out of them, the other resolves an addressing mode.  The theorem at the end
  says that nobody can tell them apart: what is decoded at the program counter
  tells whether the step fails, how far it goes and where it leads.

  Both read the same cells in the same order, so this holds on every bus, also
  where reading changes what is read.  It holds at every program counter and
  for every placement of code, stack and pointers, since the operand has been
  read before the operation writes anything.
-/
import Nmos6502.Instruction
import Nmos6502.Proofs.Step

namespace Nmos6502

variable {M : Type} [Bus M]

theorem Bus.length_bytesAt (bus : M) (a : Addr) (n : Nat) : (bytesAt bus a n).1.length = n := by
  induction n generalizing bus a with
  | zero => rfl
  | succ n ih =>
    rw [bytesAt, List.length_cons, ih]

namespace Instruction

/-! ## What is decoded -/

/-- The bytes read make the instruction, all but the target of an indirect jump. -/
theorem fetch_eq (bus : M) (a : Addr) :
    (fetch bus a).1 = { ofParts a (Bus.read bus a).1 (Bus.bytesAt (Bus.read bus a).2 (a + 1)
        (opcodeEntry (Bus.read bus a).1).mode.operandLength).1 with
      target := (fetch bus a).1.target } := by
  unfold fetch
  dsimp only
  split
  · rfl
  · rfl

theorem address_fetch (bus : M) (a : Addr) : (fetch bus a).1.address = a :=
  congrArg address (fetch_eq bus a)

theorem operation_fetch (bus : M) (a : Addr) :
    (fetch bus a).1.operation = (opcodeEntry (Bus.read bus a).1).operation :=
  congrArg operation (fetch_eq bus a)

theorem mnemonic_fetch (bus : M) (a : Addr) :
    (fetch bus a).1.mnemonic = (opcodeEntry (Bus.read bus a).1).operation.mnemonic :=
  congrArg mnemonic (fetch_eq bus a)

theorem conditional_fetch (bus : M) (a : Addr) :
    (fetch bus a).1.conditional = (opcodeEntry (Bus.read bus a).1).operation.isConditional :=
  congrArg conditional (fetch_eq bus a)

theorem bytes_fetch (bus : M) (a : Addr) :
    (fetch bus a).1.bytes = (Bus.read bus a).1 ::
      (Bus.bytesAt (Bus.read bus a).2 (a + 1)
        (opcodeEntry (Bus.read bus a).1).mode.operandLength).1 :=
  congrArg bytes (fetch_eq bus a)

theorem size_fetch (bus : M) (a : Addr) :
    (fetch bus a).1.size = BitVec.ofNat 16 (opcodeEntry (Bus.read bus a).1).size := by
  rw [size, bytes_fetch, List.length_cons, Bus.length_bytesAt, OpcodeEntry.size, Nat.add_comm]

theorem target_fetch (bus : M) (a : Addr) (h : (opcodeEntry (Bus.read bus a).1).mode ≠ .indirect) :
    (fetch bus a).1.target = directTarget a (opcodeEntry (Bus.read bus a).1)
      (Bus.bytesAt (Bus.read bus a).2 (a + 1)
        (opcodeEntry (Bus.read bus a).1).mode.operandLength).1 := by
  unfold fetch
  dsimp only
  rw [if_neg h]
  rfl

theorem target_fetch_of_indirect (bus : M) (a : Addr)
    (h : (opcodeEntry (Bus.read bus a).1).mode = .indirect) :
    (fetch bus a).1.target = some (Bus.jumpTargetAt
      (Bus.bytesAt (Bus.read bus a).2 (a + 1) 2).2
      (firstWord (Bus.bytesAt (Bus.read bus a).2 (a + 1) 2).1)).1 := by
  unfold fetch
  dsimp only
  rw [if_pos h, h]
  rfl

/-! ## What is decoded against what is resolved -/

/-- A branch, jump or call is decoded with the address that the step resolves:
    the two read the same bytes and put them together in the same way. -/
theorem target_fetch_of_leadsToOperand (p : Processor M)
    (h : p.nextEntry.operation.leadsToOperand) :
    (fetch p.bus p.regs.pc).1.target = some p.operandPlace := by
  have hrel := (suited_opcodeEntry (Bus.read p.bus p.regs.pc).1).relative
  have hjmp := (suited_opcodeEntry (Bus.read p.bus p.regs.pc).1).jmp
  have hjsr := (suited_opcodeEntry (Bus.read p.bus p.regs.pc).1).jsr
  rw [Operation.leadsToOperand, Bool.or_eq_true, Bool.or_eq_true, beq_iff_eq, beq_iff_eq] at h
  unfold Processor.operandPlace Processor.nextEntry at *
  rcases h with (hc | hop) | hop
  -- a branch: one byte read, and the displacement counted from the same place
  · have hmode := hrel.mpr hc
    rw [target_fetch _ _ (by rw [hmode]; decide), directTarget, hmode]
    rfl
  · rcases hjmp hop with hmode | hmode
    · rw [target_fetch _ _ (by rw [hmode]; decide), directTarget, hmode, hop]
      rfl
    -- the pointer is followed on the bus as the operand bytes leave it
    · rw [target_fetch_of_indirect _ _ hmode, hmode]
      rfl
  · have hmode := hjsr hop
    rw [target_fetch _ _ (by rw [hmode]; decide), directTarget, hmode, hop]
    rfl

/-- Anything else is decoded without a target. -/
theorem target_fetch_of_not_leadsToOperand (bus : M) (a : Addr)
    (h : (opcodeEntry (Bus.read bus a).1).operation.leadsToOperand = false) :
    (fetch bus a).1.target = none := by
  have hrel := (suited_opcodeEntry (Bus.read bus a).1).relative
  have hind := (suited_opcodeEntry (Bus.read bus a).1).indirect
  rw [Operation.leadsToOperand, Bool.or_eq_false_iff, Bool.or_eq_false_iff, beq_eq_false_iff_ne,
    beq_eq_false_iff_ne] at h
  obtain ⟨⟨hc, hnjmp⟩, hnjsr⟩ := h
  rw [target_fetch _ _ (fun hmode => hnjmp (hind hmode)), directTarget]
  split
  · next hmode => exact absurd (hrel.mp hmode) (by simp [hc])
  · next hop => exact absurd hop hnjmp
  · next hop => exact absurd hop hnjsr
  · rfl

end Instruction

namespace Machine

variable {S : Type}

/-- What is decoded at the program counter is what the step then does.  The step
    fails exactly when the opcode is undocumented.  Otherwise a branch goes to
    the target if its condition holds and to the next instruction if not, a
    jump or call goes to the target, and every operation that does not take the
    program counter from memory goes to the next instruction. -/
theorem step_goes_where_fetch_says (m : Machine M S) :
    let i := (Instruction.fetch m.bus m.regs.pc).1
    let m' := m.step.2
    (m.step.1.isSome ↔ i.operation = .illegal) ∧
      (i.operation ≠ .illegal →
        (i.conditional → ∃ t, i.target = some t ∧
          m'.regs.pc = if i.operation.condition m.regs.p then t else m.regs.pc + i.size) ∧
        (i.operation = .jmp ∨ i.operation = .jsr → i.target = some m'.regs.pc) ∧
        (i.conditional = false → i.operation ∉ [.jmp, .jsr, .rts, .rti, .brk] →
          i.target = none ∧ m'.regs.pc = m.regs.pc + i.size)) := by
  intro i m'
  have hop : i.operation = m.core.nextEntry.operation := Instruction.operation_fetch _ _
  have hconditional : i.conditional = i.operation.isConditional := by
    rw [Instruction.conditional_fetch, Instruction.operation_fetch]
  have hsize : m.core.poised.regs.pc = m.regs.pc + i.size := by
    rw [Processor.regs_poised, Instruction.size_fetch]
    rfl
  have hflags : m.core.poised.regs.p = m.regs.p := by rw [Processor.regs_poised]
  refine ⟨by rw [isSome_step_iff, hop], fun hlegal => ?_⟩
  have hentry : m.core.nextEntry.legal := by
    rw [OpcodeEntry.legal_iff, ← hop]
    exact hlegal
  -- charging the cycles leaves the program counter to the operation
  have hpc : m'.regs.pc = (m.core.poised.perform m.core.nextEntry.mode m.core.operandPlace
      i.operation).regs.pc := by
    show m.step.2.core.regs.pc = _
    rw [step_of_legal hentry, Processor.regs_step_of_legal hentry, hop]
  rw [hconditional]
  refine ⟨fun hc => ?_, fun hjump => ?_, fun hnc hnot => ?_⟩
  -- a branch, taken or not
  · have hto : m.core.nextEntry.operation.leadsToOperand := by
      rw [← hop, Operation.leadsToOperand]
      simp [hc]
    refine ⟨_, Instruction.target_fetch_of_leadsToOperand m.core hto, ?_⟩
    rw [hpc, Processor.pc_perform_of_conditional _ _ _ hc, hflags, hsize]
  -- a jump or a call
  · have hto : m.core.nextEntry.operation.leadsToOperand := by
      rw [← hop, Operation.leadsToOperand]
      rcases hjump with hj | hj
      · simp [hj]
      · simp [hj]
    rw [hpc, Processor.pc_perform_of_jump _ _ _ hjump]
    exact Instruction.target_fetch_of_leadsToOperand m.core hto
  -- an operation that goes on with the next instruction
  · simp only [List.mem_cons, List.not_mem_nil, or_false, not_or] at hnot
    obtain ⟨hjmp, hjsr, hrts, hrti, hbrk⟩ := hnot
    have hto : i.operation.leadsToOperand = false := by
      simp [Operation.leadsToOperand, hnc, hjmp, hjsr]
    have helse : i.operation.leadsElsewhere = false := by
      simp [Operation.leadsElsewhere, hrts, hrti, hbrk]
    refine ⟨Instruction.target_fetch_of_not_leadsToOperand _ _ ?_, ?_⟩
    · rw [← Instruction.operation_fetch]
      exact hto
    · rw [hpc, Processor.pc_perform _ _ _ hto helse, hsize]

end Machine

end Nmos6502
