/-
  Buses that a processor cannot tell apart.

  A relation between two kinds of bus is a simulation if related buses answer a
  read alike and stay related under every access.  Processors with the same
  registers on related buses are then alike for ever: whatever one of them
  does, the other does as well, with the same result.

  With a relation that looks at one side only this is an invariant of that bus,
  so the theorem also serves to show what no instruction can change.
-/
import Nmos6502.Proofs.Step

namespace Nmos6502

variable {M N : Type} [Bus M] [Bus N]

/-! ## Sequences of accesses -/

/-- An access to a bus. -/
inductive Bus.Query where
  | read (a : Addr)
  | write (a : Addr) (b : Byte)

/-- The bytes with which a bus answers the reads of a sequence of accesses. -/
def Bus.answers (bus : M) : List Bus.Query → List Byte
  | [] => []
  | .read a :: queries => (Bus.read bus a).1 :: Bus.answers (Bus.read bus a).2 queries
  | .write a b :: queries => Bus.answers (Bus.write bus a b) queries

/-! ## Related buses -/

/-- Related buses give the same bytes and stay related. -/
structure Bus.Simulation (R : M → N → Prop) : Prop where
  read : ∀ {m : M} {n : N}, R m n → ∀ a,
    (Bus.read m a).1 = (Bus.read n a).1 ∧ R (Bus.read m a).2 (Bus.read n a).2
  write : ∀ {m : M} {n : N}, R m n → ∀ a b, R (Bus.write m a b) (Bus.write n a b)

/-- The same registers on related buses. -/
structure Processor.Alike (R : M → N → Prop) (p : Processor M) (q : Processor N) : Prop where
  regs : p.regs = q.regs
  bus : R p.bus q.bus

namespace Bus.Simulation

variable {R : M → N → Prop} {m : M} {n : N}

theorem answers (sim : Simulation R) (h : R m n) (queries : List Bus.Query) :
    Bus.answers m queries = Bus.answers n queries := by
  induction queries generalizing m n with
  | nil => rfl
  | cons query queries ih =>
    cases query with
    | read a =>
      obtain ⟨hb, h⟩ := sim.read h a
      rw [Bus.answers, Bus.answers, hb, ih h]
    | write a b =>
      rw [Bus.answers, Bus.answers, ih (sim.write h a b)]

theorem wordAt (sim : Simulation R) (h : R m n) (a : Addr) :
    (Bus.wordAt m a).1 = (Bus.wordAt n a).1 ∧ R (Bus.wordAt m a).2 (Bus.wordAt n a).2 := by
  obtain ⟨hlo, h⟩ := sim.read h a
  obtain ⟨hhi, h⟩ := sim.read h (a + 1)
  refine ⟨?_, h⟩
  rw [wordAt_fst, wordAt_fst, hlo, hhi]

theorem zeroPageWordAt (sim : Simulation R) (h : R m n) {z z' : Byte} (hz : z = z') :
    (Bus.zeroPageWordAt m z).1 = (Bus.zeroPageWordAt n z').1 ∧
      R (Bus.zeroPageWordAt m z).2 (Bus.zeroPageWordAt n z').2 := by
  subst hz
  obtain ⟨hlo, h⟩ := sim.read h (zeroPage z)
  obtain ⟨hhi, h⟩ := sim.read h (zeroPage (z + 1))
  refine ⟨?_, h⟩
  rw [zeroPageWordAt_fst, zeroPageWordAt_fst, hlo, hhi]

theorem jumpTargetAt (sim : Simulation R) (h : R m n) {ptr ptr' : Addr} (hptr : ptr = ptr') :
    (Bus.jumpTargetAt m ptr).1 = (Bus.jumpTargetAt n ptr').1 ∧
      R (Bus.jumpTargetAt m ptr).2 (Bus.jumpTargetAt n ptr').2 := by
  subst hptr
  obtain ⟨hlo, h⟩ := sim.read h ptr
  obtain ⟨hhi, h⟩ := sim.read h (pointerHigh ptr)
  refine ⟨?_, h⟩
  rw [jumpTargetAt_fst, jumpTargetAt_fst, hlo, hhi]

end Bus.Simulation

namespace Processor.Alike

open Bus (Simulation)

variable {R : M → N → Prop} {p : Processor M} {q : Processor N}

/-! ## Registers, memory and stack -/

omit [Bus M] [Bus N] in
theorem update (h : Alike R p q) (f : Registers → Registers) :
    Alike R (p.update f) (q.update f) :=
  ⟨congrArg f h.regs, h.bus⟩

omit [Bus M] [Bus N] in
theorem goto (h : Alike R p q) (a : Addr) : Alike R (p.goto a) (q.goto a) := h.update _

omit [Bus M] [Bus N] in
theorem advance (h : Alike R p q) (n : Nat) : Alike R (p.advance n) (q.advance n) := by
  rw [Processor.advance, Processor.advance, h.regs]
  exact h.goto _

omit [Bus M] [Bus N] in
theorem spend (h : Alike R p q) (n : Nat) : Alike R (p.spend n) (q.spend n) := h.update _

theorem read (sim : Simulation R) (h : Alike R p q) (a : Addr) :
    (p.read a).1 = (q.read a).1 ∧ Alike R (p.read a).2 (q.read a).2 :=
  have ⟨hb, hbus⟩ := sim.read h.bus a
  ⟨hb, h.regs, hbus⟩

theorem write (sim : Simulation R) (h : Alike R p q) (a : Addr) (b : Byte) :
    Alike R (p.write a b) (q.write a b) :=
  ⟨h.regs, sim.write h.bus a b⟩

theorem gotoVector (sim : Simulation R) (h : Alike R p q) (v : Addr) :
    Alike R (p.gotoVector v) (q.gotoVector v) := by
  obtain ⟨htarget, hbus⟩ := sim.wordAt h.bus v
  refine ⟨?_, hbus⟩
  rw [regs_gotoVector, regs_gotoVector, htarget, h.regs]

theorem push (sim : Simulation R) (h : Alike R p q) (b : Byte) :
    Alike R (p.push b) (q.push b) := by
  rw [Processor.push, Processor.push, h.regs]
  exact (h.write sim _ _).update _

theorem pull (sim : Simulation R) (h : Alike R p q) :
    p.pull.1 = q.pull.1 ∧ Alike R p.pull.2 q.pull.2 := by
  rw [Processor.pull, Processor.pull, h.regs]
  exact (h.update _).read sim _

theorem pushAddr (sim : Simulation R) (h : Alike R p q) (w : Addr) :
    Alike R (p.pushAddr w) (q.pushAddr w) :=
  (h.push sim _).push sim _

theorem pullAddr (sim : Simulation R) (h : Alike R p q) :
    p.pullAddr.1 = q.pullAddr.1 ∧ Alike R p.pullAddr.2 q.pullAddr.2 := by
  obtain ⟨hlo, h⟩ := h.pull sim
  obtain ⟨hhi, h⟩ := h.pull sim
  refine ⟨?_, h⟩
  rw [pullAddr_fst, pullAddr_fst, hlo, hhi]

/-! ## Subroutines and handlers -/

theorem call (sim : Simulation R) (h : Alike R p q) (a : Addr) :
    Alike R (p.call a) (q.call a) := by
  rw [Processor.call, Processor.call, h.regs]
  exact (h.pushAddr sim _).goto _

theorem leave (sim : Simulation R) (h : Alike R p q) : Alike R p.leave q.leave := by
  obtain ⟨hw, h⟩ := h.pullAddr sim
  rw [leave_eq, leave_eq, hw]
  exact h.goto _

theorem enterHandler (sim : Simulation R) (h : Alike R p q) (back : Addr) (pushed : Status)
    (v : Addr) : Alike R (p.enterHandler back pushed v) (q.enterHandler back pushed v) :=
  (((h.pushAddr sim _).push sim _).update _).gotoVector sim _

theorem interrupt (sim : Simulation R) (h : Alike R p q) (v : Addr) :
    Alike R (p.interrupt v) (q.interrupt v) := by
  rw [Processor.interrupt, Processor.interrupt, h.regs]
  exact (h.enterHandler sim _ _ _).spend _

theorem softwareInterrupt (sim : Simulation R) (h : Alike R p q) :
    Alike R p.softwareInterrupt q.softwareInterrupt := by
  have hb := h.update fun r => { r with p := { r.p with b := true } }
  rw [Processor.softwareInterrupt, Processor.softwareInterrupt, hb.regs]
  exact hb.enterHandler sim _ _ _

theorem leaveHandler (sim : Simulation R) (h : Alike R p q) :
    Alike R p.leaveHandler q.leaveHandler := by
  obtain ⟨hflags, h⟩ := h.pull sim
  obtain ⟨htarget, h⟩ := h.pullAddr sim
  rw [leaveHandler_eq, leaveHandler_eq, hflags, htarget]
  exact (h.update _).goto _

/-! ## One instruction -/

theorem operandAddress (sim : Simulation R) (h : Alike R p q) (mode : Mode) :
    (p.operandAddress mode).1 = (q.operandAddress mode).1 ∧
      Alike R (p.operandAddress mode).2 (q.operandAddress mode).2 := by
  obtain ⟨r, m⟩ := p
  obtain ⟨r', n⟩ := q
  obtain rfl : r = r' := h.regs
  -- every mode begins with one of these two reads, or with none
  have hbyte := sim.read h.bus (r.pc + 1)
  have hword := sim.wordAt h.bus (r.pc + 1)
  cases mode with
  | implied | accumulator | immediate => exact ⟨rfl, h⟩
  | zeroPage => exact ⟨congrArg zeroPage hbyte.1, rfl, hbyte.2⟩
  | zeroPageX | zeroPageY => exact ⟨congrArg (fun z => zeroPage (z + _)) hbyte.1, rfl, hbyte.2⟩
  | relative => exact ⟨congrArg (branchDestination r.pc) hbyte.1, rfl, hbyte.2⟩
  | absolute => exact ⟨hword.1, rfl, hword.2⟩
  | absoluteX | absoluteY => exact ⟨congrArg (· + _) hword.1, rfl, hword.2⟩
  | indirect =>
    have hjump := sim.jumpTargetAt hword.2 hword.1
    exact ⟨hjump.1, rfl, hjump.2⟩
  | indexedIndirect =>
    have hptr := sim.zeroPageWordAt hbyte.2 (congrArg (· + r.x) hbyte.1)
    exact ⟨hptr.1, rfl, hptr.2⟩
  | indirectIndexed =>
    have hptr := sim.zeroPageWordAt hbyte.2 hbyte.1
    exact ⟨congrArg (· + r.y.setWidth 16) hptr.1, rfl, hptr.2⟩

theorem consume (sim : Simulation R) (h : Alike R p q) (ea : Addr)
    (f : Registers → Byte → Registers) : Alike R (p.consume ea f) (q.consume ea f) := by
  obtain ⟨hm, hbus⟩ := sim.read h.bus ea
  rw [consume_eq, consume_eq, h.regs, hm]
  exact ⟨rfl, hbus⟩

theorem modify (sim : Simulation R) (h : Alike R p q) (mode : Mode) (ea : Addr)
    (f : Registers → Byte → Byte × Registers) :
    Alike R (p.modify mode ea f) (q.modify mode ea f) := by
  by_cases hmode : mode = .accumulator
  · rw [hmode, modify_accumulator, modify_accumulator, h.regs]
    exact ⟨rfl, h.bus⟩
  · obtain ⟨hm, hbus⟩ := sim.read h.bus ea
    rw [modify_cell p hmode, modify_cell q hmode, h.regs, hm]
    exact ⟨rfl, sim.write hbus _ _⟩

omit [Bus M] [Bus N] in
theorem branch (h : Alike R p q) (c : Bool) (a : Addr) :
    Alike R (p.branch c a) (q.branch c a) := by
  cases c with
  | true => exact h.goto a
  | false => exact h

theorem act (sim : Simulation R) (h : Alike R p q) (mode : Mode) (ea : Addr) (action : Action) :
    Alike R (p.act mode ea action) (q.act mode ea action) := by
  obtain ⟨r, m⟩ := p
  obtain ⟨r', n⟩ := q
  obtain rfl : r = r' := h.regs
  cases action with
  | consume f => exact h.consume sim ea f
  | store f => exact h.write sim ea _
  | modify f => exact h.modify sim mode ea f
  | update f => exact h.update f
  | branch condition => exact h.branch _ ea
  | jump => exact h.goto ea
  | call => exact h.call sim ea
  | leave => exact h.leave sim
  | leaveHandler => exact h.leaveHandler sim
  | softwareInterrupt => exact h.softwareInterrupt sim
  | push f => exact h.push sim _
  | pull f =>
    obtain ⟨hm, h⟩ := h.pull sim
    rw [Processor.act, Processor.act, hm]
    exact h.update _

/-- Alike processors take the same step, with the same outcome, and stay alike. -/
theorem step (sim : Simulation R) (h : Alike R p q) :
    p.step.1 = q.step.1 ∧ Alike R p.step.2 q.step.2 := by
  obtain ⟨hopcode, hfetched⟩ := h.read sim p.regs.pc
  have hpc : p.regs.pc = q.regs.pc := by rw [h.regs]
  have hentry : p.nextEntry = q.nextEntry := by
    rw [nextEntry, nextEntry, ← hpc]
    exact congrArg opcodeEntry hopcode
  have hfetched : Alike R p.fetched q.fetched := by
    rw [fetched, fetched, ← hpc]
    exact hfetched
  by_cases hlegal : p.nextEntry.legal
  · obtain ⟨hea, hfound⟩ := hfetched.operandAddress sim p.nextEntry.mode
    rw [step_of_legal hlegal, step_of_legal (hentry ▸ hlegal), perform_eq_act, perform_eq_act,
      operandPlace, operandPlace, poised, poised, ← hentry, hea]
    exact ⟨rfl, ((hfound.advance _).act sim _ _ _).spend _⟩
  · have hrefusal : p.refusal = q.refusal := by
      rw [read_fst, read_fst] at hopcode
      rw [refusal, refusal, ← hpc, hopcode]
    rw [step_of_illegal hlegal, step_of_illegal (hentry ▸ hlegal), hrefusal]
    exact ⟨rfl, hfetched⟩

end Processor.Alike

end Nmos6502
