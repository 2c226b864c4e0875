/-
  What a machine does to its bus.

  A processor has no other way to its bus than reading and writing, so whatever
  it does, the bus becomes what some accesses make of it.  The same is true of a
  whole run if it is true of the hook.  A property of the bus that no access
  changes is then kept by every program.
-/
import Nmos6502.Proofs.Cells
import Nmos6502.Proofs.Run
import Nmos6502.SelfTest

namespace Nmos6502

variable {M : Type} [Bus M]

namespace Bus

/-- What the bus can become by accesses of any kind. -/
abbrev Becomes (bus bus' : M) : Prop := Reaches (fun _ => True) bus bus'

theorem becomes_jumpTargetAt (bus : M) (ptr : Addr) : Becomes bus (jumpTargetAt bus ptr).2 :=
  .read (.read .refl _) _

theorem becomes_bytesAt (bus : M) (a : Addr) (n : Nat) : Becomes bus (bytesAt bus a n).2 := by
  induction n generalizing bus a with
  | zero => exact .refl
  | succ n ih =>
    have hfirst : Becomes bus (Bus.read bus a).2 := .read .refl a
    exact hfirst.trans (ih _ (a + 1))

theorem becomes_fetch (bus : M) (a : Addr) : Becomes bus (Instruction.fetch bus a).2 := by
  have hopcode : Becomes bus (Bus.read bus a).2 := .read .refl a
  have hbytes := hopcode.trans (becomes_bytesAt _ (a + 1)
    (opcodeEntry (Bus.read bus a).1).mode.operandLength)
  unfold Instruction.fetch
  dsimp only
  split
  · exact hbytes.trans (becomes_jumpTargetAt _ _)
  · exact hbytes

/-- Accesses keep a bus within what it can become. -/
theorem simulation_becomes (bus : M) : Simulation fun m n : M => Becomes bus m ∧ m = n where
  read := by
    rintro m n ⟨h, rfl⟩ a
    exact ⟨rfl, h.read a, rfl⟩
  write := by
    rintro m n ⟨h, rfl⟩ a b
    exact ⟨h.write trivial b, rfl⟩

end Bus

open Bus (Becomes)

/-! ## Processors -/

namespace Processor

theorem alike_self (p : Processor M) : Alike (fun m n => Becomes p.bus m ∧ m = n) p p :=
  ⟨rfl, .refl, rfl⟩

theorem becomes_step (p : Processor M) : Becomes p.bus p.step.2.bus :=
  (p.alike_self.step (Bus.simulation_becomes p.bus)).2.bus.1

theorem becomes_interrupt (p : Processor M) (v : Addr) : Becomes p.bus (p.interrupt v).bus :=
  (p.alike_self.interrupt (Bus.simulation_becomes p.bus) v).bus.1

theorem becomes_reset (p : Processor M) : Becomes p.bus p.reset.bus :=
  (p.alike_self.gotoVector (Bus.simulation_becomes p.bus) resetVector).bus.1

end Processor

/-! ## Machines -/

namespace Machine

variable {S H : Type}

theorem becomes_step (m : Machine M S) : Becomes m.bus m.step.2.bus := by
  rw [step_snd]
  exact m.core.becomes_step

theorem becomes_after (m : Machine M S) (n : Nat) : Becomes m.bus (m.after n).2.bus := by
  induction n generalizing m with
  | zero => exact .refl
  | succ n ih =>
    cases hstop : m.step.1 with
    | some stop =>
      rw [after_succ_of_stop hstop]
      exact m.becomes_step
    | none =>
      rw [after_succ_of_ok hstop]
      exact m.becomes_step.trans (ih m.step.2)

theorem becomes_report (m : Machine M S) : Becomes m.bus m.report.bus := by
  unfold report
  split
  · exact Bus.becomes_fetch m.bus m.regs.pc
  · exact .refl

variable [InterruptSource S]

theorem becomes_pollInterrupt (m : Machine M S) : Becomes m.bus m.pollInterrupt.bus := by
  cases hi : m.regs.p.i with
  | true =>
    rw [pollInterrupt_of_disabled hi]
    exact .refl
  | false =>
    rw [pollInterrupt_of_enabled hi]
    split
    · rw [irq_of_enabled (m := m.polled) hi]
      exact m.core.becomes_interrupt irqVector
    · exact .refl

end Machine

/-- The hook does to the bus what can be done by accesses. -/
def Hook.Orderly {H S : Type} (hook : Hook H M S) : Prop :=
  ∀ k m, Becomes m.bus (hook k m).2.2.bus

theorem Hook.none_orderly {S : Type} : (Hook.none : Hook Unit M S).Orderly := fun _ _ => .refl

namespace Machine

variable {S H : Type} [InterruptSource S] {hook : Hook H M S}

omit [InterruptSource S] in
theorem becomes_settle (x : Verdict × H × Machine M S) : Becomes x.2.2.bus (settle x).2.2.bus := by
  obtain ⟨verdict, k, m⟩ := x
  cases verdict with
  | handled | exit => exact .refl
  | declined => exact m.becomes_step

theorem becomes_turn (horderly : hook.Orderly) (k : H) (m : Machine M S) :
    Becomes m.bus (turn hook k m).2.2.bus := by
  cases hquit : m.quit with
  | true =>
    rw [turn_of_quit hquit]
    exact .refl
  | false =>
    rw [turn_of_not_quit hquit]
    have hoffered := m.becomes_pollInterrupt.trans m.pollInterrupt.becomes_report
    exact (hoffered.trans (horderly k m.offered)).trans (becomes_settle _)

/-- A run under such a hook does to the bus what can be done by accesses. -/
theorem becomes_run (horderly : hook.Orderly) (fuel : Nat) (k : H) (m : Machine M S) :
    Becomes m.bus (run hook fuel k m).2.2.bus := by
  induction fuel generalizing k m with
  | zero => exact .refl
  | succ fuel ih =>
    have hturn := becomes_turn horderly k m
    cases hending : (turn hook k m).1 with
    | some ending =>
      rw [run_of_ended hending]
      exact hturn
    | none =>
      rw [run_of_going_on hending]
      exact hturn.trans (ih _ _)

end Machine

namespace SelfTest

/-- The hook of a self-test reads three bytes of the program and mostly the
    number of the group, and does no more to the bus. -/
theorem watch_orderly {S : Type} : (Watcher.watch : Hook Watcher M S).Orderly := by
  intro w m
  have hbytes : Becomes m.bus (((m.read m.regs.pc).2.read (m.regs.pc + 1)).2.read
      (m.regs.pc + 2)).2.bus := .read (.read (.read .refl _) _) _
  unfold Watcher.watch
  split
  · unfold Watcher.inspect
    dsimp only
    split
    · exact hbytes.read _
    · split
      · exact hbytes
      · split
        · exact hbytes.read _
        · exact hbytes.read _
  · exact .refl

end SelfTest

end Nmos6502
