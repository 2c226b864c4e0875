/-
  The parts of a run.

  A turn that is not ended by a request offers the machine to the hook, after an
  interrupt may have been taken and the instruction reported, and then settles
  what the hook has answered.  `offered` and `settle` are these two halves.
-/
import Nmos6502.Machine.Run
import Nmos6502.Proofs.Step

namespace Nmos6502.Machine

variable {H M S : Type} [Bus M] [InterruptSource S]

/-! ## Interrupts -/

/-- The machine after its source has been asked. -/
def polled (m : Machine M S) : Machine M S :=
  { m with source := (InterruptSource.poll m.source).2 }

omit [InterruptSource S] in
theorem irq_of_enabled {m : Machine M S} (h : m.regs.p.i = false) :
    m.irq.2 = (m.onCore (·.interrupt irqVector)).note
      (.irq (m.onCore (·.interrupt irqVector)).regs.pc) := by
  rw [irq, h]
  rfl

/-- While maskable interrupts are disabled nothing is asked. -/
theorem pollInterrupt_of_disabled {m : Machine M S} (h : m.regs.p.i) : m.pollInterrupt = m :=
  if_pos h

theorem pollInterrupt_of_enabled {m : Machine M S} (h : m.regs.p.i = false) :
    m.pollInterrupt =
      if (InterruptSource.poll m.source).1 || Bus.interrupting m.bus then m.polled.irq.2
      else m.polled := by
  rw [pollInterrupt, h]
  rfl

/-! ## Turns -/

/-- The machine as the hook gets it. -/
def offered (m : Machine M S) : Machine M S := m.pollInterrupt.report

omit [InterruptSource S] in
/-- What a turn makes of the answer of the hook. -/
def settle : Verdict × H × Machine M S → Option Ending × H × Machine M S
  | (.handled, k, m) => (none, k, m)
  | (.exit e, k, m) => (some (.stopped (.exit e)), k, m)
  | (.declined, k, m) => (m.step.1.map .stopped, k, m.step.2)

variable {hook : Hook H M S} {k : H} {m : Machine M S}

theorem turn_of_quit (h : m.quit) :
    turn hook k m = (some .quit, k, m.note (.quit m.regs.pc m.regs.cycles)) :=
  if_pos h

theorem turn_of_not_quit (h : m.quit = false) : turn hook k m = settle (hook k m.offered) := by
  have hquit : ¬ m.quit = true := Bool.eq_false_iff.mp h
  rw [turn, if_neg hquit, ← offered]
  obtain ⟨verdict, k', m'⟩ := hook k m.offered
  cases verdict with
  | handled | exit => rfl
  | declined =>
    dsimp only [settle]
    obtain ⟨stop, m''⟩ := m'.step
    cases stop with
    | none | some => rfl

/-! ## Runs -/

theorem run_of_ended {ending : Ending} (h : (turn hook k m).1 = some ending) (fuel : Nat) :
    run hook (fuel + 1) k m = turn hook k m := by
  rw [run]
  generalize turn hook k m = outcome at h
  obtain ⟨ending', k', m'⟩ := outcome
  cases h
  rfl

theorem run_of_going_on (h : (turn hook k m).1 = none) (fuel : Nat) :
    run hook (fuel + 1) k m = run hook fuel (turn hook k m).2.1 (turn hook k m).2.2 := by
  rw [run]
  generalize turn hook k m = outcome at h
  obtain ⟨ending, k', m'⟩ := outcome
  cases h
  rfl

end Nmos6502.Machine
