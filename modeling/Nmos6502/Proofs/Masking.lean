/-
  Handlers are not interrupted.

  To enter a handler sets I, and with I set no turn enters one.  Only three
  operations can clear the flag again: the one made for it, and the two that
  take all flags from the stack.  So unless the hook meddles with the flag, one
  of these is executed between any two entries of a run.
-/
import Mathlib.Data.List.Basic
import Nmos6502.Proofs.Polling

namespace Nmos6502

/-! ## Operations and the flag -/

/-- The operations that can enable interrupts. -/
def Operation.enablers : List Operation := [.cli, .plp, .rti]

namespace Processor

variable {M : Type} [Bus M]

/-- No other operation clears the flag. -/
theorem disabled_perform {p : Processor M} (mode : Mode) (ea : Addr) {o : Operation}
    (hi : p.regs.p.i = true) (ho : o ∉ Operation.enablers) :
    (p.perform mode ea o).regs.p.i = true := by
  have hmodify {f : Registers → Byte → Byte × Registers}
      (hf : ∀ r m, (f r m).2.p.i = r.p.i) : (p.modify mode ea f).regs.p.i = true :=
    (part_modify (·.p.i) p mode ea hf fun _ _ _ => rfl).trans hi
  have hbranch (c : Bool) : (p.branch c ea).regs.p.i = true := by
    rw [regs_branch]
    exact hi
  cases o with
  | asl | lsr | rol | ror | inc | dec => exact hmodify fun _ _ => rfl
  | bcc | bcs | bne | beq | bpl | bmi | bvc | bvs => exact hbranch _
  | cli | plp | rti => exact absurd (by decide) ho
  | sei | brk => rfl
  | _ => exact hi

theorem disabled_step {p : Processor M} (hi : p.regs.p.i = true)
    (ho : p.nextEntry.operation ∉ Operation.enablers) : p.step.2.regs.p.i = true := by
  by_cases hlegal : p.nextEntry.legal
  · have hpoised : p.poised.regs.p.i = true := by
      rw [regs_poised]
      exact hi
    rw [regs_step_of_legal hlegal]
    exact disabled_perform _ _ hpoised ho
  · rw [step_of_illegal hlegal]
    exact hi

end Processor

/-- The hook leaves the flag as it finds it, like every hook that changes nothing
    but the request to end. -/
def Hook.LeavesMask {H M S : Type} (hook : Hook H M S) : Prop :=
  ∀ k m, (hook k m).2.2.regs.p.i = m.regs.p.i

namespace Machine

variable {H M S : Type} [Bus M] [InterruptSource S]

/-! ## Turns and the flag -/

/-- The operation that a turn executes, if the hook leaves that to the machine. -/
def executed (hook : Hook H M S) (k : H) (m : Machine M S) : Option Operation :=
  match hook k m.offered with
  | (.declined, _, m) => some m.core.nextEntry.operation
  | _ => none

variable {hook : Hook H M S} {k : H} {m : Machine M S}

/-- A turn that begins with interrupts disabled, or enters the handler, ends with
    interrupts disabled unless it executes an enabling operation. -/
theorem disabled_turn (hleaves : hook.LeavesMask) (hquit : m.quit = false)
    (hi : m.pollInterrupt.regs.p.i = true)
    (ho : ∀ o ∈ executed hook k m, o ∉ Operation.enablers) :
    (turn hook k m).2.2.regs.p.i = true := by
  have hoffered : (hook k m.offered).2.2.regs.p.i = true := by
    rw [hleaves, offered, regs_report]
    exact hi
  rw [turn_of_not_quit hquit]
  unfold executed at ho
  generalize hook k m.offered = answer at hoffered ho
  obtain ⟨verdict, k', m'⟩ := answer
  cases verdict with
  | handled | exit => exact hoffered
  | declined =>
    rw [settle, step_snd]
    exact Processor.disabled_step hoffered (ho _ rfl)

/-- As long as no enabling operation is executed, interrupts stay disabled. -/
theorem disabled_run (hleaves : hook.LeavesMask) {n : Nat} {t : H × Machine M S}
    (hi : m.regs.p.i = true) (hrun : run hook n k m = (none, t))
    (ho : ∀ z ∈ turnsBegun hook n k m, ∀ o ∈ executed hook z.1 z.2, o ∉ Operation.enablers) :
    t.2.regs.p.i = true := by
  induction n generalizing k m with
  | zero =>
    cases hrun
    exact hi
  | succ n ih =>
    obtain ⟨hquit, hgoes⟩ := going_on_of_run (congrArg (·.1) hrun)
    rw [turnsBegun_of_going_on hquit hgoes, List.forall_mem_cons] at ho
    rw [run_of_going_on hgoes] at hrun
    have hpolled : m.pollInterrupt.regs.p.i = true := by
      rw [pollInterrupt_of_disabled hi]
      exact hi
    exact ih (disabled_turn hleaves hquit hpolled ho.1) hrun ho.2

/-- From one entry of a run to another an enabling operation is executed. -/
theorem enabled_between (hleaves : hook.LeavesMask) {n : Nat} {t : H × Machine M S}
    (hentered : m.entersIrq) (hrun : run hook (n + 1) k m = (none, t)) (hagain : t.2.entersIrq) :
    ∃ z ∈ turnsBegun hook (n + 1) k m, ∃ o ∈ Operation.enablers,
      executed hook z.1 z.2 = some o := by
  -- otherwise the flag, set by the first entry, would forbid the second
  refine Classical.byContradiction fun hnone => ?_
  have ho : ∀ z ∈ turnsBegun hook (n + 1) k m, ∀ o ∈ executed hook z.1 z.2,
      o ∉ Operation.enablers := fun z hz o hexecuted ho => hnone ⟨z, hz, o, ho, hexecuted⟩
  obtain ⟨hquit, hgoes⟩ := going_on_of_run (congrArg (·.1) hrun)
  rw [turnsBegun_of_going_on hquit hgoes, List.forall_mem_cons] at ho
  rw [run_of_going_on hgoes] at hrun
  have hnext := disabled_turn hleaves hquit (entered_of_entersIrq hentered).disabled ho.1
  have hdisabled := disabled_run hleaves hnext hrun ho.2
  rw [enabled_of_entersIrq hagain] at hdisabled
  cases hdisabled

/-- Handlers of maskable interrupts are not nested by a run.  Each turn enters
    the handler once or not at all, whoever requests it, and does so before the
    hook; with I set it neither enters the handler nor asks the source.  And
    between two entries one of the operations is executed that can clear I. -/
theorem handlers_not_nested (hook : Hook H M S) (hleaves : hook.LeavesMask) (fuel : Nat) (k : H)
    (a : Addr) (m : Machine M S) :
    let begun := turnsBegun hook fuel k (m.onCore (·.goto a))
    (∀ t ∈ begun, PollsFirst hook t ∧
      (t.2.regs.p.i = true → t.2.entersIrq = false ∧ t.2.pollInterrupt = t.2)) ∧
    ∀ before x between y after, begun = before ++ x :: between ++ y :: after →
      x.2.entersIrq → y.2.entersIrq →
        ∃ z ∈ x :: between, ∃ o ∈ Operation.enablers, executed hook z.1 z.2 = some o := by
  intro begun
  refine ⟨fun t ht => ⟨pollsFirst (quit_of_mem_turnsBegun ht), fun hi =>
    ⟨entersIrq_of_disabled hi, pollInterrupt_of_disabled hi⟩⟩, ?_⟩
  intro before x between y after hbegun hx hy
  obtain ⟨hturns, hrun⟩ := run_between hbegun
  obtain ⟨z, hz, hexecuted⟩ := enabled_between hleaves hx hrun hy
  rw [hturns] at hz
  exact ⟨z, hz, hexecuted⟩

/-- A timer that is always due and a line that is held, and a handler that only
    returns: two turns, each with an entry, and the return in the first of them. -/
theorem entries_around_return :
    let bus : Router Peripheral := ⟨[⟨0x01FD, .ram (.zero 3)⟩,
      ⟨0xFFFE, .rom (.ofBytes [0x00, 0x80])⟩, ⟨0x8000, .rom (.ofBytes [0x40])⟩,
      ⟨0x5000, .requester true 1⟩]⟩
    let m : Machine (Router Peripheral) TimeSource := .powerOn bus ⟨0, .timer ⟨0, 0⟩⟩
    let hook : Hook Unit (Router Peripheral) TimeSource := .none
    let begun := turnsBegun hook 2 () (m.onCore (·.goto 0x0200))
    hook.LeavesMask ∧ begun.length = 2 ∧ (∀ t ∈ begun, t.2.entersIrq) ∧
      ∃ t ∈ begun.head?, ∃ o ∈ Operation.enablers, executed hook t.1 t.2 = some o := by
  intro bus m hook begun
  have hleaves : hook.LeavesMask := fun _ _ => rfl
  have hlength : begun.length = 2 := by decide +kernel
  have henters : ∀ t ∈ begun, t.2.entersIrq := List.all_eq_true.mp (by decide +kernel)
  obtain ⟨x, y, hbegun⟩ : ∃ x y, begun = [x, y] := List.length_eq_two.mp hlength
  obtain ⟨-, hbetween⟩ := handlers_not_nested hook hleaves 2 () 0x0200 m
  obtain ⟨z, hz, hexecuted⟩ := hbetween [] x [] y [] hbegun (henters x (by simp [hbegun]))
    (henters y (by simp [hbegun]))
  obtain rfl := List.mem_singleton.mp hz
  exact ⟨hleaves, hlength, henters, z, by simp [hbegun], hexecuted⟩

end Machine

end Nmos6502
