/-
  Counted runs on the front panel.

  Nothing that can be done on the panel requests the end of a run, lets an
  undocumented opcode end the program, or listens to the journal.  So a run of
  so many instructions is so many steps by hand: it takes all of them, or it
  fails with the first that fails, which has left the panel as it was.  A run
  behind another is then the rest of one longer run.
-/
import Nmos6502.Bench.Panel
import Nmos6502.Proofs.Stepping

namespace Nmos6502

/-! ## Machines as the panel keeps them -/

namespace Machine

/-- No end is requested, undocumented opcodes are reported, and nobody listens to
    the journal. -/
structure Steady {M S : Type} (m : Machine M S) : Prop where
  quit : m.quit = false
  policy : m.onIllegal = .report
  silent : m.journal = .silent

namespace Steady

section

variable {M S : Type} {m : Machine M S}

/-- With nobody listening, events are lost. -/
theorem note_eq (h : m.Steady) (e : Event) : m.note e = m := by
  show { m with journal := m.journal.note e } = m
  rw [h.silent]
  show { m with journal := Journal.silent } = m
  rw [← h.silent]

theorem onCore (h : m.Steady) (f : Processor M → Processor M) : (m.onCore f).Steady :=
  ⟨h.quit, h.policy, h.silent⟩

theorem note (h : m.Steady) (e : Event) : (m.note e).Steady := by
  rw [h.note_eq]
  exact h

variable [Bus M]

theorem irq (h : m.Steady) : m.irq.2.Steady := by
  rw [Machine.irq]
  split
  · exact h
  · exact (h.onCore _).note _

theorem step (h : m.Steady) : m.step.2.Steady := by
  by_cases hlegal : m.core.nextEntry.legal
  · rw [step_of_legal hlegal]
    exact h.onCore fun p => p.step.2
  · rw [step_of_illegal hlegal]
    exact (h.onCore fun p => p.fetched).note _

end

/-- Flat memory does not notice the reading of an opcode, so a step that fails has
    not happened. -/
theorem step_of_isSome {S : Type} {m : Machine Flat S} (h : m.Steady) (hfails : m.step.1.isSome) :
    m.step.2 = m := by
  rw [Machine.step_of_isSome hfails]
  exact h.note_eq _

end Steady

end Machine

namespace FrontPanel

open Bench (PanelCommand)

variable {f : FrontPanel} {k n : Nat} {stop : Stop}

/-! ## Steps by hand -/

/-- The panel after so many steps by hand. -/
def stepped (f : FrontPanel) : Nat → FrontPanel
  | 0 => f
  | n + 1 => f.step.2.stepped n

/-- So many steps by hand all succeed. -/
def Succeeds (f : FrontPanel) (n : Nat) : Prop := ∀ k < n, (f.stepped k).step.1 = none

/-- The step behind the first `k` is the first that fails. -/
structure FailsAt (f : FrontPanel) (k : Nat) (stop : Stop) : Prop where
  succeeds : f.Succeeds k
  stop : (f.stepped k).step.1 = some stop

theorem stepped_add (f : FrontPanel) (m n : Nat) : f.stepped (m + n) = (f.stepped m).stepped n := by
  induction m generalizing f with
  | zero => rw [Nat.zero_add, stepped]
  | succ m ih => rw [Nat.succ_add, stepped, stepped, ih]

theorem steady_step (h : f.machine.Steady) : f.step.2.machine.Steady := h.step

theorem steady_stepped (h : f.machine.Steady) (n : Nat) : (f.stepped n).machine.Steady := by
  induction n generalizing f with
  | zero => exact h
  | succ n ih => exact ih (steady_step h)

theorem succeeds_succ : f.Succeeds (n + 1) ↔ f.step.1 = none ∧ f.step.2.Succeeds n := by
  constructor
  · intro h
    exact ⟨h 0 (Nat.succ_pos n), fun k hk => h (k + 1) (Nat.succ_lt_succ hk)⟩
  · rintro ⟨hfirst, hrest⟩ k hk
    cases k with
    | zero => exact hfirst
    | succ k => exact hrest k (Nat.lt_of_succ_lt_succ hk)

theorem Succeeds.add {m : Nat} (h : f.Succeeds m) (h' : (f.stepped m).Succeeds n) :
    f.Succeeds (m + n) := by
  intro k hk
  by_cases hkm : k < m
  · exact h k hkm
  · obtain ⟨j, rfl⟩ := Nat.exists_eq_add_of_le (Nat.le_of_not_lt hkm)
    rw [stepped_add]
    exact h' j (by omega)

theorem Succeeds.failsAt {m : Nat} (h : f.Succeeds m) (h' : (f.stepped m).FailsAt k stop) :
    f.FailsAt (m + k) stop where
  succeeds := h.add h'.succeeds
  stop := by
    rw [stepped_add]
    exact h'.stop

/-- Either all of the steps succeed, or one of them is the first to fail. -/
theorem succeeds_or_failsAt (f : FrontPanel) (n : Nat) :
    f.Succeeds n ∨ ∃ k < n, ∃ stop, f.FailsAt k stop := by
  induction n with
  | zero => exact .inl fun k hk => absurd hk (Nat.not_lt_zero k)
  | succ n ih =>
    obtain hall | ⟨k, hk, stop, hfails⟩ := ih
    · cases hstep : (f.stepped n).step.1 with
      | none =>
        refine .inl fun k hk => ?_
        obtain hlt | rfl := Nat.lt_succ_iff_lt_or_eq.mp hk
        · exact hall k hlt
        · exact hstep
      | some stop => exact .inr ⟨n, Nat.lt_succ_self n, stop, hall, hstep⟩
    · exact .inr ⟨k, Nat.lt_succ_of_lt hk, stop, hfails⟩

/-- On a steady panel the first failure is that of an undocumented opcode. -/
theorem FailsAt.illegal (h : f.FailsAt k stop) (hsteady : f.machine.Steady) :
    ∃ e, stop = .illegal e := by
  have hstop : (f.stepped k).machine.step.1 = some stop := h.stop
  have hillegal := Machine.step_eq_illegal (steady_stepped hsteady k).policy (hstop ▸ rfl)
  rw [hstop] at hillegal
  exact ⟨_, Option.some.inj hillegal⟩

/-! ## Runs -/

theorem go_of_ok (hquit : f.machine.quit = false) (h : f.step.1 = none) (done left : Nat) :
    run.go f done (left + 1) = run.go f.step.2 (done + 1) left := by
  rw [run.go, if_neg (by simp [hquit])]
  split
  · next hstep => rw [hstep]
  · next hstep =>
    rw [hstep] at h
    cases h

theorem go_of_stop (hquit : f.machine.quit = false) (h : f.step.1 = some stop) (done left : Nat) :
    run.go f done (left + 1) = (.error stop, f.step.2) := by
  rw [run.go, if_neg (by simp [hquit])]
  split
  · next hstep =>
    rw [hstep] at h
    cases h
  · next hstep =>
    rw [hstep] at h ⊢
    cases h
    rfl

theorem go_of_succeeds (hsteady : f.machine.Steady) {left : Nat} (h : f.Succeeds left)
    (done : Nat) : run.go f done left = (.ok (done + left), f.stepped left) := by
  induction left generalizing f done with
  | zero => rfl
  | succ left ih =>
    obtain ⟨hfirst, hrest⟩ := succeeds_succ.mp h
    rw [go_of_ok hsteady.quit hfirst, ih (steady_step hsteady) hrest, stepped]
    congr 2
    omega

/-- The step that fails changes nothing, so it does not show. -/
theorem go_of_failsAt (hsteady : f.machine.Steady) {left : Nat} (hk : k < left)
    (h : f.FailsAt k stop) (done : Nat) :
    run.go f done left = (.error stop, f.stepped k) := by
  induction left generalizing f k done with
  | zero => exact absurd hk (Nat.not_lt_zero k)
  | succ left ih =>
    obtain ⟨hall, hstop⟩ := h
    cases k with
    | zero =>
      rw [stepped] at hstop ⊢
      -- the step has read an undocumented byte and done nothing else
      have hmachine : f.machine.step.2 = f.machine :=
        hsteady.step_of_isSome (Option.isSome_iff_exists.mpr ⟨stop, hstop⟩)
      have hsame : f.step.2 = f := by
        show { f with machine := f.machine.step.2 } = f
        rw [hmachine]
      rw [go_of_stop hsteady.quit hstop, hsame]
    | succ k =>
      obtain ⟨hfirst, hrest⟩ := succeeds_succ.mp hall
      rw [go_of_ok hsteady.quit hfirst, stepped]
      exact ih (steady_step hsteady) (Nat.lt_of_succ_lt_succ hk) ⟨hrest, hstop⟩ _

theorem run_of_succeeds (hsteady : f.machine.Steady) (h : f.Succeeds n) :
    f.run n = (.ok n, f.stepped n) := by
  rw [run, go_of_succeeds hsteady h, Nat.zero_add]

theorem run_of_failsAt (hsteady : f.machine.Steady) (hk : k < n) (h : f.FailsAt k stop) :
    f.run n = (.error stop, f.stepped k) :=
  go_of_failsAt hsteady hk h 0

theorem steady_run (h : f.machine.Steady) (n : Nat) : (f.run n).2.machine.Steady := by
  obtain hall | ⟨k, hk, stop, hfails⟩ := f.succeeds_or_failsAt n
  · rw [run_of_succeeds h hall]
    exact steady_stepped h n
  · rw [run_of_failsAt h hk hfails]
    exact steady_stepped h k

/-- A run and, unless it fails, another behind it; counts the instructions of both. -/
def runTwice (f : FrontPanel) (m n : Nat) : Except Stop Nat × FrontPanel :=
  match f.run m with
  | (.ok done, f) => ((f.run n).1.map (done + ·), (f.run n).2)
  | (.error stop, f) => (.error stop, f)

theorem runTwice_eq_run (hsteady : f.machine.Steady) (m n : Nat) :
    f.runTwice m n = f.run (m + n) := by
  obtain hall | ⟨k, hk, stop, hfails⟩ := f.succeeds_or_failsAt m
  -- the second run goes on where the first has ended
  · have hnext := steady_stepped hsteady m
    rw [runTwice, run_of_succeeds hsteady hall]
    obtain hrest | ⟨k, hk, stop, hfails⟩ := (f.stepped m).succeeds_or_failsAt n
    · rw [run_of_succeeds hsteady (hall.add hrest), stepped_add]
      simp only [run_of_succeeds hnext hrest, Except.map]
    · have hlater : m + k < m + n := Nat.add_lt_add_left hk m
      rw [run_of_failsAt hsteady hlater (hall.failsAt hfails), stepped_add]
      simp only [run_of_failsAt hnext hk hfails, Except.map]
  -- the first run fails, and the long one with the same step
  · have hlater : k < m + n := Nat.lt_of_lt_of_le hk (Nat.le_add_right m n)
    rw [runTwice, run_of_failsAt hsteady hk hfails, run_of_failsAt hsteady hlater hfails]

/-! ## Panels in use -/

/-- What becomes of a panel that is switched on and used. -/
inductive Reached : FrontPanel → Prop
  | powerOn : Reached .powerOn
  | perform {f : FrontPanel} (h : Reached f) (c : PanelCommand) : Reached (c.perform f).2

theorem snd_perform_step (f : FrontPanel) : (PanelCommand.step.perform f).2 = f.step.2 := by
  rw [PanelCommand.perform]
  split
  · next h => rw [h]
  · next h => rw [h]

theorem snd_perform_run (f : FrontPanel) (count : Nat) :
    ((PanelCommand.run count).perform f).2 = (f.run count).2 := by
  rw [PanelCommand.perform]
  split
  · next h => rw [h]
  · next h => rw [h]

/-- No command of the panel concerns more of its machine than the processor, but
    for the request that a reset withdraws. -/
theorem steady_perform (h : f.machine.Steady) (c : PanelCommand) :
    (c.perform f).2.machine.Steady := by
  cases c with
  | step =>
    rw [snd_perform_step]
    exact h.step
  | run count =>
    rw [snd_perform_run]
    exact steady_run h count
  | reset =>
    have hwithdrawn : { f.machine with quit := false }.Steady := ⟨rfl, h.policy, h.silent⟩
    exact (hwithdrawn.onCore (·.reset)).note _
  | irq => exact h.irq
  | nmi => exact (h.onCore (·.interrupt nmiVector)).note _
  | load | goto | read | write | page | traceLine | flags | program =>
    exact ⟨h.quit, h.policy, h.silent⟩

theorem Reached.steady (h : Reached f) : f.machine.Steady := by
  induction h with
  | powerOn => exact ⟨rfl, rfl, rfl⟩
  | perform _ c ih => exact steady_perform ih c

/-- A run of `count` instructions on a panel in use is `count` steps by hand.  It
    succeeds if and only if all of them do, and has then taken all of them; or
    else it fails with the first that fails, on an undocumented opcode, and leaves
    the panel as the steps before that one.  It never succeeds with a smaller
    count.  Two runs behind each other, the second unless the first fails, are one
    run of both counts. -/
theorem run_takes_every_step (f : FrontPanel) (h : Reached f) (count : Nat) :
    ((f.run count).1 = .ok count ↔ f.Succeeds count) ∧
    (f.Succeeds count → (f.run count).2 = f.stepped count) ∧
    (f.Succeeds count ∨ ∃ k < count, ∃ stop, f.FailsAt k stop) ∧
    (∀ k < count, ∀ stop, f.FailsAt k stop →
      (∃ e, stop = .illegal e) ∧ f.run count = (.error stop, f.stepped k)) ∧
    (∀ n, (f.run count).1 = .ok n → n = count) ∧
    (∀ more, f.runTwice count more = f.run (count + more)) := by
  have hsteady := h.steady
  have hok {n : Nat} (hrun : (f.run count).1 = .ok n) : f.Succeeds count := by
    obtain hall | ⟨k, hk, stop, hfails⟩ := f.succeeds_or_failsAt count
    · exact hall
    · rw [run_of_failsAt hsteady hk hfails] at hrun
      cases hrun
  refine ⟨⟨hok, fun hall => ?_⟩, fun hall => ?_, f.succeeds_or_failsAt count,
    fun k hk stop hfails => ?_, fun n hrun => ?_, runTwice_eq_run hsteady count⟩
  · rw [run_of_succeeds hsteady hall]
  · rw [run_of_succeeds hsteady hall]
  · exact ⟨hfails.illegal hsteady, run_of_failsAt hsteady hk hfails⟩
  · rw [run_of_succeeds hsteady (hok hrun)] at hrun
    exact (Except.ok.inj hrun).symm

/-- Two increments and an undocumented byte, loaded into a panel that was just
    switched on: a run of five fails with the third step, and a run of three behind
    a run of two does the same. -/
theorem run_into_undocumented_byte :
    let f := ((PanelCommand.load [0xE8, 0xE8, 0x02] 0x0200).perform .powerOn).2
    Reached f ∧ f.FailsAt 2 (.illegal ⟨0x02, 0x0202⟩) ∧
      f.run 5 = (.error (.illegal ⟨0x02, 0x0202⟩), f.stepped 2) ∧
      (f.run 2).1 = .ok 2 ∧ f.runTwice 2 3 = (.error (.illegal ⟨0x02, 0x0202⟩), f.stepped 2) := by
  intro f
  have hreached : Reached f := .perform .powerOn _
  have hall : f.Succeeds 2 := by
    have hsteps : ∀ k < 2, (f.stepped k).step.1 = none := by decide +kernel
    exact hsteps
  have hfails : f.FailsAt 2 (.illegal ⟨0x02, 0x0202⟩) := ⟨hall, by decide +kernel⟩
  obtain ⟨-, -, -, hfailure, -, -⟩ := run_takes_every_step f hreached 5
  obtain ⟨hok, -, -, -, -, htwice⟩ := run_takes_every_step f hreached 2
  have hrun := (hfailure 2 (by decide) _ hfails).2
  exact ⟨hreached, hfails, hrun, hok.mpr hall, (htwice 3).trans hrun⟩

end FrontPanel

end Nmos6502
