/-
  Which turns enter the handler of maskable interrupts.

  A turn asks for an interrupt once, at its very beginning, and only if such are
  not disabled.  `entersIrq` tells from the machine alone whether the handler is
  then entered.  A run can be cut before any of its turns: the turns before the
  cut are those of a shorter run, which ends where the others begin.
-/
import Nmos6502.Proofs.Tracing

namespace Nmos6502.Machine

variable {H M S : Type} [Bus M] [InterruptSource S]

/-! ## The poll -/

/-- Whether the turn that begins with this machine enters the handler. -/
def entersIrq (m : Machine M S) : Bool :=
  !m.regs.p.i && ((InterruptSource.poll m.source).1 || Bus.interrupting m.bus)

theorem entersIrq_of_disabled {m : Machine M S} (h : m.regs.p.i) : m.entersIrq = false := by
  rw [entersIrq, h]
  rfl

theorem entersIrq_of_enabled {m : Machine M S} (h : m.regs.p.i = false) :
    m.entersIrq = ((InterruptSource.poll m.source).1 || Bus.interrupting m.bus) := by
  rw [entersIrq, h]
  rfl

theorem enabled_of_entersIrq {m : Machine M S} (h : m.entersIrq) : m.regs.p.i = false := by
  cases hi : m.regs.p.i with
  | false => rfl
  | true =>
    rw [entersIrq_of_disabled hi] at h
    cases h

theorem core_pollInterrupt (m : Machine M S) :
    m.pollInterrupt.core = if m.entersIrq then m.core.interrupt irqVector else m.core := by
  cases hi : m.regs.p.i with
  | true =>
    rw [pollInterrupt_of_disabled hi, entersIrq_of_disabled hi]
    rfl
  | false =>
    rw [pollInterrupt_of_enabled hi, entersIrq_of_enabled hi]
    split
    · rw [irq_of_enabled (m := m.polled) hi]
      rfl
    · rfl

/-- The source is asked once, or not at all while interrupts are disabled. -/
theorem source_pollInterrupt (m : Machine M S) :
    m.pollInterrupt.source =
      if m.regs.p.i then m.source else (InterruptSource.poll m.source).2 := by
  cases hi : m.regs.p.i with
  | true =>
    rw [pollInterrupt_of_disabled hi]
    rfl
  | false =>
    rw [pollInterrupt_of_enabled hi]
    split
    · rw [irq_of_enabled (m := m.polled) hi]
      rfl
    · rfl

/-- The machine `m'` has entered the handler in the place of `m`: the three bytes
    of the frame are on the stack, and the vector has been read behind them. -/
structure Entered (m m' : Machine M S) : Prop where
  /-- Further requests are held off. -/
  disabled : m'.regs.p.i = true
  /-- The program goes on at the word that the bus has at `$FFFE`. -/
  pc : m'.regs.pc = (Bus.wordAt (Bus.framed m.bus m.regs) 0xFFFE).1
  bus : m'.bus = (Bus.wordAt (Bus.framed m.bus m.regs) 0xFFFE).2
  /-- No other flag and no other register is touched but for the stack pointer
      and the seven cycles. -/
  rest : m'.regs = { m.regs with
    s := m.regs.s - 3
    pc := m'.regs.pc
    p := { m.regs.p with i := true }
    cycles := m.regs.cycles + 7 }

theorem entered_of_entersIrq {m : Machine M S} (h : m.entersIrq) : Entered m m.pollInterrupt := by
  have hcore : m.pollInterrupt.core = m.core.interrupt irqVector := by
    rw [core_pollInterrupt, if_pos h]
  have hregs : m.pollInterrupt.regs = _ :=
    (congrArg (·.regs) hcore).trans (m.core.regs_interrupt irqVector)
  have hbus : m.pollInterrupt.bus = _ :=
    (congrArg (·.bus) hcore).trans (m.core.bus_interrupt irqVector)
  constructor
  case disabled => rw [hregs]
  case pc =>
    rw [hregs]
    rfl
  case bus => exact hbus
  case rest => rw [hregs]

omit [InterruptSource S] in
theorem regs_report (m : Machine M S) : m.report.regs = m.regs := by
  unfold report
  split
  · rfl
  · rfl

omit [InterruptSource S] in
theorem source_report (m : Machine M S) : m.report.source = m.source := by
  unfold report
  split
  · rfl
  · rfl

omit [InterruptSource S] in
theorem source_settle (x : Verdict × H × Machine M S) :
    (settle x).2.2.source = x.2.2.source := by
  obtain ⟨verdict, k, m⟩ := x
  cases verdict with
  | handled | exit => rfl
  | declined =>
    rw [settle, step_snd]

/-- What a turn does before anything is fetched: the handler is entered once or
    not at all, and only then the hook gets the machine.  Nobody but the hook
    touches the source after that. -/
structure PollsFirst (hook : Hook H M S) (t : H × Machine M S) : Prop where
  core : t.2.pollInterrupt.core =
    if t.2.entersIrq then t.2.core.interrupt irqVector else t.2.core
  entered : t.2.entersIrq → Entered t.2 t.2.pollInterrupt
  source : t.2.pollInterrupt.source =
    if t.2.regs.p.i then t.2.source else (InterruptSource.poll t.2.source).2
  turn : turn hook t.1 t.2 = settle (hook t.1 t.2.pollInterrupt.report)
  rest : (Machine.turn hook t.1 t.2).2.2.source =
    (hook t.1 t.2.pollInterrupt.report).2.2.source

variable {hook : Hook H M S} {fuel : Nat} {k : H} {m : Machine M S} {t : H × Machine M S}

theorem pollsFirst (h : t.2.quit = false) : PollsFirst hook t where
  core := core_pollInterrupt t.2
  entered := entered_of_entersIrq
  source := source_pollInterrupt t.2
  turn := turn_of_not_quit h
  rest := by
    rw [turn_of_not_quit h, source_settle]
    rfl

/-! ## Cutting a run -/

/-- The first turn of a run that takes one, and what comes after it. -/
theorem turnsBegun_eq_cons {ts : List (H × Machine M S)}
    (h : turnsBegun hook fuel k m = t :: ts) :
    t = (k, m) ∧ m.quit = false ∧
      (ts ≠ [] → ∃ left, fuel = left + 1 ∧ (turn hook k m).1 = none ∧
        turnsBegun hook left (turn hook k m).2.1 (turn hook k m).2.2 = ts) := by
  cases fuel with
  | zero => cases h
  | succ left =>
    by_cases hquit : m.quit
    · rw [turnsBegun, if_pos hquit] at h
      cases h
    · have hquit : m.quit = false := Bool.eq_false_iff.mpr hquit
      cases hending : (turn hook k m).1 with
      | some ending =>
        rw [turnsBegun_of_ended hquit hending] at h
        cases h
        exact ⟨rfl, hquit, fun hne => absurd rfl hne⟩
      | none =>
        rw [turnsBegun_of_going_on hquit hending] at h
        cases h
        exact ⟨rfl, hquit, fun _ => ⟨left, rfl, rfl, rfl⟩⟩

theorem going_on_of_run (h : (run hook (fuel + 1) k m).1 = none) :
    m.quit = false ∧ (turn hook k m).1 = none := by
  have hgoes : (turn hook k m).1 = none := by
    cases hending : (turn hook k m).1 with
    | none => rfl
    | some ending =>
      rw [run_of_ended hending, hending] at h
      cases h
  refine ⟨?_, hgoes⟩
  cases hquit : m.quit with
  | false => rfl
  | true =>
    rw [turn_of_quit hquit] at hgoes
    cases hgoes

/-- The turns before `t` are those of a shorter run, which leads to `t` without
    ending; and the turns from `t` on are those of a run that begins there. -/
theorem turnsBegun_split {before after : List (H × Machine M S)}
    (h : turnsBegun hook fuel k m = before ++ t :: after) :
    turnsBegun hook before.length k m = before ∧
      run hook before.length k m = (none, t) ∧
      turnsBegun hook (fuel - before.length) t.1 t.2 = t :: after := by
  induction before generalizing fuel k m with
  | nil =>
    obtain ⟨rfl, -, -⟩ := turnsBegun_eq_cons h
    exact ⟨rfl, rfl, h⟩
  | cons b before ih =>
    obtain ⟨rfl, hquit, hrest⟩ := turnsBegun_eq_cons h
    obtain ⟨left, rfl, hgoes, hrest⟩ := hrest (by simp)
    obtain ⟨hbefore, hrun, hafter⟩ := ih hrest
    refine ⟨?_, ?_, ?_⟩
    · rw [List.length_cons, turnsBegun_of_going_on hquit hgoes, hbefore]
    · rw [List.length_cons, run_of_going_on hgoes, hrun]
    · rw [List.length_cons, Nat.add_sub_add_right, hafter]

/-- From one turn of a run to a later one there is a run without an ending. -/
theorem run_between {before between after : List (H × Machine M S)} {x y : H × Machine M S}
    (h : turnsBegun hook fuel k m = before ++ x :: between ++ y :: after) :
    turnsBegun hook (between.length + 1) x.1 x.2 = x :: between ∧
      run hook (between.length + 1) x.1 x.2 = (none, y) := by
  rw [List.append_assoc] at h
  obtain ⟨-, -, hfrom⟩ := turnsBegun_split h
  have hfrom : turnsBegun hook _ x.1 x.2 = (x :: between) ++ y :: after := hfrom
  obtain ⟨hturns, hrun, -⟩ := turnsBegun_split hfrom
  exact ⟨hturns, hrun⟩

theorem quit_of_mem_turnsBegun (h : t ∈ turnsBegun hook fuel k m) : t.2.quit = false := by
  obtain ⟨before, after, hsplit⟩ := List.append_of_mem h
  obtain ⟨-, -, hafter⟩ := turnsBegun_split hsplit
  exact (turnsBegun_eq_cons hafter).2.1

end Nmos6502.Machine
