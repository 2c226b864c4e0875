/-
  Timer interrupts come once for each period, late or on time.

  A timer is asked only by turns that may take an interrupt, and it begins its
  next period when it has answered that one is due.  So a period that ends while
  interrupts are disabled is noticed by the first turn that enables them, and
  however many periods have gone by then, one interrupt is all that comes of
  them.
-/
import Mathlib.Data.List.Basic
import Nmos6502.Proofs.Polling

namespace Nmos6502

/-! ## Timers -/

namespace Timer

/-- Whether the period is over. -/
def Expired (timer : Timer) (now : Micros) : Prop :=
  timer.period.toNat ≤ now.toNat - timer.since.toNat

instance (timer : Timer) (now : Micros) : Decidable (timer.Expired now) :=
  inferInstanceAs (Decidable (_ ≤ _))

theorem Expired.later {timer : Timer} {now now' : Micros} (h : timer.Expired now)
    (hnow : now ≤ now') : timer.Expired now' :=
  Nat.le_trans h (Nat.sub_le_sub_right hnow _)

theorem poll_of_expired {timer : Timer} {now : Micros} (h : timer.Expired now) :
    timer.poll now = (true, { timer with since := now }) :=
  if_pos h

theorem poll_of_not_expired {timer : Timer} {now : Micros} (h : ¬ timer.Expired now) :
    timer.poll now = (false, timer) :=
  if_neg h

end Timer

/-- A clock that drives a timer passes the question on to it. -/
theorem TimeSource.poll_of_timer {s : TimeSource} {timer : Timer} (h : s.line = .timer timer) :
    InterruptSource.poll s = ((timer.poll s.now).1, ⟨s.now, .timer (timer.poll s.now).2⟩) := by
  obtain ⟨now, line⟩ := s
  subst h
  rfl

/-- The hook leaves the timer to itself, like every hook that does nothing to the
    machine but advance its clock and request the end. -/
def Hook.LeavesTimer {H M : Type} (hook : Hook H M TimeSource) : Prop :=
  ∀ k m, (hook k m).2.2.source.line = m.source.line

namespace Machine

variable {H M : Type} {timer : Timer} {m : Machine M TimeSource}

/-- Interrupts come from the timer, whose period has begun by now. -/
structure Armed (timer : Timer) (m : Machine M TimeSource) : Prop where
  line : m.source.line = .timer timer
  begun : timer.since ≤ m.source.now

variable [Bus M]

/-! ## The last entry -/

/-- When the handler was entered last in a sequence of turns, or else `since`. -/
def lastEntry (since : Micros) : List (H × Machine M TimeSource) → Micros
  | [] => since
  | t :: ts => lastEntry (if t.2.entersIrq then t.2.source.now else since) ts

theorem lastEntry_append (since : Micros) (ts us : List (H × Machine M TimeSource)) :
    lastEntry since (ts ++ us) = lastEntry (lastEntry since ts) us := by
  induction ts generalizing since with
  | nil => rfl
  | cons t ts ih => exact ih _

theorem lastEntry_of_disabled {ts : List (H × Machine M TimeSource)}
    (h : ∀ t ∈ ts, t.2.regs.p.i = true) (since : Micros) : lastEntry since ts = since := by
  induction ts with
  | nil => rfl
  | cons t ts ih =>
    rw [List.forall_mem_cons] at h
    rw [lastEntry, entersIrq_of_disabled h.1]
    exact ih h.2

/-! ## Turns with a timer -/

/-- Nothing but the timer requests interrupts in the turn, and its clock does not
    pass the largest number. -/
structure Undisturbed (hook : Hook H M TimeSource) (t : H × Machine M TimeSource) : Prop where
  silent : Bus.interrupting t.2.bus = false
  clock : t.2.source.now ≤ (hook t.1 t.2.offered).2.2.source.now

namespace Armed

section

variable (h : Armed timer m) (hsilent : Bus.interrupting m.bus = false)
include h hsilent

/-- A turn that may take an interrupt takes one if and only if the period is over. -/
theorem entersIrq_iff (hi : m.regs.p.i = false) :
    m.entersIrq ↔ timer.Expired m.source.now := by
  rw [entersIrq_of_enabled hi, hsilent, Bool.or_false, TimeSource.poll_of_timer h.line]
  by_cases hexpired : timer.Expired m.source.now
  · rw [Timer.poll_of_expired hexpired]
    exact iff_of_true rfl hexpired
  · rw [Timer.poll_of_not_expired hexpired]
    exact iff_of_false Bool.false_ne_true hexpired

/-- An entry begins the next period, and nothing else touches the timer. -/
theorem line_pollInterrupt :
    m.pollInterrupt.source.line =
      .timer { timer with since := if m.entersIrq then m.source.now else timer.since } := by
  rw [source_pollInterrupt]
  cases hi : m.regs.p.i with
  | true =>
    rw [if_pos rfl, entersIrq_of_disabled hi, h.line]
    rfl
  | false =>
    have hiff := h.entersIrq_iff hsilent hi
    rw [if_neg Bool.false_ne_true, TimeSource.poll_of_timer h.line]
    by_cases hexpired : timer.Expired m.source.now
    · rw [if_pos (hiff.mpr hexpired), Timer.poll_of_expired hexpired]
    · rw [if_neg (mt hiff.mp hexpired), Timer.poll_of_not_expired hexpired]

/-- An entry takes up a whole period. -/
theorem period_taken_up :
    timer.since.toNat + (if m.entersIrq then 1 else 0) * timer.period.toNat ≤
      (if m.entersIrq then m.source.now else timer.since).toNat := by
  by_cases henters : m.entersIrq
  · have hbegun : timer.since.toNat ≤ m.source.now.toNat := h.begun
    have hexpired : timer.period.toNat ≤ m.source.now.toNat - timer.since.toNat :=
      (h.entersIrq_iff hsilent (enabled_of_entersIrq henters)).mp henters
    rw [if_pos henters, if_pos henters, Nat.one_mul]
    omega
  · rw [if_neg henters, if_neg henters, Nat.zero_mul]
    exact Nat.le_refl _

end

variable {hook : Hook H M TimeSource} {k : H} {fuel : Nat}

/-- After a turn the timer is armed since the entry, if there was one. -/
theorem turn (hleaves : hook.LeavesTimer) (h : Armed timer m) (hquit : m.quit = false)
    (hturn : Undisturbed hook (k, m)) :
    Armed { timer with since := if m.entersIrq then m.source.now else timer.since }
        (Machine.turn hook k m).2.2 ∧
      m.source.now ≤ (Machine.turn hook k m).2.2.source.now := by
  have hrest : (Machine.turn hook k m).2.2.source = (hook k m.offered).2.2.source :=
    (pollsFirst (t := (k, m)) hquit).rest
  have hclock : m.source.now ≤ (Machine.turn hook k m).2.2.source.now := by
    rw [hrest]
    exact hturn.clock
  refine ⟨⟨?_, ?_⟩, hclock⟩
  · rw [hrest, hleaves, offered, source_report, h.line_pollInterrupt hturn.silent]
  · dsimp only
    split
    · exact hclock
    · exact BitVec.le_trans h.begun hclock

/-- After any number of turns the timer is armed since the last entry, and the
    entries have taken up a period each. -/
theorem run (hleaves : hook.LeavesTimer) (h : Armed timer m)
    (hturns : ∀ t ∈ turnsBegun hook fuel k m, Undisturbed hook t) :
    let begun := turnsBegun hook fuel k m
    let m' := (Machine.run hook fuel k m).2.2
    Armed { timer with since := lastEntry timer.since begun } m' ∧
      m.source.now ≤ m'.source.now ∧
      timer.since.toNat + begun.countP (·.2.entersIrq) * timer.period.toNat ≤
        (lastEntry timer.since begun).toNat := by
  dsimp only
  -- for every timer, because an entry leaves one with a later period
  induction fuel generalizing k m timer with
  | zero =>
    refine ⟨h, BitVec.le_refl _, ?_⟩
    rw [turnsBegun, List.countP_nil, Nat.zero_mul]
    exact Nat.le_refl _
  | succ fuel ih =>
    by_cases hquit : m.quit
    · have hturn : Machine.turn hook k m = _ := turn_of_quit hquit
      rw [run_of_ended (congrArg (·.1) hturn), hturn, turnsBegun, if_pos hquit, List.countP_nil,
        Nat.zero_mul]
      exact ⟨⟨h.line, h.begun⟩, BitVec.le_refl _, Nat.le_refl _⟩
    · have hquit : m.quit = false := Bool.eq_false_iff.mpr hquit
      cases hending : (Machine.turn hook k m).1 with
      | some ending =>
        rw [turnsBegun_of_ended hquit hending, List.forall_mem_singleton] at hturns
        obtain ⟨hnext, hclock⟩ := h.turn hleaves hquit hturns
        have htaken := h.period_taken_up hturns.silent
        rw [run_of_ended hending, turnsBegun_of_ended hquit hending, List.countP_singleton]
        exact ⟨hnext, hclock, htaken⟩
      | none =>
        rw [turnsBegun_of_going_on hquit hending, List.forall_mem_cons] at hturns
        obtain ⟨hnext, hclock⟩ := h.turn hleaves hquit hturns.1
        have htaken := h.period_taken_up hturns.1.silent
        obtain ⟨hlast, hclocks, htakens⟩ := ih hnext hturns.2
        rw [run_of_going_on hending, turnsBegun_of_going_on hquit hending, List.countP_cons,
          Nat.add_mul]
        refine ⟨hlast, BitVec.le_trans hclock hclocks, ?_⟩
        rw [lastEntry]
        dsimp only at htakens ⊢
        omega

/-- When a turn begins, the timer is armed since the last entry before. -/
theorem before_turn (hleaves : hook.LeavesTimer) (h : Armed timer m)
    (hturns : ∀ t ∈ turnsBegun hook fuel k m, Undisturbed hook t)
    {before after : List (H × Machine M TimeSource)} {t : H × Machine M TimeSource}
    (hbegun : turnsBegun hook fuel k m = before ++ t :: after) :
    Armed { timer with since := lastEntry timer.since before } t.2 := by
  obtain ⟨hbefore, hrun, -⟩ := turnsBegun_split hbegun
  have hturns : ∀ t ∈ turnsBegun hook before.length k m, Undisturbed hook t := by
    rw [hbefore]
    intro t ht
    exact hturns t (hbegun ▸ List.mem_append_left _ ht)
  obtain ⟨harmed, -, -⟩ := h.run hleaves hturns
  rw [hbefore, hrun] at harmed
  exact harmed

/-- The clock never goes back from one turn to a later one. -/
theorem clock_le (hleaves : hook.LeavesTimer) (h : Armed timer m)
    (hturns : ∀ t ∈ turnsBegun hook fuel k m, Undisturbed hook t)
    {before between after : List (H × Machine M TimeSource)} {x y : H × Machine M TimeSource}
    (hbegun : turnsBegun hook fuel k m = before ++ x :: between ++ y :: after) :
    x.2.source.now ≤ y.2.source.now := by
  obtain ⟨hbetween, hrun⟩ := run_between hbegun
  rw [List.append_assoc] at hbegun
  have hx := h.before_turn hleaves hturns hbegun
  have hturns : ∀ t ∈ turnsBegun hook (between.length + 1) x.1 x.2, Undisturbed hook t := by
    rw [hbetween]
    intro t ht
    exact hturns t (hbegun ▸ List.mem_append_right _ (List.mem_append_left _ ht))
  obtain ⟨-, hclock, -⟩ := hx.run hleaves hturns
  rw [hrun] at hclock
  exact hclock

end Armed

/-! ## Runs with a timer -/

/-- What a turn makes of its timer: before the hook and before anything is
    fetched it enters the handler if and only if the period is over, and stands
    then at the word at `$FFFE` with I set; but with interrupts disabled it
    leaves the timer as it is. -/
structure Answers (hook : Hook H M TimeSource) (timer : Timer) (t : H × Machine M TimeSource) :
    Prop where
  armed : Armed timer t.2
  first : PollsFirst hook t
  enabled : t.2.regs.p.i = false → (t.2.entersIrq ↔ timer.Expired t.2.source.now)
  disabled : t.2.regs.p.i = true → t.2.pollInterrupt = t.2 ∧
    (turn hook t.1 t.2).2.2.source.line = .timer timer

theorem Armed.answers {hook : Hook H M TimeSource} {t : H × Machine M TimeSource}
    (hleaves : hook.LeavesTimer) (h : Armed timer t.2) (hquit : t.2.quit = false)
    (hturn : Undisturbed hook t) : Answers hook timer t where
  armed := h
  first := pollsFirst hquit
  enabled := h.entersIrq_iff hturn.silent
  disabled hi := by
    have hline := (h.turn hleaves hquit hturn).1.line
    rw [entersIrq_of_disabled hi] at hline
    exact ⟨pollInterrupt_of_disabled hi, hline⟩

/-- The end of a period is noticed late while interrupts are disabled, but is
    neither lost nor are several ends kept.  Each turn answers the timer whose
    period began with the last entry before the turn.  If the period is over in
    one of several turns with interrupts disabled, the first turn after them that
    has interrupts enabled enters the handler.  And there are no more entries than
    whole periods in the time gone by. -/
theorem expiry_neither_lost_nor_queued (hook : Hook H M TimeSource) (hleaves : hook.LeavesTimer)
    (timer : Timer) (hperiod : 0 < timer.period.toNat) (fuel : Nat) (k : H) (a : Addr)
    (m : Machine M TimeSource) (harmed : Armed timer m)
    (hturns : ∀ t ∈ turnsBegun hook fuel k (m.onCore (·.goto a)), Undisturbed hook t) :
    let begun := turnsBegun hook fuel k (m.onCore (·.goto a))
    let after := (runFrom hook fuel k a m).2.2
    (∀ before t rest, begun = before ++ t :: rest →
      Answers hook { timer with since := lastEntry timer.since before } t) ∧
    (∀ before masked t rest, begun = before ++ masked ++ t :: rest →
      (∀ x ∈ masked, x.2.regs.p.i = true) → t.2.regs.p.i = false →
      ∀ x ∈ masked ++ [t],
        { timer with since := lastEntry timer.since before }.Expired x.2.source.now →
          t.2.entersIrq) ∧
    begun.countP (·.2.entersIrq) ≤
      (after.source.now.toNat - timer.since.toNat) / timer.period.toNat := by
  intro begun after
  have hstart : Armed timer (m.onCore (·.goto a)) := ⟨harmed.line, harmed.begun⟩
  have hanswers (before t rest) (hbegun : begun = before ++ t :: rest) :
      Answers hook { timer with since := lastEntry timer.since before } t := by
    have ht : t ∈ begun := hbegun ▸ List.mem_append_right _ List.mem_cons_self
    exact (hstart.before_turn hleaves hturns hbegun).answers hleaves
      (quit_of_mem_turnsBegun ht) (hturns t ht)
  refine ⟨hanswers, ?_, ?_⟩
  · intro before masked t rest hbegun hmasked hi x hx hexpired
    -- there was no entry meanwhile, so the period is still the same
    have hanswer := hanswers (before ++ masked) t rest hbegun
    rw [lastEntry_append, lastEntry_of_disabled hmasked] at hanswer
    rw [hanswer.enabled hi]
    obtain hx | hx := List.mem_append.mp hx
    · obtain ⟨first, between, rfl⟩ := List.append_of_mem hx
      have hbegun : begun = (before ++ first) ++ x :: between ++ t :: rest := by
        rw [hbegun, ← List.append_assoc before]
      exact hexpired.later (hstart.clock_le hleaves hturns hbegun)
    · obtain rfl := List.mem_singleton.mp hx
      exact hexpired
  · obtain ⟨hlast, -, htaken⟩ := hstart.run hleaves hturns
    rw [Nat.le_div_iff_mul_le hperiod]
    exact Nat.le_sub_of_add_le' (Nat.le_trans htaken hlast.begun)

/-- A timer of ten microseconds, and a clock that advances by as much in each
    turn.  The second turn has interrupts disabled, so it leaves the end of the
    period to the third. -/
theorem expiry_behind_disabled_turn :
    let bus : Router Peripheral := ⟨[⟨0x01FD, .ram (.zero 3)⟩,
      ⟨0xFFFE, .rom (.ofBytes [0x00, 0x80])⟩, ⟨0x8000, .rom (.ofBytes [0x40])⟩,
      ⟨0x0200, .rom (.ofBytes [0x78, 0x58, 0xEA])⟩]⟩
    let timer : Timer := .start 0 10
    let m : Machine (Router Peripheral) TimeSource := .powerOn bus ⟨0, .timer timer⟩
    let hook : Hook Unit (Router Peripheral) TimeSource := fun k m =>
      (.declined, k, { m with source := m.source.advance 10 })
    let begun := turnsBegun hook 3 () (m.onCore (·.goto 0x0200))
    hook.LeavesTimer ∧ 0 < timer.period.toNat ∧ Armed timer m ∧
      (∀ t ∈ begun, Undisturbed hook t) ∧ begun.length = 3 ∧
      (∃ t ∈ begun, t.2.entersIrq ∧ t.2.pollInterrupt.regs.p.i = true ∧
        t.2.pollInterrupt.regs.pc = 0x8000) ∧
      begun.countP (·.2.entersIrq) ≤ 3 := by
  intro bus timer m hook begun
  have hleaves : hook.LeavesTimer := fun _ _ => rfl
  have hperiod : 0 < timer.period.toNat := by decide
  have harmed : Armed timer m := ⟨rfl, by decide⟩
  have hlength : begun.length = 3 := by decide +kernel
  have hsilent : ∀ t ∈ begun, Bus.interrupting t.2.bus = false := by decide +kernel
  have hclock : ∀ t ∈ begun, t.2.source.now ≤ (hook t.1 t.2.offered).2.2.source.now := by
    decide +kernel
  have hturns : ∀ t ∈ begun, Undisturbed hook t := fun t ht => ⟨hsilent t ht, hclock t ht⟩
  have hmasks : begun.map (·.2.regs.p.i) = [false, true, false] := by decide +kernel
  have hexpired : ∀ t ∈ begun[1]?,
      { timer with since := lastEntry timer.since (begun.take 1) }.Expired t.2.source.now := by
    decide +kernel
  have hhandler : ∀ t ∈ begun[2]?,
      (Bus.wordAt (Bus.framed t.2.bus t.2.regs) 0xFFFE).1 = 0x8000 := by
    decide +kernel
  obtain ⟨x, y, z, hbegun⟩ : ∃ x y z, begun = [x, y, z] := List.length_eq_three.mp hlength
  rw [hbegun] at hmasks hexpired hhandler
  injection hmasks with _ hmasks
  injection hmasks with hy hmasks
  injection hmasks with hz _
  obtain ⟨hanswers, htaken, hcount⟩ :=
    expiry_neither_lost_nor_queued hook hleaves timer hperiod 3 () 0x0200 m harmed hturns
  have hend : (runFrom hook 3 () 0x0200 m).2.2.source.now = 30 := by decide +kernel
  rw [hend] at hcount
  have hcount : begun.countP (·.2.entersIrq) ≤ 3 := Nat.le_trans hcount (by decide)
  have henters : z.2.entersIrq := htaken [x] [y] z [] hbegun
    (fun t ht => List.mem_singleton.mp ht ▸ hy) hz y (by simp) (hexpired y rfl)
  have hentered := (hanswers [x, y] z [] hbegun).first.entered henters
  exact ⟨hleaves, hperiod, harmed, hturns, hlength,
    ⟨z, by simp [hbegun], henters, hentered.disabled, hentered.pc.trans (hhandler z rfl)⟩, hcount⟩

end Machine

end Nmos6502
