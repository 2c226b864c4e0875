/-
  When a timer fires.

  A clock advances and a timer on it is asked, in any order.  The answers with
  their moments make a list, and the law is that each answer is yes if and only
  if a whole period has gone by since the last yes, or since the timer was
  started.  That the timer never fires twice in a period, and how often it can
  fire at most, is true of every list of answers that keeps the law.
-/
import Mathlib.Algebra.Group.Nat.Defs
import Nmos6502.Proofs.Timing

namespace Nmos6502

/-! ## Lists of answers -/

/-- An answer of a timer: when it was asked, and whether a period was over. -/
abbrev Answer := Nat × Bool

namespace Answer

/-- The moments at which the timer fired. -/
def firings : List Answer → List Nat
  | [] => []
  | (t, due) :: as => if due then t :: firings as else firings as

/-- When the timer fired last, or else `since`. -/
def lastFiring (since : Nat) : List Answer → Nat
  | [] => since
  | (t, due) :: as => lastFiring (if due then t else since) as

/-- Each answer is yes exactly if a period is over since the last yes. -/
def Lawful (period : Nat) : Nat → List Answer → Prop
  | _, [] => True
  | since, (t, due) :: as =>
    since ≤ t ∧ (due = true ↔ period ≤ t - since) ∧ Lawful period (if due then t else since) as

variable {period since : Nat} {as : List Answer}

theorem since_add_le_of_mem_firings (h : Lawful period since as) :
    ∀ t ∈ firings as, since + period ≤ t := by
  induction as generalizing since with
  | nil => simp [firings]
  | cons a as ih =>
    obtain ⟨t, due⟩ := a
    obtain ⟨hle, hdue, hrest⟩ := h
    intro u hu
    cases due with
    | false => exact ih hrest u hu
    | true =>
      have hover : period ≤ t - since := hdue.mp rfl
      rcases List.mem_cons.mp hu with rfl | hu
      · omega
      · have hlater := ih hrest u hu
        simp only [if_true] at hlater
        omega

/-- Any two firings are at least a period apart. -/
theorem pairwise_firings (h : Lawful period since as) :
    (firings as).Pairwise fun t u => t + period ≤ u := by
  induction as generalizing since with
  | nil => exact .nil
  | cons a as ih =>
    obtain ⟨t, due⟩ := a
    obtain ⟨-, -, hrest⟩ := h
    cases due with
    | false => exact ih hrest
    | true => exact .cons (since_add_le_of_mem_firings hrest) (ih hrest)

/-- Each firing takes up a period of the time up to the last. -/
theorem length_firings_mul_le (h : Lawful period since as) :
    since + (firings as).length * period ≤ lastFiring since as := by
  induction as generalizing since with
  | nil => simp [firings, lastFiring]
  | cons a as ih =>
    obtain ⟨t, due⟩ := a
    obtain ⟨hle, hdue, hrest⟩ := h
    have hlast := ih hrest
    cases due with
    | false => exact hlast
    | true =>
      have hover : period ≤ t - since := hdue.mp rfl
      simp only [if_true] at hlast
      simp only [firings, lastFiring, if_true, List.length_cons, Nat.add_mul, Nat.one_mul]
      omega

/-- With no period to wait for, every answer is yes. -/
theorem all_of_lawful_zero (h : Lawful 0 since as) : ∀ a ∈ as, a.2 = true := by
  induction as generalizing since with
  | nil => simp
  | cons a as ih =>
    obtain ⟨t, due⟩ := a
    obtain ⟨-, hdue, hrest⟩ := h
    rw [List.forall_mem_cons]
    exact ⟨hdue.mpr (Nat.zero_le _), ih hrest⟩

end Answer

/-! ## A clock and its timer in use -/

/-- What can be done to a clock and the timer on it. -/
inductive TimerUse where
  | advance (d : Micros)
  | poll

/-- How far the clock gets, if it does not wrap. -/
def TimerUse.elapsed : List TimerUse → Nat
  | [] => 0
  | .advance d :: us => d.toNat + elapsed us
  | .poll :: us => elapsed us

open TimerUse (elapsed)

theorem TimerUse.elapsed_append (us vs : List TimerUse) :
    elapsed (us ++ vs) = elapsed us + elapsed vs := by
  induction us with
  | nil => simp [elapsed]
  | cons u us ih => cases u <;> simp [elapsed, ih, Nat.add_assoc]

namespace TimeSource

/-- A clock that reads `start`, and a timer on it whose first period begins then. -/
def startingAt (start period : Micros) : TimeSource := ⟨start, .timer (.start start period)⟩

/-- The clock and its timer after they were used. -/
def after (s : TimeSource) : List TimerUse → TimeSource
  | [] => s
  | .advance d :: us => (s.advance d).after us
  | .poll :: us => (InterruptSource.poll s).2.after us

/-- The answers to the polls, in order. -/
def answers (s : TimeSource) : List TimerUse → List Answer
  | [] => []
  | .advance d :: us => (s.advance d).answers us
  | .poll :: us =>
    (s.now.toNat, (InterruptSource.poll s).1) :: (InterruptSource.poll s).2.answers us

theorem now_advance {s : TimeSource} {d : Micros} (hroom : s.now.toNat + d.toNat < 2 ^ 64) :
    (s.advance d).now.toNat = s.now.toNat + d.toNat := by
  show (s.now + d).toNat = _
  rw [BitVec.toNat_add, Nat.mod_eq_of_lt hroom]

/-- The clock drives this timer, whose period has begun by now. -/
structure Drives (s : TimeSource) (timer : Timer) : Prop where
  line : s.line = .timer timer
  begun : timer.since.toNat ≤ s.now.toNat

theorem drives_startingAt (start period : Micros) :
    Drives (startingAt start period) (.start start period) :=
  ⟨rfl, Nat.le_refl _⟩

namespace Drives

variable {s : TimeSource} {timer : Timer}

theorem advance (h : Drives s timer) {d : Micros} (hroom : s.now.toNat + d.toNat < 2 ^ 64) :
    Drives (s.advance d) timer where
  line := h.line
  begun := by
    rw [now_advance hroom]
    exact Nat.le_trans h.begun (Nat.le_add_right _ _)

theorem poll_iff (h : Drives s timer) :
    (InterruptSource.poll s).1 = true ↔ timer.period.toNat ≤ s.now.toNat - timer.since.toNat := by
  rw [poll_of_timer h.line]
  by_cases hexpired : timer.Expired s.now
  · rw [Timer.poll_of_expired hexpired]
    exact iff_of_true rfl hexpired
  · rw [Timer.poll_of_not_expired hexpired]
    exact iff_of_false Bool.false_ne_true hexpired

theorem now_poll (h : Drives s timer) : (InterruptSource.poll s).2.now = s.now := by
  rw [poll_of_timer h.line]

/-- A yes begins the next period, and a no leaves everything as it is. -/
theorem poll (h : Drives s timer) :
    Drives (InterruptSource.poll s).2
      { timer with since := if (InterruptSource.poll s).1 then s.now else timer.since } := by
  rw [poll_of_timer h.line]
  by_cases hexpired : timer.Expired s.now
  · rw [Timer.poll_of_expired hexpired]
    exact ⟨rfl, Nat.le_refl _⟩
  · rw [Timer.poll_of_not_expired hexpired]
    exact ⟨rfl, h.begun⟩

/-- The moment of a yes is the beginning of the next period. -/
theorem toNat_since_poll (s : TimeSource) (timer : Timer) :
    (if (InterruptSource.poll s).1 then s.now else timer.since).toNat =
      if (InterruptSource.poll s).1 then s.now.toNat else timer.since.toNat := by
  split
  · rfl
  · rfl

/-- The induction is on the uses.  A poll hands a timer on that began its period
    with the answer, if that was yes. -/
theorem lawful_answers (h : Drives s timer) {us : List TimerUse}
    (hroom : s.now.toNat + elapsed us < 2 ^ 64) :
    Answer.Lawful timer.period.toNat timer.since.toNat (s.answers us) := by
  induction us generalizing s timer with
  | nil => trivial
  | cons u us ih =>
    cases u with
    | advance d =>
      simp only [elapsed] at hroom
      have hd : s.now.toNat + d.toNat < 2 ^ 64 := by omega
      have hnow := now_advance hd
      exact ih (h.advance hd) (by omega)
    | poll =>
      have hrest := ih h.poll (by rw [h.now_poll]; exact hroom)
      rw [toNat_since_poll] at hrest
      exact ⟨h.begun, h.poll_iff, hrest⟩

/-- After any uses the clock drives the same timer, in the period that the last
    yes has begun. -/
theorem after (h : Drives s timer) {us : List TimerUse}
    (hroom : s.now.toNat + elapsed us < 2 ^ 64) :
    (s.after us).now.toNat = s.now.toNat + elapsed us ∧
      ∃ since : Micros, since.toNat = Answer.lastFiring timer.since.toNat (s.answers us) ∧
        Drives (s.after us) { timer with since } := by
  induction us generalizing s timer with
  | nil => exact ⟨rfl, timer.since, rfl, h⟩
  | cons u us ih =>
    cases u with
    | advance d =>
      simp only [elapsed] at hroom ⊢
      have hd : s.now.toNat + d.toNat < 2 ^ 64 := by omega
      have hnow := now_advance hd
      obtain ⟨hclock, hdrives⟩ := ih (h.advance hd) (by omega)
      refine ⟨?_, hdrives⟩
      rw [hnow] at hclock
      exact hclock.trans (Nat.add_assoc _ _ _)
    | poll =>
      obtain ⟨hclock, hdrives⟩ := ih h.poll (by rw [h.now_poll]; exact hroom)
      rw [h.now_poll] at hclock
      rw [toNat_since_poll] at hdrives
      exact ⟨hclock, hdrives⟩

/-- Asked again at the moment of a yes, the timer says no. -/
theorem poll_poll (h : Drives s timer) (hperiod : 0 < timer.period.toNat)
    (hdue : (InterruptSource.poll s).1 = true) :
    (InterruptSource.poll (InterruptSource.poll s).2).1 = false := by
  have hagain := h.poll.poll_iff
  rw [h.now_poll, hdue, if_pos rfl, Nat.sub_self] at hagain
  exact Bool.eq_false_iff.mpr fun hyes => Nat.not_le.mpr hperiod (hagain.mp hyes)

end Drives

/-- Whatever the clock reads at the start, and however advances and polls follow
    each other while it does not wrap, a poll answers yes exactly if a period has
    gone by since the last yes, or since the start.  So two firings are a period
    apart, there are no more of them than whole periods, and the poll after a
    firing answers no, however late the firing was.  A period of zero is always
    over. -/
theorem fires_exactly_when_period_is_over (start period : Micros) (uses : List TimerUse)
    (hroom : start.toNat + elapsed uses < 2 ^ 64) :
    let s := startingAt start period
    let firings := Answer.firings (s.answers uses)
    (∀ before rest, uses = before ++ .poll :: rest →
      let t := s.after before
      let last := Answer.lastFiring start.toNat (s.answers before)
      t.now.toNat = start.toNat + elapsed before ∧ last ≤ t.now.toNat ∧
        ((InterruptSource.poll t).1 = true ↔ period.toNat ≤ t.now.toNat - last)) ∧
    (0 < period.toNat →
      (firings.Pairwise fun t u => t + period.toNat ≤ u) ∧
      firings.length ≤ ((s.after uses).now.toNat - start.toNat) / period.toNat ∧
      ∀ before rest, uses = before ++ .poll :: .poll :: rest →
        let t := s.after before
        (InterruptSource.poll t).1 = true →
          (InterruptSource.poll (InterruptSource.poll t).2).1 = false) ∧
    (period.toNat = 0 → ∀ a ∈ s.answers uses, a.2 = true) := by
  intro s firings
  have hstart : Drives s (.start start period) := drives_startingAt start period
  have hlawful : Answer.Lawful period.toNat start.toNat (s.answers uses) :=
    hstart.lawful_answers hroom
  -- the clock does not wrap before a poll in the middle either
  have hbefore (before rest : List TimerUse) (huses : uses = before ++ rest) :
      s.now.toNat + elapsed before < 2 ^ 64 := by
    rw [huses, TimerUse.elapsed_append] at hroom
    show start.toNat + elapsed before < 2 ^ 64
    omega
  refine ⟨?_, ?_, ?_⟩
  · intro before rest huses t last
    obtain ⟨hclock, since, hsince, ht⟩ := hstart.after (hbefore before _ huses)
    have hlast : since.toNat = last := hsince
    refine ⟨hclock, ?_, ?_⟩
    · rw [← hlast]
      exact ht.begun
    · rw [← hlast]
      exact ht.poll_iff
  · intro hperiod
    refine ⟨Answer.pairwise_firings hlawful, ?_, ?_⟩
    · obtain ⟨-, since, hsince, hend⟩ := hstart.after (hbefore uses [] (by simp))
      have htaken : start.toNat + firings.length * period.toNat ≤
          Answer.lastFiring start.toNat (s.answers uses) := Answer.length_firings_mul_le hlawful
      have hlast : since.toNat = Answer.lastFiring start.toNat (s.answers uses) := hsince
      have hbegun : since.toNat ≤ (s.after uses).now.toNat := hend.begun
      rw [Nat.le_div_iff_mul_le hperiod]
      omega
    · intro before rest huses t hdue
      obtain ⟨-, since, -, ht⟩ := hstart.after (hbefore before _ huses)
      exact ht.poll_poll hperiod hdue
  · intro hperiod
    rw [hperiod] at hlawful
    exact Answer.all_of_lawful_zero hlawful

/-- A clock about to wrap and a timer of a hundred microseconds: the poll that
    comes ten periods late makes one firing of them. -/
theorem fires_near_the_top_of_the_clock :
    let start : Micros := 0 - 1200
    let early : List TimerUse := [.poll, .advance 1000]
    let uses : List TimerUse := early ++ [.poll, .poll, .advance 100, .poll]
    start.toNat + elapsed uses < 2 ^ 64 ∧
      (((startingAt start 100).answers uses).map (·.2)) = [false, true, false, true] ∧
      (Answer.firings ((startingAt start 100).answers uses)).length ≤ 11 ∧
      (InterruptSource.poll (InterruptSource.poll ((startingAt start 100).after early)).2).1 =
        false := by
  intro start early uses
  have hroom : start.toNat + elapsed uses < 2 ^ 64 := by decide
  obtain ⟨-, hpositive, -⟩ := fires_exactly_when_period_is_over start 100 uses hroom
  obtain ⟨-, hcount, hnext⟩ := hpositive (by decide)
  have hbound : (((startingAt start 100).after uses).now.toNat - start.toNat) /
      (100 : Micros).toNat = 11 := by decide
  rw [hbound] at hcount
  have hlate : (InterruptSource.poll ((startingAt start 100).after early)).1 = true := by decide
  exact ⟨hroom, by decide, hcount, hnext early [.advance 100, .poll] rfl hlate⟩

end TimeSource

end Nmos6502
