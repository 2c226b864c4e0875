/-
  Which placements are refused.

  A placement is refused by a comparison of bases and limits.  For windows that
  have addresses it tells whether they share one.  A window without any shares
  none, but the comparison finds it in the way of a window whose base it stands
  behind and whose limit it stands before; so a device of size zero may neither
  be placed there nor be surrounded by another.
-/
import Nmos6502.Proofs.Routing

namespace Nmos6502

theorem Ram.size_zero (size : Addr) : Device.size (Ram.zero size) = size := by
  apply BitVec.eq_of_toNat_eq
  rw [Ram.toNat_size]
  exact Array.size_replicate

variable {D : Type} [Device D]

namespace Window

/-! ## Windows in each other's way -/

/-- The windows have an address in common. -/
def Shares (w w' : Window D) : Prop := ∃ a, w.covers a ∧ w'.covers a

/-- A window without addresses stands inside the other, behind its base. -/
def Splits (w w' : Window D) : Prop := w.size = 0 ∧ w'.covers w.base ∧ w'.base ≠ w.base

/-- One of the windows cannot be placed when the other is there. -/
def Conflicts (w w' : Window D) : Prop := w.Shares w' ∨ w.Splits w' ∨ w'.Splits w

theorem overlaps_iff (w w' : Window D) :
    w.overlaps w' ↔ w.base.toNat < w'.limit ∧ w'.base.toNat < w.limit := by
  rw [overlaps, Bool.and_eq_true, decide_eq_true_iff, decide_eq_true_iff]

theorem overlaps_comm (w w' : Window D) : w.overlaps w' ↔ w'.overlaps w := by
  rw [overlaps_iff, overlaps_iff, and_comm]

theorem base_lt_limit {w : Window D} (h : w.size ≠ 0) : w.base.toNat < w.limit := by
  have hsize : w.size.toNat ≠ 0 := mt (BitVec.eq_of_toNat_eq (y := 0)) h
  unfold limit
  omega

theorem Shares.overlaps {w w' : Window D} (h : w.Shares w') : w.overlaps w' := by
  obtain ⟨a, hcovers⟩ := h
  exact Bool.not_eq_false _ ▸ fun hfree => apart_of_not_overlaps hfree a hcovers

/-- The larger of two bases is an address of both windows, if they overlap. -/
theorem shares_of_overlaps {w w' : Window D} (hw : w.size ≠ 0) (hw' : w'.size ≠ 0)
    (h : w.overlaps w') : w.Shares w' := by
  obtain ⟨hlimit', hlimit⟩ := (overlaps_iff w w').mp h
  have hbase := base_lt_limit hw
  have hbase' := base_lt_limit hw'
  rcases Nat.le_total w.base.toNat w'.base.toNat with hle | hle
  · refine ⟨w'.base, (covers_iff w _).mpr ⟨hle, hlimit⟩, ?_⟩
    exact (covers_iff w' _).mpr ⟨Nat.le_refl _, hbase'⟩
  · refine ⟨w.base, (covers_iff w _).mpr ⟨Nat.le_refl _, hbase⟩, ?_⟩
    exact (covers_iff w' _).mpr ⟨hle, hlimit'⟩

theorem overlaps_iff_splits {w w' : Window D} (hw : w.size = 0) :
    w.overlaps w' ↔ w.Splits w' := by
  have hlimit : w.limit = w.base.toNat := by
    rw [limit, hw]
    rfl
  rw [overlaps_iff, Splits, covers_iff, hlimit]
  constructor
  · rintro ⟨hbelow, habove⟩
    refine ⟨hw, ⟨Nat.le_of_lt habove, hbelow⟩, ?_⟩
    exact mt (congrArg BitVec.toNat) (Nat.ne_of_lt habove)
  · rintro ⟨-, ⟨hle, hbelow⟩, hne⟩
    exact ⟨hbelow, Nat.lt_of_le_of_ne hle (mt BitVec.eq_of_toNat_eq hne)⟩

theorem overlaps_iff_shares {w w' : Window D} (hw : w.size ≠ 0) (hw' : w'.size ≠ 0) :
    w.overlaps w' ↔ w.Shares w' := ⟨shares_of_overlaps hw hw', Shares.overlaps⟩

theorem overlaps_iff_conflicts (w w' : Window D) : w.overlaps w' ↔ w.Conflicts w' := by
  constructor
  · intro h
    -- an overlap that is no shared address needs an empty window
    by_cases hw : w.size = 0
    · exact .inr (.inl ((overlaps_iff_splits hw).mp h))
    by_cases hw' : w'.size = 0
    · exact .inr (.inr ((overlaps_iff_splits hw').mp ((overlaps_comm w w').mp h)))
    · exact .inl (shares_of_overlaps hw hw' h)
  · rintro (hshares | hsplits | hsplit)
    · exact hshares.overlaps
    · exact (overlaps_iff_splits hsplits.1).mpr hsplits
    · exact (overlaps_comm w w').mpr ((overlaps_iff_splits hsplit.1).mpr hsplit)

end Window

namespace Router

/-! ## Refusals -/

/-- The first window that has a property, in the order of placement. -/
def FirstWith (r : Router D) (p : Window D → Prop) (w : Window D) : Prop :=
  ∃ front back, r.windows = front ++ w :: back ∧ p w ∧ ∀ w' ∈ front, ¬ p w'

/-- A window is refused exactly if one that is there conflicts with it; the
    refusal names the new window and the first that conflicts. -/
def Refuses (r : Router D) (w : Window D) (conflict : Window D → Prop) : Prop :=
  ((∃ o, (r.place w.base w.device).1 = .error o) ↔ ∃ w' ∈ r.windows, conflict w') ∧
    ∀ o, (r.place w.base w.device).1 = .error o →
      ∃ w', r.FirstWith conflict w' ∧ o = ⟨w.base, w.size, w'.base, w'.size⟩

theorem refuses_overlaps (r : Router D) (w : Window D) : r.Refuses w (w.overlaps · = true) := by
  obtain ⟨base, device⟩ := w
  unfold Refuses place
  dsimp only
  cases hfind : r.windows.find? (Window.overlaps ⟨base, device⟩) with
  | none =>
    have hnone := List.find?_eq_none.mp hfind
    refine ⟨⟨fun hrefused => ?_, fun hconflicts => ?_⟩, fun o hrefused => ?_⟩
    · obtain ⟨o, ho⟩ := hrefused
      cases ho
    · obtain ⟨w', hw', hconflict⟩ := hconflicts
      exact (hnone w' hw' hconflict).elim
    · cases hrefused
  | some w' =>
    obtain ⟨hconflict, front, back, hwindows, hfront⟩ :=
      List.find?_eq_some_iff_append.mp hfind
    refine ⟨⟨fun _ => ⟨w', List.mem_of_find?_eq_some hfind, hconflict⟩, fun _ => ⟨_, rfl⟩⟩,
      fun o hrefused => ?_⟩
    cases hrefused
    -- the search has passed over what stands in front
    refine ⟨w', ⟨front, back, hwindows, hconflict, fun w'' hw'' => ?_⟩, rfl⟩
    simpa using hfront w'' hw''

omit [Device D] in
theorem FirstWith.imp {r : Router D} {p q : Window D → Prop} {w : Window D}
    (h : ∀ w ∈ r.windows, (p w ↔ q w)) (hw : r.FirstWith p w) : r.FirstWith q w := by
  obtain ⟨front, back, hwindows, hp, hfront⟩ := hw
  rw [hwindows] at h
  refine ⟨front, back, hwindows, (h w (by simp)).mp hp, fun w' hw' => ?_⟩
  exact mt (h w' (List.mem_append_left _ hw')).mpr (hfront w' hw')

theorem Refuses.congr {r : Router D} {w : Window D} {p q : Window D → Prop}
    (h : ∀ w' ∈ r.windows, (p w' ↔ q w')) (hp : r.Refuses w p) : r.Refuses w q := by
  refine ⟨hp.1.trans (exists_congr fun w' => and_congr_right (h w')), fun o ho => ?_⟩
  obtain ⟨w', hfirst, hnamed⟩ := hp.2 o ho
  exact ⟨w', hfirst.imp h, hnamed⟩

/-! ## Placed devices -/

/-- A read goes to the window that is found for the address. -/
theorem read_eq_window (r : Router D) (a : Addr) :
    (Bus.read r a).1 = (r.window? a).elim openBus fun w => (w.read a).1 := by
  obtain ⟨ws⟩ := r
  show (readWindows a ws).1 = (ws.find? (·.covers a)).elim openBus fun w => (w.read a).1
  induction ws with
  | nil => rfl
  | cons w ws ih =>
    rw [readWindows, List.find?_cons]
    by_cases hc : w.covers a
    · rw [if_pos hc, hc]
      rfl
    · rw [if_neg hc, Bool.eq_false_iff.mpr hc]
      exact ih

/-- The window that was placed last is found for each of its addresses. -/
theorem window_place {r r' : Router D} {w : Window D}
    (h : r.place w.base w.device = (.ok (), r')) {a : Addr} (hc : w.covers a) :
    r'.window? a = some w := by
  obtain ⟨hwindows, hfree⟩ := place_eq_ok h
  -- none of those that were there answers, so the search comes to the new one
  have hothers : r.windows.find? (·.covers a) = none :=
    List.find?_eq_none.mpr fun w' hw' hc' =>
      Window.apart_of_not_overlaps (hfree w' hw') a ⟨hc, hc'⟩
  rw [window?, hwindows, List.find?_append, hothers, Option.none_or]
  exact List.find?_cons_of_pos hc

/-- In any router a window that would share an address with one already there is
    refused, and so is a window without addresses that would stand inside
    another or a window that would surround one without addresses.  No other is
    refused, and a refusal names the first in the way.  So where all windows
    have addresses, sharing one is what decides.  A device that is placed is
    found for each address from its base up to its size or the top. -/
theorem placement_conflicts (r : Router D) (w : Window D) :
    (∀ a, w.covers a ↔ w.base.toNat ≤ a.toNat ∧ a.toNat < w.base.toNat + w.size.toNat) ∧
      r.Refuses w w.Conflicts ∧
      (w.size ≠ 0 → (∀ w' ∈ r.windows, w'.size ≠ 0) → r.Refuses w w.Shares) ∧
      (∀ r', r.place w.base w.device = (.ok (), r') →
        r'.windows = r.windows ++ [w] ∧
          ∀ a, w.covers a → r'.window? a = some w ∧
            (Bus.read r' a).1 = (Device.read w.device (a - w.base)).1) := by
  have hoverlaps := r.refuses_overlaps w
  refine ⟨Window.covers_iff w, ?_, fun hw hall => ?_, fun r' hplace => ?_⟩
  · exact hoverlaps.congr fun w' _ => Window.overlaps_iff_conflicts w w'
  · exact hoverlaps.congr fun w' hw' => Window.overlaps_iff_shares hw (hall w' hw')
  · refine ⟨(place_eq_ok hplace).1, fun a hc => ?_⟩
    have hfound := window_place hplace hc
    refine ⟨hfound, ?_⟩
    rw [read_eq_window, hfound]
    rfl

/-- Behind sixteen bytes of RAM there is room for two bytes of ROM, and none one
    address before. -/
theorem placement_behind_ram :
    let ram : Window Peripheral := ⟨0x1000, .ram (.zero 0x10)⟩
    let rom : Peripheral := .rom (.ofBytes [0xEA, 0x60])
    let r : Router Peripheral := ⟨[ram]⟩
    (∃ r', r.place 0x1010 rom = (.ok (), r') ∧ (Bus.read r' 0x1011).1 = 0x60) ∧
      r.place 0x100F rom = (.error ⟨0x100F, 2, 0x1000, 0x10⟩, r) ∧
      ∃ w', r.FirstWith (Window.Shares ⟨0x100F, rom⟩) w' := by
  intro ram rom r
  obtain ⟨-, -, -, hplaced⟩ := placement_conflicts r ⟨0x1010, rom⟩
  obtain ⟨-, -, hshares, -⟩ := placement_conflicts r ⟨0x100F, rom⟩
  have hnonempty : ∀ w ∈ r.windows, w.size ≠ 0 := by
    intro w hw
    obtain rfl := List.mem_singleton.mp hw
    decide
  have hroom : r.place 0x1010 rom = (.ok (), ⟨[ram, ⟨0x1010, rom⟩]⟩) := rfl
  have hnone : r.place 0x100F rom = (.error ⟨0x100F, 2, 0x1000, 0x10⟩, r) := rfl
  refine ⟨⟨_, hroom, ?_⟩, hnone, ?_⟩
  · rw [((hplaced _ hroom).2 0x1011 (by decide)).2]
    decide
  · obtain ⟨w', hfirst, -⟩ := (hshares (by decide) hnonempty).2 _ (congrArg (·.1) hnone)
    exact ⟨w', hfirst⟩

/-- No bytes of RAM inside sixteen share no address with them, and are refused
    all the same. -/
theorem empty_window_refused :
    let r : Router Peripheral := ⟨[⟨0x1000, .ram (.zero 0x10)⟩]⟩
    let w : Window Peripheral := ⟨0x1008, .ram (.zero 0)⟩
    empty.place 0x1000 (.ram (.zero 0x10)) = (.ok (), r) ∧
      r.place w.base w.device = (.error ⟨0x1008, 0, 0x1000, 0x10⟩, r) ∧
      (∀ a, ¬ w.covers a) ∧ ¬ r.Refuses w w.Shares := by
  intro r w
  have hrefused : r.place w.base w.device = (.error ⟨0x1008, 0, 0x1000, 0x10⟩, r) := rfl
  have hcovers : ∀ a, ¬ w.covers a := by
    intro a hc
    obtain ⟨hbase, hlimit⟩ := (Window.covers_iff w a).mp hc
    exact Nat.not_lt.mpr hbase hlimit
  refine ⟨rfl, hrefused, hcovers, fun hrefuses => ?_⟩
  obtain ⟨w', -, a, hc, -⟩ := hrefuses.1.mp ⟨_, congrArg (·.1) hrefused⟩
  exact hcovers a hc

end Router

end Nmos6502
