/-
  Which device an access reaches.

  When a device is placed, its window is compared with the others by ends that
  may lie beyond the address space; when an address is looked up, the end is
  taken in sixteen bits.  `covers_iff` says that both mean the same addresses,
  so windows that do not overlap share none, also where they run past the top.
  That no two windows share an address is kept by every placement and by every
  access, as long as the devices keep their sizes; hence an access reaches one
  device at most, and that inside its size.
-/
import Nmos6502.Bus.Router

namespace Nmos6502

/-- Devices that keep the size with which they were placed. -/
class SteadyDevice (D : Type) [Device D] : Prop where
  size_read (d : D) (o : Addr) : Device.size (Device.read d o).2 = Device.size d
  size_write (d : D) (o : Addr) (b : Byte) : Device.size (Device.write d o b) = Device.size d

/-! ## The devices that machines are fitted with -/

instance : SteadyDevice Ram where
  size_read _ _ := rfl
  size_write r o b := congrArg (BitVec.ofNat 16) (r.size_set o.toNat b)

instance : SteadyDevice Peripheral where
  size_read d o := by
    cases d with
    | ram r => exact SteadyDevice.size_read r o
    | rom | port | counter | requester => rfl
  size_write d o b := by
    cases d with
    | ram r => exact SteadyDevice.size_write r o b
    | rom | port | counter | requester => rfl

variable {D : Type} [Device D]

namespace Window

/-! ## The addresses of a window -/

/-- A window covers the addresses from its base up to its limit, as far as there
    are any: the limit in sixteen bits says the same as the limit itself. -/
theorem covers_iff (w : Window D) (a : Addr) :
    w.covers a ↔ w.base.toNat ≤ a.toNat ∧ a.toNat < w.limit := by
  have ha := a.isLt
  unfold covers
  split
  · next htop =>
    rw [decide_eq_true_iff, BitVec.le_def]
    omega
  · next htop =>
    -- below the top the sum of sixteen bits is the sum
    have hend : (w.base + w.size).toNat = w.limit := by
      rw [BitVec.toNat_add]
      exact Nat.mod_eq_of_lt (Nat.lt_of_not_le htop)
    rw [Bool.and_eq_true, decide_eq_true_iff, decide_eq_true_iff, BitVec.le_def, BitVec.lt_def,
      hend]

/-- The offset of a covered address never wraps. -/
theorem toNat_offset {w : Window D} {a : Addr} (h : w.covers a) :
    (w.offset a).toNat = a.toNat - w.base.toNat := by
  obtain ⟨hbase, -⟩ := (covers_iff w a).mp h
  exact BitVec.toNat_sub_of_le (BitVec.le_def.mpr hbase)

/-- The offset of a covered address lies inside the device. -/
theorem offset_lt_size {w : Window D} {a : Addr} (h : w.covers a) :
    (w.offset a).toNat < w.size.toNat := by
  obtain ⟨hbase, hlimit⟩ := (covers_iff w a).mp h
  rw [toNat_offset h]
  unfold limit at hlimit
  omega

theorem covers_congr {w w' : Window D} (hbase : w'.base = w.base) (hsize : w'.size = w.size)
    (a : Addr) : w'.covers a = w.covers a := by
  unfold covers limit
  rw [hbase, hsize]

/-- The windows have no address in common. -/
def Apart (w w' : Window D) : Prop := ∀ a, ¬ (w.covers a ∧ w'.covers a)

theorem apart_of_not_overlaps {w w' : Window D} (h : w.overlaps w' = false) : Apart w w' := by
  rintro a ⟨hw, hw'⟩
  obtain ⟨hbase, hlimit⟩ := (covers_iff w a).mp hw
  obtain ⟨hbase', hlimit'⟩ := (covers_iff w' a).mp hw'
  rw [overlaps, Bool.and_eq_false_iff, decide_eq_false_iff_not, decide_eq_false_iff_not] at h
  omega

/-! ## What an access does to a window -/

/-- The window after a read of `a`: only a window that covers the address takes
    part, and its device is read at the offset there. -/
def onRead (w : Window D) (a : Addr) : Window D := if w.covers a then (w.read a).2 else w

/-- The window after `b` has been written to `a`. -/
def onWrite (w : Window D) (a : Addr) (b : Byte) : Window D :=
  if w.covers a then w.write a b else w

theorem onRead_of_not_covers {w : Window D} {a : Addr} (h : w.covers a = false) :
    w.onRead a = w := by
  rw [onRead, h]
  rfl

theorem onWrite_of_not_covers {w : Window D} {a : Addr} (h : w.covers a = false) (b : Byte) :
    w.onWrite a b = w := by
  rw [onWrite, h]
  rfl

theorem onRead_eq_self {w : Window D} {a : Addr} (h : (w.read a).2 = w) : w.onRead a = w := by
  rw [onRead, h, ite_self]

theorem onWrite_eq_self {w : Window D} {a : Addr} {b : Byte} (h : w.write a b = w) :
    w.onWrite a b = w := by
  rw [onWrite, h, ite_self]

variable [SteadyDevice D]

theorem covers_onRead (w : Window D) (a a' : Addr) : (w.onRead a).covers a' = w.covers a' := by
  unfold onRead
  split
  · have hsize : (w.read a).2.size = w.size := SteadyDevice.size_read w.device (w.offset a)
    exact covers_congr (by rfl) hsize a'
  · rfl

theorem covers_onWrite (w : Window D) (a : Addr) (b : Byte) (a' : Addr) :
    (w.onWrite a b).covers a' = w.covers a' := by
  unfold onWrite
  split
  · have hsize : (w.write a b).size = w.size := SteadyDevice.size_write w.device (w.offset a) b
    exact covers_congr (by rfl) hsize a'
  · rfl

end Window

namespace Router

open Window (Apart)

/-! ## Windows that share no address -/

/-- No two windows have an address in common. -/
def Tidy (r : Router D) : Prop := r.windows.Pairwise Apart

theorem tidy_empty : (empty : Router D).Tidy := List.Pairwise.nil

/-- If the first of some windows covers an address, the others do not. -/
theorem not_covers_of_apart {w : Window D} {ws : List (Window D)} {a : Addr}
    (h : ∀ w' ∈ ws, Apart w w') (hw : w.covers a) : ∀ w' ∈ ws, w'.covers a = false := by
  intro w' hmem
  exact Bool.eq_false_iff.mpr fun hw' => h w' hmem a ⟨hw, hw'⟩

/-- What leaves alone the windows that do not cover an address leaves alone all
    but the one that does. -/
theorem map_eq_self_of_apart {w : Window D} {ws : List (Window D)} {a : Addr}
    (h : ∀ w' ∈ ws, Apart w w') (hw : w.covers a) {f : Window D → Window D}
    (hf : ∀ w', w'.covers a = false → f w' = w') : ws.map f = ws := by
  rw [List.map_congr_left fun w' hmem => hf w' (not_covers_of_apart h hw w' hmem), List.map_id']

theorem countP_covers_le_one {ws : List (Window D)} (h : ws.Pairwise Apart) (a : Addr) :
    ws.countP (·.covers a) ≤ 1 := by
  induction h with
  | nil => exact Nat.zero_le _
  | @cons w ws hw _ ih =>
    by_cases hc : w.covers a
    · have hrest : ws.countP (·.covers a) = 0 := by
        rw [List.countP_eq_zero]
        intro w' hmem
        rw [not_covers_of_apart hw hc w' hmem]
        exact Bool.false_ne_true
      exact Nat.le_of_eq (by rw [List.countP_cons, if_pos hc, hrest])
    · rw [List.countP_cons, if_neg hc]
      exact ih

/-! ## Placing -/

/-- A device is placed behind the others, and its window overlaps none. -/
theorem place_eq_ok {r r' : Router D} {base : Addr} {device : D}
    (h : r.place base device = (.ok (), r')) :
    r'.windows = r.windows ++ [⟨base, device⟩] ∧
      ∀ w ∈ r.windows, (⟨base, device⟩ : Window D).overlaps w = false := by
  unfold place at h
  dsimp only at h
  split at h
  · cases h
  · next hnone =>
    cases h
    refine ⟨rfl, fun w hw => ?_⟩
    exact Bool.eq_false_iff.mpr (List.find?_eq_none.mp hnone w hw)

/-- A refusal changes nothing.  It names the new window and one that is there and
    overlaps it. -/
theorem place_eq_error {r : Router D} {base : Addr} {device : D} {o : Overlap}
    (h : (r.place base device).1 = .error o) :
    (r.place base device).2 = r ∧
      ∃ w ∈ r.windows, (⟨base, device⟩ : Window D).overlaps w ∧
        o = ⟨base, Device.size device, w.base, w.size⟩ := by
  unfold place at h ⊢
  dsimp only at h ⊢
  split at h
  · next w hsome =>
    cases h
    exact ⟨rfl, w, List.mem_of_find?_eq_some hsome, List.find?_some hsome, rfl⟩
  · cases h

/-- Accepted or refused, a placement keeps the windows apart. -/
theorem Tidy.place {r : Router D} (h : r.Tidy) (base : Addr) (device : D) :
    (r.place base device).2.Tidy := by
  cases houtcome : (r.place base device).1 with
  | error o =>
    rw [(place_eq_error houtcome).1]
    exact h
  | ok =>
    obtain ⟨hwindows, hfree⟩ := place_eq_ok (Prod.ext houtcome rfl)
    rw [Tidy, hwindows, List.pairwise_append]
    -- what is left are the pairs of an old window and the new one
    refine ⟨h, List.pairwise_singleton _ _, fun w hw w' hw' => ?_⟩
    rw [List.mem_singleton] at hw'
    subst hw'
    rintro a ⟨hc, hc'⟩
    exact Window.apart_of_not_overlaps (hfree w hw) a ⟨hc', hc⟩

/-! ## Reading and writing -/

theorem Tidy.windows_read {r : Router D} (h : r.Tidy) (a : Addr) :
    (Bus.read r a).2.windows = r.windows.map (·.onRead a) := by
  obtain ⟨ws⟩ := r
  show (readWindows a ws).2 = ws.map (·.onRead a)
  change ws.Pairwise Apart at h
  induction h with
  | nil => rfl
  | @cons w ws hw _ ih =>
    rw [List.map_cons, readWindows]
    by_cases hc : w.covers a
    · have hrest : ws.map (·.onRead a) = ws :=
        map_eq_self_of_apart hw hc fun _ => Window.onRead_of_not_covers
      rw [if_pos hc, hrest, Window.onRead, if_pos hc]
    · rw [if_neg hc, Window.onRead_of_not_covers (Bool.eq_false_iff.mpr hc), ← ih]

theorem Tidy.windows_write {r : Router D} (h : r.Tidy) (a : Addr) (b : Byte) :
    (Bus.write r a b).windows = r.windows.map (·.onWrite a b) := by
  obtain ⟨ws⟩ := r
  show writeWindows a b ws = ws.map (·.onWrite a b)
  change ws.Pairwise Apart at h
  induction h with
  | nil => rfl
  | @cons w ws hw _ ih =>
    rw [List.map_cons, writeWindows]
    by_cases hc : w.covers a
    · have hrest : ws.map (·.onWrite a b) = ws :=
        map_eq_self_of_apart hw hc fun _ hw' => Window.onWrite_of_not_covers hw' b
      rw [if_pos hc, hrest, Window.onWrite, if_pos hc]
    · rw [if_neg hc, Window.onWrite_of_not_covers (Bool.eq_false_iff.mpr hc), ← ih]

/-- Where no device stands the bus floats. -/
theorem read_of_not_covers {r : Router D} {a : Addr} (h : ∀ w ∈ r.windows, w.covers a = false) :
    (Bus.read r a).1 = openBus := by
  obtain ⟨ws⟩ := r
  show (readWindows a ws).1 = openBus
  change ∀ w ∈ ws, w.covers a = false at h
  induction ws with
  | nil => rfl
  | cons w ws ih =>
    rw [List.forall_mem_cons] at h
    rw [readWindows, h.1]
    exact ih h.2

/-- The window that covers an address answers for it. -/
theorem Tidy.read_of_covers {r : Router D} (h : r.Tidy) {w : Window D} (hw : w ∈ r.windows)
    {a : Addr} (hc : w.covers a) : (Bus.read r a).1 = (w.read a).1 := by
  obtain ⟨ws⟩ := r
  show (readWindows a ws).1 = (w.read a).1
  change w ∈ ws at hw
  change ws.Pairwise Apart at h
  induction h with
  | nil => cases hw
  | @cons w' ws hw' _ ih =>
    rw [readWindows]
    rcases List.mem_cons.mp hw with rfl | hmem
    · rw [if_pos hc]
    · have hc' : ¬ w'.covers a := fun hc' => hw' w hmem a ⟨hc', hc⟩
      rw [if_neg hc']
      exact ih hmem

variable [SteadyDevice D]

theorem Tidy.read {r : Router D} (h : r.Tidy) (a : Addr) : (Bus.read r a).2.Tidy := by
  rw [Tidy, h.windows_read, List.pairwise_map]
  refine List.Pairwise.imp (fun hapart a' => ?_) h
  rw [Window.covers_onRead, Window.covers_onRead]
  exact hapart a'

theorem Tidy.write {r : Router D} (h : r.Tidy) (a : Addr) (b : Byte) :
    (Bus.write r a b).Tidy := by
  rw [Tidy, h.windows_write, List.pairwise_map]
  refine List.Pairwise.imp (fun hapart a' => ?_) h
  rw [Window.covers_onWrite, Window.covers_onWrite]
  exact hapart a'

/-! ## Histories -/

/-- What can be done to a router. -/
inductive Call (D : Type) where
  | place (base : Addr) (device : D)
  | read (a : Addr)
  | write (a : Addr) (b : Byte)

omit [SteadyDevice D] in
/-- Does what is asked; only a placement can be refused. -/
def carryOut (r : Router D) : Call D → Except Overlap Unit × Router D
  | .place base device => r.place base device
  | .read a => (.ok (), (Bus.read r a).2)
  | .write a b => (.ok (), Bus.write r a b)

omit [SteadyDevice D] in
/-- Does what is asked, and goes on with whatever router is there then. -/
def attempt (r : Router D) (call : Call D) : Router D := (r.carryOut call).2

theorem Tidy.attempt {r : Router D} (h : r.Tidy) (call : Call D) : (r.attempt call).Tidy := by
  cases call with
  | place base device => exact h.place base device
  | read a => exact h.read a
  | write a b => exact h.write a b

theorem Tidy.carryOut {r r' : Router D} (h : r.Tidy) {call : Call D}
    (hcall : r.carryOut call = (.ok (), r')) : r'.Tidy := by
  have hattempt : r.attempt call = r' := congrArg (·.2) hcall
  rw [← hattempt]
  exact h.attempt call

/-- No history of placements, reads and writes brings two windows together. -/
theorem tidy_foldl_attempt {r : Router D} (h : r.Tidy) (calls : List (Call D)) :
    (calls.foldl attempt r).Tidy := by
  induction calls generalizing r with
  | nil => exact h
  | cons call calls ih => exact ih (h.attempt call)

/-- After any history that begins with an empty router, an address is covered by
    one window at most.  An access goes to the windows that cover its address and
    to no others, at the offset that the address has from their base, which lies
    inside the device; where none does, a read finds the bus floating.  A refused
    placement, which names a window in the way, leaves the router as it was. -/
theorem routing_unambiguous (calls : List (Call D)) :
    let r := calls.foldl attempt empty
    (∀ a, r.windows.countP (·.covers a) ≤ 1) ∧
      (∀ a, ∀ w ∈ r.windows, w.covers a →
        w.base.toNat + (w.offset a).toNat = a.toNat ∧
          (w.offset a).toNat < (Device.size w.device).toNat ∧
          (Bus.read r a).1 = (Device.read w.device (w.offset a)).1) ∧
      (∀ a, (∀ w ∈ r.windows, ¬ w.covers a) → (Bus.read r a).1 = 0xFF) ∧
      (∀ a, (Bus.read r a).2.windows = r.windows.map fun w =>
        if w.covers a then { w with device := (Device.read w.device (w.offset a)).2 } else w) ∧
      (∀ a b, (Bus.write r a b).windows = r.windows.map fun w =>
        if w.covers a then { w with device := Device.write w.device (w.offset a) b } else w) ∧
      (∀ base device o, (r.place base device).1 = .error o →
        (r.place base device).2 = r ∧
          ∃ w ∈ r.windows, o = ⟨base, Device.size device, w.base, w.size⟩) := by
  intro r
  have htidy : r.Tidy := tidy_foldl_attempt tidy_empty calls
  refine ⟨countP_covers_le_one htidy, fun a w hw hc => ?_, fun a hnone => ?_,
    htidy.windows_read, htidy.windows_write, fun base device o hrefused => ?_⟩
  · have hbase := ((Window.covers_iff w a).mp hc).1
    have hoffset := Window.toNat_offset hc
    refine ⟨by omega, Window.offset_lt_size hc, htidy.read_of_covers hw hc⟩
  · exact read_of_not_covers fun w hw => Bool.eq_false_iff.mpr (hnone w hw)
  · obtain ⟨hsame, w, hw, -, ho⟩ := place_eq_error hrefused
    exact ⟨hsame, w, hw, ho⟩

/-- Two bytes of RAM at the last address have room for one, so that one is the
    only window there, takes a write and keeps a port out. -/
theorem routing_at_last_address :
    let calls : List (Call Peripheral) :=
      [.place 0xFFFF (.ram (.ofBytes [0x11, 0x22])), .place 0xFFFF .port,
        .place 0xFFFE (.counter 7), .read 0xFFFE, .write 0xFFFF 0x5A]
    let r := calls.foldl attempt empty
    r.windows.countP (·.covers 0xFFFF) ≤ 1 ∧ (Bus.read r 0xFFFF).1 = 0x5A ∧
      (Bus.read r 0x0000).1 = 0xFF ∧ (r.place 0xFFFF .port).2 = r := by
  intro calls r
  obtain ⟨hone, hat, hopen, -, -, hrefused⟩ := routing_unambiguous calls
  have hram : ⟨0xFFFF, .ram ((Ram.ofBytes [0x11, 0x22]).set 0 0x5A)⟩ ∈ r.windows :=
    List.mem_cons_self
  refine ⟨hone 0xFFFF, (hat 0xFFFF _ hram (by decide)).2.2, hopen 0x0000 (by decide), ?_⟩
  exact (hrefused 0xFFFF .port ⟨0xFFFF, 1, 0xFFFF, 2⟩ rfl).1

end Router

end Nmos6502
