/-
  Split memory in two other words.

  Split memory answers like flat memory from the same image that never gets the
  writes to the upper half, and like a router on which a RAM and a ROM have been
  placed, each with its half of the image.  Both are shown access by access, so
  they hold for every history.  Since no access changes the upper half, no
  program does, whatever runs it.
-/
import Nmos6502.Proofs.Accesses
import Nmos6502.Proofs.SelfTest

namespace Nmos6502

open Bus (Becomes)

namespace Split

/-! ## Both halves -/

/-- Both devices have the size of their halves. -/
structure Whole (m : Split) : Prop where
  low : m.low.data.size = 32768
  high : m.high.data.size = 32768

theorem length_wholeImage (image : List Byte) : (wholeImage image).length = 65536 := by
  rw [wholeImage, List.length_append, List.length_take, List.length_replicate]
  omega

theorem whole_ofImage (image : List Byte) : (ofImage image).Whole := by
  have hlength := length_wholeImage image
  constructor
  · simp only [ofImage, Ram.ofBytes, List.size_toArray, List.length_take, hlength]
    rfl
  · simp only [ofImage, Rom.ofBytes, List.size_toArray, List.length_take, List.length_drop, hlength]
    rfl

theorem high_write (m : Split) (a : Addr) (b : Byte) : (Bus.write m a b).high = m.high := by
  rw [write_eq]
  split
  · rfl
  · rfl

theorem Whole.write {m : Split} (h : m.Whole) (a : Addr) (b : Byte) : (Bus.write m a b).Whole :=
  ⟨(size_low_write m a b).trans h.low, (congrArg (·.data.size) (high_write m a b)).trans h.high⟩

/-- Whatever becomes of it, the memory keeps its size and its upper half. -/
theorem Whole.becomes {m m' : Split} (h : m.Whole) (hm' : Becomes m m') :
    m'.Whole ∧ m'.high = m.high := by
  induction hm' with
  | refl => exact ⟨h, rfl⟩
  | read _ a ih =>
    rw [read_eq]
    exact ih
  | write _ _ b ih => exact ⟨ih.1.write _ b, (high_write _ _ b).trans ih.2⟩

theorem get_of_becomes {image : List Byte} {m : Split} (h : Becomes (ofImage image) m) {a : Addr}
    (ha : 0x8000 ≤ a) : m.get a = image[a.toNat]?.getD 0 := by
  have hhigh : ¬ a < romBase := BitVec.not_lt.mpr ha
  rw [← get_ofImage, get, get, if_neg hhigh, if_neg hhigh, ((whole_ofImage image).becomes h).2]

end Split

/-! ## Against flat memory -/

/-- Whether an access is anything but a write to the upper half. -/
def Bus.Query.lands : Bus.Query → Bool
  | .read _ => true
  | .write a _ => a < 0x8000

namespace Split

/-- Flat memory with the same bytes gives the same answers, if it does not get
    the writes to the upper half. -/
theorem answers_eq_flat {m : Split} {f : Flat} (hm : m.Whole) (h : ∀ a, m.get a = f.get a)
    (queries : List Bus.Query) :
    Bus.answers m queries = Bus.answers f (queries.filter (·.lands)) := by
  induction queries generalizing m f with
  | nil => rfl
  | cons query queries ih =>
    cases query with
    | read a =>
      have hlands : Bus.Query.lands (.read a) := rfl
      rw [List.filter_cons_of_pos hlands, Bus.answers, Bus.answers, read_eq, Flat.read_eq, h a,
        ih hm h]
    | write a b =>
      by_cases ha : a < romBase
      · have hlands : Bus.Query.lands (.write a b) := decide_eq_true ha
        rw [List.filter_cons_of_pos hlands, Bus.answers, Bus.answers]
        refine ih (hm.write a b) fun x => ?_
        rw [get_write hm.low, Flat.write_eq, Flat.get_set, h x]
        simp only [ha, true_and]
      -- a write that is not taken is not passed on to flat memory either
      · have hlost : ¬ Bus.Query.lands (.write a b) := fun h => ha (of_decide_eq_true h)
        rw [List.filter_cons_of_neg hlost, Bus.answers, write_eq, if_neg ha, ih hm h]

/-! ## Against a router -/

/-- The two halves as devices on a router. -/
def routed (m : Split) : Router Peripheral :=
  ⟨[⟨0x0000, .ram m.low⟩, ⟨romBase, .rom m.high⟩]⟩

theorem limit_low {m : Split} (h : m.Whole) :
    (⟨0x0000, .ram m.low⟩ : Window Peripheral).limit = 32768 := by
  have hsize : (Device.size m.low).toNat = 32768 := (Ram.toNat_size m.low).trans h.low
  exact congrArg (0 + ·) hsize

theorem limit_high {m : Split} (h : m.Whole) :
    (⟨romBase, .rom m.high⟩ : Window Peripheral).limit = 65536 := by
  have hsize : (Device.size m.high).toNat = 32768 := (Rom.toNat_size m.high).trans h.high
  exact congrArg (32768 + ·) hsize

theorem covers_low {m : Split} (h : m.Whole) (a : Addr) :
    (⟨0x0000, .ram m.low⟩ : Window Peripheral).covers a ↔ a < romBase := by
  rw [Window.covers_iff, limit_low h, BitVec.lt_def]
  exact ⟨fun hc => hc.2, fun hc => ⟨Nat.zero_le _, hc⟩⟩

theorem covers_high {m : Split} (h : m.Whole) (a : Addr) :
    (⟨romBase, .rom m.high⟩ : Window Peripheral).covers a ↔ ¬ a < romBase := by
  rw [Window.covers_iff, limit_high h, BitVec.lt_def, Nat.not_lt]
  exact ⟨fun hc => hc.1, fun hc => ⟨hc, a.isLt⟩⟩

/-- The router finds for an address the half that it lies in. -/
theorem read_routed {m : Split} (h : m.Whole) (a : Addr) :
    Bus.read m.routed a = (m.get a, m.routed) := by
  have hread : Bus.read m.routed a = ((Router.readWindows a m.routed.windows).1,
      ⟨(Router.readWindows a m.routed.windows).2⟩) := rfl
  rw [hread, routed, get, Router.readWindows]
  by_cases ha : a < romBase
  · rw [if_pos ((covers_low h a).mpr ha), if_pos ha]
    have hoffset : (⟨0x0000, .ram m.low⟩ : Window Peripheral).offset a = a := BitVec.sub_zero a
    rw [Window.read, hoffset]
    rfl
  · rw [if_neg (mt (covers_low h a).mp ha), if_neg ha, Router.readWindows,
      if_pos ((covers_high h a).mpr ha)]
    rfl

theorem write_routed {m : Split} (h : m.Whole) (a : Addr) (b : Byte) :
    Bus.write m.routed a b = (Bus.write m a b).routed := by
  have hwrite : Bus.write m.routed a b = ⟨Router.writeWindows a b m.routed.windows⟩ := rfl
  rw [hwrite, routed, write_eq, Router.writeWindows]
  by_cases ha : a < romBase
  · rw [if_pos ((covers_low h a).mpr ha), if_pos ha]
    have hoffset : (⟨0x0000, .ram m.low⟩ : Window Peripheral).offset a = a := BitVec.sub_zero a
    rw [Window.write, hoffset]
    rfl
  · rw [if_neg (mt (covers_low h a).mp ha), if_neg ha, Router.writeWindows,
      if_pos ((covers_high h a).mpr ha)]
    rfl

theorem simulation_routed : Bus.Simulation fun (m : Split) r => m.Whole ∧ r = m.routed where
  read := by
    rintro m _ ⟨h, rfl⟩ a
    rw [read_routed h, read_eq]
    exact ⟨rfl, h, rfl⟩
  write := by
    rintro m _ ⟨h, rfl⟩ a b
    exact ⟨h.write a b, write_routed h a b⟩

/-- The halves can be placed on a router: they do not overlap. -/
theorem placed_routed {m : Split} (h : m.Whole) :
    (Router.empty : Router Peripheral).carryOutAll
      [.place 0x0000 (.ram m.low), .place romBase (.rom m.high)] = .ok m.routed := by
  have hapart : (⟨romBase, .rom m.high⟩ : Window Peripheral).overlaps ⟨0x0000, .ram m.low⟩ =
      false := by
    rw [Window.overlaps, limit_low h]
    rfl
  -- nothing is in the way of the first
  have hlow : (Router.empty : Router Peripheral).carryOut (.place 0x0000 (.ram m.low)) =
      (.ok (), ⟨[⟨0x0000, .ram m.low⟩]⟩) := rfl
  have hhigh : (⟨[⟨0x0000, .ram m.low⟩]⟩ : Router Peripheral).carryOut
      (.place romBase (.rom m.high)) = (.ok (), m.routed) := by
    rw [Router.carryOut, Router.place, List.find?_cons_of_neg (Bool.eq_false_iff.mp hapart)]
    rfl
  rw [Router.carryOutAll_cons_of_ok hlow, Router.carryOutAll_cons_of_ok hhigh, Router.carryOutAll]

/-! ## Every history and every program -/

/-- The device that is asked for an address has the cell it is asked for. -/
def InRange (m : Split) (a : Addr) : Prop :=
  if a < romBase then a.toNat < m.low.data.size else (a - romBase).toNat < m.high.data.size

theorem Whole.inRange {m : Split} (h : m.Whole) (a : Addr) : m.InRange a := by
  have hbase : romBase.toNat = 32768 := rfl
  unfold InRange
  split
  · next hlow =>
    rw [h.low]
    exact hlow
  · next hhigh =>
    have hle : romBase ≤ a := BitVec.not_lt.mp hhigh
    have ha := a.isLt
    rw [h.high, BitVec.toNat_sub_of_le hle, hbase]
    omega

/-- A self-test only reads and writes the memory that it is given. -/
theorem becomes_selfTest (fuel : Nat) (image : List Byte) (journal : Journal) :
    Becomes (ofImage image) (SelfTest.run fuel image journal).machine.bus := by
  let m : Machine Split Unit := { Machine.powerOn (.ofImage image) () with journal }
  have hreset : Becomes (ofImage image) m.reset.bus := m.core.becomes_reset
  rw [Machine.bus, SelfTest.core_run]
  exact hreset.trans (Machine.becomes_run SelfTest.watch_orderly fuel .fresh m.reset)

/-- Split memory filled from an image, of whatever length, answers any reads and
    writes like flat memory filled from it that does not get the writes to the
    upper half, and like a router with a RAM and a ROM made of the two halves
    of the image.  Whatever becomes of it, every access finds its cell, and the
    upper half reads as the image has it.  So no program changes that half,
    under any hook that uses the bus only for accesses. -/
theorem split_memory_has_two_descriptions (image : List Byte) :
    (∀ queries, Bus.answers (ofImage image) queries =
        Bus.answers (Flat.ofImage image) (queries.filter (·.lands))) ∧
      (∃ r, (Router.empty : Router Peripheral).carryOutAll
          [.place 0x0000 (.ram (.ofBytes ((wholeImage image).take 32768))),
            .place 0x8000 (.rom (.ofBytes ((wholeImage image).drop 32768)))] = .ok r ∧
        ∀ queries, Bus.answers (ofImage image) queries = Bus.answers r queries) ∧
      (∀ m, Becomes (ofImage image) m →
        (∀ a, m.InRange a) ∧ ∀ a, 0x8000 ≤ a → Bus.peek m a = image[a.toNat]?.getD 0) ∧
      (∀ (H S : Type) [InterruptSource S] (hook : Hook H Split S), hook.Orderly →
        ∀ n : Machine Split S, Becomes (ofImage image) n.bus → ∀ a, 0x8000 ≤ a →
          (∀ steps, Bus.peek (n.after steps).2.bus a = image[a.toNat]?.getD 0) ∧
          ∀ fuel k, Bus.peek (Machine.run hook fuel k n).2.2.bus a = image[a.toNat]?.getD 0) ∧
      ∀ fuel journal a, 0x8000 ≤ a →
        Bus.peek (SelfTest.run fuel image journal).machine.bus a = image[a.toNat]?.getD 0 := by
  have hwhole := whole_ofImage image
  have hkept {m : Split} (hm : Becomes (ofImage image) m) {a : Addr} (ha : 0x8000 ≤ a) :
      Bus.peek m a = image[a.toNat]?.getD 0 := by
    rw [Bus.peek, read_eq]
    exact get_of_becomes hm ha
  have hplaced := placed_routed hwhole
  have hlow : (ofImage image).low = .ofBytes ((wholeImage image).take 32768) := rfl
  have hhigh : (ofImage image).high = .ofBytes ((wholeImage image).drop 32768) := rfl
  rw [hlow, hhigh] at hplaced
  refine ⟨fun queries => ?_, ⟨(ofImage image).routed, hplaced, fun queries => ?_⟩,
    fun m hm => ⟨fun a => (hwhole.becomes hm).1.inRange a, fun a => hkept hm⟩,
    fun H S _ hook horderly n hn a ha => ⟨fun steps => ?_, fun fuel k => ?_⟩,
    fun fuel journal a => hkept (becomes_selfTest fuel image journal)⟩
  · refine answers_eq_flat hwhole (fun a => ?_) queries
    rw [get_ofImage, Flat.get_ofImage]
  · exact simulation_routed.answers ⟨hwhole, rfl⟩ queries
  · exact hkept (hn.trans (n.becomes_after steps)) ha
  · exact hkept (hn.trans (Machine.becomes_run horderly fuel k n)) ha

/-- Of two writes on either side of the boundary only the lower one is taken, and
    a run without a hook leaves the zero at the boundary. -/
theorem lower_write_taken :
    let image : List Byte := [0x22]
    let queries : List Bus.Query := [.write 0x8000 0x44, .write 0x7FFF 0x33, .read 0x0000,
      .read 0x7FFF, .read 0x8000]
    Bus.answers (ofImage image) queries = [0x22, 0x33, 0x00] ∧
      (∃ r, (Router.empty : Router Peripheral).carryOutAll
          [.place 0x0000 (.ram (.ofBytes ((wholeImage image).take 32768))),
            .place 0x8000 (.rom (.ofBytes ((wholeImage image).drop 32768)))] = .ok r ∧
        Bus.answers r queries = [0x22, 0x33, 0x00]) ∧
      (Bus.write (ofImage image) 0x8000 0x44).InRange 0x8000 ∧
      ∀ fuel, Bus.peek (Machine.run Hook.none fuel ()
        (Machine.powerOn (ofImage image) ())).2.2.bus 0x8000 = 0x00 := by
  intro image queries
  obtain ⟨hflat, ⟨r, hplaced, hrouter⟩, hbecomes, hprogram, -⟩ :=
    split_memory_has_two_descriptions image
  have hanswers : Bus.answers (ofImage image) queries = [0x22, 0x33, 0x00] := by
    have hlands : queries.filter (·.lands) = [.write 0x7FFF 0x33, .read 0x0000, .read 0x7FFF,
      .read 0x8000] := rfl
    rw [hflat, hlands]
    simp only [Bus.answers, Flat.read_eq, Flat.write_eq, Flat.get_set, Flat.get_ofImage]
    decide +kernel
  have hzero : image[(0x8000 : Addr).toNat]?.getD 0 = 0x00 := rfl
  refine ⟨hanswers, ⟨r, hplaced, (hrouter queries).symm.trans hanswers⟩, ?_, fun fuel => ?_⟩
  · exact (hbecomes _ (.write .refl trivial 0x44)).1 0x8000
  · have hkept := hprogram Unit Unit Hook.none Hook.none_orderly (.powerOn (ofImage image) ())
      .refl 0x8000 (BitVec.le_refl _)
    exact (hkept.2 fuel ()).trans hzero

end Split

end Nmos6502
