/-
  A listing says what the bytes are, and nothing else.

  A listing walks over the bytes with two positions, an offset that only grows
  and an address that wraps.  What it makes of the bytes at one place depends on
  these bytes alone, so a listing cut at the beginning of an entry is again a
  listing: that is `disassemble_drop`, the induction on which the rest stands.
  Every other statement about an entry is then one about the first entry of a
  listing.
-/
import Nmos6502.Proofs.Step
import Nmos6502.Instruction

namespace Nmos6502

namespace Instruction

/-! ## The first entry -/

/-- A documented instruction begins with `b`, and `rest` has all of its operand. -/
def Complete (b : Byte) (rest : List Byte) : Prop :=
  (opcodeEntry b).legal ∧ (opcodeEntry b).mode.operandLength ≤ rest.length

instance (b : Byte) (rest : List Byte) : Decidable (Complete b rest) :=
  inferInstanceAs (Decidable (_ ∧ _))

/-- What a listing makes of the byte `b` with `rest` behind it. -/
def listed (address : Addr) (b : Byte) (rest : List Byte) : Instruction :=
  if Complete b rest then
    ofParts address b (rest.take (opcodeEntry b).mode.operandLength)
  else
    .undocumented address b

variable {address : Addr} {b : Byte} {rest : List Byte}

theorem complete_iff : Complete b rest ↔
    (opcodeEntry b).legal ∧ (rest.take (opcodeEntry b).mode.operandLength).length =
      (opcodeEntry b).mode.operandLength := by
  rw [Complete, List.length_take]
  exact and_congr_right fun _ => by omega

/-- What makes an instruction incomplete: the opcode, or the end of the bytes. -/
theorem not_complete_iff : ¬ Complete b rest ↔
    (opcodeEntry b).operation = .illegal ∨ rest.length + 1 < (opcodeEntry b).size := by
  rw [Complete, OpcodeEntry.legal_iff, Decidable.not_and_iff_or_not, Decidable.not_not, Nat.not_le,
    OpcodeEntry.size]
  exact or_congr_right (by omega)

theorem ofBytes?_of_complete (h : Complete b rest) :
    ofBytes? address (b :: rest) = some (listed address b rest) := by
  rw [listed, if_pos h]
  rw [complete_iff] at h
  simp only [ofBytes?, h.1, h.2, beq_self_eq_true, Bool.and_self, if_true]

theorem ofBytes?_of_not_complete (h : ¬ Complete b rest) :
    ofBytes? address (b :: rest) = none := by
  rw [complete_iff] at h
  simpa [ofBytes?] using h

theorem getD_ofBytes? :
    (ofBytes? address (b :: rest)).getD (.undocumented address b) = listed address b rest := by
  by_cases h : Complete b rest
  · rw [ofBytes?_of_complete h, Option.getD_some]
  · rw [ofBytes?_of_not_complete h, Option.getD_none, listed, if_neg h]

@[simp] theorem address_listed : (listed address b rest).address = address := by
  unfold listed
  split
  · rfl
  · rfl

theorem size_bounds_listed (address : Addr) (b : Byte) (rest : List Byte) :
    1 ≤ (listed address b rest).bytes.length ∧ (listed address b rest).bytes.length ≤ 3 := by
  unfold listed
  split
  · have hle := Mode.operandLength_le (opcodeEntry b).mode
    simp only [ofParts, List.length_cons, List.length_take]
    omega
  · simp [undocumented]

theorem bytes_listed_prefix : (listed address b rest).bytes <+: b :: rest := by
  unfold listed
  split
  · exact List.cons_prefix_cons.mpr ⟨rfl, List.take_prefix _ _⟩
  · exact List.cons_prefix_cons.mpr ⟨rfl, List.nil_prefix⟩

/-- An entry is unknown exactly when it stands for no complete instruction. -/
theorem listed_eq_undocumented_iff :
    listed address b rest = .undocumented address b ↔ ¬ Complete b rest := by
  constructor
  · intro h hcomplete
    rw [listed, if_pos hcomplete] at h
    have hop : (opcodeEntry b).operation = .illegal := congrArg operation h
    exact (OpcodeEntry.legal_iff _).mp hcomplete.1 hop
  · intro h
    rw [listed, if_neg h]

/-! ## Runs of instructions -/

/-- How many bytes a run of instructions takes up. -/
def extent : List Instruction → Nat
  | [] => 0
  | i :: is => i.bytes.length + extent is

@[simp] theorem extent_nil : extent [] = 0 := rfl

@[simp] theorem extent_cons (i : Instruction) (is : List Instruction) :
    extent (i :: is) = i.bytes.length + extent is := rfl

theorem length_flatMap_bytes (is : List Instruction) :
    (is.flatMap (·.bytes)).length = extent is := by
  induction is with
  | nil => rfl
  | cons i is ih => rw [List.flatMap_cons, List.length_append, ih, extent_cons]

end Instruction

open Instruction

/-! ## Listings -/

@[simp] theorem disassemble_nil (a : Addr) : disassemble [] a = [] := by
  rw [disassemble]

/-- A listing goes on behind the bytes of its first entry. -/
theorem disassemble_cons (b : Byte) (rest : List Byte) (a : Addr) :
    disassemble (b :: rest) a = listed a b rest ::
      disassemble ((b :: rest).drop (listed a b rest).bytes.length)
        (a + (listed a b rest).size) := by
  have hsize := size_bounds_listed a b rest
  rw [disassemble, getD_ofBytes?, List.drop_cons (by omega)]

/-- Induction along a listing: from the bytes behind an entry to those with it. -/
@[elab_as_elim]
theorem listing_induction {motive : List Byte → Addr → Prop} (nil : ∀ a, motive [] a)
    (cons : ∀ b rest a, motive ((b :: rest).drop (listed a b rest).bytes.length)
      (a + (listed a b rest).size) → motive (b :: rest) a)
    (bytes : List Byte) (a : Addr) : motive bytes a := by
  induction bytes, a using disassemble.induct with
  | case1 a => exact nil a
  | case2 a b rest i ih =>
    have hi : i = listed a b rest := getD_ofBytes?
    have hsize := size_bounds_listed a b rest
    rw [hi, ← List.drop_cons (by omega)] at ih
    exact cons b rest a ih

theorem eq_cons_of_disassemble {bytes : List Byte} {a : Addr} {i : Instruction}
    {is : List Instruction} (h : disassemble bytes a = i :: is) :
    ∃ b rest, bytes = b :: rest ∧ i = listed a b rest := by
  cases bytes with
  | nil => simp at h
  | cons b rest =>
    rw [disassemble_cons] at h
    exact ⟨b, rest, rfl, (List.cons.inj h).1.symm⟩

/-- The first entry takes its bytes off the front. -/
theorem bytes_listed_append (b : Byte) (rest : List Byte) (a : Addr) :
    (listed a b rest).bytes ++ (b :: rest).drop (listed a b rest).bytes.length = b :: rest :=
  List.prefix_iff_eq_append.mp bytes_listed_prefix

/-- Nothing is lost and nothing is invented. -/
theorem flatMap_bytes_disassemble (bytes : List Byte) (a : Addr) :
    (disassemble bytes a).flatMap (·.bytes) = bytes := by
  induction bytes, a using listing_induction with
  | nil a => simp
  | cons b rest a ih =>
    rw [disassemble_cons, List.flatMap_cons, ih]
    exact bytes_listed_append b rest a

/-- A listing cut at the beginning of an entry is the listing of the bytes from
    there on. -/
theorem disassemble_drop (bytes : List Byte) (a : Addr) (k : Nat) :
    disassemble (bytes.drop (extent ((disassemble bytes a).take k)))
      (a + BitVec.ofNat 16 (extent ((disassemble bytes a).take k))) =
        (disassemble bytes a).drop k := by
  induction k generalizing bytes a with
  | zero => simp
  | succ k ih =>
    cases bytes with
    | nil => simp
    | cons b rest =>
      rw [disassemble_cons, List.take_succ_cons, extent_cons, ← List.drop_drop, BitVec.ofNat_add,
        ← BitVec.add_assoc]
      exact ih _ _

/-- The entry behind the first `k` is the first one of a listing. -/
theorem eq_listed_of_getElem? {bytes : List Byte} {a : Addr} {k : Nat} {i : Instruction}
    (h : (disassemble bytes a)[k]? = some i) :
    let offset := extent ((disassemble bytes a).take k)
    ∃ b rest, bytes.drop offset = b :: rest ∧ i = listed (a + BitVec.ofNat 16 offset) b rest := by
  intro offset
  obtain ⟨hk, rfl⟩ := List.getElem?_eq_some_iff.mp h
  have hdrop : disassemble (bytes.drop offset) (a + BitVec.ofNat 16 offset) =
      (disassemble bytes a)[k] :: (disassemble bytes a).drop (k + 1) := by
    rw [disassemble_drop, List.drop_eq_getElem_cons hk]
  exact eq_cons_of_disassemble hdrop

theorem size_bounds_of_mem {bytes : List Byte} {a : Addr} {i : Instruction}
    (h : i ∈ disassemble bytes a) : 1 ≤ i.bytes.length ∧ i.bytes.length ≤ 3 := by
  obtain ⟨k, hk⟩ := List.mem_iff_getElem?.mp h
  obtain ⟨b, rest, -, rfl⟩ := eq_listed_of_getElem? hk
  exact size_bounds_listed _ b rest

/-- There are no more entries than bytes, since no entry is empty. -/
theorem length_disassemble_le (bytes : List Byte) (a : Addr) :
    (disassemble bytes a).length ≤ bytes.length := by
  have hextent (is : List Instruction) (h : ∀ i ∈ is, 1 ≤ i.bytes.length) :
      is.length ≤ extent is := by
    induction is with
    | nil => simp
    | cons i is ih =>
      rw [List.forall_mem_cons] at h
      have := ih h.2
      rw [extent_cons, List.length_cons]
      omega
  calc (disassemble bytes a).length
      ≤ extent (disassemble bytes a) := hextent _ fun i hi => (size_bounds_of_mem hi).1
    _ = bytes.length := by rw [← length_flatMap_bytes, flatMap_bytes_disassemble]

/-- A listing tells what its bytes are.  The bytes of its entries are the bytes
    that were given, one to three in each entry, and the address of an entry is
    as far behind the start as the entries before it are long, modulo the size of
    the address space.  An entry is unknown exactly when its first byte is
    undocumented or its operand is not complete, and otherwise it is what the
    bytes from there on decode to; and these bytes, listed from there, give the
    entries from there on. -/
theorem listing_is_faithful (bytes : List Byte) (start : Addr) :
    let is := disassemble bytes start
    is.length ≤ bytes.length ∧
      is.flatMap (·.bytes) = bytes ∧
      (∀ i ∈ is, 1 ≤ i.bytes.length ∧ i.bytes.length ≤ 3) ∧
      (∀ k i, is[k]? = some i →
        i.address = start + BitVec.ofNat 16 (extent (is.take k)) ∧
        ∃ b, bytes[extent (is.take k)]? = some b ∧
          (i = .undocumented i.address b ↔ (opcodeEntry b).operation = .illegal ∨
            bytes.length < extent (is.take k) + (opcodeEntry b).size) ∧
          (i ≠ .undocumented i.address b →
            ofBytes? i.address (bytes.drop (extent (is.take k))) = some i)) ∧
      ∀ k, disassemble (bytes.drop (extent (is.take k)))
        (start + BitVec.ofNat 16 (extent (is.take k))) = is.drop k := by
  intro is
  refine ⟨length_disassemble_le bytes start, flatMap_bytes_disassemble bytes start,
    fun i hi => size_bounds_of_mem hi, ?_, disassemble_drop bytes start⟩
  intro k i hi
  obtain ⟨b, rest, hdrop, rfl⟩ := eq_listed_of_getElem? hi
  have hfirst : bytes[extent (is.take k)]? = some b := by
    rw [← List.head?_drop, hdrop, List.head?_cons]
  have hlength : bytes.length - extent (is.take k) = rest.length + 1 := by
    rw [← List.length_drop, hdrop, List.length_cons]
  have hcut : rest.length + 1 < (opcodeEntry b).size ↔
      bytes.length < extent (is.take k) + (opcodeEntry b).size := by omega
  rw [address_listed]
  refine ⟨rfl, b, hfirst, ?_, fun hne => ?_⟩
  · rw [listed_eq_undocumented_iff, not_complete_iff, hcut]
  · rw [hdrop]
    refine ofBytes?_of_complete (Decidable.of_not_not fun h => hne ?_)
    exact listed_eq_undocumented_iff.mpr h

/-- A branch at the top of the address space, an undocumented byte, and a jump
    without its last byte, whose operand is listed on its own. -/
theorem listing_around_the_top :
    let is := disassemble [0xD0, 0xFD, 0x02, 0x4C, 0x00] 0xFFFF
    is.map (·.address) = [0xFFFF, 0x0001, 0x0002, 0x0003] ∧
      is[2]? = some (.undocumented 0x0002 0x4C) ∧
      disassemble [0x4C, 0x00] 0x0002 = is.drop 2 := by
  intro is
  have haddress : is.map (·.address) = [0xFFFF, 0x0001, 0x0002, 0x0003] := by decide +kernel
  have hoffset : extent (is.take 2) = 3 := by decide +kernel
  have hlong : 2 < is.length := by decide +kernel
  have hthird : is[2]? = some is[2] := List.getElem?_eq_getElem hlong
  obtain ⟨-, -, -, hentry, hdrop⟩ := listing_is_faithful [0xD0, 0xFD, 0x02, 0x4C, 0x00] 0xFFFF
  obtain ⟨hplace, b, hb, hunknown, -⟩ := hentry 2 is[2] hthird
  have hcut := hdrop 2
  rw [show extent (List.take 2 (disassemble _ _)) = 3 from hoffset] at hplace hb hunknown hcut
  obtain rfl : 0x4C = b := Option.some.inj hb
  refine ⟨haddress, ?_, hcut⟩
  rw [hthird, hunknown.mpr (.inr (by decide)), hplace]
  rfl

end Nmos6502
