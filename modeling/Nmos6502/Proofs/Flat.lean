/-
  What a load leaves in flat memory.

  A load writes upward from its first address and stops at the top of the
  address space.  `get_load` says what every cell holds afterwards, and from it
  follows that an image of all cells brings a memory back.
-/
import Nmos6502.Bus.Flat

namespace Nmos6502

/-- Below the top of the address space the next address has the next number. -/
theorem toNat_next {a : Addr} (h : a ≠ 0xFFFF) : (a + 1).toNat = a.toNat + 1 := by
  have ha := a.isLt
  have hne : a.toNat ≠ 0xFFFF := fun e => h (BitVec.eq_of_toNat_eq e)
  exact BitVec.toNat_add_of_lt (show a.toNat + 1 < 2 ^ 16 by omega)

namespace Flat

/-- The cells from `a` on hold the bytes, as far as these and the address space
    go; the other cells are as they were. -/
theorem get_load (m : Flat) (a : Addr) (bs : List Byte) (x : Addr) :
    (m.load a bs).get x =
      if a.toNat ≤ x.toNat then bs[x.toNat - a.toNat]?.getD (m.get x) else m.get x := by
  induction bs generalizing m a with
  | nil => rw [load, List.getElem?_nil, Option.getD_none, ite_self]
  | cons b bs ih =>
    have hx := x.isLt
    rcases Nat.lt_trichotomy a.toNat x.toNat with hlt | heq | hgt
    -- above the first cell: the remaining bytes decide
    · have htop : a ≠ 0xFFFF := by
        rintro rfl
        change 0xFFFF < x.toNat at hlt
        omega
      have hne : a ≠ x := by
        rintro rfl
        exact Nat.lt_irrefl _ hlt
      have hindex : x.toNat - a.toNat = (x.toNat - (a + 1).toNat) + 1 := by
        rw [toNat_next htop]
        omega
      have hle : (a + 1).toNat ≤ x.toNat := by
        rw [toNat_next htop]
        exact hlt
      rw [load, if_neg htop, ih, if_pos hle, get_set_of_ne _ _ hne, if_pos (Nat.le_of_lt hlt),
        hindex, List.getElem?_cons_succ]
    -- the first cell: the remaining bytes do not come back to it
    · obtain rfl := BitVec.eq_of_toNat_eq heq
      rw [if_pos (Nat.le_refl _), Nat.sub_self, List.getElem?_cons_zero, Option.getD_some, load]
      by_cases htop : a = 0xFFFF
      · rw [if_pos htop, get_set_self]
      · have hnot : ¬ (a + 1).toNat ≤ a.toNat := by
          rw [toNat_next htop]
          omega
        rw [if_neg htop, ih, if_neg hnot, get_set_self]
    -- below: nothing reaches it, since a load never wraps
    · have hne : a ≠ x := by
        rintro rfl
        exact Nat.lt_irrefl _ hgt
      rw [if_neg (Nat.not_le_of_lt hgt), load]
      by_cases htop : a = 0xFFFF
      · rw [if_pos htop, get_set_of_ne _ _ hne]
      · have hnot : ¬ (a + 1).toNat ≤ x.toNat := by
          rw [toNat_next htop]
          omega
        rw [if_neg htop, ih, if_neg hnot, get_set_of_ne _ _ hne]

theorem length_toList (m : Flat) : m.toList.length = 65536 := Vector.length_toList

/-- An image is in memory byte by byte, followed by zeros. -/
theorem get_ofImage (image : List Byte) (a : Addr) :
    (ofImage image).get a = image[a.toNat]?.getD 0 := by
  have hzero : (0 : Addr).toNat = 0 := rfl
  rw [ofImage, get_load, hzero, if_pos (Nat.zero_le _), Nat.sub_zero, get_zero]

/-- An image of all cells brings the memory back. -/
theorem ofImage_toList (m : Flat) : ofImage m.toList = m := by
  apply ext_get
  intro x
  have hx : x.toNat < m.toList.length := by
    rw [length_toList]
    exact x.isLt
  have hcell : m.toList[x.toNat] = m.get x := Vector.getElem_toList hx
  rw [get_ofImage, List.getElem?_eq_getElem hx, Option.getD_some, hcell]

end Flat

end Nmos6502
