/-
  Numbers of any length.

  A list of bytes spells an unsigned number, `leValue`, and a signed one in two's
  complement, `leSigned`, from which the whole range is taken away when the
  topmost bit is set.  Both put a byte below a longer number by the same
  equation, so a statement about numbers of many bytes goes down, byte by byte,
  to one about the topmost.
-/
import Mathlib.Algebra.Group.Int.Defs
import Mathlib.Algebra.Group.Nat.Defs
import Nmos6502.Word

namespace Nmos6502

/-! ## Unsigned numbers -/

theorem leValue_lt (bs : List Byte) : leValue bs < 256 ^ bs.length := by
  induction bs with
  | nil => simp
  | cons b bs ih =>
    have := b.isLt
    rw [leValue_cons, List.length_cons, Nat.pow_succ]
    omega

theorem leValue_leBytes (n v : Nat) : leValue (leBytes n v) = v % 256 ^ n := by
  induction n generalizing v with
  | zero => simp [leBytes, Nat.mod_one]
  | succ n ih =>
    rw [leBytes, leValue_cons, ih, BitVec.toNat_ofNat, show 256 ^ (n + 1) = 256 * 256 ^ n from
      Nat.pow_succ', Nat.mod_mul]

theorem leValue_append_singleton (bs : List Byte) (b : Byte) :
    leValue (bs ++ [b]) = leValue bs + 256 ^ bs.length * b.toNat := by
  induction bs with
  | nil => simp
  | cons b' bs ih =>
    rw [List.cons_append, leValue_cons, leValue_cons, ih, List.length_cons, Nat.pow_succ',
      Nat.mul_assoc]
    omega

/-- Numbers of the same length are written in the same bytes. -/
theorem eq_of_leValue_eq {bs bs' : List Byte} (hlength : bs.length = bs'.length)
    (h : leValue bs = leValue bs') : bs = bs' := by
  rw [← leBytes_leValue bs, ← leBytes_leValue bs', hlength, h]

/-! ## Signed numbers -/

/-- The number that a list of bytes spells in two's complement, least
    significant byte first. -/
def leSigned (bs : List Byte) : Int :=
  if 2 * leValue bs < 256 ^ bs.length then leValue bs
  else leValue bs - (256 ^ bs.length : Nat)

/-- The number is one that `n` bytes spell in two's complement. -/
def FitsSigned (n : Nat) (x : Int) : Prop := -(2 ^ (8 * n - 1)) ≤ x ∧ x < 2 ^ (8 * n - 1)

instance (n : Nat) (x : Int) : Decidable (FitsSigned n x) := inferInstanceAs (Decidable (_ ∧ _))

/-- The range of a number that has a byte is a multiple of that of a byte. -/
theorem range_of_ne_nil {bs : List Byte} (h : bs ≠ []) : ∃ q, 256 ^ bs.length = 256 * q := by
  obtain ⟨k, hk⟩ := Nat.exists_eq_succ_of_ne_zero (mt List.eq_nil_of_length_eq_zero h)
  exact ⟨256 ^ k, by rw [hk, Nat.pow_succ']⟩

/-! ## A byte below a number -/

theorem leSigned_singleton (b : Byte) : leSigned [b] = b.toInt := by
  rw [leSigned, BitVec.toInt_eq_toNat_cond, leValue_cons, leValue_nil]
  rfl

theorem leSigned_cons (b : Byte) {bs : List Byte} (h : bs ≠ []) :
    leSigned (b :: bs) = b.toNat + 256 * leSigned bs := by
  have hb := b.isLt
  have hlow := leValue_lt bs
  -- half the range is a multiple of 256, so the byte below decides nothing
  obtain ⟨q, hq⟩ := range_of_ne_nil h
  have hrange : 256 ^ (b :: bs).length = 256 * (256 * q) := by
    rw [List.length_cons, Nat.pow_succ', hq]
  rw [hq] at hlow
  rw [leSigned, leSigned, leValue_cons, hrange, hq]
  split <;> split <;> omega

theorem fitsSigned_cons {n : Nat} (hn : n ≠ 0) (b : Byte) (x : Int) :
    FitsSigned (n + 1) (b.toNat + 256 * x) ↔ FitsSigned n x := by
  have hb := b.isLt
  have hhalf : (2 : Int) ^ (8 * (n + 1) - 1) = 256 * 2 ^ (8 * n - 1) := by
    rw [show 8 * (n + 1) - 1 = (8 * n - 1) + 8 by omega, Int.pow_add, Int.mul_comm]
    rfl
  rw [FitsSigned, FitsSigned, hhalf]
  generalize (2 : Int) ^ (8 * n - 1) = q
  omega

/-! ## The topmost bit -/

/-- The range of a number that has a byte is twice the value of its topmost bit. -/
theorem range_eq_double {α : Type} {xs : List α} (h : xs ≠ []) :
    256 ^ xs.length = 2 * 2 ^ (8 * xs.length - 1) := by
  have hpos := List.length_pos_iff.mpr h
  rw [show 256 = 2 ^ 8 from rfl, ← Nat.pow_mul, ← Nat.pow_succ']
  congr 1
  omega

theorem testBit_top {α : Type} {xs : List α} (h : xs ≠ []) {x : Nat} (hx : x < 256 ^ xs.length) :
    x.testBit (8 * xs.length - 1) = decide (2 ^ (8 * xs.length - 1) ≤ x) := by
  rw [range_eq_double h] at hx
  rw [Nat.testBit_eq_decide_div_mod_eq, decide_eq_decide]
  by_cases hle : 2 ^ (8 * xs.length - 1) ≤ x
  · have hone : x / 2 ^ (8 * xs.length - 1) = 1 := Nat.div_eq_of_lt_le (by omega) (by omega)
    rw [hone]
    exact iff_of_true rfl hle
  · rw [Nat.div_eq_of_lt (Nat.lt_of_not_le hle)]
    exact iff_of_false Nat.zero_ne_one hle

theorem signBit_singleton (b : Byte) : (leValue [b]).testBit 7 = b.msb := by
  rw [leValue_cons, leValue_nil, BitVec.msb_eq_getLsbD_last]
  rfl

theorem signBit_cons {n : Nat} (hn : n ≠ 0) (b : Byte) (bs : List Byte) :
    (leValue (b :: bs)).testBit (8 * (n + 1) - 1) = (leValue bs).testBit (8 * n - 1) := by
  rw [leValue_cons, Nat.add_comm, show 256 = 2 ^ 8 from rfl,
    Nat.testBit_two_pow_mul_add _ b.isLt, if_neg (by omega)]
  congr 1

/-! ## Complements -/

/-- Complementing every byte gives the distance from the largest number. -/
theorem leValue_complement (bs : List Byte) :
    leValue (bs.map (~~~ ·)) + leValue bs + 1 = 256 ^ bs.length := by
  induction bs with
  | nil => rfl
  | cons b bs ih =>
    have hb := b.isLt
    rw [List.map_cons, leValue_cons, leValue_cons, BitVec.toNat_not, List.length_cons,
      Nat.pow_succ]
    omega

theorem leSigned_complement {bs : List Byte} (h : bs ≠ []) :
    leSigned (bs.map (~~~ ·)) = -1 - leSigned bs := by
  have hsum := leValue_complement bs
  obtain ⟨q, hq⟩ := range_of_ne_nil h
  rw [hq] at hsum
  rw [leSigned, leSigned, List.length_map, hq]
  split <;> split <;> omega

end Nmos6502
