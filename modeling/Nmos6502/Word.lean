/-
  Bytes, addresses and little-endian numbers.

  A byte is eight bits and an address sixteen, so every sum below wraps as the
  registers of the processor do.  Words lie in memory with the low byte first;
  `word`, `lowByte` and `highByte` pass between the two forms and are mutually
  inverse.  `leValue` and `leBytes` do the same for numbers of any length.
-/

namespace Nmos6502

/-- What the data bus carries at a time. -/
abbrev Byte := BitVec 8

/-- A place in the 64 KiB address space. -/
abbrev Addr := BitVec 16

abbrev Cycles := BitVec 64

/-! ## Words of two bytes -/

/-- The word made of a low and a high byte. -/
def word (lo hi : Byte) : Addr :=
  BitVec.ofNatLT (lo.toNat + 256 * hi.toNat) (by omega)

/-- The byte of a word that lies first in memory. -/
def lowByte (w : Addr) : Byte := BitVec.ofNatLT (w.toNat % 256) (by omega)

/-- The byte of a word that lies second in memory. -/
def highByte (w : Addr) : Byte := BitVec.ofNatLT (w.toNat / 256) (by omega)

@[simp] theorem toNat_word (lo hi : Byte) : (word lo hi).toNat = lo.toNat + 256 * hi.toNat :=
  rfl

@[simp] theorem toNat_lowByte (w : Addr) : (lowByte w).toNat = w.toNat % 256 := rfl

@[simp] theorem toNat_highByte (w : Addr) : (highByte w).toNat = w.toNat / 256 := rfl

@[simp] theorem lowByte_word (lo hi : Byte) : lowByte (word lo hi) = lo := by
  have := lo.isLt
  apply BitVec.eq_of_toNat_eq
  rw [toNat_lowByte, toNat_word]
  omega

@[simp] theorem highByte_word (lo hi : Byte) : highByte (word lo hi) = hi := by
  have := lo.isLt
  apply BitVec.eq_of_toNat_eq
  rw [toNat_highByte, toNat_word]
  omega

@[simp] theorem word_lowByte_highByte (w : Addr) : word (lowByte w) (highByte w) = w := by
  apply BitVec.eq_of_toNat_eq
  rw [toNat_word, toNat_lowByte, toNat_highByte]
  omega

/-- An address in page zero. -/
def zeroPage (b : Byte) : Addr := word b 0x00

/-- The cell that the stack pointer `s` designates, in page one. -/
def stackCell (s : Byte) : Addr := word s 0x01

/-- Where a branch at `pc` with displacement `offset` leads.  The displacement
    is signed and counts from the instruction after the two bytes of the
    branch. -/
def branchDestination (pc : Addr) (offset : Byte) : Addr :=
  BitVec.ofInt 16 (pc.toNat + 2 + offset.toInt)

/-! ## Little-endian numbers -/

/-- The number that a list of bytes spells, least significant byte first. -/
def leValue : List Byte → Nat
  | [] => 0
  | b :: bs => b.toNat + 256 * leValue bs

/-- The `n` bytes that spell `v` modulo `256 ^ n`, least significant first. -/
def leBytes : Nat → Nat → List Byte
  | 0, _ => []
  | n + 1, v => BitVec.ofNat 8 v :: leBytes n (v / 256)

@[simp] theorem leValue_nil : leValue [] = 0 := rfl

@[simp] theorem leValue_cons (b : Byte) (bs : List Byte) :
    leValue (b :: bs) = b.toNat + 256 * leValue bs := rfl

@[simp] theorem length_leBytes (n v : Nat) : (leBytes n v).length = n := by
  induction n generalizing v with
  | zero => rfl
  | succ n ih => simp [leBytes, ih]

theorem leBytes_leValue (bs : List Byte) : leBytes bs.length (leValue bs) = bs := by
  induction bs with
  | nil => rfl
  | cons b bs ih =>
    have hb := b.isLt
    rw [leValue_cons, List.length_cons, leBytes]
    congr 1
    · apply BitVec.eq_of_toNat_eq
      rw [BitVec.toNat_ofNat]
      omega
    · rw [show (b.toNat + 256 * leValue bs) / 256 = leValue bs by omega, ih]

end Nmos6502
