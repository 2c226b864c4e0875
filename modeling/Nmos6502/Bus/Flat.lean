/-
  Flat memory: 64 KiB of plain cells.

  A read gives what was last written to the cell and changes nothing.
-/
import Nmos6502.Bus

namespace Nmos6502

/-- An address space in which every address is a cell of its own. -/
structure Flat where
  cells : Vector Byte 65536

namespace Flat

def zero : Flat := ⟨Vector.replicate _ 0⟩

def get (m : Flat) (a : Addr) : Byte := m.cells[a.toFin]

def set (m : Flat) (a : Addr) (b : Byte) : Flat := ⟨m.cells.set a.toNat b a.isLt⟩

/-- Copies bytes to successive cells from `a` on and stops at the top of the
    address space. -/
def load (m : Flat) (a : Addr) : List Byte → Flat
  | [] => m
  | b :: bs => if a = 0xFFFF then m.set a b else load (m.set a b) (a + 1) bs

/-- Memory that holds `image` from address zero on and zeros behind it. -/
def ofImage (image : List Byte) : Flat := zero.load 0 image

def toList (m : Flat) : List Byte := m.cells.toList

instance : Bus Flat where
  read m a := (m.get a, m)
  write m a b := m.set a b

@[simp] theorem get_zero (a : Addr) : zero.get a = 0 := by
  simp [zero, get]

@[simp] theorem get_set_self (m : Flat) (a : Addr) (b : Byte) : (m.set a b).get a = b := by
  simp [get, set]

theorem get_set_of_ne (m : Flat) {a a' : Addr} (b : Byte) (h : a ≠ a') :
    (m.set a b).get a' = m.get a' := by
  have h : a.toNat ≠ a'.toNat := fun e => h (BitVec.eq_of_toNat_eq e)
  simp [get, set, h]

theorem get_set (m : Flat) (a a' : Addr) (b : Byte) :
    (m.set a b).get a' = if a = a' then b else m.get a' := by
  split
  · next h => rw [h, get_set_self]
  · next h => exact get_set_of_ne m b h

theorem ext_get {m m' : Flat} (h : ∀ a, m.get a = m'.get a) : m = m' := by
  obtain ⟨cells⟩ := m
  obtain ⟨cells'⟩ := m'
  congr 1
  apply Vector.ext
  intro i hi
  exact h (BitVec.ofNatLT i hi)

@[simp] theorem read_eq (m : Flat) (a : Addr) : Bus.read m a = (m.get a, m) := rfl

@[simp] theorem write_eq (m : Flat) (a : Addr) (b : Byte) : Bus.write m a b = m.set a b := rfl

end Flat

end Nmos6502
