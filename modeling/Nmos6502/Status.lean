/-
  The status register.

  Seven flags; packed into a byte they stand in the order N V - B D I Z C from
  bit seven down, and bit five, which has no flag behind it, reads as one.
  Packing and unpacking are inverse up to that bit.
-/
import Nmos6502.Word

namespace Nmos6502

structure Status where
  /-- Negative: bit seven of the last result. -/
  n : Bool
  /-- Overflow: the last signed sum or difference left the range of a byte. -/
  v : Bool
  /-- Break: set by the software interrupt; no instruction tests it. -/
  b : Bool
  /-- Decimal: sums and differences work on two decimal digits. -/
  d : Bool
  /-- Interrupt disable: maskable requests are held off. -/
  i : Bool
  /-- Zero: the last result was zero. -/
  z : Bool
  /-- Carry, which for differences means that nothing was borrowed. -/
  c : Bool
deriving DecidableEq

namespace Status

/-- The flags after power-on: only B is set. -/
def powerOn : Status :=
  { n := false, v := false, b := true, d := false, i := false, z := false, c := false }

def pack (p : Status) : Byte :=
  BitVec.ofBool p.n ++ BitVec.ofBool p.v ++ 1#1 ++ BitVec.ofBool p.b ++
    BitVec.ofBool p.d ++ BitVec.ofBool p.i ++ BitVec.ofBool p.z ++ BitVec.ofBool p.c

/-- Every flag from a byte; bit five is not looked at. -/
def unpack (b : Byte) : Status where
  n := b.getLsbD 7
  v := b.getLsbD 6
  b := b.getLsbD 4
  d := b.getLsbD 3
  i := b.getLsbD 2
  z := b.getLsbD 1
  c := b.getLsbD 0

/-- The flags with Z and N describing `value`. -/
def describe (p : Status) (value : Byte) : Status :=
  { p with z := value == 0, n := value.msb }

@[simp] theorem unpack_pack (p : Status) : unpack p.pack = p := by
  obtain ⟨n, v, b, d, i, z, c⟩ := p
  cases n <;> cases v <;> cases b <;> cases d <;> cases i <;> cases z <;> cases c <;> rfl

theorem pack_unpack (b : Byte) : (unpack b).pack = b ||| 0x20 := by
  revert b
  decide +kernel

end Status

end Nmos6502
