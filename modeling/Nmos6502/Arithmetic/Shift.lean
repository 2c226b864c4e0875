/-
  Shifts of a byte by one place through the carry.

  A plain shift is a rotation that starts with the carry clear, so two
  functions serve the four operations.
-/
import Nmos6502.Word

namespace Nmos6502.Shift

/-- One place to the left: the carry enters at bit zero, and bit seven leaves
    as the new carry. -/
def left (b : Byte) (carry : Bool) : Byte × Bool :=
  ((b <<< 1) ||| (BitVec.ofBool carry).setWidth 8, b.msb)

/-- One place to the right: the carry enters at bit seven, and bit zero leaves
    as the new carry. -/
def right (b : Byte) (carry : Bool) : Byte × Bool :=
  ((b >>> 1) ||| ((BitVec.ofBool carry).setWidth 8 <<< 7), b.getLsbD 0)

end Nmos6502.Shift
