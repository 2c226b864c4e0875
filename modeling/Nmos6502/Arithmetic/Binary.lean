/-
  Binary sums, differences and comparisons of bytes.

  A sum takes a carry in and gives one out.  A difference borrows when the
  carry is clear, and leaves the carry set when it had not to borrow further.
  With these conventions the carry links bytes into numbers of any length.
-/
import Nmos6502.Word

namespace Nmos6502

/-- The outcome of a sum or difference: the byte kept and four flags. -/
structure ArithResult where
  value : Byte
  n : Bool
  v : Bool
  z : Bool
  c : Bool
deriving DecidableEq

namespace Binary

/-- `a + m` plus the carry.  The sum overflows when both terms have the sign
    that the result lacks. -/
def add (a m : Byte) (carry : Bool) : ArithResult :=
  let total := a.toNat + m.toNat + carry.toNat
  let value := BitVec.ofNat 8 total
  { value
    n := value.msb
    v := ((a ^^^ value) &&& (m ^^^ value)).msb
    z := value == 0
    c := 256 ≤ total }

/-- `a - m`, less one when the carry is clear.  The difference overflows when
    the terms differ in sign and the result does not have the sign of `a`. -/
def sub (a m : Byte) (carry : Bool) : ArithResult :=
  let total : Int := a.toNat - m.toNat - (!carry).toNat
  let value := BitVec.ofInt 8 total
  { value
    n := value.msb
    v := ((a ^^^ m) &&& (a ^^^ value)).msb
    z := value == 0
    c := 0 ≤ total }

end Binary

end Nmos6502
