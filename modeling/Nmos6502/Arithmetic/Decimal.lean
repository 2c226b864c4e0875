/-
  Decimal sums and differences of bytes that hold two digits each.

  The upper half of a byte counts ten times the lower half, whatever the two
  halves hold: `$1F` stands for twenty-five.  The exact sum or difference is
  formed on these numbers and its last two decimal digits are packed again.
  Division and remainder go toward zero, so the digits of a negative number
  carry its sign and are packed in two's complement; only operands whose halves
  exceed nine lead there.
-/
import Nmos6502.Arithmetic.Binary

namespace Nmos6502.Decimal

/-- The number that the two halves of a byte stand for. -/
def value (b : Byte) : Nat := b.toNat % 16 + 10 * (b.toNat / 16)

/-- The byte made of the last two decimal digits of a number. -/
def pack (n : Int) : Byte :=
  BitVec.ofInt 8 (n.tmod 10) ||| (BitVec.ofInt 8 ((n.tdiv 10).tmod 10) <<< 4)

/-- The decimal sum.  Zero describes the sum before its hundreds are cut off,
    so a sum of exactly one hundred gives `$00` and is not called zero. -/
def add (a m : Byte) (carry : Bool) : ArithResult :=
  let total := value a + value m + carry.toNat
  { value := pack total, n := false, v := false, z := total == 0, c := 99 < total }

/-- The decimal difference.  A negative one has a hundred added before it is
    packed; zero describes the packed byte. -/
def sub (a m : Byte) (carry : Bool) : ArithResult :=
  let total : Int := value a - value m - (!carry).toNat
  let packed := pack (if total < 0 then total + 100 else total)
  { value := packed, n := false, v := false, z := packed == 0, c := 0 ≤ total }

end Nmos6502.Decimal
