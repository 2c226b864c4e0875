/-
  An address space of two halves: memory that can be written below `$8000`,
  and memory that cannot from there on.
-/
import Nmos6502.Bus.Device

namespace Nmos6502

/-- RAM in the lower half and ROM in the upper half. -/
structure Split where
  low : Ram
  high : Rom

namespace Split

def romBase : Addr := 0x8000

/-- Exactly 64 KiB that begin like `image`, filled up with zeros. -/
def wholeImage (image : List Byte) : List Byte :=
  image.take 65536 ++ List.replicate (65536 - image.length) 0

/-- Both halves filled from one image of the whole address space. -/
def ofImage (image : List Byte) : Split where
  low := .ofBytes ((wholeImage image).take 32768)
  high := .ofBytes ((wholeImage image).drop 32768)

instance : Bus Split where
  read m a :=
    if a < romBase then
      let (b, low) := Device.read m.low a
      (b, { m with low })
    else
      let (b, high) := Device.read m.high (a - romBase)
      (b, { m with high })
  write m a b :=
    if a < romBase then { m with low := Device.write m.low a b } else m

end Split

end Nmos6502
