/-
  The bus: everything outside the processor, as the processor meets it.

  A read answers with a byte and with the bus as the read leaves it, because a
  device may change when it is read.  There are no bus errors: every address
  can be read and written.
-/
import Nmos6502.Word

namespace Nmos6502

/-- What can be attached to the processor as its address space. -/
class Bus (M : Type) where
  /-- The byte seen at an address, and the bus after the access. -/
  read : M → Addr → Byte × M
  /-- The bus after a byte has been sent to an address. -/
  write : M → Addr → Byte → M
  /-- Whether some device holds the interrupt request line. -/
  interrupting : M → Bool := fun _ => false

namespace Bus

variable {M : Type} [Bus M]

/-- Reads a word, low byte first; the second address wraps at the top. -/
def wordAt (bus : M) (a : Addr) : Addr × M :=
  let (lo, bus) := read bus a
  let (hi, bus) := read bus (a + 1)
  (word lo hi, bus)

/-- Reads a word from page zero; the second address stays in the page. -/
def zeroPageWordAt (bus : M) (z : Byte) : Addr × M :=
  let (lo, bus) := read bus (zeroPage z)
  let (hi, bus) := read bus (zeroPage (z + 1))
  (word lo hi, bus)

/-- The address of the second byte of a jump's pointer: the next one in the
    same page, so that a pointer at the end of a page wraps to its start. -/
def pointerHigh (ptr : Addr) : Addr :=
  if lowByte ptr = 0xFF then word 0x00 (highByte ptr) else ptr + 1

/-- Reads the destination of an indirect jump. -/
def jumpTargetAt (bus : M) (ptr : Addr) : Addr × M :=
  let (lo, bus) := read bus ptr
  let (hi, bus) := read bus (pointerHigh ptr)
  (word lo hi, bus)

/-- Reads `n` bytes at successive addresses, wrapping at the top. -/
def bytesAt (bus : M) (a : Addr) : Nat → List Byte × M
  | 0 => ([], bus)
  | n + 1 =>
    let (b, bus) := read bus a
    let (bs, bus) := bytesAt bus (a + 1) n
    (b :: bs, bus)

/-- Writes bytes at successive addresses, wrapping at the top. -/
def writeBytes (bus : M) (a : Addr) : List Byte → M
  | [] => bus
  | b :: bs => writeBytes (write bus a b) (a + 1) bs

end Bus

end Nmos6502
