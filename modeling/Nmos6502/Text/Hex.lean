/-
  Hexadecimal text in upper case.

  A byte is always two digits and an address four.  Texts are lists of
  characters until the moment they are shown, because widths and reading back
  are statements about characters.
-/
import Nmos6502.Word

namespace Nmos6502.Hex

def digit (n : BitVec 4) : Char :=
  if n.toNat < 10 then Char.ofNat (0x30 + n.toNat) else Char.ofNat (0x37 + n.toNat)

/-- The two digits of a byte, upper half first. -/
def byte (b : Byte) : List Char := [digit ((b >>> 4).setWidth 4), digit (b.setWidth 4)]

/-- The four digits of an address, upper byte first. -/
def addr (a : Addr) : List Char := byte (highByte a) ++ byte (lowByte a)

/-- The digits of a run of bytes, without separators. -/
def bytes (bs : List Byte) : List Char := bs.flatMap byte

def ofByte (b : Byte) : String := String.ofList (byte b)

def ofAddr (a : Addr) : String := String.ofList (addr a)

def ofBytes (bs : List Byte) : String := String.ofList (bytes bs)

@[simp] theorem length_byte (b : Byte) : (byte b).length = 2 := rfl

@[simp] theorem length_addr (a : Addr) : (addr a).length = 4 := rfl

theorem digit_injective : ∀ m n : BitVec 4, digit m = digit n → m = n := by decide

theorem byte_injective {b c : Byte} (h : byte b = byte c) : b = c := by
  have key : ∀ b : Byte, ((b >>> 4).setWidth 4 : BitVec 4) ++ (b.setWidth 4 : BitVec 4) = b := by
    decide +kernel
  simp only [byte, List.cons.injEq, and_true] at h
  rw [← key b, ← key c, digit_injective _ _ h.1, digit_injective _ _ h.2]

theorem addr_injective {a b : Addr} (h : addr a = addr b) : a = b := by
  have h := List.append_inj h rfl
  rw [← word_lowByte_highByte a, ← word_lowByte_highByte b, byte_injective h.1,
    byte_injective h.2]

end Nmos6502.Hex
