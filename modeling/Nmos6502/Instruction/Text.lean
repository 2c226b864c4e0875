/-
  Instructions and registers as text.

  An instruction reads `LDA ($40),Y`; in a listing its address and up to three
  bytes go before it.  A trace line is a listing line filled up to thirty
  columns with the registers behind it.
-/
import Nmos6502.Instruction
import Nmos6502.Registers
import Nmos6502.Text.Hex

namespace Nmos6502

namespace Instruction

/-- The operand as the assembler writes it; branches show their destination. -/
def operandText (i : Instruction) : String :=
  let byte := "$" ++ Hex.ofByte (firstByte i.operand)
  let word := "$" ++ Hex.ofAddr (firstWord i.operand)
  if i.operation = .illegal then ""
  else match i.mode with
    | .implied => ""
    | .accumulator => "A"
    | .immediate => "#" ++ byte
    | .zeroPage => byte
    | .zeroPageX => byte ++ ",X"
    | .zeroPageY => byte ++ ",Y"
    | .relative => "$" ++ Hex.ofAddr (i.target.getD 0)
    | .absolute => word
    | .absoluteX => word ++ ",X"
    | .absoluteY => word ++ ",Y"
    | .indirect => "(" ++ word ++ ")"
    | .indexedIndirect => "(" ++ byte ++ ",X)"
    | .indirectIndexed => "(" ++ byte ++ "),Y"

/-- The instruction as the assembler writes it. -/
def text (i : Instruction) : String :=
  let operand := i.operandText
  if operand = "" then i.mnemonic else i.mnemonic ++ " " ++ operand

/-- One of the byte columns of a listing line, blank where there is no byte. -/
def column (i : Instruction) (k : Nat) : String :=
  match i.bytes[k]? with
  | some b => Hex.ofByte b ++ " "
  | none => "   "

/-- The listing line: address, three byte columns, text. -/
def line (i : Instruction) : String :=
  Hex.ofAddr i.address ++ " " ++ i.column 0 ++ i.column 1 ++ i.column 2 ++ i.text

end Instruction

namespace Status

/-- The letter of a flag when it is set, a blank when it is clear. -/
def letter (set : Bool) (c : Char) : Char := if set then c else ' '

/-- The flags as letters in the order of the packed byte. -/
def text (p : Status) : String :=
  String.ofList [letter p.n 'N', letter p.v 'V', '-', letter p.b 'B', letter p.d 'D',
    letter p.i 'I', letter p.z 'Z', letter p.c 'C']

end Status

namespace Registers

/-- The registers as shown behind a trace line. -/
def text (r : Registers) : String :=
  "A:" ++ Hex.ofByte r.a ++ " X:" ++ Hex.ofByte r.x ++ " Y:" ++ Hex.ofByte r.y ++
    " S:" ++ Hex.ofByte r.s ++ " P:" ++ r.p.text

/-- All registers in one line, the cycle count in decimal. -/
def summary (r : Registers) : String :=
  Hex.ofAddr r.pc ++ " A" ++ Hex.ofByte r.a ++ " X" ++ Hex.ofByte r.x ++ " Y" ++
    Hex.ofByte r.y ++ " S" ++ Hex.ofByte r.s ++ " P" ++ Hex.ofByte r.p.pack ++ " " ++
    toString r.cycles.toNat

end Registers

/-- Fills a text up with blanks to a width; a longer one stays as it is. -/
def padRight (width : Nat) (s : String) : String :=
  s ++ String.ofList (List.replicate (width - s.length) ' ')

/-- The trace line of an instruction about to be executed. -/
def traceLine (i : Instruction) (r : Registers) : String := padRight 30 i.line ++ r.text

end Nmos6502
