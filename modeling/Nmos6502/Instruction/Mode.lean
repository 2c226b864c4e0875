/-
  Addressing modes: where an instruction finds its operand.
-/

namespace Nmos6502

/-- The thirteen ways to name an operand. -/
inductive Mode where
  /-- No operand. -/
  | implied
  /-- The accumulator itself. -/
  | accumulator
  /-- The byte after the opcode: `LDA #$10`. -/
  | immediate
  /-- A cell of page zero: `LDA $80`. -/
  | zeroPage
  /-- A cell of page zero, X further on within the page: `LDA $80,X`. -/
  | zeroPageX
  /-- A cell of page zero, Y further on within the page: `LDX $80,Y`. -/
  | zeroPageY
  /-- A signed distance from the following instruction: `BEQ $0612`. -/
  | relative
  /-- A full address: `JMP $1234`. -/
  | absolute
  /-- A full address plus X: `LDA $1234,X`. -/
  | absoluteX
  /-- A full address plus Y: `LDA $1234,Y`. -/
  | absoluteY
  /-- The word that a full address points at, for `JMP ($FFFC)`. -/
  | indirect
  /-- The word at a cell of page zero that X has been added to: `LDA ($40,X)`. -/
  | indexedIndirect
  /-- The word at a cell of page zero, plus Y: `LDA ($40),Y`. -/
  | indirectIndexed
deriving DecidableEq

/-- How many bytes follow the opcode. -/
def Mode.operandLength : Mode → Nat
  | .implied | .accumulator => 0
  | .immediate | .zeroPage | .zeroPageX | .zeroPageY | .relative | .indexedIndirect
  | .indirectIndexed => 1
  | .absolute | .absoluteX | .absoluteY | .indirect => 2

theorem Mode.operandLength_le (m : Mode) : m.operandLength ≤ 2 := by
  cases m <;> decide

end Nmos6502
