/-
  The opcode matrix.

  Each of the 256 opcodes has an entry: the operation, the addressing mode and
  the base cost in cycles.  The 151 documented opcodes of the NMOS part are
  listed; each of the others is `illegal`, takes no operand and costs nothing.
  The interpreter and the listing both decode through this table.
-/
import Nmos6502.Instruction.Mode
import Nmos6502.Instruction.Operation
import Nmos6502.Word

namespace Nmos6502

/-- What an opcode stands for. -/
structure OpcodeEntry where
  operation : Operation
  mode : Mode
  /-- Cycles charged for the instruction, without penalties. -/
  cycles : Nat
deriving DecidableEq

namespace OpcodeEntry

def size (e : OpcodeEntry) : Nat := 1 + e.mode.operandLength

/-- Whether the opcode is documented. -/
def legal (e : OpcodeEntry) : Bool := e.operation != .illegal

end OpcodeEntry

namespace OpcodeMatrix

private abbrev op := OpcodeEntry.mk

private abbrev no : OpcodeEntry := ⟨.illegal, .implied, 0⟩

/-- The table, a row for each value of the upper half of the opcode; the last
    row is that of 15. -/
def row : Nat → Vector OpcodeEntry 16
  | 0 => #v[op .brk .implied 7, op .ora .indexedIndirect 6, no, no, no, op .ora .zeroPage 3,
      op .asl .zeroPage 5, no, op .php .implied 3, op .ora .immediate 2, op .asl .accumulator 2,
      no, no, op .ora .absolute 4, op .asl .absolute 6, no]
  | 1 => #v[op .bpl .relative 2, op .ora .indirectIndexed 5, no, no, no, op .ora .zeroPageX 4,
      op .asl .zeroPageX 6, no, op .clc .implied 2, op .ora .absoluteY 4, no, no, no,
      op .ora .absoluteX 4, op .asl .absoluteX 7, no]
  | 2 => #v[op .jsr .absolute 6, op .and .indexedIndirect 6, no, no, op .bit .zeroPage 3,
      op .and .zeroPage 3, op .rol .zeroPage 5, no, op .plp .implied 4, op .and .immediate 2,
      op .rol .accumulator 2, no, op .bit .absolute 4, op .and .absolute 4, op .rol .absolute 6,
      no]
  | 3 => #v[op .bmi .relative 2, op .and .indirectIndexed 5, no, no, no, op .and .zeroPageX 4,
      op .rol .zeroPageX 6, no, op .sec .implied 2, op .and .absoluteY 4, no, no, no,
      op .and .absoluteX 4, op .rol .absoluteX 7, no]
  | 4 => #v[op .rti .implied 6, op .eor .indexedIndirect 6, no, no, no, op .eor .zeroPage 3,
      op .lsr .zeroPage 5, no, op .pha .implied 3, op .eor .immediate 2, op .lsr .accumulator 2,
      no, op .jmp .absolute 3, op .eor .absolute 4, op .lsr .absolute 6, no]
  | 5 => #v[op .bvc .relative 2, op .eor .indirectIndexed 5, no, no, no, op .eor .zeroPageX 4,
      op .lsr .zeroPageX 6, no, op .cli .implied 2, op .eor .absoluteY 4, no, no, no,
      op .eor .absoluteX 4, op .lsr .absoluteX 7, no]
  | 6 => #v[op .rts .implied 6, op .adc .indexedIndirect 6, no, no, no, op .adc .zeroPage 3,
      op .ror .zeroPage 5, no, op .pla .implied 4, op .adc .immediate 2, op .ror .accumulator 2,
      no, op .jmp .indirect 5, op .adc .absolute 4, op .ror .absolute 6, no]
  | 7 => #v[op .bvs .relative 2, op .adc .indirectIndexed 5, no, no, no, op .adc .zeroPageX 4,
      op .ror .zeroPageX 6, no, op .sei .implied 2, op .adc .absoluteY 4, no, no, no,
      op .adc .absoluteX 4, op .ror .absoluteX 7, no]
  | 8 => #v[no, op .sta .indexedIndirect 6, no, no, op .sty .zeroPage 3, op .sta .zeroPage 3,
      op .stx .zeroPage 3, no, op .dey .implied 2, no, op .txa .implied 2, no,
      op .sty .absolute 4, op .sta .absolute 4, op .stx .absolute 4, no]
  | 9 => #v[op .bcc .relative 2, op .sta .indirectIndexed 6, no, no, op .sty .zeroPageX 4,
      op .sta .zeroPageX 4, op .stx .zeroPageY 4, no, op .tya .implied 2, op .sta .absoluteY 5,
      op .txs .implied 2, no, no, op .sta .absoluteX 5, no, no]
  | 10 => #v[op .ldy .immediate 2, op .lda .indexedIndirect 6, op .ldx .immediate 2, no,
      op .ldy .zeroPage 3, op .lda .zeroPage 3, op .ldx .zeroPage 3, no, op .tay .implied 2,
      op .lda .immediate 2, op .tax .implied 2, no, op .ldy .absolute 4, op .lda .absolute 4,
      op .ldx .absolute 4, no]
  | 11 => #v[op .bcs .relative 2, op .lda .indirectIndexed 5, no, no, op .ldy .zeroPageX 4,
      op .lda .zeroPageX 4, op .ldx .zeroPageY 4, no, op .clv .implied 2, op .lda .absoluteY 4,
      op .tsx .implied 2, no, op .ldy .absoluteX 4, op .lda .absoluteX 4, op .ldx .absoluteY 4,
      no]
  | 12 => #v[op .cpy .immediate 2, op .cmp .indexedIndirect 6, no, no, op .cpy .zeroPage 3,
      op .cmp .zeroPage 3, op .dec .zeroPage 5, no, op .iny .implied 2, op .cmp .immediate 2,
      op .dex .implied 2, no, op .cpy .absolute 4, op .cmp .absolute 4, op .dec .absolute 6, no]
  | 13 => #v[op .bne .relative 2, op .cmp .indirectIndexed 5, no, no, no, op .cmp .zeroPageX 4,
      op .dec .zeroPageX 6, no, op .cld .implied 2, op .cmp .absoluteY 4, no, no, no,
      op .cmp .absoluteX 4, op .dec .absoluteX 7, no]
  | 14 => #v[op .cpx .immediate 2, op .sbc .indexedIndirect 6, no, no, op .cpx .zeroPage 3,
      op .sbc .zeroPage 3, op .inc .zeroPage 5, no, op .inx .implied 2, op .sbc .immediate 2,
      op .nop .implied 2, no, op .cpx .absolute 4, op .sbc .absolute 4, op .inc .absolute 6, no]
  | _ => #v[op .beq .relative 2, op .sbc .indirectIndexed 5, no, no, no, op .sbc .zeroPageX 4,
      op .inc .zeroPageX 6, no, op .sed .implied 2, op .sbc .absoluteY 4, no, no, no,
      op .sbc .absoluteX 4, op .inc .absoluteX 7, no]

end OpcodeMatrix

def opcodeEntry (opcode : Byte) : OpcodeEntry :=
  (OpcodeMatrix.row (opcode.toNat / 16)).get ⟨opcode.toNat % 16, Nat.mod_lt _ (by decide)⟩

end Nmos6502
