/-
  Operations: what an instruction does to its operand, and its mnemonic.
-/

namespace Nmos6502

/-- The 56 documented operations, and one for all other opcodes. -/
inductive Operation where
  -- Loads and stores.
  | lda | ldx | ldy | sta | stx | sty
  -- Arithmetic and logic on the accumulator.
  | adc | sbc | and | ora | eor | bit
  -- Comparisons.
  | cmp | cpx | cpy
  -- Shifts and rotations.
  | asl | lsr | rol | ror
  -- Steps of one.
  | inc | dec | inx | iny | dex | dey
  -- Branches.
  | bcc | bcs | bne | beq | bpl | bmi | bvc | bvs
  -- Jumps, calls and returns.
  | jmp | jsr | rts | rti | brk | nop
  -- Stack.
  | pha | php | pla | plp
  -- Flags.
  | clc | sec | cli | sei | cld | sed | clv
  -- Transfers between registers.
  | tax | tay | txa | tya | tsx | txs
  -- Anything undocumented.
  | illegal
deriving DecidableEq

namespace Operation

/-- The three letters that name the operation in a listing. -/
def mnemonic : Operation → String
  | .lda => "LDA" | .ldx => "LDX" | .ldy => "LDY"
  | .sta => "STA" | .stx => "STX" | .sty => "STY"
  | .adc => "ADC" | .sbc => "SBC" | .and => "AND" | .ora => "ORA" | .eor => "EOR"
  | .bit => "BIT"
  | .cmp => "CMP" | .cpx => "CPX" | .cpy => "CPY"
  | .asl => "ASL" | .lsr => "LSR" | .rol => "ROL" | .ror => "ROR"
  | .inc => "INC" | .dec => "DEC" | .inx => "INX" | .iny => "INY"
  | .dex => "DEX" | .dey => "DEY"
  | .bcc => "BCC" | .bcs => "BCS" | .bne => "BNE" | .beq => "BEQ"
  | .bpl => "BPL" | .bmi => "BMI" | .bvc => "BVC" | .bvs => "BVS"
  | .jmp => "JMP" | .jsr => "JSR" | .rts => "RTS" | .rti => "RTI" | .brk => "BRK"
  | .nop => "NOP"
  | .pha => "PHA" | .php => "PHP" | .pla => "PLA" | .plp => "PLP"
  | .clc => "CLC" | .sec => "SEC" | .cli => "CLI" | .sei => "SEI"
  | .cld => "CLD" | .sed => "SED" | .clv => "CLV"
  | .tax => "TAX" | .tay => "TAY" | .txa => "TXA" | .tya => "TYA"
  | .tsx => "TSX" | .txs => "TXS"
  | .illegal => "???"

def isConditional : Operation → Bool
  | .bcc | .bcs | .bne | .beq | .bpl | .bmi | .bvc | .bvs => true
  | _ => false

@[simp] theorem length_mnemonic (o : Operation) : o.mnemonic.length = 3 := by
  cases o <;> rfl

end Operation

end Nmos6502
