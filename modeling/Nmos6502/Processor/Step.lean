/-
  One instruction.

  A step reads the opcode, finds the operand as the addressing mode says, and
  performs the operation.  The program counter has passed the whole instruction
  before the operation is performed, so calls and branches see the address of
  the next one.  An undocumented opcode is refused: apart from the one read
  nothing has happened.
-/
import Nmos6502.Instruction.Matrix
import Nmos6502.Processor.Interrupt
import Nmos6502.Text.Hex

namespace Nmos6502

structure IllegalOpcode where
  opcode : Byte
  address : Addr
deriving DecidableEq

/-- What is reported about an undocumented opcode. -/
def IllegalOpcode.message (e : IllegalOpcode) : String :=
  "Invalid opcode " ++ Hex.ofByte e.opcode ++ " at " ++ Hex.ofAddr e.address

namespace Processor

variable {M : Type} [Bus M]

/-! ## Operands -/

/-- The address that the instruction at the program counter works on.  A branch
    works on its destination and an immediate operand on its own address; modes
    without an address give zero, which their operations do not look at. -/
def operandAddress (p : Processor M) : Mode → Addr × Processor M
  | .implied | .accumulator => (0, p)
  | .immediate => (p.regs.pc + 1, p)
  | .zeroPage =>
    let (z, p) := p.read (p.regs.pc + 1)
    (zeroPage z, p)
  | .zeroPageX =>
    let (z, p) := p.read (p.regs.pc + 1)
    (zeroPage (z + p.regs.x), p)
  | .zeroPageY =>
    let (z, p) := p.read (p.regs.pc + 1)
    (zeroPage (z + p.regs.y), p)
  | .relative =>
    let (offset, p) := p.read (p.regs.pc + 1)
    (branchDestination p.regs.pc offset, p)
  | .absolute =>
    let (a, bus) := Bus.wordAt p.bus (p.regs.pc + 1)
    (a, { p with bus })
  | .absoluteX =>
    let (a, bus) := Bus.wordAt p.bus (p.regs.pc + 1)
    (a + p.regs.x.setWidth 16, { p with bus })
  | .absoluteY =>
    let (a, bus) := Bus.wordAt p.bus (p.regs.pc + 1)
    (a + p.regs.y.setWidth 16, { p with bus })
  | .indirect =>
    let (ptr, bus) := Bus.wordAt p.bus (p.regs.pc + 1)
    let (a, bus) := Bus.jumpTargetAt bus ptr
    (a, { p with bus })
  | .indexedIndirect =>
    let (z, p) := p.read (p.regs.pc + 1)
    let (a, bus) := Bus.zeroPageWordAt p.bus (z + p.regs.x)
    (a, { p with bus })
  | .indirectIndexed =>
    let (z, p) := p.read (p.regs.pc + 1)
    let (a, bus) := Bus.zeroPageWordAt p.bus z
    (a + p.regs.y.setWidth 16, { p with bus })

/-! ## Families of operations -/

/-- Reads the operand and lets the registers take it in. -/
def consume (p : Processor M) (ea : Addr) (f : Registers → Byte → Registers) : Processor M :=
  let (m, p) := p.read ea
  p.update (f · m)

/-- Replaces the operand, a cell or the accumulator, by a function of itself
    and the registers. -/
def modify (p : Processor M) (mode : Mode) (ea : Addr)
    (f : Registers → Byte → Byte × Registers) : Processor M :=
  if mode = .accumulator then
    let (v, r) := f p.regs p.regs.a
    { p with regs := { r with a := v } }
  else
    let (m, p) := p.read ea
    let (v, r) := f p.regs m
    { p with regs := r }.write ea v

def flag (p : Processor M) (f : Status → Status) : Processor M :=
  p.update fun r => { r with p := f r.p }

def branch (p : Processor M) (condition : Bool) (target : Addr) : Processor M :=
  if condition then p.goto target else p

/-! ## Operations -/

/-- Performs an operation on the operand at `ea`, when the program counter
    already stands behind the instruction. -/
def perform (p : Processor M) (mode : Mode) (ea : Addr) : Operation → Processor M
  | .lda => p.consume ea (·.load .a ·)
  | .ldx => p.consume ea (·.load .x ·)
  | .ldy => p.consume ea (·.load .y ·)
  | .sta => p.write ea p.regs.a
  | .stx => p.write ea p.regs.x
  | .sty => p.write ea p.regs.y
  | .adc => p.consume ea .add
  | .sbc => p.consume ea .sub
  | .and => p.consume ea fun r m => r.load .a (r.a &&& m)
  | .ora => p.consume ea fun r m => r.load .a (r.a ||| m)
  | .eor => p.consume ea fun r m => r.load .a (r.a ^^^ m)
  | .bit => p.consume ea .testBits
  | .cmp => p.consume ea (·.compare .a ·)
  | .cpx => p.consume ea (·.compare .x ·)
  | .cpy => p.consume ea (·.compare .y ·)
  | .asl => p.modify mode ea Registers.shiftLeft
  | .lsr => p.modify mode ea Registers.shiftRight
  | .rol => p.modify mode ea Registers.rotateLeft
  | .ror => p.modify mode ea Registers.rotateRight
  | .inc => p.modify mode ea (Registers.bump 1)
  | .dec => p.modify mode ea (Registers.bump (-1))
  | .inx => p.update (·.adjust .x 1)
  | .iny => p.update (·.adjust .y 1)
  | .dex => p.update (·.adjust .x (-1))
  | .dey => p.update (·.adjust .y (-1))
  | .bcc => p.branch (!p.regs.p.c) ea
  | .bcs => p.branch p.regs.p.c ea
  | .bne => p.branch (!p.regs.p.z) ea
  | .beq => p.branch p.regs.p.z ea
  | .bpl => p.branch (!p.regs.p.n) ea
  | .bmi => p.branch p.regs.p.n ea
  | .bvc => p.branch (!p.regs.p.v) ea
  | .bvs => p.branch p.regs.p.v ea
  | .jmp => p.goto ea
  | .jsr => p.call ea
  | .rts => p.leave
  | .rti => p.leaveHandler
  | .brk => p.softwareInterrupt
  | .nop => p
  | .pha => p.push p.regs.a
  | .php => p.push { p.regs.p with b := true }.pack
  | .pla =>
    let (m, p) := p.pull
    p.update (·.load .a m)
  | .plp =>
    let (m, p) := p.pull
    p.flag fun _ => .unpack m
  | .clc => p.flag ({ · with c := false })
  | .sec => p.flag ({ · with c := true })
  | .cli => p.flag ({ · with i := false })
  | .sei => p.flag ({ · with i := true })
  | .cld => p.flag ({ · with d := false })
  | .sed => p.flag ({ · with d := true })
  | .clv => p.flag ({ · with v := false })
  | .tax => p.update fun r => r.load .x r.a
  | .tay => p.update fun r => r.load .y r.a
  | .txa => p.update fun r => r.load .a r.x
  | .tya => p.update fun r => r.load .a r.y
  | .tsx => p.update fun r => r.load .x r.s
  | .txs => p.update fun r => { r with s := r.x }
  | .illegal => p

/-! ## The step -/

/-- Executes the instruction at the program counter. -/
def step (p : Processor M) : Except IllegalOpcode Unit × Processor M :=
  let address := p.regs.pc
  let (opcode, p) := p.read address
  let entry := opcodeEntry opcode
  if entry.legal then
    let (ea, p) := p.operandAddress entry.mode
    (.ok (), ((p.advance entry.size).perform entry.mode ea entry.operation).spend entry.cycles)
  else
    (.error ⟨opcode, address⟩, p)

end Processor

end Nmos6502
