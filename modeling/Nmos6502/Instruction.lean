/-
  Decoded instructions and listings.

  An instruction is decoded from memory, for a trace, or from a run of bytes,
  for a listing.  Both use the opcode matrix.  They differ in two ways: bytes
  may end too early, and only memory can say where an indirect jump leads.
-/
import Nmos6502.Bus
import Nmos6502.Instruction.Matrix

namespace Nmos6502

/-- An instruction with its place in memory. -/
structure Instruction where
  address : Addr
  opcode : Byte
  operation : Operation
  mnemonic : String := operation.mnemonic
  mode : Mode
  /-- All bytes of the instruction, the opcode first. -/
  bytes : List Byte
  /-- Whether the operation is a branch. -/
  conditional : Bool := operation.isConditional
  /-- Where a branch, jump or call leads, if that is known. -/
  target : Option Addr
deriving DecidableEq

namespace Instruction

/-- How far the next instruction is, which is the number of bytes modulo the
    size of the address space. -/
def size (i : Instruction) : Addr := BitVec.ofNat 16 i.bytes.length

def operand (i : Instruction) : List Byte := i.bytes.tail

def firstByte (operand : List Byte) : Byte := operand.headD 0

def firstWord (operand : List Byte) : Addr := word (operand.getD 0 0) (operand.getD 1 0)

/-- Where an instruction leads, as far as its own bytes tell: branches lead to
    a distance from themselves, direct jumps and calls to their operand. -/
def directTarget (address : Addr) (e : OpcodeEntry) (operand : List Byte) : Option Addr :=
  match e.mode, e.operation with
  | .relative, _ => some (branchDestination address (firstByte operand))
  | .absolute, .jmp | .absolute, .jsr => some (firstWord operand)
  | _, _ => none

/-- The instruction made of an opcode and its operand. -/
def ofParts (address : Addr) (opcode : Byte) (operand : List Byte) : Instruction :=
  let e := opcodeEntry opcode
  { address
    opcode
    operation := e.operation
    mnemonic := e.operation.mnemonic
    mode := e.mode
    bytes := opcode :: operand
    conditional := e.operation.isConditional
    target := directTarget address e operand }

/-- A byte that begins no instruction. -/
def undocumented (address : Addr) (byte : Byte) : Instruction :=
  { address
    opcode := byte
    operation := .illegal
    mnemonic := Operation.illegal.mnemonic
    mode := .implied
    bytes := [byte]
    conditional := false
    target := none }

/-- Decodes the instruction at an address of memory.  An undocumented opcode
    stands alone.  The destination of an indirect jump is read as well. -/
def fetch {M : Type} [Bus M] (bus : M) (address : Addr) : Instruction × M :=
  let (opcode, bus) := Bus.read bus address
  let mode := (opcodeEntry opcode).mode
  let (operand, bus) := Bus.bytesAt bus (address + 1) mode.operandLength
  let i := ofParts address opcode operand
  if mode = .indirect then
    let (target, bus) := Bus.jumpTargetAt bus (firstWord operand)
    ({ i with target := some target }, bus)
  else
    (i, bus)

/-- Decodes the instruction that a run of bytes begins with, if the opcode is
    documented and its operand is complete. -/
def ofBytes? (address : Addr) : List Byte → Option Instruction
  | [] => none
  | opcode :: rest =>
    let e := opcodeEntry opcode
    let operand := rest.take e.mode.operandLength
    if e.legal && operand.length == e.mode.operandLength then
      some (ofParts address opcode operand)
    else
      none

/-- Decodes `n` instructions from memory, each behind the one before it. -/
def fetchMany {M : Type} [Bus M] (bus : M) (address : Addr) : Nat → List Instruction × M
  | 0 => ([], bus)
  | n + 1 =>
    let (i, bus) := fetch bus address
    let (is, bus) := fetchMany bus (address + i.size) n
    (i :: is, bus)

end Instruction

/-- The listing of a run of bytes whose first lies at `address`.  A byte that
    begins no complete documented instruction is listed alone as unknown. -/
def disassemble (bytes : List Byte) (address : Addr) : List Instruction :=
  match bytes with
  | [] => []
  | b :: rest =>
    let i := (Instruction.ofBytes? address (b :: rest)).getD (.undocumented address b)
    i :: disassemble (rest.drop (i.bytes.length - 1)) (address + i.size)
termination_by bytes.length
decreasing_by
  rw [List.length_drop, List.length_cons]
  omega

end Nmos6502
