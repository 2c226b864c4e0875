/-
  The register file: what a program can see of the processor, and the count of
  cycles it has spent.

  Here are also the operations that need no bus: each takes the registers, and
  the operand byte if there is one, to the registers afterwards.
-/
import Nmos6502.Arithmetic.Decimal
import Nmos6502.Arithmetic.Shift
import Nmos6502.Status

namespace Nmos6502

/-- The registers of the processor: accumulator, index registers, stack pointer,
    program counter and flags. -/
structure Registers where
  a : Byte
  x : Byte
  y : Byte
  /-- Stack pointer, an offset into page one. -/
  s : Byte
  pc : Addr
  p : Status
  /-- Base cycles of all that has been executed; extra cycles for taken
      branches and page crossings are not counted. -/
  cycles : Cycles
deriving DecidableEq

/-- The three registers that loads, stores and comparisons share. -/
inductive Reg where
  | a | x | y
deriving DecidableEq

namespace Registers

def powerOn : Registers :=
  { a := 0, x := 0, y := 0, s := 0xFF, pc := 0, p := .powerOn, cycles := 0 }

def get (r : Registers) : Reg → Byte
  | .a => r.a
  | .x => r.x
  | .y => r.y

def set (r : Registers) : Reg → Byte → Registers
  | .a, v => { r with a := v }
  | .x, v => { r with x := v }
  | .y, v => { r with y := v }

/-- Z and N describe a byte. -/
def describe (r : Registers) (v : Byte) : Registers := { r with p := r.p.describe v }

/-- A data register takes a byte, which Z and N then describe. -/
def load (r : Registers) (reg : Reg) (v : Byte) : Registers := (r.set reg v).describe v

/-- A data register takes the sum of itself and `d`. -/
def adjust (r : Registers) (reg : Reg) (d : Byte) : Registers := r.load reg (r.get reg + d)

/-! ## Arithmetic -/

/-- The accumulator takes the outcome of a sum or difference, with its flags. -/
def accept (r : Registers) (res : ArithResult) : Registers :=
  { r with a := res.value, p := { r.p with n := res.n, v := res.v, z := res.z, c := res.c } }

/-- Adds a byte and the carry to the accumulator. -/
def add (r : Registers) (m : Byte) : Registers :=
  r.accept (if r.p.d then Decimal.add r.a m r.p.c else Binary.add r.a m r.p.c)

/-- Subtracts a byte and the borrow from the accumulator. -/
def sub (r : Registers) (m : Byte) : Registers :=
  r.accept (if r.p.d then Decimal.sub r.a m r.p.c else Binary.sub r.a m r.p.c)

/-- Compares a data register with a byte: N, Z and C are those of a binary
    difference that borrows nothing, and nothing else changes. -/
def compare (r : Registers) (reg : Reg) (m : Byte) : Registers :=
  let res := Binary.sub (r.get reg) m true
  { r with p := { r.p with n := res.n, z := res.z, c := res.c } }

/-- Tests a byte against the accumulator: Z tells whether they have no bit in
    common, N and V are the two upper bits of the byte. -/
def testBits (r : Registers) (m : Byte) : Registers :=
  { r with p := { r.p with z := r.a &&& m == 0, n := m.getLsbD 7, v := m.getLsbD 6 } }

/-! ## Changes to a byte that may be a cell or the accumulator -/

/-- A byte plus `d`, described by Z and N. -/
def bump (d : Byte) (r : Registers) (m : Byte) : Byte × Registers := (m + d, r.describe (m + d))

/-- A shifted byte, described by Z and N, with the bit shifted out in C. -/
def shifted (r : Registers) (res : Byte × Bool) : Byte × Registers :=
  (res.1, { r with p := { r.p with c := res.2 } }.describe res.1)

/-- Shifts left; a zero enters. -/
def shiftLeft (r : Registers) (m : Byte) : Byte × Registers := r.shifted (Shift.left m false)

/-- Shifts right; a zero enters. -/
def shiftRight (r : Registers) (m : Byte) : Byte × Registers := r.shifted (Shift.right m false)

/-- Shifts left; the carry enters. -/
def rotateLeft (r : Registers) (m : Byte) : Byte × Registers := r.shifted (Shift.left m r.p.c)

/-- Shifts right; the carry enters. -/
def rotateRight (r : Registers) (m : Byte) : Byte × Registers := r.shifted (Shift.right m r.p.c)

end Registers

end Nmos6502
