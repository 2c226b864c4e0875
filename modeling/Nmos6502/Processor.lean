/-
  The processor and its stack.

  A processor is its registers together with the bus that it drives.  The stack
  occupies page one and grows downward; its pointer wraps within the page.
  Words are pushed high byte first, so that they lie in memory low byte first.
-/
import Nmos6502.Bus
import Nmos6502.Registers

namespace Nmos6502

structure Processor (M : Type) where
  regs : Registers
  bus : M

namespace Processor

variable {M : Type}

def powerOn (bus : M) : Processor M := ⟨.powerOn, bus⟩

def update (p : Processor M) (f : Registers → Registers) : Processor M :=
  { p with regs := f p.regs }

def goto (p : Processor M) (a : Addr) : Processor M := p.update ({ · with pc := a })

/-- Moves the program counter past `n` bytes. -/
def advance (p : Processor M) (n : Nat) : Processor M :=
  p.goto (BitVec.ofNat 16 (p.regs.pc.toNat + n))

def spend (p : Processor M) (n : Nat) : Processor M :=
  p.update fun r => { r with cycles := BitVec.ofNat 64 (r.cycles.toNat + n) }

variable [Bus M]

/-! ## Memory -/

def read (p : Processor M) (a : Addr) : Byte × Processor M :=
  let (b, bus) := Bus.read p.bus a
  (b, { p with bus })

def write (p : Processor M) (a : Addr) (b : Byte) : Processor M :=
  { p with bus := Bus.write p.bus a b }

/-- Continues at the address held in the two cells from `vector` on. -/
def gotoVector (p : Processor M) (vector : Addr) : Processor M :=
  let (target, bus) := Bus.wordAt p.bus vector
  { p with bus }.goto target

/-! ## Stack -/

/-- Writes a byte to the stack and lowers the pointer. -/
def push (p : Processor M) (b : Byte) : Processor M :=
  (p.write (stackCell p.regs.s) b).update fun r => { r with s := r.s - 1 }

/-- Raises the pointer and reads a byte from the stack. -/
def pull (p : Processor M) : Byte × Processor M :=
  (p.update fun r => { r with s := r.s + 1 }).read (stackCell (p.regs.s + 1))

/-- Pushes a word, high byte first. -/
def pushAddr (p : Processor M) (w : Addr) : Processor M :=
  (p.push (highByte w)).push (lowByte w)

/-- Pulls a word, low byte first. -/
def pullAddr (p : Processor M) : Addr × Processor M :=
  let (lo, p) := p.pull
  let (hi, p) := p.pull
  (word lo hi, p)

/-! ## Subroutines -/

/-- Enters a subroutine that will return to the current program counter: the
    address before it goes on the stack. -/
def call (p : Processor M) (target : Addr) : Processor M :=
  (p.pushAddr (p.regs.pc - 1)).goto target

/-- Leaves a subroutine: continues behind the address on the stack. -/
def leave (p : Processor M) : Processor M :=
  let (w, p) := p.pullAddr
  p.goto (w + 1)

end Processor

end Nmos6502
