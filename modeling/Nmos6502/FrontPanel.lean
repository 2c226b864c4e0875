/-
  The front panel: a machine with flat memory, and the handful of things that
  one does to it by hand.
-/
import Nmos6502.Bus.Flat
import Nmos6502.Machine

namespace Nmos6502

/-- A machine with flat memory and no source of interrupts, and the range of
    the program loaded last. -/
structure FrontPanel where
  machine : Machine Flat Unit
  programBase : Addr
  programLimit : Addr

namespace FrontPanel

def powerOn : FrontPanel := ⟨.powerOn .zero (), 0, 0⟩

def onMachine (f : FrontPanel) (g : Machine Flat Unit → Machine Flat Unit) : FrontPanel :=
  { f with machine := g f.machine }

def askMachine {α : Type} (f : FrontPanel) (g : Machine Flat Unit → α × Machine Flat Unit) :
    α × FrontPanel :=
  let (answer, machine) := g f.machine
  (answer, { f with machine })

/-- Loads a program, makes it the one that a reset starts, and goes to its
    beginning.  The program ends at the top of the address space, but its range
    is noted by its length modulo 65536. -/
def load (f : FrontPanel) (program : List Byte) (start : Addr) : FrontPanel where
  machine := f.machine.onCore fun p =>
    { p with
      bus := ((p.bus.load start program).set resetVector (lowByte start)).set (resetVector + 1)
        (highByte start) }.goto start
  programBase := start
  programLimit := start + BitVec.ofNat 16 program.length

/-- Withdraws a request to end and starts again from the reset vector. -/
def reset (f : FrontPanel) : FrontPanel :=
  f.onMachine fun m => { m with quit := false }.reset

def step (f : FrontPanel) : Option Stop × FrontPanel := f.askMachine (·.step)

/-- Executes up to `count` instructions, fewer when one fails or an end was
    requested; tells how many were executed. -/
def run (f : FrontPanel) (count : Nat) : Except Stop Nat × FrontPanel :=
  go f 0 count
where
  go (f : FrontPanel) (done : Nat) : Nat → Except Stop Nat × FrontPanel
    | 0 => (.ok done, f)
    | left + 1 =>
      if f.machine.quit then (.ok done, f)
      else
        match f.step with
        | (none, f) => go f (done + 1) left
        | (some stop, f) => (.error stop, f)

def irq (f : FrontPanel) : Bool × FrontPanel := f.askMachine (·.irq)

def nmi (f : FrontPanel) : FrontPanel := f.onMachine (·.nmi)

def goto (f : FrontPanel) (a : Addr) : FrontPanel := f.onMachine (·.onCore (·.goto a))

def read (f : FrontPanel) (a : Addr) : Byte × FrontPanel := f.askMachine (·.read a)

def write (f : FrontPanel) (a : Addr) (b : Byte) : FrontPanel := f.onMachine (·.write a b)

def page (f : FrontPanel) (n : Byte) : List Byte :=
  (List.range 256).map fun i => f.machine.bus.get (word (BitVec.ofNat 8 i) n)

/-- The trace line of the instruction at the program counter. -/
def traceLine (f : FrontPanel) : String × FrontPanel :=
  f.askMachine fun m =>
    let (i, m) := m.nextInstruction
    (Nmos6502.traceLine i m.regs, m)

end FrontPanel

end Nmos6502
