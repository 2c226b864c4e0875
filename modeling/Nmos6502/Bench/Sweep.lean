/-
  Sweeps: one program run on all values of a byte.

  A program is executed at `$0200` for each value of a first byte, taken from a
  list, and for each of the 256 values of a second one.  The registers start
  afresh every time; memory is kept from one run to the next.
-/
import Nmos6502.Bench.Script
import Nmos6502.Bus.Flat

namespace Nmos6502.Bench

/-- What a sweep varies. -/
inductive Varied where
  | a | x | y | s | status
  | cell (a : Addr)

inductive Observed where
  | a | x | y | s | status | pc
  | cell (a : Addr)

structure Sweep where
  code : List Byte
  rows : List Byte
  rowVaries : Varied
  /-- What takes all 256 values in each row. -/
  varies : Varied
  /-- Further values for the start of each run. -/
  preset : List Assignment
  steps : Nat
  observed : List Observed

/-- Where the program of a sweep lies. -/
def Sweep.origin : Addr := 0x0200

/-- Gives what is varied its value. -/
def Varied.assign (m : Machine Flat Unit) (v : Byte) : Varied → Machine Flat Unit
  | .a => m.update ({ · with a := v })
  | .x => m.update ({ · with x := v })
  | .y => m.update ({ · with y := v })
  | .s => m.update ({ · with s := v })
  | .status => m.update ({ · with p := .unpack v })
  | .cell place => m.write place v

/-- The digits of what is looked at. -/
def Observed.digits (m : Machine Flat Unit) : Observed → List Char
  | .a => Hex.byte m.regs.a
  | .x => Hex.byte m.regs.x
  | .y => Hex.byte m.regs.y
  | .s => Hex.byte m.regs.s
  | .status => Hex.byte m.regs.p.pack
  | .pc => Hex.addr m.regs.pc
  | .cell place => Hex.byte (m.bus.get place)

namespace Sweep

/-- Up to `n` steps, whether they succeed or not. -/
def tries (m : Machine Flat Unit) : Nat → Machine Flat Unit
  | 0 => m
  | n + 1 => tries m.step.2 n

def once (w : Sweep) (m : Machine Flat Unit) (row value : Byte) : Machine Flat Unit :=
  let m := m.onCore fun p => { p with regs := .powerOn, bus := p.bus.load origin w.code }
  let m := (Bench.assign m w.preset).onCore (·.goto origin)
  tries (w.varies.assign (w.rowVaries.assign m row) value) w.steps

/-- The runs for the values from `256 - n` on; gives what was seen, in reverse,
    after `seen`. -/
def runRow (w : Sweep) (row : Byte) (m : Machine Flat Unit) (seen : List (List Char)) :
    Nat → List (List Char) × Machine Flat Unit
  | 0 => (seen, m)
  | n + 1 =>
    let m := w.once m row (BitVec.ofNat 8 (255 - n))
    runRow w row m (w.observed.flatMap (·.digits m) :: seen) n

/-- The runs of all rows, one text for each. -/
def runRows (w : Sweep) (m : Machine Flat Unit) : List Byte → List String
  | [] => []
  | row :: rows =>
    let (seen, m) := w.runRow row m [] 256
    String.ofList seen.reverse.flatten :: runRows w m rows

/-- The whole sweep on memory of zeros. -/
def run (w : Sweep) : List String := w.runRows (.powerOn .zero ()) w.rows

end Sweep

end Nmos6502.Bench
