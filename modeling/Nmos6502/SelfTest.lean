/-
  Self-test images.

  A self-test is a program of 64 KiB that tries the documented instructions one
  group after the other.  It starts at `$0400` whatever the reset vector says,
  keeps the number of the group under test at `$0200`, and tells the end by a
  trap: a branch on itself when a group has failed, and a jump on itself, or
  back to the start, when all have passed.  A hook watches for the traps and
  reports each new number.
-/
import Nmos6502.Bus.Split
import Nmos6502.Machine.Run

namespace Nmos6502.SelfTest

def entry : Addr := 0x0400

/-- The cell with the number of the group under test. -/
def numberCell : Addr := 0x0200

inductive Outcome where
  | running
  /-- All groups have passed; the end was recognised at `pc`. -/
  | passed (pc : Addr)
  /-- The group with this number has failed; its trap is at `pc`. -/
  | failed (test : Byte) (pc : Addr)
deriving DecidableEq

structure Watcher where
  begun : Bool
  announced : Option Byte
  outcome : Outcome
deriving DecidableEq

namespace Watcher

def fresh : Watcher := ⟨false, none, .running⟩

/-- Whether opcode and operand are a branch on itself that is taken. -/
def isFailureTrap (opcode lo : Byte) (z : Bool) : Bool := opcode == 0xD0 && !z && lo == 0xFE

/-- Whether opcode and operand are a jump on itself or back to the start. -/
def isSuccessTrap (pc : Addr) (opcode lo hi : Byte) : Bool :=
  opcode == 0x4C && (word lo hi == pc || word lo hi == entry)

variable {M S : Type} [Bus M]

def conclude (w : Watcher) (m : Machine M S) (outcome : Outcome) (e : Event) :
    Verdict × Watcher × Machine M S :=
  (.handled, { w with outcome }, (m.note e).requestEnd)

/-- Looks at the instruction at the program counter of a program under way. -/
def inspect (w : Watcher) (m : Machine M S) : Verdict × Watcher × Machine M S :=
  let pc := m.regs.pc
  let (opcode, m) := m.read pc
  let (lo, m) := m.read (pc + 1)
  let (hi, m) := m.read (pc + 2)
  if isFailureTrap opcode lo m.regs.p.z then
    let (test, m) := m.read numberCell
    w.conclude m (.failed test pc) (.testFails pc test)
  else if isSuccessTrap pc opcode lo hi then
    w.conclude m (.passed pc) (.testPasses pc)
  else
    let (test, m) := m.read numberCell
    if w.announced = some test then (.declined, w, m)
    else (.declined, { w with announced := some test }, m.note (.testRuns pc test))

/-- The hook: the first offer starts the program, later ones inspect it. -/
def watch : Hook Watcher M S := fun w m =>
  if w.begun then w.inspect m
  else (.handled, { w with begun := true }, (m.onCore (·.goto entry)).note .testBegins)

end Watcher

structure Report where
  /-- Why the run is over; none if the fuel did not suffice. -/
  ending : Option Ending
  outcome : Outcome
  machine : Machine Split Unit

/-- Runs a self-test to its end, for at most `fuel` turns. -/
def run (fuel : Nat) (image : List Byte) (journal : Journal) : Report :=
  let m : Machine Split Unit := { Machine.powerOn (.ofImage image) () with journal }
  let (ending, w, m) := m.resetRun Watcher.watch fuel .fresh
  let m := if ending = some .quit then m.note (.testEnds m.regs.cycles) else m
  { ending, outcome := w.outcome, machine := m }

end Nmos6502.SelfTest
