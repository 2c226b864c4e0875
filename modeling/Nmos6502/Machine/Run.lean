/-
  Running: the loop around single steps, with interrupts and a hook.

  Before each instruction a run looks for a request to end and for a pending
  interrupt, reports the instruction if asked to, and offers the machine to a
  hook.  The hook may do the work in place of the instruction; then the loop
  begins anew without executing it.
-/
import Nmos6502.Machine

namespace Nmos6502

/-- What a hook answers. -/
inductive Verdict where
  /-- The hook has done what was to be done. -/
  | handled
  /-- The instruction is to be executed. -/
  | declined
  /-- The whole program must end: the hook met an undocumented opcode. -/
  | exit (e : IllegalOpcode)
deriving DecidableEq

/-- A hook with memory `H`: it takes its memory and the machine to an answer and
    to both of them afterwards. -/
abbrev Hook (H M S : Type) := H → Machine M S → Verdict × H × Machine M S

def Hook.none {M S : Type} : Hook Unit M S := fun h m => (.declined, h, m)

/-- A hook that is offered the machine `max` times at most.  The first offer
    after that asks the run to end.  The hook is told the number of the offer,
    counted from one. -/
def Hook.limit {H M S : Type} (max : Nat) (hook : Nat → Hook H M S) : Hook (Nat × H) M S :=
  fun (calls, h) m =>
    let calls := calls + 1
    if max < calls then (.handled, (calls, h), m.requestEnd)
    else
      let (verdict, h, m) := hook calls h m
      (verdict, (calls, h), m)

inductive Ending where
  | quit
  | stopped (s : Stop)
deriving DecidableEq

namespace Machine

variable {H M S : Type} [Bus M] [InterruptSource S]

/-- Takes an interrupt if one is pending and such are not disabled.  The bus is
    looked at only when the source has nothing due. -/
def pollInterrupt (m : Machine M S) : Machine M S :=
  if m.regs.p.i then m
  else
    let (due, source) := InterruptSource.poll m.source
    let m := { m with source }
    if due || Bus.interrupting m.bus then m.irq.2 else m

/-- Reports the instruction at the program counter, if that is switched on and
    somebody listens. -/
def report (m : Machine M S) : Machine M S :=
  if (m.trace || m.singleStep) && m.journal.listening then
    let (i, m) := m.nextInstruction
    m.note (.trace i m.regs)
  else m

/-- One turn of the loop: why the run is over, if it is, and hook and machine
    afterwards. -/
def turn (hook : Hook H M S) (h : H) (m : Machine M S) : Option Ending × H × Machine M S :=
  if m.quit then (some .quit, h, m.note (.quit m.regs.pc m.regs.cycles))
  else
    match hook h m.pollInterrupt.report with
    | (.handled, h, m) => (none, h, m)
    | (.exit e, h, m) => (some (.stopped (.exit e)), h, m)
    | (.declined, h, m) =>
      match m.step with
      | (none, m) => (none, h, m)
      | (some stop, m) => (some (.stopped stop), h, m)

/-- Turns until the run is over, but no more than `fuel`; without an ending
    when that did not suffice. -/
def run (hook : Hook H M S) : Nat → H → Machine M S → Option Ending × H × Machine M S
  | 0, h, m => (none, h, m)
  | fuel + 1, h, m =>
    match turn hook h m with
    | (some ending, h, m) => (some ending, h, m)
    | (none, h, m) => run hook fuel h m

def runFrom (hook : Hook H M S) (fuel : Nat) (h : H) (a : Addr) (m : Machine M S) :
    Option Ending × H × Machine M S :=
  run hook fuel h (m.onCore (·.goto a))

def resetRun (hook : Hook H M S) (fuel : Nat) (h : H) (m : Machine M S) :
    Option Ending × H × Machine M S :=
  run hook fuel h m.reset

end Machine

end Nmos6502
