/-
  Interval timers and other sources of maskable interrupts.

  A source is asked before each instruction whether an interrupt is due; asking
  may change it.  A timer is due once its period has passed since it last was
  due, and starts its next period at that moment, so a late question delays the
  interrupt and never makes two of it.
-/
import Nmos6502.Word

namespace Nmos6502

/-- What can request maskable interrupts without being on the bus. -/
class InterruptSource (S : Type) where
  /-- Whether an interrupt is due, and the source after the question. -/
  poll : S → Bool × S

/-- The source that never interrupts. -/
instance : InterruptSource Unit where
  poll s := (false, s)

/-- A time in microseconds, modulo `2 ^ 64`. -/
abbrev Micros := BitVec 64

structure Timer where
  period : Micros
  /-- When the current period began. -/
  since : Micros
deriving DecidableEq

namespace Timer

/-- One sixtieth of a second, rounded down. -/
def sixtieth : Micros := 16666

/-- A timer whose first period begins now. -/
def start (now : Micros) (period : Micros) : Timer := ⟨period, now⟩

/-- Whether the period is over; if so the next one begins now.  A clock that
    reads earlier than the beginning of the period counts as no time passed. -/
def poll (t : Timer) (now : Micros) : Bool × Timer :=
  if t.period.toNat ≤ now.toNat - t.since.toNat then (true, { t with since := now })
  else (false, t)

end Timer

inductive Line where
  | idle
  | timer (t : Timer)
  /-- A timer with a clock of its own, which stands still at zero. -/
  | detached (t : Timer)
deriving DecidableEq

/-- A clock that is advanced by hand, and what it drives. -/
structure TimeSource where
  now : Micros
  line : Line
deriving DecidableEq

namespace TimeSource

def idle : TimeSource := ⟨0, .idle⟩

def advance (s : TimeSource) (d : Micros) : TimeSource := { s with now := s.now + d }

instance : InterruptSource TimeSource where
  poll s :=
    match s.line with
    | .idle => (false, s)
    | .timer t =>
      let (due, t) := t.poll s.now
      (due, { s with line := .timer t })
    | .detached t =>
      let (due, t) := t.poll 0
      (due, { s with line := .detached t })

end TimeSource

end Nmos6502
