/-
  The address spaces that a session can be given.
-/
import Nmos6502.Bus.Backplane
import Nmos6502.Bus.Flat
import Nmos6502.Bus.Recorded
import Nmos6502.Bus.Split

namespace Nmos6502.Bench

/-- One of the three kinds of address space. -/
inductive Store where
  | flat (m : Flat)
  | fitted (m : Backplane)
  | split (m : Split)

instance : Bus Store where
  read
    | .flat m, a => let (b, m) := Bus.read m a; (b, .flat m)
    | .fitted m, a => let (b, m) := Bus.read m a; (b, .fitted m)
    | .split m, a => let (b, m) := Bus.read m a; (b, .split m)
  write
    | .flat m, a, b => .flat (Bus.write m a b)
    | .fitted m, a, b => .fitted (Bus.write m a b)
    | .split m, a, b => .split (Bus.write m a b)
  interrupting
    | .flat m => Bus.interrupting m
    | .fitted m => Bus.interrupting m
    | .split m => Bus.interrupting m

/-- An address space, with or without a record of its traffic. -/
inductive Wiring where
  | plain (s : Store)
  | tapped (s : Recorded Store)

namespace Wiring

instance : Bus Wiring where
  read
    | .plain s, a => let (b, s) := Bus.read s a; (b, .plain s)
    | .tapped s, a => let (b, s) := Bus.read s a; (b, .tapped s)
  write
    | .plain s, a, b => .plain (Bus.write s a b)
    | .tapped s, a, b => .tapped (Bus.write s a b)
  interrupting
    | .plain s => Bus.interrupting s
    | .tapped s => Bus.interrupting s

/-- The address space behind the record. -/
def store : Wiring → Store
  | .plain s => s
  | .tapped s => s.inner

/-- Puts another address space behind the record. -/
def putStore (w : Wiring) (s : Store) : Wiring :=
  match w with
  | .plain _ => .plain s
  | .tapped r => .tapped { r with inner := s }

def traffic : Wiring → List Access
  | .plain _ => []
  | .tapped s => s.log.toList

def cleared : Wiring → Wiring
  | .plain s => .plain s
  | .tapped s => .tapped s.cleared

end Wiring

end Nmos6502.Bench
