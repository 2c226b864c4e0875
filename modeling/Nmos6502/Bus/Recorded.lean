/-
  A bus that keeps a record of its traffic.

  Every read and write passes through unchanged and is noted in order, so what
  an instruction does on the bus can be stated as a list.
-/
import Nmos6502.Bus
import Nmos6502.Text.Hex

namespace Nmos6502

/-- One access, with the byte that passed. -/
inductive Access where
  | read (a : Addr) (b : Byte)
  | write (a : Addr) (b : Byte)
deriving DecidableEq

/-- An access as text: `R0200=A9` or `W0010=05`. -/
def Access.text : Access → String
  | .read a b => "R" ++ Hex.ofAddr a ++ "=" ++ Hex.ofByte b
  | .write a b => "W" ++ Hex.ofAddr a ++ "=" ++ Hex.ofByte b

/-- A bus together with the accesses made so far, oldest first. -/
structure Recorded (M : Type) where
  inner : M
  log : Array Access

namespace Recorded

variable {M : Type} [Bus M]

instance : Bus (Recorded M) where
  read m a :=
    let (b, inner) := Bus.read m.inner a
    (b, ⟨inner, m.log.push (.read a b)⟩)
  write m a b := ⟨Bus.write m.inner a b, m.log.push (.write a b)⟩
  interrupting m := Bus.interrupting m.inner

def cleared (m : Recorded M) : Recorded M := { m with log := #[] }

end Recorded

end Nmos6502
