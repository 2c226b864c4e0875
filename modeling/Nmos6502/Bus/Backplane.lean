/-
  A backplane: routed peripherals and one common record of what was sent to the
  output ports among them, in the order of sending.
-/
import Nmos6502.Bus.Router

namespace Nmos6502

/-- A fitted address space and the bytes its ports have put out. -/
structure Backplane where
  router : Router Peripheral
  output : Array Byte

namespace Backplane

def empty : Backplane := ⟨.empty, #[]⟩

/-- Whether an output port answers at an address. -/
def portAt (m : Backplane) (a : Addr) : Bool :=
  match m.router.window? a with
  | some ⟨_, .port⟩ => true
  | _ => false

/-- Places a peripheral, unless its window overlaps one already there. -/
def place (m : Backplane) (base : Addr) (device : Peripheral) : Except Overlap Unit × Backplane :=
  let (outcome, router) := m.router.place base device
  (outcome, { m with router })

instance : Bus Backplane where
  read m a :=
    let (b, router) := Bus.read m.router a
    (b, { m with router })
  write m a b :=
    let output := if m.portAt a then m.output.push b else m.output
    { router := Bus.write m.router a b, output }
  interrupting m := Bus.interrupting m.router

end Backplane

end Nmos6502
