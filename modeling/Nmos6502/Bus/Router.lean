/-
  Routing: an address space put together from devices.

  Each device stands in a window that begins at its base address.  Windows must
  not overlap, which is checked when a device is placed; a window that would
  run past the top of the address space ends there.  Reading where no device
  stands gives `$FF`, and writing there does nothing.
-/
import Nmos6502.Bus.Device
import Nmos6502.Text.Hex

namespace Nmos6502

/-- A device and the address of its first byte. -/
structure Window (D : Type) where
  base : Addr
  device : D

/-- A device could not be placed: its window would overlap that of another. -/
structure Overlap where
  base : Addr
  size : Addr
  occupiedBase : Addr
  occupiedSize : Addr
deriving DecidableEq

/-- An address space made of windows, in the order in which they were placed. -/
structure Router (D : Type) where
  windows : List (Window D)

variable {D : Type} [Device D]

namespace Window

def size (w : Window D) : Addr := Device.size w.device

/-- The first address behind the window, if there were no top to the address
    space. -/
def limit (w : Window D) : Nat := w.base.toNat + w.size.toNat

/-- Whether the window answers an address.  The first address behind it is
    taken in sixteen bits here; a window for which that wraps ends at the top of
    the address space. -/
def covers (w : Window D) (a : Addr) : Bool :=
  if 65536 ≤ w.limit then w.base ≤ a else w.base ≤ a && a < w.base + w.size

def offset (w : Window D) (a : Addr) : Addr := a - w.base

def overlaps (w w' : Window D) : Bool :=
  w.base.toNat < w'.limit && w'.base.toNat < w.limit

def read (w : Window D) (a : Addr) : Byte × Window D :=
  let (b, device) := Device.read w.device (w.offset a)
  (b, { w with device })

def write (w : Window D) (a : Addr) (b : Byte) : Window D :=
  { w with device := Device.write w.device (w.offset a) b }

end Window

namespace Router

def empty : Router D := ⟨[]⟩

/-- What an address reads as where no device stands. -/
def openBus : Byte := 0xFF

/-- Places a device, unless its window overlaps one already there; the first
    such window is named. -/
def place (r : Router D) (base : Addr) (device : D) : Except Overlap Unit × Router D :=
  let w : Window D := ⟨base, device⟩
  match r.windows.find? w.overlaps with
  | some w' => (.error ⟨w.base, w.size, w'.base, w'.size⟩, r)
  | none => (.ok (), ⟨r.windows ++ [w]⟩)

def window? (r : Router D) (a : Addr) : Option (Window D) := r.windows.find? (·.covers a)

/-- Reads through the first window that covers the address. -/
def readWindows (a : Addr) : List (Window D) → Byte × List (Window D)
  | [] => (openBus, [])
  | w :: ws =>
    if w.covers a then
      let (b, w) := w.read a
      (b, w :: ws)
    else
      let (b, ws) := readWindows a ws
      (b, w :: ws)

/-- Writes through the first window that covers the address. -/
def writeWindows (a : Addr) (b : Byte) : List (Window D) → List (Window D)
  | [] => []
  | w :: ws => if w.covers a then w.write a b :: ws else w :: writeWindows a b ws

instance : Bus (Router D) where
  read r a :=
    let (b, ws) := readWindows a r.windows
    (b, ⟨ws⟩)
  write r a b := ⟨writeWindows a b r.windows⟩
  interrupting r := r.windows.any fun w => Device.interrupting w.device

end Router

def Overlap.message (o : Overlap) : String :=
  "device at $" ++ Hex.ofAddr o.base ++ " (size $" ++ Hex.ofAddr o.size ++
    ") overlaps existing device at $" ++ Hex.ofAddr o.occupiedBase ++
    " (size $" ++ Hex.ofAddr o.occupiedSize ++ ")"

end Nmos6502
