/-
  Devices: parts of an address space that know nothing of where they stand.

  A device is addressed by offsets from its own beginning.  `Ram` and `Rom`
  store bytes; the other peripherals answer the processor directly.
-/
import Nmos6502.Bus

namespace Nmos6502

/-- What can be placed in a window of the address space. -/
class Device (D : Type) where
  /-- The byte seen at an offset, and the device after the access. -/
  read : D → Addr → Byte × D
  /-- The device after a byte has been sent to an offset. -/
  write : D → Addr → Byte → D
  /-- How many offsets the device answers. -/
  size : D → Addr
  /-- Whether the device holds the interrupt request line. -/
  interrupting : D → Bool := fun _ => false

/-! ## Storage -/

/-- Memory that can be read and written, of at most 65535 bytes. -/
structure Ram where
  data : Array Byte
  size_lt : data.size < 65536

namespace Ram

/-- `size` cells of zero. -/
def zero (size : Addr) : Ram :=
  ⟨Array.replicate size.toNat 0, by simpa using size.isLt⟩

/-- Cells that hold the given bytes; what lies past the largest size is cut off. -/
def ofBytes (bytes : List Byte) : Ram :=
  ⟨(bytes.take 65535).toArray, by
    rw [List.size_toArray, List.length_take]
    omega⟩

/-- The content of a cell, or `$FF` past the end. -/
def get (r : Ram) (offset : Nat) : Byte := r.data.getD offset 0xFF

/-- The memory with one cell replaced; past the end nothing changes. -/
def set (r : Ram) (offset : Nat) (b : Byte) : Ram :=
  ⟨r.data.setIfInBounds offset b, by simpa using r.size_lt⟩

/-- Copies bytes to successive cells and drops those that do not fit. -/
def load (r : Ram) (offset : Nat) : List Byte → Ram
  | [] => r
  | b :: bs => load (r.set offset b) (offset + 1) bs

instance : Device Ram where
  read r offset := (r.get offset.toNat, r)
  write r offset b := r.set offset.toNat b
  size r := BitVec.ofNat 16 r.data.size

theorem toNat_size (r : Ram) : (Device.size r).toNat = r.data.size := Nat.mod_eq_of_lt r.size_lt

theorem getElem?_eq_some_get (r : Ram) {offset : Nat} (h : offset < r.data.size) :
    r.data[offset]? = some (r.get offset) := by
  simp [get, h]

@[simp] theorem size_set (r : Ram) (offset : Nat) (b : Byte) :
    (r.set offset b).data.size = r.data.size := Array.size_setIfInBounds

theorem get_set_self (r : Ram) {offset : Nat} (b : Byte) (h : offset < r.data.size) :
    (r.set offset b).get offset = b := by
  simp [get, set, h]

theorem get_set_of_ne (r : Ram) {offset offset' : Nat} (b : Byte) (h : offset ≠ offset') :
    (r.set offset b).get offset' = r.get offset' := by
  simp [get, set, Array.getElem?_setIfInBounds_ne h]

end Ram

/-- Memory that can only be read, of at most 65535 bytes. -/
structure Rom where
  data : Array Byte
  size_lt : data.size < 65536

namespace Rom

/-- Cells that hold the given bytes; what lies past the largest size is cut off. -/
def ofBytes (bytes : List Byte) : Rom :=
  ⟨(bytes.take 65535).toArray, by
    rw [List.size_toArray, List.length_take]
    omega⟩

/-- The content of a cell, or `$FF` past the end. -/
def get (r : Rom) (offset : Nat) : Byte := r.data.getD offset 0xFF

instance : Device Rom where
  read r offset := (r.get offset.toNat, r)
  write r _ _ := r
  size r := BitVec.ofNat 16 r.data.size

theorem toNat_size (r : Rom) : (Device.size r).toNat = r.data.size := Nat.mod_eq_of_lt r.size_lt

theorem getElem?_eq_some_get (r : Rom) {offset : Nat} (h : offset < r.data.size) :
    r.data[offset]? = some (r.get offset) := by
  simp [get, h]

end Rom

/-! ## Peripherals -/

/-- The devices that a machine can be fitted with. -/
inductive Peripheral where
  | ram (r : Ram)
  | rom (r : Rom)
  /-- An output port of one byte, which reads as zero. -/
  | port
  /-- A cell that counts its reads: each adds one and gives the new value. -/
  | counter (value : Byte)
  /-- A line that requests an interrupt.  Reading any of its cells tells
      whether a request is pending and acknowledges it; writing a nonzero byte
      makes one and writing zero withdraws it. -/
  | requester (pending : Bool) (size : Addr)

namespace Peripheral

instance : Device Peripheral where
  read
    | .ram r, offset => let (b, r) := Device.read r offset; (b, .ram r)
    | .rom r, offset => let (b, r) := Device.read r offset; (b, .rom r)
    | .port, _ => (0, .port)
    | .counter value, _ => (value + 1, .counter (value + 1))
    | .requester pending size, _ => (if pending then 1 else 0, .requester false size)
  write
    | .ram r, offset, b => .ram (Device.write r offset b)
    | .rom r, offset, b => .rom (Device.write r offset b)
    | .port, _, _ => .port
    | .counter _, _, b => .counter b
    | .requester _ size, _, b => .requester (b != 0) size
  size
    | .ram r => Device.size r
    | .rom r => Device.size r
    | .port | .counter _ => 1
    | .requester _ size => size
  interrupting
    | .requester pending _ => pending
    | _ => false

end Peripheral

end Nmos6502
