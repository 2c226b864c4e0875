/-
  Trying single parts: a device without a bus, a timer without a machine.
-/
import Nmos6502.Bus.Device
import Nmos6502.Timer

namespace Nmos6502.Bench

/-! ## Devices -/

inductive DeviceStep where
  | read (offset : Addr)
  | write (offset : Addr) (b : Byte)
  | size
  | interrupting
  | all
  | load (offset : Addr) (bytes : List Byte)

inductive DeviceReply where
  | done
  | byte (b : Byte)
  | size (n : Addr)
  | flag (b : Bool)
  | bytes (bs : List Byte)

/-- Reads `n` cells from an offset on, after those that gave `bytes`. -/
def readCells (device : Peripheral) (offset : Addr) (bytes : Array Byte) :
    Nat → Array Byte × Peripheral
  | 0 => (bytes, device)
  | n + 1 =>
    let (b, device) := Device.read device offset
    readCells device (offset + 1) (bytes.push b) n

def DeviceStep.perform (device : Peripheral) : DeviceStep → DeviceReply × Peripheral
  | .read offset =>
    let (b, device) := Device.read device offset
    (.byte b, device)
  | .write offset b => (.done, Device.write device offset b)
  | .size => (.size (Device.size device), device)
  | .interrupting => (.flag (Device.interrupting device), device)
  | .all =>
    let (bs, device) := readCells device 0 #[] (Device.size device).toNat
    (.bytes bs.toList, device)
  | .load offset bytes =>
    match device with
    | .ram r => (.done, .ram (r.load offset.toNat bytes))
    | device => (.done, device)

def tryDevice (device : Peripheral) (steps : List DeviceStep) : List DeviceReply :=
  go device #[] steps
where
  go (device : Peripheral) (replies : Array DeviceReply) : List DeviceStep → List DeviceReply
    | [] => replies.toList
    | step :: steps =>
      let (reply, device) := step.perform device
      go device (replies.push reply) steps

/-! ## Timers -/

/-- Something to do to a clock and the timer on it. -/
inductive TimerStep where
  | poll
  /-- Polls the source that never interrupts. -/
  | pollNothing
  | advance (d : Micros)

inductive TimerReply where
  | flag (b : Bool)
  | time (t : Micros)

def TimerStep.perform (now : Micros) (t : Timer) : TimerStep → TimerReply × Micros × Timer
  | .poll =>
    let (due, t) := t.poll now
    (.flag due, now, t)
  | .pollNothing => (.flag (InterruptSource.poll ()).1, now, t)
  | .advance d => (.time (now + d), now + d, t)

def tryTimer (now : Micros) (t : Timer) (steps : List TimerStep) : List TimerReply :=
  go now t #[] steps
where
  go (now : Micros) (t : Timer) (replies : Array TimerReply) : List TimerStep → List TimerReply
    | [] => replies.toList
    | step :: steps =>
      let (reply, now, t) := step.perform now t
      go now t (replies.push reply) steps

end Nmos6502.Bench
