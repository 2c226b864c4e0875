/-
  Saved states.

  A snapshot holds the registers; a checkpoint holds the memory as well.  The
  switches of the machine, its source of interrupts and its journal belong to
  neither.
-/
import Nmos6502.Bus.Flat
import Nmos6502.Machine

namespace Nmos6502

/-- The registers as they are saved, with the flags packed. -/
structure Snapshot where
  pc : Addr
  a : Byte
  x : Byte
  y : Byte
  s : Byte
  status : Byte
  cycles : Cycles
deriving DecidableEq

/-- The registers and all of a flat memory. -/
structure Checkpoint where
  cpu : Snapshot
  memory : Flat

namespace Registers

def snapshot (r : Registers) : Snapshot :=
  { pc := r.pc, a := r.a, x := r.x, y := r.y, s := r.s, status := r.p.pack, cycles := r.cycles }

end Registers

namespace Snapshot

def registers (s : Snapshot) : Registers :=
  { a := s.a, x := s.x, y := s.y, s := s.s, pc := s.pc, p := .unpack s.status,
    cycles := s.cycles }

@[simp] theorem registers_snapshot (r : Registers) : r.snapshot.registers = r := by
  simp [Registers.snapshot, registers]

/-- The snapshot as one line, every field in decimal. -/
def text (s : Snapshot) : String :=
  "CpuSnapshot \x7b pc: " ++ toString s.pc.toNat ++ ", a: " ++ toString s.a.toNat ++
    ", x: " ++ toString s.x.toNat ++ ", y: " ++ toString s.y.toNat ++
    ", sp: " ++ toString s.s.toNat ++ ", status: " ++ toString s.status.toNat ++
    ", cycles: " ++ toString s.cycles.toNat ++ " \x7d"

end Snapshot

namespace Machine

variable {M S : Type}

def snapshot (m : Machine M S) : Snapshot := m.regs.snapshot

/-- Restores the registers; memory is left alone. -/
def restoreRegisters (m : Machine M S) (s : Snapshot) : Machine M S :=
  m.update fun _ => s.registers

def checkpoint (m : Machine Flat S) : Checkpoint := ⟨m.snapshot, m.bus⟩

def restore (m : Machine Flat S) (c : Checkpoint) : Machine Flat S :=
  ((m.restoreRegisters c.cpu).onCore ({ · with bus := c.memory })).note (.restored c.cpu.pc)

end Machine

namespace Checkpoint

/-- The checkpoint as one line, without its memory. -/
def text (c : Checkpoint) : String := "SaveState \x7b cpu: " ++ c.cpu.text ++ ", .. \x7d"

end Checkpoint

end Nmos6502
