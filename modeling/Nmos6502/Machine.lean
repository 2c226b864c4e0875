/-
  The machine: a processor with the switches, the source of interrupts and the
  journal around it.

  The operations of the processor are passed on; those that are worth a report
  enter it in the journal.
-/
import Nmos6502.Event
import Nmos6502.Timer

namespace Nmos6502

/-- What becomes of a machine that meets an undocumented opcode. -/
inductive IllegalPolicy where
  /-- The step fails and the machine stays as it is. -/
  | report
  /-- The whole program ends. -/
  | exit
deriving DecidableEq

/-- A machine on a bus of type `M` with a source of interrupts of type `S`. -/
structure Machine (M S : Type) where
  core : Processor M
  source : S
  /-- Reports each instruction before it is executed. -/
  trace : Bool
  /-- Reports each instruction as `trace` does. -/
  singleStep : Bool
  /-- Ends a run before its next instruction. -/
  quit : Bool
  onIllegal : IllegalPolicy
  journal : Journal

/-- Why a machine cannot go on. -/
inductive Stop where
  /-- An undocumented opcode, under the policy of reporting it. -/
  | illegal (e : IllegalOpcode)
  /-- An undocumented opcode, under the policy of ending the program. -/
  | exit (e : IllegalOpcode)
deriving DecidableEq

/-- The status with which the whole program ends after `Stop.exit`. -/
def exitStatus : Nat := 1

namespace Machine

variable {M S : Type}

/-- A machine after power-on, with all switches off. -/
def powerOn (bus : M) (source : S) : Machine M S where
  core := .powerOn bus
  source
  trace := false
  singleStep := false
  quit := false
  onIllegal := .report
  journal := .silent

abbrev regs (m : Machine M S) : Registers := m.core.regs

abbrev bus (m : Machine M S) : M := m.core.bus

def onCore (m : Machine M S) (f : Processor M → Processor M) : Machine M S :=
  { m with core := f m.core }

/-- Changes the processor and keeps what the change answers. -/
def askCore {α : Type} (m : Machine M S) (f : Processor M → α × Processor M) :
    α × Machine M S :=
  let (answer, core) := f m.core
  (answer, { m with core })

def update (m : Machine M S) (f : Registers → Registers) : Machine M S := m.onCore (·.update f)

def note (m : Machine M S) (e : Event) : Machine M S := { m with journal := m.journal.note e }

def requestEnd (m : Machine M S) : Machine M S := { m with quit := true }

variable [Bus M]

def read (m : Machine M S) (a : Addr) : Byte × Machine M S := m.askCore (·.read a)

def write (m : Machine M S) (a : Addr) (b : Byte) : Machine M S := m.onCore (·.write a b)

/-- Continues at the address of the first instruction. -/
def reset (m : Machine M S) : Machine M S :=
  let m := m.onCore .reset
  m.note (.reset m.regs.pc)

/-- Requests a maskable interrupt, which is taken unless such are disabled;
    tells whether it was. -/
def irq (m : Machine M S) : Bool × Machine M S :=
  if m.regs.p.i then (false, m)
  else
    let m := m.onCore (·.interrupt irqVector)
    (true, m.note (.irq m.regs.pc))

def nmi (m : Machine M S) : Machine M S :=
  let m := m.onCore (·.interrupt nmiVector)
  m.note (.nmi m.regs.pc)

/-- Executes one instruction.  No interrupt is looked for. -/
def step (m : Machine M S) : Option Stop × Machine M S :=
  match m.askCore (·.step) with
  | (.ok _, m) => (none, m)
  | (.error e, m) =>
    let m := m.note (.illegal e)
    match m.onIllegal with
    | .report => (some (.illegal e), m)
    | .exit => (some (.exit e), m)

/-- Decodes the instruction at the program counter, reading its bytes. -/
def nextInstruction (m : Machine M S) : Instruction × Machine M S :=
  m.askCore fun p =>
    let (i, bus) := Instruction.fetch p.bus p.regs.pc
    (i, { p with bus })

/-- Up to `n` steps, ending at the first that fails.  Each step that succeeds
    is added to an account, to which the machine after it is shown. -/
def steps {α : Type} (account : α → Registers → α) (sum : α) (m : Machine M S) :
    Nat → α × Option Stop × Machine M S
  | 0 => (sum, none, m)
  | n + 1 =>
    match m.step with
    | (some stop, m) => (sum, some stop, m)
    | (none, m) => steps account (account sum m.regs) m n

end Machine

end Nmos6502
