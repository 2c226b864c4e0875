/-
  Sessions: a machine under observation.

  A session carries out commands one after the other.  Each gives a reply, the
  registers it leaves, and what happened on the bus and in the journal while it
  was carried out.  A session ends early only when the machine is set to end
  the whole program at an undocumented opcode and meets one.
-/
import Nmos6502.Bench.Script
import Nmos6502.Bench.Store
import Nmos6502.SelfTest
import Nmos6502.Snapshot.Format

namespace Nmos6502.Bench

abbrev TestMachine := Machine Wiring TimeSource

/-- A session: the machine, and what is kept from command to command. -/
structure Session where
  machine : TestMachine
  /-- The hook that watches a self-test. -/
  watcher : SelfTest.Watcher
  snapshots : Array Snapshot
  checkpoints : Array Checkpoint

/-- What is consulted before each instruction of a run. -/
inductive Consulted where
  | nothing
  /-- The session's self-test hook, a limited number of times. -/
  | selfTest (max : Nat)
  /-- A script, a limited number of times. -/
  | script (max : Nat) (s : Script)

/-- What a session can be told to do. -/
inductive Command where
  /-- Up to `n` steps, with the registers after each if asked for. -/
  | step (n : Nat) (each : Bool)
  /-- A run from an address, or from a reset. -/
  | execute (from? : Option Addr) (c : Consulted)
  | reset
  | requestEnd
  | irq
  | nmi
  | call (target : Addr)
  | leave
  | push (b : Byte)
  | pull
  | set (values : List Assignment)
  | get
  /-- Copies bytes into flat memory. -/
  | load (a : Addr) (bytes : List Byte)
  /-- Writes bytes one by one. -/
  | poke (a : Addr) (bytes : List Byte)
  | read (a : Addr) (n : Nat)
  /-- Reads the whole address space, off the record. -/
  | dump
  /-- Puts something on the clock. -/
  | drive (line : Micros → Line)
  | advance (d : Micros)
  | registers
  | traceLine
  | decode (a : Addr) (n : Nat)
  | snapshot
  | restoreRegisters (s : Snapshot)
  | restoreSlot (slot : Nat)
  | restoreBytes (bytes : List Byte)
  | checkpoint
  /-- Restores a checkpoint from its bytes, changed in places and cut or
      extended to a length. -/
  | restore (slot : Nat) (changes : List (Nat × List Byte)) (length : Option Nat)
  | addDevice (base : Addr) (device : Peripheral)
  | interrupting
  | output
  | describe

inductive Reply where
  | done
  /-- How many steps succeeded, the failure, and the registers after each. -/
  | stepped (ran : Nat) (failure : Option IllegalOpcode) (each : List Registers)
  /-- How a run ended; nothing if it did not. -/
  | ran (ending : Option Ending) (quit : Bool)
  | watched (ending : Option Ending) (outcome : SelfTest.Outcome) (quit : Bool)
  | scripted (ending : Option Ending) (calls : Nat) (o : Output) (quit : Bool)
  | flag (b : Bool)
  | byte (b : Byte)
  | bytes (bs : List Byte)
  | time (t : Micros)
  | text (s : String)
  | switches (p : Status) (trace singleStep quit : Bool)
  /-- The nonzero runs of the address space, each with its start. -/
  | runs (rs : List (Nat × List Byte))
  | instructions (is : List Instruction)
  | snapshot (s : Snapshot)
  | checkpoint (c : Checkpoint)
  | formatError (e : FormatError)
  | placed
  | overlap (o : Overlap)
  /-- The command does not fit the kind of address space, or names a slot that
      does not exist. -/
  | unavailable

/-- What is known after a command. -/
structure Observation where
  reply : Reply
  registers : Registers
  traffic : List Access
  events : List Event

/-! ## Texts and views -/

/-- The maximal runs of nonzero bytes, each with the index of its first. -/
def nonzeroRuns (bytes : List Byte) : List (Nat × List Byte) :=
  go #[] 0 none bytes
where
  /-- Goes on at an index, behind the runs in `closed` and with one run perhaps
      open, its bytes in reverse. -/
  go (closed : Array (Nat × List Byte)) (i : Nat) (opened : Option (Nat × List Byte)) :
      List Byte → List (Nat × List Byte)
    | [] => (close closed opened).toList
    | b :: bs =>
      if b = 0 then go (close closed opened) (i + 1) none bs
      else
        match opened with
        | none => go closed (i + 1) (some (i, [b])) bs
        | some (start, run) => go closed (i + 1) (some (start, b :: run)) bs
  close (closed : Array (Nat × List Byte)) (opened : Option (Nat × List Byte)) :
      Array (Nat × List Byte) :=
    match opened with
    | none => closed
    | some (start, run) => closed.push (start, run.reverse)

/-- Reads `n` bytes at successive addresses, after those in `bytes`. -/
def readBlock {M : Type} [Bus M] (bus : M) (a : Addr) (bytes : Array Byte) :
    Nat → Array Byte × M
  | 0 => (bytes, bus)
  | n + 1 =>
    let (b, bus) := Bus.read bus a
    readBlock bus (a + 1) (bytes.push b) n

/-- Overwrites a stretch of bytes; what would lie behind the end is dropped. -/
def overwrite (bytes : List Byte) (start : Nat) (new : List Byte) : List Byte :=
  bytes.take start ++ new.take (bytes.length - start) ++ bytes.drop (start + new.length)

/-- Cuts bytes to a length or extends them with `$CC`. -/
def resize (bytes : List Byte) (length : Nat) : List Byte :=
  bytes.take length ++ List.replicate (length - bytes.length) 0xCC

def machineText (r : Registers) : String :=
  "Cpu \x7b a: " ++ toString r.a.toNat ++ ", x: " ++ toString r.x.toNat ++
    ", y: " ++ toString r.y.toNat ++ ", pc: " ++ toString r.pc.toNat ++
    ", sp: " ++ toString r.s.toNat ++ ", status: " ++ toString r.p.pack.toNat ++
    ", cycles: " ++ toString r.cycles.toNat ++ ", memory: FlatMemory \x7b .. \x7d, .. \x7d"

namespace Session

/-- A session with a machine after power-on. -/
def start (wiring : Wiring) (policy : IllegalPolicy) (trace singleStep : Bool)
    (journal : Journal) : Session where
  machine :=
    { Machine.powerOn wiring TimeSource.idle with
      trace, singleStep, onIllegal := policy, journal }
  watcher := .fresh
  snapshots := #[]
  checkpoints := #[]

def onMachine (s : Session) (f : TestMachine → TestMachine) : Session :=
  { s with machine := f s.machine }

def onCore (s : Session) (f : Processor Wiring → Processor Wiring) : Session :=
  s.onMachine (·.onCore f)

def store (s : Session) : Store := s.machine.bus.store

/-- Puts another address space in, off the record. -/
def putStore (s : Session) (store : Store) : Session :=
  s.onCore fun p => { p with bus := p.bus.putStore store }

/-! ## Commands -/

/-- What a command comes to: an opcode that ends the whole program, or a reply;
    and the session afterwards. -/
abbrev Result := Except IllegalOpcode Reply × Session

/-- Up to `n` steps; the registers after each are shown if that is asked for
    and there may be more than one. -/
def step (s : Session) (n : Nat) (each : Bool) : Result :=
  let account : Nat × Array Registers → Registers → Nat × Array Registers :=
    fun (ran, shown) r => (ran + 1, if each && 1 < n then shown.push r else shown)
  let ((ran, shown), stop, machine) := s.machine.steps account (0, #[]) n
  let s := { s with machine }
  match stop with
  | none => (.ok (.stepped ran none shown.toList), s)
  | some (.illegal e) => (.ok (.stepped ran (some e) shown.toList), s)
  | some (.exit e) => (.error e, s)

/-- The reply to a run, unless it ended the whole program. -/
def ended (s : Session) (ending : Option Ending) (reply : Reply) : Result :=
  match ending with
  | some (.stopped (.exit e)) => (.error e, s)
  | _ => (.ok reply, s)

/-- Starts a run from an address or from a reset. -/
def launch {H : Type} (from? : Option Addr) (hook : Hook H Wiring TimeSource)
    (fuel : Nat) (h : H) (m : TestMachine) : Option Ending × H × TestMachine :=
  match from? with
  | some a => m.runFrom hook fuel h a
  | none => m.resetRun hook fuel h

/-- The most turns of a run that nothing limits. -/
def unlimited : Nat := 1 <<< 62

/-- A run.  Hooks that are offered the machine at most `max` times end a run
    within `max + 2` turns. -/
def execute (s : Session) (from? : Option Addr) (fuel : Nat) : Consulted → Result
  | .nothing =>
    let (ending, _, machine) := launch from? Hook.none fuel () s.machine
    { s with machine }.ended ending (.ran ending machine.quit)
  | .selfTest max =>
    let hook := Hook.limit max fun _ => SelfTest.Watcher.watch
    let (ending, (_, watcher), machine) := launch from? hook (max + 2) (0, s.watcher) s.machine
    { s with machine, watcher }.ended ending (.watched ending watcher.outcome machine.quit)
  | .script max script =>
    let hook := Hook.limit max script.hook
    let (ending, (calls, o), machine) := launch from? hook (max + 2) (0, .empty) s.machine
    { s with machine }.ended ending (.scripted ending calls o machine.quit)

def dump (s : Session) : Result :=
  let (bytes, store) := readBlock s.store 0 #[] 65536
  (.ok (.runs (nonzeroRuns bytes.toList)), s.putStore store)

def addDevice (s : Session) (base : Addr) (device : Peripheral) : Result :=
  match s.store with
  | .fitted plane =>
    let (outcome, plane) := plane.place base device
    let s := s.putStore (.fitted plane)
    match outcome with
    | .ok _ => (.ok .placed, s.onMachine (·.note (.mapped base (Device.size device))))
    | .error o => (.ok (.overlap o), s)
  | _ => (.ok .unavailable, s)

/-- Restores a checkpoint into flat memory. -/
def restoreCheckpoint (s : Session) (c : Checkpoint) : Session :=
  (s.putStore (.flat c.memory)).onMachine fun m =>
    (m.restoreRegisters c.cpu).note (.restored c.cpu.pc)

/-- Restores a checkpoint from bytes made of those of a slot. -/
def restore (s : Session) (slot : Nat) (changes : List (Nat × List Byte))
    (length : Option Nat) : Result :=
  match s.checkpoints[slot]?, s.store with
  | some c, .flat _ =>
    let bytes := changes.foldl (fun bytes (start, new) => overwrite bytes start new) c.encode
    let bytes := match length with
      | some n => resize bytes n
      | none => bytes
    match Checkpoint.decode bytes with
    | .ok c => (.ok .done, s.restoreCheckpoint c)
    | .error e => (.ok (.formatError e), s)
  | _, _ => (.ok .unavailable, s)

def perform (s : Session) : Command → Result
  | .step n each => s.step n each
  | .execute from? c => s.execute from? unlimited c
  | .reset => (.ok .done, s.onMachine .reset)
  | .requestEnd => (.ok .done, s.onMachine .requestEnd)
  | .irq =>
    let (taken, machine) := s.machine.irq
    (.ok (.flag taken), { s with machine })
  | .nmi => (.ok .done, s.onMachine .nmi)
  | .call target => (.ok (.flag true), s.onCore (·.call target))
  | .leave => (.ok (.flag true), s.onCore .leave)
  | .push b => (.ok .done, s.onCore (·.push b))
  | .pull =>
    let (b, machine) := s.machine.askCore (·.pull)
    (.ok (.byte b), { s with machine })
  | .set values => (.ok .done, s.onMachine (assign · values))
  | .get =>
    let m := s.machine
    (.ok (.switches m.regs.p m.trace m.singleStep m.quit), s)
  | .load a bytes =>
    match s.store with
    | .flat m => (.ok .done, s.putStore (.flat (m.load a bytes)))
    | _ => (.ok .unavailable, s)
  | .poke a bytes =>
    (.ok .done, s.onCore fun p => { p with bus := Bus.writeBytes p.bus a bytes })
  | .read a n =>
    let (bs, machine) := s.machine.askCore fun p =>
      let (bs, bus) := readBlock p.bus a #[] n
      (bs, { p with bus })
    (.ok (.bytes bs.toList), { s with machine })
  | .dump => s.dump
  | .drive line =>
    (.ok .done, s.onMachine fun m => { m with source.line := line m.source.now })
  | .advance d =>
    let s := s.onMachine fun m => { m with source := m.source.advance d }
    (.ok (.time s.machine.source.now), s)
  | .registers => (.ok (.text s.machine.regs.text), s)
  | .traceLine =>
    let (i, machine) := s.machine.nextInstruction
    (.ok (.text (Nmos6502.traceLine i machine.regs)), { s with machine })
  | .decode a n =>
    let (is, machine) := s.machine.askCore fun p =>
      let (is, bus) := Instruction.fetchMany p.bus a n
      (is, { p with bus })
    (.ok (.instructions is), { s with machine })
  | .snapshot =>
    let snapshot := s.machine.snapshot
    (.ok (.snapshot snapshot), { s with snapshots := s.snapshots.push snapshot })
  | .restoreRegisters snapshot => (.ok .done, s.onMachine (·.restoreRegisters snapshot))
  | .restoreSlot slot =>
    match s.snapshots[slot]? with
    | some snapshot => (.ok .done, s.onMachine (·.restoreRegisters snapshot))
    | none => (.ok .unavailable, s)
  | .restoreBytes bytes =>
    match Snapshot.decode bytes with
    | .ok snapshot => (.ok .done, s.onMachine (·.restoreRegisters snapshot))
    | .error e => (.ok (.formatError e), s)
  | .checkpoint =>
    match s.store with
    | .flat memory =>
      let c : Checkpoint := ⟨s.machine.snapshot, memory⟩
      (.ok (.checkpoint c), { s with checkpoints := s.checkpoints.push c })
    | _ => (.ok .unavailable, s)
  | .restore slot changes length => s.restore slot changes length
  | .addDevice base device => s.addDevice base device
  | .interrupting => (.ok (.flag (Bus.interrupting s.machine.bus)), s)
  | .output =>
    match s.store with
    | .fitted plane => (.ok (.bytes plane.output.toList), s)
    | _ => (.ok (.bytes []), s)
  | .describe => (.ok (.text (machineText s.machine.regs)), s)

/-- The session with empty records of bus and journal. -/
def cleared (s : Session) : Session :=
  s.onMachine fun m =>
    { m.onCore fun p => { p with bus := p.bus.cleared } with journal := m.journal.cleared }

/-- What is known once a command has been answered. -/
def observe (s : Session) (reply : Reply) : Observation where
  reply
  registers := s.machine.regs
  traffic := s.machine.bus.traffic
  events := s.machine.journal.events.toList

/-- Carries out commands in order, up to one that ends the whole program; gives
    what is known after each, and that opcode. -/
def run (s : Session) (commands : List Command) : List Observation × Option IllegalOpcode :=
  go s #[] commands
where
  go (s : Session) (seen : Array Observation) :
      List Command → List Observation × Option IllegalOpcode
    | [] => (seen.toList, none)
    | c :: cs =>
      match s.cleared.perform c with
      | (.ok reply, s) => go s (seen.push (s.observe reply)) cs
      | (.error e, _) => (seen.toList, some e)

end Session

end Nmos6502.Bench
