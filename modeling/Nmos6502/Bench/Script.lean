/-
  Scripted hooks.

  A script is a list of rules; each offer of the machine carries out the
  actions common to all offers and then those of the first rule whose
  conditions hold.  Actions may note what they find, and they may put out the
  accumulator.
-/
import Nmos6502.Machine.Run

namespace Nmos6502.Bench

/-- A value for one part of the machine. -/
inductive Assignment where
  | a (v : Byte)
  | x (v : Byte)
  | y (v : Byte)
  | s (v : Byte)
  | pc (v : Addr)
  | status (v : Byte)
  | cycles (v : Cycles)
  | n (v : Bool)
  | v (v : Bool)
  | b (v : Bool)
  | d (v : Bool)
  | i (v : Bool)
  | z (v : Bool)
  | c (v : Bool)
  | quit (v : Bool)
  | trace (v : Bool)
  | singleStep (v : Bool)

inductive Action where
  | quit
  | leave
  | call (target : Addr)
  /-- Puts the accumulator out. -/
  | out
  | skip (n : Nat)
  | set (values : List Assignment)
  | poke (a : Addr) (b : Byte)
  | push (b : Byte)
  | pull
  | irq
  | nmi
  | advance (d : Micros)
  | step
  | note

/-- What an action has found. -/
inductive Note where
  | flag (b : Bool)
  | byte (b : Byte)
  | stepped (e : Option IllegalOpcode)
  | registers (r : Registers)

/-- A test of the machine. -/
inductive Condition where
  | a (v : Byte)
  | x (v : Byte)
  | y (v : Byte)
  | pc (v : Addr)
  /-- The number of the offer, counted from one. -/
  | call (n : Nat)
  /-- The content of a cell, which is read. -/
  | cell (a : Addr) (v : Byte)

/-- Actions for when all conditions hold, tested in order up to the first that
    does not. -/
structure Rule where
  conditions : List Condition
  actions : List Action
  /-- Whether the hook answers that it has done everything. -/
  handled : Bool

/-- A scripted hook. -/
structure Script where
  /-- Actions for every offer. -/
  every : List Action
  rules : List Rule

/-- What a script has put out and noted. -/
structure Output where
  out : Array Byte
  notes : Array Note

namespace Output

def empty : Output := ⟨#[], #[]⟩

def note (o : Output) (n : Note) : Output := { o with notes := o.notes.push n }

end Output

variable {M S : Type} [Bus M]

/-- Puts a value in its place. -/
def Assignment.apply (m : Machine M S) : Assignment → Machine M S
  | .a w => m.update ({ · with a := w })
  | .x w => m.update ({ · with x := w })
  | .y w => m.update ({ · with y := w })
  | .s w => m.update ({ · with s := w })
  | .pc w => m.update ({ · with pc := w })
  | .status w => m.update ({ · with p := .unpack w })
  | .cycles w => m.update ({ · with cycles := w })
  | .n w => m.onCore (·.flag ({ · with n := w }))
  | .v w => m.onCore (·.flag ({ · with v := w }))
  | .b w => m.onCore (·.flag ({ · with b := w }))
  | .d w => m.onCore (·.flag ({ · with d := w }))
  | .i w => m.onCore (·.flag ({ · with i := w }))
  | .z w => m.onCore (·.flag ({ · with z := w }))
  | .c w => m.onCore (·.flag ({ · with c := w }))
  | .quit w => { m with quit := w }
  | .trace w => { m with trace := w }
  | .singleStep w => { m with singleStep := w }

/-- Puts values in their places, in order. -/
def assign (m : Machine M S) (values : List Assignment) : Machine M S :=
  values.foldl Assignment.apply m

/-- Tests a condition at the given offer. -/
def Condition.test (call : Nat) (m : Machine M S) : Condition → Bool × Machine M S
  | .a w => (m.regs.a == w, m)
  | .x w => (m.regs.x == w, m)
  | .y w => (m.regs.y == w, m)
  | .pc w => (m.regs.pc == w, m)
  | .call k => (call == k, m)
  | .cell place w =>
    let (b, m) := m.read place
    (b == w, m)

/-- Tests conditions in order, up to the first that does not hold. -/
def testAll (call : Nat) (m : Machine M S) : List Condition → Bool × Machine M S
  | [] => (true, m)
  | c :: cs =>
    match c.test call m with
    | (true, m) => testAll call m cs
    | (false, m) => (false, m)

/-- Carries out an action.  The first component is an opcode that ends the whole
    program. -/
def Action.perform (o : Output) (m : Machine M TimeSource) :
    Action → Option IllegalOpcode × Output × Machine M TimeSource
  | .quit => (none, o, m.requestEnd)
  | .leave => (none, o.note (.flag true), m.onCore (·.leave))
  | .call target => (none, o.note (.flag true), m.onCore (·.call target))
  | .out => (none, { o with out := o.out.push m.regs.a }, m)
  | .skip n => (none, o, m.onCore (·.advance n))
  | .set values => (none, o, assign m values)
  | .poke a b => (none, o, m.write a b)
  | .push b => (none, o, m.onCore (·.push b))
  | .pull =>
    let (b, m) := m.askCore (·.pull)
    (none, o.note (.byte b), m)
  | .irq =>
    let (taken, m) := m.irq
    (none, o.note (.flag taken), m)
  | .nmi => (none, o, m.nmi)
  | .advance d => (none, o, { m with source := m.source.advance d })
  | .step =>
    match m.step with
    | (none, m) => (none, o.note (.stepped none), m)
    | (some (.illegal e), m) => (none, o.note (.stepped (some e)), m)
    | (some (.exit e), m) => (some e, o, m)
  | .note => (none, o.note (.registers m.regs), m)

/-- Carries out actions in order, up to one that ends the whole program. -/
def performAll (o : Output) (m : Machine M TimeSource) :
    List Action → Option IllegalOpcode × Output × Machine M TimeSource
  | [] => (none, o, m)
  | a :: as =>
    match a.perform o m with
    | (none, o, m) => performAll o m as
    | (some e, o, m) => (some e, o, m)

/-- Carries out actions and answers as told. -/
def answer (verdict : Verdict) (o : Output) (m : Machine M TimeSource) (actions : List Action) :
    Verdict × Output × Machine M TimeSource :=
  match performAll o m actions with
  | (none, o, m) => (verdict, o, m)
  | (some e, o, m) => (.exit e, o, m)

/-- Applies the first rule whose conditions hold, if there is one. -/
def applyRules (call : Nat) (o : Output) (m : Machine M TimeSource) :
    List Rule → Verdict × Output × Machine M TimeSource
  | [] => (.declined, o, m)
  | r :: rs =>
    match testAll call m r.conditions with
    | (true, m) => answer (if r.handled then .handled else .declined) o m r.actions
    | (false, m) => applyRules call o m rs

/-- The hook that follows a script; it is told the number of the offer. -/
def Script.hook (script : Script) (call : Nat) : Hook Output M TimeSource := fun o m =>
  match performAll o m script.every with
  | (none, o, m) => applyRules call o m script.rules
  | (some e, o, m) => (.exit e, o, m)

end Nmos6502.Bench
