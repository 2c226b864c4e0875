/-
  A front panel under observation: commands in order, with the registers after
  each.
-/
import Nmos6502.FrontPanel

namespace Nmos6502.Bench

inductive PanelCommand where
  | load (program : List Byte) (start : Addr)
  | reset
  | step
  | run (count : Nat)
  | irq
  | nmi
  | goto (a : Addr)
  | read (a : Addr)
  | write (a : Addr) (b : Byte)
  | page (n : Byte)
  | traceLine
  | flags
  | program

inductive PanelReply where
  | done
  | stopped (s : Stop)
  | count (n : Nat)
  | flag (b : Bool)
  | byte (b : Byte)
  | bytes (bs : List Byte)
  | text (s : String)
  | flags (p : Status)
  | range (first last : Addr)

def PanelCommand.perform (f : FrontPanel) : PanelCommand → PanelReply × FrontPanel
  | .load bytes start => (.done, f.load bytes start)
  | .reset => (.done, f.reset)
  | .step =>
    match f.step with
    | (none, f) => (.done, f)
    | (some stop, f) => (.stopped stop, f)
  | .run count =>
    match f.run count with
    | (.ok n, f) => (.count n, f)
    | (.error stop, f) => (.stopped stop, f)
  | .irq =>
    let (taken, f) := f.irq
    (.flag taken, f)
  | .nmi => (.done, f.nmi)
  | .goto a => (.done, f.goto a)
  | .read a =>
    let (b, f) := f.read a
    (.byte b, f)
  | .write a b => (.done, f.write a b)
  | .page n => (.bytes (f.page n), f)
  | .traceLine =>
    let (line, f) := f.traceLine
    (.text line, f)
  | .flags => (.flags f.machine.regs.p, f)
  | .program => (.range f.programBase f.programLimit, f)

/-- Carries out commands in order; gives each reply with the registers. -/
def runPanel (f : FrontPanel) (commands : List PanelCommand) : List (PanelReply × Registers) :=
  go f #[] commands
where
  go (f : FrontPanel) (seen : Array (PanelReply × Registers)) :
      List PanelCommand → List (PanelReply × Registers)
    | [] => seen.toList
    | c :: cs =>
      let (reply, f) := c.perform f
      go f (seen.push (reply, f.machine.regs)) cs

end Nmos6502.Bench
