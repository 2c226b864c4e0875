/-
  Events: what a machine reports while it runs.

  A journal takes events in only while somebody listens to it.  Each event has
  a severity and a text with its figures in decimal behind it.
-/
import Nmos6502.Bus.Router
import Nmos6502.Instruction.Text
import Nmos6502.Processor.Step

namespace Nmos6502

inductive Event where
  /-- The machine was reset and will start at `pc`. -/
  | reset (pc : Addr)
  /-- A maskable interrupt was taken; its handler is at `pc`. -/
  | irq (pc : Addr)
  /-- A non-maskable interrupt was taken; its handler is at `pc`. -/
  | nmi (pc : Addr)
  /-- A run ended because somebody asked for it. -/
  | quit (pc : Addr) (cycles : Cycles)
  | illegal (e : IllegalOpcode)
  /-- An instruction is about to be executed. -/
  | trace (i : Instruction) (r : Registers)
  | mapped (base : Addr) (size : Addr)
  | restored (pc : Addr)
  | testBegins
  /-- The self-test with this number is under way. -/
  | testRuns (pc : Addr) (test : Byte)
  /-- The self-test with this number stands in its failure trap. -/
  | testFails (pc : Addr) (test : Byte)
  | testPasses (pc : Addr)
  | testEnds (cycles : Cycles)
deriving DecidableEq

namespace Event

def severity : Event → String
  | .trace .. => "TRACE"
  | .reset .. | .irq .. | .nmi .. | .quit .. | .mapped .. | .restored .. => "DEBUG"
  | .testBegins | .testRuns .. | .testPasses .. | .testEnds .. => "INFO"
  | .illegal .. | .testFails .. => "ERROR"

def message : Event → String
  | .reset pc => "reset pc=" ++ toString pc.toNat
  | .irq pc => "irq pc=" ++ toString pc.toNat
  | .nmi pc => "nmi pc=" ++ toString pc.toNat
  | .quit pc cycles =>
    "quit requested pc=" ++ toString pc.toNat ++ " cycles=" ++ toString cycles.toNat
  | .illegal e => "illegal opcode err=" ++ e.message
  | .trace i r => traceLine i r
  | .mapped base size =>
    "mapped device base=" ++ toString base.toNat ++ " size=" ++ toString size.toNat
  | .restored pc => "restored save state pc=" ++ toString pc.toNat
  | .testBegins => "start"
  | .testRuns pc test => Hex.ofAddr pc ++ " starting test " ++ Hex.ofByte test
  | .testFails pc test => Hex.ofAddr pc ++ " test " ++ Hex.ofByte test ++ " FAIL"
  | .testPasses pc => Hex.ofAddr pc ++ " COMPLETED SUCCESS"
  | .testEnds cycles => "functional test finished cycles=" ++ toString cycles.toNat

def line (e : Event) : String := e.severity ++ " " ++ e.message

end Event

/-- A record of events, oldest first. -/
structure Journal where
  /-- Whether anybody listens; otherwise events are lost. -/
  listening : Bool
  events : Array Event

namespace Journal

def silent : Journal := ⟨false, #[]⟩

def attentive : Journal := ⟨true, #[]⟩

/-- Takes an event in, if anybody listens. -/
def note (j : Journal) (e : Event) : Journal :=
  if j.listening then { j with events := j.events.push e } else j

def cleared (j : Journal) : Journal := { j with events := #[] }

end Journal

end Nmos6502
