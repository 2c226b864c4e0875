/-
  Interrupts: how the processor enters a handler and comes back.

  Hardware requests and the software interrupt push the same three bytes, the
  program counter and the flags; the pushed flags tell them apart, since B is
  clear in the one and set in the other.
-/
import Nmos6502.Processor

namespace Nmos6502

/-- Where the address of the non-maskable handler is kept. -/
def nmiVector : Addr := 0xFFFA

/-- Where the address of the first instruction is kept. -/
def resetVector : Addr := 0xFFFC

/-- Where the address of the maskable handler is kept. -/
def irqVector : Addr := 0xFFFE

namespace Processor

variable {M : Type} [Bus M]

/-- Saves a return address and the flags given, holds further requests off and
    enters a handler. -/
def enterHandler (p : Processor M) (back : Addr) (pushed : Status) (vector : Addr) :
    Processor M :=
  (((p.pushAddr back).push pushed.pack).update
    fun r => { r with p := { r.p with i := true } }).gotoVector vector

/-- A hardware interrupt.  B is clear in the pushed flags and keeps its value
    in the register. -/
def interrupt (p : Processor M) (vector : Addr) : Processor M :=
  (p.enterHandler p.regs.pc { p.regs.p with b := false } vector).spend 7

/-- The software interrupt.  The byte behind its opcode is skipped on return,
    and B is set both in the pushed flags and in the register. -/
def softwareInterrupt (p : Processor M) : Processor M :=
  let p := p.update fun r => { r with p := { r.p with b := true } }
  p.enterHandler (p.regs.pc + 1) p.regs.p irqVector

/-- Leaves a handler: every flag and the program counter come from the stack. -/
def leaveHandler (p : Processor M) : Processor M :=
  let (flags, p) := p.pull
  let (target, p) := p.pullAddr
  (p.update fun r => { r with p := .unpack flags }).goto target

/-- Continues at the address of the first instruction; nothing else changes. -/
def reset (p : Processor M) : Processor M := p.gotoVector resetVector

end Processor

end Nmos6502
