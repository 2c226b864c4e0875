/-
  What the parts of the processor do to registers and bus.

  The lemmas here take the two sides apart, registers by registers and bus by
  bus, so that a proof about a step never opens the operation itself.
-/
import Nmos6502.Processor.Interrupt

namespace Nmos6502

/-! ## Addresses -/

/-- A cell of page zero has the number of the byte that names it. -/
theorem zeroPage_eq (b : Byte) : zeroPage b = b.setWidth 16 := by
  have hb := b.isLt
  apply BitVec.eq_of_toNat_eq
  rw [zeroPage, toNat_word, BitVec.toNat_setWidth]
  show b.toNat + 256 * 0 = b.toNat % 2 ^ 16
  omega

namespace Bus

variable {M : Type} [Bus M]

/-! ## Words on the bus -/

@[simp] theorem wordAt_fst (bus : M) (a : Addr) :
    (wordAt bus a).1 = word (read bus a).1 (read (read bus a).2 (a + 1)).1 := rfl

@[simp] theorem zeroPageWordAt_fst (bus : M) (z : Byte) :
    (zeroPageWordAt bus z).1 =
      word (read bus (zeroPage z)).1 (read (read bus (zeroPage z)).2 (zeroPage (z + 1))).1 := rfl

@[simp] theorem jumpTargetAt_fst (bus : M) (ptr : Addr) :
    (jumpTargetAt bus ptr).1 =
      word (read bus ptr).1 (read (read bus ptr).2 (pointerHigh ptr)).1 := rfl

/-! ## The frame of an interrupt -/

/-- The bus with the frame of an interrupt on the stack: the program counter, and
    under it the flags with B clear. -/
def framed (bus : M) (r : Registers) : M :=
  write (write (write bus (stackCell r.s) (highByte r.pc)) (stackCell (r.s - 1)) (lowByte r.pc))
    (stackCell (r.s - 2)) { r.p with b := false }.pack

end Bus

namespace Processor

variable {M : Type}

/-! ## Registers only -/

@[simp] theorem regs_update (p : Processor M) (f : Registers → Registers) :
    (p.update f).regs = f p.regs := rfl

@[simp] theorem regs_goto (p : Processor M) (a : Addr) :
    (p.goto a).regs = { p.regs with pc := a } := rfl

@[simp] theorem bus_spend (p : Processor M) (n : Nat) : (p.spend n).bus = p.bus := rfl

/-- Moving on wraps at the top of the address space. -/
@[simp] theorem regs_advance (p : Processor M) (n : Nat) :
    (p.advance n).regs = { p.regs with pc := p.regs.pc + BitVec.ofNat 16 n } := by
  have hpc : BitVec.ofNat 16 (p.regs.pc.toNat + n) = p.regs.pc + BitVec.ofNat 16 n := by
    rw [BitVec.ofNat_add, BitVec.ofNat_toNat, BitVec.setWidth_eq]
  rw [advance, regs_goto, hpc]

@[simp] theorem regs_spend (p : Processor M) (n : Nat) :
    (p.spend n).regs = { p.regs with cycles := p.regs.cycles + BitVec.ofNat 64 n } := by
  have hc : BitVec.ofNat 64 (p.regs.cycles.toNat + n) = p.regs.cycles + BitVec.ofNat 64 n := by
    rw [BitVec.ofNat_add, BitVec.ofNat_toNat, BitVec.setWidth_eq]
  rw [spend, regs_update, hc]

variable [Bus M]

/-! ## Memory -/

@[simp] theorem read_fst (p : Processor M) (a : Addr) : (p.read a).1 = (Bus.read p.bus a).1 := rfl

@[simp] theorem regs_gotoVector (p : Processor M) (v : Addr) :
    (p.gotoVector v).regs = { p.regs with pc := (Bus.wordAt p.bus v).1 } := rfl

/-! ## Stack -/

@[simp] theorem bus_push (p : Processor M) (b : Byte) :
    (p.push b).bus = Bus.write p.bus (stackCell p.regs.s) b := rfl

theorem regs_push (p : Processor M) (b : Byte) :
    (p.push b).regs = { p.regs with s := p.regs.s - 1 } := rfl

theorem regs_pushAddr (p : Processor M) (w : Addr) :
    (p.pushAddr w).regs = { p.regs with s := p.regs.s - 1 - 1 } := by
  rw [pushAddr, regs_push, regs_push]

@[simp] theorem regs_pull (p : Processor M) :
    p.pull.2.regs = { p.regs with s := p.regs.s + 1 } := rfl

theorem regs_pullAddr (p : Processor M) :
    p.pullAddr.2.regs = { p.regs with s := p.regs.s + 1 + 1 } := by
  show p.pull.2.pull.2.regs = _
  rw [regs_pull, regs_pull]

@[simp] theorem pullAddr_fst (p : Processor M) :
    p.pullAddr.1 = word p.pull.1 p.pull.2.pull.1 := rfl

@[simp] theorem bus_enterHandler (p : Processor M) (back : Addr) (pushed : Status) (v : Addr) :
    (p.enterHandler back pushed v).bus =
      (Bus.wordAt ((p.pushAddr back).push pushed.pack).bus v).2 := rfl

/-- The vector is read behind the frame. -/
theorem bus_interrupt (p : Processor M) (v : Addr) :
    (p.interrupt v).bus = (Bus.wordAt (Bus.framed p.bus p.regs) v).2 := by
  have hs : p.regs.s - 2 = p.regs.s - 1 - 1 := by bv_omega
  rw [interrupt, bus_spend, bus_enterHandler, Bus.framed, hs]
  rfl

/-- A hardware interrupt holds further requests off and goes to the handler, whose
    address it reads when the frame has been written. -/
theorem regs_interrupt (p : Processor M) (v : Addr) :
    (p.interrupt v).regs = { p.regs with
      s := p.regs.s - 3
      pc := (Bus.wordAt (Bus.framed p.bus p.regs) v).1
      p := { p.regs.p with i := true }
      cycles := p.regs.cycles + 7 } := by
  have hs₂ : p.regs.s - 2 = p.regs.s - 1 - 1 := by bv_omega
  have hs₃ : p.regs.s - 3 = p.regs.s - 1 - 1 - 1 := by bv_omega
  rw [interrupt, regs_spend, Bus.framed, hs₂, hs₃]
  rfl

theorem regs_softwareInterrupt (p : Processor M) :
    p.softwareInterrupt.regs = { p.regs with
      s := p.regs.s - 1 - 1 - 1
      pc := p.softwareInterrupt.regs.pc
      p := { p.regs.p with b := true, i := true } } := by
  unfold softwareInterrupt enterHandler
  rw [regs_gotoVector, regs_update, regs_push, regs_pushAddr, regs_update]

theorem leave_eq (p : Processor M) : p.leave = p.pullAddr.2.goto (p.pullAddr.1 + 1) := rfl

theorem leaveHandler_eq (p : Processor M) :
    p.leaveHandler = (p.pull.2.pullAddr.2.update fun r =>
      { r with p := .unpack p.pull.1 }).goto p.pull.2.pullAddr.1 := rfl

theorem regs_leaveHandler (p : Processor M) :
    p.leaveHandler.regs = { p.regs with
      s := p.regs.s + 1 + 1 + 1
      pc := p.leaveHandler.regs.pc
      p := .unpack p.pull.1 } := by
  rw [leaveHandler_eq, regs_goto, regs_update, regs_pullAddr, regs_pull]

end Processor

end Nmos6502
