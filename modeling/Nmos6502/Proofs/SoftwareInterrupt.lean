/-
  The software interrupt is a request of the program's own.

  It goes another way into the handler than a maskable request does, but arrives
  where a request would that came with the program two bytes further on.  The
  two differ in B alone: a request leaves it as it is and pushes it clear, the
  instruction sets it and pushes it set, which is how a handler can tell them
  apart.  The return gives back the pushed flags, so it leaves B set after the
  instruction.
-/
import Nmos6502.Proofs.BreakFlag
import Nmos6502.Proofs.Handler

namespace Nmos6502

/-! ## The byte of the flags -/

namespace Status

/-- Setting B changes no other bit. -/
theorem pack_set_b (p : Status) :
    { p with b := true }.pack = { p with b := false }.pack ||| 0x10 := by
  obtain ⟨n, v, b, d, i, z, c⟩ := p
  show (Status.mk n v true d i z c).pack = (Status.mk n v false d i z c).pack ||| 0x10
  revert n v d i z c
  decide

end Status

namespace Registers

/-- The registers of a program that goes on behind the next two bytes. -/
def skipping (r : Registers) : Registers := { r with pc := r.pc + 2 }

/-- The cell of the frame that takes the flags. -/
def flagsCell (r : Registers) : Addr := stackCell (r.s - 2)

end Registers

/-! ## The frame of the instruction -/

namespace Flat

theorem set_set (m : Flat) (a : Addr) (x y : Byte) : (m.set a x).set a y = m.set a y := by
  apply ext_get
  intro a'
  rw [get_set, get_set, get_set]
  split <;> rfl

/-- Memory with the frame of the software interrupt in it. -/
def marked (m : Flat) (r : Registers) : Flat :=
  (m.framed r.skipping).set r.flagsCell { r.p with b := true }.pack

variable (m : Flat) (r : Registers)

theorem get_marked_of_not_mem {a : Addr} (h : a ∉ r.frame) : (m.marked r).get a = m.get a := by
  have hne : r.flagsCell ≠ a := by
    rintro rfl
    exact h (by simp [Registers.frame, Registers.flagsCell])
  rw [marked, get_set_of_ne _ _ hne]
  exact get_framed_of_not_mem m r.skipping h

theorem get_marked_flags : (m.marked r).get r.flagsCell = { r.p with b := true }.pack :=
  get_set_self _ _ _

theorem get_marked_low : (m.marked r).get (stackCell (r.s - 1)) = lowByte (r.pc + 2) := by
  have hne : r.flagsCell ≠ stackCell (r.s - 1) := by
    rw [Registers.flagsCell, Ne, stackCell_inj]
    bv_omega
  rw [marked, get_set_of_ne _ _ hne]
  exact get_framed_low m r.skipping

theorem get_marked_high : (m.marked r).get (stackCell r.s) = highByte (r.pc + 2) := by
  have hne : r.flagsCell ≠ stackCell r.s := by
    rw [Registers.flagsCell, Ne, stackCell_inj]
    bv_omega
  rw [marked, get_set_of_ne _ _ hne]
  exact get_framed_high m r.skipping

end Flat

/-! ## Entering by the instruction -/

namespace Processor

variable {p : Processor Flat}

theorem bus_softwareInterrupt_flat (p : Processor Flat) :
    (p.advance 1).softwareInterrupt.bus = p.bus.marked p.regs := by
  have hs : p.regs.s - 2 = p.regs.s - 1 - 1 := by bv_omega
  have hback : (p.advance 1).regs.pc + 1 = p.regs.pc + 2 := by
    rw [regs_advance]
    bv_omega
  rw [Flat.marked, Flat.framed, Registers.flagsCell, Registers.skipping, Flat.set_set, hs, ← hback]
  rfl

/-- The vector is read when the frame has been written, which does not reach it. -/
theorem pc_softwareInterrupt_flat (p : Processor Flat) :
    (p.advance 1).softwareInterrupt.regs.pc =
      word (p.bus.get irqVector) (p.bus.get (irqVector + 1)) := by
  let entered := (p.advance 1).softwareInterrupt
  have hpc : entered.regs.pc =
      word (entered.bus.get irqVector) (entered.bus.get (irqVector + 1)) := rfl
  rw [show entered.bus = _ from bus_softwareInterrupt_flat p,
    Flat.get_marked_of_not_mem _ _ (p.regs.not_mem_frame (by decide)),
    Flat.get_marked_of_not_mem _ _ (p.regs.not_mem_frame (by decide))] at hpc
  exact hpc

/-- The instruction is documented, and its seven cycles are those of a request. -/
theorem step_of_brk (h : p.bus.get p.regs.pc = 0x00) :
    p.nextEntry.legal ∧
      p.step.2.regs =
        { p.regs with
          s := p.regs.s - 3
          pc := word (p.bus.get irqVector) (p.bus.get (irqVector + 1))
          p := { p.regs.p with b := true, i := true }
          cycles := p.regs.cycles + 7 } ∧
      p.step.2.bus = p.bus.marked p.regs := by
  have hentry : p.nextEntry = ⟨.brk, .implied, 7⟩ := congrArg opcodeEntry h
  have hlegal : p.nextEntry.legal := by
    rw [hentry]
    rfl
  have hpoised : p.poised = p.advance 1 := by
    rw [poised, hentry]
    rfl
  have hperform : p.poised.perform .implied p.operandPlace .brk =
      (p.advance 1).softwareInterrupt := by
    rw [hpoised]
    rfl
  have hs : p.regs.s - 3 = p.regs.s - 1 - 1 - 1 := by bv_omega
  refine ⟨hlegal, ?_, ?_⟩
  · rw [regs_step_of_legal hlegal, hentry, hperform, regs_softwareInterrupt,
      pc_softwareInterrupt_flat, hs]
    rfl
  · rw [step_of_legal hlegal, hentry, hperform, bus_spend, bus_softwareInterrupt_flat]

end Processor

/-! ## The instruction and the request -/

namespace Machine

variable {S : Type}

theorem step_of_brk {m : Machine Flat S} (h : m.bus.get m.regs.pc = 0x00) :
    m.step.1 = none ∧
      m.step.2.regs =
        { m.regs with
          s := m.regs.s - 3
          pc := word (m.bus.get irqVector) (m.bus.get (irqVector + 1))
          p := { m.regs.p with b := true, i := true }
          cycles := m.regs.cycles + 7 } ∧
      m.step.2.bus = m.bus.marked m.regs := by
  obtain ⟨hlegal, hregs, hbus⟩ := Processor.step_of_brk h
  rw [step_of_legal hlegal]
  exact ⟨rfl, hregs, hbus⟩

/-- How `soft`, which the software interrupt has made of `m`, compares with
    `hard`, which a request has made of `m` two bytes further on. -/
structure Mirrors (m soft hard : Machine Flat S) : Prop where
  /-- The registers are the same but for B, which only the instruction sets. -/
  regs : soft.regs = { hard.regs with p := { hard.regs.p with b := true } }
  kept : hard.regs.p.b = m.regs.p.b
  /-- Memory is the same but for bit four of the pushed flags. -/
  memory : soft.bus = hard.bus.set m.regs.flagsCell (hard.bus.get m.regs.flagsCell ||| 0x10)
  pushed_set : (soft.bus.get m.regs.flagsCell).getLsbD 4 = true
  pushed_clear : (hard.bus.get m.regs.flagsCell).getLsbD 4 = false
  /-- Whatever has happened since: a return under the three bytes that the
      instruction has pushed goes on two bytes behind it, with B set. -/
  resumes : ∀ later : Machine Flat S, later.regs.s = soft.regs.s →
    (∀ a ∈ m.regs.frame, later.bus.get a = soft.bus.get a) →
    later.bus.get later.regs.pc = 0x40 →
      later.step.1 = none ∧
        later.step.2.regs =
          { later.regs with
            s := m.regs.s
            pc := m.regs.pc + 2
            p := { m.regs.p with b := true }
            cycles := later.regs.cycles + 6 } ∧
        later.step.2.bus = later.bus

/-- A return under the frame of the instruction. -/
theorem step_under_mark {m later : Machine Flat S} (hs : later.regs.s = m.regs.s - 3)
    (hframe : ∀ a ∈ m.regs.frame, later.bus.get a = (m.bus.marked m.regs).get a)
    (hrti : later.bus.get later.regs.pc = 0x40) :
    later.step.1 = none ∧
      later.step.2.regs =
        { later.regs with
          s := m.regs.s
          pc := m.regs.pc + 2
          p := { m.regs.p with b := true }
          cycles := later.regs.cycles + 6 } ∧
      later.step.2.bus = later.bus := by
  apply step_of_pushed (r := m.regs.skipping) hs _ _ _ hrti
  · exact (hframe _ (by simp [Registers.frame, Registers.skipping])).trans
      (m.bus.get_marked_flags m.regs)
  · exact (hframe _ (by simp [Registers.frame, Registers.skipping])).trans
      (m.bus.get_marked_low m.regs)
  · exact (hframe _ (by simp [Registers.frame, Registers.skipping])).trans
      (m.bus.get_marked_high m.regs)

/-- While requests are admitted the software interrupt does what a request would
    do that came two bytes further on, but for what tells the two apart. -/
theorem software_interrupt_mirrors_request (m : Machine Flat S) (hi : m.regs.p.i = false)
    (hbrk : m.bus.get m.regs.pc = 0x00) :
    let request := (m.onCore (·.goto (m.regs.pc + 2))).irq
    m.step.1 = none ∧ request.1 = true ∧ Mirrors m m.step.2 request.2 := by
  intro request
  let asked := m.onCore (·.goto (m.regs.pc + 2))
  -- the request
  have hrequest : request = (true, (asked.onCore (·.interrupt irqVector)).note
      (.irq (asked.onCore (·.interrupt irqVector)).regs.pc)) := by
    show asked.irq = _
    rw [irq, show asked.regs.p.i = false from hi]
    rfl
  have hhard : request.2.regs = (asked.core.interrupt irqVector).regs := by
    rw [hrequest]
    rfl
  rw [asked.core.regs_interrupt_flat (by decide) (by decide)] at hhard
  have hhardBus : request.2.bus = m.bus.framed m.regs.skipping := by
    rw [hrequest]
    exact asked.core.bus_interrupt_flat irqVector
  have hhardFlags : request.2.bus.get m.regs.flagsCell = { m.regs.p with b := false }.pack := by
    rw [hhardBus]
    exact m.bus.get_framed_flags m.regs.skipping
  -- the instruction
  obtain ⟨hok, hsoft, hsoftBus⟩ := step_of_brk hbrk
  have hsoftFlags : m.step.2.bus.get m.regs.flagsCell = { m.regs.p with b := true }.pack := by
    rw [hsoftBus]
    exact m.bus.get_marked_flags m.regs
  refine ⟨hok, congrArg Prod.fst hrequest, ?_⟩
  constructor
  case regs =>
    rw [hsoft, hhard]
    rfl
  case kept =>
    rw [hhard]
    rfl
  case memory => rw [hhardFlags, ← Status.pack_set_b, hhardBus, hsoftBus, Flat.marked]
  case pushed_set => rw [hsoftFlags, Status.getLsbD_pack_break]
  case pushed_clear => rw [hhardFlags, Status.getLsbD_pack_break]
  case resumes =>
    intro later hs hframe hrti
    have hs' : later.regs.s = m.regs.s - 3 := by rw [hs, hsoft]
    exact step_under_mark hs' (fun a ha => hsoftBus ▸ hframe a ha) hrti

/-- The instruction in the last cell, which is the high byte of the vector too,
    over a frame across the end of page one.  Its handler only returns, and that
    leads over the top of memory. -/
theorem returns_over_top_of_memory :
    let memory := (Flat.zero.set 0xFFFE 0x40).set 0x0040 0x40
    let m : Machine Flat Unit := (Machine.powerOn memory ()).update fun r =>
      { r with s := 0x01, pc := 0xFFFF, p := { r.p with b := false, c := true } }
    m.step.1 = none ∧ m.step.2.regs.pc = 0x0040 ∧ m.step.2.step.1 = none ∧
      m.step.2.step.2.regs =
        { m.regs with pc := 0x0001, p := { m.regs.p with b := true }, cycles := 13 } := by
  intro memory m
  have hget (a : Addr) :
      m.bus.get a = if 0x0040 = a then 0x40 else if 0xFFFE = a then 0x40 else 0 := by
    show memory.get a = _
    rw [Flat.get_set, Flat.get_set, Flat.get_zero]
  have hi : m.regs.p.i = false := rfl
  have hbrk : m.bus.get m.regs.pc = 0x00 := by
    rw [hget]
    rfl
  obtain ⟨hok, -, hmirrors⟩ := software_interrupt_mirrors_request m hi hbrk
  obtain ⟨-, hregs, hbus⟩ := step_of_brk hbrk
  have hpc : m.step.2.regs.pc = 0x0040 := by
    rw [hregs, hget, hget]
    rfl
  have hrti : m.step.2.bus.get m.step.2.regs.pc = 0x40 := by
    rw [hpc, hbus, Flat.get_marked_of_not_mem _ _ (m.regs.not_mem_frame (by decide)), hget]
    rfl
  obtain ⟨hok', hregs', -⟩ := hmirrors.resumes m.step.2 rfl (fun _ _ => rfl) hrti
  refine ⟨hok, hpc, hok', ?_⟩
  rw [hregs', hregs]
  decide +kernel

end Machine

end Nmos6502
