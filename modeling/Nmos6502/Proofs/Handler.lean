/-
  There and back: a hardware interrupt and the return from it.

  An interrupt leaves three bytes on the stack, its frame: the program counter
  and the flags.  On flat memory these three cells are all that changes there,
  and whoever comes to a return from interrupt with the stack pointer under the
  frame gets out of it what went in.  What the handler did in between does not
  matter, and the stack pointer may wrap within its page on either way.
-/
import Nmos6502.Bus.Flat
import Nmos6502.Proofs.Run

namespace Nmos6502

/-! ## The frame of an interrupt -/

theorem stackCell_inj {a b : Byte} : stackCell a = stackCell b ↔ a = b := by
  constructor
  · intro h
    rw [← lowByte_word a 0x01, ← lowByte_word b 0x01]
    exact congrArg lowByte h
  · exact congrArg stackCell

/-- The cells that an interrupt of a program with these registers writes. -/
def Registers.frame (r : Registers) : List Addr :=
  [stackCell r.s, stackCell (r.s - 1), stackCell (r.s - 2)]

/-- The vectors lie far above page one. -/
theorem Registers.not_mem_frame (r : Registers) {a : Addr} (h : highByte a ≠ 0x01) :
    a ∉ r.frame := by
  have hpage (s : Byte) : a ≠ stackCell s := by
    rintro rfl
    exact h (highByte_word s 0x01)
  simp [frame, hpage]

namespace Flat

/-- Memory with the frame of an interrupt in it: the program counter, and the
    flags with B clear. -/
def framed (m : Flat) (r : Registers) : Flat :=
  ((m.set (stackCell r.s) (highByte r.pc)).set (stackCell (r.s - 1)) (lowByte r.pc)).set
    (stackCell (r.s - 2)) { r.p with b := false }.pack

variable (m : Flat) (r : Registers)

theorem get_framed_of_not_mem {a : Addr} (h : a ∉ r.frame) : (m.framed r).get a = m.get a := by
  simp only [Registers.frame, List.mem_cons, List.not_mem_nil, or_false, not_or] at h
  obtain ⟨h₀, h₁, h₂⟩ := h
  rw [framed, get_set_of_ne _ _ (Ne.symm h₂), get_set_of_ne _ _ (Ne.symm h₁),
    get_set_of_ne _ _ (Ne.symm h₀)]

theorem get_framed_flags :
    (m.framed r).get (stackCell (r.s - 2)) = { r.p with b := false }.pack :=
  get_set_self _ _ _

theorem get_framed_low : (m.framed r).get (stackCell (r.s - 1)) = lowByte r.pc := by
  have hne : stackCell (r.s - 2) ≠ stackCell (r.s - 1) := by
    rw [Ne, stackCell_inj]
    bv_omega
  rw [framed, get_set_of_ne _ _ hne, get_set_self]

theorem get_framed_high : (m.framed r).get (stackCell r.s) = highByte r.pc := by
  have hne₂ : stackCell (r.s - 2) ≠ stackCell r.s := by
    rw [Ne, stackCell_inj]
    bv_omega
  have hne₁ : stackCell (r.s - 1) ≠ stackCell r.s := by
    rw [Ne, stackCell_inj]
    bv_omega
  rw [framed, get_set_of_ne _ _ hne₂, get_set_of_ne _ _ hne₁, get_set_self]

end Flat

namespace Processor

variable (p : Processor Flat)

/-! ## Entering -/

theorem bus_interrupt_flat (v : Addr) : (p.interrupt v).bus = p.bus.framed p.regs :=
  p.bus_interrupt v

/-- The vector is read when the frame has been written, which does not reach it. -/
theorem regs_interrupt_flat {v : Addr} (hlo : highByte v ≠ 0x01) (hhi : highByte (v + 1) ≠ 0x01) :
    (p.interrupt v).regs =
      { p.regs with
        s := p.regs.s - 3
        pc := word (p.bus.get v) (p.bus.get (v + 1))
        p := { p.regs.p with i := true }
        cycles := p.regs.cycles + 7 } := by
  have hpc : (Bus.wordAt (Bus.framed p.bus p.regs) v).1 =
      word ((p.bus.framed p.regs).get v) ((p.bus.framed p.regs).get (v + 1)) := rfl
  rw [Flat.get_framed_of_not_mem _ _ (p.regs.not_mem_frame hlo),
    Flat.get_framed_of_not_mem _ _ (p.regs.not_mem_frame hhi)] at hpc
  rw [regs_interrupt, hpc]

/-! ## Returning -/

theorem leaveHandler_flat :
    p.leaveHandler = ⟨{ p.regs with
      s := p.regs.s + 3
      pc := word (p.bus.get (stackCell (p.regs.s + 2))) (p.bus.get (stackCell (p.regs.s + 3)))
      p := .unpack (p.bus.get (stackCell (p.regs.s + 1))) }, p.bus⟩ := by
  have hs₂ : p.regs.s + 2 = p.regs.s + 1 + 1 := by bv_omega
  have hs₃ : p.regs.s + 3 = p.regs.s + 1 + 1 + 1 := by bv_omega
  rw [hs₂, hs₃]
  rfl

variable {p}

/-- A return from interrupt takes the flags and the program counter from the
    three cells above the stack pointer. -/
theorem step_of_rti (h : p.bus.get p.regs.pc = 0x40) :
    p.nextEntry.legal ∧
      p.step.2.regs =
        { p.regs with
          s := p.regs.s + 3
          pc := word (p.bus.get (stackCell (p.regs.s + 2)))
            (p.bus.get (stackCell (p.regs.s + 3)))
          p := .unpack (p.bus.get (stackCell (p.regs.s + 1)))
          cycles := p.regs.cycles + 6 } ∧
      p.step.2.bus = p.bus := by
  have hentry : p.nextEntry = ⟨.rti, .implied, 6⟩ := congrArg opcodeEntry h
  have hlegal : p.nextEntry.legal := by
    rw [hentry]
    rfl
  have hpoised : p.poised = p.advance 1 := by
    rw [poised, hentry]
    rfl
  have hperform : p.poised.perform .implied p.operandPlace .rti = (p.advance 1).leaveHandler := by
    rw [hpoised]
    rfl
  refine ⟨hlegal, ?_, ?_⟩
  · rw [regs_step_of_legal hlegal, hentry, hperform, leaveHandler_flat]
    rfl
  · rw [step_of_legal hlegal, hentry, hperform, bus_spend, leaveHandler_flat]
    rfl

end Processor

namespace Machine

variable {S : Type}

/-- What a program is owed when an interrupt through `vector` has turned its
    machine `m` into `m'`. -/
structure Serviced (vector : Addr) (m m' : Machine Flat S) : Prop where
  /-- The handler is entered with requests held off, under a frame of three
      bytes; the other registers and flags are those of the program. -/
  regs : m'.regs =
    { m.regs with
      s := m.regs.s - 3
      pc := word (m.bus.get vector) (m.bus.get (vector + 1))
      p := { m.regs.p with i := true }
      cycles := m.regs.cycles + 7 }
  memory : ∀ a ∉ m.regs.frame, m'.bus.get a = m.bus.get a
  /-- Whatever has happened since: a return under the intact frame goes on with
      the program, with its flags and its stack pointer. -/
  resumes : ∀ later : Machine Flat S, later.regs.s = m'.regs.s →
    (∀ a ∈ m.regs.frame, later.bus.get a = m'.bus.get a) →
    later.bus.get later.regs.pc = 0x40 →
      later.step.1 = none ∧
        later.step.2.regs =
          { later.regs with
            s := m.regs.s
            pc := m.regs.pc
            p := { m.regs.p with b := false }
            cycles := later.regs.cycles + 6 } ∧
        later.step.2.bus = later.bus
  /-- A handler that does nothing but return leaves no trace but a clear B, the
      cycles spent and the frame. -/
  untouched : m'.regs.pc ∉ m.regs.frame → m.bus.get m'.regs.pc = 0x40 →
    m'.step.1 = none ∧
      m'.step.2.regs =
        { m.regs with
          p := { m.regs.p with b := false }
          cycles := m.regs.cycles + 13 } ∧
      (∀ a ∉ m.regs.frame, m'.step.2.bus.get a = m.bus.get a) ∧
      m'.step.2 = { m with core := m'.step.2.core, journal := m'.step.2.journal }

/-- A return finds flags and program counter in the three cells above its
    pointer, which then stands where it stood before these were pushed. -/
theorem step_of_pushed {later : Machine Flat S} {r : Registers} {flags : Status}
    (hs : later.regs.s = r.s - 3)
    (hflags : later.bus.get (stackCell (r.s - 2)) = flags.pack)
    (hlow : later.bus.get (stackCell (r.s - 1)) = lowByte r.pc)
    (hhigh : later.bus.get (stackCell r.s) = highByte r.pc)
    (hrti : later.bus.get later.regs.pc = 0x40) :
    later.step.1 = none ∧
      later.step.2.regs =
        { later.regs with s := r.s, pc := r.pc, p := flags, cycles := later.regs.cycles + 6 } ∧
      later.step.2.bus = later.bus := by
  obtain ⟨hlegal, hregs, hbus⟩ := Processor.step_of_rti hrti
  have hs₁ : later.regs.s + 1 = r.s - 2 := by rw [hs]; bv_omega
  have hs₂ : later.regs.s + 2 = r.s - 1 := by rw [hs]; bv_omega
  have hs₃ : later.regs.s + 3 = r.s := by rw [hs]; bv_omega
  rw [hs₁, hs₂, hs₃, hflags, hlow, hhigh, Status.unpack_pack, word_lowByte_highByte] at hregs
  rw [step_of_legal hlegal]
  exact ⟨rfl, hregs, hbus⟩

/-- A return under the frame of a program gives back what the frame holds. -/
theorem step_under_frame {m later : Machine Flat S} (hs : later.regs.s = m.regs.s - 3)
    (hframe : ∀ a ∈ m.regs.frame, later.bus.get a = (m.bus.framed m.regs).get a)
    (hrti : later.bus.get later.regs.pc = 0x40) :
    later.step.1 = none ∧
      later.step.2.regs =
        { later.regs with
          s := m.regs.s
          pc := m.regs.pc
          p := { m.regs.p with b := false }
          cycles := later.regs.cycles + 6 } ∧
      later.step.2.bus = later.bus := by
  apply step_of_pushed hs _ _ _ hrti
  · rw [hframe _ (by simp [Registers.frame]), Flat.get_framed_flags]
  · rw [hframe _ (by simp [Registers.frame]), Flat.get_framed_low]
  · rw [hframe _ (by simp [Registers.frame]), Flat.get_framed_high]

/-- An interrupt through a vector outside page one services its program. -/
theorem serviced_interrupt (m : Machine Flat S) (e : Event) {vector : Addr}
    (hlo : highByte vector ≠ 0x01) (hhi : highByte (vector + 1) ≠ 0x01) :
    Serviced vector m ((m.onCore (·.interrupt vector)).note e) := by
  let m' := (m.onCore (·.interrupt vector)).note e
  have hregs : m'.regs = _ := m.core.regs_interrupt_flat hlo hhi
  have hbus : m'.bus = m.bus.framed m.regs := m.core.bus_interrupt_flat vector
  have hs : m'.regs.s = m.regs.s - 3 := by rw [hregs]
  have hmemory : ∀ a ∉ m.regs.frame, m'.bus.get a = m.bus.get a := by
    intro a ha
    rw [hbus, Flat.get_framed_of_not_mem _ _ ha]
  constructor
  case regs => exact hregs
  case memory => exact hmemory
  case resumes =>
    intro later hlater hframe hrti
    exact step_under_frame (hlater.trans hs) (fun a ha => hbus ▸ hframe a ha) hrti
  case untouched =>
    intro hpc hrti
    obtain ⟨hok, hregs', hbus'⟩ := step_under_frame hs (fun a _ => by rw [hbus])
      ((hmemory _ hpc).trans hrti)
    refine ⟨hok, ?_, ?_, ?_⟩
    · -- seven cycles of the entry and six of the return
      have hcycles : m.regs.cycles + 7 + 6 = m.regs.cycles + 13 := BitVec.add_assoc _ _ _
      rw [hregs', hregs, hcycles]
    · intro a ha
      rw [hbus', hmemory a ha]
    · rw [step_snd]
      rfl

/-- Interrupts by hardware are transparent to the program that they interrupt:
    maskable requests while I is clear, when they are taken, and others at any
    time. -/
theorem interrupted_program_resumes (m : Machine Flat S) :
    (m.regs.p.i = false → m.irq.1 = true ∧ Serviced irqVector m m.irq.2) ∧
      Serviced nmiVector m m.nmi := by
  have hvectors : highByte irqVector ≠ 0x01 ∧ highByte (irqVector + 1) ≠ 0x01 ∧
      highByte nmiVector ≠ 0x01 ∧ highByte (nmiVector + 1) ≠ 0x01 := by decide
  obtain ⟨hirq, hirq', hnmi, hnmi'⟩ := hvectors
  refine ⟨fun hi => ⟨?_, ?_⟩, serviced_interrupt m _ hnmi hnmi'⟩
  · rw [irq, hi]
    rfl
  · rw [irq_of_enabled hi]
    exact serviced_interrupt m _ hirq hirq'

/-- A frame over the lower end of page one, and a handler that only returns. -/
theorem resumes_from_wrapped_frame :
    let memory := (Flat.zero.set 0xFFFF 0x80).set 0x8000 0x40
    let m : Machine Flat Unit := (Machine.powerOn memory ()).update fun r =>
      { r with s := 0x01, pc := 0x1234 }
    m.regs.p.i = false ∧ m.regs.frame = [0x0101, 0x0100, 0x01FF] ∧ m.irq.2.step.1 = none ∧
      m.irq.2.step.2.regs =
        { m.regs with p := { m.regs.p with b := false }, cycles := 13 } := by
  intro memory m
  have hget (a : Addr) :
      m.bus.get a = if 0x8000 = a then 0x40 else if 0xFFFF = a then 0x80 else 0 := by
    show memory.get a = _
    rw [Flat.get_set, Flat.get_set, Flat.get_zero]
  have hi : m.regs.p.i = false := rfl
  have hframe : m.regs.frame = [0x0101, 0x0100, 0x01FF] := by decide
  obtain ⟨-, hserviced⟩ := (interrupted_program_resumes m).1 hi
  have hpc : m.irq.2.regs.pc = 0x8000 := by
    rw [hserviced.regs, hget, hget]
    rfl
  have houtside : m.irq.2.regs.pc ∉ m.regs.frame := by
    rw [hpc, hframe]
    decide
  have hrti : m.bus.get m.irq.2.regs.pc = 0x40 := by
    rw [hpc, hget]
    rfl
  obtain ⟨hok, hregs, -⟩ := hserviced.untouched houtside hrti
  exact ⟨hi, hframe, hok, hregs⟩

end Machine

end Nmos6502
