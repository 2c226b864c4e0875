/-
  Nobody sees the break flag.

  B is a flag like the others: it is stored, it comes back from the stack with
  them, and the software interrupt sets it.  But nothing that a machine does
  depends on it.  Two machines that differ in B alone make the same accesses,
  give the same replies and go on differing in B at most, whatever is demanded
  of them; the flags on the stack say in its place how they came there.
-/
import Nmos6502.Proofs.Continuation
import Nmos6502.Proofs.Run
import Nmos6502.Proofs.Traffic

namespace Nmos6502

/-! ## Changing the flag -/

def Registers.withBreak (r : Registers) (b : Bool) : Registers := { r with p := { r.p with b } }

/-- The flag decides nothing in the action, whatever becomes of it. -/
def Action.IgnoresBreak : Action → Prop
  | .consume f | .pull f => ∀ r m b, ∃ b', f (r.withBreak b) m = (f r m).withBreak b'
  | .store f | .push f => ∀ r b, f (r.withBreak b) = f r
  | .modify f => ∀ r m b, f (r.withBreak b) m = ((f r m).1, (f r m).2.withBreak b)
  | .update f => ∀ r b, f (r.withBreak b) = (f r).withBreak b
  | .branch condition => ∀ p b, condition { p with b } = condition p
  | .jump | .call | .leave | .leaveHandler | .softwareInterrupt => True

/-- Of all operations only the pull of the flags writes B itself. -/
theorem Operation.ignoresBreak_action (o : Operation) : o.action.IgnoresBreak := by
  cases o with
  | lda | ldx | ldy | adc | sbc | and | ora | eor | bit | cmp | cpx | cpy | pla =>
    exact fun _ _ b => ⟨b, rfl⟩
  | plp => exact fun _ m _ => ⟨(Status.unpack m).b, rfl⟩
  | asl | lsr | rol | ror | inc | dec => exact fun _ _ _ => rfl
  | jmp | jsr | rts | rti | brk => trivial
  | _ => exact fun _ _ => rfl

namespace Processor

variable {M : Type}

def withBreak (p : Processor M) (b : Bool) : Processor M := p.update (·.withBreak b)

variable [Bus M] (p : Processor M) (b : Bool)

omit [Bus M] in
theorem spend_withBreak (n : Nat) : (p.withBreak b).spend n = (p.spend n).withBreak b := rfl

theorem operandAddress_withBreak (mode : Mode) :
    (p.withBreak b).operandAddress mode =
      ((p.operandAddress mode).1, (p.operandAddress mode).2.withBreak b) := by
  cases mode <;> rfl

theorem modify_withBreak (mode : Mode) (ea : Addr) {f : Registers → Byte → Byte × Registers}
    (h : (Action.modify f).IgnoresBreak) :
    (p.withBreak b).modify mode ea f = (p.modify mode ea f).withBreak b := by
  have hf : ∀ m, f (p.withBreak b).regs m = ((f p.regs m).1, (f p.regs m).2.withBreak b) :=
    fun m => h p.regs m b
  by_cases hmode : mode = .accumulator
  · rw [hmode, modify_accumulator, modify_accumulator, hf]
    rfl
  · rw [modify_cell _ hmode, modify_cell _ hmode, hf]
    rfl

omit [Bus M] in
theorem branch_withBreak (taken : Bool) (target : Addr) :
    (p.withBreak b).branch taken target = (p.branch taken target).withBreak b := by
  cases taken with
  | true | false => rfl

theorem interrupt_withBreak (v : Addr) :
    (p.withBreak b).interrupt v = (p.interrupt v).withBreak b := rfl

/-- After the action only B can differ. -/
theorem act_withBreak (mode : Mode) (ea : Addr) {action : Action} (h : action.IgnoresBreak) :
    ∃ b', (p.withBreak b).act mode ea action = (p.act mode ea action).withBreak b' := by
  cases action with
  | consume f =>
    obtain ⟨b', hf⟩ := h p.regs (Bus.read p.bus ea).1 b
    exact ⟨b', congrArg (Processor.mk · (Bus.read p.bus ea).2) hf⟩
  | store f =>
    have hf : f (p.withBreak b).regs = f p.regs := h p.regs b
    refine ⟨b, ?_⟩
    rw [act, act, hf]
    rfl
  | modify f => exact ⟨b, p.modify_withBreak b mode ea h⟩
  | update f => exact ⟨b, congrArg (Processor.mk · p.bus) (h p.regs b)⟩
  | branch condition =>
    have hc : condition (p.withBreak b).regs.p = condition p.regs.p := h p.regs.p b
    refine ⟨b, ?_⟩
    rw [act, act, hc, branch_withBreak]
  | jump | call | leave => exact ⟨b, rfl⟩
  -- these two write the flag
  | leaveHandler => exact ⟨(Status.unpack p.pull.1).b, rfl⟩
  | softwareInterrupt => exact ⟨true, rfl⟩
  | push f =>
    have hf : f (p.withBreak b).regs = f p.regs := h p.regs b
    refine ⟨b, ?_⟩
    rw [act, act, hf]
    rfl
  | pull f =>
    obtain ⟨b', hf⟩ := h p.pull.2.regs p.pull.1 b
    exact ⟨b', congrArg (Processor.mk · p.pull.2.bus) hf⟩

/-- A step goes the same way, with the same outcome. -/
theorem step_withBreak :
    ∃ b', (p.withBreak b).step = (p.step.1, p.step.2.withBreak b') := by
  have hentry : (p.withBreak b).nextEntry = p.nextEntry := rfl
  by_cases hlegal : p.nextEntry.legal
  · have hplace : (p.withBreak b).operandPlace = p.operandPlace :=
      congrArg (·.1) (p.fetched.operandAddress_withBreak b p.nextEntry.mode)
    have hpoised : (p.withBreak b).poised = p.poised.withBreak b :=
      congrArg (·.2.advance p.nextEntry.size)
        (p.fetched.operandAddress_withBreak b p.nextEntry.mode)
    obtain ⟨b', hact⟩ := p.poised.act_withBreak b p.nextEntry.mode p.operandPlace
      p.nextEntry.operation.ignoresBreak_action
    refine ⟨b', ?_⟩
    rw [step_of_legal hlegal, step_of_legal (hentry ▸ hlegal), hentry, hplace, hpoised,
      perform_eq_act, perform_eq_act, hact, spend_withBreak]
  · refine ⟨b, ?_⟩
    rw [step_of_illegal hlegal, step_of_illegal (hentry ▸ hlegal)]
    rfl

end Processor

/-! ## Demands -/

/-- What can be demanded of a machine from outside. -/
inductive Demand where
  | request (r : Request)
  /-- To enter a subroutine, or to leave one. -/
  | call (target : Addr)
  | leave

namespace Machine

variable {M S : Type}

def withBreak (m : Machine M S) (b : Bool) : Machine M S := m.onCore (·.withBreak b)

variable [Bus M]

def serve (m : Machine M S) : Demand → Reply × Machine M S
  | .request r => m.answer r
  | .call target => (.done, m.onCore (·.call target))
  | .leave => (.done, m.onCore (·.leave))

/-- The replies to a sequence of demands, and the machine after it. -/
def serveAll (m : Machine M S) : List Demand → List Reply × Machine M S
  | [] => ([], m)
  | d :: ds =>
    let (reply, m) := m.serve d
    let (replies, m) := m.serveAll ds
    (reply :: replies, m)

variable (m : Machine M S) (b : Bool)

theorem step_withBreak :
    ∃ b', (m.withBreak b).step = (m.step.1, m.step.2.withBreak b') := by
  by_cases hlegal : m.core.nextEntry.legal
  · obtain ⟨b', hcore⟩ := m.core.step_withBreak b
    have hcore : (m.withBreak b).core.step.2 = m.core.step.2.withBreak b' :=
      congrArg (·.2) hcore
    refine ⟨b', ?_⟩
    rw [step_of_legal hlegal, step_of_legal (m := m.withBreak b) hlegal, hcore]
    rfl
  · refine ⟨b, ?_⟩
    rw [step_of_illegal hlegal, step_of_illegal (m := m.withBreak b) hlegal]
    rfl

omit [Bus M] in
theorem onCore_withBreak {f : Processor M → Processor M}
    (h : f (m.core.withBreak b) = (f m.core).withBreak b) :
    (m.withBreak b).onCore f = (m.onCore f).withBreak b :=
  congrArg (fun core => { m with core }) h

omit [Bus M] in
theorem note_withBreak (e : Event) : (m.withBreak b).note e = (m.note e).withBreak b := rfl

omit [Bus M] in
theorem pc_withBreak : (m.withBreak b).regs.pc = m.regs.pc := rfl

/-- An interrupt and the report of it. -/
theorem interrupt_withBreak (v : Addr) (e : Addr → Event) :
    let entered (m : Machine M S) := m.onCore (·.interrupt v)
    (entered (m.withBreak b)).note (e (entered (m.withBreak b)).regs.pc) =
      ((entered m).note (e (entered m).regs.pc)).withBreak b := by
  intro entered
  have hentered : entered (m.withBreak b) = (entered m).withBreak b :=
    m.onCore_withBreak b (m.core.interrupt_withBreak b v)
  rw [hentered, note_withBreak, pc_withBreak]

theorem irq_withBreak : (m.withBreak b).irq = (m.irq.1, m.irq.2.withBreak b) := by
  have hi : (m.withBreak b).regs.p.i = m.regs.p.i := rfl
  rw [irq, irq, hi]
  cases m.regs.p.i with
  | true => rfl
  | false => exact congrArg (true, ·) (m.interrupt_withBreak b irqVector .irq)

theorem answer_withBreak (r : Request) :
    ∃ b', (m.withBreak b).answer r = ((m.answer r).1, (m.answer r).2.withBreak b') := by
  cases r with
  | step =>
    obtain ⟨b', hstep⟩ := m.step_withBreak b
    exact ⟨b', congrArg (fun q => (Reply.stepped q.1, q.2)) hstep⟩
  | irq => exact ⟨b, congrArg (fun q => (Reply.taken q.1, q.2)) (m.irq_withBreak b)⟩
  | nmi => exact ⟨b, congrArg (Reply.done, ·) (m.interrupt_withBreak b nmiVector .nmi)⟩
  | reset | push | pop | read | write => exact ⟨b, rfl⟩

theorem serve_withBreak (d : Demand) :
    ∃ b', (m.withBreak b).serve d = ((m.serve d).1, (m.serve d).2.withBreak b') := by
  cases d with
  | request r => exact m.answer_withBreak b r
  | call | leave => exact ⟨b, rfl⟩

theorem serveAll_withBreak (ds : List Demand) :
    ∃ b', (m.withBreak b).serveAll ds = ((m.serveAll ds).1, (m.serveAll ds).2.withBreak b') := by
  -- the flag differs from demand to demand, since some of them write it
  induction ds generalizing m b with
  | nil => exact ⟨b, rfl⟩
  | cons d ds ih =>
    obtain ⟨b', hfirst⟩ := m.serve_withBreak b d
    obtain ⟨b'', hrest⟩ := ih (m.serve d).2 b'
    refine ⟨b'', ?_⟩
    rw [serveAll, hfirst]
    exact congrArg (fun q => ((m.serve d).1 :: q.1, q.2)) hrest

end Machine

/-! ## Flags on the stack -/

theorem Status.getLsbD_pack_unused (p : Status) : p.pack.getLsbD 5 = true := by
  rw [← pack_or_unused, BitVec.getLsbD_or]
  exact Bool.or_true _

theorem Status.getLsbD_pack_break (p : Status) : p.pack.getLsbD 4 = p.b :=
  congrArg Status.b (unpack_pack p)

/-- Writing an interrupt frame under the stack pointer `s`. -/
def Access.frame (s : Byte) (back : Addr) (flags : Byte) : List Access :=
  [.write (stackCell s) (highByte back), .write (stackCell (s - 1)) (lowByte back),
    .write (stackCell (s - 2)) flags]

/-- Operations that put flags on the stack have no operand. -/
theorem implied_of_pushes_flags : ∀ opcode,
    (opcodeEntry opcode).operation = .php ∨ (opcodeEntry opcode).operation = .brk →
      (opcodeEntry opcode).mode = .implied := by
  decide +kernel

namespace Machine

variable {M S : Type} [Bus M]

/-- Which accesses put flags on the stack, and that the unused bit is set in
    these flags, while the bit of B tells software from hardware. -/
structure MarksFlags (m : Machine M S) : Prop where
  php : m.core.nextEntry.operation = .php → ∃ opcode flags,
    m.recorded.step.2.bus.log.toList =
        [.read m.regs.pc opcode, .write (stackCell m.regs.s) flags] ∧
      flags.getLsbD 5 = true ∧ flags.getLsbD 4 = true
  brk : m.core.nextEntry.operation = .brk → ∃ opcode flags lo hi,
    m.recorded.step.2.bus.log.toList = .read m.regs.pc opcode ::
        Access.frame m.regs.s (m.regs.pc + 2) flags ++ [.read 0xFFFE lo, .read 0xFFFF hi] ∧
      flags.getLsbD 5 = true ∧ flags.getLsbD 4 = true
  irq : m.regs.p.i = false → ∃ flags lo hi,
    m.recorded.irq.2.bus.log.toList =
        Access.frame m.regs.s m.regs.pc flags ++ [.read 0xFFFE lo, .read 0xFFFF hi] ∧
      flags.getLsbD 5 = true ∧ flags.getLsbD 4 = false
  nmi : ∃ flags lo hi,
    m.recorded.nmi.bus.log.toList =
        Access.frame m.regs.s m.regs.pc flags ++ [.read 0xFFFA lo, .read 0xFFFB hi] ∧
      flags.getLsbD 5 = true ∧ flags.getLsbD 4 = false

/-- The record of an interrupt that begins with nothing on record. -/
theorem log_interrupt (m : Machine M S) (v : Addr) : ∃ lo hi,
    (m.recorded.core.interrupt v).bus.log.toList =
      Access.frame m.regs.s m.regs.pc { m.regs.p with b := false }.pack ++
        [.read v lo, .read (v + 1) hi] :=
  m.recorded.core.adds_enterHandler m.regs.pc { m.regs.p with b := false } v

/-- The record of a documented instruction without an operand. -/
theorem log_step_of_implied (m : Machine M S) (hlegal : m.core.nextEntry.legal)
    (hmode : m.core.nextEntry.mode = .implied) : ∃ opcode own ea,
    m.recorded.step.2.bus.log.toList = .read m.regs.pc opcode :: own ∧
      m.core.nextEntry.operation.Touches m.regs m.core.nextEntry.mode ea own := by
  have hentry : m.recorded.core.nextEntry = m.core.nextEntry := rfl
  obtain ⟨found, own, ea, hadds, hlocates, htouches⟩ :=
    m.recorded.core.adds_step (hentry ▸ hlegal)
  rw [hentry, hmode] at hlocates
  obtain rfl : found = [] := hlocates
  rw [step_of_legal (m := m.recorded) hlegal]
  exact ⟨_, own, ea, hadds, htouches⟩

theorem marksFlags (m : Machine M S) : m.MarksFlags := by
  have hlegal {o : Operation} (hop : m.core.nextEntry.operation = o) (ho : o ≠ .illegal) :
      m.core.nextEntry.legal := by
    rw [OpcodeEntry.legal_iff, hop]
    exact ho
  constructor
  case php =>
    intro hop
    have hmode : m.core.nextEntry.mode = .implied := implied_of_pushes_flags _ (.inl hop)
    obtain ⟨opcode, own, ea, hlog, htouches⟩ :=
      m.log_step_of_implied (hlegal hop (by decide)) hmode
    rw [hop] at htouches
    obtain rfl : own = _ := htouches
    exact ⟨opcode, _, hlog, Status.getLsbD_pack_unused _, Status.getLsbD_pack_break _⟩
  case brk =>
    intro hop
    have hmode : m.core.nextEntry.mode = .implied := implied_of_pushes_flags _ (.inr hop)
    obtain ⟨opcode, own, ea, hlog, htouches⟩ :=
      m.log_step_of_implied (hlegal hop (by decide)) hmode
    rw [hop] at htouches
    obtain ⟨lo, hi, rfl⟩ := htouches
    exact ⟨opcode, _, lo, hi, hlog, Status.getLsbD_pack_unused _, Status.getLsbD_pack_break _⟩
  case irq =>
    intro hi
    obtain ⟨lo, hi', hlog⟩ := m.log_interrupt irqVector
    rw [irq_of_enabled (m := m.recorded) hi]
    exact ⟨_, lo, hi', hlog, Status.getLsbD_pack_unused _, Status.getLsbD_pack_break _⟩
  case nmi =>
    obtain ⟨lo, hi, hlog⟩ := m.log_interrupt nmiVector
    exact ⟨_, lo, hi, hlog, Status.getLsbD_pack_unused _, Status.getLsbD_pack_break _⟩

/-- B is out of sight.  A machine with the flag changed gives the same replies to
    all demands, makes the same accesses in the same order, and ends as the
    other does up to the flag; and the flags that a machine puts on the stack do
    not show it, but whether software or hardware has put them there. -/
theorem break_flag_unseen (m : Machine M S) (b : Bool) :
    (∀ demands, ∃ b', (m.withBreak b).serveAll demands =
      ((m.serveAll demands).1, (m.serveAll demands).2.withBreak b')) ∧
    (∀ demands,
      ((m.withBreak b).recorded.serveAll demands).1 = (m.recorded.serveAll demands).1 ∧
      ((m.withBreak b).recorded.serveAll demands).2.bus.log =
        (m.recorded.serveAll demands).2.bus.log) ∧
    m.MarksFlags := by
  refine ⟨m.serveAll_withBreak b, fun demands => ?_, m.marksFlags⟩
  -- to have a record is to be on a bus like any other
  obtain ⟨b', hserve⟩ := m.recorded.serveAll_withBreak b demands
  have hrecorded : (m.withBreak b).recorded = m.recorded.withBreak b := rfl
  rw [hrecorded, hserve]
  exact ⟨rfl, rfl⟩

end Machine

end Nmos6502
