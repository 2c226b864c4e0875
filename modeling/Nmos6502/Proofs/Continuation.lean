/-
  A restored machine goes on as the saved one would.

  What a machine answers, and what becomes of its registers and memory, depends
  on these and on the policy for undocumented opcodes alone.  A checkpoint holds
  registers and memory, and comes back from its bytes unchanged, so a machine
  restored from it cannot be told from the one that was saved, however long one
  goes on asking.
-/
import Nmos6502.Proofs.Format
import Nmos6502.Proofs.Step

namespace Nmos6502

/-- What a machine can be asked to do. -/
inductive Request where
  | step | irq | nmi | reset
  | push (b : Byte)
  | pop
  | read (a : Addr)
  | write (a : Addr) (b : Byte)

inductive Reply where
  | done
  /-- Whether the step failed, and how. -/
  | stepped (stop : Option Stop)
  /-- Whether the interrupt was taken. -/
  | taken (yes : Bool)
  | byte (b : Byte)

namespace Machine

variable {M S T : Type} [Bus M]

def answer (m : Machine M S) : Request → Reply × Machine M S
  | .step =>
    let (stop, m) := m.step
    (.stepped stop, m)
  | .irq =>
    let (yes, m) := m.irq
    (.taken yes, m)
  | .nmi => (.done, m.nmi)
  | .reset => (.done, m.reset)
  | .push b => (.done, m.onCore (·.push b))
  | .pop =>
    let (b, m) := m.askCore (·.pull)
    (.byte b, m)
  | .read a =>
    let (b, m) := m.read a
    (.byte b, m)
  | .write a b => (.done, m.write a b)

/-- Does all that is asked, and gives each reply with the registers and the bus
    after it. -/
def converse (m : Machine M S) : List Request → List (Reply × Processor M)
  | [] => []
  | r :: rs => ((m.answer r).1, (m.answer r).2.core) :: (m.answer r).2.converse rs

/-! ## What an answer depends on -/

/-- The machines have the same registers, the same bus and the same policy. -/
structure Agree (m : Machine M S) (n : Machine M T) : Prop where
  core : m.core = n.core
  policy : m.onIllegal = n.onIllegal

namespace Agree

variable {m : Machine M S} {n : Machine M T}

omit [Bus M] in
theorem symm (h : Agree m n) : Agree n m := ⟨h.core.symm, h.policy.symm⟩

omit [Bus M] in
theorem onCore (h : Agree m n) (f : Processor M → Processor M) :
    Agree (m.onCore f) (n.onCore f) :=
  ⟨congrArg f h.core, h.policy⟩

omit [Bus M] in
theorem askCore {α : Type} (h : Agree m n) (f : Processor M → α × Processor M) :
    (m.askCore f).1 = (n.askCore f).1 ∧ Agree (m.askCore f).2 (n.askCore f).2 :=
  ⟨congrArg (fun p => (f p).1) h.core, congrArg (fun p => (f p).2) h.core, h.policy⟩

omit [Bus M] in
theorem note (h : Agree m n) (e e' : Event) : Agree (m.note e) (n.note e') :=
  ⟨h.core, h.policy⟩

theorem step (h : Agree m n) : m.step.1 = n.step.1 ∧ Agree m.step.2 n.step.2 := by
  have hcore := h.core
  -- only the failure looks outside the processor, and there at the policy
  by_cases hlegal : m.core.nextEntry.legal
  · rw [step_of_legal hlegal, step_of_legal (hcore ▸ hlegal)]
    exact ⟨rfl, h.onCore (·.step.2)⟩
  · have hstop : m.onIllegal.stop m.core.refusal = n.onIllegal.stop n.core.refusal := by
      rw [h.policy, hcore]
    rw [step_of_illegal hlegal, step_of_illegal (hcore ▸ hlegal), hstop]
    exact ⟨rfl, (h.onCore (·.fetched)).note _ _⟩

/-- Machines that agree fail at the same step, and until then go on agreeing. -/
theorem after (h : Agree m n) (k : Nat) :
    (m.after k).1 = (n.after k).1 ∧ Agree (m.after k).2 (n.after k).2 := by
  induction k generalizing m n with
  | zero => exact ⟨rfl, h⟩
  | succ k ih =>
    cases hstop : m.step.1 with
    | none =>
      rw [after_succ_of_ok hstop, after_succ_of_ok (h.step.1 ▸ hstop)]
      exact ih h.step.2
    | some stop =>
      rw [after_succ_of_stop hstop, after_succ_of_stop (h.step.1 ▸ hstop)]
      exact h.step

theorem irq (h : Agree m n) : m.irq.1 = n.irq.1 ∧ Agree m.irq.2 n.irq.2 := by
  have hi : m.regs.p.i = n.regs.p.i := by rw [regs, regs, h.core]
  rw [Machine.irq, Machine.irq, hi]
  cases n.regs.p.i with
  | true => exact ⟨rfl, h⟩
  | false => exact ⟨rfl, (h.onCore _).note _ _⟩

/-- Machines that agree answer alike and go on agreeing. -/
theorem answer (h : Agree m n) (r : Request) :
    (m.answer r).1 = (n.answer r).1 ∧ Agree (m.answer r).2 (n.answer r).2 := by
  cases r with
  | step => exact ⟨congrArg Reply.stepped h.step.1, h.step.2⟩
  | irq => exact ⟨congrArg Reply.taken h.irq.1, h.irq.2⟩
  | nmi | reset => exact ⟨rfl, (h.onCore _).note _ _⟩
  | push b => exact ⟨rfl, h.onCore (·.push b)⟩
  | write a b => exact ⟨rfl, h.onCore (·.write a b)⟩
  | pop =>
    obtain ⟨hb, hagree⟩ := h.askCore (·.pull)
    exact ⟨congrArg Reply.byte hb, hagree⟩
  | read a =>
    obtain ⟨hb, hagree⟩ := h.askCore (·.read a)
    exact ⟨congrArg Reply.byte hb, hagree⟩

theorem converse (h : Agree m n) (rs : List Request) : m.converse rs = n.converse rs := by
  induction rs generalizing m n with
  | nil => rfl
  | cons r rs ih =>
    obtain ⟨hreply, hagree⟩ := h.answer r
    rw [Machine.converse, Machine.converse, hreply, hagree.core, ih hagree]

end Agree

/-! ## Saving and restoring -/

/-- The checkpoint of a machine, written and read again, makes any other machine
    like it: the registers and every cell of memory become those of the machine
    saved, the switches stay, and if the policies are the same the two cannot
    be told apart by anything that they are asked from then on. -/
theorem restored_continues (c : Machine Flat S) (t : Machine Flat T) :
    ∃ saved, Checkpoint.decode c.checkpoint.encode = .ok saved ∧
      (t.restore saved).regs = c.regs ∧
      (∀ a, (t.restore saved).bus.get a = c.bus.get a) ∧
      (t.restore saved).quit = t.quit ∧
      (t.restore saved).trace = t.trace ∧
      (t.restore saved).singleStep = t.singleStep ∧
      (t.onIllegal = c.onIllegal →
        ∀ requests, (t.restore saved).converse requests = c.converse requests) := by
  have hcore : (t.restore c.checkpoint).core = c.core := by
    show (⟨c.snapshot.registers, c.bus⟩ : Processor Flat) = c.core
    rw [snapshot, Snapshot.registers_snapshot]
  refine ⟨c.checkpoint, c.decode_encode_checkpoint, ?_, ?_, rfl, rfl, rfl, ?_⟩
  · rw [regs, hcore]
  · intro a
    rw [bus, hcore]
  · intro hpolicy requests
    exact Agree.converse ⟨hcore, hpolicy⟩ requests

/-- A machine that has been asked to end keeps the request when it takes over
    another one, which stands before an undocumented opcode. -/
theorem restored_continues_before_refusal :
    let c : Machine Flat Unit := .powerOn ((Flat.zero.set 0 0xE8).set 1 0x02) ()
    let t : Machine Flat Unit := { Machine.powerOn Flat.zero () with quit := true }
    ∃ saved, Checkpoint.decode c.checkpoint.encode = .ok saved ∧ (t.restore saved).quit ∧
      (t.restore saved).converse [.step, .step, .nmi, .pop] =
        c.converse [.step, .step, .nmi, .pop] := by
  intro c t
  obtain ⟨saved, hsaved, -, -, hquit, -, -, hconverse⟩ := restored_continues c t
  exact ⟨saved, hsaved, hquit, hconverse rfl _⟩

end Machine

end Nmos6502
