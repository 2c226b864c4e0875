/-
  Every return finds its own call.

  A call leaves the address of the last byte before the place to return to on
  the stack, in two cells, and a return goes to the byte behind the address that
  it finds there.  Calls and returns can be instructions or come from outside
  the program, in any mixture, and the cells may lie across the end of page one.

  A history is a well-nested sequence of calls and returns with code between
  them.  The code is free in all but this: it keeps the two cells of each call
  that has not returned, and where a subroutine returns the pointer stands as
  its call left it.  A call must not fall on these cells either.  It does not
  while nothing else is on the stack and fewer than 128 calls are waiting, which
  is all that page one holds.
-/
import Nmos6502.Proofs.Handler

namespace Nmos6502

/-! ## The two cells of a call -/

/-- The cells that a call writes when the pointer stands at `s`. -/
def returnCells (s : Byte) : List Addr := [stackCell s, stackCell (s - 1)]

/-- A call that has not returned yet. -/
structure Activation where
  /-- Where its caller goes on. -/
  back : Addr
  /-- The stack pointer of its caller. -/
  s : Byte

namespace Flat

/-- Memory with the return address of a call in it. -/
def withReturn (m : Flat) (f : Activation) : Flat :=
  (m.set (stackCell f.s) (highByte (f.back - 1))).set (stackCell (f.s - 1)) (lowByte (f.back - 1))

/-- The return address of the call is where it has put it. -/
def HoldsReturn (m : Flat) (f : Activation) : Prop :=
  m.get (stackCell f.s) = highByte (f.back - 1) ∧
    m.get (stackCell (f.s - 1)) = lowByte (f.back - 1)

theorem holdsReturn_withReturn (m : Flat) (f : Activation) : (m.withReturn f).HoldsReturn f := by
  have hne : stackCell (f.s - 1) ≠ stackCell f.s := by
    rw [Ne, stackCell_inj]
    bv_omega
  constructor
  · rw [withReturn, get_set_of_ne _ _ hne, get_set_self]
  · exact get_set_self _ _ _

theorem HoldsReturn.congr {m m' : Flat} {f : Activation} (h : m.HoldsReturn f)
    (hcells : ∀ a ∈ returnCells f.s, m'.get a = m.get a) : m'.HoldsReturn f := by
  constructor
  · rw [hcells _ (by simp [returnCells]), h.1]
  · rw [hcells _ (by simp [returnCells]), h.2]

theorem get_withReturn_of_not_mem (m : Flat) (f : Activation) {a : Addr}
    (h : a ∉ returnCells f.s) : (m.withReturn f).get a = m.get a := by
  simp only [returnCells, List.mem_cons, List.not_mem_nil, or_false, not_or] at h
  obtain ⟨h₀, h₁⟩ := h
  rw [withReturn, get_set_of_ne _ _ (Ne.symm h₁), get_set_of_ne _ _ (Ne.symm h₀)]

end Flat

/-! ## Room on the stack -/

/-- The return addresses lie one below the other from `base` down, and the pointer
    stands right below the last. -/
def Packed (base : Byte) : Byte → List Activation → Prop
  | s, [] => s = base
  | s, f :: fs => s = f.s - 2 ∧ Packed base f.s fs

/-- A call with the pointer at `s` spares the calls that are waiting: either only
    their addresses are on the stack, fewer than 128, or in any case none of them
    is in the two cells. -/
def HasRoom (base s : Byte) (active : List Activation) : Prop :=
  (Packed base s active ∧ active.length < 128) ∨
    ∀ f ∈ active, ∀ a ∈ returnCells f.s, a ∉ returnCells s

/-- Packed addresses lie above the pointer by even distances, two bytes each. -/
theorem Packed.distance {base s : Byte} {active : List Activation} (h : Packed base s active)
    (hlength : active.length < 128) {f : Activation} (hf : f ∈ active) :
    ∃ d, 0 < d ∧ d ≤ active.length ∧ (f.s - s).toNat = 2 * d := by
  induction active generalizing s with
  | nil => cases hf
  | cons g active ih =>
    obtain ⟨hs, hrest⟩ := h
    rw [List.length_cons] at hlength ⊢
    rcases List.mem_cons.mp hf with rfl | hf
    · refine ⟨1, by omega, by omega, ?_⟩
      bv_omega
    · obtain ⟨d, hpos, hle, hd⟩ := ih hrest (by omega) hf
      refine ⟨d + 1, by omega, by omega, ?_⟩
      bv_omega

/-- In either case the two cells are free. -/
theorem HasRoom.free {base s : Byte} {active : List Activation} (h : HasRoom base s active) :
    ∀ f ∈ active, ∀ a ∈ returnCells f.s, a ∉ returnCells s := by
  rcases h with ⟨hpacked, hlength⟩ | hfree
  · intro f hf a ha ha'
    obtain ⟨d, hpos, hle, hd⟩ := hpacked.distance hlength hf
    simp only [returnCells, List.mem_cons, List.not_mem_nil, or_false] at ha ha'
    -- two cells of one pair are next to each other, so no even distance joins the pairs
    rcases ha with rfl | rfl <;> rcases ha' with h | h <;> rw [stackCell_inj] at h <;> bv_omega
  · exact hfree

/-! ## Calls and returns of a processor -/

/-- There is one opcode for calls. -/
theorem eq_of_jsr : ∀ opcode, (opcodeEntry opcode).operation = .jsr →
    opcodeEntry opcode = ⟨.jsr, .absolute, 6⟩ := by
  decide +kernel

/-- There is one opcode for returns. -/
theorem eq_of_rts : ∀ opcode, (opcodeEntry opcode).operation = .rts →
    opcodeEntry opcode = ⟨.rts, .implied, 6⟩ := by
  decide +kernel

namespace Processor

theorem call_flat (p : Processor Flat) (target : Addr) :
    p.call target =
      ⟨{ p.regs with s := p.regs.s - 2, pc := target },
        p.bus.withReturn ⟨p.regs.pc, p.regs.s⟩⟩ := by
  have hs : p.regs.s - 2 = p.regs.s - 1 - 1 := by bv_omega
  rw [hs]
  rfl

theorem leave_flat (p : Processor Flat) :
    p.leave = ⟨{ p.regs with
      s := p.regs.s + 2
      pc := word (p.bus.get (stackCell (p.regs.s + 1)))
        (p.bus.get (stackCell (p.regs.s + 2))) + 1 },
      p.bus⟩ := by
  have hs : p.regs.s + 2 = p.regs.s + 1 + 1 := by bv_omega
  rw [hs]
  rfl

variable {p : Processor Flat}

/-- A call instruction is a call from the address behind it. -/
theorem step_of_jsr (h : p.nextEntry.operation = .jsr) :
    p.step = (.ok (), ((p.goto (p.regs.pc + 3)).call
      (word (p.bus.get (p.regs.pc + 1)) (p.bus.get (p.regs.pc + 1 + 1)))).spend 6) := by
  have hentry : p.nextEntry = ⟨.jsr, .absolute, 6⟩ := eq_of_jsr _ h
  have hlegal : p.nextEntry.legal := by
    rw [hentry]
    rfl
  -- when the call is performed the counter has passed all three bytes
  have hpoised : p.poised = p.goto (p.regs.pc + 3) := by
    have hregs := p.regs_poised
    rw [hentry] at hregs
    show (⟨p.poised.regs, p.poised.bus⟩ : Processor Flat) = _
    rw [hregs, poised, hentry]
    rfl
  have hplace : p.operandPlace =
      word (p.bus.get (p.regs.pc + 1)) (p.bus.get (p.regs.pc + 1 + 1)) := by
    rw [operandPlace, hentry]
    rfl
  rw [step_of_legal hlegal, hpoised, hplace, hentry]
  rfl

/-- A return instruction is a return. -/
theorem step_of_rts (h : p.nextEntry.operation = .rts) :
    p.step = (.ok (), (p.advance 1).leave.spend 6) := by
  have hentry : p.nextEntry = ⟨.rts, .implied, 6⟩ := eq_of_rts _ h
  have hlegal : p.nextEntry.legal := by
    rw [hentry]
    rfl
  have hpoised : p.poised = p.advance 1 := by
    rw [poised, hentry]
    rfl
  rw [step_of_legal hlegal, hpoised, hentry]
  rfl

end Processor

namespace Machine

variable {S : Type}

/-! ## Histories -/

/-- A subroutine is entered that is to return to the last address. -/
inductive Enters (n : Machine Flat S) : Machine Flat S → Addr → Prop
  | instruction (h : n.core.nextEntry.operation = .jsr) : Enters n n.step.2 (n.regs.pc + 3)
  | outside (target : Addr) : Enters n (n.onCore (·.call target)) n.regs.pc

/-- A subroutine is left. -/
inductive Leaves (n : Machine Flat S) : Machine Flat S → Prop
  | instruction (h : n.core.nextEntry.operation = .rts) : Leaves n n.step.2
  | outside : Leaves n (n.onCore .leave)

/-- What can have become of a machine by calls and returns, well nested, and any
    code between them, with the calls that have not returned, the latest first. -/
inductive History (m : Machine Flat S) : Machine Flat S → List Activation → Prop
  | start : History m m []
  /-- Code keeps the return addresses, and outside of all calls the pointer. -/
  | code {n n' : Machine Flat S} {active : List Activation} (h : History m n active)
      (hlive : ∀ f ∈ active, ∀ a ∈ returnCells f.s, n'.bus.get a = n.bus.get a)
      (hs : active = [] → n'.regs.s = n.regs.s) : History m n' active
  | enter {n n' : Machine Flat S} {active : List Activation} {back : Addr}
      (h : History m n active) (hroom : HasRoom m.regs.s n.regs.s active)
      (henters : Enters n n' back) : History m n' (⟨back, n.regs.s⟩ :: active)
  /-- A return, with the pointer as its call left it. -/
  | leave {n n' : Machine Flat S} {f : Activation} {active : List Activation}
      (h : History m n (f :: active)) (hs : n.regs.s = f.s - 2) (hleaves : Leaves n n') :
      History m n' active

/-! ## One call, one return -/

theorem Enters.result {n n' : Machine Flat S} {back : Addr} (h : Enters n n' back) :
    n'.regs.s = n.regs.s - 2 ∧ n'.bus = n.bus.withReturn ⟨back, n.regs.s⟩ := by
  cases h with
  | instruction hop =>
    have hstep := Processor.step_of_jsr hop
    rw [Processor.call_flat] at hstep
    rw [step_snd, regs, bus, hstep]
    exact ⟨rfl, rfl⟩
  | outside target =>
    have hcall := n.core.call_flat target
    exact ⟨congrArg (·.regs.s) hcall, congrArg (·.bus) hcall⟩

/-- A return goes where the two cells above the pointer say. -/
theorem Leaves.result {n n' : Machine Flat S} (h : Leaves n n') :
    n'.regs.s = n.regs.s + 2 ∧ n'.bus = n.bus ∧
      n'.regs.pc = word (n.bus.get (stackCell (n.regs.s + 1)))
        (n.bus.get (stackCell (n.regs.s + 2))) + 1 := by
  cases h with
  | instruction hop =>
    have hstep := Processor.step_of_rts hop
    rw [Processor.leave_flat] at hstep
    rw [step_snd, regs, bus, hstep]
    exact ⟨rfl, rfl, rfl⟩
  | outside =>
    have hleave := n.core.leave_flat
    exact ⟨congrArg (·.regs.s) hleave, congrArg (·.bus) hleave, congrArg (·.regs.pc) hleave⟩

/-- With its return address on the stack and the pointer right below it, a
    subroutine returns to its caller. -/
theorem Leaves.to_caller {n n' : Machine Flat S} (h : Leaves n n') {f : Activation}
    (hs : n.regs.s = f.s - 2) (hf : n.bus.HoldsReturn f) :
    n'.regs.pc = f.back ∧ n'.regs.s = f.s := by
  obtain ⟨hpointer, -, hpc⟩ := h.result
  -- what is pulled lies in the two cells of the call, the low byte first
  have hlow : n.regs.s + 1 = f.s - 1 := by
    rw [hs]
    bv_omega
  have hhigh : n.regs.s + 2 = f.s := by
    rw [hs]
    bv_omega
  rw [hlow, hhigh, hf.1, hf.2, word_lowByte_highByte, BitVec.sub_add_cancel] at hpc
  exact ⟨hpc, hpointer.trans hhigh⟩

/-! ## The stack throughout a history -/

/-- All calls that are waiting find their return addresses, and the outermost was
    made with the pointer at `base`, where it stands when none is waiting. -/
structure Intact (base : Byte) (n : Machine Flat S) (active : List Activation) : Prop where
  held : ∀ f ∈ active, n.bus.HoldsReturn f
  outermost : ∀ fs f, active = fs ++ [f] → f.s = base
  idle : active = [] → n.regs.s = base

theorem Intact.enter {base : Byte} {n n' : Machine Flat S} {active : List Activation}
    {back : Addr} (h : Intact base n active) (hroom : HasRoom base n.regs.s active)
    (henters : Enters n n' back) : Intact base n' (⟨back, n.regs.s⟩ :: active) := by
  obtain ⟨-, hbus⟩ := henters.result
  constructor
  case held =>
    intro f hf
    rw [hbus]
    -- the new call finds its address, and the others theirs as there was room
    rcases List.mem_cons.mp hf with rfl | hf
    · exact Flat.holdsReturn_withReturn _ _
    · refine (h.held f hf).congr fun a ha => ?_
      exact n.bus.get_withReturn_of_not_mem _ (hroom.free f hf a ha)
  case outermost =>
    intro fs f hlast
    cases fs with
    | nil =>
      -- a call while none is waiting
      obtain ⟨rfl, rfl⟩ := List.cons.inj hlast
      exact h.idle rfl
    | cons g fs => exact h.outermost fs f (List.cons.inj hlast).2
  case idle => exact fun hnil => absurd hnil (List.cons_ne_nil _ _)

theorem Intact.leave {base : Byte} {n n' : Machine Flat S} {f : Activation}
    {active : List Activation} (h : Intact base n (f :: active)) (hs : n.regs.s = f.s - 2)
    (hleaves : Leaves n n') : Intact base n' active := by
  obtain ⟨-, hbus, -⟩ := hleaves.result
  constructor
  case held =>
    intro g hg
    rw [hbus]
    exact h.held g (List.mem_cons_of_mem _ hg)
  case outermost =>
    rintro fs g rfl
    exact h.outermost (f :: fs) g rfl
  case idle =>
    -- the last return was that of the outermost call
    rintro rfl
    rw [(hleaves.to_caller hs (h.held f List.mem_cons_self)).2]
    exact h.outermost [] f rfl

/-- The induction is on the history: no call, no return and no code between them
    takes a return address from those that wait. -/
theorem History.intact {m n : Machine Flat S} {active : List Activation}
    (h : History m n active) : Intact m.regs.s n active := by
  induction h with
  | start =>
    refine ⟨?_, ?_, fun _ => rfl⟩
    · intro f hf
      cases hf
    · intro fs f hlast
      simp at hlast
  | code h hlive hs ih =>
    refine ⟨?_, ih.outermost, ?_⟩
    · intro f hf
      exact (ih.held f hf).congr (hlive f hf)
    · intro hnil
      rw [hs hnil, ih.idle hnil]
  | enter h hroom henters ih => exact ih.enter hroom henters
  | leave h hs hleaves ih => exact ih.leave hs hleaves

/-! ## Calls from outside and by instructions -/

/-- A call from outside does what the call instruction before the program counter
    would do, but for the cycles. -/
theorem call_eq_step (m : Machine Flat S) {target : Addr}
    (hopcode : m.bus.get (m.regs.pc - 3) = 0x20)
    (hlow : m.bus.get (m.regs.pc - 2) = lowByte target)
    (hhigh : m.bus.get (m.regs.pc - 1) = highByte target) :
    (m.onCore (·.goto (m.regs.pc - 3))).step =
      (none, m.onCore fun p => (p.call target).spend 6) := by
  let p := m.core.goto (m.regs.pc - 3)
  have hop : p.nextEntry.operation = .jsr :=
    congrArg (fun b => (opcodeEntry b).operation) hopcode
  have hlegal : p.nextEntry.legal := by
    rw [OpcodeEntry.legal_iff, hop]
    decide
  have hstep := Processor.step_of_jsr hop
  -- the three bytes in front of the counter are the whole instruction
  have hback : m.regs.pc - 3 + 3 = m.regs.pc := BitVec.sub_add_cancel _ _
  have hone : m.regs.pc - 3 + 1 = m.regs.pc - 2 := by bv_omega
  have htwo : m.regs.pc - 2 + 1 = m.regs.pc - 1 := by bv_omega
  have htarget : word (p.bus.get (p.regs.pc + 1)) (p.bus.get (p.regs.pc + 1 + 1)) = target := by
    show word (m.bus.get (m.regs.pc - 3 + 1)) (m.bus.get (m.regs.pc - 3 + 1 + 1)) = target
    rw [hone, htwo, hlow, hhigh, word_lowByte_highByte]
  have hcaller : p.goto (p.regs.pc + 3) = m.core := by
    show m.core.goto (m.regs.pc - 3 + 3) = m.core
    rw [hback]
    rfl
  rw [htarget, hcaller] at hstep
  rw [step_of_legal (m := m.onCore (·.goto (m.regs.pc - 3))) hlegal]
  exact congrArg (fun q => (none, { m with core := q })) (congrArg Prod.snd hstep)

/-- In every history of calls and returns, by instructions or from outside, each
    return goes to where its own call is to be followed, with the pointer that the
    call found, and when all calls have returned the pointer is where it began.
    Calls and returns by instructions succeed.  A call from outside is the call
    instruction in front of the program counter without its cycles. -/
theorem calls_and_returns_nest (m : Machine Flat S) :
    (∀ {n : Machine Flat S} {active : List Activation}, History m n active →
      (∀ f fs n', active = f :: fs → n.regs.s = f.s - 2 → Leaves n n' →
        n'.regs.pc = f.back ∧ n'.regs.s = f.s) ∧
      (active = [] → n.regs.s = m.regs.s)) ∧
    (m.core.nextEntry.operation = .jsr ∨ m.core.nextEntry.operation = .rts →
      m.step.1 = none) ∧
    (∀ target, m.bus.get (m.regs.pc - 3) = 0x20 →
      m.bus.get (m.regs.pc - 2) = lowByte target →
      m.bus.get (m.regs.pc - 1) = highByte target →
      let executed := (m.onCore (·.goto (m.regs.pc - 3))).step
      let called := m.onCore (·.call target)
      executed.1 = none ∧ executed.2.bus = called.bus ∧
        executed.2.regs = { called.regs with cycles := called.regs.cycles + 6 }) := by
  refine ⟨fun {n active} h => ⟨?_, h.intact.idle⟩, ?_, ?_⟩
  · rintro f fs n' rfl hs hleaves
    exact hleaves.to_caller hs (h.intact.held f List.mem_cons_self)
  · intro hop
    have hlegal : m.core.nextEntry.legal := by
      rw [OpcodeEntry.legal_iff]
      rcases hop with hop | hop <;> rw [hop] <;> decide
    rw [step_of_legal hlegal]
  · intro target hopcode hlow hhigh executed called
    have hstep : executed = _ := m.call_eq_step hopcode hlow hhigh
    rw [hstep]
    exact ⟨rfl, rfl, Processor.regs_spend _ _⟩

/-- A call from outside, whose return address lies across the end of the page, of a
    routine that calls another one by an instruction.  Each returns to its own
    caller, the inner one by an instruction and the outer one from outside, and
    a second call from behind the instruction does the same as the instruction. -/
theorem nested_calls_across_page_end :
    let memory := (((Flat.zero.set 0x0200 0x20).set 0x0201 0x00).set 0x0202 0x03).set 0x0300 0x60
    let m : Machine Flat Unit := (Machine.powerOn memory ()).update fun r =>
      { r with s := 0x00, pc := 0x1234 }
    let outer := m.onCore (·.call 0x0200)
    let inner := outer.step.2
    let again := inner.step.2
    let done := again.onCore .leave
    inner.regs.pc = 0x0300 ∧ again.regs.pc = 0x0203 ∧ done.regs.pc = 0x1234 ∧
      done.regs.s = 0x00 ∧
      (again.onCore (·.goto 0x0200)).step.2.bus = (again.onCore (·.call 0x0300)).bus := by
  intro memory m outer inner again done
  have hjsr : outer.core.nextEntry.operation = .jsr := by decide +kernel
  have hrts : inner.core.nextEntry.operation = .rts := by decide +kernel
  have hmemory : again.bus.get 0x0200 = 0x20 ∧ again.bus.get 0x0201 = lowByte 0x0300 ∧
      again.bus.get 0x0202 = highByte 0x0300 := by decide +kernel
  obtain ⟨hopcode, hlow, hhigh⟩ := hmemory
  have hs₀ : outer.regs.s = 0xFE := (Enters.outside (n := m) 0x0200).result.1
  have houter : History m outer [⟨0x1234, 0x00⟩] := by
    refine .enter .start (.inl ⟨rfl, ?_⟩) (.outside _)
    decide
  have hinner : History m inner [⟨0x0203, outer.regs.s⟩, ⟨0x1234, 0x00⟩] := by
    refine .enter houter (.inl ⟨⟨hs₀, rfl⟩, ?_⟩) (.instruction hjsr)
    decide
  have hs : inner.regs.s = outer.regs.s - 2 := (Enters.instruction hjsr).result.1
  have hreturn : Leaves inner again := .instruction hrts
  have hagain : History m again [⟨0x1234, 0x00⟩] := .leave hinner hs hreturn
  have hdone : History m done [] := by
    refine .leave hagain ?_ .outside
    rw [hreturn.result.1, hs, hs₀]
    rfl
  obtain ⟨hreturns, -, -⟩ := calls_and_returns_nest m
  obtain ⟨hpc, hpointer⟩ := (hreturns hinner).1 _ _ _ rfl hs hreturn
  obtain ⟨hpc', -⟩ := (hreturns hagain).1 _ _ done rfl (hpointer.trans hs₀) .outside
  have hfrom : again.regs.pc = 0x0203 := hpc
  have hsame := (calls_and_returns_nest again).2.2 0x0300
  rw [hfrom] at hsame
  refine ⟨?_, hpc, hpc', (hreturns hdone).2 rfl, (hsame hopcode hlow hhigh).2.1⟩
  decide +kernel

end Machine

end Nmos6502
