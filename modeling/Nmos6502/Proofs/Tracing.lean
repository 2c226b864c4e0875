/-
  Tracing does not disturb.

  To report an instruction a machine decodes it from its own memory, in the
  middle of a turn.  On a bus that reading does not change this leaves nothing
  behind but the report: two machines that differ in their switches and
  journals at most go through the same turns, whatever the hook does, as long
  as the hook looks at neither.  And the reports are complete: one for each
  turn, of the machine that the hook is about to get.
-/
import Nmos6502.Proofs.Continuation
import Nmos6502.Proofs.Quiet
import Nmos6502.Proofs.Run

namespace Nmos6502

/-! ## Trace lines in a journal -/

/-- Whether an event is the report of an instruction about to be executed. -/
def Event.isTrace : Event → Bool
  | .trace .. => true
  | _ => false

namespace Journal

/-- The trace lines of a journal, oldest first. -/
def traces (j : Journal) : List Event := j.events.toList.filter Event.isTrace

@[simp] theorem listening_note (j : Journal) (e : Event) : (j.note e).listening = j.listening := by
  unfold note
  split
  · rfl
  · rfl

theorem traces_note_of_isTrace {j : Journal} {e : Event} (hj : j.listening) (he : e.isTrace) :
    (j.note e).traces = j.traces ++ [e] := by
  rw [note, if_pos hj, traces, traces, Array.toList_push, List.filter_append,
    List.filter_cons_of_pos he, List.filter_nil]

theorem traces_note_of_not_isTrace (j : Journal) {e : Event} (he : e.isTrace = false) :
    (j.note e).traces = j.traces := by
  unfold note
  split
  · have he : ¬ e.isTrace = true := Bool.eq_false_iff.mp he
    rw [traces, traces, Array.toList_push, List.filter_append, List.filter_cons_of_neg he,
      List.filter_nil, List.append_nil]
  · rfl

end Journal

namespace Machine

variable {M S H : Type} [Bus M]

/-! ## What a trace line says -/

/-- Whether instructions are reported and somebody listens. -/
def reporting (m : Machine M S) : Bool := (m.trace || m.singleStep) && m.journal.listening

/-- The trace line of the instruction at the program counter. -/
def traceEvent (m : Machine M S) : Event :=
  .trace (Instruction.fetch m.bus m.regs.pc).1 m.regs

omit [Bus M] in
@[simp] theorem journal_note (m : Machine M S) (e : Event) :
    (m.note e).journal = m.journal.note e := rfl

omit [Bus M] in
@[simp] theorem reporting_note (m : Machine M S) (e : Event) :
    (m.note e).reporting = m.reporting := by
  rw [reporting, reporting, journal_note, Journal.listening_note]
  rfl

variable {I : M → Prop}

theorem nextInstruction_eq (hquiet : Bus.Quiet I) {m : Machine M S} (h : I m.bus) :
    m.nextInstruction = ((Instruction.fetch m.bus m.regs.pc).1, m) := by
  have hbus : (Instruction.fetch m.core.bus m.core.regs.pc).2 = m.core.bus := hquiet.fetch h _
  unfold nextInstruction askCore
  dsimp only
  rw [hbus]

/-- A report leaves nothing but the trace line. -/
theorem report_eq (hquiet : Bus.Quiet I) {m : Machine M S} (h : I m.bus) :
    m.report = if m.reporting then m.note m.traceEvent else m := by
  unfold report
  rw [nextInstruction_eq hquiet h]
  rfl

/-! ## Machines that differ in switches and journal -/

/-- The machines differ in their switches for tracing and in their journals at
    most, and reading their bus does not change it. -/
structure Twin (I : M → Prop) (m n : Machine M S) : Prop where
  core : m.core = n.core
  source : m.source = n.source
  quit : m.quit = n.quit
  policy : m.onIllegal = n.onIllegal
  quiet : I m.bus

/-- The same answer, the same memory of the hook, and machines that are twins. -/
structure TwinResult {α : Type} (I : M → Prop) (x y : α × H × Machine M S) : Prop where
  answer : x.1 = y.1
  memory : x.2.1 = y.2.1
  machine : Twin I x.2.2 y.2.2

namespace Twin

variable {m n : Machine M S}

omit [Bus M] in
theorem refl (h : I m.bus) : Twin I m m := ⟨rfl, rfl, rfl, rfl, h⟩

omit [Bus M] in
theorem symm (h : Twin I m n) : Twin I n m where
  core := h.core.symm
  source := h.source.symm
  quit := h.quit.symm
  policy := h.policy.symm
  quiet := by
    rw [bus, ← h.core]
    exact h.quiet

omit [Bus M] in
theorem note (h : Twin I m n) (e e' : Event) : Twin I (m.note e) (n.note e') :=
  ⟨h.core, h.source, h.quit, h.policy, h.quiet⟩

omit [Bus M] in
theorem onCore (h : Twin I m n) {f : Processor M → Processor M} (hf : I (f m.core).bus) :
    Twin I (m.onCore f) (n.onCore f) :=
  ⟨congrArg f h.core, h.source, h.quit, h.policy, hf⟩

theorem report_left (hquiet : Bus.Quiet I) (h : Twin I m n) : Twin I m.report n := by
  rw [report_eq hquiet h.quiet]
  split
  · exact ⟨h.core, h.source, h.quit, h.policy, h.quiet⟩
  · exact h

theorem report (hquiet : Bus.Quiet I) (h : Twin I m n) : Twin I m.report n.report :=
  (h.report_left hquiet).symm.report_left hquiet |>.symm

theorem step (hquiet : Bus.Quiet I) (h : Twin I m n) :
    m.step.1 = n.step.1 ∧ Twin I m.step.2 n.step.2 := by
  obtain ⟨hstop, hagree⟩ := (Agree.mk h.core h.policy).step
  refine ⟨hstop, hagree.core, ?_, ?_, hagree.policy, ?_⟩
  · rw [step_snd m, step_snd n]
    exact h.source
  · rw [step_snd m, step_snd n]
    exact h.quit
  · rw [step_snd m]
    exact hquiet.step h.quiet

variable [InterruptSource S]

omit [Bus M] in
theorem polled (h : Twin I m n) : Twin I m.polled n.polled where
  core := h.core
  source := congrArg (fun s => (InterruptSource.poll s).2) h.source
  quit := h.quit
  policy := h.policy
  quiet := h.quiet

theorem pollInterrupt (hquiet : Bus.Quiet I) (h : Twin I m n) :
    Twin I m.pollInterrupt n.pollInterrupt := by
  have hregs : m.regs = n.regs := congrArg Processor.regs h.core
  have hbus : m.bus = n.bus := congrArg Processor.bus h.core
  by_cases hi : m.regs.p.i
  · rw [pollInterrupt_of_disabled hi, pollInterrupt_of_disabled (hregs ▸ hi)]
    exact h
  · have hi : m.regs.p.i = false := Bool.eq_false_iff.mpr hi
    rw [pollInterrupt_of_enabled hi, pollInterrupt_of_enabled (hregs ▸ hi), h.source, hbus]
    split
    · rw [irq_of_enabled (m := m.polled) hi, irq_of_enabled (m := n.polled) (hregs ▸ hi)]
      exact (h.polled.onCore (hquiet.interrupt h.quiet irqVector)).note _ _
    · exact h.polled

/-- The hook gets twins. -/
theorem offered (hquiet : Bus.Quiet I) (h : Twin I m n) : Twin I m.offered n.offered :=
  (h.pollInterrupt hquiet).report hquiet

end Twin

end Machine

/-! ## Hooks -/

namespace Hook

variable {M S H : Type}

/-- The hook looks at neither the switches for tracing nor the journal: it does
    the same to twins.  It may set the switches and write in the journal. -/
def Blind (I : M → Prop) (hook : Hook H M S) : Prop :=
  ∀ k {m n : Machine M S}, m.Twin I n → Machine.TwinResult I (hook k m) (hook k n)

/-- The hook leaves tracing on and the listener in place, and the trace lines to
    the machine. -/
structure Discreet (hook : Hook H M S) : Prop where
  reporting : ∀ k m, m.reporting → (hook k m).2.2.reporting
  traces : ∀ k m, (hook k m).2.2.journal.traces = m.journal.traces

variable {I : M → Prop}

theorem blind_none : (Hook.none : Hook Unit M S).Blind I := fun _ _ _ h => ⟨rfl, rfl, h⟩

/-- Counting the offers and asking for the end is no looking at the report. -/
theorem Blind.limit {hook : Nat → Hook H M S} (h : ∀ i, (hook i).Blind I) (max : Nat) :
    (Hook.limit max hook).Blind I := by
  rintro ⟨calls, k⟩ m n hmn
  unfold Hook.limit
  dsimp only
  split
  · exact ⟨rfl, rfl, hmn.core, hmn.source, rfl, hmn.policy, hmn.quiet⟩
  · obtain ⟨hanswer, hmemory, hmachine⟩ := h (calls + 1) k hmn
    exact ⟨hanswer, congrArg (calls + 1, ·) hmemory, hmachine⟩

theorem discreet_none : (Hook.none : Hook Unit M S).Discreet := ⟨fun _ _ h => h, fun _ _ => rfl⟩

theorem Discreet.limit {hook : Nat → Hook H M S} (h : ∀ i, (hook i).Discreet) (max : Nat) :
    (Hook.limit max hook).Discreet where
  reporting := by
    rintro ⟨calls, k⟩ m hm
    unfold Hook.limit
    dsimp only
    split
    · exact hm
    · exact (h _).reporting k m hm
  traces := by
    rintro ⟨calls, k⟩ m
    unfold Hook.limit
    dsimp only
    split
    · rfl
    · exact (h _).traces k m

end Hook

namespace Machine

variable {M S H : Type} [Bus M] [InterruptSource S] {I : M → Prop} {hook : Hook H M S}

/-! ## Turns and runs of twins -/

omit [InterruptSource S] in
theorem TwinResult.settle (hquiet : Bus.Quiet I) {x y : Verdict × H × Machine M S}
    (h : TwinResult I x y) : TwinResult I (settle x) (settle y) := by
  obtain ⟨verdict, k, m⟩ := x
  obtain ⟨verdict', k', n⟩ := y
  obtain ⟨hverdict, hk, hm⟩ := h
  obtain rfl : verdict = verdict' := hverdict
  obtain rfl : k = k' := hk
  cases verdict with
  | handled | exit => exact ⟨rfl, rfl, hm⟩
  | declined =>
    obtain ⟨hstop, hm⟩ := hm.step hquiet
    exact ⟨congrArg (Option.map Ending.stopped) hstop, rfl, hm⟩

/-- Twins take the same turn. -/
theorem Twin.turn (hquiet : Bus.Quiet I) (hblind : hook.Blind I) (k : H) {m n : Machine M S}
    (h : Twin I m n) : TwinResult I (turn hook k m) (turn hook k n) := by
  by_cases hquit : m.quit
  · rw [turn_of_quit hquit, turn_of_quit (h.quit ▸ hquit)]
    exact ⟨rfl, rfl, h.note _ _⟩
  -- the reports differ, but the hook does not look at them
  · have hquit : m.quit = false := Bool.eq_false_iff.mpr hquit
    rw [turn_of_not_quit hquit, turn_of_not_quit (h.quit ▸ hquit)]
    exact (hblind k (h.offered hquiet)).settle hquiet

/-- After any number of turns twins stand where the other does. -/
theorem Twin.run (hquiet : Bus.Quiet I) (hblind : hook.Blind I) (fuel : Nat) (k : H)
    {m n : Machine M S} (h : Twin I m n) :
    TwinResult I (run hook fuel k m) (run hook fuel k n) := by
  induction fuel generalizing k m n with
  | zero => exact ⟨rfl, rfl, h⟩
  | succ fuel ih =>
    have hturn := h.turn hquiet hblind k
    -- both end with this turn, or neither does
    cases hending : (Machine.turn hook k m).1 with
    | some ending =>
      rw [run_of_ended hending, run_of_ended (hturn.answer ▸ hending)]
      exact hturn
    | none =>
      rw [run_of_going_on hending, run_of_going_on (hturn.answer ▸ hending), ← hturn.memory]
      exact ih _ hturn.machine

/-! ## The lines of a turn -/

/-- Between the two machines no line has been written, and lines are written as
    before. -/
structure NoLine (m n : Machine M S) : Prop where
  reporting : n.reporting = m.reporting
  traces : n.journal.traces = m.journal.traces

namespace NoLine

variable {m n : Machine M S}

omit [Bus M] [InterruptSource S] in
theorem refl (m : Machine M S) : NoLine m m := ⟨rfl, rfl⟩

omit [Bus M] [InterruptSource S] in
theorem onCore (h : NoLine m n) (f : Processor M → Processor M) : NoLine m (n.onCore f) :=
  ⟨h.reporting, h.traces⟩

omit [Bus M] [InterruptSource S] in
theorem note (h : NoLine m n) {e : Event} (he : e.isTrace = false) : NoLine m (n.note e) where
  reporting := (reporting_note n e).trans h.reporting
  traces := (Journal.traces_note_of_not_isTrace n.journal he).trans h.traces

omit [InterruptSource S] in
theorem step (m : Machine M S) : NoLine m m.step.2 := by
  by_cases h : m.core.nextEntry.legal
  · rw [step_of_legal h]
    exact (refl m).onCore (·.step.2)
  · rw [step_of_illegal h]
    exact ((refl m).onCore (·.fetched)).note rfl

theorem pollInterrupt (m : Machine M S) : NoLine m m.pollInterrupt := by
  cases hi : m.regs.p.i with
  | true =>
    rw [pollInterrupt_of_disabled hi]
    exact refl m
  | false =>
    have hpolled : NoLine m m.polled := ⟨rfl, rfl⟩
    rw [pollInterrupt_of_enabled hi]
    split
    · rw [irq_of_enabled (m := m.polled) hi]
      exact (hpolled.onCore _).note rfl
    · exact hpolled

omit [InterruptSource S] in
theorem settle (x : Verdict × H × Machine M S) : NoLine x.2.2 (settle x).2.2 := by
  obtain ⟨verdict, k, m⟩ := x
  cases verdict with
  | handled | exit => exact refl m
  | declined => exact step m

end NoLine

theorem quiet_pollInterrupt (hquiet : Bus.Quiet I) {m : Machine M S} (h : I m.bus) :
    I m.pollInterrupt.bus :=
  ((Twin.refl h).pollInterrupt hquiet).quiet

/-- Before the hook is called one line is written, if lines are written at all. -/
theorem traces_offered (hquiet : Bus.Quiet I) {m : Machine M S} (h : I m.bus) :
    m.offered.journal.traces =
      m.journal.traces ++ if m.reporting then [m.pollInterrupt.traceEvent] else [] := by
  have hsilent := NoLine.pollInterrupt m
  rw [offered, report_eq hquiet (quiet_pollInterrupt hquiet h), hsilent.reporting, ← hsilent.traces]
  cases hreporting : m.reporting with
  | true =>
    have hlistening : m.pollInterrupt.journal.listening := by
      rw [← hsilent.reporting, reporting, Bool.and_eq_true] at hreporting
      exact hreporting.2
    exact Journal.traces_note_of_isTrace hlistening rfl
  | false => exact (List.append_nil _).symm

theorem reporting_offered (hquiet : Bus.Quiet I) {m : Machine M S} (h : I m.bus) :
    m.offered.reporting = m.reporting := by
  rw [offered, report_eq hquiet (quiet_pollInterrupt hquiet h),
    ← (NoLine.pollInterrupt m).reporting]
  split
  · exact reporting_note _ _
  · rfl

/-! ## The lines of a run -/

/-- The memory of the hook and the machine at the beginning of each turn that a
    request to end has not prevented, for at most `fuel` turns. -/
def turnsBegun (hook : Hook H M S) : Nat → H → Machine M S → List (H × Machine M S)
  | 0, _, _ => []
  | fuel + 1, k, m =>
    if m.quit then []
    else (k, m) :: match turn hook k m with
      | (some _, _, _) => []
      | (none, k, m) => turnsBegun hook fuel k m

theorem turnsBegun_of_ended {ending : Ending} {k : H} {m : Machine M S} (hquit : m.quit = false)
    (h : (turn hook k m).1 = some ending) (fuel : Nat) :
    turnsBegun hook (fuel + 1) k m = [(k, m)] := by
  rw [turnsBegun, hquit]
  generalize turn hook k m = outcome at h
  obtain ⟨ending', k', m'⟩ := outcome
  cases h
  rfl

theorem turnsBegun_of_going_on {k : H} {m : Machine M S} (hquit : m.quit = false)
    (h : (turn hook k m).1 = none) (fuel : Nat) :
    turnsBegun hook (fuel + 1) k m =
      (k, m) :: turnsBegun hook fuel (turn hook k m).2.1 (turn hook k m).2.2 := by
  rw [turnsBegun, hquit]
  generalize turn hook k m = outcome at h
  obtain ⟨ending, k', m'⟩ := outcome
  cases h
  rfl

/-- Turns begin with no request to end, on a bus that reading does not change. -/
theorem quiet_of_mem_turnsBegun (hquiet : Bus.Quiet I) (hblind : hook.Blind I) {fuel : Nat} {k : H}
    {m : Machine M S} (h : I m.bus) {begun : H × Machine M S}
    (hbegun : begun ∈ turnsBegun hook fuel k m) : begun.2.quit = false ∧ I begun.2.bus := by
  induction fuel generalizing k m with
  | zero => cases hbegun
  | succ fuel ih =>
    by_cases hquit : m.quit
    · rw [turnsBegun, if_pos hquit] at hbegun
      cases hbegun
    · have hquit : m.quit = false := Bool.eq_false_iff.mpr hquit
      have hturn := (Twin.refl h).turn hquiet hblind k
      cases hending : (turn hook k m).1 with
      | some ending =>
        rw [turnsBegun_of_ended hquit hending, List.mem_singleton] at hbegun
        rw [hbegun]
        exact ⟨hquit, h⟩
      | none =>
        rw [turnsBegun_of_going_on hquit hending] at hbegun
        rcases List.mem_cons.mp hbegun with rfl | hlater
        · exact ⟨hquit, h⟩
        · exact ih hturn.machine.quiet hlater

/-- If the hook leaves tracing alone, each turn begun adds its line to the
    journal, and nothing else adds any. -/
theorem traces_run (hquiet : Bus.Quiet I) (hblind : hook.Blind I) (hdiscreet : hook.Discreet)
    (fuel : Nat) (k : H) {m : Machine M S} (h : I m.bus) (hreporting : m.reporting) :
    (run hook fuel k m).2.2.journal.traces =
      m.journal.traces ++
        (turnsBegun hook fuel k m).map (·.2.pollInterrupt.traceEvent) := by
  induction fuel generalizing k m with
  | zero => exact (List.append_nil _).symm
  | succ fuel ih =>
    by_cases hquit : m.quit
    · have hturn : turn hook k m = _ := turn_of_quit hquit
      rw [run_of_ended (congrArg (·.1) hturn), hturn, turnsBegun, if_pos hquit, List.map_nil,
        List.append_nil, journal_note, Journal.traces_note_of_not_isTrace _ (by rfl)]
    · have hquit : m.quit = false := Bool.eq_false_iff.mpr hquit
      have htwin := (Twin.refl h).turn hquiet hblind k
      -- the line of this turn
      have htraces : (turn hook k m).2.2.journal.traces =
          m.journal.traces ++ [m.pollInterrupt.traceEvent] := by
        rw [turn_of_not_quit hquit, (NoLine.settle _).traces, hdiscreet.traces,
          traces_offered hquiet h, if_pos hreporting]
      -- and the next turn will write one too
      have hon : (turn hook k m).2.2.reporting := by
        rw [turn_of_not_quit hquit, (NoLine.settle _).reporting]
        refine hdiscreet.reporting k _ ?_
        rw [reporting_offered hquiet h]
        exact hreporting
      cases hending : (turn hook k m).1 with
      | some ending =>
        rw [run_of_ended hending, turnsBegun_of_ended hquit hending, htraces]
        rfl
      | none =>
        rw [run_of_going_on hending, turnsBegun_of_going_on hquit hending,
          ih _ htwin.machine.quiet hon, htraces, List.map_cons, List.append_assoc]
        rfl

/-- Tracing does not change what a run does.  Two machines that differ in their
    switches and journals at most, run with the same hook, have the same
    registers, bus, source of interrupts and request to end after every number
    of turns, and end alike.  Where lines are written, every turn that is not
    prevented by a request to end writes its line after the interrupt and
    before the hook, and none after that; so if the hook leaves tracing alone,
    the lines of the run are those of its turns, one of each. -/
theorem traced_run_goes_alike (hquiet : Bus.Quiet I) (hblind : hook.Blind I) {m n : Machine M S}
    (htwin : Twin I m n) (a : Addr) (fuel : Nat) (k : H) :
    let start := m.onCore (·.goto a)
    TwinResult I (runFrom hook fuel k a m) (runFrom hook fuel k a n) ∧
      (∀ begun ∈ turnsBegun hook fuel k start,
        begun.2.quit = false ∧
          begun.2.offered.journal.traces = begun.2.journal.traces ++
            (if begun.2.reporting then [begun.2.pollInterrupt.traceEvent] else []) ∧
          (turn hook begun.1 begun.2).2.2.journal.traces =
            (hook begun.1 begun.2.offered).2.2.journal.traces) ∧
      (m.reporting → hook.Discreet →
        (runFrom hook fuel k a m).2.2.journal.traces = m.journal.traces ++
          (turnsBegun hook fuel k start).map (·.2.pollInterrupt.traceEvent)) := by
  intro start
  have hstart : I start.bus := htwin.quiet
  refine ⟨(htwin.onCore hstart).run hquiet hblind fuel k, fun begun hbegun => ?_,
    fun hreporting hdiscreet => ?_⟩
  · obtain ⟨hquit, hbus⟩ := quiet_of_mem_turnsBegun hquiet hblind hstart hbegun
    refine ⟨hquit, traces_offered hquiet hbus, ?_⟩
    rw [turn_of_not_quit hquit, (NoLine.settle _).traces]
  · exact traces_run hquiet hblind hdiscreet fuel k hstart hreporting

/-- An increment, a jump through a pointer and the byte of an empty address,
    which is refused: the traced run ends like the other, with three lines. -/
theorem traced_run_into_refusal :
    let program : Window Peripheral := ⟨0x0200, .rom (.ofBytes [0xE8, 0x6C, 0x00, 0x02])⟩
    let n : Machine (Router Peripheral) Unit := .powerOn ⟨[program]⟩ ()
    let m := { n with trace := true, journal := .attentive }
    let hook : Hook (Nat × Unit) (Router Peripheral) Unit := .limit 8 fun _ => .none
    let traced := runFrom hook 8 (0, ()) 0x0200 m
    let plain := runFrom hook 8 (0, ()) 0x0200 n
    traced.1 = some (.stopped (.illegal ⟨0xFF, 0x6CE8⟩)) ∧ plain.1 = traced.1 ∧
      plain.2.2.core = traced.2.2.core ∧ traced.2.2.journal.traces.length = 3 := by
  intro program n m hook traced plain
  have hstorage : Router.OnlyStorage n.bus := List.forall_mem_singleton.mpr rfl
  have htwin : Twin Router.OnlyStorage m n := ⟨rfl, rfl, rfl, rfl, hstorage⟩
  obtain ⟨halike, -, hlines⟩ := traced_run_goes_alike Router.quiet
    (Hook.Blind.limit (fun _ => Hook.blind_none) 8) htwin 0x0200 8 (0, ())
  have hlines := hlines rfl (Hook.Discreet.limit (fun _ => Hook.discreet_none) 8)
  refine ⟨by decide +kernel, halike.answer.symm, halike.machine.core.symm, ?_⟩
  rw [hlines, List.length_append, List.length_map]
  decide +kernel

end Machine

end Nmos6502
