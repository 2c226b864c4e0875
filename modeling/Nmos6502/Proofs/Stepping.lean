/-
  A run that nothing disturbs is one step after another.

  On flat memory, with the source that never interrupts and no hook, a turn has
  nothing to do but its step: the question for interrupts is answered with no,
  and a trace line goes to the journal and nowhere else.  `muted` takes the
  journal away, and with it all that such a run and repeated steps can differ
  in.  A run has no end of its own then.  It ends where the steps would have
  failed, at the first undocumented opcode, and the machine stands as the steps
  before that have left it.
-/
import Nmos6502.Proofs.Tracing
import Nmos6502.Proofs.Traffic

namespace Nmos6502

namespace Machine

variable {M S : Type}

/-! ## Machines without their journals -/

/-- The machine with nobody listening and nothing in the journal. -/
def muted (m : Machine M S) : Machine M S := { m with journal := .silent }

@[simp] theorem muted_note (m : Machine M S) (e : Event) : (m.note e).muted = m.muted := rfl

variable [Bus M]

/-- A step does not ask what is in the journal. -/
theorem step_muted (m : Machine M S) : m.muted.step = (m.step.1, m.step.2.muted) := by
  by_cases h : m.core.nextEntry.legal
  · rw [step_of_legal h, step_of_legal (m := m.muted) h]
    rfl
  · rw [step_of_illegal h, step_of_illegal (m := m.muted) h]
    rfl

theorem after_muted (m : Machine M S) (n : Nat) :
    m.muted.after n = ((m.after n).1, (m.after n).2.muted) := by
  induction n generalizing m with
  | zero => rfl
  | succ n ih =>
    have hstep := m.step_muted
    cases hstop : m.step.1 with
    | some stop =>
      rw [hstop] at hstep
      rw [after_succ_of_stop (congrArg Prod.fst hstep), after_succ_of_stop hstop, hstep, hstop]
    | none =>
      rw [hstop] at hstep
      rw [after_succ_of_ok (congrArg Prod.fst hstep), after_succ_of_ok hstop, hstep, ih]

/-- Machines that are the same but for their journals are so after a step. -/
theorem step_congr_muted {m n : Machine M S} (h : m.muted = n.muted) :
    m.step.1 = n.step.1 ∧ m.step.2.muted = n.step.2.muted := by
  have hm := m.step_muted
  rw [h, n.step_muted] at hm
  exact ⟨(congrArg Prod.fst hm).symm, (congrArg Prod.snd hm).symm⟩

theorem after_congr_muted {m n : Machine M S} (h : m.muted = n.muted) (k : Nat) :
    (m.after k).1 = (n.after k).1 ∧ (m.after k).2.muted = (n.after k).2.muted := by
  have hm := m.after_muted k
  rw [h, n.after_muted k] at hm
  exact ⟨(congrArg Prod.fst hm).symm, (congrArg Prod.snd hm).symm⟩

/-! ## Where repeated steps fail -/

/-- So many steps succeed, and the one behind them meets the undocumented opcode. -/
structure RefusedAfter (m : Machine M S) (n : Nat) (e : IllegalOpcode) : Prop where
  succeed : (m.after n).1 = none
  fails : (m.after n).2.step.1 = some (.illegal e)

theorem refusedAfter_zero {m : Machine M S} {e : IllegalOpcode} :
    m.RefusedAfter 0 e ↔ m.step.1 = some (.illegal e) :=
  ⟨fun h => h.fails, fun h => ⟨rfl, h⟩⟩

theorem refusedAfter_succ {m : Machine M S} (h : m.step.1 = none) {n : Nat} {e : IllegalOpcode} :
    m.RefusedAfter (n + 1) e ↔ m.step.2.RefusedAfter n e := by
  have hafter := after_succ_of_ok h n
  constructor
  · rintro ⟨hsucceed, hfails⟩
    rw [hafter] at hsucceed hfails
    exact ⟨hsucceed, hfails⟩
  · rintro ⟨hsucceed, hfails⟩
    rw [← hafter] at hsucceed hfails
    exact ⟨hsucceed, hfails⟩

/-- No step succeeds behind one that has failed. -/
theorem not_refusedAfter_succ {m : Machine M S} {stop : Stop} (h : m.step.1 = some stop) (n : Nat)
    (e : IllegalOpcode) : ¬ m.RefusedAfter (n + 1) e := by
  rintro ⟨hsucceed, -⟩
  rw [after_succ_of_stop h, h] at hsucceed
  cases hsucceed

/-- The steps end with the one that is refused. -/
theorem RefusedAfter.after {m : Machine M S} {n : Nat} {e : IllegalOpcode}
    (h : m.RefusedAfter n e) {fuel : Nat} (hlt : n < fuel) :
    m.after fuel = (m.after n).2.step := by
  induction n generalizing m fuel with
  | zero =>
    obtain ⟨fuel, rfl⟩ := Nat.exists_eq_add_one.mpr hlt
    exact after_succ_of_stop (refusedAfter_zero.mp h) fuel
  | succ n ih =>
    obtain ⟨fuel, rfl⟩ := Nat.exists_eq_add_one.mpr (Nat.zero_lt_of_lt hlt)
    cases hstop : m.step.1 with
    | some stop => exact absurd h (not_refusedAfter_succ hstop n e)
    | none =>
      rw [after_succ_of_ok hstop, after_succ_of_ok hstop]
      exact ih ((refusedAfter_succ hstop).mp h) (Nat.lt_of_succ_lt_succ hlt)

/-- If the first `fuel` steps do not all succeed, then one of them is refused
    behind others that succeed. -/
theorem exists_refusedAfter {m : Machine M S} {fuel : Nat} {e : IllegalOpcode}
    (h : (m.after fuel).1 = some (.illegal e)) : ∃ n < fuel, m.RefusedAfter n e := by
  induction fuel generalizing m with
  | zero => cases h
  | succ fuel ih =>
    cases hstop : m.step.1 with
    | some stop =>
      rw [after_succ_of_stop hstop] at h
      exact ⟨0, Nat.succ_pos fuel, refusedAfter_zero.mpr h⟩
    | none =>
      rw [after_succ_of_ok hstop] at h
      obtain ⟨n, hlt, hn⟩ := ih h
      exact ⟨n + 1, Nat.succ_lt_succ hlt, (refusedAfter_succ hstop).mpr hn⟩

theorem after_refused_iff (m : Machine M S) (fuel : Nat) (e : IllegalOpcode) :
    (m.after fuel).1 = some (.illegal e) ↔ ∃ n < fuel, m.RefusedAfter n e := by
  refine ⟨exists_refusedAfter, ?_⟩
  rintro ⟨n, hlt, hn⟩
  rw [hn.after hlt]
  exact hn.fails

/-! ## A refused step -/

theorem step_of_isSome {m : Machine M S} (h : m.step.1.isSome) :
    m.step = (some (m.onIllegal.stop m.core.refusal),
      { m with core := m.core.fetched }.note (.illegal m.core.refusal)) := by
  refine step_of_illegal fun hlegal => ?_
  exact (OpcodeEntry.legal_iff _).mp hlegal ((isSome_step_iff m).mp h)

/-- A step that fails has read an undocumented opcode and done nothing else. -/
theorem muted_step_of_isSome {m : Machine M S} (h : m.step.1.isSome) :
    m.step.2.muted = { m.muted with core := m.core.fetched } := by
  rw [step_of_isSome h]
  rfl

/-- Under the policy of reporting it, a step fails by naming that opcode. -/
theorem step_eq_illegal {m : Machine M S} (hpolicy : m.onIllegal = .report)
    (h : m.step.1.isSome) : m.step.1 = some (.illegal m.core.refusal) := by
  have hstop : m.step.1 = some (m.onIllegal.stop m.core.refusal) :=
    congrArg Prod.fst (step_of_isSome h)
  rw [hstop, hpolicy]
  rfl

theorem onIllegal_step (m : Machine M S) : m.step.2.onIllegal = m.onIllegal := by rw [step_snd]

/-- No instruction asks for the end of a run. -/
theorem quit_step (m : Machine M S) : m.step.2.quit = m.quit := by rw [step_snd]

/-- Under that policy nothing but such a failure ends the steps. -/
theorem eq_illegal_of_after {m : Machine M S} (hpolicy : m.onIllegal = .report) {n : Nat}
    {stop : Stop} (h : (m.after n).1 = some stop) : ∃ e, stop = .illegal e := by
  induction n generalizing m with
  | zero => cases h
  | succ n ih =>
    cases hstop : m.step.1 with
    | some stop' =>
      rw [after_succ_of_stop hstop, step_eq_illegal hpolicy (hstop ▸ rfl)] at h
      exact ⟨_, (Option.some.inj h).symm⟩
    | none =>
      rw [after_succ_of_ok hstop] at h
      exact ih (m.onIllegal_step.trans hpolicy) h

/-! ## Runs without a hook -/

/-- With nothing due, no interrupt is taken. -/
theorem pollInterrupt_flat (m : Machine Flat Unit) : m.pollInterrupt = m := by
  cases hi : m.regs.p.i with
  | true => exact pollInterrupt_of_disabled hi
  | false =>
    rw [pollInterrupt_of_enabled hi]
    rfl

/-- The hook gets the machine with a trace line at most. -/
theorem muted_offered (m : Machine Flat Unit) : m.offered.muted = m.muted := by
  rw [offered, pollInterrupt_flat, report_eq Flat.quiet trivial]
  split
  · exact muted_note m m.traceEvent
  · rfl

/-- A turn is a step. -/
theorem turn_eq_step {m : Machine Flat Unit} (h : m.quit = false) :
    (turn Hook.none () m).1 = m.step.1.map .stopped ∧
      (turn Hook.none () m).2.2.muted = m.step.2.muted := by
  obtain ⟨hstop, hmuted⟩ := step_congr_muted m.muted_offered
  rw [turn_of_not_quit h, ← hstop]
  exact ⟨rfl, hmuted⟩

/-- A run that has not been asked to end takes the steps, as many as it may take
    turns, and ends if and when they fail. -/
theorem run_eq_after {m : Machine Flat Unit} (h : m.quit = false) (fuel : Nat) :
    (run Hook.none fuel () m).1 = (m.after fuel).1.map .stopped ∧
      (run Hook.none fuel () m).2.2.muted = (m.after fuel).2.muted := by
  induction fuel generalizing m with
  | zero => exact ⟨rfl, rfl⟩
  | succ fuel ih =>
    obtain ⟨hending, hmuted⟩ := turn_eq_step h
    cases hstop : m.step.1 with
    | some stop =>
      rw [hstop] at hending
      rw [run_of_ended hending, after_succ_of_stop hstop, hstop]
      exact ⟨hending, hmuted⟩
    | none =>
      rw [hstop] at hending
      have hquit : (turn Hook.none () m).2.2.quit = false := by
        have hsame := congrArg Machine.quit hmuted
        exact hsame.trans ((quit_step m).trans h)
      obtain ⟨hsame, hmachine⟩ := after_congr_muted hmuted fuel
      rw [run_of_going_on hending, after_succ_of_ok hstop, ← hsame, ← hmachine]
      exact ih hquit

/-- A run ends with a refusal if the steps do so in time. -/
theorem run_refused_iff {m : Machine Flat Unit} (h : m.quit = false) (fuel : Nat)
    (e : IllegalOpcode) :
    (run Hook.none fuel () m).1 = some (.stopped (.illegal e)) ↔
      ∃ n < fuel, m.RefusedAfter n e := by
  rw [← after_refused_iff, (run_eq_after h fuel).1, Option.map_eq_some_iff]
  constructor
  · rintro ⟨stop, hstop, hsame⟩
    rw [hstop, Ending.stopped.inj hsame]
  · intro hstop
    exact ⟨_, hstop, rfl⟩

/-- The refusal leaves the machine of the run as the steps before it. -/
theorem RefusedAfter.muted_run {m : Machine Flat Unit} {n : Nat} {e : IllegalOpcode}
    (h : m.RefusedAfter n e) (hquit : m.quit = false) {fuel : Nat} (hlt : n < fuel) :
    (run Hook.none fuel () m).2.2.muted = (m.after n).2.muted := by
  rw [(run_eq_after hquit fuel).2, h.after hlt]
  -- the failing step has only read, which changes nothing on flat memory
  exact muted_step_of_isSome (h.fails ▸ rfl)

/-! ## The loop and the step -/

/-- Under the policy of reporting them, undocumented opcodes are refused without
    a trace, and a run is nothing but steps up to the refusal.

    A step fails exactly on an undocumented byte at the program counter.  It
    names the byte and its address, has made no access but the one that read it,
    and leaves the machine as it was, with the bus as that read left it.

    On flat memory, with no source of interrupts and no hook, a run from any
    address never ends by itself.  It ends with a refusal, within so many turns,
    exactly if fewer steps succeed and the next is refused with it, and leaves
    the machine as these steps do.

    A run that has been asked to end before it began does so at once, whatever
    the bus, the source and the hook, and even if the bus keeps a record: only
    the program counter has changed. -/
theorem run_is_repeated_step :
    (∀ {M S : Type} [Bus M] (m : Machine M S), m.onIllegal = .report →
      let b := (Bus.read m.bus m.regs.pc).1
      (m.step.1.isSome ↔ (opcodeEntry b).operation = .illegal) ∧
      ((opcodeEntry b).operation = .illegal →
        m.step.1 = some (.illegal ⟨b, m.regs.pc⟩) ∧
        m.recorded.step.2.bus.log.toList = [.read m.regs.pc b] ∧
        m.step.2.muted =
          { m.muted with core := ⟨m.regs, (Bus.read m.bus m.regs.pc).2⟩ })) ∧
    (∀ (m : Machine Flat Unit) (a : Addr), m.onIllegal = .report → m.quit = false →
      let start := m.onCore (·.goto a)
      ∀ fuel,
        (∀ ending, (runFrom Hook.none fuel () a m).1 = some ending →
          ∃ e, ending = .stopped (.illegal e)) ∧
        (∀ e, (runFrom Hook.none fuel () a m).1 = some (.stopped (.illegal e)) ↔
          ∃ n < fuel, start.RefusedAfter n e) ∧
        (∀ n < fuel, ∀ e, start.RefusedAfter n e →
          (runFrom Hook.none fuel () a m).2.2.muted = (start.after n).2.muted)) ∧
    (∀ {M S H : Type} [Bus M] [InterruptSource S] (hook : Hook H M S) (k : H) (m : Machine M S)
      (a : Addr) (fuel : Nat), m.quit →
        runFrom hook (fuel + 1) k a m =
          (some .quit, k, (m.onCore (·.goto a)).note (.quit a m.regs.cycles))) := by
  refine ⟨?refusal, ?run, ?quit⟩
  case refusal =>
    intro M S _ m hpolicy b
    refine ⟨isSome_step_iff m, fun hillegal => ?_⟩
    have hfails := (isSome_step_iff m).mpr hillegal
    -- the recorded machine reads the same byte and is refused too
    have hrecorded := muted_step_of_isSome ((isSome_step_iff m.recorded).mpr hillegal)
    have hbus : m.recorded.step.2.bus = m.recorded.core.fetched.bus :=
      congrArg (fun n => n.core.bus) hrecorded
    refine ⟨step_eq_illegal hpolicy hfails, ?_, muted_step_of_isSome hfails⟩
    rw [hbus]
    exact m.recorded.bus.adds_read m.regs.pc
  case run =>
    intro m a hpolicy hquit start fuel
    refine ⟨fun ending h => ?_, run_refused_iff (m := start) hquit fuel,
      fun n hlt e hrefused => hrefused.muted_run hquit hlt⟩
    have hending := (run_eq_after (m := start) hquit fuel).1
    obtain ⟨stop, hstop, rfl⟩ := Option.map_eq_some_iff.mp (hending.symm.trans h)
    obtain ⟨e, rfl⟩ := eq_illegal_of_after (m := start) hpolicy hstop
    exact ⟨e, rfl⟩
  case quit =>
    intro M S H _ _ hook k m a fuel hquit
    have hturn : turn hook k (m.onCore (·.goto a)) = _ := turn_of_quit hquit
    exact (run_of_ended (congrArg Prod.fst hturn) fuel).trans hturn

/-- A traced run over `INX` into an undocumented byte: it ends in its second
    turn, with X counted up once, and as many turns as you like do no more.  The
    step that is refused there has read that byte alone.  Asked to end, the
    machine does not even begin. -/
theorem repeated_step_into_refusal :
    let m : Machine Flat Unit :=
      { Machine.powerOn ((Flat.zero.set 0 0xE8).set 1 0x02) () with
        trace := true, journal := .attentive }
    let ran := runFrom Hook.none 2 () 0 m
    ran.1 = some (.stopped (.illegal ⟨0x02, 0x0001⟩)) ∧ ran.2.2.regs.x = 1 ∧
      (runFrom Hook.none 100000 () 0 m).1 = ran.1 ∧
      (m.onCore (·.goto 1)).recorded.step.2.bus.log.toList = [.read 0x0001 0x02] ∧
      (runFrom Hook.none 1 () 7 m.requestEnd).1 = some .quit := by
  intro m ran
  obtain ⟨hrefusal, hrun, hquit⟩ := run_is_repeated_step
  have hrefused : (m.onCore (·.goto 0)).RefusedAfter 1 ⟨0x02, 0x0001⟩ :=
    ⟨by decide +kernel, by decide +kernel⟩
  have hended (fuel : Nat) (hlt : 1 < fuel) :=
    ((hrun m 0 rfl rfl fuel).2.1 ⟨0x02, 0x0001⟩).mpr ⟨1, hlt, hrefused⟩
  have hstate := (hrun m 0 rfl rfl 2).2.2 1 Nat.one_lt_two _ hrefused
  have hbyte : m.bus.get 1 = 0x02 := Flat.get_set_self _ _ _
  refine ⟨hended 2 Nat.one_lt_two, ?_, ?_, ?_, ?_⟩
  · refine (congrArg (fun n => n.regs.x) hstate).trans ?_
    decide +kernel
  · exact (hended 100000 (by omega)).trans (hended 2 Nat.one_lt_two).symm
  · obtain ⟨-, hlog, -⟩ := (hrefusal (m.onCore (·.goto 1)) rfl).2
      (congrArg (fun b => (opcodeEntry b).operation) hbyte)
    rw [hlog]
    exact congrArg (fun b => [Access.read 0x0001 b]) hbyte
  · rw [hquit Hook.none () m.requestEnd 7 0 rfl]

end Machine

end Nmos6502
