/-
  What a self-test reports.

  The hook of a self-test reads memory before each instruction, which leaves
  split memory as it is, and beyond that touches nothing but its own notes and
  the journal.  So the machine under it goes through the states of a machine
  that is only stepped, up to the first trap or the first undocumented opcode,
  and that state is what the report is about.
-/
import Nmos6502.SelfTest
import Nmos6502.Proofs.Continuation
import Nmos6502.Proofs.Quiet
import Nmos6502.Proofs.Run

namespace Nmos6502

/-! ## Images -/

namespace Split

theorem getElem?_wholeImage (image : List Byte) {i : Nat} (h : i < 65536) :
    (wholeImage image)[i]? = some (image[i]?.getD 0) := by
  rw [wholeImage, List.getElem?_append, List.length_take]
  by_cases hi : i < image.length
  · rw [if_pos (by omega), List.getElem?_take_of_lt h, List.getElem?_eq_getElem hi,
      Option.getD_some]
  · rw [if_neg (by omega), List.getElem?_replicate, if_pos (by omega),
      List.getElem?_eq_none (by omega), Option.getD_none]

/-- An image is in memory byte by byte, followed by zeros. -/
theorem get_ofImage (image : List Byte) (a : Addr) :
    (ofImage image).get a = image[a.toNat]?.getD 0 := by
  have ha : a.toNat < 65536 := a.isLt
  unfold get
  split
  · next hlow =>
    have hlow : a.toNat < 32768 := hlow
    have hcell : ((wholeImage image).take 32768)[a.toNat]? = some (image[a.toNat]?.getD 0) := by
      rw [List.getElem?_take_of_lt hlow, getElem?_wholeImage image ha]
    simp only [ofImage, Ram.get, Ram.ofBytes, Array.getD_eq_getD_getElem?, List.getElem?_toArray]
    rw [List.getElem?_take_of_lt (by omega), hcell, Option.getD_some]
  · next hhigh =>
    have hhigh : ¬ a.toNat < 32768 := hhigh
    have hoffset : (a - romBase).toNat = a.toNat - 32768 := by
      have hbase : romBase.toNat = 32768 := rfl
      rw [BitVec.toNat_sub_of_le (by rw [BitVec.le_def]; omega), hbase]
    have hcell : ((wholeImage image).drop 32768)[a.toNat - 32768]? =
        some (image[a.toNat]?.getD 0) := by
      rw [List.getElem?_drop, Nat.add_sub_cancel' (by omega), getElem?_wholeImage image ha]
    simp only [ofImage, Rom.get, Rom.ofBytes, Array.getD_eq_getD_getElem?, List.getElem?_toArray]
    rw [hoffset, List.getElem?_take_of_lt (by omega), hcell, Option.getD_some]

end Split

namespace SelfTest

open Machine

/-! ## Traps -/

/-- What a processor that is about to execute a trap has to report: the branch
    on itself that is taken, or the jump on itself or back to the start. -/
def trap? (p : Processor Split) : Option Outcome :=
  let pc := p.regs.pc
  let opcode := p.bus.get pc
  let lo := p.bus.get (pc + 1)
  let hi := p.bus.get (pc + 2)
  if opcode = 0xD0 ∧ p.regs.p.z = false ∧ lo = 0xFE then
    some (.failed (p.bus.get numberCell) pc)
  else if opcode = 0x4C ∧ (word lo hi = pc ∨ word lo hi = entry) then
    some (.passed pc)
  else none

theorem trap?_ne_running (p : Processor Split) : trap? p ≠ some .running := by
  unfold trap?
  dsimp only
  split
  · exact nofun
  · split
    · exact nofun
    · exact nofun

theorem nextEntry_eq (p : Processor Split) : p.nextEntry = opcodeEntry (p.bus.get p.regs.pc) := by
  rw [Processor.nextEntry, Split.read_eq]

/-- The opcodes of traps are documented. -/
theorem trap?_of_undocumented {p : Processor Split} (h : ¬ p.nextEntry.legal) : trap? p = none := by
  rw [nextEntry_eq] at h
  have hbranch : p.bus.get p.regs.pc ≠ 0xD0 := fun hopcode => h (by rw [hopcode]; decide)
  have hjump : p.bus.get p.regs.pc ≠ 0x4C := fun hopcode => h (by rw [hopcode]; decide)
  unfold trap?
  dsimp only
  rw [if_neg fun htrap => hbranch htrap.1, if_neg fun htrap => hjump htrap.1]

/-- The first `n` steps succeed, and none of them begins in a trap. -/
structure Clear (m : Machine Split Unit) (n : Nat) : Prop where
  succeeds : (m.after n).1 = none
  untrapped : ∀ k < n, trap? (m.after k).2.core = none

theorem clear_zero (m : Machine Split Unit) : Clear m 0 := ⟨rfl, nofun⟩

theorem clear_succ_iff {m : Machine Split Unit} {n : Nat} :
    Clear m (n + 1) ↔ trap? m.core = none ∧ m.step.1 = none ∧ Clear m.step.2 n := by
  constructor
  · intro h
    have hok : m.step.1 = none := by
      cases hstop : m.step.1 with
      | none => rfl
      | some stop =>
        have hsucceeds := h.succeeds
        rw [after_succ_of_stop hstop, hstop] at hsucceeds
        cases hsucceeds
    refine ⟨h.untrapped 0 n.succ_pos, hok, ?_, fun k hk => ?_⟩
    · rw [← after_succ_of_ok hok]
      exact h.succeeds
    · rw [← after_succ_of_ok hok]
      exact h.untrapped (k + 1) (Nat.succ_lt_succ hk)
  · rintro ⟨htrap, hok, h⟩
    refine ⟨?_, fun k hk => ?_⟩
    · rw [after_succ_of_ok hok]
      exact h.succeeds
    · cases k with
      | zero => exact htrap
      | succ k =>
        rw [after_succ_of_ok hok]
        exact h.untrapped k (Nat.lt_of_succ_lt_succ hk)

theorem Clear.eq_zero_of_trap {m : Machine Split Unit} {n : Nat} {outcome : Outcome}
    (h : Clear m n) (htrap : trap? m.core = some outcome) : n = 0 := by
  cases n with
  | zero => rfl
  | succ n =>
    rw [(clear_succ_iff.mp h).1] at htrap
    cases htrap

theorem Clear.eq_zero_of_undocumented {m : Machine Split Unit} {n : Nat} (h : Clear m n)
    (hlegal : ¬ m.core.nextEntry.legal) : n = 0 := by
  cases n with
  | zero => rfl
  | succ n =>
    have hok := (clear_succ_iff.mp h).2.1
    rw [Machine.step_of_illegal hlegal] at hok
    cases hok

theorem Clear.of_agree {m m' : Machine Split Unit} (h : Agree m m') {n : Nat} (hclear : Clear m n) :
    Clear m' n where
  succeeds := (h.after n).1 ▸ hclear.succeeds
  untrapped k hk := (h.after k).2.core ▸ hclear.untrapped k hk

/-! ## One offer to the hook -/

/-- Nobody concerns the machine but the hook and the program. -/
structure Unattended (m : Machine Split Unit) : Prop where
  quit : m.quit = false
  trace : m.trace = false
  singleStep : m.singleStep = false
  policy : m.onIllegal = .report

/-- The program is under way: the hook has started it and found no end of it. -/
structure Watching (w : Watcher) (m : Machine Split Unit) : Prop extends Unattended m where
  begun : w.begun
  running : w.outcome = .running

theorem coreRead_eq (p : Processor Split) (a : Addr) : p.read a = (p.bus.get a, p) := by
  rw [Processor.read, Split.read_eq]

theorem read_eq {S : Type} (m : Machine Split S) (a : Addr) : m.read a = (m.bus.get a, m) := by
  unfold Machine.read askCore
  dsimp only
  rw [coreRead_eq]

theorem fetched_eq (p : Processor Split) : p.fetched = p := by
  rw [Processor.fetched, coreRead_eq]

namespace Watcher

theorem isFailureTrap_iff (opcode lo : Byte) (z : Bool) :
    isFailureTrap opcode lo z ↔ opcode = 0xD0 ∧ z = false ∧ lo = 0xFE := by
  simp [isFailureTrap, and_assoc]

theorem isSuccessTrap_iff (pc : Addr) (opcode lo hi : Byte) :
    isSuccessTrap pc opcode lo hi ↔ opcode = 0x4C ∧ (word lo hi = pc ∨ word lo hi = entry) := by
  simp [isSuccessTrap]

variable {S : Type} {w : Watcher} {m : Machine Split S}

/-- In a trap the hook writes down the outcome and asks for the end of the run. -/
theorem inspect_of_trap {outcome : Outcome} (h : trap? m.core = some outcome) :
    ∃ e, w.inspect m = w.conclude m outcome e := by
  -- reading leaves the machine as it is, so the hook tests what `trap?` tests
  simp only [trap?, ← isFailureTrap_iff, ← isSuccessTrap_iff] at h
  simp only [inspect, read_eq]
  split at h
  · next hfail =>
    cases h
    exact ⟨_, if_pos hfail⟩
  · next hfail =>
    split at h
    · next hpass =>
      cases h
      exact ⟨_, (if_neg hfail).trans (if_pos hpass)⟩
    · cases h

/-- Elsewhere it declines, and only its notes and the journal may have changed. -/
theorem inspect_of_untrapped (h : trap? m.core = none) :
    ∃ w' journal, w.inspect m = (.declined, w', { m with journal }) ∧ w'.begun = w.begun ∧
      w'.outcome = w.outcome := by
  simp only [trap?, ← isFailureTrap_iff, ← isSuccessTrap_iff] at h
  simp only [inspect, read_eq]
  split at h
  · cases h
  · next hfail =>
    split at h
    · cases h
    · next hpass =>
      rw [if_neg hfail, if_neg hpass]
      split
      · exact ⟨w, m.journal, rfl, rfl, rfl⟩
      · exact ⟨_, _, rfl, rfl, rfl⟩

end Watcher

/-! ## Turns under the hook -/

/-- The hook gets the machine as it is: nothing interrupts, and nothing is reported. -/
theorem Unattended.offered {m : Machine Split Unit} (h : Unattended m) : m.offered = m := by
  have hpoll : m.pollInterrupt = m := by
    cases hi : m.regs.p.i with
    | true => exact pollInterrupt_of_disabled hi
    | false => exact pollInterrupt_of_enabled hi
  rw [Machine.offered, hpoll, Machine.report, h.trace, h.singleStep]
  rfl

/-- The first turn starts the program. -/
theorem turn_fresh {m : Machine Split Unit} (h : Unattended m) :
    turn Watcher.watch .fresh m =
      (none, { Watcher.fresh with begun := true }, (m.onCore (·.goto entry)).note .testBegins) := by
  rw [turn_of_not_quit h.quit, h.offered]
  rfl

namespace Watching

variable {w : Watcher} {m : Machine Split Unit}

theorem turn_eq (h : Watching w m) : turn Watcher.watch w m = settle (w.inspect m) := by
  have hwatch : Watcher.watch w m = w.inspect m := if_pos h.begun
  rw [turn_of_not_quit h.quit, h.toUnattended.offered, hwatch]

/-- In a trap the turn notes the outcome and leaves a machine that is to end. -/
theorem turn_of_trap (h : Watching w m) {outcome : Outcome} (htrap : trap? m.core = some outcome) :
    ∃ m', turn Watcher.watch w m = (none, { w with outcome }, m') ∧ m'.quit ∧ m'.core = m.core := by
  obtain ⟨e, hinspect⟩ := w.inspect_of_trap htrap
  refine ⟨(m.note e).requestEnd, ?_, rfl, rfl⟩
  rw [h.turn_eq, hinspect]
  rfl

/-- At an undocumented opcode the turn ends the run. -/
theorem turn_of_undocumented (h : Watching w m) (hlegal : ¬ m.core.nextEntry.legal) :
    ∃ w' m', turn Watcher.watch w m = (some (.stopped (.illegal m.core.refusal)), w', m') ∧
      w'.outcome = .running ∧ m'.core = m.core := by
  obtain ⟨w', journal, hinspect, -, houtcome⟩ :=
    w.inspect_of_untrapped (trap?_of_undocumented hlegal)
  have hstep := Machine.step_of_illegal (m := { m with journal }) hlegal
  refine ⟨w', (Machine.step { m with journal }).2, ?_, houtcome.trans h.running, ?_⟩
  · rw [h.turn_eq, hinspect, settle, hstep, h.policy]
    rfl
  · rw [hstep]
    exact fetched_eq m.core

/-- Elsewhere the machine does its step. -/
theorem turn_of_untrapped (h : Watching w m) (htrap : trap? m.core = none)
    (hlegal : m.core.nextEntry.legal) :
    ∃ w' m', turn Watcher.watch w m = (none, w', m') ∧ Watching w' m' ∧ Agree m.step.2 m' := by
  obtain ⟨w', journal, hinspect, hbegun, houtcome⟩ := w.inspect_of_untrapped htrap
  have hstep := Machine.step_of_legal (m := { m with journal }) hlegal
  refine ⟨w', (Machine.step { m with journal }).2, ?_, ?_, ?_⟩
  · rw [h.turn_eq, hinspect, settle, hstep]
    rfl
  · rw [hstep]
    exact ⟨⟨h.quit, h.trace, h.singleStep, h.policy⟩, hbegun.trans h.begun,
      houtcome.trans h.running⟩
  · have hagree : Agree m { m with journal } := ⟨rfl, rfl⟩
    exact hagree.step.2

end Watching

/-! ## Runs under the hook -/

/-- What is to be reported of a program that begins in `m`, when at most `fuel`
    turns may be taken. -/
structure Reported (m : Machine Split Unit) (fuel : Nat) (ending : Option Ending)
    (outcome : Outcome) (core : Processor Split) : Prop where
  /-- The first trap is reported, in the turn after the one that meets it. -/
  trapped : ∀ n found, Clear m n → trap? (m.after n).2.core = some found → n + 2 ≤ fuel →
    ending = some .quit ∧ outcome = found ∧ core = (m.after n).2.core
  /-- An undocumented opcode before any trap is reported at once. -/
  refused : ∀ n, Clear m n → ¬ (m.after n).2.core.nextEntry.legal → n + 1 ≤ fuel →
    ending = some (.stopped (.illegal (m.after n).2.core.refusal)) ∧ outcome = .running ∧
      core = (m.after n).2.core
  /-- Nothing else ends the program. -/
  quit : ending = some .quit →
    ∃ n, n + 2 ≤ fuel ∧ Clear m n ∧ trap? (m.after n).2.core = some outcome
  stopped : ∀ stop, ending = some (.stopped stop) →
    ∃ n, n + 1 ≤ fuel ∧ Clear m n ∧ ¬ (m.after n).2.core.nextEntry.legal

section

variable {m : Machine Split Unit} {fuel : Nat} {ending : Option Ending} {outcome : Outcome}
  {core : Processor Split}

theorem legal_of_trap (h : trap? m.core = some outcome) : m.core.nextEntry.legal := by
  refine Decidable.of_not_not fun hlegal => ?_
  rw [trap?_of_undocumented hlegal] at h
  cases h

/-- In a trap two turns are needed: one to meet it and one to end. -/
theorem Reported.of_trap_met (htrap : trap? m.core = some outcome) :
    Reported m 1 none outcome core where
  trapped n _ _ _ hfuel := by omega
  refused n hclear hrefused _ := by
    obtain rfl := hclear.eq_zero_of_trap htrap
    exact absurd (legal_of_trap htrap) hrefused
  quit := nofun
  stopped := nofun

theorem Reported.of_trap (htrap : trap? m.core = some outcome) :
    Reported m (fuel + 2) (some .quit) outcome m.core where
  trapped n found hclear hfound _ := by
    obtain rfl := hclear.eq_zero_of_trap htrap
    exact ⟨rfl, Option.some.inj (htrap.symm.trans hfound), rfl⟩
  refused n hclear hrefused _ := by
    obtain rfl := hclear.eq_zero_of_trap htrap
    exact absurd (legal_of_trap htrap) hrefused
  quit _ := ⟨0, by omega, clear_zero m, htrap⟩
  stopped := nofun

theorem Reported.of_undocumented (hlegal : ¬ m.core.nextEntry.legal) :
    Reported m (fuel + 1) (some (.stopped (.illegal m.core.refusal))) .running m.core where
  trapped n found hclear hfound _ := by
    obtain rfl := hclear.eq_zero_of_undocumented hlegal
    exact absurd (legal_of_trap hfound) hlegal
  refused n hclear _ _ := by
    obtain rfl := hclear.eq_zero_of_undocumented hlegal
    exact ⟨rfl, rfl, rfl⟩
  quit := nofun
  stopped _ _ := ⟨0, by omega, clear_zero m, hlegal⟩

/-- Machines that agree have the same to report. -/
theorem Reported.of_agree {m' : Machine Split Unit} (hagree : Agree m m')
    (h : Reported m' fuel ending outcome core) : Reported m fuel ending outcome core := by
  have hstate (n : Nat) : (m.after n).2.core = (m'.after n).2.core := (hagree.after n).2.core
  constructor
  case trapped =>
    intro n found hn hfound hfuel
    rw [hstate] at hfound ⊢
    exact h.trapped n found (hn.of_agree hagree) hfound hfuel
  case refused =>
    intro n hn hrefused hfuel
    rw [hstate] at hrefused ⊢
    exact h.refused n (hn.of_agree hagree) hrefused hfuel
  case quit =>
    intro hending
    obtain ⟨n, hfuel, hn, hfound⟩ := h.quit hending
    exact ⟨n, hfuel, hn.of_agree hagree.symm, (hstate n) ▸ hfound⟩
  case stopped =>
    intro stop hending
    obtain ⟨n, hfuel, hn, hrefused⟩ := h.stopped stop hending
    exact ⟨n, hfuel, hn.of_agree hagree.symm, (hstate n) ▸ hrefused⟩

/-- A step that begins outside a trap takes one turn. -/
theorem Reported.of_step (htrap : trap? m.core = none) (hlegal : m.core.nextEntry.legal)
    (h : Reported m.step.2 fuel ending outcome core) :
    Reported m (fuel + 1) ending outcome core := by
  have hok : m.step.1 = none := by rw [Machine.step_of_legal hlegal]
  have hclear {n : Nat} (hn : Clear m.step.2 n) : Clear m (n + 1) :=
    clear_succ_iff.mpr ⟨htrap, hok, hn⟩
  constructor
  case trapped =>
    rintro (_ | n) found hn hfound hfuel
    · exact absurd (htrap.symm.trans hfound) nofun
    · rw [after_succ_of_ok hok] at hfound ⊢
      exact h.trapped n found (clear_succ_iff.mp hn).2.2 hfound (by omega)
  case refused =>
    rintro (_ | n) hn hrefused hfuel
    · exact absurd hlegal hrefused
    · rw [after_succ_of_ok hok] at hrefused ⊢
      exact h.refused n (clear_succ_iff.mp hn).2.2 hrefused (by omega)
  case quit =>
    intro hending
    obtain ⟨n, hfuel, hn, hfound⟩ := h.quit hending
    exact ⟨n + 1, by omega, hclear hn, (after_succ_of_ok hok n) ▸ hfound⟩
  case stopped =>
    intro stop hending
    obtain ⟨n, hfuel, hn, hrefused⟩ := h.stopped stop hending
    exact ⟨n + 1, by omega, hclear hn, (after_succ_of_ok hok n) ▸ hrefused⟩

end

/-- Whatever turns are left, the run under the hook reports what it has to. -/
theorem Watching.reported (fuel : Nat) {w : Watcher} {m : Machine Split Unit}
    (h : Watching w m) :
    Reported m fuel (Machine.run Watcher.watch fuel w m).1
      (Machine.run Watcher.watch fuel w m).2.1.outcome
      (Machine.run Watcher.watch fuel w m).2.2.core := by
  induction fuel generalizing w m with
  | zero => exact ⟨fun n _ _ _ hn => by omega, fun n _ _ hn => by omega, nofun, nofun⟩
  | succ fuel ih =>
    -- a turn is a step of the program, or the beginning of one of the two ends
    by_cases hlegal : m.core.nextEntry.legal
    · cases htrap : trap? m.core with
      | none =>
        obtain ⟨w', m', hturn, hwatching, hagree⟩ := h.turn_of_untrapped htrap hlegal
        rw [run_of_going_on (congrArg (·.1) hturn), hturn]
        exact ((ih hwatching).of_agree hagree).of_step htrap hlegal
      | some outcome =>
        obtain ⟨m', hturn, hquit, hcore⟩ := h.turn_of_trap htrap
        rw [run_of_going_on (congrArg (·.1) hturn), hturn]
        -- the request to end is seen in the next turn, if there is one
        cases fuel with
        | zero => exact .of_trap_met htrap
        | succ fuel =>
          have hend : turn Watcher.watch { w with outcome } m' = _ := turn_of_quit hquit
          rw [run_of_ended (congrArg (·.1) hend), hend, Machine.note, hcore]
          exact .of_trap htrap
    · obtain ⟨w', m', hturn, houtcome, hcore⟩ := h.turn_of_undocumented hlegal
      rw [run_of_ended (congrArg (·.1) hturn), hturn, houtcome, hcore]
      exact .of_undocumented hlegal

/-! ## The report -/

/-- The machine that a self-test is about: just constructed, with the image in
    memory, about to execute the instruction at the entry. -/
def start (image : List Byte) : Machine Split Unit :=
  (Machine.powerOn (.ofImage image) ()).onCore (·.goto entry)

/-- The reset vector does not matter. -/
theorem goto_reset (p : Processor Split) (a : Addr) : p.reset.goto a = p.goto a := by
  have hbus : (Bus.wordAt p.bus resetVector).2 = p.bus := Split.quiet.wordAt trivial _
  unfold Processor.reset Processor.gotoVector
  dsimp only
  rw [hbus]
  rfl

/-- The closing event of a self-test changes the journal only. -/
theorem core_run (fuel : Nat) (image : List Byte) (journal : Journal) :
    (run fuel image journal).machine.core =
      (resetRun Watcher.watch fuel .fresh
        { Machine.powerOn (.ofImage image) () with journal }).2.2.core := by
  unfold run
  dsimp only
  split
  · rfl
  · rfl

/-- After the first turn the program is under way, with the machine as it is
    at the start. -/
theorem run_succ (fuel : Nat) (image : List Byte) (journal : Journal) :
    ∃ w m, Watching w m ∧ Agree (start image) m ∧
      (run (fuel + 1) image journal).ending = (Machine.run Watcher.watch fuel w m).1 ∧
      (run (fuel + 1) image journal).outcome =
        (Machine.run Watcher.watch fuel w m).2.1.outcome ∧
      (run (fuel + 1) image journal).machine.core =
        (Machine.run Watcher.watch fuel w m).2.2.core := by
  let m : Machine Split Unit := { Machine.powerOn (.ofImage image) () with journal }
  have hturn := turn_fresh (m := m.reset) ⟨rfl, rfl, rfl, rfl⟩
  refine ⟨{ Watcher.fresh with begun := true }, (m.reset.onCore (·.goto entry)).note .testBegins,
    ⟨⟨rfl, rfl, rfl, rfl⟩, rfl, rfl⟩, ⟨(goto_reset m.core entry).symm, rfl⟩, ?_⟩
  have hrun := run_of_going_on (congrArg (·.1) hturn) fuel
  rw [hturn] at hrun
  rw [← hrun]
  exact ⟨rfl, rfl, core_run _ _ _⟩

/-- A self-test reports the first trap of the program.  If the machine that is
    only stepped comes to a trap, and no earlier step fails or begins in one,
    then the run ends, given the turns for it, with the outcome of that trap and
    with the registers, the memory and the cycles of that moment.  If it comes
    to an undocumented opcode first, that is what the run ends with, and the
    outcome stays open.  Nothing else ends a run; in particular one that ends
    by request has an outcome. -/
theorem run_reports_first_trap (fuel : Nat) (image : List Byte) (journal : Journal) :
    let report := run fuel image journal
    let state n := ((start image).after n).2.core
    (∀ n outcome, Clear (start image) n → trap? (state n) = some outcome → n + 3 ≤ fuel →
        report.ending = some .quit ∧ report.outcome = outcome ∧
          report.machine.core = state n) ∧
      (∀ n, Clear (start image) n → ¬ (state n).nextEntry.legal → n + 2 ≤ fuel →
        report.ending = some (.stopped (.illegal (state n).refusal)) ∧
          report.outcome = .running ∧ report.machine.core = state n) ∧
      (report.ending = some .quit → report.outcome ≠ .running ∧
        ∃ n, n + 3 ≤ fuel ∧ Clear (start image) n ∧ trap? (state n) = some report.outcome) ∧
      (∀ stop, report.ending = some (.stopped stop) →
        ∃ n, n + 2 ≤ fuel ∧ Clear (start image) n ∧ ¬ (state n).nextEntry.legal) := by
  intro report state
  cases fuel with
  | zero =>
    have hending : report.ending = none := rfl
    rw [hending]
    exact ⟨fun n _ _ _ hn => by omega, fun n _ _ hn => by omega, nofun, nofun⟩
  | succ fuel =>
    obtain ⟨w, m, hwatching, hagree, hending, houtcome, hcore⟩ := run_succ fuel image journal
    have hreported := (hwatching.reported fuel).of_agree hagree
    rw [← hending, ← houtcome, ← hcore] at hreported
    refine ⟨fun n outcome hn htrap hfuel => hreported.trapped n outcome hn htrap (by omega),
      fun n hn hrefused hfuel => hreported.refused n hn hrefused (by omega),
      fun hquit => ?_, fun stop hstop => ?_⟩
    · obtain ⟨n, hfuel, hn, htrap⟩ := hreported.quit hquit
      exact ⟨fun hrunning => trap?_ne_running _ (hrunning ▸ htrap), n, by omega, hn, htrap⟩
    · obtain ⟨n, hfuel, hn, hrefused⟩ := hreported.stopped stop hstop
      exact ⟨n, by omega, hn, hrefused⟩

/-- An instruction that does nothing and a jump on itself behind it: the trap is
    found after one step. -/
theorem first_trap_behind_one_step :
    let image := List.replicate 1024 0 ++ [0xEA, 0x4C, 0x01, 0x04]
    (run 4 image .silent).ending = some .quit ∧
      (run 4 image .silent).outcome = .passed 0x0401 ∧
      (run 4 image .silent).machine.regs.cycles = 2 := by
  intro image
  let p := (start image).core
  have hbyte (a : Addr) : p.bus.get a = image[a.toNat]?.getD 0 := Split.get_ofImage image a
  have hentry : p.nextEntry = opcodeEntry 0xEA := by
    rw [Processor.nextEntry, Split.read_eq, hbyte]
    decide +kernel
  have hlegal : p.nextEntry.legal := by
    rw [hentry]
    decide
  have hstep : p.step.2 = ⟨{ p.regs with pc := 0x0401, cycles := 2 }, p.bus⟩ := by
    rw [Processor.step_of_legal hlegal, Processor.poised, Processor.operandPlace, hentry,
      fetched_eq]
    rfl
  have hafter : (start image).after 1 = (none, { start image with core := p.step.2 }) := by
    rw [after_succ_of_ok (by rw [Machine.step_of_legal hlegal]), Machine.step_of_legal hlegal]
    rfl
  have hclear : Clear (start image) 1 := by
    refine clear_succ_iff.mpr ⟨?_, by rw [Machine.step_of_legal hlegal], clear_zero _⟩
    show trap? p = none
    simp only [trap?, hbyte]
    decide +kernel
  have htrap : trap? ((start image).after 1).2.core = some (.passed 0x0401) := by
    rw [hafter, hstep]
    simp only [trap?, hbyte]
    decide +kernel
  obtain ⟨htrapped, -, -, -⟩ := run_reports_first_trap 4 image .silent
  obtain ⟨hending, houtcome, hcore⟩ := htrapped 1 _ hclear htrap (by decide)
  refine ⟨hending, houtcome, ?_⟩
  dsimp only at hcore
  rw [Machine.regs, hcore, hafter, hstep]

end SelfTest

end Nmos6502
