/-
  What a self-test announces while it runs.

  The hook compares the number of the group under test with the number that it
  announced last, and only where it lets the program go on: a call that starts
  the program or finds its end reports just that.  So the announcements of a run
  are the history of that number.  The machine writes in the same journal, but
  nothing that could be taken for an announcement.
-/
import Mathlib.Data.List.Destutter
import Nmos6502.Proofs.SelfTest
import Nmos6502.Proofs.Tracing

namespace Nmos6502

/-! ## Announcements in a journal -/

namespace Event

/-- Whether it is the machine that reports the event, and not a self-test, a
    snapshot or a router. -/
def ofMachine : Event → Bool
  | .reset .. | .irq .. | .nmi .. | .quit .. | .illegal .. | .trace .. => true
  | _ => false

/-- The place and the number of the group of tests that the event announces, if it
    announces one. -/
def announced? : Event → Option (Addr × Byte)
  | .testRuns pc test => some (pc, test)
  | _ => none

theorem announced?_of_ofMachine {e : Event} (h : e.ofMachine) : e.announced? = none := by
  cases e with
  | testRuns => cases h
  | _ => rfl

end Event

namespace Journal

/-- The announcements of a journal, oldest first. -/
def announcements (j : Journal) : List (Addr × Byte) := j.events.toList.filterMap Event.announced?

/-- The messages of these announcements. -/
def announcementTexts (j : Journal) : List String :=
  (j.events.toList.filter fun e => e.announced?.isSome).map Event.message

theorem announcementTexts_eq (j : Journal) :
    j.announcementTexts = j.announcements.map fun found =>
      Hex.ofAddr found.1 ++ " starting test " ++ Hex.ofByte found.2 := by
  rw [announcementTexts, announcements]
  induction j.events.toList with
  | nil => rfl
  | cons e es ih =>
    cases e with
    | testRuns pc test => exact congrArg (_ :: ·) ih
    | _ => exact ih

variable {j j' j'' : Journal} {e : Event}

/-- Takes events in, one after the other. -/
def noteAll (j : Journal) (es : List Event) : Journal := es.foldl note j

theorem listening_noteAll (j : Journal) (es : List Event) :
    (j.noteAll es).listening = j.listening := by
  induction es generalizing j with
  | nil => rfl
  | cons e es ih => exact (ih (j.note e)).trans (j.listening_note e)

theorem toList_noteAll (h : j.listening) (es : List Event) :
    (j.noteAll es).events.toList = j.events.toList ++ es := by
  induction es generalizing j with
  | nil => exact (List.append_nil _).symm
  | cons e es ih =>
    have hnote : (j.note e).events.toList = j.events.toList ++ [e] := by
      rw [note, if_pos h, Array.toList_push]
    have hlistening : (j.note e).listening := by
      rw [listening_note]
      exact h
    exact (ih hlistening).trans (by rw [hnote, List.append_assoc, List.singleton_append])

theorem announcements_noteAll (h : j.listening) (es : List Event) :
    (j.noteAll es).announcements = j.announcements ++ es.filterMap Event.announced? := by
  rw [announcements, toList_noteAll h, List.filterMap_append, announcements]

theorem announcements_note_of_none (h : j.listening) (he : e.announced? = none) :
    (j.note e).announcements = j.announcements := by
  have hnone : [e].filterMap Event.announced? = [] := by rw [List.filterMap_cons_none he]; rfl
  have hnote := announcements_noteAll h [e]
  rw [hnone, List.append_nil] at hnote
  exact hnote

/-- Between the two journals the machine has noted events, and nobody else has. -/
inductive Grows : Journal → Journal → Prop
  | refl {j : Journal} : Grows j j
  | note {j j' : Journal} {e : Event} (h : Grows j j') (he : e.ofMachine) : Grows j (j'.note e)

theorem Grows.trans (h : Grows j j') (h' : Grows j' j'') : Grows j j'' := by
  induction h' with
  | refl => exact h
  | note _ he ih => exact ih.note he

theorem Grows.listening (h : Grows j j') : j'.listening = j.listening := by
  induction h with
  | refl => rfl
  | note _ _ ih => rw [listening_note, ih]

theorem Grows.announcements (h : Grows j j') (hj : j.listening) :
    j'.announcements = j.announcements := by
  induction h with
  | refl => rfl
  | note h he ih =>
    rw [announcements_note_of_none (h.listening ▸ hj) (Event.announced?_of_ofMachine he), ih]

end Journal

/-! ## What the machine notes -/

namespace Machine

open Journal (Grows)

variable {M S H : Type} [Bus M]

theorem grows_step (m : Machine M S) : Grows m.journal m.step.2.journal := by
  by_cases h : m.core.nextEntry.legal
  · rw [step_of_legal h]
    exact .refl
  · rw [step_of_illegal h]
    exact .note .refl rfl

theorem grows_report (m : Machine M S) : Grows m.journal m.report.journal := by
  unfold report
  split
  · exact .note .refl rfl
  · exact .refl

theorem grows_settle (x : Verdict × H × Machine M S) :
    Grows x.2.2.journal (settle x).2.2.journal := by
  obtain ⟨verdict, k, m⟩ := x
  cases verdict with
  | handled | exit => exact .refl
  | declined => exact grows_step m

/-- What the hook remembers is left to it. -/
theorem memory_settle (x : Verdict × H × Machine M S) : (settle x).2.1 = x.2.1 := by
  obtain ⟨verdict, k, m⟩ := x
  cases verdict with
  | handled | exit | declined => rfl

variable [InterruptSource S]

theorem grows_pollInterrupt (m : Machine M S) : Grows m.journal m.pollInterrupt.journal := by
  cases hi : m.regs.p.i with
  | true =>
    rw [pollInterrupt_of_disabled hi]
    exact .refl
  | false =>
    rw [pollInterrupt_of_enabled hi]
    split
    · rw [irq_of_enabled (m := m.polled) hi]
      exact .note .refl rfl
    · exact .refl

theorem grows_offered (m : Machine M S) : Grows m.journal m.offered.journal :=
  m.grows_pollInterrupt.trans m.pollInterrupt.grows_report

end Machine

namespace SelfTest

open Machine

/-! ## Stretches of equal numbers -/

/-- The observations with which a stretch of equal numbers begins: each whose
    number is not that of the observation before it.  What counts as the number
    before the first is given. -/
def changes (last : Option Byte) (seen : List (Addr × Byte)) : List (Addr × Byte) :=
  ((seen.zip (last :: seen.map (some ·.2))).filter fun pair => pair.2 ≠ some pair.1.2).map (·.1)

theorem changes_cons (last : Option Byte) (now : Addr × Byte) (seen : List (Addr × Byte)) :
    changes last (now :: seen) =
      (if last = some now.2 then [] else [now]) ++ changes (some now.2) seen := by
  rw [changes, List.map_cons, List.zip_cons_cons]
  by_cases h : last = some now.2
  · rw [if_pos h, List.filter_cons_of_neg (by simp [h])]
    rfl
  · rw [if_neg h, List.filter_cons_of_pos (by simp [h])]
    rfl

theorem cons_map_snd_changes (last : Byte) (seen : List (Addr × Byte)) :
    last :: (changes (some last) seen).map (·.2) =
      (seen.map (·.2)).destutter' (· ≠ ·) last := by
  induction seen generalizing last with
  | nil => rfl
  | cons now seen ih =>
    rw [changes_cons, List.map_cons]
    by_cases h : last = now.2
    · subst h
      rw [if_pos rfl, List.destutter'_cons_neg _ (not_not.mpr rfl), ← ih]
      rfl
    · have hnew : ¬ some last = some now.2 := fun he => h (Option.some.inj he)
      rw [if_neg hnew, List.destutter'_cons_pos _ h, ← ih]
      rfl

/-- Their numbers are the numbers observed, without those that only repeat the one
    before them. -/
theorem map_snd_changes (last : Option Byte) (seen : List (Addr × Byte)) :
    last.toList ++ (changes last seen).map (·.2) =
      (last.toList ++ seen.map (·.2)).destutter (· ≠ ·) := by
  cases last with
  | some last => exact cons_map_snd_changes last seen
  | none =>
    cases seen with
    | nil => rfl
    | cons now seen =>
      rw [changes_cons, if_neg nofun]
      exact cons_map_snd_changes now.2 seen

/-! ## One call of the hook -/

/-- What is reported of the end of a self-test. -/
def Outcome.verdict : Outcome → List Event
  | .running => []
  | .passed pc => [.testPasses pc]
  | .failed test pc => [.testFails pc test]

/-- A verdict announces nothing. -/
theorem Outcome.filterMap_verdict (outcome : Outcome) :
    outcome.verdict.filterMap Event.announced? = [] := by
  cases outcome with
  | running | passed | failed => rfl

section

variable {S : Type}

namespace Watcher

variable {w : Watcher} {m : Machine Split S}

/-- In a trap the hook concludes with the verdict. -/
theorem inspect_eq_conclude {outcome : Outcome} (h : trap? m.core = some outcome) :
    ∃ e, outcome.verdict = [e] ∧ w.inspect m = w.conclude m outcome e := by
  -- reading leaves the machine as it is, so the hook tests what `trap?` tests
  simp only [trap?, ← isFailureTrap_iff, ← isSuccessTrap_iff] at h
  simp only [inspect, read_eq]
  split at h
  · next hfail =>
    cases h
    exact ⟨_, rfl, if_pos hfail⟩
  · next hfail =>
    split at h
    · next hpass =>
      cases h
      exact ⟨_, rfl, (if_neg hfail).trans (if_pos hpass)⟩
    · cases h

/-- Elsewhere it compares the number of the group with the one announced last. -/
theorem inspect_eq_announce (h : trap? m.core = none) :
    w.inspect m =
      if w.announced = some (m.bus.get numberCell) then (.declined, w, m)
      else (.declined, { w with announced := some (m.bus.get numberCell) },
        m.note (.testRuns m.regs.pc (m.bus.get numberCell))) := by
  simp only [trap?, ← isFailureTrap_iff, ← isSuccessTrap_iff] at h
  simp only [inspect, read_eq]
  split at h
  · cases h
  · next hfail =>
    split at h
    · cases h
    · next hpass => exact (if_neg hfail).trans (if_neg hpass)

end Watcher

/-- A call of the hook: its memory, and the machine that it gets. -/
abbrev Call (S : Type) := Watcher × Machine Split S

namespace Call

/-- Hook and machine after the call. -/
def result (c : Call S) : Verdict × Call S := Watcher.watch c.1 c.2

/-- Whether the call neither starts the program nor finds its end. -/
def continues (c : Call S) : Bool := c.1.begun && (trap? c.2.core).isNone

/-- The program counter and the number of the group under test, as the call finds
    them. -/
def observation (c : Call S) : Addr × Byte := (c.2.regs.pc, c.2.bus.get numberCell)

/-- What the call is to report: the start, the verdict in a trap, and elsewhere the
    number of the group unless that was announced last. -/
def entries (c : Call S) : List Event :=
  if c.1.begun then
    match trap? c.2.core with
    | some outcome => outcome.verdict
    | none =>
      if c.1.announced = some c.observation.2 then []
      else [.testRuns c.observation.1 c.observation.2]
  else [.testBegins]

/-- The call notes these events and no others. -/
def Logs (c : Call S) (added : List Event) : Prop :=
  c.result.2.2.journal = c.2.journal.noteAll added

variable {c : Call S}

theorem continues_iff : c.continues ↔ c.1.begun ∧ trap? c.2.core = none := by
  rw [continues, Bool.and_eq_true, Option.isNone_iff_eq_none]

theorem entries_of_start (h : c.1.begun = false) : c.entries = [.testBegins] := by
  rw [entries, h]
  rfl

theorem entries_of_trap (h : c.1.begun) {outcome : Outcome}
    (htrap : trap? c.2.core = some outcome) : c.entries = outcome.verdict := by
  rw [entries, if_pos h, htrap]

theorem entries_of_continues (h : c.continues) :
    c.entries = if c.1.announced = some c.observation.2 then []
      else [.testRuns c.observation.1 c.observation.2] := by
  obtain ⟨hbegun, htrap⟩ := continues_iff.mp h
  rw [entries, if_pos hbegun, htrap]

/-- Only a call that continues announces anything. -/
theorem filterMap_entries_of_not_continues (h : ¬ c.continues) :
    c.entries.filterMap Event.announced? = [] := by
  cases hbegun : c.1.begun with
  | false =>
    rw [entries_of_start hbegun]
    rfl
  | true =>
    cases htrap : trap? c.2.core with
    | none => exact absurd (continues_iff.mpr ⟨hbegun, htrap⟩) h
    | some outcome =>
      rw [entries_of_trap hbegun htrap]
      exact outcome.filterMap_verdict

/-- What a call does, as far as the log is concerned: it leaves the instruction to the
    machine and remembers the number of the group, or does neither, and it reports
    what it is to report. -/
structure Outline (c : Call S) : Prop where
  declines : c.result.1 = .declined ↔ c.continues
  announced : c.result.2.1.announced =
    if c.continues then some c.observation.2 else c.1.announced
  logs : c.Logs c.entries

theorem Outline.of_handled (h : ¬ c.continues) (hverdict : c.result.1 = .handled)
    (hmemory : c.result.2.1.announced = c.1.announced) (hlogs : c.Logs c.entries) : c.Outline where
  declines := by
    rw [hverdict]
    exact ⟨nofun, fun hcontinues => absurd hcontinues h⟩
  announced := by rw [hmemory, if_neg h]
  logs := hlogs

theorem Outline.of_declined (h : c.continues) (hverdict : c.result.1 = .declined)
    (hmemory : c.result.2.1.announced = some c.observation.2) (hlogs : c.Logs c.entries) :
    c.Outline where
  declines := ⟨fun _ => h, fun _ => hverdict⟩
  announced := by rw [hmemory, if_pos h]
  logs := hlogs

theorem outline_of_start (h : c.1.begun = false) : c.Outline := by
  have hnot : ¬ c.continues := fun hc => nomatch h.symm.trans (continues_iff.mp hc).1
  have hresult : c.result =
      (.handled, { c.1 with begun := true }, (c.2.onCore (·.goto entry)).note .testBegins) := by
    rw [result, Watcher.watch, h]
    rfl
  refine .of_handled hnot (congrArg (·.1) hresult) (congrArg (·.2.1.announced) hresult) ?_
  rw [Logs, hresult, entries_of_start h]
  rfl

theorem outline_of_trap (h : c.1.begun) {outcome : Outcome}
    (htrap : trap? c.2.core = some outcome) : c.Outline := by
  have hnot : ¬ c.continues := fun hc => nomatch htrap.symm.trans (continues_iff.mp hc).2
  obtain ⟨e, hverdict, hinspect⟩ := Watcher.inspect_eq_conclude (w := c.1) htrap
  have hresult : c.result = c.1.conclude c.2 outcome e := (if_pos h).trans hinspect
  refine .of_handled hnot (congrArg (·.1) hresult) (congrArg (·.2.1.announced) hresult) ?_
  rw [Logs, hresult, entries_of_trap h htrap, hverdict]
  rfl

theorem outline_of_continues (h : c.continues) : c.Outline := by
  obtain ⟨hbegun, htrap⟩ := continues_iff.mp h
  have hresult : c.result =
      if c.1.announced = some c.observation.2 then (.declined, c)
      else (.declined, { c.1 with announced := some c.observation.2 },
        c.2.note (.testRuns c.observation.1 c.observation.2)) :=
    (if_pos hbegun).trans (Watcher.inspect_eq_announce htrap)
  by_cases hsame : c.1.announced = some c.observation.2
  -- the number was announced last, and is remembered as it was
  · rw [if_pos hsame] at hresult
    refine .of_declined h (congrArg (·.1) hresult) ?_ ?_
    · rw [hresult]
      exact hsame
    · rw [Logs, hresult, entries_of_continues h, if_pos hsame]
      rfl
  · rw [if_neg hsame] at hresult
    refine .of_declined h (congrArg (·.1) hresult) (congrArg (·.2.1.announced) hresult) ?_
    rw [Logs, hresult, entries_of_continues h, if_neg hsame]
    rfl

/-- Every call starts the program, finds its end, or lets it go on. -/
theorem outline (c : Call S) : c.Outline := by
  cases hbegun : c.1.begun with
  | false => exact outline_of_start hbegun
  | true =>
    cases htrap : trap? c.2.core with
    | some outcome => exact outline_of_trap hbegun htrap
    | none => exact outline_of_continues (continues_iff.mpr ⟨hbegun, htrap⟩)

end Call

/-! ## The history of the number -/

/-- What the calls that continue have observed. -/
def observed (cs : List (Call S)) : List (Addr × Byte) :=
  (cs.filter Call.continues).map Call.observation

/-- A call writes the part of the history that is its own. -/
theorem announcements_call (c : Call S) (hj : c.2.journal.listening) (cs : List (Call S)) :
    c.result.2.2.journal.announcements ++ changes c.result.2.1.announced (observed cs) =
      c.2.journal.announcements ++ changes c.1.announced (observed (c :: cs)) := by
  have houtline := c.outline
  rw [houtline.announced, houtline.logs, Journal.announcements_noteAll hj, List.append_assoc]
  congr 1
  by_cases hcontinues : c.continues
  · have hobserved : observed (c :: cs) = c.observation :: observed cs := by
      rw [observed, List.filter_cons_of_pos hcontinues, List.map_cons, observed]
    rw [if_pos hcontinues, hobserved, changes_cons, Call.entries_of_continues hcontinues]
    congr 1
    by_cases hsame : c.1.announced = some c.observation.2
    · rw [if_pos hsame, if_pos hsame]
      rfl
    · rw [if_neg hsame, if_neg hsame]
      rfl
  · have hobserved : observed (c :: cs) = observed cs := by
      rw [observed, List.filter_cons_of_neg hcontinues, observed]
    rw [if_neg hcontinues, hobserved, Call.filterMap_entries_of_not_continues hcontinues]
    rfl

variable [InterruptSource S]

/-- A turn writes the part of the history that its call has found: what the machine
    notes before and after the call does not belong to it. -/
theorem announcements_turn {w : Watcher} {m : Machine Split S} (hj : m.journal.listening)
    (hquit : m.quit = false) (cs : List (Call S)) :
    (turn Watcher.watch w m).2.2.journal.listening ∧
      (turn Watcher.watch w m).2.2.journal.announcements ++
          changes (turn Watcher.watch w m).2.1.announced (observed cs) =
        m.journal.announcements ++ changes w.announced (observed ((w, m.offered) :: cs)) := by
  let c : Call S := (w, m.offered)
  have hturn : turn Watcher.watch w m = settle c.result := turn_of_not_quit hquit
  have hoffered : Journal.Grows m.journal c.2.journal := m.grows_offered
  have hsettled := grows_settle c.result
  have hc : c.2.journal.listening := hoffered.listening.trans hj
  have hresult : c.result.2.2.journal.listening := by
    rw [c.outline.logs, Journal.listening_noteAll]
    exact hc
  rw [hturn, hsettled.listening, hsettled.announcements hresult, memory_settle,
    announcements_call c hc cs, hoffered.announcements hj]
  exact ⟨hresult, rfl⟩

/-- The calls of the hook in a run of at most `fuel` turns. -/
def calls (fuel : Nat) (w : Watcher) (m : Machine Split S) : List (Call S) :=
  (turnsBegun Watcher.watch fuel w m).map fun begun => (begun.1, begun.2.offered)

/-- The announcements of a run are the history of the number, as its calls have found
    it. -/
theorem announcements_run (fuel : Nat) (w : Watcher) {m : Machine Split S}
    (hj : m.journal.listening) :
    (Machine.run Watcher.watch fuel w m).2.2.journal.listening ∧
      (Machine.run Watcher.watch fuel w m).2.2.journal.announcements =
        m.journal.announcements ++ changes w.announced (observed (calls fuel w m)) := by
  induction fuel generalizing w m with
  | zero => exact ⟨hj, (List.append_nil _).symm⟩
  | succ fuel ih =>
    by_cases hquit : m.quit
    · have hturn : turn Watcher.watch w m = _ := turn_of_quit hquit
      rw [run_of_ended (congrArg (·.1) hturn), hturn, calls, turnsBegun, if_pos hquit, journal_note,
        Journal.listening_note, Journal.announcements_note_of_none hj rfl]
      exact ⟨hj, (List.append_nil _).symm⟩
    · have hquit : m.quit = false := Bool.eq_false_iff.mpr hquit
      -- the first turn writes its own part, and the others write the rest
      cases hending : (turn Watcher.watch w m).1 with
      | some ending =>
        have hcalls : calls (fuel + 1) w m = [(w, m.offered)] := by
          rw [calls, turnsBegun_of_ended hquit hending]
          rfl
        obtain ⟨hlistening, hhistory⟩ := announcements_turn (w := w) hj hquit []
        rw [run_of_ended hending, hcalls, ← hhistory]
        exact ⟨hlistening, (List.append_nil _).symm⟩
      | none =>
        have hcalls : calls (fuel + 1) w m = (w, m.offered) ::
            calls fuel (turn Watcher.watch w m).2.1 (turn Watcher.watch w m).2.2 := by
          rw [calls, turnsBegun_of_going_on hquit hending]
          rfl
        obtain ⟨hlistening, hhistory⟩ := announcements_turn (w := w) hj hquit
          (calls fuel (turn Watcher.watch w m).2.1 (turn Watcher.watch w m).2.2)
        obtain ⟨hlater, hrest⟩ := ih (turn Watcher.watch w m).2.1 hlistening
        rw [run_of_going_on hending, hcalls, hrest, hhistory]
        exact ⟨hlater, rfl⟩

/-! ## The log of a run -/

/-- The journal after a run of at most `fuel` turns, as far as the hook has written
    in it. -/
structure Chronicle (fuel : Nat) (w : Watcher) (m : Machine Split S) (after : Journal) : Prop where
  /-- Each stretch of equal numbers is announced where it begins. -/
  announced : after.announcements =
    m.journal.announcements ++ changes w.announced (observed (calls fuel w m))
  messages : after.announcementTexts =
    m.journal.announcementTexts ++ (changes w.announced (observed (calls fuel w m))).map
      fun found => Hex.ofAddr found.1 ++ " starting test " ++ Hex.ofByte found.2
  /-- Behind the number announced before the run, if there is one, the numbers announced
      are those observed without immediate repetitions. -/
  numbers : w.announced.toList ++ (changes w.announced (observed (calls fuel w m))).map (·.2) =
    (w.announced.toList ++ (observed (calls fuel w m)).map (·.2)).destutter (· ≠ ·)
  /-- The calls observed are those after which the machine executes the instruction. -/
  declines : ∀ c ∈ calls fuel w m, c.result.1 = .declined ↔ c.continues
  /-- A call that starts the program reports nothing else. -/
  starts : ∀ c ∈ calls fuel w m, c.1.begun = false → c.Logs [.testBegins]
  /-- A call that finds the end reports the verdict and nothing else. -/
  finishes : ∀ c ∈ calls fuel w m, c.1.begun → ∀ outcome, trap? c.2.core = some outcome →
    c.Logs outcome.verdict

theorem Chronicle.of_announcements {fuel : Nat} {w : Watcher} {m : Machine Split S}
    {after : Journal} (h : after.announcements =
      m.journal.announcements ++ changes w.announced (observed (calls fuel w m))) :
    Chronicle fuel w m after where
  announced := h
  messages := by
    rw [Journal.announcementTexts_eq, Journal.announcementTexts_eq, h, List.map_append]
  numbers := map_snd_changes _ _
  declines c _ := c.outline.declines
  starts c _ hbegun := Call.entries_of_start hbegun ▸ c.outline.logs
  finishes c _ hbegun _ htrap := Call.entries_of_trap hbegun htrap ▸ c.outline.logs

end

/-- The machine of a self-test on its way to the first turn. -/
def switchedOn (image : List Byte) (journal : Journal) : Machine Split Unit :=
  Machine.reset { Machine.powerOn (.ofImage image) () with journal }

theorem announcements_selfTest (fuel : Nat) (image : List Byte) {journal : Journal}
    (hj : journal.listening) :
    (run fuel image journal).machine.journal.announcements =
      (switchedOn image journal).journal.announcements ++
        changes Watcher.fresh.announced
          (observed (calls fuel .fresh (switchedOn image journal))) := by
  have hon : (switchedOn image journal).journal.listening := by
    rw [switchedOn, Machine.reset, journal_note, Journal.listening_note]
    exact hj
  obtain ⟨hlistening, hhistory⟩ := announcements_run fuel .fresh hon
  rw [← hhistory]
  unfold run
  dsimp only
  split
  · exact Journal.announcements_note_of_none hlistening rfl
  · rfl

/-- The log of a self-test is the history of the number at its cell.  In every run
    under the hook, on any machine with split memory and with any source of
    interrupts, the announcements are, in order, the observations of the calls that
    neither start the program nor find its end, as far as their number is not that of
    the observation before; each has the program counter of the call with which the
    stretch of equal numbers begins.  So their numbers are those observed with
    immediate repetitions removed.  A call that starts the program reports nothing but
    that, and one that finds its end nothing but the verdict.  The same is true of
    the run of a whole image. -/
theorem log_is_history_of_number (fuel : Nat) :
    (∀ {S : Type} [InterruptSource S] (w : Watcher) (m : Machine Split S), m.journal.listening →
      Chronicle fuel w m (Machine.run Watcher.watch fuel w m).2.2.journal) ∧
    (∀ (image : List Byte) (journal : Journal), journal.listening →
      Chronicle fuel .fresh (switchedOn image journal)
        (run fuel image journal).machine.journal) := by
  refine ⟨?_, ?_⟩
  · intro S _ w m hj
    exact .of_announcements (announcements_run fuel w hj).2
  · intro image journal hj
    exact .of_announcements (announcements_selfTest fuel image hj)

/-- A group counted up, an instruction that does nothing, and a count back in front of
    the trap: the run announces the numbers zero and one, and not the zero that only
    the finishing call finds. -/
theorem log_of_number_counted_back :
    let image := List.replicate 1024 0x00 ++
      [0xEE, 0x00, 0x02, 0xEA, 0xCE, 0x00, 0x02, 0x4C, 0x07, 0x04]
    let m : Machine Split Unit :=
      { Machine.powerOn ⟨.ofBytes image, .ofBytes []⟩ () with journal := .attentive }
    let after := (Machine.run Watcher.watch 6 .fresh m).2.2.journal
    m.journal.listening ∧
      (observed (calls 6 .fresh m)).map (·.2) = [0x00, 0x01, 0x01] ∧
      after.announcements = [(0x0400, 0x00), (0x0403, 0x01)] ∧
      Chronicle 6 .fresh (switchedOn image .attentive)
        (run 6 image .attentive).machine.journal := by
  intro image m after
  obtain ⟨hrun, himage⟩ := log_is_history_of_number 6
  have hlistening : m.journal.listening := rfl
  have hobserved : observed (calls 6 .fresh m) = [(0x0400, 0x00), (0x0403, 0x01), (0x0404, 0x01)] :=
    by decide +kernel
  have hannounced := (hrun .fresh m hlistening).announced
  rw [hobserved] at hannounced ⊢
  have hlog : after.announcements = [(0x0400, 0x00), (0x0403, 0x01)] := hannounced
  have hwhole := himage image .attentive rfl
  exact ⟨hlistening, rfl, hlog, hwhole⟩

end SelfTest

end Nmos6502
