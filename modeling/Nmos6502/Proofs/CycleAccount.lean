/-
  The account of the cycles.

  Two things cost cycles: an instruction that is executed, by what the opcode
  matrix says of the opcode as it was fetched, and the entry of a handler, seven.
  Whatever else is done to a machine is free, so the count is the sum of these
  charges, however steps, requests, calls, runs and the work of hooks are mixed.
  The sum is taken modulo the size of the counter, until it is known to fit.
-/
import Mathlib.Algebra.Group.Nat.Defs
import Nmos6502.Proofs.BreakFlag
import Nmos6502.Proofs.Polling

namespace Nmos6502

/-! ## Charges -/

/-- What cycles are spent on. -/
inductive Charge where
  /-- An instruction that was executed, by its opcode as it was fetched. -/
  | instruction (opcode : Byte)
  /-- The entry of a handler at the request of the hardware. -/
  | entry
deriving DecidableEq

namespace Charge

def cost : Charge → Nat
  | .instruction opcode => (opcodeEntry opcode).cycles
  | .entry => 7

def total : List Charge → Nat
  | [] => 0
  | c :: cs => c.cost + total cs

@[simp] theorem total_nil : total [] = 0 := rfl

@[simp] theorem total_cons (c : Charge) (cs : List Charge) :
    total (c :: cs) = c.cost + total cs := rfl

theorem total_singleton (c : Charge) : total [c] = c.cost := rfl

theorem total_append (cs cs' : List Charge) : total (cs ++ cs') = total cs + total cs' := by
  induction cs with
  | nil => simp
  | cons c cs ih => simp [ih, Nat.add_assoc]

/-- Bounds for each charge are bounds for their sum. -/
theorem total_bounds {cs : List Charge} (h : ∀ c ∈ cs, 2 ≤ c.cost ∧ c.cost ≤ 7) :
    2 * cs.length ≤ total cs ∧ total cs ≤ 7 * cs.length := by
  induction cs with
  | nil => simp
  | cons c cs ih =>
    rw [List.forall_mem_cons] at h
    have hrest := ih h.2
    have hc := h.1
    rw [total_cons, List.length_cons]
    omega

end Charge

/-- Checked on the 256 entries, one by one. -/
theorem cycles_bounds_of_legal : ∀ opcode, (opcodeEntry opcode).legal →
    2 ≤ (opcodeEntry opcode).cycles ∧ (opcodeEntry opcode).cycles ≤ 7 := by
  decide +kernel

/-! ## The processor -/

namespace Processor

variable {M : Type} [Bus M]

/-- No operation touches the count itself. -/
theorem cycles_perform (p : Processor M) (mode : Mode) (ea : Addr) (o : Operation) :
    (p.perform mode ea o).regs.cycles = p.regs.cycles := by
  cases o with
  | asl | lsr | rol | ror | inc | dec =>
    exact part_modify (·.cycles) p mode ea (fun _ _ => rfl) fun _ _ _ => rfl
  | bcc | bcs | bne | beq | bpl | bmi | bvc | bvs =>
    exact congrArg (·.cycles) (regs_branch p _ ea)
  | brk => exact congrArg (·.cycles) (regs_softwareInterrupt p)
  | rti => exact congrArg (·.cycles) (regs_leaveHandler p)
  | _ => rfl

/-- A step is charged by the opcode that it has fetched, also if the instruction
    overwrites itself. -/
theorem cycles_step {p : Processor M} (h : p.nextEntry.legal) :
    p.step.2.regs.cycles = p.regs.cycles + BitVec.ofNat 64 p.nextEntry.cycles := by
  rw [regs_step_of_legal h]
  dsimp only
  rw [cycles_perform, regs_poised]

theorem cycles_interrupt (p : Processor M) (v : Addr) :
    (p.interrupt v).regs.cycles = p.regs.cycles + BitVec.ofNat 64 7 := by
  rw [interrupt, regs_spend]
  rfl

end Processor

/-! ## What a machine is charged for -/

namespace Machine

variable {M S : Type}

/-- The machine has gone on at the cost of these charges. -/
structure Spends (m : Machine M S) (cs : List Charge) (m' : Machine M S) : Prop where
  count : m'.regs.cycles = m.regs.cycles + BitVec.ofNat 64 (Charge.total cs)
  bounds : ∀ c ∈ cs, 2 ≤ c.cost ∧ c.cost ≤ 7

namespace Spends

variable {m m' m'' : Machine M S} {cs cs' : List Charge}

theorem free (h : m'.regs.cycles = m.regs.cycles) : Spends m [] m' where
  count := by simp [h]
  bounds := by simp

theorem single {c : Charge}
    (hcount : m'.regs.cycles = m.regs.cycles + BitVec.ofNat 64 c.cost)
    (hbounds : 2 ≤ c.cost ∧ c.cost ≤ 7) : Spends m [c] m' where
  count := by rw [Charge.total_singleton, hcount]
  bounds := by
    intro c' hc'
    obtain rfl := List.mem_singleton.mp hc'
    exact hbounds

theorem trans (h : Spends m cs m') (h' : Spends m' cs' m'') : Spends m (cs ++ cs') m'' where
  count := by
    rw [h'.count, h.count, Charge.total_append, BitVec.ofNat_add, BitVec.add_assoc]
  bounds := by
    intro c hc
    rcases List.mem_append.mp hc with hc | hc
    · exact h.bounds c hc
    · exact h'.bounds c hc

/-- Only the registers of the machine afterwards matter. -/
theorem of_regs_eq (h : Spends m cs m') (hregs : m''.regs = m'.regs) : Spends m cs m'' where
  count := by rw [hregs, h.count]
  bounds := h.bounds

/-- A count that fits is the exact sum. -/
theorem toNat_count (h : Spends m cs m')
    (hfits : m.regs.cycles.toNat + Charge.total cs < 2 ^ 64) :
    m'.regs.cycles.toNat = m.regs.cycles.toNat + Charge.total cs := by
  rw [h.count, BitVec.toNat_add, BitVec.toNat_ofNat, Nat.add_mod_mod, Nat.mod_eq_of_lt hfits]

/-- A count that fits has gone up by at least two and at most seven for each
    charge. -/
theorem range (h : Spends m cs m')
    (hfits : m.regs.cycles.toNat + Charge.total cs < 2 ^ 64) :
    m.regs.cycles.toNat + 2 * cs.length ≤ m'.regs.cycles.toNat ∧
      m'.regs.cycles.toNat ≤ m.regs.cycles.toNat + 7 * cs.length := by
  have hbounds := Charge.total_bounds h.bounds
  rw [h.toNat_count hfits]
  omega

end Spends

variable [Bus M]

/-- A step is charged if it succeeds. -/
def stepCharges (m : Machine M S) : List Charge :=
  if m.step.1 = none then [.instruction (Bus.read m.bus m.regs.pc).1] else []

/-- A maskable request is charged if it is granted. -/
def irqCharges (m : Machine M S) : List Charge := if m.irq.1 then [.entry] else []

def demandCharges (m : Machine M S) : Demand → List Charge
  | .request .step => m.stepCharges
  | .request .irq => m.irqCharges
  | .request .nmi => [.entry]
  | _ => []

/-- The charges of demands in a row, each to the machine that the one before has
    left. -/
def serviceCharges (m : Machine M S) : List Demand → List Charge
  | [] => []
  | d :: ds => m.demandCharges d ++ (m.serve d).2.serviceCharges ds

theorem stepCharges_of_ok {m : Machine M S} (h : m.step.1 = none) :
    m.stepCharges = [.instruction (Bus.read m.bus m.regs.pc).1] :=
  if_pos h

theorem stepCharges_of_refused {m : Machine M S} (h : m.step.1 ≠ none) : m.stepCharges = [] :=
  if_neg h

variable (m : Machine M S)

theorem spends_step : Spends m m.stepCharges m.step.2 := by
  by_cases h : m.core.nextEntry.legal
  · have hstep := step_of_legal h
    rw [stepCharges_of_ok (by rw [hstep]), hstep]
    exact .single (Processor.cycles_step h) (cycles_bounds_of_legal _ h)
  · have hstep := step_of_illegal h
    rw [stepCharges_of_refused (by simp [hstep]), hstep]
    exact .free rfl

theorem spends_interrupt (v : Addr) : Spends m [.entry] (m.onCore (·.interrupt v)) :=
  .single (m.core.cycles_interrupt v) (by decide)

theorem spends_irq : Spends m m.irqCharges m.irq.2 := by
  unfold irqCharges
  cases hi : m.regs.p.i with
  | true =>
    have hmasked : m.irq = (false, m) := if_pos hi
    rw [hmasked]
    exact .free rfl
  | false =>
    have htaken : m.irq.1 = true := by
      rw [irq, hi]
      rfl
    rw [if_pos htaken, irq_of_enabled hi]
    exact (m.spends_interrupt irqVector).of_regs_eq rfl

theorem spends_serve (d : Demand) : Spends m (m.demandCharges d) (m.serve d).2 := by
  cases d with
  | request r =>
    cases r with
    | step => exact m.spends_step
    | irq => exact m.spends_irq
    | nmi => exact (m.spends_interrupt nmiVector).of_regs_eq rfl
    | reset | push | pop | read | write => exact .free rfl
  | call | leave => exact .free rfl

section

variable {m}

/-- A step that succeeds makes the count go up, by no more than seven. -/
theorem step_range (hok : m.step.1 = none) (hroom : m.regs.cycles.toNat + 7 < 2 ^ 64) :
    m.regs.cycles.toNat + 2 ≤ m.step.2.regs.cycles.toNat ∧
      m.step.2.regs.cycles.toNat ≤ m.regs.cycles.toNat + 7 := by
  have hstep := m.spends_step
  rw [stepCharges_of_ok hok] at hstep
  have hcost := hstep.bounds _ List.mem_cons_self
  refine hstep.range ?_
  rw [Charge.total_singleton]
  omega

theorem cycles_step_of_refused (h : m.step.1 ≠ none) : m.step.2.regs.cycles = m.regs.cycles := by
  have hstep := m.spends_step
  rw [stepCharges_of_refused h] at hstep
  simpa using hstep.count

theorem cycles_irq_of_masked (h : m.irq.1 = false) : m.irq.2.regs.cycles = m.regs.cycles := by
  have hcharges : m.irqCharges = [] := by simp [irqCharges, h]
  have hirq := m.spends_irq
  rw [hcharges] at hirq
  simpa using hirq.count

end

/-! ## Turns -/

section

variable {H : Type}

/-- What the turn does itself when the hook has answered: the instruction, if
    that is left to it. -/
def settleCharges : Verdict × H × Machine M S → List Charge
  | (.declined, _, m) => m.stepCharges
  | _ => []

theorem spends_settle (x : Verdict × H × Machine M S) :
    Spends x.2.2 (settleCharges x) (settle x).2.2 := by
  obtain ⟨verdict, k, m⟩ := x
  cases verdict with
  | handled | exit => exact .free rfl
  | declined => exact m.spends_step

variable [InterruptSource S]

/-- A turn is charged for the handler that it enters on being polled. -/
def pollCharges (m : Machine M S) : List Charge := if m.entersIrq then [.entry] else []

/-- What a turn is charged for, if the hook has spent `cs`. -/
def turnCharges (hook : Hook H M S) (k : H) (m : Machine M S) (cs : List Charge) : List Charge :=
  m.pollCharges ++ cs ++ settleCharges (hook k m.offered)

theorem spends_pollInterrupt : Spends m m.pollCharges m.pollInterrupt := by
  have hcore := core_pollInterrupt m
  unfold pollCharges
  cases henters : m.entersIrq with
  | true =>
    rw [henters, if_pos rfl] at hcore
    exact (m.spends_interrupt irqVector).of_regs_eq (congrArg (·.regs) hcore)
  | false =>
    rw [henters, if_neg Bool.false_ne_true] at hcore
    exact .free (congrArg (·.regs.cycles) hcore)

variable {m} in
/-- The poll, the hook and the instruction, one after the other. -/
theorem Spends.turn {hook : Hook H M S} {k : H} (hquit : m.quit = false) {cs : List Charge}
    (h : Spends m.offered cs (hook k m.offered).2.2) :
    Spends m (turnCharges hook k m cs) (Machine.turn hook k m).2.2 := by
  have hoffered : Spends m m.pollCharges m.offered :=
    m.spends_pollInterrupt.of_regs_eq (regs_report m.pollInterrupt)
  rw [turn_of_not_quit hquit]
  exact (hoffered.trans h).trans (spends_settle _)

end

/-! ## Everything together -/

section

variable [InterruptSource S]

/-- A finite sequence of things done to a machine, and what it was charged for
    them.  The hook of a turn may do such things in its place. -/
inductive Course : Machine M S → List Charge → Machine M S → Prop
  | nil {m : Machine M S} : Course m [] m
  | demand {m m' : Machine M S} {cs : List Charge} (d : Demand)
      (rest : Course (m.serve d).2 cs m') : Course m (m.demandCharges d ++ cs) m'
  /-- One turn of a run. -/
  | turn {m m' : Machine M S} {inner cs : List Charge} {H : Type} (hook : Hook H M S) (k : H)
      (hquit : m.quit = false) (work : Course m.offered inner (hook k m.offered).2.2)
      (rest : Course (Machine.turn hook k m).2.2 cs m') :
    Course m (turnCharges hook k m inner ++ cs) m'
  /-- A turn that ends a run because somebody has asked for it. -/
  | quit {m m' : Machine M S} {cs : List Charge} {H : Type} (hook : Hook H M S) (k : H)
      (hquit : m.quit) (rest : Course (Machine.turn hook k m).2.2 cs m') : Course m cs m'
  /-- Any change that leaves the count alone, such as asking for the end of a run,
      or setting a register or a cell. -/
  | aside {m m' m'' : Machine M S} {cs : List Charge} (h : m'.regs.cycles = m.regs.cycles)
      (rest : Course m' cs m'') : Course m cs m''

/-- The account is right: the induction is on what is done, and the work of a
    hook is a course of its own. -/
theorem Course.spends {m m' : Machine M S} {cs : List Charge} (h : Course m cs m') :
    Spends m cs m' := by
  induction h with
  | nil => exact .free rfl
  | demand d rest ih => exact (spends_serve _ d).trans ih
  | turn hook k hquit work rest ihwork ihrest => exact (ihwork.turn hquit).trans ihrest
  | @quit m _ _ _ hook k hquit rest ih =>
    rw [turn_of_quit hquit] at ih
    have hnoted : Spends m [] (m.note (.quit m.regs.pc m.regs.cycles)) := .free rfl
    exact hnoted.trans ih
  | aside h rest ih => exact (Spends.free h).trans ih

theorem course_serveAll (m : Machine M S) (ds : List Demand) :
    Course m (m.serviceCharges ds) (m.serveAll ds).2 := by
  induction ds generalizing m with
  | nil => exact .nil
  | cons d ds ih => exact .demand d (ih _)

end

end Machine

namespace Hook

variable {H M S : Type} [Bus M] [InterruptSource S]

/-- All that the hook does to a machine is a course, for which `spent` gives the
    charges. -/
def Charged (hook : Hook H M S) (spent : H → Machine M S → List Charge) : Prop :=
  ∀ k m, Machine.Course m (spent k m) (hook k m).2.2

end Hook

namespace Machine

variable {H M S : Type} [Bus M] [InterruptSource S] {hook : Hook H M S}
  {spent : H → Machine M S → List Charge}

/-- What a run of at most `fuel` turns is charged for. -/
def runCharges (hook : Hook H M S) (spent : H → Machine M S → List Charge) (fuel : Nat) (k : H)
    (m : Machine M S) : List Charge :=
  (turnsBegun hook fuel k m).flatMap fun t => turnCharges hook t.1 t.2 (spent t.1 t.2.offered)

/-- A run is a course, turn by turn. -/
theorem course_run (h : hook.Charged spent) (fuel : Nat) (k : H) (m : Machine M S) :
    Course m (runCharges hook spent fuel k m) (run hook fuel k m).2.2 := by
  induction fuel generalizing k m with
  | zero => exact .nil
  | succ fuel ih =>
    unfold runCharges
    cases hquit : m.quit with
    | true =>
      have hended : (turn hook k m).1 = some .quit := by rw [turn_of_quit hquit]
      rw [turnsBegun, if_pos hquit, run_of_ended hended]
      exact .quit hook k hquit .nil
    | false =>
      have hwork := h k m.offered
      cases hending : (turn hook k m).1 with
      | some ending =>
        rw [turnsBegun_of_ended hquit hending, run_of_ended hending, List.flatMap_singleton]
        simpa using Course.turn hook k hquit hwork .nil
      | none =>
        rw [turnsBegun_of_going_on hquit hending, run_of_going_on hending, List.flatMap_cons]
        exact .turn hook k hquit hwork (ih _ _)

variable {m : Machine M S}

/-- What a hook handles is not charged to the turn: the machine keeps the count
    that the hook has left. -/
theorem cycles_turn_of_handled {k : H} (hquit : m.quit = false)
    (h : (hook k m.offered).1 = .handled) :
    (turn hook k m).2.2.regs.cycles = (hook k m.offered).2.2.regs.cycles := by
  rw [turn_of_not_quit hquit]
  generalize hook k m.offered = answer at h ⊢
  obtain ⟨verdict, k', m'⟩ := answer
  cases h
  rfl

/-- The count of cycles is the account.  After anything that is done to a machine
    on any bus, in any finite order, it is the count before, with the base cycles
    of each opcode that a successful step has fetched and seven for each interrupt
    taken, as long as that sum fits; and each of these charges is at least two
    and at most seven.  Demands in a row are such a course, and so is a run under
    a hook whose work is made of the same things.  What is refused, masked or
    handled adds nothing of its own, and each instruction executed makes the
    count go up. -/
theorem cycles_are_accounted_for {M S : Type} [Bus M] [InterruptSource S] :
    (∀ {m m' : Machine M S} {cs : List Charge}, Course m cs m' →
      m.regs.cycles.toNat + Charge.total cs < 2 ^ 64 →
        m'.regs.cycles.toNat = m.regs.cycles.toNat + Charge.total cs ∧
        ∀ c ∈ cs, 2 ≤ c.cost ∧ c.cost ≤ 7) ∧
    (∀ (m : Machine M S) (demands : List Demand),
      Course m (m.serviceCharges demands) (m.serveAll demands).2) ∧
    (∀ {H : Type} {hook : Hook H M S} {spent : H → Machine M S → List Charge},
      hook.Charged spent → ∀ fuel k m,
        Course m (runCharges hook spent fuel k m) (run hook fuel k m).2.2) ∧
    (∀ m : Machine M S,
      (m.step.1 ≠ none → m.step.2.regs.cycles = m.regs.cycles) ∧
      (m.irq.1 = false → m.irq.2.regs.cycles = m.regs.cycles) ∧
      (m.step.1 = none → m.regs.cycles.toNat + 7 < 2 ^ 64 →
        m.regs.cycles.toNat + 2 ≤ m.step.2.regs.cycles.toNat ∧
        m.step.2.regs.cycles.toNat ≤ m.regs.cycles.toNat + 7)) ∧
    (∀ {H : Type} (hook : Hook H M S) (k : H) (m : Machine M S), m.quit = false →
      (hook k m.offered).1 = .handled →
        (turn hook k m).2.2.regs.cycles = (hook k m.offered).2.2.regs.cycles) := by
  refine ⟨?course, course_serveAll, course_run, ?single, ?handled⟩
  case course =>
    intro m m' cs h hfits
    exact ⟨h.spends.toNat_count hfits, h.spends.bounds⟩
  case single =>
    intro m
    exact ⟨cycles_step_of_refused, cycles_irq_of_masked, step_range⟩
  case handled =>
    intro H hook k m hquit h
    exact cycles_turn_of_handled hquit h

/-- A run of three turns.  The hook handles the first with an interrupt of its
    own; the second executes `INC $00` at address zero, which overwrites its own
    opcode and is charged as what it was; the third is refused. -/
theorem charges_of_overwritten_opcode :
    let bus : Router Peripheral := ⟨[⟨0x0000, .ram (.ofBytes [0xE6, 0x00])⟩,
      ⟨0x01FD, .ram (.zero 3)⟩, ⟨0xFFFA, .rom (.ofBytes [0x00, 0x00])⟩]⟩
    let m : Machine (Router Peripheral) Unit := .powerOn bus ()
    let hook : Hook Nat (Router Peripheral) Unit := fun k m =>
      if k = 0 then (.handled, 1, m.nmi) else (.declined, k, m)
    let spent : Nat → Machine (Router Peripheral) Unit → List Charge := fun k _ =>
      if k = 0 then [.entry] else []
    hook.Charged spent ∧ runCharges hook spent 3 0 m = [.entry, .instruction 0xE6] ∧
      (Bus.read (run hook 3 0 m).2.2.bus 0).1 = 0xE7 ∧
      (run hook 3 0 m).2.2.regs.cycles.toNat = 12 := by
  intro bus m hook spent
  obtain ⟨haccount, -, hrun, -, -⟩ :=
    cycles_are_accounted_for (M := Router Peripheral) (S := Unit)
  have hcharged : hook.Charged spent := by
    intro k m
    have hnmi : Course m ([.entry] ++ []) m.nmi := .demand (.request .nmi) .nil
    by_cases hk : k = 0
    · simpa [hook, spent, hk] using hnmi
    · simpa [hook, spent, hk] using Course.nil
  have hcharges : runCharges hook spent 3 0 m = [.entry, .instruction 0xE6] := by
    decide +kernel
  have hcourse := hrun hcharged 3 0 m
  rw [hcharges] at hcourse
  have htotal : m.regs.cycles.toNat + Charge.total [.entry, .instruction 0xE6] = 12 := by
    decide +kernel
  have hfits : m.regs.cycles.toNat + Charge.total [.entry, .instruction 0xE6] < 2 ^ 64 := by
    omega
  refine ⟨hcharged, hcharges, by decide +kernel, ?_⟩
  exact (haccount hcourse hfits).1.trans htotal

end Machine

end Nmos6502
