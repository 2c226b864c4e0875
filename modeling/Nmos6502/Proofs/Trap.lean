/-
  Traps are loops.

  The hook of a self-test recognises a trap by the bytes of the instruction and
  by a flag, without asking what the processor would do there.  A branch on
  itself that is taken, and a jump on itself, lead back to where they stand at
  every address, also where their bytes lie across the top of memory, and change
  nothing else; so a program that is in such a trap stays in it.
-/
import Nmos6502.Proofs.SelfTest
import Nmos6502.Proofs.Traffic

namespace Nmos6502

/-! ## Processors that only spend time -/

namespace Processor

variable {M : Type}

theorem ext_regs {p q : Processor M} (hregs : p.regs = q.regs) (hbus : p.bus = q.bus) : p = q := by
  obtain ⟨regs, bus⟩ := p
  cases hregs
  cases hbus
  rfl

theorem spend_zero (p : Processor M) : p.spend 0 = p := by
  have hcycles : p.regs.cycles + BitVec.ofNat 64 0 = p.regs.cycles := BitVec.add_zero _
  refine ext_regs ?_ rfl
  rw [regs_spend, hcycles]

theorem spend_spend (p : Processor M) (k n : Nat) : (p.spend k).spend n = p.spend (k + n) := by
  refine ext_regs ?_ rfl
  rw [regs_spend, regs_spend, regs_spend, BitVec.add_assoc, ← BitVec.ofNat_add]

end Processor

/-- However often the machine is stepped, no step fails, and all that changes is
    that each takes `k` cycles. -/
def Machine.Spins {M S : Type} [Bus M] (k : Nat) (m : Machine M S) : Prop :=
  ∀ n, m.after n = (none, m.onCore (·.spend (n * k)))

namespace SelfTest

variable {p : Processor Split}

/-! ## The two kinds of loops -/

/-- A step when the opcode is known and the operand has been found. -/
theorem step_of_opcode {b : Byte} {ea : Addr} (hopcode : p.bus.get p.regs.pc = b)
    (hlegal : (opcodeEntry b).legal)
    (hplace : p.operandAddress (opcodeEntry b).mode = (ea, p)) :
    p.step = (.ok (), ((p.advance (opcodeEntry b).size).perform (opcodeEntry b).mode ea
      (opcodeEntry b).operation).spend (opcodeEntry b).cycles) := by
  have hentry : p.nextEntry = opcodeEntry b := by rw [nextEntry_eq, hopcode]
  rw [Processor.step_of_legal (hentry ▸ hlegal), Processor.poised, Processor.operandPlace, hentry,
    fetched_eq, hplace]

/-- Going back by the two bytes of a branch leads to the branch. -/
theorem branchDestination_self (pc : Addr) : branchDestination pc 0xFE = pc := by
  have hback : (2 : Addr) + BitVec.signExtend 16 (0xFE : Byte) = 0 := by decide
  rw [branchDestination_eq, BitVec.add_assoc, hback]
  exact BitVec.add_zero pc

/-- The next instruction is a branch on itself that is taken. -/
structure BranchesToSelf (p : Processor Split) : Prop where
  opcode : p.bus.get p.regs.pc = 0xD0
  displacement : p.bus.get (p.regs.pc + 1) = 0xFE
  taken : p.regs.p.z = false

theorem BranchesToSelf.step (h : BranchesToSelf p) : p.step = (.ok (), p.spend 2) := by
  have hplace : p.operandAddress .relative = (p.regs.pc, p) := by
    rw [Processor.operandAddress, coreRead_eq, h.displacement]
    dsimp only
    rw [branchDestination_self]
  -- the program counter has passed the branch and is set back to it
  have hbranch : (p.advance 2).branch (!p.regs.p.z) p.regs.pc = p := by
    rw [h.taken]
    rfl
  rw [step_of_opcode h.opcode (by decide) hplace]
  exact congrArg (fun p : Processor Split => (Except.ok (), p.spend 2)) hbranch

/-- Where a jump at the program counter leads. -/
def jumpTarget (p : Processor Split) : Addr :=
  word (p.bus.get (p.regs.pc + 1)) (p.bus.get (p.regs.pc + 2))

theorem step_of_jump (h : p.bus.get p.regs.pc = 0x4C) :
    p.step = (.ok (), (p.goto (jumpTarget p)).spend 3) := by
  have hsecond : p.regs.pc + 1 + 1 = p.regs.pc + 2 := BitVec.add_assoc _ _ _
  have hplace : p.operandAddress .absolute = (jumpTarget p, p) := by
    rw [Processor.operandAddress, Bus.wordAt, Split.read_eq]
    dsimp only
    rw [Split.read_eq, hsecond]
    rfl
  rw [step_of_opcode h (by decide) hplace]
  rfl

/-- The next instruction is a jump on itself. -/
structure JumpsToSelf (p : Processor Split) : Prop where
  opcode : p.bus.get p.regs.pc = 0x4C
  target : jumpTarget p = p.regs.pc

theorem JumpsToSelf.step (h : JumpsToSelf p) : p.step = (.ok (), p.spend 3) := by
  rw [step_of_jump h.opcode, h.target]
  rfl

/-! ## Machines in a loop -/

section

variable {S : Type} {k : Nat} {m : Machine Split S}

/-- If the step only spends time, and would do so at any count of cycles, then
    so do all steps after it. -/
theorem spins_of_step (h : ∀ n, (m.core.spend n).step = (.ok (), (m.core.spend n).spend k)) :
    m.Spins k := by
  intro n
  induction n generalizing m with
  | zero =>
    rw [Nat.zero_mul, Machine.onCore, Processor.spend_zero]
    rfl
  | succ n ih =>
    have hcore : m.core.step = (.ok (), m.core.spend k) := by
      have hnow := h 0
      rwa [Processor.spend_zero] at hnow
    have hstep : m.step = (none, m.onCore (·.spend k)) := Machine.step_of_ok hcore
    -- one step further on there are other cycles, at which the step does the same
    have hlater : ∀ j, ((m.core.spend k).spend j).step =
        (.ok (), ((m.core.spend k).spend j).spend k) := by
      intro j
      rw [Processor.spend_spend]
      exact h (k + j)
    have hend : k + n * k = (n + 1) * k := by rw [Nat.succ_mul, Nat.add_comm]
    calc m.after (n + 1)
      _ = m.step.2.after n := Machine.after_succ_of_ok (congrArg (·.1) hstep) n
      _ = (m.onCore (·.spend k)).after n := by rw [hstep]
      _ = (none, (m.onCore (·.spend k)).onCore (·.spend (n * k))) := ih hlater
      _ = (none, m.onCore (·.spend ((n + 1) * k))) := by
        simp only [Machine.onCore, Processor.spend_spend, hend]

theorem BranchesToSelf.spins (h : BranchesToSelf m.core) : m.Spins 2 :=
  spins_of_step fun _ => BranchesToSelf.step ⟨h.opcode, h.displacement, h.taken⟩

theorem JumpsToSelf.spins (h : JumpsToSelf m.core) : m.Spins 3 :=
  spins_of_step fun _ => JumpsToSelf.step ⟨h.opcode, h.target⟩

end

/-! ## What the hook takes for a trap -/

theorem branchesToSelf_of_trap {test : Byte} {pc : Addr} (h : trap? p = some (.failed test pc)) :
    pc = p.regs.pc ∧ test = p.bus.get numberCell ∧ BranchesToSelf p := by
  unfold trap? at h
  dsimp only at h
  split at h
  · next hbranch =>
    cases h
    exact ⟨rfl, rfl, hbranch.1, hbranch.2.2, hbranch.2.1⟩
  · split at h
    · cases h
    · cases h

theorem jumps_of_trap {pc : Addr} (h : trap? p = some (.passed pc)) :
    pc = p.regs.pc ∧ p.bus.get p.regs.pc = 0x4C ∧
      (jumpTarget p = p.regs.pc ∨ jumpTarget p = entry) := by
  unfold trap? at h
  dsimp only at h
  split at h
  · cases h
  · split at h
    · next hjump =>
      cases h
      exact ⟨rfl, hjump⟩
    · cases h

/-- The next instruction is one that the hook takes for the end of the program. -/
def AtTrap (p : Processor Split) : Prop :=
  BranchesToSelf p ∨
    p.bus.get p.regs.pc = 0x4C ∧ (jumpTarget p = p.regs.pc ∨ jumpTarget p = entry)

theorem trap?_eq_none_iff : trap? p = none ↔ ¬ AtTrap p := by
  cases htrap : trap? p with
  | some outcome =>
    refine iff_of_false nofun (not_not_intro ?_)
    cases outcome with
    | running => exact absurd htrap (trap?_ne_running p)
    | failed test pc => exact .inl (branchesToSelf_of_trap htrap).2.2
    | passed pc => exact .inr (jumps_of_trap htrap).2
  | none =>
    refine iff_of_true rfl ?_
    unfold trap? at htrap
    dsimp only at htrap
    split at htrap
    · cases htrap
    · next hbranch =>
      split at htrap
      · cases htrap
      · next hjump =>
        rintro (h | h)
        · exact hbranch ⟨h.opcode, h.taken, h.displacement⟩
        · exact hjump h

/-- A machine that is in a trap is in a loop, or about to go back to the start. -/
theorem holds_of_trap {S : Type} {m : Machine Split S} {outcome : Outcome}
    (htrap : trap? m.core = some outcome) :
    (outcome = .failed (m.bus.get numberCell) m.regs.pc ∧ m.Spins 2) ∨
      (outcome = .passed m.regs.pc ∧ m.bus.get m.regs.pc = 0x4C ∧
        (jumpTarget m.core = m.regs.pc ∨ jumpTarget m.core = entry) ∧
        (jumpTarget m.core = m.regs.pc → m.Spins 3) ∧
        (jumpTarget m.core = entry →
          m.step = (none, m.onCore fun p => (p.goto entry).spend 3))) := by
  cases outcome with
  | running => exact absurd htrap (trap?_ne_running m.core)
  | failed test pc =>
    obtain ⟨rfl, rfl, hbranch⟩ := branchesToSelf_of_trap htrap
    exact .inl ⟨rfl, hbranch.spins⟩
  | passed pc =>
    obtain ⟨rfl, hopcode, htarget⟩ := jumps_of_trap htrap
    refine .inr ⟨rfl, hopcode, htarget, fun hself => ?_, fun hentry => ?_⟩
    · exact JumpsToSelf.spins ⟨hopcode, hself⟩
    · refine Machine.step_of_ok ?_
      rw [step_of_jump hopcode, hentry]

/-- What the hook says of a program under way is true.  It speaks up exactly at a
    trap.  When it says that a group has failed, the machine will branch to where
    it is forever; when it says that all have passed, there is a jump, and the
    machine will jump to where it is forever or goes back to the start with the
    next step.  As long as it says nothing the hook changes nothing about the
    machine but the journal. -/
theorem traps_hold_the_program {S : Type} (w : Watcher) (m : Machine Split S) (h : w.begun) :
    let answer := Watcher.watch w m
    let outcome := answer.2.1.outcome
    let m' := answer.2.2
    (answer.1 = .handled ↔ AtTrap m.core) ∧
      (answer.1 = .handled → m'.core = m.core ∧
        ((outcome = .failed (m.bus.get numberCell) m.regs.pc ∧ m'.Spins 2) ∨
          (outcome = .passed m.regs.pc ∧ m.bus.get m.regs.pc = 0x4C ∧
            (jumpTarget m.core = m.regs.pc ∨ jumpTarget m.core = entry) ∧
            (jumpTarget m.core = m.regs.pc → m'.Spins 3) ∧
            (jumpTarget m.core = entry →
              m'.step = (none, m'.onCore fun p => (p.goto entry).spend 3))))) ∧
      (answer.1 ≠ .handled →
        answer.1 = .declined ∧ outcome = w.outcome ∧ m' = { m with journal := m'.journal }) := by
  intro answer outcome m'
  have hanswer : answer = w.inspect m := if_pos h
  cases htrap : trap? m.core with
  | none =>
    obtain ⟨w', journal, hinspect, -, houtcome⟩ := Watcher.inspect_of_untrapped (w := w) htrap
    have hdeclined := hanswer.trans hinspect
    have hverdict : answer.1 = .declined := congrArg (·.1) hdeclined
    have hquiet : answer.1 ≠ .handled := by
      rw [hverdict]
      exact nofun
    have hm' : m' = { m with journal } := congrArg (·.2.2) hdeclined
    refine ⟨iff_of_false hquiet (trap?_eq_none_iff.mp htrap), fun hhandled => absurd hhandled hquiet,
      fun _ => ⟨hverdict, (congrArg (·.2.1.outcome) hdeclined).trans houtcome, ?_⟩⟩
    rw [hm']
  | some found =>
    obtain ⟨e, hinspect⟩ := Watcher.inspect_of_trap (w := w) htrap
    have hconcluded := hanswer.trans hinspect
    have hverdict : answer.1 = .handled := congrArg (·.1) hconcluded
    have houtcome : outcome = found := congrArg (·.2.1.outcome) hconcluded
    have hcore : m'.core = m.core := congrArg (·.2.2.core) hconcluded
    have htrapped : AtTrap m.core := by
      refine Classical.not_not.mp fun hfree => ?_
      rw [trap?_eq_none_iff.mpr hfree] at htrap
      cases htrap
    refine ⟨iff_of_true hverdict htrapped, fun _ => ⟨hcore, ?_⟩,
      fun hdeclined => absurd hverdict hdeclined⟩
    have hholds := holds_of_trap (m := m') (hcore ▸ htrap)
    simp only [Machine.bus, Machine.regs, hcore] at hholds
    rw [houtcome]
    exact hholds

/-- A branch in the last byte of memory, with its displacement in the first, is
    a loop like any other. -/
theorem branch_across_the_top_holds :
    let m : Machine Split Unit := (Machine.powerOn
      (.ofImage (0xFE :: List.replicate 65534 0 ++ [0xD0])) ()).onCore (·.goto 0xFFFF)
    let answer := Watcher.watch { Watcher.fresh with begun := true } m
    answer.2.1.outcome = .failed (m.bus.get numberCell) 0xFFFF ∧ answer.2.2.Spins 2 := by
  have hlo : (Split.ofImage (0xFE :: List.replicate 65534 0 ++ [0xD0])).get (0xFFFF + 1) = 0xFE := by
    have hnext : (0xFFFF : Addr) + 1 = 0 := by decide
    rw [hnext, Split.get_ofImage]
    rfl
  have hopcode :
      (Split.ofImage (0xFE :: List.replicate 65534 0 ++ [0xD0])).get 0xFFFF = 0xD0 := by
    have hlast (n : Nat) :
      (0xFE :: List.replicate n 0 ++ [0xD0] : List Byte)[n + 1]? = some 0xD0 := by simp
    have htop : (0xFFFF : Addr).toNat = 65534 + 1 := by decide
    rw [Split.get_ofImage, htop, hlast]
    rfl
  -- nothing else about the image matters, and it is long
  generalize Split.ofImage (0xFE :: List.replicate 65534 0 ++ [0xD0]) = memory at hlo hopcode ⊢
  intro m
  have htrapped : AtTrap m.core := .inl ⟨hopcode, hlo, rfl⟩
  obtain ⟨hspeaks, hhandled, -⟩ :=
    traps_hold_the_program { Watcher.fresh with begun := true } m rfl
  obtain ⟨-, hfailed | ⟨-, hjump, -⟩⟩ := hhandled (hspeaks.mpr htrapped)
  · exact hfailed
  · exact absurd (hopcode.symm.trans hjump) (by decide)

end SelfTest

end Nmos6502
