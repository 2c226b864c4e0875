/-
  Sums and differences of numbers of any length.

  A program adds two long numbers by one `ADC` for each byte, the lowest first,
  with whatever it needs to fetch and store bytes in between; only the carry has
  to stay as it is left.  `Chain` describes such a run by the machines that are
  about to execute the instructions.  A difference is the sum with the
  complement, borrow and overflow included, so one induction serves both.
-/
import Nmos6502.Bus.Flat
import Nmos6502.Proofs.Number
import Nmos6502.Proofs.Step

namespace Nmos6502

/-! ## One byte -/

theorem toInt_eq_sub_msb (b : Byte) : b.toInt = b.toNat - 256 * b.msb.toNat := by
  rw [BitVec.toInt_eq_msb_cond]
  cases b.msb with
  | true => rfl
  | false => exact (Int.sub_zero _).symm

theorem msb_toNat_bounds (b : Byte) : 128 * b.msb.toNat ≤ b.toNat ∧
    b.toNat < 128 + 128 * b.msb.toNat := by
  have hb := b.isLt
  rw [BitVec.msb_eq_decide]
  by_cases h : 128 ≤ b.toNat
  · rw [decide_eq_true h, Bool.toNat_true]
    omega
  · rw [decide_eq_false h, Bool.toNat_false]
    omega

namespace Binary

/-- The value and the carry together are the exact sum. -/
theorem add_exact (a m : Byte) (c : Bool) :
    (add a m c).value.toNat + 256 * (add a m c).c.toNat = a.toNat + m.toNat + c.toNat := by
  have ha := a.isLt
  have hm := m.isLt
  have hc := c.toNat_le
  have hvalue : (add a m c).value.toNat = (a.toNat + m.toNat + c.toNat) % 256 :=
    BitVec.toNat_ofNat ..
  have hcarry : (add a m c).c = decide (256 ≤ a.toNat + m.toNat + c.toNat) := rfl
  rw [hvalue, hcarry]
  by_cases h : 256 ≤ a.toNat + m.toNat + c.toNat
  · rw [decide_eq_true h, Bool.toNat_true]
    omega
  · rw [decide_eq_false h, Bool.toNat_false]
    omega

theorem overflow_add (a m : Byte) (c : Bool) :
    (add a m c).v = ((a.msb ^^ (add a m c).value.msb) && (m.msb ^^ (add a m c).value.msb)) := by
  rw [← BitVec.msb_xor, ← BitVec.msb_xor, ← BitVec.msb_and]
  rfl

/-- Overflow tells whether the signed sum leaves the range of a byte, and N as
    corrected by it whether the signed sum is negative. -/
theorem add_signed (a m : Byte) (c : Bool) :
    ((add a m c).v ↔ ¬ FitsSigned 1 (a.toInt + m.toInt + c.toNat)) ∧
      (((add a m c).n ^^ (add a m c).v) ↔ a.toInt + m.toInt + c.toNat < 0) := by
  have hexact := add_exact a m c
  have hn : (add a m c).n = (add a m c).value.msb := rfl
  have ha := msb_toNat_bounds a
  have hm := msb_toNat_bounds m
  have hr := msb_toNat_bounds (add a m c).value
  have hc := c.toNat_le
  have hcarry := (add a m c).c.toNat_le
  rw [hn, overflow_add, toInt_eq_sub_msb, toInt_eq_sub_msb, FitsSigned]
  -- only the signs of the terms and of the value are left to tell apart
  generalize (add a m c).value.msb = nr at *
  generalize a.msb = na at *
  generalize m.msb = nm at *
  cases na <;> cases nm <;> cases nr <;>
    simp only [Bool.toNat_true, Bool.toNat_false, Bool.xor_false, Bool.xor_true, Bool.and_false,
      Bool.and_true, Bool.not_true, Bool.not_false, Bool.false_eq_true, true_iff,
      false_iff] at * <;>
    omega

/-- A difference is the sum with the complement. -/
theorem sub_eq_add (a m : Byte) (c : Bool) : sub a m c = add a (~~~ m) c := by
  have ha := a.isLt
  have hm := m.isLt
  have hnot : (~~~ m).toNat = 255 - m.toNat := BitVec.toNat_not
  have hborrow : c.toNat + (!c).toNat = 1 := by cases c <;> rfl
  have hvalue : (sub a m c).value = (add a (~~~ m) c).value := by
    apply BitVec.eq_of_toNat_eq
    show (BitVec.ofInt 8 (a.toNat - m.toNat - (!c).toNat)).toNat =
      (BitVec.ofNat 8 (a.toNat + (~~~ m).toNat + c.toNat)).toNat
    rw [BitVec.toNat_ofInt, BitVec.toNat_ofNat, hnot]
    omega
  have hc : (sub a m c).c = (add a (~~~ m) c).c := by
    show decide _ = decide _
    rw [decide_eq_decide, hnot]
    omega
  -- of the three signs one is equal or opposite to another
  have hv : (sub a m c).v = (add a (~~~ m) c).v := by
    rw [overflow_add, ← hvalue, BitVec.msb_not]
    show ((a ^^^ m) &&& (a ^^^ (sub a m c).value)).msb = _
    rw [BitVec.msb_and, BitVec.msb_xor, BitVec.msb_xor]
    cases a.msb <;> cases m.msb <;> cases (sub a m c).value.msb <;> rfl
  show ArithResult.mk (sub a m c).value (sub a m c).value.msb (sub a m c).v
    ((sub a m c).value == 0) (sub a m c).c = _
  rw [hvalue, hv, hc]
  rfl

end Binary

/-! ## One instruction -/

/-- What an addition or subtraction adds for its operand. -/
def Operation.addend : Operation → Byte → Byte
  | .sbc, m => ~~~ m
  | _, m => m

/-- With D clear both let the registers take in a binary sum. -/
theorem Operation.action_of_sum {o : Operation} (ho : o = .adc ∨ o = .sbc) :
    ∃ f, o.action = .consume f ∧ ∀ {r : Registers} (m : Byte), r.p.d = false →
      f r m = r.accept (Binary.add r.a (o.addend m) r.p.c) := by
  rcases ho with rfl | rfl
  · refine ⟨Registers.add, rfl, fun m hd => ?_⟩
    rw [Registers.add, hd]
    rfl
  · refine ⟨Registers.sub, rfl, fun m hd => ?_⟩
    rw [Registers.sub, hd, addend, ← Binary.sub_eq_add]
    rfl

def Operation.compares : Reg → Operation
  | .a => .cmp
  | .x => .cpx
  | .y => .cpy

namespace Machine

variable {M S : Type} [Bus M]

/-- The machine is about to execute `o` on binary numbers with the carry `c`. -/
structure Ready (o : Operation) (c : Bool) (m : Machine M S) : Prop where
  operation : m.core.nextEntry.operation = o
  binary : m.regs.p.d = false
  carry : m.regs.p.c = c

def operand (m : Machine M S) : Byte := m.core.operandByte

/-- The sum that `o` forms, if it comes next. -/
def sum (o : Operation) (m : Machine M S) : ArithResult :=
  Binary.add m.regs.a (o.addend m.operand) m.regs.p.c

/-- An addition or subtraction leaves its sum in the accumulator and the flags. -/
theorem Ready.step {o : Operation} {c : Bool} {m : Machine M S} (h : m.Ready o c)
    (ho : o = .adc ∨ o = .sbc) :
    m.step.1 = none ∧ m.step.2.regs = { m.regs.accept (m.sum o) with
      pc := m.core.poised.regs.pc
      cycles := m.regs.cycles + BitVec.ofNat 64 m.core.nextEntry.cycles } := by
  obtain ⟨f, haction, hsum⟩ := Operation.action_of_sum ho
  rw [← h.operation] at haction
  have hpoised := Processor.regs_poised m.core
  have hd : m.core.poised.regs.p.d = false := by
    rw [hpoised]
    exact h.binary
  refine step_of_accept haction ?_
  rw [hsum _ hd, hpoised]
  rfl

theorem Ready.exact_sum {o : Operation} {c : Bool} {m : Machine M S} (h : m.Ready o c)
    (ho : o = .adc ∨ o = .sbc) :
    m.step.2.regs.a.toNat + 256 * m.step.2.regs.p.c.toNat =
      m.regs.a.toNat + (o.addend m.operand).toNat + c.toNat := by
  rw [(h.step ho).2, ← h.carry]
  exact Binary.add_exact _ _ _

theorem Ready.signed {o : Operation} {c : Bool} {m : Machine M S} (h : m.Ready o c)
    (ho : o = .adc ∨ o = .sbc) :
    let p := m.step.2.regs.p
    let s := m.regs.a.toInt + (o.addend m.operand).toInt + c.toNat
    (p.v ↔ ¬ FitsSigned 1 s) ∧ ((p.n ^^ p.v) ↔ s < 0) ∧ p.n = m.step.2.regs.a.msb := by
  obtain ⟨hv, hsign⟩ := Binary.add_signed m.regs.a (o.addend m.operand) m.regs.p.c
  rw [(h.step ho).2, ← h.carry]
  exact ⟨hv, hsign, rfl⟩

/-! ## Many instructions -/

/-- Executions of `o` that the carry links: each machine is about to execute it
    with the carry that the one before left, the first with `c`, and the last
    becomes `e`. -/
inductive Chain (o : Operation) : Bool → List (Machine M S) → Machine M S → Prop
  | last {c : Bool} {m : Machine M S} (ready : m.Ready o c) : Chain o c [m] m.step.2
  | next {c : Bool} {m e : Machine M S} {ms : List (Machine M S)} (ready : m.Ready o c)
      (rest : Chain o m.step.2.regs.p.c ms e) : Chain o c (m :: ms) e

/-- The bytes of one term: what the accumulators hold. -/
def accumulators (ms : List (Machine M S)) : List Byte := ms.map (·.regs.a)

/-- The bytes of the other term. -/
def operands (ms : List (Machine M S)) : List Byte := ms.map (·.operand)

/-- The bytes of the result: what the accumulators hold afterwards. -/
def results (ms : List (Machine M S)) : List Byte := ms.map (·.step.2.regs.a)

/-- The exact signed sum that a chain forms. -/
def signedSum (o : Operation) (c : Bool) (ms : List (Machine M S)) : Int :=
  leSigned (accumulators ms) + leSigned ((operands ms).map o.addend) + c.toNat

namespace Chain

variable {o : Operation} {c : Bool} {ms : List (Machine M S)} {e : Machine M S}

theorem ne_nil (h : Chain o c ms e) : ms ≠ [] := by
  cases h with
  | last ready => exact List.cons_ne_nil _ _
  | next ready rest => exact List.cons_ne_nil _ _

theorem succeeds (h : Chain o c ms e) (ho : o = .adc ∨ o = .sbc) :
    ∀ m ∈ ms, m.step.1 = none := by
  induction h with
  | last ready =>
    intro m hm
    obtain rfl := List.mem_singleton.mp hm
    exact (ready.step ho).1
  | next ready rest ih =>
    intro m hm
    rcases List.mem_cons.mp hm with rfl | hm
    · exact (ready.step ho).1
    · exact ih m hm

/-- The results and the last carry together are the exact sum. -/
theorem exact_sum (h : Chain o c ms e) (ho : o = .adc ∨ o = .sbc) :
    leValue (results ms) + e.regs.p.c.toNat * 256 ^ ms.length =
      leValue (accumulators ms) + leValue ((operands ms).map o.addend) + c.toNat := by
  induction h with
  | @last c m ready =>
    have hbyte := ready.exact_sum ho
    show m.step.2.regs.a.toNat + 256 * 0 + m.step.2.regs.p.c.toNat * 256 ^ 1 =
      m.regs.a.toNat + 256 * 0 + ((o.addend m.operand).toNat + 256 * 0) + c.toNat
    omega
  | @next c m e ms ready rest ih =>
    have hbyte := ready.exact_sum ho
    -- the carry between the bytes stands on both sides and cancels
    have hpow : e.regs.p.c.toNat * 256 ^ (ms.length + 1) =
        256 * (e.regs.p.c.toNat * 256 ^ ms.length) := by
      rw [Nat.pow_succ', Nat.mul_left_comm]
    show m.step.2.regs.a.toNat + 256 * leValue (results ms) +
        e.regs.p.c.toNat * 256 ^ (ms.length + 1) =
      m.regs.a.toNat + 256 * leValue (accumulators ms) +
        ((o.addend m.operand).toNat + 256 * leValue ((operands ms).map o.addend)) + c.toNat
    omega

/-- A byte below puts the byte of the result below the signed sum. -/
theorem signedSum_cons {m : Machine M S} (ready : m.Ready o c) (ho : o = .adc ∨ o = .sbc)
    (hms : ms ≠ []) :
    signedSum o c (m :: ms) =
      m.step.2.regs.a.toNat + 256 * signedSum o m.step.2.regs.p.c ms := by
  have hbyte := ready.exact_sum ho
  have hacc : accumulators ms ≠ [] := mt List.map_eq_nil_iff.mp hms
  have hadd : (operands ms).map o.addend ≠ [] :=
    mt List.map_eq_nil_iff.mp (mt List.map_eq_nil_iff.mp hms)
  have hsum : signedSum o c (m :: ms) = leSigned (m.regs.a :: accumulators ms) +
      leSigned (o.addend m.operand :: (operands ms).map o.addend) + c.toNat := rfl
  rw [hsum, leSigned_cons _ hacc, leSigned_cons _ hadd, signedSum]
  omega

/-- The last flags tell about the exact signed sum what `Ready.signed` says of
    one byte: only the topmost byte counts. -/
theorem signed (h : Chain o c ms e) (ho : o = .adc ∨ o = .sbc) :
    (e.regs.p.v ↔ ¬ FitsSigned ms.length (signedSum o c ms)) ∧
      ((e.regs.p.n ^^ e.regs.p.v) ↔ signedSum o c ms < 0) ∧
      e.regs.p.n = (leValue (results ms)).testBit (8 * ms.length - 1) := by
  induction h with
  | @last c m ready =>
    obtain ⟨hv, hsign, hn⟩ := ready.signed ho
    have hsum : signedSum o c [m] = m.regs.a.toInt + (o.addend m.operand).toInt + c.toNat := by
      rw [← leSigned_singleton, ← leSigned_singleton]
      rfl
    rw [hsum]
    exact ⟨hv, hsign, hn.trans (signBit_singleton _).symm⟩
  | @next c m e ms ready rest ih =>
    obtain ⟨hv, hsign, hn⟩ := ih
    -- a byte of at most 255 below changes neither the range nor the sign
    have hlen : ms.length ≠ 0 := mt List.eq_nil_of_length_eq_zero rest.ne_nil
    have hbyte := m.step.2.regs.a.isLt
    rw [signedSum_cons ready ho rest.ne_nil, List.length_cons, fitsSigned_cons hlen]
    refine ⟨hv, hsign.trans ?_, hn.trans (signBit_cons hlen _ _).symm⟩
    omega

end Chain

/-! ## Differences -/

theorem Chain.difference {c : Bool} {ms : List (Machine M S)} {e : Machine M S}
    (h : Chain .sbc c ms e) :
    (leValue (results ms) : Int) = leValue (accumulators ms) - leValue (operands ms) -
      (!c).toNat + ((!e.regs.p.c).toNat * 256 ^ ms.length : Nat) := by
  have hexact := h.exact_sum (.inr rfl)
  have hcomplement := leValue_complement (operands ms)
  have hlen : (operands ms).length = ms.length := List.length_map _
  have hadd : (operands ms).map Operation.sbc.addend = (operands ms).map (~~~ ·) := rfl
  rw [hlen] at hcomplement
  rw [hadd] at hexact
  -- complement and borrow both count from the range, which cancels
  generalize 256 ^ ms.length = q at *
  generalize e.regs.p.c = c' at *
  cases c <;> cases c' <;>
    simp only [Bool.toNat_true, Bool.toNat_false, Bool.not_true, Bool.not_false] at * <;>
    omega

theorem signedSum_sbc {c : Bool} {ms : List (Machine M S)} (hms : ms ≠ []) :
    signedSum .sbc c ms =
      leSigned (accumulators ms) - leSigned (operands ms) - (!c).toNat := by
  have hops : operands ms ≠ [] := mt List.map_eq_nil_iff.mp hms
  have hadd : leSigned ((operands ms).map Operation.sbc.addend) = -1 - leSigned (operands ms) :=
    leSigned_complement hops
  have hborrow : c.toNat + (!c).toNat = 1 := by cases c <;> rfl
  rw [signedSum, hadd]
  omega

/-- The last carry of a difference that borrows nothing compares the terms. -/
theorem Chain.carry_iff {ms : List (Machine M S)} {e : Machine M S} (h : Chain .sbc true ms e) :
    e.regs.p.c ↔ leValue (operands ms) ≤ leValue (accumulators ms) := by
  have hdiff := h.difference
  have hresult := leValue_lt (results ms)
  have hlen : (results ms).length = ms.length := List.length_map _
  rw [hlen] at hresult
  generalize 256 ^ ms.length = q at *
  generalize e.regs.p.c = c' at *
  cases c' <;>
    simp only [Bool.toNat_true, Bool.toNat_false, Bool.not_true, Bool.not_false,
      Bool.false_eq_true, true_iff, false_iff] at * <;>
    omega

/-! ## Comparisons -/

/-- A comparison sets N, Z and C as the difference that borrows nothing, and
    changes no other flag and no register. -/
theorem compare_step {m : Machine M S} {reg : Reg}
    (h : m.core.nextEntry.operation = .compares reg) :
    m.step.1 = none ∧ m.step.2.regs = { m.regs.compare reg m.operand with
      pc := m.core.poised.regs.pc
      cycles := m.regs.cycles + BitVec.ofNat 64 m.core.nextEntry.cycles } := by
  have haction : m.core.nextEntry.operation.action = .consume (·.compare reg ·) := by
    rw [h]
    cases reg <;> rfl
  obtain ⟨hok, hregs⟩ := step_of_consume haction
  refine ⟨hok, ?_⟩
  rw [hregs, Processor.regs_poised]
  cases reg <;> rfl

theorem Ready.difference {m : Machine M S} (h : m.Ready .sbc true) :
    m.sum .sbc = Binary.sub m.regs.a m.operand true := by
  rw [sum, h.carry, Binary.sub_eq_add]
  rfl

/-! ## The laws together -/

/-- Additions, subtractions and comparisons of numbers of any length.  Linked
    additions form the exact sum and linked subtractions the exact difference;
    the flags of the last one tell whether the signed outcome fits, and which
    of two compared numbers is the larger.  A comparison sets the flags of a
    subtraction whatever the decimal flag and the carry. -/
theorem linked_arithmetic :
    (∀ {c : Bool} {ms : List (Machine M S)} {e : Machine M S}, Chain .adc c ms e →
      (∀ m ∈ ms, m.step.1 = none) ∧
      leValue (results ms) + e.regs.p.c.toNat * 256 ^ ms.length =
        leValue (accumulators ms) + leValue (operands ms) + c.toNat ∧
      (e.regs.p.v ↔ ¬ FitsSigned ms.length
        (leSigned (accumulators ms) + leSigned (operands ms) + c.toNat)) ∧
      e.regs.p.n = (leValue (results ms)).testBit (8 * ms.length - 1)) ∧
    (∀ {c : Bool} {ms : List (Machine M S)} {e : Machine M S}, Chain .sbc c ms e →
      (∀ m ∈ ms, m.step.1 = none) ∧
      (leValue (results ms) : Int) = leValue (accumulators ms) - leValue (operands ms) -
        (!c).toNat + ((!e.regs.p.c).toNat * 256 ^ ms.length : Nat) ∧
      (e.regs.p.v ↔ ¬ FitsSigned ms.length
        (leSigned (accumulators ms) - leSigned (operands ms) - (!c).toNat)) ∧
      e.regs.p.n = (leValue (results ms)).testBit (8 * ms.length - 1) ∧
      (c = true →
        (e.regs.p.c ↔ leValue (operands ms) ≤ leValue (accumulators ms)) ∧
        ((e.regs.p.n ^^ e.regs.p.v) ↔
          leSigned (accumulators ms) < leSigned (operands ms)))) ∧
    (∀ {m : Machine M S} {reg : Reg}, m.core.nextEntry.operation = .compares reg →
      m.step.1 = none ∧
      (∀ q : Machine M S, q.Ready .sbc true → q.regs.a = m.regs.get reg → q.operand = m.operand →
        m.step.2.regs.p = { m.regs.p with
          n := q.step.2.regs.p.n, z := q.step.2.regs.p.z, c := q.step.2.regs.p.c }) ∧
      m.step.2.regs = { m.regs with
        pc := m.step.2.regs.pc, cycles := m.step.2.regs.cycles, p := m.step.2.regs.p }) := by
  refine ⟨fun {c ms e} h => ?_, fun {c ms e} h => ?_, fun {m reg} h => ?_⟩
  · obtain ⟨hv, -, hn⟩ := h.signed (.inl rfl)
    have hadd : (operands ms).map Operation.adc.addend = operands ms := List.map_id _
    have hexact := h.exact_sum (.inl rfl)
    rw [signedSum, hadd] at hv
    rw [hadd] at hexact
    exact ⟨h.succeeds (.inl rfl), hexact, hv, hn⟩
  · obtain ⟨hv, hsign, hn⟩ := h.signed (.inr rfl)
    rw [signedSum_sbc h.ne_nil] at hv hsign
    refine ⟨h.succeeds (.inr rfl), h.difference, hv, hn, ?_⟩
    rintro rfl
    refine ⟨h.carry_iff, hsign.trans ?_⟩
    show _ - _ - ((0 : Nat) : Int) < 0 ↔ _
    omega
  · obtain ⟨hok, hregs⟩ := compare_step h
    refine ⟨hok, fun q hq ha hm => ?_, ?_⟩
    · rw [hregs, (hq.step (.inr rfl)).2, hq.difference, ha, hm]
      rfl
    · rw [hregs]
      rfl

/-- `$01CE + $7F34` by `ADC #$34` and `ADC $10`: the carry of the lower bytes
    makes the signed sum overflow. -/
theorem linked_arithmetic_of_two_bytes :
    let lower : Machine Flat Unit := {
      Machine.powerOn ((Flat.zero.set 0 0x69).set 1 0x34) () with
      core.regs := { Registers.powerOn with a := 0xCE } }
    let upper : Machine Flat Unit := {
      Machine.powerOn (((Flat.zero.set 0 0x65).set 1 0x10).set 0x10 0x7F) () with
      core.regs := { Registers.powerOn with a := 0x01, p.c := true } }
    Chain .adc false [lower, upper] upper.step.2 ∧
      leValue (results [lower, upper]) + upper.step.2.regs.p.c.toNat * 256 ^ 2 =
        0x01CE + 0x7F34 ∧
      upper.step.2.regs.p.v := by
  intro lower upper
  have hlow (a : Addr) : (Bus.read lower.bus a).1 =
      if 1 = a then 0x34 else if 0 = a then 0x69 else 0 := by
    show Flat.get ((Flat.zero.set 0 0x69).set 1 0x34) a = _
    rw [Flat.get_set, Flat.get_set, Flat.get_zero]
  have hup (a : Addr) : (Bus.read upper.bus a).1 =
      if 0x10 = a then 0x7F else if 1 = a then 0x10 else if 0 = a then 0x65 else 0 := by
    show Flat.get (((Flat.zero.set 0 0x65).set 1 0x10).set 0x10 0x7F) a = _
    rw [Flat.get_set, Flat.get_set, Flat.get_set, Flat.get_zero]
  have hlowEntry : lower.core.nextEntry = ⟨.adc, .immediate, 2⟩ := congrArg opcodeEntry (hlow 0)
  have hupEntry : upper.core.nextEntry = ⟨.adc, .zeroPage, 3⟩ := congrArg opcodeEntry (hup 0)
  have hlowOperand : lower.operand = 0x34 := by
    rw [operand, Processor.operandByte, Processor.operandPlace, Processor.poised, hlowEntry]
    exact hlow 1
  have hupOperand : upper.operand = 0x7F := by
    rw [operand, Processor.operandByte, Processor.operandPlace, Processor.poised, hupEntry]
    show (Bus.read upper.bus (zeroPage (Bus.read upper.bus 1).1)).1 = _
    rw [hup 1]
    exact hup 0x10
  have hready : lower.Ready .adc false := ⟨congrArg (·.operation) hlowEntry, rfl, rfl⟩
  have hcarry : lower.step.2.regs.p.c = true := by
    rw [(hready.step (.inl rfl)).2, sum, hlowOperand]
    rfl
  have hchain : Chain .adc false [lower, upper] upper.step.2 := by
    refine .next hready (.last ⟨congrArg (·.operation) hupEntry, rfl, ?_⟩)
    rw [hcarry]
  obtain ⟨-, hsum, hover, -⟩ := linked_arithmetic.1 hchain
  have hacc : accumulators [lower, upper] = [0xCE, 0x01] := rfl
  have hops : operands [lower, upper] = [0x34, 0x7F] := by
    rw [operands, List.map_cons, List.map_singleton, hlowOperand, hupOperand]
  rw [hacc, hops] at hsum hover
  refine ⟨hchain, hsum, hover.mpr ?_⟩
  show ¬ FitsSigned 2 (leSigned [0xCE, 0x01] + leSigned [0x34, 0x7F] + 0)
  decide

end Machine

end Nmos6502
