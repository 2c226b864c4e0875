/-
  Sums and differences of two decimal digits.

  With D set a byte counts its lower half once and its upper half ten times,
  also where a half is no digit.  The exact sum or difference of two such bytes
  is then brought back to two digits.  For sums that is always right.  For
  differences it is right down to minus one hundred: a hundred is added once,
  and what is still negative after that is not two digits of anything.  Only
  operands with a half above nine lead there.
-/
import Nmos6502.Proofs.Multibyte

namespace Nmos6502

namespace Decimal

/-! ## Bytes of two digits -/

/-- Both halves of the byte are decimal digits. -/
def Packed (b : Byte) : Prop := b.toNat % 16 ≤ 9 ∧ b.toNat / 16 ≤ 9

instance (b : Byte) : Decidable (Packed b) := inferInstanceAs (Decidable (_ ∧ _))

/-- The byte is the last two decimal digits of a number; those of a negative
    number are taken modulo one hundred. -/
def Spells (b : Byte) (x : Int) : Prop := Packed b ∧ (value b : Int) = x % 100

instance (b : Byte) (x : Int) : Decidable (Spells b x) := inferInstanceAs (Decidable (_ ∧ _))

theorem value_le (b : Byte) : value b ≤ 165 := by
  have hb := b.isLt
  unfold value
  omega

theorem Packed.value_le {b : Byte} (h : Packed b) : value b ≤ 99 := by
  obtain ⟨hlo, hhi⟩ := h
  unfold value
  omega

theorem value_eq_zero_iff (b : Byte) : value b = 0 ↔ b = 0 := by
  rw [← BitVec.toNat_inj]
  unfold value
  show _ ↔ b.toNat = 0
  omega

/-! ## Packing -/

/-- The two digits stand side by side. -/
theorem toNat_digits : ∀ lo < 10, ∀ hi < 10,
    (BitVec.ofNat 8 lo ||| BitVec.ofNat 8 hi <<< 4).toNat = lo + 16 * hi := by
  decide

theorem toNat_pack (n : Nat) : (pack n).toNat = n % 10 + 16 * (n / 10 % 10) := by
  have hpack : pack n = BitVec.ofNat 8 (n % 10) ||| BitVec.ofNat 8 (n / 10 % 10) <<< 4 := rfl
  rw [hpack]
  exact toNat_digits _ (Nat.mod_lt _ (by decide)) _ (Nat.mod_lt _ (by decide))

/-- The last two digits of a number are what is packed of it. -/
theorem spells_pack (n : Nat) : Spells (pack n) n := by
  have hpack := toNat_pack n
  refine ⟨⟨by omega, by omega⟩, ?_⟩
  unfold value
  omega

/-- Digits with a sign, in two's complement, fill the upper half. -/
theorem toNat_signed_digits : ∀ lo < 10, ∀ hi < 7, lo + hi ≠ 0 →
    9 < (BitVec.ofInt 8 (-(lo : Nat)) ||| BitVec.ofInt 8 (-(hi : Nat)) <<< 4).toNat / 16 := by
  decide +kernel

/-- What is packed of a negative number is never two digits. -/
theorem not_packed_pack_neg {n : Nat} (hpos : n ≠ 0) (hlt : n < 70) : ¬ Packed (pack (-n)) := by
  have hpack : pack (-n) =
      BitVec.ofInt 8 (-(n % 10 : Nat)) ||| BitVec.ofInt 8 (-(n / 10 % 10 : Nat)) <<< 4 := by
    rw [pack, Int.neg_tmod, Int.neg_tdiv, Int.neg_tmod]
    rfl
  have hupper := toNat_signed_digits (n % 10) (by omega) (n / 10 % 10) (by omega) (by omega)
  rw [← hpack] at hupper
  exact fun h => Nat.not_lt.mpr h.2 hupper

/-! ## Sums and differences -/

theorem spells_add (a m : Byte) (c : Bool) :
    Spells (add a m c).value (value a + value m + c.toNat) :=
  spells_pack (value a + value m + c.toNat)

/-- A difference is spelled as long as one hundred is enough to make it a number
    again, and is no two digits when that is not enough. -/
theorem spells_sub (a m : Byte) (c : Bool) {total : Int}
    (htotal : total = value a - value m - (!c).toNat) :
    (-100 ≤ total → Spells (sub a m c).value total) ∧
      (total < -100 → ¬ Packed (sub a m c).value) := by
  have hm := value_le m
  have hc := (!c).toNat_le
  have hvalue : (sub a m c).value = pack (if total < 0 then total + 100 else total) := by
    rw [htotal]
    rfl
  rw [hvalue]
  refine ⟨fun hreached => ?_, fun hbeyond => ?_⟩
  · obtain ⟨n, hn⟩ : ∃ n : Nat, (if total < 0 then total + 100 else total) = n :=
      Int.eq_ofNat_of_zero_le (by split <;> omega)
    obtain ⟨hpacked, hspelled⟩ := spells_pack n
    rw [hn]
    -- a hundred more or less does not show in two digits
    refine ⟨hpacked, hspelled.trans ?_⟩
    split at hn <;> omega
  · obtain ⟨n, hn⟩ := Int.eq_ofNat_of_zero_le (by omega : 0 ≤ -(total + 100))
    have hneg : total + 100 = -(n : Int) := by omega
    rw [if_pos (by omega), hneg]
    exact not_packed_pack_neg (by omega) (by omega)

end Decimal

/-! ## One instruction -/

/-- The exact decimal number that an addition or subtraction forms of the
    accumulator, its operand and the carry. -/
def Operation.decimalTotal (a m : Byte) (c : Bool) : Operation → Int
  | .sbc => Decimal.value a - Decimal.value m - (!c).toNat
  | _ => Decimal.value a + Decimal.value m + c.toNat

def Operation.decimalResult (a m : Byte) (c : Bool) : Operation → ArithResult
  | .sbc => Decimal.sub a m c
  | _ => Decimal.add a m c

/-- With D set both let the registers take in a decimal result. -/
theorem Operation.action_of_decimal {o : Operation} (ho : o = .adc ∨ o = .sbc) :
    ∃ f, o.action = .consume f ∧ ∀ {r : Registers} (m : Byte), r.p.d = true →
      f r m = r.accept (o.decimalResult r.a m r.p.c) := by
  rcases ho with rfl | rfl
  · exact ⟨Registers.add, rfl, fun m hd => congrArg _ (if_pos hd)⟩
  · exact ⟨Registers.sub, rfl, fun m hd => congrArg _ (if_pos hd)⟩

/-- The result spells the total, unless that is below minus one hundred; then it
    spells nothing. -/
theorem Operation.spells_decimalResult (o : Operation) (a m : Byte) (c : Bool) :
    (-100 ≤ o.decimalTotal a m c →
      Decimal.Spells (o.decimalResult a m c).value (o.decimalTotal a m c)) ∧
    (o.decimalTotal a m c < -100 → ¬ Decimal.Packed (o.decimalResult a m c).value) := by
  cases o with
  | sbc => exact Decimal.spells_sub a m c rfl
  | _ =>
    refine ⟨fun _ => Decimal.spells_add a m c, fun hbeyond => ?_⟩
    change ((Decimal.value a + Decimal.value m + c.toNat : Nat) : Int) < -100 at hbeyond
    omega

/-- Sums, and differences whose second term counts less than one hundred, are
    never below minus one hundred. -/
theorem Operation.le_decimalTotal {o : Operation} (a : Byte) {m : Byte} (c : Bool)
    (h : o = .adc ∨ Decimal.value m < 100) : -100 ≤ o.decimalTotal a m c := by
  have hc := c.toNat_le
  have hborrow := (!c).toNat_le
  cases o with
  | sbc =>
    obtain h | h := h
    · cases h
    · show -100 ≤ (Decimal.value a : Int) - Decimal.value m - (!c).toNat
      omega
  | _ =>
    show -100 ≤ ((Decimal.value a + Decimal.value m + c.toNat : Nat) : Int)
    omega

namespace Machine

variable {M S : Type} [Bus M]

/-- The machine is about to execute `o`, an addition or subtraction, on decimal
    numbers. -/
structure ReadyDecimal (o : Operation) (m : Machine M S) : Prop where
  arithmetic : o = .adc ∨ o = .sbc
  operation : m.core.nextEntry.operation = o
  decimal : m.regs.p.d = true

/-- The exact decimal number that `o` forms, if it comes next. -/
def decimalTotal (o : Operation) (m : Machine M S) : Int :=
  o.decimalTotal m.regs.a m.operand m.regs.p.c

/-- The result that `o` leaves, if it comes next. -/
def decimalResult (o : Operation) (m : Machine M S) : ArithResult :=
  o.decimalResult m.regs.a m.operand m.regs.p.c

theorem ReadyDecimal.step {o : Operation} {m : Machine M S} (h : m.ReadyDecimal o) :
    m.step.1 = none ∧ m.step.2.regs = { m.regs.accept (m.decimalResult o) with
      pc := m.core.poised.regs.pc
      cycles := m.regs.cycles + BitVec.ofNat 64 m.core.nextEntry.cycles } := by
  obtain ⟨f, haction, hresult⟩ := Operation.action_of_decimal h.arithmetic
  rw [← h.operation] at haction
  have hpoised := Processor.regs_poised m.core
  have hd : m.core.poised.regs.p.d = true := by
    rw [hpoised]
    exact h.decimal
  refine step_of_accept haction ?_
  rw [hresult _ hd, hpoised]
  rfl

theorem ReadyDecimal.spells {o : Operation} {m : Machine M S} (h : m.ReadyDecimal o) :
    (-100 ≤ m.decimalTotal o → Decimal.Spells m.step.2.regs.a (m.decimalTotal o)) ∧
      (m.decimalTotal o < -100 → ¬ Decimal.Packed m.step.2.regs.a) := by
  rw [h.step.2]
  exact o.spells_decimalResult _ _ _

/-! ## Several instructions -/

theorem ReadyDecimal.decimal_step {o : Operation} {m : Machine M S} (h : m.ReadyDecimal o) :
    m.step.2.regs.p.d = true := by
  rw [h.step.2]
  exact h.decimal

theorem readyDecimal_of_mem {m : Machine M S} (hd : m.regs.p.d = true)
    (hop : m.core.nextEntry.operation ∈ [.adc, .sbc]) :
    m.ReadyDecimal m.core.nextEntry.operation :=
  ⟨by simpa using hop, rfl, hd⟩

/-- If additions and subtractions follow one another and the first works on
    decimal numbers, then so does the last, and it succeeds. -/
theorem ready_last {m : Machine M S} (hd : m.regs.p.d = true) {n : Nat}
    (hops : ∀ i ≤ n, (m.after i).2.core.nextEntry.operation ∈ [.adc, .sbc]) :
    let last := (m.after n).2
    last.ReadyDecimal last.core.nextEntry.operation ∧ m.after (n + 1) = (none, last.step.2) := by
  have hready := readyDecimal_of_mem hd (hops 0 (Nat.zero_le n))
  have hafter := after_succ_of_ok hready.step.1
  induction n generalizing m with
  | zero => exact ⟨hready, hafter 0⟩
  | succ n ih =>
    have hrest : ∀ i ≤ n, (m.step.2.after i).2.core.nextEntry.operation ∈ [.adc, .sbc] := by
      intro i hi
      rw [← hafter i]
      exact hops (i + 1) (Nat.succ_le_succ hi)
    have hnext := readyDecimal_of_mem hready.decimal_step (hrest 0 (Nat.zero_le n))
    rw [hafter n, hafter (n + 1)]
    exact ih hready.decimal_step hrest hnext (after_succ_of_ok hnext.step.1)

/-- Whatever the halves of its operands, an addition or subtraction of decimal
    numbers leaves the last two digits of the exact total, if that is not below
    minus one hundred; sums never are, nor are differences whose second term
    counts less than one hundred.  A total further down leaves a byte that is no
    two digits.  After several in a row it is the last that decides. -/
theorem decimal_totals_are_spelled :
    (∀ {o : Operation} {m : Machine M S}, m.ReadyDecimal o →
      m.step.1 = none ∧
      (-100 ≤ m.decimalTotal o → Decimal.Spells m.step.2.regs.a (m.decimalTotal o)) ∧
      (o = .adc ∨ Decimal.value m.operand < 100 → -100 ≤ m.decimalTotal o) ∧
      (m.decimalTotal o < -100 → ¬ Decimal.Packed m.step.2.regs.a)) ∧
    (∀ {m : Machine M S} {n : Nat}, m.regs.p.d = true →
      (∀ i ≤ n, (m.after i).2.core.nextEntry.operation ∈ [.adc, .sbc]) →
      let last := (m.after n).2
      (m.after (n + 1)).1 = none ∧
      (Decimal.Packed (m.after (n + 1)).2.regs.a ↔
        -100 ≤ last.decimalTotal last.core.nextEntry.operation)) := by
  refine ⟨fun {o m} h => ⟨h.step.1, h.spells.1, Operation.le_decimalTotal _ _, h.spells.2⟩,
    fun {m n} hd hops => ?_⟩
  intro last
  obtain ⟨hready, hafter⟩ := ready_last hd hops
  obtain ⟨hspells, hbeyond⟩ := hready.spells
  rw [hafter]
  refine ⟨rfl, fun hpacked => ?_, fun hreached => (hspells hreached).1⟩
  exact Int.not_lt.mp fun hlt => hbeyond hlt hpacked

/-- An immediate operand is the byte behind the opcode. -/
theorem operand_of_immediate {m : Machine M S} (h : m.core.nextEntry.mode = .immediate) :
    m.operand = (Bus.read (Bus.read m.bus m.regs.pc).2 (m.regs.pc + 1)).1 := by
  rw [operand, Processor.operandByte, Processor.operandPlace, Processor.poised, h]
  rfl

/-- A machine on flat memory that is about to execute the two bytes at address
    zero, with `a` in the accumulator, the carry `c` and D set. -/
def decimalProgram (opcode m a : Byte) (c : Bool) : Machine Flat Unit := {
  Machine.powerOn ((Flat.zero.set 0 opcode).set 1 m) () with
  core.regs := { Registers.powerOn with a, p.c := c, p.d := true } }

theorem ready_decimalProgram (opcode m a : Byte) (c : Bool) {o : Operation} {cycles : Nat}
    (h : opcodeEntry opcode = ⟨o, .immediate, cycles⟩) (ho : o = .adc ∨ o = .sbc) :
    (decimalProgram opcode m a c).ReadyDecimal o ∧ (decimalProgram opcode m a c).operand = m := by
  have hread (b : Addr) : (Bus.read (decimalProgram opcode m a c).bus b).1 =
      if 1 = b then m else if 0 = b then opcode else 0 := by
    show Flat.get ((Flat.zero.set 0 opcode).set 1 m) b = _
    rw [Flat.get_set, Flat.get_set, Flat.get_zero]
  have hentry : (decimalProgram opcode m a c).core.nextEntry = ⟨o, .immediate, cycles⟩ :=
    (congrArg opcodeEntry (hread 0)).trans h
  refine ⟨⟨ho, congrArg (·.operation) hentry, rfl⟩, ?_⟩
  rw [operand_of_immediate (congrArg (·.mode) hentry)]
  exact hread 1

/-- `ADC #$FF` on `$FF` with the carry set: one hundred and sixty-five and again
    as much and one is three hundred and thirty-one. -/
theorem decimal_sum_of_largest :
    let m := decimalProgram 0x69 0xFF 0xFF true
    m.ReadyDecimal .adc ∧ m.step.2.regs.a = 0x31 ∧ (m.after 1).1 = none ∧
      Decimal.Packed (m.after 1).2.regs.a := by
  intro m
  obtain ⟨hready, hoperand⟩ : m.ReadyDecimal .adc ∧ m.operand = 0xFF :=
    ready_decimalProgram _ _ _ _ rfl (.inl rfl)
  obtain ⟨-, hspells, hreached, -⟩ := decimal_totals_are_spelled.1 hready
  have htotal : m.decimalTotal .adc = 331 := by
    rw [decimalTotal, hoperand]
    show Operation.decimalTotal 0xFF 0xFF true .adc = 331
    decide
  have hspelled := hspells (hreached (.inl rfl))
  rw [htotal] at hspelled
  have honly : ∀ b : Byte, Decimal.Spells b 331 → b = 0x31 := by decide +kernel
  have hops : ∀ i ≤ 0, (m.after i).2.core.nextEntry.operation ∈ [.adc, .sbc] := by
    intro i hi
    obtain rfl := Nat.le_zero.mp hi
    show m.core.nextEntry.operation ∈ _
    rw [hready.operation]
    exact List.mem_cons_self
  obtain ⟨hok, hpacked⟩ := decimal_totals_are_spelled.2 (m := m) (n := 0) rfl hops
  refine ⟨hready, honly _ hspelled, hok, hpacked.mpr ?_⟩
  show -100 ≤ m.decimalTotal m.core.nextEntry.operation
  rw [hready.operation, htotal]
  decide

/-- `SBC #$FF` on zero with a borrow: the total is minus one hundred and
    sixty-six, whose last two digits are `$34`, and the accumulator takes `$FA`. -/
theorem decimal_difference_out_of_reach :
    let m := decimalProgram 0xE9 0xFF 0x00 false
    m.ReadyDecimal .sbc ∧ m.decimalTotal .sbc = -166 ∧ m.step.2.regs.a = 0xFA ∧
      ¬ Decimal.Spells m.step.2.regs.a (m.decimalTotal .sbc) ∧
      ¬ Decimal.Packed m.step.2.regs.a := by
  intro m
  obtain ⟨hready, hoperand⟩ : m.ReadyDecimal .sbc ∧ m.operand = 0xFF :=
    ready_decimalProgram _ _ _ _ rfl (.inr rfl)
  have htotal : m.decimalTotal .sbc = -166 := by
    rw [decimalTotal, hoperand]
    show Operation.decimalTotal 0x00 0xFF false .sbc = -166
    decide
  have ha : m.step.2.regs.a = 0xFA := by
    rw [hready.step.2, decimalResult, hoperand]
    show (Decimal.sub 0x00 0xFF false).value = 0xFA
    decide +kernel
  rw [htotal, ha]
  exact ⟨hready, rfl, rfl, by decide, by decide⟩

end Machine

end Nmos6502
