/-
  Decimal numbers of any length.

  A list of bytes with two digits each spells a decimal number, `decimalValue`.
  Such numbers are added and subtracted byte by byte, the lowest first, with the
  carry to link the instructions; what a byte and the carry behind it stand for
  together is the exact total of that place, and the carries between the places
  cancel.  Addition and subtraction differ in a sign and in what the carry
  counts, so one induction serves both.
-/
import Nmos6502.Proofs.PackedDecimal

namespace Nmos6502

/-- The number that packed bytes spell, two digits each, least significant byte
    first. -/
def decimalValue : List Byte → Nat
  | [] => 0
  | b :: bs => Decimal.value b + 100 * decimalValue bs

@[simp] theorem decimalValue_nil : decimalValue [] = 0 := rfl

@[simp] theorem decimalValue_cons (b : Byte) (bs : List Byte) :
    decimalValue (b :: bs) = Decimal.value b + 100 * decimalValue bs := rfl

namespace Decimal

/-- The value and the carry together are the exact sum. -/
theorem add_exact {a m : Byte} (c : Bool) (ha : Packed a) (hm : Packed m) :
    value (add a m c).value + 100 * (add a m c).c.toNat = value a + value m + c.toNat := by
  obtain ⟨-, hvalue⟩ := spells_add a m c
  have ha := ha.value_le
  have hm := hm.value_le
  have hc := c.toNat_le
  have hcarry : (add a m c).c = decide (99 < value a + value m + c.toNat) := rfl
  rw [hcarry]
  -- the sum of two packed bytes stays below two hundred
  by_cases h : 99 < value a + value m + c.toNat
  · rw [decide_eq_true h, Bool.toNat_true]
    omega
  · rw [decide_eq_false h, Bool.toNat_false]
    omega

/-- The value without the borrow is the exact difference. -/
theorem sub_exact {a m : Byte} (c : Bool) (ha : Packed a) (hm : Packed m) :
    (value (sub a m c).value : Int) - 100 * (!(sub a m c).c).toNat =
      value a - value m - (!c).toNat := by
  have ha := ha.value_le
  have hm := hm.value_le
  have hc := (!c).toNat_le
  -- the difference of two packed bytes is not below minus one hundred
  obtain ⟨-, hvalue⟩ := (spells_sub a m c rfl).1 (by omega)
  have hcarry : (sub a m c).c = decide (0 ≤ (value a : Int) - value m - (!c).toNat) := rfl
  rw [hcarry]
  by_cases h : 0 ≤ (value a : Int) - value m - (!c).toNat
  · rw [decide_eq_true h, Bool.not_true, Bool.toNat_false]
    omega
  · rw [decide_eq_false h, Bool.not_false, Bool.toNat_true]
    omega

end Decimal

/-! ## What the carry counts -/

namespace Operation

/-- What the carry counts for: one if it is set, when adding; minus one if it is
    clear, when subtracting. -/
def carryCount (c : Bool) : Operation → Int
  | .sbc => -(!c).toNat
  | _ => c.toNat

/-- The second term of a total, with the sign that it has there. -/
def signed (x : Nat) : Operation → Int
  | .sbc => -x
  | _ => x

theorem signed_add_mul (o : Operation) (x y : Nat) :
    o.signed (x + 100 * y) = o.signed x + 100 * o.signed y := by
  cases o with
  | sbc =>
    show -((x + 100 * y : Nat) : Int) = -x + 100 * -y
    omega
  | _ => exact Int.natCast_add _ _

/-- The value and the carry together are the exact total of two packed bytes. -/
theorem decimalResult_exact {a m : Byte} (o : Operation) (c : Bool) (ha : Decimal.Packed a)
    (hm : Decimal.Packed m) :
    Decimal.value (o.decimalResult a m c).value + 100 * o.carryCount (o.decimalResult a m c).c =
      Decimal.value a + o.signed (Decimal.value m) + o.carryCount c := by
  cases o with
  | sbc =>
    have hexact := Decimal.sub_exact c ha hm
    show (Decimal.value (Decimal.sub a m c).value : Int) +
        100 * -((!(Decimal.sub a m c).c).toNat : Int) =
      Decimal.value a + -(Decimal.value m : Int) + -((!c).toNat : Int)
    omega
  | _ => exact congrArg Int.ofNat (Decimal.add_exact c ha hm)

end Operation

/-! ## One instruction -/

namespace Machine

variable {M S : Type} [Bus M] {o : Operation}

theorem ReadyDecimal.exact_total {m : Machine M S} (h : m.ReadyDecimal o)
    (ha : Decimal.Packed m.regs.a) (hm : Decimal.Packed m.operand) :
    (Decimal.value m.step.2.regs.a : Int) + 100 * o.carryCount m.step.2.regs.p.c =
      Decimal.value m.regs.a + o.signed (Decimal.value m.operand) + o.carryCount m.regs.p.c := by
  rw [h.step.2]
  exact o.decimalResult_exact m.regs.p.c ha hm

theorem ReadyDecimal.packed {m : Machine M S} (h : m.ReadyDecimal o)
    (hm : Decimal.Packed m.operand) : Decimal.Packed m.step.2.regs.a :=
  (h.spells.1 (o.le_decimalTotal _ _ (.inr (Nat.lt_succ_of_le hm.value_le)))).1

theorem ReadyDecimal.flags {m : Machine M S} (h : m.ReadyDecimal o) :
    m.step.2.regs.p.n = false ∧ m.step.2.regs.p.v = false := by
  have hflags : (m.decimalResult o).n = false ∧ (m.decimalResult o).v = false := by
    rw [decimalResult]
    cases o <;> exact ⟨rfl, rfl⟩
  rw [h.step.2]
  exact hflags

/-- Zero describes a sum before its hundreds are cut off. -/
theorem ReadyDecimal.zero_adc {m : Machine M S} (h : m.ReadyDecimal .adc) :
    m.step.2.regs.p.z ↔
      Decimal.value m.regs.a + Decimal.value m.operand + m.regs.p.c.toNat = 0 := by
  rw [h.step.2]
  exact beq_iff_eq

/-- Zero describes the byte that a difference leaves. -/
theorem ReadyDecimal.zero_sbc {m : Machine M S} (h : m.ReadyDecimal .sbc) :
    m.step.2.regs.p.z ↔ m.step.2.regs.a = 0 := by
  rw [h.step.2]
  exact beq_iff_eq

/-- A sum of one hundred leaves a zero that is not called one. -/
theorem ReadyDecimal.hundred {m : Machine M S} (h : m.ReadyDecimal .adc)
    (htotal : Decimal.value m.regs.a + Decimal.value m.operand + m.regs.p.c.toNat = 100) :
    m.step.2.regs.a = 0 ∧ m.step.2.regs.p.z = false := by
  have hspelled : Decimal.Spells m.step.2.regs.a (100 : Nat) := by
    rw [h.step.2, ← htotal]
    exact Decimal.spells_add _ _ _
  refine ⟨(Decimal.value_eq_zero_iff _).mp (Int.ofNat_eq_zero.mp hspelled.2), ?_⟩
  rw [Bool.eq_false_iff, ne_eq, h.zero_adc, htotal]
  decide

/-! ## Many instructions -/

/-- Each machine starts with the carry that the instruction before it left, the
    first with `c`, and the last leaves `c'`. -/
def Linked : Bool → List (Machine M S) → Bool → Prop
  | c, [], c' => c = c'
  | c, m :: ms, c' => m.regs.p.c = c ∧ Linked m.step.2.regs.p.c ms c'

/-- Executions of `o` that form a decimal sum or difference, the lowest two
    digits first. -/
structure DecimalChain (o : Operation) (c : Bool) (ms : List (Machine M S)) (c' : Bool) :
    Prop where
  ready : ∀ m ∈ ms, m.ReadyDecimal o
  digits : ∀ m ∈ ms, Decimal.Packed m.regs.a ∧ Decimal.Packed m.operand
  linked : Linked c ms c'

namespace DecimalChain

variable {c c' : Bool} {ms : List (Machine M S)}

theorem nil : DecimalChain o c ([] : List (Machine M S)) c := by
  refine ⟨?_, ?_, rfl⟩ <;> exact fun m hm => (List.not_mem_nil hm).elim

theorem cons {m : Machine M S} (hready : m.ReadyDecimal o)
    (hdigits : Decimal.Packed m.regs.a ∧ Decimal.Packed m.operand)
    (h : DecimalChain o m.step.2.regs.p.c ms c') : DecimalChain o m.regs.p.c (m :: ms) c' :=
  ⟨List.forall_mem_cons.mpr ⟨hready, h.ready⟩, List.forall_mem_cons.mpr ⟨hdigits, h.digits⟩,
    rfl, h.linked⟩

/-- The results and the last carry together are the exact total. -/
theorem exact_total (h : DecimalChain o c ms c') :
    (decimalValue (results ms) : Int) + o.carryCount c' * (100 ^ ms.length : Nat) =
      decimalValue (accumulators ms) + o.signed (decimalValue (operands ms)) +
        o.carryCount c := by
  obtain ⟨hready, hdigits, hlinked⟩ := h
  induction ms generalizing c with
  | nil =>
    obtain rfl : c = c' := hlinked
    have hzero : o.signed 0 = 0 := by cases o <;> rfl
    show (0 : Int) + o.carryCount c * (1 : Nat) = 0 + o.signed 0 + o.carryCount c
    omega
  | cons m ms ih =>
    obtain ⟨hm, hms⟩ := List.forall_mem_cons.mp hready
    obtain ⟨⟨ha, hoperand⟩, hrest⟩ := List.forall_mem_cons.mp hdigits
    obtain ⟨rfl, hlink⟩ := hlinked
    have hbyte := hm.exact_total ha hoperand
    have htail := ih hms hrest hlink
    -- the carry between the places stands on both sides and cancels
    have hpow : o.carryCount c' * (100 ^ (ms.length + 1) : Nat) =
        100 * (o.carryCount c' * (100 ^ ms.length : Nat)) := by
      rw [Nat.pow_succ', Int.natCast_mul, Int.mul_left_comm]
      rfl
    have hsigned := o.signed_add_mul (Decimal.value m.operand) (decimalValue (operands ms))
    show ((Decimal.value m.step.2.regs.a + 100 * decimalValue (results ms) : Nat) : Int) +
        o.carryCount c' * (100 ^ (ms.length + 1) : Nat) =
      (Decimal.value m.regs.a + 100 * decimalValue (accumulators ms) : Nat) +
        o.signed (Decimal.value m.operand + 100 * decimalValue (operands ms)) +
        o.carryCount m.regs.p.c
    omega

end DecimalChain

/-- Two decimal numbers of any length are added and subtracted byte by byte: the
    results and the last carry are the exact sum, and the results are the exact
    difference, which one in front of the digits makes up for where it is
    negative.  Every byte left is two digits, with N and V clear.  Z describes a
    sum before its hundreds are cut off, but of a difference the byte. -/
theorem linked_decimal_arithmetic :
    (∀ {c c' : Bool} {ms : List (Machine M S)}, DecimalChain .adc c ms c' →
      (∀ m ∈ ms, m.step.1 = none ∧ Decimal.Packed m.step.2.regs.a ∧
        m.step.2.regs.p.n = false ∧ m.step.2.regs.p.v = false ∧
        (m.step.2.regs.p.z ↔
          Decimal.value m.regs.a + Decimal.value m.operand + m.regs.p.c.toNat = 0) ∧
        (Decimal.value m.regs.a + Decimal.value m.operand + m.regs.p.c.toNat = 100 →
          m.step.2.regs.a = 0 ∧ m.step.2.regs.p.z = false)) ∧
      decimalValue (results ms) + c'.toNat * 100 ^ ms.length =
        decimalValue (accumulators ms) + decimalValue (operands ms) + c.toNat) ∧
    (∀ {c c' : Bool} {ms : List (Machine M S)}, DecimalChain .sbc c ms c' →
      (∀ m ∈ ms, m.step.1 = none ∧ Decimal.Packed m.step.2.regs.a ∧
        m.step.2.regs.p.n = false ∧ m.step.2.regs.p.v = false ∧
        (m.step.2.regs.p.z ↔ m.step.2.regs.a = 0)) ∧
      (decimalValue (results ms) : Int) = decimalValue (accumulators ms) -
        decimalValue (operands ms) - (!c).toNat + ((!c').toNat * 100 ^ ms.length : Nat)) := by
  refine ⟨fun {c c' ms} h => ⟨fun m hm => ?_, ?_⟩, fun {c c' ms} h => ⟨fun m hm => ?_, ?_⟩⟩
  · have hready := h.ready m hm
    obtain ⟨hn, hv⟩ := hready.flags
    exact ⟨hready.step.1, hready.packed (h.digits m hm).2, hn, hv, hready.zero_adc,
      hready.hundred⟩
  · have hexact := h.exact_total
    change _ + ((c'.toNat : Nat) : Int) * _ = _ + ((decimalValue (operands ms) : Nat) : Int) +
      ((c.toNat : Nat) : Int) at hexact
    rw [← Int.natCast_mul] at hexact
    omega
  · have hready := h.ready m hm
    obtain ⟨hn, hv⟩ := hready.flags
    exact ⟨hready.step.1, hready.packed (h.digits m hm).2, hn, hv, hready.zero_sbc⟩
  · have hexact := h.exact_total
    change _ + -(((!c').toNat : Nat) : Int) * _ =
      _ + -((decimalValue (operands ms) : Nat) : Int) + -(((!c).toNat : Nat) : Int) at hexact
    rw [Int.neg_mul, ← Int.natCast_mul] at hexact
    omega

/-! ## Programs of immediate operands -/

theorem carry_decimalProgram {opcode : Byte} {cycles : Nat}
    (h : opcodeEntry opcode = ⟨o, .immediate, cycles⟩) (ho : o = .adc ∨ o = .sbc) (m a : Byte)
    (c : Bool) :
    (decimalProgram opcode m a c).step.2.regs.p.c = (o.decimalResult a m c).c := by
  obtain ⟨hready, hoperand⟩ := ready_decimalProgram opcode m a c h ho
  rw [hready.step.2, decimalResult, hoperand]
  rfl

theorem DecimalChain.cons_program {opcode : Byte} {cycles : Nat}
    (h : opcodeEntry opcode = ⟨o, .immediate, cycles⟩) (ho : o = .adc ∨ o = .sbc) {m a : Byte}
    {c c' : Bool} {ms : List (Machine Flat Unit)} (ha : Decimal.Packed a)
    (hm : Decimal.Packed m) (hms : DecimalChain o (o.decimalResult a m c).c ms c') :
    DecimalChain o c (decimalProgram opcode m a c :: ms) c' := by
  obtain ⟨hready, hoperand⟩ := ready_decimalProgram opcode m a c h ho
  rw [← carry_decimalProgram h ho] at hms
  exact .cons hready ⟨ha, hoperand.symm ▸ hm⟩ hms

/-- Any two decimal numbers of one length are the terms of a chain. -/
theorem exists_decimalChain {opcode : Byte} {cycles : Nat}
    (h : opcodeEntry opcode = ⟨o, .immediate, cycles⟩) (ho : o = .adc ∨ o = .sbc)
    (digits : List (Byte × Byte)) (c : Bool)
    (hdigits : ∀ d ∈ digits, Decimal.Packed d.1 ∧ Decimal.Packed d.2) :
    ∃ (ms : List (Machine Flat Unit)) (c' : Bool), DecimalChain o c ms c' ∧
      accumulators ms = digits.map (·.1) ∧ operands ms = digits.map (·.2) := by
  induction digits generalizing c with
  | nil => exact ⟨[], c, .nil, rfl, rfl⟩
  | cons d ds ih =>
    obtain ⟨⟨ha, hm⟩, hrest⟩ := List.forall_mem_cons.mp hdigits
    obtain ⟨ms, c', hms, hacc, hops⟩ := ih (o.decimalResult d.1 d.2 c).c hrest
    refine ⟨decimalProgram opcode d.2 d.1 c :: ms, c', hms.cons_program h ho ha hm,
      congrArg (d.1 :: ·) hacc, ?_⟩
    rw [operands, List.map_cons, (ready_decimalProgram opcode d.2 d.1 c h ho).2]
    exact congrArg (d.2 :: ·) hops

/-- `ADC #$01` on `$99` and, with the carry, `ADC #$50` on `$49`: 4999 and 5001
    are ten thousand, and no byte of the zeros is called zero.  `SBC #$01` and
    `SBC #$00` on zeros: one less than nothing is 9999 and a borrow. -/
theorem linked_decimal_arithmetic_of_two_bytes :
    let sum := [decimalProgram 0x69 0x01 0x99 false, decimalProgram 0x69 0x50 0x49 true]
    let difference := [decimalProgram 0xE9 0x01 0x00 true, decimalProgram 0xE9 0x00 0x00 false]
    (DecimalChain .adc false sum true ∧ decimalValue (results sum) + 100 ^ 2 = 4999 + 5001 ∧
      ∀ m ∈ sum, m.step.2.regs.p.z = false) ∧
    DecimalChain .sbc true difference false ∧ decimalValue (results difference) = 9999 := by
  intro sum difference
  have hadc : opcodeEntry 0x69 = ⟨.adc, .immediate, 2⟩ := rfl
  have hsbc : opcodeEntry 0xE9 = ⟨.sbc, .immediate, 2⟩ := rfl
  have hsum : DecimalChain .adc false sum true :=
    .cons_program hadc (.inl rfl) (by decide) (by decide)
      (.cons_program hadc (.inl rfl) (by decide) (by decide) .nil)
  have hdifference : DecimalChain .sbc true difference false :=
    .cons_program hsbc (.inr rfl) (by decide) (by decide)
      (.cons_program hsbc (.inr rfl) (by decide) (by decide) .nil)
  obtain ⟨hsteps, hexact⟩ := linked_decimal_arithmetic.1 hsum
  obtain ⟨-, hborrowed⟩ := linked_decimal_arithmetic.2 hdifference
  have hlow : (decimalProgram 0x69 0x01 0x99 false).operand = 0x01 :=
    (ready_decimalProgram _ _ _ _ hadc (.inl rfl)).2
  have hhigh : (decimalProgram 0x69 0x50 0x49 true).operand = 0x50 :=
    (ready_decimalProgram _ _ _ _ hadc (.inl rfl)).2
  have hoperands : operands difference = [0x01, 0x00] := by
    rw [operands, List.map_cons, List.map_singleton,
      (ready_decimalProgram _ _ _ _ hsbc (.inr rfl)).2,
      (ready_decimalProgram _ _ _ _ hsbc (.inr rfl)).2]
  rw [operands, List.map_cons, List.map_singleton, hlow, hhigh] at hexact
  rw [hoperands] at hborrowed
  refine ⟨⟨hsum, hexact, fun m hm => ?_⟩, hdifference, Int.ofNat_inj.mp hborrowed⟩
  obtain ⟨-, -, -, -, -, hhundred⟩ := hsteps m hm
  refine (hhundred ?_).2
  rcases List.mem_cons.mp hm with rfl | hm
  · rw [hlow]
    rfl
  · obtain rfl := List.mem_singleton.mp hm
    rw [hhigh]
    rfl

end Machine

end Nmos6502
