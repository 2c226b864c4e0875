/-
  Numbers of any length, shifted through the carry.

  A program shifts a long number by one rotation for each byte, from the lowest
  up to go left and from the highest down to go right; the carry hands the bit
  from one byte to the next.  Bytes and carry together are a ring of bits, so a
  sweep in one direction undoes one in the other.

  `Sweep` describes such a run by the machines that are about to execute the
  instructions.  In between the program may do what it needs to come to the next
  one, counting and looping, as long as it writes nothing and leaves the carry
  alone.  The cells may be anywhere on a bus of any kind, if there is RAM.
-/
import Mathlib.Data.List.Nodup
import Mathlib.Tactic.Ring
import Nmos6502.Proofs.Cells
import Nmos6502.Proofs.Footprint
import Nmos6502.Proofs.Number

namespace Nmos6502

/-! ## One byte -/

namespace Shift

/-- To the left: the carry below the byte becomes the byte below the carry. -/
theorem left_exact (b : Byte) (c : Bool) :
    (left b c).1.toNat + 256 * (left b c).2.toNat = 2 * b.toNat + c.toNat := by
  revert b c
  decide +kernel

/-- To the right: the byte below the carry becomes the carry below the byte. -/
theorem right_exact (b : Byte) (c : Bool) :
    2 * (right b c).1.toNat + (right b c).2.toNat = b.toNat + 256 * c.toNat := by
  revert b c
  decide +kernel

end Shift

namespace Operation

/-- Whether the operation moves the bits of its operand by one place. -/
def rotates (o : Operation) : Bool := o == .asl || o == .lsr || o == .rol || o == .ror

/-- The byte that such an operation makes of a byte and the carry, and the carry
    that it leaves. -/
def rotated : Operation → Byte → Bool → Byte × Bool
  | .asl, b, _ => Shift.left b false
  | .rol, b, c => Shift.left b c
  | .lsr, b, _ => Shift.right b false
  | .ror, b, c => Shift.right b c
  | _, b, c => (b, c)

/-- All four replace the operand, and show carry and result in the flags. -/
theorem action_of_rotates {o : Operation} (h : o.rotates) :
    o.action = .modify fun r b => r.shifted (o.rotated b r.p.c) := by
  cases o
  case asl | lsr | rol | ror => rfl
  all_goals cases h

end Operation

/-! ## Many bytes -/

/-- The bytes that operations make of bytes, one after the other, when each
    leaves its carry to the next. -/
def rotateAll : List (Operation × Byte) → Bool → List Byte × Bool
  | [], c => ([], c)
  | (o, b) :: rest, c =>
    ((o.rotated b c).1 :: (rotateAll rest (o.rotated b c).2).1,
      (rotateAll rest (o.rotated b c).2).2)

theorem rotateAll_cons_eq {o : Operation} {b : Byte} {js : List (Operation × Byte)} {c c' : Bool}
    {rs : List Byte} :
    rotateAll ((o, b) :: js) c = (rs, c') ↔
      ∃ rest, rs = (o.rotated b c).1 :: rest ∧
        rotateAll js (o.rotated b c).2 = (rest, c') := by
  rw [rotateAll]
  constructor
  · intro h
    obtain ⟨hrs, hc⟩ := Prod.mk.inj h
    exact ⟨_, hrs.symm, Prod.ext rfl hc⟩
  · rintro ⟨rest, rfl, hrest⟩
    rw [hrest]

theorem length_rotateAll {js : List (Operation × Byte)} {c c' : Bool} {rs : List Byte}
    (h : rotateAll js c = (rs, c')) : rs.length = js.length := by
  induction js generalizing c rs with
  | nil =>
    obtain ⟨rfl, -⟩ := Prod.mk.inj h
    rfl
  | cons j js ih =>
    obtain ⟨rest, rfl, hrest⟩ := rotateAll_cons_eq.mp h
    rw [List.length_cons, List.length_cons, ih hrest]

theorem eq_of_toNat_eq : ∀ {c c' : Bool}, c.toNat = c'.toNat → c = c' := by
  decide

/-- From the lowest byte up: the number with the last carry on top of it is the
    number with the first carry below it. -/
theorem rotateAll_left {bs rs : List Byte} {c c' : Bool}
    (h : rotateAll (bs.map (.rol, ·)) c = (rs, c')) :
    leValue rs + c'.toNat * 256 ^ bs.length = 2 * leValue bs + c.toNat := by
  induction bs generalizing c rs with
  | nil =>
    obtain ⟨rfl, rfl⟩ := Prod.mk.inj h
    simp
  | cons b bs ih =>
    obtain ⟨rest, rfl, hrest⟩ := rotateAll_cons_eq.mp h
    have hbyte : (Operation.rol.rotated b c).1.toNat +
        256 * (Operation.rol.rotated b c).2.toNat = 2 * b.toNat + c.toNat := Shift.left_exact b c
    have hnumber := ih hrest
    -- the carry between the bytes stands on both sides and cancels
    have hpow : c'.toNat * 256 ^ (bs.length + 1) = 256 * (c'.toNat * 256 ^ bs.length) := by
      rw [Nat.pow_succ', Nat.mul_left_comm]
    rw [List.length_cons, hpow, leValue_cons, leValue_cons]
    omega

/-- From the highest byte down: the number with the last carry below it is the
    number with the first carry on top of it. -/
theorem rotateAll_right {bs rs : List Byte} {c c' : Bool}
    (h : rotateAll (bs.map (.ror, ·)) c = (rs, c')) :
    2 * leValue rs.reverse + c'.toNat =
      leValue bs.reverse + c.toNat * 256 ^ bs.length := by
  induction bs generalizing c rs with
  | nil =>
    obtain ⟨rfl, rfl⟩ := Prod.mk.inj h
    simp
  | cons b bs ih =>
    obtain ⟨rest, rfl, hrest⟩ := rotateAll_cons_eq.mp h
    have hlength : rest.length = bs.length := by rw [length_rotateAll hrest, List.length_map]
    have hbyte : 2 * (Operation.ror.rotated b c).1.toNat +
        (Operation.ror.rotated b c).2.toNat = b.toNat + 256 * c.toNat := Shift.right_exact b c
    have hnumber := ih hrest
    rw [List.reverse_cons, List.reverse_cons, leValue_append_singleton, leValue_append_singleton,
      List.length_reverse, List.length_reverse, hlength, List.length_cons]
    -- the highest byte counts by the range of the others, and so does its carry
    calc 2 * (leValue rest.reverse + 256 ^ bs.length * (Operation.ror.rotated b c).1.toNat) +
            c'.toNat
        = (2 * leValue rest.reverse + c'.toNat) +
            256 ^ bs.length * (2 * (Operation.ror.rotated b c).1.toNat) := by ring
      _ = leValue bs.reverse + 256 ^ bs.length *
            (2 * (Operation.ror.rotated b c).1.toNat + (Operation.ror.rotated b c).2.toNat) := by
          rw [hnumber]
          ring
      _ = leValue bs.reverse + 256 ^ bs.length * b.toNat + c.toNat * 256 ^ (bs.length + 1) := by
          rw [hbyte]
          ring

/-! ## One instruction -/

namespace Machine

variable {M S : Type} [Bus M]

/-- The machine is about to shift or rotate the cell at `a` by `o`. -/
structure Rotates (o : Operation) (a : Addr) (m : Machine M S) : Prop where
  operation : m.core.nextEntry.operation = o
  rotates : o.rotates
  mode : m.core.nextEntry.mode ≠ .accumulator
  place : m.core.operandPlace = a

/-- The machine is about to shift or rotate the accumulator by `o`. -/
structure RotatesAccumulator (o : Operation) (m : Machine M S) : Prop where
  operation : m.core.nextEntry.operation = o
  rotates : o.rotates
  mode : m.core.nextEntry.mode = .accumulator

/-- The flags after a shift or rotation with the given outcome: C is the bit
    shifted out, Z and N describe the byte, and the others are kept. -/
def flagsAfter (p : Status) (res : Byte × Bool) : Status := { p with c := res.2 }.describe res.1

/-- Every such instruction is documented. -/
theorem step_of_rotates {m : Machine M S} {o : Operation}
    (hop : m.core.nextEntry.operation = o) (ho : o.rotates) :
    m.step = (none, { m with
      core := (m.core.poised.modify m.core.nextEntry.mode m.core.operandPlace fun r b =>
        r.shifted (o.rotated b r.p.c)).spend m.core.nextEntry.cycles }) := by
  have hlegal : m.core.nextEntry.legal := by
    rw [OpcodeEntry.legal_iff, hop]
    rintro rfl
    cases ho
  rw [step_of_legal hlegal, Processor.step_of_legal hlegal, hop, Processor.perform_eq_act,
    Operation.action_of_rotates ho, Processor.act]

/-- What the instruction writes is the last that it does on the bus. -/
theorem Rotates.step {o : Operation} {a : Addr} {m : Machine M S} (h : m.Rotates o a) :
    let res := o.rotated m.core.operandByte m.regs.p.c
    m.step.1 = none ∧
      m.step.2.bus = Bus.write (Bus.read m.core.poised.bus a).2 a res.1 ∧
      m.step.2.regs.p = flagsAfter m.regs.p res := by
  have hflags : m.core.poised.regs.p = m.regs.p := by rw [Processor.regs_poised]
  intro res
  rw [step_of_rotates h.operation h.rotates, Processor.modify_cell _ h.mode, hflags,
    ← Processor.operandByte, h.place]
  exact ⟨rfl, rfl, congrArg (flagsAfter · res) hflags⟩

theorem RotatesAccumulator.step {o : Operation} {m : Machine M S} (h : m.RotatesAccumulator o) :
    let res := o.rotated m.regs.a m.regs.p.c
    m.step.1 = none ∧ m.step.2.regs.a = res.1 ∧ m.step.2.regs.p = flagsAfter m.regs.p res := by
  have ha : m.core.poised.regs.a = m.regs.a := by rw [Processor.regs_poised]
  have hflags : m.core.poised.regs.p = m.regs.p := by rw [Processor.regs_poised]
  intro res
  rw [step_of_rotates h.operation h.rotates, h.mode, Processor.modify_accumulator, ha, hflags]
  exact ⟨rfl, rfl, congrArg (flagsAfter · res) hflags⟩

open Bus (Reaches Stores Cell peek)

/-- On the bus the instruction reads, and writes to its cell alone. -/
theorem Rotates.reaches {o : Operation} {a : Addr} {m : Machine M S} (h : m.Rotates o a) :
    Reaches (· = a) m.bus m.step.2.bus := by
  have hpoised : Reaches (· = a) m.bus m.core.poised.bus :=
    m.core.reaches_poised.mono fun _ h => h.elim
  rw [h.step.2.1]
  exact (hpoised.read a).write rfl _

/-- In RAM the instruction finds the byte of its cell and leaves the outcome. -/
theorem Rotates.result {o : Operation} {a : Addr} {m : Machine M S} (h : m.Rotates o a)
    (ha : Stores m.bus a) :
    let res := o.rotated (peek m.bus a) m.regs.p.c
    m.step.1 = none ∧ peek m.step.2.bus a = res.1 ∧ m.step.2.regs.p = flagsAfter m.regs.p res := by
  obtain ⟨hok, hbus, hflags⟩ := h.step
  have hbyte : m.core.operandByte = peek m.bus a := by
    rw [Processor.operandByte, h.place]
    exact ha.toCell.peek_of_reaches m.core.reaches_poised id
  rw [hbyte] at hbus hflags
  refine ⟨hok, ?_, hflags⟩
  rw [hbus]
  exact ha.takes (.read (m.core.reaches_poised.mono fun _ h => h.elim) a) _

/-! ## Sweeps -/

/-- What a program may do between two rotations: anything that writes nothing
    and leaves the carry as it is. -/
structure Pause (m m' : Machine M S) : Prop where
  carry : m'.regs.p.c = m.regs.p.c
  bus : Reaches (fun _ => False) m.bus m'.bus

/-- Shifts and rotations of cells one after the other, from the first
    instruction to the end of the last. -/
inductive Sweep : List (Operation × Addr) → Machine M S → Machine M S → Prop
  | last {o : Operation} {a : Addr} {m : Machine M S} (h : m.Rotates o a) :
      Sweep [(o, a)] m m.step.2
  | next {o : Operation} {a : Addr} {js : List (Operation × Addr)} {m m' e : Machine M S}
      (h : m.Rotates o a) (pause : Pause m.step.2 m') (rest : Sweep js m' e) :
      Sweep ((o, a) :: js) m e

/-- The cells are at different addresses, and all of them are RAM. -/
structure InRam (m : Machine M S) (cells : List Addr) : Prop where
  distinct : cells.Nodup
  ram : ∀ a ∈ cells, Stores m.bus a

/-- The bytes in the cells. -/
def bytesIn (m : Machine M S) (cells : List Addr) : List Byte := cells.map (peek m.bus)

/-- The number in the cells, the lowest byte in the first. -/
def numberIn (m : Machine M S) (cells : List Addr) : Nat := leValue (m.bytesIn cells)

@[simp] theorem length_bytesIn (m : Machine M S) (cells : List Addr) :
    (m.bytesIn cells).length = cells.length := List.length_map _

theorem InRam.reaches {m m' : Machine M S} {cells : List Addr} {W : Addr → Prop}
    (h : m.InRam cells) (hbus : Reaches W m.bus m'.bus) : m'.InRam cells :=
  ⟨h.distinct, fun a ha => (h.ram a ha).reaches hbus⟩

theorem InRam.reverse {m : Machine M S} {cells : List Addr} (h : m.InRam cells) :
    m.InRam cells.reverse :=
  ⟨List.nodup_reverse.mpr h.distinct, fun a ha => h.ram a (List.mem_reverse.mp ha)⟩

theorem InRam.tail {m : Machine M S} {a : Addr} {cells : List Addr} (h : m.InRam (a :: cells)) :
    m.InRam cells :=
  ⟨(List.nodup_cons.mp h.distinct).2, fun a' ha => h.ram a' (List.mem_cons_of_mem _ ha)⟩

theorem Rotates.reaches_pause {o : Operation} {a : Addr} {m m' : Machine M S}
    (h : m.Rotates o a) (pause : Pause m.step.2 m') : Reaches (· = a) m.bus m'.bus :=
  h.reaches.trans (pause.bus.mono fun _ h => h.elim)

namespace Sweep

variable {js : List (Operation × Addr)} {m e : Machine M S}

theorem ne_nil (h : Sweep js m e) : js ≠ [] := by
  cases h with
  | last h => exact List.cons_ne_nil _ _
  | next h pause rest => exact List.cons_ne_nil _ _

/-- A sweep writes to its cells alone. -/
theorem reaches (h : Sweep js m e) : Reaches (· ∈ js.map Prod.snd) m.bus e.bus := by
  induction h with
  | last h =>
    refine h.reaches.mono ?_
    rintro a rfl
    exact List.mem_cons_self
  | @next o a js m m' e h pause rest ih =>
    have hfirst : Reaches (· ∈ ((o, a) :: js).map Prod.snd) m.bus m'.bus := by
      refine (h.reaches_pause pause).mono ?_
      rintro a rfl
      exact List.mem_cons_self
    exact hfirst.trans (ih.mono fun _ h => List.mem_cons_of_mem _ h)

/-- A sweep does to bytes and carry what its operations do, one after the other.
    The induction is on the sweep: the cells are apart, so each still holds its
    byte when its turn comes and keeps the new one to the end. -/
theorem result (h : Sweep js m e) (hcells : m.InRam (js.map Prod.snd)) :
    rotateAll (js.map fun j => (j.1, peek m.bus j.2)) m.regs.p.c =
      (e.bytesIn (js.map Prod.snd), e.regs.p.c) := by
  induction h with
  | @last o a m h =>
    obtain ⟨-, hbyte, hflags⟩ := h.result (hcells.ram a List.mem_cons_self)
    show _ = ([peek m.step.2.bus a], m.step.2.regs.p.c)
    rw [hbyte, hflags]
    rfl
  | @next o a js m m' e h pause rest ih =>
    have hother : a ∉ js.map Prod.snd := (List.nodup_cons.mp hcells.distinct).1
    have hram : Stores m.bus a := hcells.ram a List.mem_cons_self
    have hreach := h.reaches_pause pause
    obtain ⟨-, hbyte, hflags⟩ := h.result hram
    refine rotateAll_cons_eq.mpr ⟨e.bytesIn (js.map Prod.snd), ?_, ?_⟩
    · -- the rest of the sweep leaves the first cell alone
      have hfirst : peek e.bus a = (o.rotated (peek m.bus a) m.regs.p.c).1 := by
        rw [← hbyte, ← (hram.reaches h.reaches).toCell.peek_of_reaches pause.bus id]
        exact (hram.reaches hreach).toCell.peek_of_reaches rest.reaches hother
      exact congrArg (· :: _) hfirst
    · -- and the first instruction leaves the others alone
      have hkept : (js.map fun j => (j.1, peek m'.bus j.2)) =
          js.map fun j => (j.1, peek m.bus j.2) := by
        refine List.map_congr_left fun j hj => ?_
        have hmem : j.2 ∈ js.map Prod.snd := List.mem_map_of_mem hj
        have hne : ¬ j.2 = a := fun heq => hother (heq ▸ hmem)
        rw [(hcells.tail.ram _ hmem).toCell.peek_of_reaches hreach hne]
      have hcarry : m'.regs.p.c = (o.rotated (peek m.bus a) m.regs.p.c).2 := by
        rw [pause.carry, hflags]
        rfl
      rw [← hkept, ← hcarry]
      exact ih (hcells.tail.reaches hreach)

/-- Z and N describe the byte that came last. -/
theorem describes (h : Sweep js m e) (hcells : m.InRam (js.map Prod.snd)) {a : Addr}
    (ha : (js.map Prod.snd).getLast? = some a) : e.regs.p.Describes (peek e.bus a) := by
  induction h with
  | @last o a' m h =>
    obtain rfl : a' = a := Option.some.inj ha
    obtain ⟨-, hbyte, hflags⟩ := h.result (hcells.ram a' List.mem_cons_self)
    rw [hbyte, hflags]
    exact ⟨rfl, rfl⟩
  | @next o a' js m m' e h pause rest ih =>
    refine ih (hcells.tail.reaches (h.reaches_pause pause)) ?_
    obtain ⟨j, js, rfl⟩ := List.exists_cons_of_ne_nil rest.ne_nil
    exact ha

/-! ## Sweeps of one operation -/

variable {cells : List Addr}

theorem map_snd (o : Operation) (cells : List Addr) :
    (cells.map ((o, ·) : Addr → Operation × Addr)).map Prod.snd = cells := by
  rw [List.map_map]
  exact List.map_id cells

theorem result_of_map {o : Operation} (h : Sweep (cells.map (o, ·)) m e) (hcells : m.InRam cells) :
    rotateAll ((m.bytesIn cells).map (o, ·)) m.regs.p.c = (e.bytesIn cells, e.regs.p.c) := by
  have hresult := h.result ((map_snd o cells).symm ▸ hcells)
  rw [map_snd, List.map_map] at hresult
  rw [bytesIn, List.map_map]
  exact hresult

theorem rol_exact (h : Sweep (cells.map (.rol, ·)) m e) (hcells : m.InRam cells) :
    e.numberIn cells + e.regs.p.c.toNat * 256 ^ cells.length =
      2 * m.numberIn cells + m.regs.p.c.toNat := by
  have hnumber := rotateAll_left (h.result_of_map hcells)
  rw [length_bytesIn] at hnumber
  exact hnumber

theorem ror_exact (h : Sweep (cells.reverse.map (.ror, ·)) m e) (hcells : m.InRam cells) :
    2 * e.numberIn cells + e.regs.p.c.toNat =
      m.numberIn cells + m.regs.p.c.toNat * 256 ^ cells.length := by
  have hnumber := rotateAll_right (h.result_of_map hcells.reverse)
  have hreverse (n : Machine M S) : (n.bytesIn cells.reverse).reverse = n.bytesIn cells := by
    rw [bytesIn, List.map_reverse, List.reverse_reverse, bytesIn]
  rw [hreverse, hreverse, length_bytesIn, List.length_reverse] at hnumber
  exact hnumber

theorem cells_ne_nil {o : Operation} (h : Sweep (cells.map (o, ·)) m e) : cells ≠ [] :=
  mt List.map_eq_nil_iff.mpr h.ne_nil

end Sweep

theorem numberIn_lt (m : Machine M S) (cells : List Addr) :
    m.numberIn cells < 256 ^ cells.length := by
  have hlt := leValue_lt (m.bytesIn cells)
  rw [length_bytesIn] at hlt
  exact hlt

/-- Cells that hold the same number hold the same bytes. -/
theorem bytesIn_of_numberIn {m m' : Machine M S} {cells : List Addr}
    (h : m'.numberIn cells = m.numberIn cells) : m'.bytesIn cells = m.bytesIn cells := by
  refine eq_of_leValue_eq ?_ h
  rw [length_bytesIn, length_bytesIn]

theorem Pause.numberIn {m m' : Machine M S} {cells : List Addr} (pause : Pause m m')
    (hcells : m.InRam cells) : m'.numberIn cells = m.numberIn cells := by
  have hbytes : m'.bytesIn cells = m.bytesIn cells := List.map_congr_left fun a ha =>
    (hcells.ram a ha).toCell.peek_of_reaches pause.bus id
  rw [Machine.numberIn, hbytes, Machine.numberIn]

/-! ## The laws of sweeps -/

namespace Sweep

variable {cells : List Addr} {m m' k k' e e' : Machine M S}

/-- To the left the number is doubled, and its topmost bit goes to the carry. -/
theorem doubles (h : Sweep (cells.map (.rol, ·)) m e) (hcells : m.InRam cells) :
    e.numberIn cells = (2 * m.numberIn cells + m.regs.p.c.toNat) % 256 ^ cells.length ∧
      e.regs.p.c = (m.numberIn cells).testBit (8 * cells.length - 1) := by
  have hexact := h.rol_exact hcells
  have hlt := e.numberIn_lt cells
  have hbefore := m.numberIn_lt cells
  have hc := m.regs.p.c.toNat_le
  constructor
  · rw [← hexact, Nat.add_mul_mod_self_right, Nat.mod_eq_of_lt hlt]
  · rw [testBit_top h.cells_ne_nil hbefore]
    rw [range_eq_double h.cells_ne_nil] at hexact hlt hbefore
    generalize 2 ^ (8 * cells.length - 1) = half at *
    cases hcarry : e.regs.p.c with
    | true =>
      rw [hcarry, Bool.toNat_true] at hexact
      exact (decide_eq_true (by omega)).symm
    | false =>
      rw [hcarry, Bool.toNat_false] at hexact
      exact (decide_eq_false (by omega)).symm

/-- To the right the number is halved below the old carry, and its lowest bit
    goes to the new one. -/
theorem halves (h : Sweep (cells.reverse.map (.ror, ·)) m e) (hcells : m.InRam cells) :
    e.numberIn cells = m.numberIn cells / 2 +
        m.regs.p.c.toNat * 2 ^ (8 * cells.length - 1) ∧
      e.regs.p.c.toNat = m.numberIn cells % 2 := by
  have hexact := h.ror_exact hcells
  have hc := e.regs.p.c.toNat_le
  have hne : cells ≠ [] := mt List.reverse_eq_nil_iff.mpr h.cells_ne_nil
  rw [range_eq_double hne, Nat.mul_left_comm] at hexact
  generalize m.regs.p.c.toNat * 2 ^ (8 * cells.length - 1) = top at *
  omega

/-- A sweep to the right takes back one to the left. -/
theorem right_after_left (h : Sweep (cells.map (.rol, ·)) m k) (pause : Pause k k')
    (h' : Sweep (cells.reverse.map (.ror, ·)) k' e) (hcells : m.InRam cells) :
    e.bytesIn cells = m.bytesIn cells ∧ e.regs.p.c = m.regs.p.c := by
  have hk : k.InRam cells := hcells.reaches h.reaches
  have hleft := h.rol_exact hcells
  have hright := h'.ror_exact (hk.reaches pause.bus)
  rw [pause.numberIn hk, pause.carry, hleft] at hright
  have hc := m.regs.p.c.toNat_le
  have hc' := e.regs.p.c.toNat_le
  exact ⟨bytesIn_of_numberIn (by omega), eq_of_toNat_eq (by omega)⟩

/-- A sweep to the left takes back one to the right. -/
theorem left_after_right (h : Sweep (cells.reverse.map (.ror, ·)) m k) (pause : Pause k k')
    (h' : Sweep (cells.map (.rol, ·)) k' e) (hcells : m.InRam cells) :
    e.bytesIn cells = m.bytesIn cells ∧ e.regs.p.c = m.regs.p.c := by
  have hk : k.InRam cells := hcells.reaches h.reaches
  have hright := h.ror_exact hcells
  have hleft := h'.rol_exact (hk.reaches pause.bus)
  rw [pause.numberIn hk, pause.carry, hright] at hleft
  -- both numbers are smaller than the range by which the carries count
  have hlt := m.numberIn_lt cells
  have hlt' := e.numberIn_lt cells
  have hsame : e.numberIn cells = m.numberIn cells ∧ e.regs.p.c = m.regs.p.c := by
    generalize 256 ^ cells.length = range at *
    generalize e.regs.p.c = c' at *
    generalize m.regs.p.c = c at *
    cases c <;> cases c' <;> simp only [Bool.toNat_true, Bool.toNat_false] at hleft
    case false.false | true.true => exact ⟨by omega, rfl⟩
    case false.true | true.false => omega
  exact ⟨bytesIn_of_numberIn hsame.1, hsame.2⟩

/-- A sweep that begins with a plain shift is one that begins with the carry
    clear. -/
theorem plain_first {shift rotation : Operation} {a : Addr}
    (hfirst : ∀ b c, shift.rotated b c = rotation.rotated b false)
    (h : Sweep ((shift, a) :: cells.map (rotation, ·)) m e)
    (h' : Sweep ((a :: cells).map (rotation, ·)) m' e') (hcells : m.InRam (a :: cells))
    (hcells' : m'.InRam (a :: cells)) (hbytes : m'.bytesIn (a :: cells) = m.bytesIn (a :: cells))
    (hclear : m'.regs.p.c = false) :
    e.bytesIn (a :: cells) = e'.bytesIn (a :: cells) ∧ e.regs.p.c = e'.regs.p.c ∧
      e.regs.p.z = e'.regs.p.z ∧ e.regs.p.n = e'.regs.p.n := by
  have hsnd : ((shift, a) :: cells.map (rotation, ·)).map Prod.snd = a :: cells :=
    congrArg (a :: ·) (map_snd rotation cells)
  have hsnd' := map_snd rotation (a :: cells)
  -- both come to the same bytes and the same carry
  have hresult := h.result (hsnd.symm ▸ hcells)
  have hresult' := h'.result_of_map hcells'
  rw [hbytes, hclear] at hresult'
  have hsame : rotateAll (((shift, a) :: cells.map (rotation, ·)).map
      fun j => (j.1, peek m.bus j.2)) m.regs.p.c =
      rotateAll ((m.bytesIn (a :: cells)).map (rotation, ·)) false := by
    rw [bytesIn, List.map_cons, List.map_cons, List.map_cons, List.map_map, List.map_map, rotateAll,
      rotateAll, hfirst]
    rfl
  rw [hresult, hresult', hsnd] at hsame
  obtain ⟨hbytes', hcarry⟩ := Prod.mk.inj hsame
  -- and describe the same last byte
  obtain ⟨x, hlast, hmem⟩ : ∃ x, (a :: cells).getLast? = some x ∧ x ∈ a :: cells :=
    ⟨_, List.getLast?_eq_some_getLast (List.cons_ne_nil _ _), List.getLast_mem _⟩
  obtain ⟨hz, hn⟩ := h.describes (hsnd.symm ▸ hcells) (hsnd.symm ▸ hlast)
  obtain ⟨hz', hn'⟩ := h'.describes (hsnd'.symm ▸ hcells') (hsnd'.symm ▸ hlast)
  have hbyte : peek e.bus x = peek e'.bus x := List.map_inj_left.mp hbytes' x hmem
  rw [hz, hn, hz', hn', hbyte]
  exact ⟨hbytes', hcarry, rfl, rfl⟩

end Sweep

/-- Shifts and rotations in RAM.  One of them always succeeds, and the form for
    the accumulator does to it, to C, N and Z what the form for memory does to a
    cell.  Of a number of any length a sweep of `ROL` makes the double and one of
    `ROR` the half, with the old carry let in and the bit driven out as the new
    one; each takes the other back, and beginning with `ASL` or `LSR` is
    beginning with the carry clear.  Other cells are left alone. -/
theorem rotations_of_any_length :
    (∀ {o : Operation} {a : Addr} {m : Machine M S}, m.Rotates o a → Stores m.bus a →
      m.step.1 = none ∧
        ∀ {N T : Type} [Bus N] {n : Machine N T}, n.RotatesAccumulator o →
          n.regs.a = peek m.bus a → n.regs.p.c = m.regs.p.c →
            n.step.1 = none ∧ n.step.2.regs.a = peek m.step.2.bus a ∧
              n.step.2.regs.p.c = m.step.2.regs.p.c ∧
              n.step.2.regs.p.n = m.step.2.regs.p.n ∧
              n.step.2.regs.p.z = m.step.2.regs.p.z) ∧
    (∀ {cells : List Addr} {m e : Machine M S}, m.InRam cells →
      Sweep (cells.map (.rol, ·)) m e →
        e.numberIn cells = (2 * m.numberIn cells + m.regs.p.c.toNat) % 256 ^ cells.length ∧
          e.regs.p.c = (m.numberIn cells).testBit (8 * cells.length - 1)) ∧
    (∀ {cells : List Addr} {m e : Machine M S}, m.InRam cells →
      Sweep (cells.reverse.map (.ror, ·)) m e →
        e.numberIn cells = m.numberIn cells / 2 +
            m.regs.p.c.toNat * 2 ^ (8 * cells.length - 1) ∧
          e.regs.p.c.toNat = m.numberIn cells % 2) ∧
    (∀ {cells : List Addr} {m k k' e : Machine M S}, m.InRam cells → Pause k k' →
      Sweep (cells.map (.rol, ·)) m k ∧ Sweep (cells.reverse.map (.ror, ·)) k' e ∨
          Sweep (cells.reverse.map (.ror, ·)) m k ∧ Sweep (cells.map (.rol, ·)) k' e →
        e.bytesIn cells = m.bytesIn cells ∧ e.regs.p.c = m.regs.p.c) ∧
    (∀ {shift rotation : Operation} {a : Addr} {cells : List Addr} {m m' e e' : Machine M S},
      shift = .asl ∧ rotation = .rol ∨ shift = .lsr ∧ rotation = .ror →
        m.InRam (a :: cells) → m'.InRam (a :: cells) →
          m'.bytesIn (a :: cells) = m.bytesIn (a :: cells) → m'.regs.p.c = false →
            Sweep ((shift, a) :: cells.map (rotation, ·)) m e →
            Sweep ((a :: cells).map (rotation, ·)) m' e' →
              e.bytesIn (a :: cells) = e'.bytesIn (a :: cells) ∧
                e.regs.p.c = e'.regs.p.c ∧ e.regs.p.z = e'.regs.p.z ∧
                e.regs.p.n = e'.regs.p.n) ∧
    (∀ {js : List (Operation × Addr)} {m e : Machine M S}, Sweep js m e →
      ∀ a ∉ js.map Prod.snd, Cell m.bus a → peek e.bus a = peek m.bus a) := by
  refine ⟨?_, fun hcells h => h.doubles hcells, fun hcells h => h.halves hcells, ?_, ?_, ?_⟩
  · intro o a m h ha
    obtain ⟨hok, hbyte, hflags⟩ := h.result ha
    refine ⟨hok, ?_⟩
    intro N T _ n hn hoperand hcarry
    obtain ⟨hok', hbyte', hflags'⟩ := hn.step
    rw [hoperand, hcarry] at hbyte' hflags'
    rw [hbyte, hbyte', hflags, hflags']
    exact ⟨hok', rfl, rfl, rfl, rfl⟩
  · intro cells m k k' e hcells pause h
    rcases h with ⟨h, h'⟩ | ⟨h, h'⟩
    · exact h.right_after_left pause h' hcells
    · exact h.left_after_right pause h' hcells
  · intro shift rotation a cells m m' e e' hpair hcells hcells' hbytes hclear h h'
    have hfirst : ∀ b c, shift.rotated b c = rotation.rotated b false := by
      rcases hpair with ⟨rfl, rfl⟩ | ⟨rfl, rfl⟩ <;> exact fun _ _ => rfl
    exact h.plain_first hfirst h' hcells hcells' hbytes hclear
  · intro js m e h a ha hcell
    exact hcell.peek_of_reaches h.reaches ha

/-- The number `$8180`, behind its program in a RAM of ten bytes, is doubled with
    the carry set and halved again. -/
theorem doubled_and_halved :
    let ram : Ram := .ofBytes [0x26, 0x08, 0x26, 0x09, 0x66, 0x09, 0x66, 0x08, 0x80, 0x81]
    let cells : List Addr := [0x0008, 0x0009]
    let m : Machine (Router Peripheral) Unit :=
      (Machine.powerOn ⟨[⟨0x0000, .ram ram⟩]⟩ ()).update fun r =>
        { r with p := { r.p with c := true } }
    let k := m.step.2.step.2
    let e := k.step.2.step.2
    m.numberIn cells = 0x8180 ∧ k.numberIn cells = 0x0301 ∧ k.regs.p.c = true ∧
      e.bytesIn cells = [0x80, 0x81] ∧ e.regs.p.c = true := by
  intro ram cells m k e
  have htidy : m.bus.Tidy := List.pairwise_singleton _ _
  have hcovers : ∀ a ∈ cells, (⟨0x0000, .ram ram⟩ : Window Peripheral).covers a := by
    intro a ha
    rcases List.mem_cons.mp ha with rfl | ha
    · decide
    · obtain rfl := List.mem_singleton.mp ha
      decide
  have hcells : m.InRam cells := by
    refine ⟨by decide, fun a ha => ?_⟩
    exact htidy.stores (List.mem_singleton_self _) (hcovers a ha)
  have hpause (n : Machine (Router Peripheral) Unit) : Pause n n := ⟨rfl, .refl⟩
  have hleft : Sweep (cells.map (.rol, ·)) m k := by
    refine .next ⟨?_, rfl, ?_, ?_⟩ (hpause _) (.last ⟨?_, rfl, ?_, ?_⟩) <;> decide +kernel
  have hright : Sweep (cells.reverse.map (.ror, ·)) k e := by
    refine .next ⟨?_, rfl, ?_, ?_⟩ (hpause _) (.last ⟨?_, rfl, ?_, ?_⟩) <;> decide +kernel
  have hnumber : m.numberIn cells = 0x8180 := by decide +kernel
  obtain ⟨-, hdoubles, -, hback, -⟩ := rotations_of_any_length (M := Router Peripheral) (S := Unit)
  obtain ⟨hdouble, hcarry⟩ := hdoubles hcells hleft
  obtain ⟨hbytes, hcarry'⟩ := hback hcells (hpause k) (.inl ⟨hleft, hright⟩)
  rw [hnumber] at hdouble hcarry
  refine ⟨hnumber, hdouble.trans ?_, hcarry.trans ?_, hbytes.trans ?_, hcarry'⟩ <;> decide +kernel

end Machine

end Nmos6502
