/-
  Programs loaded on the front panel.

  A load copies a program upward from its start, as far as the address space
  goes, and then points the reset vector there.  So a reset leads back to the
  start as long as the vector stands, and of all calls on the panel only loads,
  writes to the vector itself and instructions of the program can change it.
  The range that the panel notes is computed from the length of the program
  and not from what was copied; the last section says when both are the same.
-/
import Nmos6502.Bench.Panel
import Nmos6502.Proofs.Flat
import Nmos6502.Proofs.Handler
import Nmos6502.Proofs.Tracing

namespace Nmos6502

/-! ## What is copied -/

namespace Flat

/-- How many bytes a load from `a` on copies: all of them, or as many as there are
    cells up to the top of the address space. -/
def copied (a : Addr) (bs : List Byte) : Nat := min bs.length (65536 - a.toNat)

/-- The cells that a load from `a` on copies bytes to. -/
def Loads (a : Addr) (bs : List Byte) (x : Addr) : Prop :=
  ∃ i < copied a bs, x = a + BitVec.ofNat 16 i

theorem copied_le_length (a : Addr) (bs : List Byte) : copied a bs ≤ bs.length :=
  Nat.min_le_left _ _

theorem length_take_copied (a : Addr) (bs : List Byte) :
    (bs.take (copied a bs)).length = copied a bs :=
  List.length_take_of_le (copied_le_length a bs)

/-- The cells of a load do not come round to address zero. -/
theorem toNat_add_of_lt_copied {a : Addr} {bs : List Byte} {i : Nat} (h : i < copied a bs) :
    (a + BitVec.ofNat 16 i).toNat = a.toNat + i := by
  have ha := a.isLt
  have hi : i < 65536 - a.toNat := Nat.lt_of_lt_of_le h (Nat.min_le_right _ _)
  rw [BitVec.toNat_add, BitVec.toNat_ofNat]
  omega

theorem loads_iff {a : Addr} {bs : List Byte} {x : Addr} :
    Loads a bs x ↔ a.toNat ≤ x.toNat ∧ x.toNat < a.toNat + bs.length := by
  have hx := x.isLt
  constructor
  · rintro ⟨i, hi, rfl⟩
    have hlength := copied_le_length a bs
    rw [toNat_add_of_lt_copied hi]
    omega
  · rintro ⟨hle, hlt⟩
    have hi : x.toNat - a.toNat < copied a bs := by
      rw [copied]
      omega
    refine ⟨x.toNat - a.toNat, hi, BitVec.eq_of_toNat_eq ?_⟩
    rw [toNat_add_of_lt_copied hi]
    omega

theorem get_load_of_lt_copied (m : Flat) {a : Addr} {bs : List Byte} {i : Nat}
    (h : i < copied a bs) : some ((m.load a bs).get (a + BitVec.ofNat 16 i)) = bs[i]? := by
  have hi : i < bs.length := Nat.lt_of_lt_of_le h (copied_le_length a bs)
  rw [get_load, toNat_add_of_lt_copied h, if_pos (Nat.le_add_right _ _), Nat.add_sub_cancel_left,
    List.getElem?_eq_getElem hi, Option.getD_some]

theorem get_load_of_not_loads (m : Flat) {a : Addr} {bs : List Byte} {x : Addr}
    (h : ¬ Loads a bs x) : (m.load a bs).get x = m.get x := by
  rw [loads_iff] at h
  rw [get_load]
  split
  · next hle =>
    have hlength : bs.length ≤ x.toNat - a.toNat := by omega
    rw [List.getElem?_eq_none hlength, Option.getD_none]
  · rfl

/-- A load writes one byte after the other, and exactly as many as it copies. -/
theorem load_eq_writeBytes (m : Flat) (a : Addr) (bs : List Byte) :
    m.load a bs = Bus.writeBytes m a (bs.take (copied a bs)) := by
  induction bs generalizing m a with
  | nil => rfl
  | cons b bs ih =>
    have ha := a.isLt
    rw [load]
    by_cases htop : a = 0xFFFF
    -- the topmost cell takes one byte, and the others are left out
    · have hone : copied a (b :: bs) = 1 := by
        rw [copied, List.length_cons, htop]
        change min (bs.length + 1) 1 = 1
        omega
      rw [if_pos htop, hone]
      rfl
    · have hsucc : copied a (b :: bs) = copied (a + 1) bs + 1 := by
        rw [copied, copied, List.length_cons, toNat_next htop]
        have hne : a.toNat ≠ 0xFFFF := fun e => htop (BitVec.eq_of_toNat_eq e)
        omega
      rw [if_neg htop, hsucc, List.take_succ_cons, ih]
      rfl

end Flat

namespace FrontPanel

open Bench (PanelCommand)

variable {f : FrontPanel}

/-! ## The reset vector -/

theorem bus_load (f : FrontPanel) (program : List Byte) (start : Addr) :
    (f.load program start).machine.bus =
      ((f.machine.bus.load start program).set resetVector (lowByte start)).set (resetVector + 1)
        (highByte start) := rfl

theorem get_load_of_ne (f : FrontPanel) (program : List Byte) (start : Addr) {x : Addr}
    (hlow : x ≠ resetVector) (hhigh : x ≠ resetVector + 1) :
    (f.load program start).machine.bus.get x = (f.machine.bus.load start program).get x := by
  rw [bus_load, Flat.get_set_of_ne _ _ hhigh.symm, Flat.get_set_of_ne _ _ hlow.symm]

/-- Where a reset leads. -/
def vector (f : FrontPanel) : Addr :=
  word (f.machine.bus.get resetVector) (f.machine.bus.get (resetVector + 1))

/-- The vector is written behind the program, which may have covered it. -/
theorem get_resetVector_load (f : FrontPanel) (program : List Byte) (start : Addr) :
    (f.load program start).machine.bus.get resetVector = lowByte start ∧
      (f.load program start).machine.bus.get (resetVector + 1) = highByte start := by
  have hne : resetVector + 1 ≠ resetVector := by decide
  rw [bus_load, Flat.get_set_self, Flat.get_set_of_ne _ _ hne, Flat.get_set_self]
  exact ⟨rfl, rfl⟩

theorem vector_load (f : FrontPanel) (program : List Byte) (start : Addr) :
    (f.load program start).vector = start := by
  obtain ⟨hlow, hhigh⟩ := f.get_resetVector_load program start
  rw [vector, hlow, hhigh, word_lowByte_highByte]

/-- A reset goes to the address, and changes neither another register nor memory. -/
structure ResetsTo (f : FrontPanel) (start : Addr) : Prop where
  regs : f.reset.machine.regs = { f.machine.regs with pc := start }
  bus : f.reset.machine.bus = f.machine.bus

theorem resetsTo_vector (f : FrontPanel) : f.ResetsTo f.vector := ⟨rfl, rfl⟩

/-! ## Calls behind a load -/

/-- The panel after some calls. -/
def performed (f : FrontPanel) (calls : List PanelCommand) : FrontPanel :=
  calls.foldl (fun f c => (c.perform f).2) f

/-- None of the calls changes the reset vector. -/
def VectorStands (f : FrontPanel) : List PanelCommand → Prop
  | [] => True
  | c :: calls => (c.perform f).2.vector = f.vector ∧ (c.perform f).2.VectorStands calls

/-- The call neither loads nor executes a program, and writes no byte of the vector. -/
def SparesVector : PanelCommand → Prop
  | .load .. | .step | .run _ => False
  | .write a _ => a ≠ resetVector ∧ a ≠ resetVector + 1
  | _ => True

theorem VectorStands.vector_performed {calls : List PanelCommand} (h : f.VectorStands calls) :
    (f.performed calls).vector = f.vector := by
  induction calls generalizing f with
  | nil => rfl
  | cons c calls ih =>
    obtain ⟨hcall, hcalls⟩ := h
    exact (ih hcalls).trans hcall

/-- Interrupts write in page one. -/
theorem vector_interrupt (f : FrontPanel) (v : Addr) :
    (f.onMachine (·.onCore (·.interrupt v))).vector = f.vector := by
  have hlow := f.machine.regs.not_mem_frame (a := resetVector) (by decide)
  have hhigh := f.machine.regs.not_mem_frame (a := resetVector + 1) (by decide)
  have hbus : (f.onMachine (·.onCore (·.interrupt v))).machine.bus =
      f.machine.bus.framed f.machine.regs := f.machine.core.bus_interrupt_flat v
  rw [vector, hbus, Flat.get_framed_of_not_mem _ _ hlow, Flat.get_framed_of_not_mem _ _ hhigh]
  rfl

/-- Interrupts write on the stack, and the other calls of this kind write elsewhere or
    not at all. -/
theorem vector_perform_of_spares {c : PanelCommand} (h : SparesVector c) (f : FrontPanel) :
    (c.perform f).2.vector = f.vector := by
  cases c with
  | load | step | run => exact h.elim
  | irq =>
    by_cases hmasked : f.machine.regs.p.i
    · have hirq : (PanelCommand.irq.perform f).2 = f := by
        show { f with machine := f.machine.irq.2 } = f
        rw [Machine.irq, if_pos hmasked]
      rw [hirq]
    · have hirq : (PanelCommand.irq.perform f).2.machine.bus =
          (f.onMachine (·.onCore (·.interrupt irqVector))).machine.bus := by
        show f.machine.irq.2.bus = _
        rw [Machine.irq, if_neg hmasked]
        rfl
      rw [← f.vector_interrupt irqVector, vector, hirq]
      rfl
  | nmi => exact f.vector_interrupt nmiVector
  | write a b =>
    obtain ⟨hlow, hhigh⟩ := h
    show word ((f.machine.bus.set a b).get _) ((f.machine.bus.set a b).get _) = _
    rw [Flat.get_set_of_ne _ _ hlow, Flat.get_set_of_ne _ _ hhigh]
    rfl
  | traceLine =>
    have hline : f.traceLine.2.machine = f.machine := by
      show f.machine.nextInstruction.2 = f.machine
      rw [Machine.nextInstruction_eq Flat.quiet trivial]
    show f.traceLine.2.vector = f.vector
    rw [vector, hline]
    rfl
  | reset | goto | read | page | flags | program => rfl

theorem vectorStands_of_spares {calls : List PanelCommand} (h : ∀ c ∈ calls, SparesVector c)
    (f : FrontPanel) : f.VectorStands calls := by
  induction calls generalizing f with
  | nil => trivial
  | cons c calls ih =>
    rw [List.forall_mem_cons] at h
    exact ⟨vector_perform_of_spares h.1 f, ih h.2 _⟩

/-- After a load the first bytes of the program stand from the start on, as far as
    the address space goes; the reset vector holds the start, even where the
    program reached it; and every other cell is as it was, in particular those
    below the start.  Program counter and noted base are the start, and no other
    register has changed.  Whatever calls follow, if none of them changes the
    vector, then a reset goes back to the start and changes no other register and no
    byte of memory; and that is so on every panel, however it was used since, that
    has the vector of the load. -/
theorem reset_returns_to_program (f : FrontPanel) (program : List Byte) (start : Addr) :
    let g := f.load program start
    (∀ i < Flat.copied start program,
      let x := start + BitVec.ofNat 16 i
      x ≠ resetVector → x ≠ resetVector + 1 → some (g.machine.bus.get x) = program[i]?) ∧
    (g.machine.bus.get resetVector = lowByte start ∧
      g.machine.bus.get (resetVector + 1) = highByte start) ∧
    (∀ x, x ≠ resetVector → x ≠ resetVector + 1 → ¬ Flat.Loads start program x →
      g.machine.bus.get x = f.machine.bus.get x) ∧
    (∀ x < start, ¬ Flat.Loads start program x) ∧
    g.machine.regs = { f.machine.regs with pc := start } ∧ g.programBase = start ∧
    (∀ calls, g.VectorStands calls → (g.performed calls).ResetsTo start) ∧
    (∀ h : FrontPanel, h.vector = g.vector → h.ResetsTo start) := by
  intro g
  have hvector : g.vector = start := f.vector_load program start
  refine ⟨?_, f.get_resetVector_load program start, ?_, ?_, rfl, rfl, ?_, ?_⟩
  · intro i hi x hlow hhigh
    rw [f.get_load_of_ne program start hlow hhigh]
    exact f.machine.bus.get_load_of_lt_copied hi
  · intro x hlow hhigh hx
    rw [f.get_load_of_ne program start hlow hhigh]
    exact f.machine.bus.get_load_of_not_loads hx
  · intro x hlt hx
    have hle := (Flat.loads_iff.mp hx).1
    have hlt : x.toNat < start.toNat := hlt
    omega
  · intro calls hstands
    rw [← hvector, ← hstands.vector_performed]
    exact resetsTo_vector _
  · intro h hsame
    rw [← hvector, ← hsame]
    exact h.resetsTo_vector

/-- Eight bytes loaded six cells under the top, over the reset vector: two are
    left out, and none of them comes to address zero.  After a write, a look at the
    next instruction and two interrupts a reset goes back to them. -/
theorem reset_after_load_over_vector :
    let program : List Byte := [0xE8, 0xEA, 0x11, 0x22, 0x33, 0x44, 0x55, 0x66]
    let g := powerOn.load program 0xFFFA
    let calls : List PanelCommand := [.write 0x1234 0x77, .traceLine, .irq, .nmi]
    let h := g.performed calls
    g.machine.bus.get resetVector = 0xFA ∧ g.machine.bus.get 0xFFFE = 0x33 ∧
      g.machine.bus.get 0x0000 = 0x00 ∧ g.VectorStands calls ∧ h.ResetsTo 0xFFFA := by
  intro program g calls h
  have hwrite : SparesVector (.write 0x1234 0x77) := ⟨by decide, by decide⟩
  have hspared : ∀ c ∈ calls, SparesVector c :=
    List.forall_mem_cons.mpr ⟨hwrite, by simp [SparesVector]⟩
  have hstands : g.VectorStands calls := vectorStands_of_spares hspared g
  obtain ⟨hcells, ⟨hlow, -⟩, hothers, hbelow, -, -, hback, -⟩ :=
    reset_returns_to_program powerOn program 0xFFFA
  have hlast : (0xFFFA : Addr) + BitVec.ofNat 16 4 = 0xFFFE := by decide
  have hcell := hcells 4 (by decide) (by decide) (by decide)
  have hzero := hothers 0x0000 (by decide) (by decide) (hbelow 0x0000 (by decide))
  rw [hlast] at hcell
  exact ⟨hlow.trans (by decide), Option.some.inj hcell, hzero.trans (Flat.get_zero _), hstands,
    hback calls hstands⟩

/-! ## The noted range -/

/-- Whether an address is in the noted range, which goes on at address zero where
    its limit lies below its base. -/
def InRange (f : FrontPanel) (x : Addr) : Prop :=
  x - f.programBase < f.programLimit - f.programBase

theorem extent_load (f : FrontPanel) (program : List Byte) (start : Addr) :
    (f.load program start).programLimit - (f.load program start).programBase =
      BitVec.ofNat 16 program.length := by
  show start + BitVec.ofNat 16 program.length - start = _
  rw [BitVec.add_comm, BitVec.add_sub_cancel]

theorem inRange_load_iff (f : FrontPanel) (program : List Byte) (start x : Addr) :
    (f.load program start).InRange x ↔ (x - start).toNat < program.length % 65536 := by
  rw [InRange, extent_load]
  exact Iff.rfl

/-- A program that ends at the top or below it is noted as it was copied, unless it
    fills the whole address space. -/
theorem inRange_iff_loads (f : FrontPanel) {program : List Byte} {start : Addr}
    (hfits : start.toNat + program.length ≤ 65536) (hshort : program.length < 65536) (x : Addr) :
    (f.load program start).InRange x ↔ Flat.Loads start program x := by
  have hstart := start.isLt
  have hx := x.isLt
  rw [inRange_load_iff, Flat.loads_iff, BitVec.toNat_sub]
  omega

/-- Where the program was cut, the first cell that may be noted in vain is that at
    address zero. -/
theorem inRange_zero_iff (f : FrontPanel) {program : List Byte} {start : Addr}
    (hcut : 65536 < start.toNat + program.length) :
    ((f.load program start).InRange 0 ∧ ¬ Flat.Loads start program 0) ↔
      65536 - start.toNat < program.length % 65536 := by
  have hstart := start.isLt
  have hzero : (0 : Addr).toNat = 0 := rfl
  rw [inRange_load_iff, Flat.loads_iff, BitVec.toNat_sub, hzero]
  omega

theorem loads_of_inRange (f : FrontPanel) {program : List Byte} {start : Addr}
    (h : program.length % 65536 ≤ 65536 - start.toNat) {x : Addr}
    (hx : (f.load program start).InRange x) : Flat.Loads start program x := by
  have hstart := start.isLt
  have hbound := x.isLt
  rw [inRange_load_iff, BitVec.toNat_sub] at hx
  rw [Flat.loads_iff]
  omega

/-- A load copies the first bytes of the program, all of them or as many as there
    are cells up to the top, but the noted range has the length of the program modulo
    65536.  The two agree if the program is not cut, and otherwise only if its length
    differs from the number of those cells by whole address spaces.  The range keeps
    to what was copied if the program is not cut or its length modulo 65536 does not
    exceed that number; and it is exactly that for a program that is not cut and does
    not fill the whole address space. -/
theorem noted_range_agrees_iff (f : FrontPanel) (program : List Byte) (start : Addr) :
    let g := f.load program start
    let n := Flat.copied start program
    let extent := (g.programLimit - g.programBase).toNat
    (f.machine.bus.load start program = Bus.writeBytes f.machine.bus start (program.take n) ∧
      (program.take n).length = n) ∧
    extent = program.length % 65536 ∧
    (n % 65536 = extent ↔ start.toNat + program.length ≤ 65536 ∨
      program.length % 65536 = (65536 - start.toNat) % 65536) ∧
    ((∀ x, g.InRange x → Flat.Loads start program x) ↔ start.toNat + program.length ≤ 65536 ∨
      program.length % 65536 ≤ 65536 - start.toNat) ∧
    (start.toNat + program.length ≤ 65536 → program.length < 65536 →
      ∀ x, g.InRange x ↔ Flat.Loads start program x) := by
  intro g n extent
  have hstart := start.isLt
  have hextent : extent = program.length % 65536 := by
    show (g.programLimit - g.programBase).toNat = _
    rw [f.extent_load program start, BitVec.toNat_ofNat]
  have hn : n = min program.length (65536 - start.toNat) := rfl
  refine ⟨⟨Flat.load_eq_writeBytes _ _ _, Flat.length_take_copied _ _⟩, hextent, ?_, ?_,
    f.inRange_iff_loads⟩
  · rw [hextent, hn]
    omega
  · constructor
    · intro hkeeps
      refine Decidable.or_iff_not_imp_left.mpr fun hcut => ?_
      -- address zero shows whether more is noted than was copied
      refine Nat.le_of_not_lt fun hlt => ?_
      obtain ⟨hnoted, hcopied⟩ := (f.inRange_zero_iff (Nat.lt_of_not_le hcut)).mpr hlt
      exact hcopied (hkeeps 0 hnoted)
    · rintro (hfits | hle) x hx
      · refine f.loads_of_inRange ?_ hx
        omega
      · exact f.loads_of_inRange hle hx

/-- Four bytes at the very top: the limit comes round to address zero, and the range
    is that of the four cells. -/
theorem noted_range_up_to_top :
    let program : List Byte := [0xEA, 0xE8, 0xC8, 0xA9]
    let g := powerOn.load program 0xFFFC
    g.programLimit = 0x0000 ∧ Flat.copied 0xFFFC program = 4 ∧
      ∀ x, g.InRange x ↔ Flat.Loads 0xFFFC program x := by
  intro program g
  obtain ⟨-, -, -, -, hexact⟩ := noted_range_agrees_iff powerOn program 0xFFFC
  exact ⟨by decide, by decide, hexact (by decide) (by decide)⟩

/-- The same bytes two cells under the top: two of them are copied, the range is noted
    as four cells long, and address zero is noted though nothing was copied there. -/
theorem noted_range_beyond_top :
    let program : List Byte := [0xEA, 0xE8, 0xC8, 0xA9]
    let g := powerOn.load program 0xFFFE
    Flat.copied 0xFFFE program = 2 ∧ g.programLimit - g.programBase = 4 ∧ g.InRange 0x0000 ∧
      ¬ Flat.Loads 0xFFFE program 0x0000 := by
  intro program g
  have hcut : 65536 < (0xFFFE : Addr).toNat + program.length := by decide
  obtain ⟨hnoted, hcopied⟩ := (powerOn.inRange_zero_iff hcut).mpr (by decide)
  exact ⟨by decide, by decide, hnoted, hcopied⟩

end FrontPanel

end Nmos6502
