/-
  Buses that reading does not change.

  On such a bus it does not matter who looks at memory and how often: decoding
  an instruction, which reads its bytes and perhaps a pointer, leaves everything
  as it was.  Flat memory and split memory are quiet, and so is a router with
  nothing but storage in its windows.
-/
import Nmos6502.Bus.Flat
import Nmos6502.Bus.Split
import Nmos6502.Instruction
import Nmos6502.Proofs.Routing
import Nmos6502.Proofs.Simulation

namespace Nmos6502

variable {M : Type} [Bus M] {I : M → Prop}

/-- Reading a bus that satisfies `I` does not change it, and writing keeps `I`. -/
structure Bus.Quiet (I : M → Prop) : Prop where
  read : ∀ {bus : M}, I bus → ∀ a, (Bus.read bus a).2 = bus
  write : ∀ {bus : M}, I bus → ∀ a b, I (Bus.write bus a b)

namespace Bus.Quiet

/-! ## Reading more than a byte -/

theorem wordAt (hquiet : Quiet I) {bus : M} (h : I bus) (a : Addr) :
    (Bus.wordAt bus a).2 = bus := by
  show (Bus.read (Bus.read bus a).2 (a + 1)).2 = bus
  rw [hquiet.read h, hquiet.read h]

theorem jumpTargetAt (hquiet : Quiet I) {bus : M} (h : I bus) (ptr : Addr) :
    (Bus.jumpTargetAt bus ptr).2 = bus := by
  show (Bus.read (Bus.read bus ptr).2 (pointerHigh ptr)).2 = bus
  rw [hquiet.read h, hquiet.read h]

theorem bytesAt (hquiet : Quiet I) {bus : M} (h : I bus) (a : Addr) (n : Nat) :
    (Bus.bytesAt bus a n).2 = bus := by
  induction n generalizing a with
  | zero => rfl
  | succ n ih =>
    show (Bus.bytesAt (Bus.read bus a).2 (a + 1) n).2 = bus
    rw [hquiet.read h, ih]

/-- Decoding leaves no trace on the bus, even if it follows a pointer. -/
theorem fetch (hquiet : Quiet I) {bus : M} (h : I bus) (a : Addr) :
    (Instruction.fetch bus a).2 = bus := by
  unfold Instruction.fetch
  dsimp only
  rw [hquiet.read h]
  -- only a jump through a pointer reads more than the bytes of the instruction
  split
  · rw [hquiet.bytesAt h]
    exact hquiet.jumpTargetAt h _
  · exact hquiet.bytesAt h _ _

/-! ## What a processor does to the bus -/

/-- Whatever a processor does, `I` stays: a quiet bus simulates itself. -/
theorem simulation (hquiet : Quiet I) : Bus.Simulation fun (m n : M) => I m ∧ m = n where
  read := by
    rintro m n ⟨h, rfl⟩ a
    refine ⟨rfl, ?_, rfl⟩
    rw [hquiet.read h]
    exact h
  write := by
    rintro m n ⟨h, rfl⟩ a b
    exact ⟨hquiet.write h a b, rfl⟩

theorem step (hquiet : Quiet I) {p : Processor M} (h : I p.bus) : I p.step.2.bus :=
  (Processor.Alike.step hquiet.simulation ⟨rfl, h, rfl⟩).2.bus.1

theorem interrupt (hquiet : Quiet I) {p : Processor M} (h : I p.bus) (v : Addr) :
    I (p.interrupt v).bus :=
  (Processor.Alike.interrupt hquiet.simulation ⟨rfl, h, rfl⟩ v).bus.1

end Bus.Quiet

/-! ## Quiet buses -/

theorem Flat.quiet : Bus.Quiet fun _ : Flat => True where
  read _ _ := rfl
  write _ _ _ := trivial

namespace Split

/-- The byte at an address. -/
def get (m : Split) (a : Addr) : Byte :=
  if a < romBase then m.low.get a.toNat else m.high.get (a - romBase).toNat

theorem read_eq (m : Split) (a : Addr) : Bus.read m a = (m.get a, m) := by
  by_cases h : a < romBase
  · rw [get, if_pos h]
    exact if_pos h
  · rw [get, if_neg h]
    exact if_neg h

theorem quiet : Bus.Quiet fun _ : Split => True where
  read _ a := by rw [read_eq]
  write _ _ _ := trivial

/-- Only the lower half takes writes. -/
theorem write_eq (m : Split) (a : Addr) (b : Byte) :
    Bus.write m a b = if a < romBase then { m with low := m.low.set a.toNat b } else m := rfl

theorem size_low_write (m : Split) (a : Addr) (b : Byte) :
    (Bus.write m a b).low.data.size = m.low.data.size := by
  rw [write_eq]
  split
  · exact Ram.size_set _ _ _
  · rfl

/-- The byte written is found where the lower half has taken it. -/
theorem get_write {m : Split} (hsize : m.low.data.size = 32768) (a : Addr) (b : Byte) (x : Addr) :
    (Bus.write m a b).get x = if a < romBase ∧ a = x then b else m.get x := by
  rw [write_eq]
  by_cases ha : a < romBase
  · rw [if_pos ha, get, get]
    by_cases hx : a = x
    · subst hx
      have hlt : a.toNat < 32768 := ha
      rw [if_pos ha, if_pos ⟨ha, rfl⟩, Ram.get_set_self _ _ (by omega)]
    · have hne : a.toNat ≠ x.toNat := fun h => hx (BitVec.eq_of_toNat_eq h)
      have hcell : (m.low.set a.toNat b).get x.toNat = m.low.get x.toNat :=
        Ram.get_set_of_ne _ _ hne
      rw [hcell, if_neg (show ¬ (a < romBase ∧ a = x) from fun h => hx h.2)]
  · rw [if_neg ha, if_neg (show ¬ (a < romBase ∧ a = x) from fun h => ha h.1)]

end Split

/-- Whether a device only stores bytes. -/
def Peripheral.isStorage : Peripheral → Bool
  | .ram _ | .rom _ => true
  | _ => false

/-- Every device of the router is a RAM or a ROM. -/
def Router.OnlyStorage (r : Router Peripheral) : Prop := ∀ w ∈ r.windows, w.device.isStorage

theorem Window.read_of_isStorage {w : Window Peripheral} (h : w.device.isStorage) (a : Addr) :
    (w.read a).2 = w := by
  obtain ⟨base, device⟩ := w
  cases device with
  | ram | rom => rfl
  | port | counter | requester => cases h

theorem Window.isStorage_write {w : Window Peripheral} (h : w.device.isStorage) (a : Addr)
    (b : Byte) : (w.write a b).device.isStorage := by
  obtain ⟨base, device⟩ := w
  cases device with
  | ram | rom => rfl
  | port | counter | requester => cases h

theorem Router.quiet : Bus.Quiet Router.OnlyStorage where
  read := by
    rintro ⟨ws⟩ h a
    have hws : (readWindows a ws).2 = ws := by
      change ∀ w ∈ ws, w.device.isStorage at h
      induction ws with
      | nil => rfl
      | cons w ws ih =>
        rw [List.forall_mem_cons] at h
        rw [readWindows]
        by_cases hc : w.covers a
        · rw [if_pos hc]
          exact congrArg (· :: ws) (Window.read_of_isStorage h.1 a)
        · rw [if_neg hc]
          exact congrArg (w :: ·) (ih h.2)
    exact congrArg Router.mk hws
  write := by
    rintro ⟨ws⟩ h a b
    change ∀ w ∈ writeWindows a b ws, w.device.isStorage
    change ∀ w ∈ ws, w.device.isStorage at h
    induction ws with
    | nil => exact h
    | cons w ws ih =>
      rw [List.forall_mem_cons] at h
      rw [writeWindows]
      split
      · exact List.forall_mem_cons.mpr ⟨Window.isStorage_write h.1 a b, h.2⟩
      · exact List.forall_mem_cons.mpr ⟨h.1, ih h.2⟩

end Nmos6502
