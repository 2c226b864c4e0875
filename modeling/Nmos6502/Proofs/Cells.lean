/-
  Addresses behind which there is memory.

  A bus may hold anything, and a device may change when another one is written
  or when it is read itself.  `Bus.Cell` says of an address that nothing is so
  there: what it reads as is changed by no access but a write to it.  If such a
  write is read back as well the address is RAM, `Bus.Stores`.  Both speak about
  all that can ever become of the bus, so they stay true whatever a program
  does, and a statement about the memory of a program can be made for every bus
  on which it has some.
-/
import Nmos6502.Bus.Flat
import Nmos6502.Proofs.ByteMap
import Nmos6502.Proofs.Quiet

namespace Nmos6502

namespace Bus

variable {M : Type} [Bus M]

/-! ## What can become of a bus -/

/-- The byte that a read of an address would give. -/
def peek (bus : M) (a : Addr) : Byte := (Bus.read bus a).1

/-- What a bus can become by any reads, and by writes to the addresses in `W`. -/
inductive Reaches (W : Addr → Prop) (bus : M) : M → Prop
  | refl : Reaches W bus bus
  | read {bus' : M} (h : Reaches W bus bus') (a : Addr) : Reaches W bus (Bus.read bus' a).2
  | write {bus' : M} (h : Reaches W bus bus') {a : Addr} (ha : W a) (b : Byte) :
      Reaches W bus (Bus.write bus' a b)

variable {W W' : Addr → Prop} {bus bus' bus'' : M} {a : Addr}

theorem Reaches.mono (h : Reaches W bus bus') (hW : ∀ a, W a → W' a) : Reaches W' bus bus' := by
  induction h with
  | refl => exact .refl
  | read h a ih => exact ih.read a
  | write h ha b ih => exact ih.write (hW _ ha) b

theorem Reaches.trans (h : Reaches W bus bus') (h' : Reaches W bus' bus'') :
    Reaches W bus bus'' := by
  induction h' with
  | refl => exact h
  | read h' a ih => exact ih.read a
  | write h' ha b ih => exact ih.write ha b

/-! ## Cells -/

/-- What the address reads as is changed by no access but a write to it. -/
structure Cell (bus : M) (a : Addr) : Prop where
  read : ∀ {bus' : M}, Reaches (fun _ => True) bus bus' → ∀ a',
    peek (Bus.read bus' a').2 a = peek bus' a
  write : ∀ {bus' : M}, Reaches (fun _ => True) bus bus' → ∀ a', a' ≠ a → ∀ b,
    peek (Bus.write bus' a' b) a = peek bus' a

/-- The address is RAM: it reads as the byte last written to it. -/
structure Stores (bus : M) (a : Addr) : Prop extends Cell bus a where
  takes : ∀ {bus' : M}, Reaches (fun _ => True) bus bus' → ∀ b,
    peek (Bus.write bus' a b) a = b

theorem Cell.reaches (h : Cell bus a) (hbus : Reaches W bus bus') : Cell bus' a := by
  have hany : Reaches (fun _ => True) bus bus' := hbus.mono fun _ _ => trivial
  exact ⟨fun h' => h.read (hany.trans h'), fun h' => h.write (hany.trans h')⟩

theorem Stores.reaches (h : Stores bus a) (hbus : Reaches W bus bus') : Stores bus' a := by
  have hany : Reaches (fun _ => True) bus bus' := hbus.mono fun _ _ => trivial
  exact ⟨h.toCell.reaches hbus, fun h' => h.takes (hany.trans h')⟩

/-- Without a write to it a cell keeps its byte. -/
theorem Cell.peek_of_reaches (h : Cell bus a) (hbus : Reaches W bus bus') (ha : ¬ W a) :
    peek bus' a = peek bus a := by
  induction hbus with
  | refl => rfl
  | read hbus a' ih => exact (h.read (hbus.mono fun _ _ => trivial) a').trans ih
  | write hbus ha' b ih =>
    refine (h.write (hbus.mono fun _ _ => trivial) _ ?_ b).trans ih
    rintro rfl
    exact ha ha'

/-- To be RAM is a matter of single accesses: it suffices that these keep some
    invariant of the bus. -/
theorem stores_of_invariant {I : M → Prop}
    (hread : ∀ {bus : M}, I bus → ∀ a', I (Bus.read bus a').2 ∧
      peek (Bus.read bus a').2 a = peek bus a)
    (hwrite : ∀ {bus : M}, I bus → ∀ a' b, I (Bus.write bus a' b) ∧
      peek (Bus.write bus a' b) a = if a' = a then b else peek bus a)
    (h : I bus) : Stores bus a := by
  -- the invariant holds of all that the bus can become, so the laws need no history
  have hI : ∀ {bus' : M}, Reaches (fun _ => True) bus bus' → I bus' := by
    intro bus' hbus
    induction hbus with
    | refl => exact h
    | read _ a' ih => exact (hread ih a').1
    | write _ _ b ih => exact (hwrite ih _ b).1
  refine ⟨⟨?_, ?_⟩, ?_⟩
  · intro bus' hbus a'
    exact (hread (hI hbus) a').2
  · intro bus' hbus a' ha b
    rw [(hwrite (hI hbus) a' b).2, if_neg ha]
  · intro bus' hbus b
    rw [(hwrite (hI hbus) a b).2, if_pos rfl]

end Bus

open Bus (Stores peek)

/-! ## Where the buses have RAM -/

/-- Flat memory is RAM all over. -/
theorem Flat.stores (m : Flat) (a : Addr) : Stores m a := by
  refine Bus.stores_of_invariant (I := fun _ => True) ?_ ?_ trivial
  · intro m _ a'
    exact ⟨trivial, rfl⟩
  · intro m _ a' b
    exact ⟨trivial, m.get_set a' a b⟩

/-- The lower half of split memory is RAM. -/
theorem Split.stores {m : Split} (hsize : m.low.data.size = 32768) {a : Addr} (ha : a < romBase) :
    Stores m a := by
  have hget (m : Split) : peek m a = m.get a := by rw [peek, read_eq]
  refine Bus.stores_of_invariant (I := fun m => m.low.data.size = 32768) ?_ ?_ hsize
  · intro m hm a'
    rw [read_eq]
    exact ⟨hm, rfl⟩
  · intro m hm a' b
    refine ⟨(size_low_write m a' b).trans hm, ?_⟩
    rw [hget, hget, get_write hm]
    by_cases heq : a' = a
    · rw [if_pos ⟨heq ▸ ha, heq⟩, if_pos heq]
    · rw [if_neg fun h => heq h.2, if_neg heq]

namespace Router

open Window

/-- What one access does to an address of a placed RAM. -/
theorem Tidy.ram_carryOut {r r' : Router Peripheral} (h : r.Tidy) {base : Addr} {m : Ram}
    (hw : ⟨base, .ram m⟩ ∈ r.windows) {a : Addr}
    (hc : (⟨base, .ram m⟩ : Window Peripheral).covers a) {call : Call Peripheral}
    (hcall : r.carryOut call = (.ok (), r')) :
    (∃ m', ⟨base, .ram m'⟩ ∈ r'.windows ∧ (⟨base, .ram m'⟩ : Window Peripheral).covers a) ∧
      peek r' a = (call.byteFor a).getD (peek r a) := by
  obtain ⟨m', hfollow, hc', hget⟩ := follow_ram hc call
  have hw' : ⟨base, .ram m'⟩ ∈ r'.windows := by
    rw [h.windows_carryOut hcall, ← hfollow]
    exact List.mem_append_left _ (List.mem_map_of_mem hw)
  refine ⟨⟨m', hw', hc'⟩, ?_⟩
  rw [peek, peek, (h.carryOut hcall).read_of_covers hw' hc', h.read_of_covers hw hc]
  exact hget

/-- The addresses of a RAM are RAM, whatever else is placed. -/
theorem Tidy.stores {r : Router Peripheral} (h : r.Tidy) {base : Addr} {m : Ram}
    (hw : ⟨base, .ram m⟩ ∈ r.windows) {a : Addr}
    (hc : (⟨base, .ram m⟩ : Window Peripheral).covers a) : Stores r a := by
  refine Bus.stores_of_invariant (I := fun r : Router Peripheral => r.Tidy ∧ ∃ m,
    ⟨base, .ram m⟩ ∈ r.windows ∧ (⟨base, .ram m⟩ : Window Peripheral).covers a) ?_ ?_
    ⟨h, m, hw, hc⟩
  · rintro r ⟨h, m, hw, hc⟩ a'
    have hcall : r.carryOut (.read a') = (.ok (), (Bus.read r a').2) := rfl
    obtain ⟨hram, hpeek⟩ := h.ram_carryOut hw hc hcall
    exact ⟨⟨h.read a', hram⟩, hpeek⟩
  · rintro r ⟨h, m, hw, hc⟩ a' b
    have hcall : r.carryOut (.write a' b) = (.ok (), Bus.write r a' b) := rfl
    obtain ⟨hram, hpeek⟩ := h.ram_carryOut hw hc hcall
    refine ⟨⟨h.write a' b, hram⟩, hpeek.trans ?_⟩
    rw [Call.byteFor]
    split <;> rfl

end Router

/-! ## What looking for an operand does -/

namespace Processor

variable {M : Type} [Bus M]

/-- An instruction only reads until it knows its operand. -/
theorem reaches_poised (p : Processor M) : Bus.Reaches (fun _ => False) p.bus p.poised.bus := by
  -- the opcode first, and then up to two bytes behind it and a pointer
  have hfetched : Bus.Reaches (fun _ => False) p.bus p.fetched.bus := .read .refl _
  have hoperand : Bus.Reaches (fun _ => False) p.fetched.bus
      (p.fetched.operandAddress p.nextEntry.mode).2.bus := by
    cases p.nextEntry.mode with
    | implied | accumulator | immediate => exact .refl
    | zeroPage | zeroPageX | zeroPageY | relative => exact .read .refl _
    | absolute | absoluteX | absoluteY => exact .read (.read .refl _) _
    | indexedIndirect | indirectIndexed => exact .read (.read (.read .refl _) _) _
    | indirect => exact .read (.read (.read (.read .refl _) _) _) _
  exact hfetched.trans hoperand

end Processor

end Nmos6502
