/-
  A listing of memory against memory.

  A listing decodes a run of bytes, a trace decodes memory itself.  If the bytes
  have been read from memory, every entry of the listing is what memory decodes
  to at the address of the entry, and this at every alignment and across the top
  of the address space.  There are two differences, and the theorem at the end
  says what they are: the bytes may end within an operand, where memory goes on,
  and only memory knows where a jump through a pointer leads.
-/
import Nmos6502.Proofs.Listing
import Nmos6502.Proofs.Lookahead
import Nmos6502.Proofs.Quiet

namespace Nmos6502

/-! ## Bytes read from memory -/

namespace Flat

variable {m : Flat} {a : Addr} {n : Nat}

theorem bytesAt_succ (m : Flat) (a : Addr) (n : Nat) :
    (Bus.bytesAt m a (n + 1)).1 = m.get a :: (Bus.bytesAt m (a + 1) n).1 := rfl

/-- The bytes behind the first `k` are those read from `k` addresses further on. -/
theorem drop_bytesAt (m : Flat) (a : Addr) (n k : Nat) :
    (Bus.bytesAt m a n).1.drop k = (Bus.bytesAt m (a + BitVec.ofNat 16 k) (n - k)).1 := by
  induction k generalizing a n with
  | zero => simp
  | succ k ih =>
    cases n with
    | zero => simp [Bus.bytesAt]
    | succ n =>
      have hnext : a + BitVec.ofNat 16 (k + 1) = a + 1 + BitVec.ofNat 16 k := by
        rw [Nat.add_comm, BitVec.ofNat_add, ← BitVec.add_assoc]
        rfl
      rw [bytesAt_succ, List.drop_succ_cons, ih, hnext, Nat.succ_sub_succ]

/-- The first bytes read are those that a shorter reading gives. -/
theorem take_bytesAt (m : Flat) (a : Addr) {n k : Nat} (h : k ≤ n) :
    (Bus.bytesAt m a n).1.take k = (Bus.bytesAt m a k).1 := by
  induction k generalizing a n with
  | zero => rfl
  | succ k ih =>
    obtain ⟨n, rfl⟩ := Nat.exists_eq_add_one_of_ne_zero (Nat.ne_zero_of_lt h)
    rw [bytesAt_succ, bytesAt_succ, List.take_succ_cons, ih _ (Nat.le_of_succ_le_succ h)]

theorem eq_of_bytesAt_eq_cons {b : Byte} {rest : List Byte}
    (h : (Bus.bytesAt m a n).1 = b :: rest) :
    b = m.get a ∧ rest = (Bus.bytesAt m (a + 1) (n - 1)).1 := by
  cases n with
  | zero => cases h
  | succ n =>
    rw [bytesAt_succ] at h
    obtain ⟨rfl, rfl⟩ := List.cons.inj h
    exact ⟨rfl, rfl⟩

/-- The word that a jump through the pointer `ptr` is led to: its second byte
    comes from the same page as the first. -/
def pointedAt (m : Flat) (ptr : Addr) : Addr :=
  word (m.get ptr) (m.get (if lowByte ptr = 0xFF then word 0x00 (highByte ptr) else ptr + 1))

end Flat

namespace Instruction

/-! ## The two decoders -/

/-- Undocumented opcodes take no operand.  Checked on the 256 entries. -/
theorem mode_of_not_legal : ∀ b, ¬ (opcodeEntry b).legal → (opcodeEntry b).mode = .implied := by
  decide +kernel

/-- The instruction, with the pointer followed if it is a jump through one. -/
def resolved (m : Flat) (i : Instruction) : Instruction :=
  { i with target :=
      if i.mode = .indirect then some (m.pointedAt (firstWord i.operand)) else i.target }

/-- Memory decodes to what its bytes are listed as, with the pointer followed. -/
theorem fetch_flat (m : Flat) (a : Addr) :
    (fetch m a).1 = resolved m (ofParts a (m.get a)
      (Bus.bytesAt m (a + 1) (opcodeEntry (m.get a)).mode.operandLength).1) := by
  have hquiet : (Bus.bytesAt m (a + 1) (opcodeEntry (m.get a)).mode.operandLength).2 = m :=
    Flat.quiet.bytesAt trivial _ _
  unfold fetch resolved
  simp only [Flat.read_eq, hquiet]
  split
  · next hmode =>
    have hmode' : (ofParts a (m.get a) (Bus.bytesAt m (a + 1)
        (opcodeEntry (m.get a)).mode.operandLength).1).mode = .indirect := hmode
    rw [if_pos hmode']
    rfl
  · next hmode =>
    have hmode' : ¬ (ofParts a (m.get a) (Bus.bytesAt m (a + 1)
        (opcodeEntry (m.get a)).mode.operandLength).1).mode = .indirect := hmode
    rw [if_neg hmode']

/-- The entry is unknown although its byte begins an instruction: the bytes that
    were listed end within the operand. -/
def CutShort (i : Instruction) : Prop := i.operation = .illegal ∧ (opcodeEntry i.opcode).legal

theorem cutShort_listed_iff {address : Addr} {b : Byte} {rest : List Byte} :
    (listed address b rest).CutShort ↔ rest.length < (opcodeEntry b).mode.operandLength := by
  by_cases hlegal : (opcodeEntry b).legal
  · by_cases hlength : (opcodeEntry b).mode.operandLength ≤ rest.length
    · have hop : (opcodeEntry b).operation ≠ .illegal := (OpcodeEntry.legal_iff _).mp hlegal
      rw [listed, if_pos ⟨hlegal, hlength⟩]
      exact iff_of_false (fun h => hop h.1) (Nat.not_lt_of_le hlength)
    · rw [listed, if_neg fun h => hlength h.2]
      exact iff_of_true ⟨rfl, hlegal⟩ (Nat.lt_of_not_le hlength)
  -- an undocumented opcode stands alone, so nothing of it can be missing
  · rw [listed, if_neg fun h => hlegal h.1, mode_of_not_legal b hlegal]
    exact iff_of_false (fun h => hlegal h.2) (Nat.not_lt_zero _)

@[simp] theorem opcode_listed {address : Addr} {b : Byte} {rest : List Byte} :
    (listed address b rest).opcode = b := by
  unfold listed
  split
  · rfl
  · rfl

/-- No listing follows a pointer. -/
theorem target_listed_of_indirect {address : Addr} {b : Byte} {rest : List Byte}
    (h : (listed address b rest).mode = .indirect) : (listed address b rest).target = none := by
  unfold listed at h ⊢
  split at h
  · next hcomplete =>
    have hmode : (opcodeEntry b).mode = .indirect := h
    rw [if_pos hcomplete]
    show directTarget address (opcodeEntry b) _ = none
    rw [directTarget, hmode]
  · next hcomplete => rw [if_neg hcomplete, undocumented]

/-- What is listed from bytes of memory is what memory decodes to, unless the
    bytes end within the operand. -/
theorem fetch_eq_listed {m : Flat} {a : Addr} {n : Nat}
    (h : ¬ (listed a (m.get a) (Bus.bytesAt m (a + 1) n).1).CutShort) :
    (fetch m a).1 = resolved m (listed a (m.get a) (Bus.bytesAt m (a + 1) n).1) := by
  rw [cutShort_listed_iff, Bus.length_bytesAt, Nat.not_lt] at h
  rw [fetch_flat]
  congr 1
  by_cases hlegal : (opcodeEntry (m.get a)).legal
  · have hcomplete : Complete (m.get a) (Bus.bytesAt m (a + 1) n).1 := by
      refine ⟨hlegal, ?_⟩
      rw [Bus.length_bytesAt]
      exact h
    rw [listed, if_pos hcomplete, Flat.take_bytesAt _ _ h]
  · have hop := (OpcodeEntry.not_legal_iff _).mp hlegal
    have hmode := mode_of_not_legal _ hlegal
    -- the matrix has for such a byte what it is listed as without the matrix
    rw [listed, if_neg fun hcomplete => hlegal hcomplete.1, hmode]
    simp only [ofParts, hop, hmode, directTarget, undocumented]
    rfl

end Instruction

open Instruction

/-- Bytes that have been read from memory are listed as memory decodes them.  An
    entry is cut short exactly when the bytes end within its operand.  Every
    other entry is in all its parts what memory decodes to at its address,
    except that the listing never says where a jump through a pointer leads, and
    memory does: to the word at the pointer, whose second byte comes from the
    same page as the first. -/
theorem memory_decodes_as_listed (m : Flat) (start : Addr) (n : Nat) :
    let is := disassemble (Bus.bytesAt m start n).1 start
    ∀ k i, is[k]? = some i →
      (i.CutShort ↔ n < extent (is.take k) + (opcodeEntry i.opcode).size) ∧
      (i.mode = .indirect → i.target = none) ∧
      (¬ i.CutShort → (fetch m i.address).1 = { i with
        target :=
          if i.mode = .indirect then some (m.pointedAt (firstWord i.operand))
          else i.target }) := by
  intro is k i hi
  obtain ⟨b, rest, hdrop, heq⟩ := eq_listed_of_getElem? hi
  have haddress : i.address = start + BitVec.ofNat 16 (extent (is.take k)) := by
    rw [heq, address_listed]
  have hlength : n - extent (is.take k) = rest.length + 1 := by
    rw [← List.length_cons, ← hdrop, List.length_drop, Bus.length_bytesAt]
  rw [Flat.drop_bytesAt, ← haddress] at hdrop
  rw [← haddress] at heq
  obtain ⟨hb, hrest⟩ := Flat.eq_of_bytesAt_eq_cons hdrop
  refine ⟨?_, fun hmode => ?_, fun hwhole => ?_⟩
  · rw [heq, cutShort_listed_iff, opcode_listed, OpcodeEntry.size]
    omega
  · rw [heq] at hmode ⊢
    exact target_listed_of_indirect hmode
  · rw [hb, hrest] at heq
    have hfetch : (fetch m i.address).1 = resolved m (listed _ _ _) :=
      fetch_eq_listed (heq ▸ hwhole)
    rw [hfetch, ← heq]
    rfl

/-- A jump through a pointer at the end of a page, itself across the top of the
    address space, and another jump behind it whose last byte was not read. -/
theorem listed_across_the_top :
    let m := (((((Flat.zero.set 0xFFFE 0x6C).set 0xFFFF 0xFF).set 0x0000 0x10).set 0x0001 0x4C).set
      0x10FF 0x34).set 0x1000 0x12
    let jump := ofParts 0xFFFE 0x6C [0xFF, 0x10]
    let cut := undocumented 0x0001 0x4C
    (disassemble (Bus.bytesAt m 0xFFFE 5).1 0xFFFE).take 2 = [jump, cut] ∧ cut.CutShort ∧
      jump.target = none ∧ (fetch m 0xFFFE).1 = { jump with target := some 0x1234 } := by
  intro m jump cut
  have hbytes : (Bus.bytesAt m 0xFFFE 5).1 = [0x6C, 0xFF, 0x10, 0x4C, 0x00] := by
    simp [Bus.bytesAt, m, Flat.get_set]
  have hlisted : (disassemble (Bus.bytesAt m 0xFFFE 5).1 0xFFFE).take 2 = [jump, cut] := by
    rw [hbytes]
    decide +kernel
  have hpointed : m.pointedAt 0x10FF = 0x1234 := by
    simp only [Flat.pointedAt, m, Flat.get_set]
    decide
  have hentries := memory_decodes_as_listed m 0xFFFE 5
  generalize disassemble (Bus.bytesAt m 0xFFFE 5).1 0xFFFE = is at hlisted hentries
  have hentry (k : Nat) (hk : k < 2) : is[k]? = [jump, cut][k]? := by
    rw [← hlisted, List.getElem?_take_of_lt hk]
  have hextent : extent (is.take 1) = 3 := by
    have hfirst : (is.take 2).take 1 = is.take 1 := List.take_take
    rw [← hfirst, hlisted]
    rfl
  obtain ⟨hwhole, hunresolved, hfetch⟩ := hentries 0 jump (hentry 0 (by decide))
  obtain ⟨hcut, -, -⟩ := hentries 1 cut (hentry 1 (by decide))
  rw [List.take_zero] at hwhole
  rw [hextent] at hcut
  refine ⟨hlisted, hcut.mpr (by decide), hunresolved rfl, ?_⟩
  have hjump := hfetch (mt hwhole.mp (by decide))
  rw [if_pos (show jump.mode = .indirect by rfl), show firstWord jump.operand = 0x10FF by rfl,
    hpointed] at hjump
  exact hjump

end Nmos6502
