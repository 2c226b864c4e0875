/-
  Saved states there and back.

  `Proofs.Format` reads what has been written.  Here is the way back: bytes that
  are read as a saved state begin with what is written for it, but for the one
  bit of the flags that is always read as set.  So a snapshot and its bytes
  determine each other, whatever stands behind these, and a machine is restored
  from another one through bytes with nothing lost and nothing on the bus.
-/
import Nmos6502.Proofs.Format

namespace Nmos6502

/-! ## What has been read successfully -/

/-- A sequence of two readings succeeds when both do. -/
theorem bind_eq_ok {ε α β : Type} {x : Except ε α} {f : α → Except ε β} {b : β} :
    (x >>= f) = .ok b ↔ ∃ a, x = .ok a ∧ f a = .ok b := by
  cases x with
  | error e => exact ⟨nofun, nofun⟩
  | ok a => exact ⟨fun h => ⟨a, rfl, h⟩, by rintro ⟨_, ⟨⟩, h⟩; exact h⟩

/-- A section is taken when it is there, and is the front of the bytes. -/
theorem Section.take_eq_ok_iff {part : Section} {bytes front rest : List Byte} :
    part.take bytes = .ok (front, rest) ↔ bytes = front ++ rest ∧ front.length = part.size := by
  constructor
  · intro h
    unfold take at h
    split at h
    · cases h
    · next hlong =>
      rw [List.splitAt_eq, Except.ok.injEq, Prod.mk.injEq] at h
      obtain ⟨rfl, rfl⟩ := h
      refine ⟨(List.take_append_drop _ _).symm, ?_⟩
      rw [List.length_take]
      omega
  · rintro ⟨rfl, hfront⟩
    exact take_append hfront rest

/-- The bytes of a number are those that it was read from. -/
theorem leBytes_toNat_ofNat {w n : Nat} {bs : List Byte} (hn : bs.length = n)
    (hw : 2 ^ w = 256 ^ n) : leBytes n (BitVec.ofNat w (leValue bs)).toNat = bs := by
  have hlt := leValue_lt bs
  rw [hn, ← hw] at hlt
  rw [BitVec.toNat_ofNat, Nat.mod_eq_of_lt hlt, ← hn, leBytes_leValue]

namespace Snapshot

theorem eq_of_checkHeader {header : List Byte} (hlength : header.length = Section.header.size)
    (h : checkHeader header = .ok ()) : header = magic ++ leBytes 4 version := by
  unfold checkHeader at h
  split at h
  · cases h
  · next hmagic =>
    split at h
    · cases h
    · next hversion =>
      have hmagic : header.take 4 = magic := Decidable.of_not_not hmagic
      have hversion : leValue (header.drop 4) = version := Decidable.of_not_not hversion
      have hfour : (header.drop 4).length = 4 := by
        rw [List.length_drop, hlength]
        rfl
      calc header = header.take 4 ++ header.drop 4 := (List.take_append_drop 4 header).symm
        _ = magic ++ leBytes (header.drop 4).length (leValue (header.drop 4)) := by
          rw [hmagic, leBytes_leValue]
        _ = magic ++ leBytes 4 version := by rw [hfour, hversion]

/-- The bytes that a snapshot is read from, after the header. -/
theorem eq_of_decodeFront {bytes rest : List Byte} {s : Snapshot}
    (h : decodeFront bytes = .ok (s, rest)) :
    ∃ front, front.length = Section.cpuState.size ∧ s = ofSection front ∧
      bytes = (magic ++ leBytes 4 version) ++ front ++ rest := by
  unfold decodeFront at h
  obtain ⟨⟨header, behind⟩, hheader, hbehind⟩ := bind_eq_ok.mp h
  obtain ⟨⟨⟩, hcheck, htaken⟩ := bind_eq_ok.mp hbehind
  obtain ⟨⟨front, rest'⟩, hfront, hread⟩ := bind_eq_ok.mp htaken
  obtain ⟨rfl, hlength⟩ := Section.take_eq_ok_iff.mp hheader
  obtain ⟨rfl, hsize⟩ := Section.take_eq_ok_iff.mp hfront
  cases hread
  refine ⟨front, hsize, rfl, ?_⟩
  rw [eq_of_checkHeader hlength hcheck, List.append_assoc _ front]

/-- Reading the registers and writing them sets the bit that no flag is behind. -/
theorem body_ofSection {bytes : List Byte} (h : bytes.length = Section.cpuState.size) :
    (ofSection bytes).body = bytes.modify 6 (· ||| 0x20) := by
  match bytes, h with
  | [b₀, b₁, a, x, y, s, p, c₀, c₁, c₂, c₃, c₄, c₅, c₆, c₇], _ =>
    have hpc : leBytes 2 (BitVec.ofNat 16 (leValue [b₀, b₁])).toNat = [b₀, b₁] :=
      leBytes_toNat_ofNat rfl rfl
    have hcycles : leBytes 8 (BitVec.ofNat 64 (leValue [c₀, c₁, c₂, c₃, c₄, c₅, c₆, c₇])).toNat =
        [c₀, c₁, c₂, c₃, c₄, c₅, c₆, c₇] := leBytes_toNat_ofNat rfl rfl
    calc (ofSection [b₀, b₁, a, x, y, s, p, c₀, c₁, c₂, c₃, c₄, c₅, c₆, c₇]).body
        = leBytes 2 (BitVec.ofNat 16 (leValue [b₀, b₁])).toNat ++ [a, x, y, s, p ||| 0x20] ++
            leBytes 8 (BitVec.ofNat 64
              (leValue [c₀, c₁, c₂, c₃, c₄, c₅, c₆, c₇])).toNat := rfl
      _ = [b₀, b₁, a, x, y, s, p ||| 0x20, c₀, c₁, c₂, c₃, c₄, c₅, c₆, c₇] := by
        rw [hpc, hcycles]
        rfl

theorem decode_eq_ok_iff {bytes : List Byte} {s : Snapshot} :
    decode bytes = .ok s ↔ ∃ rest, decodeFront bytes = .ok (s, rest) := by
  unfold decode
  rw [bind_eq_ok]
  constructor
  · rintro ⟨⟨s', rest⟩, hfront, ⟨⟩⟩
    exact ⟨rest, hfront⟩
  · rintro ⟨rest, hfront⟩
    exact ⟨(s, rest), hfront, rfl⟩

/-- A snapshot is written again as the bytes that it was read from, with the bit
    of the flags set that no flag is behind. -/
theorem encode_of_decode {bytes : List Byte} {s : Snapshot} (h : decode bytes = .ok s) :
    s.encode = (bytes.take 23).modify 14 (· ||| 0x20) := by
  obtain ⟨rest, hrest⟩ := decode_eq_ok_iff.mp h
  obtain ⟨front, hsize, rfl, rfl⟩ := eq_of_decodeFront hrest
  have hlength : ((magic ++ leBytes 4 version) ++ front).length = 23 := by
    rw [List.length_append, hsize]
    rfl
  rw [encode_eq, body_ofSection hsize, List.take_left' hlength]
  -- the header is eight bytes, so byte 14 is the seventh behind it
  rfl

theorem decode_encode_append (s : Snapshot) (rest : List Byte) :
    decode (s.encode ++ rest) = .ok { s with status := s.status ||| 0x20 } :=
  decode_eq_ok_iff.mpr ⟨rest, decodeFront_encode s rest⟩

end Snapshot

theorem Checkpoint.length_encode (c : Checkpoint) : c.encode.length = encodedSize := by
  have hmemory : c.memory.toList.length = 65536 := Flat.length_toList _
  rw [encode, List.length_append, hmemory]
  rfl

/-! ## There and back -/

/-- The bytes of a machine's snapshot, read again and restored into another
    machine, give that one the registers of the first.  Neither machine touches
    its bus, whatever is attached to it. -/
theorem Machine.restoreRegisters_of_decode {M N S T : Type} (m : Machine M S) (n : Machine N T) :
    ∃ s, Snapshot.decode m.snapshot.encode = .ok s ∧
      n.restoreRegisters s = { n with core := ⟨m.regs, n.bus⟩ } := by
  have hstatus : m.snapshot.status ||| 0x20 = m.snapshot.status := Status.pack_or_unused m.regs.p
  have hdecode := m.snapshot.decode_encode_append []
  rw [List.append_nil, hstatus] at hdecode
  refine ⟨m.snapshot, hdecode, ?_⟩
  have hregs : m.snapshot.registers = m.regs := Snapshot.registers_snapshot m.regs
  rw [restoreRegisters, hregs]
  rfl

/-- Saved states go into bytes and come back.  A snapshot is read from its bytes,
    whatever stands behind them, as it was, with the bit of the flags set that no
    flag is behind; bytes that are read as a snapshot begin with those written
    for it, up to that bit.  A checkpoint comes back with its memory, its front
    is read as its snapshot, and it takes up the size of the format.  So the
    registers of any machine can be given to any other one by way of bytes,
    which leaves the bus and all else of that one alone. -/
theorem saved_state_round_trip :
    (∀ (s : Snapshot) (rest : List Byte),
      Snapshot.decode (s.encode ++ rest) = .ok { s with status := s.status ||| 0x20 }) ∧
    (∀ (bytes : List Byte) (s : Snapshot), Snapshot.decode bytes = .ok s →
      s.encode = (bytes.take 23).modify 14 (· ||| 0x20)) ∧
    (∀ c : Checkpoint,
      Checkpoint.decode c.encode = .ok ⟨{ c.cpu with status := c.cpu.status ||| 0x20 }, c.memory⟩ ∧
      Snapshot.decode c.encode = .ok { c.cpu with status := c.cpu.status ||| 0x20 } ∧
      c.encode.length = Checkpoint.encodedSize) ∧
    ∀ {M N S T : Type} (m : Machine M S) (n : Machine N T),
      ∃ s, Snapshot.decode m.snapshot.encode = .ok s ∧
        n.restoreRegisters s = { n with core := ⟨m.regs, n.bus⟩ } := by
  refine ⟨Snapshot.decode_encode_append, fun bytes s h => Snapshot.encode_of_decode h,
    fun c => ⟨Checkpoint.decode_encode c, ?_, c.length_encode⟩,
    fun m n => m.restoreRegisters_of_decode n⟩
  exact c.cpu.decode_encode_append c.memory.toList

/-- Bytes with the bit clear and one more behind them: they are read, and are
    written again with the bit set and without the last one. -/
theorem round_trip_of_clear_bit :
    let bytes : List Byte := [0x36, 0x35, 0x30, 0x32, 1, 0, 0, 0, 0xDE, 0xC0, 0x11, 0x22, 0x33,
      0xF0, 0xC3, 8, 7, 6, 5, 4, 3, 2, 1, 0xFF]
    ∃ s, Snapshot.decode bytes = .ok s ∧ s.pc = 0xC0DE ∧
      s.encode = bytes.take 14 ++ [0xE3] ++ (bytes.drop 15).take 8 := by
  intro bytes
  obtain ⟨-, hback, -, -⟩ := saved_state_round_trip
  have hdecode : Snapshot.decode bytes =
      .ok ⟨0xC0DE, 0x11, 0x22, 0x33, 0xF0, 0xE3, 0x0102030405060708⟩ := rfl
  exact ⟨_, hdecode, rfl, hback bytes _ hdecode⟩

end Nmos6502
