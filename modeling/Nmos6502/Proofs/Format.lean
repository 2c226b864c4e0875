/-
  Writing and reading a saved state.

  Each section takes exactly its own bytes off the front, whatever follows, so
  the reader of the whole gets back what the writer put in.  Only the bit of
  the packed flags that has no flag behind it may differ: it is always read as
  one, and `Status.pack` always writes it so.
-/
import Nmos6502.Proofs.Flat
import Nmos6502.Proofs.Number
import Nmos6502.Snapshot.Format

namespace Nmos6502

theorem Status.pack_or_unused (p : Status) : p.pack ||| 0x20 = p.pack := by
  rw [← pack_unpack, unpack_pack]

theorem ok_bind {ε α β : Type} (a : α) (f : α → Except ε β) : (Except.ok a >>= f) = f a := rfl

theorem Section.take_append {part : Section} {front : List Byte} (h : front.length = part.size)
    (rest : List Byte) : part.take (front ++ rest) = .ok (front, rest) := by
  have hlong : ¬ (front ++ rest).length < part.size := by
    rw [List.length_append]
    omega
  rw [take, if_neg hlong, List.splitAt_eq, ← h, List.take_left, List.drop_left]

namespace Snapshot

theorem checkHeader_header : checkHeader (magic ++ leBytes 4 version) = .ok () := rfl

/-- The registers as bytes, without the header. -/
def body (s : Snapshot) : List Byte :=
  leBytes 2 s.pc.toNat ++ [s.a, s.x, s.y, s.s, s.status] ++ leBytes 8 s.cycles.toNat

theorem encode_eq (s : Snapshot) : s.encode = (magic ++ leBytes 4 version) ++ s.body := by
  simp only [encode, body, List.append_assoc]

theorem ofSection_body (s : Snapshot) :
    ofSection s.body = { s with status := s.status ||| 0x20 } := by
  have hpc : BitVec.ofNat 16 (leValue (leBytes 2 s.pc.toNat)) = s.pc := by
    rw [leValue_leBytes]
    apply BitVec.eq_of_toNat_eq
    have := s.pc.isLt
    rw [BitVec.toNat_ofNat]
    omega
  have hcycles : BitVec.ofNat 64 (leValue (leBytes 8 s.cycles.toNat)) = s.cycles := by
    rw [leValue_leBytes]
    apply BitVec.eq_of_toNat_eq
    have := s.cycles.isLt
    rw [BitVec.toNat_ofNat]
    omega
  -- every part has a known length, so taking the section apart is computation
  show ({ pc := BitVec.ofNat 16 (leValue (leBytes 2 s.pc.toNat)), a := s.a, x := s.x, y := s.y,
          s := s.s, status := s.status ||| 0x20,
          cycles := BitVec.ofNat 64 (leValue (leBytes 8 s.cycles.toNat)) } : Snapshot) = _
  rw [hpc, hcycles]

/-- Reading takes exactly the bytes that were written, whatever follows. -/
theorem decodeFront_encode (s : Snapshot) (rest : List Byte) :
    decodeFront (s.encode ++ rest) = .ok ({ s with status := s.status ||| 0x20 }, rest) := by
  have hheader : (magic ++ leBytes 4 version).length = Section.header.size := rfl
  have hbody : s.body.length = Section.cpuState.size := rfl
  rw [encode_eq, List.append_assoc, decodeFront, Section.take_append hheader, ok_bind]
  simp only [checkHeader_header, ok_bind, Section.take_append hbody, ofSection_body]
  rfl

end Snapshot

namespace Checkpoint

theorem decode_encode (c : Checkpoint) :
    decode c.encode = .ok { c with cpu.status := c.cpu.status ||| 0x20 } := by
  have himage : c.memory.toList.length = Section.memory.size := Flat.length_toList _
  -- nothing stands behind the memory
  have hmemory := Section.take_append himage []
  rw [List.append_nil] at hmemory
  rw [encode, decode, Snapshot.decodeFront_encode, ok_bind]
  simp only [hmemory, ok_bind, Flat.ofImage_toList]
  rfl

end Checkpoint

/-- A machine's checkpoint comes back from its bytes unchanged. -/
theorem Machine.decode_encode_checkpoint {S : Type} (m : Machine Flat S) :
    Checkpoint.decode m.checkpoint.encode = .ok m.checkpoint := by
  have hstatus : m.checkpoint.cpu.status ||| 0x20 = m.checkpoint.cpu.status :=
    Status.pack_or_unused m.regs.p
  rw [Checkpoint.decode_encode, hstatus]

end Nmos6502
