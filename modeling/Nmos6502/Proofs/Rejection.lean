/-
  Which bytes are a saved state, and why others are not.

  The reader takes three sections off the front and looks into the first of
  them.  What it does with a run of bytes can be said without it: there is a
  list of faults that bytes may have, each with the error that reports it, and
  the first fault in the list is what the reader reports; bytes without any of
  them are read.  And whatever the reader tells, in a saved state or in an error,
  it has found inside the bytes.
-/
import Nmos6502.Proofs.RoundTrip

namespace Nmos6502

/-! ## Faults -/

/-- A reason to refuse bytes: whether it applies, and how it is reported. -/
structure Fault where
  applies : Bool
  error : FormatError

/-- The error of the first fault that applies. -/
def firstFault (faults : List Fault) : Option FormatError :=
  (faults.find? (·.applies)).map (·.error)

/-- The value, unless a fault applies. -/
def faultless {α : Type} (faults : List Fault) (value : α) : Except FormatError α :=
  match firstFault faults with
  | some e => .error e
  | none => .ok value

section

variable {α : Type} {f : Fault} {fs : List Fault} {value : α}

/-- The faults in front are looked for first. -/
theorem firstFault_append (fs fs' : List Fault) :
    firstFault (fs ++ fs') = (firstFault fs).or (firstFault fs') := by
  rw [firstFault, List.find?_append, Option.map_or, firstFault, firstFault]

/-- An error comes from a fault that applies where none before it does. -/
theorem firstFault_cons_eq_some_iff {e : FormatError} :
    firstFault (f :: fs) = some e ↔
      f.applies ∧ f.error = e ∨ ¬ f.applies ∧ firstFault fs = some e := by
  by_cases h : f.applies
  · simp [firstFault, h]
  · simp [firstFault, h]

theorem faultless_cons_of_applies (h : f.applies) (fs : List Fault) (value : α) :
    faultless (f :: fs) value = .error f.error := by
  rw [faultless, firstFault, List.find?_cons_of_pos h]
  rfl

theorem faultless_cons_of_not_applies (h : ¬ f.applies) (fs : List Fault) (value : α) :
    faultless (f :: fs) value = faultless fs value := by
  rw [faultless, firstFault, List.find?_cons_of_neg h]
  rfl

/-- What is read in two parts has the faults of the first part in front. -/
theorem faultless_bind {β : Type} {g : α → Except FormatError β} {fs' : List Fault} {value' : β}
    (h : g value = faultless fs' value') :
    (faultless fs value >>= g) = faultless (fs ++ fs') value' := by
  induction fs with
  | nil => exact h
  | cons f fs ih =>
    by_cases happlies : f.applies
    · rw [List.cons_append, faultless_cons_of_applies happlies,
        faultless_cons_of_applies happlies]
      rfl
    · rw [List.cons_append, faultless_cons_of_not_applies happlies,
        faultless_cons_of_not_applies happlies, ih]

theorem faultless_eq_error_iff {e : FormatError} :
    faultless fs value = .error e ↔ firstFault fs = some e := by
  unfold faultless
  cases firstFault fs with
  | none => exact iff_of_false nofun nofun
  | some e' =>
    exact ⟨fun h => congrArg some (Except.error.inj h), fun h => congrArg _ (Option.some.inj h)⟩

theorem faultless_eq_ok_iff {value' : α} :
    faultless fs value = .ok value' ↔ (∀ f ∈ fs, ¬ f.applies) ∧ value = value' := by
  have hnone : firstFault fs = none ↔ ∀ f ∈ fs, ¬ f.applies := by
    rw [firstFault, Option.map_eq_none_iff, List.find?_eq_none]
  rw [← hnone]
  unfold faultless
  cases firstFault fs with
  | none => exact ⟨fun h => ⟨rfl, Except.ok.inj h⟩, fun h => congrArg _ h.2⟩
  | some e => exact iff_of_false nofun nofun

theorem exists_faultless_eq_ok_iff :
    (∃ value', faultless fs value = .ok value') ↔ ∀ f ∈ fs, ¬ f.applies := by
  simp only [faultless_eq_ok_iff]
  exact ⟨fun ⟨_, hnone, _⟩ => hnone, fun hnone => ⟨value, hnone, rfl⟩⟩

end

/-! ## The reader as a list of faults -/

theorem Section.take_eq (part : Section) (bytes : List Byte) :
    part.take bytes = faultless [⟨bytes.length < part.size, .truncated part bytes.length⟩]
      (bytes.take part.size, bytes.drop part.size) := by
  by_cases h : bytes.length < part.size
  · rw [take, if_pos h, faultless_cons_of_applies (decide_eq_true h)]
  · rw [take, if_neg h, faultless_cons_of_not_applies (by simpa using h), List.splitAt_eq]
    rfl

namespace Snapshot

theorem checkHeader_eq (header : List Byte) :
    checkHeader header = faultless
      [⟨header.take 4 ≠ magic, .badMagic (header.take 4)⟩,
        ⟨leValue (header.drop 4) ≠ version, .unsupportedVersion (leValue (header.drop 4))⟩] () := by
  unfold checkHeader
  by_cases hmagic : header.take 4 ≠ magic
  · rw [if_pos hmagic, faultless_cons_of_applies (decide_eq_true hmagic)]
  · rw [if_neg hmagic, faultless_cons_of_not_applies (by simpa using hmagic)]
    by_cases hversion : leValue (header.drop 4) ≠ version
    · rw [if_pos hversion, faultless_cons_of_applies (decide_eq_true hversion)]
    · rw [if_neg hversion, faultless_cons_of_not_applies (by simpa using hversion)]
      rfl

/-- What may be wrong with bytes that should hold a snapshot. -/
def faults (d : List Byte) : List Fault :=
  [⟨d.length < 8, .truncated .header d.length⟩,
    ⟨d.take 4 ≠ magic, .badMagic (d.take 4)⟩,
    ⟨leValue ((d.drop 4).take 4) ≠ version, .unsupportedVersion (leValue ((d.drop 4).take 4))⟩,
    ⟨d.length < 23, .truncated .cpuState (d.length - 8)⟩]

/-- The faults of a snapshot are those of its sections, one after the other. -/
theorem faults_eq (d : List Byte) :
    faults d = [⟨d.length < Section.header.size, .truncated .header d.length⟩] ++
      ([⟨(d.take 8).take 4 ≠ magic, .badMagic ((d.take 8).take 4)⟩,
        ⟨leValue ((d.take 8).drop 4) ≠ version, .unsupportedVersion (leValue ((d.take 8).drop 4))⟩] ++
      [⟨(d.drop 8).length < Section.cpuState.size, .truncated .cpuState (d.drop 8).length⟩]) := by
  have hmagic : (d.take 8).take 4 = d.take 4 := List.take_take
  have hversion : (d.take 8).drop 4 = (d.drop 4).take 4 := List.drop_take
  have hcpu : d.length < 23 ↔ d.length - 8 < 15 := by omega
  rw [hmagic, hversion, List.length_drop, faults, decide_eq_decide.mpr hcpu]
  rfl

/-- The reader of a snapshot gives what is in the places of its sections, unless
    one of the faults applies. -/
theorem decodeFront_eq (d : List Byte) :
    decodeFront d = faultless (faults d) (ofSection ((d.drop 8).take 15), d.drop 23) := by
  have hbehind : d.drop 23 = (d.drop 8).drop 15 := by rw [List.drop_drop]
  rw [faults_eq, hbehind, decodeFront, Section.take_eq]
  refine faultless_bind ?_
  dsimp only
  rw [checkHeader_eq]
  refine faultless_bind ?_
  rw [Section.take_eq]
  exact faultless_bind rfl

theorem decode_eq (d : List Byte) :
    decode d = faultless (faults d) (ofSection ((d.drop 8).take 15)) := by
  rw [decode, decodeFront_eq, ← List.append_nil (faults d)]
  exact faultless_bind rfl

end Snapshot

namespace Checkpoint

/-- What may be wrong with bytes that should hold a checkpoint. -/
def faults (d : List Byte) : List Fault :=
  Snapshot.faults d ++ [⟨d.length < 65559, .truncated .memory (d.length - 23)⟩]

theorem decode_eq (d : List Byte) :
    decode d = faultless (faults d)
      ⟨Snapshot.ofSection ((d.drop 8).take 15), .ofImage ((d.drop 23).take 65536)⟩ := by
  have hmemory : d.length < 65559 ↔ d.length - 23 < Section.memory.size := by
    show d.length < 65559 ↔ d.length - 23 < 65536
    omega
  rw [decode, Snapshot.decodeFront_eq]
  refine faultless_bind ?_
  dsimp only
  rw [Section.take_eq, List.length_drop, decide_eq_decide.mpr hmemory]
  exact faultless_bind rfl

end Checkpoint

/-! ## Bytes without a fault -/

/-- The eight bytes that every saved state begins with. -/
theorem take_eight_iff {d : List Byte} (h : 8 ≤ d.length) :
    d.take 8 = [0x36, 0x35, 0x30, 0x32, 1, 0, 0, 0] ↔
      d.take 4 = Snapshot.magic ∧ leValue ((d.drop 4).take 4) = Snapshot.version := by
  have hmagic : (d.take 8).take 4 = d.take 4 := List.take_take
  have hversion : (d.take 8).drop 4 = (d.drop 4).take 4 := List.drop_take
  constructor
  · intro hheader
    rw [← hmagic, ← hversion, hheader]
    exact ⟨rfl, rfl⟩
  · rintro ⟨hm, hv⟩
    have hlength : ((d.drop 4).take 4).length = 4 := by
      rw [List.length_take, List.length_drop]
      omega
    have hbytes := leBytes_leValue ((d.drop 4).take 4)
    rw [hlength, hv] at hbytes
    rw [← List.take_append_drop 4 (d.take 8), hmagic, hversion, hm, ← hbytes]
    rfl

theorem Snapshot.not_faulty_iff (d : List Byte) :
    (∀ f ∈ faults d, ¬ f.applies) ↔
      23 ≤ d.length ∧ d.take 8 = [0x36, 0x35, 0x30, 0x32, 1, 0, 0, 0] := by
  have hfaults : (∀ f ∈ faults d, ¬ f.applies) ↔ 8 ≤ d.length ∧ d.take 4 = magic ∧
      leValue ((d.drop 4).take 4) = version ∧ 23 ≤ d.length := by
    simp [faults]
  rw [hfaults]
  constructor
  · rintro ⟨hheader, hmagic, hversion, hlong⟩
    exact ⟨hlong, (take_eight_iff hheader).mpr ⟨hmagic, hversion⟩⟩
  · rintro ⟨hlong, hbytes⟩
    have hheader : 8 ≤ d.length := by omega
    obtain ⟨hmagic, hversion⟩ := (take_eight_iff hheader).mp hbytes
    exact ⟨hheader, hmagic, hversion, hlong⟩

theorem Checkpoint.not_faulty_iff (d : List Byte) :
    (∀ f ∈ faults d, ¬ f.applies) ↔
      65559 ≤ d.length ∧ d.take 8 = [0x36, 0x35, 0x30, 0x32, 1, 0, 0, 0] := by
  have hfaults : (∀ f ∈ faults d, ¬ f.applies) ↔
      (∀ f ∈ Snapshot.faults d, ¬ f.applies) ∧ 65559 ≤ d.length := by
    rw [faults, List.forall_mem_append, List.forall_mem_singleton]
    simp
  rw [hfaults, Snapshot.not_faulty_iff]
  constructor
  · rintro ⟨⟨-, hbytes⟩, hlong⟩
    exact ⟨hlong, hbytes⟩
  · rintro ⟨hlong, hbytes⟩
    exact ⟨⟨by omega, hbytes⟩, hlong⟩

/-! ## Where the reader looks -/

/-- The first byte of a section. -/
def Section.start : Section → Nat
  | .header => 0
  | .cpuState => 8
  | .memory => 23

/-- What an error tells has been found inside the bytes: those that it shows are
    there, and those that are available reach to the end. -/
def FormatError.FoundIn (d : List Byte) : FormatError → Prop
  | .badMagic found => [d[0]?, d[1]?, d[2]?, d[3]?] = found.map some
  | .unsupportedVersion found => ∃ bytes : List Byte,
      [d[4]?, d[5]?, d[6]?, d[7]?] = bytes.map some ∧ found = leValue bytes
  | .truncated part available => part.start + available = d.length ∧ available < part.size

/-- Every part of a snapshot is found inside the bytes. -/
def Snapshot.FoundIn (d : List Byte) (s : Snapshot) : Prop :=
  ∃ _ : 23 ≤ d.length, s = {
    pc := word d[8] d[9]
    a := d[10]
    x := d[11]
    y := d[12]
    s := d[13]
    status := d[14] ||| 0x20
    cycles := BitVec.ofNat 64 (leValue [d[15], d[16], d[17], d[18], d[19], d[20], d[21], d[22]]) }

/-- So is every cell of a checkpoint. -/
def Checkpoint.FoundIn (d : List Byte) (c : Checkpoint) : Prop :=
  c.cpu.FoundIn d ∧ ∃ _ : 65559 ≤ d.length, ∀ a : Addr, c.memory.get a = d[23 + a.toNat]

/-- Bytes taken out of the middle, one by one. -/
theorem slice_eq_ofFn {d : List Byte} {i n : Nat} (h : i + n ≤ d.length) :
    (d.drop i).take n = List.ofFn fun k : Fin n => d[i + k] := by
  apply List.ext_getElem
  · rw [List.length_take, List.length_drop, List.length_ofFn]
    omega
  · intro k _ _
    rw [List.getElem_take, List.getElem_drop, List.getElem_ofFn]

theorem map_some_slice {d : List Byte} {i n : Nat} (h : i + n ≤ d.length) :
    ((d.drop i).take n).map some = List.ofFn fun k : Fin n => d[i + k.val]? := by
  have hbyte : (some ∘ fun k : Fin n => d[i + k]) = fun k : Fin n => d[i + k.val]? := by
    funext k
    exact (List.getElem?_eq_getElem _).symm
  rw [slice_eq_ofFn h, List.map_ofFn, hbyte]

theorem ofNat_leValue_pair (lo hi : Byte) : BitVec.ofNat 16 (leValue [lo, hi]) = word lo hi := by
  apply BitVec.eq_of_toNat_eq
  have := lo.isLt
  have := hi.isLt
  rw [BitVec.toNat_ofNat, toNat_word, leValue_cons, leValue_cons, leValue_nil]
  omega

theorem Snapshot.foundIn_of_long {d : List Byte} (h : 23 ≤ d.length) :
    (ofSection ((d.drop 8).take 15)).FoundIn d := by
  refine ⟨h, ?_⟩
  rw [slice_eq_ofFn (by omega), ← ofNat_leValue_pair]
  rfl

theorem Checkpoint.foundIn_of_long {d : List Byte} (h : 65559 ≤ d.length) :
    Checkpoint.FoundIn d
      ⟨Snapshot.ofSection ((d.drop 8).take 15), .ofImage ((d.drop 23).take 65536)⟩ := by
  refine ⟨Snapshot.foundIn_of_long (by omega), h, fun a => ?_⟩
  have ha : a.toNat < 65536 := a.isLt
  rw [Flat.get_ofImage, List.getElem?_take_of_lt ha, List.getElem?_drop,
    List.getElem?_eq_getElem (by omega), Option.getD_some]

theorem Checkpoint.foundIn_of_firstFault {d : List Byte} {e : FormatError}
    (h : firstFault (faults d) = some e) : e.FoundIn d := by
  simp only [faults, Snapshot.faults, List.cons_append, List.nil_append,
    firstFault_cons_eq_some_iff, decide_eq_true_eq, Nat.not_lt] at h
  obtain ⟨hshort, rfl⟩ | ⟨hheader, h⟩ := h
  · exact ⟨Nat.zero_add _, hshort⟩
  obtain ⟨-, rfl⟩ | ⟨-, h⟩ := h
  · have hbytes : ((d.drop 0).take 4).map some = _ := map_some_slice (by omega)
    exact hbytes.symm
  obtain ⟨-, rfl⟩ | ⟨-, h⟩ := h
  · have hbytes : ((d.drop 4).take 4).map some = _ := map_some_slice (by omega)
    exact ⟨_, hbytes.symm, rfl⟩
  obtain ⟨hshort, rfl⟩ | ⟨hfront, h⟩ := h
  · show 8 + (d.length - 8) = d.length ∧ d.length - 8 < 15
    omega
  obtain ⟨hshort, rfl⟩ | ⟨-, h⟩ := h
  · show 23 + (d.length - 23) = d.length ∧ d.length - 23 < 65536
    omega
  · cases h

/-- The format is accepted and nothing else is.  A snapshot is read exactly from
    23 bytes or more that begin with the eight of the header, a checkpoint from
    65559 or more.  Other bytes are refused with the error of the first of their
    faults: the header is not there, it does not begin as it should, its version
    is another one, the registers are not there, the memory is not there.  All
    that is told, in a saved state or in an error, stands in the bytes that were
    given, so nothing was looked for outside of them. -/
theorem format_is_accepted_exactly (d : List Byte) :
    ((∃ s, Snapshot.decode d = .ok s) ↔
      23 ≤ d.length ∧ d.take 8 = [0x36, 0x35, 0x30, 0x32, 1, 0, 0, 0]) ∧
    ((∃ c, Checkpoint.decode d = .ok c) ↔
      65559 ≤ d.length ∧ d.take 8 = [0x36, 0x35, 0x30, 0x32, 1, 0, 0, 0]) ∧
    (∀ e, Snapshot.decode d = .error e ↔ firstFault (Snapshot.faults d) = some e) ∧
    (∀ e, Checkpoint.decode d = .error e ↔ firstFault (Checkpoint.faults d) = some e) ∧
    (∀ s, Snapshot.decode d = .ok s → s.FoundIn d) ∧
    (∀ c, Checkpoint.decode d = .ok c → c.FoundIn d) ∧
    (∀ e, Snapshot.decode d = .error e ∨ Checkpoint.decode d = .error e → e.FoundIn d) ∧
    [Section.header, .cpuState, .memory].map (fun part => (part.name, part.size)) =
      [("header", 8), ("cpu state", 15), ("memory", 65536)] := by
  have hsnapshot (e : FormatError) :
      Snapshot.decode d = .error e ↔ firstFault (Snapshot.faults d) = some e := by
    rw [Snapshot.decode_eq, faultless_eq_error_iff]
  have hcheckpoint (e : FormatError) :
      Checkpoint.decode d = .error e ↔ firstFault (Checkpoint.faults d) = some e := by
    rw [Checkpoint.decode_eq, faultless_eq_error_iff]
  refine ⟨?_, ?_, hsnapshot, hcheckpoint, fun s hs => ?_, fun c hc => ?_, fun e he => ?_, rfl⟩
  · rw [Snapshot.decode_eq, exists_faultless_eq_ok_iff, Snapshot.not_faulty_iff]
  · rw [Checkpoint.decode_eq, exists_faultless_eq_ok_iff, Checkpoint.not_faulty_iff]
  · rw [Snapshot.decode_eq, faultless_eq_ok_iff, Snapshot.not_faulty_iff] at hs
    obtain ⟨⟨hlong, -⟩, rfl⟩ := hs
    exact Snapshot.foundIn_of_long hlong
  · rw [Checkpoint.decode_eq, faultless_eq_ok_iff, Checkpoint.not_faulty_iff] at hc
    obtain ⟨⟨hlong, -⟩, rfl⟩ := hc
    exact Checkpoint.foundIn_of_long hlong
  · refine Checkpoint.foundIn_of_firstFault ?_
    rcases he with he | he
    -- the faults of a snapshot are the first of a checkpoint
    · rw [Checkpoint.faults, firstFault_append, (hsnapshot e).mp he, Option.some_or]
    · exact (hcheckpoint e).mp he

/-- Nine bytes with a wrong version are too few as well; the version comes first. -/
example : Checkpoint.decode [0x36, 0x35, 0x30, 0x32, 2, 0, 0, 1, 0xFF] =
    .error (.unsupportedVersion 0x01000002) := rfl

end Nmos6502
