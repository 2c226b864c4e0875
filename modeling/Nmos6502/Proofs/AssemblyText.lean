/-
  Assembly text and the bytes behind it.

  The text of an instruction names its operation and its mode and shows all of
  its operand, so at one address there is one instruction to a text.  The mode
  is read off the text with its digits made alike.  What is left then is the
  `shape`, and no two modes have the same but a branch and a full address, which
  no operation has both.  In a listing the address of an entry follows from the
  sizes of those before it, so the argument goes down the listing entry by
  entry.
-/
import Mathlib.Data.List.Nodup
import Nmos6502.Instruction.Text
import Nmos6502.Proofs.Listing
import Nmos6502.Proofs.Lookahead
import Nmos6502.Proofs.Traffic

namespace Nmos6502

/-! ## Operation and mode name the opcode -/

namespace OpcodeMatrix

/-- All entries in the order of their opcodes. -/
def entries : List OpcodeEntry := (List.range 16).flatMap fun r => (row r).toList

/-- The opcode of an operation in a mode, if it has one. -/
def opcodeOf (o : Operation) (m : Mode) : Byte :=
  BitVec.ofNat 8 (entries.findIdx fun e => e.mode == m && e.operation == o)

/-- Looking an entry up gives the opcode back, so no two documented opcodes have
    operation and mode in common. -/
theorem opcodeOf_opcodeEntry : ∀ opcode, (opcodeEntry opcode).legal →
    opcodeOf (opcodeEntry opcode).operation (opcodeEntry opcode).mode = opcode := by
  decide +kernel

end OpcodeMatrix

theorem opcode_unique {b c : Byte} (hb : (opcodeEntry b).legal) (hc : (opcodeEntry c).legal)
    (hop : (opcodeEntry b).operation = (opcodeEntry c).operation)
    (hmode : (opcodeEntry b).mode = (opcodeEntry c).mode) : b = c := by
  rw [← OpcodeMatrix.opcodeOf_opcodeEntry b hb, ← OpcodeMatrix.opcodeOf_opcodeEntry c hc, hop,
    hmode]

namespace Operation

def all : List Operation :=
  [.lda, .ldx, .ldy, .sta, .stx, .sty, .adc, .sbc, .and, .ora, .eor, .bit, .cmp, .cpx, .cpy,
    .asl, .lsr, .rol, .ror, .inc, .dec, .inx, .iny, .dex, .dey, .bcc, .bcs, .bne, .beq, .bpl,
    .bmi, .bvc, .bvs, .jmp, .jsr, .rts, .rti, .brk, .nop, .pha, .php, .pla, .plp, .clc, .sec,
    .cli, .sei, .cld, .sed, .clv, .tax, .tay, .txa, .tya, .tsx, .txs, .illegal]

theorem mem_all (o : Operation) : o ∈ all := by
  cases o <;> decide

theorem nodup_mnemonics : (all.map mnemonic).Nodup := by
  decide +kernel

theorem mnemonic_injective {o p : Operation} (h : o.mnemonic = p.mnemonic) : o = p :=
  List.inj_on_of_nodup_map nodup_mnemonics (mem_all o) (mem_all p) h

end Operation

/-! ## The shape of an operand -/

/-- A character with all hexadecimal digits made alike. -/
def Hex.blot (c : Char) : Char :=
  if c.isDigit || 'A' ≤ c && c ≤ 'F' then '0' else c

theorem Hex.blot_digit : ∀ n, blot (digit n) = '0' := by
  decide

@[simp] theorem Hex.map_blot_byte (b : Byte) : (byte b).map blot = ['0', '0'] := by
  simp [byte, blot_digit]

@[simp] theorem Hex.map_blot_addr (a : Addr) : (addr a).map blot = ['0', '0', '0', '0'] := by
  simp [addr]

namespace Mode

/-- What the assembler writes before the digits of an operand. -/
def opening : Mode → List Char
  | .implied => []
  | .accumulator => ['A']
  | .immediate => ['#', '$']
  | .zeroPage | .zeroPageX | .zeroPageY | .relative | .absolute | .absoluteX | .absoluteY => ['$']
  | .indirect | .indexedIndirect | .indirectIndexed => ['(', '$']

/-- What the assembler writes behind the digits of an operand. -/
def closing : Mode → List Char
  | .implied | .accumulator | .immediate | .zeroPage | .relative | .absolute => []
  | .zeroPageX | .absoluteX => [',', 'X']
  | .zeroPageY | .absoluteY => [',', 'Y']
  | .indirect => [')']
  | .indexedIndirect => [',', 'X', ')']
  | .indirectIndexed => [')', ',', 'Y']

/-- How many digits an operand is shown with; a branch shows where it leads. -/
def digits : Mode → Nat
  | .relative => 4
  | m => 2 * m.operandLength

/-- The text of an operand with its digits made alike. -/
def shape (m : Mode) : List Char :=
  m.opening.map Hex.blot ++ List.replicate m.digits '0' ++ m.closing.map Hex.blot

def all : List Mode :=
  [.implied, .accumulator, .immediate, .zeroPage, .zeroPageX, .zeroPageY, .relative, .absolute,
    .absoluteX, .absoluteY, .indirect, .indexedIndirect, .indirectIndexed]

theorem mem_all (m : Mode) : m ∈ all := by
  cases m <;> decide

/-- Only a branch looks like another mode. -/
theorem nodup_shapes : (all.map fun m => (m.shape, m == .relative)).Nodup := by
  decide +kernel

theorem shape_injective {m n : Mode} (h : m.shape = n.shape)
    (hrel : (m == .relative) = (n == .relative)) : m = n :=
  List.inj_on_of_nodup_map nodup_shapes (mem_all m) (mem_all n) (Prod.ext h hrel)

end Mode

namespace Instruction

/-! ## Decoded instructions -/

/-- The instruction is what its own bytes say. -/
structure Coherent (i : Instruction) : Prop where
  legal : (opcodeEntry i.opcode).legal
  operation : i.operation = (opcodeEntry i.opcode).operation
  mnemonic : i.mnemonic = i.operation.mnemonic
  mode : i.mode = (opcodeEntry i.opcode).mode
  bytes : i.bytes = i.opcode :: i.operand
  length : i.operand.length = i.mode.operandLength
  target : i.mode = .relative → i.target = some (branchDestination i.address (firstByte i.operand))

/-- The digits that an operand is shown with. -/
def figures (i : Instruction) : List Char :=
  match i.mode with
  | .implied | .accumulator => []
  | .immediate | .zeroPage | .zeroPageX | .zeroPageY | .indexedIndirect | .indirectIndexed =>
    Hex.byte (firstByte i.operand)
  | .relative => Hex.addr (i.target.getD 0)
  | .absolute | .absoluteX | .absoluteY | .indirect => Hex.addr (firstWord i.operand)

theorem map_blot_figures (i : Instruction) :
    i.figures.map Hex.blot = List.replicate i.mode.digits '0' := by
  unfold figures Mode.digits
  cases i.mode with
  | implied | accumulator => rfl
  | immediate | zeroPage | zeroPageX | zeroPageY | indexedIndirect | indirectIndexed =>
    exact Hex.map_blot_byte _
  | relative | absolute | absoluteX | absoluteY | indirect => exact Hex.map_blot_addr _

/-- The text of an operand is the digits between what its mode puts around them. -/
theorem toList_operandText {i : Instruction} (h : i.operation ≠ .illegal) :
    i.operandText.toList = i.mode.opening ++ i.figures ++ i.mode.closing := by
  unfold operandText figures
  rw [if_neg h]
  cases i.mode <;> simp [Mode.opening, Mode.closing, Hex.ofByte, Hex.ofAddr]

theorem map_blot_operandText {i : Instruction} (h : i.operation ≠ .illegal) :
    i.operandText.toList.map Hex.blot = i.mode.shape := by
  rw [toList_operandText h, List.map_append, List.map_append, map_blot_figures, Mode.shape]

/-! ## Text apart again -/

/-- The text of an operand as it stands behind the mnemonic. -/
def spaced (operand : String) : List Char := if operand = "" then [] else ' ' :: operand.toList

theorem spaced_injective {s t : String} (h : spaced s = spaced t) : s = t := by
  unfold spaced at h
  split at h <;> split at h
  · next hs ht => rw [hs, ht]
  · cases h
  · cases h
  · exact String.toList_inj.mp (List.cons.inj h).2

theorem toList_text (i : Instruction) :
    i.text.toList = i.mnemonic.toList ++ spaced i.operandText := by
  by_cases h : i.operandText = ""
  · simp [text, spaced, h]
  · simp [text, spaced, h]

theorem Coherent.parts_of_text {i j : Instruction} (hi : i.Coherent) (hj : j.Coherent)
    (h : i.text = j.text) : i.operation = j.operation ∧ i.operandText = j.operandText := by
  have hchars := congrArg String.toList h
  rw [toList_text, toList_text, hi.mnemonic, hj.mnemonic] at hchars
  have hlength : i.operation.mnemonic.toList.length = j.operation.mnemonic.toList.length := by
    rw [String.length_toList, String.length_toList, Operation.length_mnemonic,
      Operation.length_mnemonic]
  obtain ⟨hmnemonic, hoperand⟩ := List.append_inj hchars hlength
  exact ⟨Operation.mnemonic_injective (String.toList_inj.mp hmnemonic), spaced_injective hoperand⟩

/-! ## Digits and the operand behind them -/

theorem eq_of_firstByte {l l' : List Byte} (hl : l.length = 1) (hl' : l'.length = 1)
    (h : firstByte l = firstByte l') : l = l' := by
  obtain ⟨b, rfl⟩ := List.length_eq_one_iff.mp hl
  obtain ⟨b', rfl⟩ := List.length_eq_one_iff.mp hl'
  exact congrArg (fun b => [b]) h

theorem eq_of_firstWord {l l' : List Byte} (hl : l.length = 2) (hl' : l'.length = 2)
    (h : firstWord l = firstWord l') : l = l' := by
  obtain ⟨lo, hi, rfl⟩ := List.length_eq_two.mp hl
  obtain ⟨lo', hi', rfl⟩ := List.length_eq_two.mp hl'
  change word lo hi = word lo' hi' at h
  have hlo := congrArg lowByte h
  have hhi := congrArg highByte h
  rw [lowByte_word, lowByte_word] at hlo
  rw [highByte_word, highByte_word] at hhi
  rw [hlo, hhi]

/-- From one place different displacements lead to different places, also where
    the address space ends. -/
theorem branchDestination_injective {pc : Addr} {d d' : Byte}
    (h : branchDestination pc d = branchDestination pc d') : d = d' := by
  rw [branchDestination_eq, branchDestination_eq] at h
  have hextended : d.signExtend 16 = d'.signExtend 16 := (BitVec.add_right_inj _).mp h
  have hsigned := congrArg BitVec.toInt hextended
  rw [BitVec.toInt_signExtend_of_le (by decide), BitVec.toInt_signExtend_of_le (by decide)]
    at hsigned
  exact BitVec.eq_of_toInt_eq hsigned

namespace Coherent

variable {i j : Instruction}

/-- In one mode and at one address the digits show all of the operand. -/
theorem operand_eq (hi : i.Coherent) (hj : j.Coherent) (hmode : i.mode = j.mode)
    (haddress : i.address = j.address) (h : i.figures = j.figures) : i.operand = j.operand := by
  have hlength := hi.length
  have hlength' := hj.length
  have htarget := hi.target
  have htarget' := hj.target
  unfold figures at h
  rw [← hmode] at h hlength' htarget'
  cases hm : i.mode with
  | implied | accumulator =>
    rw [hm] at hlength hlength'
    rw [List.eq_nil_of_length_eq_zero hlength, List.eq_nil_of_length_eq_zero hlength']
  | immediate | zeroPage | zeroPageX | zeroPageY | indexedIndirect | indirectIndexed =>
    rw [hm] at h hlength hlength'
    exact eq_of_firstByte hlength hlength' (Hex.byte_injective h)
  | absolute | absoluteX | absoluteY | indirect =>
    rw [hm] at h hlength hlength'
    exact eq_of_firstWord hlength hlength' (Hex.addr_injective h)
  | relative =>
    rw [hm] at h hlength hlength'
    -- what is shown is where the branch leads, and that tells how far it is
    have hleads := Hex.addr_injective h
    rw [htarget hm, htarget' hm, Option.getD_some, Option.getD_some, haddress] at hleads
    exact eq_of_firstByte hlength hlength' (branchDestination_injective hleads)

theorem operation_ne (hi : i.Coherent) : i.operation ≠ .illegal := by
  rw [hi.operation]
  exact (OpcodeEntry.legal_iff _).mp hi.legal

theorem relative_eq (hi : i.Coherent) :
    (i.mode == .relative) = i.operation.isConditional := by
  rw [hi.mode, hi.operation, Bool.eq_iff_iff, beq_iff_eq]
  exact (suited_opcodeEntry i.opcode).relative

/-- At one address the text of an instruction determines its bytes. -/
theorem bytes_eq_of_text (hi : i.Coherent) (hj : j.Coherent) (haddress : i.address = j.address)
    (h : i.text = j.text) : i.bytes = j.bytes := by
  obtain ⟨hop, htext⟩ := hi.parts_of_text hj h
  have hmode : i.mode = j.mode := by
    refine Mode.shape_injective ?_ ?_
    · rw [← map_blot_operandText hi.operation_ne, ← map_blot_operandText hj.operation_ne, htext]
    · rw [hi.relative_eq, hj.relative_eq, hop]
  have hopcode : i.opcode = j.opcode := by
    refine opcode_unique hi.legal hj.legal ?_ ?_
    · rw [← hi.operation, ← hj.operation, hop]
    · rw [← hi.mode, ← hj.mode, hmode]
  have hfigures : i.figures = j.figures := by
    have hchars := congrArg String.toList htext
    rw [toList_operandText hi.operation_ne, toList_operandText hj.operation_ne, hmode] at hchars
    exact List.append_cancel_left (List.append_cancel_right hchars)
  rw [hi.bytes, hj.bytes, hopcode, hi.operand_eq hj hmode haddress hfigures]

end Coherent

/-! ## What is decoded is coherent -/

theorem coherent_ofParts (a : Addr) {opcode : Byte} {operand : List Byte}
    (hlegal : (opcodeEntry opcode).legal)
    (hlength : operand.length = (opcodeEntry opcode).mode.operandLength) :
    (ofParts a opcode operand).Coherent where
  legal := hlegal
  operation := rfl
  mnemonic := rfl
  mode := rfl
  bytes := rfl
  length := hlength
  target := by
    intro hmode
    change (opcodeEntry opcode).mode = .relative at hmode
    simp only [ofParts, directTarget, hmode]
    rfl

/-- An entry of a listing is coherent unless it is unknown. -/
theorem coherent_listed {a : Addr} {b : Byte} {rest : List Byte}
    (h : (listed a b rest).operation ≠ .illegal) : (listed a b rest).Coherent := by
  unfold listed at h ⊢
  split
  · next hcomplete =>
    rw [complete_iff] at hcomplete
    exact coherent_ofParts a hcomplete.1 hcomplete.2
  · next hnot =>
    rw [if_neg hnot] at h
    exact absurd rfl h

theorem coherent_of_ofBytes? {a : Addr} {bytes : List Byte} {i : Instruction}
    (h : ofBytes? a bytes = some i) : i.Coherent ∧ i.address = a := by
  cases bytes with
  | nil => cases h
  | cons b rest =>
    by_cases hcomplete : Complete b rest
    · rw [ofBytes?_of_complete hcomplete, Option.some.injEq] at h
      subst h
      refine ⟨coherent_listed ?_, address_listed⟩
      rw [listed, if_pos hcomplete]
      exact (OpcodeEntry.legal_iff _).mp hcomplete.1
    · rw [ofBytes?_of_not_complete hcomplete] at h
      cases h

theorem coherent_fetch {M : Type} [Bus M] (bus : M) (a : Addr)
    (h : (opcodeEntry (Bus.read bus a).1).legal) :
    (fetch bus a).1.Coherent ∧ (fetch bus a).1.address = a := by
  refine ⟨?_, address_fetch bus a⟩
  have hparts := coherent_ofParts a h (Bus.length_bytesAt (Bus.read bus a).2 (a + 1) _)
  rw [fetch_eq]
  refine { hparts with target := fun hrelative => ?_ }
  change (opcodeEntry (Bus.read bus a).1).mode = .relative at hrelative
  -- only an indirect jump has a target that its bytes do not tell
  have hdirect := target_fetch bus a (by rw [hrelative]; decide)
  exact hdirect.trans (hparts.target hrelative)

/-- A documented instruction at `a`, decoded from some bytes or from some memory. -/
inductive DecodedAt (a : Addr) : Instruction → Prop where
  | ofBytes {bytes : List Byte} {i : Instruction} (h : ofBytes? a bytes = some i) : DecodedAt a i
  | ofMemory {M : Type} [Bus M] (bus : M) (h : (opcodeEntry (Bus.read bus a).1).legal) :
    DecodedAt a (fetch bus a).1

theorem DecodedAt.coherent {a : Addr} {i : Instruction} (h : DecodedAt a i) :
    i.Coherent ∧ i.address = a := by
  cases h with
  | ofBytes h => exact coherent_of_ofBytes? h
  | ofMemory bus h => exact coherent_fetch bus a h

end Instruction

open Instruction

/-! ## Listings -/

/-- Listings without unknown entries that read alike are listings of the same bytes. -/
theorem bytes_eq_of_texts {bs cs : List Byte} {a : Addr}
    (hbs : ∀ i ∈ disassemble bs a, i.operation ≠ .illegal)
    (hcs : ∀ i ∈ disassemble cs a, i.operation ≠ .illegal)
    (h : (disassemble bs a).map text = (disassemble cs a).map text) : bs = cs := by
  induction bs, a using listing_induction generalizing cs with
  | nil a =>
    cases cs with
    | nil => rfl
    | cons c cs =>
      rw [disassemble_cons] at h
      simp at h
  | cons b bs a ih =>
    cases cs with
    | nil =>
      rw [disassemble_cons] at h
      simp at h
    | cons c cs =>
      rw [disassemble_cons, List.forall_mem_cons] at hbs hcs
      rw [disassemble_cons, disassemble_cons, List.map_cons, List.map_cons,
        List.cons.injEq] at h
      have hfirst : (listed a b bs).bytes = (listed a c cs).bytes :=
        (coherent_listed hbs.1).bytes_eq_of_text (coherent_listed hcs.1)
          (address_listed.trans address_listed.symm) h.1
      -- entries of the same bytes are equally long, so the next ones begin at one address
      have hsize : (listed a b bs).size = (listed a c cs).size := by rw [size, size, hfirst]
      rw [← hsize, ← hfirst] at hcs h
      have hrest := ih hbs.2 hcs.2 h.2
      calc b :: bs
          = (listed a b bs).bytes ++ (b :: bs).drop (listed a b bs).bytes.length :=
            (bytes_listed_append b bs a).symm
        _ = (listed a c cs).bytes ++ (c :: cs).drop (listed a c cs).bytes.length := by
            rw [hrest, hfirst]
        _ = c :: cs := bytes_listed_append c cs a

/-- Assembly text determines the code.  Two runs of bytes that are listed at one
    address without an unknown entry, and with the same texts, are the same; and
    two documented instructions decoded at one address, from bytes or from
    memory, have opcode and operand in common if they have the text. -/
theorem text_determines_code (a : Addr) :
    (∀ bs cs, (∀ i ∈ disassemble bs a, i.operation ≠ .illegal) →
      (∀ i ∈ disassemble cs a, i.operation ≠ .illegal) →
      (disassemble bs a).map text = (disassemble cs a).map text → bs = cs) ∧
    ∀ i j, DecodedAt a i → DecodedAt a j → i.text = j.text →
      i.opcode = j.opcode ∧ i.operand = j.operand := by
  refine ⟨fun bs cs hbs hcs h => bytes_eq_of_texts hbs hcs h, fun i j hi hj h => ?_⟩
  obtain ⟨hi, hia⟩ := hi.coherent
  obtain ⟨hj, hja⟩ := hj.coherent
  have hbytes := hi.bytes_eq_of_text hj (hia.trans hja.symm) h
  rw [hi.bytes, hj.bytes] at hbytes
  exact List.cons.inj hbytes

/-- A branch down from the beginning of the address space, and behind it one
    operand in page zero and as a full address: the two listings read apart. -/
theorem texts_of_short_and_full_address :
    let short : List Byte := [0xF0, 0x80, 0xA5, 0x10]
    let full : List Byte := [0xF0, 0x80, 0xAD, 0x10, 0x00]
    (∀ i ∈ disassemble short 0, i.operation ≠ .illegal) ∧
      (∀ i ∈ disassemble full 0, i.operation ≠ .illegal) ∧
      (disassemble short 0).map text ≠ (disassemble full 0).map text := by
  intro short full
  have hshort : ∀ i ∈ disassemble short 0, i.operation ≠ .illegal := by decide +kernel
  have hfull : ∀ i ∈ disassemble full 0, i.operation ≠ .illegal := by decide +kernel
  refine ⟨hshort, hfull, fun h => ?_⟩
  have heq := (text_determines_code 0).1 short full hshort hfull h
  exact absurd heq (by decide)

end Nmos6502
