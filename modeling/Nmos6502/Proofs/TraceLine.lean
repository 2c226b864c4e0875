/-
  The columns of a trace line.

  No instruction reads longer than its space in the line, so the registers begin
  at the same column in every line.  The address, the bytes and the registers
  stand in columns of fixed width, and each can be read back: two digits are
  never the blanks of a missing byte, and a letter is never the blank of a clear
  flag.  So two lines that are alike show the same registers and the same bytes.
  How the instruction reads adds nothing to that.
-/
import Nmos6502.FrontPanel
import Nmos6502.Proofs.AssemblyText
import Nmos6502.Proofs.MemoryListing
import Nmos6502.Proofs.Tracing

namespace Nmos6502

/-! ## Digits in front of other text -/

namespace Hex

theorem byte_append_inj {b c : Byte} {s t : List Char} (h : byte b ++ s = byte c ++ t) :
    b = c ∧ s = t := by
  obtain ⟨hdigits, hrest⟩ := List.append_inj h rfl
  exact ⟨byte_injective hdigits, hrest⟩

theorem addr_append_inj {a b : Addr} {s t : List Char} (h : addr a ++ s = addr b ++ t) :
    a = b ∧ s = t := by
  obtain ⟨hdigits, hrest⟩ := List.append_inj h rfl
  exact ⟨addr_injective hdigits, hrest⟩

theorem digit_ne_blank : ∀ n, digit n ≠ ' ' := by
  decide

end Hex

/-! ## The registers -/

namespace Status

theorem letter_injective {s t : Bool} {c : Char} (hc : c ≠ ' ') (h : letter s c = letter t c) :
    s = t := by
  cases s <;> cases t
  · rfl
  · exact absurd h.symm hc
  · exact absurd h hc
  · rfl

theorem length_text (p : Status) : p.text.length = 8 := by
  rw [← String.length_toList, text, String.toList_ofList]
  rfl

theorem text_injective {p q : Status} (h : p.text = q.text) : p = q := by
  have hletters := String.ofList_injective h
  simp only [List.cons.injEq, and_true, true_and] at hletters
  obtain ⟨hn, hv, hb, hd, hi, hz, hc⟩ := hletters
  obtain ⟨n, v, b, d, i, z, c⟩ := p
  obtain ⟨n', v', b', d', i', z', c'⟩ := q
  rw [Status.mk.injEq]
  exact ⟨letter_injective (by decide) hn, letter_injective (by decide) hv,
    letter_injective (by decide) hb, letter_injective (by decide) hd,
    letter_injective (by decide) hi, letter_injective (by decide) hz,
    letter_injective (by decide) hc⟩

end Status

namespace Registers

theorem toList_text (r : Registers) :
    r.text.toList = ['A', ':'] ++ (Hex.byte r.a ++ ([' ', 'X', ':'] ++ (Hex.byte r.x ++
      ([' ', 'Y', ':'] ++ (Hex.byte r.y ++ ([' ', 'S', ':'] ++ (Hex.byte r.s ++
        ([' ', 'P', ':'] ++ r.p.text.toList)))))))) := by
  simp [text, Hex.ofByte]

theorem length_text (r : Registers) : r.text.length = 30 := by
  have hflags : r.p.text.toList.length = 8 := by rw [String.length_toList, Status.length_text]
  rw [← String.length_toList, toList_text]
  simp only [List.length_append, List.length_cons, List.length_nil, Hex.length_byte, hflags]

/-- The program counter and the cycles are not shown, everything else is. -/
theorem eq_of_text {r q : Registers} (h : r.text = q.text) (hpc : r.pc = q.pc) :
    r = { q with cycles := r.cycles } := by
  have hchars := congrArg String.toList h
  rw [toList_text, toList_text] at hchars
  obtain ⟨ha, hchars⟩ := Hex.byte_append_inj (List.append_cancel_left hchars)
  obtain ⟨hx, hchars⟩ := Hex.byte_append_inj (List.append_cancel_left hchars)
  obtain ⟨hy, hchars⟩ := Hex.byte_append_inj (List.append_cancel_left hchars)
  obtain ⟨hs, hchars⟩ := Hex.byte_append_inj (List.append_cancel_left hchars)
  have hp := Status.text_injective (String.toList_inj.mp (List.append_cancel_left hchars))
  obtain ⟨a, x, y, s, pc, p, cycles⟩ := r
  exact (Registers.mk.injEq ..).mpr ⟨ha, hx, hy, hs, hpc, hp, rfl⟩

end Registers

namespace Instruction

/-! ## The byte columns -/

/-- What stands in a byte column. -/
def cell : Option Byte → List Char
  | some b => Hex.byte b ++ [' ']
  | none => [' ', ' ', ' ']

@[simp] theorem length_cell (b? : Option Byte) : (cell b?).length = 3 := by
  cases b? with
  | none => rfl
  | some b => rfl

/-- A missing byte does not look like any byte. -/
theorem cell_injective {b? c? : Option Byte} (h : cell b? = cell c?) : b? = c? := by
  cases b? with
  | none =>
    cases c? with
    | none => rfl
    | some c => exact absurd (List.cons.inj h).1.symm (Hex.digit_ne_blank _)
  | some b =>
    cases c? with
    | none => exact absurd (List.cons.inj h).1 (Hex.digit_ne_blank _)
    | some c => rw [(Hex.byte_append_inj h).1]

theorem cell_append_inj {b? c? : Option Byte} {s t : List Char} (h : cell b? ++ s = cell c? ++ t) :
    b? = c? ∧ s = t := by
  obtain ⟨hcell, hrest⟩ := List.append_inj h (by rw [length_cell, length_cell])
  exact ⟨cell_injective hcell, hrest⟩

theorem toList_column (i : Instruction) (k : Nat) : (i.column k).toList = cell i.bytes[k]? := by
  unfold column
  cases i.bytes[k]? with
  | none => rfl
  | some b => simp [cell, Hex.ofByte]

theorem toList_line (i : Instruction) :
    i.line.toList = Hex.addr i.address ++ ([' '] ++ (cell i.bytes[0]? ++ (cell i.bytes[1]? ++
      (cell i.bytes[2]? ++ i.text.toList)))) := by
  simp [line, Hex.ofAddr, toList_column]

/-- No instruction has more bytes than there are columns. -/
theorem bytes_eq_of_cells {i j : Instruction} (hi : i.bytes.length ≤ 3) (hj : j.bytes.length ≤ 3)
    (h : ∀ k < 3, i.bytes[k]? = j.bytes[k]?) : i.bytes = j.bytes := by
  apply List.ext_getElem?
  intro k
  by_cases hk : k < 3
  · exact h k hk
  · rw [List.getElem?_eq_none (by omega), List.getElem?_eq_none (by omega)]

/-! ## The space for the text -/

theorem length_shape_le (m : Mode) : m.shape.length ≤ 7 := by
  cases m <;> decide

theorem length_operandText_le (i : Instruction) : i.operandText.length ≤ 7 := by
  by_cases hillegal : i.operation = .illegal
  · rw [operandText, if_pos hillegal]
    decide
  · have hlength := congrArg List.length (map_blot_operandText hillegal)
    rw [List.length_map, String.length_toList] at hlength
    rw [hlength]
    exact length_shape_le i.mode

theorem length_text_le {i : Instruction} (h : i.mnemonic.length = 3) : i.text.length ≤ 11 := by
  have hspaced : (spaced i.operandText).length ≤ 8 := by
    unfold spaced
    split
    · exact Nat.zero_le _
    · rw [List.length_cons, String.length_toList]
      exact Nat.succ_le_succ i.length_operandText_le
  rw [← String.length_toList, toList_text, List.length_append, String.length_toList, h]
  omega

theorem length_line_le {i : Instruction} (h : i.mnemonic.length = 3) : i.line.length ≤ 25 := by
  have htext := length_text_le h
  rw [← String.length_toList] at htext
  rw [← String.length_toList, toList_line]
  simp only [List.length_append, List.length_singleton, Hex.length_addr, length_cell]
  omega

end Instruction

/-! ## The trace line -/

theorem toList_padRight (width : Nat) (s : String) :
    (padRight width s).toList = s.toList ++ List.replicate (width - s.length) ' ' := by
  simp [padRight]

theorem toList_traceLine (i : Instruction) (r : Registers) :
    (traceLine i r).toList = (padRight 30 i.line).toList ++ r.text.toList :=
  String.toList_append

section

variable {i j : Instruction} {r q : Registers} (hi : i.mnemonic.length = 3)
include hi

theorem length_line_padded : (padRight 30 i.line).toList.length = 30 := by
  have hline := Instruction.length_line_le hi
  rw [toList_padRight, List.length_append, List.length_replicate, String.length_toList]
  omega

theorem length_traceLine (r : Registers) : (traceLine i r).length = 60 := by
  rw [← String.length_toList, toList_traceLine, List.length_append, length_line_padded hi,
    String.length_toList, Registers.length_text]

theorem drop_traceLine (r : Registers) : (traceLine i r).toList.drop 30 = r.text.toList := by
  rw [toList_traceLine, List.drop_left' (length_line_padded hi)]

variable (hj : j.mnemonic.length = 3)
include hj

/-- A trace line shows the address and the first three bytes. -/
theorem cells_eq_of_traceLine (h : traceLine i r = traceLine j q) :
    i.address = j.address ∧ ∀ k < 3, i.bytes[k]? = j.bytes[k]? := by
  have hchars := congrArg String.toList h
  rw [toList_traceLine, toList_traceLine] at hchars
  -- both lines are filled up to the same width, so they end together
  obtain ⟨hlines, -⟩ := List.append_inj hchars
    ((length_line_padded hi).trans (length_line_padded hj).symm)
  rw [toList_padRight, toList_padRight, Instruction.toList_line, Instruction.toList_line] at hlines
  simp only [List.append_assoc] at hlines
  obtain ⟨haddress, hlines⟩ := Hex.addr_append_inj hlines
  obtain ⟨hfirst, hlines⟩ := Instruction.cell_append_inj (List.append_cancel_left hlines)
  obtain ⟨hsecond, hlines⟩ := Instruction.cell_append_inj hlines
  obtain ⟨hthird, -⟩ := Instruction.cell_append_inj hlines
  refine ⟨haddress, fun k hk => ?_⟩
  match k, hk with
  | 0, _ => exact hfirst
  | 1, _ => exact hsecond
  | 2, _ => exact hthird

/-- A trace line shows the registers. -/
theorem text_eq_of_traceLine (h : traceLine i r = traceLine j q) : r.text = q.text := by
  have hchars := congrArg (fun s => s.toList.drop 30) h
  rw [drop_traceLine hi, drop_traceLine hj] at hchars
  exact String.toList_inj.mp hchars

end

/-! ## The instruction in memory -/

namespace Flat

variable {m n : Flat} {a : Addr}

theorem bytes_fetch (m : Flat) (a : Addr) :
    (Instruction.fetch m a).1.bytes = (Bus.bytesAt m a (opcodeEntry (m.get a)).size).1 := by
  rw [Instruction.bytes_fetch, OpcodeEntry.size, Nat.add_comm, bytesAt_succ]
  rfl

theorem get_eq_of_bytesAt_eq {size k : Nat}
    (h : (Bus.bytesAt m a size).1 = (Bus.bytesAt n a size).1) (hk : k < size) :
    m.get (a + BitVec.ofNat 16 k) = n.get (a + BitVec.ofNat 16 k) := by
  obtain ⟨rest, hrest⟩ := Nat.exists_eq_add_one.mpr (Nat.sub_pos_of_lt hk)
  have hdrop := congrArg (List.drop k) h
  rw [drop_bytesAt, drop_bytesAt, hrest, bytesAt_succ, bytesAt_succ] at hdrop
  exact (List.cons.inj hdrop).1

/-- The bytes of a decoded instruction are all that belongs to it in memory. -/
theorem get_eq_of_bytes_fetch_eq
    (h : (Instruction.fetch m a).1.bytes = (Instruction.fetch n a).1.bytes) {k : Nat}
    (hk : k < (opcodeEntry (m.get a)).size) :
    m.get (a + BitVec.ofNat 16 k) = n.get (a + BitVec.ofNat 16 k) := by
  rw [bytes_fetch, bytes_fetch] at h
  have hsize := congrArg List.length h
  rw [Bus.length_bytesAt, Bus.length_bytesAt] at hsize
  rw [← hsize] at h
  exact get_eq_of_bytesAt_eq h hk

end Flat

namespace Instruction

variable {M : Type} [Bus M]

theorem length_mnemonic_fetch (bus : M) (a : Addr) : (fetch bus a).1.mnemonic.length = 3 := by
  rw [mnemonic_fetch, Operation.length_mnemonic]

theorem length_bytes_fetch_le (bus : M) (a : Addr) : (fetch bus a).1.bytes.length ≤ 3 := by
  have hoperand := Mode.operandLength_le (opcodeEntry (Bus.read bus a).1).mode
  rw [bytes_fetch, List.length_cons, Bus.length_bytesAt]
  omega

end Instruction

namespace Machine

/-- The trace line of the instruction at the program counter. -/
def traceText {M S : Type} [Bus M] (m : Machine M S) : String :=
  let (i, m) := m.nextInstruction
  traceLine i m.regs

theorem traceText_flat {S : Type} (m : Machine Flat S) :
    m.traceText = traceLine (Instruction.fetch m.bus m.regs.pc).1 m.regs := by
  rw [traceText, nextInstruction_eq Flat.quiet trivial]

/-- A run reports this line. -/
theorem message_traceEvent {S : Type} (m : Machine Flat S) : m.traceEvent.message = m.traceText :=
  m.traceText_flat.symm

/-- The front panel shows this line, and to show it changes nothing. -/
theorem traceLine_panel (f : FrontPanel) : f.traceLine = (f.machine.traceText, f) := by
  rw [traceText, FrontPanel.traceLine, FrontPanel.askMachine,
    nextInstruction_eq Flat.quiet trivial]

/-- A trace line has sixty characters, whatever the registers and the memory, and
    the registers are shown from column thirty on.  It tells all that concerns the
    next instruction: machines with the same trace line differ in their registers
    by the cycles at most, and have the same bytes of that instruction in memory. -/
theorem trace_line_loses_nothing {S : Type} (m : Machine Flat S) :
    m.traceText.length = 60 ∧ m.traceText.toList.drop 30 = m.regs.text.toList ∧
    ∀ {S' : Type} (n : Machine Flat S'), m.traceText = n.traceText →
      m.regs = { n.regs with cycles := m.regs.cycles } ∧
      m.nextInstruction.1.bytes = n.nextInstruction.1.bytes ∧
      ∀ k < (opcodeEntry (m.bus.get m.regs.pc)).size,
        m.bus.get (m.regs.pc + BitVec.ofNat 16 k) = n.bus.get (n.regs.pc + BitVec.ofNat 16 k) := by
  have hmnemonic := Instruction.length_mnemonic_fetch m.bus m.regs.pc
  refine ⟨?_, ?_, fun n h => ?_⟩
  · rw [traceText_flat, length_traceLine hmnemonic]
  · rw [traceText_flat, drop_traceLine hmnemonic]
  · have hmnemonic' := Instruction.length_mnemonic_fetch n.bus n.regs.pc
    rw [traceText_flat, traceText_flat] at h
    obtain ⟨hpc, hcells⟩ := cells_eq_of_traceLine hmnemonic hmnemonic' h
    rw [Instruction.address_fetch, Instruction.address_fetch] at hpc
    have hbytes := Instruction.bytes_eq_of_cells (Instruction.length_bytes_fetch_le _ _)
      (Instruction.length_bytes_fetch_le _ _) hcells
    have htext := text_eq_of_traceLine hmnemonic hmnemonic' h
    refine ⟨Registers.eq_of_text htext hpc, ?_, fun k hk => ?_⟩
    · rw [nextInstruction_eq Flat.quiet trivial, nextInstruction_eq Flat.quiet trivial]
      exact hbytes
    · rw [← hpc] at hbytes ⊢
      exact Flat.get_eq_of_bytes_fetch_eq hbytes hk

/-- A jump through a pointer that leads to different places, the same line for
    both: where it leads does not belong to the instruction in memory. -/
theorem trace_line_of_jump_through_pointer :
    let m : Machine Flat Unit := .powerOn (Flat.zero.load 0 [0x6C, 0x10, 0x00]) ()
    let n := m.write 0x0010 0x80
    m.nextInstruction.1.target ≠ n.nextInstruction.1.target ∧ m.traceText = n.traceText ∧
      m.traceText.length = 60 ∧ m.nextInstruction.1.bytes = n.nextInstruction.1.bytes ∧
      m.regs = { n.regs with cycles := m.regs.cycles } := by
  intro m n
  have hline : m.traceText = n.traceText := by decide +kernel
  obtain ⟨hlength, -, hfaithful⟩ := trace_line_loses_nothing m
  obtain ⟨hregs, hbytes, -⟩ := hfaithful n hline
  exact ⟨by decide +kernel, hline, hlength, hbytes, hregs⟩

end Machine

end Nmos6502
