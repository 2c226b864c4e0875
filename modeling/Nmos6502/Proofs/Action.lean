/-
  The shapes of the operations.

  Fifty-six operations do only a dozen kinds of things: most read their operand
  into the registers, replace it, or change the registers alone.  `Action` names
  the kinds, `Operation.action` says which one an operation is, and
  `perform_eq_act` that performing the operation is taking its action.  A fact
  about all operations then takes a proof for each kind.
-/
import Nmos6502.Proofs.Processor
import Nmos6502.Processor.Step

namespace Nmos6502

/-- What an operation does with its operand and the registers. -/
inductive Action where
  /-- Reads the operand and lets the registers take it in. -/
  | consume (f : Registers → Byte → Registers)
  | store (f : Registers → Byte)
  /-- Replaces the operand, which may be the accumulator. -/
  | modify (f : Registers → Byte → Byte × Registers)
  | update (f : Registers → Registers)
  /-- Goes to the operand address if the flags say so. -/
  | branch (condition : Status → Bool)
  | jump
  | call
  | leave
  | leaveHandler
  | softwareInterrupt
  | push (f : Registers → Byte)
  /-- Pulls a byte and lets the registers take it in. -/
  | pull (f : Registers → Byte → Registers)

def Operation.action : Operation → Action
  | .lda => .consume (·.load .a ·)
  | .ldx => .consume (·.load .x ·)
  | .ldy => .consume (·.load .y ·)
  | .sta => .store (·.a)
  | .stx => .store (·.x)
  | .sty => .store (·.y)
  | .adc => .consume .add
  | .sbc => .consume .sub
  | .and => .consume fun r m => r.load .a (r.a &&& m)
  | .ora => .consume fun r m => r.load .a (r.a ||| m)
  | .eor => .consume fun r m => r.load .a (r.a ^^^ m)
  | .bit => .consume .testBits
  | .cmp => .consume (·.compare .a ·)
  | .cpx => .consume (·.compare .x ·)
  | .cpy => .consume (·.compare .y ·)
  | .asl => .modify Registers.shiftLeft
  | .lsr => .modify Registers.shiftRight
  | .rol => .modify Registers.rotateLeft
  | .ror => .modify Registers.rotateRight
  | .inc => .modify (Registers.bump 1)
  | .dec => .modify (Registers.bump (-1))
  | .inx => .update (·.adjust .x 1)
  | .iny => .update (·.adjust .y 1)
  | .dex => .update (·.adjust .x (-1))
  | .dey => .update (·.adjust .y (-1))
  | .bcc => .branch (!·.c)
  | .bcs => .branch (·.c)
  | .bne => .branch (!·.z)
  | .beq => .branch (·.z)
  | .bpl => .branch (!·.n)
  | .bmi => .branch (·.n)
  | .bvc => .branch (!·.v)
  | .bvs => .branch (·.v)
  | .jmp => .jump
  | .jsr => .call
  | .rts => .leave
  | .rti => .leaveHandler
  | .brk => .softwareInterrupt
  | .nop => .update id
  | .pha => .push (·.a)
  | .php => .push fun r => { r.p with b := true }.pack
  | .pla => .pull (·.load .a ·)
  | .plp => .pull fun r m => { r with p := .unpack m }
  | .clc => .update fun r => { r with p := { r.p with c := false } }
  | .sec => .update fun r => { r with p := { r.p with c := true } }
  | .cli => .update fun r => { r with p := { r.p with i := false } }
  | .sei => .update fun r => { r with p := { r.p with i := true } }
  | .cld => .update fun r => { r with p := { r.p with d := false } }
  | .sed => .update fun r => { r with p := { r.p with d := true } }
  | .clv => .update fun r => { r with p := { r.p with v := false } }
  | .tax => .update fun r => r.load .x r.a
  | .tay => .update fun r => r.load .y r.a
  | .txa => .update fun r => r.load .a r.x
  | .tya => .update fun r => r.load .a r.y
  | .tsx => .update fun r => r.load .x r.s
  | .txs => .update fun r => { r with s := r.x }
  | .illegal => .update id

namespace Processor

variable {M : Type} [Bus M]

def act (p : Processor M) (mode : Mode) (ea : Addr) : Action → Processor M
  | .consume f => p.consume ea f
  | .store f => p.write ea (f p.regs)
  | .modify f => p.modify mode ea f
  | .update f => p.update f
  | .branch condition => p.branch (condition p.regs.p) ea
  | .jump => p.goto ea
  | .call => p.call ea
  | .leave => p.leave
  | .leaveHandler => p.leaveHandler
  | .softwareInterrupt => p.softwareInterrupt
  | .push f => p.push (f p.regs)
  | .pull f => p.pull.2.update (f · p.pull.1)

theorem perform_eq_act (p : Processor M) (mode : Mode) (ea : Addr) (o : Operation) :
    p.perform mode ea o = p.act mode ea o.action := by
  cases o <;> rfl

/-! ## Families of operations -/

theorem consume_eq (p : Processor M) (ea : Addr) (f : Registers → Byte → Registers) :
    p.consume ea f = ⟨f p.regs (Bus.read p.bus ea).1, (Bus.read p.bus ea).2⟩ := rfl

theorem modify_accumulator (p : Processor M) (ea : Addr)
    (f : Registers → Byte → Byte × Registers) :
    p.modify .accumulator ea f =
      ⟨{ (f p.regs p.regs.a).2 with a := (f p.regs p.regs.a).1 }, p.bus⟩ := rfl

theorem modify_cell (p : Processor M) {mode : Mode} (h : mode ≠ .accumulator) (ea : Addr)
    (f : Registers → Byte → Byte × Registers) :
    p.modify mode ea f =
      ⟨(f p.regs (Bus.read p.bus ea).1).2,
        Bus.write (Bus.read p.bus ea).2 ea (f p.regs (Bus.read p.bus ea).1).1⟩ := by
  unfold modify
  exact if_neg h

/-- A part of the registers that the function keeps is kept, unless the
    accumulator is replaced and the part shows it. -/
theorem part_modify {α : Type} (part : Registers → α) (p : Processor M) (mode : Mode) (ea : Addr)
    {f : Registers → Byte → Byte × Registers} (hf : ∀ r m, part (f r m).2 = part r)
    (ha : mode = .accumulator → ∀ r v, part { r with a := v } = part r) :
    part (p.modify mode ea f).regs = part p.regs := by
  by_cases h : mode = .accumulator
  · rw [h, modify_accumulator]
    exact (ha h _ _).trans (hf _ _)
  · rw [modify_cell p h]
    exact hf _ _

omit [Bus M] in
theorem regs_branch (p : Processor M) (c : Bool) (a : Addr) :
    (p.branch c a).regs = { p.regs with pc := if c then a else p.regs.pc } := by
  cases c with
  | true => rfl
  | false => rfl

omit [Bus M] in
theorem bus_branch (p : Processor M) (c : Bool) (a : Addr) : (p.branch c a).bus = p.bus := by
  cases c with
  | true => rfl
  | false => rfl

end Processor

end Nmos6502
