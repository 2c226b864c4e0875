/-
  The stack as a list.

  Bytes put on the stack and taken from it form a list that is used at its head,
  as long as no more are taken than have been put there and a page holds them
  all.  `Flat.Stacked` reads that list upward from the pointer, around the end
  of the page if it comes to that.  It does not say where the list ends, so a
  full page is a list like any other: the pointer stands where it would stand
  for an empty one, and the next byte to be taken lies above it.
-/
import Nmos6502.Proofs.BreakFlag
import Nmos6502.Proofs.Handler

namespace Nmos6502

/-! ## Uses of a stack -/

/-- What can be done to a stack from outside. -/
inductive StackUse where
  | push (b : Byte)
  | pop
deriving DecidableEq

namespace StackUse

def demand : StackUse → Demand
  | .push b => .request (.push b)
  | .pop => .request .pop

/-- By how many bytes the stack grows. -/
def growth : StackUse → Int
  | .push _ => 1
  | .pop => -1

/-- How many more bytes are put down than are taken. -/
def level : List StackUse → Int
  | [] => 0
  | u :: us => u.growth + level us

/-- From `d` bytes on, no more are ever taken than there are, and no more than 256
    ever lie there. -/
def Fit (d : Int) (us : List StackUse) : Prop :=
  ∀ front, front <+: us → 0 ≤ d + level front ∧ d + level front ≤ 256

/-- A list that is used at its head gives these replies and becomes the last list. -/
inductive Lifo : List Byte → List StackUse → List Reply → List Byte → Prop
  | nil {bs : List Byte} : Lifo bs [] [] bs
  | push {b : Byte} {bs bs' : List Byte} {us : List StackUse} {rs : List Reply}
      (rest : Lifo (b :: bs) us rs bs') : Lifo bs (.push b :: us) (.done :: rs) bs'
  | pop {b : Byte} {bs bs' : List Byte} {us : List StackUse} {rs : List Reply}
      (rest : Lifo bs us rs bs') : Lifo (b :: bs) (.pop :: us) (.byte b :: rs) bs'

/-- Every byte that is put down is taken again, and no other is taken: what can
    stand between a byte put down and the use that takes it. -/
inductive Nested : List StackUse → Prop
  | nil : Nested []
  | pair {b : Byte} {us vs : List StackUse} (inner : Nested us) (rest : Nested vs) :
      Nested (.push b :: (us ++ .pop :: vs))

/-! ## Sequences that fit -/

@[simp] theorem level_nil : level [] = 0 := rfl

@[simp] theorem level_cons (u : StackUse) (us : List StackUse) :
    level (u :: us) = u.growth + level us := rfl

theorem Fit.front {d : Int} {us front : List StackUse} (h : Fit d us) (hfront : front <+: us) :
    Fit d front :=
  fun _ hpre => h _ (hpre.trans hfront)

theorem Fit.bounds {d : Int} {us : List StackUse} (h : Fit d us) : 0 ≤ d ∧ d ≤ 256 := by
  have hnil := h [] List.nil_prefix
  rw [level_nil, Int.add_zero] at hnil
  exact hnil

theorem fit_nil {d : Int} : Fit d [] ↔ 0 ≤ d ∧ d ≤ 256 := by
  refine ⟨Fit.bounds, fun hd front hfront => ?_⟩
  obtain rfl := List.prefix_nil.mp hfront
  rw [level_nil, Int.add_zero]
  exact hd

theorem fit_cons {d : Int} {u : StackUse} {us : List StackUse} :
    Fit d (u :: us) ↔ (0 ≤ d ∧ d ≤ 256) ∧ Fit (d + u.growth) us := by
  constructor
  · intro h
    refine ⟨h.bounds, fun front hfront => ?_⟩
    have hcons := h (u :: front) (List.cons_prefix_cons.mpr ⟨rfl, hfront⟩)
    rw [level_cons] at hcons
    omega
  · rintro ⟨hd, hrest⟩ front hfront
    rcases List.prefix_cons_iff.mp hfront with rfl | ⟨rest, rfl, hpre⟩
    · rw [level_nil, Int.add_zero]
      exact hd
    · have hlevel := hrest rest hpre
      rw [level_cons]
      omega

/-- Whether a sequence fits is found by going through it once. -/
instance decidableFit : (d : Int) → (us : List StackUse) → Decidable (Fit d us)
  | _, [] => decidable_of_iff _ fit_nil.symm
  | d, u :: us =>
    have := decidableFit (d + u.growth) us
    decidable_of_iff _ fit_cons.symm

/-- The pointer goes down where the stack grows. -/
theorem pointer_cons (s : Byte) (u : StackUse) (us : List StackUse) :
    s - BitVec.ofInt 8 u.growth - BitVec.ofInt 8 (level us) =
      s - BitVec.ofInt 8 (level (u :: us)) := by
  rw [level_cons, BitVec.ofInt_add]
  bv_omega

/-! ## The list between two uses -/

theorem Lifo.append {us vs : List StackUse} {bs bs' : List Byte} {rs : List Reply}
    (h : Lifo bs (us ++ vs) rs bs') :
    ∃ mid rs₁ rs₂, Lifo bs us rs₁ mid ∧ Lifo mid vs rs₂ bs' := by
  induction us generalizing bs rs with
  | nil => exact ⟨bs, [], rs, .nil, h⟩
  | cons u us ih =>
    cases h with
    | push rest =>
      obtain ⟨mid, rs₁, rs₂, hus, hvs⟩ := ih rest
      exact ⟨mid, _, rs₂, .push hus, hvs⟩
    | pop rest =>
      obtain ⟨mid, rs₁, rs₂, hus, hvs⟩ := ih rest
      exact ⟨mid, _, rs₂, .pop hus, hvs⟩

/-- Nested uses leave the list as they find it. -/
theorem Nested.eq_of_lifo {us : List StackUse} (h : Nested us) {bs bs' : List Byte}
    {rs : List Reply} (hlifo : Lifo bs us rs bs') : bs' = bs := by
  induction h generalizing bs bs' rs with
  | nil =>
    cases hlifo
    rfl
  | pair inner rest ihinner ihrest =>
    cases hlifo with
    | push hlifo =>
      obtain ⟨mid, rs₁, rs₂, hus, hvs⟩ := hlifo.append
      -- the byte put down first is on top again when it is taken
      obtain rfl := ihinner hus
      cases hvs with
      | pop hvs => exact ihrest hvs

theorem nested_replicate (n : Nat) (b : Byte) :
    Nested (List.replicate n (.push b) ++ List.replicate n .pop) := by
  induction n with
  | zero => exact .nil
  | succ n ih =>
    have hpair := Nested.pair (b := b) ih .nil
    rw [List.append_assoc, ← List.replicate_succ'] at hpair
    exact hpair

/-- A byte put down before nested uses is on top behind them. -/
theorem Lifo.top {front between : List StackUse} {b : Byte} {bs bs' : List Byte}
    {rs : List Reply} (h : Lifo bs (front ++ .push b :: between) rs bs')
    (hnested : Nested between) : ∃ rest, bs' = b :: rest := by
  obtain ⟨mid, rs₁, rs₂, -, hlast⟩ := h.append
  cases hlast with
  | push hbetween => exact ⟨mid, hnested.eq_of_lifo hbetween⟩

end StackUse

/-! ## The list in memory -/

namespace Flat

/-- The cells above the pointer `s` hold the bytes, the topmost first. -/
def Stacked (m : Flat) : Byte → List Byte → Prop
  | _, [] => True
  | s, b :: bs => m.get (stackCell (s + 1)) = b ∧ m.Stacked (s + 1) bs

/-- A cell further from the pointer than the list is long does not belong to it. -/
theorem Stacked.set {m : Flat} {s t : Byte} {bs : List Byte} (h : m.Stacked s bs)
    (ht : bs.length ≤ (t - (s + 1)).toNat) (v : Byte) :
    (m.set (stackCell t) v).Stacked s bs := by
  induction bs generalizing s with
  | nil => trivial
  | cons b bs ih =>
    obtain ⟨hb, hrest⟩ := h
    rw [List.length_cons] at ht
    have hne : t ≠ s + 1 := by
      rintro rfl
      rw [BitVec.sub_self] at ht
      exact Nat.not_succ_le_zero _ ht
    constructor
    · rw [get_set_of_ne _ _ (mt stackCell_inj.mp hne), hb]
    · refine ih hrest ?_
      bv_omega

/-- There is room for another byte while the page is not full. -/
theorem Stacked.push {m : Flat} {s : Byte} {bs : List Byte} (h : m.Stacked s bs)
    (hroom : bs.length < 256) (b : Byte) :
    (m.set (stackCell s) b).Stacked (s - 1) (b :: bs) := by
  have hs : s - 1 + 1 = s := BitVec.sub_add_cancel s 1
  have hdistance : (s - (s + 1)).toNat = 255 := by bv_omega
  refine ⟨?_, ?_⟩
  · rw [hs, get_set_self]
  · rw [hs]
    exact h.set (by omega) b

theorem get_set_stackCell (m : Flat) (s b : Byte) {a : Addr} (ha : highByte a ≠ 0x01) :
    (m.set (stackCell s) b).get a = m.get a := by
  apply get_set_of_ne
  rintro rfl
  exact ha (highByte_word s 0x01)

end Flat

/-! ## A machine that is asked to use its stack -/

namespace Machine

variable {S : Type}

/-- What sequences of uses do to a machine whose stack holds `bs`. -/
structure Stacks (m : Machine Flat S) (us : List StackUse) (bs : List Byte) (rs : List Reply)
    (m' : Machine Flat S) : Prop where
  list : ∃ bs', StackUse.Lifo bs us rs bs' ∧ m'.bus.Stacked m'.regs.s bs'
  regs : m'.regs = { m.regs with s := m.regs.s - BitVec.ofInt 8 (StackUse.level us) }
  outside : ∀ a, highByte a ≠ 0x01 → m'.bus.get a = m.bus.get a

/-- The induction is on the uses: each finds the list as those before it left it. -/
theorem stacks_serveAll {m : Machine Flat S} {us : List StackUse} {bs : List Byte}
    (h : m.bus.Stacked m.regs.s bs) (hfit : StackUse.Fit bs.length us) :
    m.Stacks us bs (m.serveAll (us.map (·.demand))).1 (m.serveAll (us.map (·.demand))).2 := by
  induction us generalizing m bs with
  | nil =>
    have hs : m.regs.s = m.regs.s - BitVec.ofInt 8 (StackUse.level []) :=
      (BitVec.sub_zero _).symm
    exact ⟨⟨bs, .nil, h⟩, congrArg (fun s => { m.regs with s }) hs, fun _ _ => rfl⟩
  | cons u us ih =>
    obtain ⟨-, hrest⟩ := StackUse.fit_cons.mp hfit
    have hs := StackUse.pointer_cons m.regs.s u us
    cases u with
    | push b =>
      let pushed := m.onCore (·.push b)
      -- the rest fits, so the page was not full
      have hroom : (bs.length : Int) + 1 ≤ 256 := hrest.bounds.2
      have hstacked : pushed.bus.Stacked pushed.regs.s (b :: bs) := h.push (by omega) b
      obtain ⟨⟨bs', hlifo, hbs'⟩, hregs, houtside⟩ := ih hstacked hrest
      refine ⟨⟨bs', .push hlifo, hbs'⟩, ?_, ?_⟩
      · exact hregs.trans (congrArg (fun s => { m.regs with s }) hs)
      · intro a ha
        exact (houtside a ha).trans (m.bus.get_set_stackCell m.regs.s b ha)
    | pop =>
      have hpos : 0 ≤ (bs.length : Int) + -1 := hrest.bounds.1
      cases bs with
      | nil => exact absurd hpos (by decide)
      | cons b bs =>
        obtain ⟨rfl, hbs⟩ := h
        let popped := (m.askCore (·.pull)).2
        have hstacked : popped.bus.Stacked popped.regs.s bs := hbs
        have hlength : (((m.bus.get (stackCell (m.regs.s + 1)) :: bs).length : Nat) : Int) +
            StackUse.pop.growth = bs.length := by
          show ((bs.length + 1 : Nat) : Int) + -1 = bs.length
          omega
        rw [hlength] at hrest
        obtain ⟨⟨bs', hlifo, hbs'⟩, hregs, houtside⟩ := ih hstacked hrest
        have hup : m.regs.s + 1 = m.regs.s - BitVec.ofInt 8 StackUse.pop.growth := by
          show m.regs.s + 1 = m.regs.s - 255
          bv_omega
        rw [← hup] at hs
        exact ⟨⟨bs', .pop hlifo, hbs'⟩,
          hregs.trans (congrArg (fun s => { m.regs with s }) hs), houtside⟩

/-- The stack is a list of at most 256 bytes.  Where no more bytes are taken than
    were put down, and never more than 256 lie there, it replies as a list does
    that is used at its head; so each byte taken is the one put down before the
    nested uses in front of it.  At every point the pointer stands below the start
    by as many places as bytes lie there, around the page, and nothing outside
    the page and no other register has changed. -/
theorem stack_is_bounded_list (m : Machine Flat S) {us : List StackUse}
    (h : StackUse.Fit 0 us) :
    (∃ bs, StackUse.Lifo [] us (m.serveAll (us.map (·.demand))).1 bs) ∧
    (∀ front, front <+: us →
      let m' := (m.serveAll (front.map (·.demand))).2
      m'.regs = { m.regs with s := m.regs.s - BitVec.ofInt 8 (StackUse.level front) } ∧
      ∀ a, highByte a ≠ 0x01 → m'.bus.get a = m.bus.get a) ∧
    (∀ front b between back, us = front ++ .push b :: (between ++ .pop :: back) →
      StackUse.Nested between →
      ((m.serveAll ((front ++ .push b :: between).map (·.demand))).2.serve (.request .pop)).1 =
        .byte b) := by
  have hempty : m.bus.Stacked m.regs.s [] := trivial
  have hstacks (vs : List StackUse) (hvs : vs <+: us) := m.stacks_serveAll hempty (h.front hvs)
  refine ⟨?_, ?_, ?_⟩
  · obtain ⟨bs, hlifo, -⟩ := (hstacks us (List.prefix_refl us)).list
    exact ⟨bs, hlifo⟩
  · intro front hfront
    exact ⟨(hstacks front hfront).regs, (hstacks front hfront).outside⟩
  · rintro front b between back rfl hnested
    have hfront : front ++ .push b :: between <+:
        front ++ .push b :: (between ++ .pop :: back) :=
      ⟨.pop :: back, by simp⟩
    obtain ⟨bs, hlifo, hstacked⟩ := (hstacks _ hfront).list
    obtain ⟨rest, rfl⟩ := hlifo.top hnested
    exact congrArg Reply.byte hstacked.1

/-- A page filled from its last cell on, around its end: the byte put down first is
    the last that is taken, and while the page is full the pointer stands as at
    the start. -/
theorem first_byte_of_full_page :
    let m : Machine Flat Unit := (Machine.powerOn .zero ()).update ({ · with s := 0x00 })
    let full : List StackUse := .push 0x22 :: List.replicate 255 (.push 0x11)
    let taken : List StackUse := List.replicate 255 .pop
    StackUse.Fit 0 (full ++ taken ++ [.pop]) ∧
      (m.serveAll (full.map (·.demand))).2.regs.s = 0x00 ∧
      ((m.serveAll ((full ++ taken).map (·.demand))).2.serve (.request .pop)).1 = .byte 0x22 := by
  intro m full taken
  have hfit : StackUse.Fit 0 (full ++ taken ++ [.pop]) := by decide +kernel
  obtain ⟨-, hpoints, htop⟩ := stack_is_bounded_list m hfit
  have hfull : full <+: full ++ taken ++ [.pop] := by
    rw [List.append_assoc]
    exact List.prefix_append _ _
  have hlevel : StackUse.level full = 256 := by decide +kernel
  refine ⟨hfit, ?_, ?_⟩
  · refine (congrArg (·.s) (hpoints full hfull).1).trans ?_
    rw [hlevel]
    show (0x00 : Byte) - BitVec.ofInt 8 256 = 0x00
    decide
  · have hsplit : full ++ taken ++ [.pop] =
        [] ++ .push 0x22 :: (List.replicate 255 (.push 0x11) ++ taken ++ .pop :: []) := by
      rfl
    exact htop [] 0x22 _ [] hsplit (StackUse.nested_replicate 255 0x11)

end Machine

end Nmos6502
