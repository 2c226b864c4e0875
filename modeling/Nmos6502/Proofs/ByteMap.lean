/-
  A routed address space is a plain map of bytes.

  Each device sees the accesses to its own window and no others, so what has
  become of a window can be told by following it alone through the history of
  the router.  A RAM followed through a history holds at each offset what was
  last written there, and a ROM holds what it held at first.  The order of the
  windows, by which the router searches them, does not show: routers with the
  same windows in different orders give the same answers for ever.
-/
import Nmos6502.Proofs.Routing
import Nmos6502.Proofs.Simulation

namespace Nmos6502

/-! ## What a history writes -/

namespace Router.Call

variable {D : Type}

/-- The byte that a call writes to an address, if it does. -/
def byteFor (a : Addr) : Call D → Option Byte
  | .write a' b => if a' = a then some b else none
  | _ => none

/-- The window that a call opens, if it does. -/
def opened : Call D → List (Window D)
  | .place base device => [⟨base, device⟩]
  | _ => []

end Router.Call

/-- The byte that a history writes last to an address. -/
def lastWritten {D : Type} (a : Addr) (calls : List (Router.Call D)) : Option Byte :=
  calls.reverse.findSome? (Router.Call.byteFor a)

theorem lastWritten_cons {D : Type} (a : Addr) (call : Router.Call D)
    (calls : List (Router.Call D)) :
    lastWritten a (call :: calls) = (lastWritten a calls).or (call.byteFor a) := by
  rw [lastWritten, List.reverse_cons, List.findSome?_append, List.findSome?_singleton]
  rfl

/-! ## One window in the history of a router -/

namespace Window

variable {D : Type} [Device D]

open Router (Call)

/-- What becomes of a window when its router does what is asked. -/
def follow (w : Window D) : Call D → Window D
  | .place _ _ => w
  | .read a => w.onRead a
  | .write a b => w.onWrite a b

/-- The call by which a device comes to stand in its window. -/
def placement (w : Window D) : Call D := .place w.base w.device

theorem covers_follow [SteadyDevice D] (w : Window D) (call : Call D) (a : Addr) :
    (w.follow call).covers a = w.covers a := by
  cases call with
  | place base device => rfl
  | read a' => exact covers_onRead w a' a
  | write a' b => exact covers_onWrite w a' b a

theorem covers_foldl_follow [SteadyDevice D] (w : Window D) (calls : List (Call D)) (a : Addr) :
    (calls.foldl follow w).covers a = w.covers a := by
  induction calls generalizing w with
  | nil => rfl
  | cons call calls ih => rw [List.foldl_cons, ih, covers_follow]

end Window

namespace Router

variable {D : Type} [Device D]

/-- Does all that is asked, and fails when a device cannot be placed. -/
def carryOutAll (r : Router D) : List (Call D) → Except Overlap (Router D)
  | [] => .ok r
  | call :: calls =>
    match r.carryOut call with
    | (.ok _, r) => r.carryOutAll calls
    | (.error o, _) => .error o

theorem carryOutAll_cons_of_ok {r mid : Router D} {call : Call D}
    (h : r.carryOut call = (.ok (), mid)) (calls : List (Call D)) :
    r.carryOutAll (call :: calls) = mid.carryOutAll calls := by
  rw [carryOutAll, h]

theorem carryOutAll_cons {r r' : Router D} {call : Call D} {calls : List (Call D)}
    (h : r.carryOutAll (call :: calls) = .ok r') :
    ∃ mid, r.carryOut call = (.ok (), mid) ∧ mid.carryOutAll calls = .ok r' := by
  rcases hcall : r.carryOut call with ⟨o | _, mid⟩
  · rw [carryOutAll, hcall] at h
    cases h
  · rw [carryOutAll_cons_of_ok hcall] at h
    exact ⟨mid, rfl, h⟩

theorem carryOutAll_append {r r' : Router D} {calls calls' : List (Call D)}
    (h : r.carryOutAll (calls ++ calls') = .ok r') :
    ∃ mid, r.carryOutAll calls = .ok mid ∧ mid.carryOutAll calls' = .ok r' := by
  induction calls generalizing r with
  | nil => exact ⟨r, rfl, h⟩
  | cons call calls ih =>
    obtain ⟨next, hcall, hrest⟩ := carryOutAll_cons h
    obtain ⟨mid, hmid, hlast⟩ := ih hrest
    refine ⟨mid, ?_, hlast⟩
    rw [carryOutAll_cons_of_ok hcall]
    exact hmid

/-- A call changes each window by itself and may open one behind them. -/
theorem Tidy.windows_carryOut {r r' : Router D} (h : r.Tidy) {call : Call D}
    (hcall : r.carryOut call = (.ok (), r')) :
    r'.windows = r.windows.map (·.follow call) ++ call.opened := by
  cases call with
  | place base device =>
    have hfollow : (fun w : Window D => w.follow (.place base device)) = id := rfl
    rw [(place_eq_ok hcall).1, hfollow, List.map_id]
    rfl
  | read a =>
    cases hcall
    rw [h.windows_read]
    exact (List.append_nil _).symm
  | write a b =>
    cases hcall
    rw [h.windows_write]
    exact (List.append_nil _).symm

variable [SteadyDevice D]

theorem Tidy.carryOutAll {r r' : Router D} (h : r.Tidy) {calls : List (Call D)}
    (hcalls : r.carryOutAll calls = .ok r') : r'.Tidy := by
  induction calls generalizing r with
  | nil =>
    cases hcalls
    exact h
  | cons call calls ih =>
    obtain ⟨mid, hcall, hrest⟩ := carryOutAll_cons hcalls
    exact ih (h.carryOut hcall) hrest

/-- A window is found again at the end of a history, followed through it. -/
theorem Tidy.mem_windows_carryOutAll {r r' : Router D} (h : r.Tidy) {calls : List (Call D)}
    (hcalls : r.carryOutAll calls = .ok r') {w : Window D} (hw : w ∈ r.windows) :
    calls.foldl Window.follow w ∈ r'.windows := by
  induction calls generalizing r w with
  | nil =>
    cases hcalls
    exact hw
  | cons call calls ih =>
    obtain ⟨mid, hcall, hrest⟩ := carryOutAll_cons hcalls
    refine ih (h.carryOut hcall) hrest ?_
    rw [h.windows_carryOut hcall]
    exact List.mem_append_left _ (List.mem_map_of_mem hw)

/-- What a router answers at an address of a device is what the window of that
    device answers, followed from its placement to the end of the history. -/
theorem read_of_placed {calls front back : List (Call D)} {r : Router D} {w : Window D}
    (hcalls : empty.carryOutAll calls = .ok r) (hsplit : calls = front ++ w.placement :: back)
    {a : Addr} (hc : w.covers a) :
    (Bus.read r a).1 = ((back.foldl Window.follow w).read a).1 := by
  subst hsplit
  -- the router before the placement, just after it and at the end
  obtain ⟨before, hfront, hrest⟩ := carryOutAll_append hcalls
  obtain ⟨after, hplace, hback⟩ := carryOutAll_cons hrest
  have hbefore : before.Tidy := tidy_empty.carryOutAll hfront
  have hafter : after.Tidy := hbefore.carryOut hplace
  have hw : w ∈ after.windows := by
    rw [(place_eq_ok hplace).1]
    exact List.mem_append_right _ List.mem_cons_self
  refine (hafter.carryOutAll hback).read_of_covers (hafter.mem_windows_carryOutAll hback hw) ?_
  rw [Window.covers_foldl_follow]
  exact hc

/-- An address that no placement of a history covers is covered by no window. -/
theorem Tidy.not_covers_carryOutAll {r r' : Router D} (h : r.Tidy) {calls : List (Call D)}
    (hcalls : r.carryOutAll calls = .ok r') {a : Addr}
    (hr : ∀ w ∈ r.windows, w.covers a = false)
    (hnone : ∀ w : Window D, w.placement ∈ calls → w.covers a = false) :
    ∀ w ∈ r'.windows, w.covers a = false := by
  induction calls generalizing r with
  | nil =>
    cases hcalls
    exact hr
  | cons call calls ih =>
    obtain ⟨mid, hcall, hrest⟩ := carryOutAll_cons hcalls
    refine ih (h.carryOut hcall) hrest ?_ fun w hw => hnone w (List.mem_cons_of_mem _ hw)
    rw [h.windows_carryOut hcall]
    intro w hw
    rcases List.mem_append.mp hw with hold | hnew
    · obtain ⟨w', hmem, rfl⟩ := List.mem_map.mp hold
      rw [Window.covers_follow]
      exact hr w' hmem
    · cases call with
      | place base device =>
        obtain rfl := List.mem_singleton.mp hnew
        exact hnone _ List.mem_cons_self
      | read | write => cases hnew

end Router

/-! ## Storage in the history of a router -/

namespace Window

open Router (Call)

/-- A RAM stays a RAM of the same size, and a cell of it holds the byte that
    the call writes to its address, or what it held before. -/
theorem follow_ram {base : Addr} {m : Ram} {a : Addr}
    (hc : (⟨base, .ram m⟩ : Window Peripheral).covers a) (call : Call Peripheral) :
    ∃ m', (⟨base, .ram m⟩ : Window Peripheral).follow call = ⟨base, .ram m'⟩ ∧
      (⟨base, .ram m'⟩ : Window Peripheral).covers a ∧
      m'.get (a - base).toNat = (call.byteFor a).getD (m.get (a - base).toNat) := by
  cases call with
  | place base' device => exact ⟨m, rfl, hc, rfl⟩
  | read a' => exact ⟨m, onRead_eq_self rfl, hc, rfl⟩
  | write a' b =>
    by_cases hc' : (⟨base, .ram m⟩ : Window Peripheral).covers a'
    · have hsame : (⟨base, .ram m⟩ : Window Peripheral).follow (.write a' b) =
          ⟨base, .ram (m.set (a' - base).toNat b)⟩ := if_pos hc'
      have hsize : (a - base).toNat < m.data.size := by
        rw [← m.toNat_size]
        exact offset_lt_size hc
      refine ⟨_, hsame, ?_, ?_⟩
      · rw [← hsame, covers_follow]
        exact hc
      · by_cases ha : a' = a
        · rw [ha, Ram.get_set_self m b hsize, Call.byteFor, if_pos rfl, Option.getD_some]
        -- another address of the same window has another offset
        · have hoffset : (a' - base).toNat ≠ (a - base).toNat := by
            intro heq
            apply ha
            rw [← BitVec.sub_add_cancel a' base, BitVec.eq_of_toNat_eq heq, BitVec.sub_add_cancel]
          rw [Ram.get_set_of_ne m b hoffset, Call.byteFor, if_neg ha, Option.getD_none]
    · have ha : a' ≠ a := by
        rintro rfl
        exact hc' hc
      refine ⟨m, if_neg hc', hc, ?_⟩
      rw [Call.byteFor, if_neg ha, Option.getD_none]

/-- A cell of a RAM holds the byte that the history writes last to its address,
    or what it held at first. -/
theorem read_foldl_follow_ram {base : Addr} {m : Ram} {a : Addr}
    (hc : (⟨base, .ram m⟩ : Window Peripheral).covers a) (calls : List (Call Peripheral)) :
    ((calls.foldl follow (⟨base, .ram m⟩ : Window Peripheral)).read a).1 =
      (lastWritten a calls).getD (m.get (a - base).toNat) := by
  induction calls generalizing m with
  | nil => rfl
  | cons call calls ih =>
    obtain ⟨m', hfollow, hc', hget⟩ := follow_ram hc call
    rw [List.foldl_cons, hfollow, ih hc', hget, lastWritten_cons, Option.getD_or]

theorem follow_rom (base : Addr) (m : Rom) (call : Call Peripheral) :
    (⟨base, .rom m⟩ : Window Peripheral).follow call = ⟨base, .rom m⟩ := by
  cases call with
  | place base' device => rfl
  | read a => exact onRead_eq_self rfl
  | write a b => exact onWrite_eq_self rfl

/-- No history changes a ROM. -/
theorem foldl_follow_rom (base : Addr) (m : Rom) (calls : List (Call Peripheral)) :
    calls.foldl follow (⟨base, .rom m⟩ : Window Peripheral) = ⟨base, .rom m⟩ := by
  induction calls with
  | nil => rfl
  | cons call calls ih => rw [List.foldl_cons, follow_rom, ih]

end Window

namespace Router

/-! ## The order of the windows -/

section Order

variable {D : Type} [Device D] [SteadyDevice D]

/-- The routers have the same windows, in whatever order. -/
def Rearranged (r r' : Router D) : Prop :=
  r.Tidy ∧ r'.Tidy ∧ r.windows.Perm r'.windows

/-- Rearranged windows cannot be told apart from the bus. -/
theorem simulation_rearranged : Bus.Simulation (Rearranged (D := D)) where
  read := by
    rintro r r' ⟨h, h', hperm⟩ a
    refine ⟨?_, h.read a, h'.read a, ?_⟩
    · by_cases hc : ∃ w ∈ r.windows, w.covers a
      · obtain ⟨w, hw, hc⟩ := hc
        rw [h.read_of_covers hw hc, h'.read_of_covers (hperm.mem_iff.mp hw) hc]
      · have hnone : ∀ w ∈ r.windows, w.covers a = false := fun w hw =>
          Bool.eq_false_iff.mpr fun hcw => hc ⟨w, hw, hcw⟩
        rw [read_of_not_covers hnone,
          read_of_not_covers fun w hw => hnone w (hperm.mem_iff.mpr hw)]
    · rw [h.windows_read, h'.windows_read]
      exact hperm.map _
  write := by
    rintro r r' ⟨h, h', hperm⟩ a b
    refine ⟨h.write a b, h'.write a b, ?_⟩
    rw [h.windows_write, h'.windows_write]
    exact hperm.map _

theorem Tidy.windows_placements {r r' : Router D} (h : r.Tidy) {ws : List (Window D)}
    (hplaced : r.carryOutAll (ws.map (·.placement)) = .ok r') :
    r'.windows = r.windows ++ ws := by
  induction ws generalizing r with
  | nil =>
    cases hplaced
    exact (List.append_nil _).symm
  | cons w ws ih =>
    obtain ⟨mid, hplace, hrest⟩ := carryOutAll_cons hplaced
    rw [ih (h.carryOut hplace) hrest, (place_eq_ok hplace).1, List.append_assoc]
    rfl

end Order

/-! ## The byte map -/

/-- What a router answers at `a`, when it has come from an empty one by `calls`. -/
structure AnswersAs (calls : List (Call Peripheral)) (r : Router Peripheral) (a : Addr) :
    Prop where
  /-- Where a RAM stands: the byte last written since it was placed, or the one
      that it was placed with. -/
  ram : ∀ front base m back, calls = front ++ .place base (.ram m) :: back →
    (⟨base, .ram m⟩ : Window Peripheral).covers a →
      ∃ initial, m.data[a.toNat - base.toNat]? = some initial ∧
        (Bus.read r a).1 = (lastWritten a back).getD initial
  /-- Where a ROM stands: the byte of its image. -/
  rom : ∀ front base m back, calls = front ++ .place base (.rom m) :: back →
    (⟨base, .rom m⟩ : Window Peripheral).covers a →
      m.data[a.toNat - base.toNat]? = some (Bus.read r a).1
  /-- Where nothing stands: all ones. -/
  floating : (∀ base device, .place base device ∈ calls →
    ¬ (⟨base, device⟩ : Window Peripheral).covers a) → (Bus.read r a).1 = 0xFF

theorem answersAs_of_carryOutAll {calls : List (Call Peripheral)} {r : Router Peripheral}
    (h : empty.carryOutAll calls = .ok r) (a : Addr) : AnswersAs calls r a where
  ram := by
    intro front base m back hsplit hc
    have hoffset := Window.toNat_offset hc
    have hsize : a.toNat - base.toNat < m.data.size := by
      rw [← m.toNat_size, ← hoffset]
      exact Window.offset_lt_size hc
    refine ⟨_, m.getElem?_eq_some_get hsize, ?_⟩
    rw [read_of_placed h hsplit hc, Window.read_foldl_follow_ram hc, ← hoffset]
    rfl
  rom := by
    intro front base m back hsplit hc
    have hoffset := Window.toNat_offset hc
    have hsize : a.toNat - base.toNat < m.data.size := by
      rw [← m.toNat_size, ← hoffset]
      exact Window.offset_lt_size hc
    rw [m.getElem?_eq_some_get hsize, read_of_placed h hsplit hc, Window.foldl_follow_rom,
      ← hoffset]
    rfl
  floating := by
    intro hnone
    refine read_of_not_covers (tidy_empty.not_covers_carryOutAll h ?_ ?_)
    · intro w hw
      cases hw
    · intro w hw
      exact Bool.eq_false_iff.mpr (hnone w.base w.device hw)

/-- A router that has come from an empty one by successful placements and any
    accesses is a plain map of bytes: at each address it answers for the device
    that was placed there.  A window that would run past the top ends there and
    covers nothing below its base.  In which order devices were placed cannot be
    told from any sequence of accesses. -/
theorem router_is_byte_map :
    (∀ (calls : List (Call Peripheral)) (r : Router Peripheral),
      empty.carryOutAll calls = .ok r → ∀ a, AnswersAs calls r a) ∧
    (∀ w : Window Peripheral, 65536 ≤ w.limit → ∀ a, w.covers a ↔ w.base.toNat ≤ a.toNat) ∧
    (∀ (ws ws' : List (Window Peripheral)) (r r' : Router Peripheral), ws.Perm ws' →
      empty.carryOutAll (ws.map (·.placement)) = .ok r →
      empty.carryOutAll (ws'.map (·.placement)) = .ok r' →
      ∀ queries, Bus.answers r queries = Bus.answers r' queries) := by
  refine ⟨fun calls r h a => answersAs_of_carryOutAll h a, fun w htop a => ?_,
    fun ws ws' r r' hperm hr hr' queries => ?_⟩
  · have ha := a.isLt
    rw [Window.covers_iff]
    omega
  · have hsame : Rearranged r r' := by
      refine ⟨tidy_empty.carryOutAll hr, tidy_empty.carryOutAll hr', ?_⟩
      rw [tidy_empty.windows_placements hr, tidy_empty.windows_placements hr']
      exact hperm.append_left _
    exact simulation_rearranged.answers hsame queries

/-- Two bytes of RAM at the last address and one of ROM at the first: the RAM
    does not reach around to the ROM, which keeps its byte, and placing the ROM
    before the RAM makes no difference. -/
theorem byte_map_around_the_top :
    let ram : Window Peripheral := ⟨0xFFFF, .ram (.ofBytes [0x11, 0x22])⟩
    let rom : Window Peripheral := ⟨0x0000, .rom (.ofBytes [0xAA])⟩
    let calls : List (Call Peripheral) := [ram.placement, rom.placement, .write 0xFFFF 0x5A,
      .write 0x0000 0x77, .write 0x0001 0x33]
    ∃ r r' r'', empty.carryOutAll calls = .ok r ∧
      (Bus.read r 0xFFFF).1 = 0x5A ∧ (Bus.read r 0x0000).1 = 0xAA ∧ (Bus.read r 0x0001).1 = 0xFF ∧
      ¬ ram.covers 0x0000 ∧
      empty.carryOutAll [ram.placement, rom.placement] = .ok r' ∧
      empty.carryOutAll [rom.placement, ram.placement] = .ok r'' ∧
      ∀ queries, Bus.answers r' queries = Bus.answers r'' queries := by
  intro ram rom calls
  obtain ⟨hanswers, htop, horder⟩ := router_is_byte_map
  have hmap : ∀ a, AnswersAs calls _ a := hanswers calls _ rfl
  refine ⟨_, _, _, rfl, ?_, ?_, ?_, ?_, rfl, rfl, ?_⟩
  · obtain ⟨initial, -, hread⟩ :=
      (hmap 0xFFFF).ram [] 0xFFFF (.ofBytes [0x11, 0x22]) calls.tail rfl (by decide)
    exact hread
  · have himage := (hmap 0x0000).rom [ram.placement] 0x0000 (.ofBytes [0xAA])
      calls.tail.tail rfl (by decide)
    exact (Option.some.inj himage).symm
  · refine (hmap 0x0001).floating fun base device hplaced => ?_
    rcases List.mem_cons.mp hplaced with h | h
    · cases h
      decide
    · rcases List.mem_cons.mp h with h | h
      · cases h
        decide
      · simp at h
  · rw [htop ram (by decide)]
    decide
  · exact horder [ram, rom] [rom, ram] _ _ (List.Perm.swap _ _ _) rfl rfl

end Router

end Nmos6502
