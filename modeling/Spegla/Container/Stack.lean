import Mathlib.Algebra.Group.Nat.Defs
import Mathlib.Data.List.Basic
import Mathlib.Tactic.Common

/-!
# Stacks (`container.c`, `stack_init` to `stack_count`)

A stack in a block of memory that is doubled when it is full and halved when it is less than half
full.

- `StackList` and the operations, as the source has them. Allocations succeed; `stack_decr` halves
  the block and leaves `stack_size` as it is.
- `StackList.Holds`: the stack holds the elements of a list, in a block of at least `stack_size`
  slots.
- `Works`: a run gives what an ideal stack gives, inside the block. `stackRun_stack`: it does so
  exactly as long as no pop halves the block, and no push doubles `stack_size` beyond an `unsigned`.
-/

namespace Spegla

variable {α : Type}

/-- `STACK_CHUNK`. -/
def STACK_CHUNK : Nat := 20

/-- `struct stack_list`. `stackData` is the allocated block, slot by slot. -/
structure StackList (α : Type) where
  stackData : List α
  stackEnd : Nat
  stackSize : Nat
deriving DecidableEq, Repr

/-- `realloc`: the slots that both blocks have keep what is in them. -/
def realloc [Inhabited α] (p : List α) (size : Nat) : List α :=
  p.take size ++ List.replicate (size - p.length) default

/-- `stack_init`. -/
def stackInit [Inhabited α] : StackList α :=
  { stackData := List.replicate STACK_CHUNK default, stackEnd := 0, stackSize := STACK_CHUNK }

/-- `stack_incr`. -/
def stackIncr [Inhabited α] (s : StackList α) : StackList α :=
  let size := s.stackSize * 2 % 2 ^ 32
  { s with stackData := realloc s.stackData size, stackSize := size }

/-- `stack_decr`. -/
def stackDecr [Inhabited α] (s : StackList α) : StackList α :=
  if s.stackSize = STACK_CHUNK then s
  else { s with stackData := realloc s.stackData (s.stackSize / 2) }

/-- `stack_push`. -/
def stackPush [Inhabited α] (s : StackList α) (data : α) : StackList α :=
  let s := if s.stackSize = s.stackEnd then stackIncr s else s
  { s with
    stackData := s.stackData.set s.stackEnd data
    stackEnd := (s.stackEnd + 1) % 2 ^ 32 }

/-- `stack_pop`: the element, and the stack without it. -/
def stackPop [Inhabited α] (s : StackList α) : Option (α × StackList α) :=
  if s.stackEnd = 0 then none
  else
    let s := { s with stackEnd := s.stackEnd - 1 }
    some (s.stackData.getD s.stackEnd default,
      if s.stackEnd < s.stackSize / 2 then stackDecr s else s)

/-- `stack_peek`. -/
def stackPeek [Inhabited α] (s : StackList α) : Option α :=
  if s.stackEnd = 0 then none else some (s.stackData.getD (s.stackEnd - 1) default)

/-! ## Runs -/

/-- One call. -/
inductive StackOp (α : Type) where
  | push (data : α)
  | pop
deriving DecidableEq, Repr

/-- What a call gives, and the stack after it. -/
def stackStep [Inhabited α] (s : StackList α) : StackOp α → Option α × StackList α
  | .push data => (none, stackPush s data)
  | .pop =>
    match stackPop s with
    | none => (none, s)
    | some (x, s') => (some x, s')

/-- The stack after the calls. -/
def stackRun [Inhabited α] (s : StackList α) : List (StackOp α) → StackList α
  | [] => s
  | op :: ops => stackRun (stackStep s op).2 ops

/-- The same calls on an ideal stack, whose top is the head of the list. -/
def idealStep (xs : List α) : StackOp α → Option α × List α
  | .push data => (none, data :: xs)
  | .pop => (xs.head?, xs.tail)

/-- The ideal stack after the calls. -/
def idealRun (xs : List α) : List (StackOp α) → List α
  | [] => xs
  | op :: ops => idealRun (idealStep xs op).2 ops

/-- The slot that a call writes or reads lies in the block. -/
def stackInside [Inhabited α] (s : StackList α) : StackOp α → Prop
  | .push _ =>
    let s := if s.stackSize = s.stackEnd then stackIncr s else s
    s.stackEnd < s.stackData.length
  | .pop => s.stackEnd = 0 ∨ s.stackEnd - 1 < s.stackData.length

/-- From `s` on, the calls give what they give on the ideal stack `xs`, inside the block, and
`stack_size` is never more than the block has slots. -/
def Works [Inhabited α] (s : StackList α) (xs : List α) : List (StackOp α) → Prop
  | [] => s.stackSize ≤ s.stackData.length
  | op :: ops => s.stackSize ≤ s.stackData.length ∧ stackInside s op ∧
      (stackStep s op).1 = (idealStep xs op).1 ∧ Works (stackStep s op).2 (idealStep xs op).2 ops

/-- The call does not change the block for the worse: a push onto a full stack doubles a size that
stays an `unsigned`, and a pop leaves at least half of the slots of a stack that has grown. -/
def StackList.Steady (s : StackList α) : StackOp α → Prop
  | .push _ => s.stackEnd = s.stackSize → s.stackSize * 2 < 2 ^ 32
  | .pop => s.stackEnd ≠ 0 → s.stackSize ≠ STACK_CHUNK → s.stackSize / 2 ≤ s.stackEnd - 1

/-- Every call of a run is such a call. -/
def SteadyRun [Inhabited α] (s : StackList α) : List (StackOp α) → Prop
  | [] => True
  | op :: ops => s.Steady op ∧ SteadyRun (stackStep s op).2 ops

/-! ## What the stack holds -/

/-- The stack holds the elements `xs`, the top first, in the slots from the beginning of the block.
-/
structure StackList.Holds [Inhabited α] (s : StackList α) (xs : List α) : Prop where
  finish : s.stackEnd = xs.length
  fits : xs.length ≤ s.stackSize
  block : s.stackSize ≤ s.stackData.length
  chunk : STACK_CHUNK ≤ s.stackSize
  size : s.stackSize < 2 ^ 32
  data : s.stackData.take xs.length = xs.reverse

variable [Inhabited α] {s : StackList α} {xs : List α}

theorem stackInit_holds : (stackInit : StackList α).Holds [] where
  finish := rfl
  fits := Nat.zero_le _
  block := by simp [stackInit]
  chunk := Nat.le_refl _
  size := by
    show STACK_CHUNK < 2 ^ 32
    decide
  data := by simp

theorem realloc_length (p : List α) (size : Nat) : (realloc p size).length = size := by
  simp only [realloc, List.length_append, List.length_take, List.length_replicate]
  omega

/-- Growing keeps what the stack holds. -/
theorem stackIncr_holds (h : s.Holds xs) (hsize : s.stackSize * 2 < 2 ^ 32) :
    (stackIncr s).Holds xs ∧ (stackIncr s).stackSize = s.stackSize * 2 := by
  have hmod : s.stackSize * 2 % 2 ^ 32 = s.stackSize * 2 := Nat.mod_eq_of_lt hsize
  have hchunk := h.chunk
  have hfits := h.fits
  have hblock := h.block
  rw [stackIncr, hmod]
  refine ⟨?_, rfl⟩
  constructor
  · exact h.finish
  · show xs.length ≤ s.stackSize * 2
    omega
  · show s.stackSize * 2 ≤ (realloc s.stackData (s.stackSize * 2)).length
    exact Nat.le_of_eq (realloc_length ..).symm
  · show STACK_CHUNK ≤ s.stackSize * 2
    omega
  · exact hsize
  · show (realloc s.stackData (s.stackSize * 2)).take xs.length = _
    rw [realloc, List.take_append_of_le_length, List.take_take, Nat.min_eq_left (by omega), h.data]
    rw [List.length_take]
    omega

/-- A push puts its element into a slot of the block. -/
theorem stackPush_holds (h : s.Holds xs) {data : α} (hop : s.Steady (.push data)) :
    stackInside s (.push data) ∧ (stackPush s data).Holds (data :: xs) := by
  -- after growing, if need be, there is room
  have hgrown : ∃ s', (if s.stackSize = s.stackEnd then stackIncr s else s) = s' ∧ s'.Holds xs ∧
      xs.length < s'.stackSize := by
    by_cases hfull : s.stackSize = s.stackEnd
    · obtain ⟨hs, hsize⟩ := stackIncr_holds h (hop hfull.symm)
      refine ⟨stackIncr s, if_pos hfull, hs, ?_⟩
      have hchunk : 20 ≤ s.stackSize := h.chunk
      have := h.finish
      omega
    · have := h.finish
      have := h.fits
      exact ⟨s, if_neg hfull, h, by omega⟩
  obtain ⟨s', hs', hh, hroom⟩ := hgrown
  have hfinish := hh.finish
  have hblock := hh.block
  have hsize := hh.size
  have hinside : stackInside s (.push data) := by
    show (if s.stackSize = s.stackEnd then stackIncr s else s).stackEnd <
      (if s.stackSize = s.stackEnd then stackIncr s else s).stackData.length
    rw [hs']
    omega
  refine ⟨hinside, ?_⟩
  rw [stackPush, hs']
  constructor
  · show (s'.stackEnd + 1) % 2 ^ 32 = (data :: xs).length
    rw [Nat.mod_eq_of_lt (by omega), hfinish, List.length_cons]
  · show (data :: xs).length ≤ s'.stackSize
    rw [List.length_cons]
    exact hroom
  · show s'.stackSize ≤ (s'.stackData.set s'.stackEnd data).length
    rwa [List.length_set]
  · exact hh.chunk
  · exact hsize
  · show (s'.stackData.set s'.stackEnd data).take (data :: xs).length = (data :: xs).reverse
    rw [List.length_cons, List.reverse_cons, ← hh.data, hfinish, List.take_add_one]
    rw [List.take_set_of_le (Nat.le_refl _), List.getElem?_set_self (by omega)]
    rfl

/-- The element on top, and the slots under it. -/
theorem StackList.Holds.top {x : α} (h : s.Holds (x :: xs)) :
    s.stackData.getD (s.stackEnd - 1) default = x ∧ s.stackData.take xs.length = xs.reverse := by
  have hfinish := h.finish
  have hfits := h.fits
  have hblock := h.block
  have hdata := h.data
  rw [List.length_cons] at hfinish hfits
  rw [List.length_cons, List.reverse_cons, List.take_add_one] at hdata
  have hlen : (s.stackData.take xs.length).length = xs.reverse.length := by
    rw [List.length_take, List.length_reverse]
    omega
  obtain ⟨hrest, htop⟩ := List.append_inj hdata hlen
  refine ⟨?_, hrest⟩
  have hlt : xs.length < s.stackData.length := by omega
  rw [List.getElem?_eq_getElem hlt] at htop
  rw [hfinish, Nat.add_sub_cancel, List.getD_eq_getElem?_getD, List.getElem?_eq_getElem hlt]
  show s.stackData[xs.length] = x
  exact (List.cons.inj htop).1

theorem stackPop_nil (h : s.Holds []) : stackPop s = none := if_pos h.finish

/-- A pop that halves nothing gives the element on top. -/
theorem stackPop_holds {x : α} (h : s.Holds (x :: xs)) (hop : s.Steady .pop) :
    ∃ s', stackPop s = some (x, s') ∧ s'.Holds xs := by
  have hfinish := h.finish
  have hfits := h.fits
  rw [List.length_cons] at hfinish hfits
  obtain ⟨htop, hrest⟩ := h.top
  refine ⟨{ s with stackEnd := s.stackEnd - 1 }, ?_, ?_⟩
  · rw [stackPop, if_neg (by omega)]
    simp only [htop]
    split
    · next hlow =>
      -- the only stack that may be left less than half full has not grown
      have hchunk : s.stackSize = STACK_CHUNK := by
        by_contra hne
        have := hop (by omega) hne
        omega
      rw [stackDecr, if_pos hchunk]
    · rfl
  · constructor
    · show s.stackEnd - 1 = xs.length
      omega
    · show xs.length ≤ s.stackSize
      omega
    · exact h.block
    · exact h.chunk
    · exact h.size
    · exact hrest

/-! ## Any interleaving of pushes and pops -/

/-- A step that keeps the block stays in it and gives what the ideal stack gives. -/
theorem stackStep_holds (h : s.Holds xs) {op : StackOp α} (hop : s.Steady op) :
    stackInside s op ∧ (stackStep s op).1 = (idealStep xs op).1 ∧
      (stackStep s op).2.Holds (idealStep xs op).2 := by
  have hblock := h.block
  have hfits := h.fits
  have hfinish := h.finish
  have hchunk : 20 ≤ s.stackSize := h.chunk
  cases op with
  | push data =>
    obtain ⟨hinside, hh⟩ := stackPush_holds h hop
    exact ⟨hinside, rfl, hh⟩
  | pop =>
    have hinside : stackInside s .pop := by
      show s.stackEnd = 0 ∨ s.stackEnd - 1 < s.stackData.length
      omega
    refine ⟨hinside, ?_⟩
    cases xs with
    | nil =>
      rw [stackStep, stackPop_nil h]
      exact ⟨rfl, h⟩
    | cons x xs =>
      obtain ⟨s', hs', hh⟩ := stackPop_holds h hop
      rw [stackStep, hs']
      exact ⟨rfl, hh⟩

/-- Doubling a size of 2³¹ slots or more leaves less than there are elements. -/
theorem stackPush_outside (h : s.Holds xs) {data : α} (hop : ¬s.Steady (.push data)) :
    ¬stackInside s (.push data) := by
  obtain ⟨hfull, hsize⟩ : s.stackEnd = s.stackSize ∧ ¬s.stackSize * 2 < 2 ^ 32 := by
    by_contra hne
    refine hop fun hfull => ?_
    by_contra hsize
    exact hne ⟨hfull, hsize⟩
  have hlt := h.size
  show ¬(if s.stackSize = s.stackEnd then stackIncr s else s).stackEnd <
    (if s.stackSize = s.stackEnd then stackIncr s else s).stackData.length
  rw [if_pos hfull.symm]
  show ¬s.stackEnd < (realloc s.stackData (s.stackSize * 2 % 2 ^ 32)).length
  rw [realloc_length]
  omega

/-- A pop that halves the block leaves a size that is too large. -/
theorem stackPop_shrunk (h : s.Holds xs) (hop : ¬s.Steady .pop) :
    (stackStep s .pop).2.stackData.length < (stackStep s .pop).2.stackSize := by
  obtain ⟨hne, hchunk, hlow⟩ : s.stackEnd ≠ 0 ∧ s.stackSize ≠ STACK_CHUNK ∧
      s.stackEnd - 1 < s.stackSize / 2 := by
    by_contra hno
    refine hop fun hne hchunk => ?_
    by_contra hlow
    exact hno ⟨hne, hchunk, Nat.lt_of_not_le hlow⟩
  have hpos : 20 ≤ s.stackSize := h.chunk
  rw [stackStep, stackPop, if_neg hne]
  simp only [if_pos hlow, stackDecr, if_neg hchunk]
  show (realloc s.stackData (s.stackSize / 2)).length < s.stackSize
  rw [realloc_length]
  omega

theorem Works.block {ops : List (StackOp α)} (h : Works s xs ops) :
    s.stackSize ≤ s.stackData.length := by
  cases ops with
  | nil => exact h
  | cons op ops => exact h.1

/-- From a stack that holds `xs`, a run gives what the ideal stack gives exactly as long as its
steps keep the block. -/
theorem StackList.Holds.works (h : s.Holds xs) (ops : List (StackOp α)) :
    Works s xs ops ↔ SteadyRun s ops := by
  induction ops generalizing s xs with
  | nil => exact ⟨fun _ => trivial, fun _ => h.block⟩
  | cons op ops ih =>
    by_cases hop : s.Steady op
    · obtain ⟨hinside, hgives, hh⟩ := stackStep_holds h hop
      constructor
      · intro hworks
        exact ⟨hop, (ih hh).mp hworks.2.2.2⟩
      · intro hrun
        exact ⟨h.block, hinside, hgives, (ih hh).mpr hrun.2⟩
    · constructor
      · intro hworks
        cases op with
        | push data => exact absurd hworks.2.1 (stackPush_outside h hop)
        | pop =>
          have := stackPop_shrunk h hop
          have := hworks.2.2.2.block
          omega
      · intro hrun
        exact absurd hrun.1 hop

/-- Any interleaving of pushes and pops on a new stack comes back last in, first out, inside a block
of at least `stack_size` slots, exactly as long as no pop leaves less than half of a stack that has
grown, and no push doubles a size of 2³¹ slots or more. -/
theorem stackRun_stack (ops : List (StackOp α)) :
    Works (stackInit : StackList α) [] ops ↔ SteadyRun (stackInit : StackList α) ops :=
  stackInit_holds.works ops

/-- Twenty-one elements that come, two that go, and two that come. -/
def shrunkOps : List (StackOp Nat) :=
  (List.range 21).map .push ++ [.pop, .pop, .push 21] ++ [.push 22]

theorem Works.stackRun : ∀ {ops : List (StackOp α)} {s : StackList α} {xs : List α},
    Works s xs ops → (stackRun s ops).stackSize ≤ (stackRun s ops).stackData.length := by
  intro ops
  induction ops with
  | nil => exact id
  | cons op ops ih =>
    intro s xs h
    exact ih h.2.2.2

/-- The block is halved, `stack_size` stays at 40, and the last push writes behind the block. -/
theorem stackRun_overruns :
    (stackRun stackInit shrunkOps.dropLast).stackData.length = 20 ∧
      (stackRun stackInit shrunkOps.dropLast).stackEnd = 20 ∧
      (stackRun stackInit shrunkOps.dropLast).stackSize = 40 ∧
      ¬Works stackInit [] shrunkOps := by
  refine ⟨by decide +kernel, by decide +kernel, by decide +kernel, fun h => ?_⟩
  have hsize := h.stackRun
  revert hsize
  decide +kernel

end Spegla
