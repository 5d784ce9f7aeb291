import Spegla.Container.Stack

/-!
# Stacks in a block that was halved (`container.c`, `stack_push` and `stack_pop`)

A pop may halve the block without `stack_size`. What the stack holds stays right, and so does every
call until a push lies behind the block.

- `pushIn`, `popIn`: the calls, undefined outside the block. `runInside`: one after the other.
- `StackList.Contains`: the stack holds the elements of a list, in a block that has room for them.
- `StackList.Contains.push`, `StackList.Contains.pop`: a push inside the block keeps this, and so
  does every pop.
- `StackList.Contains.run`: after calls inside the block, the stack holds what an ideal stack holds.
-/

namespace Spegla

variable {α : Type}

instance [Inhabited α] (s : StackList α) (op : StackOp α) : Decidable (stackInside s op) :=
  match op with
  | .push _ => inferInstanceAs (Decidable (_ < _))
  | .pop => inferInstanceAs (Decidable (_ ∨ _))

/-- `stack_push`; a slot outside the block is undefined. -/
def pushIn [Inhabited α] (s : StackList α) (p : α) : Option (StackList α) :=
  if stackInside s (.push p) then some (stackPush s p) else none

/-- `stack_pop`; it fails with `some none`. -/
def popIn [Inhabited α] (s : StackList α) : Option (Option (α × StackList α)) :=
  if stackInside s .pop then some (stackPop s) else none

variable [Inhabited α] {s s' : StackList α} {xs : List α} {x : α}

/-- The stack holds the elements `xs`, the top first, in a block that may be smaller than
`stack_size` says. -/
structure StackList.Contains (s : StackList α) (xs : List α) : Prop where
  finish : s.stackEnd = xs.length
  fits : xs.length ≤ s.stackData.length
  block : s.stackData.length < 2 ^ 32
  size : s.stackSize < 2 ^ 32
  data : s.stackData.take xs.length = xs.reverse

theorem stackInit_contains : (stackInit : StackList α).Contains [] where
  finish := rfl
  fits := Nat.zero_le _
  block := by
    show (List.replicate STACK_CHUNK (default : α)).length < 2 ^ 32
    rw [List.length_replicate]
    decide
  size := by
    show STACK_CHUNK < 2 ^ 32
    decide
  data := rfl

/-- Another block that is large enough holds the same elements. -/
theorem StackList.Contains.realloc (h : s.Contains xs) {n size : Nat} (hn : xs.length ≤ n)
    (hlt : n < 2 ^ 32) (hsize : size < 2 ^ 32) :
    ({ s with stackData := realloc s.stackData n, stackSize := size } : StackList α).Contains
      xs where
  finish := h.finish
  fits := by
    show xs.length ≤ (Spegla.realloc s.stackData n).length
    rwa [realloc_length]
  block := by
    show (Spegla.realloc s.stackData n).length < 2 ^ 32
    rwa [realloc_length]
  size := hsize
  data := by
    have hfits := h.fits
    show (Spegla.realloc s.stackData n).take xs.length = xs.reverse
    rw [Spegla.realloc, List.take_append_of_le_length, List.take_take, Nat.min_eq_left hn, h.data]
    rw [List.length_take]
    omega

theorem StackList.Contains.push (h : s.Contains xs) (hin : stackInside s (.push x)) :
    (stackPush s x).Contains (x :: xs) := by
  -- the block after growing, if need be
  have hgrown : ∃ s', (if s.stackSize = s.stackEnd then stackIncr s else s) = s' ∧ s'.Contains xs ∧
      xs.length < s'.stackData.length := by
    have hfinish := h.finish
    have hin : (if s.stackSize = s.stackEnd then stackIncr s else s).stackEnd <
      (if s.stackSize = s.stackEnd then stackIncr s else s).stackData.length := hin
    by_cases hfull : s.stackSize = s.stackEnd
    · rw [if_pos hfull] at hin ⊢
      have hroom : s.stackEnd <
        (Spegla.realloc s.stackData (s.stackSize * 2 % 2 ^ 32)).length := hin
      rw [realloc_length] at hroom
      have hmod := Nat.mod_lt (s.stackSize * 2) (Nat.two_pow_pos 32)
      refine ⟨stackIncr s, rfl, h.realloc (by omega) hmod hmod, ?_⟩
      show xs.length < (Spegla.realloc s.stackData (s.stackSize * 2 % 2 ^ 32)).length
      rw [realloc_length]
      omega
    · rw [if_neg hfull] at hin ⊢
      exact ⟨s, rfl, h, by omega⟩
  obtain ⟨s', hs', hh, hroom⟩ := hgrown
  have hfinish := hh.finish
  have hblock := hh.block
  rw [stackPush, hs']
  constructor
  · show (s'.stackEnd + 1) % 2 ^ 32 = (x :: xs).length
    rw [Nat.mod_eq_of_lt (by omega), hfinish, List.length_cons]
  · show (x :: xs).length ≤ (s'.stackData.set s'.stackEnd x).length
    rw [List.length_set]
    exact hroom
  · show (s'.stackData.set s'.stackEnd x).length < 2 ^ 32
    rwa [List.length_set]
  · exact hh.size
  · show (s'.stackData.set s'.stackEnd x).take (x :: xs).length = (x :: xs).reverse
    rw [List.length_cons, List.reverse_cons, ← hh.data, hfinish, List.take_add_one]
    rw [List.take_set_of_le (Nat.le_refl _), List.getElem?_set_self hroom]
    rfl

/-- The element on top, and the slots under it. -/
theorem StackList.Contains.top (h : s.Contains (x :: xs)) :
    s.stackData.getD (s.stackEnd - 1) default = x ∧ s.stackData.take xs.length = xs.reverse := by
  have hfinish := h.finish
  have hfits := h.fits
  have hdata := h.data
  rw [List.length_cons] at hfinish hfits
  rw [List.length_cons, List.reverse_cons, List.take_add_one] at hdata
  have hlen : (s.stackData.take xs.length).length = xs.reverse.length := by
    rw [List.length_take, List.length_reverse]
    omega
  obtain ⟨hrest, htop⟩ := List.append_inj hdata hlen
  refine ⟨?_, hrest⟩
  have hlt : xs.length < s.stackData.length := hfits
  rw [List.getElem?_eq_getElem hlt] at htop
  rw [hfinish, Nat.add_sub_cancel, List.getD_eq_getElem?_getD, List.getElem?_eq_getElem hlt]
  show s.stackData[xs.length] = x
  exact (List.cons.inj htop).1

theorem StackList.Contains.peek (h : s.Contains xs) : stackPeek s = xs.head? := by
  cases xs with
  | nil => exact if_pos h.finish
  | cons x xs =>
    have hfinish := h.finish
    rw [List.length_cons] at hfinish
    rw [stackPeek, if_neg (by omega), h.top.1]
    rfl

/-- A pop stays in the block, and the block that it leaves has room for the rest. -/
theorem StackList.Contains.pop (h : s.Contains (x :: xs)) : ∃ s', stackInside s .pop ∧
    stackPop s = some (x, s') ∧ s'.stackEnd + 1 = s.stackEnd ∧ s'.Contains xs := by
  have hfinish := h.finish
  have hfits := h.fits
  have hsize := h.size
  rw [List.length_cons] at hfinish hfits
  obtain ⟨htop, hrest⟩ := h.top
  have hless : ({ s with stackEnd := s.stackEnd - 1 } : StackList α).Contains xs :=
    ⟨by show s.stackEnd - 1 = xs.length; omega, by show xs.length ≤ s.stackData.length; omega,
      h.block, hsize, hrest⟩
  have hin : stackInside s .pop := by
    show s.stackEnd = 0 ∨ s.stackEnd - 1 < s.stackData.length
    omega
  rw [stackPop, if_neg (by omega)]
  simp only [htop]
  split
  · next hlow =>
    refine ⟨_, hin, rfl, ?_, ?_⟩
    · rw [stackDecr]
      split <;> show s.stackEnd - 1 + 1 = s.stackEnd <;> omega
    · rw [stackDecr]
      split
      · exact hless
      · exact hless.realloc (by show xs.length ≤ s.stackSize / 2; omega)
          (by show s.stackSize / 2 < 2 ^ 32; omega) hsize
  · exact ⟨_, hin, rfl, by show s.stackEnd - 1 + 1 = s.stackEnd; omega, hless⟩

theorem StackList.Contains.popIn_nil (h : s.Contains []) : Spegla.popIn s = some none := by
  have hempty : s.stackEnd = 0 := h.finish
  have hin : stackInside s .pop := Or.inl hempty
  rw [Spegla.popIn, if_pos hin, stackPop, if_pos hempty]

/-- The calls one after the other, each inside the block. -/
def runInside (s : StackList α) : List (StackOp α) → Option (StackList α)
  | [] => some s
  | op :: ops => if stackInside s op then runInside (stackStep s op).2 ops else none

theorem runInside_append (s : StackList α) (ops ops' : List (StackOp α)) :
    runInside s (ops ++ ops') = (runInside s ops).bind fun s => runInside s ops' := by
  induction ops generalizing s with
  | nil => rfl
  | cons op ops ih =>
    rw [List.cons_append, runInside, runInside]
    split
    · exact ih _
    · rfl

theorem runInside_push (s : StackList α) (x : α) (ops : List (StackOp α)) :
    runInside s (.push x :: ops) = (pushIn s x).bind fun s => runInside s ops := by
  rw [runInside, pushIn]
  split <;> rfl

theorem StackList.Contains.run_pop (h : s.Contains (x :: xs)) (ops : List (StackOp α)) : ∃ s',
    Spegla.popIn s = some (some (x, s')) ∧ runInside s (.pop :: ops) = runInside s' ops ∧
      s'.stackEnd + 1 = s.stackEnd ∧ s'.Contains xs := by
  obtain ⟨s', hin, hpop, hend, hrest⟩ := h.pop
  refine ⟨s', ?_, ?_, hend, hrest⟩
  · rw [Spegla.popIn, if_pos hin, hpop]
  · rw [runInside, if_pos hin, stackStep, hpop]

/-- What the stack holds after the calls. -/
def contents (xs : List α) : List (StackOp α) → List α
  | [] => xs
  | op :: ops => contents (idealStep xs op).2 ops

omit [Inhabited α] in
theorem contents_append (xs : List α) (ops ops' : List (StackOp α)) :
    contents xs (ops ++ ops') = contents (contents xs ops) ops' := by
  induction ops generalizing xs with
  | nil => rfl
  | cons op ops ih => exact ih _

theorem StackList.Contains.run (h : s.Contains xs) {ops : List (StackOp α)}
    (hrun : runInside s ops = some s') : s'.Contains (contents xs ops) := by
  induction ops generalizing s xs with
  | nil =>
    cases hrun
    exact h
  | cons op ops ih =>
    rw [runInside] at hrun
    split at hrun
    · next hin =>
      refine ih ?_ hrun
      cases op with
      | push x => exact h.push hin
      | pop =>
        cases xs with
        | nil =>
          have hempty : s.stackEnd = 0 := h.finish
          rw [stackStep, stackPop, if_pos hempty]
          exact h
        | cons x xs =>
          obtain ⟨s', -, hpop, -, hrest⟩ := h.pop
          rw [stackStep, hpop]
          exact hrest
    · cases hrun

end Spegla
