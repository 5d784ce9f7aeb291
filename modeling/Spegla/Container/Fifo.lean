import Mathlib.Algebra.Group.Nat.Defs
import Mathlib.Data.List.Basic
import Mathlib.Data.List.Infix
import Mathlib.Logic.Function.Basic
import Mathlib.Tactic.Common

/-!
# Ring buffers (`container.c`, `fifo_init` to `fifo_count`)

A queue in an array that is used as a ring, doubled when it is full and halved
when it is less than half full.

- `FifoList` and the operations, as the source has them. Allocations succeed.
- `FifoList.Linear`: the queue lies in one piece, `start` to `end`. A queue that
  is first filled and then drained stays so (`fifoPush_linear`, `fifoPop_linear`),
  which is how `sp_sync_dir` uses its queue of directories.
- `BehavesAs`: a run gives what an ideal queue gives. `fifoRun_queue`: it does so
  exactly as long as no step meets a queue that goes on behind the end of the array,
  since `FIFO_COUNT` and `fifo_decr` subtract the wrong way round there.
-/

namespace Spegla

variable {α : Type}

/-- `FIFO_CHUNK`. -/
def FIFO_CHUNK : Nat := 20

/-- Subtraction of 32-bit unsigned numbers. -/
def usub (a b : Nat) : Nat := (a + 2 ^ 32 - b % 2 ^ 32) % 2 ^ 32

/-- `struct fifo_list`. `fifoData` is the memory of the ring. -/
structure FifoList (α : Type) where
  fifoData : Nat → α
  fifoStart : Nat
  fifoEnd : Nat
  fifoSize : Nat

/-- `FIFO_COUNT`. -/
def fifoCount (f : FifoList α) : Nat :=
  if f.fifoStart ≤ f.fifoEnd then f.fifoEnd - f.fifoStart
  else usub f.fifoSize (f.fifoStart + f.fifoEnd)

/-- `fifo_init`. -/
def fifoInit [Inhabited α] : FifoList α :=
  { fifoData := fun _ => default, fifoStart := 0, fifoEnd := 0, fifoSize := FIFO_CHUNK }

/-- `fifo_incr`. -/
def fifoIncr (f : FifoList α) : FifoList α :=
  let size := f.fifoSize * 2
  if f.fifoStart > f.fifoEnd then
    { f with
      -- the part at the beginning is copied behind the old end
      fifoData := fun k =>
        if f.fifoSize ≤ k ∧ k < f.fifoSize + f.fifoEnd then f.fifoData (k - f.fifoSize)
        else f.fifoData k
      fifoEnd := f.fifoEnd + f.fifoSize
      fifoSize := size }
  else { f with fifoSize := size }

/-- `fifo_decr`. The copies of the wrapped case have the lengths the source gives
them, in which `size` is the new size. -/
def fifoDecr [Inhabited α] (f : FifoList α) : FifoList α :=
  if f.fifoSize = FIFO_CHUNK then f
  else
    let start := f.fifoStart
    let size := f.fifoSize / 2
    let p : Nat → α :=
      if f.fifoStart < f.fifoEnd then
        fun k => if k < f.fifoEnd - start then f.fifoData (start + k) else default
      else if f.fifoStart > f.fifoEnd then
        fun k =>
          if start ≤ size ∧ size - start ≤ k ∧ k < size - start + f.fifoEnd then
            f.fifoData (k - (size - start))
          else if k < usub size start then f.fifoData (start + k)
          else default
      else fun _ => default
    { fifoData := p, fifoStart := 0, fifoEnd := fifoCount f, fifoSize := size }

/-- `fifo_push`. -/
def fifoPush (f : FifoList α) (data : α) : FifoList α :=
  let f := if fifoCount f = f.fifoSize - 1 then fifoIncr f else f
  { f with
    fifoData := Function.update f.fifoData f.fifoEnd data
    fifoEnd := (f.fifoEnd + 1) % f.fifoSize }

/-- `fifo_pop`: the element, and the queue without it. -/
def fifoPop [Inhabited α] (f : FifoList α) : Option (α × FifoList α) :=
  if f.fifoStart = f.fifoEnd then none
  else
    let data := f.fifoData f.fifoStart
    let f := { f with fifoStart := (f.fifoStart + 1) % f.fifoSize }
    some (data, if fifoCount f < (f.fifoSize - 1) / 2 then fifoDecr f else f)

/-! ## Queues in one piece -/

/-- The queue holds `xs`, in slots that follow one another. -/
structure FifoList.Linear (f : FifoList α) (xs : List α) : Prop where
  finish : f.fifoEnd = f.fifoStart + xs.length
  room : f.fifoEnd < f.fifoSize
  data : ∀ i (h : i < xs.length), f.fifoData (f.fifoStart + i) = xs[i]

theorem fifoInit_linear [Inhabited α] : (fifoInit : FifoList α).Linear [] where
  finish := rfl
  room := by
    show 0 < FIFO_CHUNK
    decide
  data := fun i h => absurd h (Nat.not_lt_zero i)

theorem fifoCount_linear {f : FifoList α} {xs : List α} (h : f.Linear xs) :
    fifoCount f = xs.length := by
  have := h.finish
  rw [fifoCount, if_pos (by omega)]
  omega

/-- A push onto a queue that starts at slot 0 keeps it in one piece. -/
theorem fifoPush_linear {f : FifoList α} {xs : List α} (h : f.Linear xs) (h0 : f.fifoStart = 0)
    (data : α) : (fifoPush f data).Linear (xs ++ [data]) ∧ (fifoPush f data).fifoStart = 0 := by
  have hcount := fifoCount_linear h
  have hend := h.finish
  have hroom := h.room
  -- growing leaves the elements where they are
  have hgrow : ∃ size, f.fifoEnd + 1 < size ∧
      (if fifoCount f = f.fifoSize - 1 then fifoIncr f else f) = { f with fifoSize := size } := by
    by_cases hfull : fifoCount f = f.fifoSize - 1
    · refine ⟨f.fifoSize * 2, by omega, ?_⟩
      rw [if_pos hfull, fifoIncr, if_neg (by omega)]
    · exact ⟨f.fifoSize, by omega, by rw [if_neg hfull]⟩
  obtain ⟨size, hsize, heq⟩ := hgrow
  unfold fifoPush
  rw [heq]
  simp only [Nat.mod_eq_of_lt hsize]
  refine ⟨⟨?_, hsize, fun i hi => ?_⟩, h0⟩
  · show f.fifoEnd + 1 = f.fifoStart + (xs ++ [data]).length
    rw [List.length_append, List.length_singleton]
    omega
  · show Function.update f.fifoData f.fifoEnd data (f.fifoStart + i) = _
    rw [List.length_append, List.length_singleton] at hi
    by_cases hlast : i = xs.length
    · subst hlast
      rw [← hend, Function.update_self, List.getElem_concat_length]
      rfl
    · rw [Function.update_of_ne (by omega), List.getElem_append_left (by omega)]
      exact h.data i (by omega)

/-- A pop gives the first element and keeps the rest in one piece. -/
theorem fifoPop_linear [Inhabited α] {f : FifoList α} {x : α} {xs : List α}
    (h : f.Linear (x :: xs)) : ∃ f', fifoPop f = some (x, f') ∧ f'.Linear xs := by
  have hend := h.finish
  have hroom := h.room
  rw [List.length_cons] at hend
  have hx : f.fifoData f.fifoStart = x := h.data 0 (Nat.zero_lt_succ _)
  -- the queue behind the element that was taken
  have hrest : ({ f with fifoStart := f.fifoStart + 1 } : FifoList α).Linear xs := by
    refine ⟨by simp only; omega, hroom, fun i hi => ?_⟩
    have := h.data (i + 1) (by simpa using hi)
    rw [List.getElem_cons_succ] at this
    rw [← this]
    show f.fifoData (f.fifoStart + 1 + i) = _
    congr 1
    omega
  unfold fifoPop
  rw [if_neg (by omega), hx]
  simp only [Nat.mod_eq_of_lt (by omega : f.fifoStart + 1 < f.fifoSize)]
  refine ⟨_, rfl, ?_⟩
  rw [fifoCount_linear hrest]
  split
  · next hless =>
    rw [fifoDecr]
    split
    · exact hrest
    · refine ⟨?_, ?_, fun i hi => ?_⟩
      · simp only [fifoCount_linear hrest]
        omega
      · simp only [fifoCount_linear hrest]
        omega
      · have hlt : f.fifoStart + 1 < f.fifoEnd := by omega
        simp only [if_pos hlt, Nat.zero_add]
        rw [if_pos (by omega)]
        exact hrest.data i hi
  · exact hrest

theorem fifoPop_nil [Inhabited α] {f : FifoList α} (h : f.Linear []) : fifoPop f = none := by
  have := h.finish
  rw [fifoPop, if_pos (by simpa using this.symm)]

/-- A queue filled from the start lies in one piece. -/
theorem fifoPushAll_linear : ∀ {f : FifoList α} {xs : List α} (ys : List α), f.Linear xs →
    f.fifoStart = 0 → (ys.foldl fifoPush f).Linear (xs ++ ys)
  | f, xs, [], h, _ => by rwa [List.append_nil]
  | f, xs, y :: ys, h, h0 => by
    obtain ⟨h', h0'⟩ := fifoPush_linear h h0 y
    rw [show xs ++ y :: ys = (xs ++ [y]) ++ ys by simp]
    exact fifoPushAll_linear ys h' h0'

/-! ## Any interleaving of pushes and pops -/

/-- One call. -/
inductive FifoOp (α : Type) where
  | push (data : α)
  | pop
deriving DecidableEq, Repr

/-- What a call gives, and the queue after it. -/
def fifoStep [Inhabited α] (f : FifoList α) : FifoOp α → Option α × FifoList α
  | .push data => (none, fifoPush f data)
  | .pop =>
    match fifoPop f with
    | none => (none, f)
    | some (x, f') => (some x, f')

/-- The queue after the calls. -/
def fifoRun [Inhabited α] (f : FifoList α) : List (FifoOp α) → FifoList α
  | [] => f
  | op :: ops => fifoRun (fifoStep f op).2 ops

/-- The same calls on an ideal queue. -/
def queueStep (q : List α) : FifoOp α → Option α × List α
  | .push data => (none, q ++ [data])
  | .pop => (q.head?, q.tail)

/-- The ideal queue after the calls. -/
def queueRun (q : List α) : List (FifoOp α) → List α
  | [] => q
  | op :: ops => queueRun (queueStep q op).2 ops

/-- The copies of `fifo_decr` stay in the old array of `fifoSize` slots and in the
new one. -/
def fifoDecrInside (f : FifoList α) : Prop :=
  let start := f.fifoStart
  let size := f.fifoSize / 2
  f.fifoSize = FIFO_CHUNK ∨
    (f.fifoStart < f.fifoEnd → f.fifoEnd ≤ f.fifoSize ∧ f.fifoEnd - start ≤ size) ∧
    (f.fifoStart > f.fifoEnd → start + usub size start ≤ f.fifoSize ∧ usub size start ≤ size ∧
      (f.fifoEnd = 0 ∨ start ≤ size ∧ size - start + f.fifoEnd ≤ size))

/-- Every slot a call uses lies in the array. -/
def fifoInside (f : FifoList α) : FifoOp α → Prop
  | .push _ =>
    if fifoCount f = f.fifoSize - 1 then
      (f.fifoStart > f.fifoEnd → f.fifoEnd ≤ f.fifoSize) ∧
      (fifoIncr f).fifoEnd < (fifoIncr f).fifoSize
    else f.fifoEnd < f.fifoSize
  | .pop =>
    f.fifoStart = f.fifoEnd ∨ f.fifoStart < f.fifoSize ∧
      let f := { f with fifoStart := (f.fifoStart + 1) % f.fifoSize }
      fifoCount f < (f.fifoSize - 1) / 2 → fifoDecrInside f

/-- From `f` on, the calls give what they give on the ideal queue `q`; every slot used
lies in the array, and the count is right all the way. -/
def BehavesAs [Inhabited α] (f : FifoList α) (q : List α) : List (FifoOp α) → Prop
  | [] => fifoCount f = q.length
  | op :: ops => fifoCount f = q.length ∧ fifoInside f op ∧
      (fifoStep f op).1 = (queueStep q op).1 ∧ BehavesAs (fifoStep f op).2 (queueStep q op).2 ops

/-- The call meets a queue that does not go on behind the end of the array. One that just
reaches the end may be popped while it is not to be halved, and pushed if it is full. -/
def FifoList.Unbroken (f : FifoList α) : FifoOp α → Prop
  | .push _ => f.fifoStart ≤ f.fifoEnd ∨ f.fifoEnd = 0 ∧ f.fifoStart = 1
  | .pop => f.fifoStart ≤ f.fifoEnd ∨ f.fifoEnd = 0 ∧ (f.fifoStart + 1 = f.fifoSize ∨
      f.fifoSize = FIFO_CHUNK ∨ (f.fifoSize - 1) / 2 ≤ f.fifoSize - (f.fifoStart + 1))

/-- Every call of a run meets such a queue. -/
def UnbrokenRun [Inhabited α] (f : FifoList α) : List (FifoOp α) → Prop
  | [] => True
  | op :: ops => f.Unbroken op ∧ UnbrokenRun (fifoStep f op).2 ops

/-- The queue holds `xs` in slots that follow one another, up to the end of the array at
most. -/
structure FifoList.Segment (f : FifoList α) (xs : List α) : Prop where
  finish : f.fifoEnd = (f.fifoStart + xs.length) % f.fifoSize
  start : f.fifoStart < f.fifoSize
  fits : f.fifoStart + xs.length ≤ f.fifoSize
  room : xs.length < f.fifoSize
  data : ∀ i (h : i < xs.length), f.fifoData (f.fifoStart + i) = xs[i]

variable {f : FifoList α} {xs : List α} {data : α}

theorem usub_eq {a b : Nat} (hb : b ≤ a) (ha : a < 2 ^ 32) : usub a b = a - b := by
  unfold usub
  rw [Nat.mod_eq_of_lt (by omega : b < 2 ^ 32)]
  omega

/-- The queue ends before the end of the array or just there. -/
theorem FifoList.Segment.cases (h : f.Segment xs) :
    f.Linear xs ∨ f.fifoEnd = 0 ∧ 0 < f.fifoStart ∧ f.fifoStart + xs.length = f.fifoSize := by
  have hend := h.finish
  have hroom := h.room
  rcases Nat.lt_or_ge (f.fifoStart + xs.length) f.fifoSize with hlt | hge
  · rw [Nat.mod_eq_of_lt hlt] at hend
    exact Or.inl ⟨hend, by omega, h.data⟩
  · have heq : f.fifoStart + xs.length = f.fifoSize := Nat.le_antisymm h.fits hge
    rw [heq, Nat.mod_self] at hend
    exact Or.inr ⟨hend, by omega, heq⟩

theorem FifoList.Linear.segment (h : f.Linear xs) : f.Segment xs := by
  have hend := h.finish
  have hroom := h.room
  exact ⟨by rw [Nat.mod_eq_of_lt (by omega), hend], by omega, by omega, by omega, h.data⟩

theorem fifoCount_segment (h : f.Segment xs) (hsize : f.fifoSize < 2 ^ 32) :
    fifoCount f = xs.length := by
  rcases h.cases with hl | ⟨h0, hpos, heq⟩
  · exact fifoCount_linear hl
  · rw [fifoCount, if_neg (by omega), h0, Nat.add_zero, usub_eq (Nat.le_of_lt h.start) hsize]
    omega

/-- Behind the elements there is room for one more, in an array that has been made large
enough. -/
theorem FifoList.Segment.push (h : f.Linear xs) (hroom : xs.length + 1 < f.fifoSize) (data : α) :
    ({ f with
      fifoData := Function.update f.fifoData f.fifoEnd data
      fifoEnd := (f.fifoEnd + 1) % f.fifoSize } : FifoList α).Segment (xs ++ [data]) := by
  have hend := h.finish
  have hlt := h.room
  have hlen : (xs ++ [data]).length = xs.length + 1 := by simp
  constructor
  · show (f.fifoEnd + 1) % f.fifoSize = (f.fifoStart + (xs ++ [data]).length) % f.fifoSize
    rw [hlen, hend, Nat.add_assoc]
  · show f.fifoStart < f.fifoSize
    omega
  · show f.fifoStart + (xs ++ [data]).length ≤ f.fifoSize
    omega
  · show (xs ++ [data]).length < f.fifoSize
    omega
  · intro i hi
    show Function.update f.fifoData f.fifoEnd data (f.fifoStart + i) = _
    by_cases hlast : i = xs.length
    · subst hlast
      rw [← hend, Function.update_self, List.getElem_concat_length]
      rfl
    · rw [Function.update_of_ne (by omega), List.getElem_append_left (by omega)]
      exact h.data i (by omega)

/-- A push that meets an unbroken queue. -/
theorem fifoPush_segment (h : f.Segment xs) (hsize : f.fifoSize < 2 ^ 32)
    (hop : f.Unbroken (.push data)) :
    fifoInside f (.push data) ∧ (fifoPush f data).Segment (xs ++ [data]) := by
  have hcount := fifoCount_segment h hsize
  unfold fifoInside fifoPush
  simp only [hcount]
  by_cases hfull : xs.length = f.fifoSize - 1
  · -- the array is made larger, and the queue lies in one piece again
    have hgrown : (fifoIncr f).Linear xs ∧ xs.length + 1 < (fifoIncr f).fifoSize := by
      have hroom := h.room
      have hstart := h.start
      unfold fifoIncr
      rcases h.cases with hl | ⟨h0, hpos, heq⟩
      · have hend := hl.finish
        have hlt := hl.room
        rw [if_neg (by omega)]
        exact ⟨⟨hend, by show f.fifoEnd < f.fifoSize * 2; omega, hl.data⟩,
          by show xs.length + 1 < f.fifoSize * 2; omega⟩
      · rw [if_pos (by omega)]
        refine ⟨⟨?_, ?_, fun i hi => ?_⟩, ?_⟩
        · show f.fifoEnd + f.fifoSize = f.fifoStart + xs.length
          omega
        · show f.fifoEnd + f.fifoSize < f.fifoSize * 2
          omega
        · simp only
          rw [if_neg (by omega)]
          exact h.data i hi
        · show xs.length + 1 < f.fifoSize * 2
          omega
    rw [if_pos hfull, if_pos hfull]
    refine ⟨⟨fun _ => ?_, hgrown.1.room⟩, FifoList.Segment.push hgrown.1 hgrown.2 data⟩
    rw [h.finish]
    exact Nat.le_of_lt (Nat.mod_lt _ (Nat.zero_lt_of_lt h.start))
  · rw [if_neg hfull, if_neg hfull]
    have hroom := h.room
    rcases h.cases with hl | ⟨h0, hpos, heq⟩
    · exact ⟨hl.room, FifoList.Segment.push hl (by omega) data⟩
    · rcases hop with hop | ⟨-, hop⟩
      · omega
      · omega

theorem fifoPop_segment_nil [Inhabited α] (h : f.Segment []) : fifoPop f = none := by
  rcases h.cases with hl | ⟨-, -, heq⟩
  · exact fifoPop_nil hl
  · have := h.start
    rw [List.length_nil] at heq
    omega

/-- A pop that meets an unbroken queue. -/
theorem fifoPop_segment [Inhabited α] {x : α} (h : f.Segment (x :: xs))
    (hsize : f.fifoSize < 2 ^ 32)
    (hop : f.Unbroken .pop) :
    fifoInside f .pop ∧ ∃ f', fifoPop f = some (x, f') ∧ f'.Segment xs := by
  rcases h.cases with hl | ⟨h0, hpos, heq⟩
  · obtain ⟨f', hf', hl'⟩ := fifoPop_linear hl
    refine ⟨?_, f', hf', hl'.segment⟩
    have hend := hl.finish
    have hroom := hl.room
    rw [List.length_cons] at hend
    refine Or.inr ⟨by omega, ?_⟩
    simp only [Nat.mod_eq_of_lt (by omega : f.fifoStart + 1 < f.fifoSize)]
    intro hfew
    refine Or.inr ⟨fun _ => ⟨Nat.le_of_lt hroom, ?_⟩, fun hgt => ?_⟩
    · rw [fifoCount, if_pos (by show f.fifoStart + 1 ≤ f.fifoEnd; omega)] at hfew
      simp only at hfew ⊢
      omega
    · simp only at hgt
      omega
  · -- the queue reaches the end of the array
    have hx : f.fifoData f.fifoStart = x := h.data 0 (Nat.zero_lt_succ _)
    rw [List.length_cons] at heq
    have hstart := h.start
    have hne : f.fifoStart ≠ f.fifoEnd := by omega
    by_cases hlast : f.fifoStart + 1 = f.fifoSize
    · -- its last element goes, and it begins at slot 0 again
      obtain rfl : xs = [] := List.length_eq_zero_iff.mp (by omega)
      have hmod : (f.fifoStart + 1) % f.fifoSize = 0 := by rw [hlast, Nat.mod_self]
      have hzero : fifoCount ({ f with fifoStart := 0 } : FifoList α) = 0 := by
        rw [fifoCount, if_pos (Nat.zero_le _)]
        exact h0
      unfold fifoPop fifoInside
      simp only [hmod, hzero, if_neg hne]
      refine ⟨Or.inr ⟨hstart, fun _ => Or.inr ⟨fun hlt => ?_, fun hgt => ?_⟩⟩, _, by rw [hx], ?_⟩
      · simp only at hlt
        omega
      · simp only at hgt
        omega
      · have hnil : ∀ i (hi : i < ([] : List α).length) (p : Nat → α), p (0 + i) = [][i] :=
          fun i hi => absurd hi (Nat.not_lt_zero i)
        split
        · rw [fifoDecr]
          split
          · exact ⟨by simp [h0], by show 0 < f.fifoSize; omega, by simp,
              by show 0 < f.fifoSize; omega, fun i hi => hnil i hi _⟩
          · simp only [hzero]
            exact ⟨by simp, by show 0 < f.fifoSize / 2; omega, by simp,
              by show 0 < f.fifoSize / 2; omega, fun i hi => hnil i hi _⟩
        · exact ⟨by simp [h0], by show 0 < f.fifoSize; omega, by simp,
            by show 0 < f.fifoSize; omega, fun i hi => hnil i hi _⟩
    · have hmod : (f.fifoStart + 1) % f.fifoSize = f.fifoStart + 1 := Nat.mod_eq_of_lt (by omega)
      have hrest : ({ f with fifoStart := f.fifoStart + 1 } : FifoList α).Segment xs := by
        refine ⟨?_, ?_, ?_, ?_, fun i hi => ?_⟩
        · show f.fifoEnd = (f.fifoStart + 1 + xs.length) % f.fifoSize
          rw [show f.fifoStart + 1 + xs.length = f.fifoSize by omega, Nat.mod_self, h0]
        · show f.fifoStart + 1 < f.fifoSize
          omega
        · show f.fifoStart + 1 + xs.length ≤ f.fifoSize
          omega
        · show xs.length < f.fifoSize
          omega
        · have hd := h.data (i + 1) (by simpa using hi)
          rw [List.getElem_cons_succ] at hd
          rw [← hd]
          show f.fifoData (f.fifoStart + 1 + i) = _
          congr 1
          omega
      have hcount := fifoCount_segment hrest hsize
      -- it is not halved
      have hkeep : ¬xs.length < (f.fifoSize - 1) / 2 ∨ f.fifoSize = FIFO_CHUNK := by
        rcases hop with hop | ⟨-, hop | hop | hop⟩
        · omega
        · omega
        · exact Or.inr hop
        · exact Or.inl (by omega)
      unfold fifoPop fifoInside
      simp only [hmod, hcount, if_neg hne]
      refine ⟨Or.inr ⟨hstart, fun hfew => Or.inl ?_⟩, _, by rw [hx], ?_⟩
      · exact hkeep.resolve_left (fun hn => hn hfew)
      · rcases hkeep with hn | hchunk
        · rw [if_neg hn]
          exact hrest
        · split
          · rw [fifoDecr, if_pos hchunk]
            exact hrest
          · exact hrest

/-- A call on a broken queue gives it away: after a push the count is wrong, and a pop copies
outside the array. -/
theorem not_behavesAs_of_broken [Inhabited α] {op : FifoOp α} {ops : List (FifoOp α)}
    (h : f.Segment xs) (hsize : f.fifoSize < 2 ^ 32) (hop : ¬f.Unbroken op) :
    ¬BehavesAs f xs (op :: ops) := by
  intro hb
  obtain ⟨-, hin, -, hb⟩ := hb
  have hstart := h.start
  cases op with
  | push data =>
    unfold FifoList.Unbroken at hop
    rcases h.cases with hl | ⟨h0, hpos, heq⟩
    · exact hop (Or.inl (by have := hl.finish; omega))
    · have hcount := fifoCount_segment h hsize
      have hpush : fifoPush f data = { f with
          fifoData := Function.update f.fifoData f.fifoEnd data
          fifoEnd := 1 } := by
        rw [fifoPush, if_neg (by omega), h0, Nat.mod_eq_of_lt (by omega)]
      have hwrong : fifoCount (fifoPush f data) = (xs ++ [data]).length := by
        cases ops with
        | nil => exact hb
        | cons op ops => exact hb.1
      rw [hpush, fifoCount, if_neg (by show ¬f.fifoStart ≤ 1; omega)] at hwrong
      simp only [List.length_append, List.length_singleton] at hwrong
      rw [usub_eq (by omega) hsize] at hwrong
      omega
  | pop =>
    unfold FifoList.Unbroken at hop
    rcases h.cases with hl | ⟨h0, hpos, heq⟩
    · exact hop (Or.inl (by have := hl.finish; omega))
    · have hlast : f.fifoStart + 1 ≠ f.fifoSize := fun hc => hop (Or.inr ⟨h0, Or.inl hc⟩)
      have hchunk : f.fifoSize ≠ FIFO_CHUNK := fun hc => hop (Or.inr ⟨h0, Or.inr (Or.inl hc)⟩)
      have hfew : f.fifoSize - (f.fifoStart + 1) < (f.fifoSize - 1) / 2 := by
        by_contra hc
        exact hop (Or.inr ⟨h0, Or.inr (Or.inr (by omega))⟩)
      rcases hin with hin | ⟨-, hin⟩
      · omega
      · simp only [Nat.mod_eq_of_lt (by omega : f.fifoStart + 1 < f.fifoSize)] at hin
        have hcount : fifoCount ({ f with fifoStart := f.fifoStart + 1 } : FifoList α) =
            f.fifoSize - (f.fifoStart + 1) := by
          rw [fifoCount, if_neg (by show ¬f.fifoStart + 1 ≤ f.fifoEnd; omega)]
          show usub f.fifoSize (f.fifoStart + 1 + f.fifoEnd) = _
          rw [h0, Nat.add_zero, usub_eq (by omega) hsize]
        rw [hcount] at hin
        rcases hin hfew with hin | ⟨-, hin⟩
        · exact hchunk hin
        · have hcopy := (hin (by show f.fifoEnd < f.fifoStart + 1; omega)).2.1
          simp only [usub] at hcopy
          omega

/-- The run lemma, from any queue that lies in one piece. -/
theorem behavesAs_iff [Inhabited α] (ops : List (FifoOp α)) : ∀ {f : FifoList α} {xs : List α},
    f.Segment xs → (∀ pre, pre <+: ops → (fifoRun f pre).fifoSize < 2 ^ 32) →
      (BehavesAs f xs ops ↔ UnbrokenRun f ops) := by
  induction ops with
  | nil =>
    intro f xs h hsize
    have hcount := fifoCount_segment h (hsize [] (List.nil_prefix))
    exact ⟨fun _ => trivial, fun _ => hcount⟩
  | cons op ops ih =>
    intro f xs h hsize
    have hnow : f.fifoSize < 2 ^ 32 := hsize [] (List.nil_prefix)
    have hnext : ∀ pre, pre <+: ops → (fifoRun (fifoStep f op).2 pre).fifoSize < 2 ^ 32 :=
      fun pre hpre => hsize (op :: pre) (List.cons_prefix_cons.mpr ⟨rfl, hpre⟩)
    by_cases hop : f.Unbroken op
    swap
    · exact ⟨fun hb => absurd hb (not_behavesAs_of_broken h hnow hop), fun hu => absurd hu.1 hop⟩
    have hstep : fifoInside f op ∧ (fifoStep f op).1 = (queueStep xs op).1 ∧
        (fifoStep f op).2.Segment (queueStep xs op).2 := by
      cases op with
      | push data =>
        obtain ⟨hin, hseg⟩ := fifoPush_segment h hnow hop
        exact ⟨hin, rfl, hseg⟩
      | pop =>
        cases xs with
        | nil =>
          have hpop := fifoPop_segment_nil h
          have hstart : f.fifoStart = f.fifoEnd := by
            by_contra hne
            rw [fifoPop, if_neg hne] at hpop
            simp at hpop
          unfold fifoStep
          rw [hpop]
          exact ⟨Or.inl hstart, rfl, h⟩
        | cons x xs =>
          obtain ⟨hin, f', hpop, hseg⟩ := fifoPop_segment h hnow hop
          unfold fifoStep
          rw [hpop]
          exact ⟨hin, rfl, hseg⟩
    obtain ⟨hin, hres, hseg⟩ := hstep
    constructor
    · intro hb
      exact ⟨hop, (ih hseg hnext).mp hb.2.2.2⟩
    · intro hu
      exact ⟨fifoCount_segment h hnow, hin, hres, (ih hseg hnext).mpr hu.2⟩

/-- A run on a new queue gives what an ideal queue gives if and only if every call meets an
unbroken queue; `fifo_size` is an `unsigned`. -/
theorem fifoRun_queue [Inhabited α] (ops : List (FifoOp α))
    (hsize : ∀ pre, pre <+: ops → (fifoRun fifoInit pre : FifoList α).fifoSize < 2 ^ 32) :
    BehavesAs (fifoInit : FifoList α) [] ops ↔ UnbrokenRun (fifoInit : FifoList α) ops :=
  behavesAs_iff ops fifoInit_linear.segment hsize

/-- Elements that come and go, past the first growth of the ring. -/
def grownOps : List (FifoOp Nat) := (List.range 21).map .push ++ [.pop, .push 1, .pop]

theorem fifoRun_queue_grown :
    BehavesAs fifoInit [] grownOps ↔ UnbrokenRun fifoInit grownOps := by
  have hsize : ∀ pre ∈ grownOps.inits, (fifoRun fifoInit pre).fifoSize < 2 ^ 32 := by decide +kernel
  exact fifoRun_queue grownOps fun pre hpre => hsize pre ((List.mem_inits pre grownOps).mpr hpre)

/-- Two elements that come and go, and twenty that come. -/
def lostOps : List (FifoOp Nat) := [.push 0, .push 0, .pop, .pop] ++ (List.range 20).map .push

theorem behavesAs_count [Inhabited α] (ops : List (FifoOp α)) : ∀ {f : FifoList α} {q : List α},
    BehavesAs f q ops → fifoCount (fifoRun f ops) = (queueRun q ops).length := by
  induction ops with
  | nil =>
    intro f q h
    exact h
  | cons op ops ih =>
    intro f q h
    exact ih h.2.2.2

/-- With twenty elements in it the ring is taken for an empty one. -/
theorem fifoRun_loses :
    fifoPop (fifoRun fifoInit lostOps) = none ∧ (queueRun [] lostOps).length = 20 ∧
      ¬BehavesAs fifoInit [] lostOps := by
  refine ⟨by decide +kernel, by decide, fun h => ?_⟩
  have hcount := behavesAs_count lostOps h
  revert hcount
  decide +kernel

end Spegla
