import Spegla.Container.FifoSearch
import Spegla.Container.PatriciaRuns
import Spegla.Container.Stack

/-!
# Freeing queues and stacks (`container.c`, `fifo_free` and `stack_free`)

The elements are given to a callback, if there is one, before the structure is freed. The index
moves on in the argument of the callback.

- `fifoFree`, `stackFree`: the slots that the callback is called on, as the source has them. A loop
  that does not end needs more than any fuel.
- `FifoFreed`, `StackFreed`: the loops end, and the callback gets each of the elements once.
- `KeptRun`: no call breaks the ring, so that it holds what was pushed and not popped
  (`fifoRun_ring`).
- `fifoFree_iff`, `stackFree_iff`: when a ring and a stack are freed so.
- `WalkStack`, `stopWalk`: how `pat_ins`, `pat_rem` and a new `pat_walk` free the stack of a walk,
  which is only then without end when the walk was under way.
-/

namespace Spegla

variable {α : Type}

/-! ## The loops -/

/-- `for (i = from; i < stop;) if (free_fun != NULL) free_fun(f->fifo_data[i++]);` on an array of
`slots` slots. -/
def fifoFreeLoop (freeFun : Bool) (slots stop : Nat) : Nat → Nat → Option (List Nat)
  | 0, _ => none
  | fuel + 1, i =>
    if i < stop then
      if freeFun then
        if i < slots then (fifoFreeLoop freeFun slots stop fuel (i + 1)).map fun rest => i :: rest
        else none
      else fifoFreeLoop freeFun slots stop fuel i
    else some []

/-- `fifo_free`. -/
def fifoFree (freeFun : Bool) (f : FifoList α) (fuel : Nat) : Option (List Nat) :=
  if f.fifoStart ≠ f.fifoEnd then
    if f.fifoStart < f.fifoEnd then
      fifoFreeLoop freeFun f.fifoSize f.fifoEnd fuel f.fifoStart
    else
      (fifoFreeLoop freeFun f.fifoSize f.fifoSize fuel f.fifoStart).bind fun first =>
        (fifoFreeLoop freeFun f.fifoSize f.fifoEnd fuel 0).map fun second => first ++ second
  else some []

/-- The loop of `stack_free`: it starts behind the top and goes on until the index is 0. -/
def stackFreeLoop (freeFun : Bool) (slots : Nat) : Nat → Nat → Option (List Nat)
  | 0, _ => none
  | fuel + 1, i =>
    if i > 0 then
      if freeFun then
        if i < slots then
          (stackFreeLoop freeFun slots fuel ((i + 1) % 2 ^ 32)).map fun rest => i :: rest
        else none
      else stackFreeLoop freeFun slots fuel i
    else some []

/-- `stack_free`. -/
def stackFree (freeFun : Bool) (s : StackList α) (fuel : Nat) : Option (List Nat) :=
  stackFreeLoop freeFun s.stackData.length fuel s.stackEnd

/-! ## What they should do -/

/-- The slots in use, from the first one to the end of the array and on from its beginning. -/
def fifoSlots (f : FifoList α) : List Nat :=
  if f.fifoStart ≤ f.fifoEnd then List.range' f.fifoStart (f.fifoEnd - f.fifoStart)
  else List.range' f.fifoStart (f.fifoSize - f.fifoStart) ++ List.range' 0 f.fifoEnd

/-- `fifo_free` ends, and a callback gets each of the elements `xs` once and nothing else. -/
def FifoFreed (freeFun : Bool) (f : FifoList α) (xs : List α) : Prop :=
  ∃ fuel freed, fifoFree freeFun f fuel = some freed ∧
    (freed.map f.fifoData).Perm (if freeFun then xs else [])

/-- `stack_free` ends, and a callback gets each of the elements `xs` once and nothing else. -/
def StackFreed [Inhabited α] (freeFun : Bool) (s : StackList α) (xs : List α) : Prop :=
  ∃ fuel freed, stackFree freeFun s fuel = some freed ∧
    (freed.map fun i => s.stackData.getD i default).Perm (if freeFun then xs else [])

/-! ## Queues that keep their elements -/

/-- The call does not break the ring: a push does not fill one that goes on behind the end of its
array, and doubles no size past what an `unsigned` holds; a pop does not halve such a ring. -/
def FifoList.Keeps (f : FifoList α) : FifoOp α → Prop
  | .push _ => (f.fifoStart ≤ f.fifoEnd ∨ f.fifoEnd = 0 ∨ f.fifoEnd + 1 ≠ f.fifoStart) ∧
      (fifoCount f = f.fifoSize - 1 → f.fifoSize * 2 < 2 ^ 32)
  | .pop => f.fifoStart = f.fifoEnd ∨ f.StaysWhole 0 ((f.fifoSize - 1) / 2)

/-- Every call of a run is such a call. -/
def KeptRun [Inhabited α] (f : FifoList α) : List (FifoOp α) → Prop
  | [] => True
  | op :: ops => f.Keeps op ∧ KeptRun (fifoStep f op).2 ops

instance (f : FifoList α) (num few : Nat) : Decidable (f.StaysWhole num few) :=
  inferInstanceAs (Decidable (_ → _))

instance (f : FifoList α) : (op : FifoOp α) → Decidable (f.Keeps op)
  | .push _ => inferInstanceAs (Decidable (_ ∧ (_ → _)))
  | .pop => inferInstanceAs (Decidable (_ ∨ _))

instance decidableKeptRun [Inhabited α] :
    (ops : List (FifoOp α)) → (f : FifoList α) → Decidable (KeptRun f ops)
  | [], _ => isTrue trivial
  | op :: ops, f =>
    have := decidableKeptRun ops (fifoStep f op).2
    inferInstanceAs (Decidable (f.Keeps op ∧ KeptRun (fifoStep f op).2 ops))

section Kept

variable {f : FifoList α} {xs : List α}

theorem fifoInit_ring [Inhabited α] : (fifoInit : FifoList α).Ring [] where
  array := RingArray.nil (by show 0 < FIFO_CHUNK; decide)
  finish := rfl
  doubled := ⟨0, rfl⟩
  unsigned := by
    show FIFO_CHUNK < 2 ^ 32
    decide

/-- A ring without elements starts where it ends. -/
theorem FifoList.Ring.start_eq_end (h : f.Ring xs) : f.fifoStart = f.fifoEnd ↔ xs = [] := by
  rw [← List.length_eq_zero_iff]
  have hstart := h.array.start_lt
  obtain hend | ⟨hlt, hend⟩ := h.cases <;> omega

/-- A larger array holds the same elements, from the same slot on. -/
theorem fifoIncr_ring (h : f.Ring xs) (hsize : f.fifoSize * 2 < 2 ^ 32) :
    (fifoIncr f).Ring xs ∧ (fifoIncr f).fifoSize = f.fifoSize * 2 := by
  have hstart := h.array.start_lt
  have hroom := h.array.room
  obtain ⟨k, hk⟩ := h.doubled
  have hdoubled : ∃ k, f.fifoSize * 2 = FIFO_CHUNK * 2 ^ k :=
    ⟨k + 1, by rw [hk, Nat.pow_succ, Nat.mul_assoc]⟩
  have hmod : (f.fifoStart + xs.length) % (f.fifoSize * 2) = f.fifoStart + xs.length :=
    Nat.mod_eq_of_lt (by omega)
  rw [fifoIncr]
  split
  · next hgt =>
    obtain ⟨-, hend⟩ := h.cases.resolve_left (by omega)
    refine ⟨⟨?_, ?_, hdoubled, hsize⟩, rfl⟩
    · show RingArray _ f.fifoStart (f.fifoSize * 2) xs
      refine h.array.unwrap (by omega) (fun k hlt => ?_) (fun k hlt => ?_)
      · exact if_neg (by omega)
      · show (if f.fifoSize ≤ f.fifoSize + k ∧ f.fifoSize + k < f.fifoSize + f.fifoEnd then
          f.fifoData (f.fifoSize + k - f.fifoSize) else f.fifoData (f.fifoSize + k)) = f.fifoData k
        rw [if_pos (by omega), Nat.add_sub_cancel_left]
    · show f.fifoEnd + f.fifoSize = (f.fifoStart + xs.length) % (f.fifoSize * 2)
      omega
  · next hle =>
    have hend : f.fifoEnd = f.fifoStart + xs.length := h.cases.resolve_right (by omega)
    have hlt := h.end_lt
    refine ⟨⟨?_, ?_, hdoubled, hsize⟩, rfl⟩
    · show RingArray f.fifoData f.fifoStart (f.fifoSize * 2) xs
      refine h.array.unwrap (by omega) (fun k _ => rfl) (fun k hlt => ?_)
      omega
    · show f.fifoEnd = (f.fifoStart + xs.length) % (f.fifoSize * 2)
      omega

/-- Behind the last element of a ring there is room for one more. -/
theorem FifoList.Ring.push (h : f.Ring xs) (hroom : xs.length + 1 < f.fifoSize) (data : α) :
    ({ f with
      fifoData := Function.update f.fifoData f.fifoEnd data
      fifoEnd := (f.fifoEnd + 1) % f.fifoSize } : FifoList α).Ring (xs ++ [data]) := by
  refine ⟨?_, ?_, h.doubled, h.unsigned⟩
  · simp only [h.finish]
    exact h.array.push hroom data
  · show (f.fifoEnd + 1) % f.fifoSize = (f.fifoStart + (xs ++ [data]).length) % f.fifoSize
    rw [h.finish, Nat.mod_add_mod, List.length_append, List.length_singleton, Nat.add_assoc]

/-- A ring that is full has been made larger, but for one that goes on behind the end of its array.
-/
theorem fifoPush_ring (h : f.Ring xs) {data : α} (hop : f.Keeps (.push data)) :
    (fifoPush f data).Ring (xs ++ [data]) := by
  obtain ⟨hwhole, hsize⟩ := hop
  have hroom := h.array.room
  have hunsigned := h.unsigned
  rw [fifoPush]
  by_cases hfull : fifoCount f = f.fifoSize - 1
  · obtain ⟨hgrown, hdouble⟩ := fifoIncr_ring h (hsize hfull)
    simp only [if_pos hfull]
    exact hgrown.push (by omega) data
  · simp only [if_neg hfull]
    refine h.push ?_ data
    by_contra hno
    -- a ring that is full in one piece, or just reaches the end, is counted right
    have hcount : fifoCount f = f.fifoSize - 1 := by
      obtain hend | ⟨hlt, hend⟩ := h.cases
      · rw [fifoCount, if_pos (by omega)]
        omega
      · have hzero : f.fifoEnd = 0 := by omega
        rw [fifoCount, if_neg (by omega), hzero, Nat.add_zero, usub_eq (by omega) hunsigned]
        omega
    exact hfull hcount

theorem fifoPop_ring_nil [Inhabited α] (h : f.Ring []) : fifoPop f = none := by
  rw [fifoPop, if_pos (h.start_eq_end.mpr rfl)]

/-- A pop that breaks nothing gives the first element. -/
theorem fifoPop_ring [Inhabited α] {x : α} (h : f.Ring (x :: xs)) (hop : f.Keeps .pop) :
    ∃ f', fifoPop f = some (x, f') ∧ f'.Ring xs := by
  have hwhole : f.StaysWhole 0 ((f.fifoSize - 1) / 2) :=
    hop.resolve_left fun hempty => List.cons_ne_nil _ _ (h.start_eq_end.mp hempty)
  obtain ⟨-, f', hrem, hring⟩ := (fifoNumRem_zero h (Eq.refl xs.length)).mpr ⟨hwhole, rfl⟩
  rw [fifoNumRem, if_pos rfl] at hrem
  obtain ⟨⟨y, g⟩, hpop, hsame⟩ := Option.map_eq_some_iff.mp hrem
  cases hsame
  exact ⟨g, hpop, hring⟩

/-- A call that breaks nothing does to the ring what it does to the ideal queue. -/
theorem fifoStep_ring [Inhabited α] (h : f.Ring xs) {op : FifoOp α} (hop : f.Keeps op) :
    (fifoStep f op).2.Ring (queueStep xs op).2 := by
  cases op with
  | push data => exact fifoPush_ring h hop
  | pop =>
    cases xs with
    | nil =>
      rw [fifoStep, fifoPop_ring_nil h]
      exact h
    | cons x xs =>
      obtain ⟨f', hpop, hring⟩ := fifoPop_ring h hop
      rw [fifoStep, hpop]
      exact hring

/-- So the ring holds what was pushed and not popped. -/
theorem fifoRun_ring [Inhabited α] (ops : List (FifoOp α)) {f : FifoList α} {xs : List α}
    (h : f.Ring xs) (hrun : KeptRun f ops) : (fifoRun f ops).Ring (queueRun xs ops) := by
  induction ops generalizing f xs with
  | nil => exact h
  | cons op ops ih => exact ih (fifoStep_ring h hrun.1) hrun.2

/-- The slots in use are those of the elements, in their order. -/
theorem FifoList.Ring.slots_data (h : f.Ring xs) : (fifoSlots f).map f.fifoData = xs := by
  have hstart := h.array.start_lt
  have hroom := h.array.room
  rw [fifoSlots]
  by_cases hle : f.fifoStart ≤ f.fifoEnd
  · have hend : f.fifoEnd = f.fifoStart + xs.length := h.cases.resolve_right (by omega)
    have hlt := h.end_lt
    rw [if_pos hle]
    refine List.ext_getElem (by simp; omega) fun i hi hi' => ?_
    rw [List.getElem_map, List.getElem_range', Nat.one_mul, h.array.getElem hi',
      RingArray.slot_front (by omega)]
  · obtain ⟨-, hend⟩ := h.cases.resolve_left (by omega)
    rw [if_neg hle]
    refine List.ext_getElem (by simp; omega) fun i hi hi' => ?_
    rw [List.getElem_map, h.array.getElem hi']
    congr 1
    by_cases hfront : i < f.fifoSize - f.fifoStart
    · rw [List.getElem_append_left (by rwa [List.length_range']), List.getElem_range', Nat.one_mul,
        RingArray.slot_front (by omega)]
    · rw [List.getElem_append_right (by rw [List.length_range']; omega), List.getElem_range',
        List.length_range', Nat.one_mul, Nat.zero_add,
        RingArray.slot_back hstart (by omega) (by omega)]
      omega

end Kept

/-! ## Queues -/

variable {freeFun : Bool} {slots stop fuel i : Nat} {freed : List Nat}

/-- With a callback, the loop goes through the slots one after the other. -/
theorem fifoFreeLoop_callback (h : stop ≤ slots) (hfuel : stop - i < fuel) :
    fifoFreeLoop true slots stop fuel i = some (List.range' i (stop - i)) := by
  induction fuel generalizing i with
  | zero => exact absurd hfuel (Nat.not_lt_zero _)
  | succ fuel ih =>
    rw [fifoFreeLoop]
    by_cases hi : i < stop
    · rw [if_pos hi, if_pos rfl, if_pos (by omega), ih (by omega),
        show stop - i = stop - (i + 1) + 1 by omega, List.range'_succ]
      rfl
    · rw [if_neg hi, show stop - i = 0 by omega]
      rfl

/-- Without one, it does not get away from a slot. -/
theorem fifoFreeLoop_null (hi : i < stop) (fuel : Nat) :
    fifoFreeLoop false slots stop fuel i = none := by
  induction fuel with
  | zero => rfl
  | succ fuel ih =>
    rw [fifoFreeLoop, if_pos hi]
    exact ih

/-- A ring is freed as it should be exactly when it is empty, or there is a callback. -/
theorem fifoFree_iff {f : FifoList α} {xs : List α} (h : f.Ring xs) :
    FifoFreed freeFun f xs ↔ xs = [] ∨ freeFun = true := by
  have hsame := h.start_eq_end
  have hstart := h.array.start_lt
  have hend := h.end_lt
  constructor
  · rintro ⟨fuel, freed, hrun, -⟩
    by_contra hno
    obtain ⟨hne, hfun⟩ := not_or.mp hno
    obtain rfl : freeFun = false := Bool.eq_false_iff.mpr hfun
    rw [fifoFree, if_pos (fun heq => hne (hsame.mp heq))] at hrun
    split at hrun
    · next hlt =>
      rw [fifoFreeLoop_null hlt] at hrun
      cases hrun
    · rw [fifoFreeLoop_null hstart] at hrun
      cases hrun
  · rintro (rfl | rfl)
    · refine ⟨0, [], ?_, ?_⟩
      · rw [fifoFree, if_neg (not_not.mpr (hsame.mpr rfl))]
      · cases freeFun <;> exact List.Perm.refl _
    · refine ⟨f.fifoSize + f.fifoEnd + 1, fifoSlots f, ?_, ?_⟩
      · rw [fifoFree, fifoSlots]
        by_cases hempty : f.fifoStart = f.fifoEnd
        · rw [if_neg (not_not.mpr hempty), if_pos (Nat.le_of_eq hempty), hempty, Nat.sub_self]
          rfl
        rw [if_pos hempty]
        by_cases hlt : f.fifoStart < f.fifoEnd
        · rw [if_pos hlt, if_pos (Nat.le_of_lt hlt)]
          exact fifoFreeLoop_callback (Nat.le_of_lt hend) (by omega)
        · rw [if_neg hlt, if_neg (by omega), fifoFreeLoop_callback (Nat.le_refl _) (by omega),
            fifoFreeLoop_callback (Nat.le_of_lt hend) (by omega)]
          rfl
      · rw [h.slots_data]
        exact List.Perm.refl _

/-! ## Stacks -/

/-- The loop goes on from the slot behind the top to the end of the block and beyond it, if it moves
at all. -/
theorem stackFreeLoop_endless (hslots : freeFun = true → slots < 2 ^ 32) (hi : 0 < i) (fuel : Nat) :
    stackFreeLoop freeFun slots fuel i = none := by
  induction fuel generalizing i with
  | zero => rfl
  | succ fuel ih =>
    rw [stackFreeLoop, if_pos hi]
    cases freeFun with
    | false => exact ih hi
    | true =>
      rw [if_pos rfl]
      split
      · next hlt =>
        have := hslots rfl
        rw [ih (by omega)]
        rfl
      · rfl

section Blocks

variable [Inhabited α] {s : StackList α}

/-- A block has fewer than 2³² slots. -/
def StackList.Allocated (s : StackList α) : Prop :=
  s.stackSize < 2 ^ 32 ∧ s.stackData.length < 2 ^ 32

theorem stackStep_allocated (h : s.Allocated) (op : StackOp α) : (stackStep s op).2.Allocated := by
  obtain ⟨hsize, hblock⟩ := h
  cases op with
  | push data =>
    have hgrown : (if s.stackSize = s.stackEnd then stackIncr s else s).Allocated := by
      split
      · refine ⟨Nat.mod_lt _ (Nat.two_pow_pos _), ?_⟩
        show (realloc s.stackData _).length < 2 ^ 32
        rw [realloc_length]
        exact Nat.mod_lt _ (Nat.two_pow_pos _)
      · exact ⟨hsize, hblock⟩
    refine ⟨hgrown.1, ?_⟩
    show (List.set _ _ _).length < 2 ^ 32
    rw [List.length_set]
    exact hgrown.2
  | pop =>
    rw [stackStep, stackPop]
    by_cases hempty : s.stackEnd = 0
    · rw [if_pos hempty]
      exact ⟨hsize, hblock⟩
    · rw [if_neg hempty]
      simp only
      split
      · rw [stackDecr]
        split
        · exact ⟨hsize, hblock⟩
        · refine ⟨hsize, ?_⟩
          show (realloc s.stackData (s.stackSize / 2)).length < 2 ^ 32
          rw [realloc_length]
          omega
      · exact ⟨hsize, hblock⟩

theorem stackRun_allocated (ops : List (StackOp α)) {s : StackList α} (h : s.Allocated) :
    (stackRun s ops).Allocated := by
  induction ops generalizing s with
  | nil => exact h
  | cons op ops ih => exact ih (stackStep_allocated h op)

theorem stackInit_allocated : (stackInit : StackList α).Allocated := by
  refine ⟨by show STACK_CHUNK < 2 ^ 32; decide, ?_⟩
  show (List.replicate STACK_CHUNK default).length < 2 ^ 32
  rw [List.length_replicate]
  decide

/-- A stack is freed as it should be exactly when it is empty. -/
theorem stackFree_iff {xs : List α} (h : s.Allocated) :
    StackFreed freeFun s xs ↔ s.stackEnd = 0 ∧ (freeFun = true → xs = []) := by
  constructor
  · rintro ⟨fuel, freed, hrun, hperm⟩
    have hempty : s.stackEnd = 0 := by
      by_contra hne
      rw [stackFree, stackFreeLoop_endless (fun _ => h.2) (Nat.pos_of_ne_zero hne)] at hrun
      cases hrun
    refine ⟨hempty, fun hfun => ?_⟩
    have hnone : freed = [] := by
      rw [stackFree, hempty] at hrun
      cases fuel with
      | zero => cases hrun
      | succ fuel =>
        rw [stackFreeLoop, if_neg (Nat.lt_irrefl 0)] at hrun
        exact (Option.some.inj hrun).symm
    rw [hnone, if_pos hfun] at hperm
    exact hperm.symm.eq_nil
  · rintro ⟨hempty, hxs⟩
    refine ⟨1, [], ?_, ?_⟩
    · rw [stackFree, hempty]
      rfl
    · cases freeFun with
      | false => exact List.Perm.refl _
      | true =>
        rw [hxs rfl]
        exact List.Perm.refl _

end Blocks

/-! ## The stack of a walk -/

/-- `pat_walk_stack`, a stack of pointers to nodes. It is not set to `NULL` when it is freed. -/
inductive WalkStack where
  | null
  | live (s : StackList (List Bool))
  | freed
deriving DecidableEq, Repr

/-- `if (s != NULL) stack_free(s, NULL);` A stack that has been freed cannot be freed. -/
def stopWalk (w : WalkStack) (fuel : Nat) : Option WalkStack :=
  match w with
  | .null => some .null
  | .live s => (stackFree false s fuel).map fun _ => .freed
  | .freed => none

/-- `pat_ins`, which stops a walk first. -/
def patInsStop (w : WalkStack) (pat : PatTree α) (key : List UInt8) (keyLen : Nat) (data : α)
    (patBit fuel : Nat) : Option (Option (Bool × PatTree α) × WalkStack) :=
  (stopWalk w fuel).map fun w => (patIns pat key keyLen data patBit, w)

/-- `pat_rem`, which stops a walk first. -/
def patRemStop (w : WalkStack) (pat : PatTree α) (key : List UInt8) (keyLen fuel : Nat) :
    Option (Option (Option (α × PatTree α)) × WalkStack) :=
  (stopWalk w fuel).map fun w => (patRem pat key keyLen, w)

/-- A walk is stopped when there is no stack, or an empty one that has not been freed. -/
theorem stopWalk_iff (w : WalkStack) :
    (∃ fuel, (stopWalk w fuel).isSome) ↔ w = .null ∨ ∃ s, w = .live s ∧ s.stackEnd = 0 := by
  cases w with
  | null => exact ⟨fun _ => Or.inl rfl, fun _ => ⟨0, rfl⟩⟩
  | freed =>
    constructor
    · rintro ⟨fuel, h⟩
      cases h
    · rintro (h | ⟨s, h, -⟩) <;> cases h
  | live s =>
    constructor
    · rintro ⟨fuel, h⟩
      refine Or.inr ⟨s, rfl, ?_⟩
      by_contra hne
      rw [stopWalk, stackFree,
        stackFreeLoop_endless (fun hfun => absurd hfun Bool.false_ne_true)
          (Nat.pos_of_ne_zero hne)] at h
      cases h
    · rintro (h | ⟨s', h, hempty⟩)
      · cases h
      · cases h
        refine ⟨1, ?_⟩
        rw [stopWalk, stackFree, hempty]
        rfl

end Spegla
