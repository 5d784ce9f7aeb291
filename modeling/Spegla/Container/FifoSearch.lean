import Spegla.Container.Fifo
import Spegla.Lib.RingArray

/-!
# Elements by number and by predicate (`container.c`, `fifo_find_peek` to `fifo_num_rem`)

- `fifoFindPeek`, `fifoFindRem`, `fifoNumPeek`, `fifoNumRem`, as the source has them.
- `FifoList.Ring`: the ring holds the elements of a list, wherever it starts.
- `NumPeekRight`, `FindPeekRight`, `NumRemRight`, `FindRemRight`: what the four are for.
- `FifoList.Bounded`, `FifoList.Finds`, `FifoList.FindsToRem`: what this needs of the number, the
  array and its slots that are not in use.
- `fifoSearch_right`: exactly when they do that. `fifo_find_peek` looks at the slots from slot 0 on;
  `fifo_num_rem` does not give the element; and no ring that goes on behind the end of its array may
  be halved.
-/

namespace Spegla

variable {α : Type}

/-! ## The four functions -/

/-- The loop of `fifo_find_peek`, at slot `i`, with `k` elements to go. -/
def fifoFindLoop (f : FifoList α) (findFun : α → Bool) : Nat → Nat → Nat → Option (α × Nat)
  | 0, _, _ => none
  | k + 1, i, j =>
    if findFun (f.fifoData i) then some (f.fifoData i, j)
    else fifoFindLoop f findFun k ((i + 1) % f.fifoSize) (j + 1)

/-- `fifo_find_peek`: the element and its number. -/
def fifoFindPeek (f : FifoList α) (findFun : α → Bool) : Option (α × Nat) :=
  fifoFindLoop f findFun (fifoCount f) 0 0

/-- The slot of an element; the sum is one of `unsigned`s. -/
def fifoPos (f : FifoList α) (num : Nat) : Nat := (num + f.fifoStart) % 2 ^ 32 % f.fifoSize

/-- `fifo_num_peek`. -/
def fifoNumPeek (f : FifoList α) (num : Nat) : Option α :=
  if num > fifoCount f then none else some (f.fifoData (fifoPos f num))

/-- `fifo_num_rem` without its last test: the element goes, and one side of the ring is moved. -/
def fifoCut (f : FifoList α) (num : Nat) : FifoList α :=
  let pos := fifoPos f num
  if f.fifoStart < pos then
    { f with
      fifoData := memmove f.fifoData (f.fifoStart + 1) f.fifoStart (pos - f.fifoStart)
      fifoStart := f.fifoStart + 1 }
  else
    { f with
      fifoData := memmove f.fifoData pos (pos + 1) (usub f.fifoEnd pos)
      fifoEnd := usub f.fifoEnd 1 }

/-- `fifo_num_rem`: what is stored in `*data`, if anything is, and the queue after it. -/
def fifoNumRem [Inhabited α] (f : FifoList α) (num : Nat) : Option (Option α × FifoList α) :=
  if num = 0 then (fifoPop f).map fun r => (some r.1, r.2)
  else if num > fifoCount f then none
  else
    let f := fifoCut f num
    some (none, if fifoCount f < f.fifoSize / 2 then fifoDecr f else f)

/-- `fifo_find_rem`: the element, its number, and the queue after it. -/
def fifoFindRem [Inhabited α] (f : FifoList α) (findFun : α → Bool) :
    Option (α × Nat × FifoList α) :=
  match fifoFindPeek f findFun with
  | none => none
  | some (data, n) =>
    match fifoNumRem f n with
    | none => none
    | some (data', f') => some (data'.getD data, n, f')

/-- Every slot that `fifo_num_rem` uses lies in the array. -/
def fifoNumRemInside (f : FifoList α) (num : Nat) : Prop :=
  if num = 0 then fifoInside f .pop
  else num ≤ fifoCount f →
    (fifoPos f num < f.fifoSize ∧
      (fifoPos f num ≤ f.fifoStart → fifoPos f num + 1 + usub f.fifoEnd (fifoPos f num) ≤
        f.fifoSize)) ∧
    (fifoCount (fifoCut f num) < f.fifoSize / 2 → fifoDecrInside (fifoCut f num))

/-! ## Rings -/

/-- The ring holds `xs`. Its array has been doubled some number of times, and its size is an
`unsigned`. -/
structure FifoList.Ring (f : FifoList α) (xs : List α) : Prop where
  array : RingArray f.fifoData f.fifoStart f.fifoSize xs
  finish : f.fifoEnd = (f.fifoStart + xs.length) % f.fifoSize
  doubled : ∃ k, f.fifoSize = FIFO_CHUNK * 2 ^ k
  unsigned : f.fifoSize < 2 ^ 32

/-- The first element of a list with the property, with its number. -/
def firstFound (findFun : α → Bool) (l : List α) : Option (α × Nat) :=
  (l.findIdx? findFun).bind fun n => l[n]?.map (·, n)

/-- The element with this number is read; there is none behind the last. -/
def NumPeekRight (f : FifoList α) (xs : List α) (num : Nat) : Prop := fifoNumPeek f num = xs[num]?

/-- The first element with the property is found, with its number. -/
def FindPeekRight (f : FifoList α) (xs : List α) (findFun : α → Bool) : Prop :=
  fifoFindPeek f findFun = firstFound findFun xs

/-- The element with this number is given, and the others are left. -/
def NumRemRight [Inhabited α] (f : FifoList α) (xs : List α) (num : Nat) : Prop :=
  fifoNumRemInside f num ∧
    ∃ f', fifoNumRem f num = some (xs[num]?, f') ∧ f'.Ring (xs.eraseIdx num)

/-- The first element with the property is given, with its number, and the others are left. -/
def FindRemRight [Inhabited α] (f : FifoList α) (xs : List α) (findFun : α → Bool) : Prop :=
  match xs.findIdx? findFun with
  | none => fifoFindRem f findFun = none
  | some k => fifoNumRemInside f k ∧
      ∃ x f', fifoFindRem f findFun = some (x, k, f') ∧ xs[k]? = some x ∧ f'.Ring (xs.eraseIdx k)

/-! ## What they need -/

/-- Where the ring starts and ends without the element with this number. -/
def FifoList.ends (f : FifoList α) (num : Nat) : Nat × Nat :=
  if f.fifoStart + num < f.fifoSize then ((f.fifoStart + 1) % f.fifoSize, f.fifoEnd)
  else (f.fifoStart, f.fifoEnd - 1)

/-- If the ring goes on behind the end of the array without that element, it is not halved then. -/
def FifoList.StaysWhole (f : FifoList α) (num few : Nat) : Prop :=
  (f.ends num).2 < (f.ends num).1 → f.fifoSize = FIFO_CHUNK ∨
    few ≤ usub f.fifoSize ((f.ends num).1 + (f.ends num).2)

/-- The sum of an element's number and the start is an `unsigned`, or wraps around to a slot with
the same element. -/
def FifoList.Reaches (f : FifoList α) (num : Nat) : Prop :=
  f.fifoStart + num < 2 ^ 32 ∨
    f.fifoData (fifoPos f num) = f.fifoData ((f.fifoStart + num) % f.fifoSize)

/-- The numbers for which the bound of `fifo_num_peek` is right when there are `n` elements: it lets
number `n` pass, and takes the elements at the beginning of the array off where it should add them.
-/
def FifoList.Bounded (f : FifoList α) (n num : Nat) : Prop :=
  if f.fifoStart ≤ f.fifoEnd then num ≠ n
  else if 2 * f.fifoEnd ≤ n then
    (num < n → num + 2 * f.fifoEnd ≤ n) ∧ (f.fifoEnd = 0 → num ≠ n)
  else (num < n → num + 2 * f.fifoEnd ≤ n + 2 ^ 32) ∧
    (n ≤ num → n + 2 ^ 32 < num + 2 * f.fifoEnd)

/-- How many slots are searched when there are `n` elements. -/
def FifoList.searched (f : FifoList α) (n : Nat) : Nat :=
  if f.fifoStart ≤ f.fifoEnd then n
  else if 2 * f.fifoEnd ≤ n then n - 2 * f.fifoEnd else n + 2 ^ 32 - 2 * f.fifoEnd

/-- No slot that is searched, without being in use, holds something with the property. -/
def FifoList.FreeOf (f : FifoList α) (n : Nat) (findFun : α → Bool) : Prop :=
  ∀ j < f.fifoStart, (f.fifoStart ≤ f.fifoEnd ∨ f.fifoEnd ≤ j) → j < f.searched n →
    findFun (f.fifoData j) = false

/-- Element `k`, the first with the property, comes up at slot `k`: the ring starts at slot 0, or
what lies in that slot in front of the start happens to be the same. -/
def FifoList.ComesUp (f : FifoList α) (xs : List α) (findFun : α → Bool) (k : Nat) : Prop :=
  f.fifoStart = 0 ∨ k < f.fifoStart ∧ k < f.searched xs.length ∧ xs[k]? = some (f.fifoData k) ∧
    ∀ j < k, findFun (f.fifoData j) = false

/-- When the first element with the property is found, with its number. -/
def FifoList.Finds (f : FifoList α) (xs : List α) (findFun : α → Bool) : Prop :=
  match xs.findIdx? findFun with
  | none => f.FreeOf xs.length findFun
  | some k => f.ComesUp xs findFun k

/-- When it is found and can be removed: nothing but the property of slot 0 counts for the first
element, which is popped; another has a slot that an `unsigned` reaches; and the ring is not broken
when it goes. -/
def FifoList.FindsToRem (f : FifoList α) (xs : List α) (findFun : α → Bool) : Prop :=
  match xs.findIdx? findFun with
  | none => f.FreeOf xs.length findFun
  | some k =>
    if k = 0 then
      (f.fifoStart = 0 ∨ 0 < f.searched xs.length ∧ findFun (f.fifoData 0) = true) ∧
        f.StaysWhole 0 ((f.fifoSize - 1) / 2)
    else f.ComesUp xs findFun k ∧ f.fifoStart + k < 2 ^ 32 ∧ f.StaysWhole k (f.fifoSize / 2)

variable {f : FifoList α} {xs ys : List α} {num : Nat} {findFun : α → Bool}

/-- What `fifo_find_peek` looks at. -/
def FifoList.slots (f : FifoList α) : List α :=
  (List.range (fifoCount f)).map fun j => f.fifoData (j % f.fifoSize)

theorem firstFound_cons (x : α) (l : List α) : firstFound findFun (x :: l) =
    if findFun x then some (x, 0) else (firstFound findFun l).map fun r => (r.1, r.2 + 1) := by
  rw [firstFound, List.findIdx?_cons]
  split
  · rfl
  · rw [firstFound, Option.bind_map, Option.map_bind]
    congr 1
    funext n
    show (x :: l)[n + 1]?.map (·, n + 1) = _
    rw [List.getElem?_cons_succ, Function.comp_apply, Option.map_map]
    rfl

theorem firstFound_of_find (l : List α) {n : Nat} (h : l.findIdx? findFun = some n) :
    ∃ x, l[n]? = some x ∧ l.find? findFun = some x ∧ firstFound findFun l = some (x, n) := by
  obtain ⟨hn, -⟩ := List.findIdx?_eq_some_iff_getElem.mp h
  have hx := List.getElem?_eq_getElem hn
  refine ⟨l[n], hx, ?_, ?_⟩
  · rw [List.find?_eq_bind_findIdx?_getElem?, h]
    exact hx
  · rw [firstFound, h, Option.bind_some, hx]
    rfl

theorem fifoFindLoop_eq (k i j : Nat) : fifoFindLoop f findFun k (i % f.fifoSize) j =
    (firstFound findFun ((List.range' i k).map fun j => f.fifoData (j % f.fifoSize))).map
      fun r => (r.1, j + r.2) := by
  induction k generalizing i j with
  | zero => rfl
  | succ k ih =>
    rw [fifoFindLoop, Nat.mod_add_mod, ih, List.range'_succ, List.map_cons, firstFound_cons]
    split
    · rfl
    · rw [Option.map_map]
      congr 1
      funext r
      rw [Function.comp_apply, Nat.add_assoc, Nat.add_comm 1]

theorem fifoFindPeek_eq (f : FifoList α) (findFun : α → Bool) :
    fifoFindPeek f findFun = firstFound findFun f.slots := by
  have hloop : fifoFindLoop f findFun (fifoCount f) (0 % f.fifoSize) 0 = _ :=
    fifoFindLoop_eq (fifoCount f) 0 0
  rw [Nat.zero_mod, ← List.range_eq_range'] at hloop
  rw [fifoFindPeek, hloop]
  simp only [Nat.zero_add, Option.map_id']
  rfl

theorem findPeekRight_slots (f : FifoList α) (xs : List α) (findFun : α → Bool) :
    FindPeekRight f xs findFun ↔ f.slots.findIdx? findFun = xs.findIdx? findFun ∧
      f.slots.find? findFun = xs.find? findFun := by
  rw [FindPeekRight, fifoFindPeek_eq]
  constructor
  · intro h
    cases hslots : f.slots.findIdx? findFun with
    | none =>
      cases hxs : xs.findIdx? findFun with
      | none => simp [List.find?_eq_bind_findIdx?_getElem?, hslots, hxs]
      | some k =>
        obtain ⟨x, -, -, hfound⟩ := firstFound_of_find xs hxs
        rw [hfound, firstFound, hslots] at h
        cases h
    | some n =>
      obtain ⟨x, -, hfind, hfound⟩ := firstFound_of_find f.slots hslots
      cases hxs : xs.findIdx? findFun with
      | none =>
        rw [hfound, firstFound, hxs] at h
        cases h
      | some k =>
        obtain ⟨y, -, hfind', hfound'⟩ := firstFound_of_find xs hxs
        rw [hfound, hfound'] at h
        cases h
        exact ⟨rfl, hfind.trans hfind'.symm⟩
  · rintro ⟨hidx, hfind⟩
    cases hxs : xs.findIdx? findFun with
    | none =>
      rw [firstFound, firstFound, hidx, hxs]
      rfl
    | some k =>
      obtain ⟨x, -, hx, hfound⟩ := firstFound_of_find f.slots (hidx.trans hxs)
      obtain ⟨y, -, hy, hfound'⟩ := firstFound_of_find xs hxs
      rw [hfound, hfound', Option.some.inj (hx.symm.trans (hfind.trans hy))]

/-! ## Elements by number -/

namespace FifoList.Ring

theorem size_pos (h : f.Ring xs) : 0 < f.fifoSize := Nat.zero_lt_of_lt h.array.start_lt

theorem end_lt (h : f.Ring xs) : f.fifoEnd < f.fifoSize := by
  rw [h.finish]
  exact Nat.mod_lt _ h.size_pos

/-- The ring ends before the end of the array, or goes on behind it. -/
theorem cases (h : f.Ring xs) :
    f.fifoEnd = f.fifoStart + xs.length ∨
      f.fifoEnd < f.fifoStart ∧ f.fifoEnd + f.fifoSize = f.fifoStart + xs.length := by
  have hstart := h.array.start_lt
  have hroom := h.array.room
  have hend := h.finish
  by_cases hfront : f.fifoStart + xs.length < f.fifoSize
  · exact .inl (hend.trans (RingArray.slot_front hfront))
  · rw [RingArray.slot_back hstart hroom (by omega)] at hend
    exact .inr (by omega)

/-- One list only is in a ring. -/
theorem unique (h : f.Ring xs) (h' : f.Ring ys) : xs = ys := by
  refine h.array.unique h'.array ?_
  obtain hend | ⟨hlt, hend⟩ := h.cases
  · obtain hend' | ⟨hlt', hend'⟩ := h'.cases <;> omega
  · obtain hend' | ⟨hlt', hend'⟩ := h'.cases <;> omega

/-- An array that is halved has been doubled before. -/
theorem half (h : f.Ring xs) (hsize : f.fifoSize ≠ FIFO_CHUNK) :
    f.fifoSize = 2 * (f.fifoSize / 2) ∧ ∃ k, f.fifoSize / 2 = FIFO_CHUNK * 2 ^ k := by
  obtain ⟨k, hk⟩ := h.doubled
  cases k with
  | zero => exact absurd (by simpa using hk) hsize
  | succ k =>
    rw [Nat.pow_succ, ← Nat.mul_assoc] at hk
    have heq : f.fifoSize / 2 = FIFO_CHUNK * 2 ^ k := by omega
    exact ⟨by omega, k, heq⟩

end FifoList.Ring

theorem fifoPos_eq (h : f.fifoStart + num < 2 ^ 32) :
    fifoPos f num = (f.fifoStart + num) % f.fifoSize := by
  rw [fifoPos, Nat.add_comm num, Nat.mod_eq_of_lt h]

/-- What `FIFO_COUNT` makes of a ring. -/
theorem fifoCount_ring (h : f.Ring xs) : fifoCount f = f.searched xs.length := by
  have hunsigned := h.unsigned
  have hstart := h.array.start_lt
  have hend := h.end_lt
  rw [fifoCount, FifoList.searched]
  obtain hend' | ⟨hlt, hend'⟩ := h.cases
  · rw [if_pos (by omega), if_pos (by omega)]
    omega
  · rw [if_neg (by omega), if_neg (by omega), usub]
    split <;> omega

theorem bounded_iff (h : f.Ring xs) (num : Nat) :
    (num < xs.length ↔ num ≤ fifoCount f) ↔ f.Bounded xs.length num := by
  rw [fifoCount_ring h, FifoList.searched, FifoList.Bounded]
  have hstart := h.array.start_lt
  have hunsigned := h.unsigned
  have hend := h.end_lt
  obtain hend' | ⟨hlt, hend'⟩ := h.cases
  · have hwhole : f.fifoStart ≤ f.fifoEnd := by omega
    rw [if_pos hwhole, if_pos hwhole]
    omega
  · have hbroken : ¬f.fifoStart ≤ f.fifoEnd := Nat.not_le.mpr hlt
    rw [if_neg hbroken, if_neg hbroken]
    split <;> omega

theorem numPeekRight_iff (h : f.Ring xs) (num : Nat) :
    NumPeekRight f xs num ↔
      f.Bounded xs.length num ∧ (num < xs.length → f.Reaches num) := by
  rw [NumPeekRight, fifoNumPeek, ← bounded_iff h]
  by_cases hnum : num < xs.length
  · rw [h.array.slot num hnum]
    by_cases hcount : num ≤ fifoCount f
    · rw [if_neg (Nat.not_lt.mpr hcount)]
      have hreach : f.fifoData (fifoPos f num) = f.fifoData ((f.fifoStart + num) % f.fifoSize) ↔
          f.Reaches num := by
        constructor
        · exact Or.inr
        · rintro (hsum | hsame)
          · rw [fifoPos_eq hsum]
          · exact hsame
      simp [hnum, hcount, hreach]
    · simp [hnum, hcount]
  · rw [List.getElem?_eq_none (Nat.le_of_not_lt hnum)]
    simp [hnum]

/-! ## Elements by predicate -/

theorem slots_length (f : FifoList α) : f.slots.length = fifoCount f := by
  rw [FifoList.slots, List.length_map, List.length_range]

theorem slots_getElem {j : Nat} (hj : j < f.slots.length) :
    f.slots[j] = f.fifoData (j % f.fifoSize) := by
  simp only [FifoList.slots, List.getElem_map, List.getElem_range]

theorem slots_none_iff : f.slots.findIdx? findFun = none ↔
    ∀ j < fifoCount f, findFun (f.fifoData (j % f.fifoSize)) = false := by
  simp [FifoList.slots]

theorem slots_some_iff {k : Nat} : f.slots.findIdx? findFun = some k ↔
    k < fifoCount f ∧ findFun (f.fifoData (k % f.fifoSize)) = true ∧
      ∀ j < k, findFun (f.fifoData (j % f.fifoSize)) = false := by
  rw [List.findIdx?_eq_some_iff_getElem]
  constructor
  · rintro ⟨hk, htrue, hfalse⟩
    rw [slots_getElem] at htrue
    refine ⟨slots_length f ▸ hk, htrue, fun j hj => ?_⟩
    have hno := hfalse j hj
    rw [slots_getElem] at hno
    exact Bool.eq_false_iff.mpr hno
  · rintro ⟨hk, htrue, hfalse⟩
    refine ⟨(slots_length f).symm ▸ hk, by rwa [slots_getElem], fun j hj => ?_⟩
    rw [slots_getElem, hfalse j hj]
    exact Bool.false_ne_true

/-- A slot that is in use holds an element. -/
theorem FifoList.Ring.used (h : f.Ring xs) {j : Nat} (hj : j < f.fifoSize)
    (hused : f.fifoStart ≤ j ∧ (j < f.fifoEnd ∨ f.fifoEnd < f.fifoStart) ∨
      j < f.fifoEnd ∧ f.fifoEnd < f.fifoStart) : f.fifoData j ∈ xs := by
  have hstart := h.array.start_lt
  have hend := h.cases
  by_cases hle : f.fifoStart ≤ j
  · have hlen : j - f.fifoStart < xs.length := by omega
    have hslot := h.array.getElem hlen
    rw [RingArray.slot_front (by omega), Nat.add_sub_cancel' hle] at hslot
    exact hslot ▸ List.getElem_mem hlen
  · have hlen : f.fifoSize + j - f.fifoStart < xs.length := by omega
    have hslot := h.array.getElem hlen
    rw [RingArray.slot_back hstart (by omega) (by omega)] at hslot
    have heq : f.fifoStart + (f.fifoSize + j - f.fifoStart) - f.fifoSize = j := by omega
    rw [heq] at hslot
    exact hslot ▸ List.getElem_mem hlen

/-- Where no element has the property, only slots that are not in use count. -/
theorem freeOf_iff (h : f.Ring xs) (hxs : xs.findIdx? findFun = none) :
    f.slots.findIdx? findFun = none ↔ f.FreeOf xs.length findFun := by
  have hno : ∀ x ∈ xs, findFun x = false := List.findIdx?_eq_none_iff.mp hxs
  have hstart := h.array.start_lt
  rw [slots_none_iff, FifoList.FreeOf, ← fifoCount_ring h]
  constructor
  · intro hall j hj _ hcount
    have hslot := hall j hcount
    rwa [Nat.mod_eq_of_lt (by omega)] at hslot
  · intro hfree j hj
    have hslot : j % f.fifoSize < f.fifoSize := Nat.mod_lt _ h.size_pos
    have hle : j % f.fifoSize ≤ j := Nat.mod_le _ _
    by_cases hused : f.fifoStart ≤ j % f.fifoSize ∧
        (j % f.fifoSize < f.fifoEnd ∨ f.fifoEnd < f.fifoStart) ∨
          j % f.fifoSize < f.fifoEnd ∧ f.fifoEnd < f.fifoStart
    · exact hno _ (h.used hslot hused)
    · have hcount : f.fifoStart ≤ f.fifoEnd → fifoCount f ≤ f.fifoEnd := by
        intro hwhole
        rw [fifoCount, if_pos hwhole]
        omega
      exact hfree _ (by omega) (by omega) (by omega)

/-- The first element with the property is not found at a slot behind the start. -/
theorem comesUp_iff (h : f.Ring xs) {k : Nat} (hxs : xs.findIdx? findFun = some k) :
    f.slots.findIdx? findFun = some k ∧ f.slots[k]? = xs[k]? ↔ f.ComesUp xs findFun k := by
  obtain ⟨hk, htrue, hfalse⟩ := List.findIdx?_eq_some_iff_getElem.mp hxs
  have hstart := h.array.start_lt
  have hroom := h.array.room
  rw [slots_some_iff, FifoList.ComesUp, ← fifoCount_ring h, Nat.mod_eq_of_lt (by omega)]
  have hfront : ∀ j < k, j % f.fifoSize = j := fun j hj => Nat.mod_eq_of_lt (by omega)
  have hget : k < fifoCount f → f.slots[k]? = some (f.fifoData k) := by
    intro hcount
    rw [List.getElem?_eq_getElem ((slots_length f).symm ▸ hcount), slots_getElem,
      Nat.mod_eq_of_lt (by omega)]
  constructor
  · rintro ⟨⟨hcount, hfound, hbefore⟩, hsame⟩
    rw [hget hcount] at hsame
    by_cases hle : f.fifoStart ≤ k
    · -- it would be an element with a smaller number
      refine Or.inl ?_
      by_contra hpos
      have hslot := h.array.getElem (i := k - f.fifoStart) (by omega)
      rw [RingArray.slot_front (by omega), Nat.add_sub_cancel' hle] at hslot
      have hearly := hfalse (k - f.fifoStart) (by omega)
      rw [hslot] at hearly
      exact hearly hfound
    · refine Or.inr ⟨by omega, hcount, hsame.symm, fun j hj => ?_⟩
      have hslot := hbefore j hj
      rwa [hfront j hj] at hslot
  · rintro (hzero | ⟨hlt, hcount, hsame, hbefore⟩)
    · have hdata : ∀ j (hj : j < xs.length), f.fifoData j = xs[j] := by
        intro j hj
        rw [h.array.getElem hj, hzero, Nat.zero_add, Nat.mod_eq_of_lt (by omega)]
      have hcount : k < fifoCount f := by
        rw [fifoCount_ring h, FifoList.searched, if_pos (by omega)]
        exact hk
      refine ⟨⟨hcount, by rwa [hdata k hk], fun j hj => ?_⟩, ?_⟩
      · rw [hfront j hj, hdata j (by omega)]
        exact Bool.eq_false_iff.mpr (hfalse j hj)
      · rw [hget hcount, hdata k hk, List.getElem?_eq_getElem hk]
    · rw [List.getElem?_eq_getElem hk] at hsame ⊢
      have hdata := Option.some.inj hsame
      refine ⟨⟨hcount, hdata ▸ htrue, fun j hj => ?_⟩, by rw [hget hcount, hdata]⟩
      rw [hfront j hj]
      exact hbefore j hj

/-- When `fifo_find_peek` is right. -/
theorem findPeekRight_iff (h : f.Ring xs) (findFun : α → Bool) :
    FindPeekRight f xs findFun ↔ f.Finds xs findFun := by
  rw [findPeekRight_slots, FifoList.Finds]
  cases hxs : xs.findIdx? findFun with
  | none =>
    simp only
    rw [← freeOf_iff h hxs]
    refine and_iff_left_of_imp fun hslots => ?_
    rw [List.find?_eq_bind_findIdx?_getElem?, hslots, List.find?_eq_bind_findIdx?_getElem?, hxs]
    rfl
  | some k =>
    simp only
    rw [← comesUp_iff h hxs]
    refine and_congr_right fun hslots => ?_
    rw [List.find?_eq_bind_findIdx?_getElem?, hslots, List.find?_eq_bind_findIdx?_getElem?, hxs]
    rfl

/-- When the first element of the ring is taken for the first with the property. -/
theorem comesFirst_iff (h : f.Ring xs) (hxs : xs.findIdx? findFun = some 0) :
    f.slots.findIdx? findFun = some 0 ↔
      f.fifoStart = 0 ∨ 0 < f.searched xs.length ∧ findFun (f.fifoData 0) = true := by
  rw [slots_some_iff, ← fifoCount_ring h, Nat.zero_mod]
  constructor
  · rintro ⟨hcount, hfound, -⟩
    exact Or.inr ⟨hcount, hfound⟩
  · rintro (hzero | ⟨hcount, hfound⟩)
    · obtain ⟨⟨hcount, hfound, -⟩, -⟩ := And.imp_left slots_some_iff.mp
        ((comesUp_iff h hxs).mpr (Or.inl hzero))
      rw [Nat.zero_mod] at hfound
      exact ⟨hcount, hfound, fun j hj => absurd hj (Nat.not_lt_zero j)⟩
    · exact ⟨hcount, hfound, fun j hj => absurd hj (Nat.not_lt_zero j)⟩

/-! ## Elements that go -/

/-- Halving the array of a ring in one piece. -/
theorem fifoDecr_ring [Inhabited α] (h : f.Ring xs) (hsize : f.fifoSize ≠ FIFO_CHUNK)
    (hle : f.fifoStart ≤ f.fifoEnd) (hfew : fifoCount f < f.fifoSize / 2) :
    fifoDecrInside f ∧ (fifoDecr f).Ring xs := by
  obtain ⟨heven, hdoubled⟩ := h.half hsize
  have hroom := h.array.room
  have hend : f.fifoEnd = f.fifoStart + xs.length := by
    obtain hend | ⟨hlt, -⟩ := h.cases
    · exact hend
    · omega
  have hcount : fifoCount f = xs.length := by
    rw [fifoCount, if_pos hle]
    omega
  rw [hcount] at hfew
  have hlt := h.end_lt
  refine ⟨.inr ⟨fun _ => ⟨Nat.le_of_lt hlt, ?_⟩, fun hgt => ?_⟩, ?_⟩
  · show f.fifoEnd - f.fifoStart ≤ f.fifoSize / 2
    omega
  · omega
  · rw [fifoDecr, if_neg hsize]
    simp only [hcount]
    refine ⟨?_, ?_, hdoubled, ?_⟩
    · apply h.array.copy (by omega) hfew
      intro k hk
      rw [if_pos (by omega)]
      exact if_pos (by omega)
    · show xs.length = (0 + xs.length) % (f.fifoSize / 2)
      rw [Nat.zero_add, Nat.mod_eq_of_lt hfew]
    · show f.fifoSize / 2 < 2 ^ 32
      have := h.unsigned
      omega

/-- Halving the array of a ring that goes on behind its end copies outside of an array, or leaves no
room for the elements. -/
theorem fifoDecr_broken [Inhabited α] (h : f.Ring xs) (hsize : f.fifoSize ≠ FIFO_CHUNK)
    (hgt : f.fifoEnd < f.fifoStart) (hinside : fifoDecrInside f) :
    f.fifoSize / 2 ≤ xs.length := by
  have hunsigned := h.unsigned
  have hstart := h.array.start_lt
  obtain hchunk | ⟨-, hcopies⟩ := hinside
  · exact absurd hchunk hsize
  · have hcopy := (hcopies hgt).2.1
    unfold usub at hcopy
    obtain hend | ⟨-, hend⟩ := h.cases
    · omega
    · omega

/-- A ring, after the test whether it is to be halved. -/
theorem shrink_iff [Inhabited α] (h : f.Ring xs) (hlen : ys.length = xs.length) {few : Nat}
    (hfew : few ≤ f.fifoSize / 2) :
    ((fifoCount f < few → fifoDecrInside f) ∧
      (if fifoCount f < few then fifoDecr f else f).Ring ys) ↔
    (f.fifoEnd < f.fifoStart → f.fifoSize = FIFO_CHUNK ∨
      few ≤ usub f.fifoSize (f.fifoStart + f.fifoEnd)) ∧ ys = xs := by
  have hring : f.Ring ys ↔ ys = xs := by
    constructor
    · exact fun h' => h'.unique h
    · rintro rfl
      exact h
  by_cases hless : fifoCount f < few
  · rw [if_pos hless]
    by_cases hsize : f.fifoSize = FIFO_CHUNK
    · rw [fifoDecr, if_pos hsize, hring]
      simp [hsize, fifoDecrInside]
    · by_cases hle : f.fifoStart ≤ f.fifoEnd
      · obtain ⟨hinside, hdecr⟩ := fifoDecr_ring h hsize hle (by omega)
        constructor
        · rintro ⟨-, hys⟩
          exact ⟨fun hgt => by omega, hys.unique hdecr⟩
        · rintro ⟨-, rfl⟩
          exact ⟨fun _ => hinside, hdecr⟩
      · have hgt : f.fifoEnd < f.fifoStart := Nat.lt_of_not_le hle
        constructor
        · rintro ⟨hinside, hys⟩
          have hmany := fifoDecr_broken h hsize hgt (hinside hless)
          have hroom := hys.array.room
          rw [fifoDecr, if_neg hsize] at hroom
          rw [hlen] at hroom
          exact absurd hroom (Nat.not_lt.mpr hmany)
        · rintro ⟨hwhole, -⟩
          rw [fifoCount, if_neg hle] at hless
          obtain hchunk | hmany := hwhole hgt
          · exact absurd hchunk hsize
          · omega
  · rw [if_neg hless, hring]
    constructor
    · rintro ⟨-, hys⟩
      refine ⟨fun hgt => .inr ?_, hys⟩
      rw [fifoCount, if_neg (by omega)] at hless
      omega
    · rintro ⟨-, hys⟩
      exact ⟨fun hl => absurd hl hless, hys⟩

/-- The element in the slot that `fifo_num_rem` works on is the one that goes. -/
theorem fifoCut_ring (h : f.Ring xs) {m : Nat} (hpos : 0 < m) (hm : m < xs.length)
    (hslot : fifoPos f num = (f.fifoStart + m) % f.fifoSize) :
    (fifoCut f num).Ring (xs.eraseIdx m) ∧ (fifoCut f num).fifoSize = f.fifoSize ∧
      ((fifoCut f num).fifoStart, (fifoCut f num).fifoEnd) = f.ends m ∧
      (fifoPos f num ≤ f.fifoStart →
        fifoPos f num + 1 + usub f.fifoEnd (fifoPos f num) ≤ f.fifoSize) := by
  have hstart := h.array.start_lt
  have hroom := h.array.room
  have hunsigned := h.unsigned
  have hlen : (xs.eraseIdx m).length = xs.length - 1 := List.length_eraseIdx_of_lt hm
  -- the slot lies before the end of the array, or the ring has begun again at its start
  by_cases hfront : f.fifoStart + m < f.fifoSize
  · rw [RingArray.slot_front hfront] at hslot
    have hcut : fifoCut f num = { f with
        fifoData := memmove f.fifoData (f.fifoStart + 1) f.fifoStart m
        fifoStart := f.fifoStart + 1 } := by
      simp only [fifoCut, hslot]
      rw [if_pos (by omega), Nat.add_sub_cancel_left]
    rw [hcut]
    refine ⟨⟨h.array.shiftUp hpos hm hfront, ?_, h.doubled, hunsigned⟩, rfl, ?_,
      fun hle => by omega⟩
    · show f.fifoEnd = (f.fifoStart + 1 + (xs.eraseIdx m).length) % f.fifoSize
      rw [h.finish, hlen]
      congr 1
      omega
    · rw [FifoList.ends, if_pos hfront, Nat.mod_eq_of_lt (by omega)]
  · have hback : f.fifoSize ≤ f.fifoStart + m := Nat.le_of_not_lt hfront
    have hend : f.fifoEnd + f.fifoSize = f.fifoStart + xs.length := by
      obtain hend | ⟨-, hend⟩ := h.cases
      · have := h.end_lt
        omega
      · exact hend
    have hlt := h.end_lt
    rw [RingArray.slot_back hstart (by omega) hback] at hslot
    have hlength : usub f.fifoEnd (fifoPos f num) = xs.length - m := by
      rw [usub_eq (by omega) (by omega)]
      omega
    have hone : usub f.fifoEnd 1 = f.fifoEnd - 1 := usub_eq (by omega) (by omega)
    have hcut : fifoCut f num = { f with
        fifoData := memmove f.fifoData (f.fifoStart + m - f.fifoSize)
          (f.fifoStart + m - f.fifoSize + 1) (xs.length - m)
        fifoEnd := f.fifoEnd - 1 } := by
      rw [← hlength, ← hone, ← hslot]
      exact if_neg (by omega)
    rw [hcut]
    refine ⟨⟨h.array.shiftDown hm hback, ?_, h.doubled, hunsigned⟩, rfl, ?_, fun hle => ?_⟩
    · show f.fifoEnd - 1 = (f.fifoStart + (xs.eraseIdx m).length) % f.fifoSize
      rw [hlen, RingArray.slot_back hstart (by omega) (by omega)]
      omega
    · rw [FifoList.ends, if_neg hfront]
    · rw [hlength]
      omega

/-- What `fifo_num_rem` leaves of a ring, but for the first element. -/
theorem fifoNumRem_iff [Inhabited α] (h : f.Ring xs) {m : Nat} (hpos : 0 < m) (hm : m < xs.length)
    (hnum : 0 < num) (hcount : num ≤ fifoCount f)
    (hslot : fifoPos f num = (f.fifoStart + m) % f.fifoSize) (hlen : ys.length = xs.length - 1) :
    (fifoNumRemInside f num ∧ ∃ f', fifoNumRem f num = some (none, f') ∧ f'.Ring ys) ↔
      f.StaysWhole m (f.fifoSize / 2) ∧ ys = xs.eraseIdx m := by
  obtain ⟨hcut, hsize, hends, hinside⟩ := fifoCut_ring h hpos hm hslot
  have hlen' : ys.length = (xs.eraseIdx m).length :=
    hlen.trans (List.length_eraseIdx_of_lt hm).symm
  have hshrink := shrink_iff hcut hlen' (Nat.le_of_eq rfl)
  have hin : fifoPos f num < f.fifoSize := by
    rw [hslot]
    exact Nat.mod_lt _ h.size_pos
  rw [hsize] at hshrink
  rw [FifoList.StaysWhole, ← hends]
  refine Iff.trans ?_ hshrink
  rw [fifoNumRemInside, if_neg (by omega), fifoNumRem, if_neg (by omega), if_neg (by omega)]
  simp only [hsize]
  constructor
  · rintro ⟨hall, f', hf', hring⟩
    cases hf'
    exact ⟨(hall hcount).2, hring⟩
  · rintro ⟨hdecr, hring⟩
    exact ⟨fun _ => ⟨⟨hin, hinside⟩, hdecr⟩, _, rfl, hring⟩

/-- The ring behind its first element. -/
theorem FifoList.Ring.tail {x : α} (h : f.Ring (x :: xs)) :
    ({ f with fifoStart := (f.fifoStart + 1) % f.fifoSize } : FifoList α).Ring xs := by
  refine ⟨h.array.tail, ?_, h.doubled, h.unsigned⟩
  show f.fifoEnd = ((f.fifoStart + 1) % f.fifoSize + xs.length) % f.fifoSize
  rw [h.finish, Nat.mod_add_mod, List.length_cons, Nat.add_assoc, Nat.add_comm 1]

/-- The first element is popped. -/
theorem fifoNumRem_zero [Inhabited α] {x : α} (h : f.Ring (x :: xs))
    (hlen : ys.length = xs.length) :
    (fifoNumRemInside f 0 ∧ ∃ f', fifoNumRem f 0 = some (some x, f') ∧ f'.Ring ys) ↔
      f.StaysWhole 0 ((f.fifoSize - 1) / 2) ∧ ys = xs := by
  have hfew : (f.fifoSize - 1) / 2 ≤ f.fifoSize / 2 := Nat.div_le_div_right (Nat.sub_le _ _)
  have hshrink := shrink_iff h.tail hlen hfew
  have hstart := h.array.start_lt
  have hx : f.fifoData f.fifoStart = x := by
    have hslot := h.array.slot 0 (Nat.zero_lt_succ _)
    rw [Nat.add_zero, Nat.mod_eq_of_lt hstart] at hslot
    exact (Option.some.inj hslot).symm
  have hne : f.fifoStart ≠ f.fifoEnd := by
    obtain hend | ⟨hlt, -⟩ := h.cases
    · rw [List.length_cons] at hend
      omega
    · omega
  rw [FifoList.StaysWhole, FifoList.ends, if_pos (by omega)]
  refine Iff.trans ?_ hshrink
  rw [fifoNumRemInside, if_pos rfl, fifoNumRem, if_pos rfl, fifoPop, if_neg hne, hx]
  constructor
  · rintro ⟨hsame | ⟨-, hdecr⟩, f', hf', hring⟩
    · exact absurd hsame hne
    · cases hf'
      exact ⟨hdecr, hring⟩
  · rintro ⟨hdecr, hring⟩
    exact ⟨.inr ⟨hstart, hdecr⟩, _, rfl, hring⟩

/-- `fifo_num_rem` is right for the first element only, whose number it passes on to `fifo_pop`. -/
theorem numRemRight_iff [Inhabited α] (h : f.Ring xs) (hnum : num < xs.length) :
    NumRemRight f xs num ↔ num = 0 ∧ f.StaysWhole 0 ((f.fifoSize - 1) / 2) := by
  rw [NumRemRight]
  cases xs with
  | nil => exact absurd hnum (Nat.not_lt_zero _)
  | cons x xs =>
    cases num with
    | zero =>
      have hzero := fifoNumRem_zero h (Eq.refl xs.length)
      simp only [and_true] at hzero
      simp only [true_and]
      exact hzero
    | succ num =>
      constructor
      · rintro ⟨-, f', hf', -⟩
        rw [List.getElem?_eq_getElem hnum, fifoNumRem, if_neg (Nat.succ_ne_zero _)] at hf'
        split at hf' <;> cases hf'
      · rintro ⟨hzero, -⟩
        cases hzero

/-- What is left without the first element with a property is not what is left without one before
it. -/
theorem eraseIdx_ne {k m : Nat} (hfind : xs.findIdx? findFun = some k) (hm : m < k) :
    xs.eraseIdx k ≠ xs.eraseIdx m := by
  intro heq
  obtain ⟨hk, htrue, hfalse⟩ := List.findIdx?_eq_some_iff_getElem.mp hfind
  -- the elements between the two would all be the same
  have hsame : ∀ j, m ≤ j → (hj : j < k) → xs[j]? = xs[j + 1]? := by
    intro j hmj hj
    have hget := congrArg (·[j]?) heq
    simp only [List.getElem?_eraseIdx_of_lt hj, List.getElem?_eraseIdx_of_ge hmj] at hget
    exact hget
  have hend := hsame (k - 1) (by omega) (by omega)
  rw [Nat.sub_add_cancel (by omega), List.getElem?_eq_getElem (by omega),
    List.getElem?_eq_getElem hk] at hend
  have hprev := hfalse (k - 1) (by omega)
  rw [Option.some.inj hend] at hprev
  exact hprev htrue

/-- An element that has been found is there to be removed. -/
theorem fifoNumRem_some [Inhabited α] (hnum : num < fifoCount f) :
    ∃ data f', fifoNumRem f num = some (data, f') ∧
      (num = 0 → data = some (f.fifoData f.fifoStart)) ∧ (num ≠ 0 → data = none) := by
  rw [fifoNumRem]
  split
  · next hzero =>
    have hne : f.fifoStart ≠ f.fifoEnd := by
      intro heq
      rw [fifoCount, if_pos (Nat.le_of_eq heq), heq, Nat.sub_self] at hnum
      exact Nat.not_lt_zero _ hnum
    rw [fifoPop, if_neg hne]
    exact ⟨_, _, rfl, fun _ => rfl, fun hno => absurd hzero hno⟩
  · next hno =>
    rw [if_neg (by omega)]
    exact ⟨_, _, rfl, fun hzero => absurd hzero hno, fun _ => rfl⟩

/-- What `fifo_find_rem` makes of an element that has been found. -/
theorem fifoFindRem_some [Inhabited α] {n : Nat} {x : α} (hidx : f.slots.findIdx? findFun = some n)
    (hx : f.slots[n]? = some x) :
    ∃ data f', fifoNumRem f n = some (data, f') ∧
      fifoFindRem f findFun = some (data.getD x, n, f') ∧
      (n = 0 → data = some (f.fifoData f.fifoStart)) ∧ (n ≠ 0 → data = none) := by
  obtain ⟨y, hy, -, hfound⟩ := firstFound_of_find f.slots hidx
  obtain rfl : y = x := Option.some.inj (hy.symm.trans hx)
  obtain ⟨hn, -⟩ := List.findIdx?_eq_some_iff_getElem.mp hidx
  rw [slots_length] at hn
  obtain ⟨data, f', hrem, hdata⟩ := fifoNumRem_some hn
  refine ⟨data, f', hrem, ?_, hdata⟩
  rw [fifoFindRem, fifoFindPeek_eq, hfound]
  simp only [hrem]

/-- The sum of the start and the number of an element wraps around to the slot of one before it. -/
theorem fifoPos_wraps (h : f.Ring xs) (hnum : num < xs.length) (hsum : 2 ^ 32 ≤ f.fifoStart + num) :
    ∃ m, 0 < m ∧ m < num ∧ fifoPos f num = (f.fifoStart + m) % f.fifoSize := by
  have hstart := h.array.start_lt
  have hroom := h.array.room
  have hunsigned := h.unsigned
  refine ⟨num + f.fifoSize - 2 ^ 32, by omega, by omega, ?_⟩
  have hmod : (num + f.fifoStart) % 2 ^ 32 = num + f.fifoStart - 2 ^ 32 := by omega
  rw [RingArray.slot_back hstart (by omega) (by omega), fifoPos, hmod, Nat.mod_eq_of_lt (by omega)]
  omega

/-- The first element of the ring, found under its number. -/
theorem findRem_zero [Inhabited α] (h : f.Ring xs) (hxs : xs.findIdx? findFun = some 0)
    (hslots : f.slots.findIdx? findFun = some 0) :
    (fifoNumRemInside f 0 ∧ ∃ x f', fifoFindRem f findFun = some (x, 0, f') ∧ xs[0]? = some x ∧
      f'.Ring (xs.eraseIdx 0)) ↔ f.StaysWhole 0 ((f.fifoSize - 1) / 2) := by
  obtain ⟨x, hx, -, -⟩ := firstFound_of_find f.slots hslots
  obtain ⟨data, f', hrem, hfindrem, hzero, -⟩ := fifoFindRem_some hslots hx
  obtain rfl := hzero rfl
  obtain ⟨y, hy, -, -⟩ := firstFound_of_find xs hxs
  cases xs with
  | nil => cases hy
  | cons z xs =>
    have hiff := fifoNumRem_zero h (Eq.refl xs.length)
    simp only [and_true] at hiff
    refine Iff.trans ?_ hiff
    constructor
    · rintro ⟨hinside, x', f'', hf'', hx', hring⟩
      rw [hfindrem] at hf''
      cases hf''
      cases hx'
      exact ⟨hinside, f', hrem, hring⟩
    · rintro ⟨hinside, f'', hf'', hring⟩
      rw [hrem] at hf''
      cases hf''
      exact ⟨hinside, _, f', hfindrem, rfl, hring⟩

/-- Another element, found under its number. -/
theorem findRem_pos [Inhabited α] (h : f.Ring xs) {k : Nat} (hk : k ≠ 0)
    (hxs : xs.findIdx? findFun = some k) (hslots : f.slots.findIdx? findFun = some k) :
    (fifoNumRemInside f k ∧ ∃ x f', fifoFindRem f findFun = some (x, k, f') ∧ xs[k]? = some x ∧
      f'.Ring (xs.eraseIdx k)) ↔
    f.slots[k]? = xs[k]? ∧ f.fifoStart + k < 2 ^ 32 ∧ f.StaysWhole k (f.fifoSize / 2) := by
  obtain ⟨x, hx, -, -⟩ := firstFound_of_find f.slots hslots
  obtain ⟨data, f', hrem, hfindrem, -, hmore⟩ := fifoFindRem_some hslots hx
  obtain rfl := hmore hk
  obtain ⟨hlt, -⟩ := List.findIdx?_eq_some_iff_getElem.mp hxs
  obtain ⟨hcount, -⟩ := List.findIdx?_eq_some_iff_getElem.mp hslots
  rw [slots_length] at hcount
  have hlen : (xs.eraseIdx k).length = xs.length - 1 := List.length_eraseIdx_of_lt hlt
  have hleft : (fifoNumRemInside f k ∧ ∃ x f', fifoFindRem f findFun = some (x, k, f') ∧
      xs[k]? = some x ∧ f'.Ring (xs.eraseIdx k)) ↔ f.slots[k]? = xs[k]? ∧ fifoNumRemInside f k ∧
        ∃ f', fifoNumRem f k = some (none, f') ∧ f'.Ring (xs.eraseIdx k) := by
    constructor
    · rintro ⟨hinside, x', f'', hf'', hx', hring⟩
      rw [hfindrem] at hf''
      cases hf''
      exact ⟨hx.trans hx'.symm, hinside, f', hrem, hring⟩
    · rintro ⟨hsame, hinside, f'', hf'', hring⟩
      rw [hrem] at hf''
      cases hf''
      exact ⟨hinside, x, f', hfindrem, hsame.symm.trans hx, hring⟩
  rw [hleft]
  apply and_congr_right
  intro _
  by_cases hsum : f.fifoStart + k < 2 ^ 32
  · rw [fifoNumRem_iff h (Nat.pos_of_ne_zero hk) hlt (Nat.pos_of_ne_zero hk) (Nat.le_of_lt hcount)
      (fifoPos_eq hsum) hlen]
    simp only [and_true, hsum, true_and]
  · -- another element goes, which is before the first one with the property
    obtain ⟨m, hpos, hm, hslot⟩ := fifoPos_wraps h hlt (Nat.le_of_not_lt hsum)
    rw [fifoNumRem_iff h hpos (Nat.lt_trans hm hlt) (Nat.pos_of_ne_zero hk) (Nat.le_of_lt hcount)
      hslot hlen]
    constructor
    · rintro ⟨-, hsame⟩
      exact absurd hsame (eraseIdx_ne hxs hm)
    · rintro ⟨hno, -⟩
      exact absurd hno hsum

/-- When `fifo_find_rem` is right. -/
theorem findRemRight_iff [Inhabited α] (h : f.Ring xs) (findFun : α → Bool) :
    FindRemRight f xs findFun ↔ f.FindsToRem xs findFun := by
  rw [FindRemRight, FifoList.FindsToRem]
  cases hxs : xs.findIdx? findFun with
  | none =>
    simp only
    rw [← freeOf_iff h hxs]
    cases hslots : f.slots.findIdx? findFun with
    | none =>
      rw [fifoFindRem, fifoFindPeek_eq, firstFound, hslots]
      simp
    | some n =>
      obtain ⟨x, hx, -, -⟩ := firstFound_of_find f.slots hslots
      obtain ⟨data, f', hrem, hfindrem, -⟩ := fifoFindRem_some hslots hx
      simp [hfindrem]
  | some k =>
    simp only
    -- whatever is removed has the number it was found under
    by_cases hslots : f.slots.findIdx? findFun = some k
    · split
      · next hzero =>
        subst hzero
        rw [findRem_zero h hxs hslots, ← comesFirst_iff h hxs]
        exact (and_iff_right hslots).symm
      · next hpos =>
        rw [findRem_pos h hpos hxs hslots, ← comesUp_iff h hxs]
        simp only [hslots, true_and]
    · have hwrong : ¬(fifoNumRemInside f k ∧ ∃ x f', fifoFindRem f findFun = some (x, k, f') ∧
          xs[k]? = some x ∧ f'.Ring (xs.eraseIdx k)) := by
        rintro ⟨-, y, f'', hf'', -⟩
        cases hn : f.slots.findIdx? findFun with
        | none =>
          rw [fifoFindRem, fifoFindPeek_eq, firstFound, hn] at hf''
          cases hf''
        | some n =>
          obtain ⟨x, hx, -, -⟩ := firstFound_of_find f.slots hn
          obtain ⟨data, f', hrem, hfindrem, -⟩ := fifoFindRem_some hn hx
          rw [hfindrem] at hf''
          cases hf''
          exact hslots hn
      refine iff_of_false hwrong ?_
      split
      · next hzero =>
        subst hzero
        exact fun hcond => hslots ((comesFirst_iff h hxs).mpr hcond.1)
      · exact fun hcond => hslots ((comesUp_iff h hxs).mpr hcond.1).1

/-- **Elements by number and by predicate.** When the four functions do what they are for on a ring,
for every number and every predicate. -/
theorem fifoSearch_right [Inhabited α] (h : f.Ring xs) (num : Nat) (findFun : α → Bool) :
    (NumPeekRight f xs num ↔ f.Bounded xs.length num ∧ (num < xs.length → f.Reaches num)) ∧
    (FindPeekRight f xs findFun ↔ f.Finds xs findFun) ∧
    (num < xs.length →
      (NumRemRight f xs num ↔ num = 0 ∧ f.StaysWhole 0 ((f.fifoSize - 1) / 2))) ∧
    (FindRemRight f xs findFun ↔ f.FindsToRem xs findFun) :=
  ⟨numPeekRight_iff h num, findPeekRight_iff h findFun, numRemRight_iff h,
    findRemRight_iff h findFun⟩

/-- A ring that has been popped once. -/
def poppedRing : FifoList Nat where
  fifoData k := [7, 5, 6].getD k 0
  fifoStart := 1
  fifoEnd := 3
  fifoSize := FIFO_CHUNK

theorem poppedRing_ring : poppedRing.Ring [5, 6] where
  array := ⟨by decide, by decide, by decide⟩
  finish := rfl
  doubled := ⟨0, rfl⟩
  unsigned := by decide

theorem fifoSearch_right_popped :
    NumPeekRight poppedRing [5, 6] 1 ∧ ¬FindPeekRight poppedRing [5, 6] (· == 5) ∧
      NumRemRight poppedRing [5, 6] 0 ∧ ¬FindRemRight poppedRing [5, 6] (· == 5) := by
  obtain ⟨hpeek, hfind, -, hfindrem⟩ := fifoSearch_right poppedRing_ring 1 (· == 5)
  obtain ⟨-, -, hrem, -⟩ := fifoSearch_right poppedRing_ring 0 (· == 5)
  have hnot : ¬poppedRing.ComesUp [5, 6] (· == 5) 0 := by
    rintro (hzero | ⟨-, -, hsame, -⟩)
    · exact absurd hzero (by decide)
    · exact absurd hsame (by decide)
  refine ⟨hpeek.mpr ⟨show 1 ≠ 2 by decide, fun _ => .inl (by decide)⟩, fun h => ?_, ?_, fun h => ?_⟩
  · exact hnot (hfind.mp h)
  · refine (hrem (by decide)).mpr ⟨rfl, fun hgt => ?_⟩
    exact absurd hgt (by decide)
  · have hneeds : (poppedRing.fifoStart = 0 ∨ 0 < poppedRing.searched 2 ∧ (7 == 5) = true) ∧ _ :=
      hfindrem.mp h
    exact absurd hneeds.1 (by decide)

/-- There is an element behind the last, the first is found under the number 1, and the one that is
removed is not given. -/
theorem fifoSearch_wrong : poppedRing.Ring [5, 6] ∧ ¬NumPeekRight poppedRing [5, 6] 2 ∧
    ¬FindPeekRight poppedRing [5, 6] (· == 5) ∧ ¬NumRemRight poppedRing [5, 6] 1 ∧
    ¬FindRemRight poppedRing [5, 6] (· == 5) := by
  refine ⟨poppedRing_ring, fun h => ?_, fun h => ?_, fun h => ?_, fun h => ?_⟩
  · have hpeek : fifoNumPeek poppedRing 2 = none := h
    exact absurd hpeek (by decide)
  · have hfind : fifoFindPeek poppedRing (· == 5) = some (5, 0) := h
    exact absurd hfind (by decide)
  · obtain ⟨-, f', hf', -⟩ := h
    have hgiven : (fifoNumRem poppedRing 1).map Prod.fst = some (some 6) := by rw [hf']; rfl
    exact absurd hgiven (by decide)
  · obtain ⟨-, x, f', hf', -⟩ := h
    have hnumber : (fifoFindRem poppedRing (· == 5)).map (·.2.1) = some 0 := by rw [hf']; rfl
    exact absurd hnumber (by decide)

end Spegla
