import Mathlib.Algebra.Group.Nat.Defs
import Spegla.Container.Heap

/-!
# Heaps in 32 bits (`container.c`, `heap_inc` and `heap_push`)

`heap_size` and `heap_keys` are `u_int32_t`s, and the indices of an array are `int`s. The heaps of
`Heap` have natural numbers in their place, which is the same up to 2³¹ elements.

- `heapInc`, `heapPush`: the two operations that can leave these widths, as the source has them. The
  others take the number of elements or the size down only.
- `heapPush_eq`: what they have to do with those of `Heap`.
- `Works`: after every call of a run the array is in heap order and has room for its elements, and
  each call changes these as it should.
- `heapRun_works`: a run works exactly as long as no push meets 2³¹ elements.
-/

namespace Spegla.U32

variable {α : Type}

/-! ## The operations -/

/-- `heap_inc`. -/
def heapInc (h : HeapList α) : HeapList α := { h with heapSize := h.heapSize * 2 % 2 ^ 32 }

/-- `heap_push`. -/
def heapPush (h : HeapList α) (data : α) : HeapList α :=
  let h := if h.heapKeys = h.heapSize then heapInc h else h
  { h with
    -- from 2³¹ on `i` is negative: nothing is compared, and `p[i]` lies in front of the array
    heapData :=
      if h.heapKeys < 2 ^ 31 then pushAt h.heapComp data h.heapKeys h.heapData h.heapKeys
      else h.heapData
    heapKeys := (h.heapKeys + 1) % 2 ^ 32 }

/-- One call. -/
inductive HeapOp (α : Type) where
  | push (data : α)
  | pop
deriving DecidableEq, Repr

/-- The heap after a call. A pop of an empty heap leaves it. -/
def heapStep (h : HeapList α) : HeapOp α → HeapList α
  | .push data => heapPush h data
  | .pop =>
    match heapPop h with
    | none => h
    | some (_, h') => h'

/-! ## What a run should do -/

/-- The array is in heap order, and has room for the elements. -/
def Sound (comp : α → α → Int) (h : HeapList α) : Prop :=
  (∀ i, 0 < i → i < h.heapKeys → comp (h.heapData i) (h.heapData (heapParent i)) ≤ 0) ∧
    h.heapKeys ≤ h.heapSize

/-- A push adds its element; a pop takes out one that no element is greater than, or finds none. -/
def Changes (comp : α → α → Int) (h : HeapList α) : HeapOp α → Prop
  | .push data => (heapPush h data).elems = data ::ₘ h.elems
  | .pop => (heapPop h = none ↔ h.elems = 0) ∧
      ∀ x h', heapPop h = some (x, h') → h.elems = x ::ₘ h'.elems ∧ ∀ y ∈ h.elems, comp y x ≤ 0

/-- The array is sound all along, and every call changes its elements as it should. -/
def Works (comp : α → α → Int) (h : HeapList α) : List (HeapOp α) → Prop
  | [] => Sound comp h
  | op :: ops => Sound comp h ∧ Changes comp h op ∧ Works comp (heapStep h op) ops

/-- A push meets fewer than 2³¹ elements. -/
def Fits (h : HeapList α) : HeapOp α → Prop
  | .push _ => h.heapKeys < 2 ^ 31
  | .pop => True

instance (h : HeapList α) : (op : HeapOp α) → Decidable (Fits h op)
  | .push _ => inferInstanceAs (Decidable (_ < _))
  | .pop => isTrue trivial

/-- Every call of a run is such a call. -/
def FitsRun (h : HeapList α) : List (HeapOp α) → Prop
  | [] => True
  | op :: ops => Fits h op ∧ FitsRun (heapStep h op) ops

/-! ## The steps -/

/-- A heap whose size is a power of two that an `unsigned` holds. -/
structure Narrow (comp : α → α → Int) (h : HeapList α) : Prop where
  valid : h.Valid
  comp_eq : h.heapComp = comp
  doubled : ∃ k ≤ 30, h.heapSize = HEAP_CHUNK * 2 ^ k

variable {comp : α → α → Int} {h : HeapList α} {data : α}

theorem heapInit_narrow [Inhabited α] (hc : IsPreorderComp comp) : Narrow comp (heapInit comp) :=
  ⟨heapInit_valid hc, rfl, 0, Nat.zero_le _, rfl⟩

theorem Narrow.sound (hn : Narrow comp h) : Sound comp h := by
  obtain ⟨hv, rfl, -⟩ := hn
  exact ⟨hv.ordered, hv.room⟩

/-- A power of two below 2³¹ can be doubled once more. -/
theorem doubled_succ {k : Nat} (hk : HEAP_CHUNK * 2 ^ k < 2 ^ 31) : k + 1 ≤ 30 := by
  have hlt : 2 ^ (k + 1) < 2 ^ 31 := by rwa [Nat.pow_succ, Nat.mul_comm]
  have := (Nat.pow_lt_pow_iff_right Nat.one_lt_two).mp hlt
  omega

theorem doubled_le {k : Nat} (hk : k ≤ 30) : HEAP_CHUNK * 2 ^ k ≤ 2 ^ 31 :=
  Nat.mul_le_mul_left 2 (Nat.pow_le_pow_right (by decide) hk)

/-- Below 2³¹ elements nothing is lost in 32 bits. -/
theorem heapPush_eq (hkeys : h.heapKeys < 2 ^ 31) (data : α) :
    heapPush h data = Spegla.heapPush h data := by
  have hsucc : (h.heapKeys + 1) % 2 ^ 32 = h.heapKeys + 1 := Nat.mod_eq_of_lt (by omega)
  rw [heapPush, Spegla.heapPush]
  by_cases hfull : h.heapKeys = h.heapSize
  · have hdouble : h.heapSize * 2 % 2 ^ 32 = h.heapSize * 2 := Nat.mod_eq_of_lt (by omega)
    simp only [if_pos hfull, heapInc, Spegla.heapInc, hdouble, if_pos hkeys, hsucc]
  · simp only [if_neg hfull, if_pos hkeys, hsucc]

theorem heapPush_narrow (hn : Narrow comp h) (hkeys : h.heapKeys < 2 ^ 31) (data : α) :
    Narrow comp (heapPush h data) := by
  obtain ⟨hv', -, hcomp⟩ := heapPush_spec hn.valid data
  obtain ⟨k, hk, hsize⟩ := hn.doubled
  rw [heapPush_eq hkeys]
  refine ⟨hv', hcomp.trans hn.comp_eq, ?_⟩
  rw [Spegla.heapPush]
  by_cases hfull : h.heapKeys = h.heapSize
  · rw [if_pos hfull]
    refine ⟨k + 1, doubled_succ (by omega), ?_⟩
    show h.heapSize * 2 = HEAP_CHUNK * 2 ^ (k + 1)
    rw [hsize, Nat.pow_succ, Nat.mul_assoc]
  · rw [if_neg hfull]
    exact ⟨k, hk, hsize⟩

/-- A pop halves the size, or leaves it. -/
theorem heapPop_size {h' : HeapList α} {x : α} (hp : heapPop h = some (x, h')) :
    h'.heapSize = h.heapSize ∨ h.heapSize ≠ HEAP_CHUNK ∧ h'.heapSize = h.heapSize / 2 := by
  rw [heapPop] at hp
  split at hp
  · cases hp
  · cases hp
    show (if h.heapKeys < h.heapSize / 2 then heapDecr h else h).heapSize = h.heapSize ∨ _ ∧
      (if h.heapKeys < h.heapSize / 2 then heapDecr h else h).heapSize = h.heapSize / 2
    split
    · rw [heapDecr]
      split
      · exact Or.inl rfl
      · next hchunk => exact Or.inr ⟨hchunk, rfl⟩
    · exact Or.inl rfl

theorem heapPop_narrow {h' : HeapList α} {x : α} (hn : Narrow comp h)
    (hp : heapPop h = some (x, h')) : Narrow comp h' := by
  obtain ⟨hv', -, -, hcomp⟩ := heapPop_spec hn.valid hp
  obtain ⟨k, hk, hsize⟩ := hn.doubled
  refine ⟨hv', hcomp.trans hn.comp_eq, ?_⟩
  obtain hsame | ⟨hchunk, hhalf⟩ := heapPop_size hp
  · exact ⟨k, hk, hsame.trans hsize⟩
  · cases k with
    | zero => exact absurd hsize hchunk
    | succ k =>
      refine ⟨k, Nat.le_of_succ_le hk, ?_⟩
      rw [hhalf, hsize, Nat.pow_succ, ← Nat.mul_assoc, Nat.mul_div_cancel _ (by decide)]

/-- A step that meets fewer than 2³¹ elements. -/
theorem heapStep_narrow (hn : Narrow comp h) {op : HeapOp α} (hop : Fits h op) :
    Changes comp h op ∧ Narrow comp (heapStep h op) := by
  cases op with
  | push data =>
    refine ⟨?_, heapPush_narrow hn hop data⟩
    show (heapPush h data).elems = data ::ₘ h.elems
    rw [heapPush_eq hop]
    exact (heapPush_spec hn.valid data).2.1
  | pop =>
    have hempty : heapPop h = none ↔ h.elems = 0 := by
      have hsome : (heapPop h).isSome ↔ h.elems ≠ 0 := heapPop_isSome
      rw [Option.isSome_iff_ne_none] at hsome
      exact not_iff_not.mp hsome
    refine ⟨⟨hempty, fun x h' hp => ?_⟩, ?_⟩
    · obtain ⟨-, helems, hmax, -⟩ := heapPop_spec hn.valid hp
      rw [hn.comp_eq] at hmax
      exact ⟨helems, hmax⟩
    · rw [heapStep]
      cases hp : heapPop h with
      | none => exact hn
      | some r => exact heapPop_narrow hn hp

/-- With 2³¹ elements the array is full, its size doubled is 0, and it has no room for anything. -/
theorem heapPush_unsound (hn : Narrow comp h) (hkeys : ¬h.heapKeys < 2 ^ 31) (data : α) :
    ¬Sound comp (heapPush h data) := by
  obtain ⟨k, hk, hsize⟩ := hn.doubled
  have hroom := hn.valid.room
  have hle := doubled_le hk
  have hfull : h.heapKeys = h.heapSize := by omega
  rintro ⟨-, hno⟩
  rw [heapPush, if_pos hfull] at hno
  have hno : (h.heapKeys + 1) % 2 ^ 32 ≤ h.heapSize * 2 % 2 ^ 32 := hno
  omega

/-! ## Runs -/

theorem Works.sound {ops : List (HeapOp α)} (hworks : Works comp h ops) : Sound comp h := by
  cases ops with
  | nil => exact hworks
  | cons op ops => exact hworks.1

theorem works_iff (ops : List (HeapOp α)) {h : HeapList α} (hn : Narrow comp h) :
    Works comp h ops ↔ FitsRun h ops := by
  induction ops generalizing h with
  | nil => exact ⟨fun _ => trivial, fun _ => hn.sound⟩
  | cons op ops ih =>
    by_cases hop : Fits h op
    · obtain ⟨hchanges, hn'⟩ := heapStep_narrow hn hop
      constructor
      · rintro ⟨-, -, hworks⟩
        exact ⟨hop, (ih hn').mp hworks⟩
      · rintro ⟨-, hrun⟩
        exact ⟨hn.sound, hchanges, (ih hn').mpr hrun⟩
    · constructor
      · rintro ⟨-, -, hworks⟩
        cases op with
        | push data => exact absurd hworks.sound (heapPush_unsound hn hop data)
        | pop => exact absurd trivial hop
      · rintro ⟨hfits, -⟩
        exact absurd hfits hop

/-- After each call of any pushes and pops the array is in heap order and has room for its elements;
a push adds its element, a pop takes out one that no element is greater than, or finds none: exactly
as long as no push meets 2³¹ elements. -/
theorem heapRun_works [Inhabited α] (hc : IsPreorderComp comp) (ops : List (HeapOp α)) :
    Works comp (heapInit comp) ops ↔ FitsRun (heapInit comp) ops :=
  works_iff ops (heapInit_narrow hc)

/-- The difference of two integers is such a comparison. -/
theorem difference_isPreorder : IsPreorderComp fun x y : Int => x - y :=
  ⟨fun x y => by omega, fun x y z hxy hyz => by omega⟩

theorem heapRun_works_int :
    Works (fun x y : Int => x - y) (heapInit fun x y => x - y) [.push 1, .push 2, .push 3, .pop] :=
  (heapRun_works difference_isPreorder _).mpr
    ⟨by decide, by decide, by decide, trivial, trivial⟩

/-- Pushes that fit one after the other. -/
theorem fitsRun_pushes (n : Nat) {h : HeapList α} (hrun : FitsRun h (List.replicate n (.push data)))
    (hkeys : h.heapKeys ≤ 2 ^ 31) : h.heapKeys + n ≤ 2 ^ 31 := by
  induction n generalizing h with
  | zero => exact hkeys
  | succ n ih =>
    obtain ⟨hfits, hrun⟩ := hrun
    have hfits : h.heapKeys < 2 ^ 31 := hfits
    have hnext : (heapPush h data).heapKeys = h.heapKeys + 1 := by
      rw [heapPush_eq hfits, Spegla.heapPush]
      split <;> rfl
    have hrest : (heapPush h data).heapKeys + n ≤ 2 ^ 31 := ih hrun (by omega)
    omega

/-- The push of one element more than 2³¹. -/
theorem heapRun_wraps :
    ¬Works (fun x y : Int => x - y) (heapInit fun x y => x - y)
      (List.replicate (2 ^ 31 + 1) (.push 0)) := by
  intro hworks
  have hrun := (works_iff _ (heapInit_narrow difference_isPreorder)).mp hworks
  have hkeys := fitsRun_pushes _ hrun (Nat.zero_le _)
  have hkeys : 0 + (2 ^ 31 + 1) ≤ 2 ^ 31 := hkeys
  omega

end Spegla.U32
