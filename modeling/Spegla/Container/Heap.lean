import Spegla.Lib.HeapOrder

/-!
# Array heaps (`container.c`, `heap_init` to `heap_peek`)

The heap gives its greatest element first, by the comparison it was made with.
Its tree of indices is the one of `HEAP_PARENT` on an array that starts at 0:
the parent of `i` is `i >> 1`, so slot 0 sits above slot 1 alone.

- `HeapList` and the operations, as the source has them. Allocations succeed.
- `HeapList.Valid`: heap order, and no more elements than slots.
- `heapPush_spec`, `heapPop_spec`: what the two operations do to the elements.

The numbers are natural ones here; `HeapWidth` has them in the 32 bits of the source, with what
holds after any calls of the two.
-/

namespace Spegla

open HeapOrder

variable {α : Type}

/-- `HEAP_CHUNK`. -/
def HEAP_CHUNK : Nat := 2

/-- `HEAP_PARENT`, `HEAP_LEFT` and `HEAP_RIGHT`. -/
def heapParent (i : Nat) : Nat := i / 2
def heapLeft (i : Nat) : Nat := 2 * i
def heapRight (i : Nat) : Nat := 2 * i + 1

/-- `struct heap_list`. `heapData` is the memory of the heap; the slots in use
are those below `heapKeys`, the slots allocated those below `heapSize`. -/
structure HeapList (α : Type) where
  heapComp : α → α → Int
  heapData : Nat → α
  heapSize : Nat
  heapKeys : Nat

/-- `heap_init`. -/
def heapInit [Inhabited α] (comp : α → α → Int) : HeapList α :=
  { heapComp := comp, heapData := fun _ => default, heapSize := HEAP_CHUNK, heapKeys := 0 }

/-- `heap_inc`. -/
def heapInc (h : HeapList α) : HeapList α := { h with heapSize := h.heapSize * 2 }

/-- `heap_decr`. -/
def heapDecr (h : HeapList α) : HeapList α :=
  if h.heapSize = HEAP_CHUNK then h else { h with heapSize := h.heapSize / 2 }

/-- The index `heap_heapify` compares with `i`: that of the greatest among `i`
and its children. -/
def largest (comp : α → α → Int) (keys : Nat) (p : Nat → α) (i : Nat) : Nat :=
  let l := heapLeft i
  let r := heapRight i
  let m := if l < keys ∧ comp (p l) (p i) > 0 then l else i
  if r < keys ∧ comp (p r) (p m) > 0 then r else m

/-- The loop of `heap_heapify`; an index never comes twice, so `keys` rounds do. -/
def heapifyFrom (comp : α → α → Int) (keys : Nat) : Nat → (Nat → α) → Nat → (Nat → α)
  | 0, p, _ => p
  | fuel + 1, p, i =>
    let m := largest comp keys p i
    if m ≠ i then heapifyFrom comp keys fuel (swapAt p i m) m else p

/-- `heap_heapify`. -/
def heapHeapify (h : HeapList α) (i : Nat) : HeapList α :=
  { h with heapData := heapifyFrom h.heapComp h.heapKeys h.heapKeys h.heapData i }

/-- The loop of `heap_push`: elements above `data` are moved down, and `data` goes
into the gap. -/
def pushAt (comp : α → α → Int) (data : α) : Nat → (Nat → α) → Nat → (Nat → α)
  | 0, p, i => Function.update p i data
  | fuel + 1, p, i =>
    if 0 < i ∧ comp (p (heapParent i)) data < 0 then
      pushAt comp data fuel (Function.update p i (p (heapParent i))) (heapParent i)
    else Function.update p i data

/-- `heap_push`. -/
def heapPush (h : HeapList α) (data : α) : HeapList α :=
  let h := if h.heapKeys = h.heapSize then heapInc h else h
  { h with
    heapData := pushAt h.heapComp data h.heapKeys h.heapData h.heapKeys
    heapKeys := h.heapKeys + 1 }

/-- `heap_pop`: the element, and the heap without it. -/
def heapPop (h : HeapList α) : Option (α × HeapList α) :=
  if h.heapKeys = 0 then none
  else
    let data := h.heapData 0
    let h := if h.heapKeys < h.heapSize / 2 then heapDecr h else h
    some (data, heapHeapify
      { h with
        heapData := Function.update h.heapData 0 (h.heapData (h.heapKeys - 1))
        heapKeys := h.heapKeys - 1 } 0)

/-- `heap_peek`. -/
def heapPeek (h : HeapList α) : Option α :=
  if h.heapKeys = 0 then none else some (h.heapData 0)

/-! ## The comparison -/

/-- The comparison is a total preorder. -/
structure IsPreorderComp (comp : α → α → Int) : Prop where
  flip : ∀ x y, comp x y ≤ 0 ↔ 0 ≤ comp y x
  trans : ∀ x y z, comp x y ≤ 0 → comp y z ≤ 0 → comp x z ≤ 0

/-- `x` is not above `y`. -/
def Below (comp : α → α → Int) (x y : α) : Prop := comp x y ≤ 0

theorem IsPreorderComp.refl {comp : α → α → Int} (hc : IsPreorderComp comp) (x : α) :
    Below comp x x := by
  rcases Int.le_total (comp x x) 0 with h | h
  · exact h
  · exact (hc.flip x x).mpr h

theorem IsPreorderComp.below_of_not {comp : α → α → Int} (hc : IsPreorderComp comp) {x y : α}
    (h : ¬comp x y < 0) : Below comp y x :=
  (hc.flip y x).mpr (by omega)

theorem heapParent_isTree : IsTree heapParent := fun i hi => by
  unfold heapParent
  omega

/-! ## Validity -/

namespace HeapList

/-- The stored elements. -/
def elems (h : HeapList α) : Multiset α := HeapOrder.elems h.heapData h.heapKeys

/-- Heap order, and room for the elements. -/
structure Valid (h : HeapList α) : Prop where
  comp : IsPreorderComp h.heapComp
  ordered : Ordered (Below h.heapComp) heapParent h.heapData h.heapKeys
  room : h.heapKeys ≤ h.heapSize
  chunk : HEAP_CHUNK ≤ h.heapSize

end HeapList

theorem heapInit_valid [Inhabited α] {comp : α → α → Int} (hc : IsPreorderComp comp) :
    (heapInit comp).Valid where
  comp := hc
  ordered := fun i _ hi => absurd hi (Nat.not_lt_zero i)
  room := Nat.zero_le _
  chunk := Nat.le_refl _

theorem heapInit_elems [Inhabited α] (comp : α → α → Int) : (heapInit comp).elems = 0 := rfl

/-! ## `heap_heapify` -/

/-- What the comparisons of `heap_heapify` find out. -/
theorem largest_spec {comp : α → α → Int} (hc : IsPreorderComp comp) {keys : Nat}
    {p : Nat → α} {i : Nat} :
    (∀ j, 0 < j → j < keys → heapParent j = i → Below comp (p j) (p (largest comp keys p i))) ∧
      (largest comp keys p i ≠ i →
        0 < largest comp keys p i ∧ largest comp keys p i < keys ∧
          heapParent (largest comp keys p i) = i ∧
          Below comp (p i) (p (largest comp keys p i))) := by
  simp only [largest]
  generalize hm : (if heapLeft i < keys ∧ comp (p (heapLeft i)) (p i) > 0
    then heapLeft i else i) = m
  -- `m` is the greater of `i` and its left child
  have hmi : Below comp (p i) (p m) := by
    rw [← hm]
    split
    · next h => exact hc.below_of_not (by omega)
    · exact hc.refl _
  have hml : heapLeft i < keys → Below comp (p (heapLeft i)) (p m) := by
    intro hl
    rw [← hm]
    split
    · exact hc.refl _
    · next h =>
      have h' : ¬comp (p (heapLeft i)) (p i) > 0 := fun h' => h ⟨hl, h'⟩
      exact (Int.not_lt.mp h' : comp (p (heapLeft i)) (p i) ≤ 0)
  have hmne : m ≠ i → m = heapLeft i ∧ heapLeft i < keys := by
    intro hne
    rw [← hm] at hne ⊢
    split at hne
    · next h => rw [if_pos h]; exact ⟨rfl, h.1⟩
    · exact absurd rfl hne
  have hchild : ∀ j, 0 < j → heapParent j = i → j = heapLeft i ∨ j = heapRight i := by
    intro j _ hj
    unfold heapParent heapLeft heapRight at *
    omega
  split
  · next h =>
    -- the right child is above both
    have hmr : Below comp (p m) (p (heapRight i)) := hc.below_of_not (by omega)
    refine ⟨fun j hj0 hjk hj => ?_, fun _ => ⟨?_, h.1, ?_, hc.trans _ _ _ hmi hmr⟩⟩
    · rcases hchild j hj0 hj with rfl | rfl
      · exact hc.trans _ _ _ (hml hjk) hmr
      · exact hc.refl _
    · unfold heapRight; omega
    · unfold heapParent heapRight; omega
  · next h =>
    refine ⟨fun j hj0 hjk hj => ?_, fun hne => ?_⟩
    · rcases hchild j hj0 hj with rfl | rfl
      · exact hml hjk
      · have h' : ¬comp (p (heapRight i)) (p m) > 0 := fun h' => h ⟨hjk, h'⟩
        exact (Int.not_lt.mp h' : comp (p (heapRight i)) (p m) ≤ 0)
    · obtain ⟨hmeq, hlk⟩ := hmne hne
      have hi0 : 0 < i := by
        rcases Nat.eq_zero_or_pos i with rfl | h0
        · exact absurd hmeq hne
        · exact h0
      refine ⟨?_, hmeq ▸ hlk, ?_, hmi⟩
      · rw [hmeq]; unfold heapLeft; omega
      · rw [hmeq]; unfold heapParent heapLeft; omega

/-- `heap_heapify` puts a heap with a fault at `i` in order. -/
theorem heapifyFrom_spec {comp : α → α → Int} (hc : IsPreorderComp comp) {keys : Nat} :
    ∀ (fuel : Nat) (p : Nat → α) (i : Nat), keys ≤ i + fuel →
      DownOrder (Below comp) heapParent p keys i →
      Ordered (Below comp) heapParent (heapifyFrom comp keys fuel p i) keys ∧
        elems (heapifyFrom comp keys fuel p i) keys = elems p keys
  | 0, p, i, hf, hd => by
    refine ⟨hd.finish fun j hj0 hjk hj => ?_, rfl⟩
    have := heapParent_isTree j hj0
    omega
  | fuel + 1, p, i, hf, hd => by
    obtain ⟨hmax, hne⟩ := @largest_spec α comp hc keys p i
    rw [heapifyFrom]
    split
    · next h =>
      obtain ⟨hm0, hmk, hmi, hup⟩ := hne h
      have him := heapParent_isTree _ hm0
      have ih := heapifyFrom_spec hc fuel (swapAt p i (largest comp keys p i))
        (largest comp keys p i) (by omega)
        (hd.step heapParent_isTree hm0 hmk hmi hup hmax)
      exact ⟨ih.1, ih.2.trans (elems_swapAt p (by omega) hmk)⟩
    · next h =>
      rw [ne_eq, not_not] at h
      rw [h] at hmax
      exact ⟨hd.finish hmax, rfl⟩

/-! ## `heap_push` -/

/-- Moving the gap up is an exchange in the array with the gap filled. -/
theorem update_parent {p : Nat → α} {i q : Nat} (hq : q ≠ i) (data : α) :
    Function.update (Function.update p i (p q)) q data = swapAt (Function.update p i data) i q := by
  funext k
  by_cases hkq : k = q
  · subst hkq
    rw [Function.update_self, swapAt_right, Function.update_self]
  · by_cases hki : k = i
    · subst hki
      rw [Function.update_of_ne hkq, Function.update_self, swapAt_left, Function.update_of_ne hq]
    · rw [Function.update_of_ne hkq, Function.update_of_ne hki, swapAt_other _ hki hkq,
        Function.update_of_ne hki]

/-- The loop of `heap_push` puts a heap with a fault at the gap in order. -/
theorem pushAt_spec {comp : α → α → Int} (hc : IsPreorderComp comp) {keys : Nat} (data : α) :
    ∀ (fuel : Nat) (p : Nat → α) (i : Nat), i ≤ fuel → i < keys →
      UpOrder (Below comp) heapParent (Function.update p i data) keys i →
      Ordered (Below comp) heapParent (pushAt comp data fuel p i) keys ∧
        elems (pushAt comp data fuel p i) keys = elems (Function.update p i data) keys
  | 0, p, i, hf, _, hu => ⟨hu.finish fun h0 => absurd h0 (by omega), rfl⟩
  | fuel + 1, p, i, hf, hik, hu => by
    rw [pushAt]
    split
    · next h =>
      have hpi : heapParent i < i := heapParent_isTree i h.1
      have hpk : heapParent i < keys := hpi.trans hik
      have heq := update_parent (p := p) (by omega : heapParent i ≠ i) data
      have : IsTrans α (Below comp) := ⟨hc.trans⟩
      have hup : Below comp (Function.update p i data (heapParent i))
          (Function.update p i data i) := by
        rw [Function.update_self, Function.update_of_ne (by omega)]
        exact Int.le_of_lt h.2
      have ih := pushAt_spec hc data fuel (Function.update p i (p (heapParent i)))
        (heapParent i) (by omega) hpk
        (by rw [heq]; exact hu.step heapParent_isTree h.1 hik hup)
      rw [heq, elems_swapAt _ hik hpk] at ih
      exact ih
    · next h =>
      refine ⟨hu.finish fun h0 => ?_, rfl⟩
      rw [Function.update_self, Function.update_of_ne]
      · exact hc.below_of_not fun h' => h ⟨h0, h'⟩
      · have := heapParent_isTree i h0
        omega

/-- `heap_push` adds its element. -/
theorem heapPush_spec {h : HeapList α} (hv : h.Valid) (data : α) :
    (heapPush h data).Valid ∧ (heapPush h data).elems = data ::ₘ h.elems ∧
      (heapPush h data).heapComp = h.heapComp := by
  have hu : UpOrder (Below h.heapComp) heapParent (Function.update h.heapData h.heapKeys data)
      (h.heapKeys + 1) h.heapKeys := by
    constructor
    · intro j hj0 hjk hj
      have := heapParent_isTree j hj0
      rw [Function.update_of_ne hj, Function.update_of_ne (by omega)]
      exact hv.ordered j hj0 (by omega)
    · intro _ j hj0 hjk hj
      have := heapParent_isTree j hj0
      omega
  have hpush := pushAt_spec hv.comp data h.heapKeys h.heapData h.heapKeys (Nat.le_refl _)
    (Nat.lt_succ_self _) hu
  have helems : elems (Function.update h.heapData h.heapKeys data) (h.heapKeys + 1) =
      data ::ₘ h.elems := by
    rw [elems_succ, Function.update_self]
    congr 1
    exact elems_congr fun i hi => Function.update_of_ne (by omega) ..
  unfold heapPush
  by_cases hfull : h.heapKeys = h.heapSize
  · rw [if_pos hfull]
    refine ⟨⟨hv.comp, hpush.1, ?_, ?_⟩, hpush.2.trans helems, rfl⟩
    · have := hv.chunk
      simp only [heapInc, HEAP_CHUNK] at *
      omega
    · have := hv.chunk
      simp only [heapInc, HEAP_CHUNK] at *
      omega
  · rw [if_neg hfull]
    refine ⟨⟨hv.comp, hpush.1, ?_, hv.chunk⟩, hpush.2.trans helems, rfl⟩
    have := hv.room
    simp only
    omega

/-! ## `heap_pop` and `heap_peek` -/

/-- `heap_pop` takes out an element that no element is above. -/
theorem heapPop_spec {h h' : HeapList α} {x : α} (hv : h.Valid) (hp : heapPop h = some (x, h')) :
    h'.Valid ∧ h.elems = x ::ₘ h'.elems ∧ (∀ y ∈ h.elems, Below h.heapComp y x) ∧
      h'.heapComp = h.heapComp := by
  unfold heapPop at hp
  by_cases hk : h.heapKeys = 0
  · rw [if_pos hk] at hp
    simp at hp
  · rw [if_neg hk, Option.some_inj, Prod.mk.injEq] at hp
    obtain ⟨hx, hp⟩ := hp
    obtain ⟨n, hn⟩ : ∃ n, h.heapKeys = n + 1 := ⟨h.heapKeys - 1, by omega⟩
    -- shrinking the memory touches neither the elements nor their number
    have hshrink : ∃ size, h.heapKeys ≤ size ∧ HEAP_CHUNK ≤ size ∧
        (if h.heapKeys < h.heapSize / 2 then heapDecr h else h) = { h with heapSize := size } := by
      have hroom := hv.room
      have hchunk := hv.chunk
      by_cases hs : h.heapKeys < h.heapSize / 2
      · by_cases hc : h.heapSize = HEAP_CHUNK
        · exact ⟨h.heapSize, hroom, hchunk, by rw [if_pos hs, heapDecr, if_pos hc]⟩
        · refine ⟨h.heapSize / 2, by omega, ?_, by rw [if_pos hs, heapDecr, if_neg hc]⟩
          unfold HEAP_CHUNK at *
          omega
      · exact ⟨h.heapSize, hroom, hchunk, by rw [if_neg hs]⟩
    obtain ⟨size, hsize, hchunk, heq⟩ := hshrink
    rw [heq] at hp
    simp only [hn, Nat.add_sub_cancel] at hp
    have hd : DownOrder (Below h.heapComp) heapParent
        (Function.update h.heapData 0 (h.heapData n)) n 0 := by
      constructor
      · intro j hj0 hjn hj
        rw [Function.update_of_ne (by omega), Function.update_of_ne hj]
        exact hv.ordered j hj0 (by omega)
      · intro h0
        exact absurd h0 (Nat.lt_irrefl 0)
    have hheap := heapifyFrom_spec hv.comp n _ 0 (by omega) hd
    have : Std.Refl (Below h.heapComp) := ⟨hv.comp.refl⟩
    have : IsTrans α (Below h.heapComp) := ⟨hv.comp.trans⟩
    rw [← hp, ← hx]
    refine ⟨⟨hv.comp, hheap.1, ?_, hchunk⟩, ?_, ?_, rfl⟩
    · show n ≤ size
      omega
    · show elems h.heapData h.heapKeys = h.heapData 0 ::ₘ elems _ n
      rw [heapHeapify]
      show elems h.heapData h.heapKeys =
        h.heapData 0 ::ₘ elems (heapifyFrom h.heapComp n n _ 0) n
      rw [hheap.2, hn]
      rcases Nat.eq_zero_or_pos n with rfl | hpos
      · rfl
      · rw [elems_update _ _ hpos, elems_succ]
    · intro y hy
      obtain ⟨i, hi, rfl⟩ := mem_elems.mp hy
      exact hv.ordered.le_root heapParent_isTree i hi

theorem heapPop_isSome {h : HeapList α} : (heapPop h).isSome ↔ h.elems ≠ 0 := by
  unfold heapPop HeapList.elems HeapOrder.elems
  by_cases hk : h.heapKeys = 0
  · simp [hk]
  · simp [hk, ← Multiset.card_eq_zero]

/-- `heap_peek` shows what `heap_pop` would give. -/
theorem heapPeek_eq_pop (h : HeapList α) : heapPeek h = (heapPop h).map Prod.fst := by
  unfold heapPeek heapPop
  by_cases hk : h.heapKeys = 0
  · simp [hk]
  · simp only [hk, if_false, Option.map_some]

/-- The heap after pushes, one after the other. -/
def heapPushAll (h : HeapList α) (xs : List α) : HeapList α := xs.foldl heapPush h

theorem heapPushAll_spec : ∀ {h : HeapList α} (xs : List α), h.Valid →
    (heapPushAll h xs).Valid ∧ (heapPushAll h xs).elems = (xs : Multiset α) + h.elems ∧
      (heapPushAll h xs).heapComp = h.heapComp
  | h, [], hv => ⟨hv, by simp [heapPushAll], rfl⟩
  | h, x :: xs, hv => by
    obtain ⟨hv', helems, hcomp⟩ := heapPush_spec hv x
    obtain ⟨hv'', helems', hcomp'⟩ := heapPushAll_spec xs hv'
    refine ⟨hv'', ?_, hcomp'.trans hcomp⟩
    show (heapPushAll (heapPush h x) xs).elems = _
    rw [helems', helems, ← Multiset.cons_coe, Multiset.cons_add, Multiset.add_cons]

end Spegla
