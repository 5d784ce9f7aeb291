import Mathlib.Data.Multiset.MapFold
import Mathlib.Data.Multiset.Range
import Mathlib.Logic.Equiv.Basic
import Mathlib.Order.Basic
import Mathlib.Tactic.Common

/-!
# Heap order over an arbitrary tree of indices

A heap is an array whose elements are ordered along a tree of its indices. The
tree is any map `parent` that leads every index but 0 downwards; the binary tree
`(i - 1) / 2` of the textbooks is one, `i / 2` is another.

- `Ordered`: no element is above its parent. `Ordered.le_root`: the root is then
  above all of them.
- `swapAt` exchanges two elements, which keeps the multiset of elements
  (`elems_swapAt`).
- `UpOrder` and `DownOrder`: what holds while an element travels up or down.
  Their `step` lemmas carry it along one exchange, their `finish` lemmas end it.
-/

namespace HeapOrder

universe u

variable {α : Type u} {le : α → α → Prop} {parent : Nat → Nat}

/-- Every index but 0 has its parent below it. -/
def IsTree (parent : Nat → Nat) : Prop := ∀ i, 0 < i → parent i < i

/-- No element of the first `n` is above its parent. -/
def Ordered (le : α → α → Prop) (parent : Nat → Nat) (a : Nat → α) (n : Nat) : Prop :=
  ∀ i, 0 < i → i < n → le (a i) (a (parent i))

/-- The elements stored in the first `n` slots. -/
def elems (a : Nat → α) (n : Nat) : Multiset α := (Multiset.range n).map a

/-- Exchange the elements at `i` and `j`. -/
def swapAt (a : Nat → α) (i j : Nat) : Nat → α := a ∘ Equiv.swap i j

theorem swapAt_left (a : Nat → α) (i j : Nat) : swapAt a i j i = a j := by
  simp [swapAt]

theorem swapAt_right (a : Nat → α) (i j : Nat) : swapAt a i j j = a i := by
  simp [swapAt]

theorem swapAt_other (a : Nat → α) {i j k : Nat} (hi : k ≠ i) (hj : k ≠ j) :
    swapAt a i j k = a k := by
  rw [swapAt, Function.comp, Equiv.swap_apply_of_ne_of_ne hi hj]

/-- An exchange inside the first `n` slots keeps the elements. -/
theorem elems_swapAt (a : Nat → α) {i j n : Nat} (hi : i < n) (hj : j < n) :
    elems (swapAt a i j) n = elems a n := by
  have hperm : (Multiset.range n).map (Equiv.swap i j) = Multiset.range n := by
    refine (Multiset.Nodup.ext ((Multiset.nodup_range n).map (Equiv.injective _))
      (Multiset.nodup_range n)).mpr fun k => ?_
    have hmem : ∀ k, k < n → Equiv.swap i j k < n := by
      intro k hk
      by_cases hki : k = i
      · rw [hki, Equiv.swap_apply_left]; exact hj
      · by_cases hkj : k = j
        · rw [hkj, Equiv.swap_apply_right]; exact hi
        · rw [Equiv.swap_apply_of_ne_of_ne hki hkj]; exact hk
    rw [Multiset.mem_map, Multiset.mem_range]
    constructor
    · rintro ⟨m, hm, rfl⟩
      exact hmem m (Multiset.mem_range.mp hm)
    · intro hk
      exact ⟨Equiv.swap i j k, Multiset.mem_range.mpr (hmem k hk), Equiv.swap_apply_self i j k⟩
  unfold elems swapAt
  conv_rhs => rw [← hperm]
  rw [Multiset.map_map]

theorem elems_succ (a : Nat → α) (n : Nat) : elems a (n + 1) = a n ::ₘ elems a n := by
  unfold elems
  rw [Multiset.range_succ, Multiset.map_cons]

theorem mem_elems {a : Nat → α} {n : Nat} {x : α} : x ∈ elems a n ↔ ∃ i < n, a i = x := by
  simp [elems]

theorem elems_congr {a b : Nat → α} {n : Nat} (h : ∀ i < n, a i = b i) : elems a n = elems b n :=
  Multiset.map_congr rfl fun i hi => h i (Multiset.mem_range.mp hi)

/-- Filling slot `i` with `x` puts `x` in the place of what was there. -/
theorem elems_update (a : Nat → α) {i n : Nat} (x : α) (hi : i < n) :
    a i ::ₘ elems (Function.update a i x) n = x ::ₘ elems a n := by
  obtain ⟨m, rfl⟩ : ∃ m, n = m + 1 := ⟨n - 1, by omega⟩
  have hlast : ∀ b : Nat → α, elems b (m + 1) = b i ::ₘ elems (swapAt b i m) m := by
    intro b
    rw [← elems_swapAt b hi (Nat.lt_succ_self m), elems_succ, swapAt_right]
  have hsame : elems (swapAt (Function.update a i x) i m) m = elems (swapAt a i m) m := by
    refine elems_congr fun k hk => ?_
    unfold swapAt Function.comp
    rw [Function.update_of_ne]
    intro hc
    have : k = m := by
      have := congrArg (Equiv.swap i m) hc
      rwa [Equiv.swap_apply_self, Equiv.swap_apply_left] at this
    omega
  rw [hlast, hlast a, hsame, Function.update_self, Multiset.cons_swap]

variable [Std.Refl le] [IsTrans α le]

/-- The root of an ordered heap is above every element. -/
theorem Ordered.le_root {a : Nat → α} {n : Nat} (ht : IsTree parent)
    (h : Ordered le parent a n) : ∀ i, i < n → le (a i) (a 0) := by
  intro i
  induction i using Nat.strongRecOn with
  | ind i ih =>
    intro hi
    rcases Nat.eq_zero_or_pos i with rfl | hpos
    · exact refl_of le (a 0)
    · have hp := ht i hpos
      exact trans_of le (h i hpos hi) (ih (parent i) hp (hp.trans hi))

/-! ## Downwards -/

/-- The element at `i` may be below its children; everything else is in order,
and so are the children of `i` with the parent of `i`. -/
structure DownOrder (le : α → α → Prop) (parent : Nat → Nat) (a : Nat → α) (n i : Nat) :
    Prop where
  except : ∀ j, 0 < j → j < n → parent j ≠ i → le (a j) (a (parent j))
  grand : 0 < i → ∀ j, 0 < j → j < n → parent j = i → le (a j) (a (parent i))

omit [Std.Refl le] [IsTrans α le] in
/-- Exchanging the element at `i` with its greatest child `m` moves the fault down. -/
theorem DownOrder.step {a : Nat → α} {n i m : Nat} (ht : IsTree parent)
    (h : DownOrder le parent a n i) (hm0 : 0 < m) (hmn : m < n) (hmi : parent m = i)
    (hup : le (a i) (a m)) (hmax : ∀ j, 0 < j → j < n → parent j = i → le (a j) (a m)) :
    DownOrder le parent (swapAt a i m) n m := by
  have him : i < m := hmi ▸ ht m hm0
  constructor
  · intro j hj0 hjn hjm
    by_cases hji : parent j = i
    · rw [hji, swapAt_left]
      by_cases hj : j = m
      · rw [hj, swapAt_right]; exact hup
      · rw [swapAt_other a (by have := ht j hj0; omega) hj]
        exact hmax j hj0 hjn hji
    · rw [swapAt_other a hji hjm]
      by_cases hj : j = i
      · subst hj
        rw [swapAt_left]
        exact h.grand hj0 m hm0 hmn hmi
      · rw [swapAt_other a hj (fun hc => hji (hc ▸ hmi))]
        exact h.except j hj0 hjn hji
  · intro _ j hj0 hjn hjm
    have hmj : m < j := hjm ▸ ht j hj0
    rw [hmi, swapAt_left, swapAt_other a (by omega) (by omega), ← hjm]
    exact h.except j hj0 hjn (by omega)

omit [Std.Refl le] [IsTrans α le] in
/-- With the children of `i` in order too, the whole heap is. -/
theorem DownOrder.finish {a : Nat → α} {n i : Nat} (h : DownOrder le parent a n i)
    (hstop : ∀ j, 0 < j → j < n → parent j = i → le (a j) (a i)) : Ordered le parent a n := by
  intro j hj0 hjn
  by_cases hji : parent j = i
  · rw [hji]; exact hstop j hj0 hjn hji
  · exact h.except j hj0 hjn hji

/-! ## Upwards -/

/-- The element at `i` may be above its parent; everything else is in order, and
so are the children of `i` with the parent of `i`. -/
structure UpOrder (le : α → α → Prop) (parent : Nat → Nat) (a : Nat → α) (n i : Nat) :
    Prop where
  except : ∀ j, 0 < j → j < n → j ≠ i → le (a j) (a (parent j))
  grand : 0 < i → ∀ j, 0 < j → j < n → parent j = i → le (a j) (a (parent i))

omit [Std.Refl le] in
/-- Exchanging the element at `i` with its parent moves the fault up. -/
theorem UpOrder.step {a : Nat → α} {n i : Nat} (ht : IsTree parent)
    (h : UpOrder le parent a n i) (hi0 : 0 < i) (hin : i < n)
    (hup : le (a (parent i)) (a i)) :
    UpOrder le parent (swapAt a i (parent i)) n (parent i) := by
  have hpi : parent i < i := ht i hi0
  constructor
  · intro j hj0 hjn hjp
    by_cases hj : j = i
    · subst hj
      rw [swapAt_left, swapAt_right]
      exact hup
    · rw [swapAt_other a hj hjp]
      have hjle := h.except j hj0 hjn hj
      by_cases hpj : parent j = i
      · rw [hpj, swapAt_left]
        exact h.grand hi0 j hj0 hjn hpj
      · by_cases hpp : parent j = parent i
        · rw [hpp] at hjle ⊢
          rw [swapAt_right]
          exact trans_of le hjle hup
        · rw [swapAt_other a hpj hpp]
          exact hjle
  · intro hp0 j hj0 hjn hjp
    have hpp : parent (parent i) < parent i := ht _ hp0
    have hple := h.except (parent i) hp0 (by omega) (by omega)
    rw [swapAt_other a (by omega : parent (parent i) ≠ i) (by omega)]
    by_cases hj : j = i
    · rw [hj, swapAt_left]; exact hple
    · have hjlt : parent i < j := hjp ▸ ht j hj0
      rw [swapAt_other a hj (by omega)]
      have hjle := h.except j hj0 hjn hj
      rw [hjp] at hjle
      exact trans_of le hjle hple

omit [Std.Refl le] [IsTrans α le] in
/-- With the element at `i` below its parent too, the whole heap is in order. -/
theorem UpOrder.finish {a : Nat → α} {n i : Nat} (h : UpOrder le parent a n i)
    (hstop : 0 < i → le (a i) (a (parent i))) : Ordered le parent a n := by
  intro j hj0 hjn
  by_cases hj : j = i
  · subst hj; exact hstop hj0
  · exact h.except j hj0 hjn hj

end HeapOrder
