import Mathlib.Data.List.Perm.Basic
import Mathlib.Data.List.Pairwise
import Mathlib.Data.List.Sort
import Mathlib.Tactic.Common

/-!
# The join of two sorted lists

Two lists of records, each sorted by a key, are walked in lock step: every key
that occurs comes up once, with the record of either list that has it.

- `IsKeyOrder`: a three-way comparison of keys that is a strict linear order.
- `join`: the walk.
- `join_eq`: it visits the keys of both in ascending order.
- `find_perm`: looking up a key does not depend on the order of the records.
- `exists_sorted`: a list without a key twice can be sorted.
-/

namespace SortedJoin

variable {κ : Type}

/-- A three-way comparison that is a strict linear order. -/
structure IsKeyOrder (cmp : κ → κ → Int) : Prop where
  eq_of_zero : ∀ {a b}, cmp a b = 0 → a = b
  self : ∀ a, cmp a a = 0
  flip : ∀ a b, cmp b a = -cmp a b
  trans : ∀ {a b c}, cmp a b < 0 → cmp b c < 0 → cmp a c < 0

variable {α : Type} (cmp : κ → κ → Int) (key : α → κ)

/-- The records in ascending order of their keys, none twice. -/
def Ascending (xs : List α) : Prop := xs.Pairwise fun x y => cmp (key x) (key y) < 0

/-- The walk over two sorted lists. -/
def join : List α → List α → List (Option α × Option α)
  | [], [] => []
  | [], y :: ys => (none, some y) :: join [] ys
  | x :: xs, [] => (some x, none) :: join xs []
  | x :: xs, y :: ys =>
    if cmp (key x) (key y) > 0 then (none, some y) :: join (x :: xs) ys
    else if cmp (key x) (key y) < 0 then (some x, none) :: join xs (y :: ys)
    else (some x, some y) :: join xs ys
termination_by xs ys => xs.length + ys.length

variable [DecidableEq κ]

/-- The record with the key `k`. -/
def find (k : κ) (xs : List α) : Option α := xs.find? fun x => decide (key x = k)

variable {cmp key}

omit [DecidableEq κ] in
theorem IsKeyOrder.ne (hc : IsKeyOrder cmp) {a b : κ} (h : cmp a b < 0) : a ≠ b := by
  rintro rfl
  rw [hc.self] at h
  omega

theorem find_cons_self (x : α) (xs : List α) : find key (key x) (x :: xs) = some x := by
  simp [find]

theorem find_cons_ne {k : κ} {x : α} (h : key x ≠ k) (xs : List α) :
    find key k (x :: xs) = find key k xs := by
  simp [find, h]

theorem find_eq_none {k : κ} {xs : List α} : find key k xs = none ↔ ∀ x ∈ xs, key x ≠ k := by
  simp [find]

theorem find_some {k : κ} {x : α} {xs : List α} (h : find key k xs = some x) :
    x ∈ xs ∧ key x = k :=
  ⟨List.mem_of_find?_eq_some h, by simpa using List.find?_some h⟩

theorem find_of_mem {x : α} : ∀ {xs : List α}, (xs.map key).Nodup → x ∈ xs →
    find key (key x) xs = some x
  | y :: ys, hn, hx => by
    rw [List.map_cons, List.nodup_cons] at hn
    rcases List.mem_cons.mp hx with rfl | hx
    · exact find_cons_self ..
    · have hne : key y ≠ key x := fun h => hn.1 (h ▸ List.mem_map_of_mem hx)
      rw [find_cons_ne hne]
      exact find_of_mem hn.2 hx

/-- Looking up a key does not depend on the order of the records. -/
theorem find_perm {xs ys : List α} (hp : xs.Perm ys) (hn : (xs.map key).Nodup) (k : κ) :
    find key k xs = find key k ys := by
  have hn' : (ys.map key).Nodup := (hp.map key).nodup_iff.mp hn
  cases hx : find key k xs with
  | some x =>
    obtain ⟨hmem, rfl⟩ := find_some hx
    exact (find_of_mem hn' (hp.mem_iff.mp hmem)).symm
  | none =>
    refine (find_eq_none.mpr fun y hy => ?_).symm
    exact find_eq_none.mp hx y (hp.mem_iff.mpr hy)

omit [DecidableEq κ] in
theorem join_length (cmp : κ → κ → Int) (key : α → κ) : ∀ xs ys : List α,
    (join cmp key xs ys).length ≤ xs.length + ys.length
  | [], [] => by simp [join]
  | [], y :: ys => by
    have := join_length cmp key [] ys
    simp only [join, List.length_cons] at this ⊢
    omega
  | x :: xs, [] => by
    have := join_length cmp key xs []
    simp only [join, List.length_cons] at this ⊢
    omega
  | x :: xs, y :: ys => by
    have h₁ := join_length cmp key (x :: xs) ys
    have h₂ := join_length cmp key xs (y :: ys)
    have h₃ := join_length cmp key xs ys
    rw [join]
    split
    · simp only [List.length_cons] at h₁ ⊢
      omega
    · split <;> simp only [List.length_cons] at h₂ h₃ ⊢ <;> omega
termination_by xs ys => xs.length + ys.length

omit [DecidableEq κ] in
theorem join_eq_nil {xs ys : List α}
    (h : join cmp key xs ys = []) : xs = [] ∧ ys = [] := by
  cases xs <;> cases ys <;> rw [join] at h
  · exact ⟨rfl, rfl⟩
  · simp at h
  · simp at h
  · split at h
    · simp at h
    · split at h <;> simp at h

/-- A key below all keys of a list is not in it. -/
theorem find_below (hc : IsKeyOrder cmp) {k : κ} (xs : List α)
    (h : ∀ x ∈ xs, cmp k (key x) < 0) : find key k xs = none :=
  find_eq_none.mpr fun x hx => (hc.ne (h x hx)).symm

/-- What the walk over two sorted lists visits: their keys in ascending order, with
the record of either list that has the key. -/
theorem join_eq (hc : IsKeyOrder cmp) : ∀ {xs ys : List α}, Ascending cmp key xs →
    Ascending cmp key ys → ∃ ks : List κ, ks.Pairwise (fun a b => cmp a b < 0) ∧
      (∀ k, k ∈ ks ↔ k ∈ xs.map key ∨ k ∈ ys.map key) ∧
      join cmp key xs ys = ks.map fun k => (find key k xs, find key k ys)
  | [], [], _, _ => ⟨[], List.Pairwise.nil, by simp, by simp [join]⟩
  | [], y :: ys, hx, hy => by
    have hy' := List.pairwise_cons.mp hy
    -- only the second list has a key left, which is the smallest
    obtain ⟨ks, hks, hmem, heq⟩ := join_eq hc hx hy'.2
    have habove : ∀ k ∈ ks, cmp (key y) k < 0 := fun k hk => by
      obtain h | h := (hmem k).mp hk
      · simp at h
      · obtain ⟨z, hz, rfl⟩ := List.mem_map.mp h
        exact hy'.1 z hz
    refine ⟨key y :: ks, List.pairwise_cons.mpr ⟨habove, hks⟩, fun k => ?_, ?_⟩
    · rw [List.mem_cons, hmem k]
      simp
    · rw [join, heq, List.map_cons, find_cons_self]
      congr 1
      refine List.map_congr_left fun k hk => ?_
      rw [find_cons_ne (hc.ne (habove k hk))]
  | x :: xs, [], hx, hy => by
    have hx' := List.pairwise_cons.mp hx
    obtain ⟨ks, hks, hmem, heq⟩ := join_eq hc hx'.2 hy
    have habove : ∀ k ∈ ks, cmp (key x) k < 0 := fun k hk => by
      obtain h | h := (hmem k).mp hk
      · obtain ⟨z, hz, rfl⟩ := List.mem_map.mp h
        exact hx'.1 z hz
      · simp at h
    refine ⟨key x :: ks, List.pairwise_cons.mpr ⟨habove, hks⟩, fun k => ?_, ?_⟩
    · rw [List.mem_cons, hmem k]
      simp
    · rw [join, heq, List.map_cons, find_cons_self]
      congr 1
      refine List.map_congr_left fun k hk => ?_
      rw [find_cons_ne (hc.ne (habove k hk))]
  | x :: xs, y :: ys, hx, hy => by
    have hx' := List.pairwise_cons.mp hx
    have hy' := List.pairwise_cons.mp hy
    rw [join]
    -- the smaller of the two first keys comes next, from one list or from both
    by_cases hgt : cmp (key x) (key y) > 0
    · have hyx : cmp (key y) (key x) < 0 := by rw [hc.flip]; omega
      obtain ⟨ks, hks, hmem, heq⟩ := join_eq hc hx hy'.2
      have habove : ∀ k ∈ ks, cmp (key y) k < 0 := fun k hk => by
        obtain h | h := (hmem k).mp hk
        · obtain ⟨z, hz, rfl⟩ := List.mem_map.mp h
          rcases List.mem_cons.mp hz with rfl | hz
          · exact hyx
          · exact hc.trans hyx (hx'.1 z hz)
        · obtain ⟨z, hz, rfl⟩ := List.mem_map.mp h
          exact hy'.1 z hz
      refine ⟨key y :: ks, List.pairwise_cons.mpr ⟨habove, hks⟩, fun k => ?_, ?_⟩
      · rw [List.mem_cons, hmem k, List.map_cons (l := ys), List.mem_cons]
        exact or_left_comm
      · rw [if_pos hgt, heq, List.map_cons, find_cons_self, find_below hc (x :: xs)]
        · congr 1
          refine List.map_congr_left fun k hk => ?_
          rw [find_cons_ne (hc.ne (habove k hk)) ys]
        · intro z hz
          rcases List.mem_cons.mp hz with rfl | hz
          · exact hyx
          · exact hc.trans hyx (hx'.1 z hz)
    · rw [if_neg hgt]
      by_cases hlt : cmp (key x) (key y) < 0
      · obtain ⟨ks, hks, hmem, heq⟩ := join_eq hc hx'.2 hy
        have habove : ∀ k ∈ ks, cmp (key x) k < 0 := fun k hk => by
          obtain h | h := (hmem k).mp hk
          · obtain ⟨z, hz, rfl⟩ := List.mem_map.mp h
            exact hx'.1 z hz
          · obtain ⟨z, hz, rfl⟩ := List.mem_map.mp h
            rcases List.mem_cons.mp hz with rfl | hz
            · exact hlt
            · exact hc.trans hlt (hy'.1 z hz)
        refine ⟨key x :: ks, List.pairwise_cons.mpr ⟨habove, hks⟩, fun k => ?_, ?_⟩
        · rw [List.mem_cons, hmem k, List.map_cons (l := xs), List.mem_cons, or_assoc]
        · rw [if_pos hlt, heq, List.map_cons, find_cons_self, find_below hc (y :: ys)]
          · congr 1
            refine List.map_congr_left fun k hk => ?_
            rw [find_cons_ne (hc.ne (habove k hk)) xs]
          · intro z hz
            rcases List.mem_cons.mp hz with rfl | hz
            · exact hlt
            · exact hc.trans hlt (hy'.1 z hz)
      · rw [if_neg hlt]
        -- the keys are equal, and both lists go on
        have hxy : key x = key y := hc.eq_of_zero (by omega)
        obtain ⟨ks, hks, hmem, heq⟩ := join_eq hc hx'.2 hy'.2
        have habove : ∀ k ∈ ks, cmp (key x) k < 0 := fun k hk => by
          obtain h | h := (hmem k).mp hk
          · obtain ⟨z, hz, rfl⟩ := List.mem_map.mp h
            exact hx'.1 z hz
          · obtain ⟨z, hz, rfl⟩ := List.mem_map.mp h
            rw [hxy]
            exact hy'.1 z hz
        refine ⟨key x :: ks, List.pairwise_cons.mpr ⟨habove, hks⟩, fun k => ?_, ?_⟩
        · rw [List.mem_cons, hmem k, List.map_cons, List.map_cons, List.mem_cons, List.mem_cons,
            ← hxy]
          tauto
        · rw [heq, List.map_cons, find_cons_self, hxy, find_cons_self]
          congr 1
          refine List.map_congr_left fun k hk => ?_
          rw [find_cons_ne (hc.ne (habove k hk)), find_cons_ne (hxy ▸ hc.ne (habove k hk))]
termination_by xs ys => xs.length + ys.length

omit [DecidableEq κ] in
/-- A list without a key twice can be put in ascending order. -/
theorem exists_sorted (hc : IsKeyOrder cmp) (xs : List α) (hn : (xs.map key).Nodup) :
    ∃ ys, ys.Perm xs ∧ Ascending cmp key ys := by
  have hsort := @List.pairwise_mergeSort α (fun x y => decide (cmp (key x) (key y) ≤ 0))
    (fun a b c hab hbc => by
      simp only [decide_eq_true_eq] at hab hbc ⊢
      rcases Int.lt_or_eq_of_le hab with h₁ | h₁
      · rcases Int.lt_or_eq_of_le hbc with h₂ | h₂
        · exact Int.le_of_lt (hc.trans h₁ h₂)
        · rw [← hc.eq_of_zero h₂]
          exact hab
      · rw [hc.eq_of_zero h₁]
        exact hbc)
    (fun a b => by
      have := hc.flip (key a) (key b)
      simp only [Bool.or_eq_true, decide_eq_true_eq]
      omega) xs
  have hperm := List.mergeSort_perm xs fun x y => decide (cmp (key x) (key y) ≤ 0)
  have hn' : ((xs.mergeSort fun x y => decide (cmp (key x) (key y) ≤ 0)).map key).Nodup :=
    (hperm.map key).nodup_iff.mpr hn
  refine ⟨_, hperm, ?_⟩
  rw [List.Nodup, List.pairwise_map] at hn'
  refine (hsort.and hn').imp fun ⟨hle, hne⟩ => ?_
  rw [decide_eq_true_eq] at hle
  rcases Int.lt_or_eq_of_le hle with h | h
  · exact h
  · exact absurd (hc.eq_of_zero h) hne

end SortedJoin
