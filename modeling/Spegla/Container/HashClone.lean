import Spegla.Container.HashTable

/-!
# Cloning hash tables (`container.c`, `hash_map` and `hash_clone`)

A table is cloned by inserting what a walk over it meets, in the order of the walk.

- `hashMapFrom`, `hashMap`, `hashClone`: the walk and the clone, as the source has them. The walk
  counts its slots in an `int`.
- `HashBuf.Holds.visited_eq`: the walk goes through the buckets one after the other.
- `bucket_visited`: inserted in that order, the entries fall into the same buckets again.
- `hashClone_iff`: the clone is the same table exactly when the slots can be counted.
-/

namespace Spegla

variable {α : Type}

/-! ## The functions -/

/-- The loop of `hash_map` over `n` slots from `i` on, as the list of its calls. -/
def hashMapFrom (p : HashBuf α) : Nat → Nat → Option (List (Nat × α))
  | 0, _ => some []
  | n + 1, i => do
    let he ← p.hashData[i]?
    -- `i++`, of an `int`
    if i + 1 < 2 ^ 31 then
      let rest ← hashMapFrom p n (i + 1)
      return he.chain ++ rest
    else none

/-- `hash_map`: the entries that `map_fun` is called with. -/
def hashMap (p : HashBuf α) : Option (List (Nat × α)) := hashMapFrom p p.hashSize 0

/-- `hash_ins`, for one entry after the other. -/
def hashInsAll (p : HashBuf α) (xs : List (Nat × α)) : Option (HashBuf α) :=
  xs.foldlM (fun p x => hashIns p x.1 x.2) p

/-- `hash_clone`, with `hash_clone_helper` called for each entry. -/
def hashClone (p : HashBuf α) : Option (HashBuf α) :=
  (hashMap p).bind (hashInsAll (hashInit p.hashSize))

/-- The clone has the size of the table, the same chains, and gives the same answers. -/
def CloneRight (p : HashBuf α) : Prop :=
  ∃ q, hashClone p = some q ∧ q.hashSize = p.hashSize ∧
    (∀ k < p.hashSize, (q.hashData[k]?).map HashData.chain = (p.hashData[k]?).map HashData.chain) ∧
    (∀ key, hashFind q key = hashFind p key) ∧ hashCount q = hashCount p ∧ hashMap q = hashMap p

/-! ## The walk -/

variable {p q : HashBuf α} {xs : List (Nat × α)}

/-- The walk meets the chains from a slot on. -/
theorem hashMapFrom_eq {n i : Nat} (hroom : i + n ≤ p.hashData.length) (hlt : i + n < 2 ^ 31) :
    hashMapFrom p n i = some (((p.hashData.drop i).take n).flatMap HashData.chain) := by
  induction n generalizing i with
  | zero => rfl
  | succ n ih =>
    have hi : i < p.hashData.length := by omega
    rw [hashMapFrom, List.getElem?_eq_getElem hi, List.drop_eq_getElem_cons hi, List.take_succ_cons,
      List.flatMap_cons]
    simp only [Option.bind_eq_bind, Option.bind_some]
    rw [if_pos (by omega), ih (by omega) (by omega)]
    rfl

/-- Slots beyond an `int` cannot be counted. -/
theorem hashMapFrom_overflow {n i : Nat} (hroom : i + n ≤ p.hashData.length) (hn : n ≠ 0)
    (hlt : 2 ^ 31 ≤ i + n) : hashMapFrom p n i = none := by
  induction n generalizing i with
  | zero => exact absurd rfl hn
  | succ n ih =>
    have hi : i < p.hashData.length := by omega
    rw [hashMapFrom, List.getElem?_eq_getElem hi]
    simp only [Option.bind_eq_bind, Option.bind_some]
    split
    · rw [ih (by omega) (by omega) (by omega)]
      rfl
    · rfl

theorem HashBuf.Holds.hashMap_eq (h : p.Holds xs) (hlt : p.hashSize < 2 ^ 31) :
    hashMap p = some p.visited := by
  have hroom := h.room
  rw [hashMap, hashMapFrom_eq (by omega) (by omega)]
  rfl

theorem HashBuf.Holds.hashMap_overflow (h : p.Holds xs) (hlt : 2 ^ 31 ≤ p.hashSize) :
    hashMap p = none := by
  have hroom := h.room
  exact hashMapFrom_overflow (by omega) (by omega) (by omega)

/-- The walk goes through the buckets one after the other. -/
theorem HashBuf.Holds.visited_eq (h : p.Holds xs) :
    p.visited = (List.range p.hashSize).flatMap fun k => bucket p.hashSize k xs := by
  have hroom := h.room
  have hchains : (p.hashData.take p.hashSize).map HashData.chain =
      (List.range p.hashSize).map fun k => bucket p.hashSize k xs := by
    refine List.ext_getElem ?_ fun k hk hk' => ?_
    · rw [List.length_map, List.length_take, List.length_map, List.length_range]
      omega
    · rw [List.length_map, List.length_range] at hk'
      rw [List.getElem_map, List.getElem_map, List.getElem_range, List.getElem_take]
      exact h.chain k hk' _ (List.getElem?_eq_getElem (by omega))
  rw [HashBuf.visited, List.flatMap_def, hchains, ← List.flatMap_def]

/-- In the order of the walk, the entries fall into the same buckets. -/
theorem HashBuf.Holds.bucket_visited (h : p.Holds xs) {k : Nat} (hk : k < p.hashSize) :
    bucket p.hashSize k p.visited = bucket p.hashSize k xs := by
  have hget : (List.range p.hashSize)[k]? = some k := by
    rw [List.getElem?_eq_getElem (by rwa [List.length_range]), List.getElem_range]
  rw [h.visited_eq, bucket, List.filter_flatMap, flatMap_single hget, bucket, List.filter_filter]
  · simp only [Bool.and_self]
  · intro i j hij hne
    obtain ⟨-, rfl⟩ := List.getElem?_eq_some_iff.mp hij
    rw [List.getElem_range, bucket, List.filter_eq_nil_iff]
    intro x hx hmod
    rw [List.mem_filter, decide_eq_true_eq] at hx
    exact hne (hx.2.symm.trans (of_decide_eq_true hmod))

/-! ## The clone -/

/-- Entries that are inserted come behind those of the table. -/
theorem HashBuf.Holds.insAll (h : p.Holds xs) (hs : p.hashSize ≠ 0) (ys : List (Nat × α)) :
    ∃ q, hashInsAll p ys = some q ∧ q.hashSize = p.hashSize ∧ q.Holds (xs ++ ys) := by
  induction ys generalizing p xs with
  | nil =>
    rw [List.append_nil]
    exact ⟨p, rfl, rfl, h⟩
  | cons y ys ih =>
    obtain ⟨p', hins, hsize, h'⟩ := h.ins hs y.1 y.2
    obtain ⟨q, hall, hsize', h''⟩ := ih h' (by rwa [hsize])
    refine ⟨q, ?_, hsize'.trans hsize, ?_⟩
    · rw [hashInsAll, List.foldlM_cons, hins]
      exact hall
    · rwa [List.append_assoc] at h''

/-- A table that entries were inserted in holds them. -/
theorem hashInsAll_holds {n : Nat} (h : hashInsAll (hashInit n) xs = some p) :
    p.hashSize = n % 2 ^ 32 ∧ p.Holds xs := by
  by_cases hs : (hashInit n : HashBuf α).hashSize = 0
  · cases xs with
    | nil =>
      cases h
      exact ⟨rfl, hashInit_holds n⟩
    | cons x xs =>
      have hnone : hashIns (hashInit n) x.1 x.2 = none := by
        rw [hashIns, HashBuf.slot, if_pos hs]
        rfl
      rw [hashInsAll, List.foldlM_cons, hnone] at h
      cases h
  · obtain ⟨q, hall, hsize, hq⟩ := (hashInit_holds n).insAll hs xs
    rw [h] at hall
    obtain rfl := Option.some.inj hall
    exact ⟨hsize, hq⟩

/-- Tables with the same size and the same entries in each bucket give the same answers. -/
theorem HashBuf.Holds.same {ys : List (Nat × α)} (h : p.Holds xs) (h' : q.Holds ys)
    (hsize : q.hashSize = p.hashSize) (hlt : p.hashSize < 2 ^ 31)
    (hbuckets : ∀ k < p.hashSize, bucket p.hashSize k ys = bucket p.hashSize k xs) :
    (∀ k < p.hashSize, (q.hashData[k]?).map HashData.chain = (p.hashData[k]?).map HashData.chain) ∧
      (∀ key, hashFind q key = hashFind p key) ∧ hashCount q = hashCount p ∧
        hashMap q = hashMap p := by
  have hroom := h.room
  have hroom' := h'.room
  have hvisited : q.visited = p.visited := by
    rw [h.visited_eq, h'.visited_eq, hsize, List.flatMap_def, List.flatMap_def]
    congr 1
    exact List.map_congr_left fun k hk => hbuckets k (List.mem_range.mp hk)
  refine ⟨fun k hk => ?_, fun key => ?_, ?_, ?_⟩
  · have hq := h'.chain k (by omega) _ (List.getElem?_eq_getElem (by omega))
    have hp := h.chain k hk _ (List.getElem?_eq_getElem (by omega))
    rw [List.getElem?_eq_getElem (by omega), List.getElem?_eq_getElem (by omega), Option.map_some,
      Option.map_some, hq, hp, hsize, hbuckets k hk]
  · by_cases hs : p.hashSize = 0
    · simp only [hashFind, HashBuf.slot, if_pos hs, if_pos (hsize.trans hs)]
    · have hmod := Nat.mod_lt key (Nat.pos_of_ne_zero hs)
      rw [h.find hs, h'.find (by rwa [hsize]), ← find_bucket p.hashSize xs,
        ← find_bucket p.hashSize ys, hbuckets _ hmod]
  · rw [HashBuf.hashCount_length, HashBuf.hashCount_length, hvisited]
  · rw [h.hashMap_eq hlt, h'.hashMap_eq (by omega), hvisited]

/-- The clone of a table that entries were inserted in is the same table exactly when its slots can
be counted in an `int`. -/
theorem hashClone_iff (n : Nat) {xs : List (Nat × α)} {p : HashBuf α}
    (h : hashInsAll (hashInit n) xs = some p) : CloneRight p ↔ n % 2 ^ 32 < 2 ^ 31 := by
  obtain ⟨hn, hp⟩ := hashInsAll_holds h
  rw [← hn]
  constructor
  · rintro ⟨q, hq, -⟩
    by_contra hlong
    rw [hashClone, hp.hashMap_overflow (by omega)] at hq
    cases hq
  · intro hlt
    have hinit : (hashInit p.hashSize : HashBuf α).hashSize = p.hashSize :=
      Nat.mod_eq_of_lt (by omega)
    rcases hp.below with hpos | rfl
    · obtain ⟨q, hq, hsize, hq'⟩ := (hashInit_holds p.hashSize).insAll (by omega) p.visited
      rw [hinit] at hsize
      refine ⟨q, ?_, hsize, hp.same hq' hsize hlt fun k hk => ?_⟩
      · rw [hashClone, hp.hashMap_eq hlt]
        exact hq
      · exact hp.bucket_visited hk
    · have hnil : p.visited = [] := List.eq_nil_of_length_eq_zero hp.shows.perm.length_eq
      refine ⟨hashInit p.hashSize, ?_, hinit, ?_⟩
      · rw [hashClone, hp.hashMap_eq hlt, hnil]
        rfl
      · exact hp.same (hashInit_holds p.hashSize) hinit hlt fun _ _ => rfl

/-- Entries of two keys in one chain are cloned in their order. -/
theorem hashClone_two : ∃ p, hashInsAll (hashInit 7) [(1, 'a'), (8, 'b'), (1, 'c')] = some p ∧
    CloneRight p := by
  obtain ⟨p, hp, -⟩ := (hashInit_holds 7).insAll (by decide) [(1, 'a'), (8, 'b'), (1, 'c')]
  exact ⟨p, hp, (hashClone_iff 7 hp).mpr (by decide)⟩

/-- The empty table of 2³¹ slots cannot be cloned. -/
theorem hashClone_overflow : ¬CloneRight (hashInit (2 ^ 31) : HashBuf Nat) := by
  rintro ⟨q, hq, -⟩
  have hholds : (hashInit (2 ^ 31) : HashBuf Nat).Holds [] := hashInit_holds (2 ^ 31)
  have hsize : (hashInit (2 ^ 31) : HashBuf Nat).hashSize = 2 ^ 31 := Nat.mod_eq_of_lt (by decide)
  rw [hashClone, hholds.hashMap_overflow (Nat.le_of_eq hsize.symm)] at hq
  cases hq

end Spegla
