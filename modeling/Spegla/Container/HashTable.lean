import Mathlib.Algebra.BigOperators.Group.List.Basic
import Mathlib.Algebra.Group.Nat.Defs
import Mathlib.Data.List.Basic
import Mathlib.Tactic.Common

/-!
# Hash tables (`container.c`, `hash_init` to `hash_rem`)

An array of chains. The first entry of a chain is in the array itself.

- `HashBuf` and the operations, as the source has them. Allocations succeed. A call is undefined
  (`none`) where it divides by a size of 0.
- `HashBuf.Holds`: the chains are the entries, sorted by the remainder of their keys.
- `HashBuf.Holds.step`: a call gives what it gives on the list of the entries, oldest first.
- `hashRun_multimap`: a run does exactly as long as no entry is removed that is alone in its chain.
-/

namespace Spegla

variable {α : Type}

/-! ## The operations -/

/-- `struct hash_data_s`, as it is in the array: `heNext` are the nodes that `he_next` leads to.
`heData` is `none` for a null pointer. -/
structure HashData (α : Type) where
  heData : Option α
  heKey : Nat
  heNext : List (Nat × α)

/-- `struct hash_buf`. -/
structure HashBuf (α : Type) where
  hashSize : Nat
  hashData : List (HashData α)

/-- `hash_init`. The size is kept in 32 bits. -/
def hashInit (hashSize : Nat) : HashBuf α :=
  { hashSize := hashSize % 2 ^ 32
    hashData := List.replicate hashSize { heData := none, heKey := 0, heNext := [] } }

/-- `p->hash_data[key % p->hash_size]`. -/
def HashBuf.slot (p : HashBuf α) (key : Nat) : Option (HashData α) :=
  if p.hashSize = 0 then none else p.hashData[key % p.hashSize]?

def HashBuf.setSlot (p : HashBuf α) (key : Nat) (he : HashData α) : HashBuf α :=
  { p with hashData := p.hashData.set (key % p.hashSize) he }

/-- What a walk along a chain meets, with the first entry. -/
def HashData.chain (he : HashData α) : List (Nat × α) :=
  match he.heData with
  | none => []
  | some data => (he.heKey, data) :: he.heNext

/-- `hash_ins`. -/
def hashIns (p : HashBuf α) (key : Nat) (data : α) : Option (HashBuf α) := do
  let he ← p.slot key
  match he.heData with
  | none => return p.setSlot key { he with heData := some data, heKey := key }
  | some _ => return p.setSlot key { he with heNext := he.heNext ++ [(key, data)] }

/-- `hash_find`; it fails with `some none`. -/
def hashFind (p : HashBuf α) (key : Nat) : Option (Option α) := do
  let he ← p.slot key
  return (he.chain.find? (·.1 = key)).map Prod.snd

/-- `hash_rem`: the data, and the table after it; it fails with `some none`. -/
def hashRem (p : HashBuf α) (key : Nat) : Option (Option (α × HashBuf α)) := do
  let he ← p.slot key
  match he.heData with
  | none => return none
  | some data =>
    if he.heKey = key then
      match he.heNext with
      | [] => return some (data, p)
      -- move up the following element
      | (k, d) :: rest =>
        return some (data, p.setSlot key { heData := some d, heKey := k, heNext := rest })
    else
      match he.heNext.find? (·.1 = key) with
      | none => return none
      | some (_, d) =>
        return some (d, p.setSlot key { he with heNext := he.heNext.eraseP (·.1 = key) })

/-- The entries that `hash_map` visits: chain after chain. -/
def HashBuf.visited (p : HashBuf α) : List (Nat × α) :=
  (p.hashData.take p.hashSize).flatMap HashData.chain

/-- `hash_count`. -/
def hashCount (p : HashBuf α) : Nat :=
  (p.hashData.take p.hashSize).foldl (fun datas he => datas + he.chain.length) 0

/-! ## Runs -/

/-- One call. -/
inductive HashOp (α : Type) where
  | ins (key : Fin (2 ^ 32)) (data : α)
  | find (key : Fin (2 ^ 32))
  | rem (key : Fin (2 ^ 32))
  | count

/-- What the caller gets. -/
inductive HashRes (α : Type) where
  | inserted
  | failed
  | found (data : α)
  | counted (n : Nat)
deriving DecidableEq, Repr

/-- A call: what it gives, and the table after it. -/
def hashStep (p : HashBuf α) : HashOp α → Option (HashRes α × HashBuf α)
  | .ins key data => (hashIns p key data).map fun p' => (.inserted, p')
  | .find key =>
    (hashFind p key).map fun
      | none => (.failed, p)
      | some data => (.found data, p)
  | .rem key =>
    (hashRem p key).map fun
      | none => (.failed, p)
      | some (data, p') => (.found data, p')
  | .count => some (.counted (hashCount p), p)

/-- The same call on a list of entries, with the oldest first. -/
def queuesStep (xs : List (Nat × α)) : HashOp α → HashRes α × List (Nat × α)
  | .ins key data => (.inserted, xs ++ [(key.val, data)])
  | .find key =>
    match xs.find? (·.1 = key.val) with
    | none => (.failed, xs)
    | some x => (.found x.2, xs)
  | .rem key =>
    match xs.find? (·.1 = key.val) with
    | none => (.failed, xs)
    | some x => (.found x.2, xs.eraseP (·.1 = key.val))
  | .count => (.counted xs.length, xs)

/-- The table has the entries `xs`, those of each key in their order. -/
def HashBuf.Shows (p : HashBuf α) (xs : List (Nat × α)) : Prop :=
  ∀ key, p.visited.filter (·.1 = key) = xs.filter (·.1 = key)

/-- From `p` on, every call is defined and gives what it gives on the list `xs`, and the table has
the entries of that list all the time. -/
def HashWorks (p : HashBuf α) (xs : List (Nat × α)) : List (HashOp α) → Prop
  | [] => p.Shows xs
  | op :: ops => p.Shows xs ∧
      ∃ r p', hashStep p op = some (r, p') ∧ r = (queuesStep xs op).1 ∧
        HashWorks p' (queuesStep xs op).2 ops

/-- What a call needs, with the size in 32 bits: that it does not divide by 0, and that it does not
remove an entry of which the chain has no other. -/
def HashOp.Fits (size : Nat) (xs : List (Nat × α)) : HashOp α → Prop
  | .ins _ _ => size ≠ 0
  | .find _ => size ≠ 0
  | .rem key => size ≠ 0 ∧
      ((∃ x ∈ xs, x.1 = key.val) → 1 < (xs.filter fun x => x.1 % size = key.val % size).length)
  | .count => True

/-- Every call has what it needs. -/
def HashFits (size : Nat) (xs : List (Nat × α)) : List (HashOp α) → Prop
  | [] => True
  | op :: ops => op.Fits size xs ∧ HashFits size (queuesStep xs op).2 ops

/-! ## What the table holds -/

/-- The entries of a chain. -/
def bucket (size k : Nat) (xs : List (Nat × α)) : List (Nat × α) := xs.filter (·.1 % size = k)

/-- The chains are the entries, sorted by the remainder of their keys. -/
structure HashBuf.Holds (p : HashBuf α) (xs : List (Nat × α)) : Prop where
  room : p.hashSize ≤ p.hashData.length
  chain : ∀ k < p.hashSize, ∀ he, p.hashData[k]? = some he → he.chain = bucket p.hashSize k xs
  empty : ∀ he ∈ p.hashData, he.heData = none → he.heNext = []
  below : 0 < p.hashSize ∨ xs = []

section Buckets

variable {size k : Nat} {xs : List (Nat × α)} {key : Nat}

theorem bucket_append (size k : Nat) (xs ys : List (Nat × α)) :
    bucket size k (xs ++ ys) = bucket size k xs ++ bucket size k ys := List.filter_append ..

/-- All entries of a key are in one chain. -/
theorem filter_bucket (size : Nat) (xs : List (Nat × α)) (key : Nat) :
    (bucket size (key % size) xs).filter (·.1 = key) = xs.filter (·.1 = key) := by
  rw [bucket, List.filter_filter]
  refine List.filter_congr fun x _ => ?_
  by_cases hx : x.1 = key
  · simp [hx]
  · simp [hx]

theorem find_bucket (size : Nat) (xs : List (Nat × α)) (key : Nat) :
    (bucket size (key % size) xs).find? (·.1 = key) = xs.find? (·.1 = key) := by
  rw [← List.head?_filter, filter_bucket, List.head?_filter]

/-- The oldest entry of a key goes from its chain, and no other one does. -/
theorem bucket_erase (size k : Nat) (xs : List (Nat × α)) (key : Nat) :
    bucket size k (xs.eraseP (·.1 = key)) =
      if k = key % size then (bucket size k xs).eraseP (·.1 = key) else bucket size k xs := by
  induction xs with
  | nil => simp [bucket]
  | cons x xs ih =>
    by_cases hx : x.1 = key
    · rw [List.eraseP_cons_of_pos (by simpa using hx)]
      by_cases hk : k = key % size
      · rw [if_pos hk, bucket, bucket, List.filter_cons_of_pos (by simp [hx, hk]),
          List.eraseP_cons_of_pos (by simpa using hx)]
      · rw [if_neg hk, bucket, bucket, List.filter_cons_of_neg (by simpa [hx] using Ne.symm hk)]
    · rw [List.eraseP_cons_of_neg (by simpa using hx)]
      by_cases hb : x.1 % size = k
      · rw [bucket, List.filter_cons_of_pos (by simpa using hb), ← bucket, ih, bucket, bucket,
          List.filter_cons_of_pos (by simpa using hb), List.eraseP_cons_of_neg (by simpa using hx)]
        split <;> rfl
      · rw [bucket, List.filter_cons_of_neg (by simpa using hb), ← bucket, ih, bucket, bucket,
          List.filter_cons_of_neg (by simpa using hb)]

/-- Where all results but one are empty, that one is the whole. -/
theorem flatMap_single {β γ : Type} {f : β → List γ} {hs : List β} {k : Nat} {b : β}
    (hk : hs[k]? = some b) (hf : ∀ i c, hs[i]? = some c → i ≠ k → f c = []) :
    hs.flatMap f = f b := by
  induction hs generalizing k with
  | nil => cases hk
  | cons h hs ih =>
    cases k with
    | zero =>
      obtain rfl : h = b := by simpa using hk
      have hrest : hs.flatMap f = [] := by
        rw [List.flatMap_eq_nil_iff]
        intro c hc
        obtain ⟨i, hi⟩ := List.getElem?_of_mem hc
        exact hf (i + 1) c hi (Nat.succ_ne_zero i)
      rw [List.flatMap_cons, hrest, List.append_nil]
    | succ k =>
      have hhead : f h = [] := hf 0 h rfl (Nat.succ_ne_zero k).symm
      rw [List.flatMap_cons, hhead, List.nil_append]
      exact ih hk fun i c hi hne => hf (i + 1) c hi fun he => hne (Nat.succ.inj he)

end Buckets

namespace HashBuf

variable {p : HashBuf α} {xs ys : List (Nat × α)} {key : Nat} {he he' : HashData α}

/-- The same entries for each key are the same entries. -/
theorem Shows.perm (h : p.Shows xs) : p.visited.Perm xs := by
  classical
  rw [List.perm_iff_count]
  intro x
  have hcount : ∀ ys : List (Nat × α), (ys.filter (·.1 = x.1)).count x = ys.count x :=
    fun ys => List.count_filter (decide_eq_true rfl)
  rw [← hcount, h x.1, hcount]

theorem hashCount_length (p : HashBuf α) : hashCount p = p.visited.length := by
  have hfold : ∀ (hs : List (HashData α)) n,
      hs.foldl (fun datas he => datas + he.chain.length) n =
        n + (hs.flatMap HashData.chain).length := by
    intro hs
    induction hs with
    | nil => intro n; simp
    | cons h hs ih =>
      intro n
      rw [List.foldl_cons, ih, List.flatMap_cons, List.length_append, Nat.add_assoc]
  exact (hfold _ 0).trans (Nat.zero_add _)

/-! ## The table and its chains -/

namespace Holds

/-- The chain of a key. -/
theorem slot (h : p.Holds xs) (hs : p.hashSize ≠ 0) (key : Nat) :
    ∃ he, p.slot key = some he ∧ he ∈ p.hashData ∧
      he.chain = bucket p.hashSize (key % p.hashSize) xs := by
  have hlt := Nat.mod_lt key (Nat.pos_of_ne_zero hs)
  have hlen := Nat.lt_of_lt_of_le hlt h.room
  have hget := List.getElem?_eq_getElem hlen
  refine ⟨p.hashData[key % p.hashSize], ?_, List.getElem_mem hlen, h.chain _ hlt _ hget⟩
  rw [HashBuf.slot, if_neg hs, hget]

/-- The table has the entries. -/
theorem shows (h : p.Holds xs) : p.Shows xs := by
  intro key
  rcases h.below with hs | rfl
  · have hlt := Nat.mod_lt key hs
    have hlen := Nat.lt_of_lt_of_le hlt h.room
    have hget : (p.hashData.take p.hashSize)[key % p.hashSize]? =
        some p.hashData[key % p.hashSize] := by
      rw [List.getElem?_take_of_lt hlt, List.getElem?_eq_getElem hlen]
    have hchain := h.chain _ hlt _ (List.getElem?_eq_getElem hlen)
    rw [visited, List.filter_flatMap, flatMap_single hget, hchain, filter_bucket]
    intro i he hi hne
    obtain ⟨hi', hi⟩ : i < p.hashSize ∧ p.hashData[i]? = some he := by
      simpa [List.getElem?_take] using hi
    rw [h.chain i hi' he hi, List.filter_eq_nil_iff]
    intro x hx
    have hmod : x.1 % p.hashSize = i := by simpa using List.of_mem_filter hx
    simpa using fun he : x.1 = key => hne (by rw [← hmod, he])
  · have hnil : p.visited = [] := by
      rw [visited, List.flatMap_eq_nil_iff]
      intro he hhe
      obtain ⟨i, hi⟩ := List.getElem?_of_mem hhe
      obtain ⟨hi', hi⟩ : i < p.hashSize ∧ p.hashData[i]? = some he := by
        simpa [List.getElem?_take] using hi
      exact h.chain i hi' he hi
    rw [hnil]

/-- One chain is changed, and only its entries. -/
theorem setSlot (h : p.Holds xs) (hs : p.hashSize ≠ 0)
    (hchain : he'.chain = bucket p.hashSize (key % p.hashSize) ys)
    (hempty : he'.heData = none → he'.heNext = [])
    (hrest : ∀ k, k ≠ key % p.hashSize → bucket p.hashSize k ys = bucket p.hashSize k xs) :
    (p.setSlot key he').Holds ys where
  room := by
    show p.hashSize ≤ (p.hashData.set _ he').length
    rw [List.length_set]
    exact h.room
  chain := by
    intro k hk he hget
    have hget : (p.hashData.set (key % p.hashSize) he')[k]? = some he := hget
    by_cases hkey : k = key % p.hashSize
    · have hlen := Nat.lt_of_lt_of_le (Nat.mod_lt key (Nat.pos_of_ne_zero hs)) h.room
      rw [hkey, List.getElem?_set_self hlen] at hget
      rw [← Option.some.inj hget, hkey]
      exact hchain
    · rw [List.getElem?_set_ne (Ne.symm hkey)] at hget
      rw [h.chain k hk he hget]
      exact (hrest k hkey).symm
  empty := by
    intro he hmem
    rcases List.mem_or_eq_of_mem_set hmem with hmem | rfl
    · exact h.empty he hmem
    · exact hempty
  below := .inl (Nat.pos_of_ne_zero hs)

/-! ## Calls -/

theorem ins (h : p.Holds xs) (hs : p.hashSize ≠ 0) (key : Nat) (data : α) :
    ∃ p', hashIns p key data = some p' ∧ p'.hashSize = p.hashSize ∧
      p'.Holds (xs ++ [(key, data)]) := by
  obtain ⟨he, hslot, hmem, hchain⟩ := h.slot hs key
  have hnew : bucket p.hashSize (key % p.hashSize) (xs ++ [(key, data)]) =
      he.chain ++ [(key, data)] := by
    rw [bucket_append, hchain]
    simp [bucket]
  have hrest : ∀ k, k ≠ key % p.hashSize →
      bucket p.hashSize k (xs ++ [(key, data)]) = bucket p.hashSize k xs := by
    intro k hk
    rw [bucket_append]
    simp [bucket, Ne.symm hk]
  cases hd : he.heData with
  | none =>
    refine ⟨p.setSlot key { he with heData := some data, heKey := key }, ?_, rfl, ?_⟩
    · simp only [hashIns, hslot, Option.bind_eq_bind, Option.bind_some, hd]
      rfl
    · refine h.setSlot hs ?_ (fun hn => by cases hn) hrest
      rw [hnew, HashData.chain, HashData.chain, hd, h.empty he hmem hd]
      rfl
  | some d =>
    refine ⟨p.setSlot key { he with heNext := he.heNext ++ [(key, data)] }, ?_, rfl, ?_⟩
    · simp only [hashIns, hslot, Option.bind_eq_bind, Option.bind_some, hd]
      rfl
    · refine h.setSlot hs ?_ (fun hn => by simp [hd] at hn) hrest
      rw [hnew, HashData.chain, HashData.chain]
      simp only [hd, List.cons_append]

theorem find (h : p.Holds xs) (hs : p.hashSize ≠ 0) (key : Nat) :
    hashFind p key = some ((xs.find? (·.1 = key)).map Prod.snd) := by
  obtain ⟨he, hslot, -, hchain⟩ := h.slot hs key
  simp only [hashFind, hslot, Option.bind_eq_bind, Option.bind_some, hchain, find_bucket]
  rfl

theorem count (h : p.Holds xs) : hashCount p = xs.length := by
  rw [hashCount_length]
  exact h.shows.perm.length_eq

/-- `hash_rem` of a key that no entry has fails. -/
theorem rem_absent (h : p.Holds xs) (hs : p.hashSize ≠ 0) (hf : xs.find? (·.1 = key) = none) :
    hashRem p key = some none := by
  obtain ⟨he, hslot, -, hchain⟩ := h.slot hs key
  rw [← find_bucket p.hashSize, ← hchain] at hf
  cases hd : he.heData with
  | none =>
    simp only [hashRem, hslot, Option.bind_eq_bind, Option.bind_some, hd]
    rfl
  | some d =>
    simp only [HashData.chain, hd] at hf
    have hkey : ¬he.heKey = key := by
      intro hk
      rw [List.find?_cons_of_pos (by simpa using hk)] at hf
      cases hf
    rw [List.find?_cons_of_neg (by simpa using hkey)] at hf
    simp only [hashRem, hslot, Option.bind_eq_bind, Option.bind_some, hd, if_neg hkey, hf]
    rfl

/-- `hash_rem` removes the oldest entry of a key, where its chain has another one. -/
theorem rem_found (h : p.Holds xs) (hs : p.hashSize ≠ 0) {x : Nat × α}
    (hf : xs.find? (·.1 = key) = some x)
    (hmany : 1 < (bucket p.hashSize (key % p.hashSize) xs).length) :
    ∃ p', hashRem p key = some (some (x.2, p')) ∧ p'.hashSize = p.hashSize ∧
      p'.Holds (xs.eraseP (·.1 = key)) := by
  obtain ⟨he, hslot, -, hchain⟩ := h.slot hs key
  have herase : bucket p.hashSize (key % p.hashSize) (xs.eraseP (·.1 = key)) =
      he.chain.eraseP (·.1 = key) := by
    rw [bucket_erase, if_pos rfl, hchain]
  have hrest : ∀ k, k ≠ key % p.hashSize →
      bucket p.hashSize k (xs.eraseP (·.1 = key)) = bucket p.hashSize k xs := by
    intro k hk
    rw [bucket_erase, if_neg hk]
  rw [← find_bucket p.hashSize, ← hchain] at hf
  rw [← hchain] at hmany
  cases hd : he.heData with
  | none =>
    simp only [HashData.chain, hd] at hf
    cases hf
  | some d =>
    simp only [HashData.chain, hd] at hf hmany herase
    by_cases hkey : he.heKey = key
    · rw [List.find?_cons_of_pos (by simpa using hkey)] at hf
      rw [List.eraseP_cons_of_pos (by simpa using hkey)] at herase
      cases hn : he.heNext with
      | nil =>
        rw [hn] at hmany
        exact absurd hmany (Nat.lt_irrefl 1)
      | cons y rest =>
        refine ⟨p.setSlot key { heData := some y.2, heKey := y.1, heNext := rest }, ?_, rfl, ?_⟩
        · simp only [hashRem, hslot, Option.bind_eq_bind, Option.bind_some, hd, if_pos hkey, hn]
          rw [← Option.some.inj hf]
          rfl
        · refine h.setSlot hs ?_ (fun hnone => by cases hnone) hrest
          rw [herase, hn]
          rfl
    · rw [List.find?_cons_of_neg (by simpa using hkey)] at hf
      rw [List.eraseP_cons_of_neg (by simpa using hkey)] at herase
      refine ⟨p.setSlot key { he with heNext := he.heNext.eraseP (·.1 = key) }, ?_, rfl, ?_⟩
      · simp only [hashRem, hslot, Option.bind_eq_bind, Option.bind_some, hd, if_neg hkey, hf]
        rfl
      · refine h.setSlot hs ?_ (fun hnone => by simp [hd] at hnone) hrest
        rw [herase]
        simp only [HashData.chain, hd]

/-- `hash_rem` gives the data of an entry that is alone in its chain, and leaves it there. -/
theorem rem_lone (h : p.Holds xs) (hs : p.hashSize ≠ 0) {x : Nat × α}
    (hf : xs.find? (·.1 = key) = some x)
    (hlone : (bucket p.hashSize (key % p.hashSize) xs).length ≤ 1) :
    hashRem p key = some (some (x.2, p)) := by
  obtain ⟨he, hslot, -, hchain⟩ := h.slot hs key
  rw [← find_bucket p.hashSize, ← hchain] at hf
  rw [← hchain] at hlone
  cases hd : he.heData with
  | none =>
    simp only [HashData.chain, hd] at hf
    cases hf
  | some d =>
    simp only [HashData.chain, hd] at hf hlone
    have hn : he.heNext = [] := List.eq_nil_of_length_eq_zero (by simpa using hlone)
    rw [hn] at hf
    have hkey : he.heKey = key := by
      by_contra hne
      rw [List.find?_cons_of_neg (by simpa using hne)] at hf
      cases hf
    rw [List.find?_cons_of_pos (by simpa using hkey)] at hf
    simp only [hashRem, hslot, Option.bind_eq_bind, Option.bind_some, hd, if_pos hkey, hn]
    rw [← Option.some.inj hf]
    rfl

/-! ## Runs -/

theorem find_step (h : p.Holds xs) (hs : p.hashSize ≠ 0) (key : Fin (2 ^ 32)) :
    hashStep p (.find key) = some ((queuesStep xs (.find key)).1, p) := by
  simp only [hashStep, h.find hs, queuesStep, Option.map_some]
  cases xs.find? (·.1 = key.val) <;> rfl

/-- A call that has what it needs gives what it gives on the list of the entries. -/
theorem step (h : p.Holds xs) (op : HashOp α) (hop : op.Fits p.hashSize xs) :
    ∃ r p', hashStep p op = some (r, p') ∧ r = (queuesStep xs op).1 ∧
      p'.hashSize = p.hashSize ∧ p'.Holds (queuesStep xs op).2 := by
  cases op with
  | ins key data =>
    obtain ⟨p', hrun, hsize, h'⟩ := h.ins hop key data
    exact ⟨.inserted, p', by simp only [hashStep, hrun, Option.map_some], rfl, hsize, h'⟩
  | find key =>
    refine ⟨_, p, h.find_step hop key, rfl, rfl, ?_⟩
    simp only [queuesStep]
    cases xs.find? (·.1 = key.val) <;> exact h
  | rem key =>
    obtain ⟨hs, hmany⟩ := hop
    cases hf : xs.find? (·.1 = key.val) with
    | none =>
      refine ⟨.failed, p, ?_, ?_, rfl, ?_⟩
      · simp only [hashStep, h.rem_absent hs hf, Option.map_some]
      · simp only [queuesStep, hf]
      · simp only [queuesStep, hf]
        exact h
    | some x =>
      have hx : x.1 = key.val := by simpa using List.find?_some hf
      obtain ⟨p', hrun, hsize, h'⟩ :=
        h.rem_found hs hf (hmany ⟨x, List.mem_of_find?_eq_some hf, hx⟩)
      refine ⟨.found x.2, p', ?_, ?_, hsize, ?_⟩
      · simp only [hashStep, hrun, Option.map_some]
      · simp only [queuesStep, hf]
      · simp only [queuesStep, hf]
        exact h'
  | count => exact ⟨_, p, rfl, congrArg HashRes.counted h.count, rfl, h⟩

/-- An entry that has been removed is not in the table. -/
theorem shows_erase (h : p.Holds xs) {x : Nat × α} (hf : xs.find? (·.1 = key) = some x) :
    ¬p.Shows (xs.eraseP (·.1 = key)) := by
  intro hshows
  have hx : x.1 = key := by simpa using List.find?_some hf
  have hlen := hshows.perm.length_eq
  rw [h.shows.perm.length_eq, List.length_eraseP_of_mem
    (List.mem_of_find?_eq_some hf) (decide_eq_true hx)] at hlen
  have hpos := List.length_pos_of_mem (List.mem_of_find?_eq_some hf)
  omega

/-- A call that lacks what it needs is undefined, or leaves what it should remove. -/
theorem fits_of_step (h : p.Holds xs) {op : HashOp α} {r : HashRes α} {p' : HashBuf α}
    (hrun : hashStep p op = some (r, p')) (hshows : p'.Shows (queuesStep xs op).2) :
    op.Fits p.hashSize xs := by
  have hslot : p.hashSize = 0 → ∀ key, p.slot key = none := fun hs key => if_pos hs
  cases op with
  | ins key data =>
    intro hs
    simp only [hashStep, hashIns, hslot hs, Option.bind_eq_bind, Option.bind_none,
      Option.map_none] at hrun
    cases hrun
  | find key =>
    intro hs
    simp only [hashStep, hashFind, hslot hs, Option.bind_eq_bind, Option.bind_none,
      Option.map_none] at hrun
    cases hrun
  | rem key =>
    have hs : p.hashSize ≠ 0 := by
      intro hs
      simp only [hashStep, hashRem, hslot hs, Option.bind_eq_bind, Option.bind_none,
        Option.map_none] at hrun
      cases hrun
    refine ⟨hs, fun hex => ?_⟩
    by_contra hlone
    cases hf : xs.find? (·.1 = key.val) with
    | none =>
      obtain ⟨y, hy, hkey⟩ := hex
      have hno := List.find?_eq_none.mp hf y hy
      exact hno (by simpa using hkey)
    | some x =>
      have hrem := h.rem_lone hs hf (Nat.le_of_not_lt hlone)
      simp only [hashStep, hrem, Option.map_some, Option.some.injEq, Prod.mk.injEq] at hrun
      simp only [queuesStep, hf, ← hrun.2] at hshows
      exact h.shows_erase hf hshows
  | count => trivial

theorem works_iff (h : p.Holds xs) (ops : List (HashOp α)) :
    HashWorks p xs ops ↔ HashFits p.hashSize xs ops := by
  induction ops generalizing p xs with
  | nil => exact ⟨fun _ => trivial, fun _ => h.shows⟩
  | cons op ops ih =>
    constructor
    · rintro ⟨-, r, p', hrun, hr, hworks⟩
      have hshows : p'.Shows (queuesStep xs op).2 := by
        cases ops with
        | nil => exact hworks
        | cons _ _ => exact hworks.1
      have hop := h.fits_of_step hrun hshows
      obtain ⟨r', p'', hrun', -, hsize, h'⟩ := h.step op hop
      obtain rfl : p' = p'' := congrArg Prod.snd (Option.some.inj (hrun.symm.trans hrun'))
      exact ⟨hop, hsize ▸ (ih h').mp hworks⟩
    · rintro ⟨hop, hrest⟩
      obtain ⟨r, p', hrun, hr, hsize, h'⟩ := h.step op hop
      rw [← hsize] at hrest
      exact ⟨h.shows, r, p', hrun, hr, (ih h').mpr hrest⟩

end Holds

end HashBuf

theorem hashInit_holds (n : Nat) : (hashInit n : HashBuf α).Holds [] where
  room := by
    show n % 2 ^ 32 ≤ (List.replicate n _).length
    rw [List.length_replicate]
    exact Nat.mod_le ..
  chain := by
    intro k hk he hget
    rw [List.eq_of_mem_replicate (List.mem_of_getElem? hget)]
    rfl
  empty := by
    intro he hmem hd
    rw [List.eq_of_mem_replicate hmem]
  below := .inr rfl

/-- From `hash_init` on, a run gives what queues of entries give, one for each key, exactly as long
as no call divides by 0 or removes an entry that is alone in its chain. -/
theorem hashRun_multimap (n : Nat) (ops : List (HashOp α)) :
    HashWorks (hashInit n) [] ops ↔ HashFits (n % 2 ^ 32) [] ops :=
  (hashInit_holds n).works_iff ops

/-- An entry is inserted in an empty table, and removed. -/
theorem hashRem_lone : ¬HashWorks (hashInit 7) [] [.ins 1 'a', .rem 1] := by
  rw [(hashInit_holds 7).works_iff]
  rintro ⟨-, ⟨-, hmany⟩, -⟩
  exact absurd (hmany ⟨(1, 'a'), by decide, by decide⟩) (by decide)

end Spegla
