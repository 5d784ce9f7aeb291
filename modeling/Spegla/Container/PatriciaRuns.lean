import Mathlib.Data.List.Nodup
import Spegla.Container.Patricia

/-!
# Runs of Patricia trees (`container.c`)

- `patKeysMatch_self`, `patKeysMatch_apart`, `lowestDiffBit_apart`: comparing keys, when none ends
  inside the other.
- `patDescend_sorted`, `patBack_takeWhile`: the search in a tree that branches on the bits of the
  first byte, and the place of a new node.
- `PatTree.Holds`: the tree holds the keys of a map. `PatTree.Holds.step`: every call that fits
  keeps this.
- `patRun_map`: a run of such calls gives what a finite map gives.
-/

namespace Spegla

open BitTree

variable {α : Type}

/-! ## Comparing keys -/

section Keys

variable {k1 k2 : List UInt8}

theorem Apart.symm (h : Apart k1 k2) : Apart k2 k1 := ⟨h.2, h.1⟩

theorem Apart.ne (h : Apart k1 k2) : k1 ≠ k2 := by
  rintro rfl
  exact h.1 (List.prefix_refl k1)

/-- Two keys that are apart differ in the first byte, or the rest of them is apart. -/
theorem Apart.cases (h : Apart k1 k2) : ∃ a b r1 r2, k1 = a :: r1 ∧ k2 = b :: r2 ∧
    (a = b → Apart r1 r2) := by
  cases k1 with
  | nil => exact absurd (List.nil_prefix) h.1
  | cons a r1 =>
    cases k2 with
    | nil => exact absurd (List.nil_prefix) h.2
    | cons b r2 =>
      refine ⟨a, b, r1, r2, rfl, rfl, ?_⟩
      rintro rfl
      exact ⟨fun hp => h.1 (List.cons_prefix_cons.mpr ⟨rfl, hp⟩),
        fun hp => h.2 (List.cons_prefix_cons.mpr ⟨rfl, hp⟩)⟩

theorem keysMatchLoop_self (fuel : Nat) (k : List UInt8) (hf : k.length < fuel) :
    keysMatchLoop fuel k k.length k k.length = some true := by
  induction k generalizing fuel with
  | nil =>
    obtain ⟨fuel, rfl⟩ := Nat.exists_eq_add_of_lt hf
    simp [keysMatchLoop]
  | cons a k ih =>
    cases fuel with
    | zero => exact absurd hf (Nat.not_lt_zero _)
    | succ fuel =>
      have hrest := ih fuel (Nat.lt_of_succ_lt_succ hf)
      simp [keysMatchLoop, hrest]

theorem keysMatchLoop_apart (fuel : Nat) (h : Apart k1 k2) (hf : k1.length < fuel) :
    keysMatchLoop fuel k1 k1.length k2 k2.length = some false := by
  induction fuel generalizing k1 k2 with
  | zero => exact absurd hf (Nat.not_lt_zero _)
  | succ fuel ih =>
    obtain ⟨a, b, r1, r2, rfl, rfl, hrest⟩ := h.cases
    by_cases hab : a = b
    · have hloop := ih (hrest hab) (Nat.lt_of_succ_lt_succ hf)
      simp [keysMatchLoop, hab, hloop]
    · simp [keysMatchLoop, hab]

/-- A key matches itself. -/
theorem patKeysMatch_self (k : List UInt8) : patKeysMatch k k.length k k.length = some true := by
  cases k with
  | nil => rfl
  | cons a k => exact keysMatchLoop_self _ (a :: k) (by simp)

/-- Keys that are apart do not match, and are not read beyond their ends. -/
theorem patKeysMatch_apart (h : Apart k1 k2) :
    patKeysMatch k1 k1.length k2 k2.length = some false := by
  have hloop := keysMatchLoop_apart (max k1.length k2.length + 1) h (by omega)
  obtain ⟨a, b, r1, r2, rfl, rfl, -⟩ := h.cases
  exact hloop

theorem ffs_zero : ffs 0 = 0 := rfl

/-- `ffs` gives the lowest bit of a byte. -/
theorem ffs_pos {x : UInt8} (hx : x ≠ 0) :
    ∃ i < 8, ffs x = i + 1 ∧ x.toNat.testBit i = true ∧ ∀ j < i, x.toNat.testBit j = false := by
  cases hfind : (List.range 8).find? (x.toNat.testBit ·) with
  | none =>
    exfalso
    apply hx
    apply UInt8.toNat_inj.mp
    apply Nat.eq_of_testBit_eq
    intro i
    rw [UInt8.toNat_zero, Nat.zero_testBit]
    by_cases hi : i < 8
    · simpa using List.find?_eq_none.mp hfind i (List.mem_range.mpr hi)
    · exact Nat.testBit_lt_two_pow (Nat.lt_of_lt_of_le x.toNat_lt
        (Nat.pow_le_pow_right (by decide) (Nat.le_of_not_lt hi)))
  | some i =>
    obtain ⟨hbit, hi, hlow⟩ := List.find?_range_eq_some.mp hfind
    refine ⟨i, List.mem_range.mp hi, by rw [ffs, hfind], hbit, ?_⟩
    intro j hj
    simpa using hlow j hj

/-- The loop finds a bit in the first byte in which the keys differ; it is the lowest one if that is
the first byte of the keys. -/
theorem diffBitLoop_apart (fuel : Nat) (h : Apart k1 k2) (hf : k1.length < fuel) :
    ∃ d < 8, diffBitLoop fuel k1 k1.length k2 k2.length = some d ∧
      (k1.headD 0 ≠ k2.headD 0 → LowestDiff d k1 k2) := by
  induction fuel generalizing k1 k2 with
  | zero => exact absurd hf (Nat.not_lt_zero _)
  | succ fuel ih =>
    obtain ⟨a, b, r1, r2, rfl, rfl, hrest⟩ := h.cases
    have hpos : ¬(((a :: r1).length : Int) < 0 ∧ ((b :: r2).length : Int) < 0) := by omega
    have h1 : (0 : Int) ≤ ((a :: r1).length : Int) := by omega
    have h2 : (0 : Int) ≤ ((b :: r2).length : Int) := by omega
    by_cases hab : a = b
    · obtain ⟨d, hd, hloop, -⟩ := ih (hrest hab) (Nat.lt_of_succ_lt_succ hf)
      refine ⟨d, hd, ?_, fun hne => absurd hab hne⟩
      have hneg : ¬(0 : Int) ≤ (ffs (a ^^^ b) : Int) - 1 := by
        rw [hab, UInt8.xor_self, ffs_zero]
        decide
      have hl1 : ((a :: r1).length : Int) - 1 = r1.length := by
        rw [List.length_cons]
        omega
      have hl2 : ((b :: r2).length : Int) - 1 = r2.length := by
        rw [List.length_cons]
        omega
      simp only [diffBitLoop, if_neg hpos, List.head?_cons, Option.bind_eq_bind, Option.bind_some,
        if_neg hneg, if_pos h1, if_pos h2, List.tail_cons, hl1, hl2, hloop]
    · have hx : a ^^^ b ≠ 0 := fun h0 => hab (UInt8.xor_eq_zero_iff.mp h0)
      obtain ⟨d, hd, hffs, hbit, hlow⟩ := ffs_pos hx
      rw [UInt8.toNat_xor, Nat.testBit_xor] at hbit
      refine ⟨d, hd, ?_, fun _ => ⟨by simpa [firstBit] using hbit, ?_⟩⟩
      · have hge : (0 : Int) ≤ (ffs (a ^^^ b) : Int) - 1 := by
          rw [hffs]
          omega
        have hd' : ((ffs (a ^^^ b) : Int) - 1).toNat = d := by
          rw [hffs]
          omega
        simp only [diffBitLoop, if_neg hpos, List.head?_cons, Option.bind_eq_bind,
          Option.bind_some, if_pos hge, hd']
        rfl
      · intro j hj
        have := hlow j hj
        rw [UInt8.toNat_xor, Nat.testBit_xor] at this
        simpa [firstBit] using this

theorem lowestDiffBit_apart (h : Apart k1 k2) (h1 : k1.length < 2 ^ 16) (h2 : k2.length < 2 ^ 16) :
    ∃ d < 8, lowestDiffBit k1 k1.length k2 k2.length = some d ∧
      (k1.headD 0 ≠ k2.headD 0 → LowestDiff d k1 k2) := by
  have hint : ∀ l : Nat, l < 2 ^ 16 → (l : Int).bmod (2 ^ 32) = l := by
    intro l hl
    exact Int.bmod_eq_of_le (by omega) (by omega)
  obtain ⟨d, hd, hloop, hlow⟩ :=
    diffBitLoop_apart (max k1.length k2.length + 3) h (by omega)
  refine ⟨d, hd, ?_, hlow⟩
  obtain ⟨a, b, r1, r2, rfl, rfl, -⟩ := h.cases
  have hne1 : ¬((a :: r1).length : Int) = 0 := by
    rw [List.length_cons]
    omega
  have hne2 : ¬((b :: r2).length : Int) = 0 := by
    rw [List.length_cons]
    omega
  simp only [lowestDiffBit, hint _ h1, hint _ h2, if_neg hne1, if_neg hne2]
  exact hloop

end Keys

/-! ## Searching -/

/-- The bits of the first byte of the key of a leaf. -/
def leafBit (p : PatLeaf α) (i : Nat) : Bool := firstBit p.patKey i

theorem bitIsSet_first {key : List UInt8} (hk : key ≠ []) {i : Nat} (hi : i < 8) :
    bitIsSet i key = some (firstBit key i) := by
  cases key with
  | nil => exact absurd rfl hk
  | cons a key =>
    rw [bitIsSet, Nat.div_eq_of_lt hi, Nat.mod_eq_of_lt hi]
    rfl

/-- In a tree on the first byte, the search follows the bits of the key. -/
theorem patDescend_sorted {key : List UInt8} (hk : key ≠ []) {t : BitTree (PatLeaf α)} {lo : Nat}
    (ht : Sorted leafBit 8 lo t) :
    patDescend key t = some (path (firstBit key) t, reached (firstBit key) t) := by
  induction t generalizing lo with
  | leaf p => rfl
  | node b l r ihl ihr =>
    obtain ⟨-, hb, -, -, -, hl, hr⟩ := ht
    rw [patDescend, bitIsSet_first hk hb, path, reached]
    by_cases hset : firstBit key b = true
    · simp only [if_pos hset, Option.bind_eq_bind, Option.bind_some, ihr hr]
      rfl
    · simp only [if_neg hset, Option.bind_eq_bind, Option.bind_some, ihl hl]
      rfl

/-- What the loop back up the way ends at: the nodes after it have later bits, and it has not,
unless it is the root. -/
theorem patBack_spec (path : List (Nat × Bool)) (d n : Nat) :
    patBack path d n ≤ n ∧
      (∀ m, patBack path d n < m → m ≤ n → d < (path.getD m (0, false)).1) ∧
      (patBack path d n = 0 ∨ (path.getD (patBack path d n) (0, false)).1 ≤ d) := by
  induction n with
  | zero => exact ⟨Nat.le_refl 0, fun m h0 hm => absurd hm (Nat.not_le_of_lt h0), .inl rfl⟩
  | succ n ih =>
    rw [patBack]
    by_cases hgt : (path.getD (n + 1) (0, false)).1 > d
    · rw [if_pos hgt]
      refine ⟨Nat.le_succ_of_le ih.1, ?_, ih.2.2⟩
      intro m hm hmn
      rcases Nat.le_succ_iff.mp hmn with hmn | rfl
      · exact ih.2.1 m hm hmn
      · exact hgt
    · rw [if_neg hgt]
      exact ⟨Nat.le_refl _, fun m hm hmn => absurd hmn (Nat.not_le_of_lt hm),
        .inr (Nat.le_of_not_lt hgt)⟩

theorem takeWhile_eq_take {β : Type} {f : β → Bool} {xs : List β} {n : Nat}
    (hbefore : ∀ i < n, ∀ x, xs[i]? = some x → f x = true)
    (hat : ∀ x, xs[n]? = some x → f x = false) : xs.takeWhile f = xs.take n := by
  induction xs generalizing n with
  | nil => simp
  | cons x xs ih =>
    cases n with
    | zero => rw [List.takeWhile_cons_of_neg (by simp [hat x rfl]), List.take_zero]
    | succ n =>
      rw [List.takeWhile_cons_of_pos (hbefore 0 (Nat.succ_pos n) x rfl), List.take_succ_cons,
        ih (fun i hi y hy => hbefore (i + 1) (Nat.succ_lt_succ hi) y hy) hat]

/-- On a way with increasing bits, the loop finds the place for a new node: behind those with
earlier bits. -/
theorem patBack_takeWhile {path : List (Nat × Bool)} {d : Nat}
    (hp : (path.map Prod.fst).Pairwise (· < ·)) (hne : ∀ p ∈ path, p.1 ≠ d) (hpos : path ≠ []) :
    if patBack path d (path.length - 1) = 0 ∧ (path.getD 0 (0, false)).1 > d
    then path.takeWhile (·.1 < d) = []
    else path.takeWhile (·.1 < d) = path.take (patBack path d (path.length - 1) + 1) := by
  have hlen := List.length_pos_iff.mpr hpos
  obtain ⟨hle, hafter, hat⟩ := patBack_spec path d (path.length - 1)
  generalize hj : patBack path d (path.length - 1) = j at hle hafter hat
  have hget : ∀ m x, path[m]? = some x → (path.getD m (0, false)).1 = x.1 := by
    intro m x hx
    rw [List.getD_eq_getElem?_getD, hx, Option.getD_some]
  by_cases hroot : j = 0 ∧ (path.getD 0 (0, false)).1 > d
  · rw [if_pos hroot]
    refine (takeWhile_eq_take (n := 0) (fun i hi => absurd hi (Nat.not_lt_zero i)) ?_).trans
      List.take_zero
    intro x hx
    have := hget 0 x hx
    exact decide_eq_false (by omega)
  · rw [if_neg hroot]
    have hjle : (path.getD j (0, false)).1 ≤ d := by
      rcases hat with h0 | h
      · rw [h0] at hroot ⊢
        exact Nat.le_of_not_lt fun hgt => hroot ⟨rfl, hgt⟩
      · exact h
    have hjl : j < path.length := by omega
    refine takeWhile_eq_take ?_ ?_
    · intro i hi x hx
      have hxd := hne x (List.mem_of_getElem? hx)
      have hij : x.1 ≤ (path.getD j (0, false)).1 := by
        have hil : i < path.length := by omega
        rw [List.getElem?_eq_getElem hil] at hx
        obtain rfl := Option.some.inj hx
        rw [hget j _ (List.getElem?_eq_getElem hjl)]
        rcases Nat.lt_or_eq_of_le (Nat.le_of_lt_succ hi) with hlt | rfl
        · have := List.pairwise_iff_getElem.mp hp i j (by simpa using hil) (by simpa using hjl) hlt
          simp only [List.getElem_map] at this
          exact Nat.le_of_lt this
        · exact Nat.le_refl _
      exact decide_eq_true (by omega)
    · intro x hx
      have hl : j + 1 < path.length := (List.getElem?_eq_some_iff.mp hx).1
      have := hafter (j + 1) (Nat.lt_succ_self j) (by omega)
      rw [hget _ x hx] at this
      exact decide_eq_false (by omega)

/-! ## What the tree holds -/

def leafOf (x : List UInt8 × α) : PatLeaf α := patMakeLeaf x.1 x.1.length x.2

/-- The tree holds the keys `xs`: none is the beginning of another, a single key is in the tree
itself, and two or more are the leaves. If its first node is right, the tree branches in order on
the bits of the first bytes, which are all different. -/
structure PatTree.Holds (ready : Prop) (xs : List (List UInt8 × α)) (pat : PatTree α) : Prop where
  count : pat.patKeys = xs.length
  keys : ∀ x ∈ xs, x.1 ≠ [] ∧ x.1.length < 2 ^ 16
  apart : xs.Pairwise fun x y => Apart x.1 y.1
  one : ∀ x, xs = [x] → pat.patOne = some (leafOf x)
  tree : 2 ≤ xs.length → ∃ root, pat.patRoot = some root ∧ (leaves root).Perm (xs.map leafOf) ∧
    (ready → Sorted leafBit 8 0 root)
  first : 2 ≤ xs.length → ready → (xs.map fun x => x.1.headD 0).Nodup

section Keys

variable {xs : List (List UInt8 × α)} {key : List UInt8} {x : List UInt8 × α}

theorem leafOf_short (hx : x.1.length < 2 ^ 16) : leafOf x = ⟨x.1, x.1.length, x.2⟩ := by
  rw [leafOf, patMakeLeaf, Nat.mod_eq_of_lt hx]

theorem leafOf_eq {x y : List UInt8 × α} (h : leafOf x = leafOf y) : x = y :=
  Prod.ext (congrArg PatLeaf.patKey h) (congrArg PatLeaf.patData h)

/-- A key is compared with the one in a leaf. -/
theorem match_leafOf (hx : x.1.length < 2 ^ 16) (hk : key = x.1 ∨ Apart key x.1) :
    patKeysMatch (leafOf x).patKey (leafOf x).patKeyLen key key.length =
        some (decide (x.1 = key)) ∧
      patKeysMatch key key.length (leafOf x).patKey (leafOf x).patKeyLen =
        some (decide (x.1 = key)) := by
  rw [leafOf_short hx]
  rcases hk with rfl | hk
  · rw [decide_eq_true rfl]
    exact ⟨patKeysMatch_self x.1, patKeysMatch_self x.1⟩
  · rw [decide_eq_false hk.ne.symm]
    exact ⟨patKeysMatch_apart hk.symm, patKeysMatch_apart hk⟩

/-- A key of the map is found, and no other entry has it. -/
theorem find_key (ha : xs.Pairwise fun x y => Apart x.1 y.1) (hx : x ∈ xs) :
    xs.find? (·.1 = x.1) = some x := by
  induction xs with
  | nil => cases hx
  | cons y xs ih =>
    obtain ⟨hy, ha⟩ := List.pairwise_cons.mp ha
    rcases List.mem_cons.mp hx with rfl | hx
    · exact List.find?_cons_of_pos (by simp)
    · rw [List.find?_cons_of_neg (by simpa using (hy x hx).ne)]
      exact ih ha hx

theorem find_key_none (h : ∀ x ∈ xs, x.1 ≠ key) : xs.find? (·.1 = key) = none := by
  rw [List.find?_eq_none]
  intro x hx
  simpa using h x hx

/-- The other entries, when one is taken out. -/
theorem filter_key (ha : xs.Pairwise fun x y => Apart x.1 y.1) (hx : x ∈ xs) :
    xs.Perm (x :: xs.filter (·.1 ≠ x.1)) := by
  induction xs with
  | nil => cases hx
  | cons y xs ih =>
    obtain ⟨hy, ha⟩ := List.pairwise_cons.mp ha
    rcases List.mem_cons.mp hx with rfl | hx
    · have hall : xs.filter (·.1 ≠ x.1) = xs := by
        rw [List.filter_eq_self]
        intro z hz
        simpa using (hy z hz).ne.symm
      rw [List.filter_cons_of_neg (by simp), hall]
    · rw [List.filter_cons_of_pos (by simpa using (hy x hx).ne)]
      exact ((ih ha hx).cons y).trans (List.Perm.swap ..)

/-- Bytes that are all different are at most 256. -/
theorem length_le_bytes {bytes : List UInt8} (h : bytes.Nodup) : bytes.length ≤ 256 := by
  have hn : (bytes.map UInt8.toNat).Nodup := h.map fun a b hab => UInt8.toNat_inj.mp hab
  have hsub : bytes.map UInt8.toNat ⊆ List.range 256 := by
    intro n hn
    obtain ⟨b, -, rfl⟩ := List.mem_map.mp hn
    exact List.mem_range.mpr b.toNat_lt
  have hle := (List.subperm_of_subset hn hsub).length_le
  rwa [List.length_map, List.length_range] at hle

theorem LowestDiff.unique {i j : Nat} {k1 k2 : List UInt8} (hi : LowestDiff i k1 k2)
    (hj : LowestDiff j k1 k2) : i = j := by
  rcases Nat.lt_trichotomy i j with h | h | h
  · exact absurd (hj.2 i h) hi.1
  · exact h
  · exact absurd (hi.2 j h) hj.1

theorem LowestDiff.symm {i : Nat} {k1 k2 : List UInt8} (h : LowestDiff i k1 k2) :
    LowestDiff i k2 k1 :=
  ⟨h.1.symm, fun j hj => (h.2 j hj).symm⟩

theorem LowestDiff.first {i : Nat} {k1 k2 : List UInt8} (h : LowestDiff i k1 k2) :
    k1.headD 0 ≠ k2.headD 0 := by
  intro he
  exact h.1 (by rw [firstBit, firstBit, he])

theorem firstBit_lt {key : List UInt8} {i : Nat} (hi : 8 ≤ i) : firstBit key i = false :=
  Nat.testBit_lt_two_pow
    (Nat.lt_of_lt_of_le (UInt8.toNat_lt _) (Nat.pow_le_pow_right (by decide) hi))

theorem LowestDiff.lt {i : Nat} {k1 k2 : List UInt8} (h : LowestDiff i k1 k2) : i < 8 := by
  by_contra hi
  exact h.1 (by rw [firstBit_lt (Nat.le_of_not_lt hi), firstBit_lt (Nat.le_of_not_lt hi)])

end Keys

namespace PatTree.Holds

variable {ready : Prop} {xs : List (List UInt8 × α)} {pat : PatTree α} {key : List UInt8}

theorem init (ready : Prop) : (patInit : PatTree α).Holds ready [] where
  count := rfl
  keys := by simp
  apart := List.Pairwise.nil
  one := by simp
  tree := by simp
  first := by simp

/-- Whether the first node is right does not matter when there is none. -/
theorem few {ready' : Prop} (h : pat.Holds ready xs) (hfew : xs.length < 2) :
    pat.Holds ready' xs where
  count := h.count
  keys := h.keys
  apart := h.apart
  one := h.one
  tree := fun h2 => absurd hfew (Nat.not_lt_of_le h2)
  first := fun h2 => absurd hfew (Nat.not_lt_of_le h2)

/-- A search in the tree ends at a leaf: that of the key, if there is one. -/
theorem search (h : pat.Holds ready xs) (hready : ready) (h2 : 2 ≤ xs.length) (hk : key ≠ [])
    (ha : ∀ x ∈ xs, key = x.1 ∨ Apart key x.1) :
    ∃ root y, pat.patRoot = some root ∧ (leaves root).Perm (xs.map leafOf) ∧
      Sorted leafBit 8 0 root ∧ y ∈ xs ∧ reached (firstBit key) root = leafOf y ∧
      patDescend key root = some (path (firstBit key) root, leafOf y) ∧
      patKeysMatch (leafOf y).patKey (leafOf y).patKeyLen key key.length =
        some (decide (y.1 = key)) ∧
      (∀ x ∈ xs, x.1 = key → y = x) := by
  obtain ⟨root, hroot, hperm, hsorted⟩ := h.tree h2
  have hs := hsorted hready
  obtain ⟨y, hy, hreach⟩ := List.mem_map.mp (hperm.mem_iff.mp (reached_mem (firstBit key) root))
  refine ⟨root, y, hroot, hperm, hs, hy, hreach.symm, ?_, ?_, ?_⟩
  · rw [patDescend_sorted hk hs, hreach]
  · exact (match_leafOf (h.keys y hy).2 (ha y hy)).1
  · rintro x hx rfl
    have hleaf : leafOf x ∈ leaves root := hperm.mem_iff.mpr (List.mem_map_of_mem hx)
    have hbits : ∀ i < 8, firstBit x.1 i = leafBit (leafOf x) i := fun i _ => rfl
    have hfound := hs.reached_eq hleaf hbits
    exact leafOf_eq (hreach.trans hfound)

/-- Either the key is in the map, or it is apart from all keys of the map. -/
theorem present_or_apart (h : pat.Holds ready xs)
    (ha : ∀ x ∈ xs, key = x.1 ∨ Apart key x.1) :
    (∃ x ∈ xs, x.1 = key ∧ xs.find? (·.1 = key) = some x) ∨
      (∀ x ∈ xs, Apart key x.1) ∧ xs.find? (·.1 = key) = none := by
  by_cases hmem : ∃ x ∈ xs, x.1 = key
  · obtain ⟨x, hx, rfl⟩ := hmem
    exact .inl ⟨x, hx, rfl, find_key h.apart hx⟩
  · have hne : ∀ x ∈ xs, x.1 ≠ key := fun x hx he => hmem ⟨x, hx, he⟩
    refine .inr ⟨fun x hx => (ha x hx).resolve_left fun he => hne x hx he.symm, find_key_none hne⟩

/-! ## `pat_find` -/

theorem patFind_map (h : pat.Holds ready xs) (hready : 2 ≤ xs.length → ready) (hk : key ≠ [])
    (ha : ∀ x ∈ xs, key = x.1 ∨ Apart key x.1) :
    patFind pat key key.length = some ((xs.find? (·.1 = key)).map Prod.snd) := by
  rcases Nat.lt_or_ge xs.length 2 with hfew | h2
  · rw [patFind, h.count, if_pos hfew]
    match xs, hfew with
    | [], _ => rfl
    | [x], _ =>
      have hmatch := (match_leafOf (h.keys x (List.mem_singleton_self x)).2
        (ha x (List.mem_singleton_self x))).1
      rw [List.length_singleton, if_neg Nat.one_ne_zero, h.one x rfl]
      by_cases he : x.1 = key
      · have hfind : [x].find? (·.1 = key) = some x := List.find?_cons_of_pos (by simpa using he)
        simp only [Option.bind_eq_bind, Option.bind_some, hmatch, decide_eq_true he, if_pos, hfind]
        rfl
      · have hfind : [x].find? (·.1 = key) = none := by simp [he]
        simp only [Option.bind_eq_bind, Option.bind_some, hmatch, decide_eq_false he, hfind,
          if_neg Bool.false_ne_true]
        rfl
  · rw [patFind, h.count, if_neg (Nat.not_lt_of_le h2)]
    obtain ⟨root, y, hroot, -, -, hy, -, hdesc, hmatch, huniq⟩ := h.search (hready h2) h2 hk ha
    simp only [hroot, Option.bind_eq_bind, Option.bind_some, hdesc, hmatch]
    rcases h.present_or_apart ha with ⟨x, hx, hxk, hfind⟩ | ⟨hapart, hfind⟩
    · rw [huniq x hx hxk, hfind, decide_eq_true hxk, if_pos rfl]
      rfl
    · rw [hfind, decide_eq_false (hapart y hy).ne.symm, if_neg Bool.false_ne_true]
      rfl

/-! ## `pat_ins` -/

/-- A key that is there already. -/
theorem patIns_present (h : pat.Holds ready xs) (hready : 2 ≤ xs.length → ready) (hk : key ≠ [])
    (hs : key.length < 2 ^ 16) (ha : ∀ x ∈ xs, key = x.1 ∨ Apart key x.1)
    {x : List UInt8 × α} (hx : x ∈ xs) (hxk : x.1 = key) (data : α) (patBit : Nat) :
    patIns pat key key.length data patBit = some (false, pat) := by
  rcases Nat.lt_or_ge xs.length 2 with hfew | h2
  · rw [patIns, h.count, if_pos hfew]
    match xs, hfew with
    | [], _ => cases hx
    | [y], _ =>
      obtain rfl := List.mem_singleton.mp hx
      have hmatch := (match_leafOf (h.keys x hx).2 (ha x hx)).1
      rw [decide_eq_true hxk] at hmatch
      have hmod : key.length % 2 ^ 32 = key.length := Nat.mod_eq_of_lt (by omega)
      rw [List.length_singleton, if_pos rfl, h.one x rfl, hmod]
      simp only [Option.bind_eq_bind, Option.bind_some, hmatch, if_pos]
      rfl
  · rw [patIns, h.count, if_neg (Nat.not_lt_of_le h2), patInsCommon]
    obtain ⟨root, y, hroot, hperm, -, hy, -, hdesc, hmatch, huniq⟩ := h.search (hready h2) h2 hk ha
    have hslots : ¬pat.patKeys % 2 ^ 16 < (path (firstBit key) root).length := by
      have hpath := length_path (firstBit key) root
      have hle := length_le_bytes (h.first h2 (hready h2))
      have hn := hperm.length_eq
      rw [List.length_map] at hn hle
      rw [h.count, Nat.mod_eq_of_lt (by omega)]
      omega
    simp only [hroot, Option.bind_eq_bind, Option.bind_some, hdesc, if_neg hslots, hmatch,
      decide_eq_true ((congrArg Prod.fst (huniq x hx hxk)).trans hxk), if_pos]
    rfl

/-- With a key that is apart from the others, the map is as it should be. -/
theorem cons_keys (h : pat.Holds ready xs) (hk : key ≠ []) (hs : key.length < 2 ^ 16) (data : α) :
    ∀ x ∈ (key, data) :: xs, x.1 ≠ [] ∧ x.1.length < 2 ^ 16 := by
  intro x hx
  rcases List.mem_cons.mp hx with rfl | hx
  · exact ⟨hk, hs⟩
  · exact h.keys x hx

/-- The first key is kept in the tree itself. -/
theorem patIns_first (h : pat.Holds ready []) {ready' : Prop} (hk : key ≠ [])
    (hs : key.length < 2 ^ 16) (data : α) (patBit : Nat) :
    ∃ pat', patIns pat key key.length data patBit = some (true, pat') ∧
      pat'.Holds ready' [(key, data)] := by
  refine ⟨{ pat with patKeys := 1, patOne := some (leafOf (key, data)) }, ?_, ?_⟩
  · rw [patIns, h.count]
    rfl
  · exact {
      count := rfl
      keys := h.cons_keys hk hs data
      apart := List.pairwise_singleton ..
      one := by
        intro x hx
        rw [← List.singleton_inj.mp hx]
      tree := fun h2 => absurd h2 (by simp)
      first := fun h2 => absurd h2 (by simp) }

/-- The second key makes a node, whose bit is what the memory has. -/
theorem patIns_second {x : List UInt8 × α} (h : pat.Holds ready [x]) (hk : key ≠ [])
    (hs : key.length < 2 ^ 16) (ha : Apart key x.1) (data : α) (patBit : Nat) :
    ∃ pat', patIns pat key key.length data patBit = some (true, pat') ∧
      pat'.Holds (LowestDiff patBit key x.1) [(key, data), x] := by
  have hx := h.keys x (List.mem_singleton_self x)
  have hmatch := (match_leafOf hx.2 (.inr ha)).1
  obtain ⟨d, hd, hdiff, hlow⟩ := lowestDiffBit_apart ha.symm hx.2 hs
  have hleaf : lowestDiffBit (leafOf x).patKey (leafOf x).patKeyLen key key.length = some d := by
    rw [leafOf_short hx.2]
    exact hdiff
  have hmod : key.length % 2 ^ 32 = key.length := Nat.mod_eq_of_lt (by omega)
  have hold : patMakeLeaf (leafOf x).patKey (leafOf x).patKeyLen (leafOf x).patData = leafOf x := by
    rw [leafOf_short hx.2, patMakeLeaf, Nat.mod_eq_of_lt hx.2]
  let root := fork patBit (firstBit key d) (.leaf (leafOf (key, data))) (.leaf (leafOf x))
  refine ⟨{ pat with patKeys := 2, patRoot := some root }, ?_, ?_⟩
  · rw [patIns, h.count, List.length_singleton, if_pos Nat.one_lt_two, if_pos rfl, h.one x rfl,
      hmod]
    simp only [Option.bind_eq_bind, Option.bind_some, hmatch, decide_eq_false ha.ne.symm,
      if_neg Bool.false_ne_true, hleaf, bitIsSet_first hk hd, hold]
    rfl
  · exact {
      count := rfl
      keys := h.cons_keys hk hs data
      apart := List.pairwise_cons.mpr ⟨by simpa using ha, List.pairwise_singleton ..⟩
      one := fun y hy => absurd hy (by simp)
      tree := by
        intro _
        refine ⟨root, rfl, leaves_fork .., ?_⟩
        intro hready
        have hbit : firstBit key d = leafBit (leafOf (key, data)) patBit := by
          rw [(hlow hready.first.symm).unique hready.symm]
          rfl
        show Sorted leafBit 8 0 (fork patBit (firstBit key d) _ _)
        rw [hbit]
        refine (Sorted.fork (t := .leaf (leafOf x)) trivial hready.lt ?_ ?_).mono (Nat.zero_le _)
        · have hone : Agree leafBit patBit [leafOf x] := by
            intro y hy z hz i _
            rw [List.mem_singleton.mp hy, List.mem_singleton.mp hz]
          exact hone.cons (List.mem_singleton_self _) hready.2
        · intro y hy
          rw [List.mem_singleton.mp hy]
          exact hready.1.symm
      first := by
        intro _ hready
        exact List.nodup_cons.mpr ⟨by simpa using hready.first, List.nodup_singleton _⟩ }

/-- One more key gets a node above the first one on its way with a later bit. -/
theorem patIns_more (h : pat.Holds ready xs) (hready : ready) (h2 : 2 ≤ xs.length) (hk : key ≠ [])
    (hs : key.length < 2 ^ 16) (ha : ∀ x ∈ xs, Apart key x.1)
    (hf : ∀ x ∈ xs, key.headD 0 ≠ x.1.headD 0) (data : α) (patBit : Nat) :
    ∃ pat', patIns pat key key.length data patBit = some (true, pat') ∧
      pat'.Holds ready ((key, data) :: xs) := by
  obtain ⟨root, y, hroot, hperm, hsorted, hy, hreach, hdesc, hmatch, -⟩ :=
    h.search hready h2 hk fun x hx => .inr (ha x hx)
  have hbytes := length_le_bytes (h.first h2 hready)
  have hn := hperm.length_eq
  rw [List.length_map] at hn hbytes
  have hslots : ¬pat.patKeys % 2 ^ 16 < (path (firstBit key) root).length := by
    have hpath := length_path (firstBit key) root
    rw [h.count, Nat.mod_eq_of_lt (by omega)]
    omega
  -- the new key differs from the one found at bit `d`, and no node on the way has that bit
  obtain ⟨d, hd, hdiff, hlow⟩ := lowestDiffBit_apart (ha y hy).symm (h.keys y hy).2 hs
  have hlow := hlow (hf y hy).symm
  have hleaf : lowestDiffBit (leafOf y).patKey (leafOf y).patKeyLen key key.length = some d := by
    rw [leafOf_short (h.keys y hy).2]
    exact hdiff
  have hway := hsorted.path_increases (firstBit key)
  have hon := hsorted.reached_bit (firstBit key)
  have hne : ∀ p ∈ path (firstBit key) root, p.1 ≠ d := by
    rintro p hp rfl
    have hbit := hon p hp
    rw [hreach] at hbit
    exact hlow.1 hbit
  have hpos : path (firstBit key) root ≠ [] := by
    intro hnil
    cases root with
    | leaf p =>
      have : (leaves (BitTree.leaf p)).length = 1 := rfl
      omega
    | node b l r => simp [path] at hnil
  -- the loop back up the way ends where the bits are still smaller
  have hback := patBack_takeWhile hway.1 hne hpos
  have hplace :
    (if patBack (path (firstBit key) root) d ((path (firstBit key) root).length - 1) = 0 ∧
        ((path (firstBit key) root).getD 0 (0, false)).1 > d
      then fork d (firstBit key d) (.leaf (leafOf (key, data))) root
      else modifyAt (fork d (firstBit key d) (.leaf (leafOf (key, data))))
        (((path (firstBit key) root).take
          (patBack (path (firstBit key) root) d ((path (firstBit key) root).length - 1) + 1)).map
            Prod.snd) root) =
      insertAt (firstBit key) d (leafOf (key, data)) root := by
    rw [insertAt, legsBefore]
    by_cases hc : patBack (path (firstBit key) root) d ((path (firstBit key) root).length - 1) = 0 ∧
        ((path (firstBit key) root).getD 0 (0, false)).1 > d
    · rw [if_pos hc] at hback ⊢
      rw [hback]
      rfl
    · rw [if_neg hc] at hback ⊢
      rw [hback]
  refine ⟨{ pat with
    patKeys := xs.length + 1,
    patRoot := some (insertAt (firstBit key) d (leafOf (key, data)) root) }, ?_, ?_⟩
  · have hkeys : (pat.patKeys + 1) % 2 ^ 32 = xs.length + 1 := by
      rw [h.count]
      exact Nat.mod_eq_of_lt (by omega)
    rw [patIns, if_neg (by rw [h.count]; omega), patInsCommon]
    simp only [hroot, Option.bind_eq_bind, Option.bind_some, hdesc, if_neg hslots, hmatch,
      decide_eq_false (ha y hy).ne.symm, if_neg Bool.false_ne_true, hleaf, bitIsSet_first hk hd,
      hkeys]
    rw [← hplace]
    rfl
  · exact {
      count := rfl
      keys := h.cons_keys hk hs data
      apart := List.pairwise_cons.mpr ⟨ha, h.apart⟩
      one := by
        intro x hx
        have := congrArg List.length hx
        simp only [List.length_cons, List.length_nil] at this
        omega
      tree := by
        intro _
        refine ⟨_, rfl, (leaves_insertAt ..).trans (hperm.cons _), fun _ => ?_⟩
        have hreach' : reached (leafBit (leafOf (key, data))) root = leafOf y := hreach
        refine hsorted.insert (y := leafOf (key, data)) (Nat.zero_le d) hd ?_ ?_
        · intro i hi
          rw [hreach']
          exact (hlow.2 i hi).symm
        · rw [hreach']
          exact hlow.1
      first := by
        intro _ _
        refine List.nodup_cons.mpr ⟨?_, h.first h2 hready⟩
        intro hm
        obtain ⟨x, hx, he⟩ := List.mem_map.mp hm
        exact hf x hx he.symm }

/-! ## `pat_rem` -/

/-- A tree of two keys is a node with two leaves. -/
theorem two (h : pat.Holds ready xs) (h2 : xs.length = 2) :
    ∃ b u v, pat.patRoot = some (.node b (.leaf (leafOf u)) (.leaf (leafOf v))) ∧
      xs.Perm [u, v] := by
  obtain ⟨root, hroot, hperm, -⟩ := h.tree (Nat.le_of_eq h2.symm)
  obtain ⟨b, p, q, rfl⟩ := two_leaves (hperm.length_eq.trans ((List.length_map _).trans h2))
  match xs, h2 with
  | [x, y], _ =>
    have hpq : [p, q].Perm [leafOf x, leafOf y] := hperm
    have hp : p ∈ [leafOf x, leafOf y] := hpq.mem_iff.mp (List.mem_cons_self ..)
    rcases List.mem_cons.mp hp with rfl | hp
    · have hq := List.perm_singleton.mp hpq.cons_inv
      obtain rfl := List.singleton_inj.mp hq
      exact ⟨b, x, y, hroot, List.Perm.refl _⟩
    · obtain rfl := List.mem_singleton.mp hp
      have hq := List.perm_singleton.mp (hpq.trans (List.Perm.swap ..)).cons_inv
      obtain rfl := List.singleton_inj.mp hq
      exact ⟨b, y, x, hroot, List.Perm.swap ..⟩

/-- The map without one of two keys. -/
theorem filter_two {u v : List UInt8 × α} (h : pat.Holds ready xs) (hp : xs.Perm [u, v]) :
    xs.filter (·.1 ≠ u.1) = [v] := by
  have hu : u ∈ xs := hp.mem_iff.mpr (List.mem_cons_self ..)
  exact List.perm_singleton.mp ((filter_key h.apart hu).symm.trans hp).cons_inv

theorem one_left {v : List UInt8 × α} (h : pat.Holds ready xs) (hv : v ∈ xs) :
    (⟨1, none, some (leafOf v)⟩ : PatTree α).Holds ready [v] where
  count := rfl
  keys := by
    intro x hx
    rw [List.mem_singleton.mp hx]
    exact h.keys v hv
  apart := List.pairwise_singleton ..
  one := by
    intro x hx
    rw [← List.singleton_inj.mp hx]
  tree := fun h2 => absurd h2 (by simp)
  first := fun h2 => absurd h2 (by simp)

/-- A key that is not there. -/
theorem patRem_absent (h : pat.Holds ready xs) (hready : 2 ≤ xs.length → xs.length ≠ 2 → ready)
    (hk : key ≠ []) (ha : ∀ x ∈ xs, Apart key x.1) :
    patRem pat key key.length = some none := by
  have hmatch := fun x hx => match_leafOf (h.keys x hx).2 (.inr (ha x hx))
  rw [patRem, h.count]
  match hxs : xs.length with
  | 0 => rfl
  | 1 =>
    obtain ⟨x, rfl⟩ := List.length_eq_one_iff.mp hxs
    have hx := List.mem_singleton_self x
    simp only [h.one x rfl, Option.bind_eq_bind, Option.bind_some, (hmatch x hx).1,
      decide_eq_false (ha x hx).ne.symm, if_neg Bool.false_ne_true]
    rfl
  | 2 =>
    obtain ⟨b, u, v, hroot, hp⟩ := h.two hxs
    have hu : u ∈ xs := hp.mem_iff.mpr (by simp)
    have hv : v ∈ xs := hp.mem_iff.mpr (by simp)
    simp only [hroot, Option.bind_eq_bind, Option.bind_some, (hmatch u hu).2, (hmatch v hv).2,
      decide_eq_false (ha u hu).ne.symm, decide_eq_false (ha v hv).ne.symm,
      if_neg Bool.false_ne_true]
    rfl
  | n + 3 =>
    obtain ⟨root, y, hroot, -, -, hy, -, hdesc, hfound, -⟩ :=
      h.search (hready (by omega) (by omega)) (by omega) hk fun x hx => .inr (ha x hx)
    show patRemCommon pat key key.length = some none
    simp only [patRemCommon, hroot, Option.bind_eq_bind, Option.bind_some, hdesc, hfound,
      decide_eq_false (ha y hy).ne.symm, if_neg Bool.false_ne_true]
    rfl

/-- A key goes, and its sibling takes the place of their node. -/
theorem patRem_common {x : List UInt8 × α} (h : pat.Holds ready xs) (hready : ready)
    (h3 : 3 ≤ xs.length) (ha : ∀ y ∈ xs, x.1 = y.1 ∨ Apart x.1 y.1) (hx : x ∈ xs) :
    ∃ pat', patRemCommon pat x.1 x.1.length = some (some (x.2, pat')) ∧
      pat'.Holds ready (xs.filter (·.1 ≠ x.1)) := by
  obtain ⟨root, y, hroot, hperm, hsorted, -, hreach, hdesc, hfound, huniq⟩ :=
    h.search hready (Nat.le_of_succ_le h3) (h.keys x hx).1 ha
  obtain rfl := huniq x hx rfl
  have hless := filter_key h.apart hx
  have hlen := hless.length_eq
  rw [List.length_cons] at hlen
  have hpos : path (firstBit y.1) root ≠ [] := by
    intro hnil
    cases root with
    | leaf p =>
      have hone : (leaves (BitTree.leaf p)).length = 1 := rfl
      have hn := hperm.length_eq
      rw [List.length_map] at hn
      omega
    | node b l r => simp [path] at hnil
  have hpath := (List.dropLast_append_getLast hpos).symm
  -- the last node of the way goes with the leaf, and its other side comes into its place
  have hgone := remove_leaves hpath
  have hrest := hsorted.remove hpath
  rw [hreach] at hgone
  have hleft : (leaves (modifyAt (other ((path (firstBit y.1) root).getLast hpos).2)
      ((path (firstBit y.1) root).dropLast.map Prod.snd) root)).Perm
      ((xs.filter (·.1 ≠ y.1)).map leafOf) :=
    (hgone.symm.trans (hperm.trans (hless.map leafOf))).cons_inv
  have hlast : (path (firstBit y.1) root).getLastD (0, false) =
      (path (firstBit y.1) root).getLast hpos := List.getLastD_eq_getLast? .. ▸ by
    rw [List.getLast?_eq_some_getLast hpos, Option.getD_some]
  generalize hnew : modifyAt (other ((path (firstBit y.1) root).getLast hpos).2)
    ((path (firstBit y.1) root).dropLast.map Prod.snd) root = new at hleft hrest
  refine ⟨{ pat with patKeys := pat.patKeys - 1, patRoot := some new }, ?_, ?_⟩
  · simp only [patRemCommon, hroot, Option.bind_eq_bind, Option.bind_some, hdesc, hfound,
      decide_true, if_pos, hlast, hnew]
    cases new with
    | leaf p =>
      have hone : (leaves (BitTree.leaf p)).length = 1 := rfl
      have hn := hleft.length_eq
      rw [List.length_map] at hn
      omega
    | node b l r => rfl
  · have hsub : (xs.filter (·.1 ≠ y.1)).Sublist xs := List.filter_sublist
    exact {
      count := by
        show pat.patKeys - 1 = _
        rw [h.count]
        omega
      keys := fun z hz => h.keys z (hsub.mem hz)
      apart := h.apart.sublist hsub
      one := by
        intro z hz
        rw [hz, List.length_singleton] at hlen
        omega
      tree := fun _ => ⟨new, rfl, hleft, fun _ => hrest⟩
      first := fun _ _ => (h.first (Nat.le_of_succ_le h3) hready).sublist (hsub.map _) }

/-- A key that is there. -/
theorem patRem_present {x : List UInt8 × α} (h : pat.Holds ready xs)
    (hready : 2 ≤ xs.length → xs.length ≠ 2 → ready)
    (ha : ∀ y ∈ xs, x.1 = y.1 ∨ Apart x.1 y.1) (hx : x ∈ xs) :
    ∃ pat', patRem pat x.1 x.1.length = some (some (x.2, pat')) ∧
      pat'.Holds ready (xs.filter (·.1 ≠ x.1)) := by
  have hmatch := fun y hy => match_leafOf (h.keys y hy).2 (ha y hy)
  rw [patRem, h.count]
  match hxs : xs.length with
  | 0 =>
    rw [List.length_eq_zero_iff.mp hxs] at hx
    cases hx
  | 1 =>
    obtain ⟨y, rfl⟩ := List.length_eq_one_iff.mp hxs
    obtain rfl := List.mem_singleton.mp hx
    have hnone : [x].filter (·.1 ≠ x.1) = [] := by simp
    refine ⟨{ pat with patKeys := 0 }, ?_, ?_⟩
    · simp only [h.one x rfl, Option.bind_eq_bind, Option.bind_some, (hmatch x hx).1, decide_true,
        if_pos]
      rfl
    · rw [hnone]
      exact {
        count := rfl
        keys := by simp
        apart := List.Pairwise.nil
        one := by simp
        tree := by simp
        first := by simp }
  | 2 =>
    obtain ⟨b, u, v, hroot, hp⟩ := h.two hxs
    have hu : u ∈ xs := hp.mem_iff.mpr (by simp)
    have hv : v ∈ xs := hp.mem_iff.mpr (by simp)
    have hapart : Apart u.1 v.1 := by
      have huv := (hp.pairwise_iff fun {_ _} hxy => hxy.symm).mp h.apart
      exact (List.pairwise_cons.mp huv).1 v (List.mem_singleton_self v)
    rcases List.mem_cons.mp (hp.mem_iff.mp hx) with rfl | hxv
    · refine ⟨⟨1, none, some (leafOf v)⟩, ?_, h.filter_two hp ▸ h.one_left hv⟩
      simp only [hroot, Option.bind_eq_bind, Option.bind_some, (hmatch x hx).2, decide_true, if_pos]
      rfl
    · obtain rfl := List.mem_singleton.mp hxv
      refine ⟨⟨1, none, some (leafOf u)⟩, ?_,
        h.filter_two (hp.trans (List.Perm.swap ..)) ▸ h.one_left hu⟩
      simp only [hroot, Option.bind_eq_bind, Option.bind_some, (hmatch u hu).2, (hmatch x hx).2,
        decide_eq_false hapart.ne, if_neg Bool.false_ne_true, decide_true, if_pos]
      rfl
  | n + 3 => exact h.patRem_common (hready (by omega) (by omega)) (by omega) ha hx

/-! ## Runs -/

theorem ins_step (h : pat.Holds ready xs) (key : {key : List UInt8 // key ≠ []}) (data : α)
    (patBit : Fin (2 ^ 16)) (hf : PatFits ready xs (.ins key data patBit)) :
    ∃ r pat', patStep pat (.ins key data patBit) = some (r, pat') ∧
      r = (mapStep xs (.ins key data patBit)).1 ∧
      pat'.Holds (readyAfter ready xs (.ins key data patBit))
        (mapStep xs (.ins key data patBit)).2 := by
  obtain ⟨ha, hs, hready, hfirst⟩ := hf
  have hs := hs rfl
  have hready : 2 ≤ xs.length → ready := fun h2 => hready h2 Bool.noConfusion
  rcases h.present_or_apart ha with ⟨x, hx, hxk, hfind⟩ | ⟨hapart, hfind⟩
  · have hrun := h.patIns_present hready key.2 hs ha hx hxk data patBit
    refine ⟨.present, pat, ?_, ?_, ?_⟩
    · rw [patStep, hrun]
      rfl
    · simp only [mapStep, hfind]
    · simp only [mapStep, hfind]
      match xs, h with
      | [], h => exact h
      | [x], h => exact h.few Nat.one_lt_two
      | _ :: _ :: _, h => exact h
  · have hmap : mapStep xs (.ins key data patBit) = (.inserted, (key.val, data) :: xs) := by
      simp only [mapStep, hfind]
    rw [hmap]
    have hins : ∃ pat', patIns pat key.val key.val.length data patBit = some (true, pat') ∧
        pat'.Holds (readyAfter ready xs (.ins key data patBit)) ((key.val, data) :: xs) := by
      match xs, h with
      | [], h => exact h.patIns_first key.2 hs data patBit
      | [x], h => exact h.patIns_second key.2 hs (hapart x (List.mem_singleton_self x)) data patBit
      | x :: y :: xs, h =>
        have h2 : 2 ≤ (x :: y :: xs).length := by simp
        exact h.patIns_more (hready h2) h2 key.2 hs hapart
          (fun z hz => (hfirst rfl h2 z hz).resolve_left fun he => (hapart z hz).ne he) data patBit
    obtain ⟨pat', hrun, h'⟩ := hins
    refine ⟨.inserted, pat', ?_, rfl, h'⟩
    rw [patStep, hrun]
    rfl

/-- Every call that fits gives what it gives on the map, and the tree then holds the keys of the
map. -/
theorem step (h : pat.Holds ready xs) (op : PatOp α) (hf : PatFits ready xs op) :
    ∃ r pat', patStep pat op = some (r, pat') ∧ r = (mapStep xs op).1 ∧
      pat'.Holds (readyAfter ready xs op) (mapStep xs op).2 := by
  cases op with
  | ins key data patBit => exact h.ins_step key data patBit hf
  | find key =>
    have hrun := h.patFind_map (fun h2 => hf.searched h2 Bool.noConfusion) key.2 hf.apart
    rcases h.present_or_apart hf.apart with ⟨x, hx, hxk, hfind⟩ | ⟨hapart, hfind⟩
    · refine ⟨.found x.2, pat, ?_, ?_, ?_⟩
      · change xs.find? (·.1 = key.val) = some x at hfind
        rw [patStep, hrun, hfind]
        rfl
      · simp only [mapStep, hfind]
      · simp only [mapStep, hfind]
        exact h
    · refine ⟨.absent, pat, ?_, ?_, ?_⟩
      · change xs.find? (·.1 = key.val) = none at hfind
        rw [patStep, hrun, hfind]
        rfl
      · simp only [mapStep, hfind]
      · simp only [mapStep, hfind]
        exact h
  | rem key =>
    have hready : 2 ≤ xs.length → xs.length ≠ 2 → ready :=
      fun h2 hne => hf.searched h2 fun _ => hne
    rcases h.present_or_apart hf.apart with ⟨x, hx, hxk, hfind⟩ | ⟨hapart, hfind⟩
    · have hkey : key.val = x.1 := hxk.symm
      obtain ⟨pat', hrun, h'⟩ := h.patRem_present hready (hkey ▸ hf.apart) hx
      refine ⟨.found x.2, pat', ?_, ?_, ?_⟩
      · rw [patStep, hkey, hrun]
        rfl
      · simp only [mapStep, hfind]
      · simp only [mapStep, hfind, hkey]
        exact h'
    · refine ⟨.absent, pat, ?_, ?_, ?_⟩
      · rw [patStep, h.patRem_absent hready key.2 hapart]
        rfl
      · simp only [mapStep, hfind]
      · simp only [mapStep, hfind]
        exact h

/-- A run of calls that fit works. -/
theorem works (h : pat.Holds ready xs) (ops : List (PatOp α)) (hs : PatSteady ready xs ops) :
    PatWorks pat xs ops := by
  induction ops generalizing ready xs pat with
  | nil => exact h.count
  | cons op ops ih =>
    obtain ⟨hf, hs⟩ := hs
    obtain ⟨r, pat', hrun, hr, h'⟩ := h.step op hf
    exact ⟨h.count, r, pat', hrun, hr, ih h' hs⟩

end PatTree.Holds

/-- From `pat_init` on, a run of calls that fit gives what a finite map gives. -/
theorem patRun_map (ops : List (PatOp α)) (h : PatSteady True [] ops) : PatWorks patInit [] ops :=
  (PatTree.Holds.init True).works ops h

/-- Three keys, the memory of the first node with the right bit. -/
theorem patRun_map_abc : PatWorks (patInit : PatTree Nat) []
    [.ins ⟨[0x61], by decide⟩ 1 0, .ins ⟨[0x62], by decide⟩ 2 0, .ins ⟨[0x63, 0x63], by decide⟩ 3 7,
      .find ⟨[0x62], by decide⟩, .rem ⟨[0x61], by decide⟩, .find ⟨[0x61], by decide⟩] := by
  apply patRun_map
  have hready : LowestDiff 0 [0x62] [0x61] := ⟨by decide, fun j hj => absurd hj (Nat.not_lt_zero j)⟩
  refine ⟨⟨by decide, by decide, by decide, by decide⟩,
    ⟨by decide, by decide, fun _ _ => trivial, by decide⟩,
    ⟨by decide, by decide, fun _ _ => hready, by decide⟩,
    ⟨by decide, by decide, fun _ _ => hready, by decide⟩,
    ⟨by decide, by decide, fun _ _ => hready, by decide⟩,
    ⟨by decide, by decide, fun _ _ => hready, by decide⟩, trivial⟩

/-- Two keys that differ in the second byte: the first one is not found, nor would it be with
another `patBit`, or else the second one would not. -/
theorem patFind_loses : ¬PatWorks (patInit : PatTree Nat) []
    [.ins ⟨[0x79, 0x61], by decide⟩ 1 0, .ins ⟨[0x79, 0x60], by decide⟩ 2 0,
      .find ⟨[0x79, 0x61], by decide⟩] := by
  rintro ⟨-, r, pat, hrun, -, -, r', pat', hrun', -, -, r'', pat'', hrun'', hr, -⟩
  cases hrun
  cases hrun'
  cases hrun''
  cases hr

end Spegla
