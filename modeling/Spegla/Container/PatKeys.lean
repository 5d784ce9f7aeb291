import Spegla.Container.PatriciaRuns

/-!
# Comparing the keys of Patricia trees (`container.c`, `pat_keys_match` and `lowest_diff_bit`)

Keys are compared as if they went on with zeros. The loops of the two functions are in `Patricia`.

- `SmallestDiff`, `PaddedEq`: how two keys compare. `KeysRight`: the functions say so, and read
  inside the keys alone.
- `patKeysMatch_true`: two keys match only when they are equal, or one is empty and the other zero,
  since a key is read behind its end before the zeros are.
- `lowestDiffBit_lt`: the bit that is given lies in the first byte, since the bytes before it are
  not counted.
- `keysRight_iff`: the keys for which both are right.
-/

namespace Spegla

variable {k1 k2 k : List UInt8} {b d : Nat}

/-! ## Keys that go on with zeros -/

/-- Bit `b` of a key: bit `b % 8` of byte `b / 8`. -/
def keyBit (key : List UInt8) (b : Nat) : Bool := (key.getD (b / 8) 0).toNat.testBit (b % 8)

/-- The smallest bit in which two keys differ. -/
def SmallestDiff (b : Nat) (k1 k2 : List UInt8) : Prop :=
  keyBit k1 b ≠ keyBit k2 b ∧ ∀ c < b, keyBit k1 c = keyBit k2 c

/-- The keys are equal when they go on with zeros. -/
def PaddedEq (k1 k2 : List UInt8) : Prop := ∀ i, k1.getD i 0 = k2.getD i 0

/-- Both functions read bytes of the keys alone; keys match when they are equal up to zeros at the
end, and the smallest bit in which they differ is found when they do not match. -/
def KeysRight (k1 k2 : List UInt8) : Prop :=
  ∃ found, patKeysMatch k1 k1.length k2 k2.length = some found ∧ (found = true ↔ PaddedEq k1 k2) ∧
    (found = false → ∃ b, lowestDiffBit k1 k1.length k2 k2.length = some b ∧ SmallestDiff b k1 k2)

/-- The length of a key as an `int`. -/
def intLen (key : List UInt8) : Int := (key.length : Int).bmod (2 ^ 32)

/-- `ffs` of the first byte of a key that is not zero, up to the byte behind its length as an
`int`. -/
def firstSet (key : List UInt8) : Option Nat :=
  ((key.take ((intLen key).toNat + 1)).find? (· ≠ 0)).map ffs

/-- The keys differ in their first bytes, and this is seen. A key whose length as an `int` is 0 is
taken for the empty key; it must not matter then, and the lengths must not both be 0 or less. -/
structure DifferFirst (k1 k2 : List UInt8) : Prop where
  differ : k1.headD 0 ≠ k2.headD 0
  counted : 0 < intLen k1 ∨ 0 < intLen k2
  left : intLen k1 = 0 → firstSet k2 = some (ffs (k1.headD 0 ^^^ k2.headD 0))
  right : intLen k2 = 0 → firstSet k1 = some (ffs (k1.headD 0 ^^^ k2.headD 0))

theorem DifferFirst.symm (h : DifferFirst k1 k2) : DifferFirst k2 k1 where
  differ := h.differ.symm
  counted := h.counted.symm
  left hlen := by
    rw [UInt8.xor_comm]
    exact h.right hlen
  right hlen := by
    rw [UInt8.xor_comm]
    exact h.left hlen

theorem SmallestDiff.symm (h : SmallestDiff b k1 k2) : SmallestDiff b k2 k1 :=
  ⟨h.1.symm, fun c hc => (h.2 c hc).symm⟩

theorem SmallestDiff.unique {b' : Nat} (h : SmallestDiff b k1 k2) (h' : SmallestDiff b' k1 k2) :
    b = b' := by
  rcases Nat.lt_trichotomy b b' with hlt | heq | hlt
  · exact absurd (h'.2 b hlt) h.1
  · exact heq
  · exact absurd (h.2 b' hlt) h'.1

theorem keyBit_first (key : List UInt8) (hb : b < 8) :
    keyBit key b = (key.headD 0).toNat.testBit b := by
  rw [keyBit, Nat.div_eq_of_lt hb, Nat.mod_eq_of_lt hb]
  cases key with
  | nil => rfl
  | cons x key => rfl

/-- In keys that differ in their first bytes, the smallest bit is that of the first bytes. -/
theorem smallestDiff_first (h : k1.headD 0 ≠ k2.headD 0) :
    ∃ d < 8, ffs (k1.headD 0 ^^^ k2.headD 0) = d + 1 ∧ SmallestDiff d k1 k2 := by
  have hx : k1.headD 0 ^^^ k2.headD 0 ≠ 0 := fun h0 => h (UInt8.xor_eq_zero_iff.mp h0)
  obtain ⟨d, hd, hffs, hbit, hlow⟩ := ffs_pos hx
  rw [UInt8.toNat_xor, Nat.testBit_xor] at hbit
  refine ⟨d, hd, hffs, ?_, fun c hc => ?_⟩
  · rw [keyBit_first k1 hd, keyBit_first k2 hd]
    simpa using hbit
  · have := hlow c hc
    rw [UInt8.toNat_xor, Nat.testBit_xor] at this
    rw [keyBit_first k1 (by omega), keyBit_first k2 (by omega)]
    simpa using this

/-- A smallest bit in the first byte. -/
theorem SmallestDiff.head_ne (h : SmallestDiff b k1 k2) (hb : b < 8) :
    k1.headD 0 ≠ k2.headD 0 := by
  intro heq
  refine h.1 ?_
  rw [keyBit_first k1 hb, keyBit_first k2 hb, heq]

/-! ## `pat_keys_match` -/

theorem keysMatchLoop_comm (fuel : Nat) (k1 : List UInt8) (l1 : Nat) (k2 : List UInt8) (l2 : Nat) :
    keysMatchLoop fuel k1 l1 k2 l2 = keysMatchLoop fuel k2 l2 k1 l1 := by
  induction fuel generalizing k1 l1 k2 l2 with
  | zero => rfl
  | succ fuel ih =>
    rw [keysMatchLoop, keysMatchLoop]
    by_cases hend : l1 = 0 ∧ l2 = 0
    · rw [if_pos hend, if_pos hend.symm]
    · have hend' : ¬(l2 = 0 ∧ l1 = 0) := fun h => hend h.symm
      rw [if_neg hend, if_neg hend']
      cases k1 with
      | nil => cases k2 <;> rfl
      | cons x k1 =>
        cases k2 with
        | nil => rfl
        | cons y k2 =>
          show (if x ≠ y then some false else _) = if y ≠ x then some false else _
          by_cases hxy : x = y
          · rw [if_neg (not_not.mpr hxy), if_neg (not_not.mpr hxy.symm)]
            exact ih ..
          · rw [if_pos hxy, if_pos fun h => hxy h.symm]

theorem patKeysMatch_comm (k1 k2 : List UInt8) :
    patKeysMatch k1 k1.length k2 k2.length = patKeysMatch k2 k2.length k1 k1.length := by
  rw [patKeysMatch, patKeysMatch, keysMatchLoop_comm, Nat.max_comm]
  cases k1 with
  | nil =>
    cases k2 with
    | nil => rfl
    | cons y k2 => rfl
  | cons x k1 =>
    cases k2 with
    | nil => rfl
    | cons y k2 => rfl

/-- The zero byte is compared with every byte of a key. -/
theorem keysMatchLoop_zero (fuel : Nat) (k : List UInt8) (hf : k.length < fuel) :
    keysMatchLoop fuel [0] 0 k k.length = some (k.all (· = 0)) := by
  induction k generalizing fuel with
  | nil =>
    obtain ⟨fuel, rfl⟩ := Nat.exists_eq_add_of_lt hf
    simp [keysMatchLoop]
  | cons x k ih =>
    cases fuel with
    | zero => exact absurd hf (Nat.not_lt_zero _)
    | succ fuel =>
      have hrest := ih fuel (Nat.lt_of_succ_lt_succ hf)
      by_cases hx : 0 = x
      · subst hx
        simp [keysMatchLoop, hrest]
      · have hx' : ¬x = 0 := fun h => hx h.symm
        simp [keysMatchLoop, hx, hx']

theorem patKeysMatch_nil (k : List UInt8) :
    patKeysMatch [] 0 k k.length = some (k.all (· = 0)) := by
  have h := keysMatchLoop_zero (max 0 k.length + 1) k (by omega)
  rw [patKeysMatch, if_pos rfl, if_neg (fun h => h.1 rfl), h]

/-- Keys that the loop comes to the end of are equal. -/
theorem keysMatchLoop_true (fuel : Nat)
    (h : keysMatchLoop fuel k1 k1.length k2 k2.length = some true) : k1 = k2 := by
  induction fuel generalizing k1 k2 with
  | zero => cases h
  | succ fuel ih =>
    cases k1 with
    | nil =>
      cases k2 with
      | nil => rfl
      | cons y k2 => cases h
    | cons x k1 =>
      cases k2 with
      | nil => cases h
      | cons y k2 =>
        rw [keysMatchLoop, if_neg (fun h => absurd h.1 (Nat.succ_ne_zero _))] at h
        by_cases hxy : x = y
        · have hrest : keysMatchLoop fuel k1 k1.length k2 k2.length = some true := by
            simpa [hxy] using h
          rw [hxy, ih hrest]
        · simp [hxy] at h

/-- Keys match when they are equal, or one is empty and the other zero. -/
theorem patKeysMatch_true (h : patKeysMatch k1 k1.length k2 k2.length = some true) :
    k1 = k2 ∨ k1 = [] ∧ (∀ x ∈ k2, x = 0) ∨ k2 = [] ∧ ∀ x ∈ k1, x = 0 := by
  cases k1 with
  | nil =>
    have hall := (patKeysMatch_nil k2).symm.trans h
    exact Or.inr (Or.inl ⟨rfl, by simpa using hall⟩)
  | cons x k1 =>
    cases k2 with
    | nil =>
      rw [patKeysMatch_comm] at h
      have hall := (patKeysMatch_nil (x :: k1)).symm.trans h
      exact Or.inr (Or.inr ⟨rfl, by simpa using hall⟩)
    | cons y k2 => exact Or.inl (keysMatchLoop_true _ h)

/-- Keys that differ in their first bytes do not match. -/
theorem patKeysMatch_first (h : k1.headD 0 ≠ k2.headD 0) :
    patKeysMatch k1 k1.length k2 k2.length = some false := by
  cases k1 with
  | nil =>
    cases k2 with
    | nil => exact absurd rfl h
    | cons y k2 =>
      have hy : ¬y = 0 := fun hy => h hy.symm
      refine (patKeysMatch_nil (y :: k2)).trans ?_
      simp [hy]
  | cons x k1 =>
    cases k2 with
    | nil =>
      have hx : ¬x = 0 := h
      rw [patKeysMatch_comm]
      refine (patKeysMatch_nil (x :: k1)).trans ?_
      simp [hx]
    | cons y k2 =>
      have hxy : ¬x = y := h
      simp [patKeysMatch, keysMatchLoop, hxy]

theorem paddedEq_zero (h : ∀ x ∈ k, x = 0) : PaddedEq [] k := by
  intro i
  show 0 = k.getD i 0
  rw [List.getD_eq_getElem?_getD]
  cases hi : k[i]? with
  | none => rfl
  | some x => exact (h x (List.mem_of_getElem? hi)).symm

theorem PaddedEq.head_eq (h : PaddedEq k1 k2) : k1.headD 0 = k2.headD 0 := by
  have h0 := h 0
  cases k1 <;> cases k2 <;> exact h0

/-! ## `lowest_diff_bit` -/

theorem ffs_le (x : UInt8) : ffs x ≤ 8 := by
  by_cases hx : x = 0
  · rw [hx, ffs_zero]
    exact Nat.zero_le 8
  · obtain ⟨i, hi, hffs, -⟩ := ffs_pos hx
    omega

theorem diffBitLoop_comm (fuel : Nat) (n1 : List UInt8) (sl1 : Int) (n2 : List UInt8) (sl2 : Int) :
    diffBitLoop fuel n1 sl1 n2 sl2 = diffBitLoop fuel n2 sl2 n1 sl1 := by
  induction fuel generalizing n1 sl1 n2 sl2 with
  | zero => rfl
  | succ fuel ih =>
    rw [diffBitLoop, diffBitLoop]
    by_cases hend : sl1 < 0 ∧ sl2 < 0
    · rw [if_pos hend, if_pos hend.symm]
    · have hend' : ¬(sl2 < 0 ∧ sl1 < 0) := fun h => hend h.symm
      rw [if_neg hend, if_neg hend']
      cases n1 with
      | nil => cases n2 <;> rfl
      | cons x n1 =>
        cases n2 with
        | nil => rfl
        | cons y n2 =>
          simp only [List.head?_cons, Option.bind_eq_bind, Option.bind_some, UInt8.xor_comm x y]
          split
          · rfl
          · exact ih ..

theorem lowestDiffBit_comm (k1 k2 : List UInt8) :
    lowestDiffBit k1 k1.length k2 k2.length = lowestDiffBit k2 k2.length k1 k1.length := by
  simp only [lowestDiffBit]
  rw [diffBitLoop_comm, Nat.max_comm]

/-- The bit is one of a single byte. -/
theorem diffBitLoop_lt {fuel : Nat} {n1 n2 : List UInt8} {sl1 sl2 : Int}
    (h : diffBitLoop fuel n1 sl1 n2 sl2 = some d) : d < 8 := by
  induction fuel generalizing n1 sl1 n2 sl2 with
  | zero => cases h
  | succ fuel ih =>
    rw [diffBitLoop] at h
    split at h
    · cases h
    · obtain ⟨x, -, h⟩ := Option.bind_eq_some_iff.mp h
      obtain ⟨y, -, h⟩ := Option.bind_eq_some_iff.mp h
      have hle := ffs_le (x ^^^ y)
      simp only at h
      split at h
      · cases h
        omega
      · exact ih h

theorem lowestDiffBit_lt (h : lowestDiffBit k1 k1.length k2 k2.length = some d) : d < 8 :=
  diffBitLoop_lt h

/-- The first round: keys that are not empty, with different first bytes. -/
theorem diffBitLoop_first {fuel : Nat} {n1 n2 : List UInt8} {sl1 sl2 : Int} {x y : UInt8}
    (hfuel : 0 < fuel) (hend : ¬(sl1 < 0 ∧ sl2 < 0)) (h1 : n1.head? = some x)
    (h2 : n2.head? = some y) (hxy : x ≠ y) :
    diffBitLoop fuel n1 sl1 n2 sl2 = some (ffs (x ^^^ y) - 1) := by
  obtain ⟨fuel, rfl⟩ := Nat.exists_eq_succ_of_ne_zero (Nat.ne_of_gt hfuel)
  have hx : x ^^^ y ≠ 0 := fun h0 => hxy (UInt8.xor_eq_zero_iff.mp h0)
  obtain ⟨d, -, hffs, -⟩ := ffs_pos hx
  rw [diffBitLoop, if_neg hend, h1, h2]
  show (if (0 : Int) ≤ (ffs (x ^^^ y) : Int) - 1 then
    some ((ffs (x ^^^ y) : Int) - 1).toNat else _) = _
  rw [if_pos (by omega)]
  congr 1
  omega

/-- The zero byte is compared with the bytes of a key up to one that is not zero. -/
theorem diffBitLoop_zero {fuel s : Nat} {n : List UInt8} (hfuel : s < fuel) :
    diffBitLoop fuel [0] (-1) n s = ((n.take (s + 1)).find? (· ≠ 0)).map fun x => ffs x - 1 := by
  induction s generalizing fuel n with
  | zero =>
    obtain ⟨fuel, rfl⟩ := Nat.exists_eq_succ_of_ne_zero (Nat.ne_of_gt hfuel)
    cases n with
    | nil => rfl
    | cons x n =>
      by_cases hx : x = 0
      · subst hx
        cases fuel <;> rfl
      · rw [diffBitLoop_first (Nat.zero_lt_succ fuel) (by omega) rfl rfl fun h => hx h.symm]
        simp [hx]
  | succ s ih =>
    obtain ⟨fuel, rfl⟩ := Nat.exists_eq_succ_of_ne_zero (Nat.ne_of_gt (Nat.zero_lt_of_lt hfuel))
    cases n with
    | nil =>
      rw [diffBitLoop, if_neg (by omega)]
      rfl
    | cons x n =>
      by_cases hx : x = 0
      · subst hx
        have hrest := ih (n := n) (Nat.lt_of_succ_lt_succ hfuel)
        rw [diffBitLoop, if_neg (by omega)]
        simp only [List.head?_cons, Option.bind_eq_bind, Option.bind_some, UInt8.xor_self, ffs_zero]
        rw [if_neg (by decide), if_neg (by decide), if_neg (by decide), if_pos (by omega),
          if_pos (by omega), show ((s + 1 : Nat) : Int) - 1 = s by omega, List.tail_cons, hrest]
        simp
      · rw [diffBitLoop_first (Nat.zero_lt_succ fuel) (by omega) rfl rfl fun h => hx h.symm]
        simp [hx]

theorem intLen_nil : intLen [] = 0 := rfl

theorem intLen_le (k : List UInt8) : intLen k ≤ k.length := by
  unfold intLen
  rw [Int.bmod_def]
  omega

/-- A key that is taken for the empty one. -/
theorem lowestDiffBit_zero (h1 : intLen k1 = 0) (h2 : 0 < intLen k2) :
    lowestDiffBit k1 k1.length k2 k2.length = (firstSet k2).map (· - 1) := by
  have hle := intLen_le k2
  have hfuel : (intLen k2).toNat < max k1.length k2.length + 3 := by omega
  have hloop := diffBitLoop_zero (n := k2) hfuel
  rw [Int.toNat_of_nonneg (by omega)] at hloop
  have hne : intLen k2 ≠ 0 := Int.ne_of_gt h2
  rw [firstSet, Option.map_map]
  unfold intLen at h1 hne hloop
  rw [lowestDiffBit]
  simp only [if_pos h1, if_neg hne]
  exact hloop

/-- Lengths of 0 or less for both end the program. -/
theorem lowestDiffBit_exit (h1 : intLen k1 ≤ 0) (h2 : intLen k2 ≤ 0) :
    lowestDiffBit k1 k1.length k2 k2.length = none := by
  unfold intLen at h1 h2
  have hneg : ∀ sl : Int, sl ≤ 0 → (if sl = 0 then -1 else sl) < 0 := by
    intro sl hsl
    split <;> omega
  simp only [lowestDiffBit]
  rw [diffBitLoop, if_pos ⟨hneg _ h1, hneg _ h2⟩]

theorem head?_of_intLen (h : intLen k ≠ 0) : k.head? = some (k.headD 0) := by
  cases k with
  | nil => exact absurd intLen_nil h
  | cons x k => rfl

/-- Keys that are both read from their first bytes on. -/
theorem lowestDiffBit_first (h : k1.headD 0 ≠ k2.headD 0) (h1 : intLen k1 ≠ 0)
    (h2 : intLen k2 ≠ 0) (hpos : 0 < intLen k1 ∨ 0 < intLen k2) :
    lowestDiffBit k1 k1.length k2 k2.length = some (ffs (k1.headD 0 ^^^ k2.headD 0) - 1) := by
  have hend : ¬(intLen k1 < 0 ∧ intLen k2 < 0) := by omega
  have hloop : diffBitLoop (max k1.length k2.length + 3) k1 (intLen k1) k2 (intLen k2) = _ :=
    diffBitLoop_first (by omega) hend (head?_of_intLen h1) (head?_of_intLen h2) h
  unfold intLen at h1 h2 hloop
  simp only [lowestDiffBit, if_neg h1, if_neg h2]
  exact hloop

/-! ## The keys that are compared right -/

/-- Different first bytes that are seen are found. -/
theorem DifferFirst.lowestDiffBit (h : DifferFirst k1 k2) :
    lowestDiffBit k1 k1.length k2 k2.length = some (ffs (k1.headD 0 ^^^ k2.headD 0) - 1) := by
  by_cases h1 : intLen k1 = 0
  · have h2 : 0 < intLen k2 := h.counted.resolve_left (by omega)
    rw [lowestDiffBit_zero h1 h2, h.left h1]
    rfl
  · by_cases h2 : intLen k2 = 0
    · have h1' : 0 < intLen k1 := h.counted.resolve_right (by omega)
      rw [lowestDiffBit_comm, lowestDiffBit_zero h2 h1', h.right h2]
      rfl
    · exact lowestDiffBit_first h.differ h1 h2 h.counted

/-- A set bit that has been found again is the one of the first bytes. -/
theorem firstSet_of_map (h : (firstSet k).map (· - 1) = some d) : firstSet k = some (d + 1) := by
  obtain ⟨f, hf, hd⟩ := Option.map_eq_some_iff.mp h
  obtain ⟨x, hx, hxf⟩ := Option.map_eq_some_iff.mp hf
  have hne : x ≠ 0 := by simpa using List.find?_some hx
  obtain ⟨i, -, hffs, -⟩ := ffs_pos hne
  rw [hf]
  congr 1
  omega

/-- When the smallest bit is found, it is one of the first bytes, and these are seen. -/
theorem SmallestDiff.differFirst (hb : SmallestDiff b k1 k2)
    (h : lowestDiffBit k1 k1.length k2 k2.length = some b) : DifferFirst k1 k2 := by
  have hne := hb.head_ne (lowestDiffBit_lt h)
  obtain ⟨d, -, hffs, hd⟩ := smallestDiff_first hne
  obtain rfl : b = d := hb.unique hd
  have hcounted : 0 < intLen k1 ∨ 0 < intLen k2 := by
    by_contra hno
    rw [not_or] at hno
    rw [lowestDiffBit_exit (by omega) (by omega)] at h
    cases h
  refine ⟨hne, hcounted, fun h1 => ?_, fun h2 => ?_⟩
  · rw [lowestDiffBit_zero h1 (hcounted.resolve_left (by omega))] at h
    rw [firstSet_of_map h, hffs]
  · rw [lowestDiffBit_comm, lowestDiffBit_zero h2 (hcounted.resolve_right (by omega))] at h
    rw [firstSet_of_map h, hffs]

/-- Two keys are compared as they should be exactly when they are equal, or one is empty and the
other zero, or they differ in their first bytes and this is seen. -/
theorem keysRight_iff (k1 k2 : List UInt8) : KeysRight k1 k2 ↔
    k1 = k2 ∨ k1 = [] ∧ (∀ x ∈ k2, x = 0) ∨ k2 = [] ∧ (∀ x ∈ k1, x = 0) ∨ DifferFirst k1 k2 := by
  constructor
  · rintro ⟨found, hfound, -, hdiff⟩
    cases found with
    | true =>
      rcases patKeysMatch_true hfound with h | h | h
      · exact Or.inl h
      · exact Or.inr (Or.inl h)
      · exact Or.inr (Or.inr (Or.inl h))
    | false =>
      obtain ⟨b, hb, hsmall⟩ := hdiff rfl
      exact Or.inr (Or.inr (Or.inr (hsmall.differFirst hb)))
  · have hmatch : ∀ h : PaddedEq k1 k2, patKeysMatch k1 k1.length k2 k2.length = some true →
        KeysRight k1 k2 := by
      intro h hfound
      exact ⟨true, hfound, ⟨fun _ => h, fun _ => rfl⟩, fun hno => by cases hno⟩
    rintro (rfl | ⟨rfl, h⟩ | ⟨rfl, h⟩ | h)
    · exact hmatch (fun _ => rfl) (patKeysMatch_self k1)
    · exact hmatch (paddedEq_zero h) ((patKeysMatch_nil k2).trans (by simpa using h))
    · refine hmatch (fun i => (paddedEq_zero h i).symm) ?_
      rw [patKeysMatch_comm]
      exact (patKeysMatch_nil k1).trans (by simpa using h)
    · obtain ⟨d, -, hffs, hd⟩ := smallestDiff_first h.differ
      refine ⟨false, patKeysMatch_first h.differ, ⟨fun hno => ?_, fun heq => ?_⟩, fun _ => ?_⟩
      · cases hno
      · exact absurd heq.head_eq h.differ
      · exact ⟨d, by rw [h.lowestDiffBit, hffs]; rfl, hd⟩

/-- Two keys that first differ in their second bytes, and a key that another one goes on after: the
bit is that of the first byte, and a key is read behind its end. -/
theorem keysRight_second : lowestDiffBit [97, 98] 2 [97, 99] 2 = some 0 ∧
    SmallestDiff 8 [97, 98] [97, 99] ∧ ¬KeysRight [97, 98] [97, 99] ∧
    patKeysMatch [97] 1 [97, 98] 2 = none ∧ ¬KeysRight [97] [97, 98] := by
  have hbit : lowestDiffBit [97, 98] 2 [97, 99] 2 = some 0 := by decide
  have hread : patKeysMatch [97] 1 [97, 98] 2 = none := by decide
  have hsmall : SmallestDiff 8 [97, 98] [97, 99] := ⟨by decide, by decide⟩
  refine ⟨hbit, hsmall, ?_, hread, ?_⟩
  · rintro ⟨found, hfound, -, hdiff⟩
    have hfalse : patKeysMatch [97, 98] 2 [97, 99] 2 = some false := by decide
    obtain rfl : found = false := Option.some.inj (hfound.symm.trans hfalse)
    obtain ⟨b, hb, hsmall'⟩ := hdiff rfl
    have hb0 : b = 0 := Option.some.inj (hb.symm.trans hbit)
    have hb8 : b = 8 := hsmall'.unique hsmall
    omega
  · rintro ⟨found, hfound, -⟩
    cases hread.symm.trans hfound

end Spegla
