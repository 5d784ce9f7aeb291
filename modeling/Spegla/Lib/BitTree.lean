import Mathlib.Data.List.Perm.Basic
import Mathlib.Tactic.Common

/-!
# Trees that branch on bits

The trees of Patricia: a node branches on a numbered bit of the keys, and only where keys below it
differ. `bit x i` is the `i`-th bit of the key of `x`.

- `Sorted`: the bits increase on the way down, the leaves below a node agree on the bits before its
  own, and each is on the leg of its bit.
- `Sorted.reached_eq`: the bits of a leaf lead to it.
- `Sorted.insert`: a node for the first bit on which a key differs from the leaf that it reaches,
  put in above the first node of the way with a later bit.
- `Sorted.remove`: a leaf goes, and its sibling takes the place of their node.
-/

/-- `left` is the leg on which the bit is clear. -/
inductive BitTree (β : Type) where
  | leaf (x : β)
  | node (bit : Nat) (left right : BitTree β)
deriving DecidableEq, Repr

namespace BitTree

variable {β : Type}

def leaves : BitTree β → List β
  | leaf x => [x]
  | node _ l r => leaves l ++ leaves r

/-- The nodes on the way on which the bits lead: for each its bit, and the leg that is taken. -/
def path (dir : Nat → Bool) : BitTree β → List (Nat × Bool)
  | leaf _ => []
  | node b l r => (b, dir b) :: if dir b then path dir r else path dir l

/-- The leaf to which the bits lead. -/
def reached (dir : Nat → Bool) : BitTree β → β
  | leaf x => x
  | node b l r => if dir b then reached dir r else reached dir l

/-- Change the tree to which the legs lead. -/
def modifyAt (f : BitTree β → BitTree β) : List Bool → BitTree β → BitTree β
  | [], t => f t
  | _ :: _, leaf x => leaf x
  | s :: legs, node b l r =>
    if s then node b l (modifyAt f legs r) else node b (modifyAt f legs l) r

/-- A node with `t` on the leg `set`, and `u` on the other one. -/
def fork (bit : Nat) (set : Bool) (t u : BitTree β) : BitTree β :=
  if set then node bit u t else node bit t u

/-- The leg of a node that is not `set`. -/
def other (set : Bool) : BitTree β → BitTree β
  | leaf x => leaf x
  | node _ l r => if set then l else r

/-! ## Order -/

section Order

variable (bit : β → Nat → Bool)

/-- The keys agree on the first `n` bits. -/
def Agree (n : Nat) (xs : List β) : Prop :=
  ∀ x ∈ xs, ∀ y ∈ xs, ∀ i < n, bit x i = bit y i

/-- The tree branches in order, on bits from `lo` on and before `width`. -/
def Sorted (width : Nat) : Nat → BitTree β → Prop
  | _, leaf _ => True
  | lo, node b l r => lo ≤ b ∧ b < width ∧ Agree bit b (leaves l ++ leaves r) ∧
      (∀ x ∈ leaves l, bit x b = false) ∧ (∀ x ∈ leaves r, bit x b = true) ∧
      Sorted width (b + 1) l ∧ Sorted width (b + 1) r

end Order

variable {bit : β → Nat → Bool} {width lo d n : Nat} {t l r : BitTree β} {x y : β}
  {dir : Nat → Bool}

theorem Agree.subset {xs ys : List β} (h : Agree bit n ys) (hs : xs ⊆ ys) : Agree bit n xs :=
  fun x hx y hy => h x (hs hx) y (hs hy)

theorem Agree.mono {xs : List β} {m : Nat} (h : Agree bit n xs) (hm : m ≤ n) : Agree bit m xs :=
  fun x hx y hy i hi => h x hx y hy i (Nat.lt_of_lt_of_le hi hm)

/-- One more key that agrees with one of them. -/
theorem Agree.cons {xs : List β} (h : Agree bit n xs) (hx : x ∈ xs)
    (hy : ∀ i < n, bit y i = bit x i) : Agree bit n (y :: xs) := by
  have hall : ∀ z ∈ y :: xs, ∀ i < n, bit z i = bit x i := by
    intro z hz i hi
    rcases List.mem_cons.mp hz with rfl | hz
    · exact hy i hi
    · exact h z hz x hx i hi
  intro z hz w hw i hi
  rw [hall z hz i hi, hall w hw i hi]

theorem Sorted.mono {lo' : Nat} (h : Sorted bit width lo' t) (hlo : lo ≤ lo') :
    Sorted bit width lo t := by
  cases t with
  | leaf x => trivial
  | node b l r => exact ⟨Nat.le_trans hlo h.1, h.2⟩

theorem reached_mem (dir : Nat → Bool) (t : BitTree β) : reached dir t ∈ leaves t := by
  induction t with
  | leaf x => exact List.mem_singleton_self x
  | node b l r ihl ihr =>
    rw [reached, leaves]
    cases dir b with
    | true => exact List.mem_append_right _ ihr
    | false => exact List.mem_append_left _ ihl

theorem leaves_ne_nil (t : BitTree β) : leaves t ≠ [] :=
  List.ne_nil_of_mem (reached_mem (fun _ => false) t)

theorem one_leaf {t : BitTree β} (h : (leaves t).length = 1) : ∃ x, t = leaf x := by
  cases t with
  | leaf x => exact ⟨x, rfl⟩
  | node b l r =>
    have hl := List.length_pos_iff.mpr (leaves_ne_nil l)
    have hr := List.length_pos_iff.mpr (leaves_ne_nil r)
    rw [leaves, List.length_append] at h
    omega

theorem two_leaves {t : BitTree β} (h : (leaves t).length = 2) :
    ∃ b x y, t = node b (leaf x) (leaf y) := by
  cases t with
  | leaf x => exact absurd h (Nat.ne_of_lt Nat.one_lt_two)
  | node b l r =>
    have hl := List.length_pos_iff.mpr (leaves_ne_nil l)
    have hr := List.length_pos_iff.mpr (leaves_ne_nil r)
    rw [leaves, List.length_append] at h
    obtain ⟨x, rfl⟩ := one_leaf (t := l) (by omega)
    obtain ⟨y, rfl⟩ := one_leaf (t := r) (by omega)
    exact ⟨b, x, y, rfl⟩

/-- There are more leaves than nodes on a way. -/
theorem length_path (dir : Nat → Bool) (t : BitTree β) :
    (path dir t).length < (leaves t).length := by
  induction t with
  | leaf x => exact Nat.zero_lt_one
  | node b l r ihl ihr =>
    have hl := List.length_pos_iff.mpr (leaves_ne_nil l)
    have hr := List.length_pos_iff.mpr (leaves_ne_nil r)
    rw [path, leaves, List.length_cons, List.length_append]
    cases dir b with
    | true =>
      show (path dir r).length + 1 < _
      omega
    | false =>
      show (path dir l).length + 1 < _
      omega

/-- The bits of a leaf lead to it. -/
theorem Sorted.reached_eq (h : Sorted bit width lo t) (hx : x ∈ leaves t)
    (hdir : ∀ i < width, dir i = bit x i) : reached dir t = x := by
  induction t generalizing lo with
  | leaf y => exact (List.mem_singleton.mp hx).symm
  | node b l r ihl ihr =>
    obtain ⟨-, hb, -, hl, hr, hsl, hsr⟩ := h
    rw [reached, hdir b hb]
    rcases List.mem_append.mp hx with hx | hx
    · rw [hl x hx]
      exact ihl hsl hx
    · rw [hr x hx]
      exact ihr hsr hx

/-- The bits of the way increase, from `lo` on. -/
theorem Sorted.path_increases (h : Sorted bit width lo t) (dir : Nat → Bool) :
    ((path dir t).map Prod.fst).Pairwise (· < ·) ∧
      ∀ p ∈ path dir t, lo ≤ p.1 ∧ p.1 < width ∧ p.2 = dir p.1 := by
  induction t generalizing lo with
  | leaf x => exact ⟨List.Pairwise.nil, by simp [path]⟩
  | node b l r ihl ihr =>
    obtain ⟨hlo, hb, -, -, -, hsl, hsr⟩ := h
    have hcons : ∀ rest : List (Nat × Bool), ((rest.map Prod.fst).Pairwise (· < ·) ∧
        ∀ p ∈ rest, b + 1 ≤ p.1 ∧ p.1 < width ∧ p.2 = dir p.1) →
        (((b, dir b) :: rest).map Prod.fst).Pairwise (· < ·) ∧
          ∀ p ∈ (b, dir b) :: rest, lo ≤ p.1 ∧ p.1 < width ∧ p.2 = dir p.1 := by
      rintro rest ⟨hp, hrest⟩
      constructor
      · refine List.pairwise_cons.mpr ⟨?_, hp⟩
        intro i hi
        obtain ⟨p, hp, rfl⟩ := List.mem_map.mp hi
        exact (hrest p hp).1
      · intro p hp
        rcases List.mem_cons.mp hp with rfl | hp
        · exact ⟨hlo, hb, rfl⟩
        · exact ⟨Nat.le_trans hlo (Nat.le_of_succ_le (hrest p hp).1), (hrest p hp).2⟩
    rw [path]
    by_cases hb : dir b = true
    · rw [if_pos hb]
      exact hcons _ (ihr hsr)
    · rw [if_neg hb]
      exact hcons _ (ihl hsl)

/-- On the bits of the way, the leaf that is reached is as the bits that led to it. -/
theorem Sorted.reached_bit (h : Sorted bit width lo t) (dir : Nat → Bool) :
    ∀ p ∈ path dir t, bit (reached dir t) p.1 = dir p.1 := by
  induction t generalizing lo with
  | leaf x => simp [path]
  | node b l r ihl ihr =>
    obtain ⟨-, -, -, hl, hr, hsl, hsr⟩ := h
    intro p hp
    rw [path, List.mem_cons] at hp
    rw [reached]
    cases hb : dir b with
    | true =>
      rw [if_pos rfl]
      rw [hb, if_pos rfl] at hp
      rcases hp with rfl | hp
      · rw [hr _ (reached_mem dir r), hb]
      · exact ihr hsr p hp
    | false =>
      rw [if_neg Bool.false_ne_true]
      rw [hb, if_neg Bool.false_ne_true] at hp
      rcases hp with rfl | hp
      · rw [hl _ (reached_mem dir l), hb]
      · exact ihl hsl p hp

/-! ## A leaf more -/

theorem leaves_fork (bit : Nat) (set : Bool) (t u : BitTree β) :
    (leaves (fork bit set t u)).Perm (leaves t ++ leaves u) := by
  cases set with
  | true => exact List.perm_append_comm
  | false => exact List.Perm.refl _

/-- A node above a tree whose keys agree with the new one before its bit, and differ there. -/
theorem Sorted.fork (h : Sorted bit width (d + 1) t) (hd : d < width)
    (hagree : Agree bit d (y :: leaves t)) (hside : ∀ x ∈ leaves t, bit x d ≠ bit y d) :
    Sorted bit width d (fork d (bit y d) (leaf y) t) := by
  cases hy : bit y d with
  | true =>
    refine ⟨Nat.le_refl d, hd, hagree.subset ?_, ?_, ?_, h, trivial⟩
    · intro z hz
      rcases List.mem_append.mp hz with hz | hz
      · exact List.mem_cons_of_mem y hz
      · exact List.mem_cons.mpr (.inl (List.mem_singleton.mp hz))
    · intro x hx
      have := hside x hx
      rw [hy] at this
      exact eq_false_of_ne_true this
    · intro x hx
      rw [List.mem_singleton.mp hx, hy]
  | false =>
    refine ⟨Nat.le_refl d, hd, hagree, ?_, ?_, trivial, h⟩
    · intro x hx
      rw [List.mem_singleton.mp hx, hy]
    · intro x hx
      have := hside x hx
      rw [hy] at this
      exact eq_true_of_ne_false this

/-- Where a key goes: the legs of its way down to the first node with a later bit than `d`. -/
def legsBefore (dir : Nat → Bool) (d : Nat) (t : BitTree β) : List Bool :=
  ((path dir t).takeWhile (·.1 < d)).map Prod.snd

/-- The tree with a node for the bit `d` there, for a leaf `y`. -/
def insertAt (dir : Nat → Bool) (d : Nat) (y : β) (t : BitTree β) : BitTree β :=
  modifyAt (fork d (dir d) (leaf y)) (legsBefore dir d t) t

theorem insertAt_leaf : insertAt dir d y (leaf x) = fork d (dir d) (leaf y) (leaf x) := rfl

theorem insertAt_above {b : Nat} (h : ¬b < d) :
    insertAt dir d y (node b l r) = fork d (dir d) (leaf y) (node b l r) := by
  have hlegs : legsBefore dir d (node b l r) = [] := by
    rw [legsBefore, path, List.takeWhile_cons_of_neg (by simpa using h), List.map_nil]
  rw [insertAt, hlegs, modifyAt]

theorem insertAt_below {b : Nat} (h : b < d) :
    insertAt dir d y (node b l r) =
      if dir b then node b l (insertAt dir d y r) else node b (insertAt dir d y l) r := by
  rw [insertAt, legsBefore, path, List.takeWhile_cons_of_pos (by simpa using h), List.map_cons,
    modifyAt]
  by_cases hb : dir b = true
  · simp only [if_pos hb]
    rfl
  · simp only [if_neg hb]
    rfl

theorem leaves_insertAt (dir : Nat → Bool) (d : Nat) (y : β) (t : BitTree β) :
    (leaves (insertAt dir d y t)).Perm (y :: leaves t) := by
  induction t with
  | leaf x => exact leaves_fork d (dir d) (leaf y) (leaf x)
  | node b l r ihl ihr =>
    by_cases hd : b < d
    · rw [insertAt_below hd]
      by_cases hb : dir b = true
      · rw [if_pos hb]
        exact (ihr.append_left (leaves l)).trans List.perm_middle
      · rw [if_neg hb]
        exact ihl.append_right (leaves r)
    · rw [insertAt_above hd]
      exact leaves_fork d (dir d) (leaf y) (node b l r)

/-- A leaf whose key differs from the one that it reaches, and first on the bit `d`. -/
theorem Sorted.insert (h : Sorted bit width lo t) (hlo : lo ≤ d) (hd : d < width)
    (hsame : ∀ i < d, bit y i = bit (reached (bit y) t) i)
    (hne : bit (reached (bit y) t) d ≠ bit y d) :
    Sorted bit width lo (insertAt (bit y) d y t) := by
  induction t generalizing lo with
  | leaf x =>
    rw [insertAt_leaf]
    refine (Sorted.fork (t := leaf x) trivial hd ?_ ?_).mono hlo
    · have hx : Agree bit d [x] := by
        intro z hz w hw i hi
        rw [List.mem_singleton.mp hz, List.mem_singleton.mp hw]
      exact hx.cons (List.mem_singleton_self x) hsame
    · intro z hz
      rw [List.mem_singleton.mp hz]
      exact hne
  | node b l r ihl ihr =>
    obtain ⟨hlb, hbw, hagree, hl, hr, hsl, hsr⟩ := h
    have hmem := reached_mem (bit y) (node b l r)
    by_cases hbd : b < d
    · have hcons : Agree bit b (y :: (leaves l ++ leaves r)) :=
        hagree.cons hmem fun i hi => hsame i (Nat.lt_trans hi hbd)
      have hsub : ∀ z ∈ leaves (insertAt (bit y) d y (node b l r)), z ∈
        y :: (leaves l ++ leaves r) :=
        fun z => (leaves_insertAt (bit y) d y (node b l r)).mem_iff.mp
      rw [insertAt_below hbd] at hsub ⊢
      by_cases hb : bit y b = true
      · rw [if_pos hb] at hsub ⊢
        rw [reached, if_pos hb] at hsame hne
        refine ⟨hlb, hbw, hcons.subset hsub, hl, ?_, hsl, ihr hsr hbd hsame hne⟩
        intro z hz
        rcases List.mem_cons.mp ((leaves_insertAt (bit y) d y r).mem_iff.mp hz) with rfl | hz
        · exact hb
        · exact hr z hz
      · rw [if_neg hb] at hsub ⊢
        rw [reached, if_neg hb] at hsame hne
        refine ⟨hlb, hbw, hcons.subset hsub, ?_, hr, ihl hsl hbd hsame hne, hsr⟩
        intro z hz
        rcases List.mem_cons.mp ((leaves_insertAt (bit y) d y l).mem_iff.mp hz) with rfl | hz
        · exact eq_false_of_ne_true hb
        · exact hl z hz
    · rw [insertAt_above hbd]
      -- the leaf that is reached is on the leg of the bit `b` of `y`, so the two do not differ
      -- there
      have hsorted : Sorted bit width b (node b l r) :=
        ⟨Nat.le_refl b, hbw, hagree, hl, hr, hsl, hsr⟩
      have hon := hsorted.reached_bit (bit y) (b, bit y b)
        (by rw [path]; exact List.mem_cons_self ..)
      have hdb : d < b := by
        rcases Nat.lt_or_eq_of_le (Nat.le_of_not_lt hbd) with hlt | rfl
        · exact hlt
        · exact absurd hon hne
      refine (Sorted.fork (hsorted.mono hdb) hd ?_ ?_).mono hlo
      · exact (hagree.mono (Nat.le_of_lt hdb)).cons hmem hsame
      · intro z hz
        rw [hagree z hz _ hmem d hdb]
        exact hne

/-! ## A leaf less -/

/-- The leaf that is reached goes, and the other leg of its node takes its place. -/
theorem remove_leaves {pre : List (Nat × Bool)} {p : Nat × Bool} (hp : path dir t = pre ++ [p]) :
    (leaves t).Perm (reached dir t :: leaves (modifyAt (other p.2) (pre.map Prod.snd) t)) := by
  induction t generalizing pre with
  | leaf x => simp [path] at hp
  | node b l r ihl ihr =>
    rw [path] at hp
    rw [reached, leaves]
    cases pre with
    | nil =>
      obtain ⟨rfl, hrest⟩ := List.cons_eq_cons.mp hp
      by_cases hb : dir b = true
      · rw [if_pos hb] at hrest ⊢
        cases r with
        | leaf x =>
          show (leaves l ++ [x]).Perm (x :: leaves (if dir b then l else leaf x))
          rw [if_pos hb]
          exact List.perm_append_singleton x (leaves l)
        | node => simp [path] at hrest
      · rw [if_neg hb] at hrest ⊢
        cases l with
        | leaf x =>
          show ([x] ++ leaves r).Perm (x :: leaves (if dir b then leaf x else r))
          rw [if_neg hb]
          exact List.Perm.refl _
        | node => simp [path] at hrest
    | cons q pre =>
      obtain ⟨rfl, hrest⟩ := List.cons_eq_cons.mp hp
      rw [List.map_cons, modifyAt]
      by_cases hb : dir b = true
      · rw [if_pos hb] at hrest ⊢
        rw [if_pos hb]
        exact ((ihr hrest).append_left (leaves l)).trans List.perm_middle
      · rw [if_neg hb] at hrest ⊢
        rw [if_neg hb]
        exact (ihl hrest).append_right (leaves r)

theorem Sorted.remove (h : Sorted bit width lo t) {pre : List (Nat × Bool)} {p : Nat × Bool}
    (hp : path dir t = pre ++ [p]) :
    Sorted bit width lo (modifyAt (other p.2) (pre.map Prod.snd) t) := by
  induction t generalizing lo pre with
  | leaf x => simp [path] at hp
  | node b l r ihl ihr =>
    obtain ⟨hlb, hbw, hagree, hl, hr, hsl, hsr⟩ := h
    have hless := remove_leaves hp
    rw [path] at hp
    cases pre with
    | nil =>
      obtain ⟨rfl, -⟩ := List.cons_eq_cons.mp hp
      show Sorted bit width lo (if dir b then l else r)
      by_cases hb : dir b = true
      · rw [if_pos hb]
        exact hsl.mono (Nat.le_succ_of_le hlb)
      · rw [if_neg hb]
        exact hsr.mono (Nat.le_succ_of_le hlb)
    | cons q pre =>
      obtain ⟨rfl, hrest⟩ := List.cons_eq_cons.mp hp
      rw [List.map_cons, modifyAt] at hless ⊢
      have hsub := List.Subset.trans (List.subset_cons_self _ _) hless.symm.subset
      by_cases hb : dir b = true
      · rw [if_pos hb] at hrest hsub ⊢
        exact ⟨hlb, hbw, hagree.subset hsub, hl,
          fun z hz => hr z ((remove_leaves hrest).mem_iff.mpr (List.mem_cons_of_mem _ hz)), hsl,
          ihr hsr hrest⟩
      · rw [if_neg hb] at hrest hsub ⊢
        exact ⟨hlb, hbw, hagree.subset hsub,
          fun z hz => hl z ((remove_leaves hrest).mem_iff.mpr (List.mem_cons_of_mem _ hz)), hr,
          ihl hsl hrest, hsr⟩

end BitTree
