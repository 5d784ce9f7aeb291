import Mathlib.Data.List.Perm.Basic
import Mathlib.Data.List.Pairwise
import Mathlib.Order.Defs.Unbundled
import Mathlib.Tactic.Common

/-!
# Insertion behind the equals

A list is sorted by putting its elements, one after the other, in front of the first larger one.

- `insertBehind`, `sortBehind`: one insertion, and all of them.
- `insertBehind_sorted`, `sortBehind_sorted`: the order is kept.
- `sortBehind_stable`: elements of equal rank stay in the order in which they came.
-/

variable {α : Type} (r : α → α → Prop) [DecidableRel r]

/-- `a` in front of the first element that is not below it. -/
def insertBehind (a : α) (xs : List α) : List α :=
  xs.takeWhile (fun x => r x a) ++ a :: xs.dropWhile (fun x => r x a)

/-- All of `xs` put into `ys`, one after the other. -/
def sortInto (ys : List α) : List α → List α
  | [] => ys
  | x :: xs => sortInto (insertBehind r x ys) xs

def sortBehind (xs : List α) : List α := sortInto r [] xs

/-- Of equal rank. -/
def equalRank (a b : α) : Bool := r a b ∧ r b a

variable {r} {a b x : α} {xs ys : List α}

theorem insertBehind_perm (a : α) (xs : List α) : (insertBehind r a xs).Perm (a :: xs) := by
  calc
    (insertBehind r a xs).Perm
        (a :: (xs.takeWhile (fun x => r x a) ++ xs.dropWhile (fun x => r x a))) :=
      List.perm_middle
    List.Perm _ (a :: xs) := by rw [List.takeWhile_append_dropWhile]

theorem sortInto_perm (ys xs : List α) : (sortInto r ys xs).Perm (ys ++ xs) := by
  induction xs generalizing ys with
  | nil => rw [sortInto, List.append_nil]
  | cons x xs ih =>
    calc
      (sortInto r (insertBehind r x ys) xs).Perm (insertBehind r x ys ++ xs) := ih _
      List.Perm _ (x :: ys ++ xs) := (insertBehind_perm x ys).append_right xs
      List.Perm _ (ys ++ x :: xs) := List.perm_middle.symm

theorem insertBehind_cons_of_rel (h : r x a) :
    insertBehind r a (x :: xs) = x :: insertBehind r a xs := by
  simp [insertBehind, h]

theorem insertBehind_cons_of_not (h : ¬r x a) :
    insertBehind r a (x :: xs) = a :: x :: xs := by
  simp [insertBehind, h]

section TotalOrder

variable [Std.Total r] [IsTrans α r]

omit [DecidableRel r] [IsTrans α r] in
theorem rel_of_not (h : ¬r x a) : r a x := (Std.Total.total a x).resolve_right h

theorem insertBehind_sorted (h : xs.Pairwise r) : (insertBehind r a xs).Pairwise r := by
  induction xs with
  | nil => exact List.pairwise_singleton r a
  | cons x xs ih =>
    rw [List.pairwise_cons] at h
    by_cases hx : r x a
    · rw [insertBehind_cons_of_rel hx, List.pairwise_cons]
      refine ⟨fun b hb => ?_, ih h.2⟩
      obtain rfl | hb := List.mem_cons.mp ((insertBehind_perm a xs).mem_iff.mp hb)
      · exact hx
      · exact h.1 b hb
    · rw [insertBehind_cons_of_not hx, List.pairwise_cons]
      have hax := rel_of_not hx
      refine ⟨fun b hb => ?_, List.pairwise_cons.mpr h⟩
      obtain rfl | hb := List.mem_cons.mp hb
      · exact hax
      · exact IsTrans.trans _ _ _ hax (h.1 b hb)

theorem sortInto_sorted (h : ys.Pairwise r) : (sortInto r ys xs).Pairwise r := by
  induction xs generalizing ys with
  | nil => exact h
  | cons x xs ih => exact ih (insertBehind_sorted h)

theorem sortBehind_sorted (xs : List α) : (sortBehind r xs).Pairwise r :=
  sortInto_sorted List.Pairwise.nil

omit [Std.Total r] in
/-- The new element comes behind all that are of its rank. -/
theorem filter_insertBehind (h : xs.Pairwise r) (b a : α) :
    (insertBehind r a xs).filter (equalRank r b) =
      xs.filter (equalRank r b) ++ [a].filter (equalRank r b) := by
  induction xs with
  | nil => rfl
  | cons x xs ih =>
    rw [List.pairwise_cons] at h
    by_cases hx : r x a
    · rw [insertBehind_cons_of_rel hx, List.filter_cons, List.filter_cons, ih h.2]
      split <;> rfl
    · rw [insertBehind_cons_of_not hx, List.filter_cons]
      split
      case isFalse hb => rw [List.filter_cons_of_neg hb, List.filter_nil, List.append_nil]
      case isTrue hb =>
        -- what is of the rank of `a` cannot come behind `x`
        have hba : r b a ∧ r a b := of_decide_eq_true hb
        have hnone : (x :: xs).filter (equalRank r b) = [] := by
          rw [List.filter_eq_nil_iff]
          intro y hy hby
          have hby : r b y ∧ r y b := of_decide_eq_true hby
          apply hx
          obtain rfl | hy := List.mem_cons.mp hy
          · exact IsTrans.trans _ _ _ hby.2 hba.1
          · exact IsTrans.trans _ _ _ (h.1 y hy) (IsTrans.trans _ _ _ hby.2 hba.1)
        rw [hnone, List.filter_cons_of_pos hb, List.filter_nil, List.nil_append]

theorem filter_sortInto (h : ys.Pairwise r) (b : α) :
    (sortInto r ys xs).filter (equalRank r b) = (ys ++ xs).filter (equalRank r b) := by
  induction xs generalizing ys with
  | nil => rw [sortInto, List.append_nil]
  | cons x xs ih =>
    rw [sortInto, ih (insertBehind_sorted h), List.filter_append, filter_insertBehind h,
      ← List.filter_append, ← List.filter_append, List.append_assoc, List.singleton_append]

/-- Elements of equal rank keep their order. -/
theorem sortBehind_stable (xs : List α) (b : α) :
    (sortBehind r xs).filter (equalRank r b) = xs.filter (equalRank r b) :=
  filter_sortInto List.Pairwise.nil b

end TotalOrder

theorem sortBehind_perm (xs : List α) : (sortBehind r xs).Perm xs := sortInto_perm [] xs
