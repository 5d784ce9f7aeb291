import Mathlib.Data.List.Nodup
import Mathlib.Tactic.Common

/-!
# Linked nodes

Nodes that are chained by pointers: `next` gives the pointer of a node.

- `Linked next p as q`: from `p`, the pointers lead through the nodes `as` to `q`.
- `Linked.insert`, `Linked.remove`: the two pointers that are written for one more node, and the one
  for one less.
-/

variable {α : Type}

/-- From `p`, the pointers lead through the nodes `as` to `q`. -/
def Linked (next : α → Option α) (p : α) : List α → α → Prop
  | [], q => next p = some q
  | a :: as, q => next p = some a ∧ Linked next a as q

namespace Linked

variable {next next' : α → Option α} {p q : α} {as bs : List α}

/-- What the first pointer leads to. -/
theorem head (h : Linked next p as q) : next p = some (as.headD q) := by
  cases as with
  | nil => exact h
  | cons a as => exact h.1

/-- The nodes after one of them are chained from there. -/
theorem append {a : α} :
    Linked next p (as ++ a :: bs) q ↔ Linked next p as a ∧ Linked next a bs q := by
  induction as generalizing p with
  | nil => exact Iff.rfl
  | cons c cs ih =>
    show next p = some c ∧ Linked next c (cs ++ a :: bs) q ↔
      (next p = some c ∧ Linked next c cs a) ∧ Linked next a bs q
    rw [ih, and_assoc]

/-- The last node of `as`, or `p`, points to the first one of `bs`, or to `q`. -/
theorem last (h : Linked next p (as ++ bs) q) : next (as.getLastD p) = some (bs.headD q) := by
  induction as generalizing p with
  | nil => exact h.head
  | cons c cs ih =>
    rw [List.getLastD_cons]
    exact ih h.2

/-- Only the pointers of the nodes matter. -/
theorem congr (h : Linked next p as q) (hnext : ∀ a ∈ p :: as, next' a = next a) :
    Linked next' p as q := by
  induction as generalizing p with
  | nil => exact (hnext p (by simp)).trans h
  | cons c cs ih =>
    refine ⟨(hnext p (by simp)).trans h.1, ih h.2 fun a ha => hnext a ?_⟩
    exact List.mem_cons_of_mem p ha

theorem getLastD_mem (p : α) (as : List α) : as.getLastD p ∈ p :: as := by
  induction as generalizing p with
  | nil => simp
  | cons c cs ih =>
    rw [List.getLastD_cons]
    exact List.mem_cons_of_mem p (ih c)

/-- One more node `r` after `as`: it gets the pointer of the last of them, which points to it. -/
theorem insert {r : α} (h : Linked next p (as ++ bs) q) (hd : (p :: (as ++ bs)).Nodup)
    (hr : r ∉ p :: (as ++ bs)) (hnew : next' r = next (as.getLastD p))
    (hlast : next' (as.getLastD p) = some r)
    (hnext : ∀ a, a ≠ r → a ≠ as.getLastD p → next' a = next a) :
    Linked next' p (as ++ r :: bs) q := by
  induction as generalizing p with
  | nil =>
    refine ⟨hlast, ?_⟩
    rw [List.nil_append, List.nodup_cons] at hd
    rw [List.nil_append, List.mem_cons, not_or] at hr
    cases bs with
    | nil => exact hnew.trans h
    | cons b bs =>
      refine ⟨hnew.trans h.1, congr h.2 fun a ha => hnext a ?_ ?_⟩
      · rintro rfl
        exact hr.2 ha
      · rintro rfl
        exact hd.1 ha
  | cons c cs ih =>
    rw [List.getLastD_cons] at hnew hlast hnext
    rw [List.cons_append, List.nodup_cons] at hd
    rw [List.cons_append, List.mem_cons, not_or] at hr
    refine ⟨?_, ih h.2 hd.2 hr.2 hnew hlast hnext⟩
    rw [hnext p (Ne.symm hr.1)]
    · exact h.1
    · intro hp
      apply hd.1
      rw [hp, ← List.cons_append]
      exact List.mem_append_left _ (getLastD_mem c cs)

/-- One node less after `as`: the last of them gets its pointer. -/
theorem remove {r : α} (h : Linked next p (as ++ r :: bs) q) (hd : (p :: (as ++ r :: bs)).Nodup)
    (hlast : next' (as.getLastD p) = next r)
    (hnext : ∀ a, a ≠ r → a ≠ as.getLastD p → next' a = next a) :
    Linked next' p (as ++ bs) q := by
  induction as generalizing p with
  | nil =>
    obtain ⟨-, h⟩ := h
    simp only [List.nil_append, List.nodup_cons, List.mem_cons, not_or] at hd
    cases bs with
    | nil => exact hlast.trans h
    | cons b bs =>
      refine ⟨hlast.trans h.1, congr h.2 fun a ha => hnext a ?_ ?_⟩
      · rintro rfl
        exact hd.2.1 ha
      · rintro rfl
        exact hd.1.2 ha
  | cons c cs ih =>
    rw [List.getLastD_cons] at hlast hnext
    rw [List.cons_append, List.nodup_cons] at hd
    refine ⟨?_, ih h.2 hd.2 hlast hnext⟩
    rw [hnext p]
    · exact h.1
    · rintro rfl
      exact hd.1 (by simp)
    · intro hp
      apply hd.1
      rw [hp, ← List.cons_append]
      exact List.mem_append_left _ (getLastD_mem c cs)

end Linked
