import Spegla.Lib.Linked

/-!
# Doubly linked rings

Nodes with a pointer in each direction: `next` and `prev` give the pointers of a node.

- `LinkedRing next prev p as`: from `p`, the pointers lead through the nodes `as` back to `p`, and
  the other pointers the other way round.
- `LinkedRing.turn`: the same ring from another of its nodes.
- `LinkedRing.insert`, `LinkedRing.remove`: the pointers that are written for one node more, and for
  one less.
-/

variable {α : Type}

/-- The pointers lead from `p` through `as` back to `p`, in both directions. -/
structure LinkedRing (next prev : α → Option α) (p : α) (as : List α) : Prop where
  distinct : (p :: as).Nodup
  forward : Linked next p as p
  backward : Linked prev p as.reverse p

namespace LinkedRing

variable {next next' prev prev' : α → Option α} {p r : α} {as bs : List α}

theorem getLastD_reverse (as : List α) (p : α) : as.reverse.getLastD p = as.headD p := by
  cases as with
  | nil => rfl
  | cons a as => simp

theorem headD_reverse (as : List α) (p : α) : as.reverse.headD p = as.getLastD p := by
  rw [← getLastD_reverse, List.reverse_reverse]

theorem getLastD_append_cons (as bs : List α) (p r : α) :
    (bs ++ p :: as).getLastD r = as.getLastD p := by
  induction bs generalizing r with
  | nil => rw [List.nil_append, List.getLastD_cons]
  | cons b bs ih =>
    rw [List.cons_append, List.getLastD_cons]
    exact ih b

/-- The first node behind `p`. -/
theorem next_eq (h : LinkedRing next prev p as) : next p = some (as.headD p) := h.forward.head

/-- The last one of the ring. -/
theorem prev_eq (h : LinkedRing next prev p as) : prev p = some (as.getLastD p) := by
  rw [h.backward.head, headD_reverse]

/-- What the pointer to the node behind `as` is the other way round. -/
theorem next_last (h : LinkedRing next prev p (as ++ bs)) :
    next (as.getLastD p) = some (bs.headD p) := h.forward.last

theorem prev_first (h : LinkedRing next prev p (as ++ bs)) :
    prev (bs.headD p) = some (as.getLastD p) := by
  have hb := h.backward
  rw [List.reverse_append] at hb
  have hlast := hb.last
  rwa [getLastD_reverse, headD_reverse] at hlast

/-- A node on its own. -/
theorem single (hn : next p = some p) (hp : prev p = some p) : LinkedRing next prev p [] :=
  ⟨List.nodup_singleton p, hn, hp⟩

/-- Seen from another node, the ring is the same. -/
theorem turn (h : LinkedRing next prev p (as ++ r :: bs)) :
    LinkedRing next prev r (bs ++ p :: as) := by
  have hf := Linked.append.mp h.forward
  have hb := h.backward
  rw [List.reverse_append, List.reverse_cons, List.append_assoc, List.singleton_append] at hb
  have hb := Linked.append.mp hb
  constructor
  · have hd := h.distinct
    rw [← List.cons_append] at hd ⊢
    exact List.nodup_append_comm.mp hd
  · exact Linked.append.mpr ⟨hf.2, hf.1⟩
  · rw [List.reverse_append, List.reverse_cons, List.append_assoc, List.singleton_append]
    exact Linked.append.mpr ⟨hb.2, hb.1⟩

/-- Each node has a ring of its own. -/
theorem turn_mem (h : LinkedRing next prev p as) (hr : r ∈ p :: as) :
    ∃ bs, LinkedRing next prev r bs ∧ (r :: bs).Perm (p :: as) := by
  obtain rfl | hr := List.mem_cons.mp hr
  · exact ⟨as, h, .refl _⟩
  · obtain ⟨as₁, as₂, rfl⟩ := List.append_of_mem hr
    refine ⟨as₂ ++ p :: as₁, h.turn, ?_⟩
    show ((r :: as₂) ++ p :: as₁).Perm ((p :: as₁) ++ r :: as₂)
    exact List.perm_append_comm

/-- The pointers in the two directions are inverse. -/
theorem inverse (h : LinkedRing next prev p as) (hr : r ∈ p :: as) :
    (next r).bind prev = some r ∧ (prev r).bind next = some r := by
  obtain ⟨bs, hbs, -⟩ := h.turn_mem hr
  constructor
  · rw [hbs.next_eq]
    exact prev_first (show LinkedRing next prev r ([] ++ bs) from hbs)
  · rw [hbs.prev_eq]
    rw [← List.append_nil bs] at hbs
    exact hbs.next_last

/-- Only the pointers of its nodes matter. -/
theorem congr (h : LinkedRing next prev p as) (hn : ∀ a ∈ p :: as, next' a = next a)
    (hp : ∀ a ∈ p :: as, prev' a = prev a) : LinkedRing next' prev' p as := by
  refine ⟨h.distinct, h.forward.congr hn, h.backward.congr fun a ha => hp a ?_⟩
  rwa [List.mem_cons, List.mem_reverse, ← List.mem_cons] at ha

/-- One more node `r` between `as` and `bs`. -/
theorem insert (h : LinkedRing next prev p (as ++ bs)) (hr : r ∉ p :: (as ++ bs))
    (hnew : next' r = some (bs.headD p)) (hlast : next' (as.getLastD p) = some r)
    (hn : ∀ a, a ≠ r → a ≠ as.getLastD p → next' a = next a)
    (hpnew : prev' r = some (as.getLastD p)) (hfirst : prev' (bs.headD p) = some r)
    (hp : ∀ a, a ≠ r → a ≠ bs.headD p → prev' a = prev a) :
    LinkedRing next' prev' p (as ++ r :: bs) := by
  have hd := h.distinct
  have hb := h.backward
  rw [List.reverse_append] at hb
  constructor
  · show ((p :: as) ++ r :: bs).Nodup
    rw [List.nodup_middle]
    exact List.nodup_cons.mpr ⟨hr, hd⟩
  · exact h.forward.insert hd hr (hnew.trans h.forward.last.symm) hlast hn
  · rw [List.reverse_append, List.reverse_cons, List.append_assoc, List.singleton_append]
    apply hb.insert
    · rw [← List.reverse_append]
      exact (List.Perm.cons p (List.reverse_perm _)).nodup_iff.mpr hd
    · rw [← List.reverse_append, List.mem_cons, List.mem_reverse, ← List.mem_cons]
      exact hr
    · rw [getLastD_reverse, hpnew, h.prev_first]
    · rw [getLastD_reverse]
      exact hfirst
    · rw [getLastD_reverse]
      exact hp

/-- One node less: `r`, between `as` and `bs`. -/
theorem remove (h : LinkedRing next prev p (as ++ r :: bs))
    (hlast : next' (as.getLastD p) = some (bs.headD p))
    (hn : ∀ a, a ≠ r → a ≠ as.getLastD p → next' a = next a)
    (hfirst : prev' (bs.headD p) = some (as.getLastD p))
    (hp : ∀ a, a ≠ r → a ≠ bs.headD p → prev' a = prev a) :
    LinkedRing next' prev' p (as ++ bs) := by
  have hd := h.distinct
  have hturn := h.turn
  have hb := h.backward
  rw [List.reverse_append, List.reverse_cons, List.append_assoc, List.singleton_append] at hb
  have hnr : next r = some (bs.headD p) := by
    rw [hturn.next_eq]
    cases bs <;> rfl
  have hpr : prev r = some (as.getLastD p) := by
    rw [hturn.prev_eq, getLastD_append_cons]
  constructor
  · have hd' : ((p :: as) ++ r :: bs).Nodup := hd
    rw [List.nodup_middle] at hd'
    exact (List.nodup_cons.mp hd').2
  · exact h.forward.remove hd (hlast.trans hnr.symm) hn
  · rw [List.reverse_append]
    apply hb.remove
    · have hrev : (as ++ r :: bs).reverse = bs.reverse ++ r :: as.reverse := by simp
      rw [← hrev]
      exact (List.Perm.cons p (List.reverse_perm _)).nodup_iff.mpr hd
    · rw [getLastD_reverse, hfirst, hpr]
    · rw [getLastD_reverse]
      exact hp

end LinkedRing
