import Mathlib.Data.List.Nodup
import Mathlib.Data.List.Perm.Subperm
import Mathlib.Logic.Function.Basic
import Spegla.Container.SkipList
import Spegla.Lib.LinkedRing
import Spegla.Lib.StableSort

/-!
# Circular lists (`container.c`, `cl_init` to `cl_rem`)

Nodes that are doubly linked in a ring, with a head that carries no data.

- `ClMem`: the nodes in memory. A read is undefined (`none`) where the node has been freed or the
  pointer has not been written yet.
- `insque`, `remque`, as in the C library, and the operations as the source has them. Allocations
  succeed and give new addresses.
- `insque_some`, `remque_some`: which pointers the two write.
- `ClMem.Holds`: the ring of a list and the data in its nodes, with what the operations do to it.
-/

namespace Spegla

variable {α : Type}

/-! ## Nodes in memory -/

/-- `struct cl_que`, with data pointers of the type `α`; a pointer that is `none` has not been
written. -/
structure ClQue (α : Type) where
  qForw : Option Nat
  qBack : Option Nat
  qData : α

/-- The nodes, and the address of the next one. -/
structure ClMem (α : Type) where
  node : Nat → Option (ClQue α)
  fresh : Nat

namespace ClMem

/-- `CL_NEXT(p)`. -/
def forw (m : ClMem α) (p : Nat) : Option Nat := (m.node p).bind ClQue.qForw

/-- `CL_PREV(p)`. -/
def back (m : ClMem α) (p : Nat) : Option Nat := (m.node p).bind ClQue.qBack

/-- `CL_DATA(p)`. -/
def data (m : ClMem α) (p : Nat) : Option α := (m.node p).map ClQue.qData

/-- `CL_NEXT(p) = q`. -/
def setForw (m : ClMem α) (p q : Nat) : Option (ClMem α) := do
  let n ← m.node p
  return { m with node := Function.update m.node p (some { n with qForw := some q }) }

/-- `CL_PREV(p) = q`. -/
def setBack (m : ClMem α) (p q : Nat) : Option (ClMem α) := do
  let n ← m.node p
  return { m with node := Function.update m.node p (some { n with qBack := some q }) }

/-- `malloc`, and the data that is put into the node. -/
def malloc (m : ClMem α) (data : α) : ClMem α :=
  { node := Function.update m.node m.fresh (some { qForw := none, qBack := none, qData := data })
    fresh := m.fresh + 1 }

/-- `free`. -/
def free (m : ClMem α) (p : Nat) : Option (ClMem α) := do
  let _ ← m.node p
  return { m with node := Function.update m.node p none }

end ClMem

open ClMem

/-- `insque` of the C library, in a circular list. -/
def insque (m : ClMem α) (elem pred : Nat) : Option (ClMem α) := do
  let next ← m.forw pred
  let m ← m.setForw pred elem
  let m ← m.setBack next elem
  let m ← m.setForw elem next
  m.setBack elem pred

/-- `remque` of the C library, in a circular list; the pointers of the node itself stay. -/
def remque (m : ClMem α) (elem : Nat) : Option (ClMem α) := do
  let next ← m.forw elem
  let prev ← m.back elem
  let m ← m.setBack next prev
  m.setForw prev next

/-! ## The operations -/

/-- What a call returns, 0 or −1, and the data that it stores. -/
structure ClRes (α : Type) where
  ret : Int
  data : Option α

/-- `cl_init`, with the null pointer that is the data of the head. -/
def clInit (m : ClMem α) (null : α) : Option (ClMem α × Nat) := do
  let p := m.fresh
  let m ← (m.malloc null).setForw p p
  let m ← m.setBack p p
  return (m, p)

/-- `cl_peek_pos`; it fails with `some none`. -/
def clPeekPos (m : ClMem α) (headp : Nat) : Option (Option Nat) := do
  if headp = NULL then return none
  else
    let q ← m.forw headp
    if q = headp then return none else return some q

/-- `cl_tail_peek_pos`. -/
def clTailPeekPos (m : ClMem α) (headp : Nat) : Option (Option Nat) := do
  if headp = NULL then return none
  else
    let q ← m.back headp
    if q = headp then return none else return some q

/-- A position with its data. -/
def clAt (m : ClMem α) : Option Nat → Option (Option (Nat × α))
  | none => some none
  | some p => do return some (p, ← m.data p)

/-- `cl_peek`. -/
def clPeek (m : ClMem α) (headp : Nat) : Option (Option (Nat × α)) := do
  clAt m (← clPeekPos m headp)

/-- `cl_tail_peek`. -/
def clTailPeek (m : ClMem α) (headp : Nat) : Option (Option (Nat × α)) := do
  clAt m (← clTailPeekPos m headp)

/-- `cl_walk`, from the position that `*pos` has, `none` for a null pointer: the next position and
its data; it fails with `some none`. -/
def clWalk (m : ClMem α) (headp : Nat) : Option Nat → Option (Option (Nat × α))
  | none => clPeek m headp
  | some pos => do
    if pos = headp then return none
    else
      let q ← m.forw pos
      if q = headp then return none else clAt m (some q)

/-- `cl_walk_back`. -/
def clWalkBack (m : ClMem α) (headp : Nat) : Option Nat → Option (Option (Nat × α))
  | none => clTailPeek m headp
  | some pos => do
    if pos = headp then return none
    else
      let q ← m.back pos
      if q = headp then return none else clAt m (some q)

/-- `cl_push`. -/
def clPush (m : ClMem α) (headp : Nat) (data : α) : Option (ClMem α) :=
  insque (m.malloc data) m.fresh headp

/-- `cl_tail_push`. -/
def clTailPush (m : ClMem α) (headp : Nat) (data : α) : Option (ClMem α) := do
  insque (m.malloc data) m.fresh (← (m.malloc data).back headp)

/-- `remque(p); *data = p->q_data; free(p);` -/
def clTake (m : ClMem α) (p : Nat) : Option (ClMem α × ClRes α) := do
  let m ← remque m p
  let data ← m.data p
  return (← m.free p, ⟨0, some data⟩)

/-- `cl_pop`. -/
def clPop (m : ClMem α) (headp : Nat) : Option (ClMem α × ClRes α) := do
  if headp = NULL then return (m, ⟨-1, none⟩)
  else
    let p ← m.forw headp
    if p = headp then return (m, ⟨-1, none⟩) else clTake m p

/-- `cl_tail_pop`. -/
def clTailPop (m : ClMem α) (headp : Nat) : Option (ClMem α × ClRes α) := do
  if headp = NULL then return (m, ⟨-1, none⟩)
  else
    let p ← m.back headp
    if p = headp then return (m, ⟨-1, none⟩) else clTake m p

/-- `for (; q != headp; q = CL_NEXT(q))`, up to the first node whose data stops the loop, or to
`headp`. -/
def clSearch (m : ClMem α) (headp : Nat) (stop : α → Bool) : Nat → Nat → Option Nat
  | 0, _ => none
  | fuel + 1, q => do
    if q = headp then return headp
    else if stop (← m.data q) then return q
    else clSearch m headp stop fuel (← m.forw q)

/-- `cl_ins_sort_nomalloc`. -/
def clInsSortNomalloc (m : ClMem α) (headp p : Nat) (comp : α → α → Int) : Option (ClMem α) := do
  let data ← m.data p
  let q ← clSearch m headp (fun b => comp b data > 0) m.fresh (← m.forw headp)
  insque m p (← m.back q)

/-- `cl_ins_sort`. -/
def clInsSort (m : ClMem α) (headp : Nat) (data : α) (comp : α → α → Int) : Option (ClMem α) := do
  let p := m.fresh
  let m := m.malloc data
  if (← m.forw headp) = headp then insque m p headp else clInsSortNomalloc m headp p comp

/-- `cl_ins_after_pos`, with `*new_pos`. -/
def clInsAfterPos (m : ClMem α) (pos : Nat) (data : α) : Option (ClMem α × Nat) := do
  let m ← clPush m pos data
  return (m, ← m.forw pos)

/-- `cl_find_pos`; it fails with `some none`. -/
def clFindPos (m : ClMem α) (headp : Nat) (isData : α → Bool) : Option (Option (Nat × α)) := do
  let q ← clSearch m headp isData m.fresh (← m.forw headp)
  if q = headp then return none else clAt m (some q)

/-- `cl_rem_pos`. -/
def clRemPos (m : ClMem α) (q : Nat) : Option (ClMem α × Int) := do
  if q = (← m.forw q) then return (m, -1)
  else
    let m ← remque m q
    return (← m.free q, 0)

/-- `cl_rem`. -/
def clRem (m : ClMem α) (headp : Nat) (isData : α → Bool) : Option (ClMem α × ClRes α) := do
  match ← clFindPos m headp isData with
  | none => return (m, ⟨-1, none⟩)
  | some (p, data) =>
    let (m, ret) ← clRemPos m p
    return (m, ⟨ret, some data⟩)

/-- The loop of `cl_sort` over the ring without a head, and the insertion behind it. -/
def clSortLoop (headp : Nat) (comp : α → α → Int) : Nat → ClMem α → Nat → Option (ClMem α)
  | 0, _, _ => none
  | fuel + 1, m, q => do
    let p ← m.forw q
    if p = q then clInsSortNomalloc m headp q comp
    else
      let m ← remque m q
      let m ← clInsSortNomalloc m headp q comp
      clSortLoop headp comp fuel m p

/-- `cl_sort`. -/
def clSort (m : ClMem α) (headp : Nat) (comp : α → α → Int) : Option (ClMem α) := do
  let q ← m.forw headp
  if q = headp then return m
  else
    let m ← remque m headp
    let m ← m.setForw headp headp
    let m ← m.setBack headp headp
    clSortLoop headp comp m.fresh m q

/-! ## What the two library functions write -/

/-- `m'` is `m` with other pointers. -/
structure Rewired (m m' : ClMem α) (forw back : Nat → Option Nat) : Prop where
  forw : m'.forw = forw
  back : m'.back = back
  data : m'.data = m.data
  fresh : m'.fresh = m.fresh

namespace ClMem

variable {m m₁ m₂ : ClMem α} {p q next prev : Nat} {a b : α}

theorem setForw_some (h : m.data p = some a) (q : Nat) :
    ∃ m', m.setForw p q = some m' ∧
      Rewired m m' (Function.update m.forw p (some q)) m.back := by
  obtain ⟨n, hn, -⟩ := Option.map_eq_some_iff.mp h
  refine ⟨{ m with node := Function.update m.node p (some { n with qForw := some q }) }, ?_,
    ?_, ?_, ?_, rfl⟩
  · simp [setForw, hn]
  all_goals
    funext x
    by_cases hx : x = p
    · subst hx
      simp [ClMem.forw, ClMem.back, ClMem.data, hn]
    · simp [ClMem.forw, ClMem.back, ClMem.data, hx]

theorem setBack_some (h : m.data p = some a) (q : Nat) :
    ∃ m', m.setBack p q = some m' ∧
      Rewired m m' m.forw (Function.update m.back p (some q)) := by
  obtain ⟨n, hn, -⟩ := Option.map_eq_some_iff.mp h
  refine ⟨{ m with node := Function.update m.node p (some { n with qBack := some q }) }, ?_,
    ?_, ?_, ?_, rfl⟩
  · simp [setBack, hn]
  all_goals
    funext x
    by_cases hx : x = p
    · subst hx
      simp [ClMem.forw, ClMem.back, ClMem.data, hn]
    · simp [ClMem.forw, ClMem.back, ClMem.data, hx]

/-- A node with a pointer is there. -/
theorem data_of_forw (h : m.forw p = some q) : ∃ a, m.data p = some a := by
  obtain ⟨n, hn, -⟩ := Option.bind_eq_some_iff.mp h
  exact ⟨n.qData, by rw [data, hn]; rfl⟩

@[simp] theorem malloc_forw (hp : p ≠ m.fresh) : (m.malloc a).forw p = m.forw p := by
  simp [forw, malloc, hp]

@[simp] theorem malloc_back (hp : p ≠ m.fresh) : (m.malloc a).back p = m.back p := by
  simp [back, malloc, hp]

@[simp] theorem malloc_data (hp : p ≠ m.fresh) : (m.malloc a).data p = m.data p := by
  simp [data, malloc, hp]

@[simp] theorem malloc_data_fresh : (m.malloc a).data m.fresh = some a := by
  simp [data, malloc]

theorem free_some (h : m.data p = some a) :
    ∃ m', m.free p = some m' ∧ m'.fresh = m.fresh ∧ m'.data p = none ∧
      ∀ x, x ≠ p → m'.forw x = m.forw x ∧ m'.back x = m.back x ∧ m'.data x = m.data x := by
  obtain ⟨n, hn, -⟩ := Option.map_eq_some_iff.mp h
  refine ⟨{ m with node := Function.update m.node p none }, ?_, rfl, ?_, fun x hx => ?_⟩
  · simp [free, hn]
  · simp [data]
  · simp [forw, back, data, hx]

end ClMem

open ClMem

variable {m m' : ClMem α} {elem pred next prev : Nat} {a b c : α}

theorem insque_some (hforw : m.forw pred = some next) (helem : m.data elem = some a)
    (hnext : m.data next = some b) :
    ∃ m', insque m elem pred = some m' ∧
      Rewired m m' (Function.update (Function.update m.forw pred (some elem)) elem (some next))
        (Function.update (Function.update m.back next (some elem)) elem (some pred)) := by
  obtain ⟨c, hpred⟩ := data_of_forw hforw
  obtain ⟨m₁, h₁, w₁⟩ := ClMem.setForw_some hpred elem
  obtain ⟨m₂, h₂, w₂⟩ := ClMem.setBack_some (w₁.data ▸ hnext) elem
  obtain ⟨m₃, h₃, w₃⟩ := ClMem.setForw_some (m := m₂) (by rw [w₂.data, w₁.data, helem]) next
  obtain ⟨m₄, h₄, w₄⟩ :=
    ClMem.setBack_some (m := m₃) (by rw [w₃.data, w₂.data, w₁.data, helem]) pred
  refine ⟨m₄, ?_, ?_, ?_, ?_, ?_⟩
  · simp only [insque, hforw, h₁, h₂, h₃, h₄, Option.bind_eq_bind, Option.bind_some]
  · rw [w₄.forw, w₃.forw, w₂.forw, w₁.forw]
  · rw [w₄.back, w₃.back, w₂.back, w₁.back]
  · rw [w₄.data, w₃.data, w₂.data, w₁.data]
  · rw [w₄.fresh, w₃.fresh, w₂.fresh, w₁.fresh]

theorem remque_some (hforw : m.forw elem = some next) (hback : m.back elem = some prev)
    (hnext : m.data next = some a) (hprev : m.data prev = some b) :
    ∃ m', remque m elem = some m' ∧
      Rewired m m' (Function.update m.forw prev (some next))
        (Function.update m.back next (some prev)) := by
  obtain ⟨m₁, h₁, w₁⟩ := ClMem.setBack_some hnext prev
  obtain ⟨m₂, h₂, w₂⟩ := ClMem.setForw_some (m := m₁) (by rw [w₁.data, hprev]) next
  refine ⟨m₂, ?_, ?_, ?_, ?_, ?_⟩
  · simp only [remque, hforw, hback, h₁, h₂, Option.bind_eq_bind, Option.bind_some]
  · rw [w₂.forw, w₁.forw]
  · rw [w₂.back, w₁.back]
  · rw [w₂.data, w₁.data]
  · rw [w₂.fresh, w₁.fresh]

/-! ## The ring of a list -/

/-- Addresses are given out in ascending order, from one above that of the null pointer. -/
structure ClMem.Fits (m : ClMem α) : Prop where
  null : m.data NULL = none
  above_null : NULL < m.fresh
  unused : ∀ p, m.fresh ≤ p → m.data p = none

/-- The addresses of the nodes of a list. -/
def cellNodes (cells : List (Nat × α)) : List Nat := cells.map Prod.fst

@[simp] theorem cellNodes_nil : cellNodes ([] : List (Nat × α)) = [] := rfl

@[simp] theorem cellNodes_cons (c : Nat × α) (cells : List (Nat × α)) :
    cellNodes (c :: cells) = c.1 :: cellNodes cells := rfl

@[simp] theorem cellNodes_append (as bs : List (Nat × α)) :
    cellNodes (as ++ bs) = cellNodes as ++ cellNodes bs := List.map_append

/-- The ring of the list `headp`, with the nodes and the data of `cells`. -/
structure ClMem.Holds (m : ClMem α) (headp : Nat) (cells : List (Nat × α)) : Prop where
  ring : LinkedRing m.forw m.back headp (cellNodes cells)
  head : ∃ a, m.data headp = some a
  data : ∀ c ∈ cells, m.data c.1 = some c.2

namespace ClMem

variable {headp p : Nat} {cells as bs : List (Nat × α)} {m m' : ClMem α} {a : α}

theorem Holds.data_mem (h : m.Holds headp cells) (hp : p ∈ headp :: cellNodes cells) :
    ∃ a, m.data p = some a := by
  obtain rfl | hp := List.mem_cons.mp hp
  · exact h.head
  · obtain ⟨c, hc, rfl⟩ := List.mem_map.mp hp
    exact ⟨c.2, h.data c hc⟩

theorem Holds.ne_null (h : m.Holds headp cells) (hm : m.Fits) : headp ≠ NULL := by
  rintro rfl
  obtain ⟨a, ha⟩ := h.head
  exact nomatch hm.null.symm.trans ha

theorem Holds.lt_fresh (h : m.Holds headp cells) (hm : m.Fits)
    (hp : p ∈ headp :: cellNodes cells) : p < m.fresh := by
  obtain ⟨a, ha⟩ := h.data_mem hp
  by_contra hlt
  exact nomatch (hm.unused p (Nat.le_of_not_lt hlt)).symm.trans ha

/-- There are fewer nodes than addresses. -/
theorem Holds.length_lt (h : m.Holds headp cells) (hm : m.Fits) : cells.length < m.fresh := by
  have hsub : headp :: cellNodes cells ⊆ List.range m.fresh :=
    fun p hp => List.mem_range.mpr (h.lt_fresh hm hp)
  have hlen := (h.ring.distinct.subperm hsub).length_le
  rw [List.length_range, List.length_cons, cellNodes, List.length_map] at hlen
  exact hlen

/-- Only the nodes of a list matter to it. -/
theorem Holds.congr (h : m.Holds headp cells)
    (hsame : ∀ p ∈ headp :: cellNodes cells,
      m'.forw p = m.forw p ∧ m'.back p = m.back p ∧ m'.data p = m.data p) :
    m'.Holds headp cells := by
  refine ⟨h.ring.congr (fun p hp => (hsame p hp).1) (fun p hp => (hsame p hp).2.1), ?_, ?_⟩
  · obtain ⟨a, ha⟩ := h.head
    exact ⟨a, (hsame headp (List.mem_cons_self ..)).2.2.trans ha⟩
  · intro c hc
    have hmem : c.1 ∈ headp :: cellNodes cells :=
      List.mem_cons_of_mem _ (List.mem_map_of_mem hc)
    exact (hsame c.1 hmem).2.2.trans (h.data c hc)

/-- Without a head of its own, the ring may be seen from any node. -/
theorem Holds.turn (h : m.Holds p (as ++ (headp, a) :: bs)) {b : α} (hp : m.data p = some b) :
    m.Holds headp (bs ++ (p, b) :: as) := by
  refine ⟨?_, ⟨a, h.data (headp, a) (by simp)⟩, fun c hc => ?_⟩
  · have hr := h.ring
    rw [cellNodes_append, cellNodes_cons] at hr ⊢
    exact hr.turn
  · rw [List.mem_append, List.mem_cons] at hc
    obtain hc | rfl | hc := hc
    · exact h.data c (List.mem_append_right _ (List.mem_cons_of_mem _ hc))
    · exact hp
    · exact h.data c (List.mem_append_left _ hc)

theorem getLastD_mem_cells (headp : Nat) (as : List (Nat × α)) (bs : List (Nat × α)) :
    (cellNodes as).getLastD headp ∈ headp :: cellNodes (as ++ bs) := by
  have hmem := Linked.getLastD_mem headp (cellNodes as)
  rw [cellNodes_append, ← List.cons_append]
  exact List.mem_append_left _ hmem

theorem headD_mem_cells (headp : Nat) (as : List (Nat × α)) (bs : List (Nat × α)) :
    (cellNodes bs).headD headp ∈ headp :: cellNodes (as ++ bs) := by
  cases bs with
  | nil => exact List.mem_cons_self ..
  | cons b bs => simp

/-- `insque` puts a node behind those of `as`. -/
theorem Holds.insque (h : m.Holds headp (as ++ bs)) (hp : m.data p = some a)
    (hnew : p ∉ headp :: cellNodes (as ++ bs)) :
    ∃ m', insque m p ((cellNodes as).getLastD headp) = some m' ∧
      m'.Holds headp (as ++ (p, a) :: bs) ∧ m'.data = m.data ∧ m'.fresh = m.fresh ∧
      ∀ x, x ∉ p :: headp :: cellNodes (as ++ bs) →
        m'.forw x = m.forw x ∧ m'.back x = m.back x := by
  have hring := h.ring
  rw [cellNodes_append] at hring
  have hlast := getLastD_mem_cells headp as bs
  have hfirst := headD_mem_cells headp as bs
  obtain ⟨b, hb⟩ := h.data_mem hfirst
  obtain ⟨m', hm', w⟩ := insque_some hring.next_last hp hb
  have hpl : p ≠ (cellNodes as).getLastD headp := fun e => hnew (e ▸ hlast)
  have hpf : p ≠ (cellNodes bs).headD headp := fun e => hnew (e ▸ hfirst)
  refine ⟨m', hm', ⟨?_, ?_, ?_⟩, w.data, w.fresh, ?_⟩
  · rw [cellNodes_append, cellNodes_cons, w.forw, w.back]
    rw [cellNodes_append] at hnew
    apply hring.insert hnew
    · rw [Function.update_self]
    · rw [Function.update_of_ne hpl.symm, Function.update_self]
    · intro x hx hxl
      rw [Function.update_of_ne hx, Function.update_of_ne hxl]
    · rw [Function.update_self]
    · rw [Function.update_of_ne hpf.symm, Function.update_self]
    · intro x hx hxf
      rw [Function.update_of_ne hx, Function.update_of_ne hxf]
  · rw [w.data]
    exact h.head
  · intro c hc
    rw [w.data]
    rw [List.mem_append, List.mem_cons] at hc
    obtain hc | rfl | hc := hc
    · exact h.data c (List.mem_append_left _ hc)
    · exact hp
    · exact h.data c (List.mem_append_right _ hc)
  · intro x hx
    rw [List.mem_cons, not_or] at hx
    have hxl : x ≠ (cellNodes as).getLastD headp := fun e => hx.2 (e ▸ hlast)
    have hxf : x ≠ (cellNodes bs).headD headp := fun e => hx.2 (e ▸ hfirst)
    rw [w.forw, w.back, Function.update_of_ne hx.1, Function.update_of_ne hxl,
      Function.update_of_ne hx.1, Function.update_of_ne hxf]
    exact ⟨rfl, rfl⟩

/-- `remque` takes the node between `as` and `bs` out; what it points to stays. -/
theorem Holds.remque (h : m.Holds headp (as ++ (p, a) :: bs)) :
    ∃ m', remque m p = some m' ∧ m'.Holds headp (as ++ bs) ∧ m'.data = m.data ∧
      m'.fresh = m.fresh ∧
      ∀ x, x ∉ headp :: cellNodes (as ++ bs) → m'.forw x = m.forw x ∧ m'.back x = m.back x := by
  have hring := h.ring
  rw [cellNodes_append, cellNodes_cons] at hring
  have hlast := getLastD_mem_cells headp as bs
  have hfirst := headD_mem_cells headp as bs
  have hsub : ∀ x ∈ headp :: cellNodes (as ++ bs),
      x ∈ headp :: cellNodes (as ++ (p, a) :: bs) := by
    intro x hx
    simp only [cellNodes_append, cellNodes_cons, List.mem_cons, List.mem_append] at hx ⊢
    tauto
  obtain ⟨b, hb⟩ := h.data_mem (hsub _ hfirst)
  obtain ⟨c, hc⟩ := h.data_mem (hsub _ hlast)
  have hforw : m.forw p = some ((cellNodes bs).headD headp) := by
    rw [List.append_cons] at hring
    have hnext := hring.next_last
    rwa [LinkedRing.getLastD_append_cons] at hnext
  have hback : m.back p = some ((cellNodes as).getLastD headp) := hring.prev_first
  obtain ⟨m', hm', w⟩ := remque_some hforw hback hb hc
  refine ⟨m', hm', ⟨?_, ?_, ?_⟩, w.data, w.fresh, ?_⟩
  · rw [cellNodes_append, w.forw, w.back]
    apply hring.remove
    · rw [Function.update_self]
    · intro x _ hx
      rw [Function.update_of_ne hx]
    · rw [Function.update_self]
    · intro x _ hx
      rw [Function.update_of_ne hx]
  · rw [w.data]
    exact h.head
  · intro c hc
    rw [w.data]
    apply h.data
    rw [List.mem_append] at hc ⊢
    exact hc.imp id (List.mem_cons_of_mem _)
  · intro x hx
    have hxl : x ≠ (cellNodes as).getLastD headp := fun e => hx (e ▸ hlast)
    have hxf : x ≠ (cellNodes bs).headD headp := fun e => hx (e ▸ hfirst)
    rw [w.forw, w.back, Function.update_of_ne hxl, Function.update_of_ne hxf]
    exact ⟨rfl, rfl⟩

end ClMem

end Spegla
