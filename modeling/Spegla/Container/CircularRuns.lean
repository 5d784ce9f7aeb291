import Mathlib.Data.List.TakeWhile
import Spegla.Container.CircularList

/-!
# Runs of circular lists (`container.c`)

- `ClMem.Lists`: a list in memory, and the next address. Each operation leaves the list that the
  same operation on a sequence of cells gives.
- `visits_forward`, `visits_back`: what repeated calls of `cl_walk` and `cl_walk_back` visit.
- `clRun_ring`: any run of operations from `cl_init` does what they do on a sequence.
- `clSort_sorts`: `cl_sort` sorts, and keeps the order of elements that compare equal.
-/

namespace Spegla

variable {α : Type} {m m' : ClMem α} {headp p fresh : Nat} {a : α}
variable {cells as bs : List (Nat × α)}

/-! ## Allocations -/

namespace ClMem

theorem Fits.congr (hm : m.Fits) (hdata : m'.data = m.data) (hfresh : m'.fresh = m.fresh) :
    m'.Fits := by
  constructor
  · rw [hdata]
    exact hm.null
  · rw [hfresh]
    exact hm.above_null
  · rw [hdata, hfresh]
    exact hm.unused

theorem Fits.malloc (hm : m.Fits) : (m.malloc a).Fits := by
  constructor
  · rw [malloc_data (Nat.ne_of_lt hm.above_null)]
    exact hm.null
  · exact Nat.lt_succ_of_lt hm.above_null
  · intro p hp
    have hlt : m.fresh < p := hp
    rw [malloc_data (Nat.ne_of_gt hlt)]
    exact hm.unused p (Nat.le_of_lt hlt)

theorem Holds.fresh_notMem (h : m.Holds headp cells) (hm : m.Fits) :
    m.fresh ∉ headp :: cellNodes cells :=
  fun hmem => Nat.lt_irrefl _ (h.lt_fresh hm hmem)

theorem Holds.malloc (h : m.Holds headp cells) (hm : m.Fits) :
    (m.malloc a).Holds headp cells := by
  apply h.congr
  intro p hp
  have hne : p ≠ m.fresh := Nat.ne_of_lt (h.lt_fresh hm hp)
  exact ⟨malloc_forw hne, malloc_back hne, malloc_data hne⟩

end ClMem

/-- The list `headp` with `cells`, where `fresh` is the next address. -/
structure ClMem.Lists (m : ClMem α) (headp : Nat) (cells : List (Nat × α)) (fresh : Nat) :
    Prop where
  holds : m.Holds headp cells
  fits : m.Fits
  fresh_eq : m.fresh = fresh

namespace ClMem.Lists

/-- `insque` of a new node. -/
theorem put (h : m.Lists headp (as ++ bs) fresh) (a : α) :
    ∃ m', insque (m.malloc a) fresh ((cellNodes as).getLastD headp) = some m' ∧
      m'.Lists headp (as ++ (fresh, a) :: bs) (fresh + 1) := by
  obtain rfl := h.fresh_eq
  have hfits := h.fits.malloc (a := a)
  obtain ⟨m', hm', hholds, hdata, hfresh, -⟩ :=
    (h.holds.malloc (a := a) h.fits).insque malloc_data_fresh (h.holds.fresh_notMem h.fits)
  exact ⟨m', hm', hholds, hfits.congr hdata hfresh, hfresh⟩

theorem clPush (h : m.Lists headp cells fresh) (a : α) :
    ∃ m', clPush m headp a = some m' ∧ m'.Lists headp ((fresh, a) :: cells) (fresh + 1) := by
  obtain ⟨m', hm', h'⟩ := put (show m.Lists headp ([] ++ cells) fresh from h) a
  refine ⟨m', ?_, h'⟩
  rw [Spegla.clPush, h.fresh_eq]
  exact hm'

theorem back_malloc (h : m.Lists headp (as ++ bs) fresh) (a : α) :
    (m.malloc a).back ((cellNodes bs).headD headp) = some ((cellNodes as).getLastD headp) := by
  have hring := (h.holds.malloc (a := a) h.fits).ring
  rw [cellNodes_append] at hring
  exact hring.prev_first

theorem clTailPush (h : m.Lists headp cells fresh) (a : α) :
    ∃ m', clTailPush m headp a = some m' ∧
      m'.Lists headp (cells ++ [(fresh, a)]) (fresh + 1) := by
  rw [← List.append_nil cells] at h
  obtain ⟨m', hm', h'⟩ := h.put a
  refine ⟨m', ?_, h'⟩
  have hback : (m.malloc a).back headp = some ((cellNodes cells).getLastD headp) :=
    h.back_malloc a
  rw [Spegla.clTailPush, hback, h.fresh_eq]
  exact hm'

/-- A new node behind the one at a position. -/
theorem clInsAfterPos {b : α} (h : m.Lists headp (as ++ (p, b) :: bs) fresh) (a : α) :
    ∃ m', clInsAfterPos m p a = some (m', fresh) ∧
      m'.Lists headp (as ++ (p, b) :: (fresh, a) :: bs) (fresh + 1) := by
  rw [List.append_cons] at h
  obtain ⟨m', hm', h'⟩ := h.put a
  have hlast : (cellNodes (as ++ [(p, b)])).getLastD headp = p := by
    rw [cellNodes_append, cellNodes_cons, LinkedRing.getLastD_append_cons]
    rfl
  have hring := h'.holds.ring
  rw [cellNodes_append] at hring
  have hforw := hring.next_last
  rw [hlast] at hm' hforw
  rw [List.append_assoc, List.singleton_append] at h'
  refine ⟨m', ?_, h'⟩
  have hpush : Spegla.clPush m p a = some m' := by
    rw [Spegla.clPush, h.fresh_eq]
    exact hm'
  rw [Spegla.clInsAfterPos, hpush]
  show (m'.forw p).bind (fun q => some (m', q)) = some (m', fresh)
  rw [hforw]
  rfl

/-- A new node behind the head. -/
theorem clInsAfterPos_head (h : m.Lists headp cells fresh) (a : α) :
    ∃ m', Spegla.clInsAfterPos m headp a = some (m', fresh) ∧
      m'.Lists headp ((fresh, a) :: cells) (fresh + 1) := by
  obtain ⟨m', hm', h'⟩ := h.clPush a
  refine ⟨m', ?_, h'⟩
  rw [Spegla.clInsAfterPos, hm']
  show (m'.forw headp).bind (fun q => some (m', q)) = some (m', fresh)
  rw [h'.holds.ring.next_eq]
  rfl

/-! ## Nodes that are taken out -/

theorem remque_free (h : m.Lists headp (as ++ (p, a) :: bs) fresh) :
    ∃ m₁ m₂, remque m p = some m₁ ∧ m₁.data p = some a ∧ m₁.free p = some m₂ ∧
      m₂.Lists headp (as ++ bs) fresh := by
  have hp : m.data p = some a := h.holds.data (p, a) (by simp)
  obtain ⟨m₁, hm₁, hholds, hdata, hfresh, -⟩ := h.holds.remque
  rw [← hdata] at hp
  obtain ⟨m₂, hm₂, hfresh₂, hnone, hsame⟩ := free_some hp
  have hfits := h.fits.congr hdata hfresh
  have hnotMem : p ∉ headp :: cellNodes (as ++ bs) := by
    have hd := h.holds.ring.distinct
    rw [cellNodes_append, cellNodes_cons, ← List.cons_append, List.nodup_middle] at hd
    rw [cellNodes_append, ← List.cons_append]
    exact (List.nodup_cons.mp hd).1
  have hdataAt : ∀ x, m₁.data x = none → m₂.data x = none := by
    intro x hx
    by_cases hxp : x = p
    · rw [hxp, hnone]
    · rw [(hsame x hxp).2.2, hx]
  refine ⟨m₁, m₂, hm₁, hp, hm₂, ?_, ⟨hdataAt _ hfits.null, ?_, fun x hx => ?_⟩, ?_⟩
  · exact hholds.congr fun x hx => hsame x fun e => hnotMem (e ▸ hx)
  · rw [hfresh₂]
    exact hfits.above_null
  · exact hdataAt x (hfits.unused x (hfresh₂ ▸ hx))
  · rw [hfresh₂, hfresh, h.fresh_eq]

theorem clTake (h : m.Lists headp (as ++ (p, a) :: bs) fresh) :
    ∃ m', clTake m p = some (m', ⟨0, some a⟩) ∧ m'.Lists headp (as ++ bs) fresh := by
  obtain ⟨m₁, m₂, hm₁, hp, hm₂, h'⟩ := h.remque_free
  refine ⟨m₂, ?_, h'⟩
  simp only [Spegla.clTake, hm₁, hp, hm₂, Option.bind_eq_bind, Option.bind_some, Option.pure_def]

theorem forw_head (h : m.Lists headp cells fresh) :
    m.forw headp = some ((cellNodes cells).headD headp) := h.holds.ring.next_eq

theorem clPop_nil (h : m.Lists headp [] fresh) : clPop m headp = some (m, ⟨-1, none⟩) := by
  rw [clPop, if_neg (h.holds.ne_null h.fits), h.forw_head]
  exact if_pos rfl

theorem ne_head (h : m.Lists headp (as ++ (p, a) :: bs) fresh) : p ≠ headp := by
  rintro rfl
  apply (List.nodup_cons.mp h.holds.ring.distinct).1
  simp

theorem clPop_cons (h : m.Lists headp ((p, a) :: cells) fresh) :
    ∃ m', clPop m headp = some (m', ⟨0, some a⟩) ∧ m'.Lists headp cells fresh := by
  have hcells : m.Lists headp ([] ++ (p, a) :: cells) fresh := h
  obtain ⟨m', hm', h'⟩ := hcells.clTake
  refine ⟨m', ?_, h'⟩
  rw [clPop, if_neg (h.holds.ne_null h.fits), h.forw_head]
  exact (if_neg hcells.ne_head).trans hm'

theorem back_head (h : m.Lists headp cells fresh) :
    m.back headp = some ((cellNodes cells).getLastD headp) := h.holds.ring.prev_eq

theorem clTailPop_nil (h : m.Lists headp [] fresh) :
    clTailPop m headp = some (m, ⟨-1, none⟩) := by
  rw [clTailPop, if_neg (h.holds.ne_null h.fits), h.back_head]
  exact if_pos rfl

theorem clTailPop_last (h : m.Lists headp (cells ++ [(p, a)]) fresh) :
    ∃ m', clTailPop m headp = some (m', ⟨0, some a⟩) ∧ m'.Lists headp cells fresh := by
  obtain ⟨m', hm', h'⟩ := h.clTake
  rw [List.append_nil] at h'
  refine ⟨m', ?_, h'⟩
  have hback := h.back_head
  rw [cellNodes_append, cellNodes_cons, LinkedRing.getLastD_append_cons] at hback
  rw [clTailPop, if_neg (h.holds.ne_null h.fits), hback]
  exact (if_neg h.ne_head).trans hm'

end ClMem.Lists

/-! ## Searches -/

/-- The search goes through the nodes up to the first one whose data stops it. -/
theorem clSearch_some {stop : α → Bool} (hlink : Linked m.forw p (cellNodes cells) headp)
    (hhead : headp ∉ cellNodes cells) (hdata : ∀ c ∈ cells, m.data c.1 = some c.2) {fuel : Nat}
    (hfuel : cells.length < fuel) :
    clSearch m headp stop fuel ((cellNodes cells).headD headp) =
      some ((cellNodes (cells.dropWhile fun c => !stop c.2)).headD headp) := by
  induction cells generalizing p fuel with
  | nil =>
    cases fuel with
    | zero => exact absurd hfuel (Nat.not_lt_zero _)
    | succ fuel => exact if_pos rfl
  | cons c cells ih =>
    cases fuel with
    | zero => exact absurd hfuel (Nat.not_lt_zero _)
    | succ fuel =>
      rw [cellNodes_cons, List.mem_cons, not_or] at hhead
      have hc : m.data c.1 = some c.2 := hdata c (List.mem_cons_self ..)
      show clSearch m headp stop (fuel + 1) c.1 = _
      rw [clSearch, if_neg (Ne.symm hhead.1), hc]
      show (if stop c.2 = true then some c.1 else _) = _
      by_cases hstop : stop c.2
      · rw [if_pos hstop, List.dropWhile_cons_of_neg (by simp [hstop])]
        rfl
      · rw [if_neg hstop, List.dropWhile_cons_of_pos (by simp [hstop]), hlink.2.head]
        exact ih hlink.2 hhead.2 (fun d hd => hdata d (List.mem_cons_of_mem _ hd))
          (Nat.lt_of_succ_lt_succ hfuel)

theorem ClMem.Holds.clSearch_first (h : m.Holds headp cells) (hm : m.Fits) (stop : α → Bool) :
    clSearch m headp stop m.fresh ((cellNodes cells).headD headp) =
      some ((cellNodes (cells.dropWhile fun c => !stop c.2)).headD headp) :=
  clSearch_some h.ring.forward (List.nodup_cons.mp h.ring.distinct).1 h.data (h.length_lt hm)

/-- `comp` does not say that the first is larger. -/
def NotAbove (comp : α → α → Int) (c d : Nat × α) : Prop := comp c.2 d.2 ≤ 0

instance (comp : α → α → Int) : DecidableRel (NotAbove comp) :=
  fun c d => inferInstanceAs (Decidable (comp c.2 d.2 ≤ 0))

variable {comp : α → α → Int}

variable (comp) in
/-- A node goes in front of the first one that is larger. -/
theorem ClMem.Holds.clInsSortNomalloc (h : m.Holds headp cells) (hm : m.Fits)
    (hp : m.data p = some a) (hnew : p ∉ headp :: cellNodes cells) :
    ∃ m', clInsSortNomalloc m headp p comp = some m' ∧
      m'.Holds headp (insertBehind (NotAbove comp) (p, a) cells) ∧ m'.data = m.data ∧
      m'.fresh = m.fresh ∧
      ∀ x, x ∉ p :: headp :: cellNodes cells → m'.forw x = m.forw x ∧ m'.back x = m.back x := by
  have hsearch := h.clSearch_first hm fun b => decide (comp b a > 0)
  have hdrop : (cells.dropWhile fun c => !decide (comp c.2 a > 0)) =
      cells.dropWhile fun c => NotAbove comp c (p, a) := by
    congr 1
    funext c
    rw [← decide_not]
    exact decide_eq_decide.mpr Int.not_lt
  rw [hdrop] at hsearch
  rw [← cells.takeWhile_append_dropWhile (p := fun c => NotAbove comp c (p, a))] at h hnew
  obtain ⟨m', hm', hholds, hdata, hfresh, hframe⟩ := h.insque hp hnew
  have hring := h.ring
  rw [cellNodes_append] at hring
  rw [List.takeWhile_append_dropWhile] at h hframe
  refine ⟨m', ?_, hholds, hdata, hfresh, hframe⟩
  simp only [Spegla.clInsSortNomalloc, hp, h.ring.next_eq, hsearch, hring.prev_first, hm',
    Option.bind_eq_bind, Option.bind_some]

namespace ClMem.Lists

variable (comp) in
theorem clInsSort (h : m.Lists headp cells fresh) (a : α) :
    ∃ m', clInsSort m headp a comp = some m' ∧
      m'.Lists headp (insertBehind (NotAbove comp) (fresh, a) cells) (fresh + 1) := by
  cases cells with
  | nil =>
    obtain ⟨m', hm', h'⟩ := h.clPush a
    refine ⟨m', ?_, h'⟩
    have hforw := (h.holds.malloc (a := a) h.fits).ring.next_eq
    simp only [Spegla.clInsSort, hforw, Option.bind_eq_bind, Option.bind_some]
    exact (if_pos rfl).trans hm'
  | cons c cells =>
    obtain rfl := h.fresh_eq
    have hholds := h.holds.malloc (a := a) h.fits
    have hfits := h.fits.malloc (a := a)
    obtain ⟨m', hm', hholds', hdata, hfresh, -⟩ := hholds.clInsSortNomalloc comp hfits
      malloc_data_fresh (h.holds.fresh_notMem h.fits)
    refine ⟨m', ?_, hholds', hfits.congr hdata hfresh, hfresh⟩
    have hne : c.1 ≠ headp := ne_head (show m.Lists headp ([] ++ c :: cells) m.fresh from h)
    simp only [Spegla.clInsSort, hholds.ring.next_eq, Option.bind_eq_bind, Option.bind_some]
    exact (if_neg hne).trans hm'

variable {isData : α → Bool}

theorem clFindPos_none (h : m.Lists headp cells fresh) (hnone : ∀ c ∈ cells, isData c.2 = false) :
    clFindPos m headp isData = some none := by
  have hsearch := h.holds.clSearch_first h.fits isData
  have hdrop : (cells.dropWhile fun c => !isData c.2) = [] := by
    rw [List.dropWhile_eq_nil_iff]
    intro c hc
    rw [hnone c hc]
    rfl
  rw [hdrop] at hsearch
  rw [clFindPos, h.forw_head]
  simp only [Option.bind_eq_bind, Option.bind_some, hsearch]
  exact if_pos rfl

/-- The first element for which the predicate holds. -/
theorem clFindPos_some (h : m.Lists headp (as ++ (p, a) :: bs) fresh)
    (hbefore : ∀ c ∈ as, isData c.2 = false) (ha : isData a = true) :
    clFindPos m headp isData = some (some (p, a)) := by
  have hsearch := h.holds.clSearch_first h.fits isData
  have hdrop : ((as ++ (p, a) :: bs).dropWhile fun c => !isData c.2) = (p, a) :: bs := by
    rw [List.dropWhile_append_of_pos fun c hc => by rw [hbefore c hc]; rfl]
    exact List.dropWhile_cons_of_neg (by simp [ha])
  rw [hdrop] at hsearch
  have hdata : m.data p = some a := h.holds.data (p, a) (by simp)
  rw [clFindPos, h.forw_head]
  simp only [Option.bind_eq_bind, Option.bind_some, hsearch, cellNodes_cons, List.headD_cons,
    if_neg h.ne_head, clAt, hdata]
  rfl

theorem clRemPos (h : m.Lists headp (as ++ (p, a) :: bs) fresh) :
    ∃ m', clRemPos m p = some (m', 0) ∧ m'.Lists headp (as ++ bs) fresh := by
  obtain ⟨m₁, m₂, hm₁, -, hm₂, h'⟩ := h.remque_free
  refine ⟨m₂, ?_, h'⟩
  have hring := h.holds.ring
  rw [cellNodes_append, cellNodes_cons] at hring
  have hturn := hring.turn
  have hne : p ≠ (cellNodes bs ++ headp :: cellNodes as).headD p := by
    have hnotMem := (List.nodup_cons.mp hturn.distinct).1
    cases bs with
    | nil => exact h.ne_head
    | cons b bs =>
      intro he
      have he : p = b.1 := he
      apply hnotMem
      rw [he]
      exact List.mem_cons_self ..
  simp only [Spegla.clRemPos, hturn.next_eq, hm₁, hm₂, Option.bind_eq_bind, Option.bind_some,
    Option.pure_def, if_neg hne]

theorem clRem_none (h : m.Lists headp cells fresh) (hnone : ∀ c ∈ cells, isData c.2 = false) :
    clRem m headp isData = some (m, ⟨-1, none⟩) := by
  rw [clRem, h.clFindPos_none hnone]
  rfl

theorem clRem_some (h : m.Lists headp (as ++ (p, a) :: bs) fresh)
    (hbefore : ∀ c ∈ as, isData c.2 = false) (ha : isData a = true) :
    ∃ m', clRem m headp isData = some (m', ⟨0, some a⟩) ∧ m'.Lists headp (as ++ bs) fresh := by
  obtain ⟨m', hm', h'⟩ := h.clRemPos
  refine ⟨m', ?_, h'⟩
  simp only [clRem, h.clFindPos_some hbefore ha, hm', Option.bind_eq_bind, Option.bind_some,
    Option.pure_def]

end ClMem.Lists

/-! ## Walks -/

/-- The data that repeated calls visit from a position on, until one of them fails; undefined where
none of the first calls does. -/
def clVisits (walk : Option Nat → Option (Option (Nat × α))) : Nat → Option Nat → Option (List α)
  | 0, _ => none
  | calls + 1, pos => do
    match ← walk pos with
    | none => return []
    | some (p, data) => return data :: (← clVisits walk calls (some p))

/-- The position at the end of `as`, where a walk over `as` has got to. -/
def behindCells (as : List (Nat × α)) : Option Nat := as.getLast?.map Prod.fst

/-- The position of the first cell. -/
def beforeCells (bs : List (Nat × α)) : Option Nat := bs.head?.map Prod.fst

namespace ClMem.Holds

theorem notMem_head (h : m.Holds headp cells) {c : Nat × α} (hc : c ∈ cells) : c.1 ≠ headp := by
  intro he
  apply (List.nodup_cons.mp h.ring.distinct).1
  rw [← he]
  exact List.mem_map_of_mem hc

/-- `cl_walk` gives the first cell of what is left. -/
theorem clWalk_behind (h : m.Holds headp (as ++ bs)) (hm : m.Fits) :
    clWalk m headp (behindCells as) = some bs.head? := by
  have hring := h.ring
  rw [cellNodes_append] at hring
  have hforw := hring.next_last
  have hstep : (if (cellNodes bs).headD headp = headp then some none
      else clAt m (some ((cellNodes bs).headD headp))) = some bs.head? := by
    cases bs with
    | nil => exact if_pos rfl
    | cons b bs =>
      have hb : b ∈ as ++ b :: bs := by simp
      have hdata : m.data b.1 = some b.2 := h.data b hb
      show (if b.1 = headp then _ else clAt m (some b.1)) = _
      rw [if_neg (h.notMem_head hb), clAt, hdata]
      rfl
  cases as using List.reverseRecOn with
  | nil =>
    have hforw : m.forw headp = some ((cellNodes bs).headD headp) := hforw
    show clPeek m headp = _
    rw [← hstep, clPeek, clPeekPos, if_neg (h.ne_null hm), hforw]
    simp only [Option.bind_eq_bind, Option.bind_some]
    split <;> rfl
  | append_singleton as c _ =>
    have hlast : (cellNodes (as ++ [c])).getLastD headp = c.1 := by
      rw [cellNodes_append, cellNodes_cons, LinkedRing.getLastD_append_cons]
      rfl
    have hpos : behindCells (as ++ [c]) = some c.1 := by simp [behindCells]
    rw [hlast] at hforw
    have hc : c.1 ≠ headp := h.notMem_head (by simp)
    rw [hpos, clWalk, if_neg hc, hforw]
    exact hstep

/-- `cl_walk_back` gives the last cell of what is left. -/
theorem clWalkBack_before (h : m.Holds headp (as ++ bs)) (hm : m.Fits) :
    clWalkBack m headp (beforeCells bs) = some as.getLast? := by
  have hring := h.ring
  rw [cellNodes_append] at hring
  have hback := hring.prev_first
  have hstep : (if (cellNodes as).getLastD headp = headp then some none
      else clAt m (some ((cellNodes as).getLastD headp))) = some as.getLast? := by
    cases as using List.reverseRecOn with
    | nil => exact if_pos rfl
    | append_singleton as c _ =>
      have hc : c ∈ (as ++ [c]) ++ bs := by simp
      have hdata : m.data c.1 = some c.2 := h.data c hc
      rw [cellNodes_append, cellNodes_cons, LinkedRing.getLastD_append_cons]
      show (if c.1 = headp then _ else clAt m (some c.1)) = _
      rw [if_neg (h.notMem_head hc), clAt, hdata, List.getLast?_append]
      rfl
  cases bs with
  | nil =>
    have hback : m.back headp = some ((cellNodes as).getLastD headp) := hback
    show clTailPeek m headp = _
    rw [← hstep, clTailPeek, clTailPeekPos, if_neg (h.ne_null hm), hback]
    simp only [Option.bind_eq_bind, Option.bind_some]
    split <;> rfl
  | cons b bs =>
    have hback : m.back b.1 = some ((cellNodes as).getLastD headp) := hback
    show clWalkBack m headp (some b.1) = _
    rw [clWalkBack, if_neg (h.notMem_head (by simp)), hback]
    exact hstep

/-- The calls of `cl_walk` visit the elements in order, and then one fails. -/
theorem visits_forward (h : m.Holds headp (as ++ bs)) (hm : m.Fits) :
    clVisits (clWalk m headp) (bs.length + 1) (behindCells as) = some (bs.map Prod.snd) := by
  induction bs generalizing as with
  | nil => rw [clVisits, h.clWalk_behind hm]; rfl
  | cons b bs ih =>
    rw [List.append_cons] at h
    have hrest := ih h
    have hpos : behindCells (as ++ [b]) = some b.1 := by simp [behindCells]
    rw [List.append_assoc, List.singleton_append] at h
    rw [hpos] at hrest
    rw [clVisits, h.clWalk_behind hm]
    show (clVisits (clWalk m headp) (bs.length + 1) (some b.1)).bind _ = _
    rw [hrest]
    rfl

/-- The calls of `cl_walk_back` visit them the other way round. -/
theorem visits_back (h : m.Holds headp (as ++ bs)) (hm : m.Fits) :
    clVisits (clWalkBack m headp) (as.length + 1) (beforeCells bs) =
      some (as.map Prod.snd).reverse := by
  induction as using List.reverseRecOn generalizing bs with
  | nil => rw [List.length_nil, clVisits, h.clWalkBack_before hm]; rfl
  | append_singleton as c ih =>
    have hwalk := h.clWalkBack_before hm
    rw [List.append_assoc, List.singleton_append] at h
    have hrest : clVisits (clWalkBack m headp) (as.length + 1) (some c.1) = _ := ih h
    have hc : (as ++ [c]).getLast? = some c := by simp
    rw [List.length_append, List.length_singleton, clVisits, hwalk, hc]
    show (clVisits (clWalkBack m headp) (as.length + 1) (some c.1)).bind _ = _
    rw [hrest]
    simp

end ClMem.Holds

/-! ## Runs -/

/-- The operations; `insAfterPos` with the position it is given. -/
inductive ClOp (α : Type) where
  | push (data : α)
  | tailPush (data : α)
  | pop
  | tailPop
  | insSort (data : α) (comp : α → α → Int)
  | insAfterPos (pos : Nat) (data : α)
  | rem (isData : α → Bool)

/-- A call on the list `headp`. -/
def clCall (headp : Nat) : ClOp α → ClMem α → Option (ClMem α × ClRes α)
  | .push data, m => do return (← clPush m headp data, ⟨0, none⟩)
  | .tailPush data, m => do return (← clTailPush m headp data, ⟨0, none⟩)
  | .pop, m => clPop m headp
  | .tailPop, m => clTailPop m headp
  | .insSort data comp, m => do return (← clInsSort m headp data comp, ⟨0, none⟩)
  | .insAfterPos pos data, m => do return ((← clInsAfterPos m pos data).1, ⟨0, none⟩)
  | .rem isData, m => clRem m headp isData

/-- A double-ended sequence of cells, and the next address. -/
structure ClSeq (α : Type) where
  cells : List (Nat × α)
  fresh : Nat

/-- `d` behind the cell at `pos`. -/
def insertAfter (pos : Nat) (d : Nat × α) : List (Nat × α) → Option (List (Nat × α))
  | [] => none
  | c :: cells =>
    if c.1 = pos then some (c :: d :: cells) else (insertAfter pos d cells).map (c :: ·)

/-- The same operation on a sequence. A position must be the one of the head or of an element. -/
def seqCall (headp : Nat) : ClOp α → ClSeq α → Option (ClSeq α × ClRes α)
  | .push data, s => some (⟨(s.fresh, data) :: s.cells, s.fresh + 1⟩, ⟨0, none⟩)
  | .tailPush data, s => some (⟨s.cells ++ [(s.fresh, data)], s.fresh + 1⟩, ⟨0, none⟩)
  | .pop, s =>
    match s.cells with
    | [] => some (s, ⟨-1, none⟩)
    | c :: cells => some (⟨cells, s.fresh⟩, ⟨0, some c.2⟩)
  | .tailPop, s =>
    match s.cells.getLast? with
    | none => some (s, ⟨-1, none⟩)
    | some c => some (⟨s.cells.dropLast, s.fresh⟩, ⟨0, some c.2⟩)
  | .insSort data comp, s =>
    some (⟨insertBehind (NotAbove comp) (s.fresh, data) s.cells, s.fresh + 1⟩, ⟨0, none⟩)
  | .insAfterPos pos data, s => do
    if pos = headp then return (⟨(s.fresh, data) :: s.cells, s.fresh + 1⟩, ⟨0, none⟩)
    else return (⟨← insertAfter pos (s.fresh, data) s.cells, s.fresh + 1⟩, ⟨0, none⟩)
  | .rem isData, s =>
    match s.cells.find? (fun c => isData c.2) with
    | none => some (s, ⟨-1, none⟩)
    | some c => some (⟨s.cells.eraseP (fun c => isData c.2), s.fresh⟩, ⟨0, some c.2⟩)

/-- The calls of a run, with their results. -/
def runCalls {σ : Type} (call : ClOp α → σ → Option (σ × ClRes α)) :
    List (ClOp α) → σ → Option (σ × List (ClRes α))
  | [], s => some (s, [])
  | op :: ops, s => do
    let (s, res) ← call op s
    let (s, results) ← runCalls call ops s
    return (s, res :: results)

theorem insertAfter_some {pos : Nat} {d : Nat × α} {cells' : List (Nat × α)}
    (h : insertAfter pos d cells = some cells') :
    ∃ as b bs, cells = as ++ (pos, b) :: bs ∧ cells' = as ++ (pos, b) :: d :: bs := by
  induction cells generalizing cells' with
  | nil => cases h
  | cons c cells ih =>
    rw [insertAfter] at h
    split at h
    case isTrue hc =>
      cases h
      obtain ⟨p, b⟩ := c
      obtain rfl : p = pos := hc
      exact ⟨[], b, cells, rfl, rfl⟩
    case isFalse =>
      obtain ⟨rest, hrest, rfl⟩ := Option.map_eq_some_iff.mp h
      obtain ⟨as, b, bs, rfl, rfl⟩ := ih hrest
      exact ⟨c :: as, b, bs, rfl, rfl⟩

/-- A call leaves what it leaves of the sequence, and returns the same. -/
theorem ClMem.Lists.call {s s' : ClSeq α} {res : ClRes α} (h : m.Lists headp s.cells s.fresh)
    (op : ClOp α) (hop : seqCall headp op s = some (s', res)) :
    ∃ m', clCall headp op m = some (m', res) ∧ m'.Lists headp s'.cells s'.fresh := by
  cases op with
  | push data =>
    cases hop
    obtain ⟨m', hm', h'⟩ := h.clPush data
    exact ⟨m', by rw [clCall, hm']; rfl, h'⟩
  | tailPush data =>
    cases hop
    obtain ⟨m', hm', h'⟩ := h.clTailPush data
    exact ⟨m', by rw [clCall, hm']; rfl, h'⟩
  | pop =>
    obtain ⟨cells, fresh⟩ := s
    cases cells with
    | nil =>
      cases hop
      exact ⟨m, h.clPop_nil, h⟩
    | cons c cells =>
      cases hop
      exact h.clPop_cons
  | tailPop =>
    obtain ⟨cells, fresh⟩ := s
    cases cells using List.reverseRecOn with
    | nil =>
      cases hop
      exact ⟨m, h.clTailPop_nil, h⟩
    | append_singleton cells c _ =>
      rw [seqCall, List.getLast?_concat, List.dropLast_concat] at hop
      cases hop
      exact h.clTailPop_last
  | insSort data comp =>
    cases hop
    obtain ⟨m', hm', h'⟩ := h.clInsSort comp data
    exact ⟨m', by rw [clCall, hm']; rfl, h'⟩
  | insAfterPos pos data =>
    rw [seqCall] at hop
    split at hop
    case isTrue hpos =>
      cases hop
      obtain ⟨m', hm', h'⟩ := h.clInsAfterPos_head data
      exact ⟨m', by rw [clCall, hpos, hm']; rfl, h'⟩
    case isFalse =>
      obtain ⟨cells', hcells', hop⟩ := Option.bind_eq_some_iff.mp hop
      cases hop
      obtain ⟨as, b, bs, hcells, rfl⟩ := insertAfter_some hcells'
      rw [hcells] at h
      obtain ⟨m', hm', h'⟩ := h.clInsAfterPos data
      exact ⟨m', by rw [clCall, hm']; rfl, h'⟩
  | rem isData =>
    rw [seqCall] at hop
    cases hfind : s.cells.find? fun c => isData c.2 with
    | none =>
      rw [hfind] at hop
      cases hop
      refine ⟨m, h.clRem_none fun c hc => ?_, h⟩
      exact Bool.eq_false_iff.mpr (List.find?_eq_none.mp hfind c hc)
    | some c =>
      rw [hfind] at hop
      cases hop
      -- the first cell with the property is taken out
      obtain ⟨hc, as, bs, hcells, hbefore⟩ := List.find?_eq_some_iff_append.mp hfind
      have hbefore : ∀ d ∈ as, isData d.2 = false := by
        intro d hd
        exact Bool.not_eq_true' _ |>.mp (hbefore d hd)
      rw [hcells] at h
      obtain ⟨m', hm', h'⟩ := h.clRem_some hbefore hc
      refine ⟨m', hm', ?_⟩
      show m'.Lists headp (s.cells.eraseP fun c => isData c.2) s.fresh
      have herase : (c :: bs).eraseP (fun d => isData d.2) = bs := List.eraseP_cons_of_pos hc
      rw [hcells, List.eraseP_append_right _ fun d hd => by simp [hbefore d hd], herase]
      exact h'

/-- A run of calls leaves what it leaves of the sequence. -/
theorem ClMem.Lists.run {s s' : ClSeq α} {results : List (ClRes α)}
    (h : m.Lists headp s.cells s.fresh) (ops : List (ClOp α))
    (hops : runCalls (seqCall headp) ops s = some (s', results)) :
    ∃ m', runCalls (clCall headp) ops m = some (m', results) ∧
      m'.Lists headp s'.cells s'.fresh := by
  induction ops generalizing m s results with
  | nil =>
    cases hops
    exact ⟨m, rfl, h⟩
  | cons op ops ih =>
    obtain ⟨⟨s₁, res⟩, hop, hops⟩ := Option.bind_eq_some_iff.mp hops
    obtain ⟨⟨s₂, rest⟩, hrest, hops⟩ := Option.bind_eq_some_iff.mp hops
    cases hops
    obtain ⟨m₁, hm₁, h₁⟩ := h.call op hop
    obtain ⟨m₂, hm₂, h₂⟩ := ih h₁ hrest
    refine ⟨m₂, ?_, h₂⟩
    simp only [runCalls, hm₁, hm₂, Option.bind_eq_bind, Option.bind_some, Option.pure_def]

/-- `cl_init` makes an empty list. -/
theorem clInit_lists (hm : m.Fits) (null : α) :
    ∃ m', clInit m null = some (m', m.fresh) ∧ m'.Lists m.fresh [] (m.fresh + 1) := by
  obtain ⟨m₁, h₁, w₁⟩ := ClMem.setForw_some (m := m.malloc null) ClMem.malloc_data_fresh m.fresh
  obtain ⟨m₂, h₂, w₂⟩ := ClMem.setBack_some (m := m₁) (p := m.fresh)
    (by rw [w₁.data, ClMem.malloc_data_fresh]) m.fresh
  have hdata : m₂.data = (m.malloc null).data := w₂.data.trans w₁.data
  have hfresh : m₂.fresh = (m.malloc null).fresh := w₂.fresh.trans w₁.fresh
  refine ⟨m₂, ?_, ⟨⟨?_, ?_, ?_⟩, hm.malloc.congr hdata hfresh, hfresh⟩⟩
  · simp only [clInit, h₁, h₂, Option.bind_eq_bind, Option.bind_some, Option.pure_def]
  · apply LinkedRing.single
    · rw [w₂.forw, w₁.forw, Function.update_self]
    · rw [w₂.back, Function.update_self]
  · exact ⟨null, by rw [hdata, ClMem.malloc_data_fresh]⟩
  · intro c hc
    exact absurd hc List.not_mem_nil

/-- From `cl_init` on, a run leaves one ring through the head whose two directions are inverse, with
what the same operations leave of a sequence; the walks visit it from either end and then fail. -/
theorem clRun_ring (hm : m.Fits) (null : α) (ops : List (ClOp α))
    {s : ClSeq α} {results : List (ClRes α)}
    (hops : runCalls (seqCall m.fresh) ops ⟨[], m.fresh + 1⟩ = some (s, results)) :
    ∃ m₁ m₂, clInit m null = some (m₁, m.fresh) ∧
      runCalls (clCall m.fresh) ops m₁ = some (m₂, results) ∧
      LinkedRing m₂.forw m₂.back m.fresh (cellNodes s.cells) ∧
      (∀ p ∈ m.fresh :: cellNodes s.cells,
        (m₂.forw p).bind m₂.back = some p ∧ (m₂.back p).bind m₂.forw = some p) ∧
      clVisits (clWalk m₂ m.fresh) (s.cells.length + 1) none = some (s.cells.map Prod.snd) ∧
      clVisits (clWalkBack m₂ m.fresh) (s.cells.length + 1) none =
        some (s.cells.map Prod.snd).reverse := by
  obtain ⟨m₁, hinit, h₁⟩ := clInit_lists hm null
  obtain ⟨m₂, hrun, h₂⟩ := ClMem.Lists.run (s := ⟨[], m.fresh + 1⟩) h₁ ops hops
  refine ⟨m₁, m₂, hinit, hrun, h₂.holds.ring, fun p hp => h₂.holds.ring.inverse hp, ?_, ?_⟩
  · exact (show m₂.Holds m.fresh ([] ++ s.cells) from h₂.holds).visits_forward h₂.fits
  · have hholds := h₂.holds
    rw [← List.append_nil s.cells] at hholds
    exact hholds.visits_back h₂.fits

/-- A memory without nodes. -/
def emptyMem : ClMem α := { node := fun _ => none, fresh := 1 }

theorem emptyMem_fits : (emptyMem : ClMem α).Fits :=
  ⟨rfl, Nat.zero_lt_one, fun _ _ => rfl⟩

theorem clRun_ring_three : ∃ m₁ m₂ : ClMem Int,
    clInit emptyMem 0 = some (m₁, 1) ∧
      runCalls (clCall 1) [.push 5, .tailPush 3, .insSort 4 (fun a b => a - b), .pop] m₁ =
        some (m₂, [⟨0, none⟩, ⟨0, none⟩, ⟨0, none⟩, ⟨0, some 4⟩]) ∧
      LinkedRing m₂.forw m₂.back 1 [2, 3] ∧
      (∀ p ∈ [1, 2, 3], (m₂.forw p).bind m₂.back = some p ∧ (m₂.back p).bind m₂.forw = some p) ∧
      clVisits (clWalk m₂ 1) 3 none = some [5, 3] ∧
      clVisits (clWalkBack m₂ 1) 3 none = some [3, 5] :=
  clRun_ring (s := ⟨[(2, 5), (3, 3)], 5⟩) emptyMem_fits 0
    [.push 5, .tailPush 3, .insSort 4 (fun a b => a - b), .pop] rfl

/-! ## Sorting -/

variable (comp) in
/-- The loop of `cl_sort` takes the nodes out of the ring without a head and puts them into the
list. -/
theorem clSortLoop_some {rest sorted : List (Nat × α)} {q n : Nat} (hm : m.Fits)
    (h : m.Holds headp sorted) (hq : m.Holds q rest) (ha : m.data q = some a)
    (hapart : ∀ x ∈ q :: cellNodes rest, x ∉ headp :: cellNodes sorted)
    (hfuel : rest.length < n) :
    ∃ m', clSortLoop headp comp n m q = some m' ∧
      m'.Holds headp (sortInto (NotAbove comp) sorted ((q, a) :: rest)) ∧ m'.data = m.data ∧
      m'.fresh = m.fresh := by
  induction rest generalizing m q a sorted n with
  | nil =>
    cases n with
    | zero => exact absurd hfuel (Nat.not_lt_zero _)
    | succ n =>
      have hforw : m.forw q = some q := hq.ring.next_eq
      obtain ⟨m', hm', h', hdata, hfresh, -⟩ := h.clInsSortNomalloc comp hm ha
        (hapart q (List.mem_cons_self ..))
      refine ⟨m', ?_, h', hdata, hfresh⟩
      rw [clSortLoop, hforw]
      exact (if_pos rfl).trans hm'
  | cons c rest ih =>
    cases n with
    | zero => exact absurd hfuel (Nat.not_lt_zero _)
    | succ n =>
      obtain ⟨p, b⟩ := c
      have hforw : m.forw q = some p := hq.ring.next_eq
      have hdistinct := hq.ring.distinct
      have hne : p ≠ q := by
        rintro rfl
        exact (List.nodup_cons.mp hdistinct).1 (List.mem_cons_self ..)
      have hb : m.data p = some b := hq.data (p, b) (List.mem_cons_self ..)
      -- the rest of the ring, seen from the node behind `q`
      have hturn := (show m.Holds q ([] ++ (p, b) :: rest) from hq).turn ha
      obtain ⟨m₁, hm₁, hp₁, hdata₁, hfresh₁, hframe₁⟩ := hturn.remque
      rw [List.append_nil] at hp₁ hframe₁
      have hfits₁ := hm.congr hdata₁ hfresh₁
      have hin : ∀ x ∈ p :: cellNodes rest, x ∉ q :: headp :: cellNodes sorted := by
        intro x hx hmem
        obtain rfl | hmem := List.mem_cons.mp hmem
        · exact (List.nodup_cons.mp hdistinct).1 hx
        · exact hapart x (List.mem_cons_of_mem _ hx) hmem
      have h₁ : m₁.Holds headp sorted := by
        apply h.congr
        intro x hx
        have hx' : x ∉ p :: cellNodes rest := fun hmem => hin x hmem (List.mem_cons_of_mem _ hx)
        exact ⟨(hframe₁ x hx').1, (hframe₁ x hx').2, by rw [hdata₁]⟩
      obtain ⟨m₂, hm₂, h₂, hdata₂, hfresh₂, hframe₂⟩ := h₁.clInsSortNomalloc comp hfits₁
        (by rw [hdata₁, ha]) (hapart q (List.mem_cons_self ..))
      have hp₂ : m₂.Holds p rest := by
        apply hp₁.congr
        intro x hx
        exact ⟨(hframe₂ x (hin x hx)).1, (hframe₂ x (hin x hx)).2, by rw [hdata₂]⟩
      have hapart₂ : ∀ x ∈ p :: cellNodes rest,
          x ∉ headp :: cellNodes (insertBehind (NotAbove comp) (q, a) sorted) := by
        intro x hx hmem
        have hperm := (insertBehind_perm (r := NotAbove comp) (q, a) sorted).map Prod.fst
        apply hin x hx
        obtain rfl | hmem := List.mem_cons.mp hmem
        · simp
        · have hmem := hperm.mem_iff.mp hmem
          rw [List.map_cons, List.mem_cons] at hmem
          exact List.mem_cons.mpr (hmem.imp id (List.mem_cons_of_mem _))
      obtain ⟨m₃, hm₃, h₃, hdata₃, hfresh₃⟩ := ih (hfits₁.congr hdata₂ hfresh₂) h₂ hp₂
        (by rw [hdata₂, hdata₁, hb]) hapart₂ (Nat.lt_of_succ_lt_succ hfuel)
      refine ⟨m₃, ?_, h₃, ?_, ?_⟩
      · rw [clSortLoop, hforw]
        simp only [Option.bind_eq_bind, Option.bind_some, if_neg hne, hm₁, hm₂, hm₃]
      · rw [hdata₃, hdata₂, hdata₁]
      · rw [hfresh₃, hfresh₂, hfresh₁]

variable (comp) in
/-- `cl_sort` puts the elements, one after the other, behind those that are not larger. -/
theorem ClMem.Holds.clSort (h : m.Holds headp cells) (hm : m.Fits) :
    ∃ m', clSort m headp comp = some m' ∧ m'.Holds headp (sortBehind (NotAbove comp) cells) := by
  cases cells with
  | nil =>
    refine ⟨m, ?_, h⟩
    rw [Spegla.clSort, h.ring.next_eq]
    exact if_pos rfl
  | cons c cells =>
    obtain ⟨q, a⟩ := c
    have hforw : m.forw headp = some q := h.ring.next_eq
    have hne : q ≠ headp := h.notMem_head (List.mem_cons_self ..)
    obtain ⟨b, hb⟩ := h.head
    have ha : m.data q = some a := h.data (q, a) (List.mem_cons_self ..)
    have hdistinct := (List.nodup_cons.mp h.ring.distinct).1
    have hlen := h.length_lt hm
    -- the head is taken out, and then made an empty list
    obtain ⟨m₁, hm₁, h₁, hdata₁, hfresh₁, -⟩ := 
      ((show m.Holds headp ([] ++ (q, a) :: cells) from h).turn hb).remque
    rw [List.append_nil] at h₁
    obtain ⟨m₂, hm₂, w₂⟩ := ClMem.setForw_some (m := m₁) (by rw [hdata₁, hb]) headp
    obtain ⟨m₃, hm₃, w₃⟩ := ClMem.setBack_some (m := m₂) (by rw [w₂.data, hdata₁, hb]) headp
    have hdata : m₃.data = m.data := by rw [w₃.data, w₂.data, hdata₁]
    have hfresh : m₃.fresh = m.fresh := by rw [w₃.fresh, w₂.fresh, hfresh₁]
    have hhead : m₃.Holds headp [] := by
      refine ⟨LinkedRing.single ?_ ?_, ⟨b, by rw [hdata, hb]⟩, fun c hc => ?_⟩
      · rw [w₃.forw, w₂.forw, Function.update_self]
      · rw [w₃.back, Function.update_self]
      · exact absurd hc List.not_mem_nil
    have hrest : m₃.Holds q cells := by
      apply h₁.congr
      intro x hx
      have hxne : x ≠ headp := fun e => hdistinct (e ▸ hx)
      rw [w₃.forw, w₂.forw, w₃.back, w₂.back, w₃.data, w₂.data, Function.update_of_ne hxne,
        Function.update_of_ne hxne]
      exact ⟨rfl, rfl, rfl⟩
    obtain ⟨m', hm', h', -, -⟩ := clSortLoop_some comp (n := m₃.fresh)
      (hm.congr hdata hfresh) hhead hrest (by rw [hdata, ha])
      (fun x hx hmem => hdistinct (List.mem_singleton.mp hmem ▸ hx))
      (by rw [hfresh]; exact Nat.lt_of_succ_lt hlen)
    refine ⟨m', ?_, h'⟩
    rw [Spegla.clSort, hforw]
    simp only [Option.bind_eq_bind, Option.bind_some, if_neg hne, hm₁, hm₂, hm₃, hm']

/-- For a comparison that is a total preorder, `cl_sort` leaves a ring with the same head whose
elements are the old ones in ascending order, those that compare equal in the order they had. -/
theorem clSort_sorts (hm : m.Fits) (h : m.Holds headp cells) (htotal : ∀ a b, comp a b ≤ 0 ∨
    comp b a ≤ 0) (htrans : ∀ a b c, comp a b ≤ 0 → comp b c ≤ 0 → comp a c ≤ 0) :
    ∃ m' cells', clSort m headp comp = some m' ∧ m'.Holds headp cells' ∧ cells'.Perm cells ∧
      cells'.Pairwise (fun c d => comp c.2 d.2 ≤ 0) ∧
      ∀ a, cells'.filter (fun c => comp a c.2 ≤ 0 ∧ comp c.2 a ≤ 0) =
        cells.filter (fun c => comp a c.2 ≤ 0 ∧ comp c.2 a ≤ 0) := by
  have htotal' : Std.Total (NotAbove comp) := ⟨fun c d => htotal c.2 d.2⟩
  have htrans' : IsTrans (Nat × α) (NotAbove comp) := ⟨fun c d e => htrans c.2 d.2 e.2⟩
  obtain ⟨m', hm', h'⟩ := h.clSort comp hm
  refine ⟨m', _, hm', h', sortBehind_perm cells, ?_, fun a => ?_⟩
  · exact sortBehind_sorted (r := NotAbove comp) cells
  · exact sortBehind_stable (r := NotAbove comp) cells (0, a)

/-- A list of three elements. -/
def threeCells : ClMem Int where
  node p := [none, some ⟨some 2, some 4, 0⟩, some ⟨some 3, some 1, 7⟩, some ⟨some 4, some 2, 5⟩,
    some ⟨some 1, some 3, 7⟩][p]?.join
  fresh := 5

theorem threeCells_fits : threeCells.Fits := by
  refine ⟨rfl, by decide, fun p hp => ?_⟩
  have hp : 5 ≤ p := hp
  simp [ClMem.data, threeCells, hp]

theorem threeCells_holds : threeCells.Holds 1 [(2, 7), (3, 5), (4, 7)] := by
  refine ⟨⟨by decide, ⟨rfl, rfl, rfl, rfl⟩, ⟨rfl, rfl, rfl, rfl⟩⟩, ⟨0, rfl⟩, fun c hc => ?_⟩
  simp only [List.mem_cons, List.not_mem_nil, or_false] at hc
  obtain rfl | rfl | rfl := hc <;> rfl

theorem clSort_sorts_three : ∃ m' cells',
    clSort threeCells 1 (fun a b => a - b) = some m' ∧ m'.Holds 1 cells' ∧
      cells'.Perm [(2, 7), (3, 5), (4, 7)] ∧
      cells'.Pairwise (fun c d => c.2 - d.2 ≤ 0) ∧
      ∀ a, cells'.filter (fun c => a - c.2 ≤ 0 ∧ c.2 - a ≤ 0) =
        [(2, 7), (3, 5), (4, 7)].filter (fun c => a - c.2 ≤ 0 ∧ c.2 - a ≤ 0) :=
  clSort_sorts threeCells_fits threeCells_holds (fun _ _ => by omega) (fun _ _ _ _ _ => by omega)

end Spegla
