import Spegla.Lib.SortedJoin
import Spegla.SyncDir

/-!
# The comparison of two directories

The first loop of `sp_sync_dir` is a join of two lists sorted by name, which it
takes out of two heaps; the second drains the queue that the first has filled.

- `Holds`: a heap, as the list of its entries in ascending order of their names.
- `syncName`, `queued`: what is to be done for one name, and the directory it
  queues: the purpose of the loop, stated by itself.
- `mergeLoop_join`: the loop does that along the join of the two lists.
- `dirLoop_queue`: the second loop steps through the queue from its start.
-/

namespace Spegla

open CString SortedJoin

theorem strcmp_isKeyOrder : IsKeyOrder strcmp where
  eq_of_zero := strcmp_eq_zero
  self := strcmp_self
  flip := strcmp_antisymm
  trans := strcmp_neg_trans

/-! ## Heaps as sorted lists -/

/-- The entries of the heap are `xs`, in ascending order of their names. -/
structure Holds (h : HeapList SpFile) (xs : List SpFile) : Prop where
  valid : h.Valid
  comp : h.heapComp = spfPushComp
  elems : h.elems = xs
  asc : Ascending strcmp SpFile.spfName xs

theorem Holds.pop_nil {h : HeapList SpFile} (hh : Holds h []) : heapPop h = none := by
  have := (heapPop_isSome (h := h)).not.mpr (by rw [hh.elems]; simp)
  simpa using this

/-- The entry with the least name comes out first. -/
theorem Holds.pop {h : HeapList SpFile} {x : SpFile} {xs : List SpFile} (hh : Holds h (x :: xs)) :
    ∃ h', heapPop h = some (x, h') ∧ Holds h' xs := by
  have hsome := (heapPop_isSome (h := h)).mpr (by rw [hh.elems]; simp)
  obtain ⟨⟨y, h'⟩, hpop⟩ := Option.isSome_iff_exists.mp hsome
  obtain ⟨hv, helems, hmax, hcomp⟩ := heapPop_spec hh.valid hpop
  rw [hh.elems] at helems hmax
  rw [hh.comp] at hmax
  have hasc := List.pairwise_cons.mp hh.asc
  have hyx : y = x := by
    have hy : y ∈ x :: xs := by
      rw [← Multiset.mem_coe, helems]
      exact Multiset.mem_cons_self ..
    rcases List.mem_cons.mp hy with rfl | hy
    · rfl
    · have h₁ : -strcmp x.spfName y.spfName ≤ 0 := hmax x (by simp)
      have h₂ := hasc.1 y hy
      omega
  subst hyx
  refine ⟨h', hpop, hv, hcomp.trans hh.comp, ?_, hasc.2⟩
  rw [← Multiset.cons_coe] at helems
  exact ((Multiset.cons_inj_right y).mp helems).symm

theorem Holds.peek_nil {h : HeapList SpFile} (hh : Holds h []) : heapPeek h = none := by
  rw [heapPeek_eq_pop, hh.pop_nil]
  rfl

theorem Holds.peek_cons {h : HeapList SpFile} {x : SpFile} {xs : List SpFile}
    (hh : Holds h (x :: xs)) : heapPeek h = some x := by
  obtain ⟨h', hpop, -⟩ := hh.pop
  rw [heapPeek_eq_pop, hpop]
  rfl

theorem Holds.keys {h : HeapList SpFile} {xs : List SpFile} (hh : Holds h xs) :
    h.heapKeys = xs.length := by
  have := congrArg Multiset.card hh.elems
  simpa [HeapList.elems, HeapOrder.elems] using this

/-- A heap without a name twice, sorted. -/
theorem holds_heapOf {es : List SpFile} (hn : (es.map SpFile.spfName).Nodup) :
    ∃ xs, xs.Perm es ∧ Holds (heapOf es) xs := by
  obtain ⟨xs, hperm, hasc⟩ := exists_sorted strcmp_isKeyOrder es hn
  exact ⟨xs, hperm, heapOf_valid es, heapOf_comp es,
    (heapOf_elems es).trans (Multiset.coe_eq_coe.mpr hperm.symm), hasc⟩

/-! ## What is to be done for a name -/

variable {σ : Type} (ops : SyncOps σ)

/-- `sp_get_file`, apart from the queue. -/
def fetch (spf : SpFile) : EStateM Exit σ PUnit := do
  match spf.spfType with
  | .plainfile => ops.getFtpFile spf
  | .symlink => let _ ← ops.spfSymlink spf
  | _ => return ⟨⟩

/-- What is to be done for a name, from the local entry `lo` and the remote entry
`ro` that have it. -/
def syncName (lo ro : Option SpFile) : EStateM Exit σ PUnit := do
  match lo, ro with
  | none, none => return ⟨⟩
  | none, some r => fetch ops r
  | some l, none => let _ ← ops.spfRm l
  | some l, some r =>
    if r.spfType ≠ l.spfType then
      let _ ← ops.spfRm l
      fetch ops r
    else
      match r.spfType with
      | .plainfile =>
        if spfTimeCmp r l ≠ 0 ∨ r.spfSize ≠ l.spfSize then fetch ops r
        else if r.spfMode ≠ l.spfMode then
          let _ ← ops.spfChmod { r with spfOpt := { r.spfOpt with logChmod := true } } 0
        else return ⟨⟩
      | .symlink =>
        if r.spfSymlink ≠ l.spfSymlink then
          if ← ops.spfRm r then fetch ops r else return ⟨⟩
        else return ⟨⟩
      | _ => return ⟨⟩

/-- The directory that a name puts into the queue. -/
def queued (lo ro : Option SpFile) : Option SpFile :=
  match lo, ro with
  | none, some r => if r.spfType = .directory then some r else none
  | some l, some r =>
    if r.spfType = .directory then
      if l.spfType = .directory then
        some { r with spfOpt := { r.spfOpt with dontCreate := true } }
      else some r
    else none
  | _, none => none

/-- The queue with one more directory, if there is one. -/
def enqueue (dirs : FifoList SpFile) (spf : Option SpFile) : FifoList SpFile :=
  match spf with
  | none => dirs
  | some spf => fifoPush dirs spf

variable {ops}

theorem spGetFile_eq {spf : SpFile} (dirs : FifoList SpFile) :
    spGetFile ops spf dirs = do
      fetch ops spf
      return enqueue dirs (if spf.spfType = .directory then some spf else none) := by
  unfold spGetFile fetch
  cases spf.spfType <;> simp [enqueue]

/-- Two entries of one name and one type. -/
theorem mergeSame_eq {l r : SpFile} (htype : r.spfType = l.spfType) (hknown : r.spfType ≠ .unknown)
    (hl : l.Linked) (hr : r.Linked) (dirs : FifoList SpFile) :
    mergeSame ops l r dirs = do
      syncName ops (some l) (some r)
      return enqueue dirs (queued (some l) (some r)) := by
  unfold mergeSame syncName queued
  simp only [htype, ne_eq, not_true_eq_false, if_false]
  cases hk : l.spfType with
  | unknown => exact absurd (htype.trans hk) hknown
  | directory =>
    simp only [if_true]
    rw [spGetFile_eq]
    simp [fetch]
  | plainfile =>
    simp only
    split
    · rw [spGetFile_eq]
      simp [htype, hk, enqueue]
    · split <;> simp [enqueue]
  | symlink =>
    obtain ⟨targetL, htl⟩ := Option.ne_none_iff_exists'.mp (hl hk)
    obtain ⟨targetR, htr⟩ := Option.ne_none_iff_exists'.mp (hr (htype.trans hk))
    simp only [htl, htr, strcmp_eq_zero_iff, Option.some.injEq]
    split
    · simp only [bind_assoc]
      congr 1
      funext b
      cases b with
      | true => simp [spGetFile_eq, htype, hk, enqueue]
      | false => simp [enqueue]
    · simp [enqueue]

/-- One round takes the least name, does what is to be done for it, and leaves the
names behind it. -/
theorem mergeStep_join (ops : SyncOps σ) {l r : HeapList SpFile} {xs ys : List SpFile}
    {p : Option SpFile × Option SpFile}
    {ps : List (Option SpFile × Option SpFile)} (hl : Holds l xs) (hr : Holds r ys)
    (hknown : ∀ e ∈ ys, e.spfType ≠ .unknown) (hxs : ∀ e ∈ xs, e.Linked) (hys : ∀ e ∈ ys, e.Linked)
    (hj : join strcmp SpFile.spfName xs ys = p :: ps) :
    ∃ l' r' xs' ys', Holds l' xs' ∧ Holds r' ys' ∧ xs' <:+ xs ∧ ys' <:+ ys ∧
      join strcmp SpFile.spfName xs' ys' = ps ∧ ∀ dirs, mergeStep ops l r dirs = do
        syncName ops p.1 p.2
        return (l', r', enqueue dirs (queued p.1 p.2)) := by
  match xs, ys, hl, hr with
  | [], [], _, _ => simp [join] at hj
  | [], y :: ys, hl, hr =>
    obtain ⟨r', hpop, hr'⟩ := hr.pop
    rw [join, List.cons.injEq] at hj
    refine ⟨l, r', [], ys, hl, hr', List.suffix_refl _, List.suffix_cons .., hj.2, fun dirs => ?_⟩
    rw [← hj.1, mergeStep, hl.pop_nil, hpop]
    simp only [spGetFile_eq]
    simp [syncName, queued]
  | x :: xs, [], hl, hr =>
    obtain ⟨l', hpop, hl'⟩ := hl.pop
    rw [join, List.cons.injEq] at hj
    refine ⟨l', r, xs, [], hl', hr, List.suffix_cons .., List.suffix_refl _, hj.2, fun dirs => ?_⟩
    rw [← hj.1, mergeStep, hpop, hr.pop_nil]
    simp [syncName, queued, enqueue]
  | x :: xs, y :: ys, hl, hr =>
    obtain ⟨l', hpopl, hl'⟩ := hl.pop
    obtain ⟨r', hpopr, hr'⟩ := hr.pop
    have hstep : ∀ dirs, mergeStep ops l r dirs = _ := fun dirs => by
      rw [mergeStep, hpopl, hpopr]
    simp only at hstep
    rw [join] at hj
    -- the entry with the smaller name is popped, or both where the names are equal
    change (if spfNameCmp x y > 0 then _ else if spfNameCmp x y < 0 then _ else _) = _ at hj
    split at hj
    · next hgt =>
      rw [List.cons.injEq] at hj
      refine ⟨l, r', x :: xs, ys, hl, hr', List.suffix_refl _, List.suffix_cons .., hj.2,
        fun dirs => ?_⟩
      rw [← hj.1, hstep, if_pos hgt, spGetFile_eq]
      simp [syncName, queued]
    · next hgt =>
      split at hj
      · next hlt =>
        rw [List.cons.injEq] at hj
        refine ⟨l', r, xs, y :: ys, hl', hr, List.suffix_cons .., List.suffix_refl _, hj.2,
          fun dirs => ?_⟩
        rw [← hj.1, hstep, if_neg hgt, if_pos hlt]
        simp [syncName, queued, enqueue]
      · next hlt =>
        rw [List.cons.injEq] at hj
        refine ⟨l', r', xs, ys, hl', hr', List.suffix_cons .., List.suffix_cons .., hj.2,
          fun dirs => ?_⟩
        rw [← hj.1, hstep, if_neg hgt, if_neg hlt]
        have hy := List.mem_cons_self (a := y) (l := ys)
        split
        · next htype =>
          rw [spGetFile_eq]
          simp only [syncName, queued, if_pos htype]
          have hqueue : (if y.spfType = .directory then
              if x.spfType = .directory then
                some { y with spfOpt := { y.spfOpt with dontCreate := true } }
              else some y
              else none) = if y.spfType = .directory then some y else none := by
            split
            · next hd => rw [if_neg fun hx => htype (hd.trans hx.symm)]
            · rfl
          rw [hqueue]
          simp
        · next htype =>
          rw [ne_eq, not_not] at htype
          rw [mergeSame_eq htype (hknown y hy) (hxs x (List.mem_cons_self ..)) (hys y hy)]
          simp

/-! ## The two loops -/

/-- The first loop does what is to be done for each pair of the join, and fills the
queue with what each pair queues. -/
theorem mergeLoop_join (ops : SyncOps σ) :
    ∀ (fuel : Nat) {l r : HeapList SpFile} {xs ys : List SpFile},
    Holds l xs → Holds r ys → (∀ e ∈ ys, e.spfType ≠ .unknown) → (∀ e ∈ xs, e.Linked) →
      (∀ e ∈ ys, e.Linked) → (join strcmp SpFile.spfName xs ys).length < fuel →
      ∃ l' r', Holds l' [] ∧ Holds r' [] ∧ ∀ dirs, mergeLoop ops fuel l r dirs = do
        (join strcmp SpFile.spfName xs ys).forM fun p => syncName ops p.1 p.2
        return (l', r', (join strcmp SpFile.spfName xs ys).foldl
          (fun dirs p => enqueue dirs (queued p.1 p.2)) dirs)
  | 0, _, _, _, _, _, _, _, _, _, hf => absurd hf (Nat.not_lt_zero _)
  | fuel + 1, l, r, xs, ys, hl, hr, hknown, hxs, hys, hf => by
    cases hj : join strcmp SpFile.spfName xs ys with
    | nil =>
      obtain ⟨rfl, rfl⟩ := join_eq_nil hj
      refine ⟨l, r, hl, hr, fun dirs => ?_⟩
      rw [mergeLoop, if_pos ⟨hl.peek_nil, hr.peek_nil⟩]
      simp
    | cons p ps =>
      obtain ⟨l₁, r₁, xs₁, ys₁, hl₁, hr₁, hxs₁, hys₁, hj₁, hstep⟩ :=
        mergeStep_join ops hl hr hknown hxs hys hj
      rw [hj, List.length_cons] at hf
      obtain ⟨l', r', hl', hr', heq⟩ := mergeLoop_join ops fuel hl₁ hr₁
        (fun e he => hknown e (hys₁.subset he)) (fun e he => hxs e (hxs₁.subset he))
        (fun e he => hys e (hys₁.subset he)) (by rw [hj₁]; omega)
      refine ⟨l', r', hl', hr', fun dirs => ?_⟩
      have hpeek : ¬(heapPeek l = none ∧ heapPeek r = none) := by
        rintro ⟨hpl, hpr⟩
        cases xs with
        | cons x xs => rw [hl.peek_cons] at hpl; simp at hpl
        | nil =>
          cases ys with
          | cons y ys => rw [hr.peek_cons] at hpr; simp at hpr
          | nil => simp [join] at hj
      rw [mergeLoop, if_neg hpeek, hstep]
      simp [heq, hj₁, List.forM_cons]

theorem enqueue_foldl {γ : Type} (f : γ → Option SpFile) : ∀ (ps : List γ) (dirs : FifoList SpFile),
    ps.foldl (fun dirs p => enqueue dirs (f p)) dirs = (ps.filterMap f).foldl fifoPush dirs
  | [], _ => rfl
  | p :: ps, dirs => by
    rw [List.foldl_cons, enqueue_foldl f ps, List.filterMap_cons]
    cases f p <;> rfl

/-- The second loop steps through the queue. -/
theorem dirLoop_queue (step : SpFile → EStateM Exit σ PUnit) :
    ∀ (fuel : Nat) {dirs : FifoList SpFile} {xs : List SpFile}, dirs.Linear xs →
      xs.length < fuel → dirLoop step fuel dirs = xs.forM step
  | 0, _, _, _, h => absurd h (Nat.not_lt_zero _)
  | fuel + 1, dirs, [], hd, _ => by
    rw [dirLoop, fifoPop_nil hd]
    rfl
  | fuel + 1, dirs, x :: xs, hd, h => by
    obtain ⟨dirs', hpop, hd'⟩ := fifoPop_linear hd
    rw [dirLoop, hpop]
    rw [List.length_cons] at h
    simp only [dirLoop_queue step fuel hd' (by omega)]
    rfl

/-- The entry of a name. -/
def entryOf (n : Str) (es : List SpFile) : Option SpFile := find SpFile.spfName n es

theorem queued_name {n : Str} {ls rs : List SpFile} {spf : SpFile}
    (h : queued (entryOf n ls) (entryOf n rs) = some spf) : spf.spfName = n := by
  unfold queued at h
  cases hr : entryOf n rs with
  | none => rw [hr] at h; cases entryOf n ls <;> simp at h
  | some r =>
    have hname : r.spfName = n := (find_some hr).2
    rw [hr] at h
    cases hl : entryOf n ls with
    | none =>
      simp only [hl, Option.ite_none_right_eq_some, Option.some.injEq] at h
      rw [← h.2, hname]
    | some l =>
      simp only [hl] at h
      split at h
      · split at h
        · rw [← Option.some.inj h, ← hname]
        · rw [← Option.some.inj h, hname]
      · simp at h

/-- **The comparison of two directories.** From heaps without a name twice, the
first loop ends with both heaps empty, having done for every name, in ascending
order, what is to be done for it; the second steps through the directories that
were queued, in ascending order of their names. -/
theorem mergeLoop_dirLoop (ops : SyncOps σ) (ls rs : List SpFile)
    (hls : (ls.map SpFile.spfName).Nodup) (hrs : (rs.map SpFile.spfName).Nodup)
    (hknown : ∀ e ∈ rs, e.spfType ≠ .unknown) (hlinked : ∀ e ∈ ls ++ rs, e.Linked) :
    ∃ (names : List Str) (queue : List SpFile) (l' r' : HeapList SpFile) (dirs : FifoList SpFile),
      names.Pairwise (fun a b => strcmp a b < 0) ∧
      (∀ n, n ∈ names ↔ n ∈ ls.map SpFile.spfName ∨ n ∈ rs.map SpFile.spfName) ∧
      l'.elems = 0 ∧ r'.elems = 0 ∧
      (mergeLoop ops ((heapOf ls).heapKeys + (heapOf rs).heapKeys + 1) (heapOf ls) (heapOf rs)
        fifoInit = do
          names.forM fun n => syncName ops (entryOf n ls) (entryOf n rs)
          return (l', r', dirs)) ∧
      queue = names.filterMap (fun n => queued (entryOf n ls) (entryOf n rs)) ∧
      queue.Pairwise (fun a b => strcmp a.spfName b.spfName < 0) ∧
      ∀ step : SpFile → EStateM Exit σ PUnit,
        dirLoop step (fifoCount dirs + 1) dirs = queue.forM step := by
  obtain ⟨xs, hxs, hl⟩ := holds_heapOf hls
  obtain ⟨ys, hys, hr⟩ := holds_heapOf hrs
  -- the two heaps are popped in the order of the joined names
  obtain ⟨names, hasc, hmem, hjoin⟩ := join_eq strcmp_isKeyOrder hl.asc hr.asc
  have hfind :
    ∀ n, find SpFile.spfName n xs = entryOf n ls ∧ find SpFile.spfName n ys = entryOf n rs :=
    fun n => ⟨(find_perm hxs.symm hls n).symm, (find_perm hys.symm hrs n).symm⟩
  have hlen := join_length strcmp SpFile.spfName xs ys
  obtain ⟨l', r', hl', hr', heq⟩ := mergeLoop_join ops
    ((heapOf ls).heapKeys + (heapOf rs).heapKeys + 1) hl hr
    (fun e he => hknown e (hys.subset he))
    (fun e he => hlinked e (List.mem_append_left _ (hxs.subset he)))
    (fun e he => hlinked e (List.mem_append_right _ (hys.subset he)))
    (by rw [hl.keys, hr.keys]; omega)
  -- the fifo takes the directories in the order of their names
  have hfill : (join strcmp SpFile.spfName xs ys).foldl
      (fun dirs p => enqueue dirs (queued p.1 p.2)) fifoInit =
      (names.filterMap fun n => queued (entryOf n ls) (entryOf n rs)).foldl fifoPush fifoInit := by
    rw [enqueue_foldl (fun p : Option SpFile × Option SpFile => queued p.1 p.2), hjoin,
      List.filterMap_map]
    congr 2
    funext n
    simp only [Function.comp, hfind n]
  refine ⟨names, names.filterMap fun n => queued (entryOf n ls) (entryOf n rs), l', r',
    (names.filterMap fun n => queued (entryOf n ls) (entryOf n rs)).foldl fifoPush fifoInit, hasc,
    fun n => ?_, hl'.elems, hr'.elems, ?_, rfl, ?_, fun step => ?_⟩
  · rw [hmem n, (hxs.map _).mem_iff, (hys.map _).mem_iff]
  · rw [heq, hfill]
    congr 1
    rw [hjoin, List.forM_eq_forM, List.forM_map, List.forM_eq_forM]
    congr 1
    funext n
    rw [(hfind n).1, (hfind n).2]
  · refine List.Pairwise.filterMap _ (fun a b hab x hx y hy => ?_) hasc
    rw [queued_name hx, queued_name hy]
    exact hab
  · have hlinear := fifoPushAll_linear
      (names.filterMap fun n => queued (entryOf n ls) (entryOf n rs)) fifoInit_linear rfl
    rw [List.nil_append] at hlinear
    exact dirLoop_queue step _ hlinear (by rw [fifoCount_linear hlinear]; omega)

/-- The whole of `sp_sync_dir`, name by name. -/
theorem spSyncDir_names {F : Type} (env : Env F) (stack : Nat) {ls rs : List SpFile}
    (hls : (ls.map SpFile.spfName).Nodup) (hrs : (rs.map SpFile.spfName).Nodup)
    (hknown : ∀ e ∈ rs, e.spfType ≠ .unknown) (hlinked : ∀ e ∈ ls ++ rs, e.Linked) :
    ∃ (names : List Str) (queue : List SpFile), names.Nodup ∧
      (∀ n, n ∈ names ↔ n ∈ ls.map SpFile.spfName ∨ n ∈ rs.map SpFile.spfName) ∧
      queue = names.filterMap (fun n => queued (entryOf n ls) (entryOf n rs)) ∧
      spSyncDir env (stack + 1) (some (heapOf ls)) (some (heapOf rs)) = (do
        modify fun w => { w with spDirsTraversed := w.spDirsTraversed + 1 }
        names.forM fun n => syncName (syncOps env) (entryOf n ls) (entryOf n rs)
        queue.forM (dirStep env fun l r => spSyncDir env stack (some l) (some r))) := by
  obtain ⟨xs, hxs, hl⟩ := holds_heapOf hls
  obtain ⟨ys, hys, hr⟩ := holds_heapOf hrs
  obtain ⟨names, hasc, hmem, hjoin⟩ := join_eq strcmp_isKeyOrder hl.asc hr.asc
  have hlen := join_length strcmp SpFile.spfName xs ys
  obtain ⟨l', r', -, -, heq⟩ := mergeLoop_join (syncOps env)
    ((heapOf ls).heapKeys + (heapOf rs).heapKeys + 1) hl hr
    (fun e he => hknown e (hys.subset he))
    (fun e he => hlinked e (List.mem_append_left _ (hxs.subset he)))
    (fun e he => hlinked e (List.mem_append_right _ (hys.subset he)))
    (by rw [hl.keys, hr.keys]; omega)
  -- the names of the sorted lists find the entries of the lists themselves
  have hpairs : join strcmp SpFile.spfName xs ys =
      names.map fun n => (entryOf n ls, entryOf n rs) := by
    rw [hjoin]
    refine List.map_congr_left fun n _ => ?_
    rw [entryOf, entryOf, find_perm hxs.symm hls, find_perm hys.symm hrs]
  have hlinear := fifoPushAll_linear
    (names.filterMap fun n => queued (entryOf n ls) (entryOf n rs)) fifoInit_linear rfl
  rw [List.nil_append] at hlinear
  refine ⟨names, _, hasc.imp (fun hab heq => ?_), fun n => ?_, rfl, ?_⟩
  · rw [heq, strcmp_self] at hab
    omega
  · rw [hmem n, (hxs.map _).mem_iff, (hys.map _).mem_iff]
  · rw [spSyncDir, heq, hpairs, List.foldl_map, enqueue_foldl, List.forM_eq_forM, List.forM_map]
    simp only [bind_assoc, pure_bind, List.forM_eq_forM]
    congr 2
    funext _
    congr 1
    funext _
    rw [dirLoop_queue _ _ hlinear (by rw [fifoCount_linear hlinear]; omega), List.forM_eq_forM]

/-- A local file `a` and a remote directory `b`. -/
def localA : SpFile := { (default : SpFile) with spfName := ['a'] }
def remoteB : SpFile := { (default : SpFile) with spfName := ['b'], spfType := .directory }

theorem mergeLoop_dirLoop_pair :
    ∃ (names : List Str) (l' r' : HeapList SpFile) (dirs : FifoList SpFile),
      (∀ n, n ∈ names ↔ n = ['a'] ∨ n = ['b']) ∧ l'.elems = 0 ∧ r'.elems = 0 ∧
      mergeLoop (syncOps (calmEnv deadFtp)) 3 (heapOf [localA]) (heapOf [remoteB]) fifoInit = do
        names.forM fun n => syncName (syncOps (calmEnv deadFtp)) (entryOf n [localA])
          (entryOf n [remoteB])
        return (l', r', dirs) := by
  obtain ⟨names, _, l', r', dirs, -, hmem, hl, hr, hloop, -⟩ := mergeLoop_dirLoop
    (syncOps (calmEnv deadFtp)) [localA] [remoteB] (by decide) (by decide) (by decide) (by decide)
  exact ⟨names, l', r', dirs, by simpa [localA, remoteB] using hmem, hl, hr, hloop⟩

end Spegla
