import Spegla.Container.SkipList

/-!
# Runs of skip lists (`container.c`)

- `SlInserted`, `SlRemoved`: what `sl_ins` and `sl_rem` change. `SkipList.Holds.insert` and
  `remove`: the list then holds a cell more, or one less.
- `SkipList.Holds.step`: a call gives what it gives on the sorted list of entries.
- `slRun_multimap`: any run does, and never reads what is undefined, exactly as long as no walk is
  begun on an empty list.
-/

namespace Spegla

variable {α : Type} {mem : SlMem α} {p i key : Nat}

/-! ## A node more -/

/-- What `sl_ins` changes: there is a node `c` more, between the cells `lo` and `hi`. -/
structure SlInserted (s s' : SkipList α) (lo hi : List (SlCell α)) (c : SlCell α) : Prop where
  head : s'.slHead = s.slHead
  fresh : s'.fresh = s.fresh + 1
  rounds : s'.rounds = max s.rounds (c.level + 1)
  fixed : ∀ a, a ≠ c.addr → fixedAt s'.mem a = fixedAt s.mem a
  newFixed : fixedAt s'.mem c.addr = some (some c.data, c.key, c.level + 1)
  forw : ∀ a i, a ≠ c.addr → (i ≤ c.level → a ≠ beforeAt s.slHead i lo) →
    forwAt s'.mem a i = forwAt s.mem a i
  newForw : ∀ i ≤ c.level, forwAt s'.mem c.addr i = some ((nodesAt i hi).headD SL_NIL)
  lastForw : ∀ i ≤ c.level, forwAt s'.mem (beforeAt s.slHead i lo) i = some c.addr

namespace SkipList.Holds

variable {s s' : SkipList α} {cells lo hi : List (SlCell α)} {c : SlCell α} {level : Nat}

theorem fresh_pos (h : s.Holds cells) : SL_NIL < s.fresh :=
  have hhead := h.place _ (List.mem_cons_self ..)
  hhead.1.trans hhead.2

theorem before_ne_fresh (h : s.Holds (lo ++ hi)) (i : Nat) : beforeAt s.slHead i lo ≠ s.fresh :=
  Nat.ne_of_lt (h.before_place i).2

theorem ne_fresh (h : s.Holds cells) {a : Nat} (ha : a ∈ s.slHead :: cells.map SlCell.addr) :
    a ≠ s.fresh :=
  Nat.ne_of_lt (h.place a ha).2

/-- `sl_ins` puts the new node behind the nodes below its key. -/
theorem slIns_inserted (h : s.Holds (lo ++ hi)) (hlo : ∀ c ∈ lo, c.key < key)
    (hhi : ∀ c ∈ hi, key ≤ c.key) (hk : key ≤ NIL_KEY) (hl : level < SL_MAX_LEVELS) (x : α) :
    ∃ s', slIns s key x level = some s' ∧
      SlInserted s s' lo hi ⟨s.fresh, key, x, level⟩ := by
  obtain ⟨mem₀, hmem₀⟩ : ∃ mem₀, mem₀ = Function.update s.mem s.fresh
    (some (slNewNode level key (some x))) := ⟨_, rfl⟩
  have hold : ∀ a, a ≠ s.fresh → mem₀ a = s.mem a := by
    intro a ha
    rw [hmem₀, Function.update_of_ne ha]
  have hnew : fixedAt mem₀ s.fresh = some (some x, key, level + 1) := by
    rw [fixedAt, hmem₀, Function.update_self]
    rfl
  have hforw₀ : ∀ a, a ≠ s.fresh → ∀ j, forwAt mem₀ a j = forwAt s.mem a j := by
    intro a ha j
    rw [forwAt, hold a ha, forwAt]
  -- on every level of the new node it is put between its neighbours there
  obtain ⟨mem', hrun, hfix, hforw⟩ := slSplice_some mem₀ (List.range (level + 1))
    (p := s.fresh) (u := (beforeAt s.slHead · lo))
    (f := fun i => (nodesAt i hi).headD SL_NIL)
    (fun i hi' => h.update_some (List.mem_range.mp hi'))
    (fun i hi' => (hforw₀ _ (h.before_ne_fresh i) i).trans
      (h.forwAt_before (Nat.lt_of_lt_of_le (List.mem_range.mp hi') hl)))
    (fun i _ => h.before_ne_fresh i) hnew (fun i => List.mem_range.mp) List.nodup_range
  simp only [List.mem_range, Nat.lt_succ_iff] at hforw
  refine ⟨{ s with
    mem := mem', slLevel := if level + 1 > s.rounds then level else s.slLevel,
    fresh := s.fresh + 1 }, ?_, ?_⟩
  · simp only [slIns, h.slDescend_head hlo hhi hk, Option.bind_eq_bind, Option.bind_some]
    rw [← hmem₀, hrun]
    rfl
  · exact {
      head := rfl
      fresh := rfl
      rounds := by
        by_cases hr : level + 1 > s.rounds
        · rw [if_pos hr]
          exact (rounds_succ hl { s with mem := mem', fresh := s.fresh + 1 }).trans
            (Nat.max_eq_right (Nat.le_of_lt hr)).symm
        · rw [if_neg hr]
          exact (Nat.max_eq_left (Nat.le_of_not_lt hr)).symm
      fixed := by
        intro a ha
        show fixedAt mem' a = _
        rw [hfix, fixedAt, hold a ha, fixedAt]
      newFixed := (congrFun hfix _).trans hnew
      forw := by
        intro a i ha hlast
        show forwAt mem' a i = _
        rw [hforw, if_neg fun he => ha he.2, if_neg fun he => hlast he.1 he.2, hforw₀ a ha]
      newForw := by
        intro i hle
        exact (hforw s.fresh i).trans (if_pos ⟨hle, rfl⟩)
      lastForw := by
        intro i hle
        show forwAt mem' _ i = _
        rw [hforw, if_neg fun he => h.before_ne_fresh i he.2, if_pos ⟨hle, rfl⟩] }

/-- On its own levels, the new node is behind the last of `lo`; the other levels are as before. -/
theorem linked_insert (h : s.Holds (lo ++ hi)) (hs : SlInserted s s' lo hi c)
    (hc : c.addr = s.fresh) (hi' : i < SL_MAX_LEVELS) :
    Linked (forwAt s'.mem · i) s.slHead (nodesAt i (lo ++ c :: hi)) SL_NIL := by
  have hlink := h.linked i hi'
  have hd := h.distinct_nodesAt i
  have hnot : c.addr ∉ s.slHead :: nodesAt i (lo ++ hi) :=
    fun hm => h.ne_fresh (nodesAt_mem s hm) hc
  by_cases hle : i ≤ c.level
  · rw [nodesAt_append, nodesAt_cons_of_le hle]
    rw [nodesAt_append] at hlink hd hnot
    refine hlink.insert hd hnot ?_ (hs.lastForw i hle) ?_
    · exact (hs.newForw i hle).trans (h.forwAt_before hi').symm
    · intro a ha hlast
      exact hs.forw a i ha fun _ => hlast
  · rw [nodesAt_append, nodesAt_cons_of_lt (Nat.lt_of_not_le hle), ← nodesAt_append]
    refine hlink.congr fun a ha => hs.forw a i ?_ fun h => absurd h hle
    exact fun he => hnot (he ▸ ha)

theorem mem_middle {d : SlCell α} : d ∈ lo ++ c :: hi ↔ d = c ∨ d ∈ lo ++ hi := by
  simp only [List.mem_append, List.mem_cons]
  tauto

/-- The list holds the cells with the new one. -/
theorem insert (h : s.Holds (lo ++ hi)) (hs : SlInserted s s' lo hi c) (hc : c.addr = s.fresh)
    (hlo : ∀ d ∈ lo, d.key ≤ c.key) (hhi : ∀ d ∈ hi, c.key ≤ d.key) (hk : c.key ≤ NIL_KEY)
    (hl : c.level < SL_MAX_LEVELS) : s'.Holds (lo ++ c :: hi) where
  null := by
    rw [hs.fixed NULL (hc ▸ Nat.ne_of_lt (Nat.lt_trans Nat.zero_lt_one h.fresh_pos))]
    exact h.null
  nil := by
    rw [hs.fixed SL_NIL (hc ▸ Nat.ne_of_lt h.fresh_pos)]
    exact h.nil
  nilForw := by
    rw [hs.forw SL_NIL 0 (hc ▸ Nat.ne_of_lt h.fresh_pos) fun _ => Nat.ne_of_lt (h.before_place 0).1]
    exact h.nilForw
  head := by
    rw [hs.head, hs.fixed _ (hc ▸ h.ne_fresh (List.mem_cons_self ..))]
    exact h.head
  node := by
    intro d hd
    rcases mem_middle.mp hd with rfl | hd
    · exact hs.newFixed
    · rw [hs.fixed _ (hc ▸ h.ne_fresh (List.mem_cons_of_mem _ (List.mem_map_of_mem hd)))]
      exact h.node d hd
  linked := by
    intro i hi'
    rw [hs.head]
    exact h.linked_insert hs hc hi'
  distinct := by
    -- the new address is moved to the front, and is none of the old ones
    have hperm : (s.slHead :: (lo ++ c :: hi).map SlCell.addr).Perm
        (c.addr :: s.slHead :: (lo ++ hi).map SlCell.addr) :=
      ((List.perm_middle.map SlCell.addr).cons _).trans (List.Perm.swap ..)
    rw [hs.head, hperm.nodup_iff, List.nodup_cons]
    exact ⟨fun hm => h.ne_fresh hm hc, h.distinct⟩
  place := by
    intro a ha
    rw [hs.head, List.mem_cons, List.mem_map] at ha
    rw [hs.fresh]
    rcases ha with rfl | ⟨d, hd, rfl⟩
    · have := h.place _ (List.mem_cons_self ..)
      omega
    · rcases mem_middle.mp hd with rfl | hd
      · have := h.fresh_pos
        omega
      · have := h.place d.addr (List.mem_cons_of_mem _ (List.mem_map_of_mem hd))
        omega
  room := by
    have := h.room
    simp only [List.length_append, List.length_cons, hs.fresh] at this ⊢
    omega
  sorted := by
    have hsort := List.pairwise_append.mp h.sorted
    refine List.pairwise_append.mpr ⟨hsort.1, List.pairwise_cons.mpr ⟨hhi, hsort.2.1⟩, ?_⟩
    intro a ha b hb
    rcases List.mem_cons.mp hb with rfl | hb
    · exact hlo a ha
    · exact hsort.2.2 a ha b hb
  keys := by
    intro d hd
    rcases mem_middle.mp hd with rfl | hd
    · exact hk
    · exact h.keys d hd
  levels := by
    intro d hd
    rw [hs.rounds]
    rcases mem_middle.mp hd with rfl | hd
    · exact Nat.lt_of_lt_of_le (Nat.lt_succ_self _) (Nat.le_max_right ..)
    · exact Nat.lt_of_lt_of_le (h.levels d hd) (Nat.le_max_left ..)
  rounds := by
    rw [hs.rounds]
    exact Nat.max_le.mpr ⟨h.rounds, hl⟩

end SkipList.Holds

/-! ## A node less -/

/-- What `sl_rem` changes in the memory: the node `c` behind the cells `lo` is gone. -/
structure SlRemoved (s : SkipList α) (mem' : SlMem α) (lo : List (SlCell α)) (c : SlCell α) :
    Prop where
  fixed : ∀ a, a ≠ c.addr → fixedAt mem' a = fixedAt s.mem a
  forw : ∀ a i, a ≠ c.addr → (i ≤ c.level → a ≠ beforeAt s.slHead i lo) →
    forwAt mem' a i = forwAt s.mem a i
  lastForw : ∀ i ≤ c.level, forwAt mem' (beforeAt s.slHead i lo) i = forwAt s.mem c.addr i

/-- The levels on which there is no node are left. -/
theorem slLower_linked {cells : List (SlCell α)} {head n : Nat}
    (hlink : ∀ i < n, Linked (forwAt mem · i) head (nodesAt i cells) SL_NIL)
    (hne : ∀ c ∈ cells, c.addr ≠ SL_NIL) (hl : ∀ c ∈ cells, c.level < n) :
    ∃ m ≤ n, slLower mem head n = some m ∧ ∀ c ∈ cells, c.level < m := by
  induction n with
  | zero => exact ⟨0, Nat.le_refl 0, rfl, hl⟩
  | succ n ih =>
    have hhead : forwAt mem head n = some ((nodesAt n cells).headD SL_NIL) :=
      (hlink n (Nat.lt_succ_self n)).head
    by_cases hnil : nodesAt n cells = []
    · have hbelow : ∀ c ∈ cells, c.level < n := by
        intro c hc
        by_contra hle
        have hm : c.addr ∈ nodesAt n cells := mem_nodesAt.mpr ⟨c, hc, Nat.le_of_not_lt hle, rfl⟩
        rw [hnil] at hm
        cases hm
      obtain ⟨m, hm, hrun, hlevels⟩ := ih (fun i hi => hlink i (Nat.lt_succ_of_lt hi)) hbelow
      refine ⟨m, Nat.le_succ_of_le hm, ?_, hlevels⟩
      rw [hnil, List.headD_nil] at hhead
      simp only [slLower, hhead, Option.bind_eq_bind, Option.bind_some, if_pos, hrun]
    · obtain ⟨a, as, has⟩ := List.exists_cons_of_ne_nil hnil
      obtain ⟨c, hc, -, ha⟩ := mem_nodesAt.mp (has ▸ List.mem_cons_self .. : a ∈ nodesAt n cells)
      refine ⟨n + 1, Nat.le_refl _, ?_, hl⟩
      rw [has, List.headD_cons] at hhead
      simp only [slLower, hhead, Option.bind_eq_bind, Option.bind_some, if_neg (ha ▸ hne c hc)]

namespace SkipList.Holds

variable {s : SkipList α} {mem' : SlMem α} {cells lo hi : List (SlCell α)} {c : SlCell α}
  {level : Nat}

theorem mem_addr (s : SkipList α) (lo hi : List (SlCell α)) (c : SlCell α) :
    c.addr ∈ s.slHead :: (lo ++ c :: hi).map SlCell.addr :=
  List.mem_cons_of_mem _ (List.mem_map_of_mem (mem_middle.mpr (.inl rfl)))

/-- The other nodes have other addresses. -/
theorem distinct_middle (h : s.Holds (lo ++ c :: hi)) :
    (c.addr :: s.slHead :: (lo ++ hi).map SlCell.addr).Nodup := by
  have hperm : (s.slHead :: (lo ++ c :: hi).map SlCell.addr).Perm
      (c.addr :: s.slHead :: (lo ++ hi).map SlCell.addr) :=
    ((List.perm_middle.map SlCell.addr).cons _).trans (List.Perm.swap ..)
  exact hperm.nodup_iff.mp h.distinct

theorem ne_middle (h : s.Holds (lo ++ c :: hi)) {a : Nat}
    (ha : a ∈ s.slHead :: (lo ++ hi).map SlCell.addr) : a ≠ c.addr := by
  rintro rfl
  exact (List.nodup_cons.mp h.distinct_middle).1 ha

/-- `sl_rem` takes the first node of its key out, on every level on which it is. -/
theorem slUnsplice_removed (h : s.Holds (lo ++ c :: hi)) :
    ∃ mem', slUnsplice ((List.range s.rounds).map (beforeAt s.slHead · lo)) c.addr
        (List.range s.rounds) s.mem = some mem' ∧
      dataAt mem' c.addr = some (some c.data) ∧
      SlRemoved s (Function.update mem' c.addr none) lo c := by
  have hlevel : ∀ i < s.rounds, i < SL_MAX_LEVELS := fun i hi' => Nat.lt_of_lt_of_le hi' h.rounds
  have hc := h.levels c (mem_middle.mpr (.inl rfl))
  have hnext : ∀ i < s.rounds, i ≤ c.level →
      forwAt s.mem c.addr i = some ((nodesAt i hi).headD SL_NIL) := by
    intro i hi' hle
    have hlink := h.linked i (hlevel i hi')
    rw [nodesAt_append, nodesAt_cons_of_le hle] at hlink
    exact (Linked.append.mp hlink).2.head
  -- the cell before it leads to it on the levels that it has, and past it on the others
  have hfound : ∀ i < s.rounds, (nodesAt i (c :: hi)).headD SL_NIL = c.addr ↔ i ≤ c.level := by
    intro i hi'
    constructor
    · intro he
      by_contra hle
      rw [nodesAt_cons_of_lt (Nat.lt_of_not_le hle)] at he
      cases hn : nodesAt i hi with
      | nil =>
        rw [hn, List.headD_nil] at he
        exact Nat.ne_of_lt (h.place _ (mem_addr s lo hi c)).1 he
      | cons a as =>
        rw [hn, List.headD_cons] at he
        have ha : a ∈ nodesAt i hi := hn ▸ List.mem_cons_self ..
        have hm : a ∈ (lo ++ hi).map SlCell.addr := by
          rw [List.map_append]
          exact List.mem_append_right _ ((nodesAt_sublist i hi).mem ha)
        exact h.ne_middle (List.mem_cons_of_mem _ hm) he
    · intro hle
      rw [nodesAt_cons_of_le hle, List.headD_cons]
  obtain ⟨mem', hrun, hfix, hforw⟩ := slUnsplice_some s.mem (List.range s.rounds)
    c.level (p := c.addr) (u := (beforeAt s.slHead · lo))
    (f := fun i => (nodesAt i (c :: hi)).headD SL_NIL) (r := fun i => (nodesAt i hi).headD SL_NIL)
    (fun i hi' => by
      rw [List.getElem?_map, List.getElem?_range (List.mem_range.mp hi')]
      rfl)
    (fun i hi' => h.forwAt_before (hlevel i (List.mem_range.mp hi')))
    (fun i hi' => hfound i (List.mem_range.mp hi'))
    (fun i hi' => hnext i (List.mem_range.mp hi')) (List.pairwise_lt_range)
  have hfree : ∀ a, a ≠ c.addr → Function.update mem' c.addr none a = mem' a :=
    fun a ha => Function.update_of_ne ha ..
  refine ⟨mem', hrun, ?_, ?_, ?_, ?_⟩
  · have hnode := h.node c (mem_middle.mpr (.inl rfl))
    rw [← hfix] at hnode
    exact dataAt_fixed hnode
  · intro a ha
    rw [fixedAt, hfree a ha, ← fixedAt, hfix]
  · intro a i ha hlast
    rw [forwAt, hfree a ha, ← forwAt, hforw, if_neg fun he => hlast he.2.1 he.2.2]
  · intro i hle
    have hi' : i < s.rounds := Nat.lt_of_le_of_lt hle hc
    have hne : beforeAt s.slHead i lo ≠ c.addr := h.ne_middle (before_mem s i lo hi)
    rw [forwAt, hfree _ hne, ← forwAt, hforw, if_pos ⟨List.mem_range.mpr hi', hle, rfl⟩,
      hnext i hi' hle]

/-- On its own levels, the node is gone from behind the last of `lo`; the other levels are as
before. -/
theorem linked_remove (h : s.Holds (lo ++ c :: hi)) (hr : SlRemoved s mem' lo c)
    (hi' : i < SL_MAX_LEVELS) :
    Linked (forwAt mem' · i) s.slHead (nodesAt i (lo ++ hi)) SL_NIL := by
  have hlink := h.linked i hi'
  have hd := h.distinct_nodesAt i
  by_cases hle : i ≤ c.level
  · rw [nodesAt_append, nodesAt_cons_of_le hle] at hlink hd
    rw [nodesAt_append]
    exact hlink.remove hd (hr.lastForw i hle) fun a ha hlast => hr.forw a i ha fun _ => hlast
  · rw [nodesAt_append, nodesAt_cons_of_lt (Nat.lt_of_not_le hle), ← nodesAt_append] at hlink
    refine hlink.congr fun a ha => hr.forw a i ?_ fun h => absurd h hle
    exact h.ne_middle (nodesAt_mem s ha)

/-- The list holds the other cells, with the level that `sl_rem` finds for them. -/
theorem remove (h : s.Holds (lo ++ c :: hi)) (hr : SlRemoved s mem' lo c) {m : Nat}
    (hm : m ≤ s.rounds) (hl : ∀ d ∈ lo ++ hi, d.level < m) :
    ({ s with mem := mem', slLevel := (((m : Int) - 1) % 2 ^ 32).toNat } : SkipList α).Holds
      (lo ++ hi) := by
  have hrounds := rounds_lowered (Nat.le_trans hm h.rounds) { s with mem := mem' }
  have hplace := h.place _ (mem_addr s lo hi c)
  have hsub : (lo ++ hi).Sublist (lo ++ c :: hi) :=
    (List.Sublist.refl lo).append (List.sublist_cons_self c hi)
  exact {
    null := by
      rw [hr.fixed NULL (Nat.ne_of_lt (Nat.lt_trans Nat.zero_lt_one hplace.1))]
      exact h.null
    nil := by
      rw [hr.fixed SL_NIL (Nat.ne_of_lt hplace.1)]
      exact h.nil
    nilForw := by
      rw [hr.forw SL_NIL 0 (Nat.ne_of_lt hplace.1) fun _ => Nat.ne_of_lt (h.before_place 0).1]
      exact h.nilForw
    head := by
      rw [hr.fixed _ (h.ne_middle (List.mem_cons_self ..))]
      exact h.head
    node := by
      intro d hd
      rw [hr.fixed _ (h.ne_middle (List.mem_cons_of_mem _ (List.mem_map_of_mem hd)))]
      exact h.node d (hsub.mem hd)
    linked := fun i hi' => h.linked_remove hr hi'
    distinct := (List.nodup_cons.mp h.distinct_middle).2
    place := fun a ha => h.place a (((hsub.map SlCell.addr).cons_cons _).mem ha)
    room := Nat.lt_of_le_of_lt hsub.length_le h.room
    sorted := h.sorted.sublist hsub
    keys := fun d hd => h.keys d (hsub.mem hd)
    levels := by
      intro d hd
      rw [hrounds]
      exact hl d hd
    rounds := by
      rw [hrounds]
      exact Nat.le_trans hm h.rounds }

end SkipList.Holds

/-! ## Calls -/

/-- The cells below a key, and the others: either all of these are above the key, or the first one
has it. -/
theorem split_key {cells : List (SlCell α)} (hs : cells.Pairwise fun c d => c.key ≤ d.key)
    (key : Nat) : ∃ lo hi, cells = lo ++ hi ∧ (∀ c ∈ lo, c.key < key) ∧
      ((∀ c ∈ hi, key < c.key) ∨
        ∃ c rest, hi = c :: rest ∧ c.key = key ∧ ∀ d ∈ hi, key ≤ d.key) := by
  induction cells with
  | nil => exact ⟨[], [], rfl, by simp, .inl (by simp)⟩
  | cons c cells ih =>
    obtain ⟨hle, hs⟩ := List.pairwise_cons.mp hs
    rcases Nat.lt_trichotomy c.key key with hlt | heq | hgt
    · obtain ⟨lo, hi, rfl, hlo, hhi⟩ := ih hs
      refine ⟨c :: lo, hi, rfl, ?_, hhi⟩
      intro d hd
      rcases List.mem_cons.mp hd with rfl | hd
      · exact hlt
      · exact hlo d hd
    · refine ⟨[], c :: cells, rfl, by simp, .inr ⟨c, cells, rfl, heq, ?_⟩⟩
      intro d hd
      rcases List.mem_cons.mp hd with rfl | hd
      · exact Nat.le_of_eq heq.symm
      · exact heq ▸ hle d hd
    · refine ⟨[], c :: cells, rfl, by simp, .inl ?_⟩
      intro d hd
      rcases List.mem_cons.mp hd with rfl | hd
      · exact hgt
      · exact Nat.lt_of_lt_of_le hgt (hle d hd)

section Entries

variable {lo hi : List (SlCell α)} {c : SlCell α}

theorem entries_append (lo hi : List (SlCell α)) : entries (lo ++ hi) = entries lo ++ entries hi :=
  List.map_append

/-- An entry is inserted between those below its key and the others. -/
theorem entries_insert (hlo : ∀ c ∈ lo, c.key < key) (hhi : ∀ c ∈ hi, key ≤ c.key) (x : α) :
    (entries (lo ++ hi)).takeWhile (·.1 < key) ++
        (key, x) :: (entries (lo ++ hi)).dropWhile (·.1 < key) =
      entries lo ++ (key, x) :: entries hi := by
  have hhead : (entries hi).takeWhile (·.1 < key) = [] ∧
      (entries hi).dropWhile (·.1 < key) = entries hi := by
    cases hi with
    | nil => exact ⟨rfl, rfl⟩
    | cons c hi =>
      have hc := Nat.not_lt_of_le (hhi c (List.mem_cons_self ..))
      simp [entries, hc]
  have hall : ∀ x ∈ entries lo, decide (x.1 < key) = true := by
    intro x hx
    obtain ⟨c, hc, rfl⟩ := List.mem_map.mp hx
    exact decide_eq_true (hlo c hc)
  rw [entries_append, List.takeWhile_append_of_pos hall, List.dropWhile_append_of_pos hall,
    hhead.1, hhead.2, List.append_nil]

/-- The latest entry of a key is the first one. -/
theorem find_entry (hlo : ∀ c ∈ lo, c.key < key) (hc : c.key = key) :
    (entries (lo ++ c :: hi)).find? (·.1 = key) = some (c.key, c.data) := by
  have hnone : (entries lo).find? (·.1 = key) = none := by
    rw [List.find?_eq_none]
    intro x hx
    obtain ⟨d, hd, rfl⟩ := List.mem_map.mp hx
    simpa using Nat.ne_of_lt (hlo d hd)
  rw [entries_append, List.find?_append, hnone, Option.none_or]
  exact List.find?_cons_of_pos (by simpa using hc)

theorem find_entry_none (hlo : ∀ c ∈ lo, c.key < key) (hhi : ∀ c ∈ hi, key < c.key) :
    (entries (lo ++ hi)).find? (·.1 = key) = none := by
  rw [List.find?_eq_none]
  intro x hx
  obtain ⟨d, hd, rfl⟩ := List.mem_map.mp hx
  rcases List.mem_append.mp hd with hd | hd
  · simpa using Nat.ne_of_lt (hlo d hd)
  · simpa using Nat.ne_of_gt (hhi d hd)

theorem erase_entry (hlo : ∀ c ∈ lo, c.key < key) (hc : c.key = key) :
    (entries (lo ++ c :: hi)).eraseP (·.1 = key) = entries (lo ++ hi) := by
  have hnone : ∀ x ∈ entries lo, ¬decide (x.1 = key) = true := by
    intro x hx
    obtain ⟨d, hd, rfl⟩ := List.mem_map.mp hx
    simpa using Nat.ne_of_lt (hlo d hd)
  rw [entries_append, entries_append, List.eraseP_append_right _ hnone]
  exact congrArg _ (List.eraseP_cons_of_pos (by simpa using hc))

end Entries

namespace SkipList.Holds

variable {s : SkipList α} {cells lo hi : List (SlCell α)} {c : SlCell α}

theorem first_forw (h : s.Holds (lo ++ hi)) :
    forwAt s.mem (beforeAt s.slHead 0 lo) 0 = some ((hi.map SlCell.addr).headD SL_NIL) := by
  have hf := h.forwAt_before (i := 0) (by decide)
  rwa [nodesAt_zero] at hf

/-- A search for a key that no entry has ends at one with another key, or at `sl_NIL`. -/
theorem first_other (h : s.Holds (lo ++ hi)) (hhi : ∀ c ∈ hi, key < c.key)
    (hk : hi = [] → key ≠ NIL_KEY) :
    ∃ k, keyAt s.mem ((hi.map SlCell.addr).headD SL_NIL) = some k ∧ k ≠ key := by
  cases hi with
  | nil => exact ⟨NIL_KEY, keyAt_fixed h.nil, (hk rfl).symm⟩
  | cons c hi =>
    exact ⟨c.key, keyAt_fixed (h.node c (mem_middle.mpr (.inl rfl))),
      Nat.ne_of_gt (hhi c (List.mem_cons_self ..))⟩

/-- A key that no entry has is not found, nor removed. -/
theorem slFindPos_absent (h : s.Holds (lo ++ hi)) (hlo : ∀ c ∈ lo, c.key < key)
    (hhi : ∀ c ∈ hi, key < c.key) (hk : key ≤ NIL_KEY) (hne : hi = [] → key ≠ NIL_KEY) :
    slFindPos s key = some none := by
  obtain ⟨k, hkey, hne⟩ := h.first_other hhi hne
  have hd := h.slDescend_head hlo (fun c hc => Nat.le_of_lt (hhi c hc)) hk
  simp only [slFindPos, hd, Option.bind_eq_bind, Option.bind_some, h.first_forw, hkey, if_pos hne]
  rfl

theorem slRem_absent (h : s.Holds (lo ++ hi)) (hlo : ∀ c ∈ lo, c.key < key)
    (hhi : ∀ c ∈ hi, key < c.key) (hk : key ≤ NIL_KEY) (hne : hi = [] → key ≠ NIL_KEY) :
    slRem s key = some none := by
  obtain ⟨k, hkey, hne⟩ := h.first_other hhi hne
  have hd := h.slDescend_head hlo (fun c hc => Nat.le_of_lt (hhi c hc)) hk
  simp only [slRem, hd, Option.bind_eq_bind, Option.bind_some, h.first_forw, hkey, if_pos hne]
  rfl

/-- The first entry of a key is found. -/
theorem slFindPos_found (h : s.Holds (lo ++ c :: hi)) (hlo : ∀ c ∈ lo, c.key < key)
    (hhi : ∀ d ∈ c :: hi, key ≤ d.key) (hc : c.key = key) :
    slFindPos s key = some (some (c.addr, some c.data)) := by
  have hk : key ≤ NIL_KEY := hc ▸ h.keys c (mem_middle.mpr (.inl rfl))
  have hd := h.slDescend_head hlo hhi hk
  have hnode := h.node c (mem_middle.mpr (.inl rfl))
  simp only [slFindPos, hd, Option.bind_eq_bind, Option.bind_some, h.first_forw, List.map_cons,
    List.headD_cons, keyAt_fixed hnode, if_neg (not_not_intro hc), dataAt_fixed hnode]
  rfl

theorem ne_nil (h : s.Holds cells) : ∀ c ∈ cells, c.addr ≠ SL_NIL := by
  intro c hc
  exact Nat.ne_of_gt (h.place c.addr (List.mem_cons_of_mem _ (List.mem_map_of_mem hc))).1

/-- The first entry of a key is removed, and the list then holds the others. -/
theorem slRem_found (h : s.Holds (lo ++ c :: hi)) (hlo : ∀ c ∈ lo, c.key < key)
    (hhi : ∀ d ∈ c :: hi, key ≤ d.key) (hc : c.key = key) :
    ∃ s', slRem s key = some (some (some c.data, s')) ∧ s'.Holds (lo ++ hi) := by
  have hk : key ≤ NIL_KEY := hc ▸ h.keys c (mem_middle.mpr (.inl rfl))
  have hd := h.slDescend_head hlo hhi hk
  have hnode := h.node c (mem_middle.mpr (.inl rfl))
  obtain ⟨mem', hun, hdata, hr⟩ := h.slUnsplice_removed
  obtain ⟨m, hm, hlow, hlevels⟩ := slLower_linked
    (fun i hi' => h.linked_remove hr (Nat.lt_of_lt_of_le hi' h.rounds))
    (fun d hm => h.ne_nil d (mem_middle.mpr (.inr hm)))
    (fun d hm => h.levels d (mem_middle.mpr (.inr hm)))
  refine ⟨_, ?_, h.remove hr hm hlevels⟩
  simp only [slRem, hd, Option.bind_eq_bind, Option.bind_some, h.first_forw, List.map_cons,
    List.headD_cons, keyAt_fixed hnode, if_neg (not_not_intro hc), hun, hdata, hlow]
  rfl

theorem find_step (h : s.Holds cells) (key : Fin NIL_KEY) :
    slStep s (.find key) = some ((multiStep (entries cells) (.find key)).1, s) := by
  have hne := Nat.ne_of_lt key.isLt
  obtain ⟨lo, hi, rfl, hlo, hhi | ⟨c, rest, rfl, hc, hhi⟩⟩ := split_key h.sorted key
  · have hrun := h.slFindPos_absent hlo hhi (Nat.le_of_lt key.isLt) fun _ => hne
    simp only [slStep, hrun, multiStep, find_entry_none hlo hhi, Option.map_some]
  · have hrun := h.slFindPos_found hlo hhi hc
    simp only [slStep, hrun, multiStep, find_entry hlo hc, Option.map_some]

theorem ins_step (h : s.Holds cells) (key : Fin NIL_KEY) (x : α) (level : Fin SL_MAX_LEVELS) :
    ∃ s' cells', slStep s (.ins key x level) = some (.inserted, s') ∧ s'.Holds cells' ∧
      entries cells' = (multiStep (entries cells) (.ins key x level)).2 := by
  obtain ⟨lo, hi, rfl, hlo, hkey⟩ := split_key h.sorted key
  have hhi : ∀ c ∈ hi, key.val ≤ c.key := by
    rcases hkey with hlt | ⟨-, -, -, -, hle⟩
    · exact fun c hc => Nat.le_of_lt (hlt c hc)
    · exact hle
  obtain ⟨s', hrun, hs⟩ := h.slIns_inserted hlo hhi (Nat.le_of_lt key.isLt) level.isLt x
  refine ⟨s', _, ?_,
    h.insert hs rfl (fun c hc => Nat.le_of_lt (hlo c hc)) hhi
      (Nat.le_of_lt key.isLt) level.isLt, ?_⟩
  · simp only [slStep, hrun, Option.map_some]
  · exact (entries_append ..).trans (entries_insert hlo hhi x).symm

theorem rem_step (h : s.Holds cells) (key : Fin NIL_KEY) :
    ∃ r s' cells', slStep s (.rem key) = some (r, s') ∧ s'.Holds cells' ∧
      (r, entries cells') = multiStep (entries cells) (.rem key) := by
  have hne := Nat.ne_of_lt key.isLt
  obtain ⟨lo, hi, rfl, hlo, hhi | ⟨c, rest, rfl, hc, hhi⟩⟩ := split_key h.sorted key
  · have hrun := h.slRem_absent hlo hhi (Nat.le_of_lt key.isLt) fun _ => hne
    refine ⟨.failed, s, lo ++ hi, ?_, h, ?_⟩
    · simp only [slStep, hrun, Option.map_some]
    · simp only [multiStep, find_entry_none hlo hhi]
  · obtain ⟨s', hrun, h'⟩ := h.slRem_found hlo hhi hc
    refine ⟨.found (some c.data), s', lo ++ rest, ?_, h', ?_⟩
    · simp only [slStep, hrun, Option.map_some]
    · simp only [multiStep, find_entry hlo hc, erase_entry hlo hc]

/-- From a node, `sl_walk` visits those after it. -/
theorem slWalkOn_linked {n : Nat} (hl : Linked (forwAt s.mem · 0) p (hi.map SlCell.addr) SL_NIL)
    (hnode : ∀ c ∈ hi, fixedAt s.mem c.addr = some (some c.data, c.key, c.level + 1))
    (hne : ∀ c ∈ hi, c.addr ≠ SL_NIL) (hn : hi.length < n) :
    slWalkOn s n p = some (hi.map fun c => some c.data) := by
  induction n generalizing p hi with
  | zero => exact absurd hn (Nat.not_lt_zero _)
  | succ n ih =>
    cases hi with
    | nil =>
      have hp : forwAt s.mem p 0 = some SL_NIL := hl
      simp only [slWalkOn, slWalk, hp, Option.bind_eq_bind, Option.bind_some, if_pos]
      rfl
    | cons c hi =>
      have hp : forwAt s.mem p 0 = some c.addr := hl.1
      have hrest := ih hl.2 (fun d hd => hnode d (List.mem_cons_of_mem c hd))
        (fun d hd => hne d (List.mem_cons_of_mem c hd)) (Nat.lt_of_succ_lt_succ hn)
      simp only [slWalkOn, slWalk, hp, Option.bind_eq_bind, Option.bind_some,
        if_neg (hne c (List.mem_cons_self ..)), dataAt_fixed (hnode c (List.mem_cons_self ..)),
        List.map_cons]
      show (slWalkOn s n c.addr).bind _ = _
      rw [hrest]
      rfl

theorem levelZero_linked {n : Nat} (hl : Linked (forwAt mem · 0) p (hi.map SlCell.addr) SL_NIL)
    (hnode : ∀ c ∈ hi, fixedAt mem c.addr = some (some c.data, c.key, c.level + 1))
    (hne : ∀ c ∈ hi, c.addr ≠ SL_NIL) (hn : hi.length < n) :
    levelZero mem n p = some (hi.map fun c => (c.key, some c.data)) := by
  induction n generalizing p hi with
  | zero => exact absurd hn (Nat.not_lt_zero _)
  | succ n ih =>
    cases hi with
    | nil =>
      have hp : forwAt mem p 0 = some SL_NIL := hl
      simp only [levelZero, hp, Option.bind_eq_bind, Option.bind_some, if_pos]
      rfl
    | cons c hi =>
      have hp : forwAt mem p 0 = some c.addr := hl.1
      have hc := hnode c (List.mem_cons_self ..)
      have hrest := ih hl.2 (fun d hd => hnode d (List.mem_cons_of_mem c hd))
        (fun d hd => hne d (List.mem_cons_of_mem c hd)) (Nat.lt_of_succ_lt_succ hn)
      simp only [levelZero, hp, Option.bind_eq_bind, Option.bind_some,
        if_neg (hne c (List.mem_cons_self ..)), keyAt_fixed hc, dataAt_fixed hc, hrest]
      rfl

/-- Level 0 holds the entries. -/
theorem shows (h : s.Holds cells) : ShowsEntries s (entries cells) := by
  have hlink := h.linked 0 (by decide)
  rw [nodesAt_zero] at hlink
  constructor
  · rw [levelZero_linked hlink h.node h.ne_nil h.room]
    simp [entries]
  · exact List.pairwise_map.mpr h.sorted

/-- A walk visits the entries, if there are any. -/
theorem walk_step (h : s.Holds cells) (hne : entries cells ≠ []) :
    slStep s .walk = some ((multiStep (entries cells) .walk).1, s) := by
  cases cells with
  | nil => exact absurd rfl hne
  | cons c cells =>
    have hlink := h.linked 0 (by decide)
    rw [nodesAt_zero] at hlink
    have hnode := h.node c (List.mem_cons_self ..)
    have hp : forwAt s.mem s.slHead 0 = some c.addr := hlink.1
    have hrest := slWalkOn_linked hlink.2 (fun d hd => h.node d (List.mem_cons_of_mem c hd))
      (fun d hd => h.ne_nil d (List.mem_cons_of_mem c hd)) (Nat.lt_of_succ_lt h.room)
    have hrun : slWalkAll s = some ((c :: cells).map fun c => some c.data) := by
      simp only [slWalkAll, slFindFirstPos, hp, Option.bind_eq_bind, Option.bind_some,
        dataAt_fixed hnode]
      show (slWalkOn s s.fresh c.addr).bind _ = _
      rw [hrest]
      rfl
    simp [slStep, hrun, multiStep, entries]

/-- A walk on an empty list follows the null pointer of `sl_NIL`. -/
theorem walk_empty (h : s.Holds []) : slStep s .walk = none := by
  have hlink := h.linked 0 (by decide)
  have hp : forwAt s.mem s.slHead 0 = some SL_NIL := hlink
  have hnull : dataAt s.mem NULL = none := by
    rw [dataAt, Option.map_eq_none_iff]
    exact Option.map_eq_none_iff.mp h.null
  have hwalk : ∀ n, slWalkOn s n SL_NIL = none := by
    intro n
    cases n with
    | zero => rfl
    | succ n =>
      cases hq : forwAt s.mem SL_NIL 0 with
      | none => simp only [slWalkOn, slWalk, hq, Option.bind_eq_bind, Option.bind_none]
      | some q =>
        have hne : NULL ≠ SL_NIL := by decide
        rw [h.nilForw q hq] at hq
        simp only [slWalkOn, slWalk, hq, Option.bind_eq_bind, Option.bind_some, if_neg hne, hnull,
          Option.bind_none]
  simp only [slStep, slWalkAll, slFindFirstPos, hp, Option.bind_eq_bind, Option.bind_some,
    dataAt_fixed h.nil]
  show Option.map _ ((slWalkOn s s.fresh SL_NIL).bind _) = none
  rw [hwalk]
  rfl

/-- Every call but a walk on an empty list gives what it gives on the sorted list, and keeps the
cells in order. -/
theorem step (h : s.Holds cells) (op : SlOp α) (hop : op = .walk → entries cells ≠ []) :
    ∃ r s' cells', slStep s op = some (r, s') ∧ s'.Holds cells' ∧
      (r, entries cells') = multiStep (entries cells) op := by
  cases op with
  | ins key x level =>
    obtain ⟨s', cells', hrun, h', he⟩ := h.ins_step key x level
    exact ⟨.inserted, s', cells', hrun, h', by rw [he]; rfl⟩
  | find key =>
    refine ⟨_, s, cells, h.find_step key, h, ?_⟩
    simp only [multiStep]
    cases (entries cells).find? (·.1 = key.val) <;> rfl
  | rem key => exact h.rem_step key
  | walk => exact ⟨_, s, cells, h.walk_step (hop rfl), h, rfl⟩

/-- A run works exactly as long as no walk begins on an empty list. -/
theorem works_iff (h : s.Holds cells) (ops : List (SlOp α)) :
    SlWorks s (entries cells) ops ↔ WalksEntries (entries cells) ops := by
  induction ops generalizing s cells with
  | nil => exact ⟨fun _ => trivial, fun _ => h.shows⟩
  | cons op ops ih =>
    constructor
    · rintro ⟨-, r, s', hrun, hr, hworks⟩
      have hop : op = .walk → entries cells ≠ [] := by
        rintro rfl hnil
        rw [List.map_eq_nil_iff.mp hnil] at h
        rw [h.walk_empty] at hrun
        cases hrun
      obtain ⟨r', s'', cells', hrun', h', he⟩ := h.step op hop
      rw [hrun] at hrun'
      obtain ⟨rfl, rfl⟩ : r = r' ∧ s' = s'' := by
        cases hrun'
        exact ⟨rfl, rfl⟩
      refine ⟨hop, ?_⟩
      rw [← he] at hworks ⊢
      exact (ih h').mp hworks
    · rintro ⟨hop, hwalks⟩
      obtain ⟨r, s', cells', hrun, h', he⟩ := h.step op hop
      refine ⟨h.shows, r, s', hrun, congrArg Prod.fst he, ?_⟩
      rw [← he] at hwalks ⊢
      exact (ih h').mpr hwalks

end SkipList.Holds

theorem slInit_holds : (slInit : SkipList α).Holds [] where
  null := rfl
  nil := rfl
  nilForw := by
    intro q hq
    cases hq
    rfl
  head := rfl
  node := by simp
  linked := by
    intro i hi
    show forwAt (slInit : SkipList α).mem 2 i = some SL_NIL
    have hslot : i < SL_MAX_LEVELS + 1 := Nat.lt_succ_of_lt hi
    exact (if_pos hslot).trans (if_pos hi)
  distinct := by simp
  place := by
    intro a ha
    have ha : a = 2 := List.mem_singleton.mp ha
    rw [ha]
    exact ⟨by decide, Nat.lt_succ_self 2⟩
  room := Nat.succ_pos 2
  sorted := List.Pairwise.nil
  keys := by simp
  levels := by simp
  rounds := (rounds_succ (by decide) slInit).trans_le (by decide)

/-- From `sl_init` on, a run gives what a sorted multimap gives, without a read that is undefined,
exactly as long as no walk begins on an empty list. -/
theorem slRun_multimap (ops : List (SlOp α)) :
    SlWorks slInit [] ops ↔ WalksEntries [] ops :=
  slInit_holds.works_iff ops

/-- A walk on the list that `sl_init` makes. -/
theorem slWalk_null : ¬SlWorks (slInit : SkipList Nat) [] [.walk] := by
  rintro ⟨-, r, s', hrun, -⟩
  rw [slInit_holds.walk_empty] at hrun
  cases hrun

end Spegla
