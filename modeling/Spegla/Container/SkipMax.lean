import Spegla.Container.SkipRuns

/-!
# The greatest key in skip lists (`container.c`)

`sl_NIL` ends every level, and its key is the greatest one that there is. A search for that key may
stop at it.

- `SlCall`, `slCall`: the calls that take a key, which may be any.
- `SparesNil`: a call does not give out `sl_NIL`, read its pointers, unlink it or free it.
- `SkipList.Holds.spares`, `spares_live`: when a call does, and when a run does.
-/

namespace Spegla

variable {α : Type} {mem : SlMem α} {p i : Nat}

/-! ## Calls with any key -/

/-- `sl_find`. -/
def slFind (s : SkipList α) (key : Nat) : Option (Option (Option α)) := do
  match ← slFindPos s key with
  | none => return none
  | some (_, data) => return some data

/-- One call, with any key. -/
inductive SlCall (α : Type) where
  | ins (key : Fin (2 ^ 32)) (data : α) (level : Fin SL_MAX_LEVELS)
  | findPos (key : Fin (2 ^ 32))
  | find (key : Fin (2 ^ 32))
  | rem (key : Fin (2 ^ 32))

inductive SlAnswer (α : Type) where
  | done
  | failed
  | position (p : Nat) (data : Option α)
  | data (data : Option α)
deriving DecidableEq, Repr

/-- A call: what it gives, and the list after it. -/
def slCall (s : SkipList α) : SlCall α → Option (SlAnswer α × SkipList α)
  | .ins key data level => (slIns s key data level).map fun s' => (.done, s')
  | .findPos key =>
    (slFindPos s key).map fun
      | none => (.failed, s)
      | some (p, data) => (.position p data, s)
  | .find key =>
    (slFind s key).map fun
      | none => (.failed, s)
      | some data => (.data data, s)
  | .rem key =>
    (slRem s key).map fun
      | none => (.failed, s)
      | some (data, s') => (.data data, s')

/-- The key that a call looks for. -/
def SlCall.sought : SlCall α → Option Nat
  | .ins _ _ _ => none
  | .findPos key => some key
  | .find key => some key
  | .rem key => some key

/-- The keys that have been inserted, after a call. -/
def SlCall.inserted (keys : List Nat) : SlCall α → List Nat
  | .ins key _ _ => key :: keys
  | _ => keys

/-- The keys of the live entries, after a call. -/
def SlCall.live (keys : List Nat) : SlCall α → List Nat
  | .ins key _ _ => key :: keys
  | .rem key => keys.erase key
  | _ => keys

/-! ## Sparing `sl_NIL` -/

/-- The list, but no pointer of `sl_NIL` can be read. -/
def SkipList.veiled (s : SkipList α) : SkipList α :=
  { s with
    mem := Function.update s.mem SL_NIL
      ((s.mem SL_NIL).map fun n => { n with slnForw := fun _ => none }) }

/-- `sl_NIL` is in memory, and every level leads to it. -/
structure SkipList.KeepsNil (s : SkipList α) : Prop where
  fixed : fixedAt s.mem SL_NIL = some (none, NIL_KEY, 1)
  linked : ∀ i < SL_MAX_LEVELS, ∃ as, SL_NIL ∉ as ∧ Linked (forwAt s.mem · i) s.slHead as SL_NIL

/-- A call that spares `sl_NIL`: it is not the position or the data (a null pointer) that is given,
none of its pointers is read, and it is kept. `sl_find` fails for a key that was never inserted. -/
structure SparesNil (s : SkipList α) (keys : List Nat) (call : SlCall α) (r : SlAnswer α)
    (s' : SkipList α) : Prop where
  runs : slCall s call = some (r, s')
  unread : (slCall s.veiled call).isSome
  position : ∀ data, r ≠ .position SL_NIL data
  data : r ≠ .data none
  kept : s'.KeepsNil
  fails : ∀ key, call = .find key → key.val ∉ keys → r = .failed

/-- Every call spares `sl_NIL`. -/
def SparesNilAll (s : SkipList α) (keys : List Nat) : List (SlCall α) → Prop
  | [] => True
  | call :: calls =>
    ∃ r s', SparesNil s keys call r s' ∧ SparesNilAll s' (call.inserted keys) calls

/-- Whenever the key of `sl_NIL` is looked for, a live entry has it. -/
def FindsLive (keys : List Nat) : List (SlCall α) → Prop
  | [] => True
  | call :: calls =>
    (call.sought = some NIL_KEY → NIL_KEY ∈ keys) ∧ FindsLive (call.live keys) calls

theorem key_le (key : Fin (2 ^ 32)) : key.val ≤ NIL_KEY := Nat.le_of_lt_succ key.isLt

namespace SkipList.Holds

variable {s : SkipList α} {cells lo hi : List (SlCell α)} {keys live : List Nat}

/-! ## The list without the pointers of `sl_NIL` -/

theorem head_ne (h : s.Holds cells) : s.slHead ≠ SL_NIL :=
  Nat.ne_of_gt (h.place _ (List.mem_cons_self ..)).1

theorem veiled_nil (s : SkipList α) :
    s.veiled.mem SL_NIL = (s.mem SL_NIL).map fun n => { n with slnForw := fun _ => none } :=
  Function.update_self SL_NIL _ s.mem

theorem veiled_ne {a : Nat} (ha : a ≠ SL_NIL) : s.veiled.mem a = s.mem a :=
  Function.update_of_ne ha _ s.mem

theorem fixedAt_veiled (s : SkipList α) : fixedAt s.veiled.mem = fixedAt s.mem := by
  funext a
  by_cases ha : a = SL_NIL
  · rw [ha, fixedAt, fixedAt, veiled_nil, Option.map_map]
    rfl
  · rw [fixedAt, fixedAt, veiled_ne ha]

theorem forwAt_veiled {a : Nat} (ha : a ≠ SL_NIL) (i : Nat) :
    forwAt s.veiled.mem a i = forwAt s.mem a i := by
  rw [forwAt, forwAt, veiled_ne ha]

theorem forwAt_veiled_nil (s : SkipList α) (i : Nat) : forwAt s.veiled.mem SL_NIL i = none := by
  rw [forwAt, veiled_nil]
  cases s.mem SL_NIL with
  | none => rfl
  | some n => simp

theorem veiled (h : s.Holds cells) : s.veiled.Holds cells where
  null := by
    rw [fixedAt_veiled]
    exact h.null
  nil := by
    rw [fixedAt_veiled]
    exact h.nil
  nilForw := by
    intro q hq
    rw [forwAt_veiled_nil] at hq
    cases hq
  head := by
    rw [fixedAt_veiled]
    exact h.head
  node := by
    rw [fixedAt_veiled]
    exact h.node
  linked := by
    intro i hi
    refine (h.linked i hi).congr fun a ha => forwAt_veiled ?_ i
    exact Nat.ne_of_gt (h.place a (nodesAt_mem s ha)).1
  distinct := h.distinct
  place := h.place
  room := h.room
  sorted := h.sorted
  keys := h.keys
  levels := h.levels
  rounds := h.rounds

theorem keepsNil (h : s.Holds cells) : s.KeepsNil where
  fixed := h.nil
  linked := by
    intro i hi
    refine ⟨nodesAt i cells, ?_, h.linked i hi⟩
    intro hm
    obtain ⟨c, hc, -, he⟩ := mem_nodesAt.mp hm
    exact h.ne_nil c hc he

/-! ## One call -/

/-- A key that no entry has is not that of `sl_NIL`, if that one is looked for only when live. -/
theorem ne_nilKey {key : Nat} (hlive : live.Perm (cells.map SlCell.key))
    (hcells : cells = lo ++ hi) (hlo : ∀ c ∈ lo, c.key < key) (hhi : ∀ c ∈ hi, key < c.key)
    (hop : key = NIL_KEY → NIL_KEY ∈ live) : key ≠ NIL_KEY := by
  intro he
  obtain ⟨c, hc, hkey⟩ := List.mem_map.mp (hlive.mem_iff.mp (hop he))
  rw [hcells, List.mem_append] at hc
  rcases hc with hc | hc
  · exact absurd (hlo c hc) (by omega)
  · exact absurd (hhi c hc) (by omega)

theorem findPos_spares (h : s.Holds cells) (hlive : live.Perm (cells.map SlCell.key))
    (key : Fin (2 ^ 32)) (hop : key.val = NIL_KEY → NIL_KEY ∈ live) :
    slFindPos s key = some none ∧ slFindPos s.veiled key = some none ∨
      ∃ c ∈ cells, c.key = key ∧ slFindPos s key = some (some (c.addr, some c.data)) ∧
        slFindPos s.veiled key = some (some (c.addr, some c.data)) := by
  have hv := h.veiled
  obtain ⟨lo, hi, rfl, hlo, hhi | ⟨c, rest, rfl, hc, hhi⟩⟩ := split_key h.sorted key
  · have hne := ne_nilKey hlive rfl hlo hhi hop
    exact .inl ⟨h.slFindPos_absent hlo hhi (key_le key) fun _ => hne,
      hv.slFindPos_absent hlo hhi (key_le key) fun _ => hne⟩
  · exact .inr ⟨c, mem_middle.mpr (.inl rfl), hc, h.slFindPos_found hlo hhi hc,
      hv.slFindPos_found hlo hhi hc⟩

theorem ins_spares (h : s.Holds cells) (hlive : live.Perm (cells.map SlCell.key))
    (hkeys : ∀ c ∈ cells, c.key ∈ keys) (key : Fin (2 ^ 32)) (x : α) (level : Fin SL_MAX_LEVELS) :
    ∃ s' cells', SparesNil s keys (.ins key x level) .done s' ∧ s'.Holds cells' ∧
      (key.val :: live).Perm (cells'.map SlCell.key) ∧ ∀ c ∈ cells', c.key ∈ key.val :: keys := by
  obtain ⟨lo, hi, rfl, hlo, hkey⟩ := split_key h.sorted key
  have hhi : ∀ c ∈ hi, key.val ≤ c.key := by
    rcases hkey with hlt | ⟨-, -, -, -, hle⟩
    · exact fun c hc => Nat.le_of_lt (hlt c hc)
    · exact hle
  obtain ⟨s', hrun, hs⟩ := h.slIns_inserted hlo hhi (key_le key) level.isLt x
  obtain ⟨v, hv, -⟩ := h.veiled.slIns_inserted hlo hhi (key_le key) level.isLt x
  have h' := h.insert hs rfl (fun c hc => Nat.le_of_lt (hlo c hc)) hhi (key_le key) level.isLt
  refine ⟨s', _, ?_, h', ?_, ?_⟩
  · exact {
      runs := by simp only [slCall, hrun, Option.map_some]
      unread := by simp only [slCall, hv, Option.map_some, Option.isSome_some]
      position := by simp
      data := by simp
      kept := h'.keepsNil
      fails := by simp }
  · have hperm := hlive.cons key.val
    rw [List.map_append] at hperm
    rw [List.map_append, List.map_cons]
    exact hperm.trans List.perm_middle.symm
  · intro c hc
    rcases mem_middle.mp hc with rfl | hc
    · exact List.mem_cons_self ..
    · exact List.mem_cons_of_mem _ (hkeys c hc)

theorem rem_spares (h : s.Holds cells) (hlive : live.Perm (cells.map SlCell.key))
    (hkeys : ∀ c ∈ cells, c.key ∈ keys) (key : Fin (2 ^ 32))
    (hop : key.val = NIL_KEY → NIL_KEY ∈ live) :
    ∃ r s' cells', SparesNil s keys (.rem key) r s' ∧ s'.Holds cells' ∧
      (live.erase key.val).Perm (cells'.map SlCell.key) ∧ ∀ c ∈ cells', c.key ∈ keys := by
  have hv := h.veiled
  obtain ⟨lo, hi, rfl, hlo, hhi | ⟨c, rest, rfl, hc, hhi⟩⟩ := split_key h.sorted key
  · have hne := ne_nilKey hlive rfl hlo hhi hop
    have hrun := h.slRem_absent hlo hhi (key_le key) fun _ => hne
    have hvrun := hv.slRem_absent hlo hhi (key_le key) fun _ => hne
    refine ⟨.failed, s, lo ++ hi, ?_, h, ?_, hkeys⟩
    · exact {
        runs := by simp only [slCall, hrun, Option.map_some]
        unread := by simp only [slCall, hvrun, Option.map_some, Option.isSome_some]
        position := by simp
        data := by simp
        kept := h.keepsNil
        fails := by simp }
    · have hnot : key.val ∉ live := by
        intro hm
        obtain ⟨c, hc, hkey⟩ := List.mem_map.mp (hlive.mem_iff.mp hm)
        rcases List.mem_append.mp hc with hc | hc
        · exact absurd (hlo c hc) (by omega)
        · exact absurd (hhi c hc) (by omega)
      rwa [List.erase_of_not_mem hnot]
  · obtain ⟨s', hrun, h'⟩ := h.slRem_found hlo hhi hc
    obtain ⟨v, hvrun, -⟩ := hv.slRem_found hlo hhi hc
    refine ⟨.data (some c.data), s', lo ++ rest, ?_, h', ?_, ?_⟩
    · exact {
        runs := by simp only [slCall, hrun, Option.map_some]
        unread := by simp only [slCall, hvrun, Option.map_some, Option.isSome_some]
        position := by simp
        data := by simp
        kept := h'.keepsNil
        fails := by simp }
    · have hperm : live.Perm (key.val :: (lo ++ rest).map SlCell.key) :=
        hc ▸ hlive.trans (List.perm_middle.map SlCell.key)
      have herase := hperm.erase key.val
      rwa [List.erase_cons_head] at herase
    · exact fun d hd => hkeys d (mem_middle.mpr (.inr hd))

/-- A call spares `sl_NIL` if its key is looked for only when a live entry has it. -/
theorem spares (h : s.Holds cells) (hlive : live.Perm (cells.map SlCell.key))
    (hkeys : ∀ c ∈ cells, c.key ∈ keys) (call : SlCall α)
    (hop : call.sought = some NIL_KEY → NIL_KEY ∈ live) :
    ∃ r s' cells', SparesNil s keys call r s' ∧ s'.Holds cells' ∧
      (call.live live).Perm (cells'.map SlCell.key) ∧ ∀ c ∈ cells', c.key ∈ call.inserted keys := by
  cases call with
  | ins key x level => exact ⟨.done, h.ins_spares hlive hkeys key x level⟩
  | rem key => exact h.rem_spares hlive hkeys key fun he => hop (congrArg some he)
  | findPos key =>
    -- the search ends at a node with the key, or at `sl_NIL`, whose data it does not read
    rcases h.findPos_spares hlive key fun he => hop (congrArg some he) with
      ⟨hrun, hv⟩ | ⟨c, hc, -, hrun, hv⟩
    · refine ⟨.failed, s, cells, ?_, h, hlive, hkeys⟩
      exact {
        runs := by simp only [slCall, hrun, Option.map_some]
        unread := by simp only [slCall, hv, Option.map_some, Option.isSome_some]
        position := by simp
        data := by simp
        kept := h.keepsNil
        fails := by simp }
    · refine ⟨.position c.addr (some c.data), s, cells, ?_, h, hlive, hkeys⟩
      exact {
        runs := by simp only [slCall, hrun, Option.map_some]
        unread := by simp only [slCall, hv, Option.map_some, Option.isSome_some]
        position := by
          intro data he
          exact h.ne_nil c hc (SlAnswer.position.inj he).1
        data := by simp
        kept := h.keepsNil
        fails := by simp }
  | find key =>
    rcases h.findPos_spares hlive key fun he => hop (congrArg some he) with
      ⟨hrun, hv⟩ | ⟨c, hc, hkey, hrun, hv⟩
    · refine ⟨.failed, s, cells, ?_, h, hlive, hkeys⟩
      exact {
        runs := by
          simp only [slCall, slFind, hrun, Option.bind_eq_bind, Option.bind_some]
          rfl
        unread := by
          simp only [slCall, slFind, hv, Option.bind_eq_bind, Option.bind_some]
          rfl
        position := by simp
        data := by simp
        kept := h.keepsNil
        fails := fun _ _ _ => rfl }
    · refine ⟨.data (some c.data), s, cells, ?_, h, hlive, hkeys⟩
      exact {
        runs := by
          simp only [slCall, slFind, hrun, Option.bind_eq_bind, Option.bind_some]
          rfl
        unread := by
          simp only [slCall, slFind, hv, Option.bind_eq_bind, Option.bind_some]
          rfl
        position := by simp
        data := by simp
        kept := h.keepsNil
        fails := by
          intro key' he hnot
          rw [← SlCall.find.inj he, ← hkey] at hnot
          exact absurd (hkeys c hc) hnot }

/-! ## The key of `sl_NIL`, when no entry has it -/

theorem descend_nil {key : Nat} (h : s.Holds cells) (hk : ∀ c ∈ cells, c.key < key)
    (hkey : key = NIL_KEY) :
    slDescend s.mem s.fresh key s.rounds s.slHead =
        some (beforeAt s.slHead 0 cells, (List.range s.rounds).map (beforeAt s.slHead · cells)) ∧
      forwAt s.mem (beforeAt s.slHead 0 cells) 0 = some SL_NIL := by
  have h : s.Holds (cells ++ []) := by rwa [List.append_nil]
  have hd := h.slDescend_head hk (by simp) (Nat.le_of_eq hkey)
  exact ⟨hd, h.first_forw⟩

/-- A search for it ends at `sl_NIL`. -/
theorem slFindPos_nil {key : Nat} (h : s.Holds cells) (hk : ∀ c ∈ cells, c.key < key)
    (hkey : key = NIL_KEY) : slFindPos s key = some (some (SL_NIL, none)) := by
  obtain ⟨hd, hf⟩ := h.descend_nil hk hkey
  simp only [slFindPos, hd, Option.bind_eq_bind, Option.bind_some, hf, keyAt_fixed h.nil,
    if_neg (not_not_intro hkey.symm), dataAt_fixed h.nil]
  rfl

/-- `sl_rem` frees `sl_NIL`. -/
theorem slRem_nil {key : Nat} (h : s.Holds cells) (hk : ∀ c ∈ cells, c.key < key)
    (hkey : key = NIL_KEY) {r : Option (Option α × SkipList α)} (hrun : slRem s key = some r) :
    ∃ data s', r = some (data, s') ∧ fixedAt s'.mem SL_NIL = none := by
  obtain ⟨hd, hf⟩ := h.descend_nil hk hkey
  simp only [slRem, hd, Option.bind_eq_bind, Option.bind_some, hf, keyAt_fixed h.nil,
    if_neg (not_not_intro hkey.symm)] at hrun
  obtain ⟨mem', -, hrun⟩ := Option.bind_eq_some_iff.mp hrun
  obtain ⟨data, -, hrun⟩ := Option.bind_eq_some_iff.mp hrun
  obtain ⟨level, -, hrun⟩ := Option.bind_eq_some_iff.mp hrun
  refine ⟨data, _, (Option.some.inj hrun).symm, ?_⟩
  have hfreed : Function.update mem' SL_NIL none SL_NIL = none := Function.update_self SL_NIL _ mem'
  exact congrArg (Option.map _) hfreed

/-- A call that looks for it does not spare `sl_NIL`. -/
theorem spares_live (h : s.Holds cells) (hlive : live.Perm (cells.map SlCell.key))
    {call : SlCall α} {r : SlAnswer α} {s' : SkipList α} (hs : SparesNil s keys call r s')
    (hop : call.sought = some NIL_KEY) : NIL_KEY ∈ live := by
  by_contra hnot
  have hk : ∀ key, key = NIL_KEY → ∀ c ∈ cells, c.key < key := by
    rintro key rfl c hc
    refine Nat.lt_of_le_of_ne (h.keys c hc) fun he => hnot ?_
    exact hlive.mem_iff.mpr (he ▸ List.mem_map_of_mem hc)
  have hrun := hs.runs
  cases call with
  | ins key x level => cases hop
  | findPos key =>
    have hkey : key.val = NIL_KEY := Option.some.inj hop
    have hfind := h.slFindPos_nil (hk _ hkey) hkey
    simp only [slCall, hfind, Option.map_some, Option.some.injEq, Prod.mk.injEq] at hrun
    exact hs.position none hrun.1.symm
  | find key =>
    have hkey : key.val = NIL_KEY := Option.some.inj hop
    have hfind : slFind s key = some (some none) := by
      simp only [slFind, h.slFindPos_nil (hk _ hkey) hkey, Option.bind_eq_bind, Option.bind_some]
      rfl
    simp only [slCall, hfind, Option.map_some, Option.some.injEq, Prod.mk.injEq] at hrun
    exact hs.data hrun.1.symm
  | rem key =>
    have hkey : key.val = NIL_KEY := Option.some.inj hop
    simp only [slCall] at hrun
    obtain ⟨r', hr, he⟩ := Option.map_eq_some_iff.mp hrun
    obtain ⟨data, s'', rfl, hfreed⟩ := h.slRem_nil (hk _ hkey) hkey hr
    have hs' : s'' = s' := congrArg Prod.snd he
    have hkept := hs.kept.fixed
    rw [← hs', hfreed] at hkept
    cases hkept

/-! ## Runs -/

/-- A run spares `sl_NIL` exactly as long as its key is looked for only when a live entry has it. -/
theorem sparesAll_iff (h : s.Holds cells) (hlive : live.Perm (cells.map SlCell.key))
    (hkeys : ∀ c ∈ cells, c.key ∈ keys) (calls : List (SlCall α)) :
    SparesNilAll s keys calls ↔ FindsLive live calls := by
  induction calls generalizing s cells keys live with
  | nil => exact Iff.rfl
  | cons call calls ih =>
    constructor
    · rintro ⟨r, s', hs, hrest⟩
      have hop := h.spares_live hlive hs
      obtain ⟨r', s'', cells', hs', h', hlive', hkeys'⟩ := h.spares hlive hkeys call hop
      have he : s' = s'' := congrArg Prod.snd (Option.some.inj (hs.runs.symm.trans hs'.runs))
      rw [he] at hrest
      exact ⟨hop, (ih h' hlive' hkeys').mp hrest⟩
    · rintro ⟨hop, hrest⟩
      obtain ⟨r, s', cells', hs, h', hlive', hkeys'⟩ := h.spares hlive hkeys call hop
      exact ⟨r, s', hs, (ih h' hlive' hkeys').mpr hrest⟩

end SkipList.Holds

/-- From `sl_init` on, no call gives out, reads the pointers of, unlinks or frees `sl_NIL`, and
`sl_find` fails for a key that was never inserted, exactly as long as the key of `sl_NIL` is looked
for only when a live entry has it. -/
theorem slRun_spares (calls : List (SlCall α)) :
    SparesNilAll slInit [] calls ↔ FindsLive [] calls :=
  slInit_holds.sparesAll_iff (List.Perm.refl _) (by simp) calls

/-- A search for the key of `sl_NIL` in the list that `sl_init` makes. -/
theorem slFind_nil : ¬SparesNilAll (slInit : SkipList Nat) [] [.find ⟨NIL_KEY, by decide⟩] := by
  rintro ⟨r, s', hs, -⟩
  have hkey := slInit_holds.spares_live (List.Perm.refl _) hs rfl
  cases hkey

end Spegla
