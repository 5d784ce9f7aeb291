import Spegla.NormalForm

/-!
# Null pointers of the path builders

`spf_full_name2` and `spf_symlink_resolve` give a null pointer for a name or a target that is
refused or does not fit. The patterns of the configuration, and the message about a link that is
treated as a directory, are given what they return.

- `NameFits`, `TargetFits`: when they return a string, for any `cur_dir`.
- `SkipHands`, `TreatHands`, `TreatasdirHands`: what is handed over by `spf_is_a_skip_find`, by
  `spf_is_a_treatasdir_find` and by `spf_is_a_treatasdir` is a string.
- `handsStrings_iff`: exactly when that is so.
-/

namespace Spegla

open CString PosixFs

variable {m : Nat} {curDir : Str} {spf : SpFile}

/-! ## When the builders return a string -/

/-- The name is not refused and fits behind `cur_dir`. -/
def NameFits (m : Nat) (curDir : Str) (spf : SpFile) : Prop :=
  haveDotdotRef spf.spfName = false ∧ spf.spfName.length + curDir.length ≤ m - 2

theorem fullName_isSome :
    (∃ p, fullName m curDir spf.spfName = some p) ↔ NameFits m curDir spf := by
  constructor
  · rintro ⟨p, hp⟩
    obtain ⟨-, hlen, href⟩ := fullName_some hp
    exact ⟨href, hlen⟩
  · rintro ⟨href, hlen⟩
    refine ⟨curDir ++ spf.spfName, ?_⟩
    rw [fullName, href, if_neg (by simp), if_neg (by omega)]

/-- The buffer after one component, in a buffer with room for it. -/
def cdBuf (buf d : Str) : Str := (symlinkCd (buf.length + d.length + 2) d buf).getD buf

theorem symlinkCd_cdBuf (m : Nat) (d buf : Str) :
    symlinkCd m d buf = if buf.length + d.length + 1 < m then some (cdBuf buf d) else none := by
  have hroom : ∀ m, buf.length + d.length + 1 < m →
      symlinkCd m d buf = symlinkCd (buf.length + d.length + 2) d buf := by
    intro m hm
    have h₁ : ¬m - buf.length - 1 ≤ d.length := by omega
    have h₂ : ¬buf.length + d.length + 2 - buf.length - 1 ≤ d.length := by omega
    unfold symlinkCd
    rw [if_neg h₁, if_neg h₂]
  have hsome : ∃ b, symlinkCd (buf.length + d.length + 2) d buf = some b := by
    have h₂ : ¬buf.length + d.length + 2 - buf.length - 1 ≤ d.length := by omega
    unfold symlinkCd
    rw [if_neg h₂]
    dsimp only
    repeat' split
    all_goals exact ⟨_, rfl⟩
  by_cases hm : buf.length + d.length + 1 < m
  · obtain ⟨b, hb⟩ := hsome
    rw [if_pos hm, hroom m hm, cdBuf, hb]
    rfl
  · rw [if_neg hm, symlinkCd, if_pos (by omega)]

/-- Every component finds room behind what those before it leave in the buffer. -/
def RoomBehind (m : Nat) (buf : Str) (dirs : List Str) : Prop :=
  ∀ before d after, dirs = before ++ d :: after → (before.foldl cdBuf buf).length + d.length + 1 < m

theorem enterAll_isSome : ∀ (dirs : List Str) (buf : Str),
    (∃ r, dirs.foldlM (fun buf d => symlinkCd m d buf) buf = some r) ↔ RoomBehind m buf dirs := by
  intro dirs
  induction dirs with
  | nil =>
    intro buf
    exact ⟨fun _ before d after h => by simp at h, fun _ => ⟨buf, rfl⟩⟩
  | cons d dirs ih =>
    intro buf
    rw [List.foldlM_cons, symlinkCd_cdBuf]
    constructor
    · rintro ⟨r, h⟩ before e after heq
      split at h
      · next hroom =>
        cases before with
        | nil =>
          rw [List.nil_append, List.cons.injEq] at heq
          rw [← heq.1]
          exact hroom
        | cons d' before =>
          rw [List.cons_append, List.cons.injEq] at heq
          rw [← heq.1]
          exact (ih (cdBuf buf d)).mp ⟨r, h⟩ before e after heq.2
      · simp at h
    · intro h
      have hroom : buf.length + d.length + 1 < m := h [] d dirs rfl
      rw [if_pos hroom]
      refine (ih (cdBuf buf d)).mpr fun before e after heq => ?_
      exact h (d :: before) e after (by rw [heq]; rfl)

/-- There is a target, and its components find room: behind `cur_dir`, if it is relative. -/
def TargetFits (m : Nat) (curDir : Str) (spf : SpFile) : Prop :=
  ∃ t, spf.spfSymlink = some t ∧ ∃ buf, startBuf m curDir t = some buf ∧
    RoomBehind m buf (seenDirs t)

theorem spfSymlinkResolve_isSome :
    (∃ r, spfSymlinkResolve curDir spf m = some r) ↔ TargetFits m curDir spf := by
  unfold TargetFits
  cases ht : spf.spfSymlink with
  | none =>
    rw [spfSymlinkResolve, ht]
    simp
  | some t =>
    rw [spfSymlinkResolve_seen ht]
    cases hb : startBuf m curDir t with
    | none => simp [hb]
    | some buf =>
      have hall := enterAll_isSome (m := m) (seenDirs t) buf
      simp only [Option.bind_some, Option.map_eq_some_iff, Option.some.injEq,
        exists_eq_left', hb, ← hall]
      exact ⟨fun ⟨_, r, hr, _⟩ => ⟨r, hr⟩, fun ⟨r, hr⟩ => ⟨_, r, hr, rfl⟩⟩

/-! ## What is handed over -/

/-- `spf_is_a_skip_find` hands strings to `sps_match`. -/
def SkipHands (m : Nat) (curDir : Str) (spf : SpFile) (sps : Str → Bool) : Prop :=
  spfIsASkipFind m curDir spf sps ≠ none

/-- `spf_is_a_treatasdir_find` hands strings to `spt_match`. -/
def TreatHands (m : Nat) (curDir : Str) (spf : SpFile) (spt : SpTreatasdir) : Prop :=
  spfIsATreatasdirFind m curDir spf spt ≠ none

/-- `spf_is_a_treatasdir` hands strings to `spt_match` and, once there is a match, its message the
full name and the target of the link. -/
def TreatasdirHands (m : Nat) (curDir : Str) (treatasdir : List SpTreatasdir)
    (spf : SpFile) : Prop :=
  spfIsATreatasdir m curDir treatasdir spf ≠ none ∧
    (spfIsATreatasdir m curDir treatasdir spf = some true →
      fullName m curDir spf.spfName ≠ none ∧ spfSymlinkResolve curDir spf m ≠ none)

/-- The strings without the dot in front. -/
def ownPath (curDir : Str) (spf : SpFile) : Str := (curDir ++ spf.spfName).drop 1

/-- The links of which `spf_is_a_treatasdir` hands over strings: with a path and a target, or with
one of them, where all patterns are for it and none matches. -/
def TreatasdirFits (m : Nat) (curDir : Str) (treatasdir : List SpTreatasdir)
    (spf : SpFile) : Prop :=
  treatasdir = [] ∨ NameFits m curDir spf ∧ TargetFits m curDir spf ∨
    (NameFits m curDir spf ∧ ∀ spt ∈ treatasdir, spt.sptDeref = false ∧
      spt.sptMatch (ownPath curDir spf) = false) ∨
    ∃ r, spfSymlinkResolve curDir spf m = some r ∧ ∀ spt ∈ treatasdir, spt.sptDeref = true ∧
      spt.sptMatch (r.drop 1) = false

theorem fullName_of_nameFits (h : NameFits m curDir spf) :
    fullName m curDir spf.spfName = some (curDir ++ spf.spfName) := by
  obtain ⟨p, hp⟩ := fullName_isSome.mpr h
  rw [hp, (fullName_some hp).1]

theorem fullName_none (h : ¬NameFits m curDir spf) : fullName m curDir spf.spfName = none := by
  rw [← fullName_isSome] at h
  exact Option.eq_none_iff_forall_ne_some.mpr fun p hp => h ⟨p, hp⟩

theorem resolve_none (h : ¬TargetFits m curDir spf) : spfSymlinkResolve curDir spf m = none := by
  rw [← spfSymlinkResolve_isSome] at h
  exact Option.eq_none_iff_forall_ne_some.mpr fun r hr => h ⟨r, hr⟩

theorem skipHands_iff (sps : Str → Bool) : SkipHands m curDir spf sps ↔
    NameFits m curDir spf ∧ (spf.spfType = .symlink → sps (ownPath curDir spf) = false →
      TargetFits m curDir spf) := by
  unfold SkipHands spfIsASkipFind ownPath
  by_cases hname : NameFits m curDir spf
  · rw [fullName_of_nameFits hname]
    simp only [hname, true_and]
    by_cases hmatch : sps ((curDir ++ spf.spfName).drop 1) = true ∨ spf.spfType ≠ .symlink
    · rw [if_pos hmatch]
      refine iff_of_true (by simp) fun hlink hno => ?_
      rcases hmatch with h | h
      · rw [h] at hno
        simp at hno
      · exact absurd hlink h
    · rw [if_neg hmatch, ne_eq, Option.map_eq_none_iff, ← ne_eq, Option.ne_none_iff_exists',
        spfSymlinkResolve_isSome]
      rw [not_or, Bool.not_eq_true, not_not] at hmatch
      exact ⟨fun h _ _ => h, fun h => h hmatch.2 hmatch.1⟩
  · rw [fullName_none hname]
    simp [hname]

theorem treatHands_iff (spt : SpTreatasdir) : TreatHands m curDir spf spt ↔
    (spf.spfType = .symlink → if spt.sptDeref then TargetFits m curDir spf
      else NameFits m curDir spf) := by
  unfold TreatHands spfIsATreatasdirFind
  by_cases hlink : spf.spfType = .symlink
  · rw [if_neg (by simpa using hlink), ne_eq, Option.map_eq_none_iff, ← ne_eq,
      Option.ne_none_iff_exists']
    cases spt.sptDeref with
    | true => simp [hlink, spfSymlinkResolve_isSome]
    | false => simp [hlink, fullName_isSome]
  · simp [hlink]

/-- One pattern about a link, whose strings are there. -/
theorem treatasdirFind_link (hlink : spf.spfType = .symlink) (m : Nat) (curDir : Str)
    (spt : SpTreatasdir) :
    spfIsATreatasdirFind m curDir spf spt =
      (if spt.sptDeref then spfSymlinkResolve curDir spf m
        else fullName m curDir spf.spfName).map fun p => spt.sptMatch (p.drop 1) :=
  if_neg (by simpa using hlink)

/-- With both strings nothing else is ever handed over. -/
theorem spfIsATreatasdir_ne_none (hname : NameFits m curDir spf)
    (htarget : TargetFits m curDir spf) :
    ∀ treatasdir, spfIsATreatasdir m curDir treatasdir spf ≠ none := by
  intro treatasdir
  induction treatasdir with
  | nil => simp [spfIsATreatasdir]
  | cons spt treatasdir ih =>
    have hfind : TreatHands m curDir spf spt := (treatHands_iff spt).mpr fun _ => by
      split
      · exact htarget
      · exact hname
    obtain ⟨b, hb⟩ := Option.ne_none_iff_exists'.mp hfind
    rw [spfIsATreatasdir, hb]
    cases b with
    | true => simp
    | false => exact ih

/-- With one string alone, every pattern must be for it, and must not match. -/
theorem spfIsATreatasdir_false {r : Str} (deref : Bool)
    (hthere : ∀ spt : SpTreatasdir, spt.sptDeref = deref →
      spfIsATreatasdirFind m curDir spf spt = some (spt.sptMatch r))
    (hnull : ∀ spt : SpTreatasdir, spt.sptDeref ≠ deref →
      spfIsATreatasdirFind m curDir spf spt = none) :
    ∀ treatasdir, spfIsATreatasdir m curDir treatasdir spf = some false ↔
      ∀ spt ∈ treatasdir, spt.sptDeref = deref ∧ spt.sptMatch r = false := by
  intro treatasdir
  induction treatasdir with
  | nil => simp [spfIsATreatasdir]
  | cons spt treatasdir ih =>
    rw [spfIsATreatasdir]
    by_cases hd : spt.sptDeref = deref
    · rw [hthere spt hd]
      cases hm : spt.sptMatch r with
      | true => simp [hm]
      | false => simp [hd, hm, ih]
    · rw [hnull spt hd]
      simp [hd]

/-- Where a string is missing there must be no match. -/
theorem treatasdirHands_false (hnull : fullName m curDir spf.spfName = none ∨
    spfSymlinkResolve curDir spf m = none) (treatasdir : List SpTreatasdir) :
    TreatasdirHands m curDir treatasdir spf ↔ spfIsATreatasdir m curDir treatasdir spf =
      some false := by
  unfold TreatasdirHands
  rcases spfIsATreatasdir m curDir treatasdir spf with - | - | -
  · simp
  · simp
  · rcases hnull with h | h <;> simp [h]

theorem treatasdirHands_iff (treatasdir : List SpTreatasdir) :
    TreatasdirHands m curDir treatasdir spf ↔
      (spf.spfType = .symlink → TreatasdirFits m curDir treatasdir spf) := by
  by_cases hlink : spf.spfType = .symlink
  · have hfind := treatasdirFind_link hlink m curDir
    simp only [hlink, true_implies, TreatasdirFits]
    -- the own path goes to the patterns without `resolve`, the path of the target to the others
    by_cases hname : NameFits m curDir spf
    · by_cases htarget : TargetFits m curDir spf
      · refine iff_of_true ⟨spfIsATreatasdir_ne_none hname htarget treatasdir, fun _ => ?_⟩
          (Or.inr (Or.inl ⟨hname, htarget⟩))
        exact ⟨Option.ne_none_iff_exists'.mpr (fullName_isSome.mpr hname),
          Option.ne_none_iff_exists'.mpr (spfSymlinkResolve_isSome.mpr htarget)⟩
      · have hres := resolve_none htarget
        rw [treatasdirHands_false (Or.inr hres), spfIsATreatasdir_false false
          (r := ownPath curDir spf)]
        · simp only [hname, htarget, hres, and_false, true_and, reduceCtorEq,
            false_and, exists_false,
            or_false, false_or]
          exact ⟨Or.inr, fun h => h.elim (fun h => by simp [h]) id⟩
        · intro spt hd
          rw [hfind, hd, fullName_of_nameFits hname]
          rfl
        · intro spt hd
          rw [hfind, if_pos (by simpa using hd), hres]
          rfl
    · have hnone := fullName_none hname
      rw [treatasdirHands_false (Or.inl hnone)]
      by_cases htarget : TargetFits m curDir spf
      · obtain ⟨r, hr⟩ := spfSymlinkResolve_isSome.mpr htarget
        rw [spfIsATreatasdir_false true (r := r.drop 1)]
        · simp only [hname, hr, false_and, Option.some.injEq, exists_eq_left', false_or]
          exact ⟨Or.inr, fun h => h.elim (fun h => by simp [h]) id⟩
        · intro spt hd
          rw [hfind, hd, if_pos rfl, hr]
          rfl
        · intro spt hd
          rw [hfind, if_neg hd, hnone]
          rfl
      · have hres := resolve_none htarget
        simp only [hname, hres, false_and, reduceCtorEq, exists_false, or_false]
        cases treatasdir with
        | nil => simp [spfIsATreatasdir]
        | cons spt treatasdir =>
          rw [spfIsATreatasdir, hfind, hres, hnone]
          simp
  · refine iff_of_true ?_ fun h => absurd h hlink
    have hno : ∀ treatasdir, spfIsATreatasdir m curDir treatasdir spf = some false := by
      intro treatasdir
      induction treatasdir with
      | nil => rfl
      | cons spt treatasdir ih =>
        have hf : spfIsATreatasdirFind m curDir spf spt = some false := if_pos hlink
        rw [spfIsATreatasdir, hf]
        exact ih
    exact ⟨by rw [hno]; simp, by rw [hno]; simp⟩

/-- A row of a listing for a file that is named `a/../b`. -/
def refusedRow : Str :=
  ['-', 'r', 'w', '-', 'r', '-', '-', 'r', '-', '-', ' ', '1', ' ', 'u', ' ', '1', ' ', 'J', 'a',
    'n', ' ', '1', ' ', '1', '9', '9', '9', ' ', 'a', '/', '.', '.', '/', 'b']

end Spegla
