import Spegla.SymlinkResolve

/-!
# Symbolic links and skip patterns

A symbolic link is to be skipped when a file at the place it points to would be. The string that is
matched for a file is its full name without the dot in front; the one for the target of a link is
what `spf_symlink_resolve` makes of it.

- `lexPath`: the path that a relative target names.
- `spfIsASkip_plain`, `spfIsASkip_link`: when a pattern reports a file, and when a link.
- `skipsLinkTo_iff`: a link is skipped with the file it points to exactly when a pattern matches
  one of these two strings.
-/

namespace Spegla

open CString PosixFs

/-! ## The path that a target names -/

/-- The path that the components `cs` name from the directory `ds` of the mirror, if they do not
lead out of it. -/
def lexPath : List Str → List Str → Option (List Str)
  | ds, [] => some ds
  | ds, c :: cs =>
    if c = [] ∨ c = ['.'] then lexPath ds cs
    else if c = ['.', '.'] then if ds = [] then none else lexPath ds.dropLast cs
    else lexPath (ds ++ [c]) cs

/-! ## What the patterns report -/

variable {m : Nat} {curDir : Str} {spf : SpFile}

/-- A file that is no link is reported when a pattern matches its path. -/
theorem spfIsASkip_plain (hspf : spf.spfType ≠ .symlink) : ∀ skip : List (Str → Bool),
    spfIsASkip m curDir skip spf = some true ↔
      ∃ p, fullName m curDir spf.spfName = some p ∧ ∃ sps ∈ skip, sps (p.drop 1) = true := by
  intro skip
  induction skip with
  | nil => simp [spfIsASkip]
  | cons sps skip ih =>
    rw [spfIsASkip, spfIsASkipFind]
    cases hp : fullName m curDir spf.spfName with
    | none => simp
    | some p =>
      rw [hp] at ih
      simp only [hspf, ne_eq, not_false_eq_true, or_true, if_true]
      rw [List.drop_one]
      cases hm : sps p.tail with
      | true => simp [hm]
      | false => simp [hm, ih]

/-- A link is reported when a pattern matches its path or its target; where the target is a null
pointer only the first pattern is ever asked. -/
theorem spfIsASkip_link (hspf : spf.spfType = .symlink) : ∀ skip : List (Str → Bool),
    spfIsASkip m curDir skip spf = some true ↔
      ∃ p, fullName m curDir spf.spfName = some p ∧
        ((∃ r, spfSymlinkResolve curDir spf m = some r ∧
            ∃ sps ∈ skip, sps (p.drop 1) = true ∨ sps r = true) ∨
          spfSymlinkResolve curDir spf m = none ∧ ∃ sps ∈ skip.head?, sps (p.drop 1) = true) := by
  intro skip
  induction skip with
  | nil => simp [spfIsASkip]
  | cons sps skip ih =>
    rw [spfIsASkip, spfIsASkipFind]
    cases hp : fullName m curDir spf.spfName with
    | none => simp
    | some p =>
      rw [hp] at ih
      simp only [hspf, ne_eq, not_true_eq_false, or_false]
      rw [List.drop_one]
      cases hm : sps p.tail with
      | true =>
        cases spfSymlinkResolve curDir spf m <;> simp [hm]
      | false =>
        cases hr : spfSymlinkResolve curDir spf m with
        | none => simp [hm]
        | some r =>
          cases hmr : sps r with
          | true => simp [hmr]
          | false => simp [hm, hmr, ih, hr]

/-! ## Links and what they point to -/

/-- The link `spf` in the directory `ds` is skipped whenever a plain file would be at the place that
its target `t` names. -/
def SkipsLinkTo (m : Nat) (ds : List Str) (skip : List (Str → Bool)) (spf : SpFile)
    (t : Str) : Prop :=
  ∀ (ds' : List Str) (file : SpFile), lexPath ds (components t) = some (ds' ++ [file.spfName]) →
    file.spfType = .plainfile → spfIsASkip m (dirStr ds') skip file = some true →
      spfIsASkip m (dirStr ds) skip spf = some true

/-- A pattern matches the path of the link, or what is put together of its target, with a dot in
front. -/
def SkipSeen (m : Nat) (ds : List Str) (skip : List (Str → Bool)) (spf : SpFile) (t : Str) : Prop :=
  ∃ p, fullName m (dirStr ds) spf.spfName = some p ∧
    if Room m (dirStr ds).length (seenDirs t) then
      ∃ sps ∈ skip, sps (p.drop 1) = true ∨ sps (dotted ds t) = true
    else ∃ sps ∈ skip.head?, sps (p.drop 1) = true

/-- **Links to skipped files.** A relative link is skipped with the file it points to exactly when,
if a pattern matches the path of that file, one matches the path of the link or what its target
looks like, from its dot to the components that are not taken back. -/
theorem skipsLinkTo_iff {ds : List Str} {skip : List (Str → Bool)} {t : Str}
    (hds : ∀ d ∈ ds, IsName d) (hlink : spf.spfType = .symlink) (ht : spf.spfSymlink = some t)
    (hrel : t.head? ≠ some '/') :
    SkipsLinkTo m ds skip spf t ↔
      ∀ ds' c, lexPath ds (components t) = some (ds' ++ [c]) →
        (∃ p, fullName m (dirStr ds') c = some p ∧ ∃ sps ∈ skip, sps (p.drop 1) = true) →
          SkipSeen m ds skip spf t := by
  have hres := spfSymlinkResolve_relative (m := m) hds ht hrel
  have hseen : spfIsASkip m (dirStr ds) skip spf = some true ↔ SkipSeen m ds skip spf t := by
    rw [spfIsASkip_link hlink, SkipSeen, hres]
    by_cases hroom : Room m (dirStr ds).length (seenDirs t)
    · simp [hroom]
    · simp [hroom]
  unfold SkipsLinkTo
  simp only [hseen]
  constructor
  · intro h ds' c hq hmatch
    have hfile :
      SpFile.spfType { spf with spfName := c, spfType := .plainfile } ≠ .symlink := by simp
    exact h ds' { spf with spfName := c, spfType := .plainfile } hq rfl
      ((spfIsASkip_plain hfile skip).mpr hmatch)
  · intro h ds' file hq hplain hskip
    exact h ds' file.spfName hq ((spfIsASkip_plain (by rw [hplain]; simp) skip).mp hskip)

/-- A link `b` to the file `a` beside it, and a pattern for that file. -/
def linkB : SpFile :=
  { (default : SpFile) with spfName := ['b'], spfType := .symlink, spfSymlink := some ['a'] }
def skipA : List (Str → Bool) := [fun p => p = ['/', 'a']]

theorem skipsLinkTo_iff_linkB :
    SkipsLinkTo 255 [] skipA linkB ['a'] ↔
      ∀ ds' c, lexPath [] (components ['a']) = some (ds' ++ [c]) →
        (∃ p, fullName 255 (dirStr ds') c = some p ∧ ∃ sps ∈ skipA, sps (p.drop 1) = true) →
          SkipSeen 255 [] skipA linkB ['a'] :=
  skipsLinkTo_iff (by simp) rfl rfl (by decide)

/-- The file is skipped, and the link to it is not. -/
theorem linkB_notSkipped : ¬SkipsLinkTo 255 [] skipA linkB ['a'] := by
  intro h
  have := h [] { (default : SpFile) with spfName := ['a'] } rfl rfl (by decide)
  revert this
  decide

end Spegla
