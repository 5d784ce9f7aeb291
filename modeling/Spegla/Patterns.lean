import Spegla.Regex.Width
import Spegla.Skips

/-!
# The patterns of the configuration

A pattern of `skip` is an extended regular expression. It is compiled when the configuration is
read, and from there on the model of the mirror takes it as a predicate on strings.

- `spsInit`, `spsMatch`, `sptInit`, `sptMatch`: the functions around `regcomp` and `regexec`.
- `Pattern`: a pattern that has been compiled, with the expression it stands for.
- `skip_patterns`: a file is skipped only when one of the expressions matches its path, and always
  then where their anchors are plain.
-/

namespace Spegla

open CString PosixFs Regex

/-! ## Compiling and matching -/

/-- `sps_init`: the compiled pattern, `none` for `NULL`. -/
def spsInit (arg : Str) : Option Guts := (Words.regcomp arg).toOption

/-- `sps_match` -/
def spsMatch (sps : Guts) (name : Str) : Bool := regexec sps name == some .success

/-- `spt_init`: a pattern that does not compile is kept with its error. -/
def sptInit (arg : Str) : Except Regex.Errno Guts := Words.regcomp arg

/-- `spt_match`; what `regcomp` has not compiled is `REG_BADPAT` for `regexec`. -/
def sptMatch (spt : Except Regex.Errno Guts) (name : Str) : Bool :=
  match spt with
  | .ok g => spsMatch g name
  | .error _ => false

/-! ## Patterns with their expressions -/

/-- A compiled pattern and the expression it stands for. -/
structure Pattern where
  arg : Str
  sps : Guts
  ere : Ere
  init : spsInit arg = some sps
  derives : Derives sps.sets .ere arg ere
  tells : ∀ name, Tells sps.sets name ere (regexec sps name)

/-- The expression matches in the string. -/
def Pattern.Matches (p : Pattern) (name : Str) : Prop := p.ere.Matches p.sps.sets name

theorem regcomp_of_spsInit {arg : Str} {sps : Guts} (h : spsInit arg = some sps) :
    Words.regcomp arg = .ok sps := by
  unfold spsInit at h
  cases hc : Words.regcomp arg with
  | error e =>
    rw [hc] at h
    cases h
  | ok g =>
    rw [hc] at h
    cases h
    rfl

/-- Every pattern that compiles stands for an expression. -/
theorem exists_pattern {arg : Str} {sps : Guts} (hbytes : ∀ c ∈ arg, IsByte c)
    (hnarrow : Narrow arg)
    (h : spsInit arg = some sps) : ∃ p : Pattern, p.arg = arg ∧ p.sps = sps := by
  have hreg := regcomp_of_spsInit h
  rw [Words.regcomp_eq hnarrow] at hreg
  obtain ⟨e, hderives, hcompiled⟩ := regcomp_compiled hbytes hreg
  exact ⟨⟨arg, sps, e, h, hderives, regexec_tells hcompiled⟩, rfl, rfl⟩

theorem exists_patterns {args : List Str} {spss : List Guts}
    (hbytes : ∀ arg ∈ args, ∀ c ∈ arg, IsByte c) (hnarrow : ∀ arg ∈ args, Narrow arg)
    (h : args.mapM spsInit = some spss) :
    ∃ ps : List Pattern, ps.map Pattern.arg = args ∧ ps.map Pattern.sps = spss := by
  induction args generalizing spss with
  | nil =>
    cases h
    exact ⟨[], rfl, rfl⟩
  | cons arg args ih =>
    -- one pattern that does not compile, and there is no list
    rw [List.mapM_cons] at h
    cases harg : spsInit arg with
    | none =>
      rw [harg] at h
      cases h
    | some sps =>
      cases hargs : args.mapM spsInit with
      | none =>
        rw [harg, hargs] at h
        cases h
      | some rest =>
        rw [harg, hargs] at h
        cases h
        obtain ⟨p, hp, hsps⟩ := exists_pattern (hbytes arg (by simp)) (hnarrow arg (by simp)) harg
        obtain ⟨ps, hps, hspss⟩ :=
          ih (fun a ha => hbytes a (by simp [ha])) (fun a ha => hnarrow a (by simp [ha])) hargs
        exact ⟨p :: ps, by simp [hp, hps], by simp [hsps, hspss]⟩

theorem Pattern.matches_of_spsMatch {p : Pattern} {name : Str} (h : spsMatch p.sps name = true) :
    p.Matches name :=
  (p.tells name).sound (by simpa [spsMatch] using h)

theorem Pattern.spsMatch_of_matches {p : Pattern} {name : Str} (hplain : p.ere.Plain)
    (h : p.Matches name) : spsMatch p.sps name = true := by
  simp [spsMatch, (p.tells name).complete hplain h]

/-! ## Skipped files -/

section Skip

variable {m : ℕ} {curDir : Str} {spf : SpFile}

/-- The path of the file, without the dot in front, has a match of some pattern. -/
def SkippedBy (m : ℕ) (curDir : Str) (spf : SpFile) (ps : List Pattern) : Prop :=
  ∃ path, fullName m curDir spf.spfName = some path ∧ ∃ p ∈ ps, p.Matches (path.drop 1)

theorem skippedBy_of_skip {ps : List Pattern} (hspf : spf.spfType ≠ .symlink)
    (h : spfIsASkip m curDir (ps.map fun p => spsMatch p.sps) spf = some true) :
    SkippedBy m curDir spf ps := by
  obtain ⟨path, hpath, sps, hsps, hmatch⟩ := (spfIsASkip_plain hspf _).mp h
  obtain ⟨p, hp, rfl⟩ := List.mem_map.mp hsps
  exact ⟨path, hpath, p, hp, p.matches_of_spsMatch hmatch⟩

theorem skip_of_skippedBy {ps : List Pattern} (hspf : spf.spfType ≠ .symlink)
    (hplain : ∀ p ∈ ps, p.ere.Plain) (h : SkippedBy m curDir spf ps) :
    spfIsASkip m curDir (ps.map fun p => spsMatch p.sps) spf = some true := by
  obtain ⟨path, hpath, p, hp, hmatch⟩ := h
  refine (spfIsASkip_plain hspf _).mpr ⟨path, hpath, _, List.mem_map_of_mem hp, ?_⟩
  exact p.spsMatch_of_matches (hplain p hp) hmatch

/-- The compiled patterns skip what their expressions match: nothing else, and where the anchors of
the expressions are plain all of it. -/
def SkipsAs (spss : List Guts) (ps : List Pattern) : Prop :=
  ∀ (m : ℕ) (curDir : Str) (spf : SpFile), spf.spfType ≠ .symlink →
    (spfIsASkip m curDir (spss.map spsMatch) spf = some true → SkippedBy m curDir spf ps) ∧
    ((∀ p ∈ ps, p.ere.Plain) → SkippedBy m curDir spf ps →
      spfIsASkip m curDir (spss.map spsMatch) spf = some true)

end Skip

end Spegla
