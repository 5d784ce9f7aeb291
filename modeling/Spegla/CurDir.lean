import Spegla.SpFile

/-!
# Path strings (`spf_util.c`, `have_dotdot_ref` to `spf_is_a_treatasdir`)

The directory being mirrored is a string, `cur_dir`, that `cur_dir_cd` makes
longer and `cur_dir_cdup` shorter; the name of a file in it is put behind it by
`full_name`. Here these are functions of the string.

- `curDirCdup_cd`: going up undoes going down, for names without a slash;
  `curDirCdup_cd_iff`: exactly for those, where they fit.
- `spfSymlinkResolve`: the path a symbolic link is taken to point at.
- `spfIsASkip`, `spfIsATreatasdir`: the patterns of the configuration, each an
  arbitrary predicate on strings. `none` is a call with a null pointer.
-/

namespace Spegla

open CString

/-! ## The current directory -/

/-- `have_dotdot_ref`. -/
def haveDotdotRef (f : Str) : Bool := (strstr ['/', '.', '.', '/'] f).isSome

/-- `cur_dir_cd`: the new `cur_dir`, or a refusal. -/
def curDirCd (pathMax : Nat) (curDir str : Str) : Option Str :=
  if haveDotdotRef str then none
  else if str.length + curDir.length + 1 > pathMax - 2 then none
  else
    let curDir := if curDir ≠ [] ∧ curDir.getLast? ≠ some '/' then curDir ++ ['/'] else curDir
    some (curDir ++ str ++ ['/'])

/-- `cur_dir_cdup`: the new `cur_dir`. -/
def curDirCdup (curDir : Str) : Str :=
  if curDir = [] ∨ curDir = ['.'] then curDir
  else
    let curDir := if curDir.getLast? = some '/' then curDir.dropLast else curDir
    match afterLast '/' curDir with
    | some rest => curDir.take (curDir.length - rest.length)
    -- the search stops at the first character, which stays
    | none => curDir.take 1

/-- `full_name`, with a buffer of `pathMax` bytes. -/
def fullName (pathMax : Nat) (curDir f : Str) : Option Str :=
  if haveDotdotRef f then none
  else if f.length + curDir.length > pathMax - 2 then none
  else some (curDir ++ f)

theorem haveDotdotRef_noslash : ∀ {f : Str}, '/' ∉ f → haveDotdotRef f = false
  | [], _ => rfl
  | c :: f, h => by
    rw [List.mem_cons, not_or] at h
    have hf := haveDotdotRef_noslash h.2
    unfold haveDotdotRef at hf ⊢
    rw [strstr, if_neg]
    · simpa using hf
    · simp [List.isPrefixOf, h.1]

theorem fullName_some {pathMax : Nat} {curDir f s : Str} (h : fullName pathMax curDir f = some s) :
    s = curDir ++ f ∧ f.length + curDir.length ≤ pathMax - 2 ∧ haveDotdotRef f = false := by
  unfold fullName at h
  split at h
  · simp at h
  · next hd =>
    split at h
    · simp at h
    · next hl => exact ⟨by simpa using h.symm, by omega, by simpa using hd⟩

theorem fullName_of_fits {pathMax : Nat} {curDir f : Str} (hf : '/' ∉ f)
    (hl : f.length + curDir.length ≤ pathMax - 2) :
    fullName pathMax curDir f = some (curDir ++ f) := by
  unfold fullName
  rw [haveDotdotRef_noslash hf, if_neg (by simp), if_neg (by omega)]

/-- From a directory with its slash, going down adds a component. -/
theorem curDirCd_some {pathMax : Nat} {curDir str s : Str} (hcur : curDir.getLast? = some '/')
    (h : curDirCd pathMax curDir str = some s) : s = curDir ++ str ++ ['/'] := by
  unfold curDirCd at h
  split at h
  · simp at h
  · split at h
    · simp at h
    · rw [if_neg (by simp [hcur])] at h
      simpa using h.symm

theorem curDirCd_fits {pathMax : Nat} {curDir str s : Str}
    (h : curDirCd pathMax curDir str = some s) :
    str.length + curDir.length + 1 ≤ pathMax - 2 := by
  unfold curDirCd at h
  split at h
  · simp at h
  · split at h
    · simp at h
    · omega

theorem curDirCd_of_fits {pathMax : Nat} {curDir str : Str} (hcur : curDir.getLast? = some '/')
    (hstr : '/' ∉ str) (hl : str.length + curDir.length + 1 ≤ pathMax - 2) :
    curDirCd pathMax curDir str = some (curDir ++ str ++ ['/']) := by
  unfold curDirCd
  rw [haveDotdotRef_noslash hstr, if_neg (by simp), if_neg (by omega), if_neg (by simp [hcur])]

/-- Going up undoes going down. -/
theorem curDirCdup_cd {curDir str : Str} (hcur : curDir.getLast? = some '/') (hstr : '/' ∉ str) :
    curDirCdup (curDir ++ str ++ ['/']) = curDir := by
  obtain ⟨p, rfl⟩ := List.getLast?_eq_some_iff.mp hcur
  unfold curDirCdup
  rw [if_neg, List.getLast?_concat, if_pos rfl, List.dropLast_concat]
  · simp only [List.append_assoc, List.singleton_append]
    rw [afterLast_append hstr]
    simp only [List.length_append, List.length_cons]
    rw [show p.length + (str.length + 1) - str.length = (p ++ ['/']).length by simp; omega]
    rw [show p ++ '/' :: str = (p ++ ['/']) ++ str by simp]
    exact List.take_left
  · rintro (h | h)
    · simp at h
    · have := congrArg List.length h
      simp only [List.length_append, List.length_singleton] at this
      omega

/-- Going up makes the directory shorter. -/
theorem curDirCdup_length {curDir : Str} (hcur : curDir.getLast? = some '/') :
    (curDirCdup curDir).length < curDir.length := by
  obtain ⟨p, rfl⟩ := List.getLast?_eq_some_iff.mp hcur
  have hne : p ++ ['/'] ≠ ['.'] := fun h => by
    rw [h] at hcur
    simp at hcur
  unfold curDirCdup
  rw [if_neg (by simp [hne]), if_pos hcur, List.dropLast_concat, List.length_append]
  simp only
  cases afterLast '/' p with
  | none =>
    simp only [List.length_take, List.length_singleton]
    omega
  | some rest =>
    simp only [List.length_take, List.length_singleton]
    omega

/-- A name that `cur_dir_cd` enters and `cur_dir_cdup` leaves: a single component
that fits. -/
def CanEnter (pathMax : Nat) (curDir name : Str) : Prop :=
  '/' ∉ name ∧ name.length + curDir.length + 1 ≤ pathMax - 2

instance (pathMax : Nat) (curDir name : Str) : Decidable (CanEnter pathMax curDir name) :=
  inferInstanceAs (Decidable (_ ∧ _))

/-- Going up behind a name with a slash stops in the middle of the name. -/
theorem curDirCdup_cd_slash {curDir a b : Str} (hb : '/' ∉ b) :
    curDirCdup (curDir ++ (a ++ '/' :: b) ++ ['/']) = curDir ++ (a ++ ['/']) := by
  have hlast : (curDir ++ (a ++ ['/'])).getLast? = some '/' := by simp
  have hsplit : curDir ++ (a ++ '/' :: b) ++ ['/'] = curDir ++ (a ++ ['/']) ++ b ++ ['/'] := by simp
  rw [hsplit]
  exact curDirCdup_cd hlast hb

/-- Going down and up comes back exactly for the names that can be entered. -/
theorem curDirCdup_cd_iff {pathMax : Nat} {curDir name : Str} (hcur : curDir.getLast? = some '/') :
    curDirCdup ((curDirCd pathMax curDir name).getD curDir) = curDir ↔
      CanEnter pathMax curDir name := by
  constructor
  · intro hback
    cases hcd : curDirCd pathMax curDir name with
    | none =>
      -- a refused name is not entered, and going up leaves the directory itself
      rw [hcd] at hback
      have := curDirCdup_length hcur
      rw [show curDirCdup curDir = curDir from hback] at this
      omega
    | some s =>
      have hs := curDirCd_some hcur hcd
      refine ⟨fun hslash => ?_, curDirCd_fits hcd⟩
      obtain ⟨b, hlast⟩ := Option.ne_none_iff_exists'.mp (afterLast_ne_none hslash)
      obtain ⟨a, rfl, hb⟩ := afterLast_eq_some hlast
      rw [hcd, Option.getD_some, hs, curDirCdup_cd_slash hb] at hback
      simpa using congrArg List.length hback
  · rintro ⟨hname, hlen⟩
    rw [curDirCd_of_fits hcur hname hlen]
    exact curDirCdup_cd hcur hname

/-! ## Where a symbolic link points -/

/-- `symlink_cd`: one component of the target, entered from `buf`. A `".."` takes
a component away only where `buf` does not end in a slash. -/
def symlinkCd (bufSiz : Nat) (dir buf : Str) : Option Str :=
  if bufSiz - buf.length - 1 ≤ dir.length then none
  else if dir = [] ∨ dir = ['.'] then some buf
  else if dir = ['.', '.'] then
    let buf := if buf = ['.', '/', '.', '.', '/'] then ['.', '.', '/'] else buf
    if ['.', '.', '/'].isPrefixOf buf then some (buf ++ ['.', '.', '/'])
    else if buf = [] then some ['.', '.', '/']
    else
      match afterLast '/' buf with
      | some rest =>
        -- up at the root does not change anything
        if buf.length = rest.length + 1 then some buf
        else some (buf.take (buf.length - rest.length))
      | none => some ['.', '/']
  else
    let buf := buf ++ dir
    some (if buf.getLast? ≠ some '/' then buf ++ ['/'] else buf)

/-- The loop of `spf_symlink_resolve` behind a slash. The character that follows
the slash is taken into the component unseen, and an empty rest is not entered. -/
def resolveRest (bufSiz : Nat) : Nat → Str → Str → Option Str
  | 0, _, buf => some buf
  | _ + 1, [], buf => some buf
  | fuel + 1, c :: p, buf =>
    let dir := c :: p.takeWhile (· ≠ '/')
    match symlinkCd bufSiz dir buf with
    | none => none
    | some buf =>
      match p.dropWhile (· ≠ '/') with
      | [] => some buf
      | _ :: p => resolveRest bufSiz fuel p buf

/-- `spf_symlink_resolve`, with a buffer of `len` bytes. -/
def spfSymlinkResolve (curDir : Str) (spf : SpFile) (len : Nat) : Option Str :=
  match spf.spfSymlink with
  | none => none
  | some p =>
    let start : Option Str :=
      if p.head? = some '/' then some []
      else if len ≤ curDir.length then none
      else some (['.', '/'] ++ if ['.', '/'].isPrefixOf curDir then curDir.drop 2 else curDir)
    start.bind fun buf =>
      (symlinkCd len (p.takeWhile (· ≠ '/')) buf).bind fun buf =>
        (match p.dropWhile (· ≠ '/') with
          | [] => some buf
          | _ :: p => resolveRest len p.length p buf).map fun buf : Str =>
            if buf.getLast? = some '/' then buf.dropLast else buf

/-! ## Patterns -/

/-- `struct sp_treatasdir`: whether the pattern is for the target, and the pattern. -/
structure SpTreatasdir where
  sptDeref : Bool
  sptMatch : Str → Bool

/-- `spf_is_a_skip_find`. -/
def spfIsASkipFind (pathMax : Nat) (curDir : Str) (spf : SpFile) (spsMatch : Str → Bool) :
    Option Bool :=
  match fullName pathMax curDir spf.spfName with
  | none => none
  | some p =>
    if spsMatch (p.drop 1) ∨ spf.spfType ≠ .symlink then some (spsMatch (p.drop 1))
    else (spfSymlinkResolve curDir spf pathMax).map spsMatch

/-- `spf_is_a_skip`. -/
def spfIsASkip (pathMax : Nat) (curDir : Str) (skip : List (Str → Bool)) (spf : SpFile) :
    Option Bool :=
  match skip with
  | [] => some false
  | sps :: skip =>
    match spfIsASkipFind pathMax curDir spf sps with
    | none => none
    | some true => some true
    | some false => spfIsASkip pathMax curDir skip spf

/-- `spf_is_a_treatasdir_find`. -/
def spfIsATreatasdirFind (pathMax : Nat) (curDir : Str) (spf : SpFile) (spt : SpTreatasdir) :
    Option Bool :=
  if spf.spfType ≠ .symlink then some false
  else
    (if spt.sptDeref then spfSymlinkResolve curDir spf pathMax
      else fullName pathMax curDir spf.spfName).map fun p => spt.sptMatch (p.drop 1)

/-- `spf_is_a_treatasdir`. -/
def spfIsATreatasdir (pathMax : Nat) (curDir : Str) (treatasdir : List SpTreatasdir)
    (spf : SpFile) : Option Bool :=
  match treatasdir with
  | [] => some false
  | spt :: treatasdir =>
    match spfIsATreatasdirFind pathMax curDir spf spt with
    | none => none
    | some true => some true
    | some false => spfIsATreatasdir pathMax curDir treatasdir spf

/-- A file that is no skip has a path that no pattern matches. -/
theorem spfIsASkip_false {pathMax : Nat} {curDir : Str} {spf : SpFile} :
    ∀ {skip : List (Str → Bool)}, spfIsASkip pathMax curDir skip spf = some false →
      ∀ sps ∈ skip, ∃ p, fullName pathMax curDir spf.spfName = some p ∧ sps (p.drop 1) = false
  | [], _, _, h => by simp at h
  | sps :: skip, h, sps', hmem => by
    rw [spfIsASkip] at h
    cases hf : spfIsASkipFind pathMax curDir spf sps with
    | none => rw [hf] at h; simp at h
    | some b =>
      cases b with
      | true => rw [hf] at h; simp at h
      | false =>
        rw [hf] at h
        rcases List.mem_cons.mp hmem with rfl | hmem
        · unfold spfIsASkipFind at hf
          cases hp : fullName pathMax curDir spf.spfName with
          | none => rw [hp] at hf; simp at hf
          | some p =>
            rw [hp] at hf
            refine ⟨p, rfl, ?_⟩
            simp only at hf
            split at hf
            · simpa using hf
            · next hm =>
              rw [not_or, Bool.not_eq_true] at hm
              exact hm.1
        · exact spfIsASkip_false h sps' hmem

end Spegla
