import Mathlib.Data.List.TakeWhile
import Spegla.Lib.PathNormal
import Spegla.Names

/-!
# Where a symbolic link points (`spf_symlink_resolve`)

`spf_symlink_resolve` puts the components of a target behind a buffer, one by one. Behind a slash it
takes the next character unseen, and `..` only takes away what stands behind the last slash of the
buffer, where nothing ever stands.

- `seenDirs`: what the loop takes for the components of a target.
- `IsBuf`: a buffer that `..` leaves as it is; `enterAll` says what comes of the components there.
- `dotted`: the string for a relative target; `spfSymlinkResolve_relative`.
-/

namespace Spegla

open CString PosixFs

/-! ## What is seen of the target -/

/-- The components that `resolveRest` enters. -/
def seenRest : Nat → Str → List Str
  | 0, _ => []
  | _ + 1, [] => []
  | fuel + 1, c :: p =>
    (c :: p.takeWhile (· ≠ '/')) ::
      match p.dropWhile (· ≠ '/') with
      | [] => []
      | _ :: p => seenRest fuel p

/-- The components of the target `t` that `spf_symlink_resolve` enters. -/
def seenDirs (t : Str) : List Str :=
  t.takeWhile (· ≠ '/') ::
    match t.dropWhile (· ≠ '/') with
    | [] => []
    | _ :: p => seenRest p.length p

/-- What a component adds to the buffer: nothing, if it is empty, `.` or `..`. -/
def piece (d : Str) : Str :=
  if d = [] ∨ d = ['.'] ∨ d = ['.', '.'] then []
  else if d.getLast? = some '/' then d
  else d ++ ['/']

/-- Every one of the components finds room in a buffer of `m` bytes that holds `n` characters
and the components before it. -/
def Room (m : Nat) : Nat → List Str → Prop
  | _, [] => True
  | n, d :: ds => n + d.length + 1 < m ∧ Room m (n + (piece d).length) ds

instance (m : Nat) : ∀ (n : Nat) (ds : List Str), Decidable (Room m n ds)
  | _, [] => isTrue trivial
  | n, d :: ds =>
    have := instDecidableRoom m (n + (piece d).length) ds
    inferInstanceAs (Decidable (_ ∧ _))

/-- A buffer of `spf_symlink_resolve` that `..` leaves as it is: it ends in a slash, and does not
begin with `..`. -/
structure IsBuf (buf : Str) : Prop where
  last : buf.getLast? = some '/'
  noUp : ¬['.', '.', '/'] <+: buf
  noDotUp : buf ≠ ['.', '/', '.', '.', '/']

theorem dirStr_isBuf {ds : List Str} (hds : ∀ d ∈ ds, IsName d) : IsBuf (dirStr ds) where
  last := dirStr_getLast ds
  noUp := by simp [dirStr]
  noDotUp := by
    intro h
    have hrest : ds.flatMap (· ++ ['/']) = ['.', '.', '/'] := by simpa [dirStr] using h
    cases ds with
    | nil => simp at hrest
    | cons d ds =>
      have hd := hds d (List.mem_cons_self ..)
      have hsplit : d ++ '/' :: ds.flatMap (· ++ ['/']) = ['.', '.'] ++ '/' :: [] := by
        simpa using hrest
      -- the first name is the text before the first slash
      have htake := congrArg (List.takeWhile (· ≠ '/')) hsplit
      have hname : ∀ c ∈ d, decide (c ≠ '/') = true := by
        intro c hc
        exact decide_eq_true fun he => hd.noslash (he ▸ hc)
      have hslash : ∀ cs : Str, ('/' :: cs).takeWhile (· ≠ '/') = [] := by
        intro cs
        exact List.takeWhile_cons_of_neg (by decide)
      have hdots : ∀ c ∈ ['.', '.'], decide (c ≠ '/') = true := by simp
      rw [List.takeWhile_append_of_pos hname, List.takeWhile_append_of_pos hdots,
        hslash, hslash, List.append_nil, List.append_nil] at htake
      exact hd.ne_dotdot htake

/-- A component that is seen has no slash but at its beginning. -/
theorem piece_ne_up {d : Str} (hd : '/' ∉ d.tail) : piece d ≠ ['.', '.', '/'] := by
  unfold piece
  intro h
  split at h
  · simp at h
  · next hne =>
    split at h
    · rw [h] at hd
      simp at hd
    · have : d = ['.', '.'] := List.append_cancel_right (h.trans (by rfl : _ = ['.', '.'] ++ ['/']))
      simp [this] at hne

theorem IsBuf.append {buf d : Str} (h : IsBuf buf) (hd : '/' ∉ d.tail) :
    IsBuf (buf ++ piece d) where
  last := by
    unfold piece
    split
    · simpa using h.last
    · next hne =>
      split
      · next hl =>
        have : d ≠ [] := fun h0 => hne (Or.inl h0)
        rw [List.getLast?_append_of_ne_nil _ this]
        exact hl
      · rw [← List.append_assoc]
        exact List.getLast?_concat
  noUp := by
    intro hup
    obtain ⟨b, rfl⟩ := List.getLast?_eq_some_iff.mp h.last
    rcases b with - | ⟨x, - | ⟨y, b⟩⟩
    · simp at hup
    · simp at hup
    · exact h.noUp (List.prefix_of_prefix_length_le hup (List.prefix_append ..) (by simp))
  noDotUp := by
    intro heq
    obtain ⟨b, rfl⟩ := List.getLast?_eq_some_iff.mp h.last
    -- the slash of the buffer is the first or the second one of the text
    rcases b with - | ⟨x, - | ⟨y, - | ⟨z, - | ⟨u, - | ⟨v, b⟩⟩⟩⟩⟩
    · simp at heq
    · exact piece_ne_up hd (by simpa using (List.cons.inj heq).2)
    · simp at heq
    · simp at heq
    · have hnil : piece d = [] := by
        have := congrArg List.length heq
        simpa using this
      exact h.noDotUp (by simpa [hnil] using heq)
    · simp at heq

/-- Entering one component. -/
theorem symlinkCd_seen {m : Nat} {buf d : Str} (h : IsBuf buf) :
    symlinkCd m d buf = if buf.length + d.length + 1 < m then some (buf ++ piece d) else none := by
  unfold symlinkCd
  by_cases hroom : buf.length + d.length + 1 < m
  · rw [if_neg (by omega), if_pos hroom]
    by_cases hd : d = [] ∨ d = ['.']
    · rw [if_pos hd]
      have hp : piece d = [] := if_pos (by tauto)
      rw [hp, List.append_nil]
    · rw [if_neg hd]
      by_cases hup : d = ['.', '.']
      · -- going up stops at the slash at the end
        have hp : piece d = [] := if_pos (by tauto)
        have hprefix : ['.', '.', '/'].isPrefixOf buf = false := by
          rw [Bool.eq_false_iff, ne_eq, List.isPrefixOf_iff_prefix]
          exact h.noUp
        have hne : buf ≠ [] := by
          rintro rfl
          simpa using h.last
        obtain ⟨s, hs⟩ := List.getLast?_eq_some_iff.mp h.last
        have hafter : afterLast '/' buf = some [] := by
          rw [hs]
          exact afterLast_append (by simp) s
        simp only [if_pos hup, if_neg h.noDotUp, hp, List.append_nil, hprefix, Bool.false_eq_true,
          if_false, if_neg hne, hafter]
        simp
      · rw [if_neg hup]
        have hne : d ≠ [] := fun h0 => hd (Or.inl h0)
        have hp : piece d = if d.getLast? = some '/' then d else d ++ ['/'] := if_neg (by tauto)
        rw [hp]
        simp only [List.getLast?_append_of_ne_nil _ hne]
        by_cases hl : d.getLast? = some '/'
        · rw [if_neg (by simp [hl]), if_pos hl]
        · rw [if_pos hl, if_neg hl, List.append_assoc]
  · rw [if_pos (by omega), if_neg hroom]

theorem seenRest_tail : ∀ (fuel : Nat) (p : Str), ∀ d ∈ seenRest fuel p, '/' ∉ d.tail
  | 0, _, d, hd => by simp [seenRest] at hd
  | _ + 1, [], d, hd => by simp [seenRest] at hd
  | fuel + 1, c :: p, d, hd => by
    rw [seenRest] at hd
    rcases List.mem_cons.mp hd with rfl | hd
    · intro hmem
      simpa using List.mem_takeWhile_imp hmem
    · cases hp : p.dropWhile (· ≠ '/') with
      | nil => rw [hp] at hd; simp at hd
      | cons x q => rw [hp] at hd; exact seenRest_tail fuel q d hd

theorem seenDirs_tail (t : Str) : ∀ d ∈ seenDirs t, '/' ∉ d.tail := by
  intro d hd
  rcases List.mem_cons.mp hd with rfl | hd
  · intro hmem
    simpa using List.mem_takeWhile_imp (List.mem_of_mem_tail hmem)
  · cases hp : t.dropWhile (· ≠ '/') with
    | nil => rw [hp] at hd; simp at hd
    | cons x q => rw [hp] at hd; exact seenRest_tail _ q d hd

/-- Entering one component after the other. -/
theorem enterAll {m : Nat} :
    ∀ (dirs : List Str) (buf : Str), IsBuf buf → (∀ d ∈ dirs, '/' ∉ d.tail) →
      dirs.foldlM (fun buf d => symlinkCd m d buf) buf =
        if Room m buf.length dirs then some (buf ++ dirs.flatMap piece) else none := by
  intro dirs
  induction dirs with
  | nil =>
    intro buf _ _
    simp [Room]
  | cons d dirs ih =>
    intro buf hbuf hdirs
    have hd := hdirs d (List.mem_cons_self ..)
    rw [List.foldlM_cons, symlinkCd_seen hbuf]
    by_cases hroom : buf.length + d.length + 1 < m
    · rw [if_pos hroom]
      show dirs.foldlM _ (buf ++ piece d) = _
      rw [ih _ (hbuf.append hd) fun e he => hdirs e (List.mem_cons_of_mem _ he)]
      simp [Room, hroom]
    · rw [if_neg hroom, if_neg (by simp [Room, hroom])]
      rfl

theorem resolveRest_seen {m : Nat} : ∀ (fuel : Nat) (p buf : Str),
    resolveRest m fuel p buf = (seenRest fuel p).foldlM (fun buf d => symlinkCd m d buf) buf
  | 0, _, _ => rfl
  | _ + 1, [], _ => rfl
  | fuel + 1, c :: p, buf => by
    rw [resolveRest, seenRest, List.foldlM_cons]
    cases symlinkCd m (c :: p.takeWhile (· ≠ '/')) buf with
    | none => rfl
    | some buf =>
      cases p.dropWhile (· ≠ '/') with
      | nil => rfl
      | cons x q => exact resolveRest_seen fuel q buf

theorem IsBuf.appendAll : ∀ (dirs : List Str) (buf : Str), IsBuf buf → (∀ d ∈ dirs, '/' ∉ d.tail) →
    IsBuf (buf ++ dirs.flatMap piece) := by
  intro dirs
  induction dirs with
  | nil =>
    intro buf hbuf _
    simpa using hbuf
  | cons d dirs ih =>
    intro buf hbuf hdirs
    rw [List.flatMap_cons, ← List.append_assoc]
    exact ih _ (hbuf.append (hdirs d (List.mem_cons_self ..))) fun e he =>
      hdirs e (List.mem_cons_of_mem _ he)

/-- The string that `spf_symlink_resolve` makes of the target `t` of a link in `ds`. -/
def dotted (ds : List Str) (t : Str) : Str := (dirStr ds ++ (seenDirs t).flatMap piece).dropLast

/-- The buffer in which `spf_symlink_resolve` begins, for the target `t`. -/
def startBuf (m : Nat) (curDir t : Str) : Option Str :=
  if t.head? = some '/' then some []
  else if m ≤ curDir.length then none
  else some (['.', '/'] ++ if ['.', '/'].isPrefixOf curDir then curDir.drop 2 else curDir)

/-- `spf_symlink_resolve` enters the components it sees, and leaves a slash at the end out. -/
theorem spfSymlinkResolve_seen {m : Nat} {curDir : Str} {spf : SpFile} {t : Str}
    (ht : spf.spfSymlink = some t) :
    spfSymlinkResolve curDir spf m = ((startBuf m curDir t).bind fun buf =>
      (seenDirs t).foldlM (fun buf d => symlinkCd m d buf) buf).map (trimLast '/') := by
  unfold spfSymlinkResolve
  rw [ht]
  show (startBuf m curDir t).bind _ = _
  rw [Option.map_bind]
  congr 1
  funext buf
  rw [Function.comp_apply, seenDirs, List.foldlM_cons]
  cases symlinkCd m (t.takeWhile (· ≠ '/')) buf with
  | none => rfl
  | some buf =>
    refine congrArg (Option.map (trimLast '/')) ?_
    cases t.dropWhile (· ≠ '/') with
    | nil => rfl
    | cons x q => exact resolveRest_seen _ q buf

/-- The target of a relative link: the components that are seen are put behind the directory of the
link, where they find room. -/
theorem spfSymlinkResolve_relative {m : Nat} {ds : List Str} {spf : SpFile} {t : Str}
    (hds : ∀ d ∈ ds, IsName d) (ht : spf.spfSymlink = some t) (hrel : t.head? ≠ some '/') :
    spfSymlinkResolve (dirStr ds) spf m =
      if Room m (dirStr ds).length (seenDirs t) then some (dotted ds t) else none := by
  have hbuf := dirStr_isBuf hds
  have hdir : ['.', '/'] ++ (if ['.', '/'].isPrefixOf (dirStr ds) then (dirStr ds).drop 2
      else dirStr ds) = dirStr ds := by
    simp [dirStr, List.isPrefixOf]
  rw [spfSymlinkResolve_seen ht, startBuf, if_neg hrel, hdir]
  by_cases hlen : m ≤ (dirStr ds).length
  · have hno : ¬Room m (dirStr ds).length (seenDirs t) := by
      intro hroom
      have := hroom.1
      omega
    rw [if_pos hlen, if_neg hno]
    rfl
  · rw [if_neg hlen, Option.bind_some, enterAll (seenDirs t) (dirStr ds) hbuf (seenDirs_tail t)]
    by_cases hroom : Room m (dirStr ds).length (seenDirs t)
    · rw [if_pos hroom, if_pos hroom, Option.map_some, dotted, trimLast,
        if_pos (IsBuf.appendAll _ _ hbuf (seenDirs_tail t)).last]
    · rw [if_neg hroom, if_neg hroom, Option.map_none]

end Spegla
