import Spegla.Listing

/-!
# Names that come from a server

`build_remote_dir` compares a name with `.` and `..` only. Whether a name is one
component of a path is up to the row it stands in.

- `dirStr`: the strings that `cur_dir` goes through, below the root `"./"`.
- `BelowRoot`: a path string that leads through proper names below the root.
- `PlainField`: the texts behind the date from which `parse_row` takes a proper
  name, or `.` or `..`.
- `buildRemoteDir_names`: the names of a listing are proper exactly when the texts
  of its rows are plain.
-/

namespace Spegla

open CString PosixFs

/-! ## Paths below the root -/

/-- The directory that `cur_dir` names after going down through `ds`. -/
def dirStr : List Str → Str
  | ds => ['.', '/'] ++ ds.flatMap (· ++ ['/'])

theorem dirStr_concat (ds : List Str) (c : Str) : dirStr (ds ++ [c]) = dirStr ds ++ c ++ ['/'] := by
  simp [dirStr]

theorem dirStr_getLast : ∀ ds : List Str, (dirStr ds).getLast? = some '/' := by
  intro ds
  induction ds using List.reverseRecOn with
  | nil => rfl
  | append_singleton ds c _ => rw [dirStr_concat, List.getLast?_concat]

/-- The string leads through proper names to a place strictly below `"./"`. -/
def BelowRoot (p : Str) : Prop :=
  ∃ ds c, (∀ d ∈ ds, IsName d) ∧ IsName c ∧ (p = dirStr ds ++ c ∨ p = dirStr (ds ++ [c]))

/-- The components of a path below the root are `.` and proper names. -/
theorem components_dirStr : ∀ (ds : List Str) (c : Str), (∀ d ∈ ds, '/' ∉ d) → '/' ∉ c →
    components (dirStr ds ++ c) = ['.'] :: ds ++ [c] := by
  intro ds
  induction ds using List.reverseRecOn with
  | nil =>
    intro c _ hc
    show components (['.'] ++ '/' :: c) = _
    rw [components_append_slash, components_of_noslash (by decide), components_of_noslash hc]
  | append_singleton ds d ih =>
    intro c hds hc
    rw [dirStr_concat]
    rw [List.append_assoc (dirStr ds ++ d), List.singleton_append, components_append_slash,
      ih d (fun e he => hds e (by simp [he])) (hds d (by simp)), components_of_noslash hc]
    simp

/-- A string whose components are not `.` and proper names is not below the root. -/
theorem BelowRoot.components {p : Str} (h : BelowRoot p) :
    ∀ c ∈ components p, c = [] ∨ c = ['.'] ∨ IsName c := by
  obtain ⟨ds, c, hds, hc, hp⟩ := h
  have hslash : ∀ d ∈ ds, '/' ∉ d := fun d hd => (hds d hd).noslash
  rcases hp with rfl | rfl
  · rw [components_dirStr ds c hslash hc.noslash]
    intro e he
    rcases List.mem_append.mp he with he | he
    · rcases List.mem_cons.mp he with rfl | he
      · exact Or.inr (Or.inl rfl)
      · exact Or.inr (Or.inr (hds e he))
    · rw [List.mem_singleton.mp he]
      exact Or.inr (Or.inr hc)
  · rw [← List.append_nil (dirStr (ds ++ [c])), components_dirStr (ds ++ [c]) [] (fun d hd => by
      rcases List.mem_append.mp hd with hd | hd
      · exact hslash d hd
      · rw [List.mem_singleton.mp hd]
        exact hc.noslash) (by simp)]
    intro e he
    rcases List.mem_append.mp he with he | he
    · rcases List.mem_cons.mp he with rfl | he
      · exact Or.inr (Or.inl rfl)
      · rcases List.mem_append.mp he with he | he
        · exact Or.inr (Or.inr (hds e he))
        · rw [List.mem_singleton.mp he]
          exact Or.inr (Or.inr hc)
    · rw [List.mem_singleton.mp he]
      exact Or.inl rfl

/-- The paths built from a proper name stay below the root. -/
theorem belowRoot_of_name {pathMax : Nat} {ds : List Str} {c : Str} (hds : ∀ d ∈ ds, IsName d)
    (hc : IsName c) :
    (∀ p, fullName pathMax (dirStr ds) c = some p → BelowRoot p) ∧
      ∀ p, curDirCd pathMax (dirStr ds) c = some p → BelowRoot p := by
  constructor
  · intro p hp
    exact ⟨ds, c, hds, hc, Or.inl (fullName_some hp).1⟩
  · intro p hp
    refine ⟨ds, c, hds, hc, Or.inr ?_⟩
    rw [dirStr_concat]
    exact curDirCd_some (dirStr_getLast ds) hp

/-! ## The text of a name -/

/-- The texts from which `parse_row` takes a name that is not empty and has no
slash, for each type of file: a slash may only end the name of a directory, there
must be more than the decorations `'*'` and `'/'`, and of a link it is the text
before the arrow that counts. -/
def PlainField (ftype : SpFtype) (text : Str) : Prop :=
  match ftype with
  | .directory => '/' ∉ text.dropLast ∧ text ∉ [[], ['/'], ['*'], ['*', '/']]
  | .symlink => ∀ p, strstr arrow (trimLast '*' text) = some p → '/' ∉ p.1 ∧ p.1 ≠ []
  | _ => '/' ∉ text ∧ text ∉ [[], ['*']]

/-- The star does not matter to a plain text. -/
theorem trimLast_star (text : Str) :
    (trimLast '*' text ≠ [] ∧ '/' ∉ trimLast '*' text) ↔ '/' ∉ text ∧ text ∉ [[], ['*']] := by
  rcases List.eq_nil_or_concat text with rfl | ⟨s, x, rfl⟩
  · simp [trimLast]
  · rw [List.concat_eq_append]
    by_cases hx : x = '*'
    · subst hx
      rw [trimLast_concat]
      cases s <;> simp
    · rw [trimLast_of_ne (by simpa using hx)]
      cases s <;> simp [hx]

/-- Neither does the slash of a directory. -/
theorem trimLast_slash (text : Str) :
    ('/' ∉ trimLast '/' text ∧ trimLast '/' text ∉ [[], ['*']]) ↔
      '/' ∉ text.dropLast ∧ text ∉ [[], ['/'], ['*'], ['*', '/']] := by
  rcases List.eq_nil_or_concat text with rfl | ⟨s, x, rfl⟩
  · simp [trimLast]
  · rw [List.concat_eq_append, List.dropLast_concat]
    by_cases hx : x = '/'
    · subst hx
      rw [trimLast_concat]
      rcases s with - | ⟨y, - | ⟨z, s⟩⟩ <;> simp
    · rw [trimLast_of_ne (by simpa using hx)]
      rcases s with - | ⟨y, - | ⟨z, s⟩⟩ <;> simp [hx, Ne.symm hx]

/-- The name that `parse_row` takes from a text is not empty and without a slash
exactly when the text is plain. -/
theorem parseName_plain {ftype : SpFtype} {mode : Mode} {text name : Str} {link : Option Str}
    (h : parseName ftype mode text = some (name, link)) :
    (name ≠ [] ∧ '/' ∉ name) ↔ PlainField ftype text := by
  rw [parseName_eq] at h
  cases ftype with
  | symlink =>
    simp only [reduceCtorEq, if_false, if_true, Option.map_eq_some_iff, Prod.mk.injEq] at h
    obtain ⟨p, hp, rfl, -⟩ := h
    show _ ↔ ∀ q, strstr arrow (trimLast '*' text) = some q → '/' ∉ q.1 ∧ q.1 ≠ []
    rw [hp]
    simp [and_comm]
  | directory =>
    simp only [if_true, reduceCtorEq, if_false, Option.some.injEq, Prod.mk.injEq] at h
    obtain ⟨rfl, -⟩ := h
    exact (trimLast_star _).trans (trimLast_slash text)
  | plainfile =>
    simp only [reduceCtorEq, if_false, Option.some.injEq, Prod.mk.injEq] at h
    obtain ⟨rfl, -⟩ := h
    exact trimLast_star text
  | unknown =>
    simp only [reduceCtorEq, if_false, Option.some.injEq, Prod.mk.injEq] at h
    obtain ⟨rfl, -⟩ := h
    exact trimLast_star text

/-! ## The names of a listing -/

/-- The row in the buffer `buf` names its file by a plain text. -/
def PlainRow (leftover buf : Str) : Prop :=
  ∀ ftype text, rowFtype (stripEol buf) = some ftype →
    nameField (stripEol buf) leftover = some text → PlainField ftype text

/-- A row that gives an entry gives one with a proper name exactly when it is plain. -/
theorem rowEntry_name {F : Type} {env : Env F} {curDir leftover buf : Str} {spf : SpFile}
    (h : rowEntry env curDir leftover buf = .ok (some spf)) :
    IsName spf.spfName ↔ PlainRow leftover buf := by
  obtain ⟨spf₀, hp, hdotdot, hdot, hf⟩ := rowEntry_some h
  obtain ⟨hname, -⟩ := filterEntry_some hf
  obtain ⟨-, hftype, text, htext, hparse⟩ := parseRow_some hp
  have hplain : PlainRow leftover buf ↔ PlainField spf₀.spfType text := by
    unfold PlainRow
    rw [hftype, htext]
    simp
  rw [hplain, ← parseName_plain hparse, hname]
  exact ⟨fun hn => ⟨hn.ne_nil, hn.noslash⟩, fun hn => ⟨hn.1, hdot, hdotdot, hn.2⟩⟩

/-- **The names of a listing.** The names of all entries that `build_remote_dir`
takes from a listing are single components, and the paths built from them stay
below the root, exactly when every row that gives an entry is plain. -/
theorem buildRemoteDir_names {F : Type} (env : Env F) (ds : List Str) (hds : ∀ d ∈ ds, IsName d)
    (tick : Nat) (listing : Str) (headp : HeapList SpFile)
    (h : buildRemoteDir env (dirStr ds) tick (some listing) = .ok (some headp)) :
    (∀ spf ∈ headp.elems, IsName spf.spfName ∧
      (∀ p, fullName env.pathMax (dirStr ds) spf.spfName = some p → BelowRoot p) ∧
      ∀ p, curDirCd env.pathMax (dirStr ds) spf.spfName = some p → BelowRoot p) ↔
    ∀ row ∈ rowsOf env tick (listingRows env.pathMax listing),
      (∃ spf, rowEntry env (dirStr ds) row.1 row.2 = .ok (some spf)) → PlainRow row.1 row.2 := by
  obtain ⟨listing', hl, rfl⟩ := buildRemoteDir_some h
  obtain rfl : listing = listing' := Option.some.inj hl
  rw [heapOf_elems]
  constructor
  · rintro hnames row hrow ⟨spf, hspf⟩
    exact (rowEntry_name hspf).mp
      (hnames spf (Multiset.mem_coe.mpr (mem_rowEntries.mpr ⟨row, hrow, hspf⟩))).1
  · intro hplain spf hmem
    obtain ⟨row, hrow, hspf⟩ := mem_rowEntries.mp (Multiset.mem_coe.mp hmem)
    have hname := (rowEntry_name hspf).mpr (hplain row hrow ⟨spf, hspf⟩)
    exact ⟨hname, belowRoot_of_name hds hname⟩

/-- A listing of one file, named `../x`. -/
def dotdotListing : Str :=
  ['-', 'r', 'w', '-', 'r', '-', '-', 'r', '-', '-', ' ', '1', ' ', 'u', ' ', '1', ' ', 'J', 'a',
    'n', ' ', '1', ' ', '1', '9', '9', '9', ' ', '.', '.', '/', 'x', '\n']

/-- The entry that the listing gives. -/
def dotdotEntry : SpFile :=
  { (default : SpFile) with
    spfTime := 99, spfTgranul := SECSPERDAY, spfSize := 1, spfMode := 0o644#12
    spfName := ['.', '.', '/', 'x'] }

theorem buildRemoteDir_names_dotdot :
    (∀ spf ∈ (heapOf [dotdotEntry]).elems, IsName spf.spfName ∧
      (∀ p, fullName 255 (dirStr []) spf.spfName = some p → BelowRoot p) ∧
      ∀ p, curDirCd 255 (dirStr []) spf.spfName = some p → BelowRoot p) ↔
    ∀ row ∈ rowsOf (calmEnv deadFtp) 0 (listingRows 255 dotdotListing),
      (∃ spf, rowEntry (calmEnv deadFtp) (dirStr []) row.1 row.2 = .ok (some spf)) →
        PlainRow row.1 row.2 :=
  buildRemoteDir_names (calmEnv deadFtp) [] (by simp) 0 dotdotListing (heapOf [dotdotEntry]) rfl

/-- The name `../x` goes through, and its path leads out of the root. -/
theorem buildRemoteDir_dotdot :
    ∃ headp, buildRemoteDir (calmEnv deadFtp) (dirStr []) 0 (some dotdotListing) =
      .ok (some headp) ∧
      ∃ spf ∈ headp.elems, ¬IsName spf.spfName ∧
        ∃ p, fullName 255 (dirStr []) spf.spfName = some p ∧ ¬BelowRoot p := by
  have hheap : buildRemoteDir (calmEnv deadFtp) (dirStr []) 0 (some dotdotListing) =
      .ok (some (heapOf [dotdotEntry])) := rfl
  refine ⟨_, hheap, dotdotEntry, ?_, by decide, _, rfl, fun hbelow => ?_⟩
  · rw [heapOf_elems]
    simp
  · have := hbelow.components ['.', '.'] (by decide)
    revert this
    decide

end Spegla
