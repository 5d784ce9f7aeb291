import Spegla.Options.RowRuns

/-!
# Comments in config files (`tgetopt.c`, `get_opt_file`)

A comment begins at a `#` or a `!` that is not in quotes, and it goes on to the end of the line.

- `stripComments`, `stripFile`: a text and a file without their comments.
- `bareText`, `commentText`: the two parts of a line.
- `strip_fgets`: the lines that are read of a file without its comments.
-/

namespace Spegla

open CString

/-! ## Texts without comments -/

/-- Where a text stands. -/
inductive Place where
  | bare
  | quoted
  | escape
  | inComment
deriving DecidableEq

/-- Behind a character. -/
def Place.after (p : Place) (c : Char) : Place :=
  if c = '\n' then .bare
  else
    match p with
    | .bare => if inSet comment c then .inComment else if c = '"' then .quoted else .bare
    | .quoted => if c = '\\' then .escape else if c = '"' then .bare else .quoted
    | .escape => .quoted
    | .inComment => .inComment

/-- A text without its comments. -/
def stripComments : Place → Str → Str
  | _, [] => []
  | p, c :: s =>
    if p.after c = .inComment then stripComments .inComment s
    else c :: stripComments (p.after c) s

/-- A line up to its comment. -/
def bareText : Place → Str → Str
  | _, [] => []
  | p, c :: s => if p.after c = .inComment then [] else c :: bareText (p.after c) s

/-- The comment of a line, with the character that begins it. -/
def commentText : Place → Str → Str
  | _, [] => []
  | p, c :: s => if p.after c = .inComment then c :: s else commentText (p.after c) s

/-- Behind a line. Its comment ends there. -/
def placeBehind : Place → Str → Place
  | p, [] => p
  | p, c :: s => if p.after c = .inComment then .bare else placeBehind (p.after c) s

/-- A file without its comments. -/
def stripFile (p : Place) (fp : ConfFile) : ConfFile :=
  { fp with data := stripComments .bare fp.data, rest := stripComments p fp.rest }

section Texts

variable {p : Place} {line s y : Str} {c : Char}

/-- A comment goes on to the end of its line. -/
theorem after_inComment (hc : c ≠ '\n') : Place.after .inComment c = .inComment := if_neg hc

/-- A comment is entered at one of its characters. -/
theorem after_enters (h : p.after c = .inComment) :
    c ≠ '\n' ∧ (p ≠ .inComment → inSet comment c) := by
  rw [Place.after.eq_def] at h
  split at h
  · cases h
  · next hc =>
    refine ⟨hc, fun hp => ?_⟩
    cases p with
    | bare =>
      dsimp only at h
      split at h
      · assumption
      · split at h <;> cases h
    | quoted =>
      dsimp only at h
      split at h
      · cases h
      · split at h <;> cases h
    | escape => cases h
    | inComment => exact absurd rfl hp

/-- A line is its text and its comment. -/
theorem bareText_append (p : Place) (line : Str) :
    bareText p line ++ commentText p line = line := by
  induction line generalizing p with
  | nil => rfl
  | cons c s ih =>
    rw [bareText, commentText]
    split
    · rfl
    · rw [List.cons_append, ih]

/-- Stripping takes characters out, and moves none. -/
theorem stripComments_sublist (p : Place) (s : Str) : (stripComments p s).Sublist s := by
  induction s generalizing p with
  | nil => exact List.Sublist.slnil
  | cons c s ih =>
    rw [stripComments]
    split
    · exact (ih _).cons c
    · exact (ih _).cons_cons c

/-- A line without comment. -/
theorem strip_bare (h : commentText p line = []) (s : Str) :
    stripComments p (line ++ s) = line ++ stripComments (placeBehind p line) s := by
  induction line generalizing p with
  | nil => rfl
  | cons c line ih =>
    rw [commentText] at h
    split at h
    · cases h
    · next hc =>
      rw [List.cons_append, stripComments, if_neg hc, placeBehind, if_neg hc, ih h]
      rfl

/-- Up to the comment. -/
theorem strip_comment (h : commentText p line = c :: y) (s : Str) :
    stripComments p (line ++ s) = bareText p line ++ stripComments .inComment (y ++ s) := by
  induction line generalizing p with
  | nil => cases h
  | cons d line ih =>
    rw [commentText] at h
    rw [bareText, List.cons_append, stripComments]
    split at h
    · next hc =>
      cases h
      rw [if_pos hc, if_pos hc]
      rfl
    · next hc =>
      rw [if_neg hc, if_neg hc, ih h]
      rfl

/-- To the end of the line. -/
theorem strip_inComment (hy : '\n' ∉ y) (s : Str) :
    stripComments .inComment (y ++ s) = stripComments .inComment s := by
  induction y with
  | nil => rfl
  | cons c y ih =>
    obtain ⟨hc, hy⟩ := not_or.mp (mt List.mem_cons.mpr hy)
    have hafter := after_inComment (Ne.symm hc)
    rw [List.cons_append, stripComments, if_pos hafter, ih hy]

/-- A comment begins with the character for it. -/
theorem commentText_begins (hp : p ≠ .inComment) (h : commentText p line = c :: y) :
    c ≠ '\n' ∧ inSet comment c := by
  induction line generalizing p with
  | nil => cases h
  | cons d line ih =>
    rw [commentText] at h
    split at h
    · next hd =>
      cases h
      obtain ⟨hn, hc⟩ := after_enters hd
      exact ⟨hn, hc hp⟩
    · next hd => exact ih hd h

/-- No comment goes on behind its line. -/
theorem placeBehind_ne (hp : p ≠ .inComment) (line : Str) : placeBehind p line ≠ .inComment := by
  induction line generalizing p with
  | nil => exact hp
  | cons c line ih =>
    rw [placeBehind]
    split
    · exact nofun
    · next hc => exact ih hc

/-- Behind a comment is the beginning of a line. -/
theorem placeBehind_comment (h : commentText p line = c :: y) : placeBehind p line = .bare := by
  induction line generalizing p with
  | nil => cases h
  | cons d line ih =>
    rw [commentText] at h
    rw [placeBehind]
    split at h
    · next hd => rw [if_pos hd]
    · next hd => rw [if_neg hd, ih h]

/-- A comment in a line with a newline. -/
theorem comment_newline (hp : p ≠ .inComment) {q : Str} (h : commentText p (q ++ ['\n']) = c :: y) :
    ∃ y', y = y' ++ ['\n'] ∧ q = bareText p (q ++ ['\n']) ++ c :: y' := by
  have happ := bareText_append p (q ++ ['\n'])
  rw [h] at happ
  rcases List.eq_nil_or_concat y with rfl | ⟨y', d, rfl⟩
  · have hc := (List.append_inj' happ rfl).2
    exact absurd (List.cons.inj hc).1 (commentText_begins hp h).1
  · rw [List.concat_eq_append, ← List.cons_append, ← List.append_assoc] at happ
    obtain ⟨hq, hd⟩ := List.append_inj' happ rfl
    cases hd
    exact ⟨y', List.concat_eq_append, hq.symm⟩

end Texts

/-! ## Lines of a file without comments -/

section Lines

variable {p : Place} {fp fp' : ConfFile} {line : Str}

/-- The first line of the file without its comments: the same one, or the one up to its comment. -/
theorem strip_fgets (hp : p ≠ .inComment) (h : fp.fgets MAX_STR = some (line, fp'))
    (hends : commentText p line ≠ [] →
      line.getLast? = some '\n' ∨ (fp'.rest = [] ∧ fp.broken = false)) :
    (commentText p line = [] ∧
      (stripFile p fp).fgets MAX_STR = some (line, stripFile (placeBehind p line) fp')) ∨
    ∃ c y, commentText p line = c :: y ∧ '\n' ∉ bareText p line ∧
      (∃ y', '\n' ∉ bareText p line ++ c :: y' ∧ (line = bareText p line ++ c :: y' ++ ['\n'] ∨
        line = bareText p line ++ c :: y')) ∧
      ((∃ line', (line' = bareText p line ++ ['\n'] ∨ line' = bareText p line) ∧
          (stripFile p fp).fgets MAX_STR = some (line', stripFile (placeBehind p line) fp')) ∨
        (bareText p line = [] ∧ stripFile p fp = stripFile (placeBehind p line) fp')) := by
  obtain ⟨hrest, hfp, hcases⟩ := fgets_cases h
  have hstrip : (stripFile p fp).rest = stripComments p (line ++ fp'.rest) :=
    congrArg (stripComments p) hrest
  have hfile : ∀ s, s = stripComments (placeBehind p line) fp'.rest →
      ({ stripFile p fp with rest := s } : ConfFile) = stripFile (placeBehind p line) fp' := by
    intro s hs
    rw [hfp, hs]
    rfl
  cases hc : commentText p line with
  | nil =>
    refine .inl ⟨rfl, ?_⟩
    rw [strip_bare hc] at hstrip
    rw [← hfile _ rfl]
    rcases hcases with ⟨q, hq, rfl, hlen⟩ | ⟨hn, hlen⟩ | ⟨hn, hlen, hne, hend, hbroken⟩
    · exact fgets_newline hq hlen (by rw [hstrip, List.append_assoc]; rfl)
    · exact fgets_full hn hlen hstrip
    · rw [hend] at hstrip ⊢
      exact fgets_end hn (Nat.le_of_lt hlen) hne hbroken (hstrip.trans (List.append_nil _))
  | cons c y =>
    -- a comment ends with its line, and is not there in the stripped file
    have hplace := placeBehind_comment hc
    rcases hcases with ⟨q, hq, rfl, hlen⟩ | hcases
    · -- a newline ends the comment
      obtain ⟨y', rfl, hq'⟩ := comment_newline hp hc
      have hnot : '\n' ∉ bareText p (q ++ ['\n']) ++ c :: y' := by
        rw [← hq']
        exact hq
      have hnot' : '\n' ∉ bareText p (q ++ ['\n']) := fun hm => hnot (List.mem_append_left _ hm)
      have hlen' : (bareText p (q ++ ['\n'])).length < MAX_STR - 1 := by
        have := congrArg List.length hq'
        rw [List.length_append, List.length_cons] at this
        omega
      have hy : '\n' ∉ y' := fun hm => hnot (List.mem_append_right _ (List.mem_cons_of_mem _ hm))
      rw [strip_comment hc, List.append_assoc, strip_inComment hy] at hstrip
      refine .inr ⟨c, _, rfl, hnot', ⟨y', hnot, .inl ?_⟩, .inl ⟨_, .inl rfl, ?_⟩⟩
      · conv_lhs => rw [hq']
      · rw [fgets_newline hnot' hlen' hstrip]
        refine congrArg (fun fp => some (_, fp)) (hfile _ ?_)
        rw [hplace]
        rfl
    · -- the end of the file does
      have hn : '\n' ∉ line := by
        rcases hcases with hcases | hcases
        · exact hcases.1
        · exact hcases.1
      have hlen : line.length ≤ MAX_STR - 1 := by
        rcases hcases with hcases | hcases
        · exact Nat.le_of_eq hcases.2
        · exact Nat.le_of_lt hcases.2.1
      obtain ⟨hend, hbroken⟩ := (hends (by simp [hc])).resolve_left
        fun he => hn (List.mem_of_getLast? he)
      have happ := bareText_append p line
      rw [hc] at happ
      have hnot : '\n' ∉ bareText p line ++ c :: y := by
        rw [happ]
        exact hn
      have hnot' : '\n' ∉ bareText p line := fun hm => hnot (List.mem_append_left _ hm)
      have hlen' : (bareText p line).length ≤ MAX_STR - 1 := by
        have := congrArg List.length happ
        rw [List.length_append] at this
        omega
      have hy : '\n' ∉ y := fun hm => hnot (List.mem_append_right _ (List.mem_cons_of_mem _ hm))
      have hbroken' : (stripFile p fp).broken = false := hbroken
      rw [hend, strip_comment hc, strip_inComment hy, stripComments, List.append_nil] at hstrip
      rw [hend] at hfile
      refine .inr ⟨c, y, rfl, hnot', ⟨y, hnot, .inr happ.symm⟩, ?_⟩
      by_cases hne : bareText p line = []
      · refine .inr ⟨hne, ?_⟩
        rw [hne] at hstrip
        rw [← hfile [] rfl, ← hstrip]
      · refine .inl ⟨_, .inr rfl, ?_⟩
        rw [fgets_end hnot' hlen' hne hbroken' hstrip]
        exact congrArg (fun fp => some (_, fp)) (hfile _ rfl)

/-- At the end of the file. -/
theorem strip_fgets_none (h : fp.fgets MAX_STR = none) : (stripFile p fp).fgets MAX_STR = none := by
  have hsub : (stripFile p fp).rest.Sublist fp.rest := stripComments_sublist p fp.rest
  by_cases hnil : (stripFile p fp).rest = []
  · rw [ConfFile.fgets, CString.fgets, if_pos hnil]
  have hne : fp.rest ≠ [] := by
    intro he
    rw [he] at hsub
    exact hnil (List.sublist_nil.mp hsub)
  obtain ⟨happ, hcases⟩ := line_cases (MAX_STR - 1) fp.rest
  simp only [ConfFile.fgets, CString.fgets, if_neg hne] at h
  split at h
  · next hlost =>
    obtain ⟨hbroken, hrest, hlast, hlen⟩ := hlost
    rw [hrest, List.append_nil] at happ
    rw [← happ] at hcases hlast hlen
    have hsize : MAX_STR - 1 + 1 = MAX_STR := rfl
    have hn : '\n' ∉ fp.rest := by
      rcases hcases with ⟨q, -, hline, -⟩ | ⟨hn, -⟩ | ⟨hn, -⟩
      · rw [hline] at hlast
        exact absurd (by simp) hlast
      · exact hn
      · exact hn
    have hn' : '\n' ∉ (stripFile p fp).rest := fun hm => hn (hsub.mem hm)
    have hlen' := hsub.length_le
    have hline := line_end hn' (k := MAX_STR - 1) (by omega)
    have hlast' : (stripFile p fp).rest.getLast? ≠ some '\n' := fun he =>
      hn' (List.mem_of_getLast? he)
    simp only [ConfFile.fgets, CString.fgets, if_neg hnil, hline]
    exact if_pos ⟨hbroken, trivial, hlast', by omega⟩
  · cases h

end Lines

end Spegla
