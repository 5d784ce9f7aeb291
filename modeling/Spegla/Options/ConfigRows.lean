import Spegla.Options.RowRuns

/-!
# Config files as tokens (`tgetopt.c`, `get_opt_file`)

Each row is taken on its own, as its tokens.

- `Toks`: the tokens from a pointer on. `RowsOf`: those of the rows of a file.
- `optionResults`, `argResults`, `rowResults`, `fileResults`: what a row and a file give.
- `fileGives_rows`: a file that is read as its rows gives these results, up to the first error.
-/

namespace Spegla

open CString

/-! ## Tokens -/

/-- The tokens from a pointer on. -/
inductive Toks : Str → List Str → Prop where
  | nil {b} : tokenIn b = some none → Toks b []
  | cons {b tok rest toks} : tokenIn b = some (some (tok, rest)) → Toks rest toks →
      Toks b (tok :: toks)

/-- The tokens of the rows of a file, from the position on. -/
inductive RowsOf : ConfFile → List (List Str) → Prop where
  | nil {fp} : fp.fgets MAX_STR = none → RowsOf fp []
  | cons {fp line fp' toks rows} : fp.fgets MAX_STR = some (line, fp') → Toks (rowMem line) toks →
      RowsOf fp' rows → RowsOf fp (toks :: rows)

/-! ## What a file gives -/

/-- The arguments in the rest of a row. -/
def argResults (g : GetOpt) (i : Nat) : List Str → List OptResult
  | [] => []
  | tok :: toks => if rowEnds (some tok) then [] else argResult g i tok :: argResults g i toks

/-- The rest of a row behind the delimiter. -/
def valueResults (g : GetOpt) (i : Nat) : List Str → List OptResult
  | [] => [noArgResult g i]
  | tok :: toks =>
    -- after an option without an argument, the text of a comment is read on
    (if rowEnds (some tok) then noArgResult g i else argResult g i tok) :: argResults g i toks

/-- The rest of a row behind the name of an option. -/
def optionResults (g : GetOpt) (i : Nat) : List Str → List OptResult
  | [] => [noArgResult g i]
  | tok :: toks =>
    if rowEnds (some tok) then noArgResult g i :: argResults g i toks
    else if ¬inSet delimeter (tok.headD nul) then
      [noDelimResult i]
    else valueResults g i toks

/-- A row, or the rest of a row behind a section identifier. -/
def rowResults (go : List GetOpt) : List Str → List OptResult
  | [] => []
  | name :: toks =>
    if rowEnds (some name) then []
    else
      match go.findIdx? (·.goName = name) with
      | none => [unknownResult name]
      | some i => (go[i]?.map fun g => optionResults g i toks).getD []

/-- A file, row by row. -/
def fileResults (go : List GetOpt) (path : Str) (ending : GosErrno) :
    Bool → List (List Str) → List OptResult
  | _, [] => [(.failed, ending)]
  | inSect, [] :: rows => fileResults go path ending inSect rows
  | inSect, (tok :: toks) :: rows =>
    if IsHeader tok then
      if tok.getLast? ≠ some ']' then [(.failed, .syntaxEs)]
      else if tok = header path then rowResults go toks ++ fileResults go path ending true rows
      else fileResults go path ending false rows
    else if inSect then rowResults go (tok :: toks) ++ fileResults go path ending true rows
    else fileResults go path ending false rows

/-- The results up to the first error. -/
def untilError : List OptResult → List OptResult
  | [] => []
  | r :: rs => if r.2 = .ok then r :: untilError rs else [r]

/-! ## Reading the rows -/

variable {b m : Str} {toks : List Str} {go : List GetOpt} {g : GetOpt} {i : Nat}

/-- What is behind the memory of the tokens does not matter. -/
theorem Toks.append (h : Toks m toks) (x : Str) : Toks (m ++ x) toks := by
  induction h with
  | nil hb => exact .nil (tokenIn_append hb x)
  | cons hb _ ih => exact .cons (tokenIn_append hb x) ih

/-- A result without error is followed by the rest. -/
theorem untilError_ok {r : OptResult} (h : r.2 = .ok) (rs : List OptResult) :
    untilError (r :: rs) = r :: untilError rs := if_pos h

/-- A result with an error is the last. -/
theorem untilError_error {r : OptResult} (h : r.2 ≠ .ok) (rs : List OptResult) :
    untilError (r :: rs) = [r] := if_neg h

/-- A result on its own is all there is. -/
theorem untilError_single (r : OptResult) : untilError [r] = [r] := by
  by_cases h : r.2 = .ok
  · exact untilError_ok h []
  · exact untilError_error h []

/-- An option that takes a value gets it. -/
theorem argResult_ok (hw : g.goWantArg ≠ .noArg) (i : Nat) (tok : Str) :
    (argResult g i tok).2 = .ok := by
  rw [argResult, if_neg hw]

/-- An option that takes none fails with a value. -/
theorem argResult_error (hw : g.goWantArg = .noArg) (i : Nat) (tok : Str) :
    (argResult g i tok).2 ≠ .ok := by
  rw [argResult, if_pos hw]
  intro h
  cases h

/-- Without a value an option that needs none is fine. -/
theorem noArgResult_ok (hw : g.goWantArg ≠ .reqArg) (i : Nat) : (noArgResult g i).2 = .ok := by
  rw [noArgResult, if_pos hw]

/-- Without a value an option that needs one fails. -/
theorem noArgResult_error (hw : g.goWantArg = .reqArg) (i : Nat) : (noArgResult g i).2 ≠ .ok := by
  rw [noArgResult, if_neg (not_not_intro hw)]
  intro h
  cases h

/-- A missing delimiter is an error. -/
theorem noDelimResult_error (i : Nat) : (noDelimResult i).2 ≠ .ok := by
  intro h
  cases h

/-- So is an unknown name. -/
theorem unknownResult_error (tok : Str) : (unknownResult tok).2 ≠ .ok := by
  intro h
  cases h

/-- What is read gives the first results, and it stops where they have an error. -/
def Matches (gives : List OptResult → Bool → Prop) (results : List OptResult) : Prop :=
  ∃ rs stops, gives rs stops ∧
    ∀ behind, untilError (results ++ behind) = upTo stops rs (untilError behind)

/-- What the tokens behind an option give. -/
theorem argsGive_toks (h : Toks b toks) (g : GetOpt) (i : Nat) :
    Matches (ArgsGive g i b) (argResults g i toks) := by
  induction h with
  | nil hb => exact ⟨[], false, .ended hb, fun _ => rfl⟩
  | @cons b tok rest toks hb _ ih =>
    rw [argResults]
    by_cases hends : rowEnds (some tok)
    · rw [if_pos hends]
      exact ⟨[], false, .comment hb hends, fun _ => rfl⟩
    rw [if_neg hends]
    by_cases hw : g.goWantArg = .noArg
    · exact ⟨_, true, .noArg hb hends hw, fun _ => untilError_error (argResult_error hw i tok) _⟩
    · obtain ⟨rs, stops, hgives, hres⟩ := ih
      refine ⟨_, stops, .arg hb hends hw hgives, fun behind => ?_⟩
      rw [List.cons_append, untilError_ok (argResult_ok hw i tok), hres, upTo_cons]

/-- The row ends. -/
theorem bareGives_end (hb : tokenIn b = some none) (g : GetOpt) (i : Nat) :
    Matches (BareGives g i True b) [noArgResult g i] := by
  by_cases hw : g.goWantArg = .reqArg
  · exact ⟨_, true, .required hb rfl hw, fun _ => untilError_error (noArgResult_error hw i) _⟩
  · exact ⟨_, false, .ended hb hw trivial, fun _ => untilError_ok (noArgResult_ok hw i) _⟩

/-- A comment begins. -/
theorem bareGives_comment {tok rest : Str} (hb : tokenIn b = some (some (tok, rest)))
    (hends : rowEnds (some tok)) (ht : Toks rest toks) (g : GetOpt) (i : Nat) :
    Matches (BareGives g i True b) (noArgResult g i :: argResults g i toks) := by
  by_cases hw : g.goWantArg = .reqArg
  · exact ⟨_, true, .required hb hends hw, fun _ => untilError_error (noArgResult_error hw i) _⟩
  · obtain ⟨rs, stops, hgives, hres⟩ := argsGive_toks ht g i
    refine ⟨_, stops, .comment hb hends hw hgives, fun behind => ?_⟩
    rw [List.cons_append, untilError_ok (noArgResult_ok hw i), hres, upTo_cons]

/-- What the tokens behind the name of an option give, with the delimiter. -/
theorem optGives_toks (h : Toks b toks) (g : GetOpt) (i : Nat) :
    Matches (OptGives g i True b) (optionResults g i toks) := by
  cases h with
  | nil hb =>
    obtain ⟨rs, stops, hgives, hres⟩ := bareGives_end hb g i
    exact ⟨rs, stops, .bare hgives, hres⟩
  | @cons _ tok rest toks hb ht =>
    rw [optionResults]
    by_cases hends : rowEnds (some tok)
    · obtain ⟨rs, stops, hgives, hres⟩ := bareGives_comment hb hends ht g i
      rw [if_pos hends]
      exact ⟨rs, stops, .bare hgives, hres⟩
    rw [if_neg hends]
    by_cases hdelim : ¬inSet delimeter (tok.headD nul)
    · rw [if_pos hdelim]
      exact ⟨_, true, .noDelim hb hends hdelim, fun _ => untilError_error (noDelimResult_error i) _⟩
    have hdelim' := not_not.mp hdelim
    rw [if_neg hdelim]
    cases ht with
    | nil hb' =>
      obtain ⟨rs, stops, hgives, hres⟩ := bareGives_end hb' g i
      exact ⟨rs, stops, .bareDelim hb hends hdelim' hgives, hres⟩
    | @cons _ tok' rest' toks hb' ht' =>
      rw [valueResults]
      by_cases hends' : rowEnds (some tok')
      · obtain ⟨rs, stops, hgives, hres⟩ := bareGives_comment hb' hends' ht' g i
        rw [if_pos hends']
        exact ⟨rs, stops, .bareDelim hb hends hdelim' hgives, hres⟩
      · obtain ⟨rs, stops, hgives, hres⟩ := argsGive_toks (.cons hb' ht') g i
        rw [argResults, if_neg hends'] at hres
        rw [if_neg hends']
        exact ⟨rs, stops, .value hb hends hdelim' hb' hends' hgives, hres⟩

/-- A row, or the rest of a row behind a section identifier. -/
theorem nameGives_toks (h : Toks b toks) (go : List GetOpt) (inSect : Bool) :
    Matches (NameGives go True inSect b) (if inSect then rowResults go toks else []) := by
  cases h with
  | nil hb =>
    refine ⟨[], false, .ended hb, fun behind => ?_⟩
    rw [show rowResults go [] = [] from rfl, ite_self]
    rfl
  | @cons _ tok rest toks hb ht =>
    cases inSect with
    | false => exact ⟨[], false, .skipped hb (.inr rfl), fun _ => rfl⟩
    | true =>
      rw [if_pos rfl, rowResults]
      by_cases hends : rowEnds (some tok)
      · rw [if_pos hends]
        exact ⟨[], false, .skipped hb (.inl hends), fun _ => rfl⟩
      rw [if_neg hends]
      cases hfind : go.findIdx? (·.goName = tok) with
      | none =>
        exact ⟨_, true, .unknown hb hends hfind, fun _ =>
          untilError_error (unknownResult_error tok) _⟩
      | some i =>
        obtain ⟨g, hg⟩ := findIdx_entry hfind
        obtain ⟨rs, stops, hgives, hres⟩ := optGives_toks ht g i
        simp only [hg, Option.map_some, Option.getD_some]
        exact ⟨rs, stops, .named hb hends hfind hg hgives, hres⟩

/-- A row, and the rows behind it. -/
theorem rowGives_toks (h : Toks m toks) (go : List GetOpt) (path : Str) (ending : GosErrno)
    (inSect : Bool) :
    ∃ rs stops inSect', RowGives go path True inSect m rs stops inSect' ∧
      ∀ rows, untilError (fileResults go path ending inSect (toks :: rows)) =
        upTo stops rs (untilError (fileResults go path ending inSect' rows)) := by
  cases h with
  | nil hb =>
    have hplain : ∀ tok rest, tokenIn m = some (some (tok, rest)) → ¬IsHeader tok := by
      intro tok rest htok
      rw [hb] at htok
      cases htok
    exact ⟨[], false, inSect, .plain hplain (.ended hb), fun _ => rfl⟩
  | @cons _ tok rest toks hb ht =>
    simp only [fileResults]
    by_cases hh : IsHeader tok
    · by_cases hl : tok.getLast? ≠ some ']'
      · refine ⟨_, true, inSect, .malformed hb hh hl, fun rows => ?_⟩
        rw [if_pos hh, if_pos hl]
        rfl
      obtain ⟨rs, stops, hgives, hres⟩ := nameGives_toks ht go (tok = header path)
      refine ⟨rs, stops, _, .header hb hh (not_not.mp hl) hgives, fun rows => ?_⟩
      rw [if_pos hh, if_neg hl, ← hres]
      by_cases hpath : tok = header path
      · simp [hpath]
      · simp [hpath]
    · have hplain : ∀ tok' rest', tokenIn m = some (some (tok', rest')) → ¬IsHeader tok' := by
        intro tok' rest' htok
        rw [hb] at htok
        cases htok
        exact hh
      obtain ⟨rs, stops, hgives, hres⟩ := nameGives_toks (.cons hb ht) go inSect
      refine ⟨rs, stops, inSect, .plain hplain hgives, fun rows => ?_⟩
      rw [if_neg hh, ← hres]
      cases inSect <;> rfl

/-- A file. What is left of older rows in the buffer does not matter. -/
theorem fileGives_rows {fp : ConfFile} {rows : List (List Str)} (h : RowsOf fp rows)
    (go : List GetOpt) (path : Str) (inSect : Bool) (buf : Str) :
    FileGives go path inSect buf fp (untilError (fileResults go path fp.ending inSect rows)) := by
  induction h generalizing inSect buf with
  | @nil fp hend =>
    have hres : untilError (fileResults go path fp.ending inSect []) = [(.failed, fp.ending)] := by
      rw [fileResults]
      exact untilError_single _
    rw [hres]
    exact .ended hend
  | @cons fp line fp' toks rows hline ht _ ih =>
    have hmem := ht.append (buf.drop (line.length + 1))
    rw [← chomp_overlay] at hmem
    obtain ⟨rs, stops, inSect', hgives, hres⟩ := rowGives_toks hmem go path fp.ending inSect
    rw [hres]
    have hending : fp'.ending = fp.ending := by
      rw [ConfFile.ending, ConfFile.ending, (fgets_some hline).1]
    exact .row hline hgives fun _ => hending ▸ ih inSect' _

end Spegla
