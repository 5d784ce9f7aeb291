import Spegla.Options.ConfigRows
import Spegla.Options.Quotes

/-!
# Config files as texts (`tgetopt.c`, `get_opt_file`)

- `textRows`: the rows of a text. `ConfFile.rows`: the ones that are read of a file.
- `rowTokens`: the tokens of a row without quotes.
- `rowsOf_text`: a file without quotes and without long rows is read as its rows.
- `tgetopts_rows`: what the calls give for such a file.
-/

namespace Spegla

open CString

/-! ## Texts -/

/-- The rows of a text; the last one may have no newline. -/
def textRows : Str → List Str
  | [] => []
  | c :: s =>
    if c = '\n' then [] :: textRows s
    else
      match textRows s with
      | [] => [[c]]
      | row :: rows => (c :: row) :: rows

/-- The rows that are read from the position on. A last row without newline is lost in a broken
file. -/
def ConfFile.rows (fp : ConfFile) : List Str :=
  if fp.broken ∧ fp.rest.getLast? ≠ some '\n' then (textRows fp.rest).dropLast else textRows fp.rest

/-- A token that ends here. -/
def flush (tok : Str) : List Str := if tok = [] then [] else [tok]

/-- The tokens of a row without quotes, up to its first NUL, with a token that has begun. -/
def tokensFrom (tok : Str) : Str → List Str
  | [] => flush tok
  | c :: s =>
    if c = nul then flush tok
    else if inSet white_space c then flush tok ++ tokensFrom [] s
    else if inSet delimiter c then flush tok ++ [c] :: tokensFrom [] s
    else tokensFrom (tok ++ [c]) s

/-- The tokens of a row without quotes: the delimiters, and what is between them and blanks. -/
def rowTokens (row : Str) : List Str := tokensFrom [] row

/-! ## Tokens of a row -/

section Tokens

variable {row s b x : Str} {c : Char} {toks : List Str}

/-- A plain character belongs to the token before it. -/
theorem tokensFrom_plain (hc : Plain c) (tok s : Str) :
    tokensFrom tok (c :: s) = tokensFrom (tok ++ [c]) s := by
  have hn : c ≠ nul := fun he => hc.1 (.inl he)
  have hw : ¬inSet white_space c := fun he => hc.1 (.inr (.inl he))
  have hd : ¬inSet delimiter c := fun he => hc.1 (.inr (.inr he))
  rw [tokensFrom, if_neg hn, if_neg hw, if_neg hd]

/-- A character that ends a token is looked at anew. -/
theorem tokensFrom_ends (hc : Ends c) (tok s : Str) :
    tokensFrom tok (c :: s) = flush tok ++ tokensFrom [] (c :: s) := by
  rw [tokensFrom, tokensFrom]
  split
  · exact (List.append_nil _).symm
  split
  · rfl
  split
  · rfl
  · next hn hw hd => exact absurd hc (not_or.mpr ⟨hn, not_or.mpr ⟨hw, hd⟩⟩)

/-- A token goes on to the first character that ends it. -/
theorem tokensFrom_token (hq : '"' ∉ s) {tok : Str} (htok : tok ≠ []) :
    tokensFrom tok s = (tok ++ s.takeWhile Plain) :: tokensFrom [] (s.dropWhile Plain) := by
  induction s generalizing tok with
  | nil => simp [tokensFrom, flush, htok]
  | cons c s ih =>
    obtain ⟨hc, hq⟩ := not_or.mp (mt List.mem_cons.mpr hq)
    rcases ends_or_plain c with he | rfl | hp
    · have hnp : ¬Plain c := fun hp => hp.1 he
      rw [tokensFrom_ends he, flush, if_neg htok]
      simp [hnp]
    · exact absurd rfl hc
    · have hne : tok ++ [c] ≠ [] := by simp
      rw [tokensFrom_plain hp, ih hq hne]
      simp [hp]

/-- What is behind a NUL is not read. -/
theorem tokensFrom_nul (tok p x : Str) : tokensFrom tok (p ++ nul :: x) = tokensFrom tok p := by
  induction p generalizing tok with
  | nil => exact if_pos rfl
  | cons c p ih =>
    rw [List.cons_append, tokensFrom, tokensFrom, ih, ih]

/-- White space in front of a token is skipped. -/
theorem tokenIn_white (hc : inSet white_space c) (b : Str) : tokenIn (c :: b) = tokenIn b := by
  rw [tokenIn, skipWhite, if_pos hc, tokenIn]

/-- So the tokens are those behind it. -/
theorem Toks.white (hc : inSet white_space c) (h : Toks b toks) : Toks (c :: b) toks := by
  cases h with
  | nil hb => exact .nil (by rw [tokenIn_white hc, hb])
  | cons hb ht => exact .cons (by rw [tokenIn_white hc, hb]) ht

/-- The tokens of a row in memory. -/
theorem toks_row (hq : '"' ∉ row) (hn : nul ∉ row) (x : Str) :
    Toks (row ++ nul :: x) (rowTokens row) := by
  induction hlen : row.length using Nat.strongRecOn generalizing row with
  | ind n ih =>
    cases row with
    | nil => exact .nil rfl
    | cons c s =>
      rw [List.length_cons] at hlen
      obtain ⟨hcq, hq⟩ := not_or.mp (mt List.mem_cons.mpr hq)
      obtain ⟨hcn, hn⟩ := not_or.mp (mt List.mem_cons.mpr hn)
      have hcn := Ne.symm hcn
      have hs := ih s.length (by omega) hq hn rfl
      rw [rowTokens] at hs ⊢
      by_cases hw : inSet white_space c
      · rw [tokensFrom, if_neg hcn, if_pos hw]
        exact Toks.white hw hs
      have hskip : skipWhite (c :: s ++ nul :: x) = some (c :: (s ++ nul :: x)) := if_neg hw
      by_cases hd : inSet delimiter c
      · rw [tokensFrom, if_neg hcn, if_neg hw, if_pos hd]
        refine .cons ?_ hs
        simp only [tokenIn, hskip, Option.bind_eq_bind, Option.bind_some, if_neg hcn, if_pos hd]
        rfl
      · have hp : Plain c := ⟨not_or.mpr ⟨hcn, not_or.mpr ⟨hw, hd⟩⟩, Ne.symm hcq⟩
        have hrest := List.dropWhile_suffix (l := s) Plain
        have hlt : (s.dropWhile Plain).length < n := by
          have := hrest.length_le
          omega
        have hnul : nul ∉ c :: s.takeWhile Plain := by
          intro hm
          rcases List.mem_cons.mp hm with he | hm
          · exact hcn he.symm
          · exact hn ((List.takeWhile_prefix _).mem hm)
        have hscan : scan (c :: (s ++ nul :: x)) =
            some (c :: s.takeWhile Plain, s.dropWhile Plain ++ nul :: x) := by
          rw [scan_plain hp, scan_unquoted hq (.inl rfl)]
          rfl
        have htoks := ih _ hlt (fun hm => hq (hrest.mem hm)) (fun hm => hn (hrest.mem hm)) rfl
        rw [tokensFrom_plain hp, List.nil_append, tokensFrom_token hq (List.cons_ne_nil c [])]
        refine .cons ?_ htoks
        simp only [tokenIn, hskip, Option.bind_eq_bind, Option.bind_some, if_neg hcn,
          if_neg hd, hscan,
          Option.map_some, cstr_eq_self hnul]
        rfl

end Tokens

/-! ## Rows of a text -/

section Rows

variable {row text : Str} {fp : ConfFile}

/-- The rows of a text, from its first newline on. -/
theorem textRows_newline (hrow : '\n' ∉ row) (text : Str) :
    textRows (row ++ '\n' :: text) = row :: textRows text := by
  induction row with
  | nil => exact if_pos rfl
  | cons c row ih =>
    obtain ⟨hc, hrow⟩ := not_or.mp (mt List.mem_cons.mpr hrow)
    rw [List.cons_append, textRows, if_neg (Ne.symm hc), ih hrow]

/-- The last row may have no newline. -/
theorem textRows_end (hrow : '\n' ∉ row) (hne : row ≠ []) : textRows row = [row] := by
  induction row with
  | nil => exact absurd rfl hne
  | cons c row ih =>
    obtain ⟨hc, hrow⟩ := not_or.mp (mt List.mem_cons.mpr hrow)
    rw [textRows, if_neg (Ne.symm hc)]
    cases row with
    | nil => rfl
    | cons d row => rw [ih hrow (List.cons_ne_nil d row)]

/-- A text is empty, or it has a first row. -/
theorem text_cases (text : Str) : text = [] ∨ (text ≠ [] ∧ '\n' ∉ text) ∨
    ∃ row text', '\n' ∉ row ∧ text = row ++ '\n' :: text' := by
  induction text with
  | nil => exact .inl rfl
  | cons c text ih =>
    by_cases hc : c = '\n'
    · exact .inr (.inr ⟨[], text, List.not_mem_nil, by rw [hc, List.nil_append]⟩)
    · rcases ih with rfl | ⟨-, hn⟩ | ⟨row, text', hrow, rfl⟩
      · exact .inr (.inl ⟨List.cons_ne_nil c [], by simpa using Ne.symm hc⟩)
      · refine .inr (.inl ⟨List.cons_ne_nil c text, ?_⟩)
        exact fun hm => (List.mem_cons.mp hm).elim (fun he => hc he.symm) hn
      · refine .inr (.inr ⟨c :: row, text', ?_, rfl⟩)
        exact fun hm => (List.mem_cons.mp hm).elim (fun he => hc he.symm) hrow

/-- A string without newline at its end is left as it is. -/
theorem chomp_eq {m : Str} (h : '\n' ∉ cstr m) : chomp m = m := by
  rw [chomp, if_neg]
  intro he
  exact h (List.mem_of_getLast? he)

/-- A text with a NUL is its string, and what lies behind that. -/
theorem mem_cstr {m : Str} (h : nul ∈ m) : ∃ x, m = cstr m ++ nul :: x := by
  obtain ⟨t, hm, hn, rfl | ⟨x, rfl⟩⟩ := cstr_eq (rfl : cstr m = cstr m)
  · rw [List.append_nil] at hm
    rw [hm] at h
    exact absurd h hn
  · exact ⟨x, hm⟩

/-- A row has no newline, so its string has none. -/
theorem newline_notMem_cstr (hrow : '\n' ∉ row) : '\n' ∉ cstr row :=
  fun hm => hrow ((List.takeWhile_prefix _).mem hm)

/-- A row lies in the buffer up to its first NUL. -/
theorem rowMem_row (hrow : '\n' ∉ row) {line : Str} (hline : line = row ++ ['\n'] ∨ line = row) :
    ∃ x, rowMem line = cstr row ++ nul :: x := by
  have hmem : nul ∈ line ++ [nul] := by simp
  by_cases hkeep : cstr (line ++ [nul]) = cstr row
  · obtain ⟨x, hx⟩ := mem_cstr hmem
    refine ⟨x, ?_⟩
    rw [rowMem, chomp_eq (by rw [hkeep]; exact newline_notMem_cstr hrow), hx, hkeep]
  · -- then there is no NUL in the row
    have hn : nul ∉ row := by
      intro hn
      rcases hline with rfl | rfl
      · exact hkeep (by rw [List.append_assoc, cstr_mem_append hn])
      · exact hkeep (cstr_mem_append hn _)
    rcases hline with rfl | rfl
    · have hn' : nul ∉ row ++ ['\n'] := by simpa [hn] using (by decide : nul ≠ '\n')
      have hcstr : cstr (row ++ ['\n'] ++ [nul]) = row ++ ['\n'] := cstr_append hn'
      refine ⟨[nul], ?_⟩
      rw [rowMem, chomp, hcstr, if_pos (by simp), cstr_eq_self hn]
      simp
    · exact absurd ((cstr_append hn).trans (cstr_eq_self hn).symm) hkeep

/-- A text that is not empty has a row. -/
theorem textRows_ne_nil (hne : text ≠ []) : textRows text ≠ [] := by
  rcases text_cases text with rfl | ⟨-, hn⟩ | ⟨row, text', hrow, rfl⟩
  · exact absurd rfl hne
  · rw [textRows_end hn hne]
    exact List.cons_ne_nil _ _
  · rw [textRows_newline hrow]
    exact List.cons_ne_nil _ _

/-- The rows of a file, from its first newline on. -/
theorem rows_newline (hrow : '\n' ∉ row) (htext : fp.rest = row ++ '\n' :: text) :
    fp.rows = row :: ({ fp with rest := text } : ConfFile).rows := by
  rw [ConfFile.rows, ConfFile.rows, htext, textRows_newline hrow]
  cases text with
  | nil => simp [textRows]
  | cons c text =>
    have hlast : (row ++ '\n' :: c :: text).getLast? = (c :: text).getLast? := by
      rw [List.getLast?_append_cons, List.getLast?_cons_cons]
    rw [hlast]
    split
    · exact List.dropLast_cons_of_ne_nil (textRows_ne_nil (List.cons_ne_nil c text))
    · rfl

/-- The tokens of a row that has been read. -/
theorem toks_rowMem (hq : '"' ∉ row) (hrow : '\n' ∉ row) {line : Str}
    (hline : line = row ++ ['\n'] ∨ line = row) : Toks (rowMem line) (rowTokens row) := by
  obtain ⟨x, hx⟩ := rowMem_row hrow hline
  have hqc : '"' ∉ cstr row := fun hm => hq ((List.takeWhile_prefix _).mem hm)
  have htoks := toks_row hqc (nul_notMem_cstr row) x
  have hsame : rowTokens (cstr row) = rowTokens row := by
    by_cases hn : nul ∈ row
    · obtain ⟨y, hy⟩ := mem_cstr hn
      conv_rhs => rw [hy]
      exact (tokensFrom_nul [] _ y).symm
    · rw [cstr_eq_self hn]
  rw [hx, ← hsame]
  exact htoks

/-- A file without quotes, and without rows that do not fit in the buffer, is read as its rows. -/
theorem rowsOf_text (fp : ConfFile) (hq : '"' ∉ fp.rest)
    (hl : ∀ row ∈ textRows fp.rest, row.length < MAX_STR - 1) :
    RowsOf fp (fp.rows.map rowTokens) := by
  induction hn : fp.rest.length using Nat.strongRecOn generalizing fp with
  | ind n ih =>
    rcases text_cases fp.rest with hnil | ⟨hne, hrow⟩ | ⟨row, text, hrow, htext⟩
    · have hrows : fp.rows = [] := by
        rw [ConfFile.rows, hnil, textRows]
        exact ite_self _
      rw [hrows]
      refine .nil ?_
      rw [ConfFile.fgets, CString.fgets, if_pos hnil]
    · have hrows := textRows_end hrow hne
      have hlen := hl fp.rest (by rw [hrows]; exact List.mem_singleton_self _)
      have hlast : fp.rest.getLast? ≠ some '\n' := fun he => hrow (List.mem_of_getLast? he)
      cases hb : fp.broken with
      | true =>
        have hlost : fp.rows = [] := by
          rw [ConfFile.rows, if_pos ⟨hb, hlast⟩, hrows]
          rfl
        have hline : CString.fgets MAX_STR fp.rest = some (fp.rest, []) := by
          rw [CString.fgets, if_neg hne, line_end hrow (Nat.le_of_lt hlen)]
        have hshort : fp.rest.length + 1 < MAX_STR := by omega
        rw [hlost]
        refine .nil ?_
        simp only [ConfFile.fgets, hline, hb, true_and]
        exact if_pos ⟨hlast, hshort⟩
      | false =>
        have hone : fp.rows = [fp.rest] := by
          rw [ConfFile.rows, hb, if_neg (by simp), hrows]
        have hend : ({ fp with rest := [] } : ConfFile).fgets MAX_STR = none := rfl
        rw [hone]
        exact .cons (fgets_end hrow (Nat.le_of_lt hlen) hne hb rfl) (toks_rowMem hq hrow (.inr rfl))
          (.nil hend)
    · rw [rows_newline hrow htext, List.map_cons]
      rw [htext] at hq
      rw [htext, textRows_newline hrow] at hl
      have hlen := hl row List.mem_cons_self
      have hrowq : '"' ∉ row := fun hm => hq (List.mem_append_left _ hm)
      have hrest : ({ fp with rest := text } : ConfFile).rest = text := rfl
      refine .cons (fgets_newline hrow hlen htext) (toks_rowMem hrowq hrow (.inl rfl))
        (ih text.length ?_ { fp with rest := text } ?_ ?_ rfl)
      · rw [← hn, htext, List.length_append, List.length_cons]
        omega
      · exact fun hm => hq (List.mem_append_right _ (List.mem_cons_of_mem _ hm))
      · exact fun r hr => hl r (List.mem_cons_of_mem _ hr)

end Rows

/-! ## Calls on a file -/

/-- The state at the beginning. -/
theorem follows_init {fp : ConfFile} {rows : List (List Str)} (h : RowsOf fp rows)
    (path : Option Str) (go : List GetOpt) :
    FollowsRows (tgetoptFileInit fp path go)
      (untilError (fileResults go (path.getD []) fp.ending (path.getD [] = []) rows)) := by
  have hgives := fileGives_rows h go (path.getD []) (path.getD [] = []) (List.replicate MAX_STR nul)
  exact .between ⟨rfl, rfl, fun _ => hgives⟩ (Int.negSucc_lt_zero 0)

/-- What the calls give for a file, up to the first error. -/
def confResults (go : List GetOpt) (path : Str) (fp : ConfFile) : List OptResult :=
  untilError (fileResults go path fp.ending (path = []) (fp.rows.map rowTokens))

/-- A row without section identifier gives the same as a file of its own, without path. -/
theorem tgetopts_row {row : Str} (hq : '"' ∉ row) (hrow : '\n' ∉ row)
    (hl : row.length < MAX_STR - 1) (hh : ∀ tok ∈ (rowTokens row).head?, ¬IsHeader tok)
    (go : List GetOpt) :
    tgetoptResults (untilError (rowResults go (rowTokens row) ++ [(.failed, .endOfOptions)])).length
        (tgetoptFileInit ⟨row, row, false⟩ none go) =
      some (untilError (rowResults go (rowTokens row) ++ [(.failed, .endOfOptions)])) := by
  have hrows : RowsOf ⟨row, row, false⟩ ((textRows row).map rowTokens) := by
    refine rowsOf_text ⟨row, row, false⟩ hq ?_
    cases row with
    | nil => simp [textRows]
    | cons c row =>
      rw [textRows_end hrow (List.cons_ne_nil c row)]
      simpa using hl
  have hfollows := tgetopts_gives (follows_init hrows none go)
  have hresults : fileResults go [] .endOfOptions true ((textRows row).map rowTokens) =
      rowResults go (rowTokens row) ++ [(.failed, .endOfOptions)] := by
    cases row with
    | nil => rfl
    | cons c row =>
      rw [textRows_end hrow (List.cons_ne_nil c row), List.map_singleton]
      cases htoks : rowTokens (c :: row) with
      | nil => rfl
      | cons tok toks =>
        rw [htoks] at hh
        rw [fileResults, if_neg (hh tok rfl)]
        rfl
  rw [← hresults]
  exact hfollows

/-- `host = a`, then a section with `port = 1`, and one with `version`. -/
def confText : Str :=
  ['h', 'o', 's', 't', ' ', '=', ' ', 'a', '\n', '[', 'b', ']', '\n',
    'p', 'o', 'r', 't', '=', '1', '\n', '[', 'c', ']', ' ', 'v', 'e', 'r', 's', 'i', 'o', 'n']

example : confResults goTable ['b'] ⟨confText, confText, false⟩ =
    [({ ret := 0, option := some 16, arg := some (some ['1']) }, .ok),
      (.failed, .endOfOptions)] := by
  decide

end Spegla
