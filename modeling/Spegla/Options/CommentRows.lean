import Spegla.Options.Comments
import Spegla.Options.ConfigFile
import Spegla.Options.FileCalls

/-!
# Rows that are read without their comments (`tgetopt.c`, `get_opt_file`)

- `Covers`: a row that ends at its comment, in the memory of a row that goes on there.
- `Harmless`: the comments of a file are not read, as far as its rows are read.
- `tgetopts_stripComments`: then the calls give the same without them.
- `tgetopts_reads_comment`: behind an option without an argument, a comment is read.
-/

namespace Spegla

open CString

/-! ## Rows that end at their comment -/

/-- The memory of a row that ends at its comment, and a memory that goes on there. In a quiet one,
no word follows behind the character that begins the comment. -/
inductive Covers (quiet : Prop) : Str → Str → Prop where
  | more (b x : Str) : Covers quiet b (b ++ x)
  | comment {p : Str} {c : Char} {y : Str} : nul ∉ p → inSet comment c →
      (quiet → ∃ next, tokenIn y = some next ∧ rowEnds (next.map Prod.fst)) →
      Covers quiet (p ++ [nul]) (p ++ c :: y)

section Tokens

variable {p b b' y : Str} {c : Char} {quiet : Prop}

/-- The end of a quoted string does not depend on what is behind the row. -/
theorem copyLoop_upTo {t r : Str} (hp : nul ∉ p) (h : copyLoop (p ++ [nul]) = some (t, r)) :
    r = [nul] ∨ ∃ q, nul ∉ q ∧ r = '"' :: (q ++ [nul]) ∧
      ∀ x, copyLoop (p ++ x) = some (t, '"' :: (q ++ x)) := by
  induction hn : p.length using Nat.strongRecOn generalizing p t r with
  | ind n ih =>
    cases p with
    | nil =>
      cases h
      exact .inl rfl
    | cons d p =>
      obtain ⟨hd, hp'⟩ := not_or.mp (mt List.mem_cons.mpr hp)
      rw [List.length_cons] at hn
      by_cases hq : d = '"'
      · rw [List.cons_append, copyLoop_end (.inr hq)] at h
        cases h
        cases hq
        exact .inr ⟨p, hp', rfl, fun x => copyLoop_end (.inr rfl) _⟩
      have hstay : ¬(d = nul ∨ d = '"') := not_or.mpr ⟨Ne.symm hd, hq⟩
      by_cases he : d = '\\'
      · subst he
        cases p with
        | nil => cases h
        | cons e p =>
          have hp₂ := (not_or.mp (mt List.mem_cons.mpr hp')).2
          rw [List.length_cons] at hn
          rw [List.cons_append, List.cons_append, copyLoop_escape] at h
          obtain ⟨r', hr, he⟩ := Option.map_eq_some_iff.mp h
          cases he
          rcases ih p.length (by omega) hp₂ hr rfl with hend | ⟨q, hq, hr', hall⟩
          · exact .inl hend
          · refine .inr ⟨q, hq, hr', fun x => ?_⟩
            rw [List.cons_append, List.cons_append, copyLoop_escape, hall]
            rfl
      · rw [List.cons_append, copyLoop_char hstay he] at h
        obtain ⟨r', hr, he'⟩ := Option.map_eq_some_iff.mp h
        cases he'
        rcases ih p.length (by omega) hp' hr rfl with hend | ⟨q, hq, hr', hall⟩
        · exact .inl hend
        · refine .inr ⟨q, hq, hr', fun x => ?_⟩
          rw [List.cons_append, copyLoop_char hstay he, hall]
          rfl

/-- Nor does the end of a token, if a character that ends it is there. -/
theorem scan_upTo {t r : Str} (hp : nul ∉ p) (h : scan (p ++ [nul]) = some (t, r)) :
    ∃ q, nul ∉ q ∧ r = q ++ [nul] ∧ ∀ c y, Ends c → scan (p ++ c :: y) = some (t, q ++ c :: y) := by
  induction hn : p.length using Nat.strongRecOn generalizing p t r with
  | ind n ih =>
    cases p with
    | nil =>
      cases h
      exact ⟨[], hp, rfl, fun c y hc => scan_ends hc y⟩
    | cons d p =>
      have hp' := (not_or.mp (mt List.mem_cons.mpr hp)).2
      rw [List.length_cons] at hn
      rcases ends_or_plain d with hd | rfl | hd
      · rw [List.cons_append, scan_ends hd] at h
        cases h
        exact ⟨d :: p, hp, rfl, fun c y _ => scan_ends hd _⟩
      · rw [List.cons_append, scan_quote] at h
        obtain ⟨r', hr, h⟩ := Option.bind_eq_some_iff.mp h
        obtain ⟨r'', hr', he⟩ := Option.map_eq_some_iff.mp h
        cases he
        rw [copyOutString, if_neg (not_not_intro rfl)] at hr
        obtain ⟨⟨t', r₃⟩, hcopy, he⟩ := Option.map_eq_some_iff.mp hr
        cases he
        rcases copyLoop_upTo hp' hcopy with hend | ⟨q, hq, hr'', hall⟩
        · -- behind the NUL there is nothing left to read
          rw [hend] at hr'
          cases hr'
        · subst hr''
          cases q with
          | nil => cases hr'
          | cons d q =>
            -- the character behind the quotes is skipped
            have hq' := (not_or.mp (mt List.mem_cons.mpr hq)).2
            have hlen : q.length < n := by
              have hsuffix := (copyLoop_suffix (hall [])).length_le
              simp only [List.append_nil, List.length_cons] at hsuffix
              omega
            obtain ⟨q', hnul, hr'', hrest⟩ := ih q.length hlen hq' hr' rfl
            refine ⟨q', hnul, hr'', fun c y hc => ?_⟩
            have hquote : ( '"' : Char) ≠ nul := by decide
            have hskip : skipQuote ('"' :: d :: (q ++ c :: y)) = d :: (q ++ c :: y) := by
              rw [skipQuote, if_neg hquote]
            rw [List.cons_append, scan_quote, copyOutString, if_neg (not_not_intro rfl), hall,
              Option.map_some, Option.bind_some, List.cons_append, hskip, List.tail_cons,
              hrest c y hc]
            rfl
      · rw [List.cons_append, scan_plain hd] at h
        obtain ⟨r', hr, he⟩ := Option.map_eq_some_iff.mp h
        cases he
        obtain ⟨q, hnul, hr', hrest⟩ := ih p.length (by omega) hp' hr rfl
        refine ⟨q, hnul, hr', fun c y hc => ?_⟩
        rw [List.cons_append, scan_plain hd, hrest c y hc]
        rfl

/-- What white space is skipped does not depend on what is behind the next character. -/
theorem skipWhite_upTo {b : Str} (hp : nul ∉ p) (h : skipWhite (p ++ [nul]) = some b) :
    ∃ q, nul ∉ q ∧ b = q ++ [nul] ∧
      ∀ c y, ¬inSet white_space c → skipWhite (p ++ c :: y) = some (q ++ c :: y) := by
  induction p with
  | nil =>
    cases h
    exact ⟨[], hp, rfl, fun c y hc => if_neg hc⟩
  | cons d p ih =>
    rw [List.cons_append, skipWhite] at h
    split at h
    · next hd =>
      obtain ⟨q, hq, hb, hall⟩ := ih (not_or.mp (mt List.mem_cons.mpr hp)).2 h
      refine ⟨q, hq, hb, fun c y hc => ?_⟩
      rw [List.cons_append, skipWhite, if_pos hd, hall c y hc]
    · next hd =>
      cases h
      refine ⟨d :: p, hp, rfl, fun c y _ => ?_⟩
      rw [List.cons_append, skipWhite, if_neg hd]

/-- The character that begins a comment is a delimiter, and no white space. -/
theorem comment_char (hc : inSet comment c) :
    inSet delimiter c ∧ ¬inSet white_space c ∧ c ≠ nul := by
  have hmem : c = '#' ∨ c = '!' := by simpa [inSet, comment] using hc
  rcases hmem with rfl | rfl <;> decide

/-- What lies behind a NUL is covered by it. -/
theorem covers_nul (b x : Str) : Covers quiet (b ++ [nul]) (b ++ nul :: x) := by
  have hmore : Covers quiet (b ++ [nul]) (b ++ [nul] ++ x) := .more _ x
  rw [List.append_assoc] at hmore
  exact hmore

/-- No token up to the comment. -/
theorem Covers.ended (h : Covers quiet b b') (hb : tokenIn b = some none) :
    tokenIn b' = some none ∨
      ∃ tok y, tokenIn b' = some (some (tok, y)) ∧ rowEnds (some tok) ∧
        (quiet → ∃ next, tokenIn y = some next ∧ rowEnds (next.map Prod.fst)) := by
  cases h with
  | more _ x => exact .inl (tokenIn_append hb x)
  | @comment p c y hp hc hquiet =>
    obtain ⟨hd, hw, hn⟩ := comment_char hc
    obtain ⟨b₁, hskip, htok⟩ := Option.bind_eq_some_iff.mp hb
    obtain ⟨q, hq, rfl, hall⟩ := skipWhite_upTo hp hskip
    cases q with
    | nil =>
      refine .inr ⟨[c], y, ?_, hc, hquiet⟩
      simp only [tokenIn, hall c y hw, Option.bind_eq_bind, Option.bind_some, List.nil_append,
        if_neg hn, if_pos hd]
      rfl
    | cons d q =>
      have hdn : d ≠ nul := fun he => hq (he ▸ List.mem_cons_self)
      simp only [List.cons_append, if_neg hdn] at htok
      split at htok
      · cases htok
      · obtain ⟨r, -, he⟩ := Option.map_eq_some_iff.mp htok
        cases he

/-- The same token. -/
theorem Covers.token {tok rest : Str} (h : Covers quiet b b')
    (hb : tokenIn b = some (some (tok, rest))) :
    ∃ rest', tokenIn b' = some (some (tok, rest')) ∧ Covers quiet rest rest' := by
  cases h with
  | more _ x => exact ⟨rest ++ x, tokenIn_append hb x, .more rest x⟩
  | @comment p c y hp hc hquiet =>
    obtain ⟨hd, hw, hn⟩ := comment_char hc
    obtain ⟨b₁, hskip, htok⟩ := Option.bind_eq_some_iff.mp hb
    obtain ⟨q, hq, rfl, hall⟩ := skipWhite_upTo hp hskip
    cases q with
    | nil => cases htok
    | cons d q =>
      obtain ⟨hdn, hq'⟩ := not_or.mp (mt List.mem_cons.mpr hq)
      have hdn := Ne.symm hdn
      simp only [List.cons_append, if_neg hdn] at htok
      split at htok
      · next hdelim =>
        cases htok
        refine ⟨q ++ c :: y, ?_, .comment hq' hc hquiet⟩
        simp only [tokenIn, hall c y hw, Option.bind_eq_bind, Option.bind_some, List.cons_append,
          if_neg hdn, if_pos hdelim]
        rfl
      · next hdelim =>
        obtain ⟨⟨t, r⟩, hscan, he⟩ := Option.map_eq_some_iff.mp htok
        cases he
        obtain ⟨q', hq', rfl, hall'⟩ := scan_upTo hq hscan
        have hends := hall' c y (.inr (.inr hd))
        refine ⟨q' ++ c :: y, ?_, .comment hq' hc hquiet⟩
        simp only [tokenIn, hall c y hw, Option.bind_eq_bind, Option.bind_some, List.cons_append,
          if_neg hdn, if_neg hdelim]
        rw [List.cons_append] at hends
        rw [hends]
        rfl

end Tokens

section Rows

variable {go : List GetOpt} {path : Str} {quiet : Prop} {g : GetOpt} {i : Nat} {b b' : Str}
  {rs : List OptResult} {stops inSect inSect' : Bool}

/-- **What a value gives** does not depend on what the comment has covered. -/
theorem ArgsGive.covers (h : ArgsGive g i b rs stops) (hb : Covers quiet b b') :
    ArgsGive g i b' rs stops := by
  induction h generalizing b' with
  | ended htok =>
    rcases hb.ended htok with hend | ⟨tok, y, htok', hends, -⟩
    · exact .ended hend
    · exact .comment htok' hends
  | comment htok hends =>
    obtain ⟨rest', htok', -⟩ := hb.token htok
    exact .comment htok' hends
  | arg htok hends hw _ ih =>
    obtain ⟨rest', htok', hrest⟩ := hb.token htok
    exact .arg htok' hends hw (ih hrest)
  | noArg htok hends hw =>
    obtain ⟨rest', htok', -⟩ := hb.token htok
    exact .noArg htok' hends hw

/-- Behind an option without an argument, the words of the comment would be read. -/
theorem BareGives.covers (h : BareGives g i quiet b rs stops) (hb : Covers quiet b b') :
    BareGives g i True b' rs stops := by
  cases h with
  | ended htok hw hquiet =>
    rcases hb.ended htok with hend | ⟨tok, y, htok', hends, hnone⟩
    · exact .ended hend hw trivial
    · obtain ⟨next, hnext, hends'⟩ := hnone hquiet
      refine .comment htok' hends hw ?_
      cases next with
      | none => exact .ended hnext
      | some r => exact .comment hnext hends'
  | comment htok hends hw hargs =>
    obtain ⟨rest', htok', hrest⟩ := hb.token htok
    exact .comment htok' hends hw (hargs.covers hrest)
  | @required next htok hends hw =>
    cases next with
    | none =>
      rcases hb.ended htok with hend | ⟨tok, y, htok', hends', -⟩
      · exact .required hend hends hw
      · exact .required htok' hends' hw
    | some r =>
      obtain ⟨rest', htok', -⟩ := hb.token htok
      exact .required htok' hends hw

/-- What an option gives does not depend on it either. -/
theorem OptGives.covers (h : OptGives g i quiet b rs stops) (hb : Covers quiet b b') :
    OptGives g i True b' rs stops := by
  cases h with
  | bare hbare => exact .bare (hbare.covers hb)
  | noDelim htok hends hdelim =>
    obtain ⟨rest', htok', -⟩ := hb.token htok
    exact .noDelim htok' hends hdelim
  | bareDelim htok hends hdelim hbare =>
    obtain ⟨rest', htok', hrest⟩ := hb.token htok
    exact .bareDelim htok' hends hdelim (hbare.covers hrest)
  | value htok hends hdelim htok₂ hends₂ hargs =>
    obtain ⟨rest', htok', hrest⟩ := hb.token htok
    obtain ⟨rest₂, htok₂', -⟩ := hrest.token htok₂
    exact .value htok' hends hdelim htok₂' hends₂ (hargs.covers hrest)

/-- Nor does what a name gives. -/
theorem NameGives.covers (h : NameGives go quiet inSect b rs stops) (hb : Covers quiet b b') :
    NameGives go True inSect b' rs stops := by
  cases h with
  | ended htok =>
    rcases hb.ended htok with hend | ⟨tok, y, htok', hends, -⟩
    · exact .ended hend
    · exact .skipped htok' (.inl hends)
  | skipped htok hskip =>
    obtain ⟨rest', htok', -⟩ := hb.token htok
    exact .skipped htok' hskip
  | unknown htok hends hfind =>
    obtain ⟨rest', htok', -⟩ := hb.token htok
    exact .unknown htok' hends hfind
  | named htok hends hfind hg hopt =>
    obtain ⟨rest', htok', hrest⟩ := hb.token htok
    exact .named htok' hends hfind hg (hopt.covers hrest)

/-- The first token has been read. -/
theorem NameGives.token (h : NameGives go quiet inSect b rs stops) :
    ∃ next, tokenIn b = some next := by
  cases h with
  | ended htok => exact ⟨_, htok⟩
  | skipped htok => exact ⟨_, htok⟩
  | unknown htok => exact ⟨_, htok⟩
  | named htok => exact ⟨_, htok⟩

/-- A row that ends at once has no section identifier. -/
theorem not_header {tok : Str} (h : rowEnds (some tok)) : ¬IsHeader tok := by
  intro hh
  rw [rowEnds, show tok.headD nul = '[' from hh] at h
  exact absurd h (by decide)

/-- Nor does what a row gives. -/
theorem RowGives.covers (h : RowGives go path quiet inSect b rs stops inSect')
    (hb : Covers quiet b b') : RowGives go path True inSect b' rs stops inSect' := by
  cases h with
  | malformed htok hh hl =>
    obtain ⟨rest', htok', -⟩ := hb.token htok
    exact .malformed htok' hh hl
  | header htok hh hl hname =>
    obtain ⟨rest', htok', hrest⟩ := hb.token htok
    exact .header htok' hh hl (hname.covers hrest)
  | plain hh hname =>
    refine .plain (fun tok rest htok => ?_) (hname.covers hb)
    obtain ⟨next, hnext⟩ := hname.token
    cases next with
    | none =>
      rcases hb.ended hnext with hend | ⟨tok', y, htok', hends, -⟩
      · rw [hend] at htok
        cases htok
      · rw [htok'] at htok
        cases htok
        exact not_header hends
    | some r =>
      obtain ⟨rest', htok', -⟩ := hb.token hnext
      rw [htok'] at htok
      cases htok
      exact hh _ _ hnext

end Rows

/-! ## Files with and without their comments -/

/-- No word is behind the character that begins the comment of the line. -/
def Quiet (p : Place) (line : Str) : Prop :=
  nul ∈ bareText p line ∨
    ∃ next, tokenIn (rowMem (commentText p line).tail) = some next ∧ rowEnds (next.map Prod.fst)

/-- The memory of a row up to its comment. A row without comment goes on into `old`, if this is what
the buffer held before in both files. -/
def rowKnown (p : Place) (line : Str) (old : Option Str) : Str :=
  if commentText p line ≠ [] then cstr (bareText p line) ++ [nul]
  else
    match old with
    | none => rowMem line
    | some buf => chomp (overlay line buf)

/-- The buffer behind the row, if it is the same in both files. -/
def bufKnown (p : Place) (line : Str) (old : Option Str) : Option Str :=
  if commentText p line ≠ [] then none else old.map fun buf => chomp (overlay line buf)

/-- As far as its rows are read, a file is read without its comments: each row is read up to its
comment and not over its end, no word of a comment is behind an option without an argument, and the
comment ends in the buffer. -/
inductive Harmless (go : List GetOpt) (path : Str) :
    Place → Bool → Option Str → ConfFile → Prop where
  | ended {p inSect old fp} : fp.fgets MAX_STR = none → Harmless go path p inSect old fp
  | row {p inSect old fp line fp' rs stops inSect'} : fp.fgets MAX_STR = some (line, fp') →
      (commentText p line ≠ [] →
        line.getLast? = some '\n' ∨ (fp'.rest = [] ∧ fp.broken = false)) →
      RowGives go path (Quiet p line) inSect (rowKnown p line old) rs stops inSect' →
      (stops = false →
        Harmless go path (placeBehind p line) inSect' (bufKnown p line old) fp') →
      Harmless go path p inSect old fp

section Files

variable {go : List GetOpt} {path : Str} {p : Place} {inSect : Bool} {old : Option Str}
  {fp : ConfFile} {line s y : Str} {c : Char} {quiet : Prop}

/-- A character in front of the line is in front of its memory. -/
theorem rowMem_cons (hn : c ≠ nul) (hc : c ≠ '\n') (s : Str) : rowMem (c :: s) = c :: rowMem s := by
  have hcstr : cstr (c :: (s ++ [nul])) = c :: cstr (s ++ [nul]) :=
    List.takeWhile_cons_of_pos (by simp [hn])
  rw [rowMem, List.cons_append, rowMem, chomp, chomp, hcstr]
  cases cstr (s ++ [nul]) with
  | nil => simp [hc]
  | cons d w =>
    rw [List.getLast?_cons_cons]
    split <;> rfl

/-- So is a text without NUL and newline. -/
theorem rowMem_append {b : Str} (hn : nul ∉ b) (hb : '\n' ∉ b) (s : Str) :
    rowMem (b ++ s) = b ++ rowMem s := by
  induction b with
  | nil => rfl
  | cons c b ih =>
    obtain ⟨hcn, hn⟩ := not_or.mp (mt List.mem_cons.mpr hn)
    obtain ⟨hcb, hb⟩ := not_or.mp (mt List.mem_cons.mpr hb)
    rw [List.cons_append, rowMem_cons (Ne.symm hcn) (Ne.symm hcb), ih hn hb]
    rfl

/-- Of a row with a comment the part in front of it is known. -/
theorem rowKnown_comment (hc : commentText p line ≠ []) (old : Option Str) :
    rowKnown p line old = cstr (bareText p line) ++ [nul] := if_pos hc

/-- Of a row without one everything is. -/
theorem rowKnown_bare (hc : commentText p line = []) (buf : Str) :
    rowKnown p line none = rowMem line ∧ rowKnown p line (some buf) = chomp (overlay line buf) :=
  ⟨if_neg (not_not_intro hc), if_neg (not_not_intro hc)⟩

/-- A row without comment. -/
theorem covers_bare (hc : commentText p line = []) {buf : Str} (hold : ∀ b ∈ old, buf = b) :
    Covers quiet (rowKnown p line old) (chomp (overlay line buf)) := by
  cases old with
  | none =>
    rw [(rowKnown_bare hc buf).1, chomp_overlay]
    exact .more _ _
  | some b =>
    obtain rfl := hold b rfl
    rw [(rowKnown_bare hc buf).2]
    generalize chomp (overlay line buf) = m
    have hcovers : Covers quiet m (m ++ []) := .more m []
    rw [List.append_nil] at hcovers
    exact hcovers

/-- A row with its comment. -/
theorem covers_comment (hp : p ≠ .inComment) (hc : commentText p line = c :: y)
    (hn : ∃ y', '\n' ∉ bareText p line ++ c :: y' ∧
      (line = bareText p line ++ c :: y' ++ ['\n'] ∨ line = bareText p line ++ c :: y'))
    (buf : Str) :
    Covers (Quiet p line) (rowKnown p line old) (chomp (overlay line buf)) := by
  obtain ⟨y', hnot, hline⟩ := hn
  rw [rowKnown_comment (by simp [hc]), chomp_overlay]
  by_cases hnul : nul ∈ bareText p line
  · obtain ⟨x, hx⟩ := rowMem_row hnot hline
    rw [cstr_mem_append hnul] at hx
    rw [hx, List.append_assoc]
    exact covers_nul _ _
  · have happ := bareText_append p line
    rw [hc] at happ
    have hnot' : '\n' ∉ bareText p line := fun hm => hnot (List.mem_append_left _ hm)
    obtain ⟨hcn, hcc⟩ := commentText_begins hp hc
    have hmem : rowMem line = bareText p line ++ c :: rowMem y := by
      conv_lhs => rw [← happ]
      rw [rowMem_append hnul hnot', rowMem_cons (comment_char hcc).2.2 hcn]
    rw [hmem, cstr_eq_self hnul, List.append_assoc, List.cons_append]
    refine .comment hnul hcc fun hquiet => ?_
    obtain ⟨next, hnext, hends⟩ := hquiet.resolve_left hnul
    rw [hc, List.tail_cons] at hnext
    refine ⟨_, tokenIn_append hnext _, ?_⟩
    rw [Option.map_map]
    exact hends

/-- A row that ends where its comment was. -/
theorem covers_stripped (hc : commentText p line = c :: y) (hn : '\n' ∉ bareText p line)
    {line' : Str} (hline : line' = bareText p line ++ ['\n'] ∨ line' = bareText p line)
    (buf : Str) :
    Covers quiet (rowKnown p line old) (chomp (overlay line' buf)) := by
  obtain ⟨x, hx⟩ := rowMem_row hn hline
  rw [rowKnown_comment (by simp [hc]), chomp_overlay, hx, List.append_assoc]
  exact covers_nul _ _

/-- A row without text. -/
theorem rowGives_nul {rs : List OptResult} {stops inSect' : Bool}
    (h : RowGives go path quiet inSect [nul] rs stops inSect') :
    rs = [] ∧ stops = false ∧ inSect' = inSect := by
  have hnul : tokenIn [nul] = some none := rfl
  cases h with
  | malformed htok =>
    rw [hnul] at htok
    cases htok
  | header htok =>
    rw [hnul] at htok
    cases htok
  | plain _ hname =>
    cases hname with
    | ended => exact ⟨rfl, rfl, rfl⟩
    | skipped htok =>
      rw [hnul] at htok
      cases htok
    | unknown htok =>
      rw [hnul] at htok
      cases htok
    | named htok =>
      rw [hnul] at htok
      cases htok

/-- The file gives the same as without its comments. -/
theorem Harmless.gives (h : Harmless go path p inSect old fp) (hp : p ≠ .inComment) :
    ∃ spec, ∀ buf buf', (∀ b ∈ old, buf = b ∧ buf' = b) →
      FileGives go path inSect buf fp spec ∧
        FileGives go path inSect buf' (stripFile p fp) spec := by
  induction h with
  | @ended p inSect old fp hend =>
    exact ⟨_, fun _ _ _ => ⟨.ended hend, .ended (strip_fgets_none hend)⟩⟩
  | @row p inSect old fp line fp' rs stops inSect' hline hends hrow hrest ih =>
    have hp' := placeBehind_ne hp line
    obtain ⟨spec, hspec⟩ : ∃ spec, stops = false → ∀ buf buf',
        (∀ b ∈ bufKnown p line old, buf = b ∧ buf' = b) → FileGives go path inSect' buf fp' spec ∧
          FileGives go path inSect' buf' (stripFile (placeBehind p line) fp') spec := by
      cases stops with
      | true => exact ⟨[], nofun⟩
      | false =>
        obtain ⟨spec, hspec⟩ := ih rfl hp'
        exact ⟨spec, fun _ => hspec⟩
    refine ⟨upTo stops rs spec, fun buf buf' hold => ?_⟩
    rcases strip_fgets hp hline hends with ⟨hc, hline'⟩ | ⟨c, y, hc, hn, hshape, hcases⟩
    · have hcovers := hrow.covers (covers_bare hc fun b hb => (hold b hb).1)
      have hcovers' := hrow.covers (covers_bare hc fun b hb => (hold b hb).2)
      have hknown : ∀ b ∈ bufKnown p line old,
          chomp (overlay line buf) = b ∧ chomp (overlay line buf') = b := by
        intro b hb
        rw [bufKnown, if_neg (not_not_intro hc)] at hb
        obtain ⟨b₀, hb₀, rfl⟩ := Option.map_eq_some_iff.mp hb
        obtain ⟨rfl, rfl⟩ := hold b₀ hb₀
        exact ⟨rfl, rfl⟩
      exact ⟨.row hline hcovers fun hs => (hspec hs _ _ hknown).1,
        .row hline' hcovers' fun hs => (hspec hs _ _ hknown).2⟩
    · have hknown : ∀ b ∈ bufKnown p line old, ∀ buf buf' : Str, buf = b ∧ buf' = b := by
        intro b hb
        rw [bufKnown, if_pos (by simp [hc])] at hb
        cases hb
      have hcovers := hrow.covers (covers_comment hp hc hshape buf)
      refine ⟨.row hline hcovers fun hs => (hspec hs _ buf fun b hb => hknown b hb _ _).1, ?_⟩
      rcases hcases with ⟨line', hshape', hline'⟩ | ⟨hbare, hsame⟩
      · have hcovers' := hrow.covers (covers_stripped hc hn hshape' buf')
        exact .row hline' hcovers' fun hs => (hspec hs buf _ fun b hb => hknown b hb _ _).2
      · -- the last line was nothing but a comment
        rw [rowKnown_comment (by simp [hc]), hbare] at hrow
        obtain ⟨rfl, rfl, rfl⟩ := rowGives_nul hrow
        rw [hsame]
        exact (hspec rfl buf buf' fun b hb => hknown b hb _ _).2

end Files

/-! ## Calls -/

/-- The calls on a file stay calls on a file. -/
theorem FollowsRows.type_kept {gos last : GetOptState} {spec : List OptResult} {call : OptCall}
    (h : FollowsRows gos spec) (hcall : tgetopt gos = some (call, last)) :
    last.gosType = .file := by
  have hfile : gos.gosType = .file := by
    cases h with
    | between h _ => exact h.type
    | within h _ _ _ _ => exact h.type
  exact (tgetopt_kept hfile hcall).type.trans hfile

/-- Two states that are to give the same. -/
theorem tgetopts_follow {gos gos' : GetOptState} {spec : List OptResult} (h : FollowsRows gos spec)
    (h' : FollowsRows gos' spec) (n : Nat) : tgetoptResults n gos = tgetoptResults n gos' := by
  induction n generalizing gos gos' spec with
  | zero => rfl
  | succ n ih =>
    obtain ⟨call, last, rs, hspec, hcall, hf, -⟩ := tgetopt_gives h
    obtain ⟨call', last', rs', hspec', hcall', hf', -⟩ := tgetopt_gives h'
    obtain ⟨he, rfl⟩ := List.cons.inj (hspec.symm.trans hspec')
    have herrno : last.gosErrno = last'.gosErrno := congrArg Prod.snd he
    have hbehind : tgetoptResults n last = tgetoptResults n last' := by
      by_cases hok : last.gosErrno = .ok
      · exact ih (hf hok) (hf' (herrno.symm.trans hok))
      · have hok' : last'.gosErrno ≠ .ok := fun he => hok (herrno.trans he)
        rw [tgetoptResults, tgetoptResults, tgetopts_stuck (h.type_kept hcall) hok,
          tgetopts_stuck (h'.type_kept hcall') hok', Option.map_some, Option.map_some, herrno]
    rw [tgetoptResults_cons hcall, tgetoptResults_cons hcall', hbehind, he]

/-- The calls give the same without the comments, if none of them is read. -/
theorem tgetopts_stripComments {go : List GetOpt} {path : Option Str} {fp : ConfFile}
    (h : Harmless go (path.getD []) .bare (path.getD [] = [])
      (some (List.replicate MAX_STR nul)) fp)
    (n : Nat) :
    tgetoptResults n (tgetoptFileInit (stripFile .bare fp) path go) =
      tgetoptResults n (tgetoptFileInit fp path go) := by
  obtain ⟨spec, hspec⟩ := h.gives nofun
  obtain ⟨hgives, hgives'⟩ := hspec (List.replicate MAX_STR nul) (List.replicate MAX_STR nul) (by
    intro b hb
    cases hb
    exact ⟨rfl, rfl⟩)
  have hpos : (-1 : Int) < 0 := Int.negSucc_lt_zero 0
  exact tgetopts_follow (.between ⟨rfl, rfl, fun _ => hgives'⟩ hpos)
    (.between ⟨rfl, rfl, fun _ => hgives⟩ hpos) n

/-- `host = a # x`, and `version` with a comment behind it that has no words. -/
def remarkFile : ConfFile :=
  let text : Str := ['h', 'o', 's', 't', ' ', '=', ' ', 'a', ' ', '#', ' ', 'x', '\n',
    'v', 'e', 'r', 's', 'i', 'o', 'n', ' ', '!', '\n']
  ⟨text, text, false⟩

theorem remarkFile_harmless :
    Harmless goTable [] .bare true (some (List.replicate MAX_STR nul)) remarkFile := by
  have hhost : tokenIn (['h', 'o', 's', 't', ' ', '=', ' ', 'a', ' '] ++ [nul]) =
      some (some (['h', 'o', 's', 't'], [' ', '=', ' ', 'a', ' ', nul])) := rfl
  have hversion : tokenIn (['v', 'e', 'r', 's', 'i', 'o', 'n', ' '] ++ [nul]) =
      some (some (['v', 'e', 'r', 's', 'i', 'o', 'n'], [' ', nul])) := rfl
  have hargs : ArgsGive ⟨['h', 'o', 's', 't'], 'h', .reqArg⟩ 6 [' ', 'a', ' ', nul] _ false :=
    .arg rfl (by decide) (by decide) (.ended rfl)
  refine .row rfl (fun _ => .inl rfl) (.plain ?_ (.named hhost (by decide) rfl rfl
    (.value rfl (by decide) (by decide) rfl (by decide) hargs))) fun _ => ?_
  · intro tok rest htok
    cases hhost.symm.trans htok
    decide
  refine .row rfl (fun _ => .inl rfl) (.plain ?_ (.named hversion (by decide) rfl rfl
    (.bare (.ended rfl (by decide) (.inr ⟨none, rfl, rfl⟩))))) fun _ => .ended rfl
  intro tok rest htok
  cases hversion.symm.trans htok
  decide

theorem tgetopts_stripComments_remarks :
    tgetoptResults 3 (tgetoptFileInit (stripFile .bare remarkFile) none goTable) =
      tgetoptResults 3 (tgetoptFileInit remarkFile none goTable) :=
  tgetopts_stripComments remarkFile_harmless 3

/-- `help # yes`: the word of the comment is read as an argument of the option. -/
theorem tgetopts_reads_comment :
    ¬∀ (go : List GetOpt) (path : Option Str) (text : Str) (n : Nat),
      tgetoptResults n (tgetoptFileInit (stripFile .bare ⟨text, text, false⟩) path go) =
        tgetoptResults n (tgetoptFileInit ⟨text, text, false⟩ path go) := by
  intro h
  have hhelp := h goTable none ['h', 'e', 'l', 'p', ' ', '#', ' ', 'y', 'e', 's', '\n'] 2
  revert hhelp
  decide +kernel

end Spegla
