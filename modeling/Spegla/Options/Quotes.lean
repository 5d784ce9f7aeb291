import Spegla.Options.Token

/-!
# Quoted strings (`tgetopt.c`, `copy_out_string` and `next_token`)

`copy_out_string` moves behind the quote that closes a string, and the loop of `next_token` moves
one character further.

- `nextToken_inside`: a call stays in the line and its NUL exactly if the line does not end inside a
  quoted string, or with it.
- `scan_unquoted`, `scan_quoted`: a token without quotes, and one that begins with a quoted string.
- `nextToken_keeps_iff`: when a quoted string is followed by what the next token begins with.
-/

namespace Spegla

open CString

variable {s t x : Str} {c : Char}

/-! ## The end of a line -/

/-- The token that goes on here, inside a quoted string or not, gets to the end of the line inside
such a string, or with it. -/
def RunsOff : Bool → Str → Prop
  | false, [] => False
  | false, c :: s => ¬Ends c ∧ RunsOff (c = '"') s
  | true, [] => True
  | true, [_] => True
  | true, c :: d :: s =>
    if c = '"' then RunsOff false s else if c = '\\' then RunsOff true s else RunsOff true (d :: s)

instance decidableRunsOff : ∀ (q : Bool) (s : Str), Decidable (RunsOff q s)
  | false, [] => inferInstanceAs (Decidable False)
  | false, c :: s =>
    have := decidableRunsOff (c = '"') s
    inferInstanceAs (Decidable (_ ∧ _))
  | true, [] => inferInstanceAs (Decidable True)
  | true, [_] => inferInstanceAs (Decidable True)
  | true, c :: d :: s =>
    have := decidableRunsOff false s
    have := decidableRunsOff true s
    have := decidableRunsOff true (d :: s)
    inferInstanceAs (Decidable (if c = '"' then _ else if c = '\\' then _ else _))

/-- A token that ends does not run off. -/
theorem not_runsOff_ends (hc : Ends c) (s : Str) : ¬RunsOff false (c :: s) := fun h => h.1 hc

/-- A plain character changes nothing about it. -/
theorem runsOff_plain (hc : Plain c) (s : Str) : RunsOff false (c :: s) ↔ RunsOff false s := by
  rw [RunsOff, decide_eq_false hc.2]
  exact and_iff_right hc.1

/-- A quotation mark begins the quoted part. -/
theorem runsOff_quote (s : Str) : RunsOff false ('"' :: s) ↔ RunsOff true s := by
  rw [RunsOff, decide_eq_true rfl]
  exact and_iff_right not_ends_quote

/-- How `copy_out_string` leaves the end of a line: the line runs off, and what is left is at most
its NUL; or a closing quote and a character are skipped. -/
theorem copyOutString_line (ht : nul ∉ t) :
    RunsOff true t ∧
        ((copyOutString ('"' :: (t ++ [nul])) = none) ∨
          ∃ v, copyOutString ('"' :: (t ++ [nul])) = some (v, [nul])) ∨
      ∃ v d r, copyOutString ('"' :: (t ++ [nul])) = some (v, d :: (r ++ [nul])) ∧
        d :: r <:+ t ∧ (RunsOff true t ↔ RunsOff false r) := by
  have hcopy : ∀ b, copyOutString ('"' :: b) = (copyLoop b).map fun r => (r.1, skipQuote r.2) :=
    fun b => by rw [copyOutString, if_neg (not_not_intro rfl)]
  have hnul : copyLoop [nul] = some ([], [nul]) := copyLoop_end (.inl rfl) []
  simp only [hcopy]
  -- an escape takes two characters at once, so the induction is on the length
  induction hn : t.length using Nat.strongRecOn generalizing t with
  | ind n ih =>
    cases t with
    | nil => exact .inl ⟨trivial, .inr ⟨[], by rw [List.nil_append, hnul]; rfl⟩⟩
    | cons c t =>
      have hc := (not_or.mp (mt List.mem_cons.mpr ht)).1
      have htail := (not_or.mp (mt List.mem_cons.mpr ht)).2
      rw [List.length_cons] at hn
      by_cases hq : c = '"'
      · subst hq
        rw [List.cons_append, copyLoop_end (.inr rfl), Option.map_some]
        cases t with
        | nil => exact .inl ⟨trivial, .inr ⟨[], rfl⟩⟩
        | cons d r =>
          refine .inr ⟨[], d, r, rfl, List.suffix_cons .., ?_⟩
          -- the closing mark, with the character behind it that is skipped
          rw [RunsOff, if_pos rfl]
      · by_cases he : c = '\\'
        · subst he
          cases t with
          | nil =>
            rw [List.cons_append, List.nil_append, copyLoop_escape]
            exact .inl ⟨trivial, .inl rfl⟩
          | cons d t =>
            rw [List.cons_append, List.cons_append, copyLoop_escape, RunsOff, if_neg hq, if_pos rfl]
            rw [List.length_cons] at hn
            have hrest : nul ∉ t := fun hm => htail (List.mem_cons_of_mem d hm)
            rcases ih t.length (by omega) hrest rfl with ⟨ho, hnone | ⟨v, hv⟩⟩ |
              ⟨v, e, r, hv, hr, hiff⟩
            · refine .inl ⟨ho, .inl ?_⟩
              rw [Option.map_eq_none_iff] at hnone
              rw [hnone]
              rfl
            · obtain ⟨p, hp, he⟩ := Option.map_eq_some_iff.mp hv
              refine .inl ⟨ho, .inr ⟨escaped d :: p.1, ?_⟩⟩
              rw [hp]
              exact congrArg (fun q : Str × Str => some (escaped d :: p.1, q.2)) he
            · obtain ⟨p, hp, he⟩ := Option.map_eq_some_iff.mp hv
              refine .inr ⟨escaped d :: p.1, e, r, ?_,
                hr.trans ((List.suffix_cons ..).trans (List.suffix_cons ..)), hiff⟩
              rw [hp]
              exact congrArg (fun q : Str × Str => some (escaped d :: p.1, q.2)) he
        · have hchar : ¬(c = nul ∨ c = '"') := not_or.mpr ⟨fun hn => hc hn.symm, hq⟩
          have ho' : RunsOff true (c :: t) ↔ RunsOff true t := by
            cases t with
            | nil => exact Iff.rfl
            | cons d t => rw [RunsOff, if_neg hq, if_neg he]
          rw [List.cons_append, copyLoop_char hchar he, ho']
          rcases ih t.length (by omega) htail rfl with ⟨ho, hnone | ⟨v, hv⟩⟩ |
            ⟨v, e, r, hv, hr, hiff⟩
          · refine .inl ⟨ho, .inl ?_⟩
            rw [Option.map_eq_none_iff] at hnone
            rw [hnone]
            rfl
          · obtain ⟨p, hp, he⟩ := Option.map_eq_some_iff.mp hv
            refine .inl ⟨ho, .inr ⟨c :: p.1, ?_⟩⟩
            rw [hp]
            exact congrArg (fun q : Str × Str => some (c :: p.1, q.2)) he
          · obtain ⟨p, hp, he⟩ := Option.map_eq_some_iff.mp hv
            refine .inr ⟨c :: p.1, e, r, ?_, hr.trans (List.suffix_cons ..), hiff⟩
            rw [hp]
            exact congrArg (fun q : Str × Str => some (c :: p.1, q.2)) he

/-- A token is read inside of the line and its NUL exactly if the line does not run off. -/
theorem scan_line (ht : nul ∉ t) :
    RunsOff false t ∧ scan (t ++ [nul]) = none ∨
      ¬RunsOff false t ∧ ∃ v r, scan (t ++ [nul]) = some (v, r ++ [nul]) ∧ r <:+ t := by
  induction hn : t.length using Nat.strongRecOn generalizing t with
  | ind n ih =>
    cases t with
    | nil => exact .inr ⟨not_false, [], [], scan_ends (.inl rfl) [], List.suffix_refl _⟩
    | cons c t =>
      have htail : nul ∉ t := fun hm => ht (List.mem_cons_of_mem c hm)
      rw [List.length_cons] at hn
      rcases ends_or_plain c with hc | rfl | hc
      · exact .inr ⟨not_runsOff_ends hc t, [], c :: t, scan_ends hc _, List.suffix_refl _⟩
      · rw [runsOff_quote, List.cons_append, scan_quote]
        rcases copyOutString_line htail with ⟨ho, hnone | ⟨v, hv⟩⟩ | ⟨v, d, r, hv, hr, hiff⟩
        · rw [hnone]
          exact .inl ⟨ho, rfl⟩
        · rw [hv]
          exact .inl ⟨ho, rfl⟩
        · have hrt : r <:+ t := (List.suffix_cons d r).trans hr
          have hlen := hrt.length_le
          rw [hv, hiff, Option.bind_some, List.tail_cons]
          rcases ih r.length (by omega) (fun hm => htail (hrt.mem hm)) rfl with
            ⟨ho, hnone⟩ | ⟨ho, w, q, hw, hq⟩
          · exact .inl ⟨ho, by rw [hnone]; rfl⟩
          · refine .inr ⟨ho, v ++ w, q, ?_, (hq.trans hrt).trans (List.suffix_cons ..)⟩
            rw [hw]
            rfl
      · rw [runsOff_plain hc, List.cons_append, scan_plain hc]
        rcases ih t.length (by omega) htail rfl with ⟨ho, hnone⟩ | ⟨ho, w, q, hw, hq⟩
        · exact .inl ⟨ho, by rw [hnone]; rfl⟩
        · refine .inr ⟨ho, c :: w, q, ?_, hq.trans (List.suffix_cons ..)⟩
          rw [hw]
          rfl

/-- The white space at the front of a line is skipped. -/
theorem skipWhite_line (t : Str) :
    skipWhite (t ++ [nul]) = some (t.dropWhile (inSet white_space) ++ [nul]) := by
  induction t with
  | nil => exact if_neg (by simp [not_white_nul])
  | cons c t ih =>
    by_cases hc : inSet white_space c
    · rw [List.cons_append, skipWhite, if_pos hc, ih, List.dropWhile_cons_of_pos hc]
    · rw [List.cons_append, skipWhite, if_neg hc, List.dropWhile_cons_of_neg hc, List.cons_append]

/-- No byte behind the NUL of the line is read, and the new position is −1 or one of the line. -/
def ReadsInside (line : Str) (pos : Int) : Prop :=
  ∃ tok pos', nextToken (line ++ [nul]) pos = some (tok, pos') ∧
    (pos' = -1 ∨ 0 ≤ pos' ∧ pos' ≤ line.length)

/-- A call of `next_token` stays inside of the line exactly if it begins there, and the line does
not end in a quoted string of the token, or with it. -/
theorem nextToken_inside {line : Str} (hl : nul ∉ line) (pos : Int) :
    ReadsInside line pos ↔ pos = -1 ∨ 0 ≤ pos ∧ pos ≤ line.length ∧
      ¬RunsOff false ((line.drop pos.toNat).dropWhile (inSet white_space)) := by
  rcases Int.lt_or_le pos 0 with hp | hp
  · have hrun : nextToken (line ++ [nul]) pos = some (none, pos) := if_pos hp
    constructor
    · rintro ⟨tok, pos', hnext, hpos⟩
      rw [hrun] at hnext
      cases hnext
      omega
    · intro h
      exact ⟨none, pos, hrun, by omega⟩
  · -- behind the NUL there is no memory of the line to read
    rcases Int.lt_or_le line.length pos with hlt | hle
    · have hdrop : (line ++ [nul]).drop pos.toNat = [] := by
        rw [List.drop_eq_nil_iff, List.length_append, List.length_singleton]
        omega
      constructor
      · rintro ⟨tok, pos', hnext, -⟩
        rw [nextToken_skipWhite hp, hdrop] at hnext
        cases hnext
      · intro h
        omega
    · have hdrop : (line ++ [nul]).drop pos.toNat = line.drop pos.toNat ++ [nul] :=
        List.drop_append_of_le_length (by omega)
      have hsub : (line.drop pos.toNat).dropWhile (inSet white_space) <:+ line :=
        (List.dropWhile_suffix _).trans (List.drop_suffix ..)
      rw [or_iff_right (by omega), and_iff_right hp, and_iff_right hle, ReadsInside,
        nextToken_skipWhite hp, hdrop, skipWhite_line, Option.bind_some]
      have hnul := fun hm => hl (hsub.mem hm)
      cases hb : (line.drop pos.toNat).dropWhile (inSet white_space) with
      | nil => exact ⟨fun _ => not_false, fun _ => ⟨none, -1, rfl, .inl rfl⟩⟩
      | cons c b =>
        rw [hb] at hsub hnul
        have hc : c ≠ nul := fun he => hnul (he ▸ List.mem_cons_self ..)
        have hlen := hsub.length_le
        rw [List.length_cons] at hlen
        rw [List.cons_append, tokenFrom, if_neg hc]
        by_cases hd : inSet delimiter c
        · rw [if_pos hd]
          refine ⟨fun _ => not_runsOff_ends (.inr (.inr hd)) b, fun _ => ⟨_, _, rfl, .inr ?_⟩⟩
          simp only [List.length_append, List.length_singleton]
          omega
        · rw [if_neg hd]
          show (∃ tok pos', (scan (c :: b ++ [nul])).map _ = some (tok, pos') ∧ _) ↔ _
          -- the scan comes back inside unless a mark is left open
          rcases scan_line hnul with ⟨ho, hnone⟩ | ⟨ho, v, r, hv, hr⟩
          · rw [hnone]
            constructor
            · rintro ⟨tok, pos', hnext, -⟩
              cases hnext
            · exact fun h => absurd ho h
          · have hrlen := hr.length_le
            rw [List.length_cons] at hrlen
            rw [hv]
            refine ⟨fun _ => ho, fun _ => ⟨_, _, rfl, .inr ?_⟩⟩
            simp only [List.length_append, List.length_singleton]
            omega

/-- Two tokens of a line, with the position that the first one leaves. -/
theorem nextToken_inside_words : ReadsInside ['a', ' ', '"', 'b', '"', ' '] 1 :=
  (nextToken_inside (by decide) 1).mpr (.inr (by decide))

/-- A line that is a quote. -/
theorem nextToken_outside : ¬ReadsInside ['"'] 0 := by
  rintro ⟨tok, pos', hnext, -⟩
  cases hnext

/-! ## A quoted string and what follows it -/

/-- A character of a quoted string. -/
def quoteChar (c : Char) : Str := if c = '"' ∨ c = '\\' then ['\\', c] else [c]

/-- The string in quotes, with a backslash before each quote and backslash. -/
def quoted (v : Str) : Str := '"' :: (v.flatMap quoteChar ++ ['"'])

/-- A quoted character is read as itself. -/
theorem copyLoop_quoteChar (hc : c ≠ nul) (m : Str) :
    copyLoop (quoteChar c ++ m) = (copyLoop m).map fun r => (c :: r.1, r.2) := by
  by_cases hq : c = '"' ∨ c = '\\'
  · rw [quoteChar, if_pos hq]
    rcases hq with rfl | rfl <;> exact copyLoop_escape _ m
  · rw [quoteChar, if_neg hq]
    obtain ⟨hq, he⟩ := not_or.mp hq
    exact copyLoop_char (not_or.mpr ⟨hc, hq⟩) he m

variable {v m : Str}

/-- A quoted text is read back, up to its closing mark. -/
theorem copyLoop_quoted (hv : nul ∉ v) (m : Str) :
    copyLoop (v.flatMap quoteChar ++ '"' :: m) = some (v, '"' :: m) := by
  induction v with
  | nil => exact copyLoop_end (.inr rfl) m
  | cons c v ih =>
    obtain ⟨hc, hv⟩ := not_or.mp (mt List.mem_cons.mpr hv)
    rw [List.flatMap_cons, List.append_assoc, copyLoop_quoteChar (Ne.symm hc), ih hv]
    rfl

/-- A character behind the closing quote is skipped. -/
theorem scan_quoted (hv : nul ∉ v) (m : Str) :
    scan (quoted v ++ m) = (scan m.tail).map fun r => (v ++ r.1, r.2) := by
  have hmem : quoted v ++ m = '"' :: (v.flatMap quoteChar ++ '"' :: m) := by
    rw [quoted, List.cons_append, List.append_assoc]
    rfl
  rw [hmem, scan_quote, copyOutString, if_neg (not_not_intro rfl), copyLoop_quoted hv]
  rfl

/-- Without quotes, a token ends at the first character that ends one. -/
theorem scan_unquoted (hq : '"' ∉ s) (hc : Ends c) (x : Str) :
    scan (s ++ c :: x) = some (s.takeWhile Plain, s.dropWhile Plain ++ c :: x) := by
  induction s with
  | nil => exact scan_ends hc x
  | cons d s ih =>
    obtain ⟨hd, hq⟩ := not_or.mp (mt List.mem_cons.mpr hq)
    rcases ends_or_plain d with he | rfl | hp
    · have hnp : ¬Plain d := fun hp => hp.1 he
      rw [List.cons_append, scan_ends he]
      simp [hnp]
    · exact absurd rfl hd
    · rw [List.cons_append, scan_plain hp, ih hq]
      simp [hp]

/-- Without a character that ends it, a token is read on. -/
theorem scan_replicate (n : Nat) : scan (List.replicate n 'x') = none := by
  induction n with
  | zero => rfl
  | succ n ih =>
    rw [List.replicate_succ, scan_plain (by decide), ih]
    rfl

/-- The memory behind a quoted string: the rest of the line, and what is behind that. -/
def quotedLine (v s stale : Str) : Str := quoted v ++ (s ++ nul :: stale)

/-- The first token of a line that begins with a quoted text. -/
theorem nextToken_quoted (hv : nul ∉ v) (m : Str) :
    nextToken (quoted v ++ m) 0 = (scan m.tail).map fun r =>
      (some (cstr (v ++ r.1)), ((quoted v ++ m).length : Int) - r.2.length) := by
  have htok : tokenIn (quoted v ++ m) =
      (scan (quoted v ++ m)).map fun r => some (cstr r.1, r.2) := rfl
  have hnext := nextToken_tokenIn [] (quoted v ++ m)
  rw [List.nil_append] at hnext
  refine hnext.trans ?_
  rw [htok, scan_quoted hv, Option.map_map, Option.map_map]
  rfl

/-- Where the text behind the string begins with a character that ends a token, the token is the
string, and the next one begins in the text; otherwise, the text up to such a character is part of
the token. -/
structure KeepsQuoted (v s stale : Str) : Prop where
  ends : (∀ c ∈ s.head?, Ends c) →
    ∃ pos, nextToken (quotedLine v s stale) 0 = some (some v, pos) ∧
      nextToken (quotedLine v s stale) pos = nextToken (quotedLine v s stale) (quoted v).length
  plain : (∃ c ∈ s.head?, Plain c) →
    ∃ pos, nextToken (quotedLine v s stale) 0 = some (some (v ++ s.takeWhile Plain), pos)

variable {stale : Str}

/-- The token that a quoted string becomes, with a text behind it. -/
theorem nextToken_quotedLine (hv : nul ∉ v) (hs : nul ∉ s) (hq : '"' ∉ s) :
    nextToken (quotedLine v (c :: s) stale) 0 = some (some (v ++ s.takeWhile Plain),
      ((quotedLine v (c :: s) stale).length : Int) -
      (s.dropWhile Plain ++ nul :: stale).length) := by
  have hcstr : nul ∉ v ++ s.takeWhile Plain := by
    rw [List.mem_append, not_or]
    exact ⟨hv, fun hm => hs ((List.takeWhile_prefix _).mem hm)⟩
  rw [quotedLine, nextToken_quoted hv, List.cons_append, List.tail_cons,
    scan_unquoted hq (.inl rfl), Option.map_some, cstr_eq_self hcstr]

/-- The position behind the string and the character that is skipped. -/
theorem quotedLine_position (v : Str) (c : Char) (s stale : Str) :
    ((quotedLine v (c :: s) stale).length : Int) - (s ++ nul :: stale).length =
      (quoted v).length + 1 := by
  simp only [quotedLine, List.length_append, List.length_cons]
  omega

/-- The token behind it. -/
theorem nextToken_behind (v s stale : Str) :
    nextToken (quotedLine v s stale) (quoted v).length =
      (skipWhite (s ++ nul :: stale)).bind (tokenFrom (quotedLine v s stale).length) := by
  rw [nextToken_skipWhite (Int.natCast_nonneg _), Int.toNat_natCast]
  exact congrArg (fun m => (skipWhite m).bind _) List.drop_left

/-- The same where a character has been skipped. -/
theorem nextToken_skipped (v : Str) (c : Char) (s stale : Str) :
    nextToken (quotedLine v (c :: s) stale) ((quoted v).length + 1) =
      (skipWhite (s ++ nul :: stale)).bind (tokenFrom (quotedLine v (c :: s) stale).length) := by
  have hdrop : (quotedLine v (c :: s) stale).drop ((quoted v).length + 1) = s ++ nul :: stale := by
    rw [← List.drop_drop]
    exact congrArg (List.drop 1) List.drop_left
  have hpos : (((quoted v).length : Int) + 1).toNat = (quoted v).length + 1 := by omega
  rw [nextToken_skipWhite (by omega), hpos, hdrop]

/-- No plain character is in front of one that ends a token. -/
theorem takeWhile_ends (hends : ∀ d ∈ s.head?, Ends d) :
    s.takeWhile Plain = [] ∧ s.dropWhile Plain = s := by
  cases s with
  | nil => exact ⟨rfl, rfl⟩
  | cons d s =>
    have hd : ¬Plain d := fun hp => hp.1 (hends d rfl)
    simp [hd]

/-- The string is kept if a blank follows it, and behind that a character that ends a token, or
nothing. -/
theorem keepsQuoted_white (hv : nul ∉ v) (hs : nul ∉ s) (hq : '"' ∉ s) (hc : inSet white_space c)
    (hends : ∀ d ∈ s.head?, Ends d) : KeepsQuoted v (c :: s) stale := by
  obtain ⟨htake, hdrop⟩ := takeWhile_ends hends
  constructor
  · intro _
    have htok : nextToken (quotedLine v (c :: s) stale) 0 = _ := nextToken_quotedLine hv hs hq
    rw [htake, hdrop, List.append_nil, quotedLine_position] at htok
    refine ⟨_, htok, ?_⟩
    rw [nextToken_skipped, nextToken_behind, List.cons_append, skipWhite, if_pos hc]
  · rintro ⟨d, hd, hplain⟩
    cases hd
    exact absurd (.inr (.inl hc)) hplain.1

/-- Otherwise, it is not, with some bytes behind the line. -/
theorem white_of_keepsQuoted (hv : nul ∉ v) (hs : nul ∉ s) (hq : '"' ∉ s) {n : Nat}
    (h : ∀ stale : Str, stale.length = n → KeepsQuoted v s stale) :
    ∃ c s', s = c :: s' ∧ inSet white_space c ∧ ∀ d ∈ s'.head?, Ends d := by
  have hkeeps := h (List.replicate n 'x') List.length_replicate
  cases s with
  | nil =>
    -- the NUL is skipped
    obtain ⟨pos, htok, -⟩ := hkeeps.ends (by simp)
    rw [quotedLine, nextToken_quoted hv, List.nil_append, List.tail_cons, scan_replicate] at htok
    cases htok
  | cons c s =>
    have hcnul : c ≠ nul := fun he => hs (he ▸ List.mem_cons_self ..)
    have hcq : c ≠ '"' := fun he => hq (he ▸ List.mem_cons_self ..)
    have hs' : nul ∉ s := fun hm => hs (List.mem_cons_of_mem c hm)
    have hq' : '"' ∉ s := fun hm => hq (List.mem_cons_of_mem c hm)
    have htok : nextToken (quotedLine v (c :: s) (List.replicate n 'x')) 0 = _ :=
      nextToken_quotedLine hv hs' hq'
    by_cases hp : Plain c
    · -- `c` is missing in the token
      obtain ⟨pos, hplain⟩ := hkeeps.plain ⟨c, rfl, hp⟩
      rw [htok] at hplain
      have heq := congrArg (fun r : Option (Option Str × Int) => r.map Prod.fst) hplain
      simp [hp] at heq
    · have hends : Ends c := by
        rcases ends_or_plain c with he | he | he
        · exact he
        · exact absurd he hcq
        · exact absurd he hp
      obtain ⟨pos, hnext, hbehind⟩ := hkeeps.ends (by rintro d ⟨⟩; exact hends)
      rw [htok] at hnext
      have htake : s.takeWhile Plain = [] := by
        have heq := congrArg (fun r : Option (Option Str × Int) => r.map Prod.fst) hnext
        simpa using heq
      have hhead : ∀ d ∈ s.head?, Ends d := by
        intro d hd
        cases s with
        | nil => cases hd
        | cons e s =>
          cases hd
          rcases ends_or_plain d with he | rfl | hp
          · exact he
          · exact absurd (List.mem_cons_self ..) hq'
          · simp [hp] at htake
      obtain rfl : pos = (quoted v).length + 1 := by
        rw [(takeWhile_ends hhead).2, quotedLine_position] at hnext
        exact (congrArg Prod.snd (Option.some.inj hnext)).symm
      refine ⟨c, s, rfl, ?_, hhead⟩
      rcases hends with hn | hw | hd
      · exact absurd hn hcnul
      · exact hw
      · -- the delimiter would be the next token, and it is skipped
        have hnw : ¬inSet white_space c := by
          have hmem : c ∈ delimiter := by simpa [inSet] using hd
          simp only [delimiter, List.mem_cons, List.not_mem_nil, or_false] at hmem
          rcases hmem with rfl | rfl | rfl | rfl | rfl <;> decide
        rw [nextToken_behind, List.cons_append, skipWhite, if_neg hnw, Option.bind_some, tokenFrom,
          if_neg hcnul, if_pos hd, quotedLine_position] at hbehind
        rcases nextToken_moves (by omega) hbehind with hpos | hpos
        · omega
        · omega

/-- Whatever is behind the line in a buffer, a quoted string is kept apart from the text `s` behind
it exactly if that begins with a blank, and goes on with a character that ends a token, or not. -/
theorem nextToken_keeps_iff (hv : nul ∉ v) (hs : nul ∉ s) (hq : '"' ∉ s) (n : Nat) :
    (∀ stale : Str, stale.length = n → KeepsQuoted v s stale) ↔
      ∃ c s', s = c :: s' ∧ inSet white_space c ∧ ∀ d ∈ s'.head?, Ends d := by
  constructor
  · exact white_of_keepsQuoted hv hs hq
  · rintro ⟨c, s', rfl, hc, hends⟩ stale -
    exact keepsQuoted_white hv (fun hm => hs (List.mem_cons_of_mem c hm))
      (fun hm => hq (List.mem_cons_of_mem c hm)) hc hends

theorem nextToken_keeps_blank : KeepsQuoted ['a', '"'] [' ', '='] ['x'] :=
  (nextToken_keeps_iff (by decide) (by decide) (by decide) 1).mpr
    ⟨' ', ['='], rfl, by decide, by rintro d ⟨⟩; decide⟩ ['x'] rfl

/-- The character behind the string is lost. -/
theorem nextToken_loses : ¬KeepsQuoted ['a'] ['b'] [nul] := by
  intro h
  obtain ⟨pos, htok⟩ := h.plain ⟨'b', rfl, by decide⟩
  cases htok

end Spegla
