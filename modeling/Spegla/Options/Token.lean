import Mathlib.Data.List.Infix
import Spegla.Lib.CString

/-!
# Tokens of a line (`tgetopt.c`, `copy_out_string` and `next_token`)

A line lies in a buffer, and ends at its first NUL. What is behind that is left from earlier lines.

- `copyOutString`, `nextToken`: the two functions, on the memory from a pointer on. They are
  undefined (`none`) where they read outside of it.
- `scan`: the loop of `next_token`, without its fuel.
- `tokenIn`, `nextToken_tokenIn`: a token and the memory behind it, without positions.
-/

namespace Spegla

open CString

/-! ## The functions -/

/-- `in_set`. -/
def inSet (set : Str) (ch : Char) : Bool := set.contains ch

/-- `white_space` and `delimiter` of `next_token`. -/
def white_space : Str := [' ', '\t']
def delimiter : Str := ['#', '!', '=', ':', ',']

/-- What a backslash and a character stand for. -/
def escaped : Char → Char
  | 'a' => '\x07'
  | 'b' => '\x08'
  | 'f' => '\x0c'
  | 'n' => '\n'
  | 'r' => '\x0d'
  | 't' => '\t'
  | 'v' => '\x0b'
  | c => c

/-- The loop of `copy_out_string`: what it adds to the token, and where it stops. -/
def copyLoop : Str → Option (Str × Str)
  | [] => none
  | c :: b =>
    if c = nul ∨ c = '"' then some ([], c :: b)
    else if c = '\\' then
      match b with
      | [] => none
      -- a NUL is taken as well, and the loop goes on behind it
      | d :: b => (copyLoop b).map fun r => (escaped d :: r.1, r.2)
    else (copyLoop b).map fun r => (c :: r.1, r.2)

/-- `if (*b != '\0') b++;`, which gets rid of the ending quote. -/
def skipQuote : Str → Str
  | [] => []
  | c :: b => if c = nul then c :: b else b

/-- `copy_out_string`. -/
def copyOutString : Str → Option (Str × Str)
  | [] => none
  | c :: b =>
    if c ≠ '"' then some ([], c :: b)
    else (copyLoop b).map fun r => (r.1, skipQuote r.2)

/-- The loop of `next_token`: the token, and where it stops. -/
def tokenLoop : Nat → Str → Option (Str × Str)
  | 0, _ => none
  | _, [] => none
  | fuel + 1, c :: b =>
    if c = nul ∨ inSet white_space c then some ([], c :: b)
    else if c = '"' then
      (copyOutString (c :: b)).bind fun r =>
        (tokenLoop fuel r.2.tail).map fun r' => (r.1 ++ r'.1, r'.2)
    else if inSet delimiter c then some ([], c :: b)
    else (tokenLoop fuel b).map fun r => (c :: r.1, r.2)

/-- `while (in_set(white_space, *b)) b++;` -/
def skipWhite : Str → Option Str
  | [] => none
  | c :: b => if inSet white_space c then skipWhite b else some (c :: b)

/-- What `next_token` does behind the white space. The new position is counted from the end of the
buffer. -/
def tokenFrom (size : Nat) (b : Str) : Option (Option Str × Int) :=
  match b with
  | [] => none
  | c :: rest =>
    if c = nul then some (none, -1)
    else if inSet delimiter c then some (some [c], size - rest.length)
    else (tokenLoop b.length b).map fun r => (some (cstr r.1), size - r.2.length)

/-- `next_token`: the token, if there is one, and the new position. -/
def nextToken (buf : Str) (pos : Int) : Option (Option Str × Int) :=
  if pos < 0 then some (none, pos)
  else
    match buf.drop pos.toNat with
    | [] => none
    | c :: b =>
      if c = nul then some (none, -1)
      else (skipWhite (c :: b)).bind (tokenFrom buf.length)

/-! ## The loops without fuel -/

/-- A character that ends a token. -/
def Ends (c : Char) : Prop := c = nul ∨ inSet white_space c ∨ inSet delimiter c

/-- A character that stands for itself in a token. -/
def Plain (c : Char) : Prop := ¬Ends c ∧ c ≠ '"'

instance (c : Char) : Decidable (Ends c) := inferInstanceAs (Decidable (_ ∨ _))
instance (c : Char) : Decidable (Plain c) := inferInstanceAs (Decidable (_ ∧ _))

/-- The quotes are no end of a token. -/
theorem not_ends_quote : ¬Ends '"' := by decide

variable {b m x t : Str} {c : Char}

/-- A quoted part ends at its mark or at the NUL. -/
theorem copyLoop_end (hc : c = nul ∨ c = '"') (b : Str) :
    copyLoop (c :: b) = some ([], c :: b) := by
  rw [copyLoop.eq_def]
  exact if_pos hc

/-- An escape stands for its character. -/
theorem copyLoop_escape (d : Char) (b : Str) :
    copyLoop ('\\' :: d :: b) = (copyLoop b).map fun r => (escaped d :: r.1, r.2) := by
  rw [copyLoop.eq_def]
  exact if_neg (by decide)

/-- Every other character stands for itself. -/
theorem copyLoop_char (hc : ¬(c = nul ∨ c = '"')) (he : c ≠ '\\') (b : Str) :
    copyLoop (c :: b) = (copyLoop b).map fun r => (c :: r.1, r.2) := by
  rw [copyLoop.eq_def]
  simp only [if_neg hc, if_neg he]

/-- What is left is the rest of the text. -/
theorem copyLoop_suffix {r : Str × Str} (h : copyLoop b = some r) : r.2 <:+ b := by
  fun_induction copyLoop b generalizing r with
  | case1 => cases h
  | case2 c b hc =>
    cases h
    exact List.suffix_refl _
  | case3 => cases h
  | case4 d b hc ih =>
    obtain ⟨r', hr, rfl⟩ := Option.map_eq_some_iff.mp h
    have hsuffix := ih hr
    exact hsuffix.trans ((List.suffix_cons ..).trans (List.suffix_cons ..))
  | case5 c b hc hb ih =>
    obtain ⟨r', hr, rfl⟩ := Option.map_eq_some_iff.mp h
    have hsuffix := ih hr
    exact hsuffix.trans (List.suffix_cons ..)

/-- A closing mark is skipped. -/
theorem skipQuote_suffix (b : Str) : skipQuote b <:+ b := by
  cases b with
  | nil => exact List.suffix_refl _
  | cons c b =>
    rw [skipQuote]
    split
    · exact List.suffix_refl _
    · exact List.suffix_cons ..

/-- Behind a quoted string, the pointer has moved. -/
theorem copyOutString_suffix {r : Str × Str} (h : copyOutString ('"' :: b) = some r) :
    r.2 <:+ b := by
  rw [copyOutString, if_neg (not_not_intro rfl)] at h
  obtain ⟨r', hr, rfl⟩ := Option.map_eq_some_iff.mp h
  exact (skipQuote_suffix r'.2).trans (copyLoop_suffix hr)

/-- There is fuel for all of the memory. -/
theorem tokenLoop_fuel {n k : Nat} (hn : b.length ≤ n) (hk : b.length ≤ k) :
    tokenLoop n b = tokenLoop k b := by
  induction n generalizing k b with
  | zero =>
    obtain rfl : b = [] := List.eq_nil_of_length_eq_zero (Nat.le_zero.mp hn)
    cases k <;> rfl
  | succ n ih =>
    cases b with
    | nil => cases k <;> rfl
    | cons c b =>
      obtain ⟨k, rfl⟩ : ∃ j, k = j + 1 := ⟨k - 1, by simp only [List.length_cons] at hk; omega⟩
      rw [List.length_cons] at hn hk
      rw [tokenLoop, tokenLoop]
      split
      · rfl
      split
      · next hc =>
        subst hc
        cases hr : copyOutString ('"' :: b) with
        | none => rfl
        | some r =>
          have hlen := (copyOutString_suffix hr).length_le
          have htail : r.2.tail.length ≤ b.length := by
            rw [List.length_tail]
            omega
          have htail' := ih (k := k) (b := r.2.tail) (by omega) (by omega)
          rw [Option.bind_some, Option.bind_some, htail']
      split
      · rfl
      · have hrest := ih (k := k) (b := b) (by omega) (by omega)
        rw [hrest]

/-- The loop of `next_token`, with fuel for all of the memory. -/
def scan (b : Str) : Option (Str × Str) := tokenLoop b.length b

/-- A token ends at such a character. -/
theorem scan_ends (hc : Ends c) (b : Str) : scan (c :: b) = some ([], c :: b) := by
  have hq : c ≠ '"' := by
    rintro rfl
    exact not_ends_quote hc
  rw [scan, List.length_cons, tokenLoop]
  by_cases h : c = nul ∨ inSet white_space c
  · rw [if_pos h]
  · have hd : inSet delimiter c = true := by
      rcases hc with hc | hc | hc
      · exact absurd (.inl hc) h
      · exact absurd (.inr hc) h
      · exact hc
    rw [if_neg h, if_neg hq, if_pos hd]

/-- A plain character belongs to it. -/
theorem scan_plain (hc : Plain c) (b : Str) :
    scan (c :: b) = (scan b).map fun r => (c :: r.1, r.2) := by
  obtain ⟨hends, hq⟩ := hc
  simp only [Ends, not_or] at hends
  rw [scan, List.length_cons, tokenLoop, if_neg (by simp [hends.1, hends.2.1]), if_neg hq,
    if_neg hends.2.2, scan]

/-- A quoted part does as a whole. -/
theorem scan_quote (b : Str) :
    scan ('"' :: b) = (copyOutString ('"' :: b)).bind fun r =>
      (scan r.2.tail).map fun r' => (r.1 ++ r'.1, r'.2) := by
  rw [scan, List.length_cons, tokenLoop, if_neg (by decide), if_pos rfl]
  cases hr : copyOutString ('"' :: b) with
  | none => rfl
  | some r =>
    have hlen := (copyOutString_suffix hr).length_le
    have htail : r.2.tail.length ≤ b.length := by
      rw [List.length_tail]
      omega
    rw [Option.bind_some, Option.bind_some, tokenLoop_fuel htail (Nat.le_refl _), scan]

/-- The three kinds of characters. -/
theorem ends_or_plain (c : Char) : Ends c ∨ c = '"' ∨ Plain c := by
  by_cases he : Ends c
  · exact .inl he
  · by_cases hq : c = '"'
    · exact .inr (.inl hq)
    · exact .inr (.inr ⟨he, hq⟩)

/-! ## What is behind the memory that is read -/

/-- What is read inside a block of memory does not depend on what is behind it. -/
theorem copyLoop_append {r : Str × Str} (h : copyLoop m = some r) (x : Str) :
    copyLoop (m ++ x) = some (r.1, r.2 ++ x) := by
  fun_induction copyLoop m generalizing r with
  | case1 => cases h
  | case2 c b hc =>
    cases h
    exact copyLoop_end hc _
  | case3 => cases h
  | case4 d b hc ih =>
    obtain ⟨r', hr, rfl⟩ := Option.map_eq_some_iff.mp h
    rw [List.cons_append, List.cons_append, copyLoop_escape, ih hr]
    rfl
  | case5 c b hc hb ih =>
    obtain ⟨r', hr, rfl⟩ := Option.map_eq_some_iff.mp h
    rw [List.cons_append, copyLoop_char hc hb, ih hr]
    rfl

/-- The loop stops at a character. -/
theorem copyLoop_stop {r : Str × Str} (h : copyLoop m = some r) :
    ∃ c b, r.2 = c :: b ∧ (c = nul ∨ c = '"') := by
  fun_induction copyLoop m generalizing r with
  | case1 => cases h
  | case2 c b hc =>
    cases h
    exact ⟨c, b, rfl, hc⟩
  | case3 => cases h
  | case4 d b hc ih =>
    obtain ⟨r', hr, rfl⟩ := Option.map_eq_some_iff.mp h
    have hstop := ih hr
    exact hstop
  | case5 c b hc hb ih =>
    obtain ⟨r', hr, rfl⟩ := Option.map_eq_some_iff.mp h
    have hstop := ih hr
    exact hstop

/-- So it is with a string and its marks. -/
theorem copyOutString_append {r : Str × Str} (h : copyOutString ('"' :: m) = some r) (x : Str) :
    copyOutString ('"' :: (m ++ x)) = some (r.1, r.2 ++ x) := by
  rw [copyOutString, if_neg (not_not_intro rfl)] at h ⊢
  obtain ⟨r', hr, rfl⟩ := Option.map_eq_some_iff.mp h
  obtain ⟨c, b, hb, -⟩ := copyLoop_stop hr
  have hskip : skipQuote (r'.2 ++ x) = skipQuote r'.2 ++ x := by
    rw [hb, List.cons_append, skipQuote, skipQuote]
    split <;> rfl
  rw [copyLoop_append hr x, Option.map_some, hskip]

/-- So it is with a whole token. -/
theorem scan_append {r : Str × Str} (h : scan m = some r) (x : Str) :
    scan (m ++ x) = some (r.1, r.2 ++ x) := by
  induction hn : m.length using Nat.strongRecOn generalizing m r with
  | ind n ih =>
    cases m with
    | nil => cases h
    | cons c m =>
      rw [List.length_cons] at hn
      rcases ends_or_plain c with hc | rfl | hc
      · rw [scan_ends hc] at h
        cases h
        exact scan_ends hc _
      · rw [scan_quote] at h
        obtain ⟨r', hr, h⟩ := Option.bind_eq_some_iff.mp h
        obtain ⟨r'', hr', rfl⟩ := Option.map_eq_some_iff.mp h
        have hlen := (copyOutString_suffix hr).length_le
        cases hb : r'.2 with
        | nil =>
          rw [hb] at hr'
          cases hr'
        | cons d b =>
          rw [hb, List.tail_cons] at hr'
          rw [hb, List.length_cons] at hlen
          have hrest := ih b.length (by omega) hr' rfl
          rw [List.cons_append, scan_quote, copyOutString_append hr x, Option.bind_some, hb]
          simp only [List.cons_append, List.tail_cons, hrest]
          rfl
      · rw [scan_plain hc] at h
        obtain ⟨r', hr, rfl⟩ := Option.map_eq_some_iff.mp h
        rw [List.cons_append, scan_plain hc, ih m.length (by omega) hr rfl]
        rfl

/-- So it is with what is skipped. -/
theorem skipWhite_append {r : Str} (h : skipWhite m = some r) (x : Str) :
    skipWhite (m ++ x) = some (r ++ x) := by
  fun_induction skipWhite m generalizing r with
  | case1 => cases h
  | case2 c b hc ih => rw [List.cons_append, skipWhite, if_pos hc, ih h]
  | case3 c b hc =>
    cases h
    rw [List.cons_append, skipWhite, if_neg hc]

/-! ## From one token to the next -/

theorem not_white_nul : inSet white_space nul = false := by decide

/-- A position in the buffer is looked at from the white space on. -/
theorem nextToken_skipWhite {buf : Str} {pos : Int} (hp : 0 ≤ pos) :
    nextToken buf pos = (skipWhite (buf.drop pos.toNat)).bind (tokenFrom buf.length) := by
  rw [nextToken, if_neg (Int.not_lt.mpr hp)]
  cases buf.drop pos.toNat with
  | nil => rfl
  | cons c b =>
    by_cases hc : c = nul
    · subst hc
      rw [skipWhite, if_neg (by simp [not_white_nul]), Option.bind_some, tokenFrom]
      rfl
    · simp only [if_neg hc]

/-- The next token from a pointer on, and the pointer behind it. -/
def tokenIn (b : Str) : Option (Option (Str × Str)) := do
  match ← skipWhite b with
  | [] => none
  | c :: rest =>
    if c = nul then return none
    else if inSet delimiter c then return some ([c], rest)
    else (scan (c :: rest)).map fun r => some (cstr r.1, r.2)

/-- Positions are pointers. -/
theorem nextToken_tokenIn (pre b : Str) :
    nextToken (pre ++ b) pre.length = (tokenIn b).map fun
      | none => (none, -1)
      | some (tok, rest) => (some tok, ((pre ++ b).length : Int) - rest.length) := by
  have hdrop : (pre ++ b).drop (pre.length : Int).toNat = b := by
    rw [Int.toNat_natCast, List.drop_left]
  rw [nextToken_skipWhite (Int.natCast_nonneg _), hdrop]
  cases hs : skipWhite b with
  | none => simp [tokenIn, hs]
  | some b' =>
    simp only [tokenIn, hs, Option.bind_eq_bind, Option.bind_some]
    cases b' with
    | nil => rfl
    | cons c rest =>
      simp only [tokenFrom]
      split
      · rfl
      split
      · rfl
      · show (scan (c :: rest)).map _ = ((scan (c :: rest)).map _).map _
        rw [Option.map_map]
        rfl

/-- The loop stops behind where it begins. -/
theorem scan_suffix {r : Str × Str} (h : scan m = some r) : r.2 <:+ m := by
  induction hn : m.length using Nat.strongRecOn generalizing m r with
  | ind n ih =>
    cases m with
    | nil => cases h
    | cons c m =>
      rw [List.length_cons] at hn
      rcases ends_or_plain c with hc | rfl | hc
      · rw [scan_ends hc] at h
        cases h
        exact List.suffix_refl _
      · rw [scan_quote] at h
        obtain ⟨r', hr, h⟩ := Option.bind_eq_some_iff.mp h
        obtain ⟨r'', hr', rfl⟩ := Option.map_eq_some_iff.mp h
        have hsuffix := copyOutString_suffix hr
        have hlen := hsuffix.length_le
        have htail : r'.2.tail.length < n := by
          rw [List.length_tail]
          omega
        exact ((ih _ htail hr' rfl).trans (List.tail_suffix _)).trans
          (hsuffix.trans (List.suffix_cons ..))
      · rw [scan_plain hc] at h
        obtain ⟨r', hr, rfl⟩ := Option.map_eq_some_iff.mp h
        exact (ih m.length (by omega) hr rfl).trans (List.suffix_cons ..)

/-- A character that does not end a token is a part of it. -/
theorem scan_rest (hc : ¬Ends c) {r : Str × Str} (h : scan (c :: m) = some r) : r.2 <:+ m := by
  rcases ends_or_plain c with hc' | rfl | hc'
  · exact absurd hc' hc
  · rw [scan_quote] at h
    obtain ⟨r', hr, h⟩ := Option.bind_eq_some_iff.mp h
    obtain ⟨r'', hr', rfl⟩ := Option.map_eq_some_iff.mp h
    exact ((scan_suffix hr').trans (List.tail_suffix _)).trans (copyOutString_suffix hr)
  · rw [scan_plain hc'] at h
    obtain ⟨r', hr, rfl⟩ := Option.map_eq_some_iff.mp h
    have hsuffix := scan_suffix hr
    exact hsuffix

/-- What is left after the white space begins with something else. -/
theorem skipWhite_some {b : Str} (h : skipWhite m = some b) :
    b <:+ m ∧ ∀ c ∈ b.head?, ¬inSet white_space c := by
  fun_induction skipWhite m with
  | case1 => cases h
  | case2 c m hc ih => exact ⟨(ih h).1.trans (List.suffix_cons ..), (ih h).2⟩
  | case3 c m hc =>
    cases h
    refine ⟨List.suffix_refl _, ?_⟩
    rintro d ⟨⟩
    exact hc

/-- Behind a token there is less memory. -/
theorem tokenIn_rest {tok rest : Str} (h : tokenIn b = some (some (tok, rest))) :
    rest <:+ b ∧ rest.length < b.length := by
  obtain ⟨m, hskip, htok⟩ := Option.bind_eq_some_iff.mp h
  obtain ⟨hsuffix, hwhite⟩ := skipWhite_some hskip
  cases m with
  | nil => cases htok
  | cons c m =>
    have hrest : rest <:+ m := by
      simp only at htok
      split at htok
      · cases htok
      · next hc =>
        split at htok
        · cases htok
          exact List.suffix_refl _
        · next hd =>
          obtain ⟨r, hr, he⟩ := Option.map_eq_some_iff.mp htok
          cases he
          refine scan_rest (fun hends => ?_) hr
          rcases hends with hn | hw | hdelim
          · exact hc hn
          · exact hwhite c rfl hw
          · exact hd hdelim
    have hlen := hrest.length_le
    have hle := hsuffix.length_le
    rw [List.length_cons] at hle
    exact ⟨hrest.trans ((List.suffix_cons ..).trans hsuffix), by omega⟩

/-- A position in the buffer is a pointer. -/
theorem nextToken_drop {buf : Str} {pos : Int} (hp : 0 ≤ pos) :
    nextToken buf pos = (tokenIn (buf.drop pos.toNat)).map fun
      | none => (none, -1)
      | some (tok, rest) => (some tok, (buf.length : Int) - rest.length) := by
  rcases Nat.lt_or_ge buf.length pos.toNat with hlt | hle
  · have hdrop : buf.drop pos.toNat = [] := List.drop_eq_nil_of_le (Nat.le_of_lt hlt)
    rw [nextToken_skipWhite hp, hdrop]
    rfl
  · have hnext := nextToken_tokenIn (buf.take pos.toNat) (buf.drop pos.toNat)
    rw [List.take_append_drop, List.length_take_of_le hle, Int.toNat_of_nonneg hp] at hnext
    exact hnext

/-- A token ends behind the position where it is looked for. -/
theorem nextToken_moves {buf : Str} {pos pos' : Int} {tok : Option Str} (hp : 0 ≤ pos)
    (h : nextToken buf pos = some (tok, pos')) : pos' = -1 ∨ pos < pos' := by
  rw [nextToken_drop hp] at h
  obtain ⟨r, hr, he⟩ := Option.map_eq_some_iff.mp h
  cases r with
  | none =>
    cases he
    exact .inl rfl
  | some r =>
    have hlen := (tokenIn_rest hr).2
    rw [List.length_drop] at hlen
    cases he
    exact .inr (by omega)

end Spegla
