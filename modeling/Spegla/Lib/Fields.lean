import Mathlib.Data.List.TakeWhile
import Spegla.Lib.CString

/-!
# Fields of a text

Words and decimal numerals as a program writes them, and what the C library reads back from them.

- `Word`: a text that is one token between blanks. `strtokNext_word`: the tokenizer finds it.
- `decimal`, `twoDigits`: numerals. `numeral_digits`: a numeral is read up to the first character
  that is not a digit; from it `strtol`, `scanInt` and `scanInts`.
- `strstr_first`, `strstr_some`: the first occurrence of a text.
-/

namespace CString

/-! ## Words -/

/-- Not empty, and without a blank. -/
def Word (w : Str) : Prop := w ≠ [] ∧ ' ' ∉ w

instance (w : Str) : Decidable (Word w) := inferInstanceAs (Decidable (_ ∧ _))

theorem Word.colon {v w : Str} (hv : Word v) (hw : Word w) : Word (v ++ ':' :: w) := by
  refine ⟨by simp, fun h => ?_⟩
  rcases List.mem_append.mp h with h | h
  · exact hv.2 h
  · rcases List.mem_cons.mp h with h | h
    · exact absurd h (by decide)
    · exact hw.2 h

theorem takeWhile_notMem {c : Char} {w : Str} (hw : c ∉ w) (rest : Str) :
    (w ++ c :: rest).takeWhile (· ≠ c) = w ∧ (w ++ c :: rest).dropWhile (· ≠ c) = c :: rest := by
  induction w with
  | nil => simp
  | cons x w ih =>
    rw [List.mem_cons, not_or] at hw
    have hx : x ≠ c := fun h => hw.1 h.symm
    obtain ⟨htake, hdrop⟩ := ih hw.2
    rw [List.cons_append, List.takeWhile_cons_of_pos (by simpa using hx),
      List.dropWhile_cons_of_pos (by simpa using hx), htake, hdrop]
    exact ⟨rfl, rfl⟩

/-- A word and a blank: the tokenizer takes the word and goes on behind the blank. -/
theorem strtok_word {w : Str} (hw : Word w) (rest : Str) :
    strtok ' ' (w ++ ' ' :: rest) = some (w, some rest) := by
  obtain ⟨hne, hblank⟩ := hw
  obtain ⟨htake, hdrop⟩ := takeWhile_notMem hblank rest
  have hskip : (w ++ ' ' :: rest).dropWhile (· = ' ') = w ++ ' ' :: rest := by
    cases w with
    | nil => exact absurd rfl hne
    | cons x w =>
      rw [List.mem_cons, not_or] at hblank
      have hx : x ≠ ' ' := fun h => hblank.1 h.symm
      exact List.dropWhile_cons_of_neg (by simpa using hx)
  have hcons : w ++ ' ' :: rest ≠ [] := by simp
  unfold strtok
  rw [hskip]
  split
  · next h => exact absurd h hcons
  · rw [htake, hdrop]

theorem strtokNext_word {w : Str} (hw : Word w) (rest : Str) :
    strtokNext ' ' (some (w ++ ' ' :: rest)) = some (w, some rest) := strtok_word hw rest

theorem strtokSkip_word {w : Str} (hw : Word w) (rest : Str) :
    strtokSkip ' ' (some (w ++ ' ' :: rest)) = some rest := by
  rw [strtokSkip, strtokNext_word hw]
  rfl

/-! ## Numerals -/

/-- `%d` of `printf`, of a number that is not negative. -/
def decimal (n : Nat) : Str := Nat.toDigits 10 n

/-- `%02d` of `printf`, of such a number. -/
def twoDigits (n : Nat) : Str := if n < 10 then '0' :: decimal n else decimal n

/-- A numeral without a sign. -/
structure IsNumeral (ds : Str) (n : Nat) : Prop where
  ne_nil : ds ≠ []
  isDigit : ∀ c ∈ ds, c.isDigit
  value : digitsVal ds = n

theorem digitsVal_eq (ds : Str) : digitsVal ds = Nat.ofDigitChars 10 ds 0 :=
  Nat.ofDigitChars_eq_foldl.symm

theorem decimal_isNumeral (n : Nat) : IsNumeral (decimal n) n where
  ne_nil := Nat.toDigits_ne_nil
  isDigit := fun _ hc => Nat.isDigit_of_mem_toDigits (by decide) (by decide) hc
  value := by
    rw [digitsVal_eq, decimal]
    exact Nat.ofDigitChars_toDigits (by decide) (by decide)

theorem twoDigits_isNumeral (n : Nat) : IsNumeral (twoDigits n) n := by
  have h := decimal_isNumeral n
  unfold twoDigits
  split
  · refine ⟨List.cons_ne_nil _ _, ?_, ?_⟩
    · exact List.forall_mem_cons.mpr ⟨by decide, h.isDigit⟩
    · exact h.value
  · exact h

theorem isDigit_ne {c d : Char} (hc : c.isDigit) (hd : d.isDigit = false) : c ≠ d := by
  rintro rfl
  rw [hd] at hc
  exact absurd hc (by decide)

theorem IsNumeral.word {ds : Str} {n : Nat} (h : IsNumeral ds n) : Word ds :=
  ⟨h.ne_nil, fun hc => isDigit_ne (h.isDigit _ hc) (by decide) rfl⟩

/-- A numeral is read as far as its digits go. -/
theorem numeral_digits {ds : Str} {n : Nat} (h : IsNumeral ds n) {rest : Str}
    (hrest : ∀ c ∈ rest.head?, c.isDigit = false) :
    numeral (ds ++ rest) = some ((n : Int), rest) := by
  obtain ⟨c, ds', rfl⟩ := List.exists_cons_of_ne_nil h.ne_nil
  have hc : c.isDigit := h.isDigit c List.mem_cons_self
  have hspace : ¬isspace c = true := by
    simp only [isspace, Bool.or_eq_true, decide_eq_true_eq, not_or]
    refine ⟨⟨⟨⟨⟨?_, ?_⟩, ?_⟩, ?_⟩, ?_⟩, ?_⟩ <;> exact isDigit_ne hc (by decide)
  have hsign : sign (c :: ds' ++ rest) = (false, c :: ds' ++ rest) := by
    unfold sign
    split
    · next heq => exact absurd (List.cons.inj heq).1 (isDigit_ne hc (by decide))
    · next heq => exact absurd (List.cons.inj heq).1 (isDigit_ne hc (by decide))
    · rfl
  have htake : (c :: ds' ++ rest).takeWhile Char.isDigit = c :: ds' := by
    rw [List.takeWhile_append_of_pos h.isDigit]
    cases rest with
    | nil => simp
    | cons d rest => simp [hrest d rfl]
  have hdrop : (c :: ds' ++ rest).dropWhile Char.isDigit = rest := by
    rw [List.dropWhile_append_of_pos h.isDigit]
    cases rest with
    | nil => simp
    | cons d rest => simp [hrest d rfl]
  unfold numeral
  simp only
  rw [List.cons_append, List.dropWhile_cons_of_neg hspace, ← List.cons_append, hsign]
  simp only [htake, hdrop, h.value]
  simp

theorem strtol_digits {ds : Str} {n : Nat} (h : IsNumeral ds n) (hn : n < 2 ^ 63) :
    strtol ds = ((n : Int), []) := by
  have hnum : numeral ds = some ((n : Int), []) := by
    have := numeral_digits h (show ∀ c ∈ ([] : Str).head?, c.isDigit = false by simp)
    rwa [List.append_nil] at this
  unfold strtol
  rw [hnum]
  show (clampLong n, []) = _
  have hclamp : clampLong n = n := by
    unfold clampLong
    omega
  rw [hclamp]

/-- The numeral is an `int` whatever its value is. -/
theorem scanInt_digits {ds : Str} {n : Nat} (h : IsNumeral ds n) {rest : Str}
    (hrest : ∀ c ∈ rest.head?, c.isDigit = false) :
    scanInt (ds ++ rest) = some (toInt (clampLong n), rest) := by
  rw [scanInt, numeral_digits h hrest]
  rfl

/-! ## The first occurrence of a text -/

theorem strstr_some {needle : Str} : ∀ {s p q : Str}, strstr needle s = some (p, q) →
    s = p ++ q ∧ needle <+: q := by
  intro s
  induction s with
  | nil =>
    intro p q h
    rw [strstr] at h
    split at h
    · next hn =>
      obtain ⟨rfl, rfl⟩ := Prod.mk.inj (Option.some.inj h)
      exact ⟨rfl, hn ▸ List.prefix_refl _⟩
    · simp at h
  | cons c s ih =>
    intro p q h
    rw [strstr] at h
    split at h
    · next hpre =>
      obtain ⟨rfl, rfl⟩ := Prod.mk.inj (Option.some.inj h)
      exact ⟨rfl, List.isPrefixOf_iff_prefix.mp hpre⟩
    · obtain ⟨⟨p', q'⟩, hp, heq⟩ := Option.map_eq_some_iff.mp h
      obtain ⟨rfl, rfl⟩ := Prod.mk.inj heq
      obtain ⟨hs, hneedle⟩ := ih hp
      exact ⟨by rw [hs]; rfl, hneedle⟩

/-- An occurrence at the beginning is the first one. -/
theorem strstr_prefix {needle s : Str} (h : needle <+: s) : strstr needle s = some ([], s) := by
  cases s with
  | nil =>
    have hnil : needle = [] := List.prefix_nil.mp h
    simp [strstr, hnil]
  | cons c s => rw [strstr, if_pos (List.isPrefixOf_iff_prefix.mpr h)]

/-- A text that is put together at the first occurrence. -/
theorem strstr_first {needle t : Str} : ∀ {p : Str},
    (∀ p₁ p₂, p = p₁ ++ p₂ → p₂ ≠ [] → ¬needle <+: p₂ ++ (needle ++ t)) →
    strstr needle (p ++ (needle ++ t)) = some (p, needle ++ t) := by
  intro p
  induction p with
  | nil =>
    intro _
    cases hneedle : needle ++ t with
    | nil =>
      have hnil : needle = [] := (List.append_eq_nil_iff.mp hneedle).1
      simp [strstr, hnil]
    | cons c s =>
      rw [List.nil_append, strstr, if_pos]
      rw [← hneedle]
      exact List.isPrefixOf_iff_prefix.mpr (List.prefix_append _ _)
  | cons c p ih =>
    intro h
    have hpre := h [] (c :: p) rfl (List.cons_ne_nil _ _)
    rw [List.cons_append, strstr, if_neg]
    · rw [ih fun p₁ p₂ hp hne => h (c :: p₁) p₂ (by rw [hp]; rfl) hne]
      rfl
    · exact fun hpos => hpre (List.isPrefixOf_iff_prefix.mp hpos)

end CString
