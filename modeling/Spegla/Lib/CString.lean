import Mathlib.Algebra.Group.Int.Defs
import Mathlib.Algebra.Group.Nat.Defs
import Mathlib.Data.List.Basic
import Mathlib.Data.List.TakeWhile
import Mathlib.Tactic.Common

/-!
# C strings

The parts of the C string library a text-processing C program leans on, over
strings as lists of characters. A C `char` is a Lean `Char`: the bytes 0 to 255
are the first 256 characters, and nothing below looks at a character's size. A
string stands without its terminating NUL.

- `strcmp`, `strstr`, `afterLast` (`rindex(s, c) + 1`): comparison and search.
- `strtok`: one step of the tokenizer. The saved pointer is `some rest` after a
  token that a delimiter ended and `none` after one that the NUL ended; the two
  differ in where the byte after the token lies.
- `strtol`, `scanInt`, `scanInts`: numerals in base ten.
- `fgets`: one line, or as much of it as the buffer holds.
-/

namespace CString

/-- A C string without its terminating NUL. -/
abbrev Str := List Char

/-- The character that ends a C string. -/
def nul : Char := '\x00'

/-- The C string at the start of a block of memory: everything before the NUL. -/
def cstr (s : Str) : Str := s.takeWhile (· ≠ nul)

/-! ## Strings in memory -/

theorem cstr_length_le (s : Str) : (cstr s).length ≤ s.length :=
  (List.takeWhile_prefix _).length_le

theorem nul_notMem_cstr (s : Str) : nul ∉ cstr s := by
  intro h
  have := List.mem_takeWhile_imp h
  simp at this

theorem cstr_append {p t : Str} (hp : nul ∉ p) : cstr (p ++ nul :: t) = p := by
  induction p with
  | nil => simp [cstr]
  | cons c p ih =>
    rw [List.mem_cons, not_or] at hp
    have hc : c ≠ nul := fun h => hp.1 h.symm
    show cstr (c :: (p ++ nul :: t)) = c :: p
    rw [show cstr (c :: (p ++ nul :: t)) = c :: cstr (p ++ nul :: t) by simp [cstr, hc], ih hp.2]

theorem cstr_eq_self {s : Str} (hs : nul ∉ s) : cstr s = s := by
  refine List.takeWhile_eq_self_iff.mpr fun c hc => ?_
  have : c ≠ nul := fun h => hs (h ▸ hc)
  simpa using this

theorem cstr_mem_append {s : Str} (h : nul ∈ s) (x : Str) : cstr (s ++ x) = cstr s := by
  induction s with
  | nil => cases h
  | cons c s ih =>
    by_cases hc : c = nul
    · simp [cstr, hc]
    · have hmem : nul ∈ s := (List.mem_cons.mp h).resolve_left (Ne.symm hc)
      have hcons : ∀ s, cstr (c :: s) = c :: cstr s :=
        fun s => List.takeWhile_cons_of_pos (by simp [hc])
      rw [List.cons_append, hcons, hcons, ih hmem]

/-- A string, and what is behind it in memory: nothing that is known, or a NUL. -/
theorem cstr_eq {s w : Str} (h : cstr s = w) :
    ∃ t, s = w ++ t ∧ nul ∉ w ∧ (t = [] ∨ ∃ u, t = nul :: u) := by
  subst h
  refine ⟨s.dropWhile (· ≠ nul), List.takeWhile_append_dropWhile.symm, nul_notMem_cstr s, ?_⟩
  cases ht : s.dropWhile (· ≠ nul) with
  | nil => exact Or.inl rfl
  | cons c u =>
    have := List.head?_dropWhile_not (· ≠ nul) s
    rw [ht] at this
    exact Or.inr ⟨u, by simpa using this⟩

/-! ## Comparison and search -/

/-- `strcmp`: negative, zero or positive as `a` is before, equal to or after `b`. -/
def strcmp : Str → Str → Int
  | [], [] => 0
  | [], _ :: _ => -1
  | _ :: _, [] => 1
  | a :: as, b :: bs =>
    if a.toNat < b.toNat then -1 else if b.toNat < a.toNat then 1 else strcmp as bs

/-- `strstr`: the text before the first occurrence of `needle` and the text that
starts with it. -/
def strstr (needle : Str) : Str → Option (Str × Str)
  | [] => if needle = [] then some ([], []) else none
  | c :: s =>
    if needle.isPrefixOf (c :: s) then some ([], c :: s)
    else (strstr needle s).map fun p => (c :: p.1, p.2)

/-- `rindex(s, c) + 1`: the text behind the last `c`, if there is one. -/
def afterLast (c : Char) : Str → Option Str
  | [] => none
  | x :: s =>
    match afterLast c s with
    | some t => some t
    | none => if x = c then some s else none

theorem strcmp_self : ∀ a : Str, strcmp a a = 0
  | [] => rfl
  | a :: as => by
    rw [strcmp, if_neg (Nat.lt_irrefl _), if_neg (Nat.lt_irrefl _)]
    exact strcmp_self as

theorem strcmp_antisymm : ∀ a b : Str, strcmp b a = -strcmp a b
  | [], [] => rfl
  | [], _ :: _ => rfl
  | _ :: _, [] => rfl
  | a :: as, b :: bs => by
    rw [strcmp, strcmp]
    rcases Nat.lt_trichotomy a.toNat b.toNat with h | h | h
    · rw [if_neg (Nat.not_lt.mpr (Nat.le_of_lt h)), if_pos h, if_pos h]
      rfl
    · rw [h]
      simp only [Nat.lt_irrefl, if_false]
      exact strcmp_antisymm as bs
    · rw [if_pos h, if_neg (Nat.not_lt.mpr (Nat.le_of_lt h)), if_pos h]

theorem strcmp_eq_zero : ∀ {a b : Str}, strcmp a b = 0 → a = b
  | [], [], _ => rfl
  | [], _ :: _, h => by simp [strcmp] at h
  | _ :: _, [], h => by simp [strcmp] at h
  | a :: as, b :: bs, h => by
    rw [strcmp] at h
    split at h
    · simp at h
    · split at h
      · simp at h
      · next h₁ h₂ =>
        have hab : a = b := Char.toNat_inj.mp (Nat.le_antisymm (by omega) (by omega))
        rw [hab, strcmp_eq_zero h]

theorem strcmp_eq_zero_iff {a b : Str} : strcmp a b = 0 ↔ a = b :=
  ⟨strcmp_eq_zero, fun h => h ▸ strcmp_self a⟩

/-- `strcmp` orders strings transitively. -/
theorem strcmp_neg_trans :
    ∀ {a b c : Str}, strcmp a b < 0 → strcmp b c < 0 → strcmp a c < 0
  | [], [], _, h, _ => absurd h (by decide)
  | [], _ :: _, [], _, h => absurd h (by simp [strcmp])
  | [], _ :: _, _ :: _, _, _ => by simp [strcmp]
  | _ :: _, [], _, h, _ => absurd h (by simp [strcmp])
  | _ :: _, _ :: _, [], _, h => absurd h (by simp [strcmp])
  | a :: as, b :: bs, c :: cs, h₁, h₂ => by
    rw [strcmp] at h₁ h₂ ⊢
    by_cases hab : a.toNat < b.toNat
    · by_cases hbc : b.toNat < c.toNat
      · rw [if_pos (by omega)]
        decide
      · rw [if_neg hbc] at h₂
        by_cases hcb : c.toNat < b.toNat
        · rw [if_pos hcb] at h₂
          exact absurd h₂ (by decide)
        · rw [if_pos (by omega)]
          decide
    · rw [if_neg hab] at h₁
      by_cases hba : b.toNat < a.toNat
      · rw [if_pos hba] at h₁
        exact absurd h₁ (by decide)
      · rw [if_neg hba] at h₁
        by_cases hbc : b.toNat < c.toNat
        · rw [if_pos (by omega)]
          decide
        · rw [if_neg hbc] at h₂
          by_cases hcb : c.toNat < b.toNat
          · rw [if_pos hcb] at h₂
            exact absurd h₂ (by decide)
          · rw [if_neg hcb] at h₂
            rw [if_neg (by omega), if_neg (by omega)]
            exact strcmp_neg_trans h₁ h₂

theorem afterLast_ne_none {c : Char} : ∀ {s : Str}, c ∈ s → afterLast c s ≠ none
  | [], hmem, _ => by simp at hmem
  | y :: s, hmem, h => by
    rw [afterLast] at h
    cases hs : afterLast c s with
    | some u => rw [hs] at h; simp at h
    | none =>
      rw [hs] at h
      rcases List.mem_cons.mp hmem with hy | hy
      · simp [hy] at h
      · exact afterLast_ne_none hy hs

/-- The text found by `afterLast` is a suffix, split off at the character. -/
theorem afterLast_eq_some {c : Char} :
    ∀ {s t : Str}, afterLast c s = some t → ∃ p, s = p ++ c :: t ∧ c ∉ t
  | [], _, h => by simp [afterLast] at h
  | x :: s, t, h => by
    rw [afterLast] at h
    cases hs : afterLast c s with
    | some u =>
      rw [hs] at h
      obtain rfl : u = t := by simpa using h
      obtain ⟨p, hp, hc⟩ := afterLast_eq_some hs
      exact ⟨x :: p, by rw [hp]; rfl, hc⟩
    | none =>
      rw [hs] at h
      by_cases hx : x = c
      · obtain rfl : s = t := by simpa [hx] using h
        refine ⟨[], by rw [hx]; rfl, fun hmem => ?_⟩
        exact afterLast_ne_none hmem hs
      · simp [hx] at h

/-- `afterLast` of a string that is put together at its last `c`. -/
theorem afterLast_append {c : Char} {t : Str} (hc : c ∉ t) :
    ∀ p : Str, afterLast c (p ++ c :: t) = some t
  | [] => by
    have hn : afterLast c t = none := by
      cases h : afterLast c t with
      | none => rfl
      | some u =>
        obtain ⟨p, hp, -⟩ := afterLast_eq_some h
        exact absurd (hp ▸ List.mem_append_right p (List.mem_cons_self ..)) hc
    simp [afterLast, hn]
  | x :: p => by
    rw [List.cons_append, afterLast, afterLast_append hc p]

/-! ## The tokenizer -/

/-- One call of `strtok` with a one-character delimiter: the next token and the
saved pointer, or `none` when only delimiters are left. -/
def strtok (delim : Char) (s : Str) : Option (Str × Option Str) :=
  match s.dropWhile (· = delim) with
  | [] => none
  | t =>
    some (t.takeWhile (· ≠ delim),
      match t.dropWhile (· ≠ delim) with
      | [] => none
      | _ :: rest => some rest)

/-- `strtok(NULL, …)`: the next token behind the saved pointer. -/
def strtokNext (delim : Char) (save : Option Str) : Option (Str × Option Str) :=
  save.bind (strtok delim)

/-- `strtok(NULL, …)` where the caller ignores the token: the saved pointer. -/
def strtokSkip (delim : Char) (save : Option Str) : Option Str :=
  (strtokNext delim save).bind Prod.snd

/-! ## Numerals -/

/-- `isspace` in the C locale. -/
def isspace (c : Char) : Bool :=
  c = ' ' || c = '\t' || c = '\n' || c = '\x0b' || c = '\x0c' || c = '\r'

/-- The value of a string of decimal digits. -/
def digitsVal (ds : Str) : Nat :=
  ds.foldl (fun v c => 10 * v + (c.toNat - '0'.toNat)) 0

/-- An optional sign: whether it is a minus, and what follows it. -/
def sign : Str → Bool × Str
  | '-' :: s => (true, s)
  | '+' :: s => (false, s)
  | s => (false, s)

/-- A signed decimal numeral behind optional blanks: its value and the text
behind it, or `none` when no digit is there. -/
def numeral (s : Str) : Option (Int × Str) :=
  let u := sign (s.dropWhile isspace)
  let ds := u.2.takeWhile Char.isDigit
  if ds = [] then none
  else some (if u.1 then -(digitsVal ds : Int) else digitsVal ds,
    u.2.dropWhile Char.isDigit)

/-- `long` is 64 bits wide, and `strtol` saturates. -/
def clampLong (v : Int) : Int := max (-2 ^ 63) (min (2 ^ 63 - 1) v)

/-- Conversion to a 32-bit `int`. -/
def toInt (v : Int) : Int := v.bmod (2 ^ 32)

/-- `strtol(s, &endptr, 10)`: the value and the text at `endptr`. -/
def strtol (s : Str) : Int × Str :=
  match numeral s with
  | none => (0, s)
  | some (v, rest) => (clampLong v, rest)

/-- One `%d` of `sscanf`: the `int` stored and the text behind it. -/
def scanInt (s : Str) : Option (Int × Str) :=
  (numeral s).map fun p => (toInt (clampLong p.1), p.2)

/-- `sscanf(s, "%d:%d:…")` with `n` conversions: the values stored. -/
def scanInts : Nat → Str → List Int
  | 0, _ => []
  | n + 1, s =>
    match scanInt s with
    | none => []
    | some (v, ':' :: rest) => v :: scanInts n rest
    | some (v, _) => [v]

/-- `sscanf(s, "%d,%d,…")` with `n` conversions and any character between them: the values
stored. -/
def scanList (sep : Char) : Nat → Str → List Int
  | 0, _ => []
  | n + 1, s =>
    match scanInt s with
    | none => []
    | some (v, []) => [v]
    | some (v, c :: rest) => if c = sep then v :: scanList sep n rest else [v]

/-! ## Lines of a stream -/

/-- At most `k` characters of `s`, up to and with the first newline, and the
rest of the stream. -/
def line : Nat → Str → Str × Str
  | 0, s => ([], s)
  | _ + 1, [] => ([], [])
  | k + 1, c :: s =>
    if c = '\n' then ([c], s) else ((c :: (line k s).1), (line k s).2)

/-- `fgets(buf, size, fp)`: the characters stored and the rest of the stream, or
`none` at the end of the stream. -/
def fgets (size : Nat) (s : Str) : Option (Str × Str) :=
  if s = [] then none else some (line (size - 1) s)

theorem line_ne_nil {k : Nat} {s : Str} (hs : s ≠ []) : (line (k + 1) s).1 ≠ [] := by
  cases s with
  | nil => exact absurd rfl hs
  | cons c s =>
    by_cases hc : c = '\n' <;> simp [line, hc]

theorem line_newline {p : Str} (hp : '\n' ∉ p) (s : Str) :
    ∀ {k : Nat}, p.length < k → line k (p ++ '\n' :: s) = (p ++ ['\n'], s) := by
  induction p with
  | nil =>
    intro k hk
    obtain ⟨k, rfl⟩ := Nat.exists_eq_add_of_lt hk
    simp [line]
  | cons c p ih =>
    intro k hk
    rw [List.mem_cons, not_or] at hp
    have hc : c ≠ '\n' := fun h => hp.1 h.symm
    cases k with
    | zero => simp at hk
    | succ k =>
      rw [List.cons_append, line, if_neg hc, ih hp.2 (Nat.lt_of_succ_lt_succ hk)]
      rfl

theorem line_full {p : Str} (hp : '\n' ∉ p) (s : Str) : line p.length (p ++ s) = (p, s) := by
  induction p with
  | nil => simp [line]
  | cons c p ih =>
    rw [List.mem_cons, not_or] at hp
    have hc : c ≠ '\n' := fun h => hp.1 h.symm
    rw [List.cons_append, List.length_cons, line, if_neg hc, ih hp.2]

/-- A text without newlines is one line. -/
theorem line_end {p : Str} (hp : '\n' ∉ p) {k : Nat} (hk : p.length ≤ k) : line k p = (p, []) := by
  induction p generalizing k with
  | nil => cases k <;> rfl
  | cons c p ih =>
    obtain ⟨k, rfl⟩ : ∃ j, k = j + 1 := ⟨k - 1, by rw [List.length_cons] at hk; omega⟩
    rw [List.mem_cons, not_or] at hp
    have hc : c ≠ '\n' := fun h => hp.1 h.symm
    rw [List.length_cons] at hk
    rw [line, if_neg hc, ih hp.2 (by omega)]

/-- A line ends with its newline, or it fills the buffer, or the text ends. -/
theorem line_cases (k : Nat) (s : Str) :
    s = (line k s).1 ++ (line k s).2 ∧
      ((∃ p, '\n' ∉ p ∧ (line k s).1 = p ++ ['\n'] ∧ p.length < k) ∨
        ('\n' ∉ (line k s).1 ∧ (line k s).1.length = k) ∨
        ('\n' ∉ (line k s).1 ∧ (line k s).1.length < k ∧ (line k s).2 = [])) := by
  induction k generalizing s with
  | zero => exact ⟨rfl, .inr (.inl ⟨List.not_mem_nil, rfl⟩)⟩
  | succ k ih =>
    cases s with
    | nil => exact ⟨rfl, .inr (.inr ⟨List.not_mem_nil, Nat.zero_lt_succ k, rfl⟩)⟩
    | cons c s =>
      by_cases hc : c = '\n'
      · rw [line, if_pos hc]
        exact ⟨rfl, .inl ⟨[], List.not_mem_nil, by rw [hc]; rfl, Nat.zero_lt_succ k⟩⟩
      · obtain ⟨happ, hcases⟩ := ih s
        have hmem : ∀ {p : Str}, '\n' ∉ p → '\n' ∉ c :: p := fun hp hm =>
          (List.mem_cons.mp hm).elim (fun he => hc he.symm) hp
        rw [line, if_neg hc]
        refine ⟨congrArg (c :: ·) happ, ?_⟩
        rcases hcases with ⟨p, hp, hline, hlen⟩ | ⟨hp, hlen⟩ | ⟨hp, hlen, hrest⟩
        · refine .inl ⟨c :: p, hmem hp, ?_, Nat.succ_lt_succ hlen⟩
          rw [hline]
          rfl
        · exact .inr (.inl ⟨hmem hp, congrArg Nat.succ hlen⟩)
        · exact .inr (.inr ⟨hmem hp, Nat.succ_lt_succ hlen, hrest⟩)

end CString
