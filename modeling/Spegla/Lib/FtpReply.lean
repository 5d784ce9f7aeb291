import Spegla.Lib.CString

/-!
# Replies on an FTP control connection

The replies of RFC 959 as the bytes that come down the connection.

- `statusOf`, `markOf`: what the beginning of a line tells a reader that looks at its
  first four bytes.
- `Reply`: a reply of one line or of several, well formed by construction.
- `Reply.bytes`: the bytes of a reply, line by line.
- `Shape.last_status`, `Shape.before_mark`: a reader that goes by the first four bytes
  takes no line but the last for the end of the reply.
-/

namespace FtpReply

open CString

/-! ## The beginning of a line -/

/-- Whether a line begins with three digits. -/
def beginsCode (line : Str) : Bool := (line.take 3).length = 3 ∧ (line.take 3).all Char.isDigit

/-- The number a line begins with, or 0. -/
def statusOf (line : Str) : Nat := if beginsCode line then digitsVal (line.take 3) else 0

/-- The character behind three digits at the beginning of a line. -/
def markOf (line : Str) : Option Char := if beginsCode line then (line)[3]? else none

/-- The last digit of a number. -/
def digit (n : Nat) : Char := Char.ofNat ('0'.toNat + n % 10)

/-- A number below 1000 in three digits. -/
def digits (code : Nat) : Str := [digit (code / 100), digit (code / 10), digit code]

theorem digit_isDigit (n : Nat) : (digit n).isDigit = true := by
  have hlt : n % 10 < 10 := Nat.mod_lt n (by decide)
  unfold digit
  generalize n % 10 = d at hlt
  revert hlt
  revert d
  decide

theorem digit_toNat (n : Nat) : (digit n).toNat - '0'.toNat = n % 10 := by
  have hlt : n % 10 < 10 := Nat.mod_lt n (by decide)
  unfold digit
  generalize n % 10 = d at hlt
  revert hlt
  revert d
  decide

theorem newline_not_mem_digits (code : Nat) : '\n' ∉ digits code := by
  have hne : ∀ n, '\n' ≠ digit n := by
    intro n h
    have hdig := digit_isDigit n
    rw [← h] at hdig
    exact absurd hdig (by decide)
  simp [digits, hne]

theorem beginsCode_digits (code : Nat) (rest : Str) : beginsCode (digits code ++ rest) = true := by
  simp [beginsCode, digits, digit_isDigit]

theorem statusOf_digits {code : Nat} (h : code < 1000) (rest : Str) :
    statusOf (digits code ++ rest) = code := by
  have hval : digitsVal (digits code) = code := by
    simp only [digitsVal, digits, List.foldl_cons, List.foldl_nil, digit_toNat]
    omega
  unfold statusOf
  rw [beginsCode_digits, if_pos rfl]
  exact hval

theorem markOf_digits (code : Nat) (rest : Str) : markOf (digits code ++ rest) = rest.head? := by
  unfold markOf
  rw [beginsCode_digits, if_pos rfl]
  cases rest with
  | nil => rfl
  | cons c rest => rfl

/-! ## Replies -/

/-- A line inside a reply: it does not begin with three digits and a blank or hyphen,
unless it is the code of the reply with a hyphen. -/
def Inner (code : Nat) (line : Str) : Prop :=
  markOf line = some ' ' ∨ markOf line = some '-' → ∃ text, line = digits code ++ '-' :: text

/-- The lines of a reply before the last one, and the last: either there is only one, whose
code is not followed by a hyphen, or the first is marked with a hyphen and the last with a
blank. -/
inductive Shape (code : Nat) : List Str → Str → Prop where
  | single (text : Str) : text.head? ≠ some '-' → Shape code [] (digits code ++ text)
  | multi (first : Str) (inner : List Str) (text : Str) : (∀ line ∈ inner, Inner code line) →
      Shape code ((digits code ++ '-' :: first) :: inner) (digits code ++ ' ' :: text)

/-- The last line shows the code and is not marked with a hyphen. -/
theorem Shape.last_status {code : Nat} {before : List Str} {last : Str} (h : Shape code before last)
    (hlt : code < 1000) : statusOf last = code ∧ markOf last ≠ some '-' := by
  cases h with
  | single text htext => exact ⟨statusOf_digits hlt text, by rw [markOf_digits]; exact htext⟩
  | multi first inner text _ => exact ⟨statusOf_digits hlt _, by rw [markOf_digits]; simp⟩

/-- The first line, where there are more, is marked with a hyphen. -/
theorem Shape.first_mark {code : Nat} {line : Str} {lines : List Str} {last : Str}
    (h : Shape code (line :: lines) last) (hlt : code < 1000) :
    statusOf line = code ∧ markOf line = some '-' := by
  cases h with
  | multi first inner text _ => exact ⟨statusOf_digits hlt _, by rw [markOf_digits]; rfl⟩

/-- The last line of several is marked with a blank. -/
theorem Shape.last_mark {code : Nat} {line : Str} {lines : List Str} {last : Str}
    (h : Shape code (line :: lines) last) : markOf last = some ' ' := by
  cases h with
  | multi first inner text _ =>
    rw [markOf_digits]
    rfl

/-- A line before the last one that is marked shows the code with a hyphen. -/
theorem Shape.before_mark {code : Nat} {before : List Str} {last line : Str}
    (h : Shape code before last) (hlt : code < 1000) (hline : line ∈ before)
    (hmark : markOf line = some ' ' ∨ markOf line = some '-') :
    statusOf line = code ∧ markOf line = some '-' := by
  have hhyphen : ∀ text, statusOf (digits code ++ '-' :: text) = code ∧
      markOf (digits code ++ '-' :: text) = some '-' := fun text =>
    ⟨statusOf_digits hlt _, by rw [markOf_digits]; rfl⟩
  cases h with
  | single text htext => simp at hline
  | multi first inner text hinner =>
    rcases List.mem_cons.mp hline with rfl | hline
    · exact hhyphen first
    · obtain ⟨text', rfl⟩ := hinner line hline hmark
      exact hhyphen text'

/-- A reply. -/
structure Reply where
  code : Nat
  before : List Str
  last : Str
  isCode : 100 ≤ code ∧ code < 1000
  shape : Shape code before last
  oneLine : ∀ line ∈ before ++ [last], '\n' ∉ line

namespace Reply

/-- The bytes of lines. -/
def linesBytes (lines : List Str) : Str := lines.flatMap fun line => line ++ ['\n']

/-- The bytes of a reply. -/
def bytes (r : Reply) : Str := linesBytes (r.before ++ [r.last])

theorem code_150 : 100 ≤ 150 ∧ 150 < 1000 := by decide

theorem code_200 : 100 ≤ 200 ∧ 200 < 1000 := by decide

theorem code_220 : 100 ≤ 220 ∧ 220 < 1000 := by decide

theorem code_226 : 100 ≤ 226 ∧ 226 < 1000 := by decide

theorem code_230 : 100 ≤ 230 ∧ 230 < 1000 := by decide

theorem code_250 : 100 ≤ 250 ∧ 250 < 1000 := by decide

theorem code_550 : 100 ≤ 550 ∧ 550 < 1000 := by decide

/-- A reply of one line, without a text. -/
def short (code : Nat) (h : 100 ≤ code ∧ code < 1000) : Reply :=
  { code := code
    before := []
    last := digits code ++ [' ', '\x0d']
    isCode := h
    shape := Shape.single _ (by simp)
    oneLine := by
      intro line hline
      rw [List.nil_append, List.mem_singleton] at hline
      rw [hline, List.mem_append, not_or]
      exact ⟨newline_not_mem_digits code, by decide⟩ }

/-- Every line of the reply, with its end, fits into a buffer of `size` bytes. -/
def Fits (size : Nat) (r : Reply) : Prop := ∀ line ∈ r.before ++ [r.last], line.length < size

instance (size : Nat) (r : Reply) : Decidable (r.Fits size) :=
  inferInstanceAs (Decidable (∀ line ∈ r.before ++ [r.last], line.length < size))

end Reply

end FtpReply
