import Spegla.Lib.Fields
import Spegla.ParseRow

/-!
# Rows as `ls -l` writes them (`parserow.c`)

- `LsEntry`: what a row says about a file. `LsEntry.head`: the row up to its name, with single
  separators; `LsEntry.row` and `LsEntry.rowF`: the whole row, without and with the indicators of
  `ls -F`.
- `parseRow_head`: what `parse_row` makes of any text behind such a beginning of a row.
- `parseRow_lsRow`: the round trip. `parseRow_rowF_iff`: when the name comes back without the
  indicator.
-/

namespace Spegla

open CString

/-! ## The format -/

/-- The types of files that a row may be about; a link with its target. -/
inductive LsKind where
  | plainfile
  | directory
  | symlink (target : Str)
deriving DecidableEq, Repr

/-- The last field of the date. -/
inductive LsDate where
  | year (year : Nat)
  | minutes (hour min : Nat)
  | seconds (hour min sec year : Nat)
deriving DecidableEq, Repr

/-- One file. The fields before the name are words, and the size is a `long`. -/
structure LsEntry where
  kind : LsKind
  mode : Mode
  links : Nat
  owner : Str
  group : Option Str
  size : Nat
  mon : Fin 12
  mday : Nat
  date : LsDate
  name : Str
  owner_word : Word owner
  group_word : ∀ g ∈ group, Word g
  size_lt : size < 2 ^ 63
  name_ne_nil : name ≠ []

def LsKind.ftype : LsKind → SpFtype
  | .plainfile => .plainfile
  | .directory => .directory
  | .symlink _ => .symlink

def LsKind.target : LsKind → Option Str
  | .symlink target => some target
  | _ => none

def LsKind.letter : LsKind → Char
  | .plainfile => '-'
  | .directory => 'd'
  | .symlink _ => 'l'

/-- The letter of one permission. -/
def permLetter (mode bit : Mode) (c : Char) : Char := if mode &&& bit = 0 then '-' else c

/-- The letter of the permission to execute, which also shows the bit `special`. -/
def execLetter (mode bit special : Mode) (both only : Char) : Char :=
  if mode &&& bit = 0 then (if mode &&& special = 0 then '-' else only)
  else if mode &&& special = 0 then 'x' else both

/-- The nine letters of the permissions. -/
def modeText (mode : Mode) : Str :=
  [permLetter mode S_IRUSR 'r', permLetter mode S_IWUSR 'w',
    execLetter mode S_IXUSR S_ISUID 's' 'S',
    permLetter mode S_IRGRP 'r', permLetter mode S_IWGRP 'w',
      execLetter mode S_IXGRP S_ISGID 's' 'S',
    permLetter mode S_IROTH 'r', permLetter mode S_IWOTH 'w',
      execLetter mode S_IXOTH S_ISVTX 't' 'T']

/-- The words of the date behind the day. -/
def LsDate.words : LsDate → List Str
  | .year y => [decimal y]
  | .minutes h m => [twoDigits h ++ ':' :: twoDigits m]
  | .seconds h m s y => [twoDigits h ++ ':' :: (twoDigits m ++ ':' :: twoDigits s), decimal y]

/-- Words, each with a blank behind it. -/
def wordsText (words : List Str) : Str := words.flatMap (· ++ [' '])

/-- The row up to its name. -/
def LsEntry.head (e : LsEntry) : Str :=
  wordsText ([e.kind.letter :: modeText e.mode, decimal e.links, e.owner] ++ e.group.toList ++
    [decimal e.size, months.getD e.mon [], decimal e.mday] ++ e.date.words)

/-- What a row has in place of the name. -/
def LsEntry.text (e : LsEntry) : Str :=
  match e.kind with
  | .symlink target => e.name ++ (arrow ++ target)
  | _ => e.name

/-- The row. -/
def LsEntry.row (e : LsEntry) : Str := e.head ++ e.text

/-- The bits that make a plain file an executable one. -/
def execBits : Mode := S_IXUSR ||| S_IXGRP ||| S_IXOTH

/-- What a row of `ls -F` has in place of the name, with the indicator of the type behind it. -/
def LsEntry.textF (e : LsEntry) : Str :=
  match e.kind with
  | .plainfile => if e.mode &&& execBits = 0 then e.name else e.name ++ ['*']
  | .directory => e.name ++ ['/']
  | .symlink target => e.name ++ '@' :: (arrow ++ target)

/-- The row of `ls -F`. -/
def LsEntry.rowF (e : LsEntry) : Str := e.head ++ e.textF

/-- The date and its granularity, as `parse_row` fills them in. -/
def LsDate.tm (env : RowEnv) (mon mday : Int) : LsDate → Tm × Int
  | .year y => (⟨toInt (clampLong y), mon, mday, 0, 0, 0⟩, SECSPERDAY)
  | .minutes h m =>
    (⟨env.recentYear mon, mon, mday, toInt (clampLong h), toInt (clampLong m), 0⟩, SECSPERMIN)
  | .seconds h m s y =>
    (⟨toInt (clampLong y), mon, mday, toInt (clampLong h), toInt (clampLong m),
      toInt (clampLong s)⟩, 0)

/-- The entry that `parse_row` makes of a file with a name and a target that it has found. -/
def LsEntry.entry (env : RowEnv) (e : LsEntry) (name : Str) (link : Option Str) : SpFile :=
  let date := e.date.tm env e.mon.val (toInt (clampLong e.mday))
  { spfTime := env.mktime date.1.fromYear1900
    spfTgranul := date.2
    spfType := e.kind.ftype
    spfOpt := {}
    spfSize := e.size
    spfMode := e.mode
    spfName := name
    spfSymlink := link
    spfOrigName := none }

/-! ## Permissions -/

/-- One bit is in a mode or not. -/
theorem and_bit (mode : Mode) (i : Nat) :
    mode &&& BitVec.twoPow 12 i = 0 ∨ mode &&& BitVec.twoPow 12 i = BitVec.twoPow 12 i := by
  rw [BitVec.and_twoPow]
  split
  · exact Or.inr rfl
  · exact Or.inl rfl

theorem lookup_permLetter {mode b : Mode} {c : Char} (hc : c ≠ '-')
    (hb : mode &&& b = 0 ∨ mode &&& b = b) :
    [(c, b), ('-', 0)].lookup (permLetter mode b c) = some (mode &&& b) := by
  have hne : ('-' == c) = false := by simpa using hc.symm
  unfold permLetter
  rcases hb with hb | hb
  · rw [if_pos hb, hb]
    simp [List.lookup_cons, hne]
  · rw [hb]
    split
    · next h0 => simp [List.lookup_cons, hne, h0]
    · simp

theorem lookup_execLetter {mode b s : Mode} {both only : Char}
    (hchars : [both, only] ∈ [['s', 'S'], ['t', 'T']])
    (hb : mode &&& b = 0 ∨ mode &&& b = b) (hs : mode &&& s = 0 ∨ mode &&& s = s) :
    [('x', b), (both, b ||| s), (only, s), ('-', 0)].lookup (execLetter mode b s both only) =
      some (mode &&& (b ||| s)) := by
  rw [BitVec.and_or_distrib_left]
  simp only [List.mem_cons, List.cons.injEq, List.not_mem_nil, or_false, and_true] at hchars
  unfold execLetter
  by_cases h0 : mode &&& b = 0
  · rw [if_pos h0]
    by_cases h1 : mode &&& s = 0
    · rw [if_pos h1, h0, h1]
      rcases hchars with ⟨rfl, rfl⟩ | ⟨rfl, rfl⟩ <;> simp [List.lookup_cons]
    · rw [if_neg h1, h0, hs.resolve_left h1]
      rcases hchars with ⟨rfl, rfl⟩ | ⟨rfl, rfl⟩ <;> simp [List.lookup_cons]
  · rw [if_neg h0, hb.resolve_left h0]
    by_cases h1 : mode &&& s = 0
    · rw [if_pos h1, h1]
      rcases hchars with ⟨rfl, rfl⟩ | ⟨rfl, rfl⟩ <;> simp
    · rw [if_neg h1, hs.resolve_left h1]
      rcases hchars with ⟨rfl, rfl⟩ | ⟨rfl, rfl⟩ <;> simp [List.lookup_cons]

theorem parseColumns_cons {mode b bs : Mode} {col : List (Char × Mode)}
    {cols : List (List (Char × Mode))} {c : Char} {p : Str} (hc : col.lookup c = some (mode &&& b))
    (hp : parseColumns cols p = some (mode &&& bs)) :
    parseColumns (col :: cols) (c :: p) = some (mode &&& (b ||| bs)) := by
  rw [parseColumns, hc, hp, BitVec.and_or_distrib_left]
  rfl

/-- Every mode comes back from its letters. -/
theorem parseColumns_modeText (mode : Mode) :
    parseColumns modeColumns (modeText mode) = some mode := by
  have hend : parseColumns [] [] = some (mode &&& 0#12) := by
    rw [BitVec.and_zero]
    rfl
  have h : parseColumns modeColumns (modeText mode) = some (mode &&& _) :=
    parseColumns_cons (lookup_permLetter (by decide) (and_bit mode 8)) <|
    parseColumns_cons (lookup_permLetter (by decide) (and_bit mode 7)) <|
    parseColumns_cons (lookup_execLetter (by decide) (and_bit mode 6) (and_bit mode 11)) <|
    parseColumns_cons (lookup_permLetter (by decide) (and_bit mode 5)) <|
    parseColumns_cons (lookup_permLetter (by decide) (and_bit mode 4)) <|
    parseColumns_cons (lookup_execLetter (by decide) (and_bit mode 3) (and_bit mode 10)) <|
    parseColumns_cons (lookup_permLetter (by decide) (and_bit mode 2)) <|
    parseColumns_cons (lookup_permLetter (by decide) (and_bit mode 1)) <|
    parseColumns_cons (lookup_execLetter (by decide) (and_bit mode 0) (and_bit mode 9)) hend
  rw [h]
  exact congrArg some BitVec.and_allOnes

theorem parseFileMode_modeText (kind : LsKind) (mode : Mode) :
    parseFileMode (kind.letter :: modeText mode) = some (kind.ftype, mode) := by
  cases kind <;>
  · show (parseColumns modeColumns (modeText mode)).map _ = _
    rw [parseColumns_modeText]
    rfl

theorem modeText_word (kind : LsKind) (mode : Mode) : Word (kind.letter :: modeText mode) := by
  refine ⟨List.cons_ne_nil _ _, fun h => ?_⟩
  have hperm : ∀ b {c : Char}, c ≠ ' ' → ' ' ≠ permLetter mode b c := by
    intro b c hc
    unfold permLetter
    split
    · decide
    · exact hc.symm
  have hexec : ∀ b s {both only : Char}, both ≠ ' ' → only ≠ ' ' →
      ' ' ≠ execLetter mode b s both only := by
    intro b s both only hboth honly
    unfold execLetter
    repeat' split
    · decide
    · exact honly.symm
    · decide
    · exact hboth.symm
  rcases List.mem_cons.mp h with h | h
  · cases kind <;> simp [LsKind.letter] at h
  · simp only [modeText, List.mem_cons, List.not_mem_nil, or_false] at h
    rcases h with h | h | h | h | h | h | h | h | h
    all_goals first
      | exact hperm _ (by decide) h
      | exact hexec _ _ (by decide) (by decide) h

/-! ## The fields -/

theorem wordsText_cons (w : Str) (ws : List Str) (rest : Str) :
    wordsText (w :: ws) ++ rest = w ++ ' ' :: (wordsText ws ++ rest) := by
  simp [wordsText, List.append_assoc]

theorem month_facts : ∀ mon : Fin 12, Word (months.getD mon []) ∧
    months.idxOf? (months.getD mon []) = some mon.val ∧
    strtol (months.getD mon []) = (0, months.getD mon []) := by
  decide

/-- The size is the first or the second of two tokens. -/
theorem parseSize_tokens {save rest₁ rest₂ : Option Str} {tok₁ tok₂ : Str}
    (h₁ : strtokNext ' ' save = some (tok₁, rest₁))
    (h₂ : strtokNext ' ' rest₁ = some (tok₂, rest₂)) :
    parseSize save =
      if (strtol tok₂).2 = [] then (strtokNext ' ' rest₂).map fun t => ((strtol tok₂).1, t)
      else if (strtol tok₁).2 = [] then some ((strtol tok₁).1, tok₂, rest₂)
      else none := by
  simp only [parseSize, h₁, h₂]

/-- A word is the next token. -/
theorem strtokNext_wordsText {w : Str} (hw : Word w) (ws : List Str) (rest : Str) :
    strtokNext ' ' (some (wordsText (w :: ws) ++ rest)) =
      some (w, some (wordsText ws ++ rest)) := by
  rw [wordsText_cons]
  exact strtokNext_word hw _

/-- The size is found with and without a group. -/
theorem parseSize_words {group : Option Str} (hgroup : ∀ g ∈ group, Word g) {size : Nat}
    (hsize : size < 2 ^ 63) (mon : Fin 12) (rest : Str) :
    parseSize (some (wordsText (group.toList ++ [decimal size, months.getD mon []]) ++ rest)) =
      some ((size : Int), months.getD mon [], some rest) := by
  obtain ⟨hmon, -, hnosize⟩ := month_facts mon
  have hword := (decimal_isNumeral size).word
  have hval := strtol_digits (decimal_isNumeral size) hsize
  have hne : months.getD mon [] ≠ [] := hmon.1
  cases group with
  | none =>
    have h₁ := strtokNext_wordsText hword [months.getD mon []] rest
    have h₂ := strtokNext_wordsText hmon [] rest
    have hsplit := parseSize_tokens h₁ h₂
    rw [hnosize, if_neg hne, hval, if_pos rfl] at hsplit
    exact hsplit
  | some g =>
    have h₁ := strtokNext_wordsText (hgroup g rfl) [decimal size, months.getD mon []] rest
    have h₂ := strtokNext_wordsText hword [months.getD mon []] rest
    have h₃ := strtokNext_wordsText hmon [] rest
    have hsplit := parseSize_tokens h₁ h₂
    rw [hval, if_pos rfl, h₃] at hsplit
    exact hsplit

theorem scanInts_last {ds : Str} {n : Nat} (h : IsNumeral ds n) (k : Nat) :
    scanInts (k + 1) ds = [toInt (clampLong n)] := by
  have hscan := scanInt_digits h (show ∀ c ∈ ([] : Str).head?, c.isDigit = false by simp)
  rw [List.append_nil] at hscan
  rw [scanInts, hscan]

theorem scanInts_colon {ds : Str} {n : Nat} (h : IsNumeral ds n) (k : Nat) (rest : Str) :
    scanInts (k + 1) (ds ++ ':' :: rest) = toInt (clampLong n) :: scanInts k rest := by
  have hscan := scanInt_digits h (show ∀ c ∈ (':' :: rest).head?, c.isDigit = false by
    rintro c ⟨⟩
    decide)
  rw [scanInts, hscan]
  rfl

/-- Each form of the date is read to its end. -/
theorem parseYear_words (env : RowEnv) (mon mday : Int) (date : LsDate) (rest : Str) :
    ∃ tok save, strtokNext ' ' (some (wordsText date.words ++ rest)) = some (tok, save) ∧
      parseYear env mon mday tok save =
        some ((date.tm env mon mday).1, (date.tm env mon mday).2, some rest) := by
  cases date with
  | year y =>
    have hy := decimal_isNumeral y
    refine ⟨decimal y, some rest, ?_, ?_⟩
    · rw [LsDate.words, wordsText_cons, strtokNext_word hy.word]
      rfl
    · rw [parseYear, scanInts_last hy]
      rfl
  | minutes h m =>
    have hh := twoDigits_isNumeral h
    have hm := twoDigits_isNumeral m
    refine ⟨twoDigits h ++ ':' :: twoDigits m, some rest, ?_, ?_⟩
    · rw [LsDate.words, wordsText_cons, strtokNext_word (hh.word.colon hm.word)]
      rfl
    · rw [parseYear, scanInts_colon hh, scanInts_last hm]
      rfl
  | seconds h m s y =>
    have hh := twoDigits_isNumeral h
    have hm := twoDigits_isNumeral m
    have hs := twoDigits_isNumeral s
    have hy := decimal_isNumeral y
    have hscan := scanInt_digits hy (show ∀ c ∈ ([] : Str).head?, c.isDigit = false by simp)
    rw [List.append_nil] at hscan
    refine ⟨twoDigits h ++ ':' :: (twoDigits m ++ ':' :: twoDigits s),
      some (wordsText [decimal y] ++ rest), ?_, ?_⟩
    · rw [LsDate.words, wordsText_cons,
        strtokNext_word (hh.word.colon (hm.word.colon hs.word))]
    · rw [parseYear, scanInts_colon hh, scanInts_colon hm, scanInts_last hs]
      simp only
      rw [wordsText_cons, strtokNext_word hy.word]
      simp only [hscan]
      rfl

/-- The row up to its name, field by field. -/
theorem head_append (e : LsEntry) (text : Str) :
    e.head ++ text = (e.kind.letter :: modeText e.mode) ++ ' ' :: (decimal e.links ++ ' ' ::
      (e.owner ++ ' ' :: (wordsText (e.group.toList ++ [decimal e.size, months.getD e.mon []]) ++
        (decimal e.mday ++ ' ' :: (wordsText e.date.words ++ text))))) := by
  simp [LsEntry.head, wordsText, List.append_assoc]

/-- What `parse_row` makes of any text behind the fields of a row. -/
theorem parseRow_head (env : RowEnv) (e : LsEntry) {text : Str} (htext : text ≠ [])
    (leftover : Str) : parseRow env (e.head ++ text) leftover =
      (parseName e.kind.ftype e.mode text).map fun p => e.entry env p.1 p.2 := by
  obtain ⟨-, hmon, -⟩ := month_facts e.mon
  have hday := decimal_isNumeral e.mday
  have hscan := scanInt_digits hday (show ∀ c ∈ ([] : Str).head?, c.isDigit = false by simp)
  rw [List.append_nil] at hscan
  obtain ⟨tok, save, htok, hyear⟩ :=
    parseYear_words env e.mon.val (toInt (clampLong e.mday)) e.date text
  have hname : nameText (some text) leftover = some text := by
    cases text with
    | nil => exact absurd rfl htext
    | cons c text => rfl
  unfold parseRow
  rw [head_append, strtok_word (modeText_word e.kind e.mode)]
  simp only [Option.bind_eq_bind, Option.bind_some]
  rw [parseFileMode_modeText, strtokSkip_word (decimal_isNumeral e.links).word,
    strtokSkip_word e.owner_word]
  simp only [Option.bind_some]
  rw [parseSize_words e.group_word e.size_lt]
  simp only [Option.bind_some]
  rw [hmon, strtokNext_word hday.word]
  simp only [Option.bind_some]
  rw [hscan]
  simp only [Option.bind_some]
  rw [htok]
  simp only [Option.bind_some]
  rw [hyear]
  simp only [Option.bind_some, hname]
  cases parseName e.kind.ftype e.mode text with
  | none => rfl
  | some p => rfl

/-! ## The round trip -/

/-- The arrow in a row is the one behind the name, unless the name has one in it or ends like one.
-/
theorem strstr_arrow {name : Str} (hin : ¬arrow <:+: name) (hend : ¬[' ', '-', '>'] <:+ name)
    (target : Str) : strstr arrow (name ++ (arrow ++ target)) = some (name, arrow ++ target) := by
  refine strstr_first fun p₁ p₂ hname hne hpre => ?_
  -- by how much the arrow lies in the name
  match p₂ with
  | [] => exact hne rfl
  | [a] => simp [arrow] at hpre
  | [a, b] => simp [arrow] at hpre
  | [a, b, c] =>
    simp only [arrow, List.cons_append, List.nil_append, List.cons_prefix_cons] at hpre
    obtain ⟨rfl, rfl, rfl, -⟩ := hpre
    exact hend ⟨p₁, hname.symm⟩
  | a :: b :: c :: d :: p₂ =>
    simp only [arrow, List.cons_append, List.nil_append, List.cons_prefix_cons] at hpre
    obtain ⟨rfl, rfl, rfl, rfl, -⟩ := hpre
    exact hin ⟨p₁, p₂, by rw [hname]; simp [arrow]⟩

/-- What a name must be like to come back from its row. -/
structure LsEntry.Plain (e : LsEntry) : Prop where
  star : e.name.getLast? ≠ some '*'
  slash : e.kind = .directory → e.name.getLast? ≠ some '/'
  noArrow : ∀ target, e.kind = .symlink target →
    ¬arrow <:+: e.name ∧ ¬[' ', '-', '>'] <:+ e.name ∧ target.getLast? ≠ some '*'

/-- The `'*'` that may be stripped is the target's. -/
theorem arrow_last {target : Str} (h : target.getLast? ≠ some '*') (name : Str) :
    (name ++ (arrow ++ target)).getLast? ≠ some '*' := by
  rw [List.getLast?_append, List.getLast?_append]
  cases hlast : target.getLast? with
  | none => simp [arrow]
  | some c =>
    rw [hlast] at h
    simpa using h

/-- The name and the target in a row are found. -/
theorem parseName_text {e : LsEntry} (h : e.Plain) :
    parseName e.kind.ftype e.mode e.text = some (e.name, e.kind.target) := by
  have hstar := trimLast_of_ne h.star
  rw [parseName_eq, LsEntry.text]
  cases hkind : e.kind with
  | plainfile =>
    show some (trimLast '*' e.name, none) = _
    rw [hstar]
    rfl
  | directory =>
    show some (trimLast '*' (trimLast '/' e.name), none) = _
    rw [trimLast_of_ne (h.slash hkind), hstar]
    rfl
  | symlink target =>
    obtain ⟨hin, hend, htarget⟩ := h.noArrow target hkind
    show (strstr arrow (trimLast '*' (e.name ++ (arrow ++ target)))).map _ = _
    rw [trimLast_of_ne (arrow_last htarget _), strstr_arrow hin hend]
    rfl

theorem LsEntry.text_ne_nil (e : LsEntry) : e.text ≠ [] := by
  have := e.name_ne_nil
  unfold LsEntry.text
  cases e.kind <;> simp [this]

/-- The type, the mode, the size, the name and the target of a file come back from its row. -/
theorem parseRow_lsRow (env : RowEnv) (e : LsEntry) (leftover : Str) (h : e.Plain) :
    ∃ spf, parseRow env e.row leftover = some spf ∧ spf.spfType = e.kind.ftype ∧
      spf.spfMode = e.mode ∧ spf.spfSize = e.size ∧ spf.spfName = e.name ∧
      spf.spfSymlink = e.kind.target := by
  refine ⟨e.entry env e.name e.kind.target, ?_, rfl, rfl, rfl, rfl, rfl⟩
  rw [LsEntry.row, parseRow_head env e e.text_ne_nil, parseName_text h]
  rfl

/-- A file `x` with a group, and a link `a` to it. -/
def fileX : LsEntry where
  kind := .plainfile
  mode := 0o644#12
  links := 1
  owner := ['u']
  group := some ['g']
  size := 1
  mon := 0
  mday := 1
  date := .seconds 12 0 0 1999
  name := ['x']
  owner_word := by decide
  group_word := by decide
  size_lt := by decide
  name_ne_nil := by decide

theorem parseRow_lsRow_fileX :
    ∃ spf, parseRow ⟨0, 100, fun tm => tm.tmYear⟩ fileX.row [] = some spf ∧
      spf.spfType = fileX.kind.ftype ∧ spf.spfMode = fileX.mode ∧ spf.spfSize = fileX.size ∧
      spf.spfName = fileX.name ∧ spf.spfSymlink = fileX.kind.target :=
  parseRow_lsRow ⟨0, 100, fun tm => tm.tmYear⟩ fileX []
    ⟨by decide, by decide, fun _ h => absurd h (by simp [fileX])⟩

/-- A link whose name ends in the beginning of an arrow. -/
def linkArrow : LsEntry :=
  { fileX with
    kind := .symlink ['t']
    name := ['a', ' ', '-', '>']
    name_ne_nil := by decide }

/-- The name is cut where the row first has an arrow, and the rest of it gets into the target. -/
theorem linkArrow_cut :
    ¬arrow <:+: linkArrow.name ∧ linkArrow.name.getLast? ≠ some '*' ∧
      ∃ spf, parseRow ⟨0, 100, fun tm => tm.tmYear⟩ linkArrow.row [] = some spf ∧
        spf.spfName = ['a'] ∧ spf.spfSymlink = some ['-', '>', ' ', 't'] ∧
        spf.spfName ≠ linkArrow.name ∧ spf.spfSymlink ≠ linkArrow.kind.target := by
  refine ⟨by decide, by decide, _, rfl, by decide, by decide, by decide, by decide⟩

/-! ## Indicators -/

theorem LsEntry.textF_ne_nil (e : LsEntry) : e.textF ≠ [] := by
  have := e.name_ne_nil
  unfold LsEntry.textF
  cases e.kind with
  | plainfile =>
    show (if _ then _ else _) ≠ _
    split <;> simp [this]
  | directory => simp
  | symlink target => simp

/-- An `'@'` before the arrow stays at the name. -/
theorem strstr_at {name rest : Str} {c : Char} {p : Str × Str}
    (h : strstr arrow (trimLast c (name ++ '@' :: (arrow ++ rest))) = some p) : p.1 ≠ name := by
  obtain ⟨u, hu⟩ : ∃ u, trimLast c (name ++ '@' :: (arrow ++ rest)) = name ++ '@' :: u := by
    rw [trimLast]
    split
    · refine ⟨(arrow ++ rest).dropLast, ?_⟩
      rw [List.dropLast_append_of_ne_nil (List.cons_ne_nil _ _),
        List.dropLast_cons_of_ne_nil (by simp [arrow])]
    · exact ⟨_, rfl⟩
  obtain ⟨hs, harrow⟩ := strstr_some h
  rintro rfl
  rw [hu] at hs
  rw [← List.append_cancel_left hs] at harrow
  simp [arrow] at harrow

/-- The names that come back from the rows of `ls -F`. -/
def LsEntry.PlainF (e : LsEntry) : Prop :=
  match e.kind with
  | .plainfile => e.mode &&& execBits = 0 → e.name.getLast? ≠ some '*'
  | .directory => e.name.getLast? ≠ some '*'
  | .symlink _ => False

/-- The name of a file comes back from its row of `ls -F`, without the indicator, exactly when it is
not a link and no `'*'` of its own ends it, but for an executable file, where the indicator is
stripped in its place. -/
theorem parseRow_rowF_iff (env : RowEnv) (e : LsEntry) (leftover : Str) :
    (∃ spf, parseRow env e.rowF leftover = some spf ∧ spf.spfName = e.name) ↔ e.PlainF := by
  have hname : (∃ spf, parseRow env e.rowF leftover = some spf ∧ spf.spfName = e.name) ↔
      ∃ link, parseName e.kind.ftype e.mode e.textF = some (e.name, link) := by
    rw [LsEntry.rowF, parseRow_head env e e.textF_ne_nil]
    constructor
    · rintro ⟨spf, hspf, hname⟩
      obtain ⟨⟨name, link⟩, hp, rfl⟩ := Option.map_eq_some_iff.mp hspf
      obtain rfl : name = e.name := hname
      exact ⟨link, hp⟩
    · rintro ⟨link, hlink⟩
      exact ⟨e.entry env e.name link, by rw [hlink]; rfl, rfl⟩
  rw [hname, parseName_eq, LsEntry.textF, LsEntry.PlainF]
  cases hkind : e.kind with
  | plainfile =>
    show (∃ link, some (trimLast '*' (if e.mode &&& execBits = 0 then e.name else e.name ++ ['*']),
      none) = some (e.name, link)) ↔ _
    by_cases hexec : e.mode &&& execBits = 0
    · rw [if_pos hexec]
      simp [hexec, trimLast_eq_self_iff]
    · rw [if_neg hexec, trimLast_concat]
      exact ⟨fun _ h => absurd h hexec, fun _ => ⟨none, rfl⟩⟩
  | directory =>
    show (∃ link, some (trimLast '*' (trimLast '/' (e.name ++ ['/'])), none) =
      some (e.name, link)) ↔ _
    rw [trimLast_concat]
    simp [trimLast_eq_self_iff]
  | symlink target =>
    show (∃ link, (strstr arrow (trimLast '*' (e.name ++ '@' :: (arrow ++ target)))).map _ =
      some (e.name, link)) ↔ False
    rw [iff_false]
    rintro ⟨link, h⟩
    obtain ⟨p, hp, heq⟩ := Option.map_eq_some_iff.mp h
    exact strstr_at hp (Prod.mk.inj heq).1

/-- A link. -/
def linkL : LsEntry :=
  { fileX with
    kind := .symlink ['t']
    name := ['l']
    name_ne_nil := by decide }

/-- A plain file that is not executable and has a star at the end of its name. -/
def fileStar : LsEntry :=
  { fileX with
    name := ['x', '*']
    name_ne_nil := by decide }

/-- The link keeps its indicator, and the file loses its star. -/
theorem rowF_loses :
    (∃ spf, parseRow ⟨0, 100, fun tm => tm.tmYear⟩ linkL.rowF [] = some spf ∧
      spf.spfName = ['l', '@'] ∧ spf.spfName ≠ linkL.name) ∧
    ∃ spf, parseRow ⟨0, 100, fun tm => tm.tmYear⟩ fileStar.rowF [] = some spf ∧
      spf.spfName = ['x'] ∧ spf.spfName ≠ fileStar.name :=
  ⟨⟨_, rfl, by decide, by decide⟩, _, rfl, by decide, by decide⟩

end Spegla
