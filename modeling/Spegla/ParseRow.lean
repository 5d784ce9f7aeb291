import Spegla.SpFile

/-!
# Rows of a listing (`parserow.c`)

`parse_row` reads one row of the output of `ls -lag`: permissions, link count,
owner, group or size, size or month, day, year or time, and the name.

- `parseFileMode`: the permissions, one column after the other.
- `parseRow`: the whole row. Its name is what follows the token of the year or
  time, one byte on. Where that token is the end of the row, that byte lies
  behind the row's NUL, in memory nobody has written: `leftover` is what is there.
- `Linked`: a symbolic link comes with its target.
-/

namespace Spegla

open CString

/-! ## Permissions -/

/-- The bits of `st_mode` that the letters of a column set. -/
def S_IRUSR : Mode := 0o400#12
def S_IWUSR : Mode := 0o200#12
def S_ISUID : Mode := 0o4000#12
def S_IRGRP : Mode := 0o040#12
def S_IWGRP : Mode := 0o020#12
def S_ISGID : Mode := 0o2000#12
def S_IROTH : Mode := 0o004#12
def S_IWOTH : Mode := 0o002#12
def S_ISVTX : Mode := 0o1000#12

/-- The letters of the nine permission columns, each with the bits it sets. -/
def modeColumns : List (List (Char × Mode)) :=
  [ [('r', S_IRUSR), ('-', 0)],
    [('w', S_IWUSR), ('-', 0)],
    [('x', S_IXUSR), ('s', S_IXUSR ||| S_ISUID), ('S', S_ISUID), ('-', 0)],
    [('r', S_IRGRP), ('-', 0)],
    [('w', S_IWGRP), ('-', 0)],
    [('x', S_IXGRP), ('s', S_IXGRP ||| S_ISGID), ('S', S_ISGID), ('-', 0)],
    [('r', S_IROTH), ('-', 0)],
    [('w', S_IWOTH), ('-', 0)],
    [('x', S_IXOTH), ('t', S_IXOTH ||| S_ISVTX), ('T', S_ISVTX), ('-', 0)] ]

/-- The bits set by the text `p`, column by column; what follows the last column
is not looked at. -/
def parseColumns : List (List (Char × Mode)) → Str → Option Mode
  | [], _ => some 0
  | _ :: _, [] => none
  | col :: cols, c :: p =>
    match col.lookup c with
    | none => none
    | some bits => (parseColumns cols p).map (bits ||| ·)

/-- The file type a listing may show. -/
def parseFtype : Char → Option SpFtype
  | '-' => some .plainfile
  | 'd' => some .directory
  | 'l' => some .symlink
  | _ => none

/-- `parse_file_mode`: the type and the mode of a file. -/
def parseFileMode : Str → Option (SpFtype × Mode)
  | [] => none
  | c :: p =>
    match parseFtype c with
    | none => none
    | some ftype => (parseColumns modeColumns p).map (ftype, ·)

/-! ## Dates -/

/-- `SECSPERMIN` and `SECSPERDAY`. -/
def SECSPERMIN : Int := 60
def SECSPERDAY : Int := 60 * 60 * 24

def months : List Str :=
  [['J', 'a', 'n'], ['F', 'e', 'b'], ['M', 'a', 'r'], ['A', 'p', 'r'], ['M', 'a', 'y'],
    ['J', 'u', 'n'], ['J', 'u', 'l'], ['A', 'u', 'g'], ['S', 'e', 'p'], ['O', 'c', 't'],
    ['N', 'o', 'v'], ['D', 'e', 'c']]

/-- The fields of `struct tm` that `parse_row` fills from the text. -/
structure Tm where
  tmYear : Int
  tmMon : Int
  tmMday : Int
  tmHour : Int
  tmMin : Int
  tmSec : Int
deriving DecidableEq, Repr

/-- What `parse_row` asks the C library: `localtime` of now (`tm_mon` and
`tm_year`), and `mktime`. -/
structure RowEnv where
  nowMon : Int
  nowYear : Int
  mktime : Tm → Int

/-- The year of a date without one: the last time that month has come. -/
def RowEnv.recentYear (env : RowEnv) (mon : Int) : Int :=
  if env.nowMon < mon then env.nowYear - 1 else env.nowYear

/-- The year field of `parse_row`: the date and its granularity, and the saved
pointer of `strtok` behind the last token of the date. -/
def parseYear (env : RowEnv) (mon mday : Int) (tok : Str) (save : Option Str) :
    Option (Tm × Int × Option Str) :=
  match scanInts 3 tok with
  | [year] => some (⟨year, mon, mday, 0, 0, 0⟩, SECSPERDAY, save)
  | [hour, min] => some (⟨env.recentYear mon, mon, mday, hour, min, 0⟩, SECSPERMIN, save)
  | [hour, min, sec] =>
    match strtokNext ' ' save with
    | none => none
    | some (tok, save) =>
      match scanInt tok with
      | none => some (⟨env.recentYear mon, mon, mday, hour, min, sec⟩, 0, save)
      | some (year, _) => some (⟨year, mon, mday, hour, min, sec⟩, 0, save)
  | _ => none

/-- `tm_year` counts from 1900. -/
def Tm.fromYear1900 (tm : Tm) : Tm :=
  { tm with tmYear := if tm.tmYear ≥ 1900 then tm.tmYear - 1900 else tm.tmYear }

/-! ## The row -/

/-- The size of the row and the token of its month. The size is in the fourth
field or, where there is a group, in the fifth. -/
def parseSize (save : Option Str) : Option (Int × Str × Option Str) :=
  match strtokNext ' ' save with
  | none => none
  | some (tok, save) =>
    let size := strtol tok
    match strtokNext ' ' save with
    | none => none
    | some (tok, save) =>
      let size' := strtol tok
      if size'.2 = [] then (strtokNext ' ' save).map fun t => (size'.1, t)
      else if size.2 = [] then some (size.1, tok, save)
      else none

/-- `tok[strlen(tok) - 1] = '\0'` if that is the character `c`. -/
def trimLast (c : Char) (tok : Str) : Str :=
  if tok.getLast? = some c then tok.dropLast else tok

/-- The text behind the last token of the date, or what `leftover` holds where
that token ended the row. -/
def nameText (save : Option Str) (leftover : Str) : Option Str :=
  match save with
  | some [] => none
  | some rest => some rest
  | none => some (cstr leftover)

def arrow : Str := [' ', '-', '>', ' ']

/-- The name and the target of a symbolic link from the text of the name. The
test of the mode bits before `'*'` is stripped is an or, so it always holds; the
test for `'@'` looks at the NUL, so it never does. -/
def parseName (ftype : SpFtype) (mode : Mode) (tok : Str) : Option (Str × Option Str) :=
  let tok := if ftype = .directory then trimLast '/' tok else tok
  let tok := if mode ||| S_IXUSR ||| S_IXGRP ||| S_IXOTH ≠ 0 then trimLast '*' tok else tok
  if ftype = .symlink then
    (strstr arrow tok).map fun p => (p.1, some (p.2.drop 4))
  else some (tok, none)

/-- `parse_row`. -/
def parseRow (env : RowEnv) (row leftover : Str) : Option SpFile := do
  -- permissions
  let (tok, save) ← strtok ' ' row
  let (ftype, mode) ← parseFileMode tok
  -- link count, group or user
  let save := strtokSkip ' ' (strtokSkip ' ' save)
  let (size, tok, save) ← parseSize save
  let mon ← months.idxOf? tok
  let (tok, save) ← strtokNext ' ' save
  let (mday, _) ← scanInt tok
  let (tok, save) ← strtokNext ' ' save
  let (tm, tgranul, save) ← parseYear env mon mday tok save
  let tok ← nameText save leftover
  let (name, link) ← parseName ftype mode tok
  return {
    spfTime := env.mktime tm.fromYear1900
    spfTgranul := tgranul
    spfType := ftype
    spfOpt := {}
    spfSize := size
    spfMode := mode
    spfName := name
    spfSymlink := link
    spfOrigName := none }

/-! ## What a row can give -/

/-- A symbolic link comes with its target. -/
def SpFile.Linked (spf : SpFile) : Prop := spf.spfType = .symlink → spf.spfSymlink ≠ none

instance (spf : SpFile) : Decidable spf.Linked :=
  inferInstanceAs (Decidable (spf.spfType = .symlink → spf.spfSymlink ≠ none))

theorem S_IXUSR_or_ne_zero (mode : Mode) : mode ||| S_IXUSR ||| S_IXGRP ||| S_IXOTH ≠ 0 := by
  intro h
  have hbit := congrArg (fun m : Mode => m.getLsbD 0) h
  simp [S_IXUSR, S_IXGRP, S_IXOTH] at hbit

theorem trimLast_of_ne {c : Char} {tok : Str} (h : tok.getLast? ≠ some c) : trimLast c tok = tok :=
  if_neg h

theorem trimLast_concat (c : Char) (tok : Str) : trimLast c (tok ++ [c]) = tok := by
  rw [trimLast, List.getLast?_concat, if_pos rfl, List.dropLast_concat]

theorem trimLast_eq_self_iff {c : Char} {tok : Str} :
    trimLast c tok = tok ↔ tok.getLast? ≠ some c := by
  refine ⟨fun h hlast => ?_, trimLast_of_ne⟩
  rw [trimLast, if_pos hlast] at h
  have hlen := congrArg List.length h
  rw [List.length_dropLast] at hlen
  cases tok with
  | nil => simp at hlast
  | cons x tok => simp at hlen

/-- The test of the mode bits before `'*'` is stripped holds. -/
theorem parseName_eq (ftype : SpFtype) (mode : Mode) (tok : Str) :
    parseName ftype mode tok =
      let tok := trimLast '*' (if ftype = .directory then trimLast '/' tok else tok)
      if ftype = .symlink then (strstr arrow tok).map fun p => (p.1, some (p.2.drop 4))
      else some (tok, none) := by
  unfold parseName
  simp only [S_IXUSR_or_ne_zero mode, ne_eq, not_false_eq_true, if_true]

/-- The saved pointer of `strtok` after `n` more tokens. -/
def skipTokens : Nat → Option Str → Option Str
  | 0, save => save
  | n + 1, save => skipTokens n (strtokSkip ' ' save)

/-- The token that comes `n` tokens behind the saved pointer. -/
def tokenAt (n : Nat) (save : Option Str) : Str :=
  match strtokNext ' ' (skipTokens n save) with
  | none => []
  | some (tok, _) => tok

/-- The saved pointer behind the permissions of a row. -/
def afterMode (row : Str) : Option Str := (strtok ' ' row).bind Prod.snd

/-- How many tokens of a row come behind the permissions and before the name:
links, owner, size, month, day and year, a group before the size, and a year
behind a time with seconds. -/
def dateTokens (row : Str) : Nat :=
  let group := if (strtol (tokenAt 3 (afterMode row))).2 = [] then 1 else 0
  let seconds := if (scanInts 3 (tokenAt (5 + group) (afterMode row))).length = 3 then 1 else 0
  6 + group + seconds

/-- The file type that a row shows. -/
def rowFtype (row : Str) : Option SpFtype :=
  match strtok ' ' row with
  | some (c :: _, _) => parseFtype c
  | _ => none

/-- The text in which a row names its file: what follows the date. -/
def nameField (row leftover : Str) : Option Str :=
  nameText (skipTokens (dateTokens row) (afterMode row)) leftover

theorem skipTokens_add (m n : Nat) (save : Option Str) :
    skipTokens (m + n) save = skipTokens n (skipTokens m save) := by
  induction m generalizing save with
  | zero => rw [Nat.zero_add]; rfl
  | succ m ih => rw [Nat.succ_add]; exact ih _

/-- A token that was found is the one that is skipped. -/
theorem strtokSkip_of_next {save : Option Str} {tok : Str} {save' : Option Str}
    (h : strtokNext ' ' save = some (tok, save')) : strtokSkip ' ' save = save' := by
  unfold strtokSkip
  rw [h]
  rfl

theorem tokenAt_of_next {n : Nat} {save : Option Str} {tok : Str} {save' : Option Str}
    (h : strtokNext ' ' (skipTokens n save) = some (tok, save')) : tokenAt n save = tok := by
  unfold tokenAt
  rw [h]

theorem skipTokens_succ_of_next {n : Nat} {save : Option Str} {tok : Str} {save' : Option Str}
    (h : strtokNext ' ' (skipTokens n save) = some (tok, save')) :
    skipTokens (n + 1) save = save' := by
  rw [skipTokens_add]
  exact strtokSkip_of_next h

/-- Where the size and the month are. -/
theorem parseSize_some {save : Option Str} {size : Int} {tok : Str} {save' : Option Str}
    (h : parseSize (skipTokens 2 save) = some (size, tok, save')) :
    skipTokens (4 + if (strtol (tokenAt 3 save)).2 = [] then 1 else 0) save = save' := by
  unfold parseSize at h
  cases h₁ : strtokNext ' ' (skipTokens 2 save) with
  | none => rw [h₁] at h; simp at h
  | some t₁ =>
    obtain ⟨tok₁, save₁⟩ := t₁
    have hs₁ : skipTokens 3 save = save₁ := skipTokens_succ_of_next h₁
    rw [h₁] at h
    simp only at h
    cases h₂ : strtokNext ' ' save₁ with
    | none => rw [h₂] at h; simp at h
    | some t₂ =>
      obtain ⟨tok₂, save₂⟩ := t₂
      rw [← hs₁] at h₂
      have hs₂ : skipTokens 4 save = save₂ := skipTokens_succ_of_next h₂
      rw [tokenAt_of_next h₂]
      rw [← hs₁, h₂] at h
      simp only at h
      split at h
      · next hnum =>
        rw [if_pos hnum]
        cases h₃ : strtokNext ' ' save₂ with
        | none => rw [h₃] at h; simp at h
        | some t₃ =>
          obtain ⟨tok₃, save₃⟩ := t₃
          rw [h₃] at h
          simp only [Option.map_some, Option.some.injEq, Prod.mk.injEq] at h
          rw [← hs₂] at h₃
          rw [skipTokens_succ_of_next h₃]
          exact h.2.2
      · next hnum =>
        rw [if_neg hnum]
        split at h
        · simp only [Option.some.injEq, Prod.mk.injEq] at h
          rw [Nat.add_zero, hs₂]
          exact h.2.2
        · simp at h

/-- Without a group the month stands where the size would. -/
theorem parseSize_month {save : Option Str} {size : Int} {tok : Str} {save' : Option Str}
    (h : parseSize (skipTokens 2 save) = some (size, tok, save'))
    (hnum : (strtol (tokenAt 3 save)).2 ≠ []) : tok = tokenAt 3 save := by
  unfold parseSize at h
  cases h₁ : strtokNext ' ' (skipTokens 2 save) with
  | none => rw [h₁] at h; simp at h
  | some t₁ =>
    obtain ⟨tok₁, save₁⟩ := t₁
    rw [h₁] at h
    simp only at h
    cases h₂ : strtokNext ' ' save₁ with
    | none => rw [h₂] at h; simp at h
    | some t₂ =>
      obtain ⟨tok₂, save₂⟩ := t₂
      rw [h₂] at h
      rw [← (skipTokens_succ_of_next h₁ : skipTokens 3 save = save₁)] at h₂
      rw [tokenAt_of_next h₂] at hnum ⊢
      simp only at h
      rw [if_neg hnum] at h
      split at h
      · exact (Prod.mk.inj (Prod.mk.inj (Option.some.inj h)).2).1.symm
      · simp at h

/-- Where the date ends. -/
theorem parseYear_some {env : RowEnv} {mon mday : Int} {tok : Str} {save : Option Str} {tm : Tm}
    {tgranul : Int} {save' : Option Str}
    (h : parseYear env mon mday tok save = some (tm, tgranul, save')) :
    skipTokens (if (scanInts 3 tok).length = 3 then 1 else 0) save = save' := by
  unfold parseYear at h
  split at h
  · next hs =>
    simp only [Option.some.injEq, Prod.mk.injEq] at h
    rw [hs]
    exact h.2.2
  · next hs =>
    simp only [Option.some.injEq, Prod.mk.injEq] at h
    rw [hs]
    exact h.2.2
  · next hs =>
    rw [hs]
    cases hy : strtokNext ' ' save with
    | none => rw [hy] at h; simp at h
    | some t =>
      obtain ⟨tok', save₁⟩ := t
      rw [hy] at h
      have hskip : skipTokens 1 save = save₁ := strtokSkip_of_next hy
      simp only at h
      split at h <;>
      · simp only [Option.some.injEq, Prod.mk.injEq] at h
        rw [← h.2.2]
        exact hskip
  · simp at h

theorem parseFtype_ne_unknown {c : Char} {ftype : SpFtype} (h : parseFtype c = some ftype) :
    ftype ≠ .unknown := by
  rintro rfl
  unfold parseFtype at h
  split at h <;> simp at h

/-- The type of a mode is that of its first letter. -/
theorem parseFileMode_some {p : Str} {ftype : SpFtype} {mode : Mode}
    (h : parseFileMode p = some (ftype, mode)) : ∃ c q, p = c :: q ∧ parseFtype c = some ftype := by
  cases p with
  | nil => simp [parseFileMode] at h
  | cons c p =>
    rw [parseFileMode] at h
    cases hc : parseFtype c with
    | none => rw [hc] at h; simp at h
    | some t =>
      rw [hc] at h
      simp only [Option.map_eq_some_iff, Prod.mk.injEq] at h
      obtain ⟨_, -, rfl, -⟩ := h
      exact ⟨c, p, rfl, hc⟩

/-! ## The fields before the name -/

/-- What `parse_row` knows before it comes to the name. -/
structure RowFields where
  ftype : SpFtype
  mode : Mode
  size : Int
  tm : Tm
  tgranul : Int

/-- The fields before the name, and the saved pointer behind the date. -/
def rowFields (env : RowEnv) (row : Str) : Option (RowFields × Option Str) := do
  let (tok, save) ← strtok ' ' row
  let (ftype, mode) ← parseFileMode tok
  let save := strtokSkip ' ' (strtokSkip ' ' save)
  let (size, tok, save) ← parseSize save
  let mon ← months.idxOf? tok
  let (tok, save) ← strtokNext ' ' save
  let (mday, _) ← scanInt tok
  let (tok, save) ← strtokNext ' ' save
  let (tm, tgranul, save) ← parseYear env mon mday tok save
  return (⟨ftype, mode, size, tm, tgranul⟩, save)

/-- An entry, from its fields, its name and its target. -/
def RowFields.entry (env : RowEnv) (f : RowFields) (name : Str) (link : Option Str) : SpFile :=
  { spfTime := env.mktime f.tm.fromYear1900
    spfTgranul := f.tgranul
    spfType := f.ftype
    spfOpt := {}
    spfSize := f.size
    spfMode := f.mode
    spfName := name
    spfSymlink := link
    spfOrigName := none }

theorem parseRow_eq (env : RowEnv) (row leftover : Str) :
    parseRow env row leftover = (rowFields env row).bind fun f =>
      (nameText f.2 leftover).bind fun tok =>
        (parseName f.1.ftype f.1.mode tok).map fun p => f.1.entry env p.1 p.2 := by
  unfold parseRow rowFields
  simp only [Option.bind_eq_bind, Option.pure_def]
  cases strtok ' ' row with
  | none => rfl
  | some t₀ =>
    simp only [Option.bind_some]
    cases parseFileMode t₀.1 with
    | none => rfl
    | some m =>
      simp only [Option.bind_some]
      cases parseSize (strtokSkip ' ' (strtokSkip ' ' t₀.2)) with
      | none => rfl
      | some s =>
        simp only [Option.bind_some]
        cases months.idxOf? s.2.1 with
        | none => rfl
        | some mon =>
          simp only [Option.bind_some]
          cases strtokNext ' ' s.2.2 with
          | none => rfl
          | some t₁ =>
            simp only [Option.bind_some]
            cases scanInt t₁.1 with
            | none => rfl
            | some mday =>
              simp only [Option.bind_some]
              cases strtokNext ' ' t₁.2 with
              | none => rfl
              | some t₂ =>
                simp only [Option.bind_some]
                cases parseYear env mon mday.1 t₂.1 t₂.2 with
                | none => rfl
                | some y =>
                  simp only [Option.bind_some, Option.map_eq_bind]
                  rfl

/-- Where the fields end. -/
theorem rowFields_some {env : RowEnv} {row : Str} {f : RowFields} {save : Option Str}
    (h : rowFields env row = some (f, save)) :
    f.ftype ≠ .unknown ∧ rowFtype row = some f.ftype ∧
      save = skipTokens (dateTokens row) (afterMode row) := by
  unfold rowFields at h
  simp only [Option.bind_eq_bind, Option.bind_eq_some_iff, Option.pure_def, Option.some.injEq,
    Prod.exists] at h
  obtain ⟨tok₀, save₀, h₀, ftype, mode, hmode, h⟩ := h
  obtain ⟨size, tok₁, save₁, hsize, mon, hmon, h⟩ := h
  obtain ⟨tok₂, save₂, h₂, mday, rest, hmday, h⟩ := h
  obtain ⟨tok₃, save₃, h₃, tm, tgranul, save₄, hyear, h⟩ := h
  obtain ⟨rfl, rfl⟩ := Prod.mk.inj h
  have hafter : afterMode row = save₀ := by
    unfold afterMode
    rw [h₀]
    rfl
  have hs₁ := parseSize_some (hsize : parseSize (skipTokens 2 save₀) = _)
  obtain ⟨c, q, rfl, hc⟩ := parseFileMode_some hmode
  have hftype : rowFtype row = some ftype := by
    unfold rowFtype
    rw [h₀]
    exact hc
  refine ⟨parseFtype_ne_unknown hc, hftype, ?_⟩
  unfold dateTokens
  rw [hafter]
  generalize (if (strtol (tokenAt 3 save₀)).2 = [] then 1 else 0) = group at hs₁ ⊢
  rw [← hs₁] at h₂
  have hs₂ := skipTokens_succ_of_next h₂
  rw [← hs₂] at h₃
  have hs₃ := skipTokens_succ_of_next h₃
  have htok : tokenAt (5 + group) save₀ = tok₃ := by
    rw [show 5 + group = 4 + group + 1 by omega]
    exact tokenAt_of_next h₃
  simp only [htok]
  rw [skipTokens_add, show 6 + group = 4 + group + 1 + 1 by omega, hs₃, parseYear_some hyear]

/-- What `parse_row` makes of a row it accepts: the type is known, and the name
and the target come from the text behind the date. -/
theorem parseRow_some {env : RowEnv} {row leftover : Str} {spf : SpFile}
    (h : parseRow env row leftover = some spf) :
    spf.spfType ≠ .unknown ∧ rowFtype row = some spf.spfType ∧
      ∃ tok, nameField row leftover = some tok ∧
        parseName spf.spfType spf.spfMode tok = some (spf.spfName, spf.spfSymlink) := by
  rw [parseRow_eq] at h
  obtain ⟨⟨f, save⟩, hf, h⟩ := Option.bind_eq_some_iff.mp h
  obtain ⟨tok, htok, h⟩ := Option.bind_eq_some_iff.mp h
  obtain ⟨⟨name, link⟩, hname, rfl⟩ := Option.map_eq_some_iff.mp h
  obtain ⟨hknown, hftype, rfl⟩ := rowFields_some hf
  exact ⟨hknown, hftype, tok, htok, hname⟩

theorem parseRow_linked {env : RowEnv} {row leftover : Str} {spf : SpFile}
    (h : parseRow env row leftover = some spf) : spf.Linked := by
  obtain ⟨-, -, tok, -, hparse⟩ := parseRow_some h
  intro hlink
  unfold parseName at hparse
  rw [hlink] at hparse
  simp only [reduceCtorEq, if_false, if_true, Option.map_eq_some_iff, Prod.mk.injEq] at hparse
  obtain ⟨p, -, -, hp⟩ := hparse
  rw [← hp]
  simp

end Spegla
