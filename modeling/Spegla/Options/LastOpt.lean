import Spegla.Options.ConfigFile
import Spegla.Options.FileCalls

/-!
# The last option (`tgetopt.c`, `tgetopt_strerror`)

`tgetopt_strerror` takes the name of the entry `gos_last_opt` of the table before it looks at the
error.

- `FindsName`: the next option that a file names is in the table. `KnownNext`: the next option of
  the command line is.
- `BeforeCalls`: a condition on the state before each of a number of calls.
- `lastOpt_isEntry`: where it holds of all of them, `gos_last_opt` is the index of an entry.
-/

namespace Spegla

open CString

/-! ## Files -/

/-- An option of the table. -/
def Known (go : List GetOpt) (name : Str) : Prop := ∃ g ∈ go, g.goName = name

/-- The first row of the section that names an option names one of the table, and there is no
malformed section identifier before it. The rows are read into the buffer. -/
inductive FindsName (go : List GetOpt) (path : Str) : Bool → Str → ConfFile → Prop where
  | blank {inSect buf fp line fp'} : fp.fgets MAX_STR = some (line, fp') →
      tokenIn (chomp (overlay line buf)) = some none →
      FindsName go path inSect (chomp (overlay line buf)) fp' → FindsName go path inSect buf fp
  | skipped {inSect buf fp line fp' tok rest} : fp.fgets MAX_STR = some (line, fp') →
      tokenIn (chomp (overlay line buf)) = some (some (tok, rest)) → ¬IsHeader tok →
      rowEnds (some tok) ∨ inSect = false →
      FindsName go path inSect (chomp (overlay line buf)) fp' → FindsName go path inSect buf fp
  | header {inSect buf fp line fp' tok rest next} : fp.fgets MAX_STR = some (line, fp') →
      tokenIn (chomp (overlay line buf)) = some (some (tok, rest)) → IsHeader tok →
      tok.getLast? = some ']' → tokenIn rest = some next →
      rowEnds (next.map Prod.fst) ∨ tok ≠ header path →
      FindsName go path (tok = header path) (chomp (overlay line buf)) fp' →
      FindsName go path inSect buf fp
  | named {buf fp line fp' tok rest} : fp.fgets MAX_STR = some (line, fp') →
      tokenIn (chomp (overlay line buf)) = some (some (tok, rest)) → ¬IsHeader tok →
      ¬rowEnds (some tok) → Known go tok → FindsName go path true buf fp
  | namedBehind {inSect buf fp line fp' rest name rest'} : fp.fgets MAX_STR = some (line, fp') →
      tokenIn (chomp (overlay line buf)) = some (some (header path, rest)) →
      tokenIn rest = some (some (name, rest')) → ¬rowEnds (some name) → Known go name →
      FindsName go path inSect buf fp

section Files

variable {gos gos' : GetOptState} {tok : Str}

/-- The first row of a file that is read as rows. -/
theorem findsName_first {go : List GetOpt} {path : Str} {fp : ConfFile} {toks : List Str}
    {rows : List (List Str)} (h : RowsOf fp ((tok :: toks) :: rows)) (hh : ¬IsHeader tok)
    (hends : ¬rowEnds (some tok)) (hknown : Known go tok) (buf : Str) :
    FindsName go path true buf fp := by
  rcases h with _ | ⟨hline, ht, -⟩
  rename_i line fp'
  have hmem := ht.append (buf.drop (line.length + 1))
  rw [← chomp_overlay] at hmem
  cases hmem with
  | cons htok _ => exact .named hline htok hh hends hknown

/-- A name of the table is found there. -/
theorem lookUp_known (h : Known gos.gosGo tok) :
    ∃ lopt gos', lookUp gos tok = .goOn lopt gos' ∧ IsEntry gos'.gosGo gos'.gosLastOpt := by
  obtain ⟨g, hg, hname⟩ := h
  cases hfind : gos.gosGo.findIdx? (·.goName = tok) with
  | none =>
    have hno := List.findIdx?_eq_none_iff.mp hfind g hg
    simp [hname] at hno
  | some lopt =>
    have hlt := (List.findIdx?_eq_some_iff_getElem.mp hfind).1
    refine ⟨lopt, { gos with gosLastOpt := lopt }, ?_, Int.natCast_nonneg _, Int.ofNat_lt.mpr hlt⟩
    rw [lookUp, hfind]

/-- A row with such a name goes on with its entry. -/
theorem optionRow_known (gos : GetOptState) (hs : gos.gosInSect = true)
    (hends : ¬rowEnds (some tok))
    (h : Known gos.gosGo tok) :
    ∃ lopt gos', optionRow gos (some tok) = .goOn lopt gos' ∧
      IsEntry gos'.gosGo gos'.gosLastOpt := by
  rw [optionRow, if_neg hends, if_neg (not_not_intro hs)]
  exact lookUp_known h

/-- Behind the look up, the entry stays one. -/
theorem fileLoop_goOn {fuel : Nat} {haveDelim : Bool} {call : OptCall} {lopt : Int}
    {gos₁ : GetOptState} (hrow : beginRow gos = some (.goOn lopt gos₁))
    (hi : IsEntry gos₁.gosGo gos₁.gosLastOpt)
    (h : fileLoop fuel haveDelim gos = some (call, gos')) : IsEntry gos'.gosGo gos'.gosLastOpt := by
  cases fuel with
  | zero => cases h
  | succ fuel =>
    simp only [fileLoop, hrow, Option.bind_eq_bind, Option.bind_some] at h
    obtain ⟨step, harg, h⟩ := Option.bind_eq_some_iff.mp h
    have hi' := (rowArg_kept harg ((beginRow_kept hrow).goOn rfl)).isEntry hi
    cases step with
    | restart gos₂ =>
      obtain ⟨⟨_, _⟩, hloop, h⟩ := Option.bind_eq_some_iff.mp h
      cases h
      exact (fileLoop_kept hloop).isEntry hi'
    | ret call' gos₂ =>
      cases h
      exact hi'
    | goOn => cases h

/-- `get_opt_file` needs a new row, from this place of the file. -/
structure AtRow (go : List GetOpt) (path : Str) (inSect : Bool) (buf : Str) (fp : ConfFile)
    (gos : GetOptState) : Prop where
  table : gos.gosGo = go
  path : gos.gosPath = path
  inSect : gos.gosInSect = inSect
  buf : gos.gosBuf = buf
  fp : gos.gosFp = fp
  pos : gos.gosPos < 0

section Rows

variable {go : List GetOpt} {path : Str} {inSect : Bool} {buf line rest : Str} {fp fp' : ConfFile}

/-- What a new line makes of the state. -/
theorem AtRow.newLine (h : AtRow go path inSect buf fp gos)
    (hline : fp.fgets MAX_STR = some (line, fp')) :
    beginRow gos = parseRowStart
      { gos with gosPos := 0, gosBuf := chomp (overlay line buf), gosFp := fp' } := by
  rw [beginRow, if_pos h.pos, newRow, ← h.buf]
  simp only [h.fp, hline]

/-- A row that begins without section identifier. -/
theorem AtRow.plain (h : AtRow go path inSect buf fp gos)
    (hline : fp.fgets MAX_STR = some (line, fp'))
    (htok : tokenIn (chomp (overlay line buf)) = some (some (tok, rest))) (hh : ¬IsHeader tok) :
    ∃ pos, beginRow gos = some (optionRow
      { gos with gosPos := pos, gosBuf := chomp (overlay line buf), gosFp := fp' } (some tok)) := by
  have hp : PointsTo (chomp (overlay line buf)) 0 (chomp (overlay line buf)) := ⟨Int.le_refl 0, rfl⟩
  obtain ⟨pos, hnext, -⟩ := nextToken_some hp htok
  have hhead : ¬tok.headD nul = '[' := hh
  refine ⟨pos, ?_⟩
  rw [h.newLine hline]
  simp only [parseRowStart, hnext, Option.bind_eq_bind, Option.bind_some, if_neg hhead]
  rfl

/-- A row that begins with one. -/
theorem AtRow.behind (h : AtRow go path inSect buf fp gos)
    (hline : fp.fgets MAX_STR = some (line, fp'))
    (htok : tokenIn (chomp (overlay line buf)) = some (some (tok, rest))) (hh : IsHeader tok)
    (hl : tok.getLast? = some ']') {next : Option (Str × Str)} (hnext : tokenIn rest = some next) :
    ∃ pos, beginRow gos = some (optionRow
      { gos with
        gosPos := pos, gosBuf := chomp (overlay line buf), gosFp := fp'
        gosInSect := decide (tok = header path) } (next.map Prod.fst)) := by
  have hp : PointsTo (chomp (overlay line buf)) 0 (chomp (overlay line buf)) := ⟨Int.le_refl 0, rfl⟩
  obtain ⟨pos, hfirst, hp'⟩ := nextToken_some hp htok
  have hhead : tok.headD nul = '[' := hh
  have hsect : isSection gos.gosPath tok = decide (tok = header path) := by
    rw [h.path]
    exact Bool.eq_iff_iff.mpr ((isSection_header path hh hl).trans decide_eq_true_iff.symm)
  have hsecond :
      ∃ pos', nextToken (chomp (overlay line buf)) pos = some (next.map Prod.fst, pos') := by
    cases next with
    | none => exact ⟨-1, nextToken_none hp' hnext⟩
    | some r =>
      obtain ⟨name, rest'⟩ := r
      obtain ⟨pos', hpos, -⟩ := nextToken_some hp' hnext
      exact ⟨pos', hpos⟩
  obtain ⟨pos', hsecond⟩ := hsecond
  refine ⟨pos', ?_⟩
  rw [h.newLine hline]
  simp only [parseRowStart, hfirst, hsecond, Option.bind_eq_bind, Option.bind_some, if_pos hhead,
    if_neg (not_not_intro hl), hsect]
  rfl

/-- A row without tokens. -/
theorem AtRow.blank (h : AtRow go path inSect buf fp gos)
    (hline : fp.fgets MAX_STR = some (line, fp'))
    (htok : tokenIn (chomp (overlay line buf)) = some none) :
    ∃ gos₁, beginRow gos = some (.restart gos₁) ∧
      AtRow go path inSect (chomp (overlay line buf)) fp' gos₁ := by
  have hp : PointsTo (chomp (overlay line buf)) 0 (chomp (overlay line buf)) := ⟨Int.le_refl 0, rfl⟩
  refine ⟨{ gos with gosPos := -1, gosBuf := chomp (overlay line buf), gosFp := fp' }, ?_,
    h.table, h.path, h.inSect, rfl, rfl, Int.negSucc_lt_zero 0⟩
  rw [h.newLine hline]
  simp only [parseRowStart, nextToken_none hp htok, Option.bind_eq_bind, Option.bind_some]
  rfl

/-- A row without an option leads to the next one. -/
theorem AtRow.skip (h : AtRow go path inSect buf fp gos) {inSect' : Bool} {pos : Int}
    {buf' : Str} {next : Option Str} (hskip : rowEnds next ∨ inSect' = false)
    (hrow : beginRow gos = some (optionRow
      { gos with gosPos := pos, gosBuf := buf', gosFp := fp', gosInSect := inSect' } next)) :
    ∃ gos₁, beginRow gos = some (.restart gos₁) ∧ AtRow go path inSect' buf' fp' gos₁ := by
  refine ⟨{ gos with gosPos := -1, gosBuf := buf', gosFp := fp', gosInSect := inSect' }, ?_,
    h.table, h.path, rfl, rfl, rfl, Int.negSucc_lt_zero 0⟩
  rw [hrow]
  cases next with
  | none => rfl
  | some name =>
    rw [optionRow]
    split
    · rfl
    · next hends =>
      have hout : inSect' = false := hskip.resolve_left hends
      rw [hout]
      rfl

/-- Behind a row without an option. -/
theorem fileLoop_restart {fuel : Nat} {haveDelim : Bool} {call : OptCall} {gos₁ : GetOptState}
    (hrow : beginRow gos = some (.restart gos₁))
    (h : fileLoop fuel haveDelim gos = some (call, gos')) :
    ∃ fuel' haveDelim', fileLoop fuel' haveDelim' gos₁ = some (call, gos') := by
  cases fuel with
  | zero => cases h
  | succ fuel =>
    simp only [fileLoop, hrow, Option.bind_eq_bind, Option.bind_some] at h
    exact ⟨_, _, h⟩

/-- The loop sets the last option to an entry, if it finds one. -/
theorem fileLoop_finds (hfinds : FindsName go path inSect buf fp) {fuel : Nat} {haveDelim : Bool}
    {call : OptCall} (hat : AtRow go path inSect buf fp gos)
    (h : fileLoop fuel haveDelim gos = some (call, gos')) :
    IsEntry gos'.gosGo gos'.gosLastOpt := by
  induction hfinds generalizing gos fuel haveDelim with
  | @blank inSect buf fp line fp' hline htok _ ih =>
    obtain ⟨gos₁, hrow, hat₁⟩ := hat.blank hline htok
    obtain ⟨fuel', haveDelim', hloop⟩ := fileLoop_restart hrow h
    exact ih hat₁ hloop
  | @skipped inSect buf fp line fp' tok rest hline htok hh hskip _ ih =>
    obtain ⟨pos, hrow⟩ := hat.plain hline htok hh
    rw [← hat.inSect] at hskip
    obtain ⟨gos₁, hrow₁, hat₁⟩ := hat.skip hskip hrow
    rw [hat.inSect] at hat₁
    obtain ⟨fuel', haveDelim', hloop⟩ := fileLoop_restart hrow₁ h
    exact ih hat₁ hloop
  | @header inSect buf fp line fp' tok rest next hline htok hh hl hnext hskip _ ih =>
    obtain ⟨pos, hrow⟩ := hat.behind hline htok hh hl hnext
    obtain ⟨gos₁, hrow₁, hat₁⟩ := hat.skip (hskip.imp_right decide_eq_false) hrow
    obtain ⟨fuel', haveDelim', hloop⟩ := fileLoop_restart hrow₁ h
    exact ih hat₁ hloop
  | @named buf fp line fp' tok rest hline htok hh hends hknown =>
    obtain ⟨pos, hrow⟩ := hat.plain hline htok hh
    rw [← hat.table] at hknown
    obtain ⟨lopt, gos₁, hgoOn, hi⟩ := optionRow_known
      { gos with gosPos := pos, gosBuf := chomp (overlay line buf), gosFp := fp' } hat.inSect hends
      hknown
    rw [hgoOn] at hrow
    exact fileLoop_goOn hrow hi h
  | @namedBehind inSect buf fp line fp' rest name rest' hline htok hnext hends hknown =>
    have hl : (header path).getLast? = some ']' := by
      rw [header, ← List.cons_append, List.getLast?_concat]
    obtain ⟨pos, hrow⟩ := hat.behind hline htok rfl hl hnext
    rw [← hat.table] at hknown
    obtain ⟨lopt, gos₁, hgoOn, hi⟩ := optionRow_known
      { gos with
        gosPos := pos, gosBuf := chomp (overlay line buf), gosFp := fp'
        gosInSect := decide (header path = header path) } (decide_eq_true rfl) hends hknown
    rw [Option.map_some, hgoOn] at hrow
    exact fileLoop_goOn hrow hi h

end Rows

end Files

/-! ## The command line -/

/-- A letter of the string is the short name of an option. -/
def KnownLetter (go : List GetOpt) (larg : Str) (optind : Nat) : Prop :=
  ∃ ch ∈ (larg ++ [nul])[optind]?, ∃ g ∈ go, g.goSname ≠ '?' ∧ ch = g.goSname

/-- A string that may be taken as letters. -/
def IsDash (larg : Str) : Prop := larg.headD nul = '-' ∧ larg.length > 1

/-- The string names an option: a long one, or one by its first letter. -/
def KnownString (go : List GetOpt) (larg : Str) : Prop :=
  if larg.take 2 = ['-', '-'] then
    (longIndex go (larg.drop 2)).isSome ∨ IsDash (larg.drop 2) ∧ KnownLetter go larg 1
  else IsDash larg ∧ KnownLetter go larg 1

/-- What `get_opt_argv` looks at next is the name of an option, or an end of the options. -/
def KnownNext (gos : GetOptState) : Prop :=
  if gos.gosOptind ≠ 0 then ∀ larg ∈ gos.gosArgv.head?, KnownLetter gos.gosGo larg gos.gosOptind
  else gos.gosArgc - 1 = 0 ∨
    ∀ larg ∈ gos.gosArgv.tail.head?, larg = ['-', '-'] ∨ KnownString gos.gosGo larg

/-- The state behind an option of the table. -/
structure TakesEntry (gos gos' : GetOptState) : Prop where
  table : gos'.gosGo = gos.gosGo
  type : gos'.gosType = gos.gosType
  entry : IsEntry gos.gosGo gos'.gosLastOpt

section Argv

variable {gos gos' : GetOptState} {larg : Str} {call : OptCall}

/-- A known letter takes its entry. -/
theorem shortOpt_entry (hknown : KnownLetter gos.gosGo larg gos.gosOptind)
    (h : shortOpt gos larg = some (call, gos')) : TakesEntry gos gos' := by
  obtain ⟨ch, hch, g, hg, hs, rfl⟩ := hknown
  simp only [shortOpt, Option.mem_def.mp hch, Option.bind_eq_bind, Option.bind_some] at h
  split at h
  · next hnone =>
    have hno := List.findIdx?_eq_none_iff.mp hnone g hg
    simp [hs] at hno
  · next lopt hfind =>
    have hlt := (List.findIdx?_eq_some_iff_getElem.mp hfind).1
    have hentry : IsEntry gos.gosGo lopt := ⟨Int.natCast_nonneg _, Int.ofNat_lt.mpr hlt⟩
    obtain ⟨want, -, h⟩ := Option.bind_eq_some_iff.mp h
    split at h
    · obtain ⟨next, -, h⟩ := Option.bind_eq_some_iff.mp h
      cases h
      exact ⟨rfl, rfl, hentry⟩
    · obtain ⟨next, -, h⟩ := Option.bind_eq_some_iff.mp h
      split at h
      · cases h
        exact ⟨rfl, rfl, hentry⟩
      · obtain ⟨value, -, h⟩ := Option.bind_eq_some_iff.mp h
        split at h
        · cases h
          exact ⟨rfl, rfl, hentry⟩
        split at h
        · cases h
          exact ⟨rfl, rfl, hentry⟩
        · cases h
          exact ⟨rfl, rfl, hentry⟩

/-- A long name takes the entry it is found as. -/
theorem longOpt_entry {lopt : Nat} (h : longOpt gos larg lopt = some (call, gos')) :
    TakesEntry gos gos' := by
  obtain ⟨g, hg, h⟩ := Option.bind_eq_some_iff.mp h
  have hlt := (List.getElem?_eq_some_iff.mp hg).1
  have hentry : IsEntry gos.gosGo lopt := ⟨Int.natCast_nonneg _, Int.ofNat_lt.mpr hlt⟩
  split at h
  · split at h
    · cases h
      exact ⟨rfl, rfl, hentry⟩
    · cases h
      exact ⟨rfl, rfl, hentry⟩
  split at h
  · cases h
    exact ⟨rfl, rfl, hentry⟩
  · cases h
    exact ⟨rfl, rfl, hentry⟩

/-- So does whatever else a call reads. -/
theorem otherArg_entry {cur : Str} {args : List Str} (h : otherArg gos larg = some (call, gos'))
    (hargv : gos.gosArgv = cur :: args) (hdash : IsDash larg)
    (hknown : KnownLetter gos.gosGo cur 1) :
    TakesEntry gos gos' := by
  have hcond : larg.headD nul = '-' ∧ larg.length > 1 := hdash
  rw [otherArg, if_pos hcond] at h
  split at h
  · cases h
  · next cur' _ he =>
    rw [hargv] at he
    cases he
    have ht := shortOpt_entry hknown h
    exact ⟨ht.table, ht.type, ht.entry⟩

/-- An option of the table is taken, or the options have ended. -/
theorem getOptArgv_entry (hi : IsEntry gos.gosGo gos.gosLastOpt)
    (hknown : gos.gosErrno ≠ .ok ∨ KnownNext gos) (h : getOptArgv gos = some (call, gos')) :
    TakesEntry gos gos' := by
  rw [getOptArgv] at h
  split at h
  · cases h
    exact ⟨rfl, rfl, hi⟩
  next herrno =>
  have hknown := hknown.resolve_left herrno
  rw [KnownNext] at hknown
  simp only at h
  split at h
  · -- in the middle of a string
    next hopt =>
    rw [if_pos hopt] at hknown
    split at h
    · cases h
    · next larg args hargv =>
      have ht := shortOpt_entry (hknown larg (by rw [hargv]; rfl)) h
      exact ⟨ht.table, ht.type, ht.entry⟩
  next hopt =>
  rw [if_neg hopt] at hknown
  split at h
  · cases h
  next cur argv hargv =>
  split at h
  · cases h
    exact ⟨rfl, rfl, hi⟩
  -- a new argument
  next hargc =>
  split at h
  · cases h
  next larg args =>
  have hstring := hknown.resolve_left hargc larg (by rw [hargv]; rfl)
  split at h
  · cases h
    exact ⟨rfl, rfl, hi⟩
  next hmark =>
  have hstring := hstring.resolve_left hmark
  rw [KnownString] at hstring
  split at h
  · next htake =>
    rw [if_pos htake] at hstring
    split at h
    · have ht := longOpt_entry h
      exact ⟨ht.table, ht.type, ht.entry⟩
    · next hnone =>
      rcases hstring with hsome | ⟨hdash, hletter⟩
      · rw [hnone] at hsome
        cases hsome
      · have ht := otherArg_entry h rfl hdash hletter
        exact ⟨ht.table, ht.type, ht.entry⟩
  · next htake =>
    rw [if_neg htake] at hstring
    have ht := otherArg_entry h rfl hstring.1 hstring.2
    exact ⟨ht.table, ht.type, ht.entry⟩

end Argv

/-! ## Runs -/

/-- Each of the next calls is made in a state with the property. -/
def BeforeCalls (P : GetOptState → Prop) : Nat → GetOptState → Prop
  | 0, _ => True
  | n + 1, gos => P gos ∧ ∀ call gos', tgetopt gos = some (call, gos') → BeforeCalls P n gos'

/-- What calls under a condition keep. -/
theorem tgetopts_keep {P Inv : GetOptState → Prop}
    (hstep : ∀ {gos call gos'}, Inv gos → P gos → tgetopt gos = some (call, gos') → Inv gos')
    {n : Nat} {gos last : GetOptState} {calls : List (OptCall × GosErrno)}
    (hp : BeforeCalls P n gos)
    (hi : Inv gos) (h : tgetopts n gos = some (calls, last)) : Inv last := by
  induction n generalizing gos calls with
  | zero =>
    cases h
    exact hi
  | succ n ih =>
    obtain ⟨⟨call, gos'⟩, hcall, h⟩ := Option.bind_eq_some_iff.mp h
    obtain ⟨⟨calls', last'⟩, hrest, he⟩ := Option.bind_eq_some_iff.mp h
    cases he
    exact ih (hp.2 call gos' hcall) (hstep hi hp.1 hcall) hrest

/-- In a file, an option of the table has been found, or the next one that is named is in the table;
on the command line, there has been an error, or the table has entries, and what is next is an
option of it, or an end. -/
def FindsNext (gos : GetOptState) : Prop :=
  match gos.gosType with
  | .file => 0 ≤ gos.gosLastOpt ∨
      FindsName gos.gosGo gos.gosPath gos.gosInSect gos.gosBuf gos.gosFp
  | .argv => gos.gosErrno ≠ .ok ∨ gos.gosGo ≠ [] ∧ KnownNext gos
  | .env => False

section Runs

variable {gos gos' last : GetOptState} {call : OptCall}

/-- The last option is an entry of the table. -/
structure AtEntry (go : List GetOpt) (gos : GetOptState) : Prop where
  type : gos.gosType = .argv ∨ gos.gosType = .file
  table : gos.gosGo = go
  entry : IsEntry go gos.gosLastOpt

variable {go : List GetOpt}

/-- **A call on the command line** leaves the index of an entry. -/
theorem tgetopt_atEntry (h : AtEntry go gos) (hf : FindsNext gos)
    (hcall : tgetopt gos = some (call, gos')) : AtEntry go gos' := by
  obtain ⟨htype, rfl, hi⟩ := h
  rcases htype with htype | htype
  · rw [FindsNext, htype] at hf
    simp only [tgetopt, htype] at hcall
    have ht := getOptArgv_entry hi (hf.imp_right And.right) hcall
    exact ⟨.inl (ht.type.trans htype), ht.table, ht.entry⟩
  · have hk := tgetopt_kept htype hcall
    have hentry := hk.isEntry hi
    rw [hk.table] at hentry
    exact ⟨.inr (hk.type.trans htype), hk.table, hentry⟩

/-- The first call. -/
theorem tgetopt_argvInit {argc : Int} {argv : List Str}
    (hf : FindsNext (tgetoptArgvInit argc argv go))
    (hcall : tgetopt (tgetoptArgvInit argc argv go) = some (call, gos')) : AtEntry go gos' := by
  have hnext : go ≠ [] ∧ KnownNext (tgetoptArgvInit argc argv go) :=
    hf.resolve_left (not_not_intro rfl)
  have hlen : 0 < go.length := List.length_pos_iff.mpr hnext.1
  have hzero : AtEntry go (tgetoptArgvInit argc argv go) :=
    ⟨.inl rfl, rfl, Int.le_refl 0, Int.ofNat_lt.mpr hlen⟩
  exact tgetopt_atEntry hzero hf hcall

/-- The first call on a file does so too. -/
theorem tgetopt_fileInit {fp : ConfFile} {path : Option Str}
    (hf : FindsNext (tgetoptFileInit fp path go))
    (hcall : tgetopt (tgetoptFileInit fp path go) = some (call, gos')) : AtEntry go gos' := by
  have hfinds := hf.resolve_left (Int.not_le.mpr (Int.negSucc_lt_zero 0))
  have hk := tgetopt_kept rfl hcall
  have hat : AtRow go (path.getD []) (path.getD [] = []) (List.replicate MAX_STR nul) fp
      (tgetoptFileInit fp path go) := ⟨rfl, rfl, rfl, rfl, rfl, Int.negSucc_lt_zero 0⟩
  have hentry := fileLoop_finds hfinds hat hcall
  rw [hk.table] at hentry
  exact ⟨.inr hk.type, hk.table, hentry⟩

/-- The state that a front end begins with. -/
inductive Begins (go : List GetOpt) : GetOptState → Prop where
  | argv (argc : Int) (argv : List Str) : Begins go (tgetoptArgvInit argc argv go)
  | file (fp : ConfFile) (path : Option Str) : Begins go (tgetoptFileInit fp path go)

/-- Where each call finds an option of the table, or an end behind one, the last option is an entry
of it whenever `tgetopt` has returned −1. -/
theorem lastOpt_isEntry {n : Nat} {calls : List (OptCall × GosErrno)} (hbegins : Begins go gos)
    (hfinds : BeforeCalls FindsNext n gos) (hrun : tgetopts n gos = some (calls, last))
    (hfail : ∃ r ∈ calls.getLast?, r.1.ret = -1) :
    IsEntry last.gosGo last.gosLastOpt := by
  cases n with
  | zero =>
    cases hrun
    obtain ⟨r, hr, -⟩ := hfail
    cases hr
  | succ n =>
    obtain ⟨⟨call, gos'⟩, hcall, h⟩ := Option.bind_eq_some_iff.mp hrun
    obtain ⟨⟨calls', last'⟩, hrest, he⟩ := Option.bind_eq_some_iff.mp h
    cases he
    have hfirst : AtEntry go gos' := by
      cases hbegins with
      | argv argc argv => exact tgetopt_argvInit hfinds.1 hcall
      | file fp path => exact tgetopt_fileInit hfinds.1 hcall
    have hlast := tgetopts_keep tgetopt_atEntry (hfinds.2 call gos' hcall) hfirst hrest
    rw [hlast.table]
    exact hlast.entry

end Runs

/-- A file that is one row. -/
def rowFile (row : Str) : ConfFile := { data := row, rest := row, broken := false }

/-- The option `host` without its argument. -/
theorem lastOpt_isEntry_host :
    ∃ last, tgetopts 1 (tgetoptFileInit (rowFile ['h', 'o', 's', 't']) none goTable) =
        some ([({ ret := -1, option := some 6, arg := none }, .argReq)], last) ∧
      IsEntry last.gosGo last.gosLastOpt := by
  have hrows : RowsOf (rowFile ['h', 'o', 's', 't']) [[['h', 'o', 's', 't']]] :=
    rowsOf_text (rowFile ['h', 'o', 's', 't']) (by decide) (by decide)
  have hrow : FindsNext (tgetoptFileInit (rowFile ['h', 'o', 's', 't']) none goTable) :=
    .inr (findsName_first hrows (by decide) (by decide)
      ⟨⟨['h', 'o', 's', 't'], 'h', .reqArg⟩, by decide, rfl⟩ _)
  have hrun : (tgetopts 1
    (tgetoptFileInit (rowFile ['h', 'o', 's', 't']) none goTable)).map Prod.fst =
      some [({ ret := -1, option := some 6, arg := none }, .argReq)] := by decide +kernel
  obtain ⟨⟨calls, last⟩, hcalls, he⟩ := Option.map_eq_some_iff.mp hrun
  obtain rfl : calls = _ := he
  have hbefore : BeforeCalls FindsNext 1
      (tgetoptFileInit (rowFile ['h', 'o', 's', 't']) none goTable) :=
    ⟨hrow, fun _ _ _ => trivial⟩
  exact ⟨last, hcalls, lastOpt_isEntry (.file _ none) hbefore hcalls ⟨_, rfl, rfl⟩⟩

/-- An option that is not in the table. -/
theorem lastOpt_outside :
    (tgetopts 1 (tgetoptFileInit (rowFile ['x']) none goTable)).map
        (fun r => (r.1, r.2.gosLastOpt)) =
      some ([({ ret := -1, option := none, arg := some (some ['x']) }, .unknownOption)], -1) ∧
    ¬IsEntry goTable (-1) := by
  decide +kernel

end Spegla
