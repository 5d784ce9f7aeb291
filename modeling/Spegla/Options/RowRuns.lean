import Spegla.Options.GetOpt

/-!
# Rows of config files (`tgetopt.c`, `get_opt_file`)

What the calls of `tgetopt` give for a file, row by row, as far as the rows are read.

- `ArgsGive`, `OptGives`, `RowGives`, `FileGives`: what is read from a pointer on, up to the first
  error, gives these results.
- `FollowsRows`: a state of `get_opt_file`, between two rows or inside of one, and what it is to
  give.
- `tgetopt_gives`, `tgetopts_gives`: one call, and all of them up to the first error.
-/

namespace Spegla

open CString

/-! ## Reading tokens -/

section Tokens

variable {b m x : Str} {tok rest : Str}

/-- A token that is read does not depend on what is behind it. -/
theorem tokenIn_append {r : Option (Str × Str)} (h : tokenIn m = some r) (x : Str) :
    tokenIn (m ++ x) = some (r.map fun p => (p.1, p.2 ++ x)) := by
  obtain ⟨b, hskip, htok⟩ := Option.bind_eq_some_iff.mp h
  have happ := skipWhite_append hskip x
  simp only [tokenIn, happ, Option.bind_eq_bind, Option.bind_some]
  cases b with
  | nil => cases htok
  | cons c b =>
    simp only [List.cons_append] at htok ⊢
    split at htok
    · next hc =>
      rw [if_pos hc]
      cases htok
      rfl
    · next hc =>
      rw [if_neg hc]
      split at htok
      · next hd =>
        rw [if_pos hd]
        cases htok
        rfl
      · next hd =>
        rw [if_neg hd]
        obtain ⟨p, hp, rfl⟩ := Option.map_eq_some_iff.mp htok
        have hscan := scan_append hp x
        rw [List.cons_append] at hscan
        rw [hscan]
        rfl

/-- A position of the buffer, and the memory from it on. -/
def PointsTo (buf : Str) (pos : Int) (b : Str) : Prop := 0 ≤ pos ∧ buf.drop pos.toNat = b

variable {buf : Str} {pos : Int}

/-- At the end of a row there is no token. -/
theorem nextToken_none (hp : PointsTo buf pos b) (h : tokenIn b = some none) :
    nextToken buf pos = some (none, -1) := by
  rw [nextToken_drop hp.1, hp.2, h]
  rfl

/-- Otherwise the position moves behind the token. -/
theorem nextToken_some (hp : PointsTo buf pos b) (h : tokenIn b = some (some (tok, rest))) :
    ∃ pos', nextToken buf pos = some (some tok, pos') ∧ PointsTo buf pos' rest := by
  have hsuffix : rest <:+ buf := by
    have hb := (tokenIn_rest h).1
    rw [← hp.2] at hb
    exact hb.trans (List.drop_suffix ..)
  have hlen := hsuffix.length_le
  refine ⟨(buf.length : Int) - rest.length, ?_, by omega, ?_⟩
  · rw [nextToken_drop hp.1, hp.2, h]
    rfl
  · have hpos : ((buf.length : Int) - rest.length).toNat = buf.length - rest.length := by omega
    rw [hpos]
    exact (List.suffix_iff_eq_drop.mp hsuffix).symm

end Tokens

/-! ## Rows in the buffer -/

/-- The memory of a row that has been read, without its newline. -/
def rowMem (line : Str) : Str := chomp (line ++ [nul])

/-- The buffer begins with the row. -/
theorem chomp_overlay (line buf : Str) :
    chomp (overlay line buf) = rowMem line ++ buf.drop (line.length + 1) := by
  have hoverlay : overlay line buf = line ++ [nul] ++ buf.drop (line.length + 1) := by
    rw [overlay, List.append_assoc]
    rfl
  have hnul : nul ∈ line ++ [nul] := by simp
  have hcstr := cstr_mem_append hnul (buf.drop (line.length + 1))
  have hlen : (cstr (line ++ [nul])).length - 1 < (line ++ [nul]).length := by
    have := cstr_length_le (line ++ [nul])
    rw [List.length_append, List.length_singleton] at this ⊢
    omega
  rw [hoverlay, chomp, hcstr, rowMem, chomp]
  split
  · exact List.set_append_left _ _ hlen
  · rfl

section Lines

variable {fp fp' : ConfFile} {line s q : Str}

/-- What `fgets` reads. -/
theorem fgets_cases (h : fp.fgets MAX_STR = some (line, fp')) :
    fp.rest = line ++ fp'.rest ∧ fp' = { fp with rest := fp'.rest } ∧
      ((∃ q, '\n' ∉ q ∧ line = q ++ ['\n'] ∧ q.length < MAX_STR - 1) ∨
        ('\n' ∉ line ∧ line.length = MAX_STR - 1) ∨
        ('\n' ∉ line ∧ line.length < MAX_STR - 1 ∧ line ≠ [] ∧ fp'.rest = [] ∧
          fp.broken = false)) := by
  rw [ConfFile.fgets] at h
  cases hline : CString.fgets MAX_STR fp.rest with
  | none =>
    rw [hline] at h
    cases h
  | some r =>
    obtain ⟨l, rest⟩ := r
    simp only [hline] at h
    split at h
    · cases h
    · next hwhole =>
      cases h
      rw [CString.fgets] at hline
      split at hline
      · cases hline
      · next hne =>
        obtain ⟨happ, hcases⟩ := line_cases (MAX_STR - 1) fp.rest
        have hpos : (CString.line (MAX_STR - 1) fp.rest).1 ≠ [] := line_ne_nil (k := 1022) hne
        rw [Option.some.inj hline] at happ hcases hpos
        refine ⟨happ, rfl, ?_⟩
        rcases hcases with hnewline | ⟨hn, hfull⟩ | ⟨hn, hshort, hrest⟩
        · exact .inl hnewline
        · exact .inr (.inl ⟨hn, hfull⟩)
        · refine .inr (.inr ⟨hn, hshort, hpos, hrest, ?_⟩)
          by_contra hbroken
          have hlast : line.getLast? ≠ some '\n' := fun he => hn (List.mem_of_getLast? he)
          have hsize : MAX_STR - 1 + 1 = MAX_STR := rfl
          exact hwhole ⟨by simpa using hbroken, hrest, hlast, by dsimp only at hshort; omega⟩

/-- `fgets` reads a line that fits, with its newline. -/
theorem fgets_newline (hq : '\n' ∉ q) (hlen : q.length < MAX_STR - 1)
    (hrest : fp.rest = q ++ '\n' :: s) :
    fp.fgets MAX_STR = some (q ++ ['\n'], { fp with rest := s }) := by
  rw [ConfFile.fgets, CString.fgets, if_neg (by simp [hrest]), hrest, line_newline hq s hlen]
  exact if_neg (by simp)

/-- It stops where the buffer is full. -/
theorem fgets_full (hq : '\n' ∉ q) (hlen : q.length = MAX_STR - 1) (hrest : fp.rest = q ++ s) :
    fp.fgets MAX_STR = some (q, { fp with rest := s }) := by
  have hne : q ≠ [] := by
    rintro rfl
    cases hlen
  have hline := line_full hq s
  rw [hlen] at hline
  rw [ConfFile.fgets, CString.fgets, if_neg (by simp [hrest, hne]), hrest, hline]
  refine if_neg fun h => ?_
  have hshort := h.2.2.2
  rw [hlen] at hshort
  exact absurd hshort (by decide)

/-- It stops at the end of the file. -/
theorem fgets_end (hq : '\n' ∉ q) (hlen : q.length ≤ MAX_STR - 1) (hne : q ≠ [])
    (hbroken : fp.broken = false) (hrest : fp.rest = q) :
    fp.fgets MAX_STR = some (q, { fp with rest := [] }) := by
  rw [ConfFile.fgets, CString.fgets, if_neg (by rw [hrest]; exact hne), hrest, line_end hq hlen]
  exact if_neg (by simp [hbroken])

/-- What it has read is gone from the file. -/
theorem fgets_some (h : fp.fgets MAX_STR = some (line, fp')) :
    fp'.broken = fp.broken ∧ fp'.rest.length < fp.rest.length := by
  obtain ⟨hrest, hfp, hcases⟩ := fgets_cases h
  have hlen : line.length ≠ 0 := by
    rcases hcases with ⟨q, -, rfl, -⟩ | ⟨-, hfull⟩ | ⟨-, -, hne, -⟩
    · simp
    · rw [hfull]
      decide
    · exact fun he => hne (List.eq_nil_of_length_eq_zero he)
  have happ := congrArg List.length hrest
  rw [List.length_append] at happ
  exact ⟨by rw [hfp], by omega⟩

end Lines

/-- The errno at the end of a file. -/
def ConfFile.ending (fp : ConfFile) : GosErrno := if fp.broken then .eread else .endOfOptions

/-! ## What is read gives results -/

/-- What a call gives, with the errno after it. -/
abbrev OptResult := OptCall × GosErrno

/-- An option without an argument. -/
def noArgResult (g : GetOpt) (i : Nat) : OptResult :=
  if g.goWantArg ≠ .reqArg then ({ ret := 0, option := some i, arg := some none }, .ok)
  else ({ ret := -1, option := some i, arg := none }, .argReq)

/-- An option with an argument. -/
def argResult (g : GetOpt) (i : Nat) (tok : Str) : OptResult :=
  if g.goWantArg = .noArg then
    ({ ret := -1, option := some i, arg := some (some tok) }, .dontAccept)
  else ({ ret := 0, option := some i, arg := some (some tok) }, .ok)

/-- The name of an option that is not in the table. -/
def unknownResult (tok : Str) : OptResult :=
  ({ ret := -1, option := none, arg := some (some tok) }, .unknownOption)

/-- An option with something else than a delimiter behind it. -/
def noDelimResult (i : Nat) : OptResult := ({ ret := -1, option := some i, arg := none }, .syntaxE)

/-- What follows results that may end in an error. -/
def upTo (stops : Bool) (rs rs' : List OptResult) : List OptResult :=
  if stops then rs else rs ++ rs'

/-- The arguments in the rest of a row, up to an error. -/
inductive ArgsGive (g : GetOpt) (i : Nat) : Str → List OptResult → Bool → Prop where
  | ended {b} : tokenIn b = some none → ArgsGive g i b [] false
  | comment {b tok rest} : tokenIn b = some (some (tok, rest)) → rowEnds (some tok) →
      ArgsGive g i b [] false
  | arg {b tok rest rs stops} : tokenIn b = some (some (tok, rest)) → ¬rowEnds (some tok) →
      g.goWantArg ≠ .noArg → ArgsGive g i rest rs stops →
      ArgsGive g i b (argResult g i tok :: rs) stops
  | noArg {b tok rest} : tokenIn b = some (some (tok, rest)) → ¬rowEnds (some tok) →
      g.goWantArg = .noArg → ArgsGive g i b [argResult g i tok] true

/-- An option without an argument. Where the row ends behind it, `quiet` is to hold. -/
inductive BareGives (g : GetOpt) (i : Nat) (quiet : Prop) : Str → List OptResult → Bool → Prop where
  | ended {b} : tokenIn b = some none → g.goWantArg ≠ .reqArg → quiet →
      BareGives g i quiet b [noArgResult g i] false
  | comment {b tok rest rs stops} : tokenIn b = some (some (tok, rest)) → rowEnds (some tok) →
      g.goWantArg ≠ .reqArg → ArgsGive g i rest rs stops →
      BareGives g i quiet b (noArgResult g i :: rs) stops
  | required {b next} : tokenIn b = some next → rowEnds (next.map Prod.fst) →
      g.goWantArg = .reqArg → BareGives g i quiet b [noArgResult g i] true

/-- The rest of a row behind the name of an option. -/
inductive OptGives (g : GetOpt) (i : Nat) (quiet : Prop) : Str → List OptResult → Bool → Prop where
  | bare {b rs stops} : BareGives g i quiet b rs stops → OptGives g i quiet b rs stops
  | noDelim {b tok rest} : tokenIn b = some (some (tok, rest)) → ¬rowEnds (some tok) →
      ¬inSet delimeter (tok.headD nul) → OptGives g i quiet b [noDelimResult i] true
  | bareDelim {b tok rest rs stops} : tokenIn b = some (some (tok, rest)) → ¬rowEnds (some tok) →
      inSet delimeter (tok.headD nul) → BareGives g i quiet rest rs stops →
      OptGives g i quiet b rs stops
  | value {b tok rest tok' rest' rs stops} : tokenIn b = some (some (tok, rest)) →
      ¬rowEnds (some tok) → inSet delimeter (tok.headD nul) →
      tokenIn rest = some (some (tok', rest')) → ¬rowEnds (some tok') →
      ArgsGive g i rest rs stops → OptGives g i quiet b rs stops

/-- A row, or the rest of a row behind a section identifier, in a section of the path or not. -/
inductive NameGives (go : List GetOpt) (quiet : Prop) :
    Bool → Str → List OptResult → Bool → Prop where
  | ended {inSect b} : tokenIn b = some none → NameGives go quiet inSect b [] false
  | skipped {inSect b tok rest} : tokenIn b = some (some (tok, rest)) →
      rowEnds (some tok) ∨ inSect = false → NameGives go quiet inSect b [] false
  | unknown {b tok rest} : tokenIn b = some (some (tok, rest)) → ¬rowEnds (some tok) →
      go.findIdx? (·.goName = tok) = none → NameGives go quiet true b [unknownResult tok] true
  | named {b tok rest i g rs stops} : tokenIn b = some (some (tok, rest)) → ¬rowEnds (some tok) →
      go.findIdx? (·.goName = tok) = some i → go[i]? = some g → OptGives g i quiet rest rs stops →
      NameGives go quiet true b rs stops

/-- A section identifier. -/
def IsHeader (tok : Str) : Prop := tok.headD nul = '['

instance (tok : Str) : Decidable (IsHeader tok) := inferInstanceAs (Decidable (_ = _))

/-- The section identifier of `path`. -/
def header (path : Str) : Str := '[' :: (path ++ [']'])

/-- A row, with the section before it and behind it. -/
inductive RowGives (go : List GetOpt) (path : Str) (quiet : Prop) :
    Bool → Str → List OptResult → Bool → Bool → Prop where
  | malformed {inSect m tok rest} : tokenIn m = some (some (tok, rest)) → IsHeader tok →
      tok.getLast? ≠ some ']' → RowGives go path quiet inSect m [(.failed, .syntaxEs)] true inSect
  | header {inSect m tok rest rs stops} : tokenIn m = some (some (tok, rest)) → IsHeader tok →
      tok.getLast? = some ']' → NameGives go quiet (tok = header path) rest rs stops →
      RowGives go path quiet inSect m rs stops (tok = header path)
  | plain {inSect m rs stops} : (∀ tok rest, tokenIn m = some (some (tok, rest)) → ¬IsHeader tok) →
      NameGives go quiet inSect m rs stops → RowGives go path quiet inSect m rs stops inSect

/-- A file from the position on, with the buffer that its rows are read into. The last result is an
error, and the only one. -/
inductive FileGives (go : List GetOpt) (path : Str) :
    Bool → Str → ConfFile → List OptResult → Prop where
  | ended {inSect buf fp} : fp.fgets MAX_STR = none →
      FileGives go path inSect buf fp [(.failed, fp.ending)]
  | row {inSect buf fp line fp' rs stops inSect' rs'} : fp.fgets MAX_STR = some (line, fp') →
      RowGives go path True inSect (chomp (overlay line buf)) rs stops inSect' →
      (stops = false → FileGives go path inSect' (chomp (overlay line buf)) fp' rs') →
      FileGives go path inSect buf fp (upTo stops rs rs')

/-! ## States and what is left of their file -/

/-- `get_opt_file` is in a row, or before one. Unless the row stops the calls, the rows behind it
are to give these results. -/
structure Awaits (gos : GetOptState) (stops : Bool) (spec : List OptResult) : Prop where
  errno : gos.gosErrno = .ok
  type : gos.gosType = .file
  gives : stops = false →
    FileGives gos.gosGo gos.gosPath gos.gosInSect gos.gosBuf gos.gosFp spec

/-- A state after a result that is no error, and what the calls from it on are to give: it is
between two rows, or in a row behind the name of an option. -/
inductive FollowsRows (gos : GetOptState) : List OptResult → Prop where
  | between {spec} : Awaits gos false spec → gos.gosPos < 0 → FollowsRows gos spec
  | within {i : Nat} {g b rs stops spec} : Awaits gos stops spec → gos.gosLastOpt = i →
      gos.gosGo[i]? = some g → PointsTo gos.gosBuf gos.gosPos b → ArgsGive g i b rs stops →
      FollowsRows gos (upTo stops rs spec)

/-- A row has been left on the way to these results. -/
inductive LeavesRow (fp : ConfFile) : RowStep → List OptResult → Prop where
  | restart {gos spec} : Awaits gos false spec → gos.gosPos < 0 → gos.gosFp = fp →
      LeavesRow fp (.restart gos) spec
  | ret {call gos rs} : (gos.gosErrno = .ok → FollowsRows gos rs) → (gos.gosErrno ≠ .ok → rs = []) →
      (gos.gosErrno.noOption ∨ call.option.isSome) →
      LeavesRow fp (.ret call gos) (call.result gos.gosErrno :: rs)

/-- The beginning of a row has been read on the way to these results. -/
inductive ReadsRow (fp : ConfFile) : RowStep → List OptResult → Prop where
  | leaves {step spec} : LeavesRow fp step spec → ReadsRow fp step spec
  | goOn {gos} {i : Nat} {g b rs stops spec} : Awaits gos stops spec → gos.gosFp = fp →
      gos.gosGo[i]? = some g → PointsTo gos.gosBuf gos.gosPos b → OptGives g i True b rs stops →
      ReadsRow fp (.goOn i gos) (upTo stops rs spec)

section Steps

variable {gos : GetOptState} {i : Nat} {g : GetOpt} {b m tok : Str} {rs spec : List OptResult}
  {stops : Bool} {fp : ConfFile} {pos : Int}

/-- The index that is found is that of an entry. -/
theorem findIdx_entry {go : List GetOpt} {name : Str}
    (h : go.findIdx? (·.goName = name) = some i) : ∃ g, go[i]? = some g := by
  have hi := (List.findIdx?_eq_some_iff_getElem.mp h).1
  exact ⟨_, List.getElem?_eq_getElem hi⟩

/-- An error ends the results. -/
theorem ret_error {call : OptCall} (he : gos.gosErrno ≠ .ok)
    (ho : gos.gosErrno.noOption ∨ call.option.isSome) :
    LeavesRow fp (.ret call gos) [call.result gos.gosErrno] :=
  .ret (fun hok => absurd hok he) (fun _ => rfl) ho

/-- A call that returns an option, with the rest to follow. -/
theorem ret_ok {call : OptCall} (he : gos.gosErrno = .ok) (hf : FollowsRows gos spec)
    (ho : call.option.isSome) : LeavesRow fp (.ret call gos) ((call, .ok) :: spec) := by
  have hret : LeavesRow fp (.ret call gos) (call.result gos.gosErrno :: spec) :=
    .ret (fun _ => hf) (fun hne => absurd he hne) (.inr ho)
  rw [he] at hret
  exact hret

/-- A row that gives nothing leaves what the next ones give. -/
theorem restart_leaves (h : Awaits gos false spec) (hfp : gos.gosFp = fp) :
    LeavesRow fp (.restart { gos with gosPos := -1 }) spec := by
  have hawaits : Awaits { gos with gosPos := -1 } false spec := ⟨h.errno, h.type, h.gives⟩
  exact .restart hawaits (Int.negSucc_lt_zero 0) hfp

/-- What a row begins with, or what follows a section identifier in it. -/
theorem optionRow_reads (h : Awaits gos stops spec) (hp : PointsTo gos.gosBuf gos.gosPos b)
    {inSect : Bool} (hg : NameGives gos.gosGo True inSect b rs stops) (hs : gos.gosInSect = inSect)
    (hfp : gos.gosFp = fp) :
    ∃ next pos, tokenIn b = some next ∧
      nextToken gos.gosBuf gos.gosPos = some (next.map Prod.fst, pos) ∧
      ReadsRow fp (optionRow { gos with gosPos := pos } (next.map Prod.fst))
        (upTo stops rs spec) := by
  have hawaits : ∀ pos, Awaits { gos with gosPos := pos } stops spec :=
    fun _ => ⟨h.errno, h.type, h.gives⟩
  cases hg with
  | ended hb =>
    exact ⟨none, -1, hb, nextToken_none hp hb, .leaves (restart_leaves (hawaits (-1)) hfp)⟩
  | @skipped _ _ tok rest hb hskip =>
    obtain ⟨pos, hnext, -⟩ := nextToken_some hp hb
    refine ⟨some (tok, rest), pos, hb, hnext, ?_⟩
    rw [Option.map_some, optionRow]
    by_cases hends : rowEnds (some tok)
    · rw [if_pos hends]
      exact .leaves (restart_leaves (hawaits pos) hfp)
    · have hout : ¬gos.gosInSect := by
        rw [hs, hskip.resolve_left hends]
        exact Bool.false_ne_true
      rw [if_neg hends, if_pos hout]
      exact .leaves (restart_leaves (hawaits pos) hfp)
  | @unknown _ tok rest hb hends hfind =>
    obtain ⟨pos, hnext, -⟩ := nextToken_some hp hb
    refine ⟨some (tok, rest), pos, hb, hnext, ?_⟩
    rw [Option.map_some, optionRow, if_neg hends, if_neg (not_not_intro hs), lookUp]
    simp only [hfind]
    exact .leaves (ret_error nofun (.inl rfl))
  | @named _ tok rest i g rs stops hb hends hfind hg hopt =>
    obtain ⟨pos, hnext, hp'⟩ := nextToken_some hp hb
    refine ⟨some (tok, rest), pos, hb, hnext, ?_⟩
    rw [Option.map_some, optionRow, if_neg hends, if_neg (not_not_intro hs), lookUp]
    simp only [hfind]
    exact .goOn ⟨h.errno, h.type, h.gives⟩ hfp hg hp' hopt

/-- The comparison finds the section identifier of the path. -/
theorem isSection_header (path : Str) (hh : IsHeader tok) (hl : tok.getLast? = some ']') :
    isSection path tok ↔ tok = header path := by
  cases tok with
  | nil => cases hl
  | cons c tok =>
    obtain rfl : c = '[' := hh
    cases htok : tok.reverse with
    | nil =>
      obtain rfl : tok = [] := List.reverse_eq_nil_iff.mp htok
      cases hl
    | cons d name =>
      obtain rfl : tok = name.reverse ++ [d] := by
        rw [← List.reverse_reverse tok, htok, List.reverse_cons]
      obtain rfl : d = ']' := by
        rw [← List.cons_append, List.getLast?_concat] at hl
        exact Option.some.inj hl
      have hlen : ('[' :: (name.reverse ++ [']'])).length - 2 = name.reverse.length := by
        rw [List.length_cons, List.length_append, List.length_singleton]
        omega
      have htake :
          (('[' :: (name.reverse ++ [']'])).drop 1).take name.reverse.length = name.reverse :=
        List.take_left
      rw [isSection, decide_eq_true_iff, hlen, htake, header, List.cons_inj_right,
        List.append_left_inj]
      constructor
      · rintro ⟨hpath, he⟩
        rw [← he, ← hpath, List.take_length]
      · intro he
        rw [he, List.take_length]
        exact ⟨rfl, rfl⟩

/-- A row in the buffer, from its beginning on. -/
theorem parseRowStart_reads (gos : GetOptState) {inSect : Bool} (he : gos.gosErrno = .ok)
    (ht : gos.gosType = .file) (hp : PointsTo gos.gosBuf gos.gosPos m)
    (hrow : RowGives gos.gosGo gos.gosPath True gos.gosInSect m rs stops inSect)
    (hg : stops = false → FileGives gos.gosGo gos.gosPath inSect gos.gosBuf gos.gosFp spec) :
    ∃ step, parseRowStart gos = some step ∧ ReadsRow gos.gosFp step (upTo stops rs spec) := by
  cases hrow with
  | malformed hb hh hl =>
    rename_i tok rest
    have hhead : tok.headD nul = '[' := hh
    obtain ⟨pos, hnext, -⟩ := nextToken_some hp hb
    simp only [parseRowStart, hnext, Option.bind_eq_bind, Option.bind_some, if_pos hhead, if_pos hl]
    exact ⟨_, rfl, .leaves (ret_error nofun (.inl rfl))⟩
  | header hb hh hl hname =>
    rename_i tok rest
    have hhead : tok.headD nul = '[' := hh
    obtain ⟨pos, hnext, hp'⟩ := nextToken_some hp hb
    have hsect : isSection gos.gosPath tok = decide (tok = header gos.gosPath) :=
      Bool.eq_iff_iff.mpr ((isSection_header gos.gosPath hh hl).trans decide_eq_true_iff.symm)
    have hawaits : Awaits { gos with gosPos := pos, gosInSect := isSection gos.gosPath tok }
        stops spec := by
      rw [hsect]
      exact ⟨he, ht, hg⟩
    obtain ⟨next, pos', -, hnext', hreads⟩ := optionRow_reads hawaits hp' hname hsect rfl
    simp only [parseRowStart, hnext, hnext', Option.bind_eq_bind, Option.bind_some, if_pos hhead,
      if_neg (not_not_intro hl)]
    exact ⟨_, rfl, hreads⟩
  | plain hh hname =>
    have hawaits : Awaits gos stops spec := ⟨he, ht, hg⟩
    obtain ⟨next, pos, hb, hnext, hreads⟩ := optionRow_reads hawaits hp hname rfl rfl
    refine ⟨_, ?_, hreads⟩
    simp only [parseRowStart, hnext, Option.bind_eq_bind, Option.bind_some]
    cases next with
    | none => rfl
    | some r =>
      have hhead : ¬r.1.headD nul = '[' := hh r.1 r.2 hb
      simp only [Option.map_some, if_neg hhead]
      rfl

/-- The next row of the file. -/
theorem beginRow_reads {line : Str} {fp' : ConfFile} {inSect : Bool} (he : gos.gosErrno = .ok)
    (ht : gos.gosType = .file) (hp : gos.gosPos < 0)
    (hline : gos.gosFp.fgets MAX_STR = some (line, fp'))
    (hrow : RowGives gos.gosGo gos.gosPath True gos.gosInSect (chomp (overlay line gos.gosBuf)) rs
      stops inSect)
    (hg : stops = false →
      FileGives gos.gosGo gos.gosPath inSect (chomp (overlay line gos.gosBuf)) fp' spec) :
    ∃ step, beginRow gos = some step ∧ ReadsRow fp' step (upTo stops rs spec) := by
  rw [beginRow, if_pos hp, newRow]
  simp only [hline]
  exact parseRowStart_reads { gos with
    gosPos := 0, gosBuf := chomp (overlay line gos.gosBuf), gosFp :=
      fp' } he ht ⟨Int.le_refl 0, rfl⟩
    hrow hg

/-- At the end of the file. -/
theorem beginRow_end (hp : gos.gosPos < 0) (hend : gos.gosFp.fgets MAX_STR = none) :
    ∃ gos', beginRow gos = some (.ret .failed gos') ∧ gos'.gosErrno = gos.gosFp.ending ∧
      gos.gosFp.ending ≠ .ok := by
  rw [beginRow, if_pos hp, newRow]
  refine ⟨_, by simp only [hend]; rfl, rfl, ?_⟩
  rw [ConfFile.ending]
  split <;> exact nofun

/-- What an entry says about its value. -/
theorem wantArg_entry (hg : gos.gosGo[i]? = some g) : wantArg gos.gosGo i = some g.goWantArg := by
  rw [wantArg, if_neg (by omega), Int.toNat_natCast, hg]
  rfl

/-- An option that may stand without a value gives its result. -/
theorem noArgument_bare (mid : GetOptState) (hg : mid.gosGo[i]? = some g)
    (hw : g.goWantArg ≠ .reqArg) (hf : FollowsRows { mid with gosLastArg := none } spec)
    (he : mid.gosErrno = .ok) :
    ∃ step, noArgument mid i = some step ∧ LeavesRow fp step (noArgResult g i :: spec) := by
  rw [noArgument, wantArg_entry hg, noArgResult, Option.bind_eq_bind, Option.bind_some, if_pos hw,
    if_pos hw]
  exact ⟨_, rfl, ret_ok he hf rfl⟩

/-- An option that may not gives an error. -/
theorem noArgument_required (mid : GetOptState) (hg : mid.gosGo[i]? = some g)
    (hw : g.goWantArg = .reqArg) :
    ∃ step, noArgument mid i = some step ∧ LeavesRow fp step [noArgResult g i] := by
  rw [noArgument, wantArg_entry hg, noArgResult, Option.bind_eq_bind, Option.bind_some,
    if_neg (not_not_intro hw), if_neg (not_not_intro hw)]
  exact ⟨_, rfl, ret_error nofun (.inr rfl)⟩

/-- A value that is taken gives its result. -/
theorem anArgument_taken (mid : GetOptState) (hg : mid.gosGo[i]? = some g)
    (hw : g.goWantArg ≠ .noArg) (hf : FollowsRows { mid with gosLastArg := some tok } spec)
    (he : mid.gosErrno = .ok) :
    ∃ step, anArgument mid i tok = some step ∧ LeavesRow fp step (argResult g i tok :: spec) := by
  simp only [anArgument, wantArg_entry hg, argResult, Option.bind_eq_bind,
    Option.bind_some, if_neg hw]
  exact ⟨_, rfl, ret_ok he hf rfl⟩

/-- A value that is refused gives an error. -/
theorem anArgument_refused (mid : GetOptState) (hg : mid.gosGo[i]? = some g)
    (hw : g.goWantArg = .noArg) :
    ∃ step, anArgument mid i tok = some step ∧ LeavesRow fp step [argResult g i tok] := by
  simp only [anArgument, wantArg_entry hg, argResult, Option.bind_eq_bind,
    Option.bind_some, if_pos hw]
  exact ⟨_, rfl, ret_error nofun (.inr rfl)⟩

/-- Behind the end of a row. -/
theorem follows_end (h : Awaits gos false spec) (i : Nat) (arg : Option Str) :
    FollowsRows { gos with gosLastOpt := i, gosPos := -1, gosLastArg := arg } spec := by
  have hawaits : Awaits { gos with gosLastOpt := i, gosPos := -1, gosLastArg := arg } false spec :=
    ⟨h.errno, h.type, h.gives⟩
  exact .between hawaits (Int.negSucc_lt_zero 0)

/-- Behind a token of a row. -/
theorem follows_row (h : Awaits gos stops spec) (hg : gos.gosGo[i]? = some g)
    (hp : PointsTo gos.gosBuf pos b) (ha : ArgsGive g i b rs stops) (arg : Option Str) :
    FollowsRows { gos with gosLastOpt := i, gosPos := pos, gosLastArg := arg }
      (upTo stops rs spec) := by
  have hawaits : Awaits { gos with gosLastOpt := i, gosPos := pos, gosLastArg := arg } stops spec :=
    ⟨h.errno, h.type, h.gives⟩
  exact .within hawaits rfl hg hp ha

/-- A result in front. -/
theorem upTo_cons (r : OptResult) (rs spec : List OptResult) (stops : Bool) :
    upTo stops (r :: rs) spec = r :: upTo stops rs spec := by
  cases stops <;> rfl

/-- The rest of a row behind an argument. -/
theorem rowArg_more (h : Awaits gos stops spec) (hg : gos.gosGo[i]? = some g)
    (hp : PointsTo gos.gosBuf gos.gosPos b) (ha : ArgsGive g i b rs stops) (hfp : gos.gosFp = fp) :
    ∃ step, rowArg gos i true = some step ∧ LeavesRow fp step (upTo stops rs spec) := by
  have hawaits : ∀ pos, Awaits { gos with gosLastOpt := i, gosPos := pos } stops spec :=
    fun _ => ⟨h.errno, h.type, h.gives⟩
  cases ha with
  | ended hb =>
    simp only [rowArg, nextToken_none hp hb, Option.bind_eq_bind, Option.bind_some]
    exact ⟨_, rfl, restart_leaves (hawaits (-1)) hfp⟩
  | @comment _ tok rest hb hends =>
    obtain ⟨pos, hnext, -⟩ := nextToken_some hp hb
    simp only [rowArg, hnext, Option.bind_eq_bind, Option.bind_some, if_true, if_pos hends]
    exact ⟨_, rfl, restart_leaves (hawaits pos) hfp⟩
  | @arg _ tok rest rs _ hb hends hw ha =>
    obtain ⟨pos, hnext, hp'⟩ := nextToken_some hp hb
    simp only [rowArg, hnext, Option.bind_eq_bind, Option.bind_some, if_true,
      if_neg hends, upTo_cons]
    exact anArgument_taken { gos with gosLastOpt := i, gosPos := pos } hg hw
      (follows_row h hg hp' ha (some tok)) h.errno
  | @noArg _ tok rest hb hends hw =>
    obtain ⟨pos, hnext, -⟩ := nextToken_some hp hb
    simp only [rowArg, hnext, Option.bind_eq_bind, Option.bind_some, if_true, if_neg hends]
    exact anArgument_refused { gos with gosLastOpt := i, gosPos := pos } hg hw

/-- A row that ends behind the name of an option, or behind the delimiter. -/
theorem bare_leaves (h : Awaits gos stops spec) (hg : gos.gosGo[i]? = some g)
    (hp : PointsTo gos.gosBuf pos b) (hb : BareGives g i True b rs stops) :
    ∃ next pos', nextToken gos.gosBuf pos = some (next, pos') ∧ rowEnds next ∧
      ∃ step, noArgument { gos with gosLastOpt := i, gosPos := pos' } i = some step ∧
        LeavesRow fp step (upTo stops rs spec) := by
  cases hb with
  | ended hb hw =>
    exact ⟨none, -1, nextToken_none hp hb, rfl,
      noArgument_bare { gos with gosLastOpt := i, gosPos := -1 } hg hw
        (follows_end h i none) h.errno⟩
  | @comment tok rest rs _ hb hends hw ha =>
    obtain ⟨pos', hnext, hp'⟩ := nextToken_some hp hb
    refine ⟨some tok, pos', hnext, hends, ?_⟩
    rw [upTo_cons]
    exact noArgument_bare { gos with gosLastOpt := i, gosPos := pos' } hg hw
      (follows_row h hg hp' ha none) h.errno
  | @required next hb hends hw =>
    have hreq : ∀ pos', ∃ step,
        noArgument { gos with gosLastOpt := i, gosPos := pos' } i = some step ∧
          LeavesRow fp step [noArgResult g i] :=
      fun pos' => noArgument_required { gos with gosLastOpt := i, gosPos := pos' } hg hw
    cases next with
    | none => exact ⟨none, -1, nextToken_none hp hb, hends, hreq (-1)⟩
    | some r =>
      obtain ⟨pos', hnext, -⟩ := nextToken_some hp hb
      exact ⟨some r.1, pos', hnext, hends, hreq pos'⟩

/-- The rest of a row behind the name of an option. -/
theorem rowArg_first (fp : ConfFile) (h : Awaits gos stops spec) (hg : gos.gosGo[i]? = some g)
    (hp : PointsTo gos.gosBuf gos.gosPos b) (ho : OptGives g i True b rs stops) :
    ∃ step, rowArg gos i false = some step ∧ LeavesRow fp step (upTo stops rs spec) := by
  -- the cases are the ways in which a row can give an option with an argument
  cases ho with
  | bare hb =>
    obtain ⟨next, pos, hnext, hends, hleaves⟩ := bare_leaves h hg hp hb
    simp only [rowArg, hnext, Option.bind_eq_bind, Option.bind_some, Bool.false_eq_true, if_false]
    cases next with
    | none => exact hleaves
    | some tok =>
      simp only [if_pos hends]
      exact hleaves
  | @noDelim tok rest hb hends hdelim =>
    obtain ⟨pos, hnext, -⟩ := nextToken_some hp hb
    simp only [rowArg, hnext, Option.bind_eq_bind, Option.bind_some, Bool.false_eq_true, if_false,
      if_neg hends, if_pos hdelim]
    exact ⟨_, rfl, ret_error nofun (.inr rfl)⟩
  | @bareDelim tok rest _ _ hb hends hdelim hbare =>
    obtain ⟨pos, hnext, hp'⟩ := nextToken_some hp hb
    obtain ⟨next, pos', hnext', hends', hleaves⟩ := bare_leaves h hg hp' hbare
    simp only [rowArg, hnext, hnext', Option.bind_eq_bind, Option.bind_some, Bool.false_eq_true,
      if_false, if_neg hends, if_neg (not_not_intro hdelim)]
    cases next with
    | none => exact hleaves
    | some tok' =>
      simp only [if_pos hends']
      exact hleaves
  | @value tok rest tok' rest' _ _ hb hends hdelim hb' hends' ha =>
    obtain ⟨pos, hnext, hp'⟩ := nextToken_some hp hb
    obtain ⟨pos', hnext', hp''⟩ := nextToken_some hp' hb'
    simp only [rowArg, hnext, hnext', Option.bind_eq_bind, Option.bind_some, Bool.false_eq_true,
      if_false, if_neg hends, if_neg (not_not_intro hdelim), if_neg hends']
    cases ha with
    | ended hb'' =>
      rw [hb'] at hb''
      cases hb''
    | comment hb'' hends'' =>
      rw [hb'] at hb''
      cases hb''
      exact absurd hends'' hends'
    | arg hb'' _ hw ha =>
      rw [hb'] at hb''
      cases hb''
      rw [upTo_cons]
      exact anArgument_taken { gos with gosLastOpt := i, gosPos := pos' } hg hw
        (follows_row h hg hp'' ha (some tok')) h.errno
    | noArg hb'' _ hw =>
      rw [hb'] at hb''
      cases hb''
      exact anArgument_refused { gos with gosLastOpt := i, gosPos := pos' } hg hw

end Steps

/-! ## Calls -/

/-- The call gives the first of these results, and the calls behind it give the others. -/
def Gives (res : Option (OptCall × GetOptState)) (spec : List OptResult) : Prop :=
  ∃ call gos rs, spec = call.result gos.gosErrno :: rs ∧ res = some (call, gos) ∧
    (gos.gosErrno = .ok → FollowsRows gos rs) ∧ (gos.gosErrno ≠ .ok → rs = []) ∧
    (gos.gosErrno.noOption ∨ call.option.isSome)

/-- What was written to `*option` before is no result. -/
theorem OptCall.result_behind {call : OptCall} {err : GosErrno}
    (h : err.noOption ∨ call.option.isSome) (lopt : Int) :
    (call.behind lopt).result err = call.result err := by
  rw [OptCall.result, OptCall.result, OptCall.behind]
  split
  · rfl
  · next hno =>
    obtain ⟨option, ho⟩ := Option.isSome_iff_exists.mp (h.resolve_left hno)
    rw [ho, Option.getD_some, ← ho]

/-- What has been written to `*option` before a row gives nothing. -/
theorem Gives.behind {res : Option (OptCall × GetOptState)} {spec : List OptResult}
    (h : Gives res spec) (lopt : Int) :
    Gives (res.bind fun r => some (r.1.behind lopt, r.2)) spec := by
  obtain ⟨call, gos, rs, rfl, rfl, hf, he, ho⟩ := h
  exact ⟨call.behind lopt, gos, rs, by rw [OptCall.result_behind ho], rfl, hf, he, .inr rfl⟩

section Calls

variable {gos : GetOptState} {spec : List OptResult}

/-- With fuel for all rows that are left. -/
theorem fileLoop_row (h : Awaits gos false spec) (hp : gos.gosPos < 0) {fuel : Nat}
    (hfuel : gos.gosFp.rest.length < fuel) (haveDelim : Bool) :
    Gives (fileLoop fuel haveDelim gos) spec := by
  induction fuel generalizing gos spec haveDelim with
  | zero => omega
  | succ fuel ih =>
    generalize hfp : gos.gosFp = fp at hfuel
    have hgives := h.gives rfl
    rw [hfp] at hgives
    cases hgives with
    | ended hend =>
      obtain ⟨gos', hrow, he, hok⟩ := beginRow_end hp (hfp ▸ hend)
      simp only [fileLoop, hrow, Option.bind_eq_bind, Option.bind_some]
      rw [hfp] at he hok
      have hno : gos'.gosErrno.noOption := by
        rw [he, ConfFile.ending]
        split <;> rfl
      refine ⟨.failed, gos', [], ?_, rfl, fun he' => absurd (he.symm.trans he') hok, fun _ => rfl,
        .inl hno⟩
      rw [OptCall.result, if_pos hno, he]
      rfl
    | row hline hrow hrest =>
      rename_i line fp' _ _ _ _
      obtain ⟨step, hbegin, hreads⟩ := beginRow_reads h.errno h.type hp (hfp ▸ hline) hrow hrest
      have hshort := (fgets_some hline).2
      simp only [fileLoop, hbegin, Option.bind_eq_bind, Option.bind_some]
      generalize upTo _ _ _ = spec at hreads
      cases hreads with
      | leaves hleaves =>
        cases hleaves with
        | restart hawaits hpos hfp' => exact ih hawaits hpos (by rw [hfp']; omega) _
        | ret hf he ho => exact ⟨_, _, _, rfl, rfl, hf, he, ho⟩
      | goOn hawaits hfp' hg hpt ho =>
        obtain ⟨step, harg, hleaves⟩ := rowArg_first fp' hawaits hg hpt ho
        have hdelim : (haveDelim && !decide (gos.gosPos < 0)) = false := by simp [hp]
        simp only [hdelim, harg, Option.bind_some]
        generalize upTo _ _ _ = spec at hleaves
        cases hleaves with
        | restart hawaits hpos hfp'' => exact (ih hawaits hpos (by rw [hfp'']; omega) _).behind _
        | ret hf he ho => exact ⟨_, _, _, rfl, rfl, hf, he, ho⟩

/-- A call, and what the calls behind it give. -/
theorem tgetopt_gives (h : FollowsRows gos spec) : Gives (tgetopt gos) spec := by
  cases h with
  | between h hpos =>
    simp only [tgetopt, h.type, getOptFile, h.errno, ne_eq, not_true_eq_false, if_false]
    exact fileLoop_row h hpos (by omega) true
  | @within i g b rs stops spec h hlast hg hp ha =>
    have hpos : ¬gos.gosPos < 0 := Int.not_lt.mpr hp.1
    obtain ⟨step, harg, hleaves⟩ := rowArg_more h hg hp ha rfl
    simp only [tgetopt, h.type, getOptFile, h.errno, ne_eq, not_true_eq_false, if_false]
    rw [fileLoop]
    simp only [beginRow, hpos, hlast, harg, if_false, Option.bind_eq_bind, Option.bind_some,
      decide_false, Bool.not_false, Bool.and_true]
    generalize upTo stops rs spec = spec' at hleaves
    cases hleaves with
    | restart h' hpos' hfp =>
      exact (fileLoop_row h' hpos' (by rw [hfp]; exact Nat.lt_succ_self _) true).behind i
    | ret hf he ho => exact ⟨_, _, _, rfl, rfl, hf, he, ho⟩

/-- The results of a call and of those behind it. -/
theorem tgetoptResults_cons {n : Nat} {gos last : GetOptState} {call : OptCall}
    (h : tgetopt gos = some (call, last)) :
    tgetoptResults (n + 1) gos =
      (tgetoptResults n last).map (call.result last.gosErrno :: ·) := by
  simp only [tgetoptResults, tgetopts, h, Option.bind_eq_bind, Option.bind_some]
  cases tgetopts n last <;> rfl

/-- Some of the calls up to the first error. -/
theorem tgetopts_take {n : Nat} (h : FollowsRows gos spec) (hn : n ≤ spec.length) :
    ∃ calls last, tgetopts n gos = some (calls, last) ∧ results calls = spec.take n := by
  induction n generalizing gos spec with
  | zero => exact ⟨[], gos, rfl, rfl⟩
  | succ n ih =>
    obtain ⟨call, gos', rs, rfl, hcall, hf, hend, -⟩ := tgetopt_gives h
    rw [List.length_cons] at hn
    have hn := Nat.le_of_succ_le_succ hn
    obtain ⟨calls, last, hrest, hres⟩ : ∃ calls last, tgetopts n gos' = some (calls, last) ∧
        results calls = rs.take n := by
      by_cases hok : gos'.gosErrno = .ok
      · exact ih (hf hok) hn
      · rw [hend hok, List.length_nil, Nat.le_zero] at hn
        rw [hn]
        exact ⟨[], gos', rfl, rfl⟩
    refine ⟨(call, gos'.gosErrno) :: calls, last, ?_, ?_⟩
    · simp only [tgetopts, hcall, Option.bind_eq_bind, Option.bind_some, hrest]
      rfl
    · exact congrArg (call.result gos'.gosErrno :: ·) hres

/-- Calls up to the first error. -/
theorem tgetopts_gives (h : FollowsRows gos spec) : tgetoptResults spec.length gos = some spec := by
  obtain ⟨calls, last, hcalls, hres⟩ := tgetopts_take h (Nat.le_refl _)
  rw [List.take_length] at hres
  rw [tgetoptResults, hcalls, Option.map_some, hres]

end Calls

end Spegla
