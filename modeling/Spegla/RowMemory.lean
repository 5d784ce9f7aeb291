import Spegla.Lib.ExitState
import Spegla.LineEnds
import Spegla.RowFormat

/-!
# Rows in memory (`parserow.c`, `parse_row`)

`parse_row` cuts the row into tokens where it lies and finds the name by a pointer behind the last
of them. Here it works on the bytes from the start of the row on and keeps account of those it
touches.

- `RowMem`, `strAt`, `strtokAt`: the memory, and what the C library does to it.
- `parseRowAt`: `parse_row` on the memory. `parseRowAt_follows`: it gives what `parseRow` gives.
- `afterDate`: the text behind the date of a row, which is read off its words and not by `sscanf`.
- `parseRowAt_iff`: exactly when it stays in the row and takes the name from that text.

A row is shorter than 2³¹, so that `rowlen` is its length: both callers read it with `fgets` into a
buffer of `PATH_MAX` bytes. A short one is copied first, with its NUL; what lies behind the NUL is
another memory then.
-/

namespace Spegla

open CString ExitState

/-! ## The memory -/

/-- The bytes from the start of the row on, the saved pointer of `strtok`, and the positions that
have been read or written. -/
structure RowMem where
  mem : Str
  save : Option Nat
  touched : List Int

/-- `goto ret_bad` is an exit. -/
abbrev RowProg := EStateM PUnit RowMem

/-- `k` positions from `p` on. -/
def span (p k : Nat) : List Int := (List.range k).map fun i : Nat => ((p + i : Nat) : Int)

/-- The string at `p`, read to its NUL. -/
def strAt (p : Nat) : RowProg Str :=
  modifyGet fun m =>
    let s := cstr (m.mem.drop p)
    (s, { m with touched := m.touched ++ span p (s.length + 1) })

/-- The byte at `i` becomes a NUL. -/
def cutAt (i : Nat) : RowProg PUnit :=
  modify fun m => { m with mem := m.mem.set i nul, touched := m.touched ++ [(i : Int)] }

/-- `strtok(p, " ")`: the token, and the memory after it. The byte behind the token becomes a NUL if
it is a blank. -/
def RowMem.strtok (m : RowMem) (p : Nat) : Option Nat × RowMem :=
  let s := cstr (m.mem.drop p)
  let b := p + (s.takeWhile (· = ' ')).length
  let tok := (s.dropWhile (· = ' ')).takeWhile (· ≠ ' ')
  let e := b + tok.length
  let touched := m.touched ++ span p (e + 1 - p)
  if tok = [] then (none, ⟨m.mem, none, touched⟩)
  else if m.mem[e]? = some ' ' then (some b, ⟨m.mem.set e nul, some (e + 1), touched⟩)
  else (some b, ⟨m.mem, none, touched⟩)

def strtokAt (p : Nat) : RowProg (Option Nat) := modifyGet fun m => m.strtok p

/-- `strtok(NULL, " ")`. -/
def strtokNull : RowProg (Option Nat) := do
  match (← get).save with
  | none => return none
  | some p => strtokAt p

/-- `goto ret_bad` where there is no value. -/
def orBad {α : Type} : Option α → RowProg α
  | none => throw ⟨⟩
  | some a => pure a

/-- `if (c) x;`. -/
def onlyIf (c : Prop) [Decidable c] (x : RowProg PUnit) : RowProg PUnit := if c then x else pure ⟨⟩

/-- `tok[strlen(tok) - 1] = '\0'` if that is the character `c`, of the string at `p`. -/
def trimAt (c : Char) (p : Nat) : RowProg PUnit := do
  let s ← strAt p
  let i : Int := p + s.length - 1
  modify fun m =>
    { m with
      mem := if 0 ≤ i ∧ m.mem[i.toNat]? = some c then m.mem.set i.toNat nul else m.mem
      touched := m.touched ++ [i] }

/-! ## `parse_row` -/

/-- The size, and the token of the month. -/
def parseSizeAt : RowProg (Int × Nat) := do
  let tok ← strtokNull >>= orBad
  let size := strtol (← strAt tok)
  let tok ← strtokNull >>= orBad
  let size' := strtol (← strAt tok)
  if size'.2 = [] then return (size'.1, ← strtokNull >>= orBad)
  else if size.2 = [] then return (size.1, tok)
  else throw ⟨⟩

/-- The date, and its last token. -/
def parseYearAt (env : RowEnv) (mon mday : Int) (tok : Nat) : RowProg (Tm × Int × Nat) := do
  match scanInts 3 (← strAt tok) with
  | [year] => return (⟨year, mon, mday, 0, 0, 0⟩, SECSPERDAY, tok)
  | [hour, min] => return (⟨env.recentYear mon, mon, mday, hour, min, 0⟩, SECSPERMIN, tok)
  | [hour, min, sec] =>
    let tok ← strtokNull >>= orBad
    match scanInt (← strAt tok) with
    | none => return (⟨env.recentYear mon, mon, mday, hour, min, sec⟩, 0, tok)
    | some (year, _) => return (⟨year, mon, mday, hour, min, sec⟩, 0, tok)
  | _ => throw ⟨⟩

/-- The fields before the name, and the last token of the date. -/
def rowFieldsAt (env : RowEnv) : RowProg (RowFields × Nat) := do
  let tok ← strtokAt 0 >>= orBad
  let (ftype, mode) ← orBad (parseFileMode (← strAt tok))
  let _ ← strtokNull
  let _ ← strtokNull
  let (size, tok) ← parseSizeAt
  let mon ← orBad (months.idxOf? (← strAt tok))
  let tok ← strtokNull >>= orBad
  let (mday, _) ← orBad (scanInt (← strAt tok))
  let tok ← strtokNull >>= orBad
  let (tm, tgranul, tok) ← parseYearAt env mon mday tok
  return (⟨ftype, mode, size, tm, tgranul⟩, tok)

/-- Where the loop over the last token stops: at a blank, at the NUL, or at the end of the row. -/
def dateEnd (rowlen : Int) (tok : Nat) : Str → Nat
  | [] => 0
  | c :: s => if c = ' ' ∨ (tok : Int) = rowlen then 0 else dateEnd rowlen (tok + 1) s + 1

/-- The name and the target in the string at `tok`. -/
def filenameAt (ftype : SpFtype) (mode : Mode) (tok : Nat) : RowProg (Str × Option Str) := do
  onlyIf (ftype = .directory) (trimAt '/' tok)
  onlyIf (mode ||| S_IXUSR ||| S_IXGRP ||| S_IXOTH ≠ 0) (trimAt '*' tok)
  if ftype = .symlink then
    let (before, _) ← orBad (strstr arrow (← strAt tok))
    cutAt (tok + before.length)
    let name ← strAt tok
    let link ← strAt (tok + before.length + 4)
    return (name, some link)
  else return (← strAt tok, none)

/-- The name and the target, behind the last token of the date. -/
def nameAt (rowlen : Int) (ftype : SpFtype) (mode : Mode) (tok : Nat) :
    RowProg (Str × Option Str) := do
  let tok := tok + dateEnd rowlen tok (← strAt tok) + 1
  if (tok : Int) = rowlen then throw ⟨⟩
  else filenameAt ftype mode tok

/-- `parse_row`. -/
def parseRowAt (env : RowEnv) : RowProg SpFile := do
  let row ← strAt 0
  let rowlen := toInt row.length
  let (f, tok) ← rowFieldsAt env
  let (name, link) ← nameAt rowlen f.ftype f.mode tok
  return {
    spfTime := env.mktime f.tm.fromYear1900
    spfTgranul := f.tgranul
    spfType := f.ftype
    spfOpt := {}
    spfSize := f.size
    spfMode := f.mode
    spfName := name
    spfSymlink := link
    spfOrigName := none }

/-- The memory before the call: the row, its NUL, and what lies behind. -/
def rowStart (row behind : Str) : RowMem :=
  { mem := row ++ nul :: behind, save := none, touched := [] }

/-! ## What the memory holds -/

/-- Only positions of a row of `n` characters, its NUL included. -/
def Inside (n : Nat) (m : RowMem) : Prop := ∀ i ∈ m.touched, 0 ≤ i ∧ i ≤ (n : Int)

/-- The bytes from the saved pointer on are the text `save`, the NUL of a row of `n` characters and
`behind`. -/
def SavedAt (n : Nat) (behind : Str) (m : RowMem) : Option Str → Prop
  | none => m.save = none
  | some rest => ∃ p, m.save = some p ∧ 0 < p ∧ p + rest.length = n ∧ nul ∉ rest ∧
      m.mem.drop p = rest ++ nul :: behind ∧ m.mem[p - 1]? = some nul

/-- The memory when the text-level `strtok` has `save` left. -/
structure RowHolds (n : Nat) (behind : Str) (m : RowMem) (save : Option Str) : Prop where
  tail : m.mem.drop n = nul :: behind
  saved : SavedAt n behind m save
  inside : Inside n m

/-- The token `tok` is at `b`, and the saved pointer behind it. -/
structure TokAt (n : Nat) (behind : Str) (m : RowMem) (b : Nat) (tok : Str)
    (save : Option Str) : Prop
    extends RowHolds n behind m save where
  text : cstr (m.mem.drop b) = tok
  noblank : ' ' ∉ tok
  behindTok : m.save.getD (n + 1) = b + tok.length + 1

theorem mem_span {p k : Nat} {i : Int} : i ∈ span p k ↔ (p : Int) ≤ i ∧ i < p + k := by
  rw [span, List.mem_map]
  constructor
  · rintro ⟨j, hj, rfl⟩
    have := List.mem_range.mp hj
    omega
  · rintro ⟨hp, hk⟩
    exact ⟨(i - p).toNat, List.mem_range.mpr (by omega), by omega⟩

theorem Inside.span {n p k : Nat} {m : RowMem} (h : Inside n m) (hk : p + k ≤ n + 1) {mem : Str}
    {save : Option Nat} : Inside n ⟨mem, save, m.touched ++ span p k⟩ := by
  intro i hi
  rcases List.mem_append.mp hi with hi | hi
  · exact h i hi
  · have := mem_span.mp hi
    omega

variable {n : Nat} {behind : Str} {m : RowMem} {save : Option Str} {b : Nat} {tok : Str}

theorem TokAt.end_le (h : TokAt n behind m b tok save) : b + tok.length ≤ n := by
  have hb := h.behindTok
  have hs := h.saved
  cases save with
  | none =>
    have hnone : m.save = none := hs
    rw [hnone] at hb
    show b + tok.length ≤ n
    have : n + 1 = b + tok.length + 1 := hb
    omega
  | some rest =>
    obtain ⟨p, hp, -, hlen, -⟩ := hs
    rw [hp] at hb
    have : p = b + tok.length + 1 := hb
    omega

/-- Reading a token leaves the memory. -/
theorem strAt_tok (h : TokAt n behind m b tok save) :
    wp (strAt b) m (fun s m' => s = tok ∧ TokAt n behind m' b tok save) fun _ _ => False := by
  have hle := h.end_le
  refine ⟨h.text, ⟨⟨h.tail, h.saved, ?_⟩, h.text, h.noblank, h.behindTok⟩⟩
  show Inside n ⟨_, _, m.touched ++ span b ((cstr (m.mem.drop b)).length + 1)⟩
  rw [h.text]
  exact h.inside.span (by omega)

/-- What the tokenizer takes from a text: blanks, a token, and the rest with or without a blank. -/
theorem strtok_split (s : Str) :
    (strtok ' ' s = none ∧ s.dropWhile (· = ' ') = []) ∨
    ∃ w t, w ≠ [] ∧ ' ' ∉ w ∧ s.dropWhile (· = ' ') = w ++ t ∧
      (s.dropWhile (· = ' ')).takeWhile (· ≠ ' ') = w ∧
      (t = [] ∧ strtok ' ' s = some (w, none) ∨
        ∃ t', t = ' ' :: t' ∧ strtok ' ' s = some (w, some t')) := by
  unfold strtok
  cases hs : s.dropWhile (· = ' ') with
  | nil => exact Or.inl ⟨rfl, rfl⟩
  | cons c u =>
    right
    have hc : c ≠ ' ' := by
      have := List.head?_dropWhile_not (· = ' ') s
      rw [hs] at this
      simpa using this
    refine ⟨(c :: u).takeWhile (· ≠ ' '), (c :: u).dropWhile (· ≠ ' '), ?_, ?_, ?_, rfl, ?_⟩
    · rw [List.takeWhile_cons_of_pos (by simpa using hc)]
      exact List.cons_ne_nil _ _
    · intro h
      have := List.mem_takeWhile_imp h
      simp at this
    · exact List.takeWhile_append_dropWhile.symm
    · cases ht : (c :: u).dropWhile (· ≠ ' ') with
      | nil => exact Or.inl ⟨rfl, by simp only [ht]⟩
      | cons d t' =>
        have hd : d = ' ' := by
          have := List.head?_dropWhile_not (· ≠ ' ') (c :: u)
          rw [ht] at this
          simpa using this
        exact Or.inr ⟨t', by rw [hd], by simp only [ht]⟩

/-- What `strtok` leaves where the tokenizer gives `o`. -/
def Tokenized (n : Nat) (behind : Str) (o : Option (Str × Option Str)) (r : Option Nat)
    (m : RowMem) : Prop :=
  o = none ∧ r = none ∧ RowHolds n behind m none ∨
    ∃ b t, o = some t ∧ r = some b ∧ TokAt n behind m b t.1 t.2

theorem tokenized_strtok {p : Nat} {rest : Str} (htail : m.mem.drop n = nul :: behind)
    (hlen : p + rest.length = n) (hnul : nul ∉ rest) (hdrop : m.mem.drop p = rest ++ nul :: behind)
    (hin : Inside n m) :
    Tokenized n behind (CString.strtok ' ' rest) (m.strtok p).1 (m.strtok p).2 := by
  have hcstr : cstr (m.mem.drop p) = rest := by rw [hdrop, cstr_append hnul]
  have hrest : rest.takeWhile (· = ' ') ++ rest.dropWhile (· = ' ') = rest :=
    List.takeWhile_append_dropWhile
  rw [RowMem.strtok]
  simp only [hcstr]
  generalize rest.takeWhile (· = ' ') = blanks at hrest ⊢
  rcases strtok_split rest with ⟨hnone, hblank⟩ | ⟨w, t, hne, hnoblank, hw, htake, hcases⟩
  · rw [hblank, List.append_nil] at hrest
    subst hrest
    rw [hnone, hblank]
    exact Or.inl ⟨rfl, rfl, htail, rfl, hin.span (by simp; omega)⟩
  · -- the token lies behind the blanks
    rw [htake, if_neg hne]
    rw [hw] at hrest
    subst hrest
    have hb : m.mem.drop (p + blanks.length) = w ++ (t ++ nul :: behind) := by
      rw [← List.drop_drop, hdrop]
      simp
    have he : m.mem[p + blanks.length + w.length]? = (t ++ nul :: behind)[0]? := by
      have := congrArg (fun s : Str => s[w.length]?) hb
      simpa [List.getElem?_drop, List.getElem?_append_right] using this
    simp only [List.length_append] at hlen
    have hwnul : nul ∉ w := fun h => hnul (by simp [h])
    rw [he]
    right
    -- the token ends at the NUL of the row, or at a blank that `strtok` overwrites
    rcases hcases with ⟨rfl, hstrtok⟩ | ⟨t', rfl, hstrtok⟩
    · rw [if_neg (by simp [nul])]
      refine ⟨_, _, hstrtok, rfl, ⟨htail, rfl, hin.span (by omega)⟩, ?_, hnoblank, ?_⟩
      · rw [hb]
        exact cstr_append hwnul
      · show n + 1 = p + blanks.length + w.length + 1
        rw [List.length_nil] at hlen
        omega
    · rw [if_pos (show (' ' :: t' ++ nul :: behind)[0]? = some ' ' from rfl)]
      rw [List.length_cons] at hlen
      rw [show (' ' :: t' ++ nul :: behind)[0]? = some ' ' from rfl] at he
      have hmore : m.mem.drop (p + blanks.length + w.length + 1) = t' ++ nul :: behind := by
        rw [Nat.add_assoc _ w.length 1, ← List.drop_drop, hb]
        simp
      obtain ⟨hlt, -⟩ := List.getElem?_eq_some_iff.mp he
      generalize hedef : p + blanks.length + w.length = e at *
      refine ⟨_, _, hstrtok, rfl, ⟨?_, ?_, hin.span (by omega)⟩, ?_, hnoblank, ?_⟩
      · show (m.mem.set e nul).drop n = _
        rw [List.drop_set_of_lt (by omega), htail]
      · refine ⟨e + 1, rfl, Nat.succ_pos _, by omega, fun h => hnul (by simp [h]), ?_, ?_⟩
        · show (m.mem.set e nul).drop (e + 1) = _
          rw [List.drop_set_of_lt (Nat.lt_succ_self _), hmore]
        · show (m.mem.set e nul)[e]? = _
          rw [List.getElem?_set_self hlt]
      · show cstr ((m.mem.set e nul).drop (p + blanks.length)) = w
        rw [List.drop_set, if_neg (by omega), hb]
        have hw' : e - (p + blanks.length) = w.length := by omega
        rw [hw', List.set_append_right _ _ (Nat.le_refl _), Nat.sub_self]
        exact cstr_append hwnul
      · show e + 1 = p + blanks.length + w.length + 1
        rw [hedef]

/-! ## Following the text -/

theorem strtokNull_spec (h : RowHolds n behind m save) :
    wp strtokNull m (fun r m' => Tokenized n behind (strtokNext ' ' save) r m')
      fun _ _ => False := by
  cases save with
  | none =>
    have hs : m.save = none := h.saved
    unfold strtokNull
    rw [wp_bind]
    show wp (match m.save with | none => pure none | some p => strtokAt p) m _ _
    rw [hs]
    exact Or.inl ⟨rfl, rfl, h⟩
  | some rest =>
    obtain ⟨p, hs, -, hlen, hnul, hdrop, -⟩ := h.saved
    unfold strtokNull
    rw [wp_bind]
    show wp (match m.save with | none => pure none | some p => strtokAt p) m _ _
    rw [hs]
    exact tokenized_strtok h.tail hlen hnul hdrop h.inside

/-- The next token, where there has to be one. -/
theorem nextTok_follows (h : RowHolds n behind m save) :
    Follows (strtokNext ' ' save) (strtokNull >>= orBad) m
      (fun b t m' => TokAt n behind m' b t.1 t.2) (Inside n) := by
  refine (wp_bind _ _).mpr (wp_mono (strtokNull_spec h) ?_ fun _ _ h => h.elim)
  rintro r m' (⟨ho, rfl, hm⟩ | ⟨b, t, ho, rfl, hm⟩)
  · exact ⟨ho, hm.inside⟩
  · exact ⟨t, ho, hm⟩

/-- A token that is passed over. -/
theorem skipTok_spec (h : RowHolds n behind m save) :
    wp strtokNull m (fun _ m' => RowHolds n behind m' (strtokSkip ' ' save)) fun _ _ => False := by
  refine wp_mono (strtokNull_spec h) ?_ fun _ _ h => h
  rintro r m' (⟨ho, rfl, hm⟩ | ⟨b, t, ho, rfl, hm⟩)
  · rw [strtokSkip, ho]
    exact hm
  · rw [strtokSkip, ho]
    exact hm.toRowHolds

theorem orBad_follows {α : Type} (o : Option α) {E : RowMem → Prop} (h : E m) :
    Follows o (orBad o) m (fun a c m' => a = c ∧ m' = m) E := by
  cases o with
  | none => exact ⟨rfl, h⟩
  | some a => exact ⟨a, rfl, rfl, rfl⟩

theorem parseSize_eq (save : Option Str) :
    parseSize save = strtokNext ' ' save >>= fun t => strtokNext ' ' t.2 >>= fun t' =>
      if (strtol t'.1).2 = [] then strtokNext ' ' t'.2 >>= fun t'' => some ((strtol t'.1).1, t'')
      else if (strtol t.1).2 = [] then some ((strtol t.1).1, t'.1, t'.2)
      else none := by
  rw [parseSize]
  cases strtokNext ' ' save with
  | none => rfl
  | some t =>
    simp only [Option.bind_eq_bind, Option.bind_some]
    cases strtokNext ' ' t.2 with
    | none => rfl
    | some t' =>
      simp only [Option.bind_some]
      split
      · cases strtokNext ' ' t'.2 <;> rfl
      · rfl

theorem parseSizeAt_follows (h : RowHolds n behind m save) :
    Follows (parseSize save) parseSizeAt m
      (fun a c m' => a.1 = c.1 ∧ TokAt n behind m' a.2 c.2.1 c.2.2) (Inside n) := by
  rw [parseSize_eq]
  unfold parseSizeAt
  refine Follows.bind (nextTok_follows h) fun b t m₁ h₁ => ?_
  refine Follows.seq (strAt_tok h₁) ?_
  rintro _ m₂ ⟨rfl, h₂⟩
  refine Follows.bind (nextTok_follows h₂.toRowHolds) fun b' t' m₃ h₃ => ?_
  refine Follows.seq (strAt_tok h₃) ?_
  rintro _ m₄ ⟨rfl, h₄⟩
  dsimp only
  by_cases hsize' : (strtol t'.1).2 = []
  · rw [if_pos hsize', if_pos hsize']
    refine Follows.bind (nextTok_follows h₄.toRowHolds) fun b'' t'' m₅ h₅ => ?_
    exact Follows.pure ⟨rfl, h₅⟩
  · rw [if_neg hsize', if_neg hsize']
    by_cases hsize : (strtol t.1).2 = []
    · rw [if_pos hsize, if_pos hsize]
      exact Follows.pure ⟨rfl, h₄⟩
    · rw [if_neg hsize, if_neg hsize]
      exact Follows.throw h₄.inside

theorem parseYearAt_follows (env : RowEnv) (mon mday : Int) (h : TokAt n behind m b tok save) :
    Follows (parseYear env mon mday tok save) (parseYearAt env mon mday b) m
      (fun a c m' => a.1 = c.1 ∧ a.2.1 = c.2.1 ∧ ∃ last, TokAt n behind m' a.2.2 last c.2.2)
      (Inside n) := by
  unfold parseYearAt parseYear
  refine Follows.seq (strAt_tok h) ?_
  rintro tok' m₁ ⟨rfl, h₁⟩
  generalize scanInts 3 tok' = vals
  match vals with
  | [] => exact Follows.throw h₁.inside
  | [year] => exact Follows.pure ⟨rfl, rfl, _, h₁⟩
  | [hour, min] => exact Follows.pure ⟨rfl, rfl, _, h₁⟩
  | [hour, min, sec] =>
    dsimp only
    refine Follows.congr (strtokNext ' ' save >>= fun t => match scanInt t.1 with
      | none => some (⟨env.recentYear mon, mon, mday, hour, min, sec⟩, 0, t.2)
      | some (year, _) => some (⟨year, mon, mday, hour, min, sec⟩, 0, t.2)) ?_ ?_
    · cases strtokNext ' ' save <;> rfl
    · refine Follows.bind (nextTok_follows h₁.toRowHolds) fun b' t m₂ h₂ => ?_
      refine Follows.seq (strAt_tok h₂) ?_
      rintro _ m₃ ⟨rfl, h₃⟩
      cases scanInt t.1 with
      | none => exact Follows.pure ⟨rfl, rfl, _, h₃⟩
      | some year => exact Follows.pure ⟨rfl, rfl, _, h₃⟩
  | _ :: _ :: _ :: _ :: _ => exact Follows.throw h₁.inside

/-- Up to the name, the memory goes along with the text. -/
theorem rowFieldsAt_follows (env : RowEnv) {row : Str} (hnul : nul ∉ row)
    (hin : Inside row.length m)
    (hmem : m.mem = row ++ nul :: behind) :
    Follows (rowFields env row) (rowFieldsAt env) m
      (fun a c m' => a.1 = c.1 ∧ ∃ last, TokAt row.length behind m' a.2 last c.2)
      (Inside row.length) := by
  unfold rowFieldsAt rowFields
  have hfirst : Follows (strtok ' ' row) (strtokAt 0 >>= orBad) m
      (fun b t m' => TokAt row.length behind m' b t.1 t.2) (Inside row.length) := by
    have hspec : Tokenized row.length behind (strtok ' ' row) (m.strtok 0).1 (m.strtok 0).2 :=
      tokenized_strtok (by rw [hmem]; simp) (by simp) hnul (by rw [hmem]; simp) hin
    refine (wp_bind _ _).mpr (wp_mono (show wp (strtokAt 0) m
      (fun r m' => Tokenized row.length behind (strtok ' ' row) r m') (fun _ _ => False) from hspec)
      ?_ fun _ _ h => h.elim)
    rintro r m' (⟨ho, rfl, hm⟩ | ⟨b, t, ho, rfl, hm⟩)
    · exact ⟨ho, hm.inside⟩
    · exact ⟨t, ho, hm⟩
  refine Follows.bind hfirst fun b t m₁ h₁ => ?_
  refine Follows.seq (strAt_tok h₁) ?_
  rintro _ m₂ ⟨rfl, h₂⟩
  refine Follows.bind (orBad_follows _ h₂.inside) ?_
  rintro mode _ _ ⟨rfl, rfl⟩
  refine Follows.seq (skipTok_spec h₂.toRowHolds) fun _ m₃ h₃ => ?_
  refine Follows.seq (skipTok_spec h₃) fun _ m₄ h₄ => ?_
  refine Follows.bind (parseSizeAt_follows h₄) ?_
  rintro ⟨size, b₅⟩ ⟨_, tok₅, save₅⟩ m₅ ⟨rfl, h₅⟩
  refine Follows.seq (strAt_tok h₅) ?_
  rintro _ m₆ ⟨rfl, h₆⟩
  refine Follows.bind (orBad_follows _ h₆.inside) ?_
  rintro mon _ _ ⟨rfl, rfl⟩
  refine Follows.bind (nextTok_follows h₆.toRowHolds) fun b₇ t₇ m₇ h₇ => ?_
  refine Follows.seq (strAt_tok h₇) ?_
  rintro _ m₈ ⟨rfl, h₈⟩
  refine Follows.bind (orBad_follows _ h₈.inside) ?_
  rintro mday _ _ ⟨rfl, rfl⟩
  refine Follows.bind (nextTok_follows h₈.toRowHolds) fun b₉ t₉ m₉ h₉ => ?_
  refine Follows.bind (parseYearAt_follows env mon mday.1 h₉) ?_
  rintro ⟨tm, tgranul, b'⟩ ⟨_, _, save'⟩ m' ⟨rfl, rfl, last, h'⟩
  exact Follows.pure ⟨rfl, last, h'⟩

/-! ## The name -/

/-- The text `text` is at `p`, behind a NUL. -/
structure TextAt (m : RowMem) (p : Nat) (text : Str) : Prop where
  text : cstr (m.mem.drop p) = text
  pos : 0 < p
  nulBefore : m.mem[p - 1]? = some nul

/-- From the memory `m` on, only positions from `p - 1` to `p + k` have been touched. -/
def Reaches (p k : Nat) (m m' : RowMem) : Prop :=
  ∃ l, m'.touched = m.touched ++ l ∧ ∀ i ∈ l, (p : Int) - 1 ≤ i ∧ i ≤ p + k

theorem Reaches.refl (p k : Nat) (m : RowMem) : Reaches p k m m :=
  ⟨[], (List.append_nil _).symm, fun _ h => absurd h List.not_mem_nil⟩

theorem Reaches.trans {p k k' : Nat} {m m₁ m₂ : RowMem} (h : Reaches p k m m₁)
    (h' : Reaches p k' m₁ m₂) (hk : k' ≤ k) : Reaches p k m m₂ := by
  obtain ⟨l, hl, hin⟩ := h
  obtain ⟨l', hl', hin'⟩ := h'
  refine ⟨l ++ l', by rw [hl', hl, List.append_assoc], fun i hi => ?_⟩
  rcases List.mem_append.mp hi with hi | hi
  · exact hin i hi
  · have := hin' i hi
    omega

theorem reaches_span {p k a j : Nat} (hp : p ≤ a) (hk : a + j ≤ p + k + 1) (m : RowMem) (mem : Str)
    (save : Option Nat) : Reaches p k m ⟨mem, save, m.touched ++ span a j⟩ := by
  refine ⟨_, rfl, fun i hi => ?_⟩
  have := mem_span.mp hi
  omega

theorem strAt_text {p : Nat} {text : Str} (h : TextAt m p text) :
    wp (strAt p) m (fun s m' => s = text ∧ m'.mem = m.mem ∧ Reaches p text.length m m' ∧
      (p : Int) ∈ m'.touched) fun _ _ => False := by
  have htext := h.text
  refine ⟨htext, rfl, ?_, ?_⟩
  · show Reaches p text.length m ⟨_, _, m.touched ++ span p ((cstr (m.mem.drop p)).length + 1)⟩
    rw [htext]
    exact reaches_span (Nat.le_refl _) (Nat.le_refl _) m _ _
  · refine List.mem_append_right _ (mem_span.mpr ⟨Int.le_refl _, by omega⟩)

theorem dateEnd_eq {n : Nat} {tok : Str} (hnoblank : ' ' ∉ tok) :
    ∀ {b : Nat}, b + tok.length ≤ n → dateEnd n b tok = tok.length := by
  induction tok with
  | nil => exact fun _ => rfl
  | cons c tok ih =>
    intro b hb
    rw [List.mem_cons, not_or] at hnoblank
    rw [List.length_cons] at hb
    have hc : ¬(c = ' ' ∨ (b : Int) = (n : Int)) := by
      rintro (h | h)
      · exact hnoblank.1 h.symm
      · omega
    rw [dateEnd, if_neg hc, ih hnoblank.2 (by omega)]
    rfl

theorem TextAt.mem_eq {m m' : RowMem} {p : Nat} {text : Str} (h : TextAt m p text)
    (hmem : m'.mem = m.mem) : TextAt m' p text :=
  ⟨hmem ▸ h.text, h.pos, hmem ▸ h.nulBefore⟩

/-- What a cut in the text leaves of it. -/
theorem TextAt.cut {p : Nat} {before q : Str} (h : TextAt m p (before ++ q)) (hq : q ≠ [])
    (touched : List Int) (save : Option Nat) :
    TextAt ⟨m.mem.set (p + before.length) nul, save, touched⟩ p before := by
  obtain ⟨t, hmem, hnul, -⟩ := cstr_eq h.text
  obtain ⟨c, q, rfl⟩ := List.exists_cons_of_ne_nil hq
  have hpos := h.pos
  refine ⟨?_, hpos, ?_⟩
  · show cstr ((m.mem.set (p + before.length) nul).drop p) = before
    rw [List.drop_set, if_neg (by omega), hmem, Nat.add_sub_cancel_left, List.append_assoc,
      List.set_append_right _ _ (Nat.le_refl _), Nat.sub_self]
    exact cstr_append fun h => hnul (List.mem_append_left _ h)
  · show (m.mem.set (p + before.length) nul)[p - 1]? = some nul
    rw [List.getElem?_set_ne (by omega)]
    exact h.nulBefore

theorem trimAt_spec {p : Nat} {text : Str} {c : Char} (hc : c ≠ nul) (h : TextAt m p text) :
    wp (trimAt c p) m (fun _ m' => TextAt m' p (trimLast c text) ∧ Reaches p text.length m m' ∧
      (p : Int) ∈ m'.touched) fun _ _ => False := by
  unfold trimAt
  refine (wp_bind _ _).mpr (wp_mono (strAt_text h) ?_ fun _ _ h => h)
  rintro s m₁ ⟨rfl, hmem, hreach, hp⟩
  have hpos := h.pos
  have h₁ := h.mem_eq hmem
  have hbefore := h₁.nulBefore
  obtain ⟨t, hdrop, hnul, -⟩ := cstr_eq h₁.text
  rw [wp_modify]
  refine ⟨?_, hreach.trans ⟨_, rfl, ?_⟩ (Nat.le_refl _), List.mem_append_left _ hp⟩
  · rcases List.eq_nil_or_concat s with rfl | ⟨q, x, rfl⟩
    · -- the NUL in front of the string is not the character
      have hne : ¬((0 : Int) ≤ (p : Int) + ([] : Str).length - 1 ∧
          m₁.mem[((p : Int) + ([] : Str).length - 1).toNat]? = some c) := by
        rintro ⟨-, hget⟩
        rw [show ((p : Int) + ([] : Str).length - 1).toNat = p - 1 by simp, hbefore] at hget
        exact hc (Option.some.inj hget).symm
      rw [if_neg hne]
      exact h₁.mem_eq rfl
    · rw [List.concat_eq_append] at *
      have hi : ((p : Int) + (q ++ [x]).length - 1).toNat = p + q.length := by
        rw [List.length_append, List.length_singleton]
        omega
      have hget : m₁.mem[p + q.length]? = some x := by
        have := congrArg (fun s : Str => s[q.length]?) hdrop
        simpa [List.getElem?_drop, List.getElem?_append_right] using this
      rw [hi, hget, trimLast, List.getLast?_concat, List.dropLast_concat]
      by_cases hx : x = c
      · rw [if_pos ⟨by simp; omega, by rw [hx]⟩, if_pos (by rw [hx])]
        exact h₁.cut (List.cons_ne_nil _ _) _ _
      · rw [if_neg fun h => hx (Option.some.inj h.2), if_neg fun h => hx (Option.some.inj h)]
        exact h₁.mem_eq rfl
  · intro i hi
    rw [List.mem_singleton] at hi
    omega

theorem trimLast_length_le (c : Char) (tok : Str) : (trimLast c tok).length ≤ tok.length := by
  rw [trimLast]
  split
  · rw [List.length_dropLast]
    exact Nat.sub_le _ _
  · exact Nat.le_refl _

/-- The name and the target on both sides of an arrow in the text. -/
theorem cutName_follows {p : Nat} {text before q : Str} (h : TextAt m p text)
    (hstrstr : strstr arrow text = some (before, q)) {K E : RowMem → Prop}
    (hK : ∀ {m'}, Reaches p text.length m m' → K m') :
    Follows (some (before, some (q.drop 4)))
      (cutAt (p + before.length) >>= fun _ => strAt p >>= fun name =>
        strAt (p + before.length + 4) >>= fun link => pure (name, some link)) m
      (fun a c m' => a = c ∧ K m') E := by
  obtain ⟨rfl, r, rfl⟩ := strstr_some hstrstr
  obtain ⟨t, hdrop, hnul, ht⟩ := cstr_eq h.text
  have hcut := h.cut (q := arrow ++ r) (by simp [arrow])
    (m.touched ++ [((p + before.length : Nat) : Int)]) m.save
  have hlink : cstr ((m.mem.set (p + before.length) nul).drop (p + before.length + 4)) = r := by
    rw [List.drop_set_of_lt (by omega), Nat.add_assoc, ← List.drop_drop, hdrop]
    have hr : nul ∉ r := fun hr => hnul (by simp [hr])
    have hdrop' : ((before ++ (arrow ++ r)) ++ t).drop (before.length + 4) = r ++ t := by
      simp [arrow]
    rw [hdrop']
    rcases ht with rfl | ⟨u, rfl⟩
    · rw [List.append_nil]
      exact List.takeWhile_eq_self_iff.mpr fun c hc => by
        have : c ≠ nul := fun h => hr (h ▸ hc)
        simpa using this
    · exact cstr_append hr
  have hlen : (before ++ (arrow ++ r)).length = before.length + 4 + r.length := by
    simp [arrow]
    omega
  have hr₁ : Reaches p (before ++ (arrow ++ r)).length m
      ⟨m.mem.set (p + before.length) nul, m.save,
        m.touched ++ [((p + before.length : Nat) : Int)]⟩ := by
    refine ⟨_, rfl, fun i hi => ?_⟩
    rw [List.mem_singleton] at hi
    omega
  refine Follows.seq (P := fun _ m' => m' = ⟨m.mem.set (p + before.length) nul, m.save,
    m.touched ++ [((p + before.length : Nat) : Int)]⟩) rfl ?_
  rintro _ _ rfl
  refine Follows.seq (strAt_text hcut) ?_
  rintro before m₂ ⟨rfl, hm₂, hr₂, -⟩
  have hlast : wp (strAt (p + before.length + 4)) m₂ (fun link m' => link = r ∧
      Reaches p (before ++ (arrow ++ r)).length m₂ m') fun _ _ => False := by
    have htext : cstr (m₂.mem.drop (p + before.length + 4)) = r := by rw [hm₂, hlink]
    refine ⟨htext, ?_⟩
    show Reaches p _ m₂ ⟨_, _, m₂.touched ++ span _ ((cstr (m₂.mem.drop _)).length + 1)⟩
    rw [htext]
    exact reaches_span (by omega) (by omega) m₂ _ _
  refine Follows.seq hlast ?_
  rintro _ m₃ ⟨rfl, hr₃⟩
  exact Follows.pure ⟨by simp [arrow], hK ((hr₁.trans hr₂ (by omega)).trans hr₃ (Nat.le_refl _))⟩

/-- The name of a text in memory is that of the text, and no position away from it is touched. -/
theorem filenameAt_follows {p : Nat} {text : Str} (ftype : SpFtype) (mode : Mode)
    (h : TextAt m p text) :
    Follows (parseName ftype mode text) (filenameAt ftype mode p) m
      (fun a c m' => a = c ∧ Reaches p text.length m m' ∧ (p : Int) ∈ m'.touched)
      (fun m' => Reaches p text.length m m' ∧ (p : Int) ∈ m'.touched) := by
  have hslash : wp (onlyIf (ftype = .directory) (trimAt '/' p)) m
      (fun _ m' => TextAt m' p (if ftype = .directory then trimLast '/' text else text) ∧
        Reaches p text.length m m') fun _ _ => False := by
    unfold onlyIf
    split
    · exact wp_mono (trimAt_spec (by decide) h) (fun _ _ h => ⟨h.1, h.2.1⟩) fun _ _ h => h
    · exact ⟨h, Reaches.refl _ _ _⟩
  have hlen : (if ftype = .directory then trimLast '/' text else text).length ≤ text.length := by
    split
    · exact trimLast_length_le _ _
    · exact Nat.le_refl _
  rw [parseName_eq]
  unfold filenameAt
  generalize (if ftype = .directory then trimLast '/' text else text) = text₁ at hslash hlen ⊢
  refine Follows.seq hslash ?_
  rintro _ m₁ ⟨h₁, hr₁⟩
  rw [onlyIf, if_pos (S_IXUSR_or_ne_zero mode)]
  refine Follows.seq (trimAt_spec (by decide) h₁) ?_
  rintro _ m₂ ⟨h₂, hr₂, hp₂⟩
  have hlen₂ := trimLast_length_le '*' text₁
  have hr := hr₁.trans hr₂ hlen
  simp only
  generalize trimLast '*' text₁ = text₂ at h₂ hlen₂ ⊢
  have hkeep : ∀ {m₃ k}, Reaches p k m₂ m₃ → k ≤ text.length →
      Reaches p text.length m m₃ ∧ (p : Int) ∈ m₃.touched := by
    rintro m₃ k hr₃ hk
    refine ⟨hr.trans hr₃ hk, ?_⟩
    obtain ⟨l, hl, -⟩ := hr₃
    rw [hl]
    exact List.mem_append_left _ hp₂
  split
  · refine Follows.seq (strAt_text h₂) ?_
    rintro _ m₃ ⟨rfl, hm₃, hr₃, -⟩
    have h₃ := h₂.mem_eq hm₃
    refine Follows.congr _ Option.map_eq_bind ?_
    refine Follows.bind ((orBad_follows _ (hkeep hr₃ (by omega))).attach.mono (fun _ _ _ h => h)
      fun _ h => h.2) ?_
    rintro ⟨before, q⟩ _ _ ⟨hstrstr, rfl, rfl⟩
    exact cutName_follows h₃ hstrstr fun hr₄ => hkeep (hr₃.trans hr₄ (Nat.le_refl _)) (by omega)
  · refine Follows.seq (strAt_text h₂) ?_
    rintro _ m₃ ⟨rfl, -, hr₃, -⟩
    exact Follows.pure ⟨rfl, hkeep hr₃ (by omega)⟩

/-! ## The whole row -/

/-- The fields of the row are there, and the last token of the date is the end of the row. -/
def EndsRow (env : RowEnv) (row : Str) : Prop := ∃ f, rowFields env row = some (f, none)

theorem toInt_length {s : Str} (h : s.length < 2 ^ 31) : toInt s.length = s.length := by
  unfold toInt
  rw [Int.bmod_def]
  omega

/-- The name behind a date that the row goes on after, or that it ends with. -/
theorem nameAt_follows {f : RowFields} {last : Str} (h : TokAt n behind m b last save) :
    Follows ((nameText save behind).bind fun tok => parseName f.ftype f.mode tok)
      (nameAt n f.ftype f.mode b) m
      (fun a c m' => a = c ∧ (Inside n m' ↔ save ≠ none))
      (fun m' => Inside n m' ↔ save ≠ none) := by
  have hend := h.end_le
  unfold nameAt
  refine Follows.seq (strAt_tok h) ?_
  rintro _ m₁ ⟨rfl, h₁⟩
  rw [dateEnd_eq h.noblank hend]
  have hbehind := h₁.behindTok
  cases save with
  | none =>
    have hsave : m₁.save = none := h₁.saved
    rw [hsave, Option.getD_none] at hbehind
    rw [if_neg (by omega), ← hbehind]
    have hget : m₁.mem[n]? = some nul := by
      have := congrArg (fun s : Str => s[0]?) h₁.tail
      simpa [List.getElem?_drop] using this
    have hdrop : m₁.mem.drop (n + 1) = behind := by
      rw [← List.drop_drop, h₁.tail]
      rfl
    have htext : TextAt m₁ (n + 1) (cstr behind) := ⟨by rw [hdrop], Nat.succ_pos _, hget⟩
    -- the row has ended with the date, and what follows reads behind its NUL
    have hout : ∀ m', ((n + 1 : Nat) : Int) ∈ m'.touched →
        (Inside n m' ↔ (none : Option Str) ≠ none) := by
      intro m' hmem
      refine ⟨fun hin => ?_, fun hne => absurd rfl hne⟩
      have := (hin _ hmem).2
      omega
    exact (filenameAt_follows f.ftype f.mode htext).mono
      (fun a c m' h => ⟨h.1, hout m' h.2.2⟩) fun m' h => hout m' h.2
  | some rest =>
    obtain ⟨p, hsave, hpos, hlen, hnul, hdrop, hbefore⟩ := h₁.saved
    rw [hsave, Option.getD_some] at hbehind
    rw [← hbehind]
    have hin : ∀ m', Inside n m' → (Inside n m' ↔ some rest ≠ none) := fun _ h =>
      ⟨fun _ => Option.some_ne_none _, fun _ => h⟩
    cases rest with
    | nil =>
      rw [if_pos (by simp at hlen; omega)]
      exact Follows.throw (hin _ h₁.inside)
    | cons c rest =>
      rw [List.length_cons] at hlen
      rw [if_neg (by omega)]
      have htext : TextAt m₁ p (c :: rest) := ⟨by rw [hdrop, cstr_append hnul], hpos, hbefore⟩
      have hreach : ∀ m', Reaches p (c :: rest).length m₁ m' → Inside n m' := by
        rintro m' ⟨l, hl, hin⟩ i hi
        rw [hl] at hi
        rcases List.mem_append.mp hi with hi | hi
        · exact h₁.inside i hi
        · have := hin i hi
          rw [List.length_cons] at this
          omega
      exact (filenameAt_follows f.ftype f.mode htext).mono
        (fun a c m' h => ⟨h.1, hin m' (hreach m' h.2.1)⟩) fun m' h => hin m' (hreach m' h.1)

/-- On the memory, `parse_row` gives what it gives on the text, and it stays in the row exactly when
the date does not end the row. -/
theorem parseRowAt_follows (env : RowEnv) {row : Str} (hnul : nul ∉ row)
    (hlen : row.length < 2 ^ 31) (behind : Str) :
    Follows (parseRow env row behind) (parseRowAt env) (rowStart row behind)
      (fun a c m' => a = c ∧ (Inside row.length m' ↔ ¬EndsRow env row))
      (fun m' => Inside row.length m' ↔ ¬EndsRow env row) := by
  rw [parseRow_eq]
  unfold parseRowAt
  have hcstr : cstr ((rowStart row behind).mem.drop 0) = row := cstr_append hnul
  have hfirst : wp (strAt 0) (rowStart row behind)
      (fun s m' => s = row ∧ m'.mem = row ++ nul :: behind ∧ Inside row.length m')
      fun _ _ => False := by
    refine ⟨hcstr, rfl, ?_⟩
    show Inside row.length
      ⟨_, _, [] ++ span 0 ((cstr ((rowStart row behind).mem.drop 0)).length + 1)⟩
    rw [hcstr]
    exact Inside.span (m := rowStart row behind) (fun _ h => absurd h List.not_mem_nil) (by omega)
  refine Follows.seq hfirst ?_
  rintro row m₁ ⟨rfl, hmem, hin⟩
  rw [toInt_length hlen]
  refine Follows.bind ((rowFieldsAt_follows env hnul hin hmem).attach.mono (fun _ _ _ h => h) ?_) ?_
  · rintro m₂ ⟨hnone, h₂⟩
    refine ⟨?_, fun _ => h₂⟩
    rintro - ⟨f, hf⟩
    rw [hnone] at hf
    simp at hf
  · rintro ⟨f, tok⟩ ⟨_, save⟩ m₂ ⟨hfields, rfl, last, h₂⟩
    have hends : save ≠ none ↔ ¬EndsRow env row := by
      refine not_congr ⟨?_, ?_⟩
      · rintro rfl
        exact ⟨f, hfields⟩
      · rintro ⟨f', hf'⟩
        rw [hfields] at hf'
        exact (Prod.mk.inj (Option.some.inj hf')).2
    refine Follows.congr (((nameText save behind).bind fun tok => parseName f.ftype f.mode tok) >>=
      fun p => some (f.entry env p.1 p.2)) ?_ ?_
    · cases nameText save behind with
      | none => rfl
      | some text => exact Option.map_eq_bind
    · have hname : Follows _ (nameAt row.length f.ftype f.mode tok) m₂
          (fun a c m' => a = c ∧ (Inside row.length m' ↔ ¬EndsRow env row))
          (fun m' => Inside row.length m' ↔ ¬EndsRow env row) :=
        (nameAt_follows h₂).mono (fun _ _ _ h => ⟨h.1, h.2.trans hends⟩) fun _ h => h.trans hends
      refine Follows.bind hname ?_
      rintro ⟨name, link⟩ _ m₃ ⟨rfl, h₃⟩
      exact Follows.pure ⟨rfl, h₃⟩

/-! ## The name follows the date -/

/-- A number in decimal digits. -/
def isNumber (s : Str) : Bool := !s.isEmpty && s.all Char.isDigit

/-- A time `hh:mm:ss`. -/
def isClock (s : Str) : Bool := (s.splitOn ':').length == 3 && (s.splitOn ':').all isNumber

/-- The place of the time among the tokens behind the permissions: links, owner, group, size, month
and day come before it, and the group may be left out. -/
def timeColumn (row : Str) : Nat := if tokenAt 3 (afterMode row) ∈ months then 5 else 6

/-- The time of a row, or its year. -/
def timeToken (row : Str) : Str := tokenAt (timeColumn row) (afterMode row)

/-- The token behind the time. -/
def yearToken (row : Str) : Str := tokenAt (timeColumn row + 1) (afterMode row)

/-- How many tokens of a row come behind the permissions and up to the end of its date: a year
belongs to a time `hh:mm:ss` if it is a number. -/
def wholeDateTokens (row : Str) : Nat :=
  timeColumn row + if isClock (timeToken row) ∧ isNumber (yearToken row) then 2 else 1

/-- The text behind the date of a row, and the blank that ends the date. -/
def afterDate (row : Str) : Option Str := skipTokens (wholeDateTokens row) (afterMode row)

/-- A time of which `sscanf` reads three numbers is `hh:mm:ss`, and a year follows. -/
def DateWhole (row : Str) : Prop :=
  (scanInts 3 (timeToken row)).length = 3 → isClock (timeToken row) ∧ isNumber (yearToken row)

/-- The text names the entry: it is the name, with the indicators of the type or the target behind.
-/
def Names (spf : SpFile) (text : Str) : Prop :=
  match spf.spfType, spf.spfSymlink with
  | .symlink, some target => text ∈ [[], ['*']].map fun t => spf.spfName ++ (arrow ++ (target ++ t))
  | .symlink, none => False
  | .directory, _ => text ∈ [[], ['/'], ['*'], ['*', '/']].map (spf.spfName ++ ·)
  | _, _ => text ∈ [[], ['*']].map (spf.spfName ++ ·)

/-- The name of the entry is the text that follows the date of the row, and it is not empty. -/
def FromDate (row : Str) (spf : SpFile) : Prop :=
  spf.spfName ≠ [] ∧ ∃ text, afterDate row = some text ∧ Names spf text

/-- No entry comes of the text. -/
def Refused (ftype : SpFtype) (text : Str) : Prop :=
  text = [] ∨ ftype = .symlink ∧ strstr arrow (trimLast '*' text) = none

/-- The text is more than indicators, or than an arrow and a target. -/
def HasName (ftype : SpFtype) (text : Str) : Prop :=
  match ftype with
  | .directory => text ∉ [['/'], ['*'], ['*', '/']]
  | .symlink => ¬arrow <+: text
  | _ => text ≠ ['*']

theorem trimLast_cases (c : Char) (tok : Str) :
    tok = trimLast c tok ∨ tok = trimLast c tok ++ [c] := by
  by_cases h : tok.getLast? = some c
  · rw [trimLast, if_pos h]
    exact Or.inr (List.dropLast_append_getLast? c h).symm
  · exact Or.inl (trimLast_of_ne h).symm

theorem trimLast_eq_nil_iff {c : Char} {tok : Str} :
    trimLast c tok = [] ↔ tok = [] ∨ tok = [c] := by
  constructor
  · intro h
    have := trimLast_cases c tok
    rwa [h] at this
  · rintro (rfl | rfl)
    · rfl
    · exact trimLast_concat c []

theorem trimLast_slash_eq_star_iff {tok : Str} :
    trimLast '/' tok = ['*'] ↔ tok = ['*'] ∨ tok = ['*', '/'] := by
  constructor
  · intro h
    have := trimLast_cases '/' tok
    rwa [h] at this
  · rintro (rfl | rfl) <;> rfl

/-- The text names the entry that comes of it, and with a name exactly if it has one. -/
theorem parseName_names (env : RowEnv) {f : RowFields} (hknown : f.ftype ≠ .unknown)
    {text name : Str}
    {link : Option Str} (htext : text ≠ [])
    (h : parseName f.ftype f.mode text = some (name, link)) :
    Names (f.entry env name link) text ∧ (name ≠ [] ↔ HasName f.ftype text) := by
  rw [parseName_eq] at h
  obtain ⟨ftype, mode, size, tm, tgranul⟩ := f
  cases ftype with
  | unknown => exact absurd rfl hknown
  | plainfile =>
    obtain ⟨rfl, rfl⟩ := Prod.mk.inj (Option.some.inj h)
    show text ∈ [[], ['*']].map (trimLast '*' text ++ ·) ∧ (trimLast '*' text ≠ [] ↔ text ≠ ['*'])
    constructor
    · rcases trimLast_cases '*' text with h | h <;> simp [← h]
    · rw [Ne, trimLast_eq_nil_iff]
      simp [htext]
  | directory =>
    obtain ⟨rfl, rfl⟩ := Prod.mk.inj (Option.some.inj h)
    show text ∈ [[], ['/'], ['*'], ['*', '/']].map (trimLast '*' (trimLast '/' text) ++ ·) ∧
      (trimLast '*' (trimLast '/' text) ≠ [] ↔ text ∉ [['/'], ['*'], ['*', '/']])
    constructor
    · rcases trimLast_cases '/' text with h | h <;>
        rcases trimLast_cases '*' (trimLast '/' text) with h' | h' <;>
        simp only [List.map_cons, List.map_nil, List.mem_cons, List.append_nil]
      · exact Or.inl (h.trans h')
      · exact Or.inr (Or.inr (Or.inl (h.trans h')))
      · exact Or.inr (Or.inl (h.trans (congrArg (· ++ ['/']) h')))
      · refine Or.inr (Or.inr (Or.inr (Or.inl ?_)))
        exact h.trans ((congrArg (· ++ ['/']) h').trans (by simp))
    · rw [Ne, trimLast_eq_nil_iff, trimLast_eq_nil_iff, trimLast_slash_eq_star_iff]
      simp [htext]
  | symlink =>
    -- the name of a link ends before its first arrow
    obtain ⟨⟨name', q⟩, hstrstr, heq⟩ := Option.map_eq_some_iff.mp h
    obtain ⟨rfl, rfl⟩ := Prod.mk.inj heq
    replace hstrstr : strstr arrow (trimLast '*' text) = some (name', q) := hstrstr
    obtain ⟨htrim, r, rfl⟩ := strstr_some hstrstr
    have hr : (arrow ++ r).drop 4 = r := rfl
    show text ∈ [[], ['*']].map (fun t => name' ++ (arrow ++ ((arrow ++ r).drop 4 ++ t))) ∧
      (name' ≠ [] ↔ ¬arrow <+: text)
    have htexts := trimLast_cases '*' text
    rw [htrim] at htexts
    constructor
    · rw [hr]
      rcases htexts with h | h <;> simp [h]
    · rw [Ne, not_iff_not]
      constructor
      · rintro rfl
        rcases htexts with h | h <;> rw [h] <;> simp
      · intro hpre
        have hpre' : arrow <+: name' ++ (arrow ++ r) := by
          rcases htexts with h | h
          · rwa [← h]
          · rw [h] at hpre
            exact List.prefix_of_prefix_length_le hpre (List.prefix_append _ _) (by simp; omega)
        rw [htrim, strstr_prefix hpre'] at hstrstr
        exact (Prod.mk.inj (Option.some.inj hstrstr)).1.symm

/-- Two texts that name one entry differ by less than a word and a blank, if one ends the other. -/
theorem names_unique {env : RowEnv} {f : RowFields} {text name pre : Str} {link : Option Str}
    (hne : name ≠ []) (h : parseName f.ftype f.mode text = some (name, link))
    (hnames : Names (f.entry env name link) text)
    (hnames' : Names (f.entry env name link) (pre ++ text)) : pre.length < 2 := by
  have hlens : ∀ {base : Str} {l : List Str}, text ∈ l.map (base ++ ·) →
      pre ++ text ∈ l.map (base ++ ·) → (∀ t ∈ l, t.length ≤ 1) → pre.length < 2 := by
    intro base l hmem hmem' hl
    obtain ⟨t, -, ht⟩ := List.mem_map.mp hmem
    obtain ⟨t', hl', ht'⟩ := List.mem_map.mp hmem'
    have h₁ := congrArg List.length ht
    have h₂ := congrArg List.length ht'
    have := hl t' hl'
    simp only [List.length_append] at h₁ h₂
    omega
  obtain ⟨ftype, mode, size, tm, tgranul⟩ := f
  cases ftype with
  | plainfile => exact hlens hnames hnames' (by decide)
  | unknown => exact hlens hnames hnames' (by decide)
  | symlink =>
    cases link with
    | none => exact hnames.elim
    | some target =>
      have hmap : ∀ {s : Str}, Names (RowFields.entry env ⟨.symlink, mode, size, tm, tgranul⟩ name
          (some target)) s → s ∈ [[], ['*']].map ((name ++ (arrow ++ target)) ++ ·) := by
        intro s hs
        obtain ⟨t, ht, rfl⟩ := List.mem_map.mp hs
        exact List.mem_map.mpr ⟨t, ht, by simp [RowFields.entry]⟩
      exact hlens (hmap hnames) (hmap hnames') (by decide)
  | directory =>
    obtain ⟨t, -, ht⟩ := List.mem_map.mp
      (show text ∈ [[], ['/'], ['*'], ['*', '/']].map (name ++ ·) from hnames)
    obtain ⟨t', hl', ht'⟩ := List.mem_map.mp
      (show pre ++ text ∈ [[], ['/'], ['*'], ['*', '/']].map (name ++ ·) from hnames')
    have h₁ := congrArg List.length ht
    have h₂ := congrArg List.length ht'
    simp only [List.length_append] at h₁ h₂
    by_contra hpre
    -- only both indicators are long enough, behind a name that is the whole text
    have hboth : ∀ t' : Str, t' ∈ [[], ['/'], ['*'], ['*', '/']] →
        t'.length ≤ 2 ∧ (t'.length = 2 → t'.getLast? = some '/') := by
      intro t' ht'
      simp only [List.mem_cons, List.not_mem_nil, or_false] at ht'
      rcases ht' with rfl | rfl | rfl | rfl <;> decide
    obtain ⟨hlen', hslash⟩ := hboth t' hl'
    obtain rfl : t = [] := List.length_eq_zero_iff.mp (by omega)
    rw [List.append_nil] at ht
    subst ht
    replace hslash := hslash (by omega)
    have hlast : name.getLast? = some '/' := by
      have := congrArg List.getLast? ht'
      rw [List.getLast?_append, List.getLast?_append, hslash] at this
      cases hn : name.getLast? with
      | none => exact absurd (List.getLast?_eq_none_iff.mp hn) hne
      | some c =>
        rw [hn] at this
        exact this.symm
    rw [parseName_eq] at h
    have htrim : trimLast '*' (trimLast '/' name) = name := (Prod.mk.inj (Option.some.inj h)).1
    have h₃ := trimLast_length_le '*' (trimLast '/' name)
    have h₄ : trimLast '/' name = name.dropLast := if_pos hlast
    rw [htrim, h₄, List.length_dropLast] at h₃
    have := List.length_pos_iff.mpr hne
    omega

theorem isNumeral_of_isNumber {s : Str} (h : isNumber s) : IsNumeral s (digitsVal s) where
  ne_nil := by
    rintro rfl
    cases h
  isDigit := List.all_eq_true.mp ((Bool.and_eq_true _ _).mp h).2
  value := rfl

/-- All three numbers of a time `hh:mm:ss` are read. -/
theorem scanInts_of_isClock {s : Str} (h : isClock s) : (scanInts 3 s).length = 3 := by
  obtain ⟨hlen, hparts⟩ := (Bool.and_eq_true _ _).mp h
  obtain ⟨hour, min, sec, hsplit⟩ := List.length_eq_three.mp (eq_of_beq hlen)
  have hs : [':'].intercalate (s.splitOn ':') = s := List.intercalate_splitOn ':'
  rw [hsplit] at hs hparts
  have hnumeral : ∀ part ∈ [hour, min, sec], IsNumeral part (digitsVal part) :=
    fun part hpart => isNumeral_of_isNumber (List.all_eq_true.mp hparts part hpart)
  have htext : s = hour ++ ':' :: (min ++ ':' :: sec) := by
    rw [← hs]
    simp [List.intercalate, List.intersperse]
  rw [htext, scanInts_colon (hnumeral hour (by simp)), scanInts_colon (hnumeral min (by simp)),
    scanInts_last (hnumeral sec (by simp))]
  rfl

theorem strtol_month : ∀ mon ∈ months, (strtol mon).2 ≠ [] := by decide

/-- The token that is no month is the size. -/
theorem rowFields_month {env : RowEnv} {row : Str} {f : RowFields} {save : Option Str}
    (h : rowFields env row = some (f, save)) :
    tokenAt 3 (afterMode row) ∈ months ↔ (strtol (tokenAt 3 (afterMode row))).2 ≠ [] := by
  refine ⟨strtol_month _, fun hnum => ?_⟩
  unfold rowFields at h
  simp only [Option.bind_eq_bind, Option.bind_eq_some_iff, Option.pure_def, Prod.exists] at h
  obtain ⟨tok₀, save₀, h₀, -, -, -, size, tok₁, save₁, hsize, mon, hmon, -⟩ := h
  have hafter : afterMode row = save₀ := by
    unfold afterMode
    rw [h₀]
    rfl
  rw [hafter] at hnum ⊢
  rw [← parseSize_month (hsize : parseSize (skipTokens 2 save₀) = _) hnum]
  by_contra hnot
  rw [List.idxOf?_eq_none_iff.mpr hnot] at hmon
  simp at hmon

/-- Where `parse_row` takes the date to end. -/
theorem dateTokens_eq {env : RowEnv} {row : Str} {f : RowFields} {save : Option Str}
    (h : rowFields env row = some (f, save)) :
    dateTokens row = timeColumn row + if (scanInts 3 (timeToken row)).length = 3 then 2 else 1 := by
  have hmonth := rowFields_month h
  unfold dateTokens timeToken timeColumn
  by_cases hnum : (strtol (tokenAt 3 (afterMode row))).2 = []
  · rw [if_pos hnum, if_neg fun hc => hmonth.mp hc hnum]
    simp only
    split <;> omega
  · rw [if_neg hnum, if_pos (hmonth.mpr hnum)]
    simp only
    split <;> omega

theorem afterDate_whole {env : RowEnv} {row : Str} {f : RowFields} {save : Option Str}
    (h : rowFields env row = some (f, save)) (hwhole : DateWhole row) : afterDate row = save := by
  rw [(rowFields_some h).2.2, dateTokens_eq h, afterDate, wholeDateTokens]
  by_cases hthree : (scanInts 3 (timeToken row)).length = 3
  · rw [if_pos hthree, if_pos (hwhole hthree)]
  · rw [if_neg hthree, if_neg fun hc => hthree (scanInts_of_isClock hc.1)]

/-- A token that is no year comes before the text that `parse_row` goes on with. -/
theorem afterDate_short {env : RowEnv} {row text : Str} {f : RowFields}
    (h : rowFields env row = some (f, some text)) (hwhole : ¬DateWhole row) :
    ∃ pre, 2 ≤ pre.length ∧ afterDate row = some (pre ++ text) := by
  obtain ⟨hthree, hyear⟩ := Classical.not_imp.mp hwhole
  have hsave := (rowFields_some h).2.2
  rw [dateTokens_eq h, if_pos hthree, show timeColumn row + 2 = timeColumn row + 1 + 1 from rfl,
    skipTokens_add] at hsave
  rw [afterDate, wholeDateTokens, if_neg hyear]
  cases hskip : skipTokens (timeColumn row + 1) (afterMode row) with
  | none =>
    rw [hskip] at hsave
    simp [skipTokens, strtokSkip, strtokNext] at hsave
  | some s =>
    rw [hskip] at hsave
    have htext : (strtok ' ' s).bind Prod.snd = some text := hsave.symm
    have hs : s.takeWhile (· = ' ') ++ s.dropWhile (· = ' ') = s := List.takeWhile_append_dropWhile
    rcases strtok_split s with ⟨hnone, -⟩ | ⟨w, t, hw, -, hdrop, -, ht⟩
    · rw [hnone] at htext
      simp at htext
    · rcases ht with ⟨-, hstrtok⟩ | ⟨t', rfl, hstrtok⟩
      · rw [hstrtok] at htext
        simp at htext
      · rw [hstrtok] at htext
        obtain rfl : t' = text := Option.some.inj htext
        rw [hdrop] at hs
        refine ⟨s.takeWhile (· = ' ') ++ w ++ [' '], ?_, ?_⟩
        · have := List.length_pos_iff.mpr hw
          simp only [List.length_append, List.length_singleton]
          omega
        · conv_lhs => rw [← hs]
          simp

/-- What is asked of a row: if its fields are there, it goes on behind the last token of the date,
and what follows is refused, or the date is read as it is and a name follows. -/
def RowMeets (env : RowEnv) (row : Str) : Prop :=
  ∀ f save, rowFields env row = some (f, save) → ∃ text, save = some text ∧
    (Refused f.ftype text ∨ DateWhole row ∧ HasName f.ftype text)

theorem parseName_none_iff {ftype : SpFtype} {mode : Mode} {text : Str} :
    parseName ftype mode text = none ↔ ftype = .symlink ∧
      strstr arrow (trimLast '*' text) = none := by
  rw [parseName_eq]
  cases ftype <;> simp

theorem rowMeets_iff (env : RowEnv) (row behind : Str) :
    (¬EndsRow env row ∧ ∀ spf, parseRow env row behind = some spf → FromDate row spf) ↔
      RowMeets env row := by
  unfold EndsRow RowMeets
  rw [parseRow_eq]
  cases hfields : rowFields env row with
  | none => simp
  | some fs =>
    obtain ⟨f, save⟩ := fs
    obtain ⟨hknown, -, -⟩ := rowFields_some hfields
    -- without a text behind the date the row has ended in it
    cases save with
    | none =>
      constructor
      · rintro ⟨hends, -⟩
        exact absurd ⟨f, rfl⟩ hends
      · intro h
        obtain ⟨text, htext, -⟩ := h f none rfl
        simp at htext
    | some text =>
      have hends : ¬∃ f', some (f, some text) = some ((f', none) : RowFields × Option Str) := by
        rintro ⟨f', hf'⟩
        simp at hf'
      have hmeets : (∀ f' save, some (f, some text) = some (f', save) → ∃ text, save = some text ∧
          (Refused f'.ftype text ∨ DateWhole row ∧ HasName f'.ftype text)) ↔
          Refused f.ftype text ∨ DateWhole row ∧ HasName f.ftype text := by
        simp
      rw [hmeets]
      rw [and_iff_right hends]
      simp only [Option.bind_some]
      by_cases htext : text = []
      · subst htext
        exact ⟨fun _ => Or.inl (Or.inl rfl), fun _ _ h => by simp [nameText] at h⟩
      · have hnameText : nameText (some text) behind = some text := by
          cases text with
          | nil => exact absurd rfl htext
          | cons c text => rfl
        rw [hnameText, Option.bind_some]
        cases hname : parseName f.ftype f.mode text with
        | none =>
          exact ⟨fun _ => Or.inl (Or.inr (parseName_none_iff.mp hname)), fun _ _ h => by simp at h⟩
        | some p =>
          obtain ⟨name, link⟩ := p
          have hnot : ¬Refused f.ftype text := by
            rintro (h | h)
            · exact htext h
            · rw [parseName_none_iff.mpr h] at hname
              simp at hname
          obtain ⟨hnames, hhas⟩ := parseName_names env hknown htext hname
          rw [or_iff_right hnot, ← hhas]
          have hfrom : (∀ spf, some (f.entry env name link) = some spf → FromDate row spf) ↔
              FromDate row (f.entry env name link) := by simp
          refine Iff.trans hfrom ⟨?_, ?_⟩
          · rintro ⟨hne, t, hafter, ht⟩
            refine ⟨?_, hne⟩
            -- a date that is not whole leaves a part of the name in front of the text
            by_contra hwhole
            obtain ⟨pre, hpre, h⟩ := afterDate_short hfields hwhole
            rw [hafter] at h
            obtain rfl : t = pre ++ text := Option.some.inj h
            have := names_unique hne hname hnames ht
            omega
          · rintro ⟨hwhole, hne⟩
            exact ⟨hne, text, afterDate_whole hfields hwhole, hnames⟩

/-- A row that ends with its date. -/
def dateRow : Str :=
  ['-', 'r', 'w', '-', 'r', '-', '-', 'r', '-', '-', ' ', '1', ' ', 'u', ' ', '1', ' ', 'J', 'a',
    'n', ' ', '1', ' ', '1', '9', '9', '9']

/-- A row of a file `a b`, with a time and no year. -/
def timeRow : Str :=
  ['-', 'r', 'w', '-', 'r', '-', '-', 'r', '-', '-', ' ', '1', ' ', 'u', ' ', '1', ' ', 'J', 'a',
    'n', ' ', '1', ' ', '1', ':', '2', ':', '3', ' ', 'a', ' ', 'b']

/-- A row of a file `4file b`, with a time and no year. -/
def digitRow : Str :=
  ['-', 'r', 'w', '-', 'r', '-', '-', 'r', '-', '-', ' ', '1', ' ', 'u', ' ', '1', ' ', 'J', 'a',
    'n', ' ', '1', ' ', '1', ':', '2', ':', '3', ' ', '4', 'f', 'i', 'l', 'e', ' ', 'b']

end Spegla
