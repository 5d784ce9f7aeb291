import Spegla.LineEnds

/-!
# From a listing to its heap (`spegla.c`, `build_remote_dir`)

A listing is a line that counts blocks, which may be missing, and rows, each ended by a newline or
by a carriage return and a newline.

- `listingText`: the text. `RowLine`: what is asked of a row.
- `rowTexts`: the rows that the lines in the buffer hold once they are stripped and the blank ones
  are passed over. They are the rows of the text, wherever the buffer cuts it
  (`rowTexts_linesText`).
- `listedEntries`: the entries that a listing of the rows stands for.
- `buildRemoteDir_listing_iff`: the heap holds them exactly when there is a row and the patterns are
  given no null pointer. Without rows there is no heap.
-/

namespace Spegla

open CString

variable {F : Type}

/-! ## The text -/

/-- The end of a line. -/
def eol (crlf : Bool) : Str := if crlf then ['\r', '\n'] else ['\n']

/-- Lines with their ends; `true` stands for a carriage return before the newline. -/
def linesText (lines : List (Str × Bool)) : Str := lines.flatMap fun l => l.1 ++ eol l.2

/-- The line that counts blocks, from what follows its first word. -/
def totalLine (rest : Str) : Str := ['t', 'o', 't', 'a', 'l'] ++ rest

/-- A listing, from its `total` line, if there is one, and its rows. -/
def listingText (total : Option (Str × Bool)) (rows : List (Str × Bool)) : Str :=
  linesText ((total.map fun t => (totalLine t.1, t.2)).toList ++ rows)

/-- The `total` line fits into the buffer. -/
def TotalFits (env : Env F) (total : Option (Str × Bool)) : Prop :=
  ∀ t ∈ total, '\n' ∉ t.1 ∧ (totalLine t.1 ++ eol t.2).length < env.pathMax

/-- A row that `parse_row` makes an entry of, whatever lies behind it in memory. -/
structure RowLine (env : Env F) (row : Str) : Prop where
  short : row.length < env.pathMax
  newline : '\n' ∉ row
  cr : row.getLast? ≠ some '\r'
  nul : nul ∉ row
  parses : ∃ spf, ∀ leftover, parseRow env.row row leftover = some spf

/-! ## The entries -/

/-- The entries of the rows. -/
def parsedEntries (env : Env F) (rows : List Str) : List SpFile :=
  rows.filterMap fun row => parseRow env.row row []

/-- Neither the directory itself nor the one above it. -/
def NotDots (spf : SpFile) : Prop := spf.spfName ≠ dotdot ∧ spf.spfName ≠ dot

instance (spf : SpFile) : Decidable (NotDots spf) := inferInstanceAs (Decidable (_ ∧ _))

/-- The entry as it is mirrored: a link that is to be treated as a directory is one. -/
def treated (env : Env F) (curDir : Str) (spf : SpFile) : SpFile :=
  if spfIsATreatasdir env.pathMax curDir env.treatasdir spf = some true then
    { spf with spfType := .directory, spfOpt := { spf.spfOpt with isLink := true } }
  else spf

/-- The entries that a listing stands for. -/
def listedEntries (env : Env F) (curDir : Str) (rows : List Str) : List SpFile :=
  (((parsedEntries env rows).filter (NotDots ·)).map (treated env curDir)).filter fun spf =>
    spfIsASkip env.pathMax curDir env.skip spf ≠ some true

/-- The patterns of the configuration are given no null pointer when they are asked about the entry.
-/
def PatternsAnswer (env : Env F) (curDir : Str) (spf : SpFile) : Prop :=
  spfIsATreatasdir env.pathMax curDir env.treatasdir spf ≠ none ∧
    spfIsASkip env.pathMax curDir env.skip (treated env curDir spf) ≠ none

/-! ## Lines in the buffer -/

/-- The rows that lines in the buffer hold. -/
def rowTexts (bufs : List Str) : List Str := (bufs.map stripEol).filter (· ≠ [])

theorem rowTexts_cons (buf : Str) (bufs : List Str) :
    rowTexts (buf :: bufs) = (if stripEol buf = [] then [] else [stripEol buf]) ++
      rowTexts bufs := by
  unfold rowTexts
  rw [List.map_cons, List.filter_cons]
  by_cases h : stripEol buf = [] <;> simp [h]

/-- Blank lines hold no row. -/
theorem rowTexts_blank {bufs : List Str} (h : ∀ b ∈ bufs, stripEol b = []) (more : List Str) :
    rowTexts (bufs ++ more) = rowTexts more := by
  induction bufs with
  | nil => rfl
  | cons b bufs ih =>
    rw [List.cons_append, rowTexts_cons, if_pos (h b List.mem_cons_self), List.nil_append]
    exact ih fun b' hb' => h b' (List.mem_cons_of_mem _ hb')

theorem readLines_cons {size fuel : Nat} {s buf rest : Str} (hs : s ≠ [])
    (h : line (size - 1) s = (buf, rest)) :
    readLines size (fuel + 1) s = buf :: readLines size fuel rest := by
  rw [readLines, fgets, if_neg hs, h]

/-- A row, and its end or the beginning of it, in the buffer. -/
theorem stripEol_row {row : Str} (hnul : nul ∉ row) (hcr : row.getLast? ≠ some '\r')
    (hnl : '\n' ∉ row) {t : Str} (ht : t ∈ [[], ['\n'], ['\r'], ['\r', '\n']]) :
    stripEol (row ++ t) = row := by
  have hlast : row.getLast? ≠ some '\n' := fun h => hnl (List.mem_of_getLast? h)
  have ht' : nul ∉ t := by
    revert ht
    revert t
    decide
  have hcstr : cstr (row ++ t) = row ++ t := cstr_eq_self (by simp [hnul, ht'])
  unfold stripEol
  rw [hcstr]
  simp only [List.mem_cons, List.not_mem_nil, or_false] at ht
  rcases ht with rfl | rfl | rfl | rfl
  · simp [hlast, hcr]
  · simp [hcr]
  · simp
  · rw [show row ++ ['\r', '\n'] = row ++ ['\r'] ++ ['\n'] by simp]
    simp only [List.getLast?_concat, List.dropLast_concat, if_true]

/-- What is left of the end of a row that fills the buffer. -/
theorem stripEol_end {t : Str} (ht : t ∈ [['\n'], ['\r'], ['\r', '\n']]) : stripEol t = [] := by
  revert ht
  revert t
  decide

/-- The buffer holds a row, then what is left of its end, and then the lines behind it. -/
theorem readLines_row {m : Nat} {row : Str} (hlen : 2 ≤ row.length) (hm : row.length < m)
    (hnl : '\n' ∉ row) (crlf : Bool) (s : Str) {fuel : Nat}
    (hfuel : (row ++ eol crlf ++ s).length ≤ fuel) :
    ∃ t rest fuel', readLines m fuel (row ++ eol crlf ++ s) =
        (row ++ t) :: (rest ++ readLines m fuel' s) ∧ s.length ≤ fuel' ∧
      t ∈ [[], ['\n'], ['\r'], ['\r', '\n']] ∧ ∀ b ∈ rest, stripEol b = [] := by
  -- everything before the newline
  obtain ⟨q, hq, hqr, hqnl⟩ : ∃ q, row ++ eol crlf = q ++ ['\n'] ∧
      (q = row ∨ crlf = true ∧ q = row ++ ['\r']) ∧ '\n' ∉ q := by
    cases crlf with
    | false => exact ⟨row, rfl, Or.inl rfl, hnl⟩
    | true => exact ⟨row ++ ['\r'], by simp [eol], Or.inr ⟨rfl, rfl⟩, by simp [hnl]⟩
  have htext : row ++ eol crlf ++ s = q ++ '\n' :: s := by rw [hq]; simp
  have hqlen : row.length ≤ q.length := by
    rcases hqr with rfl | ⟨-, rfl⟩ <;> simp
  rw [htext, List.length_append, List.length_cons] at hfuel
  rw [htext]
  obtain ⟨fuel, rfl⟩ : ∃ f, fuel = f + 2 := ⟨fuel - 2, by omega⟩
  rcases Nat.lt_or_ge q.length (m - 1) with hfits | hcut
  · -- the line fits
    refine ⟨eol crlf, [], fuel + 1, ?_, by omega, ?_, by simp⟩
    · rw [readLines_cons (by simp) (line_newline hqnl s hfits), ← hq]
      rfl
    · cases crlf <;> simp [eol]
  · rcases Nat.lt_or_ge row.length (m - 1) with hroom | hfull
    · -- the newline is cut off
      obtain rfl : q = row ++ ['\r'] := by
        rcases hqr with rfl | ⟨-, hq⟩
        · omega
        · exact hq
      have hsize : (row ++ ['\r']).length = m - 1 := by
        rw [List.length_append, List.length_singleton] at hcut ⊢
        omega
      have hfirst : line (m - 1) (row ++ ['\r'] ++ '\n' :: s) = (row ++ ['\r'], '\n' :: s) :=
        hsize ▸ line_full hqnl ('\n' :: s)
      have hrest : line (m - 1) ('\n' :: s) = (['\n'], s) :=
        line_newline List.not_mem_nil s (show 0 < m - 1 by omega)
      refine ⟨['\r'], [['\n']], fuel, ?_, by omega, by simp, by simp [stripEol_end]⟩
      rw [readLines_cons (by simp) hfirst, readLines_cons (by simp) hrest]
      rfl
    · -- the row fills the buffer
      have hsize : row.length = m - 1 := by omega
      have hfirst : line (m - 1) (row ++ (eol crlf ++ s)) = (row, eol crlf ++ s) :=
        hsize ▸ line_full hnl (eol crlf ++ s)
      have hrest : line (m - 1) (eol crlf ++ s) = (eol crlf, s) := by
        cases crlf with
        | false => exact line_newline List.not_mem_nil s (show 0 < m - 1 by omega)
        | true => exact line_newline (p := ['\r']) (by decide) s (show 1 < m - 1 by omega)
      refine ⟨[], [eol crlf], fuel, ?_, by omega, by simp, ?_⟩
      · rw [← htext, List.append_assoc, List.append_nil]
        rw [readLines_cons (by cases row <;> simp at hlen ⊢) hfirst]
        rw [readLines_cons (by cases crlf <;> simp [eol]) hrest]
        rfl
      · cases crlf <;> simp [eol, stripEol_end]

/-! ## Rows and the `total` line -/

theorem parseFileMode_o (c : Char) (p : Str) : parseFileMode (c :: 'o' :: p) = none := by
  rw [parseFileMode]
  cases parseFtype c with
  | none => rfl
  | some ftype => simp [modeColumns, parseColumns, List.lookup_cons]

/-- A row with an entry is not taken for the `total` line. -/
theorem parseRow_second {env : RowEnv} {row leftover : Str} {spf : SpFile}
    (h : parseRow env row leftover = some spf) : 2 ≤ row.length ∧ row[1]? ≠ some 'o' := by
  obtain ⟨tok, save, htok, m, hmode⟩ :
      ∃ tok save, strtok ' ' row = some (tok, save) ∧ ∃ m, parseFileMode tok = some m := by
    unfold parseRow at h
    simp only [Option.bind_eq_bind, Option.bind_eq_some_iff, Prod.exists] at h
    obtain ⟨tok, save, htok, ftype, mode, hmode, -⟩ := h
    exact ⟨tok, save, htok, (ftype, mode), hmode⟩
  match row with
  | [] => simp [strtok] at htok
  | [c] =>
    by_cases hc : c = ' '
    · simp [strtok, hc] at htok
    · obtain rfl : [c] = tok := by
        simp [strtok, hc] at htok
        exact htok.1
      rw [parseFileMode] at hmode
      cases hf : parseFtype c <;> simp [hf, modeColumns, parseColumns] at hmode
  | c :: d :: s =>
    refine ⟨by simp, fun ho => ?_⟩
    obtain rfl : d = 'o' := Option.some.inj ho
    by_cases hc : c = ' '
    · simp [strtok, hc] at htok
      rw [← htok.1, parseFileMode] at hmode
      simp [parseFtype] at hmode
    · simp [strtok, hc] at htok
      rw [← htok.1, parseFileMode_o] at hmode
      simp at hmode

variable {env : Env F} {rows : List (Str × Bool)}

theorem linesText_cons (l : Str × Bool) (lines : List (Str × Bool)) :
    linesText (l :: lines) = l.1 ++ eol l.2 ++ linesText lines := List.flatMap_cons

/-- Wherever the buffer cuts the text, it gives the rows of the text. -/
theorem rowTexts_linesText (hrows : ∀ row ∈ rows, RowLine env row.1) {fuel : Nat}
    (hfuel : (linesText rows).length ≤ fuel) :
    rowTexts (readLines env.pathMax fuel (linesText rows)) = rows.map Prod.fst := by
  induction rows generalizing fuel with
  | nil =>
    cases fuel with
    | zero => rfl
    | succ fuel => simp [linesText, readLines, fgets, rowTexts]
  | cons row rows ih =>
    have hrow := hrows row List.mem_cons_self
    obtain ⟨spf, hspf⟩ := hrow.parses
    have hlen := (parseRow_second (hspf [])).1
    rw [linesText_cons] at hfuel ⊢
    obtain ⟨t, rest, fuel', hread, hfuel', ht, hrest⟩ :=
      readLines_row hlen hrow.short hrow.newline row.2 (linesText rows) hfuel
    have hne : row.1 ≠ [] := by
      intro h
      rw [h] at hlen
      simp at hlen
    rw [hread, rowTexts_cons, stripEol_row hrow.nul hrow.cr hrow.newline ht, if_neg hne,
      rowTexts_blank hrest, ih (fun r hr => hrows r (List.mem_cons_of_mem _ hr)) hfuel']
    rfl

/-- The rows of a listing, with or without its `total` line. -/
theorem rowTexts_listingRows {total : Option (Str × Bool)} (ht : TotalFits env total)
    (hrows : ∀ row ∈ rows, RowLine env row.1) :
    rowTexts (listingRows env.pathMax (listingText total rows)) = rows.map Prod.fst ∧
      (rows = [] → listingRows env.pathMax (listingText total rows) = []) := by
  cases total with
  | none =>
    show rowTexts (listingRows env.pathMax (linesText rows)) = _ ∧
      (_ → listingRows env.pathMax (linesText rows) = [])
    have htexts := rowTexts_linesText hrows (Nat.le_refl _)
    unfold listingRows
    cases rows with
    | nil => exact ⟨rfl, fun _ => rfl⟩
    | cons row rows =>
      refine ⟨?_, fun h => absurd h (List.cons_ne_nil _ _)⟩
      have hrow := hrows row List.mem_cons_self
      obtain ⟨spf, hspf⟩ := hrow.parses
      obtain ⟨hlen, hsecond⟩ := parseRow_second (hspf [])
      -- the first line in the buffer begins as the row does
      obtain ⟨t, rest, fuel', hread, -⟩ :=
        readLines_row hlen hrow.short hrow.newline row.2 (linesText rows) (Nat.le_refl _)
      rw [← linesText_cons] at hread
      have htotal : isTotal (row.1 ++ t) = false := by
        refine decide_eq_false fun h => hsecond ?_
        have hget := congrArg (fun s : Str => s[0]?) h
        rw [List.getElem?_take_of_lt (by omega), List.getElem?_drop] at hget
        rwa [List.getElem?_append_left (by omega)] at hget
      rw [← htexts, hread]
      simp only [htotal]
      rfl
  | some total =>
    obtain ⟨hnl, hlen⟩ := ht total rfl
    have htext : listingText (some total) rows =
        totalLine total.1 ++ eol total.2 ++ linesText rows := linesText_cons (_, _) _
    -- the line comes into the buffer as a whole
    obtain ⟨q, hq, hqnl⟩ : ∃ q, totalLine total.1 ++ eol total.2 = q ++ ['\n'] ∧ '\n' ∉ q := by
      cases total.2 with
      | false => exact ⟨totalLine total.1, rfl, by simp [totalLine, hnl]⟩
      | true => exact ⟨totalLine total.1 ++ ['\r'], by simp [eol], by simp [totalLine, hnl]⟩
    rw [hq, List.length_append, List.length_singleton] at hlen
    have hline : line (env.pathMax - 1) (listingText (some total) rows) =
        (totalLine total.1 ++ eol total.2, linesText rows) := by
      rw [htext, hq, List.append_assoc]
      exact line_newline hqnl (linesText rows) (by omega)
    have hne : listingText (some total) rows ≠ [] := by
      rw [htext]
      exact List.cons_ne_nil _ _
    obtain ⟨fuel, hfuel⟩ : ∃ fuel, (listingText (some total) rows).length = fuel + 1 ∧
        (linesText rows).length ≤ fuel := by
      rw [htext, hq]
      simp only [List.length_append, List.length_singleton]
      exact ⟨q.length + (linesText rows).length, by omega, by omega⟩
    have hrowsOf : listingRows env.pathMax (listingText (some total) rows) =
        readLines env.pathMax fuel (linesText rows) := by
      rw [listingRows, hfuel.1, readLines_cons hne hline]
      rfl
    rw [hrowsOf]
    refine ⟨rowTexts_linesText hrows hfuel.2, ?_⟩
    rintro rfl
    cases fuel <;> rfl

/-! ## The loop -/

/-- What the patterns make of an entry. -/
theorem filterEntry_eq (env : Env F) (curDir : Str) (spf : SpFile) :
    (PatternsAnswer env curDir spf → filterEntry env curDir spf =
      .ok (if spfIsASkip env.pathMax curDir env.skip (treated env curDir spf) ≠ some true then
        some (treated env curDir spf) else none)) ∧
    (¬PatternsAnswer env curDir spf → ∃ e, filterEntry env curDir spf = .error e) := by
  unfold filterEntry PatternsAnswer
  cases htreat : spfIsATreatasdir env.pathMax curDir env.treatasdir spf with
  | none => exact ⟨fun h => absurd rfl h.1, fun _ => ⟨_, rfl⟩⟩
  | some treat =>
    have hspf : (if treat then
        { spf with spfType := .directory, spfOpt := { spf.spfOpt with isLink := true } }
        else spf) = treated env curDir spf := by
      unfold treated
      rw [htreat]
      cases treat <;> rfl
    simp only [hspf]
    cases hskip : spfIsASkip env.pathMax curDir env.skip (treated env curDir spf) with
    | none => exact ⟨fun h => absurd rfl h.2, fun _ => ⟨_, rfl⟩⟩
    | some skip => cases skip <;> simp

/-- What a line adds, from the row that it holds. -/
theorem rowEntry_row {curDir leftover buf : Str} (hbuf : stripEol buf ≠ []) {spf : SpFile}
    (hspf : parseRow env.row (stripEol buf) leftover = some spf) :
    rowEntry env curDir leftover buf =
      if NotDots spf then filterEntry env curDir spf else .ok none := by
  unfold rowEntry
  simp only [if_neg hbuf, hspf]
  by_cases h : spf.spfName = dotdot ∨ spf.spfName = dot
  · rw [if_pos h, if_neg fun hdots : NotDots spf => h.elim hdots.1 hdots.2]
  · rw [if_neg h, if_pos (show NotDots spf from not_or.mp h)]

theorem rowEntry_blank {curDir leftover buf : Str} (hbuf : stripEol buf = []) :
    rowEntry env curDir leftover buf = .ok none := by
  unfold rowEntry
  simp only [if_pos hbuf]

theorem listedEntries_cons {curDir row : Str} {texts : List Str} {spf : SpFile}
    (hspf : parseRow env.row row [] = some spf) :
    listedEntries env curDir (row :: texts) =
      (if NotDots spf ∧ spfIsASkip env.pathMax curDir env.skip (treated env curDir spf) ≠ some true
        then [treated env curDir spf] else []) ++ listedEntries env curDir texts := by
  unfold listedEntries parsedEntries
  rw [List.filterMap_cons, hspf]
  by_cases hdots : NotDots spf
  · by_cases hskip : spfIsASkip env.pathMax curDir env.skip (treated env curDir spf) = some true
    · simp [hdots, hskip]
    · simp [hdots, hskip]
  · simp [hdots]

/-- The patterns answer for every entry of the rows that they are asked about. -/
def AllAnswer (env : Env F) (curDir : Str) (texts : List Str) : Prop :=
  ∀ spf ∈ parsedEntries env texts, NotDots spf → PatternsAnswer env curDir spf

theorem allAnswer_cons {curDir row : Str} {texts : List Str} {spf : SpFile}
    (hspf : parseRow env.row row [] = some spf) :
    AllAnswer env curDir (row :: texts) ↔
      (NotDots spf → PatternsAnswer env curDir spf) ∧ AllAnswer env curDir texts := by
  unfold AllAnswer parsedEntries
  rw [List.filterMap_cons, hspf]
  exact List.forall_mem_cons

/-- The loop, on lines that hold rows with entries. -/
theorem addRows_rows (curDir : Str) (tick : Nat) {bufs : List Str} (headp : HeapList SpFile)
    (hparses : ∀ row ∈ rowTexts bufs, ∃ spf, ∀ leftover, parseRow env.row row leftover = some spf) :
    (AllAnswer env curDir (rowTexts bufs) → addRows env curDir tick bufs headp =
      .ok (heapPushAll headp (listedEntries env curDir (rowTexts bufs)))) ∧
    (¬AllAnswer env curDir (rowTexts bufs) → ∃ e, addRows env curDir tick bufs headp =
      .error e) := by
  induction bufs generalizing headp with
  | nil => exact ⟨fun _ => rfl, fun h => absurd (fun _ h => absurd h List.not_mem_nil) h⟩
  | cons buf bufs ih =>
    rw [addRows]
    by_cases hbuf : stripEol buf = []
    · rw [rowTexts_cons, if_pos hbuf, List.nil_append] at hparses ⊢
      rw [rowEntry_blank hbuf]
      exact ih headp hparses
    · rw [rowTexts_cons, if_neg hbuf, List.singleton_append] at hparses ⊢
      obtain ⟨hrow, hmore⟩ := List.forall_mem_cons.mp hparses
      obtain ⟨spf, hspf⟩ := hrow
      rw [rowEntry_row hbuf (hspf _), allAnswer_cons (hspf []), listedEntries_cons (hspf [])]
      by_cases hdots : NotDots spf
      · rw [if_pos hdots]
        by_cases hanswer : PatternsAnswer env curDir spf
        · rw [(filterEntry_eq env curDir spf).1 hanswer]
          by_cases hskip :
              spfIsASkip env.pathMax curDir env.skip (treated env curDir spf) ≠ some true
          · rw [if_pos hskip, if_pos ⟨hdots, hskip⟩]
            refine ⟨fun h => (ih _ hmore).1 h.2, fun h => (ih _ hmore).2 fun h' =>
              h ⟨fun _ => hanswer, h'⟩⟩
          · rw [if_neg hskip, if_neg fun h => hskip h.2]
            refine ⟨fun h => (ih _ hmore).1 h.2, fun h => (ih _ hmore).2 fun h' =>
              h ⟨fun _ => hanswer, h'⟩⟩
        · obtain ⟨e, he⟩ := (filterEntry_eq env curDir spf).2 hanswer
          rw [he]
          exact ⟨fun h => absurd (h.1 hdots) hanswer, fun _ => ⟨e, rfl⟩⟩
      · rw [if_neg hdots, if_neg fun h => hdots h.1]
        refine ⟨fun h => (ih _ hmore).1 h.2, fun h => (ih _ hmore).2 fun h' =>
          h ⟨fun hd => absurd hd hdots, h'⟩⟩

theorem buildRemoteDir_nil {curDir listing : Str} {tick : Nat}
    (h : listingRows env.pathMax listing = []) :
    buildRemoteDir env curDir tick (some listing) = .ok none := by
  unfold buildRemoteDir
  simp only [h]

theorem buildRemoteDir_rows {curDir listing : Str} {tick : Nat}
    (h : listingRows env.pathMax listing ≠ []) :
    buildRemoteDir env curDir tick (some listing) =
      (addRows env curDir tick (listingRows env.pathMax listing)
        (heapInit spfPushComp)).map some := by
  unfold buildRemoteDir
  cases hrows : listingRows env.pathMax listing with
  | nil => exact absurd hrows h
  | cons buf bufs => simp only [hrows]

/-- Every row of a listing makes an entry, whatever lies behind it. -/
theorem listingRows_parse {total : Option (Str × Bool)} {rows : List (Str × Bool)}
    (ht : TotalFits env total) (hrows : ∀ row ∈ rows, RowLine env row.1) :
    ∀ row ∈ rowTexts (listingRows env.pathMax (listingText total rows)),
      ∃ spf, ∀ leftover, parseRow env.row row leftover = some spf := by
  rw [(rowTexts_listingRows ht hrows).1]
  intro text htext
  obtain ⟨row, hrow, rfl⟩ := List.mem_map.mp htext
  exact (hrows row hrow).parses

theorem listingRows_ne_nil {total : Option (Str × Bool)} {rows : List (Str × Bool)}
    (ht : TotalFits env total) (hrows : ∀ row ∈ rows, RowLine env row.1) (hne : rows ≠ []) :
    listingRows env.pathMax (listingText total rows) ≠ [] := by
  intro h
  have htexts := (rowTexts_listingRows ht hrows).1
  rw [h] at htexts
  exact hne (List.map_eq_nil_iff.mp htexts.symm)

/-- The heap of a listing with a row. -/
theorem buildRemoteDir_heap {curDir : Str} (tick : Nat) {total : Option (Str × Bool)}
    {rows : List (Str × Bool)} (ht : TotalFits env total)
    (hrows : ∀ row ∈ rows, RowLine env row.1) (hne : rows ≠ [])
    (hanswer : AllAnswer env curDir (rows.map Prod.fst)) :
    buildRemoteDir env curDir tick (some (listingText total rows)) =
      .ok (some (heapOf (listedEntries env curDir (rows.map Prod.fst)))) := by
  have hok := (addRows_rows curDir tick (heapInit spfPushComp) (listingRows_parse ht hrows)).1
  rw [(rowTexts_listingRows ht hrows).1] at hok
  rw [buildRemoteDir_rows (listingRows_ne_nil ht hrows hne), hok hanswer]
  rfl

/-- The heap of `build_remote_dir` holds the entries that a listing stands for exactly when the
listing has a row and the patterns are given no null pointer. -/
theorem buildRemoteDir_listing_iff (env : Env F) (curDir : Str) (tick : Nat)
    (total : Option (Str × Bool)) (rows : List (Str × Bool)) (ht : TotalFits env total)
    (hrows : ∀ row ∈ rows, RowLine env row.1) :
    (∃ headp, buildRemoteDir env curDir tick (some (listingText total rows)) = .ok (some headp) ∧
      headp.Valid ∧ headp.elems = listedEntries env curDir (rows.map Prod.fst)) ↔
    rows ≠ [] ∧ AllAnswer env curDir (rows.map Prod.fst) := by
  obtain ⟨htexts, hempty⟩ := rowTexts_listingRows ht hrows
  by_cases hnone : rows = []
  · rw [buildRemoteDir_nil (hempty hnone)]
    constructor
    · rintro ⟨headp, h, -⟩
      simp at h
    · intro h
      exact absurd hnone h.1
  · constructor
    · rintro ⟨headp, h, -⟩
      refine ⟨hnone, ?_⟩
      by_contra hanswer
      have herror :=
        (addRows_rows curDir tick (heapInit spfPushComp) (listingRows_parse ht hrows)).2
      rw [htexts] at herror
      obtain ⟨e, he⟩ := herror hanswer
      rw [buildRemoteDir_rows (listingRows_ne_nil ht hrows hnone), he] at h
      simp [Except.map] at h
    · rintro ⟨-, hanswer⟩
      exact ⟨_, buildRemoteDir_heap tick ht hrows hnone hanswer, heapOf_valid _, heapOf_elems _⟩

/-- A row of a file `x`. -/
def rowX : Str :=
  ['-', 'r', 'w', '-', 'r', '-', '-', 'r', '-', '-', ' ', '1', ' ', 'u', ' ', '1', ' ', 'J', 'a',
    'n', ' ', '1', ' ', '1', '9', '9', '9', ' ', 'x']

theorem rowX_rowLine : RowLine (calmEnv deadFtp) rowX where
  short := by decide
  newline := by decide
  cr := by decide
  nul := by decide
  parses := ⟨_, fun _ => rfl⟩

/-- A `total` line, and one row. -/
theorem buildRemoteDir_listing_iff_rowX :
    (∃ headp, buildRemoteDir (calmEnv deadFtp) [] 0
        (some (listingText (some ([' ', '1'], false)) [(rowX, true)])) = .ok (some headp) ∧
      headp.Valid ∧ headp.elems = listedEntries (calmEnv deadFtp) [] [rowX]) ↔
    [(rowX, true)] ≠ [] ∧ AllAnswer (calmEnv deadFtp) [] [rowX] :=
  buildRemoteDir_listing_iff (calmEnv deadFtp) [] 0 (some ([' ', '1'], false)) [(rowX, true)]
    (by rintro t ⟨⟩; exact ⟨by decide, by decide⟩) (by simp [rowX_rowLine])

/-- The listing of an empty directory, and an empty listing: no heap. -/
theorem buildRemoteDir_noRows :
    buildRemoteDir (calmEnv deadFtp) [] 0 (some (listingText (some ([' ', '0'], false)) [])) =
        .ok none ∧
      buildRemoteDir (calmEnv deadFtp) [] 0 (some (listingText none [])) = .ok none ∧
      ¬∃ headp, buildRemoteDir (calmEnv deadFtp) [] 0
          (some (listingText (some ([' ', '0'], false)) [])) = .ok (some headp) ∧
        headp.Valid ∧ headp.elems = listedEntries (calmEnv deadFtp) [] [] := by
  refine ⟨rfl, rfl, ?_⟩
  rintro ⟨headp, h, -⟩
  have hnone : buildRemoteDir (calmEnv deadFtp) [] 0
      (some (listingText (some ([' ', '0'], false)) [])) = .ok none := rfl
  rw [hnone] at h
  simp at h

end Spegla
