import Spegla.Container.Stack
import Spegla.Options.ConfigFile
import Spegla.Options.FileCalls

/-!
# Section names (`tgetopt.c`, `tgetopt_sections`)

- `Sects`, `sectInit`, `sectAdd`: the growing array of names. A write behind its block is undefined
  (`none`).
- `tgetoptSections`: the names of a file, in a block of their own. Allocations succeed, and so do
  `fgetpos` and `fsetpos`.
- `HeadsOf`: what the rows of a file begin with.
- `tgetoptSections_names`: the function gives the names exactly if there are at most `SECT_CHUNK`.
- `tgetoptSections_interferes`: behind it, `tgetopt` does not give what it gives without it.
-/

namespace Spegla

open CString

/-! ## The array of names -/

/-- `SECT_CHUNK`. -/
def SECT_CHUNK : Nat := 20

/-- `struct sects`; `sP` has an entry for each pointer of its block. -/
structure Sects where
  sNum : Nat
  sLast : Nat
  sP : List (Option Str)

/-- `sect_init`. -/
def sectInit : Sects := { sNum := SECT_CHUNK, sLast := 0, sP := List.replicate SECT_CHUNK none }

/-- `if (s->s_num < s->s_last)`, and the block that is made larger. -/
def sectGrow (s : Sects) : Sects :=
  if s.sNum < s.sLast then
    { s with sNum := s.sNum * 2, sP := realloc s.sP (s.sNum * 2) }
  else s

/-- `sect_add`. -/
def sectAdd (s : Sects) (str : Str) : Option Sects :=
  let s := sectGrow s
  if s.sLast < s.sP.length then
    some { s with sP := s.sP.set s.sLast (some str), sLast := s.sLast + 1 }
  else none

/-! ## The block of names -/

/-- `sizeof(char **)`. -/
def PTR_SIZE : Nat := 8

/-- The block that is returned: its pointers, into the block or null, and its bytes. -/
structure NameBlock where
  p : List (Option Nat)
  mem : Str

/-- The strings that the pointers show. -/
def NameBlock.strings (b : NameBlock) : List (Option Str) :=
  b.p.map (Option.map fun q => cstr (b.mem.drop q))

/-- `strcpy` to a place in the block; undefined where that is too short. -/
def strcpyAt (mem : Str) (q : Nat) (s : Str) : Option Str :=
  if q + s.length + 1 ≤ mem.length then
    some (mem.take q ++ (s ++ nul :: mem.drop (q + s.length + 1)))
  else none

/-- The loop that fills the block, and `p[i] = NULL` behind it. -/
def packLoop : List Str → Nat → Str → Option NameBlock
  | [], _, mem => some { p := [none], mem := mem }
  | name :: names, q, mem => do
    let mem ← strcpyAt mem q name
    let block ← packLoop names (q + name.length + 1) mem
    return { block with p := some q :: block.p }

/-- The length of the block. -/
def packLen (names : List Str) : Nat :=
  names.foldl (fun len name => len + (PTR_SIZE + name.length + 1)) 0 + PTR_SIZE

/-- The names in one block; `fill` is what `malloc` leaves in it. -/
def packNames (fill : Char) (names : List Str) : Option NameBlock :=
  packLoop names ((names.length + 1) * PTR_SIZE) (List.replicate (packLen names) fill)

/-! ## The names of a file -/

/-- The loop of `tgetopt_sections`. -/
def sectLoop : Nat → Str → ConfFile → Sects → Option (Except GosErrno Sects)
  | 0, _, _, _ => none
  | fuel + 1, buf, fp, s =>
    match fp.fgets MAX_STR with
    | none => some (.ok s)
    | some (line, fp) => do
      let buf := chomp (overlay line buf)
      let (tok, _) ← nextToken buf 0
      match tok with
      | none => sectLoop fuel buf fp s
      | some tok =>
        if tok.headD nul ≠ '[' then sectLoop fuel buf fp s
        else if tok.getLast? ≠ some ']' then return .error .syntaxEs
        else do
          let s ← sectAdd s (tok.dropLast.drop 1)
          sectLoop fuel buf fp s

/-- `rewind`. -/
def ConfFile.rewind (fp : ConfFile) : ConfFile := { fp with rest := fp.data }

/-- `tgetopt_sections`; `buf` is what is in its buffer before, and `fill` in the memory of the
block. -/
def tgetoptSections (buf : Str) (fill : Char) (gos : GetOptState) :
    Option (Option NameBlock × GetOptState) := do
  if gos.gosType ≠ .file then return (none, { gos with gosErrno := .eonlyFile })
  else
    match ← sectLoop (gos.gosFp.data.length + 1) buf gos.gosFp.rewind sectInit with
    | .error err => return (none, { gos with gosErrno := err })
    | .ok s =>
      let names ← (s.sP.take s.sLast).mapM id
      let block ← packNames fill names
      return (some block, { gos with gosErrno := .errno })

/-! ## What the rows of a file begin with -/

/-- The first tokens of the rows of a file, with a buffer that they are read into. -/
inductive HeadsOf : Str → ConfFile → List (Option Str) → Prop where
  | nil {buf fp} : fp.fgets MAX_STR = none → HeadsOf buf fp []
  | cons {buf fp line fp' head heads} : fp.fgets MAX_STR = some (line, fp') →
      tokenIn (chomp (overlay line buf)) = some head →
      HeadsOf (chomp (overlay line buf)) fp' heads → HeadsOf buf fp (head.map Prod.fst :: heads)

/-- The section identifiers. -/
def headers (heads : List (Option Str)) : List Str := (heads.filterMap id).filter (IsHeader ·)

/-- The name in a section identifier. -/
def sectionName (tok : Str) : Str := tok.dropLast.drop 1

/-- A file that is read as rows has their first tokens, whatever the buffer is. -/
theorem headsOf_rows {fp : ConfFile} {rows : List (List Str)} (h : RowsOf fp rows) (buf : Str) :
    HeadsOf buf fp (rows.map List.head?) := by
  induction h generalizing buf with
  | nil hend => exact .nil hend
  | @cons fp line fp' toks rows hline ht _ ih =>
    have hmem := ht.append (buf.drop (line.length + 1))
    rw [← chomp_overlay] at hmem
    have hrest := ih (chomp (overlay line buf))
    cases hmem with
    | nil hb => exact .cons hline hb hrest
    | cons hb _ => exact .cons hline hb hrest

/-- No more lines than characters. -/
theorem HeadsOf.length_le {buf : Str} {fp : ConfFile} {heads : List (Option Str)}
    (h : HeadsOf buf fp heads) : heads.length ≤ fp.rest.length := by
  induction h with
  | nil => exact Nat.zero_le _
  | cons hline _ _ ih =>
    have := (fgets_some hline).2
    rw [List.length_cons]
    omega

/-- A token is a C string. -/
theorem nul_notMem_token {b tok rest : Str} (h : tokenIn b = some (some (tok, rest))) :
    nul ∉ tok := by
  obtain ⟨m, -, htok⟩ := Option.bind_eq_some_iff.mp h
  cases m with
  | nil => cases htok
  | cons c m =>
    simp only at htok
    split at htok
    · cases htok
    · next hc =>
      split at htok
      · cases htok
        simpa using Ne.symm hc
      · obtain ⟨r, -, he⟩ := Option.map_eq_some_iff.mp htok
        cases he
        exact nul_notMem_cstr _

/-- What is read as a string has no NUL. -/
theorem HeadsOf.nul_notMem {buf : Str} {fp : ConfFile} {heads : List (Option Str)}
    (h : HeadsOf buf fp heads) {tok : Str} (ht : some tok ∈ heads) : nul ∉ tok := by
  induction h with
  | nil => cases ht
  | @cons buf fp line fp' head heads hline hhead _ ih =>
    rcases List.mem_cons.mp ht with he | hm
    · obtain ⟨r, rfl, rfl⟩ := Option.map_eq_some_iff.mp he.symm
      exact nul_notMem_token hhead
    · exact ih hm

/-! ## The array while it fits -/

/-- The names in the array, which has not grown. -/
structure Sects.Holds (s : Sects) (names : List Str) : Prop where
  num : s.sNum = SECT_CHUNK
  last : s.sLast = names.length
  fits : names.length ≤ SECT_CHUNK
  block : s.sP = names.map some ++ List.replicate (SECT_CHUNK - names.length) none

/-- At the beginning there is no name. -/
theorem sectInit_holds : sectInit.Holds [] := ⟨rfl, rfl, Nat.zero_le _, rfl⟩

namespace Sects.Holds

variable {s : Sects} {names : List Str}

theorem grow (h : s.Holds names) : sectGrow s = s := by
  refine if_neg ?_
  rw [h.num, h.last]
  exact Nat.not_lt.mpr h.fits

theorem length (h : s.Holds names) : s.sP.length = SECT_CHUNK := by
  rw [h.block, List.length_append, List.length_map, List.length_replicate]
  exact Nat.add_sub_of_le h.fits

theorem add (h : s.Holds names) (hlt : names.length < SECT_CHUNK) (str : Str) :
    ∃ s', sectAdd s str = some s' ∧ s'.Holds (names ++ [str]) := by
  have hfit : s.sLast < s.sP.length := by rw [h.length, h.last]; exact hlt
  refine ⟨{ s with sP := s.sP.set s.sLast (some str), sLast := s.sLast + 1 }, ?_, h.num, ?_, ?_, ?_⟩
  · rw [sectAdd, h.grow]
    exact if_pos hfit
  · rw [List.length_append]
    exact congrArg (· + 1) h.last
  · rw [List.length_append]
    exact hlt
  · obtain ⟨k, hk⟩ := Nat.exists_eq_add_of_lt hlt
    have hold : SECT_CHUNK - names.length = k + 1 := by omega
    have hnew : SECT_CHUNK - (names ++ [str]).length = k := by
      rw [List.length_append, List.length_singleton]
      omega
    show s.sP.set s.sLast (some str) = _
    rw [h.block, h.last, hold, hnew, List.set_append_right _ _ (by simp),
      List.length_map, Nat.sub_self,
      List.replicate_succ, List.set_cons_zero, List.map_append, List.append_assoc]
    rfl

/-- The array does not grow at `SECT_CHUNK` names, and the next one is written behind it. -/
theorem full (h : s.Holds names) (hfull : names.length = SECT_CHUNK) (str : Str) :
    sectAdd s str = none := by
  have hfit : ¬s.sLast < s.sP.length := by rw [h.length, h.last, hfull]; exact Nat.lt_irrefl _
  rw [sectAdd, h.grow]
  exact if_neg hfit

end Sects.Holds

/-! ## The loop -/

section Loop

variable {buf : Str} {fp : ConfFile} {heads : List (Option Str)} {s : Sects} {names : List Str}

/-- A section identifier is one of the headers. -/
theorem headers_header {tok : Str} (hh : IsHeader tok) (heads : List (Option Str)) :
    headers (some tok :: heads) = tok :: headers heads := by
  simp [headers, hh]

/-- Another token is none. -/
theorem headers_other {tok : Str} (hh : ¬IsHeader tok) (heads : List (Option Str)) :
    headers (some tok :: heads) = headers heads := by
  simp [headers, hh]

/-- The names are added one after the other, up to the one that does not fit. -/
theorem sectLoop_names (h : HeadsOf buf fp heads) (hs : s.Holds names)
    (hw : ∀ tok ∈ headers heads, tok.getLast? = some ']') {fuel : Nat}
    (hfuel : heads.length < fuel) :
    (names.length + (headers heads).length ≤ SECT_CHUNK →
      ∃ s', sectLoop fuel buf fp s = some (.ok s') ∧
        s'.Holds (names ++ (headers heads).map sectionName)) ∧
    (SECT_CHUNK < names.length + (headers heads).length → sectLoop fuel buf fp s = none) := by
  induction h generalizing s names fuel with
  | nil hend =>
    obtain ⟨fuel, rfl⟩ : ∃ n, fuel = n + 1 := ⟨fuel - 1, by omega⟩
    constructor
    · intro _
      refine ⟨s, by simp only [sectLoop, hend], ?_⟩
      have hnone : (headers []).map sectionName = [] := rfl
      rw [hnone, List.append_nil]
      exact hs
    · intro hlt
      have hfits := hs.fits
      have hnone : (headers []).length = 0 := rfl
      omega
  | @cons buf fp line fp' head heads hline hhead _ ih =>
    obtain ⟨fuel, rfl⟩ : ∃ n, fuel = n + 1 := ⟨fuel - 1, by omega⟩
    rw [List.length_cons] at hfuel
    have hp : PointsTo (chomp (overlay line buf)) 0 (chomp (overlay line buf)) :=
      ⟨Int.le_refl 0, rfl⟩
    cases head with
    | none =>
      have hnext := nextToken_none hp hhead
      have hsame :
        headers (Option.map Prod.fst (none : Option (Str × Str)) :: heads) = headers heads :=
        rfl
      simp only [sectLoop, hline, hnext, Option.bind_eq_bind, Option.bind_some]
      rw [hsame] at hw ⊢
      exact ih hs hw (by omega)
    | some r =>
      obtain ⟨tok, rest⟩ := r
      obtain ⟨pos, hnext, -⟩ := nextToken_some hp hhead
      simp only [sectLoop, hline, hnext, Option.bind_eq_bind, Option.bind_some, Option.map_some]
      rw [Option.map_some] at hw
      by_cases hh : IsHeader tok
      · have hcons := headers_header hh heads
        have hl := hw tok (by rw [hcons]; exact List.mem_cons_self)
        have hhead' : ¬tok.headD nul ≠ '[' := not_not_intro hh
        have hw' : ∀ tok ∈ headers heads, tok.getLast? = some ']' := by
          intro t ht
          exact hw t (by rw [hcons]; exact List.mem_cons_of_mem _ ht)
        rw [if_neg hhead', if_neg (not_not_intro hl), hcons, List.length_cons, List.map_cons]
        -- a name more fits, or the array is full and is not made larger
        rcases Nat.lt_or_eq_of_le hs.fits with hlt | hfull
        · obtain ⟨s', hadd, hs'⟩ := hs.add hlt (sectionName tok)
          have hrest := ih hs' hw' (Nat.lt_of_succ_lt_succ hfuel)
          rw [List.length_append, List.length_singleton, List.append_assoc,
            List.singleton_append] at hrest
          have hsum : names.length + ((headers heads).length + 1) =
              names.length + 1 + (headers heads).length := by omega
          rw [← sectionName, hadd, hsum]
          exact hrest
        · have hadd := hs.full hfull (sectionName tok)
          rw [← sectionName, hadd]
          exact ⟨fun hle => by omega, fun _ => rfl⟩
      · have hcons := headers_other hh heads
        have hhead' : tok.headD nul ≠ '[' := hh
        rw [if_pos hhead']
        rw [hcons] at hw ⊢
        exact ih hs hw (by omega)

end Loop

/-! ## Packing -/

section Pack

variable {names : List Str} {mem : Str} {q : Nat}

/-- The bytes that the names take behind the pointers. -/
def textLen : List Str → Nat
  | [] => 0
  | name :: names => name.length + 1 + textLen names

/-- The block has a pointer for each name and one more, and then the texts. -/
theorem packLen_eq (names : List Str) :
    packLen names = (names.length + 1) * PTR_SIZE + textLen names := by
  have hfold : ∀ len, names.foldl (fun len name => len + (PTR_SIZE + name.length + 1)) len =
      len + names.length * PTR_SIZE + textLen names := by
    induction names with
    | nil => exact fun len => by simp [textLen]
    | cons name names ih =>
      intro len
      rw [List.foldl_cons, ih, textLen, List.length_cons, Nat.add_mul]
      omega
  rw [packLen, hfold, Nat.add_mul]
  omega

/-- What is copied to a place, and what stays. -/
theorem strcpyAt_some {name : Str} (hfit : q + name.length + 1 ≤ mem.length) :
    ∃ mem', strcpyAt mem q name = some mem' ∧ mem'.length = mem.length ∧
      mem'.take q = mem.take q ∧ (mem'.drop q).take (name.length + 1) = name ++ [nul] := by
  have hq : (mem.take q).length = q := List.length_take_of_le (by omega)
  refine ⟨_, if_pos hfit, ?_, ?_, ?_⟩
  · simp only [List.length_append, List.length_cons, List.length_drop, hq]
    omega
  · rw [List.take_append_of_le_length (Nat.le_of_eq hq.symm), List.take_take, Nat.min_self]
  · have hdrop : (mem.take q ++ (name ++ nul :: mem.drop (q + name.length + 1))).drop q =
        (name ++ [nul]) ++ mem.drop (q + name.length + 1) := by
      rw [List.drop_left' hq, List.append_assoc]
      rfl
    rw [hdrop, List.take_left' (by simp)]

/-- The block shows the names, and the bytes before it are as they were. -/
theorem packLoop_strings (hfit : q + textLen names ≤ mem.length) (hn : ∀ name ∈ names, nul ∉ name) :
    ∃ block, packLoop names q mem = some block ∧ block.mem.take q = mem.take q ∧
      block.mem.length = mem.length ∧ block.strings = names.map some ++ [none] := by
  induction names generalizing q mem with
  | nil => exact ⟨_, rfl, rfl, rfl, rfl⟩
  | cons name names ih =>
    rw [textLen] at hfit
    obtain ⟨mem', hcpy, hsame, htake, hname⟩ :=
      strcpyAt_some (show q + name.length + 1 ≤ mem.length by omega)
    have hfit' : q + name.length + 1 + textLen names ≤ mem'.length := by omega
    obtain ⟨block, hpack, htake', hsame', hstrings⟩ :=
      ih hfit' fun n hm => hn n (List.mem_cons_of_mem _ hm)
    refine ⟨{ block with p := some q :: block.p }, ?_, ?_, hsame'.trans hsame, ?_⟩
    · simp only [packLoop, hcpy, hpack, Option.bind_eq_bind, Option.bind_some]
      rfl
    · have hprefix := congrArg (List.take q) htake'
      rw [List.take_take, List.take_take, Nat.min_eq_left (by omega)] at hprefix
      exact hprefix.trans htake
    · have hbytes : (block.mem.drop q).take (name.length + 1) = name ++ [nul] := by
        have hdrop := congrArg (List.drop q) htake'
        have hlen' : q + name.length + 1 - q = name.length + 1 := by omega
        rw [List.drop_take, List.drop_take, hlen', hname] at hdrop
        exact hdrop
      have hfirst : cstr (block.mem.drop q) = name := by
        rw [← List.take_append_drop (name.length + 1) (block.mem.drop q), hbytes, List.append_assoc]
        exact cstr_append (hn name List.mem_cons_self)
      rw [NameBlock.strings, List.map_cons, List.map_cons, Option.map_some, hfirst]
      exact congrArg (some name :: ·) hstrings

end Pack

/-! ## The function -/

/-- What the rows of the whole file begin with, whatever has been read of it. -/
def FileHeads (buf : Str) (gos : GetOptState) (heads : List (Option Str)) : Prop :=
  HeadsOf buf gos.gosFp.rewind heads

/-- Names that are all there. -/
theorem mapM_some (names : List Str) : (names.map some).mapM id = some names := by
  induction names with
  | nil => rfl
  | cons name names ih => rw [List.map_cons, List.mapM_cons, ih]; rfl

/-- `tgetopt_sections` returns the names of the sections, in their order, and then a null pointer.
-/
def GivesNames (buf : Str) (fill : Char) (gos : GetOptState) (names : List Str) : Prop :=
  ∃ block gos', tgetoptSections buf fill gos = some (some block, gos') ∧
    block.strings = names.map some ++ [none]

/-- The name behind `SECT_CHUNK` others is written behind the array. -/
theorem not_givesNames {buf : Str} {gos : GetOptState} {heads : List (Option Str)}
    (hf : gos.gosType = .file) (h : FileHeads buf gos heads)
    (hw : ∀ tok ∈ headers heads, tok.getLast? = some ']')
    (hmany : SECT_CHUNK < (headers heads).length) (fill : Char) (names : List Str) :
    ¬GivesNames buf fill gos names := by
  have hfuel : heads.length < gos.gosFp.data.length + 1 := Nat.lt_succ_of_le h.length_le
  have hloop :=
    (sectLoop_names h sectInit_holds hw hfuel).2 (by rwa [List.length_nil, Nat.zero_add])
  rintro ⟨block, gos', hrun, -⟩
  simp only [tgetoptSections, if_neg (not_not_intro hf), hloop] at hrun
  cases hrun

/-- For a file whose section identifiers are well formed, the function writes inside of its array
and gives their names exactly if there are at most `SECT_CHUNK` of them. -/
theorem tgetoptSections_names {buf : Str} {gos : GetOptState} {heads : List (Option Str)}
    (hf : gos.gosType = .file) (h : FileHeads buf gos heads)
    (hw : ∀ tok ∈ headers heads, tok.getLast? = some ']') (fill : Char) :
    GivesNames buf fill gos ((headers heads).map sectionName) ↔
      (headers heads).length ≤ SECT_CHUNK := by
  constructor
  · intro hgives
    by_contra hlt
    exact not_givesNames hf h hw (Nat.lt_of_not_le hlt) fill _ hgives
  · intro hle
    have hfuel : heads.length < gos.gosFp.data.length + 1 := Nat.lt_succ_of_le h.length_le
    have hloop :=
      (sectLoop_names h sectInit_holds hw hfuel).1 (by rwa [List.length_nil, Nat.zero_add])
    obtain ⟨s, hloop, hs⟩ := hloop
    rw [List.nil_append] at hs
    have hnames : (s.sP.take s.sLast).mapM id = some ((headers heads).map sectionName) := by
      rw [hs.block, hs.last, List.take_left' (by rw [List.length_map]), mapM_some]
    have hnul : ∀ name ∈ (headers heads).map sectionName, nul ∉ name := by
      intro name hm
      obtain ⟨tok, ht, rfl⟩ := List.mem_map.mp hm
      have hmem := (List.mem_filter.mp ht).1
      obtain ⟨head, hhead, he⟩ := List.mem_filterMap.mp hmem
      obtain rfl : head = some tok := he
      exact fun hin => h.nul_notMem hhead
        ((List.dropLast_prefix tok).mem ((List.drop_suffix 1 tok.dropLast).mem hin))
    have hfit : (((headers heads).map sectionName).length + 1) * PTR_SIZE +
        textLen ((headers heads).map sectionName) ≤
          (List.replicate (packLen ((headers heads).map sectionName)) fill).length := by
      rw [List.length_replicate, packLen_eq]
    obtain ⟨block, hpack, -, -, hstrings⟩ := packLoop_strings hfit hnul
    refine ⟨block, { gos with gosErrno := .errno }, ?_, hstrings⟩
    simp only [tgetoptSections, if_neg (not_not_intro hf), hloop, hnames, packNames, hpack,
      Option.bind_eq_bind,
      Option.bind_some]
    rfl

/-- A file with a number of sections of the same name. -/
def sectionsFile (n : Nat) : ConfFile :=
  let text := (List.replicate n ['[', 'a', ']', '\n']).flatten
  { data := text, rest := text, broken := false }

/-- The rows of such a file begin with its section identifiers. -/
theorem sectionsFile_heads {n : Nat} {heads : List (Option Str)} (hq : '"' ∉ (sectionsFile n).rest)
    (hl : ∀ row ∈ textRows (sectionsFile n).rest, row.length < MAX_STR - 1)
    (hheads : ((sectionsFile n).rows.map rowTokens).map List.head? = heads) :
    FileHeads [] (tgetoptFileInit (sectionsFile n) none goTable) heads :=
  hheads ▸ headsOf_rows (rowsOf_text (sectionsFile n) hq hl) []

theorem tgetoptSections_names_two :
    GivesNames [] 'x' (tgetoptFileInit (sectionsFile 2) none goTable) [['a'], ['a']] :=
  (tgetoptSections_names rfl (sectionsFile_heads (by decide) (by decide) rfl) (by decide) 'x').mpr
    (by decide)

/-- The names of twenty-one sections do not fit in the array. -/
theorem tgetoptSections_overruns :
    ¬GivesNames [] 'x' (tgetoptFileInit (sectionsFile 21) none goTable) (List.replicate 21 ['a']) :=
  not_givesNames rfl (sectionsFile_heads (by decide) (by decide) rfl) (by decide) (by decide) 'x' _

/-! ## Calls of `tgetopt` behind it -/

section Later

variable {buf : Str} {fill : Char} {gos gos' : GetOptState} {block : NameBlock}

/-- `gos_errno` stays as it was set at the beginning. -/
theorem tgetoptSections_state (h : tgetoptSections buf fill gos = some (some block, gos')) :
    gos.gosType = .file ∧ gos' = { gos with gosErrno := .errno } := by
  rw [tgetoptSections] at h
  split at h
  · cases h
  · next hf =>
    refine ⟨not_ne_iff.mp hf, ?_⟩
    obtain ⟨res, -, h⟩ := Option.bind_eq_some_iff.mp h
    cases res with
    | error err => cases h
    | ok s =>
      obtain ⟨names, -, h⟩ := Option.bind_eq_some_iff.mp h
      obtain ⟨block', -, h⟩ := Option.bind_eq_some_iff.mp h
      cases h
      rfl

/-- A call of `tgetopt_sections` that succeeds changes what the calls of `tgetopt` behind it give,
wherever it stands among them, if there are any. -/
theorem tgetoptSections_interferes {fp : ConfFile} {path : Option Str} {go : List GetOpt} {k : Nat}
    {calls : List (OptCall × GosErrno)}
    (hrun : tgetopts k (tgetoptFileInit fp path go) = some (calls, gos))
    (h : tgetoptSections buf fill gos = some (some block, gos')) (n : Nat) :
    (tgetopts n gos').map Prod.fst = (tgetopts n gos).map Prod.fst ↔ n = 0 := by
  obtain ⟨hf, hgos⟩ := tgetoptSections_state h
  have hok : gos.gosErrno ≠ .errno := mt (tgetopts_kept rfl hrun).errno nofun
  have hf' : gos'.gosType = .file := by rw [hgos]; exact hf
  have herr : gos'.gosErrno = .errno := by rw [hgos]
  constructor
  · intro he
    -- all calls behind it fail with the errno that it has left
    have hstuck := tgetopts_stuck hf' (by rw [herr]; decide) n
    rw [hstuck, herr, Option.map_some] at he
    obtain ⟨⟨calls', last⟩, hcalls, hsame⟩ := Option.map_eq_some_iff.mp he.symm
    have hnone := tgetopts_errno hf hok hcalls
    obtain rfl : calls' = List.replicate n (.failed, .errno) := hsame
    cases n with
    | zero => rfl
    | succ n => exact absurd rfl (hnone (.failed, .errno) List.mem_cons_self)
  · rintro rfl
    rfl

end Later

/-- A file with one option. -/
def hostFile : ConfFile :=
  let text := ['h', 'o', 's', 't', ' ', '=', ' ', 'a']
  { data := text, rest := text, broken := false }

/-- Before the first call, with one call behind it. -/
theorem tgetoptSections_interferes_host :
    (tgetopts 1 { tgetoptFileInit hostFile none goTable with gosErrno := .errno }).map Prod.fst =
      (tgetopts 1 (tgetoptFileInit hostFile none goTable)).map Prod.fst ↔ 1 = 0 :=
  tgetoptSections_interferes
    (show tgetopts 0 (tgetoptFileInit hostFile none goTable) = some ([], _) from rfl)
    (show tgetoptSections [] 'x' _ = some (some ⟨[none], List.replicate 8 'x'⟩, _) from rfl) 1

/-- The option is not found. -/
theorem tgetoptSections_loses :
    ∃ gos', tgetoptSections [] 'x' (tgetoptFileInit hostFile none goTable) =
        some (some ⟨[none], List.replicate 8 'x'⟩, gos') ∧
      (tgetopts 1 gos').map Prod.fst ≠
        (tgetopts 1 (tgetoptFileInit hostFile none goTable)).map Prod.fst :=
  ⟨_, rfl, by decide +kernel⟩

end Spegla
