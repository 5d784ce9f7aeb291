import Spegla.Regex.Writing

/-!
# Bracket expressions

- `CollElem`, `Symbol`, `Term`, `BracketText`: what may stand in brackets and which characters that
  is, as `re_format(7)` has it.
- `pBracketSet_text`: `p_bracket` reads such a text only and fills the set with its characters.
- `freezeset_spec`: merging equal sets leaves every set what it was.

A character is a byte; a set says nothing about others.
-/

namespace Spegla.Regex

open CString

/-- The characters that are bytes. -/
def IsByte (c : Char) : Prop := c.toNat < 256

/-! ## What may stand in brackets -/

/-- The name of a character between `[.` and `.]` or `[=` and `=]`. -/
inductive CollElem : Str → Char → Prop
  | named {name : Str} {cp : String × ℕ} (h : cnames.find? (fun cp =>
    cp.1.toList == name) = some cp) :
    CollElem name (Char.ofNat cp.2)
  | self (c : Char) : CollElem [c] c

/-- An end of a range. -/
inductive Symbol : Str → Char → Prop
  | char (c : Char) : Symbol [c] c
  | coll {name : Str} {c : Char} (h : CollElem name c) :
    Symbol ('[' :: '.' :: (name ++ ['.', ']'])) c

/-- A term, and the characters it stands for. -/
inductive Term : Str → (Char → Prop) → Prop
  | cclass {name : Str} {cp : String × String}
    (h : cclasses.find? (fun cp => cp.1.toList == name) = some cp) :
    Term ('[' :: ':' :: (name ++ [':', ']'])) (· ∈ cp.2.toList)
  | eclass {name : Str} {c : Char} (h : CollElem name c) (hname : name ∉ [['-'], [']']]) :
    Term ('[' :: '=' :: (name ++ ['=', ']'])) (· = c)
  | one {s : Str} {c : Char} (h : Symbol s c) : Term s (· = c)
  | range {s t : Str} {c d : Char} (h : Symbol s c) (h' : Symbol t d) (ht : t ≠ [']'])
    (hle : schar c ≤ schar d) : Term (s ++ '-' :: t) fun a => schar c ≤ schar a ∧ schar a ≤ schar d

/-- An `[` that stands for itself does not begin anything with what follows. -/
def Plain (s next : Str) : Prop :=
  (s.getLast? = some '[' → next.head? ≠ some '.') ∧
    (s = ['['] → next.head? ≠ some ':' ∧ next.head? ≠ some '=')

theorem Plain.left {s t rest : Str} (h : Plain s (t ++ rest)) : Plain s t := by
  cases t with
  | nil => exact ⟨by simp, by simp⟩
  | cons c t => exact h

/-- Terms one after the other. -/
inductive Terms : Str → (Char → Prop) → Prop
  | nil : Terms [] fun _ => False
  | cons {s t : Str} {M N : Char → Prop} (h : Term s M) (hs : s.head? ∉ [some '-', some ']'])
    (hplain : Plain s t) (h' : Terms t N) : Terms (s ++ t) fun c => M c ∨ N c

/-- The text up to the `]`, where a `^` is a character like others. -/
inductive BracketTerms : Str → (Char → Prop) → Prop
  | mk {lead terms trail : Str} {M : Char → Prop} (hlead : lead ∈ [[], [']'], ['-']])
    (h : Terms terms M) (htrail : trail ∈ [[], ['-']]) (hne : lead ++ (terms ++ trail) ≠ []) :
    BracketTerms (lead ++ (terms ++ (trail ++ [']']))) fun c => c ∈ lead ∨ M c ∨ c ∈ trail

/-- The text behind a `[` up to its `]`, and the characters it stands for. -/
inductive BracketText : Str → (Char → Prop) → Prop
  | plain {s : Str} {M : Char → Prop} (h : BracketTerms s M) (hs : s.head? ≠ some '^') :
    BracketText s M
  | inverted {s : Str} {M : Char → Prop} (h : BracketTerms s M) :
    BracketText ('^' :: s) fun c => ¬M c

/-! ## Sets -/

section Sets

variable {cs : Cset} {c d : Char}

/-- What a set has with one more character. -/
@[simp] theorem has_add : (cs.add d).has c = true ↔ c = d ∨ cs.has c = true := by
  unfold Cset.add Cset.has
  by_cases h : cs.chars.contains d = true
  · rw [if_pos h]
    constructor
    · exact .inr
    · rintro (rfl | hc)
      · exact h
      · exact hc
  · rw [if_neg h]
    simp

@[simp] theorem has_sub : (cs.sub d).has c = true ↔ cs.has c = true ∧ c ≠ d := by
  simp [Cset.sub, Cset.has]

@[simp] theorem not_has_empty : ¬emptyCset.has c = true := by simp [Cset.has, emptyCset]

/-- What it has with a number of them. -/
theorem has_foldl_add (l : List Char) (cs : Cset) :
    (l.foldl Cset.add cs).has c = true ↔ c ∈ l ∨ cs.has c = true := by
  induction l generalizing cs with
  | nil => simp
  | cons d l ih =>
    rw [List.foldl_cons, ih, has_add, List.mem_cons]
    tauto

theorem toNat_ofNat {n : ℕ} (h : n < 256) : (Char.ofNat n).toNat = n := by
  have hvalid : n.isValidChar := .inl (by omega)
  rw [Char.ofNat, dif_pos hvalid]
  rfl

/-- A character is a byte. -/
theorem mem_allChars : c ∈ allChars ↔ IsByte c := by
  unfold allChars IsByte
  rw [List.mem_map]
  constructor
  · rintro ⟨n, hn, rfl⟩
    rw [List.mem_range] at hn
    rwa [toNat_ofNat hn]
  · exact fun h => ⟨c.toNat, List.mem_range.mpr h, Char.ofNat_toNat c⟩

theorem nodup_allChars : allChars.Nodup := by
  refine List.Nodup.map_on ?_ List.nodup_range
  intro m hm n hn h
  rw [List.mem_range] at hm hn
  have := congrArg Char.toNat h
  rwa [toNat_ofNat hm, toNat_ofNat hn] at this

/-- The loop over some of the characters turns those around. -/
theorem has_invert_foldl {l : List Char} (hl : l.Nodup) (cs : Cset) :
    (l.foldl (fun cs c => if cs.has c then cs.sub c else cs.add c) cs).has c = true ↔
      if c ∈ l then ¬cs.has c = true else cs.has c = true := by
  induction l generalizing cs with
  | nil => simp
  | cons d l ih =>
    obtain ⟨hd, hl⟩ := List.nodup_cons.mp hl
    rw [List.foldl_cons, ih hl]
    by_cases hcd : c = d
    · subst hcd
      by_cases hc : cs.has c = true <;> simp [hd, hc]
    · by_cases hc : cs.has d = true <;> simp [hcd, hc]

/-- What the complement of a set has. -/
theorem has_invert (hc : IsByte c) : cs.invert.has c = true ↔ ¬cs.has c = true := by
  rw [Cset.invert, has_invert_foldl (List.nodup_reverse.mpr nodup_allChars)]
  simp [mem_allChars.mpr hc]

/-- A set of one character has its first one. -/
theorem nch_eq_one (h : nch cs = 1) (hc : IsByte c) : cs.has c = true ↔ c = firstch cs := by
  unfold nch at h
  have hcount : (allChars.filter cs.has).length = 1 := by rw [← List.countP_eq_length_filter, h]
  obtain ⟨d, hd⟩ := List.length_eq_one_iff.mp hcount
  have hfirst : firstch cs = d := by
    rw [firstch, ← List.head?_filter, hd]
    rfl
  rw [hfirst]
  constructor
  · intro hhas
    have := List.mem_filter.mpr ⟨mem_allChars.mpr hc, hhas⟩
    rw [hd] at this
    simpa using this
  · rintro rfl
    have : c ∈ allChars.filter cs.has := by simp [hd]
    exact (List.mem_filter.mp this).2

/-- A set gets a number at which it stands, and what was there before stays. -/
theorem freezeset_spec (sets : List Cset) (cs : Cset) :
    sets <+: (freezeset sets cs).1 ∧
      ∃ cs', (freezeset sets cs).1[(freezeset sets cs).2]? = some cs' ∧
      ∀ c, IsByte c → (cs'.has c = true ↔ cs.has c = true) := by
  unfold freezeset
  cases h : sets.findIdx? fun cs2 => cs2.same cs with
  | none => exact ⟨List.prefix_append .., cs, by simp, fun _ _ => .rfl⟩
  | some i =>
    obtain ⟨hi, hsame, -⟩ := List.findIdx?_eq_some_iff_getElem.mp h
    refine ⟨List.prefix_refl _, sets[i], List.getElem?_eq_getElem hi, fun c hc => ?_⟩
    simp only [Cset.same, Bool.and_eq_true, List.all_eq_true, beq_iff_eq] at hsame
    rw [hsame.2 c (mem_allChars.mpr hc)]

end Sets

/-! ## Characters and their values -/

theorem schar_range {c : Char} (hc : IsByte c) : -128 ≤ schar c ∧ schar c ≤ 127 := by
  unfold schar IsByte at *
  split <;> omega

theorem charOf_schar {c : Char} (hc : IsByte c) : charOf (schar c) = c := by
  have : (schar c % 256).toNat = c.toNat := by
    unfold schar IsByte at *
    split <;> omega
  rw [charOf, this, Char.ofNat_toNat]

theorem schar_charOf {i : ℤ} (h : -128 ≤ i) (h' : i ≤ 127) : schar (charOf i) = i := by
  have hlt : (i % 256).toNat < 256 := by omega
  have hval : (charOf i).toNat = (i % 256).toNat := by
    rw [charOf, toNat_ofNat hlt]
  unfold schar
  rw [hval]
  split <;> omega

/-- A range has the bytes between its ends, as signed characters. -/
theorem mem_charRange {a b c : Char} (ha : IsByte a) (hb : IsByte b) (hc : IsByte c) :
    c ∈ charRange a b ↔ schar a ≤ schar c ∧ schar c ≤ schar b := by
  have hra := schar_range ha
  have hrb := schar_range hb
  unfold charRange
  simp only [List.mem_map, List.mem_range]
  constructor
  · rintro ⟨k, hk, rfl⟩
    rw [schar_charOf (by omega) (by omega)]
    omega
  · rintro ⟨hac, hcb⟩
    refine ⟨(schar c - schar a).toNat, by omega, ?_⟩
    rw [show schar a + ((schar c - schar a).toNat : ℤ) = schar c by omega, charOf_schar hc]

theorem mem_charRange_self {a c : Char} (ha : IsByte a) (hc : IsByte c) :
    c ∈ charRange a a ↔ c = a := by
  rw [mem_charRange ha ha hc]
  constructor
  · intro h
    rw [← charOf_schar hc, ← charOf_schar ha, le_antisymm h.2 h.1]
  · rintro rfl
    exact ⟨le_rfl, le_rfl⟩

/-! ## The parser of brackets -/

/-- The parts of a computation that succeeds. -/
theorem bind_ok {ε α β : Type} {x : Except ε α} {f : α → Except ε β} {b : β}
    (h : (x >>= f) = .ok b) : ∃ a, x = .ok a ∧ f a = .ok b := by
  cases x with
  | error e => cases h
  | ok a => exact ⟨a, rfl, h⟩

theorem require_ok {co : Prop} [Decidable co] {e : Errno} {u : Unit}
    (h : require co e = .ok u) : co := by
  unfold require at h
  split at h
  · assumption
  · cases h

/-- The text is read up to the two closing characters, or to its end. -/
theorem untilTwo_append (endc : Char) (next : Str) :
    next = (untilTwo endc next).1 ++ (untilTwo endc next).2 ∧
      ((untilTwo endc next).2 = [] ∨ ∃ rest, (untilTwo endc next).2 = endc :: ']' :: rest) := by
  induction next with
  | nil => exact ⟨rfl, .inl rfl⟩
  | cons c next ih =>
    rw [untilTwo]
    split
    · rename_i h
      simp only [Bool.and_eq_true, beq_iff_eq] at h
      obtain ⟨rfl, hhead⟩ := h
      cases next with
      | nil => simp at hhead
      | cons d next =>
        simp only [List.head?_cons, Option.some.injEq] at hhead
        exact ⟨rfl, .inr ⟨next, by rw [hhead]⟩⟩
    · exact ⟨congrArg (c :: ·) ih.1, ih.2⟩

/-- A collating element that is read is one of the grammar. -/
theorem pBCollElem_ok {next rest : Str} {endc c : Char} (h : pBCollElem next endc = .ok (rest, c)) :
    ∃ name more, next = name ++ rest ∧ rest = endc :: ']' :: more ∧ CollElem name c := by
  obtain ⟨happ, hend⟩ := untilTwo_append endc next
  unfold pBCollElem at h
  generalize untilTwo endc next = u at *
  obtain ⟨name, after⟩ := u
  simp only at h happ hend
  split at h
  · cases h
  · rename_i hne
    obtain ⟨more, rfl⟩ := hend.resolve_left hne
    split at h
    · rename_i cp hcp
      cases h
      exact ⟨name, more, happ, rfl, .named hcp⟩
    · split at h
      · cases h
        exact ⟨_, more, happ, rfl, .self _⟩
      · cases h

/-- The two characters have been there. -/
theorem mustEatTwo_ok {next rest : Str} {a b : Char} {e : Errno}
    (h : mustEatTwo next a b e = .ok rest) :
    next = a :: b :: rest := by
  unfold mustEatTwo at h
  split at h
  · split at h
    · rename_i hcd
      obtain ⟨rfl, rfl⟩ := hcd
      cases h
      rfl
    · cases h
  · cases h

theorem getLast?_closed (kind endc : Char) (name : Str) :
    ('[' :: kind :: (name ++ [endc, ']'])).getLast? = some ']' := by
  show (('[' :: kind :: name) ++ [endc, ']']).getLast? = _
  rw [List.getLast?_append_of_ne_nil _ (by simp)]
  rfl

/-- A symbol that is read is one of the grammar. -/
theorem pBSymbol_ok {next rest : Str} {c : Char} (h : pBSymbol next = .ok (rest, c)) :
    ∃ s, s ≠ [] ∧ next = s ++ rest ∧ Symbol s c ∧
      (s.getLast? = some '[' → rest.head? ≠ some '.') := by
  unfold pBSymbol at h
  split at h
  · cases h
  · rename_i next
    obtain ⟨⟨after, d⟩, hcoll, h⟩ := bind_ok h
    obtain ⟨rest', heat, h⟩ := bind_ok h
    cases h
    obtain ⟨name, more, happ, -, hname⟩ := pBCollElem_ok hcoll
    refine ⟨_, by simp, ?_, .coll hname, ?_⟩
    · rw [happ, mustEatTwo_ok heat]
      simp
    · rw [getLast?_closed]
      exact fun h => absurd h (by decide)
  · rename_i hno
    cases h
    refine ⟨[c], by simp, rfl, .char c, fun hlast hhead => ?_⟩
    obtain rfl := Option.some_injective _ hlast
    exact hno rest.tail rfl (List.eq_cons_of_mem_head? hhead)

theorem plain_closed (kind endc : Char) (name rest : Str) :
    Plain ('[' :: kind :: (name ++ [endc, ']'])) rest := by
  constructor
  · rw [getLast?_closed]
    simp
  · simp

/-- Every character of a name or of a text of bytes is a byte. -/
theorem CollElem.isByte {name : Str} {c : Char} (h : CollElem name c)
    (hname : ∀ d ∈ name, IsByte d) :
    IsByte c := by
  cases h with
  | @named _ cp h =>
    have hall : ∀ cp ∈ cnames, cp.2 < 256 := by decide
    unfold IsByte
    rw [toNat_ofNat (hall cp (List.mem_of_find?_eq_some h))]
    exact hall cp (List.mem_of_find?_eq_some h)
  | self c => exact hname c (List.mem_singleton.mpr rfl)

/-- A symbol is a byte. -/
theorem Symbol.isByte {s : Str} {c : Char} (h : Symbol s c) (hs : ∀ d ∈ s, IsByte d) :
    IsByte c := by
  cases h with
  | char c => exact hs c (List.mem_singleton.mpr rfl)
  | coll h => exact h.isByte fun d hd => hs d (by simp [hd])

/-- A class that is read is one of the table. -/
theorem pBCclass_ok {next rest : Str} {cs cs' : Cset} (h : pBCclass next cs = .ok (rest, cs')) :
    ∃ name cp, next = name ++ rest ∧
      cclasses.find? (fun cp : String × String => cp.1.toList == name) = some cp ∧
      ∀ c, cs'.has c = true ↔ c ∈ cp.2.toList ∨ cs.has c = true := by
  unfold pBCclass at h
  split at h
  · rename_i cp hcp
    cases h
    exact ⟨_, cp, (List.takeWhile_append_dropWhile ..).symm, hcp, fun c => has_foldl_add _ _⟩
  · cases h

/-- An equivalence class that is read has one element. -/
theorem pBEclass_ok {next rest : Str} {cs cs' : Cset} (h : pBEclass next cs = .ok (rest, cs')) :
    ∃ name d, next = name ++ rest ∧ CollElem name d ∧ ∀ c, cs'.has c = true ↔
      c = d ∨ cs.has c = true := by
  obtain ⟨⟨after, d⟩, hcoll, h⟩ := bind_ok h
  cases h
  obtain ⟨name, more, happ, -, hname⟩ := pBCollElem_ok hcoll
  exact ⟨name, d, happ, hname, fun c => has_add⟩

/-- The end of a range, where one begins. -/
theorem pBFinish_ok {next rest : Str} {start finish : Char}
    (h : pBFinish next start = .ok (rest, finish)) :
    (rest = next ∧ finish = start) ∨
      ∃ t, next = '-' :: (t ++ rest) ∧ Symbol t finish ∧ t ≠ [] ∧ t ≠ [']'] ∧
        (t.getLast? = some '[' → rest.head? ≠ some '.') := by
  unfold pBFinish at h
  split at h
  · rename_i hsees
    right
    obtain ⟨c, next, rfl, hc⟩ : ∃ c more, next = '-' :: c :: more ∧ c ≠ ']' := by
      unfold seesRange at hsees
      split at hsees
      · exact ⟨_, _, rfl, by simpa using hsees⟩
      · cases hsees
    simp only [List.tail_cons] at h
    split at h
    · rename_i heq
      cases h
      obtain ⟨rfl, rfl⟩ := List.cons.inj heq
      exact ⟨['-'], rfl, .char _, by simp, by simp, by simp⟩
    · obtain ⟨t, hne, happ, hsym, hopen⟩ := pBSymbol_ok h
      refine ⟨t, by rw [happ], hsym, hne, ?_, hopen⟩
      rintro rfl
      exact hc (List.cons.inj happ).1
  · cases h
    exact .inl ⟨rfl, rfl⟩

/-- **A term** that is read is one of the grammar, and the set has its characters. -/
theorem pBTerm_ok {next rest : Str} {cs cs' : Cset} (hbytes : ∀ c ∈ next, IsByte c)
    (h : pBTerm next cs = .ok (rest, cs')) :
    ∃ s M, s ≠ [] ∧ next = s ++ rest ∧ next.head? ≠ some '-' ∧ Plain s rest ∧ Term s M ∧
      ∀ c, IsByte c → (cs'.has c = true ↔ M c ∨ cs.has c = true) := by
  unfold pBTerm at h
  split at h
  · cases h
  · rename_i next
    obtain ⟨-, -, h⟩ := bind_ok h
    obtain ⟨-, -, h⟩ := bind_ok h
    obtain ⟨⟨after, cs₁⟩, hclass, h⟩ := bind_ok h
    obtain ⟨-, -, h⟩ := bind_ok h
    obtain ⟨rest', heat, h⟩ := bind_ok h
    cases h
    obtain ⟨name, cp, happ, hcp, hhas⟩ := pBCclass_ok hclass
    refine ⟨_, _, by simp, ?_, by simp, ?_, .cclass hcp, fun c _ => hhas c⟩
    · rw [happ, mustEatTwo_ok heat]
      simp
    · exact plain_closed ..
  · rename_i next
    obtain ⟨-, -, h⟩ := bind_ok h
    obtain ⟨_, hfirst, h⟩ := bind_ok h
    obtain ⟨⟨after, cs₁⟩, hclass, h⟩ := bind_ok h
    obtain ⟨-, -, h⟩ := bind_ok h
    obtain ⟨rest', heat, h⟩ := bind_ok h
    cases h
    replace hfirst := require_ok hfirst
    obtain ⟨name, d, happ, hname, hhas⟩ := pBEclass_ok hclass
    refine ⟨_, _, by simp, ?_, by simp, ?_, .eclass hname ?_, fun c _ => hhas c⟩
    · rw [happ, mustEatTwo_ok heat]
      simp
    · exact plain_closed ..
    · -- `p_b_term` looks at the first character of the name only
      intro hmem
      rw [happ] at hfirst
      simp only [List.mem_cons, List.not_mem_nil, or_false] at hmem
      rcases hmem with rfl | rfl
      · exact hfirst.1 rfl
      · exact hfirst.2 rfl
  · rename_i hdash hclass heclass
    obtain ⟨⟨after, start⟩, hstart, h⟩ := bind_ok h
    obtain ⟨⟨after', finish⟩, hfinish, h⟩ := bind_ok h
    obtain ⟨_, hle, h⟩ := bind_ok h
    cases h
    obtain ⟨s, hs, rfl, hsym, hopen⟩ := pBSymbol_ok hstart
    have hbs := hsym.isByte fun c hc => hbytes c (List.mem_append_left _ hc)
    replace hdash : (s ++ after).head? ≠ some '-' := fun h =>
      hdash _ (List.eq_cons_of_mem_head? h)
    -- a symbol alone, or a range that begins with it
    rcases pBFinish_ok hfinish with ⟨rfl, rfl⟩ | ⟨t, rfl, hsym', hne, ht, hopen'⟩
    · refine ⟨s, _, hs, rfl, hdash, ⟨hopen, ?_⟩, .one hsym, fun c hc => ?_⟩
      · rintro rfl
        exact ⟨fun h => hclass _ (congrArg ('[' :: ·) (List.eq_cons_of_mem_head? h)),
          fun h => heclass _ (congrArg ('[' :: ·) (List.eq_cons_of_mem_head? h))⟩
      · rw [has_foldl_add, mem_charRange_self hbs hc]
    · have hbt := hsym'.isByte fun c hc => hbytes c (by simp [hc])
      refine ⟨_, _,
        by simp, ?_, hdash, ⟨?_, ?_⟩, .range hsym hsym' ht (require_ok hle), fun c hc => ?_⟩
      · simp
      · intro hlast
        rw [List.getLast?_append_of_ne_nil _ (by simp), List.getLast?_cons_of_ne_nil hne] at hlast
        exact hopen' hlast
      · intro heq
        have := congrArg List.length heq
        have := List.length_pos_iff.mpr hs
        simp at *
        omega
      · rw [has_foldl_add, mem_charRange hbs hbt hc]

/-- So are a number of them, by induction on the fuel. -/
theorem pBTerms_ok {fuel : ℕ} {next rest : Str} {cs cs' : Cset} (hbytes : ∀ c ∈ next, IsByte c)
    (h : pBTerms fuel next cs = .ok (rest, cs')) :
    ∃ s M, next = s ++ rest ∧ Terms s M ∧
      ∀ c, IsByte c → (cs'.has c = true ↔ M c ∨ cs.has c = true) := by
  induction fuel generalizing next cs with
  | zero => cases h
  | succ fuel ih =>
    have hstop : next = rest → cs = cs' → ∃ s M, next = s ++ rest ∧ Terms s M ∧
        ∀ c, IsByte c → (cs'.has c = true ↔ M c ∨ cs.has c = true) := by
      rintro rfl rfl
      exact ⟨[], _, rfl, .nil, fun c _ => by simp⟩
    unfold pBTerms at h
    split at h
    · cases h
      exact hstop rfl rfl
    · cases h
      exact hstop rfl rfl
    · cases h
      exact hstop rfl rfl
    · rename_i hclose _
      obtain ⟨⟨after, cs₁⟩, hterm, hrest⟩ := bind_ok h
      obtain ⟨s, M, hs, rfl, hdash, hplain, hM, hhas⟩ := pBTerm_ok hbytes hterm
      obtain ⟨t, N, rfl, hN, hhas'⟩ := ih (fun c hc => hbytes c (List.mem_append_right _ hc)) hrest
      refine ⟨s ++ t, _, (List.append_assoc ..).symm, .cons hM ?_ ?_ hN, fun c hc => ?_⟩
      · obtain ⟨d, s, rfl⟩ := List.exists_cons_of_ne_nil hs
        simp at hdash hclose ⊢
        exact ⟨hdash, hclose⟩
      · exact hplain.left
      · rw [hhas' c hc, hhas c hc]
        tauto

/-- The terms of a bracket, with the marks at its beginning and its end. -/
theorem pBracketTerms_ok {next rest : Str} {cs : Cset} (hbytes : ∀ c ∈ next, IsByte c)
    (h : pBracketTerms next = .ok (rest, cs)) :
    ∃ s M, next = s ++ rest ∧ BracketTerms s M ∧ ∀ c, IsByte c → (cs.has c = true ↔ M c) := by
  obtain ⟨⟨after, cs₁⟩, hterms, h⟩ := bind_ok h
  -- the character that may stand first
  obtain ⟨lead, hlead, happ, hhas, hfirst⟩ : ∃ lead, lead ∈ [[], [']'], ['-']] ∧
      next = lead ++ (pBracketLead next).1 ∧
      (∀ c, (pBracketLead next).2.has c = true ↔ c ∈ lead) ∧
      (lead = [] → next.head? ≠ some ']' ∧ next.head? ≠ some '-') := by
    unfold pBracketLead
    split
    · exact ⟨[']'], by simp, rfl, fun c => by simp, by simp⟩
    · exact ⟨['-'], by simp, rfl, fun c => by simp, by simp⟩
    · rename_i hclose hdash
      exact ⟨[], by simp, rfl, fun c => by simp, fun _ =>
        ⟨fun h => hclose _ (List.eq_cons_of_mem_head? h), fun h =>
          hdash _ (List.eq_cons_of_mem_head? h)⟩⟩
  obtain ⟨s, M, hs, hM, hhas'⟩ := pBTerms_ok (fun c hc => hbytes c (by rw [happ]; simp [hc])) hterms
  rw [hs] at happ
  replace hhas : ∀ c, IsByte c → (cs₁.has c = true ↔ c ∈ lead ∨ M c) := fun c hc => by
    rw [hhas' c hc, hhas c]
    tauto
  simp only at h
  split at h
  · cases h
    refine ⟨_, _, ?_, .mk hlead hM (show [] ∈ [[], ['-']] by simp) ?_, fun c hc => ?_⟩
    · simp [happ]
    · intro hnil
      obtain ⟨rfl, rfl, -⟩ : lead = [] ∧ s = [] ∧ True := by simpa using hnil
      exact (hfirst rfl).1 (by rw [happ]; rfl)
    · rw [hhas c hc]
      simp
  · cases h
    refine ⟨_, _, ?_, .mk hlead hM (show ['-'] ∈ [[], ['-']] by simp) (by simp), fun c hc => ?_⟩
    · simp [happ]
    · rw [has_add, hhas c hc]
      simp
      tauto
  · cases h

/-- `p_bracket` reads a bracket expression and has the set of its characters. -/
theorem pBracketSet_text {next rest : Str} {cs : Cset} (hbytes : ∀ c ∈ next, IsByte c)
    (h : pBracketSet next = .ok (rest, cs)) :
    ∃ s M, next = s ++ rest ∧ BracketText s M ∧ ∀ c, IsByte c → (cs.has c = true ↔ M c) := by
  unfold pBracketSet at h
  split at h
  · obtain ⟨⟨after, cs₁⟩, hterms, h⟩ := bind_ok h
    cases h
    obtain ⟨s, M, rfl, hM, hhas⟩ := pBracketTerms_ok (fun c hc => hbytes c (by simp [hc])) hterms
    refine ⟨_, _, rfl, .inverted hM, fun c hc => ?_⟩
    rw [has_invert hc, hhas c hc]
  · rename_i hcaret
    obtain ⟨s, M, rfl, hM, hhas⟩ := pBracketTerms_ok hbytes h
    refine ⟨s, M, rfl, .plain hM fun hhead => ?_, hhas⟩
    obtain ⟨s, rfl⟩ : ∃ t, s = '^' :: t := ⟨_, List.eq_cons_of_mem_head? hhead⟩
    exact hcaret _ rfl

end Spegla.Regex
