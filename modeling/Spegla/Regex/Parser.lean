import Spegla.Regex.Brackets

/-!
# The parser

- `Derives`: the texts of extended regular expressions, as `re_format(7)` has them, with the
  expressions they stand for.
- `Goes`, `Written`: what a part of the parser has read and written.
- `pEre_written`: the parser reads the text of an expression only and writes the strip of that
  expression.
-/

namespace Spegla.Regex

open CString

/-! ## The grammar -/

/-- What a text is one of. -/
inductive Nt where
  | atom
  | piece
  | branch
  | ere

/-- A number and its value. -/
structure Count (ds : Str) (n : ℕ) : Prop where
  ne : ds ≠ []
  digits : ∀ c ∈ ds, c.isDigit = true
  value : n = ds.foldl (fun n c => n * 10 + (c.toNat - '0'.toNat)) 0
  le : n ≤ DUPMAX

/-- A digit comes next. -/
def seesDigit (next : Str) : Bool := next.head?.any Char.isDigit

/-- A text stands for an expression; `sets` has the sets of its brackets. -/
inductive Derives (sets : List Cset) : Nt → Str → Ere → Prop
  | group {s : Str} {e : Ere} (no : ℕ) (h : Derives sets .ere s e) :
    Derives sets .atom ('(' :: (s ++ [')'])) (.group no e)
  | nothing (no : ℕ) : Derives sets .atom ['(', ')'] (.group no .empty)
  | bol : Derives sets .atom ['^'] (.atom .bol)
  | eol : Derives sets .atom ['$'] (.atom .eol)
  | any : Derives sets .atom ['.'] (.atom .any)
  | bow : Derives sets .atom ('[' :: "[:<:]]".toList) (.atom .bow)
  | eow : Derives sets .atom ('[' :: "[:>:]]".toList) (.atom .eow)
  | set {s : Str} {M : Char → Prop} {cs : Cset} {no : ℕ} (h : BracketText s M)
    (hcs : sets[no]? = some cs) (hM : ∀ c, IsByte c → (cs.has c = true ↔ M c)) :
    Derives sets .atom ('[' :: s) (.atom (.anyOf no))
  | single {s : Str} {M : Char → Prop} {d : Char} (h : BracketText s M)
    (hM : ∀ c, IsByte c → (M c ↔ c = d)) : Derives sets .atom ('[' :: s) (.atom (.char d))
  | escaped (c : Char) : Derives sets .atom ['\\', c] (.atom (.char c))
  | char {c : Char} (h : c ∉ "()^$|*+?.[\\".toList) : Derives sets .atom [c] (.atom (.char c))
  | once {s : Str} {e : Ere} (h : Derives sets .atom s e) : Derives sets .piece s e
  | star {s : Str} {e : Ere} (h : Derives sets .atom s e) (hs : s ≠ ['^']) :
    Derives sets .piece (s ++ ['*']) (.star e)
  | plus {s : Str} {e : Ere} (h : Derives sets .atom s e) (hs : s ≠ ['^']) :
    Derives sets .piece (s ++ ['+']) (.plus e)
  | quest {s : Str} {e : Ere} (h : Derives sets .atom s e) (hs : s ≠ ['^']) :
    Derives sets .piece (s ++ ['?']) (.quest e)
  | exactly {s ds : Str} {e : Ere} {m : ℕ} (h : Derives sets .atom s e) (hs : s ≠ ['^'])
    (hm : Count ds m) : Derives sets .piece (s ++ '{' :: (ds ++ ['}'])) (.bound e m m)
  | atLeast {s ds : Str} {e : Ere} {m : ℕ} (h : Derives sets .atom s e) (hs : s ≠ ['^'])
    (hm : Count ds m) : Derives sets .piece (s ++ '{' :: (ds ++ [',', '}'])) (.bound e m INFINITY)
  | between {s ds ds' : Str} {e : Ere} {m n : ℕ} (h : Derives sets .atom s e) (hs : s ≠ ['^'])
    (hm : Count ds m) (hn : Count ds' n) (hmn : m ≤ n) :
    Derives sets .piece (s ++ '{' :: (ds ++ ',' :: (ds' ++ ['}']))) (.bound e m n)
  | last {s : Str} {e : Ere} (h : Derives sets .piece s e) : Derives sets .branch s e
  | more {s t : Str} {e f : Ere} (h : Derives sets .piece s e) (h' : Derives sets .branch t f)
    (hopen : s = ['{'] → seesDigit t = false) : Derives sets .branch (s ++ t) (.cat e f)
  -- a branch that only says `x{0}` is empty, too
  | one {s : Str} {e : Ere} (h : Derives sets .branch s e) (hne : e.code ≠ []) :
    Derives sets .ere s e
  | alt {s t : Str} {e f : Ere} (h : Derives sets .branch s e) (hne : e.code ≠ [])
    (h' : Derives sets .ere t f) : Derives sets .ere (s ++ '|' :: t) (.alt e f)

/-- More sets change no derivation. -/
theorem Derives.mono {sets sets' : List Cset} (hsets : sets <+: sets') {nt : Nt} {s : Str} {e : Ere}
    (h : Derives sets nt s e) : Derives sets' nt s e := by
  induction h with
  | group no _ ih => exact .group no ih
  | nothing no => exact .nothing no
  | bol => exact .bol
  | eol => exact .eol
  | any => exact .any
  | bow => exact .bow
  | eow => exact .eow
  | set h hcs hM =>
    obtain ⟨t, rfl⟩ := hsets
    refine .set h ?_ hM
    rw [List.getElem?_append_left (List.getElem?_eq_some_iff.mp hcs).1]
    exact hcs
  | single h hM => exact .single h hM
  | escaped c => exact .escaped c
  | char h => exact .char h
  | once _ ih => exact .once ih
  | star _ hs ih => exact .star ih hs
  | plus _ hs ih => exact .plus ih hs
  | quest _ hs ih => exact .quest ih hs
  | exactly _ hs hm ih => exact .exactly ih hs hm
  | atLeast _ hs hm ih => exact .atLeast ih hs hm
  | between _ hs hm hn hmn ih => exact .between ih hs hm hn hmn
  | last _ ih => exact .last ih
  | more _ _ hopen ih ih' => exact .more ih ih' hopen
  | one _ hne ih => exact .one ih hne
  | alt _ hne _ ih ih' => exact .alt ih hne ih'

/-- Only an expression with a `|` at the outside has several branches. -/
theorem Derives.parts {sets : List Cset} {nt : Nt} {s : Str} {e : Ere} (h : Derives sets nt s e)
    (hnt : nt ≠ .ere) : e.parts = [e.code] := by
  induction h with
  | one => exact absurd rfl hnt
  | alt => exact absurd rfl hnt
  | once _ ih => exact ih (by simp)
  | last _ ih => exact ih (by simp)
  | _ => rfl

/-- How often an atom stands in an expression. -/
def Ere.count (a : Atom) : Ere → ℕ
  | .atom b => if b = a then 1 else 0
  | .empty => 0
  | .group _ e | .star e | .plus e | .quest e | .bound e _ _ => e.count a
  | .cat e f | .alt e f => e.count a + f.count a

/-! ## What the parser has done -/

/-- The parser has gone over the text of an expression. -/
structure Goes (nt : Nt) (p p' : Parse) (e : Ere) : Prop where
  text : ∃ s, p.next = s ++ p'.next ∧ Derives p'.sets nt s e
  sets : p.sets <+: p'.sets
  nbol : p'.nbol = p.nbol + e.count .bol
  neol : p'.neol = p.neol + e.count .eol
  bounded : e.Bounded

/-- It has also written the strip of the expression. -/
structure Written (nt : Nt) (p p' : Parse) (e : Ere) : Prop extends Goes nt p p' e where
  strip : p'.strip = p.strip ++ e.code

/-- What is left to read are bytes. -/
def Parse.Bytes (p : Parse) : Prop := ∀ c ∈ p.next, IsByte c

theorem Goes.bytes {nt : Nt} {p p' : Parse} {e : Ere} (h : Goes nt p p' e) (hp : p.Bytes) :
    p'.Bytes := by
  obtain ⟨s, hs, _⟩ := h.text
  exact fun c hc => hp c (hs ▸ List.mem_append_right _ hc)

/-! ## Atoms -/

/-- A bracket that is read is an atom with its set. -/
theorem pBracket_written {p p' : Parse} (hp : p.Bytes) (h : pBracket p = .ok p') :
    ∃ e, Written .atom { p with next := '[' :: p.next } p' e := by
  have hword : ∀ w, p.next.take 6 = w → p.next = w ++ p.next.drop 6 := by
    rintro w rfl
    exact (List.take_append_drop ..).symm
  unfold pBracket at h
  split at h
  · rename_i hw
    cases h
    exact ⟨.atom .bow, ⟨⟨'[' :: "[:<:]]".toList, congrArg ('[' :: ·) (hword _ hw), .bow⟩,
      List.prefix_append .., rfl, rfl, trivial⟩, rfl⟩
  split at h
  · rename_i hw
    cases h
    exact ⟨.atom .eow, ⟨⟨'[' :: "[:>:]]".toList, congrArg ('[' :: ·) (hword _ hw), .eow⟩,
      List.prefix_append .., rfl, rfl, trivial⟩, rfl⟩
  obtain ⟨⟨next, cs⟩, hset, h⟩ := bind_ok h
  obtain ⟨s, M, happ, hM, hhas⟩ := pBracketSet_text hp hset
  simp only at h
  split at h
  · rename_i hone
    cases h
    refine ⟨.atom (.char (firstch cs)),
      ⟨⟨'[' :: s, congrArg ('[' :: ·) happ, .single hM fun c hc => ?_⟩,
      List.prefix_refl _, rfl, rfl, trivial⟩, rfl⟩
    rw [← hhas c hc]
    exact nch_eq_one hone hc
  · cases h
    obtain ⟨hsub, cs', hcs', hsame⟩ := freezeset_spec p.sets cs
    exact ⟨.atom (.anyOf (freezeset p.sets cs).2), ⟨⟨'[' :: s, congrArg ('[' :: ·) happ,
      .set hM hcs' fun c hc => (hsame c hc).trans (hhas c hc)⟩, hsub, rfl, rfl, trivial⟩, rfl⟩

/-- What `p_ere` does in parentheses. -/
def EreWritten (ere : Parse → Except Errno Parse) : Prop :=
  ∀ p p', p.Bytes → ere p = .ok p' → ∃ e, Written .ere p p' e

/-- An atom that is read is derived, if the groups in it are. -/
theorem pAtom_written {ere : Parse → Except Errno Parse} (here : EreWritten ere) {c : Char}
    {p p' : Parse} (hp : p.Bytes) (h : pAtom ere c p = .ok p') :
    ∃ e, Written .atom { p with next := c :: p.next } p' e := by
  unfold pAtom at h
  split at h
  · obtain ⟨_, _, h⟩ := bind_ok h
    obtain ⟨q, hq, h⟩ := bind_ok h
    obtain ⟨_, hclose, h⟩ := bind_ok h
    cases h
    replace hclose := require_ok hclose
    have hnext : q.next = ')' :: q.next.tail := List.eq_cons_of_mem_head? hclose
    unfold unlessClosed at hq
    split at hq
    · -- `()` has no expression inside
      cases hq
      refine ⟨.group (p.nsub + 1) .empty,
        ⟨⟨['(', ')'], ?_, .nothing _⟩, List.prefix_refl _, rfl, rfl,
        trivial⟩, ?_⟩
      · exact congrArg ('(' :: ·) hnext
      · simp [Parse.emit, Ere.code, Ere.parts, altCode]
    · -- a group is what stands between its parentheses
      obtain ⟨e, hgoes, hstrip⟩ :=
        here (Parse.emit { p with nsub := p.nsub + 1 } (.oLparen (p.nsub + 1))) q hp hq
      obtain ⟨s, hs, hderives⟩ := hgoes.text
      refine ⟨.group (p.nsub + 1) e, ⟨⟨'(' :: (s ++ [')']), ?_, .group _ hderives⟩, hgoes.sets,
        hgoes.nbol, hgoes.neol, hgoes.bounded⟩, ?_⟩
      · have : p.next = s ++ q.next := hs
        show '(' :: p.next = '(' :: (s ++ [')']) ++ q.next.tail
        rw [this, hnext]
        simp
      · have : q.strip = p.strip ++ [.oLparen (p.nsub + 1)] ++ e.code := hstrip
        show q.strip ++ [.oRparen (p.nsub + 1)] = _
        rw [this]
        simp [Ere.code, Ere.parts, altCode]
  · cases h
  · cases h
    exact ⟨.atom .bol, ⟨⟨['^'], rfl, .bol⟩, List.prefix_refl _, rfl, rfl, trivial⟩, rfl⟩
  · cases h
    exact ⟨.atom .eol, ⟨⟨['$'], rfl, .eol⟩, List.prefix_refl _, rfl, rfl, trivial⟩, rfl⟩
  · cases h
  · cases h
  · cases h
  · cases h
  · cases h
    exact ⟨.atom .any, ⟨⟨['.'], rfl, .any⟩, List.prefix_refl _, rfl, rfl, trivial⟩, rfl⟩
  · exact pBracket_written hp h
  · split at h
    · cases h
    · -- the backslash takes any character, a special one or not
      rename_i d next hnext
      cases h
      refine ⟨.atom (.char d),
        ⟨⟨['\\', d], ?_, .escaped d⟩, List.prefix_refl _, rfl, rfl, trivial⟩, rfl⟩
      exact congrArg ('\\' :: ·) hnext
  · split at h
    · cases h
    · cases h
      exact ⟨.atom (.char '{'), ⟨⟨['{'], rfl, .char (by decide)⟩, List.prefix_refl _, rfl, rfl,
        trivial⟩, rfl⟩
  · cases h
    refine ⟨.atom (.char c), ⟨⟨[c], rfl, .char ?_⟩, List.prefix_refl _, rfl, rfl, trivial⟩, rfl⟩
    simp_all

/-! ## Repetition -/

/-- The digits of a number are read, and make its value. -/
theorem countLoop_append (next : Str) (count ndigits : ℕ) :
    ∃ ds, next = ds ++ (countLoop next count ndigits).1 ∧ (∀ c ∈ ds, c.isDigit = true) ∧
      (countLoop next count ndigits).2.1 =
        ds.foldl (fun n c => n * 10 + (c.toNat - '0'.toNat)) count ∧
      (countLoop next count ndigits).2.2 = ndigits + ds.length := by
  induction next generalizing count ndigits with
  | nil => exact ⟨[], rfl, by simp, rfl, rfl⟩
  | cons c next ih =>
    rw [countLoop]
    split
    · rename_i hc
      obtain ⟨ds, happ, hdigits, hcount, hn⟩ :=
        ih (count * 10 + (c.toNat - '0'.toNat)) (ndigits + 1)
      refine ⟨c :: ds, congrArg (c :: ·) happ, ?_, hcount, ?_⟩
      · simp only [List.mem_cons, forall_eq_or_imp]
        exact ⟨hc.1, hdigits⟩
      · rw [hn, List.length_cons]
        omega
    · exact ⟨[], rfl, by simp, rfl, rfl⟩

/-- A number that is read is one of the grammar. -/
theorem pCount_ok {next rest : Str} {n : ℕ} (h : pCount next = .ok (rest, n)) :
    ∃ ds, next = ds ++ rest ∧ Count ds n := by
  obtain ⟨ds, happ, hdigits, hcount, hn⟩ := countLoop_append next 0 0
  unfold pCount at h
  simp only at h
  split at h
  · rename_i hok
    cases h
    refine ⟨ds, happ, ?_, hdigits, hcount, hok.2⟩
    rintro rfl
    rw [hn] at hok
    exact absurd hok.1 (lt_irrefl 0)
  · cases h

/-- So is the second one of a bound, where it is there. -/
theorem pCount2_ok {next rest : Str} {m n : ℕ} (h : pCount2 next m = .ok (rest, n)) :
    (next = rest ∧ n = m) ∨ (next = ',' :: rest ∧ n = INFINITY) ∨
      ∃ ds, next = ',' :: (ds ++ rest) ∧ Count ds n ∧ m ≤ n := by
  unfold pCount2 at h
  split at h
  · split at h
    · obtain ⟨⟨after, k⟩, hcount, h⟩ := bind_ok h
      obtain ⟨_, hle, h⟩ := bind_ok h
      cases h
      obtain ⟨ds, rfl, hds⟩ := pCount_ok hcount
      exact .inr (.inr ⟨ds, rfl, hds, require_ok hle⟩)
    · cases h
      exact .inr (.inl ⟨rfl, rfl⟩)
  · cases h
    exact .inl ⟨rfl, rfl⟩

/-- The closing brace has been there. -/
theorem eatBrace_ok {p p' : Parse} (h : eatBrace p = .ok p') :
    p.next = '}' :: p'.next ∧ p' = { p with next := p'.next } := by
  unfold eatBrace at h
  split at h
  · rename_i hnext
    cases h
    exact ⟨hnext, rfl⟩
  · split at h <;> cases h

section Repeat

variable {p p' : Parse} {s₀ : List Sop} {e : Ere} {s : Str}

/-- A bound behind an atom. -/
theorem pBound_derives (hstrip : p.strip = s₀ ++ e.code) (hderives : Derives p.sets .atom s e)
    (hs : s ≠ ['^']) (h : pBound p s₀.length = .ok p') :
    ∃ m n t, p.next = t ++ p'.next ∧ Derives p.sets .piece (s ++ '{' :: t) (.bound e m n) ∧
      m ≤ n ∧ n ≤ INFINITY ∧ p'.strip = s₀ ++ boundCode e.code m n ∧
      p'.sets = p.sets ∧ p'.nbol = p.nbol ∧ p'.neol = p.neol := by
  obtain ⟨⟨next, m⟩, hcount, h⟩ := bind_ok h
  obtain ⟨⟨next', n⟩, hcount2, h⟩ := bind_ok h
  obtain ⟨q, hq, h⟩ := bind_ok h
  obtain ⟨ds, hds, hm⟩ := pCount_ok hcount
  have hdup : m < INFINITY := hm.le.trans_lt (by decide)
  obtain ⟨hbrace, hp'⟩ := eatBrace_ok h
  -- the text
  have htext : (next = next' ∧ n = m) ∨ (next = ',' :: next' ∧ n = INFINITY) ∨
      ∃ ds, next = ',' :: (ds ++ next') ∧ Count ds n ∧ m ≤ n := pCount2_ok hcount2
  have hmn : m ≤ n ∧ n ≤ INFINITY := by
    rcases htext with ⟨-, rfl⟩ | ⟨-, rfl⟩ | ⟨ds', -, hn, hle⟩
    · exact ⟨le_rfl, hdup.le⟩
    · exact ⟨hdup.le, le_rfl⟩
    · exact ⟨hle, hn.le.trans (by decide)⟩
  obtain ⟨q', hrun, hqstrip, hqnext, -, hqbol, hqeol, hqsets⟩ :=
    repeat_bound (p := { p with next := next' }) (m + n + 2) hmn.1 hdup hmn.2 (by omega) hstrip
  obtain rfl : q = q' := Except.ok.inj (hq.symm.trans hrun)
  have hnext : next' = '}' :: p'.next := by
    rw [← hbrace, hqnext]
  rw [hp']
  refine ⟨m, n, ?_⟩
  rcases htext with ⟨rfl, rfl⟩ | ⟨rfl, rfl⟩ | ⟨ds', rfl, hn, -⟩
  · refine ⟨ds ++ ['}'], ?_, .exactly hderives hs hm, hmn.1, hmn.2, hqstrip, hqsets, hqbol, hqeol⟩
    rw [hds, hnext]
    simp
  · refine ⟨ds ++ [',', '}'], ?_, .atLeast hderives hs hm, hmn.1, hmn.2, hqstrip,
      hqsets, hqbol, hqeol⟩
    rw [hds, hnext]
    simp
  · refine ⟨ds ++ ',' :: (ds' ++ ['}']), ?_, .between hderives hs hm hn hmn.1, hmn.1,
      hmn.2, hqstrip,
      hqsets, hqbol, hqeol⟩
    rw [hds, hnext]
    simp

/-- What repeats is one of four marks. -/
theorem seesRepeat_cases {next : Str} (h : seesRepeat next = true) :
    ∃ c, next = c :: next.tail ∧ (c = '*' ∨ c = '+' ∨ c = '?' ∨ c = '{') := by
  unfold seesRepeat at h
  split at h
  · exact ⟨_, rfl, .inl rfl⟩
  · exact ⟨_, rfl, .inr (.inl rfl)⟩
  · exact ⟨_, rfl, .inr (.inr (.inl rfl))⟩
  · exact ⟨_, rfl, .inr (.inr (.inr rfl))⟩
  · cases h

/-- An atom with what repeats it. -/
theorem pRepeat_written {c : Char} (hc : c = '*' ∨ c = '+' ∨ c = '?' ∨ c = '{')
    {q : Parse} (happ : q.next = s ++ c :: p.next) (hderives : Derives p.sets .atom s e)
    (hs : s ≠ ['^']) (hsets : q.sets <+: p.sets) (hbol : p.nbol = q.nbol + e.count .bol)
    (heol : p.neol = q.neol + e.count .eol) (hbounded : e.Bounded)
    (hstrip : p.strip = q.strip ++ e.code) (h : pRepeat c q.strip.length p = .ok p') :
    ∃ f, Written .piece q p' f := by
  rcases hc with rfl | rfl | rfl | rfl
  · cases h
    refine ⟨.star e, ⟨⟨s ++ ['*'], ?_, .star hderives hs⟩, hsets, hbol, heol, hbounded⟩,
      strip_star hstrip⟩
    rw [happ]
    simp [Parse.astern, Parse.insert, Parse.emit]
  · cases h
    refine ⟨.plus e, ⟨⟨s ++ ['+'], ?_, .plus hderives hs⟩, hsets, hbol, heol, hbounded⟩,
      strip_plus hstrip⟩
    rw [happ]
    simp [Parse.astern, Parse.insert, Parse.emit]
  · cases h
    refine ⟨.quest e, ⟨⟨s ++ ['?'], ?_, .quest hderives hs⟩, hsets, hbol, heol, hbounded⟩,
      strip_questAt hstrip⟩
    rw [happ, (beside_questAt _).1]
    simp
  · obtain ⟨m, n, t, ht, hpiece, hmn, hn, hout, hsame, hbol', heol'⟩ :=
      pBound_derives hstrip hderives hs h
    refine ⟨.bound e m n, ⟨⟨s ++ '{' :: t, ?_, hsame ▸ hpiece⟩, hsame ▸ hsets, hbol'.trans hbol,
      heol'.trans heol, hbounded, hmn, hn⟩, hout⟩
    rw [happ, ht]
    simp

end Repeat

/-- **An atom with its repetition** that is read is derived, and its code is written. -/
theorem pEreExp_written {ere : Parse → Except Errno Parse} (here : EreWritten ere) {p p' : Parse}
    (hp : p.Bytes) (h : pEreExp ere p = .ok p') : ∃ e, Written .piece p p' e := by
  unfold pEreExp at h
  split at h
  · cases h
  rename_i c next hnext
  obtain ⟨q, hq, h⟩ := bind_ok h
  have hnextb : Parse.Bytes { p with next := next } := fun d hd => hp d (by simp [hnext, hd])
  obtain ⟨e, hgoes, hstrip⟩ := pAtom_written here hnextb hq
  -- the state before the atom is the one that was given
  have hsame : ({ p with next := c :: next } : Parse) = p := by rw [← hnext]
  rw [show ({ ({ p with next := next } : Parse) with next := c :: next } : Parse) =
    p from hsame] at hgoes hstrip
  split at h
  · rename_i hsees
    obtain ⟨_, hcaret, h⟩ := bind_ok h
    obtain ⟨r, hr, h⟩ := bind_ok h
    obtain ⟨_, -, h⟩ := bind_ok h
    cases h
    obtain ⟨d, hd, hcases⟩ := seesRepeat_cases hsees
    obtain ⟨s, happ, hderives⟩ := hgoes.text
    have hhead : q.next.headD nul = d := by rw [hd]; rfl
    rw [hhead] at hr
    refine pRepeat_written (p := { q with next := q.next.tail }) hcases ?_ hderives ?_ hgoes.sets
      hgoes.nbol hgoes.neol hgoes.bounded hstrip hr
    · rw [happ]
      exact congrArg (s ++ ·) hd
    · rintro rfl
      rw [hnext] at happ
      exact require_ok hcaret (List.cons.inj happ).1
  · cases h
    obtain ⟨s, happ, hderives⟩ := hgoes.text
    exact ⟨e, ⟨⟨s, happ, .once hderives⟩, hgoes.sets, hgoes.nbol, hgoes.neol,
      hgoes.bounded⟩, hstrip⟩

/-- A `{` is a character only where no digit follows. -/
theorem pEreExp_brace {ere : Parse → Except Errno Parse} {p p' : Parse} (h : pEreExp ere p = .ok p')
    (hnext : p.next = '{' :: p'.next) : seesDigit p'.next = false := by
  unfold pEreExp at h
  rw [hnext] at h
  obtain ⟨q, hq, -⟩ := bind_ok h
  simp only [pAtom] at hq
  split at hq
  · cases hq
  · rename_i hdigit
    exact Bool.eq_false_of_not_eq_true hdigit

/-- What `p_ere_exp` does. -/
def ExpWritten (exp : Parse → Except Errno Parse) : Prop :=
  ∀ p p', p.Bytes → exp p = .ok p' →
    (∃ e, Written .piece p p' e) ∧ (p.next = '{' :: p'.next → seesDigit p'.next = false)

/-! ## Branches and alternatives -/

/-- Where `p_ere` stops. -/
def AtStop (stop : Option Char) (next : Str) : Prop :=
    next = [] ∨ ∃ c, next.head? = some c ∧ some c = stop

/-- A piece in front of a branch. -/
theorem Written.cat {p q r : Parse} {e f : Ere} (h : Written .piece p q e)
    (hopen : p.next = '{' :: q.next → seesDigit q.next = false) (h' : Written .branch q r f) :
    Written .branch p r (.cat e f) := by
  obtain ⟨s, hs, hes⟩ := h.text
  obtain ⟨t, ht, hft⟩ := h'.text
  refine ⟨⟨⟨s ++ t, ?_, .more (hes.mono h'.sets) hft ?_⟩, h.sets.trans h'.sets, ?_, ?_, h.bounded,
    h'.bounded⟩, ?_⟩
  · rw [hs, ht, List.append_assoc]
  · rintro rfl
    have hdigit := hopen hs
    cases t with
    | nil => rfl
    | cons c t => rwa [ht] at hdigit
  · rw [h'.nbol, h.nbol]
    exact Nat.add_assoc ..
  · rw [h'.neol, h.neol]
    exact Nat.add_assoc ..
  · rw [h'.strip, h.strip, List.append_assoc]
    rfl

/-- A piece that is the last of a branch. -/
theorem Written.last {p q : Parse} {e : Ere} (h : Written .piece p q e) :
    Written .branch p q e := by
  obtain ⟨s, hs, hes⟩ := h.text
  exact ⟨⟨⟨s, hs, .last hes⟩, h.sets, h.nbol, h.neol, h.bounded⟩, h.strip⟩

/-- **A branch** is written piece by piece, by induction on the fuel. -/
theorem pConc_written {exp : Parse → Except Errno Parse}
    (hexp : ExpWritten exp) {stop : Option Char}
    {fuel : ℕ} {p p' : Parse} (hp : p.Bytes) (h : pConc exp stop fuel p = .ok p') :
    (p' = p ∨ ∃ e, Written .branch p p' e) ∧ (p'.next.head? = some '|' ∨ AtStop stop p'.next) := by
  induction fuel generalizing p with
  | zero => cases h
  | succ fuel ih =>
    unfold pConc at h
    split at h
    · rename_i hnext
      cases h
      exact ⟨.inl rfl, .inr (.inl hnext)⟩
    · rename_i c next hnext
      split at h
      · rename_i hc
        cases h
        refine ⟨.inl rfl, ?_⟩
        rcases hc with rfl | hc
        · exact .inl (by rw [hnext]; rfl)
        · exact .inr (.inr ⟨c, by rw [hnext]; rfl, hc⟩)
      · obtain ⟨q, hq, hrest⟩ := bind_ok h
        obtain ⟨⟨e, hwritten⟩, hopen⟩ := hexp p q hp hq
        obtain ⟨hmore, hstop⟩ := ih (hwritten.bytes hp) hrest
        refine ⟨.inr ?_, hstop⟩
        rcases hmore with rfl | ⟨f, hmore⟩
        · exact ⟨e, hwritten.last⟩
        · exact ⟨_, hwritten.cat hopen hmore⟩

/-- One branch and the others. -/
theorem Goes.alt {p q r : Parse} {e f : Ere} (h : Goes .branch p q e)
    (hne : e.code ≠ []) {next : Str}
    (hnext : q.next = '|' :: next) {q' : Parse} (hq' : q'.next = next ∧ q'.sets = q.sets ∧
      q'.nbol = q.nbol ∧ q'.neol = q.neol) (h' : Goes .ere q' r f) :
    Goes .ere p r (.alt e f) := by
  obtain ⟨s, hs, hes⟩ := h.text
  obtain ⟨t, ht, hft⟩ := h'.text
  obtain ⟨hq'next, hq'sets, hq'bol, hq'eol⟩ := hq'
  refine ⟨⟨s ++ '|' :: t, ?_, .alt (hes.mono (hq'sets ▸ h'.sets)) hne hft⟩,
    h.sets.trans (hq'sets ▸ h'.sets), ?_, ?_, h.bounded, h'.bounded⟩
  · rw [hs, hnext, ← hq'next, ht, List.append_assoc]
    rfl
  · rw [h'.nbol, hq'bol, h.nbol]
    exact Nat.add_assoc ..
  · rw [h'.neol, hq'eol, h.neol]
    exact Nat.add_assoc ..

theorem Goes.one {p q : Parse} {e : Ere} (h : Goes .branch p q e) (hne : e.code ≠ []) :
    Goes .ere p q e := by
  obtain ⟨s, hs, hes⟩ := h.text
  exact ⟨⟨s, hs, .one hes hne⟩, h.sets, h.nbol, h.neol, h.bounded⟩

/-- The first `|` puts a choice in front of its branch. -/
theorem nextBranch_none {p : Parse} {s₀ c : List Sop} (h : p.strip = s₀ ++ c) :
    ∃ q, p.nextBranch none s₀.length = (q, (s₀ ++ Sop.oCh_ (c.length + 2) :: c).length,
        (s₀ ++ Sop.oCh_ (c.length + 2) :: c).length + 1) ∧
      q.strip = (s₀ ++ .oCh_ (c.length + 2) :: c) ++ [.oOr1 (c.length + 1), .oOr2 0] ∧
        p.Beside q := by
  have h₁ := strip_astern (strip_insert h .oCh_) .oOr1
  have h₂ := strip_ahead (p := (p.insert .oCh_ s₀.length).astern .oOr1 s₀.length)
    (show _ = s₀ ++ .oCh_ (c.length + 1) :: (c ++ [.oOr1 (c.length + 1)]) by rw [h₁]; simp)
  refine ⟨_, Prod.ext rfl (Prod.ext ?_ ?_), ?_, rfl, rfl, rfl, rfl, rfl⟩
  · show Parse.here _ - 1 = _
    rw [Parse.here, h₁]
    simp
  · show Parse.here _ = _
    rw [Parse.here, h₂]
    simp
    omega
  · show List.append _ [_] = _
    rw [h₂]
    simp [Sop.setOpnd]

/-- Every other one goes on with it. -/
theorem nextBranch_some {p : Parse} {pre c : List Sop} {b : ℕ} (conc : ℕ)
    (h : p.strip = pre ++ ([.oOr1 b, .oOr2 0] ++ c)) :
    ∃ q, p.nextBranch (some (pre.length, pre.length + 1)) conc =
        (q, (pre ++ Sop.oOr1 b :: Sop.oOr2 (c.length + 2) :: c).length,
          (pre ++ Sop.oOr1 b :: Sop.oOr2 (c.length + 2) :: c).length + 1) ∧
      q.strip = (pre ++ .oOr1 b :: .oOr2 (c.length + 2) :: c) ++ [.oOr1 (c.length + 2), .oOr2 0] ∧
      p.Beside q := by
  have h₁ := strip_astern h .oOr1
  have h₂ := strip_ahead (p := p.astern .oOr1 pre.length)
    (show _ = (pre ++ [.oOr1 b]) ++ .oOr2 0 :: (c ++ [.oOr1 (c.length + 2)]) by rw [h₁]; simp)
  rw [List.length_append, List.length_singleton] at h₂
  refine ⟨_, Prod.ext rfl (Prod.ext ?_ ?_), ?_, rfl, rfl, rfl, rfl, rfl⟩
  · show Parse.here _ - 1 = _
    rw [Parse.here, h₁]
    simp
  · show Parse.here _ = _
    rw [Parse.here, h₂]
    simp
    omega
  · show List.append _ [_] = _
    rw [h₂]
    simp [Sop.setOpnd]

/-- The last branch ends the choice. -/
theorem lastBranch_some {p : Parse} {pre c : List Sop} {b : ℕ}
    (h : p.strip = pre ++ ([.oOr1 b, .oOr2 0] ++ c)) :
    (p.lastBranch (some (pre.length, pre.length + 1))).strip = pre ++ altTail b [c] ∧
      p.Beside (p.lastBranch (some (pre.length, pre.length + 1))) := by
  have h₁ := strip_ahead (p := p) (show _ = (pre ++ [.oOr1 b]) ++ .oOr2 0 :: c by rw [h]; simp)
  rw [List.length_append, List.length_singleton] at h₁
  refine ⟨?_, rfl, rfl, rfl, rfl, rfl⟩
  show (Parse.astern _ .o_Ch pre.length).strip = _
  rw [strip_astern (show _ = pre ++ .oOr1 b :: .oOr2 (c.length + 1) :: c by
    rw [h₁]; simp [Sop.setOpnd])]
  simp [altTail]

section Alts

variable {exp : Parse → Except Errno Parse} {stop : Option Char} {fuel : ℕ} {p p' : Parse}

/-- A turn of the loop of `p_ere`: a branch, and then the end or a `|`. -/
theorem pAlts_turn (hexp : ExpWritten exp)
    {prev : Option (ℕ × ℕ)} (hp : p.Bytes) (h : pAlts exp stop (fuel + 1) prev p = .ok p') :
    ∃ q e, Written .branch p q e ∧ e.code ≠ [] ∧
      ((∃ next, q.next = '|' :: next ∧
          pAlts exp stop fuel (some (Parse.nextBranch { q with next := next } prev p.here).2)
            (Parse.nextBranch { q with next := next } prev p.here).1 = .ok p') ∨
        (p' = q.lastBranch prev ∧ AtStop stop q.next)) := by
  obtain ⟨q, hconc, h⟩ := bind_ok h
  obtain ⟨_, hne, h⟩ := bind_ok h
  obtain ⟨hwritten, hstop⟩ := pConc_written hexp hp hconc
  obtain ⟨e, hwritten⟩ := hwritten.resolve_left fun heq => require_ok hne (by rw [heq])
  refine ⟨q, e, hwritten, fun hnil => require_ok hne ?_, ?_⟩
  · rw [Parse.here, hwritten.strip, hnil, List.append_nil]
    rfl
  split at h
  · rename_i next hnext
    exact .inl ⟨next, hnext, h⟩
  · rename_i hnext
    cases h
    refine .inr ⟨rfl, hstop.resolve_left fun hhead => ?_⟩
    cases hq : q.next with
    | nil => simp [hq] at hhead
    | cons c next =>
      simp only [hq, List.head?_cons, Option.some.injEq] at hhead
      exact hnext next (by rw [hq, hhead])

/-- The branches behind the first `|`. -/
theorem pAlts_some (hexp : ExpWritten exp)
    {pre : List Sop} {b : ℕ} (hp : p.Bytes) (hstrip : p.strip = pre ++ [.oOr1 b, .oOr2 0])
    (h : pAlts exp stop fuel (some (pre.length, pre.length + 1)) p = .ok p') :
    ∃ e, Goes .ere p p' e ∧ p'.strip = pre ++ altTail b e.parts ∧ AtStop stop p'.next := by
  induction fuel generalizing p pre b with
  | zero => cases h
  | succ fuel ih =>
    obtain ⟨q, e, hwritten, hne, hrest⟩ := pAlts_turn hexp hp h
    have hparts : e.parts = [e.code] := by
      obtain ⟨s, -, hes⟩ := hwritten.text
      exact hes.parts (by simp)
    have hq : q.strip = pre ++ ([.oOr1 b, .oOr2 0] ++ e.code) := by
      rw [hwritten.strip, hstrip, List.append_assoc]
    rcases hrest with ⟨next, hnext, hrun⟩ | ⟨rfl, hstop⟩
    · obtain ⟨r, hr, hrstrip, hbeside⟩ :=
        nextBranch_some (p := { q with next := next }) p.here hq
      rw [hr] at hrun
      have hrb : r.Bytes := by
        intro c hc
        rw [hbeside.1] at hc
        exact hwritten.bytes hp c (by rw [hnext]; exact List.mem_cons_of_mem _ hc)
      obtain ⟨f, hgoes, hout, hstop⟩ := ih hrb hrstrip hrun
      refine ⟨.alt e f, hwritten.toGoes.alt hne hnext ⟨hbeside.1, hbeside.2.2.2.2, hbeside.2.2.1,
        hbeside.2.2.2.1⟩ hgoes, ?_, hstop⟩
      obtain ⟨d, ds, hds⟩ := List.exists_cons_of_ne_nil f.parts_ne_nil
      show p'.strip = pre ++ altTail b (altCode e.parts :: f.parts)
      rw [hout, hds]
      simp [altTail, Ere.code]
    · obtain ⟨hout, hbeside⟩ := lastBranch_some hq
      obtain ⟨hnext, -, hbol, heol, hsets⟩ := hbeside
      obtain ⟨s, hs, hes⟩ := hwritten.text
      refine ⟨e, ⟨⟨s, ?_, hsets ▸ .one hes hne⟩, hsets ▸ hwritten.sets, hbol.trans hwritten.nbol,
        heol.trans hwritten.neol, hwritten.bounded⟩, ?_, ?_⟩
      · rw [hnext, hs]
      · rw [hout, hparts]
      · rwa [hnext]

/-- **All branches** of an expression. -/
theorem pAlts_none (hexp : ExpWritten exp)
    (hp : p.Bytes) (h : pAlts exp stop fuel none p = .ok p') :
    ∃ e, Written .ere p p' e ∧ AtStop stop p'.next := by
  cases fuel with
  | zero => cases h
  | succ fuel =>
    obtain ⟨q, e, hwritten, hne, hrest⟩ := pAlts_turn hexp hp h
    rcases hrest with ⟨next, hnext, hrun⟩ | ⟨rfl, hstop⟩
    · obtain ⟨r, hr, hrstrip, hbeside⟩ :=
        nextBranch_none (p := { q with next := next }) hwritten.strip
      rw [Parse.here, hr] at hrun
      have hrb : r.Bytes := by
        intro c hc
        rw [hbeside.1] at hc
        exact hwritten.bytes hp c (by rw [hnext]; exact List.mem_cons_of_mem _ hc)
      obtain ⟨f, hgoes, hout, hstop⟩ := pAlts_some hexp hrb hrstrip hrun
      refine ⟨.alt e f, ⟨hwritten.toGoes.alt hne hnext ⟨hbeside.1, hbeside.2.2.2.2, hbeside.2.2.1,
        hbeside.2.2.2.1⟩ hgoes, ?_⟩, hstop⟩
      obtain ⟨d, ds, hds⟩ := List.exists_cons_of_ne_nil f.parts_ne_nil
      show p'.strip = p.strip ++ altCode (altCode e.parts :: f.parts)
      rw [hout, hds]
      simp [altCode, Ere.code]
    · exact ⟨e, ⟨hwritten.toGoes.one hne, hwritten.strip⟩, hstop⟩

end Alts

/-- The parser reads expressions and writes their strips. -/
theorem pEre_written (fuel : ℕ) {stop : Option Char} {p p' : Parse} (hp : p.Bytes)
    (h : pEre fuel stop p = .ok p') : ∃ e, Written .ere p p' e ∧ AtStop stop p'.next := by
  induction fuel generalizing stop p p' with
  | zero => cases h
  | succ fuel ih =>
    have here : EreWritten (pEre fuel (some ')')) := fun q q' hq hrun => by
      obtain ⟨e, hwritten, -⟩ := ih hq hrun
      exact ⟨e, hwritten⟩
    exact pAlts_none (fun q q' hq hrun => ⟨pEreExp_written here hq hrun, pEreExp_brace hrun⟩) hp h

end Spegla.Regex
