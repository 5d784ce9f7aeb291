import Spegla.Lib.Blocks
import Spegla.Regex.Pass

/-!
# The search (`regex/engine.c`, `fast`)

What the states of `fast` stand for: the runs of the strip on parts of the text.

- `Reads`, `Moves`, `From`: the moves of the strip on a text, with the anchors as they are meant.
- `Anchored`: enough calls of `step` for the anchors of a strip.
- `fast_finds`: the search ends; a place that it returns is one where a run ends, the first such
  place where the strip is `Anchored`, and then it misses no run.
-/

namespace Spegla.Regex

open CString States Blocks Relation

/-! ## Runs on a text -/

/-- The character before a place. -/
def prev (text : Str) (k : ℕ) : Option Char := if k = 0 then none else text[k - 1]?

/-- A word starts here. -/
def WordStart (text : Str) (k : ℕ) : Prop :=
  (∃ c, text[k]? = some c ∧ isWord c = true) ∧ ∀ l, prev text k = some l → isWord l = false

/-- A word ends here. -/
def WordEnd (text : Str) (k : ℕ) : Prop :=
  (∃ l, prev text k = some l ∧ isWord l = true) ∧ ∀ c, text[k]? = some c → isWord c = false

/-- What the operators that look at the text read between two places. -/
def Reads (sets : List Cset) (text : Str) : Sop → ℕ → ℕ → Prop
  | .oChar d, i, j => text[i]? = some d ∧ j = i + 1
  | .oAny, i, j => (∃ c, text[i]? = some c) ∧ j = i + 1
  | .oAnyOf n, i, j =>
    (∃ c cs, text[i]? = some c ∧ sets[n]? = some cs ∧ c ∈ cs.chars) ∧ j = i + 1
  | .oBol, i, j => i = 0 ∧ j = i
  | .oEol, i, j => i = text.length ∧ j = i
  | .oBow, i, j => WordStart text i ∧ j = i
  | .oEow, i, j => WordEnd text i ∧ j = i
  | .oEnd, _, _ | .oPlus_ _, _, _ | .o_Plus _, _, _ | .oQuest_ _, _, _ | .o_Quest _, _, _
  | .oLparen _, _, _ | .oRparen _, _, _ | .oCh_ _, _, _ | .oOr1 _, _, _ | .oOr2 _, _, _
  | .o_Ch _, _, _ => False

/-- A move of the strip on a text, from a state and a place to others. -/
def Moves (g : Guts) (text : Str) (x y : ℕ × ℕ) : Prop :=
  (Jumps g.strip x.1 y.1 ∧ x.2 = y.2) ∨
    ∃ s, g.strip[x.1]? = some s ∧ Reads g.sets text s x.2 y.2 ∧ y.1 = x.1 + 1

/-- A run from some place of the text on has reached a state at the place `k`. -/
def From (g : Guts) (text : Str) (start stop j k : ℕ) : Prop :=
  ∃ i, ReflTransGen (Within (Moves g text) start stop) (start, i) (j, k)

/-! ## Flags and anchors -/

/-- A word begins between a character that is none of a word and one that is. -/
theorem wordFlag_eq_bow {lastc c : Option Char} :
    wordFlag (flagch lastc c) lastc c = .bow ↔
      (∃ d, c = some d ∧ isWord d = true) ∧ ∀ l, lastc = some l → isWord l = false := by
  cases lastc with
  | none =>
    cases c with
    | none => simp [wordFlag, flagch]
    | some c => by_cases h : isWord c = true <;> simp [wordFlag, flagch, h]
  | some l =>
    cases c with
    | none => by_cases h : isWord l = true <;> simp [wordFlag, flagch, h]
    | some c =>
      by_cases h : isWord c = true <;> by_cases h' : isWord l = true <;>
        simp [wordFlag, flagch, h, h']

/-- A word ends between a character of a word and one that is none. -/
theorem wordFlag_eq_eow {lastc c : Option Char} :
    wordFlag (flagch lastc c) lastc c = .eow ↔
      (∃ l, lastc = some l ∧ isWord l = true) ∧ ∀ d, c = some d → isWord d = false := by
  cases lastc with
  | none =>
    cases c with
    | none => simp [wordFlag, flagch]
    | some c => by_cases h : isWord c = true <;> simp [wordFlag, flagch, h]
  | some l =>
    cases c with
    | none => by_cases h : isWord l = true <;> simp [wordFlag, flagch, h]
    | some c =>
      by_cases h : isWord c = true <;> by_cases h' : isWord l = true <;>
        simp [wordFlag, flagch, h, h']

/-- `flagch` where `step` is called with it. -/
theorem flagch_of_anchorCount {g : Guts} {lastc c : Option Char} (h : anchorCount g lastc c ≠ 0) :
    (flagch lastc c = .bol ∧ lastc = none) ∨ (flagch lastc c = .eol ∧ c = none) ∨
      (flagch lastc c = .boleol ∧ lastc = none ∧ c = none) := by
  cases lastc <;> cases c <;> simp_all [flagch, anchorCount]

/-- At an end of the text there is a flag for it. -/
theorem flagch_of_none {lastc c : Option Char} (h : lastc = none ∨ c = none) :
    flagch lastc c = .bol ∨ flagch lastc c = .eol ∨ flagch lastc c = .boleol := by
  cases lastc <;> cases c <;> simp_all [flagch]

/-- Only at the beginning there is no character before. -/
theorem prev_eq_none {text : Str} {k : ℕ} (hk : k ≤ text.length) : prev text k = none ↔ k = 0 := by
  unfold prev
  split
  · simp [*]
  · rw [List.getElem?_eq_none_iff]
    omega

/-- Only at the end there is none behind. -/
theorem getElem?_eq_none_iff_length {text : Str} {k : ℕ} (hk : k ≤ text.length) :
    text[k]? = none ↔ k = text.length := by
  rw [List.getElem?_eq_none_iff]
  omega

section Flags

variable {g : Guts} {text : Str} {k i j : ℕ}

/-- A step over a character is a move of the automaton. -/
theorem moves_of_char {c : Char} (hc : text[k]? = some c) (h : Takes g (.char c) i j) :
    Moves g text (i, k) (j, k + 1) := by
  obtain ⟨s, hs, htakes, rfl⟩ := h
  refine .inr ⟨s, hs, ?_, rfl⟩
  cases s <;> simp_all [Sop.takes, Reads]
  rename_i n
  cases hn : g.sets[n]? with
  | none => simp [hn] at htakes
  | some cs => simpa [hn] using htakes

/-- So is one over the ends of a line, where the machine counts them. -/
theorem moves_of_line (hk : k ≤ text.length) (hcount : anchorCount g (prev text k) text[k]? ≠ 0)
    (h : Takes g (flagch (prev text k) text[k]?) i j) : Moves g text (i, k) (j, k) := by
  obtain ⟨s, hs, htakes, rfl⟩ := h
  refine .inr ⟨s, hs, ?_, rfl⟩
  rcases flagch_of_anchorCount hcount with ⟨hflag, hl⟩ | ⟨hflag, hc⟩ | ⟨hflag, hl, hc⟩
  · rw [hflag] at htakes
    cases s <;> simp_all [Sop.takes, Reads, prev_eq_none hk]
  · rw [hflag] at htakes
    cases s <;> simp_all [Sop.takes, Reads, getElem?_eq_none_iff_length hk]
  · rw [hflag] at htakes
    rw [prev_eq_none hk] at hl
    rw [getElem?_eq_none_iff_length hk] at hc
    cases s <;> simp_all [Sop.takes, Reads]

/-- So is one over the ends of a word. -/
theorem moves_of_word
    (hflag : wordFlag (flagch (prev text k) text[k]?) (prev text k) text[k]? = .bow ∨
      wordFlag (flagch (prev text k) text[k]?) (prev text k) text[k]? = .eow)
    (h : Takes g (wordFlag (flagch (prev text k) text[k]?) (prev text k) text[k]?) i j) :
    Moves g text (i, k) (j, k) := by
  obtain ⟨s, hs, htakes, rfl⟩ := h
  refine .inr ⟨s, hs, ?_, rfl⟩
  rcases hflag with hflag | hflag
  · rw [hflag] at htakes
    cases s <;> simp_all [Sop.takes, Reads]
    exact wordFlag_eq_bow.mp hflag
  · rw [hflag] at htakes
    cases s <;> simp_all [Sop.takes, Reads]
    exact wordFlag_eq_eow.mp hflag

/-- A move is a jump, one over an anchor, or one over a character. -/
theorem Moves.cases (hk : k ≤ text.length) {m : ℕ} (h : Moves g text (i, k) (j, m)) :
    (m = k ∧ (Jumps g.strip i j ∨
      ((k = 0 ∨ k = text.length) ∧ Takes g (flagch (prev text k) text[k]?) i j) ∨
      ((WordStart text k ∨ WordEnd text k) ∧
        Takes g (wordFlag (flagch (prev text k) text[k]?) (prev text k) text[k]?) i j))) ∨
    (m = k + 1 ∧ ∃ c, text[k]? = some c ∧ Takes g (.char c) i j) := by
  rcases h with ⟨hjump, hm⟩ | ⟨s, hs, hreads, hj⟩
  · exact .inl ⟨hm.symm, .inl hjump⟩
  have htakes : ∀ {ch}, s.takes g.sets ch = true → Takes g ch i j := fun h => ⟨s, hs, h, hj⟩
  simp only at hreads hj
  cases s with
  | oChar d => exact .inr ⟨hreads.2, d, hreads.1, htakes (by simp [Sop.takes])⟩
  | oAny =>
    obtain ⟨⟨c, hc⟩, hm⟩ := hreads
    exact .inr ⟨hm, c, hc, htakes rfl⟩
  | oAnyOf n =>
    obtain ⟨⟨c, cs, hc, hn, hmem⟩, hm⟩ := hreads
    exact .inr ⟨hm, c, hc, htakes (by simp [Sop.takes, hn, hmem])⟩
  | oBol =>
    obtain ⟨rfl, hm⟩ := hreads
    refine .inl ⟨hm, .inr (.inl ⟨.inl rfl, htakes ?_⟩)⟩
    cases hc : text[0]? <;> simp [Sop.takes, flagch, prev]
  | oEol =>
    obtain ⟨rfl, hm⟩ := hreads
    refine .inl ⟨hm, .inr (.inl ⟨.inr rfl, htakes ?_⟩)⟩
    cases hl : prev text text.length <;> simp [Sop.takes, flagch]
  | oBow =>
    obtain ⟨hw, hm⟩ := hreads
    refine .inl ⟨hm, .inr (.inr ⟨.inl hw, htakes ?_⟩)⟩
    simp [Sop.takes, wordFlag_eq_bow.mpr hw]
  | oEow =>
    obtain ⟨hw, hm⟩ := hreads
    refine .inl ⟨hm, .inr (.inr ⟨.inr hw, htakes ?_⟩)⟩
    simp [Sop.takes, wordFlag_eq_eow.mpr hw]
  | _ => exact hreads.elim

end Flags

/-! ## The calls of `step` -/

section Calls

variable {σ : Type} [States σ] {Fits : σ → Prop} {g : Guts} {start stop : ℕ} {flag : Ch}

/-- No jump leads out of a set. -/
def JumpClosed (g : Guts) (start stop : ℕ) (st : σ) : Prop :=
  ∀ i j, start ≤ i → i < stop → Jumps g.strip i j → isset st i = true → isset st j = true

/-- No move with `flag` leads out of a set. -/
def TakesClosed (g : Guts) (start stop : ℕ) (flag : Ch) (st : σ) : Prop :=
  ∀ i j, start ≤ i → i < stop → Takes g flag i j → isset st i = true → isset st j = true

/-- What a call of `step` that changes its argument in place leaves. -/
structure Steps (g : Guts) (start stop : ℕ) (flag : Ch) (st st' : σ) : Prop where
  keeps : ∀ j, isset st j = true → isset st' j = true
  least : ∀ P : ℕ → Prop, (∀ i j, start ≤ i → i < stop → Jumps g.strip i j → P i → P j) →
    (∀ i j, start ≤ i → i < stop → Takes g flag i j → P i → P j) →
    (∀ j, isset st j = true → P j) → ∀ j, isset st' j = true → P j

theorem Steps.refl (st : σ) : Steps g start stop flag st st := ⟨fun _ h => h, fun _ _ _ h => h⟩

theorem Steps.trans {st st' st'' : σ} (h : Steps g start stop flag st st')
    (h' : Steps g start stop flag st' st'') : Steps g start stop flag st st'' where
  keeps j hj := h'.keeps j (h.keeps j hj)
  least P hjumps htakes hst := h'.least P hjumps htakes (h.least P hjumps htakes hst)

theorem local_reread (hl : Lawful σ g.strip.length Fits) (st : σ) : Local (reread st) := by
  intro v w i h
  rcases hl.reread_eq with heq | heq
  · rw [heq, heq]
  · rwa [heq, heq]

/-- **One call of `step`** makes moves only, and all of those at its place. -/
theorem stepAt_steps (hr : Ready g.strip start stop) (hl : Lawful σ g.strip.length Fits) (flag : Ch)
    {st : σ} (hf : Fits st) :
    ∃ st', stepAt g start stop flag st = some st' ∧ Fits st' ∧ Steps g start stop flag st st' ∧
      JumpClosed g start stop st' ∧
      ∀ i j, start ≤ i → i < stop → Takes g flag i j → isset st i = true → isset st' j = true := by
  obtain ⟨st', hstep, hf', hkeeps, hbelow, hleast⟩ := step_pass hr hl (local_reread hl st) flag hf
  refine ⟨st', hstep, hf', ⟨hkeeps, fun P hjumps htakes hst => hleast P ⟨hjumps, ?_⟩ hst⟩,
    fun i j hi hlt => (hbelow i j hi hlt).1, fun i j hi hlt htake hset => ?_⟩
  · intro v i j hi hlt hv htake hset
    refine htakes i j hi hlt htake ?_
    rcases hl.reread_eq with heq | heq
    · exact hst i (by rwa [heq] at hset)
    · exact hv i (by rwa [heq] at hset)
  · refine (hbelow i j hi hlt).2 htake ?_
    rcases hl.reread_eq with heq | heq
    · rwa [heq]
    · rw [heq]
      exact hkeeps i hset

/-- The operators that let `flag` pass and behind which no state is set. -/
def pending (g : Guts) (flag : Ch) (st : σ) : Finset ℕ :=
  (Finset.range g.strip.length).filter fun i =>
    (g.strip[i]?.any fun s => s.takes g.sets flag) = true ∧ isset st (i + 1) = false

/-- An operator is pending if it could be taken and has not been. -/
theorem mem_pending {st : σ} {i : ℕ} :
    i ∈ pending g flag st ↔ Takes g flag i (i + 1) ∧ isset st (i + 1) = false := by
  simp only [pending, Finset.mem_filter, Finset.mem_range, Takes, and_true]
  constructor
  · rintro ⟨hlt, htakes, hset⟩
    rw [List.getElem?_eq_getElem hlt, Option.any_some] at htakes
    exact ⟨⟨_, List.getElem?_eq_getElem hlt, htakes⟩, hset⟩
  · rintro ⟨⟨s, hs, htakes⟩, hset⟩
    exact ⟨(List.getElem?_eq_some_iff.mp hs).1, by simp [hs, htakes], hset⟩

/-- Where nothing is pending the states are closed. -/
theorem takesClosed_of_pending {st : σ} (h : pending g flag st = ∅) :
    TakesClosed g start stop flag st := by
  intro i j _ _ htake _
  obtain ⟨_, _, _, rfl⟩ := id htake
  by_contra hset
  rw [Bool.not_eq_true] at hset
  have := mem_pending.mpr ⟨htake, hset⟩
  simp [h] at this

/-- The calls end; where there are as many as operators are pending, no move with `flag` is left. -/
theorem stepTimes_steps (hr : Ready g.strip start stop) (hl : Lawful σ g.strip.length Fits)
    (flag : Ch) (n : ℕ) {st : σ} (hf : Fits st) (hst : JumpClosed g start stop st) :
    ∃ st', stepTimes g start stop flag n st = some st' ∧ Fits st' ∧
      Steps g start stop flag st st' ∧ JumpClosed g start stop st' ∧
      (TakesClosed g start stop flag st ∨ (pending g flag st).card ≤ n →
        TakesClosed g start stop flag st') := by
  induction n generalizing st with
  | zero =>
    refine ⟨st, rfl, hf, .refl st, hst, ?_⟩
    rintro (h | h)
    · exact h
    · exact takesClosed_of_pending (Finset.card_eq_zero.mp (Nat.le_zero.mp h))
  | succ n ih =>
    obtain ⟨st₁, hstep, hf₁, hsteps, hclosed, hnew⟩ := stepAt_steps hr hl flag hf
    obtain ⟨st', hrun, hf', hsteps', hclosed', hdone⟩ := ih hf₁ hclosed
    refine ⟨st',
      by simp [stepTimes, hstep, hrun], hf', hsteps.trans hsteps', hclosed', fun h => hdone ?_⟩
    by_cases hfix : TakesClosed g start stop flag st
    · -- nothing is new
      left
      have hsame := hsteps.least (fun j => isset st j = true) hst hfix fun _ h => h
      intro i j hi hlt htake hset
      exact hsteps.keeps j (hfix i j hi hlt htake (hsame i hset))
    · -- an operator is taken that was not: fewer are left for the other steps
      right
      have hcard := h.resolve_left hfix
      unfold TakesClosed at hfix
      push Not at hfix
      obtain ⟨i, j, hi, hlt, htake, hset, hno⟩ := hfix
      obtain ⟨_, _, _, rfl⟩ := id htake
      replace hno := Bool.eq_false_of_not_eq_true hno
      have hsub : pending g flag st₁ ⊂ pending g flag st := by
        rw [Finset.ssubset_iff_of_subset]
        · refine ⟨i, mem_pending.mpr ⟨htake, hno⟩, fun hmem => ?_⟩
          have := hnew i (i + 1) hi hlt htake hset
          rw [(mem_pending.mp hmem).2] at this
          exact absurd this Bool.false_ne_true
        · intro k hk
          obtain ⟨htake, hk⟩ := mem_pending.mp hk
          refine mem_pending.mpr ⟨htake, ?_⟩
          by_contra h
          rw [Bool.not_eq_false] at h
          rw [hsteps.keeps _ h] at hk
          exact absurd hk.symm Bool.false_ne_true
      have := Finset.card_lt_card hsub
      omega

/-! ## Anchors at a place -/

/-- `step` is called often enough for the anchors of the strip. -/
structure Anchored (g : Guts) : Prop where
  bol : g.strip.count .oBol ≤ g.nbol
  eol : g.strip.count .oEol ≤ g.neol
  bow : g.strip.count .oBow ≤ 1
  eow : g.strip.count .oEow ≤ 1
  apart : (Sop.oBol ∉ g.strip ∧ Sop.oEol ∉ g.strip) ∨ (Sop.oBow ∉ g.strip ∧ Sop.oEow ∉ g.strip)

theorem card_filter_getElem?_any {α : Type*} (p : α → Bool) (l : List α) :
    ((Finset.range l.length).filter fun i => (l[i]?.any p) = true).card = l.countP p := by
  induction l using List.reverseRecOn with
  | nil => simp
  | append_singleton l a ih =>
    have hold : (Finset.range l.length).filter (fun i => ((l ++ [a])[i]?.any p) = true) =
        (Finset.range l.length).filter fun i => (l[i]?.any p) = true := by
      refine Finset.filter_congr fun i hi => ?_
      rw [List.getElem?_append_left (Finset.mem_range.mp hi)]
    rw [List.length_append, List.length_singleton, Finset.range_add_one, Finset.filter_insert, hold,
      List.countP_append, List.countP_singleton, ← ih]
    simp only [List.getElem?_concat_length, Option.any_some]
    split
    · rw [Finset.card_insert_of_notMem (by simp)]
    · rfl

/-- No more operators are pending than take the flag. -/
theorem card_pending_le (st : σ) :
    (pending g flag st).card ≤ g.strip.countP fun s => s.takes g.sets flag := by
  rw [← card_filter_getElem?_any]
  refine Finset.card_le_card fun i hi => ?_
  simp only [pending, Finset.mem_filter] at hi ⊢
  exact ⟨hi.1, hi.2.1⟩

theorem countP_takes_bol : (g.strip.countP fun s => s.takes g.sets .bol) = g.strip.count .oBol := by
  refine List.countP_congr fun s _ => ?_
  cases s <;> simp [Sop.takes]

theorem countP_takes_eol : (g.strip.countP fun s => s.takes g.sets .eol) = g.strip.count .oEol := by
  refine List.countP_congr fun s _ => ?_
  cases s <;> simp [Sop.takes]

theorem countP_takes_bow : (g.strip.countP fun s => s.takes g.sets .bow) = g.strip.count .oBow := by
  refine List.countP_congr fun s _ => ?_
  cases s <;> simp [Sop.takes]

theorem countP_takes_eow : (g.strip.countP fun s => s.takes g.sets .eow) = g.strip.count .oEow := by
  refine List.countP_congr fun s _ => ?_
  cases s <;> simp [Sop.takes]

theorem countP_takes_boleol :
    (g.strip.countP fun s => s.takes g.sets .boleol) = g.strip.count .oBol +
    g.strip.count .oEol := by
  induction g.strip with
  | nil => rfl
  | cons s l ih =>
    rw [List.countP_cons, List.count_cons, List.count_cons, ih]
    cases s <;> simp [Sop.takes] <;> omega

/-- There are as many calls as anchors that hold at a place. -/
theorem Anchored.line (ha : Anchored g) {text : Str} {k : ℕ} (hk : k = 0 ∨ k = text.length)
    (hle : k ≤ text.length) :
    (g.strip.countP fun s => s.takes g.sets (flagch (prev text k) text[k]?)) ≤
      anchorCount g (prev text k) text[k]? := by
  have hbol := ha.bol
  have heol := ha.eol
  have hprev := prev_eq_none hle
  have hnext := getElem?_eq_none_iff_length hle
  cases hl : prev text k with
  | none =>
    cases hc : text[k]? with
    | none =>
      simp [flagch, anchorCount, countP_takes_boleol]
      omega
    | some c => simpa [flagch, anchorCount, countP_takes_bol] using hbol
  | some l =>
    cases hc : text[k]? with
    | none => simpa [flagch, anchorCount, countP_takes_eol] using heol
    | some c =>
      simp only [hl, hc, reduceCtorEq, false_iff] at hprev hnext
      omega

/-- No move that stays at the place `k` leads out of a set. -/
def PlaceClosed (g : Guts) (text : Str) (start stop k : ℕ) (st : σ) : Prop :=
  ∀ i j, start ≤ i → i < stop → Moves g text (i, k) (j, k) → isset st i = true → isset st j = true

theorem takes_mem {i j : ℕ} (h : Takes g flag i j) (hflag : flag = .bow ∨ flag = .eow) :
    Sop.oBow ∈ g.strip ∨ Sop.oEow ∈ g.strip := by
  obtain ⟨s, hs, htakes, _⟩ := h
  have hmem := List.mem_of_getElem? hs
  rcases hflag with rfl | rfl
  · cases s <;> simp_all [Sop.takes]
  · cases s <;> simp_all [Sop.takes]

/-- Without an anchor nothing takes the ends of a line. -/
theorem not_takes_line {text : Str} {k i j : ℕ} (hk : k = 0 ∨ k = text.length)
    (hle : k ≤ text.length) (hno : Sop.oBol ∉ g.strip ∧ Sop.oEol ∉ g.strip) :
    ¬Takes g (flagch (prev text k) text[k]?) i j := by
  rintro ⟨s, hs, htakes, _⟩
  have hmem := List.mem_of_getElem? hs
  have hnone : prev text k = none ∨ text[k]? = none :=
    hk.imp (prev_eq_none hle).mpr (getElem?_eq_none_iff_length hle).mpr
  rcases flagch_of_none hnone with hflag | hflag | hflag
  · rw [hflag] at htakes
    cases s <;> simp_all [Sop.takes]
  · rw [hflag] at htakes
    cases s <;> simp_all [Sop.takes]
  · rw [hflag] at htakes
    cases s <;> simp_all [Sop.takes]

/-- What is reached goes on with a move. -/
theorem From.move {text : Str} {i j k m : ℕ} (hi : start ≤ i) (hlt : i < stop)
    (h : From g text start stop i k) (hm : Moves g text (i, k) (j, m)) :
    From g text start stop j m := by
  obtain ⟨a, hrun⟩ := h
  exact ⟨a, hrun.tail ⟨hi, hlt, hm⟩⟩

/-- The calls for the line anchors. -/
theorem line_steps (hr : Ready g.strip start stop) (hl : Lawful σ g.strip.length Fits) {text : Str}
    {k : ℕ} (hk : k ≤ text.length) {st : σ} (hf : Fits st) (hst : JumpClosed g start stop st) :
    ∃ st', stepTimes g start stop (flagch (prev text k) text[k]?)
        (anchorCount g (prev text k) text[k]?) st = some st' ∧ Fits st' ∧
      (∀ j, isset st j = true → isset st' j = true) ∧ JumpClosed g start stop st' ∧
      ((∀ j, isset st j = true → From g text start stop j k) →
        ∀ j, isset st' j = true → From g text start stop j k) ∧
      (Anchored g → k = 0 ∨ k = text.length →
        TakesClosed g start stop (flagch (prev text k) text[k]?) st') := by
  obtain ⟨st', hrun, hf', hsteps, hclosed, hdone⟩ := stepTimes_steps hr hl
    (flagch (prev text k) text[k]?) (anchorCount g (prev text k) text[k]?) hf hst
  refine ⟨st', hrun, hf', hsteps.keeps, hclosed, fun hfrom => ?_, fun ha hends => hdone ?_⟩
  · by_cases hcount : anchorCount g (prev text k) text[k]? = 0
    · rw [hcount] at hrun
      cases hrun
      exact hfrom
    · exact hsteps.least _ (fun i j hi hlt hjump h => h.move hi hlt (.inl ⟨hjump, rfl⟩))
        (fun i j hi hlt htake h => h.move hi hlt (moves_of_line hk hcount htake)) hfrom
  · right
    exact (card_pending_le st).trans (ha.line hends hk)

/-- The call for a word boundary. -/
theorem word_steps (hr : Ready g.strip start stop) (hl : Lawful σ g.strip.length Fits) {text : Str}
    {k : ℕ} {st : σ} (hf : Fits st) (hst : JumpClosed g start stop st)
    (hflag : wordFlag (flagch (prev text k) text[k]?) (prev text k) text[k]? = .bow ∨
      wordFlag (flagch (prev text k) text[k]?) (prev text k) text[k]? = .eow) :
    ∃ st', stepAt g start stop
      (wordFlag (flagch (prev text k) text[k]?) (prev text k) text[k]?) st =
        some st' ∧ Fits st' ∧
      (∀ j, isset st j = true → isset st' j = true) ∧ JumpClosed g start stop st' ∧
      ((∀ j, isset st j = true → From g text start stop j k) →
        ∀ j, isset st' j = true → From g text start stop j k) ∧
      (Anchored g →
        TakesClosed g start stop
          (wordFlag (flagch (prev text k) text[k]?) (prev text k) text[k]?) st') ∧
      (Sop.oBow ∉ g.strip ∧ Sop.oEow ∉ g.strip → ∀ j, isset st' j = true → isset st j = true) := by
  obtain ⟨st', hrun, hf', hsteps, hclosed, hdone⟩ := stepTimes_steps hr hl
    (wordFlag (flagch (prev text k) text[k]?) (prev text k) text[k]?) 1 hf hst
  refine ⟨st', by simpa [stepTimes] using hrun, hf', hsteps.keeps, hclosed, fun hfrom => ?_,
    fun ha => hdone ?_, fun hno => ?_⟩
  · exact hsteps.least _ (fun i j hi hlt hjump h => h.move hi hlt (.inl ⟨hjump, rfl⟩))
      (fun i j hi hlt htake h => h.move hi hlt (moves_of_word hflag htake)) hfrom
  · -- one step is enough for the only anchor
    right
    refine (card_pending_le st).trans ?_
    rcases hflag with hflag | hflag
    · rw [hflag, countP_takes_bow]
      exact ha.bow
    · rw [hflag, countP_takes_eow]
      exact ha.eow
  · refine hsteps.least _ hst (fun i j _ _ htake => ?_) fun _ h => h
    rcases takes_mem htake hflag with h | h
    · exact absurd h hno.1
    · exact absurd h hno.2

/-- **The calls of `step` for the ends of lines and words** close the states. -/
theorem anchors_steps (hr : Ready g.strip start stop)
    (hl : Lawful σ g.strip.length Fits) {text : Str}
    {k : ℕ} (hk : k ≤ text.length) {st : σ} (hf : Fits st) (hst : JumpClosed g start stop st) :
    ∃ st', anchors g start stop (prev text k) text[k]? st = some st' ∧ Fits st' ∧
      (∀ j, isset st j = true → isset st' j = true) ∧
      ((∀ j, isset st j = true → From g text start stop j k) →
        ∀ j, isset st' j = true → From g text start stop j k) ∧
      (Anchored g → PlaceClosed g text start stop k st') := by
  obtain ⟨st₁, hrun₁, hf₁, hkeeps₁, hclosed₁, hfrom₁, hline⟩ := line_steps hr hl hk hf hst
  by_cases hflag : wordFlag (flagch (prev text k) text[k]?) (prev text k) text[k]? = .bow ∨
      wordFlag (flagch (prev text k) text[k]?) (prev text k) text[k]? = .eow
  · obtain ⟨st₂, hrun₂, hf₂, hkeeps₂, hclosed₂, hfrom₂, hword, hsame⟩ :=
      word_steps hr hl hf₁ hclosed₁ hflag
    refine ⟨st₂, by simp [anchors, hrun₁, hflag, hrun₂], hf₂, fun j hj => hkeeps₂ j (hkeeps₁ j hj),
      fun h => hfrom₂ (hfrom₁ h), fun ha i j hi hlt hm hset => ?_⟩
    rcases hm.cases hk with ⟨-, hjump | ⟨hends, htake⟩ | ⟨-, htake⟩⟩ | ⟨hm, -⟩
    · exact hclosed₂ i j hi hlt hjump hset
    · -- a line anchor: then there are no word anchors
      rcases ha.apart with hno | hno
      · exact absurd htake (not_takes_line hends hk hno)
      · exact hkeeps₂ j (hline ha hends i j hi hlt htake (hsame hno i hset))
    · exact hword ha i j hi hlt htake hset
    · omega
  · refine ⟨st₁,
      by simp [anchors, hrun₁, hflag], hf₁, hkeeps₁, hfrom₁, fun ha i j hi hlt hm hset => ?_⟩
    rcases hm.cases hk with ⟨-, hjump | ⟨hends, htake⟩ | ⟨hw, -⟩⟩ | ⟨hm, -⟩
    · exact hclosed₁ i j hi hlt hjump hset
    · exact hline ha hends i j hi hlt htake hset
    · refine absurd ?_ hflag
      exact hw.imp wordFlag_eq_bow.mpr wordFlag_eq_eow.mpr
    · omega

/-! ## The loop over the text -/

/-- The automaton never goes back in the text. -/
theorem Moves.le {text : Str} {x y : ℕ × ℕ} (h : Moves g text x y) : x.2 ≤ y.2 := by
  rcases h with ⟨_, h⟩ | ⟨s, _, hreads, _⟩
  · exact h.le
  · cases s <;> simp only [Reads] at hreads <;> omega

/-- A state that is reached at a place without a move that stays there. -/
def Entry (g : Guts) (text : Str) (start stop j k : ℕ) : Prop :=
  j = start ∨ ∃ i m c, k = m + 1 ∧ start ≤ i ∧ i < stop ∧ From g text start stop i m ∧
    text[m]? = some c ∧ Takes g (.char c) i j

/-- A set with all entries out of which no move at the place leads has all runs. -/
theorem From.isset {text : Str} {k : ℕ} (hk : k ≤ text.length) {st : σ}
    (hentry : ∀ j, Entry g text start stop j k → isset st j = true)
    (hclosed : PlaceClosed g text start stop k st) {j : ℕ} (h : From g text start stop j k) :
    isset st j = true := by
  obtain ⟨a, hrun⟩ := h
  have hall : ∀ y, ReflTransGen (Within (Moves g text) start stop) (start, a) y → y.2 = k →
      States.isset st y.1 = true := by
    intro y hrun
    induction hrun with
    | refl => exact fun _ => hentry _ (.inl rfl)
    | @tail x y hbefore hmove ih =>
      obtain ⟨i, m⟩ := x
      obtain ⟨j, n⟩ := y
      rintro rfl
      obtain ⟨hi, hlt, hm⟩ := hmove
      have hle : m ≤ n := hm.le
      rcases hm.cases (hle.trans hk) with ⟨heq, -⟩ | ⟨heq, c, hc, htake⟩
      · obtain rfl : n = m := heq
        exact hclosed i j hi hlt hm (ih rfl)
      · exact hentry j (.inr ⟨i, m, c, heq, hi, hlt, ⟨a, hbefore⟩, hc, htake⟩)
  exact hall (j, k) hrun rfl

/-- What the loop of `fast` returns from the place `p` on. -/
structure Finds (g : Guts) (text : Str) (start stop p : ℕ) (r : Option ℕ) : Prop where
  ends : ∀ e, r = some e → ∃ k, e = k + 1 ∧ p ≤ k ∧ k ≤ text.length ∧ From g text start stop stop k
  first : Anchored g → ∀ e, r = some e → ∀ k, p ≤ k → From g text start stop stop k → e ≤ k + 1
  all : Anchored g → r = none → ∀ k, p ≤ k → k ≤ text.length → ¬From g text start stop stop k

/-- The final state is reached at this place. -/
theorem Finds.here {text : Str} {p : ℕ} (hp : p ≤ text.length)
    (h : From g text start stop stop p) : Finds g text start stop p (some (p + 1)) where
  ends e he := ⟨p, (Option.some.inj he).symm, le_rfl, hp, h⟩
  first _ e he k hk _ := by
    rw [← Option.some.inj he]
    omega
  all _ he := by cases he

/-- Where it is not, the search goes on at the next place. -/
theorem Finds.later {text : Str} {p : ℕ} {r : Option ℕ}
    (hno : Anchored g → ¬From g text start stop stop p)
    (h : Finds g text start stop (p + 1) r) : Finds g text start stop p r where
  ends e he := by
    obtain ⟨k, hek, hk, hkl, hfrom⟩ := h.ends e he
    exact ⟨k, hek, by omega, hkl, hfrom⟩
  first ha e he k hk hfrom := by
    rcases hk.eq_or_lt with rfl | hlt
    · exact absurd hfrom (hno ha)
    · exact h.first ha e he k hlt hfrom
  all ha he k hk hkl hfrom := by
    rcases hk.eq_or_lt with rfl | hlt
    · exact hno ha hfrom
    · exact h.all ha he k hlt hkl hfrom

/-- What holds of the states at the start of a turn of the loop. -/
structure Stands (g : Guts) (text : Str) (start stop p : ℕ) (st : σ) : Prop where
  closed : JumpClosed g start stop st
  sound : ∀ j, isset st j = true → From g text start stop j p
  entries : Anchored g → ∀ j, Entry g text start stop j p → isset st j = true

/-- The states for a fresh start. -/
structure Fresh (g : Guts) (start stop : ℕ) (fresh : σ) : Prop where
  closed : JumpClosed g start stop fresh
  begun : isset fresh start = true
  sound : ∀ text j k, isset fresh j = true → From g text start stop j k

/-- A turn of the loop: the next character is read from all states, and a run may start behind it.
-/
theorem Stands.char (hr : Ready g.strip start stop) (hl : Lawful σ g.strip.length Fits) {text : Str}
    {p : ℕ} {fresh st : σ} {c : Char} (hff : Fits fresh) (hfresh : Fresh g start stop fresh)
    (hc : text[p]? = some c) (hsound : ∀ j, isset st j = true → From g text start stop j p)
    (hall : Anchored g → ∀ j, From g text start stop j p → isset st j = true) :
    ∃ st', step g start stop (fun _ => st) (.char c) fresh = some st' ∧ Fits st' ∧
      Stands g text start stop (p + 1) st' := by
  obtain ⟨st', hstep, hf', hkeeps, hbelow, hleast⟩ :=
    step_pass hr hl (show Local fun _ => st from fun _ _ _ _ => rfl) (.char c) hff
  refine ⟨st', hstep, hf', fun i j hi hlt => (hbelow i j hi hlt).1, ?_, fun ha j hj => ?_⟩
  · refine hleast _ ⟨fun i j hi hlt hjump h => h.move hi hlt (.inl ⟨hjump, rfl⟩), ?_⟩
      fun j hj => hfresh.sound text j (p + 1) hj
    intro _ i j hi hlt _ htake hset
    exact (hsound i hset).move hi hlt (moves_of_char hc htake)
  · rcases hj with rfl | ⟨i, m, d, hm, hi, hlt, hfrom, hd, htake⟩
    · exact hkeeps _ hfresh.begun
    · obtain rfl : p = m := by omega
      obtain rfl : c = d := Option.some.inj (hc.symm.trans hd)
      exact (hbelow i j hi hlt).2 htake (hall ha i hfrom)

/-- The loop at the end of the text. -/
theorem fastLoop_nil {fresh st : σ} {lastc : Option Char} {p : ℕ} :
    fastLoop g start stop fresh lastc [] p st = (do
      let st ← anchors g start stop lastc none st
      if isset st stop then some (some (p + 1)) else some none) := by
  rw [fastLoop]
  rfl

/-- The loop at a character. -/
theorem fastLoop_cons {fresh st : σ} {lastc : Option Char} {c : Char} {rest : Str} {p : ℕ} :
    fastLoop g start stop fresh lastc (c :: rest) p st = (do
      let st ← anchors g start stop lastc (some c) st
      if isset st stop then some (some (p + 1))
      else do
        let st ← step g start stop (fun _ => st) (.char c) fresh
        fastLoop g start stop fresh (some c) rest (p + 1) st) := by
  rw [fastLoop]
  rfl

/-- **The loop of `fast`** finds the first place, by induction on the text. -/
theorem fastLoop_finds (hr : Ready g.strip start stop) (hl : Lawful σ g.strip.length Fits)
    {text : Str} {fresh : σ} (hff : Fits fresh) (hfresh : Fresh g start stop fresh) {rest : Str}
    {p : ℕ} {st : σ} (hrest : text.drop p = rest) (hp : p ≤ text.length) (hf : Fits st)
    (hst : Stands g text start stop p st) :
    ∃ r, fastLoop g start stop fresh (prev text p) rest p st = some r ∧
      Finds g text start stop p r := by
  induction rest generalizing p st with
  | nil =>
    -- the anchors are tried at the end of the text too
    have hhead : text[p]? = none := by
      rw [← List.head?_drop, hrest]
      rfl
    obtain ⟨st', hanchors, _, hkeeps, hfrom, hplace⟩ := anchors_steps hr hl hp hf hst.closed
    rw [hhead] at hanchors
    have hend : p = text.length := (getElem?_eq_none_iff_length hp).mp hhead
    by_cases hset : isset st' stop = true
    · exact ⟨some (p + 1),
        by simp [fastLoop_nil, hanchors, hset], .here hp (hfrom hst.sound stop hset)⟩
    · refine ⟨none,
        by simp [fastLoop_nil, hanchors, hset], by simp, by simp, fun ha _ k hk hkl h => ?_⟩
      obtain rfl : k = p := by omega
      exact hset (h.isset hp (fun j hj => hkeeps j (hst.entries ha j hj)) (hplace ha))
  | cons c rest ih =>
    have hhead : text[p]? = some c := by
      rw [← List.head?_drop, hrest]
      rfl
    have hlt : p < text.length := (List.getElem?_eq_some_iff.mp hhead).1
    have htail : text.drop (p + 1) = rest := by
      rw [← List.tail_drop, hrest]
      rfl
    obtain ⟨st', hanchors, _, hkeeps, hfrom, hplace⟩ := anchors_steps hr hl hp hf hst.closed
    rw [hhead] at hanchors
    have hall : Anchored g → ∀ j, From g text start stop j p → isset st' j = true := fun ha j h =>
      h.isset hp (fun j hj => hkeeps j (hst.entries ha j hj)) (hplace ha)
    by_cases hset : isset st' stop = true
    · exact ⟨some (p + 1),
        by simp [fastLoop_cons, hanchors, hset], .here hp (hfrom hst.sound stop hset)⟩
    · obtain ⟨st₁, hstep, hf₁, hst₁⟩ :=
        Stands.char hr hl hff hfresh hhead (hfrom hst.sound) hall
      obtain ⟨r, hrun, hfinds⟩ := ih htail hlt hf₁ hst₁
      have hprev : prev text (p + 1) = some c := by simpa [prev] using hhead
      rw [hprev] at hrun
      refine ⟨r, by
        simp [fastLoop_cons, hanchors, hset, hstep, hrun], .later (fun ha h => ?_) hfinds⟩
      exact hset (hall ha stop h)

/-- No operator takes the flag for nothing. -/
theorem not_takes_nothing {i j : ℕ} : ¬Takes g .nothing i j := by
  rintro ⟨s, _, htakes, _⟩
  cases s <;> simp [Sop.takes] at htakes

/-- The search ends, at the first place where a run ends. -/
theorem fast_finds (hr : Ready g.strip start stop) (hl : Lawful σ g.strip.length Fits)
    (text : Str) :
    ∃ r, fast σ g text start stop = some r ∧ Finds g text start stop 0 r := by
  have hlen := hr.stop_lt
  have hle := hr.le
  have hf₀ : Fits (set1 (clear g.strip.length) start : σ) := hl.fits_set1 start hl.fits_clear
  have hset₀ : ∀ j, isset (set1 (clear g.strip.length) start : σ) j = true ↔
      j = start := fun j => by
    rw [hl.isset_set1 j hl.fits_clear (by omega), hl.isset_clear]
    simp
  obtain ⟨st, hstep, hf, hsteps, hclosed, _⟩ := stepAt_steps hr hl .nothing hf₀
  have hsound : ∀ text j k, isset st j = true → From g text start stop j k := by
    intro text j k
    refine hsteps.least (fun j => From g text start stop j k)
      (fun i j hi hlt hjump h => h.move hi hlt (.inl ⟨hjump, rfl⟩))
      (fun i j _ _ htake => absurd htake not_takes_nothing) (fun j hj => ?_) j
    rw [hset₀] at hj
    exact ⟨k, hj ▸ .refl⟩
  have hstart : isset st start = true := hsteps.keeps start ((hset₀ start).mpr rfl)
  have hentry : ∀ j, Entry g text start stop j 0 → isset st j = true := by
    rintro j (rfl | ⟨i, m, c, hm, _⟩)
    · exact hstart
    · omega
  obtain ⟨r, hrun, hfinds⟩ := fastLoop_finds (p := 0) hr hl hf ⟨hclosed, hstart, hsound⟩
    (List.drop_zero (l := text)) (Nat.zero_le _) hf
    ⟨hclosed, fun j => hsound text j 0, fun _ => hentry⟩
  refine ⟨r, ?_, hfinds⟩
  have hprev : prev text 0 = none := rfl
  rw [hprev] at hrun
  simp [fast, hstep, hrun]

end Calls

end Spegla.Regex
