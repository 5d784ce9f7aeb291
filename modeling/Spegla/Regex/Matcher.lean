import Spegla.Regex.Must

/-!
# What a pattern matches

- `regcomp_compiled`: what `regcomp` makes of a pattern is the code of an expression for which the
  pattern stands.
- `Ere.Matches`: an expression matches some part of a text.
- `Ere.Plain`: the anchors of an expression are those `fast` allows for.
- `regexec_tells`: `regexec` tells whether the expression of the pattern matches.
- `small_large`: the size of the sets of states changes nothing.
- `matcher_must`: neither does the test for a string that must be there.
-/

namespace Spegla.Regex

open CString Blocks Relation

/-! ## What `regcomp` has made -/

/-- The program of an expression. -/
structure Compiled (g : Guts) (e : Ere) : Prop where
  strip : g.strip = .oEnd :: (e.code ++ [.oEnd])
  firststate : g.firststate = 0
  laststate : g.laststate = 1 + e.code.length
  bad : g.bad = false
  nbol : g.nbol = e.count .bol
  neol : g.neol = e.count .eol
  bounded : e.Bounded
  must : ∀ w ∈ g.must, ∀ text k, From g text 1 (1 + e.code.length) (1 + e.code.length) k →
    seesMust w text = true

/-- The pattern has been read to its end, and neither `findmust` nor `pluscount` objects. -/
theorem regcomp_compiled {pattern : Str} {g : Guts} (hp : ∀ c ∈ pattern, IsByte c)
    (h : regcomp pattern = .ok g) : ∃ e, Derives g.sets .ere pattern e ∧ Compiled g e := by
  obtain ⟨p, hrun, h⟩ := bind_ok h
  -- `p_ere` with `OUT` as its end does not stop before the end of the text
  obtain ⟨e, hwritten, hstop⟩ := pEre_written (pattern.length + 1) (by exact hp) hrun
  obtain ⟨s, hs, hderives⟩ := hwritten.text
  have hnext : p.next = [] := by
    rcases hstop with hnil | ⟨c, -, hc⟩
    · exact hnil
    · cases hc
  have hpattern : s = pattern := by
    rw [hnext, List.append_nil] at hs
    exact hs.symm
  have hstrip : (p.emit .oEnd).strip = .oEnd :: (e.code ++ [.oEnd]) := by
    show p.strip ++ [.oEnd] = _
    rw [hwritten.strip]
    rfl
  have hbol : p.nbol = e.count .bol := hwritten.nbol.trans (Nat.zero_add _)
  have heol : p.neol = e.count .eol := hwritten.neol.trans (Nat.zero_add _)
  obtain ⟨must, hmust, hsees⟩ := findmust_spec e
  have hcount := pluscount_code e
  rw [← hstrip] at hmust hcount
  simp only [hmust, hcount] at h
  cases h
  refine ⟨e, hpattern ▸ hderives, hstrip, rfl, ?_, rfl, hbol, heol, hwritten.bounded, ?_⟩
  · show Parse.here _ - 1 = _
    rw [Parse.here, hstrip]
    simp
    omega
  · intro w hw text k hfrom
    exact hsees w hw _ text k hstrip hfrom

section Compiled

variable {g : Guts} {e : Ere} {text : Str}

/-- The code stands behind the first `OEND`, and in front of the last one. -/
theorem Compiled.at (h : Compiled g e) : At g.strip 1 (e.code ++ [.oEnd]) := by
  intro i s hs
  rw [h.strip, Nat.add_comm]
  simpa using hs

/-- `step` can go through the strip. -/
theorem Compiled.ready (h : Compiled g e) : Ready g.strip 1 (1 + e.code.length) where
  le := Nat.le_add_right ..
  stop_lt := by
    rw [h.strip]
    simp
    omega
  op := (e.denotes [] [] h.bounded).ready g.strip 1 h.at.append.1

/-- The runs of the strip are the parts of the text that the expression matches. -/
theorem Compiled.from_iff (h : Compiled g e) {k : ℕ} :
    From g text 1 (1 + e.code.length) (1 + e.code.length) k ↔ ∃ i, e.Spans g.sets text i k :=
  exists_congr fun i => ((e.denotes g.sets text h.bounded).block g 1 rfl h.at.append.1).runs i k

end Compiled

/-! ## What an expression matches -/

/-- Some part of the text matches. -/
def Ere.Matches (sets : List Cset) (text : Str) (e : Ere) : Prop :=
  ∃ i j, i ≤ j ∧ j ≤ text.length ∧ e.Spans sets text i j

/-- An operator reads forward. -/
theorem Reads.le {sets : List Cset} {text : Str} {s : Sop} {i j : ℕ} (h : Reads sets text s i j) :
    i ≤ j := by
  cases s <;> simp only [Reads] at h <;> omega

/-- So does an expression. -/
theorem Ere.Spans.le {sets : List Cset} {text : Str} {e : Ere} {i j : ℕ}
    (h : e.Spans sets text i j) : i ≤ j := by
  induction e generalizing i j with
  | atom a => exact Reads.le h
  | empty => exact (show i = j from h).le
  | group no e ih => exact ih h
  | cat e f ihe ihf =>
    obtain ⟨k, hk, hj⟩ := h
    exact (ihe hk).trans (ihf hj)
  | alt e f ihe ihf =>
    rcases h with h | h
    · exact ihe h
    · exact ihf h
  | star e ih =>
    induction h with
    | refl => exact le_rfl
    | tail _ hlast ih' => exact ih'.trans (ih hlast)
  | plus e ih =>
    induction h with
    | single hone => exact ih hone
    | tail _ hlast ih' => exact ih'.trans (ih hlast)
  | quest e ih =>
    rcases h with h | h
    · exact ih h
    · exact h.le
  | bound e m n ih =>
    obtain ⟨k, -, -, hk⟩ := h
    clear m n
    induction k generalizing i with
    | zero => exact (show i = j from hk).le
    | succ k ih' =>
      -- once, and then `k` times
      obtain ⟨l, hl, hj⟩ := hk
      exact (ih hl).trans (ih' hj)

/-! ## Anchors of an expression -/

/-- No bound repeats the atom. -/
def Ere.Once (a : Atom) : Ere → Prop
  | .atom _ | .empty => True
  | .group _ e | .star e | .plus e | .quest e => e.Once a
  | .cat e f | .alt e f => e.Once a ∧ f.Once a
  | .bound e _ _ => e.count a = 0 ∧ e.Once a

/-- The anchors are those that `fast` allows for: no bound repeats one, and a word boundary stands
in the expression once, and not beside the ends of the text. -/
structure Ere.Plain (e : Ere) : Prop where
  bol : e.Once .bol
  eol : e.Once .eol
  bow : e.Once .bow
  eow : e.Once .eow
  bow_one : e.count .bow ≤ 1
  eow_one : e.count .eow ≤ 1
  apart : (e.count .bol = 0 ∧ e.count .eol = 0) ∨ (e.count .bow = 0 ∧ e.count .eow = 0)

/-- The operators that structure a strip. -/
def Sop.joins : Sop → Bool
  | .oLparen _ | .oRparen _ | .oPlus_ _ | .o_Plus _ | .oQuest_ _ | .o_Quest _ | .oCh_ _ | .oOr1 _
  | .oOr2 _ | .o_Ch _ => true
  | _ => false

/-- No atom joins parts. -/
theorem Atom.joins (a : Atom) : a.sop.joins = false := by
  cases a <;> rfl

/-- Atoms are told apart by their operators. -/
theorem Atom.sop_inj {a b : Atom} (h : a.sop = b.sop) : a = b := by
  cases a <;> cases b <;> simp_all [Atom.sop]

section Count

variable {a : Atom}

theorem count_joins {s : Sop} (hs : s.joins = true) (l : List Sop) :
    (s :: l).count a.sop = l.count a.sop := by
  rw [List.count_cons_of_ne]
  rintro rfl
  rw [a.joins] at hs
  cases hs

/-- Alternatives have the atoms of their branches. -/
theorem count_altTail (back : ℕ) (cs : List (List Sop)) :
    (altTail back cs).count a.sop = (cs.map (List.count a.sop)).sum := by
  induction cs generalizing back with
  | nil => rfl
  | cons c cs ih =>
    cases cs with
    | nil =>
      rw [altTail, count_joins rfl, count_joins rfl, List.count_append, count_joins rfl]
      simp
    | cons d cs =>
      rw [altTail, count_joins rfl, count_joins rfl, List.count_append, ih]
      simp

theorem count_altCode (cs : List (List Sop)) :
    (altCode cs).count a.sop = (cs.map (List.count a.sop)).sum := by
  match cs with
  | [] => rfl
  | [c] => simp [altCode]
  | c :: d :: cs =>
    rw [altCode, count_joins rfl, List.count_append, count_altTail]
    simp

/-- What joins parts is none of the atoms. -/
theorem count_between {s t : Sop} (hs : s.joins = true) (ht : t.joins = true) (c : List Sop) :
    (s :: (c ++ [t])).count a.sop = c.count a.sop := by
  rw [count_joins hs, List.count_append, count_joins ht]
  simp

theorem count_plusCode (c : List Sop) : (plusCode c).count a.sop = c.count a.sop :=
  count_between rfl rfl c

theorem count_starCode (c : List Sop) : (starCode c).count a.sop = c.count a.sop :=
  (count_between rfl rfl _).trans (count_plusCode c)

theorem count_questCode (c : List Sop) : (questCode c).count a.sop = c.count a.sop := by
  simp [questCode, count_altCode]

theorem count_upTo {c : List Sop} (hc : c.count a.sop = 0) (n : ℕ) :
    (upTo c n).count a.sop = 0 := by
  induction n using upTo.induct with
  | case1 => rfl
  | case2 => exact hc
  | case3 n ih => rw [upTo, List.count_append, count_questCode, hc, ih]

theorem count_fromOne {c : List Sop} (hc : c.count a.sop = 0) (n : ℕ) :
    (fromOne c n).count a.sop = 0 := by
  unfold fromOne
  split
  · rw [count_plusCode, hc]
  · exact count_upTo hc n

theorem count_copies {c : List Sop} (hc : c.count a.sop = 0) (n : ℕ) :
    (copies c n).count a.sop = 0 := by
  induction n with
  | zero => rfl
  | succ n ih =>
    rw [copies, List.replicate_succ, List.flatten_cons, List.count_append, hc, Nat.zero_add]
    exact ih

/-- An atom that is not in a part is in none of its copies. -/
theorem count_boundCode {c : List Sop} (hc : c.count a.sop = 0) (m n : ℕ) :
    (boundCode c m n).count a.sop = 0 := by
  unfold boundCode
  split
  · split
    · rfl
    · rw [count_questCode, count_fromOne hc]
  · rw [List.count_append, count_copies hc, count_fromOne hc]

/-- An atom that no bound repeats stands in the strip as often as in the expression. -/
theorem Ere.count_code {e : Ere} (h : e.Once a) : e.code.count a.sop = e.count a := by
  suffices hparts : (e.parts.map (List.count a.sop)).sum = e.count a by
    rw [Ere.code, count_altCode, hparts]
  induction e with
  | atom b =>
    by_cases hb : b = a
    · simp [Ere.parts, Ere.count, hb]
    · have : b.sop ≠ a.sop := fun h => hb (Atom.sop_inj h)
      simp [Ere.parts, Ere.count, hb, this]
  | empty => rfl
  | group no e ih =>
    have hbody : (.oLparen no :: (altCode e.parts ++ [.oRparen no])).count a.sop =
        (altCode e.parts).count a.sop := count_between rfl rfl _
    simp [Ere.parts, Ere.count, hbody, count_altCode, ih h]
  | cat e f ihe ihf => simp [Ere.parts, Ere.count, count_altCode, ihe h.1, ihf h.2]
  | alt e f ihe ihf => simp [Ere.parts, Ere.count, count_altCode, ihe h.1, ihf h.2]
  | star e ih => simp [Ere.parts, Ere.count, count_starCode, count_altCode, ih h]
  | plus e ih => simp [Ere.parts, Ere.count, count_plusCode, count_altCode, ih h]
  | quest e ih => simp [Ere.parts, Ere.count, count_questCode, count_altCode, ih h]
  | bound e m n ih =>
    have hzero : (altCode e.parts).count a.sop = 0 := by rw [count_altCode, ih h.2, h.1]
    simp [Ere.parts, Ere.count, count_boundCode hzero, h.1]

end Count

/-- The strip has an atom as often as the expression. -/
theorem Compiled.count {g : Guts} {e : Ere} (h : Compiled g e) {a : Atom} (ha : e.Once a) :
    g.strip.count a.sop = e.count a := by
  have hend : a.sop ≠ .oEnd := by cases a <;> simp [Atom.sop]
  rw [h.strip, List.count_cons_of_ne hend.symm, List.count_append, List.count_singleton,
    if_neg (by simpa using hend.symm), e.count_code ha]
  rfl

/-- A plain expression compiles to code with its anchors counted. -/
theorem Compiled.anchored {g : Guts} {e : Ere} (h : Compiled g e) (hp : e.Plain) : Anchored g where
  bol := by
    rw [h.nbol]
    exact (h.count hp.bol).le
  eol := by
    rw [h.neol]
    exact (h.count hp.eol).le
  bow := (h.count hp.bow).le.trans hp.bow_one
  eow := (h.count hp.eow).le.trans hp.eow_one
  apart := by
    have hnot : ∀ a : Atom, e.Once a → e.count a = 0 → a.sop ∉ g.strip := fun a ha hzero =>
      List.count_eq_zero.mp ((h.count ha).trans hzero)
    rcases hp.apart with ⟨hbol, heol⟩ | ⟨hbow, heow⟩
    · exact .inl ⟨hnot .bol hp.bol hbol, hnot .eol hp.eol heol⟩
    · exact .inr ⟨hnot .bow hp.bow hbow, hnot .eow hp.eow heow⟩

/-! ## What `regexec` returns -/

/-- A result of `matcher`: it ends, a match is one, and with plain anchors none is missed. -/
structure Tells (sets : List Cset) (text : Str) (e : Ere) (r : Option Errno) : Prop where
  ends : r = some .success ∨ r = some .REG_NOMATCH
  sound : r = some .success → e.Matches sets text
  complete : e.Plain → e.Matches sets text → r = some .success

section Matcher

variable {σ : Type} [States σ] {Fits : σ → Prop} {g : Guts} {e : Ere}

/-- The matcher searches for the literal first, and runs the machine only where it is there. -/
theorem matcher_eq {text : Str} {stop : ℕ} {r : Option ℕ} (hfirst : g.firststate = 0)
    (hlast : g.laststate = stop) (hfast : fast σ g text 1 stop = some r) :
    matcher σ g text = if (g.must.any fun must => !seesMust must text) = true then some .REG_NOMATCH
      else some (if r = none then .REG_NOMATCH else .success) := by
  unfold matcher
  rw [hfirst, hlast, Nat.zero_add, hfast]
  split
  · rfl
  · cases r <;> rfl

/-- Without the string there is no run at all. -/
theorem Compiled.no_match (h : Compiled g e) {text : Str}
    (hmust : (g.must.any fun must => !seesMust must text) = true) {i j : ℕ} :
    ¬e.Spans g.sets text i j := by
  intro hspans
  obtain ⟨w, hw, hno⟩ := (Option.any_eq_true ..).mp hmust
  rw [h.must w hw text j (h.from_iff.mpr ⟨i, hspans⟩)] at hno
  cases hno

/-- **Either matcher** tells whether the expression matches. -/
theorem matcher_tells (hl : Lawful σ g.strip.length Fits) (h : Compiled g e) (text : Str) :
    Tells g.sets text e (matcher σ g text) := by
  obtain ⟨r, hfast, hfinds⟩ := fast_finds h.ready hl text
  rw [matcher_eq h.firststate h.laststate hfast]
  -- the search is only asked where the string that must be there has been seen
  by_cases hmust : (g.must.any fun must => !seesMust must text) = true
  · rw [if_pos hmust]
    refine ⟨.inr rfl, fun h => by simp at h, ?_⟩
    rintro - ⟨i, j, -, -, hspans⟩
    exact absurd hspans (h.no_match hmust)
  · rw [if_neg hmust]
    cases r with
    | none =>
      refine ⟨.inr rfl, fun h => by simp at h, ?_⟩
      rintro hp ⟨i, j, -, hj, hspans⟩
      have hnone := hfinds.all (h.anchored hp) rfl j (Nat.zero_le _) hj
      exact absurd (h.from_iff.mpr ⟨i, hspans⟩) hnone
    | some last =>
      obtain ⟨k, -, -, hk, hfrom⟩ := hfinds.ends last rfl
      obtain ⟨i, hi⟩ := h.from_iff.mp hfrom
      exact ⟨.inl rfl, fun _ => ⟨i, k, hi.le, hk, hi⟩, fun _ _ => rfl⟩

end Matcher

/-- **`regexec`** tells, with the matcher it takes. -/
theorem regexec_tells {g : Guts} {e : Ere} (h : Compiled g e) (text : Str) :
    Tells g.sets text e (regexec g text) := by
  unfold regexec
  rw [if_neg (by simp [h.bad])]
  split
  · rename_i hlen
    exact matcher_tells (lawful_small hlen) h text
  · exact matcher_tells (lawful_large _) h text

/-! ## The two versions of the engine -/

/-- Where the anchors are plain, both versions of `engine.c` find the same. -/
theorem small_large {pattern : Str} {g : Guts} (hp : ∀ c ∈ pattern, IsByte c)
    (h : regcomp pattern = .ok g) (hlen : g.strip.length ≤ 64) :
    ∃ e, Derives g.sets .ere pattern e ∧
      (e.Plain → ∀ text, matcher Small g text = matcher Large g text) := by
  obtain ⟨e, hderives, hcompiled⟩ := regcomp_compiled hp h
  refine ⟨e, hderives, fun hplain text => ?_⟩
  have hsmall := matcher_tells (lawful_small hlen) hcompiled text
  have hlarge := matcher_tells (lawful_large _) hcompiled text
  by_cases hm : e.Matches g.sets text
  · rw [hsmall.complete hplain hm, hlarge.complete hplain hm]
  · rw [hsmall.ends.resolve_left fun heq => hm (hsmall.sound heq),
      hlarge.ends.resolve_left fun heq => hm (hlarge.sound heq)]

theorem small_large_alternatives :
    ∃ g, regcomp ['a', '|', '^', 'b', '+'] = .ok g ∧
      ∃ e, Derives g.sets .ere ['a', '|', '^', 'b', '+'] e ∧
        (e.Plain → ∀ text, matcher Small g text = matcher Large g text) :=
  ⟨_, rfl, small_large (by simp [IsByte]) rfl (by decide)⟩

/-- Where a bound repeats an anchor, they do not: `(^){2}a` asks for two anchors and `nbol` is 1. -/
example :
    ((regcomp "(^)\x7b2\x7da".toList).toOption.map fun g =>
        (matcher Small g ['a'], matcher Large g ['a'])) =
      some (some .REG_NOMATCH, some .success) := by
  decide +kernel

/-! ## The string that must be there -/

section Must

variable {σ : Type} [States σ] (g : Guts) (m : Option Str)

/-- A pass of the machine does not look at the literal. -/
theorem stepFrom_must {stop : ℕ} {bef : σ → σ} {ch : Ch} (fuel pc : ℕ) (aft : σ) :
    stepFrom { g with must := m } stop bef ch fuel pc aft = stepFrom g stop bef ch fuel pc aft := by
  induction fuel generalizing pc aft with
  | zero => rfl
  | succ fuel ih =>
    have hop : ∀ s, stepOp { g with must := m } bef ch pc aft s = stepOp g bef ch pc aft s :=
      fun s => rfl
    simp only [stepFrom, hop, ih]

theorem stepAt_must {start stop : ℕ} {flag : Ch} (st : σ) :
    stepAt { g with must := m } start stop flag st = stepAt g start stop flag st :=
  stepFrom_must ..

theorem stepTimes_must {start stop : ℕ} {flag : Ch} (n : ℕ) (st : σ) :
    stepTimes { g with must := m } start stop flag n st = stepTimes g start stop flag n st := by
  induction n generalizing st with
  | zero => rfl
  | succ n ih => simp only [stepTimes, stepAt_must, ih]

theorem anchors_must {start stop : ℕ} {lastc c : Option Char} (st : σ) :
    anchors { g with must := m } start stop lastc c st = anchors g start stop lastc c st := by
  have hcount : anchorCount { g with must := m } lastc c = anchorCount g lastc c := rfl
  simp only [anchors, hcount, stepTimes_must, stepAt_must]

theorem fastLoop_must {start stop p : ℕ} {fresh : σ} {lastc : Option Char} (rest : Str) (st : σ) :
    fastLoop { g with must := m } start stop fresh lastc rest p st =
      fastLoop g start stop fresh lastc rest p st := by
  induction rest generalizing lastc p st with
  | nil => rw [fastLoop, fastLoop, anchors_must]
  | cons c rest ih =>
    have hstep : ∀ st : σ, step { g with must := m } start stop (fun _ => st) (.char c) fresh =
        step g start stop (fun _ => st) (.char c) fresh := fun st => stepFrom_must ..
    rw [fastLoop, fastLoop, anchors_must]
    simp only [hstep, ih]

/-- `fast` does not look at the string. -/
theorem fast_must (text : Str) (start stop : ℕ) :
    fast σ { g with must := m } text start stop = fast σ g text start stop := by
  simp only [fast, stepAt_must, fastLoop_must]

end Must

/-- Where the literal is one that every match has, it changes no result. -/
theorem matcher_must {σ : Type} [States σ] {Fits : σ → Prop} {g : Guts} {e : Ere}
    (hl : Lawful σ g.strip.length Fits) (h : Compiled g e) (text : Str) :
    matcher σ { g with must := none } text = matcher σ g text := by
  obtain ⟨r, hfast, hfinds⟩ := fast_finds h.ready hl text
  have hplain := (fast_must (σ := σ) g none text 1 (1 + e.code.length)).trans hfast
  rw [matcher_eq h.firststate h.laststate hfast,
    matcher_eq (g := { g with must := none }) h.firststate h.laststate hplain]
  by_cases hmust : (g.must.any fun must => !seesMust must text) = true
  · -- the search does not find anything, either
    have hnone : r = none := by
      by_contra hr
      obtain ⟨last, rfl⟩ := Option.ne_none_iff_exists'.mp hr
      obtain ⟨k, -, -, -, hfrom⟩ := hfinds.ends last rfl
      obtain ⟨i, hi⟩ := h.from_iff.mp hfrom
      exact h.no_match hmust hi
    rw [if_pos hmust, hnone]
    rfl
  · rw [if_neg hmust]
    rfl

end Spegla.Regex
