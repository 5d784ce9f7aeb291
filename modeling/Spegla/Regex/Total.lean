import Spegla.Regex.Must

/-!
# The parser ends

The loops and the recursion of `regcomp` have a bound in the model, and `regcomp` itself has
assertions. Neither is ever reached.

- `Sure`: a result that is neither.
- `pBracketSet_sure`, `pBound_sure`, `pAtom_sure`, `pEreExp_sure`, `pEre_sure`: the functions of the
  parser, each of which takes from the text what its caller counts.

What this says of `regcomp` is in `Width`.
-/

namespace Spegla.Regex

open CString

/-- Neither an assertion nor a bound of the model. -/
def Sure {α : Type} (x : Except Errno α) : Prop := x ≠ .error .REG_ASSERT

section Sure

variable {α β : Type} {e : Errno}

theorem Sure.ok (a : α) : Sure (.ok a : Except Errno α) := nofun

theorem Sure.error (h : e ≠ .REG_ASSERT) : Sure (.error e : Except Errno α) := by
  intro heq
  cases heq
  exact h rfl

theorem Sure.require {co : Prop} [Decidable co] (h : e ≠ .REG_ASSERT) : Sure (require co e) := by
  unfold Regex.require
  split
  · exact .ok _
  · exact .error h

/-- One part after the other. -/
theorem Sure.bind {x : Except Errno α} {f : α → Except Errno β} (hx : Sure x)
    (hf : ∀ a, x = .ok a → Sure (f a)) : Sure (x >>= f) := by
  cases x with
  | error e =>
    intro heq
    cases heq
    exact hx rfl
  | ok a => exact hf a rfl

end Sure

/-! ## Brackets -/

theorem pBCollElem_sure (next : Str) (endc : Char) : Sure (pBCollElem next endc) := by
  unfold pBCollElem
  simp only
  split
  · exact .error (by decide)
  · split
    · exact .ok _
    · split
      · exact .ok _
      · exact .error (by decide)

theorem mustEatTwo_sure {next : Str} {a b : Char} {e : Errno} (h : e ≠ .REG_ASSERT) :
    Sure (mustEatTwo next a b e) := by
  unfold mustEatTwo
  split
  · split
    · exact .ok _
    · exact .error h
  · exact .error h

theorem pBSymbol_sure (next : Str) : Sure (pBSymbol next) := by
  unfold pBSymbol
  split
  · exact .error (by decide)
  · refine (pBCollElem_sure _ _).bind fun a _ => ?_
    exact (mustEatTwo_sure (by decide)).bind fun _ _ => .ok _
  · exact .ok _

theorem pBFinish_sure (next : Str) (start : Char) : Sure (pBFinish next start) := by
  unfold pBFinish
  split
  · split
    · exact .ok _
    · exact pBSymbol_sure _
  · exact .ok _

/-- A term of a bracket does not trip an assertion. -/
theorem pBTerm_sure (next : Str) (cs : Cset) : Sure (pBTerm next cs) := by
  unfold pBTerm
  split
  · exact .error (by decide)
  · refine (Sure.require (by decide)).bind fun _ _ => (Sure.require (by decide)).bind fun _ _ => ?_
    refine Sure.bind ?_ fun _ _ => (Sure.require (by decide)).bind fun _ _ => ?_
    · unfold pBCclass
      split
      · exact .ok _
      · exact .error (by decide)
    · exact (mustEatTwo_sure (by decide)).bind fun _ _ => .ok _
  · refine (Sure.require (by decide)).bind fun _ _ => (Sure.require (by decide)).bind fun _ _ => ?_
    refine Sure.bind ?_ fun _ _ => (Sure.require (by decide)).bind fun _ _ => ?_
    · exact (pBCollElem_sure _ _).bind fun _ _ => .ok _
    · exact (mustEatTwo_sure (by decide)).bind fun _ _ => .ok _
  · refine (pBSymbol_sure _).bind fun _ _ => (pBFinish_sure _ _).bind fun _ _ => ?_
    exact (Sure.require (by decide)).bind fun _ _ => .ok _

/-- Every turn of the loop takes a term. -/
theorem pBTerms_sure {fuel : ℕ} {next : Str} (hbytes : ∀ c ∈ next, IsByte c)
    (hfuel : next.length < fuel) (cs : Cset) : Sure (pBTerms fuel next cs) := by
  induction fuel generalizing next cs with
  | zero => exact absurd hfuel (Nat.not_lt_zero _)
  | succ fuel ih =>
    unfold pBTerms
    split
    · exact .ok _
    · exact .ok _
    · exact .ok _
    · refine (pBTerm_sure _ _).bind fun a hterm => ?_
      obtain ⟨rest, cs'⟩ := a
      -- the text of the term is what the fuel is counted by
      obtain ⟨s, _, hs, rfl, -⟩ := pBTerm_ok hbytes hterm
      have hpos := List.length_pos_iff.mpr hs
      refine ih (fun c hc => hbytes c (List.mem_append_right _ hc)) ?_ cs'
      simp at hfuel ⊢
      omega

/-- Nor do its terms. -/
theorem pBracketTerms_sure {next : Str} (hbytes : ∀ c ∈ next, IsByte c) :
    Sure (pBracketTerms next) := by
  have hlead : (pBracketLead next).1 <:+ next := by
    unfold pBracketLead
    split
    · exact List.suffix_cons ..
    · exact List.suffix_cons ..
    · exact List.suffix_refl _
  refine Sure.bind (pBTerms_sure (fun c hc => hbytes c (hlead.mem hc)) ?_ _) fun a _ => ?_
  · exact Nat.lt_succ_of_le hlead.length_le
  · obtain ⟨rest, cs⟩ := a
    simp only
    split
    · exact .ok _
    · exact .ok _
    · exact .error (by decide)

/-- Nor does the set that they make. -/
theorem pBracketSet_sure {next : Str} (hbytes : ∀ c ∈ next, IsByte c) :
    Sure (pBracketSet next) := by
  unfold pBracketSet
  split
  · exact (pBracketTerms_sure fun c hc => hbytes c (by simp [hc])).bind fun _ _ => .ok _
  · exact pBracketTerms_sure hbytes

/-- **A bracket** does not trip an assertion. -/
theorem pBracket_sure {p : Parse} (hp : p.Bytes) : Sure (pBracket p) := by
  unfold pBracket
  split
  · exact .ok _
  split
  · exact .ok _
  refine (pBracketSet_sure hp).bind fun a _ => ?_
  simp only
  split
  · exact .ok _
  · exact .ok _

/-! ## Bounds -/

/-- Nor does a number. -/
theorem pCount_sure (next : Str) : Sure (pCount next) := by
  unfold pCount
  simp only
  split
  · exact .ok _
  · exact .error (by decide)

theorem pCount2_sure (next : Str) (count : ℕ) : Sure (pCount2 next count) := by
  unfold pCount2
  split
  · split
    · exact (pCount_sure _).bind fun _ _ => (Sure.require (by decide)).bind fun _ _ => .ok _
    · exact .ok _
  · exact .ok _

/-- Nor does the end of a bound. -/
theorem eatBrace_sure (p : Parse) : Sure (eatBrace p) := by
  unfold eatBrace
  split
  · exact .ok _
  · split
    · exact .error (by decide)
    · exact .error (by decide)

/-- The depth of `repeat` is bounded by the counts. -/
theorem pBound_sure {p : Parse} {s₀ c : List Sop} (hstrip : p.strip = s₀ ++ c) :
    Sure (pBound p s₀.length) := by
  refine (pCount_sure _).bind fun ⟨next, m⟩ hcount => ?_
  refine (pCount2_sure _ _).bind fun ⟨next', n⟩ hcount2 => ?_
  obtain ⟨ds, -, hm⟩ := pCount_ok hcount
  have hdup : m < INFINITY := hm.le.trans_lt (by decide)
  have hmn : m ≤ n ∧ n ≤ INFINITY := by
    rcases pCount2_ok hcount2 with ⟨-, rfl⟩ | ⟨-, rfl⟩ | ⟨_, -, hn, hle⟩
    · exact ⟨le_rfl, hdup.le⟩
    · exact ⟨hdup.le, le_rfl⟩
    · exact ⟨hle, hn.le.trans (by decide)⟩
  obtain ⟨q, hrun, -⟩ :=
    repeat_bound (p := { p with next := next' }) (m + n + 2) hmn.1 hdup hmn.2 (by omega) hstrip
  refine Sure.bind ?_ fun _ _ => eatBrace_sure _
  simp only [hrun]
  exact .ok _

/-- Nor does a repetition, since its bound is one. -/
theorem pRepeat_sure {p : Parse} {s₀ c : List Sop} (hstrip : p.strip = s₀ ++ c) (d : Char) :
    Sure (pRepeat d s₀.length p) := by
  unfold pRepeat
  split
  · exact .ok _
  · exact .ok _
  · exact .ok _
  · exact pBound_sure hstrip

/-! ## Atoms, pieces and branches -/

/-- What a text is derived from is never empty. -/
theorem Derives.ne_nil {sets : List Cset} {nt : Nt} {s : Str} {e : Ere} (h : Derives sets nt s e) :
    s ≠ [] := by
  induction h <;> simp_all

/-- What is read is gone. -/
theorem Goes.shorter {nt : Nt} {p p' : Parse} {e : Ere} (h : Goes nt p p' e) :
    p'.next.length < p.next.length := by
  obtain ⟨s, hs, hderives⟩ := h.text
  have := List.length_pos_iff.mpr hderives.ne_nil
  rw [hs, List.length_append]
  omega

/-- What `p_ere` does in parentheses, on texts up to `n`. -/
def EreSure (ere : Parse → Except Errno Parse) (n : ℕ) : Prop :=
  ∀ p : Parse, p.Bytes → p.next.length ≤ n → Sure (ere p)

/-- An atom does not trip an assertion if the groups in it do not. -/
theorem pAtom_sure {ere : Parse → Except Errno Parse} {p : Parse} (here : EreSure ere p.next.length)
    (hp : p.Bytes) (c : Char) : Sure (pAtom ere c p) := by
  unfold pAtom
  split
  · refine (Sure.require (by decide)).bind fun _ _ => Sure.bind ?_ fun _ _ => ?_
    · unfold unlessClosed
      split
      · exact .ok _
      · exact here _ hp le_rfl
    · exact (Sure.require (by decide)).bind fun _ _ => .ok _
  · exact .error (by decide)
  · exact .ok _
  · exact .ok _
  · exact .error (by decide)
  · exact .error (by decide)
  · exact .error (by decide)
  · exact .error (by decide)
  · exact .ok _
  · exact pBracket_sure hp
  · split
    · exact .error (by decide)
    · exact .ok _
  · split
    · exact .error (by decide)
    · exact .ok _
  · exact .ok _

/-- Nor does an atom with its repetitions. -/
theorem pEreExp_sure {ere : Parse → Except Errno Parse} (hwritten : EreWritten ere) {p : Parse}
    {c : Char} {next : Str} (hnext : p.next = c :: next) (here : EreSure ere next.length)
    (hp : p.Bytes) : Sure (pEreExp ere p) := by
  unfold pEreExp
  rw [hnext]
  have hbytes : Parse.Bytes { p with next := next } := fun d hd => hp d (by simp [hnext, hd])
  refine (pAtom_sure here hbytes c).bind fun q hq => ?_
  split
  · refine (Sure.require (by decide)).bind fun _ _ => Sure.bind ?_ fun _ _ => ?_
    · obtain ⟨e, -, hstrip⟩ := pAtom_written hwritten hbytes hq
      exact pRepeat_sure (p := { q with next := q.next.tail }) hstrip _
    · exact (Sure.require (by decide)).bind fun _ _ => .ok _
  · exact .ok _

section Loops

variable {exp : Parse → Except Errno Parse} {stop : Option Char} {n : ℕ}

/-- What `p_ere_exp` does on texts up to `n`. -/
def ExpSure (exp : Parse → Except Errno Parse) (n : ℕ) : Prop :=
  ∀ p : Parse, p.Bytes → p.next ≠ [] → p.next.length ≤ n → Sure (exp p)

/-- Every turn of the loop takes a piece. -/
theorem pConc_sure (hexp : ExpWritten exp) (hsure : ExpSure exp n) {fuel : ℕ} {p : Parse}
    (hp : p.Bytes) (hn : p.next.length ≤ n) (hfuel : p.next.length < fuel) :
    Sure (pConc exp stop fuel p) := by
  induction fuel generalizing p with
  | zero => exact absurd hfuel (Nat.not_lt_zero _)
  | succ fuel ih =>
    unfold pConc
    split
    · exact .ok _
    · rename_i c next hnext
      split
      · exact .ok _
      · refine (hsure p hp (by simp [hnext]) hn).bind fun q hq => ?_
        obtain ⟨⟨e, hwritten⟩, -⟩ := hexp p q hp hq
        have hshorter := hwritten.toGoes.shorter
        exact ih (hwritten.bytes hp) (by omega) (by omega)

theorem beside_nextBranch (p : Parse) (prev : Option (ℕ × ℕ)) (conc : ℕ) :
    p.Beside (p.nextBranch prev conc).1 := by
  cases prev <;> exact ⟨rfl, rfl, rfl, rfl, rfl⟩

/-- Every turn of the loop takes a branch and a `|`. -/
theorem pAlts_sure (hexp : ExpWritten exp) (hsure : ExpSure exp n) {fuel : ℕ}
    {prev : Option (ℕ × ℕ)} {p : Parse} (hp : p.Bytes) (hn : p.next.length ≤ n)
    (hfuel : p.next.length < fuel) : Sure (pAlts exp stop fuel prev p) := by
  induction fuel generalizing p prev with
  | zero => exact absurd hfuel (Nat.not_lt_zero _)
  | succ fuel ih =>
    unfold pAlts
    refine (pConc_sure hexp hsure hp hn (Nat.lt_succ_self _)).bind fun q hconc => ?_
    refine (Sure.require (by decide)).bind fun _ hne => ?_
    obtain ⟨e, hwritten⟩ := (pConc_written hexp hp hconc).1.resolve_left fun heq =>
      require_ok hne (by rw [heq])
    have hshorter := hwritten.toGoes.shorter
    split
    · rename_i next hnext
      obtain ⟨hsame, -⟩ := beside_nextBranch { q with next := next } prev p.here
      have hlen : next.length < q.next.length := by simp [hnext]
      show Sure (pAlts exp stop fuel (some (Parse.nextBranch { q with next := next } prev p.here).2)
        (Parse.nextBranch { q with next := next } prev p.here).1)
      refine ih (fun c hc => ?_) (by rw [hsame]; simp only; omega) (by rw [hsame]; simp only; omega)
      rw [hsame] at hc
      exact hwritten.bytes hp c (by rw [hnext]; exact List.mem_cons_of_mem _ hc)
    · exact .ok _

end Loops

/-- The depth of `p_ere` is bounded by the length of the text. -/
theorem pEre_sure {fuel : ℕ} {stop : Option Char} {p : Parse} (hp : p.Bytes)
    (hfuel : p.next.length < fuel) : Sure (pEre fuel stop p) := by
  induction fuel generalizing stop p with
  | zero => exact absurd hfuel (Nat.not_lt_zero _)
  | succ fuel ih =>
    have hwritten : EreWritten (pEre fuel (some ')')) := fun q q' hq hrun => by
      obtain ⟨e, hwritten, -⟩ := pEre_written fuel hq hrun
      exact ⟨e, hwritten⟩
    refine pAlts_sure (n := p.next.length) (fun q q' hq hrun =>
      ⟨pEreExp_written hwritten hq hrun, pEreExp_brace hrun⟩) (fun q hq hne hlen => ?_) hp le_rfl
      (Nat.lt_succ_self _)
    obtain ⟨c, next, hnext⟩ := List.exists_cons_of_ne_nil hne
    refine pEreExp_sure hwritten hnext (fun r hr hlen' => ih hr ?_) hq
    rw [hnext] at hlen
    simp at hlen
    omega

end Spegla.Regex
