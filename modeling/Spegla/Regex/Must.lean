import Spegla.Regex.Parser

/-!
# What is read off the finished strip

- `Scans`: how `findmust` goes over the code of an expression.
- `findmust_spec`: `findmust` finds no strip of an expression to be `BAD`, and every text with a run
  in it contains the string it returns, so that the test for it in `matcher` never hides a match.
- `pluscount_code`: neither does `pluscount`.
-/

namespace Spegla.Regex

open CString Blocks Relation

/-! ## Going over the code -/

/-- The operators that `findmust` skips with what belongs to them. -/
def Sop.opens : Sop → Bool
  | .oCh_ _ | .oQuest_ _ => true
  | _ => false

/-- `findmust` gets from `p` to `q`, without anything in between from which a run could get further.
-/
inductive Scans (strip : List Sop) : ℕ → ℕ → Prop
  | done (p : ℕ) : Scans strip p p
  | single {p q : ℕ} {s : Sop} (hs : strip[p]? = some s) (hopens : s.opens = false)
    (hend : s ≠ .oEnd)
    (hjumps : ∀ j, Jumps strip p j → j ≤ p + 1) (h : Scans strip (p + 1) q) : Scans strip p q
  | skip {p o q : ℕ} {s : Sop} (hs : strip[p]? = some s) (hopens : s.opens = true)
    (hto : skipTo strip strip.length p s = some o) (hlt : p < o)
    (hjumps : ∀ i j, p ≤ i → i < o → Jumps strip i j → j ≤ o) (h : Scans strip o q) :
    Scans strip p q

theorem Scans.trans {strip : List Sop} {p q r : ℕ} (h : Scans strip p q) (h' : Scans strip q r) :
    Scans strip p r := by
  induction h with
  | done => exact h'
  | single hs hopens hend hjumps _ ih => exact .single hs hopens hend hjumps (ih h')
  | skip hs hopens hto hlt hjumps _ ih => exact .skip hs hopens hto hlt hjumps (ih h')

/-- `findmust` gets over the code, and the code does not jump further than to its end. -/
def Scanned (c : List Sop) : Prop :=
  ∀ strip p, At strip p c → Scans strip p (p + c.length) ∧
    ∀ i j, p ≤ i → i < p + c.length → Jumps strip i j → j ≤ p + c.length

theorem Scanned.nil : Scanned [] := fun _ p _ => ⟨.done p, fun i j hp hlt => by simp at hlt; omega⟩

theorem Scanned.append {c d : List Sop} (hc : Scanned c) (hd : Scanned d) : Scanned (c ++ d) := by
  intro strip p hat
  obtain ⟨hscan, hjumps⟩ := hc strip p hat.append.1
  obtain ⟨hscan', hjumps'⟩ := hd strip _ hat.append.2
  rw [List.length_append, ← Nat.add_assoc]
  refine ⟨hscan.trans hscan', fun i j hp hlt hj => ?_⟩
  rcases lt_or_ge i (p + c.length) with h | h
  · have := hjumps i j hp h hj
    omega
  · exact hjumps' i j h hlt hj

/-- An operator from which it only goes on. -/
theorem Scanned.op {s : Sop} (hopens : s.opens = false) (hend : s ≠ .oEnd)
    (hjumps : ∀ strip p, ∀ j ∈ jumps strip p s, j ≤ p + 1) : Scanned [s] := by
  intro strip p hat
  have hs := hat.singleton
  have hle : ∀ j, Jumps strip p j → j ≤ p + 1 := fun j hj => hjumps strip p j ((jumps_iff hs).mp hj)
  refine ⟨.single hs hopens hend hle (.done _), fun i j hp hlt hj => ?_⟩
  obtain rfl : i = p := by simp at hlt; omega
  exact hle j hj

theorem Scanned.atom (a : Atom) : Scanned [a.sop] :=
  .op (by cases a <;> rfl) (by cases a <;> simp [Atom.sop]) (by cases a <;> simp [Atom.sop, jumps])

/-- A group is scanned as its inner part. -/
theorem Scanned.group {c : List Sop} (no : ℕ) (h : Scanned c) :
    Scanned (.oLparen no :: (c ++ [.oRparen no])) :=
  Scanned.append (c := [.oLparen no]) (.op rfl (by simp) (by simp [jumps]))
    (h.append (.op rfl (by simp) (by simp [jumps])))

/-- The loop of a repetition is scanned once. -/
theorem Scanned.plus {c : List Sop} (h : Scanned c) : Scanned (plusCode c) := by
  refine Scanned.append (c := [.oPlus_ _]) (.op rfl (by simp) (by simp [jumps])) (h.append ?_)
  refine .op rfl (by simp) fun strip p j hj => ?_
  simp [jumps] at hj
  omega

/-- What stands between an operator that is skipped and the one that it is skipped to. -/
theorem Scans.enclosed {strip : List Sop} {p o : ℕ} {s t : Sop} (hs : strip[p]? = some s)
    (hopens : s.opens = true) (hto : skipTo strip strip.length p s = some o) (hlt : p < o)
    (hinner : ∀ i j, p ≤ i → i < o → Jumps strip i j → j ≤ o) (ht : strip[o]? = some t)
    (htopens : t.opens = false) (hend : t ≠ .oEnd) (hjumps : ∀ j ∈ jumps strip o t, j ≤ o + 1) :
    Scans strip p (o + 1) ∧ ∀ i j, p ≤ i → i < o + 1 → Jumps strip i j → j ≤ o + 1 := by
  have hlast : ∀ j, Jumps strip o j → j ≤ o + 1 := fun j hj => hjumps j ((jumps_iff ht).mp hj)
  refine ⟨.skip hs hopens hto hlt hinner (.single ht htopens hend hlast (.done _)),
    fun i j hp hle hj => ?_⟩
  rcases (Nat.lt_succ_iff.mp hle).eq_or_lt with rfl | hin
  · exact hlast j hj
  · exact (hinner i j hp hin hj).trans (Nat.le_succ o)

/-- A part that may be left out is jumped over. -/
theorem Scanned.star {c : List Sop} (h : Scanned (plusCode c)) : Scanned (starCode c) := by
  intro strip p hat
  obtain ⟨hfst, hrest⟩ := hat.cons
  obtain ⟨hbody, hlast⟩ := hrest.append
  replace hlast := hlast.singleton
  obtain ⟨-, hjumps⟩ := h strip _ hbody
  have hgo : p + ((plusCode c).length + 1) = p + 1 + (plusCode c).length := by omega
  have hlen : p + (starCode c).length = p + 1 + (plusCode c).length + 1 := by
    simp [starCode]
    omega
  -- the first operator jumps over the loop, the others stay in it
  have hinner : ∀ i j, p ≤ i → i < p + 1 + (plusCode c).length → Jumps strip i j →
      j ≤ p + 1 + (plusCode c).length := by
    intro i j hp hlt hj
    rcases hp.eq_or_lt with rfl | hgt
    · rw [jumps_iff hfst] at hj
      simp [jumps] at hj
      omega
    · exact hjumps i j hgt hlt hj
  have hskip : skipTo strip strip.length p (.oQuest_ ((plusCode c).length + 1)) =
      some (p + 1 + (plusCode c).length) := by
    have hpos : 0 < strip.length := Nat.zero_lt_of_lt (List.getElem?_eq_some_iff.mp hfst).1
    obtain ⟨fuel, hfuel⟩ : ∃ f, strip.length = f + 1 := ⟨strip.length - 1, by omega⟩
    rw [hfuel]
    simp [skipTo, Sop.opnd, hgo, hlast]
  rw [hlen]
  exact Scans.enclosed hfst rfl hskip (by omega) hinner hlast rfl (by simp) (by simp [jumps])

/-- `findmust` gets from branch to branch. -/
theorem skipTo_altTail {strip : List Sop} {p back : ℕ} {cs : List (List Sop)} (hcs : cs ≠ [])
    (hat : At strip p (altTail back cs)) (fuel : ℕ) (hfuel : cs.length ≤ fuel) :
    ∃ n, strip[p + 1]? = some (.oOr2 n) ∧
      skipTo strip fuel (p + 1) (.oOr2 n) = some (p + (altTail back cs).length - 1) := by
  induction cs generalizing p back fuel with
  | nil => exact absurd rfl hcs
  | cons c cs ih =>
    obtain ⟨fuel, rfl⟩ : ∃ f, fuel = f + 1 := ⟨fuel - 1, by simp at hfuel; omega⟩
    cases cs with
    | nil =>
      obtain ⟨hor2, hrest⟩ := hat.cons.2.cons
      have hend := hrest.append.2.singleton
      have hlen : p + (altTail back [c]).length - 1 = p + 1 + (c.length + 1) := by
        simp [altTail]
        omega
      rw [show p + 1 + 1 + c.length = p + 1 + (c.length + 1) by omega] at hend
      rw [hlen]
      exact ⟨_, hor2, by simp [skipTo, Sop.opnd, hend]⟩
    | cons d cs =>
      obtain ⟨hor2, hrest⟩ := hat.cons.2.cons
      obtain ⟨n, hnext, hskip⟩ := ih (by simp) hrest.append.2 fuel (by simpa using hfuel)
      have hlen : p + (altTail back (c :: d :: cs)).length - 1 =
          p + 1 + 1 + c.length + (altTail (c.length + 2) (d :: cs)).length - 1 := by
        simp [altTail]
        omega
      rw [hlen]
      refine ⟨_, hor2, ?_⟩
      rw [show p + 1 + 1 + c.length + 1 = p + 1 + (c.length + 2) by omega] at hnext hskip
      simp [skipTo, Sop.opnd, hnext, hskip]

/-- No branch jumps further than to the end of all of them. -/
theorem jumps_le_altTail {strip : List Sop} {p back : ℕ} {cs : List (List Sop)} (hcs : cs ≠ [])
    (hall : ∀ c ∈ cs, Scanned c) (hat : At strip p (altTail back cs)) {i j : ℕ} (hi : p ≤ i)
    (hlt : i < p + (altTail back cs).length - 1) (hj : Jumps strip i j) :
    j ≤ p + (altTail back cs).length - 1 := by
  induction cs generalizing p back with
  | nil => exact absurd rfl hcs
  | cons c cs ih =>
    obtain ⟨hor1, hjumps⟩ := jumps_altTail hcs hat
    have hlong := length_altTail back c cs
    rcases hi.eq_or_lt with rfl | hgt
    · rw [jumps_iff hor1, hjumps] at hj
      exact (List.mem_singleton.mp hj).le
    have hc := hall c (by simp)
    cases cs with
    | nil =>
      obtain ⟨hor2, hrest⟩ := hat.cons.2.cons
      have hlen : p + (altTail back [c]).length - 1 = p + 1 + 1 + c.length := by
        simp [altTail]
        omega
      rw [hlen] at hlt ⊢
      rcases (Nat.succ_le_of_lt hgt).eq_or_lt with rfl | hgt
      · rw [jumps_iff hor2] at hj
        simp [jumps] at hj
        split at hj <;> simp at hj <;> omega
      · exact (hc strip _ hrest.append.1).2 i j hgt hlt hj
    | cons d cs =>
      obtain ⟨hor2, hrest⟩ := hat.cons.2.cons
      have hlen : p + (altTail back (c :: d :: cs)).length - 1 =
          p + 1 + 1 + c.length + (altTail (c.length + 2) (d :: cs)).length - 1 := by
        simp [altTail]
        omega
      have hmore := length_altTail (c.length + 2) d cs
      rw [hlen] at hlt ⊢
      rcases (Nat.succ_le_of_lt hgt).eq_or_lt with rfl | hgt
      · rw [jumps_iff hor2] at hj
        simp [jumps] at hj
        split at hj <;> simp at hj <;> omega
      · rcases lt_or_ge i (p + 1 + 1 + c.length) with hin | hout
        · have := (hc strip _ hrest.append.1).2 i j hgt hin hj
          omega
        · exact ih (by simp) (fun c hc => hall c (by simp [hc])) hrest.append.2 hout hlt

/-- So are alternatives. -/
theorem Scanned.branches {cs : List (List Sop)} (hcs : cs ≠ []) (hall : ∀ c ∈ cs, Scanned c) :
    Scanned (altCode cs) := by
  match cs, hcs with
  | [c], _ => exact hall c (by simp)
  | c :: d :: cs, _ =>
    intro strip p hat
    obtain ⟨hfst, hrest⟩ := hat.cons
    obtain ⟨hbody, htail⟩ := hrest.append
    have hmore := length_altTail (c.length + 1) d cs
    have hfuel : (d :: cs).length + 1 ≤ strip.length := by
      have := htail.le (List.length_pos_iff.mp (by omega))
      simp
      omega
    obtain ⟨n, hor2, hskip⟩ := skipTo_altTail (by simp) htail (strip.length - 1) (by omega)
    obtain ⟨m, hend, -⟩ := lookCh_altTail (by simp) htail _ le_rfl
    have hlen : p + (altCode (c :: d :: cs)).length =
        p + 1 + c.length + (altTail (c.length + 1) (d :: cs)).length - 1 + 1 := by
      simp [altCode]
      omega
    -- no operator of an alternative jumps behind the last one
    have hinner : ∀ i j, p ≤ i →
        i < p + 1 + c.length + (altTail (c.length + 1) (d :: cs)).length - 1 → Jumps strip i j →
        j ≤ p + 1 + c.length + (altTail (c.length + 1) (d :: cs)).length - 1 := by
      intro i j hp hlt hj
      rcases hp.eq_or_lt with rfl | hgt
      · rw [jumps_iff hfst] at hj
        simp [jumps] at hj
        omega
      rcases lt_or_ge i (p + 1 + c.length) with hin | hout
      · have := (hall c (by simp) strip _ hbody).2 i j hgt hin hj
        omega
      · exact jumps_le_altTail (by simp) (fun c hc => hall c (by simp [hc])) htail hout hlt hj
    have hto : skipTo strip strip.length p (.oCh_ (c.length + 2)) =
        some (p + 1 + c.length + (altTail (c.length + 1) (d :: cs)).length - 1) := by
      obtain ⟨fuel, hf⟩ : ∃ f, strip.length = f + 1 := ⟨strip.length - 1, by omega⟩
      rw [hf, Nat.add_sub_cancel] at hskip
      rw [hf]
      rw [show p + 1 + c.length + 1 = p + (c.length + 2) by omega] at hor2 hskip
      simp [skipTo, Sop.opnd, hor2, hskip]
    rw [hlen]
    exact Scans.enclosed hfst rfl hto (by omega) hinner hend rfl (by simp) (by simp [jumps])

/-- **Every expression is scanned**, by induction on the expression. -/
theorem Ere.scanned (e : Ere) : Scanned e.code :=
  e.code_induct .nil .atom (fun no _ h => h.group no) (fun _ _ hc hd => hc.append hd)
    (fun _ h => h.plus) (fun _ h => h.star) fun _ hcs hall => .branches hcs hall

/-! ## The string that must be there -/

/-- The operators that a literal string is made of. -/
def Sop.passes : Sop → Bool
  | .oChar _ | .oPlus_ _ | .oLparen _ | .oRparen _ => true
  | _ => false

/-- The characters of some operators. -/
def lits (ops : List Sop) : Str := ops.filterMap fun
  | .oChar c => some c
  | _ => none

/-- No run gets past `q` without coming to it. -/
def Bars (strip : List Sop) (q : ℕ) : Prop := ∀ i j, i < q → Jumps strip i j → j ≤ q

/-- A sequence of `n` characters from `a` to before `b`, to whose start every run comes. -/
def IsSequence (strip : List Sop) (a b n : ℕ) : Prop :=
  Bars strip a ∧ ∃ ops, At strip a ops ∧ (∀ s ∈ ops, s.passes = true) ∧ a + ops.length = b ∧
    (lits ops).length = n

theorem At.snoc {strip : List Sop} {p : ℕ} {c : List Sop} {s : Sop} (h : At strip p c)
    (hs : strip[p + c.length]? = some s) : At strip p (c ++ [s]) := by
  intro i t ht
  rcases lt_trichotomy i c.length with hlt | rfl | hgt
  · rw [List.getElem?_append_left hlt] at ht
    exact h i t ht
  · rw [List.getElem?_concat_length] at ht
    rwa [← ht]
  · rw [List.getElem?_eq_none (by simp; omega)] at ht
    cases ht

/-- The sequences of `findmust` before `p`. -/
structure Longest.Right (strip : List Sop) (stop p : ℕ) (l : Longest) : Prop where
  best : 0 < l.mlen → ∃ b ≤ stop, IsSequence strip l.start b l.mlen
  current : 0 < l.newlen → IsSequence strip l.newstart p l.newlen

/-- The longest literal so far stays right where a literal ends. -/
theorem Longest.Right.ended {strip : List Sop} {stop p q : ℕ} {l : Longest}
    (h : l.Right strip stop p) (hp : p ≤ stop) : l.ended.Right strip stop q := by
  unfold Longest.ended
  split
  · rename_i hlt
    exact ⟨fun _ => ⟨p, hp, h.current (by omega)⟩, fun h => absurd h (lt_irrefl 0)⟩
  · exact ⟨h.best, fun h => absurd h (lt_irrefl 0)⟩

/-- It stays right where a literal goes on. -/
theorem Longest.Right.char {strip : List Sop} {stop p : ℕ} {l : Longest} {c : Char}
    (h : l.Right strip stop p) (hbars : Bars strip p) (hs : strip[p]? = some (.oChar c)) :
    Longest.Right strip stop (p + 1)
      { l with newstart := if l.newlen = 0 then p else l.newstart, newlen := l.newlen + 1 } := by
  refine ⟨h.best, fun _ => ?_⟩
  by_cases hn : l.newlen = 0
  · simp only [hn, if_true]
    refine ⟨hbars, [.oChar c], fun i s hi => ?_, by simp [Sop.passes], rfl, rfl⟩
    cases i with
    | zero => simpa [← hi] using hs
    | succ i => simp at hi
  · simp only [if_neg hn]
    obtain ⟨hb, ops, hat, hpass, rfl, hlen⟩ := h.current (by omega)
    refine ⟨hb, ops ++ [.oChar c], hat.snoc hs, ?_, by simp; omega, by simp [lits, ← hlen]⟩
    intro s hmem
    rcases List.mem_append.mp hmem with hmem | hmem
    · exact hpass s hmem
    · rw [List.mem_singleton.mp hmem]
      rfl

/-- It stays right over an operator that has no part in literals. -/
theorem Longest.Right.pass {strip : List Sop} {stop p : ℕ} {l : Longest} {s : Sop}
    (h : l.Right strip stop p) (hs : strip[p]? = some s) (hpass : s.passes = true)
    (hlit : lits [s] = []) : l.Right strip stop (p + 1) := by
  refine ⟨h.best, fun hn => ?_⟩
  obtain ⟨hb, ops, hat, hall, rfl, hlen⟩ := h.current hn
  refine ⟨hb, ops ++ [s], hat.snoc hs, ?_, by simp; omega, ?_⟩
  · intro t hmem
    rcases List.mem_append.mp hmem with hmem | hmem
    · exact hall t hmem
    · rwa [List.mem_singleton.mp hmem]
  · unfold lits at hlit ⊢
    rw [List.filterMap_append, hlit, List.append_nil]
    exact hlen

theorem Scans.le {strip : List Sop} {p q : ℕ} (h : Scans strip p q) : p ≤ q := by
  induction h with
  | done => exact le_rfl
  | single _ _ _ _ _ ih => omega
  | skip _ _ _ _ _ _ ih => omega

/-- **The loop of `findmust`** is right over what is scanned. -/
theorem findLoop_scans {strip : List Sop} {p stop : ℕ} (h : Scans strip p stop)
    (hend : strip[stop]? = some .oEnd) (fuel : ℕ) (hfuel : stop < fuel + p) {l : Longest}
    (hbars : Bars strip p) (hl : l.Right strip stop p) :
    ∃ l', findLoop strip fuel p l = some l' ∧ l'.Right strip stop stop := by
  induction h generalizing fuel l with
  | done p =>
    obtain ⟨fuel, rfl⟩ : ∃ f, fuel = f + 1 := ⟨fuel - 1, by omega⟩
    exact ⟨l.ended, by simp [findLoop, hend], hl.ended le_rfl⟩
  | @single p q s hs hopens hne hjumps hrest ih =>
    -- a character makes the string longer, and what is no character ends it
    obtain ⟨fuel, rfl⟩ : ∃ f, fuel = f + 1 := ⟨fuel - 1, by have := hrest.le; omega⟩
    have hle : p ≤ q := by
      have := hrest.le
      omega
    have hbars' : Bars strip (p + 1) := by
      intro i j hi hj
      rcases (Nat.lt_succ_iff.mp hi).eq_or_lt with rfl | hlt
      · exact hjumps j hj
      · have := hbars i j hlt hj
        omega
    rw [findLoop, hs]
    cases s with
    | oEnd => exact absurd rfl hne
    | oCh_ n => cases hopens
    | oQuest_ n => cases hopens
    | oChar c => exact ih hend fuel (by omega) hbars' (hl.char hbars hs)
    | oPlus_ n => exact ih hend fuel (by omega) hbars' (hl.pass hs rfl rfl)
    | oLparen n => exact ih hend fuel (by omega) hbars' (hl.pass hs rfl rfl)
    | oRparen n => exact ih hend fuel (by omega) hbars' (hl.pass hs rfl rfl)
    | _ => exact ih hend fuel (by omega) hbars' (hl.ended hle)
  | @skip p o q s hs hopens hto hlt hjumps hrest ih =>
    -- nothing of what is skipped need be in the text
    obtain ⟨fuel, rfl⟩ : ∃ f, fuel = f + 1 := ⟨fuel - 1, by have := hrest.le; omega⟩
    have hle : p ≤ q := by
      have := hrest.le
      omega
    have hbars' : Bars strip o := by
      intro i j hi hj
      rcases lt_or_ge i p with hlt' | hge
      · have := hbars i j hlt' hj
        omega
      · exact hjumps i j hge hi hj
    obtain ⟨l', hrun, hright⟩ := ih hend fuel (by omega) hbars' (hl.ended hle)
    refine ⟨l', ?_, hright⟩
    rw [findLoop, hs]
    cases s with
    | oCh_ n => simp [hto, hrun]
    | oQuest_ n => simp [hto, hrun]
    | _ => cases hopens

theorem mustFrom_zero (l : List Sop) : mustFrom l 0 = [] := by
  cases l <;> rfl

theorem mustFrom_cons {s : Sop} (hs : lits [s] = []) (l : List Sop) (n : ℕ) :
    mustFrom (s :: l) n = mustFrom l n := by
  cases n with
  | zero => rw [mustFrom_zero, mustFrom_zero]
  | succ n =>
    cases s with
    | oChar c => cases hs
    | _ => rfl

/-- The characters that `findmust` copies. -/
theorem mustFrom_lits {strip : List Sop} {a : ℕ} {ops : List Sop} (hat : At strip a ops) :
    mustFrom (strip.drop a) (lits ops).length = lits ops := by
  induction ops generalizing a with
  | nil => exact mustFrom_zero _
  | cons s ops ih =>
    obtain ⟨hs, hrest⟩ := hat.cons
    obtain ⟨hlt, hget⟩ := List.getElem?_eq_some_iff.mp hs
    rw [List.drop_eq_getElem_cons hlt, hget]
    cases s with
    | oChar c => exact congrArg (c :: ·) (ih hrest)
    | _ =>
      rw [mustFrom_cons rfl]
      exact ih hrest

/-! ## What a run reads -/

section Runs

variable {g : Guts} {text : Str} {stop j : ℕ}

/-- A run goes through a sequence character by character. -/
theorem prefix_of_run {ops : List Sop} (hpass : ∀ s ∈ ops, s.passes = true) {a i : ℕ}
    (hat : At g.strip a ops) (ha : a + ops.length ≤ stop)
    (hrun : ReflTransGen (Within (Moves g text) 1 stop) (a, i) (stop, j)) :
    lits ops <+: text.drop i := by
  induction ops generalizing a i with
  | nil => exact List.nil_prefix
  | cons s ops ih =>
    obtain ⟨hs, hrest⟩ := hat.cons
    rw [List.length_cons] at ha
    rcases hrun.cases_head with heq | ⟨⟨b, k⟩, hmove, hrun⟩
    · simp only [Prod.mk.injEq] at heq
      omega
    have hm := (moves_iff hs i (b, k)).mp hmove.2.2
    have ih := fun hb : b = a + 1 =>
      ih (fun t ht => hpass t (List.mem_cons_of_mem _ ht)) (i := k) hrest (by omega) (hb ▸ hrun)
    -- an operator of the sequence leads to the next one
    cases s with
    | oChar c =>
      simp only [jumps, List.not_mem_nil, false_and, false_or, Reads] at hm
      obtain ⟨⟨hc, rfl⟩, hb⟩ := hm
      obtain ⟨hlt, hget⟩ := List.getElem?_eq_some_iff.mp hc
      rw [List.drop_eq_getElem_cons hlt, hget]
      exact (List.prefix_cons_inj c).mpr (ih hb)
    | oPlus_ n =>
      simp only [jumps, List.mem_singleton, Reads, false_and, or_false] at hm
      obtain ⟨hb, rfl⟩ := hm
      exact ih hb
    | oLparen n =>
      simp only [jumps, List.mem_singleton, Reads, false_and, or_false] at hm
      obtain ⟨hb, rfl⟩ := hm
      exact ih hb
    | oRparen n =>
      simp only [jumps, List.mem_singleton, Reads, false_and, or_false] at hm
      obtain ⟨hb, rfl⟩ := hm
      exact ih hb
    | _ => exact absurd (hpass _ (List.mem_cons_self ..)) (by simp [Sop.passes])

/-- A path of the automaton cannot go around a place that bars it. -/
theorem stays_of_bars {q : ℕ} (h : Bars g.strip q) : Stays (Moves g text) 0 q := by
  intro x y _ hlt hm
  refine ⟨Nat.zero_le _, ?_⟩
  rcases hm with ⟨hjump, -⟩ | ⟨s, -, -, hy⟩
  · exact h x.1 y.1 hlt hjump
  · omega

/-- A literal that stands somewhere in the text is seen. -/
theorem seesMust_of_prefix {must : Str} (hne : must ≠ []) {k : ℕ} (h : must <+: text.drop k) :
    seesMust must text = true := by
  induction text generalizing k with
  | nil =>
    rw [List.drop_nil] at h
    exact absurd (List.prefix_nil.mp h) hne
  | cons c text ih =>
    rw [seesMust, Bool.or_eq_true]
    cases k with
    | zero =>
      left
      obtain ⟨t, ht⟩ := h
      obtain ⟨d, must, rfl⟩ := List.exists_cons_of_ne_nil hne
      simp only [List.drop_zero, List.cons_append, List.cons.injEq] at ht
      obtain ⟨rfl, rfl⟩ := ht
      simp
    | succ k =>
      right
      exact ih (by simpa using h)

end Runs

/-- `findmust` does not find the strip of an expression to be `BAD`, and every text with a run in it
has the string in it that it returns. -/
theorem findmust_spec (e : Ere) :
    ∃ must, findmust (.oEnd :: (e.code ++ [.oEnd])) = some must ∧
      ∀ w ∈ must, ∀ (g : Guts) (text : Str) (k : ℕ), g.strip = .oEnd :: (e.code ++ [.oEnd]) →
        From g text 1 (1 + e.code.length) (1 + e.code.length) k → seesMust w text = true := by
  have hat : At (.oEnd :: (e.code ++ [.oEnd])) 1 (e.code ++ [.oEnd]) := by
    intro i s hs
    rw [Nat.add_comm]
    simpa using hs
  have hscans := (e.scanned _ 1 hat.append.1).1
  have hbars : Bars (.oEnd :: (e.code ++ [.oEnd])) 1 := by
    intro i j hi hj
    obtain rfl : i = 0 := by omega
    rw [jumps_iff (s := .oEnd) rfl] at hj
    simp [jumps] at hj
  obtain ⟨l, hrun, hright⟩ := findLoop_scans hscans hat.append.2.singleton
    ((.oEnd :: (e.code ++ [.oEnd]) : List Sop).length + 1) (by simp; omega) hbars
    (l := ⟨0, 0, 0, 0⟩) ⟨fun h => absurd h (lt_irrefl 0), fun h => absurd h (lt_irrefl 0)⟩
  refine ⟨_, by rw [findmust, hrun]; rfl, ?_⟩
  intro w hw g text k hg hfrom
  split at hw
  · cases hw
  rename_i hmlen
  obtain rfl := Option.mem_some_iff.mp hw
  obtain ⟨b, hb, hbars, ops, hops, hpass, rfl, hlen⟩ := hright.best (by omega)
  rw [← hlen, mustFrom_lits hops]
  have hne : lits ops ≠ [] := by
    rintro h0
    rw [h0] at hlen
    exact hmlen hlen.symm
  obtain ⟨i, hrun⟩ := hfrom
  rw [← hg] at hbars hops
  -- the first operator of the strip is not part of a sequence
  have hpos : 1 ≤ l.start := by
    obtain ⟨s, ops, rfl⟩ := List.exists_cons_of_ne_nil (show ops ≠ [] by rintro rfl; exact hne rfl)
    by_contra hlt
    have hs := hops.cons.1
    rw [show l.start = 0 by omega, hg] at hs
    have hnot := hpass _ (List.mem_cons_self ..)
    rw [← Option.some_injective _ hs] at hnot
    cases hnot
  obtain ⟨c, -, hafter⟩ := runs_exit (stays_of_bars hbars) ⟨Nat.zero_le _, hpos⟩
    (show l.start ≤ 1 + e.code.length by omega) hrun
  exact seesMust_of_prefix hne (prefix_of_run hpass hops hb hafter)

/-! ## The depth of the loops -/

/-- Behind the code, `pluscount` counts as before. -/
def Counted (c : List Sop) : Prop := ∀ d n m, ∃ m', plusLoop (c ++ d) n m = plusLoop d n m'

theorem Counted.append {c d : List Sop} (hc : Counted c) (hd : Counted d) : Counted (c ++ d) := by
  intro f n m
  obtain ⟨m₁, h₁⟩ := hc (d ++ f) n m
  obtain ⟨m₂, h₂⟩ := hd f n m₁
  exact ⟨m₂, by rw [List.append_assoc, h₁, h₂]⟩

/-- An operator that is not counted. -/
theorem Counted.op {s : Sop} (h : ∀ d n m, plusLoop (s :: d) n m = plusLoop d n m) : Counted [s] :=
  fun d n m => ⟨m, h d n m⟩

theorem Counted.atom (a : Atom) : Counted [a.sop] := by
  cases a <;> exact .op fun _ _ _ => rfl

theorem Counted.between {s t : Sop} {c : List Sop} (hs : Counted [s]) (hc : Counted c)
    (ht : Counted [t]) : Counted (s :: (c ++ [t])) :=
  hs.append (hc.append ht)

theorem Counted.altTail {cs : List (List Sop)} (hall : ∀ c ∈ cs, Counted c) (back : ℕ) :
    Counted (altTail back cs) := by
  induction cs generalizing back with
  | nil => exact fun d n m => ⟨m, rfl⟩
  | cons c cs ih =>
    have hc := hall c (by simp)
    have hor : ∀ n, Counted [.oOr1 back, .oOr2 n] := fun n d k m => ⟨m, rfl⟩
    cases cs with
    | nil => exact (hor _).append (hc.append (.op fun _ _ _ => rfl))
    | cons d cs => exact (hor _).append (hc.append (ih (fun c hc => hall c (by simp [hc])) _))

/-- The pluses of every expression are counted. -/
theorem Ere.counted (e : Ere) : Counted e.code := by
  refine e.code_induct (fun d n m => ⟨m, rfl⟩) Counted.atom
    (fun no c hc => .between (.op fun _ _ _ => rfl) hc (.op fun _ _ _ => rfl))
    (fun _ _ hc hd => hc.append hd) (fun c hc d n m => ?_)
    (fun c hc => .between (.op fun _ _ _ => rfl) hc (.op fun _ _ _ => rfl)) fun cs hcs hall => ?_
  · -- one deeper, and back
    obtain ⟨m', hm'⟩ := hc (.o_Plus (c.length + 1) :: d) (n + 1) m
    refine ⟨max (n + 1) m', ?_⟩
    have hstep :
        plusLoop (.o_Plus (c.length + 1) :: d) (n + 1) m' = plusLoop d n (max (n + 1) m') := by
      rw [plusLoop, add_sub_cancel_right]
    rw [← hstep, ← hm']
    simp [plusCode, plusLoop]
  · cases cs with
    | nil => exact absurd rfl hcs
    | cons c cs =>
      cases cs with
      | nil => exact hall c (by simp)
      | cons d cs =>
        have hch : Counted [.oCh_ (c.length + 2)] := .op fun _ _ _ => rfl
        exact hch.append ((hall c (by simp)).append
          (.altTail (fun c hc => hall c (by simp [hc])) _))

/-- `pluscount` does not find the strip of an expression to be `BAD`. -/
theorem pluscount_code (e : Ere) : (pluscount (.oEnd :: (e.code ++ [.oEnd]))).2 = false := by
  obtain ⟨m, hm⟩ := e.counted [.oEnd] 0 0
  simp [pluscount, hm, plusLoop]

end Spegla.Regex
