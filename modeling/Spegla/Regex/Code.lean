import Spegla.Regex.Compile
import Spegla.Regex.Search

/-!
# Expressions and their code

- `Atom`, `Ere`: extended regular expressions; `Ere.Spans`: the parts of a text they match, which is
  what they mean.
- `altCode`, `plusCode`, `starCode`, `boundCode`, `Ere.code`: the strip of an expression.
- `Denotes`: a strip that does what a relation between places says, wherever it stands.
- `Ere.denotes`: the strip of an expression matches what the expression matches.
-/

namespace Spegla.Regex

open CString Blocks Relation

/-! ## Expressions -/

/-- What an expression is made of: one operator each. -/
inductive Atom where
  | char (c : Char)
  | any
  | anyOf (set : ℕ)
  | bol
  | eol
  | bow
  | eow
  deriving DecidableEq, Repr

def Atom.sop : Atom → Sop
  | .char c => .oChar c
  | .any => .oAny
  | .anyOf n => .oAnyOf n
  | .bol => .oBol
  | .eol => .oEol
  | .bow => .oBow
  | .eow => .oEow

/-- Extended regular expressions, with the numbers of their parentheses. -/
inductive Ere where
  | atom (a : Atom)
  | empty
  | group (no : ℕ) (e : Ere)
  | cat (e f : Ere)
  | alt (e f : Ere)
  | star (e : Ere)
  | plus (e : Ere)
  | quest (e : Ere)
  | bound (e : Ere) (count count2 : ℕ)
  deriving DecidableEq, Repr

/-- The part of a text between two places matches. -/
def Ere.Spans (sets : List Cset) (text : Str) : Ere → ℕ → ℕ → Prop
  | .atom a => Reads sets text a.sop
  | .empty => Eq
  | .group _ e => e.Spans sets text
  | .cat e f => Relation.Comp (e.Spans sets text) (f.Spans sets text)
  | .alt e f => fun i j => e.Spans sets text i j ∨ f.Spans sets text i j
  | .star e => ReflTransGen (e.Spans sets text)
  | .plus e => TransGen (e.Spans sets text)
  | .quest e => fun i j => e.Spans sets text i j ∨ i = j
  | .bound e m n => fun i j =>
    ∃ k, m ≤ k ∧ (n = INFINITY ∨ k ≤ n) ∧ Times (e.Spans sets text) k i j

/-! ## Code -/

/-- The branches behind the first one; `back` is how far it is to the start of that one. -/
def altTail (back : ℕ) : List (List Sop) → List Sop
  | [] => []
  | [c] => .oOr1 back :: .oOr2 (c.length + 1) :: (c ++ [.o_Ch (c.length + 2)])
  | c :: d :: cs =>
    .oOr1 back :: .oOr2 (c.length + 2) :: (c ++ altTail (c.length + 2) (d :: cs))

/-- `c|d|..` -/
def altCode : List (List Sop) → List Sop
  | [] => []
  | [c] => c
  | c :: d :: cs => .oCh_ (c.length + 2) :: (c ++ altTail (c.length + 1) (d :: cs))

/-- `c+` -/
def plusCode (c : List Sop) : List Sop := .oPlus_ (c.length + 1) :: (c ++ [.o_Plus (c.length + 1)])

/-- `c*`, "implemented as +?" -/
def starCode (c : List Sop) : List Sop :=
  .oQuest_ ((plusCode c).length + 1) :: (plusCode c ++ [.o_Quest ((plusCode c).length + 1)])

/-- `c?`, emitted as `(c|)` -/
def questCode (c : List Sop) : List Sop := altCode [c, []]

/-- `c` for `n` times. -/
def copies (c : List Sop) (n : ℕ) : List Sop := (List.replicate n c).flatten

/-- `c{1,n}` -/
def upTo (c : List Sop) : ℕ → List Sop
  | 0 => []
  | 1 => c
  | n + 2 => questCode c ++ upTo c (n + 1)

/-- `c{1,n}`, where `n` may be `INFINITY` -/
def fromOne (c : List Sop) (n : ℕ) : List Sop := if n = INFINITY then plusCode c else upTo c n

/-- `c{m,n}` -/
def boundCode (c : List Sop) (m n : ℕ) : List Sop :=
  if m = 0 then (if n = 0 then [] else questCode (fromOne c n))
  else copies c (m - 1) ++ fromOne c (if n = INFINITY then INFINITY else n - (m - 1))

/-- The strips of the branches of an expression. -/
def Ere.parts : Ere → List (List Sop)
  | .atom a => [[a.sop]]
  | .empty => [[]]
  | .group no e => [.oLparen no :: (altCode e.parts ++ [.oRparen no])]
  | .cat e f => [altCode e.parts ++ altCode f.parts]
  | .alt e f => altCode e.parts :: f.parts
  | .star e => [starCode (altCode e.parts)]
  | .plus e => [plusCode (altCode e.parts)]
  | .quest e => [questCode (altCode e.parts)]
  | .bound e m n => [boundCode (altCode e.parts) m n]

/-- The strip of an expression. -/
def Ere.code (e : Ere) : List Sop := altCode e.parts

/-- What holds of all code: it is put together in these ways only. -/
theorem Ere.code_induct {P : List Sop → Prop} (hnil : P []) (hatom : ∀ a : Atom, P [a.sop])
    (hgroup : ∀ no c, P c → P (.oLparen no :: (c ++ [.oRparen no])))
    (happend : ∀ c d, P c → P d → P (c ++ d)) (hplus : ∀ c, P c → P (plusCode c))
    (hstar : ∀ c, P (plusCode c) → P (starCode c))
    (hbranches : ∀ cs, cs ≠ [] → (∀ c ∈ cs, P c) → P (altCode cs)) (e : Ere) : P e.code := by
  have hquest : ∀ {c}, P c → P (questCode c) := fun hc => hbranches _ (by simp) (by simp [hc, hnil])
  have hcopies : ∀ {c} n, P c → P (copies c n) := by
    intro c n hc
    induction n with
    | zero => exact hnil
    | succ n ih => exact happend _ _ hc ih
  have hupTo : ∀ {c} n, P c → P (upTo c n) := by
    intro c n hc
    induction n using upTo.induct with
    | case1 => exact hnil
    | case2 => exact hc
    | case3 n ih => exact happend _ _ (hquest hc) ih
  have hfromOne : ∀ {c} n, P c → P (fromOne c n) := by
    intro c n hc
    unfold fromOne
    split
    · exact hplus c hc
    · exact hupTo n hc
  have hbound : ∀ {c} m n, P c → P (boundCode c m n) := by
    intro c m n hc
    unfold boundCode
    split
    · split
      · exact hnil
      · exact hquest (hfromOne n hc)
    · exact happend _ _ (hcopies _ hc) (hfromOne _ hc)
  have hne : ∀ e : Ere, e.parts ≠ [] := fun e => by cases e <;> simp [Ere.parts]
  suffices h : ∀ c ∈ e.parts, P c from hbranches _ (hne e) h
  induction e with
  | atom a => simpa [Ere.parts] using hatom a
  | empty => simpa [Ere.parts] using hnil
  | group no e ih => simpa [Ere.parts] using hgroup no _ (hbranches _ (hne e) ih)
  | cat e f ihe ihf =>
    simpa [Ere.parts] using happend _ _ (hbranches _ (hne e) ihe) (hbranches _ (hne f) ihf)
  | alt e f ihe ihf =>
    intro c hc
    rcases List.mem_cons.mp hc with rfl | hc
    · exact hbranches _ (hne e) ihe
    · exact ihf c hc
  | star e ih => simpa [Ere.parts] using hstar _ (hplus _ (hbranches _ (hne e) ih))
  | plus e ih => simpa [Ere.parts] using hplus _ (hbranches _ (hne e) ih)
  | quest e ih => simpa [Ere.parts] using hquest (hbranches _ (hne e) ih)
  | bound e m n ih => simpa [Ere.parts] using hbound m n (hbranches _ (hne e) ih)

/-! ## Code in a strip -/

/-- `code` stands in the strip from `p` on. -/
def At (strip : List Sop) (p : ℕ) (code : List Sop) : Prop :=
  ∀ i s, code[i]? = some s → strip[p + i]? = some s

/-- Code that begins with an operator. -/
theorem At.cons {strip : List Sop} {p : ℕ} {s : Sop} {c : List Sop} (h : At strip p (s :: c)) :
    strip[p]? = some s ∧ At strip (p + 1) c := by
  refine ⟨h 0 s rfl, fun i t ht => ?_⟩
  rw [show p + 1 + i = p + (i + 1) by omega]
  exact h (i + 1) t (by simpa using ht)

/-- Code of two parts. -/
theorem At.append {strip : List Sop} {p : ℕ} {c d : List Sop} (h : At strip p (c ++ d)) :
    At strip p c ∧ At strip (p + c.length) d := by
  constructor
  · intro i s hs
    refine h i s ?_
    rw [List.getElem?_append_left (List.getElem?_eq_some_iff.mp hs).1]
    exact hs
  · intro i s hs
    rw [show p + c.length + i = p + (c.length + i) by omega]
    refine h _ s ?_
    rw [List.getElem?_append_right (by omega)]
    simpa using hs

theorem At.singleton {strip : List Sop} {p : ℕ} {s : Sop} (h : At strip p [s]) :
    strip[p]? = some s := h.cons.1

/-- The operators from `p` to before `q` lead to places between `start` and `stop`. -/
def ReadyIn (strip : List Sop) (start stop p q : ℕ) : Prop :=
  ∀ pc s, p ≤ pc → pc < q → strip[pc]? = some s → ReadyAt strip start stop pc s

theorem ReadyAt.mono {strip : List Sop} {start stop start' stop' pc : ℕ} {s : Sop}
    (h : ReadyAt strip start stop pc s) (hstart : start' ≤ start) (hstop : stop ≤ stop') :
    ReadyAt strip start' stop' pc s := by
  cases s <;> simp only [ReadyAt] at h ⊢
  case oOr1 =>
    obtain ⟨j, hj, hlt, hle⟩ := h
    exact ⟨j, hj, hlt, by omega⟩
  all_goals omega

theorem ReadyIn.mono {strip : List Sop} {start stop start' stop' p q : ℕ}
    (h : ReadyIn strip start stop p q) (hstart : start' ≤ start) (hstop : stop ≤ stop') :
    ReadyIn strip start' stop' p q :=
  fun pc s hp hq hs => (h pc s hp hq hs).mono hstart hstop

theorem ReadyIn.append {strip : List Sop} {start stop p q r : ℕ} (h : ReadyIn strip start stop p q)
    (h' : ReadyIn strip start stop q r) : ReadyIn strip start stop p r := by
  intro pc s hp hr hs
  rcases lt_or_ge pc q with hlt | hge
  · exact h pc s hp hlt hs
  · exact h' pc s hge hr hs

theorem ReadyIn.single {strip : List Sop} {start stop p : ℕ} {s : Sop} (hs : strip[p]? = some s)
    (h : ReadyAt strip start stop p s) : ReadyIn strip start stop p (p + 1) := by
  intro pc t hp hq ht
  obtain rfl : pc = p := by omega
  rwa [← Option.some.inj (hs.symm.trans ht)]

/-- A strip that is a block doing `L` wherever it stands. -/
structure Denotes (sets : List Cset) (text : Str) (c : List Sop) (L : ℕ → ℕ → Prop) : Prop where
  block : ∀ g p, g.sets = sets → At g.strip p c → Block (Moves g text) p (p + c.length) L
  ready : ∀ strip p, At strip p c → ReadyIn strip p (p + c.length) p (p + c.length)

section Denotes

variable {sets : List Cset} {text : Str} {g : Guts} {p : ℕ} {c d : List Sop} {L L' : ℕ → ℕ → Prop}

/-- The moves at an operator: a jump, or a character that is read. -/
theorem moves_iff {s : Sop} (hs : g.strip[p]? = some s) (a : ℕ) (y : ℕ × ℕ) :
    Moves g text (p, a) y ↔
      (y.1 ∈ jumps g.strip p s ∧ a = y.2) ∨ (Reads g.sets text s a y.2 ∧ y.1 = p + 1) := by
  simp [Moves, jumps_iff hs, hs]

theorem Denotes.congr (h : Denotes sets text c L) (heq : ∀ i j, L i j ↔ L' i j) :
    Denotes sets text c L' where
  block g p hg hat := (h.block g p hg hat).congr heq
  ready := h.ready

theorem Denotes.nil : Denotes sets text [] Eq where
  block _ p _ _ := .skip _ p
  ready _ p _ _ _ hp hq := by simp at hq; omega

/-- Two parts one after the other read one after the other. -/
theorem Denotes.append (h : Denotes sets text c L) (h' : Denotes sets text d L') :
    Denotes sets text (c ++ d) (Relation.Comp L L') where
  block g p hg hat := by
    rw [List.length_append, ← Nat.add_assoc]
    exact (h.block g p hg hat.append.1).seq (h'.block g _ hg hat.append.2)
  ready strip p hat := by
    rw [List.length_append, ← Nat.add_assoc]
    exact ((h.ready strip p hat.append.1).mono le_rfl (by omega)).append
      ((h'.ready strip _ hat.append.2).mono (by omega) le_rfl)

/-- An atom reads what its operator reads. -/
theorem Denotes.atom (a : Atom) : Denotes sets text [a.sop] (Reads sets text a.sop) where
  block g p hg hat := by
    refine .instr fun i y => ?_
    rw [moves_iff hat.singleton, hg]
    cases a <;> simp [Atom.sop, jumps, and_comm]
  ready strip p hat := .single hat.singleton (by cases a <;> exact trivial)

/-- An operator that only goes on. -/
theorem Denotes.goOn {s : Sop} (hjumps : ∀ strip p, jumps strip p s = [p + 1])
    (hreads : ∀ i j, ¬Reads sets text s i j)
    (hready : ∀ strip start stop p, ReadyAt strip start stop p s) :
    Denotes sets text [s] Eq where
  block g p hg hat := by
    refine .instr fun i y => ?_
    rw [moves_iff hat.singleton, hg, hjumps]
    simp [hreads]
  ready strip p hat := .single hat.singleton (hready ..)

/-- A group reads what its inner part reads. -/
theorem Denotes.group (no : ℕ) (h : Denotes sets text c L) :
    Denotes sets text (.oLparen no :: (c ++ [.oRparen no])) L := by
  have hl : Denotes sets text [.oLparen no] Eq :=
    .goOn (fun _ _ => rfl) (fun _ _ h => h) fun _ _ _ _ => trivial
  have hr : Denotes sets text [.oRparen no] Eq :=
    .goOn (fun _ _ => rfl) (fun _ _ h => h) fun _ _ _ _ => trivial
  refine (hl.append (h.append hr)).congr fun i j => ?_
  simp [Relation.Comp]

/-- `+` repeats a part once or more. -/
theorem Denotes.plus (h : Denotes sets text c L) : Denotes sets text (plusCode c) (TransGen L) where
  block g p hg hat := by
    obtain ⟨hfst, hat⟩ := hat.cons
    obtain ⟨hbody, hlast⟩ := hat.append
    have hlen : p + (plusCode c).length = p + 1 + c.length + 1 := by
      simp [plusCode]
      omega
    rw [hlen]
    refine .loop (fun i y => ?_) (h.block g _ hg hbody) fun i y => ?_
    · simp [moves_iff hfst, jumps, Reads]
    · rw [moves_iff hlast.singleton]
      have : p + 1 + c.length - (c.length + 1) = p := by omega
      simp [jumps, Reads, this]
  ready strip p hat := by
    obtain ⟨hfst, hat⟩ := hat.cons
    obtain ⟨hbody, hlast⟩ := hat.append
    have hlen : p + (plusCode c).length = p + 1 + c.length + 1 := by
      simp [plusCode]
      omega
    rw [hlen]
    refine (ReadyIn.single hfst trivial).append
      (((h.ready _ _ hbody).mono (by omega) (by omega)).append ?_)
    refine .single hlast.singleton ?_
    show p + (c.length + 1) ≤ p + 1 + c.length
    omega

/-- `*` repeats it, or not at all. -/
theorem Denotes.star (h : Denotes sets text c L) :
    Denotes sets text (starCode c) (ReflTransGen L) where
  block g p hg hat := by
    obtain ⟨hfst, hat⟩ := hat.cons
    obtain ⟨hbody, hlast⟩ := hat.append
    have hlen : p + (starCode c).length = p + 1 + (plusCode c).length + 1 := by
      simp [starCode]
      omega
    rw [hlen]
    -- `x*` is written as `(x+)?`
    have hjump : Block (Moves g text) p (p + 1 + (plusCode c).length) fun i j => i = j ∨
        TransGen L i j := by
      refine .bypass (fun i y => ?_) (h.plus.block g _ hg hbody)
      rw [moves_iff hfst]
      have : p + ((plusCode c).length + 1) = p + 1 + (plusCode c).length := by omega
      simp [jumps, Reads, this]
    have hend : Block (Moves g text) (p + 1 + (plusCode c).length)
        (p + 1 + (plusCode c).length + 1) Eq := by
      refine .instr fun i y => ?_
      simp [moves_iff hlast.singleton, jumps, Reads]
    refine (hjump.seq hend).congr fun i j => ?_
    simp [Relation.Comp, reflTransGen_iff_eq_or_transGen, eq_comm]
  ready strip p hat := by
    obtain ⟨hfst, hat⟩ := hat.cons
    obtain ⟨hbody, hlast⟩ := hat.append
    have hlen : p + (starCode c).length = p + 1 + (plusCode c).length + 1 := by
      simp [starCode]
      omega
    rw [hlen]
    refine (ReadyIn.single hfst ?_).append
      (((h.plus.ready _ _ hbody).mono (by omega) (by omega)).append
        (.single hlast.singleton trivial))
    show 0 < (plusCode c).length + 1 ∧ p + ((plusCode c).length + 1) ≤
      p + 1 + (plusCode c).length + 1
    omega

/-! ## Branches -/

theorem length_altTail (back : ℕ) (c : List Sop) (cs : List (List Sop)) :
    c.length + 3 + cs.length ≤ (altTail back (c :: cs)).length := by
  induction cs generalizing back c with
  | nil => simp [altTail]
  | cons d cs ih =>
    have := ih (c.length + 2) d
    simp [altTail]
    omega

theorem At.le {strip : List Sop} (h : At strip p c) (hc : c ≠ []) :
    p + c.length ≤ strip.length := by
  have hlen : 0 < c.length := List.length_pos_iff.mpr hc
  have := h (c.length - 1) _ (List.getElem?_eq_getElem (by omega))
  have := (List.getElem?_eq_some_iff.mp this).1
  omega

/-- The end of a branch finds the end of all of them. -/
theorem lookCh_altTail {strip : List Sop} {back : ℕ} {cs : List (List Sop)} (hcs : cs ≠ [])
    (hat : At strip p (altTail back cs)) (fuel : ℕ) (hfuel : cs.length + 1 ≤ fuel) :
    ∃ n, strip[p + (altTail back cs).length - 1]? = some (.o_Ch n) ∧
      lookCh strip fuel (p + 1) = some (p + (altTail back cs).length - 1) := by
  induction cs generalizing p back fuel with
  | nil => exact absurd rfl hcs
  | cons c cs ih =>
    obtain ⟨fuel, rfl⟩ : ∃ f, fuel = f + 1 := ⟨fuel - 1, by simp at hfuel; omega⟩
    cases cs with
    | nil =>
      obtain ⟨hor2, hat⟩ := hat.cons.2.cons
      have hend := hat.append.2.singleton
      have hlen : p + (altTail back [c]).length - 1 = p + 1 + (c.length + 1) := by
        simp [altTail]
        omega
      rw [show p + 1 + 1 + c.length = p + 1 + (c.length + 1) by omega] at hend
      obtain ⟨fuel, rfl⟩ : ∃ f, fuel = f + 1 := ⟨fuel - 1, by simp at hfuel; omega⟩
      rw [hlen]
      exact ⟨_, hend, by simp [lookCh, hor2, Sop.isO_Ch, Sop.opnd, hend]⟩
    | cons d cs =>
      obtain ⟨hor2, hat⟩ := hat.cons.2.cons
      obtain ⟨n, hend, hlook⟩ := ih (by simp) hat.append.2 fuel (by simpa using hfuel)
      have hlen : p + (altTail back (c :: d :: cs)).length - 1 =
          p + 1 + 1 + c.length + (altTail (c.length + 2) (d :: cs)).length - 1 := by
        simp [altTail]
        omega
      rw [hlen]
      refine ⟨n, hend, ?_⟩
      rw [show p + 1 + 1 + c.length + 1 = p + 1 + (c.length + 2) by omega] at hlook
      simp [lookCh, hor2, Sop.isO_Ch, Sop.opnd, hlook]

/-- What stands at the end of a branch is a jump to the end of all of them. -/
theorem jumps_altTail {strip : List Sop} {back : ℕ} {cs : List (List Sop)} (hcs : cs ≠ [])
    (hat : At strip p (altTail back cs)) :
    strip[p]? = some (.oOr1 back) ∧
      jumps strip p (.oOr1 back) = [p + (altTail back cs).length - 1] := by
  have hlen := hat.le
  obtain ⟨c, cs, rfl⟩ := List.exists_cons_of_ne_nil hcs
  have hlong := length_altTail back c cs
  have hne : altTail back (c :: cs) ≠ [] := List.length_pos_iff.mp (by omega)
  obtain ⟨n, hend, hlook⟩ := lookCh_altTail hcs hat strip.length (by
    have := hlen hne
    simp
    omega)
  refine ⟨?_, by simp [jumps, hlook]⟩
  cases cs with
  | nil => exact hat.cons.1
  | cons d cs => exact hat.cons.1

/-- The branches from the second one on, up to their end. -/
theorem block_altTail {back : ℕ} {cs : List (List Sop)} {Ls : List (ℕ → ℕ → Prop)}
    (h : List.Forall₂ (Denotes sets text) cs Ls) (hcs : cs ≠ []) (hg : g.sets = sets)
    (hat : At g.strip p (altTail back cs)) :
    Block (Moves g text) (p + 1) (p + (altTail back cs).length - 1) fun i j => ∃ L ∈ Ls, L i j := by
  induction h generalizing p back with
  | nil => exact absurd rfl hcs
  | @cons c L cs Ls hc hrest ih =>
    cases hrest with
    | nil =>
      -- behind the last alternative is the `O_CH`
      have hor2 := hat.cons.2.cons.1
      have hbody := hat.cons.2.cons.2.append.1
      have hend := hat.cons.2.cons.2.append.2.singleton
      have hlen : p + (altTail back [c]).length - 1 = p + 1 + 1 + c.length := by
        simp [altTail]
        omega
      have hcheck : g.strip[p + 1 + (c.length + 1)]? = some (.o_Ch (c.length + 2)) := by
        rw [← hend]
        congr 1
        omega
      have hinstr : Block (Moves g text) (p + 1) (p + 1 + 1) Eq := by
        refine .instr fun i y => ?_
        simp [moves_iff hor2, jumps, Reads, hcheck, Sop.isO_Ch]
      rw [hlen]
      refine (hinstr.seq (hc.block g _ hg hbody)).congr fun i j => ?_
      simp [Relation.Comp]
    | @cons d L' cs Ls hd hrest =>
      have hor2 := hat.cons.2.cons.1
      have hbody := hat.cons.2.cons.2.append.1
      have htail := hat.cons.2.cons.2.append.2
      obtain ⟨hor1, hjumps⟩ := jumps_altTail (by simp) htail
      have hlen : p + (altTail back (c :: d :: cs)).length - 1 =
          p + 1 + 1 + c.length + (altTail (c.length + 2) (d :: cs)).length - 1 := by
        simp [altTail]
        omega
      have hcheck : ∃ n, g.strip[p + 1 + (c.length + 2)]? = some (.oOr2 n) := by
        rw [show p + 1 + (c.length + 2) = p + 1 + 1 + c.length + 1 by omega]
        cases cs with
        | nil => exact ⟨_, htail.cons.2.cons.1⟩
        | cons e cs => exact ⟨_, htail.cons.2.cons.1⟩
      obtain ⟨n, hcheck⟩ := hcheck
      rw [hlen]
      -- into the alternative or on to the next one
      refine (Block.branch (fun i y => ?_) (hc.block g _ hg hbody) (fun i y => ?_)
        (ih (by simp) htail)).congr fun i j => by simp
      · rw [moves_iff hor2]
        have : p + 1 + (c.length + 2) = p + 1 + 1 + c.length + 1 := by omega
        rw [this] at hcheck
        simp [jumps, Reads, hcheck, Sop.isO_Ch, this]
      · rw [moves_iff hor1, hjumps]
        simp [Reads]

/-- The jumps of alternatives lead to their branches and to their end. -/
theorem ready_altTail {strip : List Sop} {back : ℕ} {cs : List (List Sop)}
    {Ls : List (ℕ → ℕ → Prop)} (h : List.Forall₂ (Denotes sets text) cs Ls) (hcs : cs ≠ [])
    (hat : At strip p (altTail back cs)) :
    ReadyIn strip p (p + (altTail back cs).length) p (p + (altTail back cs).length) := by
  induction h generalizing p back with
  | nil => exact absurd rfl hcs
  | @cons c L cs Ls hc hrest ih =>
    have hlong := length_altTail back c cs
    obtain ⟨hor1, hjumps⟩ := jumps_altTail hcs hat
    obtain ⟨n, -, hlook⟩ := lookCh_altTail hcs hat strip.length (by
      have := hat.le (List.length_pos_iff.mp (by omega))
      simp
      omega)
    have hfst : ReadyIn strip p (p + (altTail back (c :: cs)).length) p (p + 1) :=
      .single hor1 ⟨_, hlook, by omega, by omega⟩
    cases hrest with
    | nil =>
      have hor2 := hat.cons.2.cons.1
      have hbody := hat.cons.2.cons.2.append.1
      have hend := hat.cons.2.cons.2.append.2.singleton
      have hlen : p + (altTail back [c]).length = p + 1 + 1 + c.length + 1 := by
        simp [altTail]
        omega
      rw [hlen] at hfst ⊢
      refine hfst.append ((ReadyIn.single hor2 ?_).append
        (((hc.ready _ _ hbody).mono (by omega) (by omega)).append (.single hend trivial)))
      show 0 < c.length + 1 ∧ p + 1 + (c.length + 1) ≤ p + 1 + 1 + c.length + 1
      omega
    | @cons d L' cs Ls hd hrest =>
      have hor2 := hat.cons.2.cons.1
      have hbody := hat.cons.2.cons.2.append.1
      have htail := hat.cons.2.cons.2.append.2
      have hlen : p + (altTail back (c :: d :: cs)).length =
          p + 1 + 1 + c.length + (altTail (c.length + 2) (d :: cs)).length := by
        simp [altTail]
        omega
      have hmore := length_altTail (c.length + 2) d cs
      rw [hlen] at hfst ⊢
      refine hfst.append ((ReadyIn.single hor2 ?_).append
        (((hc.ready _ _ hbody).mono (by omega) (by omega)).append
          ((ih (by simp) htail).mono (by omega) le_rfl)))
      show 0 < c.length + 2 ∧ p + 1 + (c.length + 2) ≤
        p + 1 + 1 + c.length + (altTail (c.length + 2) (d :: cs)).length
      omega

/-- Branches match what one of them does. -/
theorem Denotes.branches {cs : List (List Sop)} {Ls : List (ℕ → ℕ → Prop)}
    (h : List.Forall₂ (Denotes sets text) cs Ls) (hcs : cs ≠ []) :
    Denotes sets text (altCode cs) fun i j => ∃ L ∈ Ls, L i j := by
  cases h with
  | nil => exact absurd rfl hcs
  | @cons c L cs Ls hc hrest =>
  cases hrest with
  | nil => exact hc.congr fun i j => by simp
  | @cons d L' cs Ls hd hrest =>
    have htails : List.Forall₂ (Denotes sets text) (d :: cs) (L' :: Ls) := .cons hd hrest
    have hlong := length_altTail (c.length + 1) d cs
    have hlen : (altCode (c :: d :: cs)).length =
        1 + c.length + (altTail (c.length + 1) (d :: cs)).length := by
      simp [altCode]
      omega
    constructor
    · intro g p hg hat
      obtain ⟨hfst, hat⟩ := hat.cons
      obtain ⟨hbody, htail⟩ := hat.append
      obtain ⟨hor1, hjumps⟩ := jumps_altTail (by simp) htail
      obtain ⟨n, hend, -⟩ := lookCh_altTail (by simp) htail _ le_rfl
      -- the first branch is entered behind its operator, the others over its jump
      have hall : Block (Moves g text) p
          (p + 1 + c.length + (altTail (c.length + 1) (d :: cs)).length - 1)
          fun i j => L i j ∨ ∃ L ∈ L' :: Ls, L i j := by
        refine .branch (fun i y => ?_) (hc.block g _ hg hbody) (fun i y => ?_)
          (block_altTail htails (by simp) hg htail)
        · rw [moves_iff hfst]
          have : p + (c.length + 2) = p + 1 + c.length + 1 := by omega
          simp [jumps, Reads, this]
        · rw [moves_iff hor1, hjumps]
          simp [Reads]
      -- all branches meet at the closing operator
      have hlast : Block (Moves g text)
          (p + 1 + c.length + (altTail (c.length + 1) (d :: cs)).length - 1)
          (p + 1 + c.length + (altTail (c.length + 1) (d :: cs)).length - 1 + 1) Eq := by
        refine .instr fun i y => ?_
        simp [moves_iff hend, jumps, Reads]
      rw [show p + (altCode (c :: d :: cs)).length =
        p + 1 + c.length + (altTail (c.length + 1) (d :: cs)).length - 1 + 1 by omega]
      refine (hall.seq hlast).congr fun i j => ?_
      simp [Relation.Comp]
    · intro strip p hat
      obtain ⟨hfst, hat⟩ := hat.cons
      obtain ⟨hbody, htail⟩ := hat.append
      rw [show p + (altCode (c :: d :: cs)).length =
        p + 1 + c.length + (altTail (c.length + 1) (d :: cs)).length by omega]
      refine (ReadyIn.single hfst ?_).append
        (((hc.ready _ _ hbody).mono (by omega) (by omega)).append
        ((ready_altTail htails (by simp) htail).mono (by omega) le_rfl))
      show 0 < c.length + 2 ∧ p + (c.length + 2) ≤
        p + 1 + c.length + (altTail (c.length + 1) (d :: cs)).length
      omega

/-! ## The code of an expression -/

/-- `?` leaves a part out, or not. -/
theorem Denotes.quest (h : Denotes sets text c L) :
    Denotes sets text (questCode c) fun i j => L i j ∨ i = j :=
  (Denotes.branches (.cons h (.cons .nil .nil)) (by simp)).congr fun i j => by simp

/-- Copies of a part read as often. -/
theorem Denotes.copies (h : Denotes sets text c L) (n : ℕ) :
    Denotes sets text (copies c n) (Times L n) := by
  induction n with
  | zero => exact .nil
  | succ n ih => exact (h.append ih).congr fun _ _ => .rfl

/-- Copies that may be left out read once at least. -/
theorem Denotes.upTo (h : Denotes sets text c L) (n : ℕ) :
    Denotes sets text (upTo c (n + 1)) fun i j => ∃ k, 1 ≤ k ∧ k ≤ n + 1 ∧ Times L k i j := by
  induction n with
  | zero =>
    refine h.congr fun i j => ?_
    constructor
    · exact fun hL => ⟨1, le_rfl, le_rfl, times_one.mpr hL⟩
    · rintro ⟨k, hk, hk', ht⟩
      obtain rfl : k = 1 := by omega
      exact times_one.mp ht
  | succ n ih =>
    refine (h.quest.append ih).congr fun i j => ?_
    constructor
    · rintro ⟨m, hL | rfl, k, hk, hk', ht⟩
      · exact ⟨k + 1, by omega, by omega, m, hL, ht⟩
      · exact ⟨k, hk, by omega, ht⟩
    · rintro ⟨k, hk, hk', ht⟩
      rcases hk'.eq_or_lt with rfl | hlt
      · obtain ⟨m, hL, ht⟩ := ht
        exact ⟨m, .inl hL, n + 1, by omega, le_rfl, ht⟩
      · exact ⟨i, .inr rfl, k, hk, by omega, ht⟩

/-- The copies of a bound from one on. -/
theorem Denotes.fromOne (h : Denotes sets text c L) {n : ℕ} (hn : 1 ≤ n) :
    Denotes sets text (fromOne c n) fun i j =>
      ∃ k, 1 ≤ k ∧ (n = INFINITY ∨ k ≤ n) ∧ Times L k i j := by
  unfold Regex.fromOne
  split
  · refine h.plus.congr fun i j => ?_
    rw [transGen_iff_times]
    simp [*]
  · obtain ⟨n, rfl⟩ : ∃ m, n = m + 1 := ⟨n - 1, by omega⟩
    refine (h.upTo n).congr fun i j => ?_
    simp [*]

/-- Of a bound, all but the first part is written out. -/
theorem Denotes.bound (h : Denotes sets text c L) {m n : ℕ} (hmn : m ≤ n) (hn : n ≤ INFINITY) :
    Denotes sets text (boundCode c m n) fun i j =>
      ∃ k, m ≤ k ∧ (n = INFINITY ∨ k ≤ n) ∧ Times L k i j := by
  have hinf : INFINITY = 256 := rfl
  unfold boundCode
  by_cases hm : m = 0
  · subst hm
    rw [if_pos rfl]
    by_cases hn0 : n = 0
    · subst hn0
      rw [if_pos rfl]
      refine Denotes.nil.congr fun i j => ?_
      constructor
      · exact fun heq => ⟨0, le_rfl, .inr le_rfl, heq⟩
      · rintro ⟨k, -, hk, ht⟩
        obtain rfl : k = 0 := by omega
        exact ht
    · rw [if_neg hn0]
      refine (h.fromOne (n := n) (by omega)).quest.congr fun i j => ?_
      constructor
      · rintro (⟨k, -, hk, ht⟩ | heq)
        · exact ⟨k, k.zero_le, hk, ht⟩
        · exact ⟨0, le_rfl, .inr n.zero_le, heq⟩
      · rintro ⟨k, -, hk, ht⟩
        rcases k.eq_zero_or_pos with rfl | hpos
        · exact .inr ht
        · exact .inl ⟨k, hpos, hk, ht⟩
  · rw [if_neg hm]
    obtain ⟨m, rfl⟩ : ∃ l, m = l + 1 := ⟨m - 1, by omega⟩
    rw [Nat.add_sub_cancel]
    -- how often the last part is repeated
    have hrest : ∀ k, ((if n = INFINITY then INFINITY else n - m) = INFINITY ∨
        k ≤ (if n = INFINITY then INFINITY else n - m)) ↔ (n = INFINITY ∨ m + k ≤ n) := by
      intro k
      split <;> omega
    refine ((h.copies m).append (h.fromOne (by split <;> omega))).congr fun i j => ?_
    constructor
    · rintro ⟨b, hm, k, hk, hk', ht⟩
      exact ⟨m + k, by omega, (hrest k).mp hk', times_add.mpr ⟨b, hm, ht⟩⟩
    · rintro ⟨k, hk, hk', ht⟩
      obtain ⟨k, rfl⟩ : ∃ l, k = m + l := ⟨k - m, by omega⟩
      obtain ⟨b, hm, ht⟩ := times_add.mp ht
      exact ⟨b, hm, k, by omega, (hrest k).mpr hk', ht⟩

end Denotes

/-- The bounds of an expression are as `p_ere_exp` lets them pass. -/
def Ere.Bounded : Ere → Prop
  | .atom _ | .empty => True
  | .group _ e | .star e | .plus e | .quest e => e.Bounded
  | .cat e f | .alt e f => e.Bounded ∧ f.Bounded
  | .bound e m n => e.Bounded ∧ m ≤ n ∧ n ≤ INFINITY

theorem Ere.parts_ne_nil (e : Ere) : e.parts ≠ [] := by
  cases e <;> simp [Ere.parts]

/-- The branches of an expression denote what it spans. -/
theorem Ere.denotes_parts (sets : List Cset) (text : Str) {e : Ere} (h : e.Bounded) :
    ∃ Ls, List.Forall₂ (Denotes sets text) e.parts Ls ∧
      ∀ i j, (∃ L ∈ Ls, L i j) ↔ e.Spans sets text i j := by
  -- one branch
  have hone : ∀ {c : List Sop} {L : ℕ → ℕ → Prop}, Denotes sets text c L →
      ∃ Ls, List.Forall₂ (Denotes sets text) [c] Ls ∧ ∀ i j, (∃ L ∈ Ls, L i j) ↔ L i j :=
    fun {c L} h => ⟨[L], .cons h .nil, by simp⟩
  have hcode : ∀ {e : Ere}, (∃ Ls, List.Forall₂ (Denotes sets text) e.parts Ls ∧
      ∀ i j, (∃ L ∈ Ls, L i j) ↔ e.Spans sets text i j) →
      Denotes sets text (altCode e.parts) (e.Spans sets text) := by
    rintro e ⟨Ls, hall, hiff⟩
    exact (Denotes.branches hall e.parts_ne_nil).congr hiff
  induction e with
  | atom a => exact hone (.atom a)
  | empty => exact hone .nil
  | group no e ih => exact hone ((hcode (ih h)).group no)
  | cat e f ihe ihf => exact hone ((hcode (ihe h.1)).append (hcode (ihf h.2)))
  | alt e f ihe ihf =>
    obtain ⟨Ls, hall, hiff⟩ := ihf h.2
    refine ⟨e.Spans sets text :: Ls, .cons (hcode (ihe h.1)) hall, fun i j => ?_⟩
    rw [← show (e.Spans sets text i j ∨ f.Spans sets text i j) =
      (e.alt f).Spans sets text i j from rfl,
      ← hiff]
    simp
  | star e ih => exact hone (hcode (ih h)).star
  | plus e ih => exact hone (hcode (ih h)).plus
  | quest e ih => exact hone (hcode (ih h)).quest
  | bound e m n ih => exact hone ((hcode (ih h.1)).bound h.2.1 h.2.2)

/-- The strip of an expression matches what the expression matches. -/
theorem Ere.denotes (sets : List Cset) (text : Str) {e : Ere} (h : e.Bounded) :
    Denotes sets text e.code (e.Spans sets text) := by
  obtain ⟨Ls, hall, hiff⟩ := e.denotes_parts sets text h
  exact (Denotes.branches hall e.parts_ne_nil).congr hiff

end Spegla.Regex
