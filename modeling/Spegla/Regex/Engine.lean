import Mathlib.Data.BitVec
import Spegla.Lib.CString

/-!
# The matcher (`regex/regex2.h`, `regex/engine.c`, `regex/regexec.c`)

- `Sop`, `Cset`, `Guts`: the compiled expression.
- `States`: the macros for sets of states, `Small` (an `unsigned long`) and `Large` (an array), for
  which `engine.c` is compiled twice.
- `stepOp`, `step`: one pass over the strip for one character. `none` stands for a pass that reads
  behind the strip or does not end.
- `fast`, `matcher`, `regexec`: the search, with `REG_NOSUB` as the only flag and `eflags` 0.

The strip stands here without back references, which extended expressions do not have.
-/

namespace Spegla.Regex

open CString

/-! ## The compiled expression -/

/-- The results of `regcomp` and `regexec`. -/
inductive Errno where
  | success | REG_NOMATCH | REG_BADPAT | REG_ECOLLATE | REG_ECTYPE | REG_EESCAPE | REG_EBRACK
  | REG_EPAREN | REG_EBRACE | REG_BADBR | REG_ERANGE | REG_BADRPT | REG_EMPTY | REG_ASSERT
  deriving DecidableEq, Repr

/-- The strip operators with their operands, however large these are. `Width` has the words that
hold an operator and 27 bits of its operand. -/
inductive Sop where
  | oEnd
  | oChar (c : Char)
  | oBol
  | oEol
  | oAny
  | oAnyOf (set : ℕ)
  | oPlus_ (fwd : ℕ)
  | o_Plus (back : ℕ)
  | oQuest_ (fwd : ℕ)
  | o_Quest (back : ℕ)
  | oLparen (no : ℕ)
  | oRparen (no : ℕ)
  | oCh_ (fwd : ℕ)
  | oOr1 (back : ℕ)
  | oOr2 (fwd : ℕ)
  | o_Ch (back : ℕ)
  | oBow
  | oEow
  deriving DecidableEq, Repr

/-- `OPND` -/
def Sop.opnd : Sop → ℕ
  | .oChar c => c.toNat
  | .oAnyOf n | .oPlus_ n | .o_Plus n | .oQuest_ n | .o_Quest n | .oLparen n | .oRparen n
  | .oCh_ n | .oOr1 n | .oOr2 n | .o_Ch n => n
  | .oEnd | .oBol | .oEol | .oAny | .oBow | .oEow => 0

/-- `OP(s) == O_CH` -/
def Sop.isO_Ch : Sop → Bool
  | .o_Ch _ => true
  | _ => false

/-- A set of characters: those whose bit is set, and the hash code. -/
structure Cset where
  chars : List Char
  hash : ℕ
  deriving DecidableEq, Repr

/-- `re_guts`, with `must` as far as `mlen`. -/
structure Guts where
  strip : List Sop
  sets : List Cset
  firststate : ℕ
  laststate : ℕ
  bad : Bool
  nbol : ℕ
  neol : ℕ
  must : Option Str
  nplus : ℕ
  deriving DecidableEq, Repr

/-! ## Sets of states -/

/-- The macros that `regexec.c` defines before it includes `engine.c`. -/
class States (σ : Type) where
  clear : ℕ → σ
  set1 : σ → ℕ → σ
  isset : σ → ℕ → Bool
  /-- `FWD(dst, src, n)` -/
  fwd (dst src : σ) (here n : ℕ) : σ
  /-- `BACK(dst, src, n)` -/
  back (dst src : σ) (here n : ℕ) : σ
  issetback : σ → (here n : ℕ) → Bool
  /-- What an argument shows that was passed as the first set, once it is the second set under
  another name. -/
  reread : σ → σ → σ

/-- The small version. -/
abbrev Small := BitVec 64

instance : States Small where
  clear _ := 0
  set1 v n := v ||| ((1 : BitVec 64) <<< n)
  isset v n := decide (v &&& ((1 : BitVec 64) <<< n) ≠ 0)
  fwd dst src here n := dst ||| ((src &&& ((1 : BitVec 64) <<< here)) <<< n)
  back dst src here n := dst ||| ((src &&& ((1 : BitVec 64) <<< here)) >>> n)
  issetback v here n := decide (v &&& (((1 : BitVec 64) <<< here) >>> n) ≠ 0)
  -- passed by value
  reread old _ := old

/-- The large version. -/
abbrev Large := List Bool

instance : States Large where
  clear nstates := List.replicate nstates false
  set1 v n := v.set n true
  isset v n := v.getD n false
  fwd dst src here n := dst.set (here + n) (dst.getD (here + n) false || src.getD here false)
  back dst src here n := dst.set (here - n) (dst.getD (here - n) false || src.getD here false)
  issetback v here n := v.getD (here - n) false
  -- passed as an address
  reread _ new := new

/-! ## One pass over the strip -/

/-- The argument `ch` of `step`: a character or one of the codes above `CHAR_MAX`. -/
inductive Ch where
  | char (c : Char)
  | bol
  | eol
  | boleol
  | nothing
  | bow
  | eow
  deriving DecidableEq, Repr

/-- The operators that look at the text: does this one let `ch` pass? -/
def Sop.takes (sets : List Cset) (ch : Ch) : Sop → Bool
  | .oChar c => ch == .char c
  | .oBol => ch == .bol || ch == .boleol
  | .oEol => ch == .eol || ch == .boleol
  | .oBow => ch == .bow
  | .oEow => ch == .eow
  | .oAny => match ch with
    | .char _ => true
    | _ => false
  | .oAnyOf n => match ch with
    | .char c => (sets[n]?.map fun cs => cs.chars.contains c).getD false
    | _ => false
  | .oEnd | .oPlus_ _ | .o_Plus _ | .oQuest_ _ | .o_Quest _ | .oLparen _ | .oRparen _ | .oCh_ _
  | .oOr1 _ | .oOr2 _ | .o_Ch _ => false

/-- `for (look = 1; OP(s = g->strip[pc+look]) != O_CH; look += OPND(s))`, from a place of the strip
to that of the `O_CH`. -/
def lookCh (strip : List Sop) : ℕ → ℕ → Option ℕ
  | 0, _ => none
  | fuel + 1, pos => do
    let s ← strip[pos]?
    if s.isO_Ch then some pos else lookCh strip fuel (pos + s.opnd)

section Engine

variable (σ : Type) [States σ]

open States

variable {σ}

/-- The body of the loop of `step`, with the next `pc`. `bef` gives the first set by what the second
one is by now. -/
def stepOp (g : Guts) (bef : σ → σ) (ch : Ch) (pc : ℕ) (aft : σ) (s : Sop) : Option (σ × ℕ) :=
  match s with
  | .oEnd => some (aft, pc + 1)
  | .oChar _ | .oBol | .oEol | .oBow | .oEow | .oAny | .oAnyOf _ =>
    some (if s.takes g.sets ch then fwd aft (bef aft) pc 1 else aft, pc + 1)
  | .oPlus_ _ | .o_Quest _ | .oLparen _ | .oRparen _ | .o_Ch _ => some (fwd aft aft pc 1, pc + 1)
  | .o_Plus n =>
    let aft := fwd aft aft pc 1
    let i := issetback aft pc n
    let aft := back aft aft pc n
    -- "oho, must reconsider loop body"
    if !i && issetback aft pc n then some (aft, pc - n) else some (aft, pc + 1)
  | .oQuest_ n | .oCh_ n =>
    let aft := fwd aft aft pc 1
    some (fwd aft aft pc n, pc + 1)
  | .oOr1 _ =>
    if isset aft pc then do
      let ch ← lookCh g.strip g.strip.length (pc + 1)
      some (fwd aft aft pc (ch - pc), pc + 1)
    else some (aft, pc + 1)
  | .oOr2 n => do
    let aft := fwd aft aft pc 1
    let s ← g.strip[pc + n]?
    some (if s.isO_Ch then aft else fwd aft aft pc n, pc + 1)

/-- The loop of `step`. -/
def stepFrom (g : Guts) (stop : ℕ) (bef : σ → σ) (ch : Ch) : ℕ → ℕ → σ → Option σ
  | 0, _, _ => none
  | fuel + 1, pc, aft =>
    if pc = stop then some aft
    else do
      let s ← g.strip[pc]?
      let (aft, pc) ← stepOp g bef ch pc aft s
      stepFrom g stop bef ch fuel pc aft

/-- `step`, with a bound for the number of operators it looks at. -/
def step (g : Guts) (start stop : ℕ) (bef : σ → σ) (ch : Ch) (aft : σ) : Option σ :=
  stepFrom g stop bef ch ((g.strip.length + 1) * (g.strip.length + 1)) start aft

/-! ## The search -/

/-- `ISWORD`, in the C locale. -/
def isWord (c : Char) : Bool := c.isAlphanum || c == '_'

/-- `flagch`, between two characters or `OUT`. -/
def flagch (lastc c : Option Char) : Ch :=
  let flag := if lastc = none then Ch.bol else .char nul
  if c = none then (if flag = .bol then .boleol else .eol) else flag

/-- How often `step` is called for it. -/
def anchorCount (g : Guts) (lastc c : Option Char) : ℕ :=
  (if lastc = none then g.nbol else 0) + (if c = none then g.neol else 0)

/-- `flagch`, after the tests for a word boundary. -/
def wordFlag (flag : Ch) (lastc c : Option Char) : Ch :=
  let flag := if (flag == .bol || lastc.any (!isWord ·)) && c.any isWord then Ch.bow else flag
  if lastc.any isWord && (flag == .eol || c.any (!isWord ·)) then .eow else flag

/-- `st = step(m->g, startst, stopst, st, flagch, st)` -/
def stepAt (g : Guts) (startst stopst : ℕ) (flag : Ch) (st : σ) : Option σ :=
  step g startst stopst (reread st) flag st

/-- That call, `i` times. -/
def stepTimes (g : Guts) (startst stopst : ℕ) (flag : Ch) : ℕ → σ → Option σ
  | 0, st => some st
  | i + 1, st => do
    let st ← stepAt g startst stopst flag st
    stepTimes g startst stopst flag i st

/-- What comes before the next character is looked at. -/
def anchors (g : Guts) (startst stopst : ℕ) (lastc c : Option Char) (st : σ) : Option σ := do
  let flag := flagch lastc c
  let st ← stepTimes g startst stopst flag (anchorCount g lastc c) st
  let flag := wordFlag flag lastc c
  if flag = .bow ∨ flag = .eow then stepAt g startst stopst flag st else some st

/-- The loop of `fast`, at the place `p` of the text. -/
def fastLoop (g : Guts) (startst stopst : ℕ) (fresh : σ) (lastc : Option Char) (rest : Str) (p : ℕ)
    (st : σ) : Option (Option ℕ) := do
  let st ← anchors g startst stopst lastc rest.head? st
  match rest with
  | [] => if isset st stopst then some (some (p + 1)) else some none
  | c :: rest =>
    if isset st stopst then some (some (p + 1))
    else do
      let st ← step g startst stopst (fun _ => st) (.char c) fresh
      fastLoop g startst stopst fresh (some c) rest (p + 1) st

variable (σ)

/-- `fast`, over the whole text: one more than the place where a match ends. -/
def fast (g : Guts) (text : Str) (startst stopst : ℕ) : Option (Option ℕ) := do
  let st : σ := set1 (clear g.strip.length) startst
  let st ← stepAt g startst stopst .nothing st
  fastLoop g startst stopst st none text 0 st

/-- "prescreening; this does wonders for this rather slow code" -/
def seesMust (must : Str) : Str → Bool
  | [] => false
  | c :: text =>
    (must.head? == some c && decide (must.length ≤ text.length + 1) &&
      (c :: text).take must.length == must) || seesMust must text

/-- `matcher` -/
def matcher (g : Guts) (text : Str) : Option Errno := do
  if g.must.any fun must => !seesMust must text then return .REG_NOMATCH
  match ← fast σ g text (g.firststate + 1) g.laststate with
  | none => return .REG_NOMATCH
  | some _ => return .success

end Engine

/-- `regexec` -/
def regexec (g : Guts) (text : Str) : Option Errno :=
  if g.bad then some .REG_BADPAT
  else if g.strip.length ≤ 64 then matcher Small g text
  else matcher Large g text

end Spegla.Regex
