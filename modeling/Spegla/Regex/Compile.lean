import Spegla.Regex.Engine

/-!
# The compiler (`regex/regcomp.c`)

- `Parse`: the state of the parser; `emit`, `insert`, `ahead`, `dupl`: the macros and functions that
  write the strip.
- `pBracket` and the functions below it: bracket expressions, with the sets of `Cset`.
- `repeat_`: bounds.
- `pEre`, `pEreExp`: the parser, with a bound for the loops and for the depth.
- `findmust`, `pluscount`: what is read off the finished strip.
- `regcomp`, with `REG_EXTENDED` and `REG_NOSUB` as the only flags.

A `char` is signed. The room for the strip and the categories of characters, which nothing reads,
are left out.
-/

namespace Spegla.Regex

open CString

/-! ## The strip -/

/-- `struct parse`, with what it fills in of the compiled expression. -/
structure Parse where
  next : Str
  strip : List Sop
  nsub : ℕ
  nbol : ℕ
  neol : ℕ
  sets : List Cset
  deriving DecidableEq, Repr

/-- The same operator with another operand. -/
def Sop.setOpnd : Sop → ℕ → Sop
  | .oPlus_ _, n => .oPlus_ n
  | .o_Plus _, n => .o_Plus n
  | .oQuest_ _, n => .oQuest_ n
  | .o_Quest _, n => .o_Quest n
  | .oLparen _, n => .oLparen n
  | .oRparen _, n => .oRparen n
  | .oCh_ _, n => .oCh_ n
  | .oOr1 _, n => .oOr1 n
  | .oOr2 _, n => .oOr2 n
  | .o_Ch _, n => .o_Ch n
  | .oAnyOf _, n => .oAnyOf n
  | s, _ => s

/-- `HERE()` -/
def Parse.here (p : Parse) : ℕ := p.strip.length

/-- `EMIT` -/
def Parse.emit (p : Parse) (s : Sop) : Parse := { p with strip := p.strip ++ [s] }

/-- `INSERT(op, pos)`, with the operand it takes. -/
def Parse.insert (p : Parse) (op : ℕ → Sop) (pos : ℕ) : Parse :=
  { p with strip := p.strip.take pos ++ op (p.here - pos + 1) :: p.strip.drop pos }

/-- `dofwd` -/
def Parse.dofwd (p : Parse) (pos value : ℕ) : Parse :=
  { p with strip := p.strip.modify pos fun s => s.setOpnd value }

/-- `AHEAD(pos)` -/
def Parse.ahead (p : Parse) (pos : ℕ) : Parse := p.dofwd pos (p.here - pos)

/-- `ASTERN(sop, pos)` -/
def Parse.astern (p : Parse) (op : ℕ → Sop) (pos : ℕ) : Parse := p.emit (op (p.here - pos))

/-- `DROP(n)` -/
def Parse.drop (p : Parse) (n : ℕ) : Parse := { p with strip := p.strip.take (p.here - n) }

/-- `dupl` -/
def Parse.dupl (p : Parse) (start finish : ℕ) : Parse :=
  { p with strip := p.strip ++ (p.strip.drop start).take (finish - start) }

/-- `REQUIRE` -/
def require (co : Prop) [Decidable co] (e : Errno) : Except Errno Unit :=
  if co then .ok () else .error e

/-! ## Sets of characters -/

/-- All values of a `char`, by their value as an `unsigned char`. -/
def allChars : List Char := (List.range 256).map Char.ofNat

/-- The value of a `char`. -/
def schar (c : Char) : ℤ := if c.toNat < 128 then c.toNat else c.toNat - 256

/-- The `char` with a value. -/
def charOf (i : ℤ) : Char := Char.ofNat (i % 256).toNat

/-- `CHIN` -/
def Cset.has (cs : Cset) (c : Char) : Bool := cs.chars.contains c

/-- `CHadd` -/
def Cset.add (cs : Cset) (c : Char) : Cset where
  chars := if cs.has c then cs.chars else c :: cs.chars
  hash := (cs.hash + c.toNat) % 256

/-- `CHsub` -/
def Cset.sub (cs : Cset) (c : Char) : Cset where
  chars := cs.chars.filter (· ≠ c)
  hash := (cs.hash + 256 - c.toNat % 256) % 256

/-- A set after `allocset`. -/
def emptyCset : Cset := ⟨[], 0⟩

/-- The loop over all characters for `[^..]`. -/
def Cset.invert (cs : Cset) : Cset :=
  allChars.reverse.foldl (fun cs c => if cs.has c then cs.sub c else cs.add c) cs

/-- `nch` -/
def nch (cs : Cset) : ℕ := allChars.countP cs.has

/-- `firstch` -/
def firstch (cs : Cset) : Char := (allChars.find? cs.has).getD nul

/-- "maybe" the same set, and then the comparison. -/
def Cset.same (cs2 cs : Cset) : Bool :=
  cs2.hash == cs.hash && allChars.all fun c => cs2.has c == cs.has c

/-- `freezeset`, of a set behind the others: all sets, and its number. -/
def freezeset (sets : List Cset) (cs : Cset) : List Cset × ℕ :=
  match sets.findIdx? fun cs2 => cs2.same cs with
  | some i => (sets, i)
  | none => (sets ++ [cs], sets.length)

/-! ## Bracket expressions -/

/-- `cclasses`; the `multis` are all empty. -/
def cclasses : List (String × String) := [
  ("alnum", "ABCDEFGHIJKLMNOPQRSTUVWXYZabcdefghijklmnopqrstuvwxyz0123456789"),
  ("alpha", "ABCDEFGHIJKLMNOPQRSTUVWXYZabcdefghijklmnopqrstuvwxyz"),
  ("blank", " \t"),
  ("cntrl", String.ofList ((List.range 31).map (fun n => Char.ofNat (n + 1)) ++ ['\x7f'])),
  ("digit", "0123456789"),
  ("graph", "ABCDEFGHIJKLMNOPQRSTUVWXYZabcdefghijklmnopqrstuvwxyz0123456789" ++
    "!\"#$%&'()*+,-./:;<=>?@[\\]^_`\x7b|\x7d~"),
  ("lower", "abcdefghijklmnopqrstuvwxyz"),
  ("print", "ABCDEFGHIJKLMNOPQRSTUVWXYZabcdefghijklmnopqrstuvwxyz0123456789" ++
    "!\"#$%&'()*+,-./:;<=>?@[\\]^_`\x7b|\x7d~ "),
  ("punct", "!\"#$%&'()*+,-./:;<=>?@[\\]^_`\x7b|\x7d~"),
  ("space", "\t\n\x0b\x0c\r "),
  ("upper", "ABCDEFGHIJKLMNOPQRSTUVWXYZ"),
  ("xdigit", "0123456789ABCDEFabcdef")]

/-- `cnames` -/
def cnames : List (String × ℕ) := [
  ("NUL", 0), ("SOH", 1), ("STX", 2), ("ETX", 3), ("EOT", 4), ("ENQ", 5), ("ACK", 6), ("BEL", 7),
  ("alert", 7), ("BS", 8), ("backspace", 8), ("HT", 9), ("tab", 9), ("LF", 10), ("newline", 10),
  ("VT", 11), ("vertical-tab", 11), ("FF", 12), ("form-feed", 12), ("CR", 13),
  ("carriage-return", 13), ("SO", 14), ("SI", 15), ("DLE", 16), ("DC1", 17), ("DC2", 18),
  ("DC3", 19), ("DC4", 20), ("NAK", 21), ("SYN", 22), ("ETB", 23), ("CAN", 24), ("EM", 25),
  ("SUB", 26), ("ESC", 27), ("IS4", 28), ("FS", 28), ("IS3", 29), ("GS", 29), ("IS2", 30),
  ("RS", 30), ("IS1", 31), ("US", 31), ("space", 32), ("exclamation-mark", 33),
  ("quotation-mark", 34), ("number-sign", 35), ("dollar-sign", 36), ("percent-sign", 37),
  ("ampersand", 38), ("apostrophe", 39), ("left-parenthesis", 40), ("right-parenthesis", 41),
  ("asterisk", 42), ("plus-sign", 43), ("comma", 44), ("hyphen", 45), ("hyphen-minus", 45),
  ("period", 46), ("full-stop", 46), ("slash", 47), ("solidus", 47), ("zero", 48), ("one", 49),
  ("two", 50), ("three", 51), ("four", 52), ("five", 53), ("six", 54), ("seven", 55),
  ("eight", 56), ("nine", 57), ("colon", 58), ("semicolon", 59), ("less-than-sign", 60),
  ("equals-sign", 61), ("greater-than-sign", 62), ("question-mark", 63), ("commercial-at", 64),
  ("left-square-bracket", 91), ("backslash", 92), ("reverse-solidus", 92),
  ("right-square-bracket", 93), ("circumflex", 94), ("circumflex-accent", 94), ("underscore", 95),
  ("low-line", 95), ("grave-accent", 96), ("left-brace", 123), ("left-curly-bracket", 123),
  ("vertical-line", 124), ("right-brace", 125), ("right-curly-bracket", 125), ("tilde", 126),
  ("DEL", 127)]

/-- The loop of `p_b_coll_elem`: what is before `endc` and `]`, and the rest from there on. -/
def untilTwo (endc : Char) : Str → Str × Str
  | [] => ([], [])
  | c :: next =>
    if c == endc && next.head? == some ']' then ([], c :: next)
    else (c :: (untilTwo endc next).1, (untilTwo endc next).2)

/-- `p_b_coll_elem` -/
def pBCollElem (next : Str) (endc : Char) : Except Errno (Str × Char) :=
  let (name, next) := untilTwo endc next
  if next = [] then .error .REG_EBRACK
  else match cnames.find? fun cp => cp.1.toList == name with
    | some cp => .ok (next, Char.ofNat cp.2)
    | none => match name with
      | [c] => .ok (next, c)
      | _ => .error .REG_ECOLLATE

/-- `REQUIRE(EATTWO(a, b), e)` -/
def mustEatTwo (next : Str) (a b : Char) (e : Errno) : Except Errno Str :=
  match next with
  | c :: d :: next => if c = a ∧ d = b then .ok next else .error e
  | _ => .error e

/-- `p_b_symbol` -/
def pBSymbol (next : Str) : Except Errno (Str × Char) :=
  match next with
  | [] => .error .REG_EBRACK
  | '[' :: '.' :: next => do
    let (next, value) ← pBCollElem next '.'
    let next ← mustEatTwo next '.' ']' .REG_ECOLLATE
    return (next, value)
  | c :: next => .ok (next, c)

/-- `p_b_cclass` -/
def pBCclass (next : Str) (cs : Cset) : Except Errno (Str × Cset) :=
  match cclasses.find? fun cp => cp.1.toList == next.takeWhile Char.isAlpha with
  | some cp => .ok (next.dropWhile Char.isAlpha, cp.2.toList.foldl Cset.add cs)
  | none => .error .REG_ECTYPE

/-- `p_b_eclass` -/
def pBEclass (next : Str) (cs : Cset) : Except Errno (Str × Cset) := do
  let (next, c) ← pBCollElem next '='
  return (next, cs.add c)

/-- The characters of a range, in the order of their values. -/
def charRange (start finish : Char) : List Char :=
  (List.range (schar finish - schar start + 1).toNat).map fun k : ℕ =>
  charOf (schar start + (k : ℤ))

/-- What begins the second part of a range. -/
def seesRange : Str → Bool
  | '-' :: c :: _ => c ≠ ']'
  | _ => false

/-- `p_b_term`, behind the first symbol: the end of the range. -/
def pBFinish (next : Str) (start : Char) : Except Errno (Str × Char) :=
  if seesRange next then
    match next.tail with
    | '-' :: next => .ok (next, '-')
    | next => pBSymbol next
  else .ok (next, start)

/-- `p_b_term` -/
def pBTerm (next : Str) (cs : Cset) : Except Errno (Str × Cset) :=
  match next with
  | '-' :: _ => .error .REG_ERANGE
  | '[' :: ':' :: next => do
    require (next ≠ []) .REG_EBRACK
    require (next.head? ≠ some '-' ∧ next.head? ≠ some ']') .REG_ECTYPE
    let (next, cs) ← pBCclass next cs
    require (next ≠ []) .REG_EBRACK
    let next ← mustEatTwo next ':' ']' .REG_ECTYPE
    return (next, cs)
  | '[' :: '=' :: next => do
    require (next ≠ []) .REG_EBRACK
    require (next.head? ≠ some '-' ∧ next.head? ≠ some ']') .REG_ECOLLATE
    let (next, cs) ← pBEclass next cs
    require (next ≠ []) .REG_EBRACK
    let next ← mustEatTwo next '=' ']' .REG_ECOLLATE
    return (next, cs)
  | next => do
    let (next, start) ← pBSymbol next
    let (next, finish) ← pBFinish next start
    require (schar start ≤ schar finish) .REG_ERANGE
    return (next, (charRange start finish).foldl Cset.add cs)

/-- The loop of `p_bracket`. -/
def pBTerms : ℕ → Str → Cset → Except Errno (Str × Cset)
  | 0, _, _ => .error .REG_ASSERT
  | fuel + 1, next, cs =>
    match next with
    | [] => .ok ([], cs)
    | ']' :: _ => .ok (next, cs)
    | '-' :: ']' :: _ => .ok (next, cs)
    | _ => do
      let (next, cs) ← pBTerm next cs
      pBTerms fuel next cs

/-- `p_bracket`: the character that may stand first. -/
def pBracketLead : Str → Str × Cset
  | ']' :: next => (next, emptyCset.add ']')
  | '-' :: next => (next, emptyCset.add '-')
  | next => (next, emptyCset)

/-- `p_bracket`, from behind the `^` to the end of the text. -/
def pBracketTerms (next : Str) : Except Errno (Str × Cset) := do
  let (next, cs) ← pBTerms (next.length + 1) (pBracketLead next).1 (pBracketLead next).2
  match next with
  | ']' :: next => return (next, cs)
  | '-' :: ']' :: next => return (next, cs.add '-')
  | _ => throw .REG_EBRACK

/-- `p_bracket`, as far as it fills the set. -/
def pBracketSet (next : Str) : Except Errno (Str × Cset) :=
  match next with
  | '^' :: next => do
    let (next, cs) ← pBracketTerms next
    return (next, cs.invert)
  | next => pBracketTerms next

/-- `ordinary` -/
def Parse.ordinary (p : Parse) (c : Char) : Parse := p.emit (.oChar c)

/-- `p_bracket` -/
def pBracket (p : Parse) : Except Errno Parse := do
  -- "Dept of Truly Sickening Special-Case Kludges"; the set stays allocated
  if p.next.take 6 = "[:<:]]".toList then
    return Parse.emit { p with next := p.next.drop 6, sets := p.sets ++ [emptyCset] } .oBow
  if p.next.take 6 = "[:>:]]".toList then
    return Parse.emit { p with next := p.next.drop 6, sets := p.sets ++ [emptyCset] } .oEow
  let (next, cs) ← pBracketSet p.next
  let p := { p with next := next }
  if nch cs = 1 then return p.ordinary (firstch cs)
  let (sets, no) := freezeset p.sets cs
  return Parse.emit { p with sets := sets } (.oAnyOf no)

/-! ## Repetition -/

/-- `DUPMAX` -/
def DUPMAX : ℕ := 255

/-- `INFINITY` -/
def INFINITY : ℕ := DUPMAX + 1

/-- The loop of `p_count`. -/
def countLoop : Str → ℕ → ℕ → Str × ℕ × ℕ
  | [], count, ndigits => ([], count, ndigits)
  | c :: next, count, ndigits =>
    if c.isDigit ∧
      count ≤ DUPMAX then countLoop next (count * 10 + (c.toNat - '0'.toNat)) (ndigits + 1)
    else (c :: next, count, ndigits)

/-- `p_count` -/
def pCount (next : Str) : Except Errno (Str × ℕ) :=
  let (next, count, ndigits) := countLoop next 0 0
  if 0 < ndigits ∧ count ≤ DUPMAX then .ok (next, count) else .error .REG_BADBR

/-- The end of `(y|)`, whose `OCH_` stands at `pos`. -/
def Parse.closeQuest (p : Parse) (pos : ℕ) : Parse :=
  let p := p.astern .oOr1 pos
  let p := p.ahead pos
  let p := p.emit (.oOr2 0)
  let p := p.ahead (p.here - 1)
  p.astern .o_Ch (p.here - 2)

/-- `(y|)` around the operand from `pos` on. -/
def Parse.questAt (p : Parse) (pos : ℕ) : Parse := (p.insert .oCh_ pos).closeQuest pos

/-- `MAP` -/
def repMap (n : ℕ) : ℕ := if n ≤ 1 then n else if n = INFINITY then 3 else 2

/-- `repeat`, with a bound for the depth. -/
def repeat_ : ℕ → Parse → (start from_ to_ : ℕ) → Except Errno Parse
  | 0, _, _, _, _ => .error .REG_ASSERT
  | fuel + 1, p, start, from_, to_ =>
    let finish := p.here
    match repMap from_, repMap to_ with
    | 0, 0 => .ok (p.drop (finish - start))
    | 0, 1 | 0, 2 | 0, 3 => do
      let p := p.insert .oCh_ start
      let p ← repeat_ fuel p (start + 1) 1 to_
      return p.closeQuest start
    | 1, 1 => .ok p
    | 1, 2 =>
      let p := p.questAt start
      let copy := p.here
      let p := p.dupl (start + 1) (finish + 1)
      repeat_ fuel p copy 1 (to_ - 1)
    | 1, 3 =>
      let p := p.insert .oPlus_ start
      .ok (p.astern .o_Plus start)
    | 2, 2 =>
      let copy := p.here
      let p := p.dupl start finish
      repeat_ fuel p copy (from_ - 1) (to_ - 1)
    | 2, 3 =>
      let copy := p.here
      let p := p.dupl start finish
      repeat_ fuel p copy (from_ - 1) to_
    | _, _ => .error .REG_ASSERT

/-! ## The parser -/

/-- "we call { a repetition if followed by a digit" -/
def seesRepeat : Str → Bool
  | '*' :: _ | '+' :: _ | '?' :: _ => true
  | '{' :: c :: _ => c.isDigit
  | _ => false

/-- `if (!SEE(')')) p_ere(p, ')')` -/
def unlessClosed (ere : Parse → Except Errno Parse) (p : Parse) : Except Errno Parse :=
  if p.next.head? = some ')' then .ok p else ere p

/-- `p_ere_exp`, the first `switch`: an atom, whose first character has been read. -/
def pAtom (ere : Parse → Except Errno Parse) (c : Char) (p : Parse) : Except Errno Parse :=
  match c with
  | '(' => do
    require (p.next ≠ []) .REG_EPAREN
    let subno := p.nsub + 1
    let p := Parse.emit { p with nsub := subno } (.oLparen subno)
    let p ← unlessClosed ere p
    let p := p.emit (.oRparen subno)
    require (p.next.head? = some ')') .REG_EPAREN
    return { p with next := p.next.tail }
  | ')' => .error .REG_EPAREN
  | '^' => .ok (Parse.emit { p with nbol := p.nbol + 1 } .oBol)
  | '$' => .ok (Parse.emit { p with neol := p.neol + 1 } .oEol)
  | '|' => .error .REG_EMPTY
  | '*' | '+' | '?' => .error .REG_BADRPT
  | '.' => .ok (p.emit .oAny)
  | '[' => pBracket p
  | '\\' =>
    match p.next with
    | [] => .error .REG_EESCAPE
    | c :: next => .ok ({ p with next := next }.ordinary c)
  | '{' =>
    -- "okay as ordinary except if digit follows"
    if (p.next.head?.any Char.isDigit) = true then .error .REG_BADRPT else .ok (p.ordinary c)
  | _ => .ok (p.ordinary c)

/-- The part of `p_ere_exp` for a bound: the second count. -/
def pCount2 (next : Str) (count : ℕ) : Except Errno (Str × ℕ) :=
  match next with
  | ',' :: next =>
    if (next.head?.any Char.isDigit) = true then do
      let (next, count2) ← pCount next
      require (count ≤ count2) .REG_BADBR
      return (next, count2)
    else .ok (next, INFINITY)
  | next => .ok (next, count)

/-- The part of `p_ere_exp` for a bound: its end. -/
def eatBrace (p : Parse) : Except Errno Parse :=
  match p.next with
  | '}' :: next => .ok { p with next := next }
  | next => if '}' ∈ next then .error .REG_BADBR else .error .REG_EBRACE

/-- The part of `p_ere_exp` for a bound, behind the `{`. -/
def pBound (p : Parse) (pos : ℕ) : Except Errno Parse := do
  let (next, count) ← pCount p.next
  let (next, count2) ← pCount2 next count
  let p ← repeat_ (count + count2 + 2) { p with next := next } pos count count2
  eatBrace p

/-- `p_ere_exp`, the second `switch`: the repetition of the operand from `pos` on. -/
def pRepeat (c : Char) (pos : ℕ) (p : Parse) : Except Errno Parse :=
  match c with
  | '*' =>
    let p := p.insert .oPlus_ pos
    let p := p.astern .o_Plus pos
    let p := p.insert .oQuest_ pos
    .ok (p.astern .o_Quest pos)
  | '+' =>
    let p := p.insert .oPlus_ pos
    .ok (p.astern .o_Plus pos)
  | '?' => .ok (p.questAt pos)
  | _ => pBound p pos

/-- `p_ere_exp` -/
def pEreExp (ere : Parse → Except Errno Parse) (p : Parse) : Except Errno Parse := do
  match p.next with
  | [] => throw .REG_ASSERT
  | c :: next =>
    let pos := p.here
    let p ← pAtom ere c { p with next := next }
    if seesRepeat p.next then do
      require (c ≠ '^') .REG_BADRPT
      let p ← pRepeat (p.next.headD nul) pos { p with next := p.next.tail }
      require (seesRepeat p.next = false) .REG_BADRPT
      return p
    else return p

/-- "do a bunch of concatenated expressions" -/
def pConc (exp : Parse → Except Errno Parse) (stop : Option Char) : ℕ → Parse → Except Errno Parse
  | 0, _ => .error .REG_ASSERT
  | fuel + 1, p =>
    match p.next with
    | [] => .ok p
    | c :: _ =>
      if c = '|' ∨ some c = stop then .ok p
      else do
        let p ← exp p
        pConc exp stop fuel p

/-- What the loop of `p_ere` does behind a `|`, with the new `prevback` and `prevfwd`; `prev` are
the old ones, once `first` is no longer set. -/
def Parse.nextBranch (p : Parse) (prev : Option (ℕ × ℕ)) (conc : ℕ) : Parse × ℕ × ℕ :=
  let (p, prevback, prevfwd) := match prev with
    | none => (p.insert .oCh_ conc, conc, conc)
    | some (prevback, prevfwd) => (p, prevback, prevfwd)
  let p := p.astern .oOr1 prevback
  let prevback := p.here - 1
  let p := p.ahead prevfwd
  let prevfwd := p.here
  (p.emit (.oOr2 0), prevback, prevfwd)

/-- "tail-end fixups" -/
def Parse.lastBranch (p : Parse) (prev : Option (ℕ × ℕ)) : Parse :=
  match prev with
  | none => p
  | some (prevback, prevfwd) => (p.ahead prevfwd).astern .o_Ch prevback

/-- The loop of `p_ere`. -/
def pAlts (exp : Parse → Except Errno Parse) (stop : Option Char) :
    ℕ → Option (ℕ × ℕ) → Parse → Except Errno Parse
  | 0, _, _ => .error .REG_ASSERT
  | fuel + 1, prev, p => do
    let conc := p.here
    let p ← pConc exp stop (p.next.length + 1) p
    require (p.here ≠ conc) .REG_EMPTY
    match p.next with
    | '|' :: next =>
      let (p, prev) := Parse.nextBranch { p with next := next } prev conc
      pAlts exp stop fuel (some prev) p
    | _ => return p.lastBranch prev

/-- `p_ere` -/
def pEre : ℕ → Option Char → Parse → Except Errno Parse
  | 0, _, _ => .error .REG_ASSERT
  | fuel + 1, stop, p => pAlts (pEreExp (pEre fuel (some ')'))) stop (p.next.length + 1) none p

/-! ## The finished strip -/

/-- The inner loop of `findmust`: where it ends, `none` for `BAD`. -/
def skipTo (strip : List Sop) : ℕ → ℕ → Sop → Option ℕ
  | 0, _, _ => none
  | fuel + 1, scan, s =>
    match strip[scan + s.opnd]? with
    | some (.o_Quest _) | some (.o_Ch _) => some (scan + s.opnd)
    | some (.oOr2 n) => skipTo strip fuel (scan + s.opnd) (.oOr2 n)
    | _ => none

/-- The variables of `findmust`: the longest sequence so far, and the one that is being read. -/
structure Longest where
  start : ℕ
  mlen : ℕ
  newstart : ℕ
  newlen : ℕ
  deriving DecidableEq, Repr

/-- "things that break a sequence" -/
def Longest.ended (l : Longest) : Longest :=
  if l.mlen < l.newlen then { l with start := l.newstart, mlen := l.newlen, newlen := 0 }
  else { l with newlen := 0 }

/-- The loop of `findmust`: the longest sequence, `none` for `BAD`. -/
def findLoop (strip : List Sop) : ℕ → ℕ → Longest → Option Longest
  | 0, _, _ => none
  | fuel + 1, scan, l =>
    match strip[scan]? with
    | none => none
    | some .oEnd => some l.ended
    | some (.oChar _) =>
      let newstart := if l.newlen = 0 then scan else l.newstart
      findLoop strip fuel (scan + 1) { l with newstart := newstart, newlen := l.newlen + 1 }
    | some (.oPlus_ _) | some (.oLparen _) | some (.oRparen _) => findLoop strip fuel (scan + 1) l
    | some (.oQuest_ n) => do
      let scan ← skipTo strip strip.length scan (.oQuest_ n)
      findLoop strip fuel scan l.ended
    | some (.oCh_ n) => do
      let scan ← skipTo strip strip.length scan (.oCh_ n)
      findLoop strip fuel scan l.ended
    | some _ => findLoop strip fuel (scan + 1) l.ended

/-- "turn it into a character string" -/
def mustFrom : List Sop → ℕ → Str
  | _, 0 => []
  | [], _ => []
  | .oChar c :: strip, n + 1 => c :: mustFrom strip n
  | _ :: strip, n + 1 => mustFrom strip (n + 1)

/-- `findmust`: `must`, if there is one; `none` for `BAD`. -/
def findmust (strip : List Sop) : Option (Option Str) := do
  let l ← findLoop strip (strip.length + 1) 1 ⟨0, 0, 0, 0⟩
  return if l.mlen = 0 then none else some (mustFrom (strip.drop l.start) l.mlen)

/-- The loop of `pluscount`. -/
def plusLoop : List Sop → ℤ → ℤ → ℤ × ℤ
  | [], plusnest, maxnest => (plusnest, maxnest)
  | .oEnd :: _, plusnest, maxnest => (plusnest, maxnest)
  | .oPlus_ _ :: strip, plusnest, maxnest => plusLoop strip (plusnest + 1) maxnest
  | .o_Plus _ :: strip, plusnest, maxnest => plusLoop strip (plusnest - 1) (max plusnest maxnest)
  | _ :: strip, plusnest, maxnest => plusLoop strip plusnest maxnest

/-- `pluscount`: the depth, and whether the strip is `BAD`. -/
def pluscount (strip : List Sop) : ℕ × Bool :=
  let (plusnest, maxnest) := plusLoop (strip.drop 1) 0 0
  (maxnest.toNat, plusnest ≠ 0)

/-- `regcomp`, on a strip whose operands are as large as they have to be. -/
def regcomp (pattern : Str) : Except Errno Guts := do
  let p : Parse := { next := pattern, strip := [], nsub := 0, nbol := 0, neol := 0, sets := [] }
  let p := p.emit .oEnd
  let p ← pEre (pattern.length + 1) none p
  let p := p.emit .oEnd
  let (nplus, bad) := pluscount p.strip
  match findmust p.strip with
  | none => throw .REG_ASSERT
  | some must =>
    require (bad = false) .REG_ASSERT
    return {
      strip := p.strip, sets := p.sets, firststate := 0, laststate := p.here - 1, bad := false,
      nbol := p.nbol, neol := p.neol, must := must, nplus := nplus }

end Spegla.Regex
