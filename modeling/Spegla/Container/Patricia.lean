import Mathlib.Algebra.Group.Int.Defs
import Mathlib.Algebra.Group.Nat.Defs
import Mathlib.Data.List.Basic
import Mathlib.Data.List.Infix
import Mathlib.Tactic.Common
import Spegla.Lib.BitTree

/-!
# Patricia trees (`container.c`, `pat_init` to `pat_count`)

A map from keys, which are byte strings, in a tree that branches on their bits. A tree of two keys
or more has a node for each key but one; a single key is in the tree itself.

- `patKeysMatch`, `lowestDiffBit`: keys are compared as if they went on with zeros. The loops step
  past the end of the shorter key before they use the zeros; a read there is undefined (`none`).
- `PatTree` and the operations, as the source has them. The node that the second key makes is not
  given its `pat_bit`; `lowest_diff_bit` gives the bit within the byte in which the keys differ.
- `PatWorks`, `PatSteady`: a run gives what a finite map gives; the runs that do.
-/

namespace Spegla

open BitTree

variable {α : Type}

/-! ## Keys -/

/-- `bit_is_set`. -/
def bitIsSet (bitNr : Nat) (bitField : List UInt8) : Option Bool :=
  (bitField[bitNr / 8]?).map fun byte => byte.toNat.testBit (bitNr % 8)

/-- `ffs`, of a byte: the lowest bit that is set, from 1 on. -/
def ffs (x : UInt8) : Nat :=
  match (List.range 8).find? (x.toNat.testBit ·) with
  | none => 0
  | some i => i + 1

/-- The loop of `lowest_diff_bit`. A pointer is the bytes from there to the end of the key, and
`[0]` is `&zeroes`. -/
def diffBitLoop : Nat → List UInt8 → Int → List UInt8 → Int → Option Nat
  | 0, _, _, _, _ => none
  | fuel + 1, n1, sl1, n2, sl2 =>
    -- the program exits
    if sl1 < 0 ∧ sl2 < 0 then none
    else do
      let byte1 ← n1.head?
      let byte2 ← n2.head?
      let diffBit := (ffs (byte1 ^^^ byte2) : Int) - 1
      if 0 ≤ diffBit then return diffBit.toNat
      else
        diffBitLoop fuel
          (if 0 ≤ sl1 then n1.tail else [0]) (if 0 ≤ sl1 then sl1 - 1 else -1)
          (if 0 ≤ sl2 then n2.tail else [0]) (if 0 ≤ sl2 then sl2 - 1 else -1)

/-- `lowest_diff_bit`. The lengths become `int`s. -/
def lowestDiffBit (n1 : List UInt8) (l1 : Nat) (n2 : List UInt8) (l2 : Nat) : Option Nat :=
  let sl1 := (l1 : Int).bmod (2 ^ 32)
  let sl2 := (l2 : Int).bmod (2 ^ 32)
  diffBitLoop (max l1 l2 + 3)
    (if sl1 = 0 then [0] else n1) (if sl1 = 0 then -1 else sl1)
    (if sl2 = 0 then [0] else n2) (if sl2 = 0 then -1 else sl2)

/-- The loop of `pat_keys_match`. -/
def keysMatchLoop : Nat → List UInt8 → Nat → List UInt8 → Nat → Option Bool
  | 0, _, _, _, _ => none
  | fuel + 1, k1, l1, k2, l2 =>
    if l1 = 0 ∧ l2 = 0 then some true
    else do
      let byte1 ← k1.head?
      let byte2 ← k2.head?
      if byte1 ≠ byte2 then return false
      else
        keysMatchLoop fuel (if l1 ≠ 0 then k1.tail else [0]) (l1 - 1)
          (if l2 ≠ 0 then k2.tail else [0]) (l2 - 1)

/-- `pat_keys_match`. -/
def patKeysMatch (k1 : List UInt8) (l1 : Nat) (k2 : List UInt8) (l2 : Nat) : Option Bool :=
  keysMatchLoop (max l1 l2 + 1) (if l1 = 0 then [0] else k1) l1
    (if l1 ≠ 0 ∧ l2 = 0 then [0] else k2) l2

/-! ## The tree -/

/-- A leg of a node that is a leaf: `pat_key`, `pat_key_len` and `pat_data`. -/
structure PatLeaf (α : Type) where
  patKey : List UInt8
  patKeyLen : Nat
  patData : α
deriving DecidableEq, Repr

/-- `pat_make_leaf`. The length is kept in 16 bits. -/
def patMakeLeaf (key : List UInt8) (keyLen : Nat) (data : α) : PatLeaf α :=
  { patKey := key, patKeyLen := keyLen % 2 ^ 16, patData := data }

/-- `struct pat_tree`. `patOne` is the key that is in the tree itself, with its data. -/
structure PatTree (α : Type) where
  patKeys : Nat
  patRoot : Option (BitTree (PatLeaf α))
  patOne : Option (PatLeaf α)
deriving DecidableEq, Repr

/-- `pat_init`. -/
def patInit : PatTree α := { patKeys := 0, patRoot := none, patOne := none }

/-- `pat_count`. -/
def patCount (pat : PatTree α) : Nat := pat.patKeys

/-- The walk down to a leaf: the nodes on the way with the legs that are taken, and the leaf. -/
def patDescend (key : List UInt8) :
    BitTree (PatLeaf α) → Option (List (Nat × Bool) × PatLeaf α)
  | .leaf p => some ([], p)
  | .node patBit l r => do
    let bitSet ← bitIsSet patBit key
    let (path, p) ← if bitSet then patDescend key r else patDescend key l
    return ((patBit, bitSet) :: path, p)

/-- `for (j = i; j > 0 && p_list[j]->pat_bit > diff_bit; j--);` -/
def patBack (path : List (Nat × Bool)) (diffBit : Nat) : Nat → Nat
  | 0 => 0
  | j + 1 => if (path.getD (j + 1) (0, false)).1 > diffBit then patBack path diffBit j else j + 1

/-- `pat_ins`, when there are two keys or more; `false` is `EEXIST`. -/
def patInsCommon (pat : PatTree α) (key : List UInt8) (keyLen : Nat) (data : α) :
    Option (Bool × PatTree α) := do
  let root ← pat.patRoot
  let (path, p) ← patDescend key root
  -- `p_list` has `pat_key_len_max` slots
  if pat.patKeys % 2 ^ 16 < path.length then none
  else
    let found ← patKeysMatch p.patKey p.patKeyLen key keyLen
    if found then return (false, pat)
    else
      let diffBit ← lowestDiffBit p.patKey p.patKeyLen key keyLen
      let j := patBack path diffBit (path.length - 1)
      let bitSet ← bitIsSet diffBit key
      let leaf := BitTree.leaf (patMakeLeaf key keyLen data)
      let root :=
        if j = 0 ∧ (path.getD 0 (0, false)).1 > diffBit then fork diffBit bitSet leaf root
        else modifyAt (fork diffBit bitSet leaf) ((path.take (j + 1)).map Prod.snd) root
      return (true, { pat with patKeys := (pat.patKeys + 1) % 2 ^ 32, patRoot := some root })

/-- `pat_ins`. `patBit` is what the memory for a node has in the place of `pat_bit`. -/
def patIns (pat : PatTree α) (key : List UInt8) (keyLen : Nat) (data : α) (patBit : Nat) :
    Option (Bool × PatTree α) :=
  if pat.patKeys < 2 then
    if pat.patKeys = 1 then do
      let one ← pat.patOne
      let found ← patKeysMatch one.patKey one.patKeyLen key (keyLen % 2 ^ 32)
      if found then return (false, pat)
      else
        let diffBit ← lowestDiffBit one.patKey one.patKeyLen key (keyLen % 2 ^ 32)
        let bitSet ← bitIsSet diffBit key
        let root := fork patBit bitSet (.leaf (patMakeLeaf key keyLen data))
          (.leaf (patMakeLeaf one.patKey one.patKeyLen one.patData))
        return (true, { pat with patKeys := 2, patRoot := some root })
    else some (true, { pat with patKeys := 1, patOne := some (patMakeLeaf key keyLen data) })
  else patInsCommon pat key keyLen data

/-- `pat_find`; it fails with `some none`. -/
def patFind (pat : PatTree α) (key : List UInt8) (keyLen : Nat) : Option (Option α) :=
  if pat.patKeys < 2 then
    if pat.patKeys = 0 then some none
    else do
      let one ← pat.patOne
      let found ← patKeysMatch one.patKey one.patKeyLen key keyLen
      if found then return some one.patData else return none
  else do
    let root ← pat.patRoot
    let (_, p) ← patDescend key root
    let found ← patKeysMatch p.patKey p.patKeyLen key keyLen
    if found then return some p.patData else return none

/-- `pat_rem`, when there are three keys or more. -/
def patRemCommon (pat : PatTree α) (key : List UInt8) (keyLen : Nat) :
    Option (Option (α × PatTree α)) := do
  let root ← pat.patRoot
  let (path, p) ← patDescend key root
  let found ← patKeysMatch p.patKey p.patKeyLen key keyLen
  if found then
    let bitSet := (path.getLastD (0, false)).2
    let root := modifyAt (other bitSet) (path.dropLast.map Prod.snd) root
    match root with
    -- the other leg of the root is used as a node
    | .leaf _ => none
    | .node .. =>
      return some (p.patData, { pat with patKeys := pat.patKeys - 1, patRoot := some root })
  else return none

/-- `pat_rem`: the data, and the tree without the key; it fails with `some none`. -/
def patRem (pat : PatTree α) (key : List UInt8) (keyLen : Nat) :
    Option (Option (α × PatTree α)) :=
  match pat.patKeys with
  | 0 => some none
  | 1 => do
    let one ← pat.patOne
    let found ← patKeysMatch one.patKey one.patKeyLen key keyLen
    if found then return some (one.patData, { pat with patKeys := 0 }) else return none
  | 2 =>
    match pat.patRoot with
    | some (.node _ (.leaf p0) (.leaf p1)) => do
      let found ← patKeysMatch key keyLen p0.patKey p0.patKeyLen
      if found then
        return some (p0.patData, { patKeys := 1, patRoot := none, patOne := some p1 })
      else
        let found ← patKeysMatch key keyLen p1.patKey p1.patKeyLen
        if found then
          return some (p1.patData, { patKeys := 1, patRoot := none, patOne := some p0 })
        else return none
    | _ => none
  | _ => patRemCommon pat key keyLen

/-! ## Runs -/

/-- One call, with a key that is not empty, and its length. -/
inductive PatOp (α : Type) where
  | ins (key : {key : List UInt8 // key ≠ []}) (data : α) (patBit : Fin (2 ^ 16))
  | find (key : {key : List UInt8 // key ≠ []})
  | rem (key : {key : List UInt8 // key ≠ []})

def PatOp.key : PatOp α → List UInt8
  | .ins key .. => key.val
  | .find key => key.val
  | .rem key => key.val

def PatOp.isIns : PatOp α → Bool
  | .ins .. => true
  | _ => false

def PatOp.isRem : PatOp α → Bool
  | .rem .. => true
  | _ => false

/-- What the caller gets: 0, `EEXIST`, the data, or `ENOENT`. -/
inductive PatRes (α : Type) where
  | inserted
  | present
  | found (data : α)
  | absent
deriving DecidableEq, Repr

/-- A call: what it gives, and the tree after it. -/
def patStep (pat : PatTree α) : PatOp α → Option (PatRes α × PatTree α)
  | .ins key data patBit =>
    (patIns pat key.val key.val.length data patBit).map fun
      | (true, pat') => (.inserted, pat')
      | (false, pat') => (.present, pat')
  | .find key =>
    (patFind pat key.val key.val.length).map fun
      | some data => (.found data, pat)
      | none => (.absent, pat)
  | .rem key =>
    (patRem pat key.val key.val.length).map fun
      | some (data, pat') => (.found data, pat')
      | none => (.absent, pat)

/-- The same call on a finite map: its keys, with their data. -/
def mapStep (xs : List (List UInt8 × α)) (op : PatOp α) : PatRes α × List (List UInt8 × α) :=
  match op, xs.find? (·.1 = op.key) with
  | .ins key data _, none => (.inserted, (key.val, data) :: xs)
  | .ins .., some _ => (.present, xs)
  | .find _, none => (.absent, xs)
  | .find _, some x => (.found x.2, xs)
  | .rem _, none => (.absent, xs)
  | .rem key, some x => (.found x.2, xs.filter (·.1 ≠ key.val))

/-- From `pat` on, every call is defined and gives what it gives on the finite map `xs`, of which
`pat_count` counts the keys. -/
def PatWorks (pat : PatTree α) (xs : List (List UInt8 × α)) : List (PatOp α) → Prop
  | [] => patCount pat = xs.length
  | op :: ops => patCount pat = xs.length ∧
      ∃ r pat', patStep pat op = some (r, pat') ∧ r = (mapStep xs op).1 ∧
        PatWorks pat' (mapStep xs op).2 ops

/-- Neither of two keys is the beginning of the other. -/
def Apart (k1 k2 : List UInt8) : Prop := ¬k1 <+: k2 ∧ ¬k2 <+: k1

instance (k1 k2 : List UInt8) : Decidable (Apart k1 k2) :=
  inferInstanceAs (Decidable (¬k1 <+: k2 ∧ ¬k2 <+: k1))

/-- The bits of the first byte of a key. -/
def firstBit (key : List UInt8) (i : Nat) : Bool := (key.headD 0).toNat.testBit i

/-- The lowest bit in which the first bytes of two keys differ. -/
def LowestDiff (i : Nat) (k1 k2 : List UInt8) : Prop :=
  firstBit k1 i ≠ firstBit k2 i ∧ ∀ j < i, firstBit k1 j = firstBit k2 j

/-- A call that does not meet what is wrong with the tree of the keys `xs`; `ready` says that the
first node of the tree was made in memory that had the right `pat_bit`. -/
structure PatFits (ready : Prop) (xs : List (List UInt8 × α)) (op : PatOp α) : Prop where
  /-- No key that is compared ends inside the other. -/
  apart : ∀ x ∈ xs, op.key = x.1 ∨ Apart op.key x.1
  /-- The length of a key fits into 16 bits. -/
  short : op.isIns → op.key.length < 2 ^ 16
  /-- The tree is searched only when the bit of its first node is right. -/
  searched : 2 ≤ xs.length → (op.isRem → xs.length ≠ 2) → ready
  /-- A tree gets only keys that differ from the others in the first byte. -/
  first : op.isIns → 2 ≤ xs.length → ∀ x ∈ xs, op.key = x.1 ∨ op.key.headD 0 ≠ x.1.headD 0

/-- Whether the first node is right: the second key makes it. -/
def readyAfter (ready : Prop) (xs : List (List UInt8 × α)) (op : PatOp α) : Prop :=
  match op, xs with
  | .ins key _ patBit, [x] => LowestDiff patBit key.val x.1
  | _, _ => ready

/-- Every call of a run is such a call. -/
def PatSteady (ready : Prop) (xs : List (List UInt8 × α)) : List (PatOp α) → Prop
  | [] => True
  | op :: ops => PatFits ready xs op ∧ PatSteady (readyAfter ready xs op) (mapStep xs op).2 ops

end Spegla
