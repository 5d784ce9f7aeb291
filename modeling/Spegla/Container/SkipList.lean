import Mathlib.Algebra.Group.Int.Defs
import Mathlib.Algebra.Group.Nat.Defs
import Mathlib.Data.List.Basic
import Mathlib.Data.List.Infix
import Mathlib.Logic.Function.Basic
import Mathlib.Tactic.Common
import Spegla.Lib.Linked

/-!
# Skip lists (`container.c`, `sl_init` to `sl_rem`)

Entries in the order of their keys, in nodes with forward pointers on several levels.

- `SlMem`, `forwAt`, `setForw`: the nodes in memory. A read is undefined (`none`) where the node has
  been freed, has no pointer on that level, or has not had one written.
- `SkipList` and the operations, as the source has them. Allocations succeed and give new addresses.
- `SkipList.Holds`: on every level, the pointers chain the cells that reach up to it.
- `SkipList.Holds.slDescend_head`: the last cells below a key are found on every level.
- `slSplice_some`, `slUnsplice_some`: which pointers are written to put a node in, or to take it
  out.
-/

namespace Spegla

variable {α : Type}

/-! ## Nodes in memory -/

/-- `SL_MAX_LEVELS`, one more than `SL_MAX_LEVEL`. -/
def SL_MAX_LEVELS : Nat := 16

/-- `struct skip_list_node`, with its array of `slnSlots` pointers; `none` is one that has not been
written. The data of the head and of `sl_NIL` is a null pointer. -/
structure SlNode (α : Type) where
  slnData : Option α
  slnKey : Nat
  slnSlots : Nat
  slnForw : Nat → Option Nat

abbrev SlMem (α : Type) := Nat → Option (SlNode α)

/-- The null pointer, and the address of `sl_NIL`. -/
def NULL : Nat := 0
def SL_NIL : Nat := 1

/-- The key of `sl_NIL`. -/
def NIL_KEY : Nat := 0xffffffff

def keyAt (mem : SlMem α) (p : Nat) : Option Nat := (mem p).map SlNode.slnKey

def dataAt (mem : SlMem α) (p : Nat) : Option (Option α) := (mem p).map SlNode.slnData

/-- `p->sln_forw[i]`. -/
def forwAt (mem : SlMem α) (p i : Nat) : Option Nat :=
  (mem p).bind fun n => if i < n.slnSlots then n.slnForw i else none

/-- `p->sln_forw[i] = q`. -/
def setForw (mem : SlMem α) (p i q : Nat) : Option (SlMem α) :=
  (mem p).bind fun n =>
    if i < n.slnSlots then
      some (Function.update mem p (some { n with slnForw := Function.update n.slnForw i (some q) }))
    else none

/-! ## The operations -/

/-- `struct skip_list`, with the memory of its nodes and the address of the next node. -/
structure SkipList (α : Type) where
  mem : SlMem α
  slHead : Nat
  slLevel : Nat
  fresh : Nat

/-- `sl_new_node`. -/
def slNewNode (level key : Nat) (data : Option α) : SlNode α :=
  { slnData := data, slnKey := key, slnSlots := level + 1, slnForw := fun _ => none }

/-- `sl_NIL_space`. -/
def slNilSpace : SlNode α :=
  { slnData := none, slnKey := NIL_KEY, slnSlots := 1, slnForw := fun _ => some NULL }

/-- `sl_init`. -/
def slInit : SkipList α :=
  let head : SlNode α :=
    { slNewNode SL_MAX_LEVELS 0 none with
      slnForw := fun i => if i < SL_MAX_LEVELS then some SL_NIL else none }
  { mem := fun p => if p = SL_NIL then some slNilSpace else if p = 2 then some head else none
    slHead := 2
    slLevel := 0
    fresh := 3 }

/-- How many levels the loops from `sl_level` down go through: `sl_level` is unsigned, and −1 for an
empty list. -/
def SkipList.rounds (s : SkipList α) : Nat := ((s.slLevel : Int).bmod (2 ^ 32) + 1).toNat

/-- `for (; p->sln_forw[i]->sln_key < key; p = p->sln_forw[i]);` -/
def slForward (mem : SlMem α) (key i : Nat) : Nat → Nat → Option Nat
  | 0, _ => none
  | fuel + 1, p => do
    let q ← forwAt mem p i
    let k ← keyAt mem q
    if k < key then slForward mem key i fuel q else some p

/-- The loop over the levels: the node that is reached, and the array `update` up to the level at
which the loop starts. -/
def slDescend (mem : SlMem α) (fuel key : Nat) : Nat → Nat → Option (Nat × List Nat)
  | 0, p => some (p, [])
  | i + 1, p => do
    let p ← slForward mem key i fuel p
    let (q, update) ← slDescend mem fuel key i p
    return (q, update ++ [p])

/-- `sl_find_pos`; it fails with `some none`. -/
def slFindPos (s : SkipList α) (key : Nat) : Option (Option (Nat × Option α)) := do
  let (p, _) ← slDescend s.mem s.fresh key s.rounds s.slHead
  let p ← forwAt s.mem p 0
  let k ← keyAt s.mem p
  if k ≠ key then return none
  else return some (p, ← dataAt s.mem p)

/-- The loop of `sl_ins` that splices the node `p` in. -/
def slSplice (update : List Nat) (p : Nat) : List Nat → SlMem α → Option (SlMem α)
  | [], mem => some mem
  | i :: is, mem => do
    let u ← update[i]?
    let q ← forwAt mem u i
    let mem ← setForw mem p i q
    let mem ← setForw mem u i p
    slSplice update p is mem

/-- `sl_ins`, with the level that is drawn for the node. -/
def slIns (s : SkipList α) (key : Nat) (data : α) (newLevel : Nat) : Option (SkipList α) := do
  let (_, update) ← slDescend s.mem s.fresh key s.rounds s.slHead
  let raised := newLevel + 1 > s.rounds
  let update := update ++ List.replicate (newLevel + 1 - s.rounds) s.slHead
  let p := s.fresh
  let mem := Function.update s.mem p (some (slNewNode newLevel key (some data)))
  let mem ← slSplice update p (List.range (newLevel + 1)) mem
  return { s with mem := mem, slLevel := if raised then newLevel else s.slLevel, fresh := p + 1 }

/-- The loop of `sl_rem` that takes the node `p` out, level by level until one on which it is not.
-/
def slUnsplice (update : List Nat) (p : Nat) : List Nat → SlMem α → Option (SlMem α)
  | [], mem => some mem
  | i :: is, mem => do
    let u ← update[i]?
    let q ← forwAt mem u i
    if q ≠ p then return mem
    else
      let r ← forwAt mem p i
      let mem ← setForw mem u i r
      slUnsplice update p is mem

/-- `for (; level >= 0 && p->sln_forw[level] == sl_NIL; level--);`, with `level + 1` for `level`. -/
def slLower (mem : SlMem α) (head : Nat) : Nat → Option Nat
  | 0 => some 0
  | level + 1 => do
    let q ← forwAt mem head level
    if q = SL_NIL then slLower mem head level else some (level + 1)

/-- `sl_rem`: the data, and the list without the entry; it fails with `some none`. -/
def slRem (s : SkipList α) (key : Nat) : Option (Option (Option α × SkipList α)) := do
  let (p, update) ← slDescend s.mem s.fresh key s.rounds s.slHead
  let p ← forwAt s.mem p 0
  let k ← keyAt s.mem p
  if k ≠ key then return none
  else
    let mem ← slUnsplice update p (List.range s.rounds) s.mem
    let data ← dataAt mem p
    let mem := Function.update mem p none
    let level ← slLower mem s.slHead s.rounds
    return some (data, { s with mem := mem, slLevel := (((level : Int) - 1) % 2 ^ 32).toNat })

/-- `sl_find_first_pos`. -/
def slFindFirstPos (s : SkipList α) : Option (Nat × Option α) := do
  let p ← forwAt s.mem s.slHead 0
  return (p, ← dataAt s.mem p)

/-- `sl_walk`; it fails with `some none`. -/
def slWalk (s : SkipList α) (pos : Nat) : Option (Option (Nat × Option α)) := do
  let q ← forwAt s.mem pos 0
  if q = SL_NIL then return none
  else return some (q, ← dataAt s.mem q)

/-- Calls of `sl_walk` until it fails, and the data that they give. -/
def slWalkOn (s : SkipList α) : Nat → Nat → Option (List (Option α))
  | 0, _ => none
  | fuel + 1, pos => do
    match ← slWalk s pos with
    | none => return []
    | some (pos, data) => return data :: (← slWalkOn s fuel pos)

/-- A walk from `sl_find_first_pos`. -/
def slWalkAll (s : SkipList α) : Option (List (Option α)) := do
  let (pos, data) ← slFindFirstPos s
  return data :: (← slWalkOn s s.fresh pos)

/-! ## Runs -/

/-- One call, with a key below that of `sl_NIL` and, for a node, a level that may be drawn. A walk
is `sl_find_first_pos` and calls of `sl_walk`. -/
inductive SlOp (α : Type) where
  | ins (key : Fin NIL_KEY) (data : α) (level : Fin SL_MAX_LEVELS)
  | find (key : Fin NIL_KEY)
  | rem (key : Fin NIL_KEY)
  | walk

/-- What the caller gets. -/
inductive SlRes (α : Type) where
  | inserted
  | failed
  | found (data : Option α)
  | visited (data : List (Option α))
deriving DecidableEq, Repr

/-- A call: what it gives, and the list after it. -/
def slStep (s : SkipList α) : SlOp α → Option (SlRes α × SkipList α)
  | .ins key data level => (slIns s key data level).map fun s' => (.inserted, s')
  | .find key =>
    (slFindPos s key).map fun
      | none => (.failed, s)
      | some (_, data) => (.found data, s)
  | .rem key =>
    (slRem s key).map fun
      | none => (.failed, s)
      | some (data, s') => (.found data, s')
  | .walk => (slWalkAll s).map fun data => (.visited data, s)

/-- The same call on a sorted list of entries, with the latest of equal keys first. -/
def multiStep (xs : List (Nat × α)) : SlOp α → SlRes α × List (Nat × α)
  | .ins key data _ =>
    (.inserted, xs.takeWhile (·.1 < key.val) ++ (key.val, data) :: xs.dropWhile (·.1 < key.val))
  | .find key =>
    match xs.find? (·.1 = key.val) with
    | none => (.failed, xs)
    | some x => (.found x.2, xs)
  | .rem key =>
    match xs.find? (·.1 = key.val) with
    | none => (.failed, xs)
    | some x => (.found x.2, xs.eraseP (·.1 = key.val))
  | .walk => (.visited (xs.map fun x => some x.2), xs)

/-- The entries on level 0, from the node `p` on. -/
def levelZero (mem : SlMem α) : Nat → Nat → Option (List (Nat × Option α))
  | 0, _ => none
  | fuel + 1, p => do
    let q ← forwAt mem p 0
    if q = SL_NIL then return []
    else return (← keyAt mem q, ← dataAt mem q) :: (← levelZero mem fuel q)

/-- Level 0 holds the entries `xs`, in the order of their keys. -/
def ShowsEntries (s : SkipList α) (xs : List (Nat × α)) : Prop :=
  levelZero s.mem s.fresh s.slHead = some (xs.map fun x => (x.1, some x.2)) ∧
    xs.Pairwise fun x y => x.1 ≤ y.1

/-- From `s` on, every call is defined and gives what it gives on the sorted list `xs`, which level
0 holds all the time. -/
def SlWorks (s : SkipList α) (xs : List (Nat × α)) : List (SlOp α) → Prop
  | [] => ShowsEntries s xs
  | op :: ops => ShowsEntries s xs ∧
      ∃ r s', slStep s op = some (r, s') ∧ r = (multiStep xs op).1 ∧
        SlWorks s' (multiStep xs op).2 ops

/-- No walk of the run begins on an empty list. -/
def WalksEntries (xs : List (Nat × α)) : List (SlOp α) → Prop
  | [] => True
  | op :: ops => (op = .walk → xs ≠ []) ∧ WalksEntries (multiStep xs op).2 ops

/-! ## Reading and writing nodes -/

/-- What a node keeps as long as it is in memory: all but its pointers. -/
def fixedAt (mem : SlMem α) (p : Nat) : Option (Option α × Nat × Nat) :=
  (mem p).map fun n => (n.slnData, n.slnKey, n.slnSlots)

variable {mem : SlMem α} {p q i key slots : Nat} {data : Option α}

theorem keyAt_fixed (h : fixedAt mem p = some (data, key, slots)) : keyAt mem p = some key := by
  obtain ⟨n, hn, he⟩ := Option.map_eq_some_iff.mp h
  rw [keyAt, hn, Option.map_some]
  cases he
  rfl

theorem dataAt_fixed (h : fixedAt mem p = some (data, key, slots)) : dataAt mem p = some data := by
  obtain ⟨n, hn, he⟩ := Option.map_eq_some_iff.mp h
  rw [dataAt, hn, Option.map_some]
  cases he
  rfl

/-- A pointer that can be read is one of the pointers of a node. -/
theorem forwAt_fixed (h : forwAt mem p i = some q) :
    ∃ data key slots, fixedAt mem p = some (data, key, slots) ∧ i < slots := by
  obtain ⟨n, hn, he⟩ := Option.bind_eq_some_iff.mp h
  refine ⟨n.slnData, n.slnKey, n.slnSlots, by rw [fixedAt, hn, Option.map_some], ?_⟩
  by_contra hi
  rw [if_neg hi] at he
  cases he

/-- Writing a pointer that the node has changes that pointer. -/
theorem setForw_some (hf : fixedAt mem p = some (data, key, slots)) (hi : i < slots) (q : Nat) :
    ∃ mem', setForw mem p i q = some mem' ∧ fixedAt mem' = fixedAt mem ∧
      ∀ a j, forwAt mem' a j = if a = p ∧ j = i then some q else forwAt mem a j := by
  obtain ⟨n, hn, he⟩ := Option.map_eq_some_iff.mp hf
  cases he
  refine ⟨_, by rw [setForw, hn, Option.bind_some, if_pos hi], ?_, ?_⟩
  · funext a
    by_cases ha : a = p
    · rw [ha, fixedAt, fixedAt, Function.update_self, hn]
      rfl
    · rw [fixedAt, fixedAt, Function.update_of_ne ha]
  · intro a j
    by_cases ha : a = p
    · rw [ha, forwAt, Function.update_self, Option.bind_some, forwAt, hn, Option.bind_some]
      show (if j < n.slnSlots then Function.update n.slnForw i (some q) j else none) =
        if p = p ∧ j = i then some q else if j < n.slnSlots then n.slnForw j else none
      by_cases hj : j = i
      · rw [hj, if_pos hi, Function.update_self, if_pos ⟨rfl, rfl⟩]
      · have hne : ¬(p = p ∧ j = i) := fun h => hj h.2
        rw [Function.update_of_ne hj, if_neg hne]
    · rw [forwAt, Function.update_of_ne ha, if_neg fun h => ha h.1, forwAt]

/-! ## What the list holds -/

/-- An entry in its node, which reaches from level 0 up to `level`. -/
structure SlCell (α : Type) where
  addr : Nat
  key : Nat
  data : α
  level : Nat

/-- The nodes that reach up to a level. -/
def nodesAt (i : Nat) (cells : List (SlCell α)) : List Nat :=
  (cells.filter (i ≤ ·.level)).map SlCell.addr

/-- The entries of the cells. -/
def entries (cells : List (SlCell α)) : List (Nat × α) := cells.map fun c => (c.key, c.data)

/-- The list holds the cells, in the order of their keys: the pointers of every level lead through
the cells that reach up to it, and `sl_level` is not below any of them. -/
structure SkipList.Holds (s : SkipList α) (cells : List (SlCell α)) : Prop where
  null : fixedAt s.mem NULL = none
  nil : fixedAt s.mem SL_NIL = some (none, NIL_KEY, 1)
  nilForw : ∀ q, forwAt s.mem SL_NIL 0 = some q → q = NULL
  head : fixedAt s.mem s.slHead = some (none, 0, SL_MAX_LEVELS + 1)
  node : ∀ c ∈ cells, fixedAt s.mem c.addr = some (some c.data, c.key, c.level + 1)
  linked : ∀ i < SL_MAX_LEVELS, Linked (forwAt s.mem · i) s.slHead (nodesAt i cells) SL_NIL
  distinct : (s.slHead :: cells.map SlCell.addr).Nodup
  place : ∀ p ∈ s.slHead :: cells.map SlCell.addr, SL_NIL < p ∧ p < s.fresh
  room : cells.length < s.fresh
  sorted : cells.Pairwise fun c d => c.key ≤ d.key
  keys : ∀ c ∈ cells, c.key ≤ NIL_KEY
  levels : ∀ c ∈ cells, c.level < s.rounds
  rounds : s.rounds ≤ SL_MAX_LEVELS

section Nodes

variable {cells lo hi : List (SlCell α)} {c : SlCell α}

theorem nodesAt_append (i : Nat) (lo hi : List (SlCell α)) :
    nodesAt i (lo ++ hi) = nodesAt i lo ++ nodesAt i hi := by
  simp [nodesAt]

theorem nodesAt_cons_of_le (h : i ≤ c.level) : nodesAt i (c :: hi) = c.addr :: nodesAt i hi := by
  simp [nodesAt, h]

theorem nodesAt_cons_of_lt (h : c.level < i) : nodesAt i (c :: hi) = nodesAt i hi := by
  simp [nodesAt, h]

theorem nodesAt_zero (cells : List (SlCell α)) : nodesAt 0 cells = cells.map SlCell.addr := by
  simp [nodesAt]

theorem mem_nodesAt {a : Nat} : a ∈ nodesAt i cells ↔ ∃ c ∈ cells, i ≤ c.level ∧ c.addr = a := by
  simp [nodesAt, and_assoc]

theorem nodesAt_sublist (i : Nat) (cells : List (SlCell α)) :
    (nodesAt i cells).Sublist (cells.map SlCell.addr) :=
  List.filter_sublist.map _

/-- The last of the cells that reach above level `i`, and those after it. -/
theorem split_last (i : Nat) (cells : List (SlCell α)) :
    nodesAt (i + 1) cells = [] ∨ ∃ lo c hi, cells = lo ++ c :: hi ∧ i + 1 ≤ c.level ∧
      nodesAt (i + 1) hi = [] := by
  induction cells with
  | nil => exact .inl rfl
  | cons d ds ih =>
    rcases ih with h | ⟨lo, c, hi, rfl, hc, h⟩
    · by_cases hd : i + 1 ≤ d.level
      · exact .inr ⟨[], d, ds, rfl, hd, h⟩
      · exact .inl ((nodesAt_cons_of_lt (Nat.lt_of_not_le hd)).trans h)
    · exact .inr ⟨d :: lo, c, hi, rfl, hc, h⟩

end Nodes

/-! ## Searching -/

/-- The node that a search for a key reaches on level `i`, where `lo` are the cells below the key.
-/
def beforeAt (head i : Nat) (lo : List (SlCell α)) : Nat := (nodesAt i lo).getLastD head

theorem getLastD_append_cons (as bs : List Nat) (c p : Nat) :
    (as ++ c :: bs).getLastD p = bs.getLastD c := by
  induction as generalizing p with
  | nil => rw [List.nil_append, List.getLastD_cons]
  | cons a as ih => rw [List.cons_append, List.getLastD_cons, ih]

/-- A level is gone through until the next node is not below the key. -/
theorem slForward_linked {as bs : List Nat} {n : Nat}
    (hl : Linked (forwAt mem · i) p (as ++ bs) SL_NIL)
    (has : ∀ a ∈ as, ∃ k, keyAt mem a = some k ∧ k < key)
    (hbs : ∃ k, keyAt mem (bs.headD SL_NIL) = some k ∧ key ≤ k) (hn : as.length < n) :
    slForward mem key i n p = some (as.getLastD p) := by
  induction n generalizing p as with
  | zero => exact absurd hn (Nat.not_lt_zero _)
  | succ n ih =>
    cases as with
    | nil =>
      obtain ⟨k, hk, hle⟩ := hbs
      have hp : forwAt mem p i = some (bs.headD SL_NIL) := hl.head
      simp only [slForward, hp, Option.bind_eq_bind, Option.bind_some, hk,
        if_neg (Nat.not_lt_of_le hle), List.getLastD_nil]
    | cons a as =>
      obtain ⟨k, hk, hlt⟩ := has a (List.mem_cons_self ..)
      have hp : forwAt mem p i = some a := hl.1
      simp only [slForward, hp, Option.bind_eq_bind, Option.bind_some, hk, if_pos hlt,
        List.getLastD_cons]
      exact ih hl.2 (fun b hb => has b (List.mem_cons_of_mem a hb)) (Nat.lt_of_succ_lt_succ hn)

namespace SkipList.Holds

variable {s : SkipList α} {cells lo hi : List (SlCell α)} {c : SlCell α}

/-- The keys of the nodes of a level, and of `sl_NIL` after them. -/
theorem keyAt_lo (h : s.Holds (lo ++ hi)) (hlo : ∀ c ∈ lo, c.key < key) (i : Nat) :
    ∀ a ∈ nodesAt i lo, ∃ k, keyAt s.mem a = some k ∧ k < key := by
  intro a ha
  obtain ⟨c, hc, -, rfl⟩ := mem_nodesAt.mp ha
  exact ⟨c.key, keyAt_fixed (h.node c (List.mem_append_left hi hc)), hlo c hc⟩

theorem keyAt_hi (h : s.Holds (lo ++ hi)) (hhi : ∀ c ∈ hi, key ≤ c.key) (hk : key ≤ NIL_KEY)
    (i : Nat) : ∃ k, keyAt s.mem ((nodesAt i hi).headD SL_NIL) = some k ∧ key ≤ k := by
  cases hn : nodesAt i hi with
  | nil => exact ⟨NIL_KEY, keyAt_fixed h.nil, hk⟩
  | cons a as =>
    obtain ⟨c, hc, -, ha⟩ := mem_nodesAt.mp (hn ▸ List.mem_cons_self .. : a ∈ nodesAt i hi)
    rw [List.headD_cons, ← ha]
    exact ⟨c.key, keyAt_fixed (h.node c (List.mem_append_right lo hc)), hhi c hc⟩

theorem nodesAt_rounds (h : s.Holds (lo ++ hi)) : nodesAt s.rounds lo = [] := by
  rw [List.eq_nil_iff_forall_not_mem]
  intro a ha
  obtain ⟨c, hc, hle, -⟩ := mem_nodesAt.mp ha
  exact absurd (h.levels c (List.mem_append_left hi hc)) (Nat.not_lt_of_le hle)

theorem length_nodesAt (h : s.Holds (lo ++ hi)) (i : Nat) : (nodesAt i lo).length < s.fresh := by
  have hle := (nodesAt_sublist i lo).length_le
  have hroom := h.room
  rw [List.length_map] at hle
  rw [List.length_append] at hroom
  omega

/-- From the node of the level above, a level is gone through to its last node below the key. -/
theorem slForward_before (h : s.Holds (lo ++ hi)) (hlo : ∀ c ∈ lo, c.key < key)
    (hhi : ∀ c ∈ hi, key ≤ c.key) (hk : key ≤ NIL_KEY) (hi' : i < SL_MAX_LEVELS) :
    slForward s.mem key i s.fresh (beforeAt s.slHead (i + 1) lo) =
      some (beforeAt s.slHead i lo) := by
  have hl := h.linked i hi'
  rw [nodesAt_append] at hl
  have has := h.keyAt_lo hlo i
  have hlen := h.length_nodesAt i
  rcases split_last i lo with hnil | ⟨X, c, Y, rfl, hc, hnil⟩
  · rw [beforeAt, hnil, List.getLastD_nil]
    exact slForward_linked hl has (h.keyAt_hi hhi hk i) hlen
  · have hsplit : nodesAt i (X ++ c :: Y) = nodesAt i X ++ c.addr :: nodesAt i Y := by
      rw [nodesAt_append, nodesAt_cons_of_le (Nat.le_of_succ_le hc)]
    rw [hsplit] at hl has hlen
    have hstart : beforeAt s.slHead (i + 1) (X ++ c :: Y) = c.addr := by
      rw [beforeAt, nodesAt_append, nodesAt_cons_of_le hc, hnil, getLastD_append_cons,
        List.getLastD_nil]
    rw [List.append_assoc, List.cons_append, Linked.append] at hl
    rw [hstart, beforeAt, hsplit, getLastD_append_cons]
    refine slForward_linked hl.2 (fun a ha => has a (by simp [ha])) (h.keyAt_hi hhi hk i) ?_
    rw [List.length_append, List.length_cons] at hlen
    omega

/-- The search reaches the last node below the key, and records the last one of every level. -/
theorem slDescend_before (h : s.Holds (lo ++ hi)) (hlo : ∀ c ∈ lo, c.key < key)
    (hhi : ∀ c ∈ hi, key ≤ c.key) (hk : key ≤ NIL_KEY) {n : Nat} (hn : n ≤ SL_MAX_LEVELS) :
    slDescend s.mem s.fresh key n (beforeAt s.slHead n lo) =
      some (beforeAt s.slHead 0 lo, (List.range n).map (beforeAt s.slHead · lo)) := by
  induction n with
  | zero => rfl
  | succ n ih =>
    simp only [slDescend, h.slForward_before hlo hhi hk hn, Option.bind_eq_bind, Option.bind_some,
      ih (Nat.le_of_succ_le hn), List.range_succ, List.map_append, List.map_cons, List.map_nil]
    rfl

theorem slDescend_head (h : s.Holds (lo ++ hi)) (hlo : ∀ c ∈ lo, c.key < key)
    (hhi : ∀ c ∈ hi, key ≤ c.key) (hk : key ≤ NIL_KEY) :
    slDescend s.mem s.fresh key s.rounds s.slHead =
      some (beforeAt s.slHead 0 lo, (List.range s.rounds).map (beforeAt s.slHead · lo)) := by
  have hstart : beforeAt s.slHead s.rounds lo = s.slHead := by
    rw [beforeAt, h.nodesAt_rounds, List.getLastD_nil]
  have hd := h.slDescend_before hlo hhi hk h.rounds
  rwa [hstart] at hd

/-- The pointer of the node that the search reaches on a level. -/
theorem forwAt_before (h : s.Holds (lo ++ hi)) (hi' : i < SL_MAX_LEVELS) :
    forwAt s.mem (beforeAt s.slHead i lo) i = some ((nodesAt i hi).headD SL_NIL) := by
  have hl := h.linked i hi'
  rw [nodesAt_append] at hl
  exact hl.last

end SkipList.Holds

/-! ## Splicing in and out -/

section Splices

variable {update : List Nat} {u r : Nat → Nat}

/-- A node is spliced in on the levels `is`, behind the nodes `u`. -/
theorem slSplice_some (mem : SlMem α) (is : List Nat) {f : Nat → Nat}
    (hu : ∀ i ∈ is, update[i]? = some (u i))
    (hf : ∀ i ∈ is, forwAt mem (u i) i = some (f i)) (hne : ∀ i ∈ is, u i ≠ p)
    (hp : fixedAt mem p = some (data, key, slots)) (hs : ∀ i ∈ is, i < slots) (hd : is.Nodup) :
    ∃ mem', slSplice update p is mem = some mem' ∧ fixedAt mem' = fixedAt mem ∧
      ∀ a j, forwAt mem' a j =
        if j ∈ is ∧ a = p then some (f j) else if j ∈ is ∧ a = u j then some p
        else forwAt mem a j := by
  induction is generalizing mem with
  | nil => exact ⟨mem, rfl, rfl, by simp⟩
  | cons i is ih =>
    have hi : i ∈ i :: is := List.mem_cons_self ..
    have hmem : ∀ j ∈ is, j ∈ i :: is := fun j => List.mem_cons_of_mem i
    have hdi := (List.nodup_cons.mp hd).1
    obtain ⟨mem₁, hset₁, hfix₁, hforw₁⟩ := setForw_some hp (hs i hi) (f i)
    obtain ⟨d, k, m, hfu, hm⟩ := forwAt_fixed (hf i hi)
    obtain ⟨mem₂, hset₂, hfix₂, hforw₂⟩ := setForw_some (hfix₁ ▸ hfu) hm p
    have hfix : fixedAt mem₂ = fixedAt mem := hfix₂.trans hfix₁
    have hrest : ∀ a, ∀ j ∈ is, forwAt mem₂ a j = forwAt mem a j := by
      intro a j hj
      have hji : j ≠ i := fun he => hdi (he ▸ hj)
      rw [hforw₂, if_neg fun he => hji he.2, hforw₁, if_neg fun he => hji he.2]
    obtain ⟨mem', hrun, hfix', hforw'⟩ := ih mem₂ (fun j hj => hu j (hmem j hj))
      (fun j hj => (hrest _ j hj).trans (hf j (hmem j hj))) (fun j hj => hne j (hmem j hj))
      (hfix ▸ hp) (fun j hj => hs j (hmem j hj)) (List.nodup_cons.mp hd).2
    refine ⟨mem', ?_, hfix'.trans hfix, ?_⟩
    · simp only [slSplice, hu i hi, hf i hi, hset₁, hset₂, Option.bind_eq_bind, Option.bind_some,
        hrun]
    · intro a j
      rw [hforw']
      by_cases hj : j ∈ is
      · simp [hj, hrest a j hj]
      · by_cases hji : j = i
        · subst hji
          have hnp := hne j hi
          by_cases hap : a = p
          · simp [hj, hforw₂, hforw₁, hap, Ne.symm hnp]
          · simp [hj, hforw₂, hforw₁, hap]
        · simp [hj, hji, hforw₂, hforw₁]

/-- A node is spliced out on its own levels; on the next one, it is not found. -/
theorem slUnsplice_some (mem : SlMem α) (is : List Nat) (level : Nat) {f : Nat → Nat}
    (hu : ∀ i ∈ is, update[i]? = some (u i))
    (hf : ∀ i ∈ is, forwAt mem (u i) i = some (f i)) (hp : ∀ i ∈ is, f i = p ↔ i ≤ level)
    (hr : ∀ i ∈ is, i ≤ level → forwAt mem p i = some (r i)) (hs : is.Pairwise (· < ·)) :
    ∃ mem', slUnsplice update p is mem = some mem' ∧ fixedAt mem' = fixedAt mem ∧
      ∀ a j, forwAt mem' a j =
        if j ∈ is ∧ j ≤ level ∧ a = u j then some (r j) else forwAt mem a j := by
  induction is generalizing mem with
  | nil => exact ⟨mem, rfl, rfl, by simp⟩
  | cons i is ih =>
    have hi : i ∈ i :: is := List.mem_cons_self ..
    have hmem : ∀ j ∈ is, j ∈ i :: is := fun j => List.mem_cons_of_mem i
    obtain ⟨hlt, hs⟩ := List.pairwise_cons.mp hs
    by_cases hle : i ≤ level
    · obtain ⟨d, k, m, hfu, hm⟩ := forwAt_fixed (hf i hi)
      obtain ⟨mem₁, hset, hfix, hforw⟩ := setForw_some hfu hm (r i)
      have hrest : ∀ a, ∀ j ∈ is, forwAt mem₁ a j = forwAt mem a j := by
        intro a j hj
        rw [hforw, if_neg fun he => Nat.ne_of_gt (hlt j hj) he.2]
      obtain ⟨mem', hrun, hfix', hforw'⟩ := ih mem₁ (fun j hj => hu j (hmem j hj))
        (fun j hj => (hrest _ j hj).trans (hf j (hmem j hj))) (fun j hj => hp j (hmem j hj))
        (fun j hj hjl => (hrest _ j hj).trans (hr j (hmem j hj) hjl)) hs
      refine ⟨mem', ?_, hfix'.trans hfix, ?_⟩
      · have hq : ¬f i ≠ p := not_not_intro ((hp i hi).mpr hle)
        simp only [slUnsplice, hu i hi, hf i hi, Option.bind_eq_bind, Option.bind_some, if_neg hq,
          hr i hi hle, hset, hrun]
      · intro a j
        rw [hforw']
        by_cases hj : j ∈ is
        · simp [hj, hrest a j hj]
        · by_cases hji : j = i
          · subst hji
            simp [hj, hforw, hle]
          · simp [hj, hji, hforw]
    · have hq : f i ≠ p := fun he => hle ((hp i hi).mp he)
      refine ⟨mem, ?_, rfl, ?_⟩
      · simp only [slUnsplice, hu i hi, hf i hi, Option.bind_eq_bind, Option.bind_some, if_pos hq]
        rfl
      · intro a j
        rw [if_neg]
        rintro ⟨hj, hjl, -⟩
        rcases List.mem_cons.mp hj with rfl | hj
        · exact hle hjl
        · exact hle ((Nat.le_of_lt (hlt j hj)).trans hjl)

end Splices

namespace SkipList.Holds

variable {s : SkipList α} {cells lo hi : List (SlCell α)} {c : SlCell α} {level : Nat}

theorem nodesAt_mem (s : SkipList α) {a : Nat} (ha : a ∈ s.slHead :: nodesAt i cells) :
    a ∈ s.slHead :: cells.map SlCell.addr :=
  ((nodesAt_sublist i cells).cons_cons s.slHead).mem ha

theorem distinct_nodesAt (h : s.Holds cells) (i : Nat) : (s.slHead :: nodesAt i cells).Nodup :=
  h.distinct.sublist ((nodesAt_sublist i cells).cons_cons s.slHead)

/-- The node that a search reaches is one of the list. -/
theorem before_mem (s : SkipList α) (i : Nat) (lo hi : List (SlCell α)) :
    beforeAt s.slHead i lo ∈ s.slHead :: (lo ++ hi).map SlCell.addr := by
  have hmem := nodesAt_mem s (Linked.getLastD_mem s.slHead (nodesAt i lo))
  rw [List.map_append]
  rcases List.mem_cons.mp hmem with he | hm
  · exact List.mem_cons.mpr (.inl he)
  · exact List.mem_cons_of_mem _ (List.mem_append_left _ hm)

theorem before_place (h : s.Holds (lo ++ hi)) (i : Nat) :
    SL_NIL < beforeAt s.slHead i lo ∧ beforeAt s.slHead i lo < s.fresh :=
  h.place _ (before_mem s i lo hi)

/-- Above the levels in use, a search is at the head. -/
theorem before_head (h : s.Holds (lo ++ hi)) (hi' : s.rounds ≤ i) :
    beforeAt s.slHead i lo = s.slHead := by
  have hnil : nodesAt i lo = [] := by
    rw [List.eq_nil_iff_forall_not_mem]
    intro a ha
    obtain ⟨c, hc, hle, -⟩ := mem_nodesAt.mp ha
    have := h.levels c (List.mem_append_left hi hc)
    omega
  rw [beforeAt, hnil, List.getLastD_nil]

/-- The array `update`, when it has been filled up to the level of the new node. -/
theorem update_some (h : s.Holds (lo ++ hi)) (hi' : i < level + 1) :
    ((List.range s.rounds).map (beforeAt s.slHead · lo) ++
      List.replicate (level + 1 - s.rounds) s.slHead)[i]? = some (beforeAt s.slHead i lo) := by
  by_cases hlt : i < s.rounds
  · rw [List.getElem?_append_left (by simpa using hlt), List.getElem?_map, List.getElem?_range hlt]
    rfl
  · have hle := Nat.le_of_not_lt hlt
    rw [List.getElem?_append_right (by simpa using hle), List.length_map, List.length_range,
      List.getElem?_replicate, if_pos (by omega), h.before_head hle]

end SkipList.Holds

theorem rounds_succ {n : Nat} (hn : n < SL_MAX_LEVELS) (s : SkipList α) :
    SkipList.rounds { s with slLevel := n } = n + 1 := by
  have hn : n < 16 := hn
  show ((n : Int).bmod (2 ^ 32) + 1).toNat = n + 1
  rw [Int.bmod_eq_of_le (by omega) (by omega)]
  omega

/-- A level, or −1, as an unsigned number. -/
theorem rounds_lowered {n : Nat} (hn : n ≤ SL_MAX_LEVELS) (s : SkipList α) :
    SkipList.rounds { s with slLevel := (((n : Int) - 1) % 2 ^ 32).toNat } = n := by
  cases n with
  | zero =>
    show (Int.bmod 4294967295 (2 ^ 32) + 1).toNat = 0
    decide
  | succ n =>
    have hlow : (((n + 1 : Nat) : Int) - 1) % 2 ^ 32 = n := by
      have hn : n < 16 := hn
      omega
    rw [hlow, Int.toNat_natCast]
    exact rounds_succ hn s

end Spegla
