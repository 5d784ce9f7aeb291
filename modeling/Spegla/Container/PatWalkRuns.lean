import Spegla.Container.PatWalk

/-!
# Runs of walks (`container.c`, `pat_walk` and `stack_free`)

- `walkN_of_gives`, `gives_of_walkN`: what a caller gets is what the calls from the stack and the
  flag on give.
- `patWalk_iff`: the trees and states from which the walks in both directions give every data once.
- `free_iff`: the queues and stacks that are freed as they should be, and the walks that `pat_ins`,
  `pat_rem` and a new `pat_walk` can stop.
-/

namespace Spegla

open BitTree

variable {α : Type}

section Walks

variable {forw didForw : Bool} {root c : BitTree (PatLeaf α)} {q : List Bool}
  {s : StackList (List Bool)}

/-! ## The functions of the caller -/

variable {pat : PatTree α} {w w' : PatWalk} {fuel : Nat} {x : α} {xs : List α}

/-- A call that gives something goes on from the node on top of the stack. -/
theorem walkOn_some (hroot : pat.patRoot = some root) (hlive : w.walkStack = .live s)
    (h : walkOn fuel forw pat w = some (some x, w')) : ∃ p y, stackPeek s = some p ∧
      walkFrom forw root p s w.didForw = some y ∧ x = y.1.patData ∧
        w' = ⟨.live y.2.2.1, y.2.2.2, y.2.1.orElse fun _ => w.pos⟩ := by
  rw [walkOn, hlive] at h
  simp only at h
  cases hpeek : stackPeek s with
  | none =>
    rw [hpeek] at h
    obtain ⟨stack, -, h⟩ := Option.map_eq_some_iff.mp h
    cases h
  | some p =>
    rw [hpeek] at h
    simp only [hroot, Option.bind_some] at h
    obtain ⟨y, hy, h⟩ := Option.map_eq_some_iff.mp h
    cases h
    exact ⟨p, y, rfl, hy, rfl, rfl⟩

theorem walkOn_of_walkFrom (hroot : pat.patRoot = some root) (hlive : w.walkStack = .live s)
    {p : List Bool} {y : PatLeaf α × Option (List Bool) × StackList (List Bool) × Bool}
    (hpeek : stackPeek s = some p) (hy : walkFrom forw root p s w.didForw = some y) :
    walkOn fuel forw pat w =
      some (some y.1.patData, ⟨.live y.2.2.1, y.2.2.2, y.2.1.orElse fun _ => w.pos⟩) := by
  rw [walkOn, hlive]
  simp only [hpeek, hroot, Option.bind_some, hy]
  rfl

/-- With an empty stack, a call fails. -/
theorem walkOn_empty (forw : Bool) (pat : PatTree α) (hlive : w.walkStack = .live s)
    (hempty : s.stackEnd = 0) :
    ∃ w', walkOn 1 forw pat w = some (none, w') := by
  have hpeek : stackPeek s = none := if_pos hempty
  have hstop : stopWalk (.live s) 1 = some .freed := by
    rw [stopWalk, stackFree, hempty]
    rfl
  refine ⟨{ w with walkStack := .freed }, ?_⟩
  rw [walkOn, hlive]
  simp only [hpeek, hstop]
  rfl

/-- On the way down, `*pos` is set. -/
theorem walkFrom_pos {p : List Bool}
    {y : PatLeaf α × Option (List Bool) × StackList (List Bool) × Bool}
    (h : walkFrom forw root p s false = some y) : y.2.1.isSome := by
  rw [walkFrom, if_neg (by decide), walkDown] at h
  obtain ⟨leg, -, h⟩ := Option.bind_eq_some_iff.mp h
  obtain ⟨z, -, rfl⟩ := Option.map_eq_some_iff.mp h
  rfl

/-- Behind a call, `*pos` is not `NULL`. -/
theorem pos_isSome (hpos : didForw = true → w.pos.isSome) {p : List Bool}
    {y : PatLeaf α × Option (List Bool) × StackList (List Bool) × Bool}
    (h : walkFrom forw root p s didForw = some y) :
    (y.2.1.orElse fun _ => w.pos).isSome := by
  cases hy : y.2.1 with
  | some q => rfl
  | none =>
    cases didForw with
    | true => exact hpos rfl
    | false =>
      have hsome := walkFrom_pos h
      rw [hy] at hsome
      cases hsome

theorem patWalkHelper_on (hkeys : pat.patKeys ≠ 0) (hpos : w.pos.isSome) :
    patWalkHelper fuel forw pat w = walkOn fuel forw pat w := by
  obtain ⟨q, hq⟩ := Option.isSome_iff_exists.mp hpos
  rw [patWalkHelper, if_neg hkeys, hq]

/-- Calls that give data are calls from the stack and the flag on. -/
theorem walkN_of_gives (hkeys : pat.patKeys ≠ 0) (hroot : pat.patRoot = some root)
    (hlive : w.walkStack = .live s) (hpos : w.didForw = true → w.pos.isSome)
    (h : walkOn fuel forw pat w = some (some x, w'))
    (hrest : WalkGives (patWalkHelper fuel forw pat) w' xs) :
    ∃ r, walkN forw root (xs.length + 1) s w.didForw = some r := by
  induction xs generalizing w s x w' with
  | nil =>
    obtain ⟨p, y, hpeek, hy, -, -⟩ := walkOn_some hroot hlive h
    refine ⟨([y.1], y.2.2), ?_⟩
    show walkN forw root (0 + 1) s w.didForw = _
    rw [walkN, hpeek, Option.bind_some, hy]
    rfl
  | cons x' xs ih =>
    obtain ⟨p, y, hpeek, hy, -, rfl⟩ := walkOn_some hroot hlive h
    have hpos' := pos_isSome hpos hy
    obtain ⟨w'', hstep, hrest⟩ := hrest
    rw [patWalkHelper_on hkeys hpos'] at hstep
    obtain ⟨r, hr⟩ := ih rfl (fun _ => hpos') hstep hrest
    refine ⟨(y.1 :: r.1, r.2), ?_⟩
    rw [List.length_cons, walkN, hpeek, Option.bind_some, hy, Option.bind_some]
    rw [hr]
    rfl

/-- Calls from the stack and the flag on, up to an empty stack, give their data. -/
theorem gives_of_walkN (hkeys : pat.patKeys ≠ 0) (hroot : pat.patRoot = some root)
    (hlive : w.walkStack = .live s) (hpos : w.didForw = true → w.pos.isSome) {n : Nat}
    {r : List (PatLeaf α) × StackList (List Bool) × Bool}
    (h : walkN forw root (n + 1) s w.didForw = some r) (hempty : r.2.1.stackEnd = 0) :
    ∃ x w' xs, walkOn 1 forw pat w = some (some x, w') ∧ r.1.map PatLeaf.patData = x :: xs ∧
      WalkGives (patWalkHelper 1 forw pat) w' xs := by
  induction n generalizing w s r with
  | zero =>
    rw [walkN] at h
    obtain ⟨p, hpeek, h⟩ := Option.bind_eq_some_iff.mp h
    obtain ⟨y, hy, h⟩ := Option.bind_eq_some_iff.mp h
    cases h
    have hpos' := pos_isSome hpos hy
    refine ⟨y.1.patData, _, [], walkOn_of_walkFrom hroot hlive hpeek hy, rfl, ?_⟩
    obtain ⟨w', hw'⟩ := walkOn_empty forw pat
      (w := ⟨.live y.2.2.1, y.2.2.2, y.2.1.orElse fun _ => w.pos⟩) rfl hempty
    exact ⟨w', (patWalkHelper_on hkeys hpos').trans hw'⟩
  | succ n ih =>
    rw [walkN] at h
    obtain ⟨p, hpeek, h⟩ := Option.bind_eq_some_iff.mp h
    obtain ⟨y, hy, h⟩ := Option.bind_eq_some_iff.mp h
    obtain ⟨r', hr', h⟩ := Option.map_eq_some_iff.mp h
    cases h
    have hpos' := pos_isSome hpos hy
    obtain ⟨x, w', xs, hstep, hxs, hrest⟩ :=
      ih (w := ⟨.live y.2.2.1, y.2.2.2, y.2.1.orElse fun _ => w.pos⟩) rfl (fun _ => hpos') hr'
        hempty
    refine ⟨y.1.patData, _, x :: xs, walkOn_of_walkFrom hroot hlive hpeek hy, ?_, w', ?_, hrest⟩
    · rw [List.map_cons, hxs]
    · exact (patWalkHelper_on hkeys hpos').trans hstep

/-- A walk that can be stopped is stopped in one round. -/
theorem stopWalk_one {stack : WalkStack}
    (h : stack = .null ∨ ∃ s, stack = .live s ∧ s.stackEnd = 0) :
    ∃ stack', stopWalk stack 1 = some stack' := by
  rcases h with rfl | ⟨s, rfl, hempty⟩
  · exact ⟨.null, rfl⟩
  · refine ⟨.freed, ?_⟩
    rw [stopWalk, stackFree, hempty]
    rfl

/-- A walk that gives as many data as there are leaves was started, and stays in its block. -/
theorem inside_of_gives (hkeys : pat.patKeys ≠ 0) (hroot : pat.patRoot = some root)
    (hnode : isLeaf root = false) {stack : WalkStack} (hxs : xs.length = (leaves root).length)
    (h : WalkGives (patWalkHelper fuel forw pat) ⟨stack, didForw, none⟩ xs) :
    (∃ fuel, (stopWalk stack fuel).isSome) ∧ WalkInside forw root := by
  cases xs with
  | nil => exact absurd (List.eq_nil_of_length_eq_zero hxs.symm) (leaves_ne_nil root)
  | cons x xs =>
    obtain ⟨w', hstep, hrest⟩ := h
    rw [patWalkHelper, if_neg hkeys] at hstep
    obtain ⟨w, hnew, hstep⟩ := Option.bind_eq_some_iff.mp hstep
    obtain ⟨stack', hstop, hnew⟩ := Option.bind_eq_some_iff.mp hnew
    obtain ⟨s, hpush, rfl⟩ := Option.map_eq_some_iff.mp hnew
    refine ⟨⟨fuel, by rw [hstop]; rfl⟩, ?_⟩
    obtain ⟨r, hr⟩ := walkN_of_gives hkeys hroot rfl (fun hno => by cases hno) hstep hrest
    rw [List.length_cons] at hxs
    have hwalk := walkN_root forw hnode
    rw [hpush, Option.bind_some, ← hxs, hr] at hwalk
    obtain ⟨s', hs', -⟩ := Option.map_eq_some_iff.mp hwalk.symm
    rw [WalkInside, hs']
    rfl

/-- A walk that can be started and stays in its block gives the leaves. -/
theorem gives_of_inside (hkeys : pat.patKeys ≠ 0) (hroot : pat.patRoot = some root)
    (hnode : isLeaf root = false) {stack : WalkStack}
    (hstack : stack = .null ∨ ∃ s, stack = .live s ∧ s.stackEnd = 0) (h : WalkInside forw root) :
    WalkGives (patWalkHelper 1 forw pat) ⟨stack, didForw, none⟩
      ((leavesFrom forw root).map PatLeaf.patData) := by
  obtain ⟨s', hs'⟩ := Option.isSome_iff_exists.mp h
  have hwalk := walkN_root forw hnode
  rw [hs'] at hwalk
  obtain ⟨s, hpush, hrun⟩ := Option.bind_eq_some_iff.mp hwalk
  obtain ⟨n, hn⟩ := Nat.exists_eq_succ_of_ne_zero
    (fun h => leaves_ne_nil root (List.eq_nil_of_length_eq_zero h))
  rw [hn] at hrun
  have hempty : s'.stackEnd = 0 := (walkOps_contents hnode hs').finish
  obtain ⟨x, w', xs, hstep, hxs, hrest⟩ := gives_of_walkN (w := ⟨.live s, false, none⟩) hkeys hroot
    rfl (fun hno => by cases hno) hrun hempty
  obtain ⟨stack', hstop⟩ := stopWalk_one hstack
  rw [hxs]
  refine ⟨w', ?_, hrest⟩
  rw [patWalkHelper, if_neg hkeys]
  simp only [newWalk, hstop, Option.bind_some, hpush, Option.map_some]
  exact hstep

/-- A single key has no node to walk from. -/
theorem patWalkHelper_one (hone : pat.patKeys = 1) (hroot : pat.patRoot = none)
    {stack : WalkStack} :
    patWalkHelper fuel forw pat ⟨stack, didForw, none⟩ ≠ some (some x, w') := by
  intro h
  rw [patWalkHelper, if_neg (by omega)] at h
  obtain ⟨w, hnew, h⟩ := Option.bind_eq_some_iff.mp h
  obtain ⟨stack', -, hnew⟩ := Option.bind_eq_some_iff.mp hnew
  obtain ⟨s, -, rfl⟩ := Option.map_eq_some_iff.mp hnew
  rw [walkOn] at h
  simp only [hroot, Option.bind_none] at h
  split at h
  · obtain ⟨stack, -, h⟩ := Option.map_eq_some_iff.mp h
    cases h
  · cases h

theorem not_right_of_one (h : pat.Shaped) (hone : pat.patKeys = 1) {stack : WalkStack} :
    ¬PatWalkRight pat stack didForw := by
  rintro ⟨fuel, xs, hperm, hgives, -⟩
  obtain ⟨hsome, hroot⟩ := h.one hone
  obtain ⟨p, hp⟩ := Option.isSome_iff_exists.mp hsome
  rw [patMap, if_pos hone, hp] at hperm
  have hxs : xs = [p.patData] := List.perm_singleton.mp hperm
  rw [hxs] at hgives
  obtain ⟨w', hstep, -⟩ := hgives
  exact absurd hstep (patWalkHelper_one hone hroot)

end Walks

/-- The walks through a tree are right exactly when it is empty, or has two keys or more, the stack
of an earlier walk can be freed, and the pushes of both walks lie in the blocks of their stacks. -/
theorem patWalk_iff {pat : PatTree α} (h : pat.Shaped) (stack : WalkStack) (didForw : Bool) :
    PatWalkRight pat stack didForw ↔ pat.patKeys = 0 ∨ 2 ≤ pat.patKeys ∧
      (stack = .null ∨ ∃ s, stack = .live s ∧ s.stackEnd = 0) ∧
        ∀ root ∈ pat.patRoot, WalkInside true root ∧ WalkInside false root := by
  have hcases : pat.patKeys = 0 ∨ pat.patKeys = 1 ∨ 2 ≤ pat.patKeys := by omega
  rcases hcases with hzero | hone | hmany
  · refine ⟨fun _ => Or.inl hzero, fun _ => ⟨1, [], ?_, ?_, ?_⟩⟩
    · rw [patMap, if_neg (by omega), if_neg (by omega)]
      rfl
    · exact ⟨_, if_pos hzero⟩
    · exact ⟨_, if_pos hzero⟩
  · -- one key: nothing can be given
    constructor
    · exact fun hright => absurd hright (not_right_of_one h hone)
    · rintro (hzero | ⟨hmany, -⟩) <;> omega
  · obtain ⟨root, hroot, hlen⟩ := h.many hmany
    have hkeys : pat.patKeys ≠ 0 := by omega
    have hnode : isLeaf root = false := by
      cases root with
      | leaf x =>
        have hone : (leaves (leaf x)).length = 1 := rfl
        omega
      | node b l r => rfl
    have hmap : patMap pat = leaves root := by
      rw [patMap, if_neg (by omega), if_pos hkeys, hroot]
      rfl
    constructor
    · rintro ⟨fuel, xs, hperm, hgives, hback⟩
      have hxs : xs.length = (leaves root).length := by
        rw [hperm.length_eq, hmap, List.length_map]
      -- each of the two walks tells about its own direction
      obtain ⟨hstop, hforw⟩ := inside_of_gives hkeys hroot hnode hxs hgives
      obtain ⟨-, hinside⟩ :=
        inside_of_gives hkeys hroot hnode ((List.length_reverse).trans hxs) hback
      refine Or.inr ⟨hmany, (stopWalk_iff stack).mp hstop, fun root' hroot' => ?_⟩
      obtain rfl : root = root' := Option.some.inj (hroot.symm.trans hroot')
      exact ⟨hforw, hinside⟩
    · rintro (hzero | ⟨-, hstack, hinside⟩)
      · exact absurd hzero hkeys
      · obtain ⟨hforw, hback⟩ := hinside root hroot
        refine ⟨1, (leavesFrom true root).map PatLeaf.patData, ?_,
          gives_of_inside hkeys hroot hnode hstack hforw, ?_⟩
        · rw [hmap]
          exact (List.reverse_perm (leaves root)).map _
        · have hreverse : ((leavesFrom true root).map PatLeaf.patData).reverse =
              (leavesFrom false root).map PatLeaf.patData := by
            rw [← List.map_reverse]
            exact congrArg _ (List.reverse_reverse _)
          rw [hreverse]
          exact gives_of_inside hkeys hroot hnode hstack hback

/-- Two chains of 21 nodes under a root: the block grows in the first one, is halved on the way back
to the root, and is too small for the second one. -/
example : ¬WalkInside false (
    let chain := (List.range 21).foldl (fun t i => node 0 t (leaf (⟨[], 0, i⟩ : PatLeaf Nat)))
      (leaf ⟨[], 0, 21⟩)
    node 0 chain chain) := by
  unfold WalkInside
  decide +kernel

/-- A tree of two keys, which is walked in both directions. -/
def twoKeys : PatTree Char where
  patKeys := 2
  patRoot := some (node 0 (leaf ⟨[98], 1, 'b'⟩) (leaf ⟨[97], 1, 'a'⟩))
  patOne := some ⟨[97], 1, 'a'⟩

theorem twoKeys_shaped : twoKeys.Shaped where
  one := fun h => absurd h (by decide)
  many := fun _ => ⟨_, rfl, rfl⟩

theorem patWalk_two : PatWalkRight twoKeys .null false := by
  refine (patWalk_iff twoKeys_shaped .null false).mpr (Or.inr ⟨by decide, Or.inl rfl, ?_⟩)
  rintro root hroot
  cases hroot
  exact ⟨by unfold WalkInside; decide +kernel, by unfold WalkInside; decide +kernel⟩

/-- A tree of one key, as the first insertion makes it. -/
def oneKey : PatTree Char := ⟨1, none, some ⟨[97], 1, 'a'⟩⟩

/-- The single key of a tree is visited by `pat_map`, and `pat_walk` looks at the node at `NULL`. -/
theorem patWalk_one : patIns patInit [97] 1 'a' 0 = some (true, oneKey) ∧
    (patMap oneKey).map PatLeaf.patData = ['a'] ∧ oneKey.Shaped ∧
    (patWalk 1 oneKey ⟨.null, false, none⟩).isNone ∧ ¬PatWalkRight oneKey .null false := by
  have hshaped : oneKey.Shaped :=
    ⟨fun _ => ⟨rfl, rfl⟩, fun h => absurd h (by decide)⟩
  refine ⟨by decide +kernel, by decide +kernel, hshaped, by decide +kernel, ?_⟩
  exact not_right_of_one hshaped rfl

/-! ## Freeing -/

theorem newWalk_iff (w : PatWalk) : (∃ fuel, (newWalk fuel w).isSome) ↔
    w.walkStack = .null ∨ ∃ s, w.walkStack = .live s ∧ s.stackEnd = 0 := by
  rw [← stopWalk_iff]
  have hpush : (pushIn (stackInit : StackList (List Bool)) []).isSome := by decide +kernel
  obtain ⟨s, hs⟩ := Option.isSome_iff_exists.mp hpush
  have hnew : ∀ fuel, (newWalk fuel w).isSome = (stopWalk w.walkStack fuel).isSome := by
    intro fuel
    rw [newWalk, hs]
    cases stopWalk w.walkStack fuel <;> rfl
  simp only [hnew]

/-- Every queue that calls of `fifo_push` and `fifo_pop` make, none of which breaks its ring, is
freed as it should be exactly when it is empty or there is a callback; a stack is exactly when it is
empty. So `pat_ins`, `pat_rem` and a new `pat_walk` come past their `stack_free` exactly when there
is no stack of a walk, or an empty one. -/
theorem free_iff [Inhabited α] :
    (∀ (ops : List (FifoOp α)) freeFun, KeptRun fifoInit ops →
      (FifoFreed freeFun (fifoRun fifoInit ops) (queueRun [] ops) ↔
        queueRun [] ops = [] ∨ freeFun = true)) ∧
    (∀ (ops : List (StackOp α)) freeFun,
      StackFreed freeFun (stackRun stackInit ops) (idealRun [] ops) ↔
        (stackRun stackInit ops).stackEnd = 0 ∧ (freeFun = true → idealRun [] ops = [])) ∧
    ∀ w : PatWalk,
      ((∃ fuel, (newWalk fuel w).isSome) ↔
        w.walkStack = .null ∨ ∃ s, w.walkStack = .live s ∧ s.stackEnd = 0) ∧
      (∀ (pat : PatTree α) key keyLen data patBit,
        (∃ fuel, (patInsStop w.walkStack pat key keyLen data patBit fuel).isSome) ↔
          w.walkStack = .null ∨ ∃ s, w.walkStack = .live s ∧ s.stackEnd = 0) ∧
      ∀ (pat : PatTree α) key keyLen,
        (∃ fuel, (patRemStop w.walkStack pat key keyLen fuel).isSome) ↔
          w.walkStack = .null ∨ ∃ s, w.walkStack = .live s ∧ s.stackEnd = 0 := by
  refine ⟨fun ops freeFun hrun => ?_, fun ops freeFun => ?_, fun w => ⟨newWalk_iff w, ?_, ?_⟩⟩
  · exact fifoFree_iff (fifoRun_ring ops fifoInit_ring hrun)
  · exact stackFree_iff (stackRun_allocated ops stackInit_allocated)
  · intro pat key keyLen data patBit
    simp only [patInsStop, Option.isSome_map]
    exact stopWalk_iff w.walkStack
  · intro pat key keyLen
    simp only [patRemStop, Option.isSome_map]
    exact stopWalk_iff w.walkStack

/-- Nineteen elements that come, five that go, and two that come: the ring goes on behind the end of
its array. -/
def wrappedOps : List (FifoOp Nat) :=
  (List.range 19).map .push ++ List.replicate 5 .pop ++ [.push 19, .push 20]

theorem free_iff_wrapped : KeptRun fifoInit wrappedOps ∧
    (fifoRun fifoInit wrappedOps).fifoEnd < (fifoRun fifoInit wrappedOps).fifoStart ∧
    FifoFreed true (fifoRun fifoInit wrappedOps) (queueRun [] wrappedOps) := by
  have hrun : KeptRun fifoInit wrappedOps := by decide +kernel
  exact ⟨hrun, by decide +kernel, (free_iff.1 wrappedOps true hrun).mpr (.inr rfl)⟩

/-- A queue and a stack of one element: without a callback the loops do not end, and with one
`stack_free` begins behind the top. A ring that has been filled behind the end of its array is taken
for an empty one. After the first call of a walk no key can be inserted. -/
theorem free_one : ¬FifoFreed false (fifoRun fifoInit [.push 7]) [7] ∧
    ¬FifoFreed true (fifoRun fifoInit lostOps) (queueRun [] lostOps) ∧
    ¬StackFreed false (stackRun stackInit [.push 7]) [7] ∧
    ¬StackFreed true (stackRun stackInit [.push 7]) [7] ∧
    (patWalk 1 twoKeys ⟨.null, false, none⟩).map (fun r => r.2.walkStack) =
      some (.live (stackRun stackInit [.push []])) ∧
    ¬∃ fuel,
      (patInsStop (.live (stackRun stackInit [.push []])) twoKeys [99] 1 'c' 0 fuel).isSome := by
  have hstack := stackRun_allocated [StackOp.push 7] stackInit_allocated
  refine ⟨?_, ?_, ?_, ?_, by decide +kernel, ?_⟩
  · have hring : (fifoRun fifoInit [.push 7]).Ring [7] :=
      fifoRun_ring [.push 7] fifoInit_ring ⟨⟨.inl (by decide), by decide⟩, trivial⟩
    intro h
    rcases (fifoFree_iff hring).mp h with hempty | hfun
    · cases hempty
    · cases hfun
  · rintro ⟨fuel, freed, hfreed, hperm⟩
    have hsame : (fifoRun fifoInit lostOps).fifoStart = (fifoRun fifoInit lostOps).fifoEnd := by
      decide +kernel
    rw [fifoFree, if_neg (not_not.mpr hsame)] at hfreed
    obtain rfl := Option.some.inj hfreed
    have hlen := hperm.length_eq
    revert hlen
    decide +kernel
  · exact fun h => absurd ((stackFree_iff hstack).mp h).1 (by decide)
  · exact fun h => absurd ((stackFree_iff hstack).mp h).1 (by decide)
  · rintro ⟨fuel, h⟩
    rw [patInsStop, Option.isSome_map] at h
    rcases (stopWalk_iff _).mp ⟨fuel, h⟩ with hnull | ⟨s, hs, hempty⟩
    · cases hnull
    · cases hs
      exact absurd hempty (by decide)

end Spegla
