import Spegla.Container.Free
import Spegla.Container.StackBlock

/-!
# Walking Patricia trees (`container.c`, `pat_map` and `pat_walk`)

A walk keeps the nodes above the last leaf on a stack, and in a flag whether it is on the way down
to a leaf.

- `patMap`, `patWalkHelper`: the functions, as the source has them. A pointer to a node is the legs
  that lead to it, the last one first.
- `walkN`: what calls one after the other give, with the stack and the flag after them.
- `PatWalkRight`: the walks in both directions give every data once.
- `travOps`: the calls of `stack_push` and `stack_pop` in a walk through a tree, by recursion on it.
- `traversed`: the calls that walk through a tree are those, and give its leaves.
-/

namespace Spegla

open BitTree

/-! ## Nodes -/

section Nodes

variable {β : Type}

def isLeaf : BitTree β → Bool
  | leaf _ => true
  | node .. => false

/-- The leg of a node. -/
def legOf (leg : Bool) : BitTree β → Option (BitTree β)
  | leaf _ => none
  | node _ l r => some (if leg then r else l)

/-- The tree to which the legs lead. -/
def treeAt (root : BitTree β) : List Bool → Option (BitTree β)
  | [] => some root
  | leg :: p => (treeAt root p).bind (legOf leg)

end Nodes

variable {α : Type}

/-! ## The functions -/

/-- `pat_map`: the leaves that `map_fun` is called with. -/
def patMap (pat : PatTree α) : List (PatLeaf α) :=
  if pat.patKeys = 1 then pat.patOne.toList
  else if pat.patKeys ≠ 0 then (pat.patRoot.map leaves).getD []
  else []

/-- Down the legs `forw` to a leaf, where the leg of `p` is the tree given: the leaf, the node above
it and the stack. -/
def seekBottom (forw : Bool) :
    BitTree (PatLeaf α) → List Bool → StackList (List Bool) →
      Option (PatLeaf α × List Bool × StackList (List Bool))
  | .leaf x, p, s => some (x, p, s)
  | .node _ l r, p, s =>
    (pushIn s (forw :: p)).bind fun s =>
      if forw then seekBottom forw r (forw :: p) s else seekBottom forw l (forw :: p) s

/-- The rest of the nodes is popped, up to one that was not left on its leg `back`, which is pushed
again. -/
def climb (root : BitTree (PatLeaf α)) (back : Bool) :
    Nat → List Bool → StackList (List Bool) → Option (StackList (List Bool))
  | 0, _, _ => none
  | fuel + 1, op, s =>
    (popIn s).bind fun
      | none => some s
      | some (p, s) =>
        (treeAt root (back :: p)).bind fun leg =>
          if isLeaf leg ∨ op ≠ back :: p then pushIn s p else climb root back fuel p s

/-- The part of `pat_walk_helper` for `pat_walk_did_forw == 0`, with `p` on top of the stack: the
leaf, the new `*pos`, the stack and the flag. -/
def walkDown (forw : Bool) (root : BitTree (PatLeaf α)) (p : List Bool)
    (s : StackList (List Bool)) :
    Option (PatLeaf α × Option (List Bool) × StackList (List Bool) × Bool) :=
  (treeAt root (forw :: p)).bind fun leg =>
    (seekBottom forw leg p s).map fun (x, p, s) => (x, some p, s, true)

/-- What follows in `pat_walk_helper`, with `p` on top of the stack. -/
def walkFrom (forw : Bool) (root : BitTree (PatLeaf α)) (p : List Bool)
    (s : StackList (List Bool)) (didForw : Bool) :
    Option (PatLeaf α × Option (List Bool) × StackList (List Bool) × Bool) :=
  if didForw then
    (treeAt root ((!forw) :: p)).bind fun
      | .leaf x =>
        (popIn s).bind fun
          | none => some (x, none, s, true)
          | some (op, s) =>
            (climb root (!forw) (s.stackEnd + 1) op s).map fun s => (x, none, s, true)
      | .node .. =>
        -- the new node is on top of the stack when the function calls itself
        (pushIn s ((!forw) :: p)).bind fun s =>
          (stackPeek s).bind fun p => walkDown forw root p s
  else walkDown forw root p s

/-- The state of a walk: `pat_walk_stack`, `pat_walk_did_forw` and the `*pos` of the caller. -/
structure PatWalk where
  walkStack : WalkStack
  didForw : Bool
  pos : Option (List Bool)

/-- `pat_walk_helper` from the call of `stack_peek` on; `fuel` is for `stack_free`. -/
def walkOn (fuel : Nat) (forw : Bool) (pat : PatTree α) (w : PatWalk) :
    Option (Option α × PatWalk) :=
  match w.walkStack with
  | .freed => none
  | .null => some (none, w)
  | .live s =>
    match stackPeek s with
    | none => (stopWalk w.walkStack fuel).map fun stack => (none, { w with walkStack := stack })
    | some p =>
      pat.patRoot.bind fun root =>
        (walkFrom forw root p s w.didForw).map fun (x, pos, s, didForw) =>
          (some x.patData,
            { walkStack := .live s, didForw := didForw, pos := pos.orElse fun _ => w.pos })

/-- What `pat_walk_helper` does when `*pos` is `NULL`: an earlier walk is stopped, and the root put
on a new stack. -/
def newWalk (fuel : Nat) (w : PatWalk) : Option PatWalk :=
  (stopWalk w.walkStack fuel).bind fun _ =>
    (pushIn stackInit []).map fun s => { w with walkStack := .live s, didForw := false }

/-- `pat_walk_helper`. -/
def patWalkHelper (fuel : Nat) (forw : Bool) (pat : PatTree α) (w : PatWalk) :
    Option (Option α × PatWalk) :=
  if pat.patKeys = 0 then some (none, w)
  else
    match w.pos with
    | some _ => walkOn fuel forw pat w
    | none => (newWalk fuel w).bind fun w => walkOn fuel forw pat w

/-- `pat_walk`. -/
def patWalk (fuel : Nat) (pat : PatTree α) (w : PatWalk) : Option (Option α × PatWalk) :=
  patWalkHelper fuel true pat w

/-- `pat_walk_back`. -/
def patWalkBack (fuel : Nat) (pat : PatTree α) (w : PatWalk) : Option (Option α × PatWalk) :=
  patWalkHelper fuel false pat w

/-! ## What a walk should give -/

/-- A tree of no key, of one, which is in the tree itself, or of as many as there are leaves. -/
structure PatTree.Shaped (pat : PatTree α) : Prop where
  one : pat.patKeys = 1 → pat.patOne.isSome ∧ pat.patRoot = none
  many : 2 ≤ pat.patKeys → ∃ root, pat.patRoot = some root ∧ (leaves root).length = pat.patKeys

/-- The calls give the data in this order, and the next one fails. -/
def WalkGives (walk : PatWalk → Option (Option α × PatWalk)) : PatWalk → List α → Prop
  | w, [] => ∃ w', walk w = some (none, w')
  | w, x :: xs => ∃ w', walk w = some (some x, w') ∧ WalkGives walk w' xs

/-- From `*pos == NULL` on, `pat_walk` gives the data that `pat_map` visits, each once, and
`pat_walk_back` gives it in the opposite order. -/
def PatWalkRight (pat : PatTree α) (stack : WalkStack) (didForw : Bool) : Prop :=
  ∃ fuel xs, xs.Perm ((patMap pat).map PatLeaf.patData) ∧
    WalkGives (patWalk fuel pat) ⟨stack, didForw, none⟩ xs ∧
    WalkGives (patWalkBack fuel pat) ⟨stack, didForw, none⟩ xs.reverse

/-! ## The calls of a walk -/

section Traversal

/-- The leaves in the order of a walk. -/
def leavesFrom {β : Type} (forw : Bool) (t : BitTree β) : List β :=
  if forw then (leaves t).reverse else leaves t

/-- The calls on the leg where a walk begins at a node; then the node is left and taken up again. -/
def forwOps (leg : Bool) (q : List Bool) (leafy : Bool) (below : List (StackOp (List Bool))) :
    List (StackOp (List Bool)) :=
  if leafy then [] else .push (leg :: q) :: (below ++ [.pop, .push q])

/-- The calls on the other leg; then the node is left. -/
def backOps (leg : Bool) (q : List Bool) (leafy : Bool) (below : List (StackOp (List Bool))) :
    List (StackOp (List Bool)) :=
  if leafy then [.pop] else .push (leg :: q) :: (below ++ [.pop])

/-- The calls of `stack_push` and `stack_pop` in a walk through a tree, from when its node at `q` is
on the stack until it is not. -/
def travOps {β : Type} (forw : Bool) : BitTree β → List Bool → List (StackOp (List Bool))
  | leaf _, _ => []
  | node _ l r, q =>
    if forw then
      forwOps true q (isLeaf r) (travOps forw r (true :: q)) ++
        backOps false q (isLeaf l) (travOps forw l (false :: q))
    else
      forwOps false q (isLeaf l) (travOps forw l (false :: q)) ++
        backOps true q (isLeaf r) (travOps forw r (true :: q))

variable {forw didForw : Bool} {root c d : BitTree (PatLeaf α)} {q : List Bool}
  {s s' : StackList (List Bool)} {b n : Nat} {l r : BitTree (PatLeaf α)}

/-- The leaves below a node, with its legs in the order of a walk. -/
theorem leavesFrom_node (forw : Bool) (b : Nat) (l r : BitTree (PatLeaf α)) :
    leavesFrom forw (node b l r) =
      leavesFrom forw (if forw then r else l) ++ leavesFrom forw (if forw then l else r) := by
  cases forw with
  | false => rfl
  | true => exact List.reverse_append

theorem leavesFrom_leaf {β : Type} (forw : Bool) (x : β) : leavesFrom forw (leaf x) = [x] := by
  cases forw <;> rfl

/-- A node is on the stack again after its leg `forw`, when the walk below takes its own from it. -/
theorem contents_forwOps {leafy : Bool} {below : List (StackOp (List Bool))} {leg : Bool}
    {rest : List (List Bool)}
    (h : leafy = false → contents ((leg :: q) :: q :: rest) below = q :: rest) :
    contents (q :: rest) (forwOps leg q leafy below) = q :: rest := by
  cases leafy with
  | true => rfl
  | false =>
    show contents ((leg :: q) :: q :: rest) (below ++ [.pop, .push q]) = q :: rest
    rw [contents_append, h rfl]
    rfl

/-- It is not after its other leg. -/
theorem contents_backOps {leafy : Bool} {below : List (StackOp (List Bool))} {leg : Bool}
    {rest : List (List Bool)}
    (h : leafy = false → contents ((leg :: q) :: q :: rest) below = q :: rest) :
    contents (q :: rest) (backOps leg q leafy below) = rest := by
  cases leafy with
  | true => rfl
  | false =>
    show contents ((leg :: q) :: q :: rest) (below ++ [.pop]) = rest
    rw [contents_append, h rfl]
    rfl

/-- A walk through a tree takes its node from the stack. -/
theorem contents_travOps (forw : Bool) {u : BitTree (PatLeaf α)} (hu : isLeaf u = false)
    (q : List Bool) (rest : List (List Bool)) :
    contents (q :: rest) (travOps forw u q) = rest := by
  induction u generalizing q rest with
  | leaf x => cases hu
  | node b l r ihl ihr =>
    cases forw with
    | false =>
      show contents (q :: rest) (forwOps false q (isLeaf l) _ ++ backOps true q (isLeaf r) _) = rest
      rw [contents_append, contents_forwOps fun h => ihl h _ _]
      exact contents_backOps fun h => ihr h _ _
    | true =>
      show contents (q :: rest) (forwOps true q (isLeaf r) _ ++ backOps false q (isLeaf l) _) = rest
      rw [contents_append, contents_forwOps fun h => ihr h _ _]
      exact contents_backOps fun h => ihl h _ _

/-- What `n` calls give, from a stack and a flag on. -/
def walkN (forw : Bool) (root : BitTree (PatLeaf α)) : Nat → StackList (List Bool) → Bool →
    Option (List (PatLeaf α) × StackList (List Bool) × Bool)
  | 0, s, didForw => some ([], s, didForw)
  | n + 1, s, didForw =>
    (stackPeek s).bind fun p => (walkFrom forw root p s didForw).bind fun x =>
      (walkN forw root n x.2.2.1 x.2.2.2).map fun r => (x.1 :: r.1, r.2)

theorem walkN_add (m n : Nat) (s : StackList (List Bool)) (didForw : Bool) :
    walkN forw root (m + n) s didForw = (walkN forw root m s didForw).bind fun r =>
      (walkN forw root n r.2.1 r.2.2).map fun r' => (r.1 ++ r'.1, r'.2) := by
  induction m generalizing s didForw with
  | zero =>
    rw [Nat.zero_add]
    show _ = (walkN forw root n s didForw).map fun r' => ([] ++ r'.1, r'.2)
    simp
  | succ m ih =>
    rw [Nat.succ_add, walkN, walkN]
    cases stackPeek s with
    | none => rfl
    | some p =>
      simp only [Option.bind_some]
      cases walkFrom forw root p s didForw with
      | none => rfl
      | some x =>
        simp only [Option.bind_some]
        rw [ih]
        cases walkN forw root m x.2.2.1 x.2.2.2 with
        | none => rfl
        | some r =>
          simp only [Option.bind_some, Option.map_some]
          cases walkN forw root n r.2.1 r.2.2 <;> rfl

/-- The rest of the nodes, when the one at `q` has been popped. -/
def climbFrom (forw : Bool) (root : BitTree (PatLeaf α)) (q : List Bool)
    (s : StackList (List Bool)) : Option (StackList (List Bool)) :=
  climb root (!forw) (s.stackEnd + 1) q s

/-- Calls that walk through a tree from its node at `q` on give its leaves. The last one goes on to
leave the nodes above. -/
def Traversed (forw : Bool) (root u : BitTree (PatLeaf α)) : Prop :=
  ∀ q s, treeAt root q = some u → s.Contains q.tails →
    walkN forw root (leaves u).length s false =
      (runInside s (travOps forw u q)).bind fun s => (climbFrom forw root q s).map fun s =>
        (leavesFrom forw u, s, true)

theorem tails_eq (q : List Bool) : ∃ rest, q.tails = q :: rest := by
  cases q with
  | nil => exact ⟨[], rfl⟩
  | cons leg q => exact ⟨q.tails, rfl⟩

theorem peek_tails (h : s.Contains q.tails) : stackPeek s = some q := by
  obtain ⟨rest, hrest⟩ := tails_eq q
  rw [h.peek, hrest]
  rfl

theorem pushIn_contains {leg : Bool} (h : s.Contains q.tails) (hp : pushIn s (leg :: q) = some s') :
    s'.Contains (leg :: q).tails := by
  rw [pushIn] at hp
  split at hp
  · next hin =>
    cases hp
    exact h.push hin
  · cases hp

/-- A node below is pushed, and the calls go on as from there. -/
theorem walkN_push (hn : n ≠ 0) (hc : treeAt root (forw :: q) = some c) (hleaf : isLeaf c = false)
    (hs : s.Contains q.tails) :
    walkN forw root n s false = (pushIn s (forw :: q)).bind fun s =>
      walkN forw root n s false := by
  obtain ⟨n, rfl⟩ := Nat.exists_eq_succ_of_ne_zero hn
  cases c with
  | leaf x => cases hleaf
  | node b l r =>
    have hchild : treeAt root (forw :: forw :: q) = some (if forw then r else l) := by
      rw [treeAt, hc]
      rfl
    have hdown : walkDown forw root q s = (pushIn s (forw :: q)).bind fun s =>
        walkDown forw root (forw :: q) s := by
      rw [walkDown, hc, Option.bind_some, seekBottom]
      cases pushIn s (forw :: q) with
      | none => rfl
      | some s' =>
        rw [Option.bind_some, Option.bind_some, walkDown, hchild, Option.bind_some]
        cases forw <;> rfl
    rw [walkN, peek_tails hs, Option.bind_some, walkFrom, if_neg (by decide), hdown]
    cases hp : pushIn s (forw :: q) with
    | none => rfl
    | some s' =>
      rw [Option.bind_some, Option.bind_some, walkN, peek_tails (pushIn_contains hs hp)]
      rfl

theorem walkN_push_back (hn : n ≠ 0) (hd : treeAt root ((!forw) :: q) = some d)
    (hleaf : isLeaf d = false) (hs : s.Contains q.tails) :
    walkN forw root n s true = (pushIn s ((!forw) :: q)).bind fun s =>
      walkN forw root n s false := by
  obtain ⟨n, rfl⟩ := Nat.exists_eq_succ_of_ne_zero hn
  cases d with
  | leaf x => cases hleaf
  | node b l r =>
    rw [walkN, peek_tails hs, Option.bind_some, walkFrom, if_pos rfl, hd, Option.bind_some]
    cases hp : pushIn s ((!forw) :: q) with
    | none => simp only [Option.bind_none]
    | some s' =>
      simp only [Option.bind_some]
      rw [walkN, peek_tails (pushIn_contains hs hp)]
      rfl

/-! ## Leaving nodes -/

/-- A node that was left on its leg `back` is left as well. -/
theorem climbFrom_back (hd : treeAt root ((!forw) :: q) = some d) (hleaf : isLeaf d = false)
    (hs : s.Contains q.tails) :
    climbFrom forw root ((!forw) :: q) s =
      (runInside s [.pop]).bind fun s => climbFrom forw root q s := by
  obtain ⟨rest, hrest⟩ := tails_eq q
  rw [hrest] at hs
  obtain ⟨s', hpop, hrun, hend, -⟩ := hs.run_pop []
  rw [hrun, climbFrom, ← hend, climb, hpop, Option.bind_some]
  simp only [hd, Option.bind_some, hleaf]
  rw [if_neg (by simp)]
  rfl

/-- A node that was left on its leg `forw` is taken up again. -/
theorem climbFrom_forw (hd : treeAt root ((!forw) :: q) = some d) (hs : s.Contains q.tails) :
    climbFrom forw root (forw :: q) s = runInside s [.pop, .push q] := by
  obtain ⟨rest, hrest⟩ := tails_eq q
  rw [hrest] at hs
  obtain ⟨s', hpop, hrun, -, -⟩ := hs.run_pop [.push q]
  have hne : forw :: q ≠ (!forw) :: q := by
    cases forw <;> simp
  rw [hrun, runInside_push, climbFrom, climb, hpop, Option.bind_some]
  simp only [hd, Option.bind_some]
  rw [if_pos (Or.inr hne)]
  cases pushIn s' q <;> rfl

theorem climbFrom_root (h : s.Contains []) : climbFrom forw root q s = some s := by
  rw [climbFrom, climb, h.popIn_nil]
  rfl

/-! ## A walk through a tree -/

/-- The leg where a walk begins at a node. -/
theorem walkN_forw (hc : treeAt root (forw :: q) = some c)
    (hd : treeAt root ((!forw) :: q) = some d) (hs : s.Contains q.tails)
    (ih : isLeaf c = false → Traversed forw root c) :
    walkN forw root (leaves c).length s false =
      (runInside s (forwOps forw q (isLeaf c) (travOps forw c (forw :: q)))).map fun s =>
        (leavesFrom forw c, s, true) := by
  cases hleaf : isLeaf c with
  | true =>
    obtain ⟨x, rfl⟩ : ∃ x, c = leaf x := by
      cases c with
      | leaf x => exact ⟨x, rfl⟩
      | node b l r => cases hleaf
    rw [leavesFrom_leaf]
    show walkN forw root (0 + 1) s false = some ([x], s, true)
    rw [walkN, peek_tails hs, Option.bind_some, walkFrom, if_neg (by decide), walkDown, hc]
    rfl
  | false =>
    have hn : (leaves c).length ≠ 0 := fun h => leaves_ne_nil c (List.eq_nil_of_length_eq_zero h)
    rw [forwOps, if_neg (by decide), runInside_push, walkN_push hn hc hleaf hs]
    cases hp : pushIn s (forw :: q) with
    | none => rfl
    | some s₁ =>
      have hs₁ := pushIn_contains hs hp
      rw [Option.bind_some, Option.bind_some, ih hleaf (forw :: q) s₁ hc hs₁, runInside_append]
      cases hrun : runInside s₁ (travOps forw c (forw :: q)) with
      | none => rfl
      | some s₂ =>
        have hs₂ : s₂.Contains q.tails := by
          have h := hs₁.run hrun
          rwa [List.tails_cons, contents_travOps forw hleaf] at h
        rw [Option.bind_some, Option.bind_some, climbFrom_forw hd hs₂]

/-- The other leg of a node, and those above. -/
theorem walkN_back (hd : treeAt root ((!forw) :: q) = some d) (hs : s.Contains q.tails)
    (ih : isLeaf d = false → Traversed forw root d) :
    walkN forw root (leaves d).length s true =
      (runInside s (backOps (!forw) q (isLeaf d) (travOps forw d ((!forw) :: q)))).bind fun s =>
        (climbFrom forw root q s).map fun s => (leavesFrom forw d, s, true) := by
  cases hleaf : isLeaf d with
  | true =>
    obtain ⟨x, rfl⟩ : ∃ x, d = leaf x := by
      cases d with
      | leaf x => exact ⟨x, rfl⟩
      | node b l r => cases hleaf
    have hpeek := peek_tails hs
    obtain ⟨rest, hrest⟩ := tails_eq q
    rw [hrest] at hs
    obtain ⟨s', hpop, hrun, -, -⟩ := hs.run_pop []
    show walkN forw root (0 + 1) s true = _
    rw [backOps, if_pos rfl, hrun, walkN, hpeek, Option.bind_some, walkFrom, if_pos rfl, hd,
      Option.bind_some, leavesFrom_leaf]
    simp only [hpop, Option.bind_some]
    show _ = (climbFrom forw root q s').map _
    rw [climbFrom]
    cases climb root (!forw) (s'.stackEnd + 1) q s' <;> rfl
  | false =>
    have hn : (leaves d).length ≠ 0 := fun h => leaves_ne_nil d (List.eq_nil_of_length_eq_zero h)
    rw [backOps, if_neg (by decide), runInside_push, walkN_push_back hn hd hleaf hs]
    cases hp : pushIn s ((!forw) :: q) with
    | none => rfl
    | some s₁ =>
      have hs₁ := pushIn_contains hs hp
      rw [Option.bind_some, Option.bind_some, ih hleaf ((!forw) :: q) s₁ hd hs₁, runInside_append]
      cases hrun : runInside s₁ (travOps forw d ((!forw) :: q)) with
      | none => rfl
      | some s₂ =>
        have hs₂ : s₂.Contains q.tails := by
          have h := hs₁.run hrun
          rwa [List.tails_cons, contents_travOps forw hleaf] at h
        rw [Option.bind_some, Option.bind_some, climbFrom_back hd hleaf hs₂]
        cases runInside s₂ [.pop] <;> rfl

/-- Walks through the two legs of a node are a walk through the node. -/
theorem traversed_legs (hnode : isLeaf c = false → Traversed forw root c)
    (hnode' : isLeaf d = false → Traversed forw root d) {u : BitTree (PatLeaf α)}
    (hleaves : (leaves u).length = (leaves c).length + (leaves d).length)
    (hops : ∀ q, travOps forw u q = forwOps forw q (isLeaf c) (travOps forw c (forw :: q)) ++
      backOps (!forw) q (isLeaf d) (travOps forw d ((!forw) :: q)))
    (hgives : leavesFrom forw u = leavesFrom forw c ++ leavesFrom forw d)
    (hc : legOf forw u = some c) (hd : legOf (!forw) u = some d) : Traversed forw root u := by
  intro q s hu hs
  have hc' : treeAt root (forw :: q) = some c := by
    rw [treeAt, hu]
    exact hc
  have hd' : treeAt root ((!forw) :: q) = some d := by
    rw [treeAt, hu]
    exact hd
  rw [hleaves, walkN_add, walkN_forw hc' hd' hs hnode, hops, runInside_append]
  cases hrun : runInside s (forwOps forw q (isLeaf c) (travOps forw c (forw :: q))) with
  | none => rfl
  | some s₁ =>
    have hs₁ : s₁.Contains q.tails := by
      obtain ⟨rest, hrest⟩ := tails_eq q
      have h := hs.run hrun
      rwa [hrest, contents_forwOps fun hleaf => contents_travOps forw hleaf _ _, ← hrest] at h
    rw [Option.map_some, Option.bind_some, Option.bind_some, walkN_back hd' hs₁ hnode']
    cases runInside s₁ (backOps (!forw) q (isLeaf d) (travOps forw d ((!forw) :: q))) with
    | none => rfl
    | some s₂ =>
      rw [Option.bind_some, Option.bind_some]
      cases climbFrom forw root q s₂ with
      | none => rfl
      | some s₃ =>
        rw [hgives]
        rfl

/-- The calls that walk through a tree give its leaves. -/
theorem traversed (forw : Bool) (root : BitTree (PatLeaf α)) {u : BitTree (PatLeaf α)}
    (hu : isLeaf u = false) : Traversed forw root u := by
  induction u with
  | leaf x => cases hu
  | node b l r ihl ihr =>
    cases forw with
    | false =>
      exact traversed_legs ihl ihr List.length_append (fun q => rfl)
        (leavesFrom_node false b l r) rfl rfl
    | true =>
      exact traversed_legs ihr ihl (by rw [leaves, List.length_append, Nat.add_comm])
        (fun q => rfl) (leavesFrom_node true b l r) rfl rfl

/-- The calls of a walk through all of the tree, whose stack is a new one. -/
def walkOps (forw : Bool) (root : BitTree (PatLeaf α)) : List (StackOp (List Bool)) :=
  .push [] :: travOps forw root []

/-- Every slot that a walk writes to lies in the block of its stack. -/
def WalkInside (forw : Bool) (root : BitTree (PatLeaf α)) : Prop :=
  (runInside stackInit (walkOps forw root)).isSome

/-- The calls from a new stack on are those of a walk through the tree. -/
theorem walkN_root (forw : Bool) (hroot : isLeaf root = false) :
    ((pushIn stackInit []).bind fun s => walkN forw root (leaves root).length s false) =
      (runInside stackInit (walkOps forw root)).map fun s => (leavesFrom forw root, s, true) := by
  rw [walkOps, runInside_push]
  cases hp : pushIn (stackInit : StackList (List Bool)) [] with
  | none => rfl
  | some s =>
    have hs : s.Contains ([] : List Bool).tails := by
      rw [pushIn] at hp
      split at hp
      · next hin =>
        cases hp
        exact stackInit_contains.push hin
      · cases hp
    rw [Option.bind_some, Option.bind_some, traversed forw root hroot [] s rfl hs]
    cases hrun : runInside s (travOps forw root []) with
    | none => rfl
    | some s' =>
      have hs' : s'.Contains [] := by
        have h : s'.Contains (contents [[]] (travOps forw root [])) := hs.run hrun
        rwa [contents_travOps forw hroot] at h
      rw [Option.bind_some, climbFrom_root hs', Option.map_some]

/-- When the walk is over, its stack is empty. -/
theorem walkOps_contents (hroot : isLeaf root = false)
    (hrun : runInside stackInit (walkOps forw root) = some s) : s.Contains [] := by
  have h := stackInit_contains.run hrun
  rwa [walkOps, contents, idealStep, contents_travOps forw hroot] at h

end Traversal

end Spegla
