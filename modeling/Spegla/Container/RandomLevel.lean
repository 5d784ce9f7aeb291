import Spegla.Container.SkipList

/-!
# The levels of new skip list nodes (`container.c`, `sl_random_level`)

The level of a node is read off random bits, two at a time.

- `RandomPool`, `slRandomLevel`: the pool of random bits, and the function as the source has it.
- `slRandomLevelFrom_some`: it stops at the first group of two zero bits, whatever stands before.
- `LevelRight`: the level is the number of zero groups at the front, which is Pugh's distribution.
  `slRandomLevel_wrong`: it never is.
-/

namespace Spegla

/-- `SL_BITS_IN_RANDOM`. -/
def SL_BITS_IN_RANDOM : Nat := 31

/-- `SL_MAX_LEVEL`. -/
def SL_MAX_LEVEL : Nat := 15

/-- `sl_random_bits` and `sl_randoms_left`, with the number of calls of `random` so far. -/
structure RandomPool where
  slRandomBits : Nat
  slRandomsLeft : Nat
  drawn : Nat
  left_pos : 0 < slRandomsLeft
  left_le : slRandomsLeft ≤ SL_BITS_IN_RANDOM / 2
deriving DecidableEq, Repr

variable (random : Nat → Fin (2 ^ 31))

/-- The pool of a new list, as `sl_init` fills it. -/
def RandomPool.init : RandomPool where
  slRandomBits := random 0
  slRandomsLeft := SL_BITS_IN_RANDOM / 2
  drawn := 1
  left_pos := by decide
  left_le := Nat.le_refl _

/-- The two bits that come next. -/
def RandomPool.group (pool : RandomPool) : Nat := pool.slRandomBits % 4

/-- The pool behind its next two bits, filled up again when they were the last. -/
def RandomPool.next (pool : RandomPool) : RandomPool :=
  if h : pool.slRandomsLeft - 1 = 0 then
    { slRandomBits := random pool.drawn
      slRandomsLeft := SL_BITS_IN_RANDOM / 2
      drawn := pool.drawn + 1
      left_pos := by decide
      left_le := Nat.le_refl _ }
  else
    { pool with
      slRandomBits := pool.slRandomBits / 4
      slRandomsLeft := pool.slRandomsLeft - 1
      left_pos := Nat.pos_of_ne_zero h
      left_le := Nat.le_trans (Nat.sub_le ..) pool.left_le }

/-- The loop of `sl_random_level`, for as many rounds as there is fuel. -/
def slRandomLevelFrom : Nat → RandomPool → Nat → Option (Nat × RandomPool)
  | 0, _, _ => none
  | fuel + 1, pool, level =>
    let b := pool.group
    let level := if b = 0 then level + 1 else level
    let pool := pool.next random
    if b ≠ 0 then slRandomLevelFrom fuel pool level
    else some (if level > SL_MAX_LEVEL then SL_MAX_LEVEL else level, pool)

/-- `sl_random_level`. -/
def slRandomLevel (fuel : Nat) (pool : RandomPool) : Option (Nat × RandomPool) :=
  slRandomLevelFrom random fuel pool 0

/-! ## The stream of groups -/

/-- The pool behind `i` groups. -/
def RandomPool.after (pool : RandomPool) : Nat → RandomPool
  | 0 => pool
  | i + 1 => RandomPool.after (pool.next random) i

/-- Before group `r` come zero groups alone, and it is none. -/
def ZerosBefore (pool : RandomPool) (r : Nat) : Prop :=
  (∀ i < r, (pool.after random i).group = 0) ∧ (pool.after random r).group ≠ 0

/-- The level is the number of zero groups at the front, cut off at `SL_MAX_LEVEL`, and they are
used up with the group behind them. -/
def LevelRight (pool : RandomPool) : Prop :=
  ∃ r fuel, ZerosBefore random pool r ∧
    slRandomLevel random fuel pool = some (min r SL_MAX_LEVEL, pool.after random (r + 1))

variable {random} {pool pool' : RandomPool} {level level' : Nat}

/-- A pool is not the one behind its next group: it has fewer groups left, or more was drawn. -/
theorem RandomPool.next_ne (pool : RandomPool) : pool.next random ≠ pool := by
  intro heq
  rw [RandomPool.next] at heq
  split at heq
  · have hdrawn : pool.drawn + 1 = pool.drawn := congrArg RandomPool.drawn heq
    omega
  · have hleft : pool.slRandomsLeft - 1 = pool.slRandomsLeft :=
      congrArg RandomPool.slRandomsLeft heq
    have := pool.left_pos
    omega

/-- The loop ends with the first zero group and counts that one alone. -/
theorem slRandomLevelFrom_some {fuel : Nat}
    (h : slRandomLevelFrom random fuel pool level = some (level', pool')) :
    level' = min (level + 1) SL_MAX_LEVEL ∧ ∃ j, (∀ i < j, (pool.after random i).group ≠ 0) ∧
      (pool.after random j).group = 0 ∧ pool' = pool.after random (j + 1) := by
  induction fuel generalizing pool with
  | zero => cases h
  | succ fuel ih =>
    rw [slRandomLevelFrom] at h
    by_cases hb : pool.group = 0
    · simp only [hb, ne_eq, not_true_eq_false, if_false, if_true] at h
      cases h
      refine ⟨?_, 0, fun i hi => absurd hi (Nat.not_lt_zero i), hb, rfl⟩
      split <;> omega
    · simp only [hb, ne_eq, not_false_eq_true, if_true, if_false] at h
      obtain ⟨hlevel, j, hbefore, hzero, hpool⟩ := ih h
      refine ⟨hlevel, j + 1, fun i hi => ?_, hzero, hpool⟩
      cases i with
      | zero => exact hb
      | succ i => exact hbefore i (by omega)

/-- The loop goes on while the bits are not zero, where Pugh's goes on while they are: the level is
never the number of zero groups at the front together with the right rest of the bits. -/
theorem slRandomLevel_wrong (random : Nat → Fin (2 ^ 31)) (pool : RandomPool) :
    ¬LevelRight random pool := by
  rintro ⟨r, fuel, ⟨hzeros, hr⟩, hlevel⟩
  obtain ⟨hone, j, hbefore, hzero, hpool⟩ := slRandomLevelFrom_some hlevel
  -- only a front of one zero group has level 1
  have hr1 : r = 1 := by
    have hmax : SL_MAX_LEVEL = 15 := rfl
    omega
  subst hr1
  have hfirst : (pool.after random 0).group = 0 := hzeros 0 (Nat.zero_lt_one)
  cases j with
  | zero => exact RandomPool.next_ne (pool.next random) hpool
  | succ j => exact hbefore 0 (Nat.zero_lt_succ j) hfirst

/-- The bits of 1, with zero bits after them. -/
def onePool : RandomPool := ⟨1, 15, 1, by decide, by decide⟩

/-- A pool whose first group is not zero gives level 1 after two groups, and not level 0. -/
theorem slRandomLevel_one : ZerosBefore (fun _ => 0) onePool 0 ∧
    slRandomLevel (fun _ => 0) 2 onePool = some (1, onePool.after (fun _ => 0) 2) ∧
    ¬LevelRight (fun _ => 0) onePool := by
  refine ⟨⟨fun i hi => absurd hi (Nat.not_lt_zero i), by decide⟩, by decide, ?_⟩
  rintro ⟨r, fuel, ⟨hzeros, -⟩, hlevel⟩
  obtain ⟨hone, -⟩ := slRandomLevelFrom_some hlevel
  cases r with
  | zero => exact absurd hone (by decide)
  | succ r => exact absurd (hzeros 0 (Nat.zero_lt_succ r)) (by decide)

end Spegla
