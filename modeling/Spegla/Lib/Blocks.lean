import Mathlib.Logic.Relation
import Mathlib.Order.Lattice
import Mathlib.Order.Nat
import Mathlib.Tactic.Common

/-!
# Blocks of a program with jumps

A program is a relation `R` between configurations `(pc, a)`: the number of an instruction and the
data. A part of it that is only entered at its first instruction and only left behind its last one
is a `Block`, and what it does is a relation `L` on the data alone.

- `Block.skip`, `Block.instr`, `Block.seq`: nothing, one instruction, two blocks one after the
  other.
- `Block.bypass`: a jump around a block.
- `Block.branch`: two blocks of which one is taken.
- `Block.loop`: a block with a jump back to its start.
- `Times`: a relation a number of times.
-/

namespace Blocks

open Relation

variable {α : Type*} {R : ℕ × α → ℕ × α → Prop} {p q r m : ℕ} {L L' L₁ L₂ : α → α → Prop}

/-- The steps of the instructions from `p` to before `q`. -/
def Within (R : ℕ × α → ℕ × α → Prop) (p q : ℕ) (x y : ℕ × α) : Prop := p ≤ x.1 ∧ x.1 < q ∧ R x y

/-- No instruction from `p` to before `q` jumps out, except to `q`. -/
def Stays (R : ℕ × α → ℕ × α → Prop) (p q : ℕ) : Prop :=
  ∀ x y, p ≤ x.1 → x.1 < q → R x y → p ≤ y.1 ∧ y.1 ≤ q

/-- The instructions from `p` to before `q` are a block that does `L`. -/
structure Block (R : ℕ × α → ℕ × α → Prop) (p q : ℕ) (L : α → α → Prop) : Prop where
  le : p ≤ q
  stays : Stays R p q
  runs : ∀ a b, ReflTransGen (Within R p q) (p, a) (q, b) ↔ L a b

/-! ## Runs within a part -/

theorem Within.mono {p' q' : ℕ} (hp : p ≤ p') (hq : q' ≤ q) {x y : ℕ × α} (h : Within R p' q' x y) :
    Within R p q x y :=
  ⟨hp.trans h.1, h.2.1.trans_le hq, h.2.2⟩

theorem runs_mono {p' q' : ℕ} (hp : p ≤ p') (hq : q' ≤ q) {x y : ℕ × α}
    (h : ReflTransGen (Within R p' q') x y) : ReflTransGen (Within R p q) x y :=
  ReflTransGen.mono (fun _ _ h => h.mono hp hq) _ _ h

/-- Behind the last instruction a run has ended. -/
theorem runs_end {x y : ℕ × α} (hx : q ≤ x.1) (h : ReflTransGen (Within R p q) x y) : x = y := by
  rcases h.cases_head with h | ⟨z, hz, _⟩
  · exact h
  · exact absurd hz.2.1 (not_lt.mpr hx)

/-- A run that starts in the last part of a program stays there. -/
theorem runs_rest (hs : Stays R q r) {x y : ℕ × α} (hx : q ≤ x.1)
    (h : ReflTransGen (Within R p r) x y) : ReflTransGen (Within R q r) x y := by
  induction h using ReflTransGen.head_induction_on with
  | refl => exact .refl
  | head hxz _ ih => exact .head ⟨hx, hxz.2⟩ (ih (hs _ _ hx hxz.2.1 hxz.2.2).1)

/-- A run that leaves a part of a program leaves it behind the last instruction. -/
theorem runs_exit {p' q' : ℕ} (hs : Stays R p' q') {x y : ℕ × α} (hx : p' ≤ x.1 ∧ x.1 ≤ q')
    (hy : q' ≤ y.1) (h : ReflTransGen (Within R p q) x y) :
    ∃ c, ReflTransGen (Within R p' q') x (q', c) ∧ ReflTransGen (Within R p q) (q', c) y := by
  induction h using ReflTransGen.head_induction_on with
  | refl =>
    obtain ⟨pc, a⟩ := y
    obtain rfl : pc = q' := le_antisymm hx.2 hy
    exact ⟨a, .refl, .refl⟩
  | @head x z hxz hzy ih =>
    obtain ⟨pc, a⟩ := x
    rcases hx.2.eq_or_lt with heq | hlt
    · obtain rfl : pc = q' := heq
      exact ⟨a, .refl, .head hxz hzy⟩
    · obtain ⟨c, hin, hout⟩ := ih (hs _ _ hx.1 hlt hxz.2.2)
      exact ⟨c, .head ⟨hx.1, hlt, hxz.2.2⟩ hin, hout⟩

/-! ## Straight programs -/

theorem Block.congr (h : Block R p q L) (heq : ∀ a b, L a b ↔ L' a b) : Block R p q L' :=
  ⟨h.le, h.stays, fun a b => (h.runs a b).trans (heq a b)⟩

theorem Block.skip (R : ℕ × α → ℕ × α → Prop) (p : ℕ) : Block R p p Eq where
  le := le_rfl
  stays _ _ hp hq := absurd hp (not_le.mpr hq)
  runs a b := by
    constructor
    · intro h
      exact congrArg Prod.snd (runs_end (le_refl p) h)
    · rintro rfl
      exact .refl

theorem Block.instr (h : ∀ a y, R (p, a) y ↔ y.1 = p + 1 ∧ L a y.2) : Block R p (p + 1) L where
  le := p.le_succ
  stays := by
    rintro ⟨pc, a⟩ y hp hq hR
    obtain rfl : pc = p := by simp only at hp hq; omega
    have := ((h a y).mp hR).1
    omega
  runs a b := by
    constructor
    · intro hrun
      rcases hrun.cases_head with heq | ⟨y, hy, hrest⟩
      · simp at heq
      · obtain ⟨h1, hL⟩ := (h a y).mp hy.2.2
        have hend := runs_end h1.ge hrest
        rwa [hend] at hL
    · intro hL
      exact .single ⟨le_rfl, p.lt_succ_self, (h a _).mpr ⟨rfl, hL⟩⟩

theorem Stays.append (h₁ : Stays R p q) (h₂ : Stays R q r) (hpq : p ≤ q) (hqr : q ≤ r) :
    Stays R p r := by
  intro x y hp hr hR
  rcases lt_or_ge x.1 q with hlt | hge
  · have := h₁ x y hp hlt hR
    omega
  · have := h₂ x y hge hr hR
    omega

theorem Block.seq (h₁ : Block R p q L₁) (h₂ : Block R q r L₂) :
    Block R p r (Relation.Comp L₁ L₂) where
  le := h₁.le.trans h₂.le
  stays := h₁.stays.append h₂.stays h₁.le h₂.le
  runs a b := by
    constructor
    · intro h
      obtain ⟨c, hfst, hsnd⟩ := runs_exit h₁.stays ⟨le_rfl, h₁.le⟩ h₂.le h
      exact ⟨c, (h₁.runs a c).mp hfst, (h₂.runs c b).mp (runs_rest h₂.stays le_rfl hsnd)⟩
    · rintro ⟨c, hfst, hsnd⟩
      exact (runs_mono le_rfl h₂.le ((h₁.runs a c).mpr hfst)).trans
        (runs_mono h₁.le le_rfl ((h₂.runs c b).mpr hsnd))

/-! ## Jumps forward -/

/-- The first instruction goes on or jumps behind the block. -/
theorem Block.bypass (hp : ∀ a y, R (p, a) y ↔ (y.1 = p + 1 ∨ y.1 = q) ∧ a = y.2)
    (h : Block R (p + 1) q L) : Block R p q fun a b => a = b ∨ L a b where
  le := p.le_succ.trans h.le
  stays := by
    rintro ⟨pc, a⟩ y hle hlt hR
    have hq := h.le
    rcases hle.eq_or_lt with heq | hgt
    · obtain rfl : p = pc := heq
      have := ((hp a y).mp hR).1
      omega
    · have := h.stays (pc, a) y hgt hlt hR
      omega
  runs a b := by
    have hq := h.le
    constructor
    · intro hrun
      rcases hrun.cases_head with heq | ⟨⟨pc, c⟩, hy, hrest⟩
      · simp only [Prod.mk.injEq] at heq
        omega
      · obtain ⟨hpc, rfl⟩ := (hp a _).mp hy.2.2
        rcases hpc with rfl | rfl
        · right
          exact (h.runs _ _).mp (runs_rest h.stays le_rfl hrest)
        · left
          exact (Prod.ext_iff.mp (runs_end le_rfl hrest)).2
    · rintro (rfl | hL)
      · exact .single ⟨le_rfl, hq, (hp _ _).mpr ⟨.inr rfl, rfl⟩⟩
      · exact .head ⟨le_rfl, hq, (hp _ (p + 1, a)).mpr ⟨.inl rfl, rfl⟩⟩
          (runs_mono p.le_succ le_rfl ((h.runs _ _).mpr hL))

/-- The first instruction goes on or jumps to the second block; behind the first block stands a jump
to the end. -/
theorem Block.branch (hp : ∀ a y, R (p, a) y ↔ (y.1 = p + 1 ∨ y.1 = m + 1) ∧ a = y.2)
    (h₁ : Block R (p + 1) m L₁) (hm : ∀ a y, R (m, a) y ↔ y.1 = q ∧ a = y.2)
    (h₂ : Block R (m + 1) q L₂) : Block R p q fun a b => L₁ a b ∨ L₂ a b := by
  have hpm := h₁.le
  have hmq := h₂.le
  have hstays : Stays R (p + 1) q := by
    rintro ⟨pc, a⟩ y hle hlt hR
    rcases lt_trichotomy pc m with hlt' | rfl | hgt
    · have := h₁.stays _ _ hle hlt' hR
      omega
    · have := ((hm a y).mp hR).1
      omega
    · have := h₂.stays (pc, a) y hgt hlt hR
      omega
  refine ⟨by omega, ?_, fun a b => ?_⟩
  · rintro ⟨pc, a⟩ y hle hlt hR
    rcases hle.eq_or_lt with heq | hgt
    · obtain rfl : p = pc := heq
      have := ((hp a y).mp hR).1
      omega
    · have := hstays _ _ hgt hlt hR
      omega
  constructor
  · intro hrun
    rcases hrun.cases_head with heq | ⟨⟨pc, c⟩, hy, hrest⟩
    · simp only [Prod.mk.injEq] at heq
      omega
    obtain ⟨hpc, rfl⟩ := (hp a _).mp hy.2.2
    rcases hpc with rfl | rfl
    · left
      obtain ⟨c, hin, hout⟩ :=
        runs_exit h₁.stays ⟨le_rfl, hpm⟩ (y := (q, b)) (by simp only; omega) hrest
      -- what is left is the jump to the end
      rcases hout.cases_head with heq | ⟨⟨pc, d⟩, hy, hend⟩
      · simp only [Prod.mk.injEq] at heq
        omega
      obtain ⟨rfl, rfl⟩ := (hm c _).mp hy.2.2
      have := runs_end le_rfl hend
      simp only [Prod.mk.injEq, true_and] at this
      exact this ▸ (h₁.runs _ _).mp hin
    · right
      exact (h₂.runs _ _).mp (runs_rest h₂.stays le_rfl hrest)
  · rintro (hL | hL)
    · refine .head ⟨le_rfl, by simp only; omega, (hp _ (p + 1, a)).mpr ⟨.inl rfl, rfl⟩⟩ ?_
      refine (runs_mono p.le_succ (by omega) ((h₁.runs a b).mpr hL)).tail ?_
      exact ⟨by simp only; omega, by simp only; omega, (hm _ _).mpr ⟨rfl, rfl⟩⟩
    · refine .head ⟨le_rfl, by simp only; omega, (hp _ (m + 1, a)).mpr ⟨.inr rfl, rfl⟩⟩ ?_
      exact runs_mono (by omega) le_rfl ((h₂.runs a b).mpr hL)

/-! ## Jumps backward -/

/-- What is left of a run of a loop, by where it stands. -/
theorem loop_rest (hp : ∀ a y, R (p, a) y ↔ y.1 = p + 1 ∧ a = y.2) (h : Block R (p + 1) q L)
    (hq : ∀ a y, R (q, a) y ↔ (y.1 = q + 1 ∨ y.1 = p) ∧ a = y.2) {x y : ℕ × α}
    (hrun : ReflTransGen (Within R p (q + 1)) x y) (hy : y.1 = q + 1) :
    (x.1 = p → TransGen L x.2 y.2) ∧
    (p + 1 ≤ x.1 → x.1 ≤ q →
      ∃ c, ReflTransGen (Within R (p + 1) q) x (q, c) ∧ (c = y.2 ∨ TransGen L c y.2)) := by
  have hpq := h.le
  induction hrun using ReflTransGen.head_induction_on with
  | refl => constructor <;> intros <;> omega
  | @head x z hxz hzy ih =>
    obtain ⟨pc, a⟩ := x
    obtain ⟨hstart, hbody⟩ := ih
    constructor
    · rintro rfl
      obtain ⟨hz, rfl⟩ := (hp a z).mp hxz.2.2
      obtain ⟨c, hin, hout⟩ := hbody hz.ge (by omega)
      obtain ⟨pc', d⟩ := z
      obtain rfl : pc' = pc + 1 := hz
      have hL : L d c := (h.runs d c).mp hin
      rcases hout with rfl | hout
      · exact .single hL
      · exact .head hL hout
    · intro hle hlt
      rcases hlt.eq_or_lt with heq | hlt
      · -- at the jump back
        obtain rfl : pc = q := heq
        obtain ⟨hz, rfl⟩ := (hq a z).mp hxz.2.2
        refine ⟨z.2, .refl, ?_⟩
        rcases hz with hz | hz
        · left
          exact congrArg Prod.snd (runs_end hz.ge hzy)
        · right
          exact hstart hz
      · obtain ⟨hz, hz'⟩ := h.stays _ _ hle hlt hxz.2.2
        obtain ⟨c, hin, hout⟩ := hbody hz hz'
        exact ⟨c, .head ⟨hle, hlt, hxz.2.2⟩ hin, hout⟩

/-- The last instruction goes on or jumps back to the first one. -/
theorem Block.loop (hp : ∀ a y, R (p, a) y ↔ y.1 = p + 1 ∧ a = y.2) (h : Block R (p + 1) q L)
    (hq : ∀ a y, R (q, a) y ↔ (y.1 = q + 1 ∨ y.1 = p) ∧ a = y.2) :
    Block R p (q + 1) (TransGen L) := by
  have hpq := h.le
  refine ⟨by omega, ?_, fun a b => ?_⟩
  · rintro ⟨pc, a⟩ y hle hlt hR
    simp only at hle hlt
    rcases hle.eq_or_lt with rfl | hgt
    · have := ((hp a y).mp hR).1
      omega
    rcases (Nat.lt_succ_iff.mp hlt).eq_or_lt with rfl | hlt
    · have := ((hq a y).mp hR).1
      omega
    · have := h.stays (pc, a) y hgt hlt hR
      omega
  have hround : ∀ {a c}, L a c → ReflTransGen (Within R p (q + 1)) (p, a) (q, c) := by
    intro a c hL
    refine .head ⟨le_rfl, by simp only; omega, (hp _ (p + 1, a)).mpr ⟨rfl, rfl⟩⟩ ?_
    exact runs_mono p.le_succ q.le_succ ((h.runs a c).mpr hL)
  constructor
  · intro hrun
    exact (loop_rest hp h hq hrun rfl).1 rfl
  · intro hL
    induction hL using TransGen.head_induction_on with
    | single hL =>
      exact (hround hL).tail ⟨by simp only; omega, q.lt_succ_self, (hq _ _).mpr ⟨.inl rfl, rfl⟩⟩
    | @head a c hL _ ih =>
      refine (hround hL).trans (.head ?_ ih)
      exact ⟨by simp only; omega, q.lt_succ_self, (hq _ (p, c)).mpr ⟨.inr rfl, rfl⟩⟩

/-! ## Repetition -/

/-- `L` for `n` times. -/
def Times (L : α → α → Prop) : ℕ → α → α → Prop
  | 0 => Eq
  | n + 1 => Relation.Comp L (Times L n)

theorem times_one {a b : α} : Times L 1 a b ↔ L a b := by
  constructor
  · rintro ⟨c, hL, rfl⟩
    exact hL
  · exact fun h => ⟨b, h, rfl⟩

theorem times_add {m n : ℕ} {a b : α} :
    Times L (m + n) a b ↔ Relation.Comp (Times L m) (Times L n) a b := by
  induction m generalizing a with
  | zero =>
    rw [Nat.zero_add]
    constructor
    · exact fun h => ⟨a, rfl, h⟩
    · rintro ⟨_, rfl, h⟩
      exact h
  | succ m ih =>
    rw [Nat.succ_add]
    constructor
    · rintro ⟨c, hL, h⟩
      obtain ⟨d, hm, hn⟩ := ih.mp h
      exact ⟨d, ⟨c, hL, hm⟩, hn⟩
    · rintro ⟨d, ⟨c, hL, hm⟩, hn⟩
      exact ⟨c, hL, ih.mpr ⟨d, hm, hn⟩⟩

theorem transGen_iff_times {a b : α} : TransGen L a b ↔ ∃ n, 1 ≤ n ∧ Times L n a b := by
  constructor
  · intro h
    induction h using TransGen.head_induction_on with
    | single h => exact ⟨1, le_rfl, times_one.mpr h⟩
    | head h _ ih =>
      obtain ⟨n, _, hn⟩ := ih
      exact ⟨n + 1, by omega, _, h, hn⟩
  · rintro ⟨n, hn, h⟩
    obtain ⟨n, rfl⟩ : ∃ k, n = k + 1 := ⟨n - 1, by omega⟩
    clear hn
    induction n generalizing a with
    | zero => exact .single (times_one.mp h)
    | succ n ih =>
      obtain ⟨c, hL, h⟩ := h
      exact .head hL (ih h)

end Blocks
