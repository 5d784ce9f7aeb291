import Mathlib.Data.Finset.Card
import Mathlib.Data.Finset.Range
import Mathlib.Tactic.Ring
import Spegla.Regex.Engine

/-!
# One pass over the strip (`regex/engine.c`, `step`)

A set of states is closed under the jumps of the strip after one pass, though the pass goes from
left to right and only turns back at the end of a loop.

- `Lawful`: what the two kinds of sets have in common.
- `jumps`, `Jumps`, `Takes`: the moves without a character and the ones with `ch`.
- `Ready`: what `step` needs of a strip.
- `step_pass`: the pass ends, its result is closed and is the least set that is.
-/

namespace Spegla.Regex

open States

/-! ## The two kinds of sets -/

/-- The macros do what their names say, on sets for strips of `n` operators. -/
structure Lawful (σ : Type) [States σ] (n : ℕ) (Fits : σ → Prop) : Prop where
  fits_clear : Fits (clear n)
  fits_set1 : ∀ {v} k, Fits v → Fits (set1 v k)
  fits_fwd : ∀ {d s} h k, Fits d → Fits (fwd d s h k)
  fits_back : ∀ {d s} h k, Fits d → Fits (back d s h k)
  isset_clear : ∀ j, isset (clear n : σ) j = false
  isset_set1 : ∀ {v : σ} {k} j, Fits v → k < n → isset (set1 v k) j = (isset v j || decide (j = k))
  isset_fwd : ∀ {d s : σ} {h k} j, Fits d → h + k < n →
    isset (fwd d s h k) j = (isset d j || (isset s h && decide (j = h + k)))
  isset_back : ∀ {d s : σ} {h k} j, Fits d → h < n → k ≤ h →
    isset (back d s h k) j = (isset d j || (isset s h && decide (j = h - k)))
  issetback_eq : ∀ {v : σ} {h k}, h < n → k ≤ h → issetback v h k = isset v (h - k)
  reread_eq : (∀ v w : σ, reread v w = v) ∨ ∀ v w : σ, reread v w = w

theorem one_shiftLeft_getLsbD (n j : ℕ) :
    ((1 : Small) <<< n).getLsbD j = (decide (j < 64) && decide (j = n)) := by
  rw [BitVec.getLsbD_shiftLeft]
  by_cases hj : j < n
  · simp [hj]
    omega
  · have : j - n = 0 ↔ j = n := by omega
    simp [hj, this, BitVec.getLsbD_one]

theorem and_one_shiftLeft_getLsbD (v : Small) (n j : ℕ) :
    (v &&& ((1 : Small) <<< n)).getLsbD j = (v.getLsbD n && decide (j = n)) := by
  rw [BitVec.getLsbD_and, one_shiftLeft_getLsbD]
  by_cases hj : j = n
  · subst hj
    by_cases h : j < 64
    · simp [h]
    · simp [h, BitVec.getLsbD_of_ge v j (not_lt.mp h)]
  · simp [hj]

theorem and_one_shiftLeft_ne_zero (v : Small) (n : ℕ) :
    decide (v &&& ((1 : Small) <<< n) ≠ 0) = v.getLsbD n := by
  by_cases h : v.getLsbD n
  · rw [h, decide_eq_true_iff]
    intro h0
    have := congrArg (fun w => BitVec.getLsbD w n) h0
    simp only [and_one_shiftLeft_getLsbD, h] at this
    simp at this
  · rw [Bool.not_eq_true] at h
    rw [h, decide_eq_false_iff_not, not_not]
    apply BitVec.eq_of_getLsbD_eq
    intro i hi
    rw [and_one_shiftLeft_getLsbD, h]
    simp

theorem isset_small (v : Small) (j : ℕ) : isset v j = v.getLsbD j := and_one_shiftLeft_ne_zero v j

/-- The states in a word are lawful. -/
theorem lawful_small {n : ℕ} (hn : n ≤ 64) : Lawful Small n fun _ => True where
  fits_clear := trivial
  fits_set1 _ _ := trivial
  fits_fwd _ _ _ := trivial
  fits_back _ _ _ := trivial
  isset_clear j := by
    rw [isset_small]
    exact BitVec.getLsbD_zero
  isset_set1 {v k} j _ hk := by
    rw [isset_small, isset_small]
    show (v ||| ((1 : Small) <<< k)).getLsbD j = _
    rw [BitVec.getLsbD_or, one_shiftLeft_getLsbD]
    by_cases hj : j = k
    · simp [hj, hk.trans_le hn]
    · simp [hj]
  isset_fwd {d s h k} j _ hk := by
    -- the bit is shifted inside the word, `hk` keeps it from being lost
    rw [isset_small, isset_small, isset_small]
    show (d ||| ((s &&& ((1 : Small) <<< h)) <<< k)).getLsbD j = _
    rw [BitVec.getLsbD_or, BitVec.getLsbD_shiftLeft, and_one_shiftLeft_getLsbD]
    by_cases hj : j = h + k
    · subst hj
      have hlt : h + k < 64 := hk.trans_le hn
      have hkk : ¬h + k < k := by omega
      simp [hlt, hkk]
    · have : ¬(¬j < k ∧ j - k = h) := by omega
      by_cases hjk : j < k
      · simp [hjk, hj]
      · have : ¬j - k = h := by omega
        simp [this, hj]
  isset_back {d s h k} j _ hh hk := by
    rw [isset_small, isset_small, isset_small]
    show (d ||| ((s &&& ((1 : Small) <<< h)) >>> k)).getLsbD j = _
    rw [BitVec.getLsbD_or, BitVec.getLsbD_ushiftRight, and_one_shiftLeft_getLsbD]
    have : k + j = h ↔ j = h - k := by omega
    simp [this]
  issetback_eq {v h k} hh hk := by
    rw [isset_small]
    show decide (v &&& (((1 : Small) <<< h) >>> k) ≠ 0) = _
    -- nothing is lost by the shift to the right
    have heq : ((1 : Small) <<< h) >>> k = (1 : Small) <<< (h - k) := by
      apply BitVec.eq_of_getLsbD_eq
      intro i hi
      rw [BitVec.getLsbD_ushiftRight, one_shiftLeft_getLsbD, one_shiftLeft_getLsbD]
      by_cases hih : i = h - k
      · have hik : k + i = h := by omega
        have hlt : k + i < 64 := by omega
        rw [decide_eq_true hlt, decide_eq_true hik, decide_eq_true hi, decide_eq_true hih]
      · have hik : ¬k + i = h := by omega
        simp [hik, hih]
    rw [heq, and_one_shiftLeft_ne_zero]
  reread_eq := .inl fun _ _ => rfl

theorem getD_set (v : Large) {k : ℕ} (b : Bool) (j : ℕ) (hk : k < v.length) :
    (v.set k b).getD j false = if j = k then b else v.getD j false := by
  rw [List.getD_eq_getElem?_getD, List.getElem?_set, List.getD_eq_getElem?_getD]
  by_cases hj : j = k
  · subst hj
    simp [hk]
  · simp [hj, Ne.symm hj]

/-- So are those in a block of bytes. -/
theorem lawful_large (n : ℕ) : Lawful Large n fun v => v.length = n where
  fits_clear := List.length_replicate
  fits_set1 k h := (List.length_set ..).trans h
  fits_fwd h k hd := (List.length_set ..).trans hd
  fits_back h k hd := (List.length_set ..).trans hd
  isset_clear j := by
    show (List.replicate n false).getD j false = false
    rw [List.getD_eq_getElem?_getD, List.getElem?_replicate]
    split <;> rfl
  isset_set1 {v k} j hv hk := by
    show (v.set k true).getD j false = (v.getD j false || _)
    rw [getD_set v true j (by rwa [hv])]
    by_cases hj : j = k <;> simp [hj]
  isset_fwd {d s h k} j hd hk := by
    show (d.set (h + k) (d.getD (h + k) false || s.getD h false)).getD j false =
      (d.getD j false || (s.getD h false && _))
    rw [getD_set d _ j (by rwa [hd])]
    by_cases hj : j = h + k <;> simp [hj]
  isset_back {d s h k} j hd hh hk := by
    show (d.set (h - k) (d.getD (h - k) false || s.getD h false)).getD j false =
      (d.getD j false || (s.getD h false && _))
    rw [getD_set d _ j (by rw [hd]; omega)]
    by_cases hj : j = h - k <;> simp [hj]
  issetback_eq _ _ := rfl
  reread_eq := .inr fun _ _ => rfl

/-! ## The moves of a strip -/

/-- The places an operator leads to without looking at the text. -/
def jumps (strip : List Sop) (pc : ℕ) : Sop → List ℕ
  | .oPlus_ _ | .o_Quest _ | .oLparen _ | .oRparen _ | .o_Ch _ => [pc + 1]
  | .o_Plus n => [pc + 1, pc - n]
  | .oQuest_ n | .oCh_ n => [pc + 1, pc + n]
  | .oOr1 _ => (lookCh strip strip.length (pc + 1)).toList
  | .oOr2 n => if (strip[pc + n]?.map Sop.isO_Ch).getD false then [pc + 1] else [pc + 1, pc + n]
  | _ => []

/-- The strip leads from `i` to `j` without looking at the text. -/
def Jumps (strip : List Sop) (i j : ℕ) : Prop := ∃ s, strip[i]? = some s ∧ j ∈ jumps strip i s

/-- The strip leads from `i` to `j` with `ch`. -/
def Takes (g : Guts) (ch : Ch) (i j : ℕ) : Prop :=
  ∃ s, g.strip[i]? = some s ∧ s.takes g.sets ch = true ∧ j = i + 1

/-- The operator at a place leads to places up to `stop`, and back only at the end of a loop. -/
def ReadyAt (strip : List Sop) (start stop pc : ℕ) : Sop → Prop
  | .o_Plus n => start + n ≤ pc
  | .oQuest_ n | .oCh_ n => 0 < n ∧ pc + n ≤ stop
  | .oOr1 _ => ∃ j, lookCh strip strip.length (pc + 1) = some j ∧ pc < j ∧ j ≤ stop
  | .oOr2 n => 0 < n ∧ pc + n ≤ stop
  | _ => True

/-- A strip that `step` can go through from `start` to before `stop`. -/
structure Ready (strip : List Sop) (start stop : ℕ) : Prop where
  le : start ≤ stop
  stop_lt : stop < strip.length
  op : ∀ pc s, start ≤ pc → pc < stop → strip[pc]? = some s → ReadyAt strip start stop pc s

section Pass

variable {σ : Type} [States σ] {Fits : σ → Prop} {g : Guts} {start stop : ℕ} {bef : σ → σ} {ch : Ch}

/-- What one turn of the loop does to a set, with the next place. -/
structure Turn (g : Guts) (start : ℕ) (bef : σ → σ) (ch : Ch) (pc : ℕ) (aft aft' : σ) (pc' : ℕ) :
    Prop where
  keeps : ∀ j, isset aft j = true → isset aft' j = true
  jumped : ∀ j, Jumps g.strip pc j → isset aft pc = true → isset aft' j = true
  taken : ∀ j, Takes g ch pc j → isset (bef aft) pc = true → isset aft' j = true
  only : ∀ j, isset aft' j = true → isset aft j = true ∨
    (Jumps g.strip pc j ∧ isset aft pc = true) ∨ (Takes g ch pc j ∧ isset (bef aft) pc = true)
  ahead : ∀ j, isset aft' j = true → isset aft j = true ∨ pc < j ∨ j = pc'
  next : pc' = pc + 1 ∨
    (start ≤ pc' ∧ pc' ≤ pc ∧ isset aft pc' = false ∧ isset aft' pc' = true)

/-- A state that is copied ahead. -/
theorem isset_fwd_iff (hl : Lawful σ g.strip.length Fits) {d s : σ} (hd : Fits d) {h k j : ℕ}
    (hk : h + k < g.strip.length) :
    isset (fwd d s h k) j = true ↔ isset d j = true ∨ (isset s h = true ∧ j = h + k) := by
  rw [hl.isset_fwd j hd hk]
  simp

/-- A state that is copied back. -/
theorem isset_back_iff (hl : Lawful σ g.strip.length Fits) {d s : σ} (hd : Fits d) {h k j : ℕ}
    (hh : h < g.strip.length) (hk : k ≤ h) :
    isset (back d s h k) j = true ↔ isset d j = true ∨ (isset s h = true ∧ j = h - k) := by
  rw [hl.isset_back j hd hh hk]
  simp

/-- The jumps of an operator, as a list. -/
theorem jumps_iff {strip : List Sop} {pc j : ℕ} {s : Sop} (hs : strip[pc]? = some s) :
    Jumps strip pc j ↔ j ∈ jumps strip pc s := by
  simp [Jumps, hs]

/-- An operator takes a character to the next place. -/
theorem takes_iff {pc j : ℕ} {s : Sop} (hs : g.strip[pc]? = some s) :
    Takes g ch pc j ↔ s.takes g.sets ch = true ∧ j = pc + 1 := by
  simp [Takes, hs]

/-- An operator that only leads forward. -/
theorem Turn.forward {pc : ℕ} {aft aft' : σ} {s : Sop} (hs : g.strip[pc]? = some s)
    (htakes : s.takes g.sets ch = false)
    (hset : ∀ j, isset aft' j = true ↔
      isset aft j = true ∨ (isset aft pc = true ∧ j ∈ jumps g.strip pc s))
    (hlt : isset aft pc = true → ∀ j ∈ jumps g.strip pc s, pc < j) :
    Turn g start bef ch pc aft aft' (pc + 1) where
  keeps j h := (hset j).mpr (.inl h)
  jumped j hj h := (hset j).mpr (.inr ⟨h, (jumps_iff hs).mp hj⟩)
  taken j hj := by
    rw [takes_iff hs, htakes] at hj
    exact absurd hj.1 Bool.false_ne_true
  only j hj := by
    rcases (hset j).mp hj with h | ⟨h, hmem⟩
    · exact .inl h
    · exact .inr (.inl ⟨(jumps_iff hs).mpr hmem, h⟩)
  ahead j hj := by
    rcases (hset j).mp hj with h | ⟨h, hmem⟩
    · exact .inl h
    · exact .inr (.inl (hlt h j hmem))
  next := .inl rfl

/-- An operator that looks at the text. -/
theorem Turn.look {pc : ℕ} {aft aft' : σ} {s : Sop} (hs : g.strip[pc]? = some s)
    (hjumps : jumps g.strip pc s = [])
    (hset : ∀ j, isset aft' j = true ↔ isset aft j = true ∨
      (s.takes g.sets ch = true ∧ isset (bef aft) pc = true ∧ j = pc + 1)) :
    Turn g start bef ch pc aft aft' (pc + 1) where
  keeps j h := (hset j).mpr (.inl h)
  jumped j hj := by
    rw [jumps_iff hs, hjumps] at hj
    cases hj
  taken j hj h := by
    obtain ⟨htakes, rfl⟩ := (takes_iff hs).mp hj
    exact (hset _).mpr (.inr ⟨htakes, h, rfl⟩)
  only j hj := by
    rcases (hset j).mp hj with h | ⟨htakes, h, rfl⟩
    · exact .inl h
    · exact .inr (.inr ⟨(takes_iff hs).mpr ⟨htakes, rfl⟩, h⟩)
  ahead j hj := by
    rcases (hset j).mp hj with h | ⟨_, _, rfl⟩
    · exact .inl h
    · exact .inr (.inl pc.lt_succ_self)
  next := .inl rfl

/-- The end of a loop, which is the only place from which the pass turns back. -/
theorem stepOp_o_Plus (hl : Lawful σ g.strip.length Fits) {pc n : ℕ} {aft : σ} (hf : Fits aft)
    (hs : g.strip[pc]? = some (.o_Plus n)) (hn : start + n ≤ pc) (hpc : pc + 1 < g.strip.length) :
    ∃ aft' pc', stepOp g bef ch pc aft (.o_Plus n) = some (aft', pc') ∧ Fits aft' ∧
      Turn g start bef ch pc aft aft' pc' := by
  have hlt : pc < g.strip.length := by omega
  have hle : n ≤ pc := by omega
  have hf₁ : Fits (fwd aft aft pc 1) := hl.fits_fwd pc 1 hf
  have hhere : isset (fwd aft aft pc 1) pc = true ↔ isset aft pc = true := by
    rw [isset_fwd_iff hl hf hpc]
    simp
  have hset : ∀ j, isset (back (fwd aft aft pc 1) (fwd aft aft pc 1) pc n) j = true ↔
      isset aft j = true ∨ (isset aft pc = true ∧ j ∈ [pc + 1, pc - n]) := by
    intro j
    rw [isset_back_iff hl hf₁ hlt hle, isset_fwd_iff hl hf hpc, hhere, List.mem_cons,
      List.mem_singleton]
    tauto
  have hold : issetback (fwd aft aft pc 1) pc n = isset aft (pc - n) := by
    rw [hl.issetback_eq hlt hle, Bool.eq_iff_iff, isset_fwd_iff hl hf hpc]
    constructor
    · rintro (h | ⟨_, h⟩)
      · exact h
      · omega
    · exact .inl
  have hnew := hl.issetback_eq (v := back (fwd aft aft pc 1) (fwd aft aft pc 1) pc n) hlt hle
  have hjumps : jumps g.strip pc (.o_Plus n) = [pc + 1, pc - n] := rfl
  have hno : ∀ j, ¬Takes g ch pc j := fun j h => by
    rw [takes_iff hs] at h
    exact absurd h.1 Bool.false_ne_true
  have hturn : ∀ pc',
      (∀ j, (isset aft pc = true ∧ j = pc - n) → isset aft j = true ∨ pc < j ∨ j = pc') →
      (pc' = pc + 1 ∨ (start ≤ pc' ∧ pc' ≤ pc ∧ isset aft pc' = false ∧
        isset (back (fwd aft aft pc 1) (fwd aft aft pc 1) pc n) pc' = true)) →
      Turn g start bef ch pc aft (back (fwd aft aft pc 1) (fwd aft aft pc 1) pc n) pc' := by
    intro pc' hback hnext
    refine ⟨fun j h => (hset j).mpr (.inl h), fun j hj h => ?_, fun j hj => absurd hj (hno j),
      fun j hj => ?_, fun j hj => ?_, hnext⟩
    · exact (hset j).mpr (.inr ⟨h, hjumps ▸ (jumps_iff hs).mp hj⟩)
    · rcases (hset j).mp hj with h | ⟨h, hmem⟩
      · exact .inl h
      · exact .inr (.inl ⟨(jumps_iff hs).mpr (hjumps ▸ hmem), h⟩)
    · rcases (hset j).mp hj with h | ⟨h, hmem⟩
      · exact .inl h
      · rw [List.mem_cons, List.mem_singleton] at hmem
        rcases hmem with rfl | hmem
        · exact .inr (.inl pc.lt_succ_self)
        · exact hback j ⟨h, hmem⟩
  have hf₂ := hl.fits_back pc n (s := fwd aft aft pc 1) hf₁
  simp only [stepOp, hold, hnew]
  split
  · rename_i hcond
    simp only [Bool.and_eq_true, Bool.not_eq_true'] at hcond
    refine ⟨_, _, rfl, hf₂, hturn (pc - n) (fun j h => .inr (.inr h.2))
      (.inr ⟨by omega, by omega, hcond⟩)⟩
  · rename_i hcond
    refine ⟨_, _, rfl, hf₂, hturn (pc + 1) (fun j h => ?_) (.inl rfl)⟩
    -- the start of the loop was set before
    obtain ⟨h, rfl⟩ := h
    left
    have : isset (back (fwd aft aft pc 1) (fwd aft aft pc 1) pc n) (pc - n) = true :=
      (hset _).mpr (.inr ⟨h, by simp⟩)
    simpa [this] using hcond

/-- One place ahead, and one that is further ahead. -/
theorem isset_fwd_two (hl : Lawful σ g.strip.length Fits) {pc n : ℕ} {aft : σ} (hf : Fits aft)
    (hpc : pc + 1 < g.strip.length) (hlt : pc + n < g.strip.length) (j : ℕ) :
    isset (fwd (fwd aft aft pc 1) (fwd aft aft pc 1) pc n) j = true ↔
      isset aft j = true ∨ (isset aft pc = true ∧ j ∈ [pc + 1, pc + n]) := by
  have hhere : isset (fwd aft aft pc 1) pc = true ↔ isset aft pc = true := by
    rw [isset_fwd_iff hl hf hpc]
    simp
  rw [isset_fwd_iff hl (hl.fits_fwd pc 1 hf) hlt, isset_fwd_iff hl hf hpc, hhere]
  simp only [List.mem_cons, List.not_mem_nil, or_false]
  tauto

theorem stepOp_oOr1 (hl : Lawful σ g.strip.length Fits) {pc n j : ℕ} {aft : σ} (hf : Fits aft)
    (hs : g.strip[pc]? = some (.oOr1 n)) (hj : lookCh g.strip g.strip.length (pc + 1) = some j)
    (hpc : pc < j) (hlt : j < g.strip.length) :
    ∃ aft' pc', stepOp g bef ch pc aft (.oOr1 n) = some (aft', pc') ∧ Fits aft' ∧
      Turn g start bef ch pc aft aft' pc' := by
  have hjumps : jumps g.strip pc (.oOr1 n) = [j] := by simp [jumps, hj]
  by_cases hset : isset aft pc = true
  · have hgo : pc + (j - pc) = j := by omega
    refine ⟨fwd aft aft pc (j - pc), pc + 1, by simp [stepOp, hset, hj], hl.fits_fwd pc _ hf,
      .forward hs rfl (fun k => ?_) (by simp [hjumps, hpc])⟩
    rw [isset_fwd_iff hl hf (by omega), hgo, hjumps, List.mem_singleton]
  · exact ⟨aft, pc + 1, by simp [stepOp, hset], hf, .forward hs rfl (by simp [hset])
      (by simp [hset])⟩

/-- The last alternative has no other behind it. -/
theorem stepOp_oOr2 (hl : Lawful σ g.strip.length Fits) {pc n : ℕ} {aft : σ} (hf : Fits aft)
    (hs : g.strip[pc]? = some (.oOr2 n)) (hpc : pc + 1 < g.strip.length) (hn : 0 < n)
    (hlt : pc + n < g.strip.length) :
    ∃ aft' pc', stepOp g bef ch pc aft (.oOr2 n) = some (aft', pc') ∧ Fits aft' ∧
      Turn g start bef ch pc aft aft' pc' := by
  obtain ⟨t, ht⟩ : ∃ t, g.strip[pc + n]? = some t := ⟨_, List.getElem?_eq_getElem hlt⟩
  by_cases hch : t.isO_Ch = true
  · have hjumps : jumps g.strip pc (.oOr2 n) = [pc + 1] := by simp [jumps, ht, hch]
    refine ⟨fwd aft aft pc 1, pc + 1, by simp [stepOp, ht, hch], hl.fits_fwd pc 1 hf,
      .forward hs rfl (fun j => ?_) (by simp [hjumps])⟩
    rw [isset_fwd_iff hl hf hpc, hjumps, List.mem_singleton]
  · have hjumps : jumps g.strip pc (.oOr2 n) = [pc + 1, pc + n] := by simp [jumps, ht, hch]
    refine ⟨_, pc + 1, by simp [stepOp, ht, hch], hl.fits_fwd pc n (hl.fits_fwd pc 1 hf),
      .forward hs rfl (hjumps ▸ isset_fwd_two hl hf hpc hlt) ?_⟩
    simp [hjumps]
    omega

/-- **One turn of the loop of `step`.** -/
theorem stepOp_turn (hr : Ready g.strip start stop) (hl : Lawful σ g.strip.length Fits) {pc : ℕ}
    {aft : σ} {s : Sop} (hf : Fits aft) (hstart : start ≤ pc) (hstop : pc < stop)
    (hs : g.strip[pc]? = some s) :
    ∃ aft' pc', stepOp g bef ch pc aft s = some (aft', pc') ∧ Fits aft' ∧
      Turn g start bef ch pc aft aft' pc' := by
  have hlen := hr.stop_lt
  have hready := hr.op pc s hstart hstop hs
  have hpc : pc + 1 < g.strip.length := by omega
  -- the instructions that read nothing hand their state on in this pass
  have hone : ∀ j, isset (fwd aft aft pc 1) j = true ↔
      isset aft j = true ∨ (isset aft pc = true ∧ j ∈ [pc + 1]) := fun j => by
    rw [isset_fwd_iff hl hf hpc, List.mem_singleton]
  -- those that read look at the states before the character
  have hlook : ∀ j, isset (if s.takes g.sets ch then fwd aft (bef aft) pc 1 else aft) j = true ↔
      isset aft j = true ∨ (s.takes g.sets ch = true ∧ isset (bef aft) pc = true ∧ j = pc + 1) := by
    intro j
    cases s.takes g.sets ch with
    | true => simp [isset_fwd_iff hl hf hpc]
    | false => simp
  have hfl : Fits (if s.takes g.sets ch then fwd aft (bef aft) pc 1 else aft) := by
    split
    · exact hl.fits_fwd pc 1 hf
    · exact hf
  cases s with
  | oEnd => exact ⟨_, _, rfl, hf, .forward hs rfl (by simp [jumps]) (by simp [jumps])⟩
  | oChar c => exact ⟨_, _, rfl, hfl, .look hs rfl hlook⟩
  | oBol => exact ⟨_, _, rfl, hfl, .look hs rfl hlook⟩
  | oEol => exact ⟨_, _, rfl, hfl, .look hs rfl hlook⟩
  | oBow => exact ⟨_, _, rfl, hfl, .look hs rfl hlook⟩
  | oEow => exact ⟨_, _, rfl, hfl, .look hs rfl hlook⟩
  | oAny => exact ⟨_, _, rfl, hfl, .look hs rfl hlook⟩
  | oAnyOf n => exact ⟨_, _, rfl, hfl, .look hs rfl hlook⟩
  | oPlus_ n => exact ⟨_, _, rfl, hl.fits_fwd pc 1 hf, .forward hs rfl hone (by simp [jumps])⟩
  | o_Quest n => exact ⟨_, _, rfl, hl.fits_fwd pc 1 hf, .forward hs rfl hone (by simp [jumps])⟩
  | oLparen n => exact ⟨_, _, rfl, hl.fits_fwd pc 1 hf, .forward hs rfl hone (by simp [jumps])⟩
  | oRparen n => exact ⟨_, _, rfl, hl.fits_fwd pc 1 hf, .forward hs rfl hone (by simp [jumps])⟩
  | o_Ch n => exact ⟨_, _, rfl, hl.fits_fwd pc 1 hf, .forward hs rfl hone (by simp [jumps])⟩
  | o_Plus n => exact stepOp_o_Plus hl hf hs hready hpc
  | oQuest_ n =>
    have hmem : isset aft pc = true → ∀ j ∈ jumps g.strip pc (.oQuest_ n), pc < j := by
      have := hready.1
      simp [jumps]
      omega
    exact ⟨_, _, rfl, hl.fits_fwd pc n (hl.fits_fwd pc 1 hf),
      .forward hs rfl (isset_fwd_two hl hf hpc (hready.2.trans_lt hlen)) hmem⟩
  | oCh_ n =>
    have hmem : isset aft pc = true → ∀ j ∈ jumps g.strip pc (.oCh_ n), pc < j := by
      have := hready.1
      simp [jumps]
      omega
    exact ⟨_, _, rfl, hl.fits_fwd pc n (hl.fits_fwd pc 1 hf),
      .forward hs rfl (isset_fwd_two hl hf hpc (hready.2.trans_lt hlen)) hmem⟩
  | oOr1 n =>
    obtain ⟨j, hj, hpcj, hle⟩ := hready
    exact stepOp_oOr1 hl hf hs hj hpcj (by omega)
  | oOr2 n => exact stepOp_oOr2 hl hf hs hpc hready.1 (hready.2.trans_lt hlen)

/-! ## The whole pass -/

/-- Every operator before `pc` has led where it leads. -/
def Below (g : Guts) (start : ℕ) (bef : σ → σ) (ch : Ch) (pc : ℕ) (aft : σ) : Prop :=
  ∀ i j, start ≤ i → i < pc →
    (Jumps g.strip i j → isset aft i = true → isset aft j = true) ∧
    (Takes g ch i j → isset (bef aft) i = true → isset aft j = true)

/-- What a name for the first set shows at a place depends on the second set at that place only. -/
def Local (bef : σ → σ) : Prop :=
  ∀ v w i, isset v i = isset w i → isset (bef v) i = isset (bef w) i

/-- Where no move of the strip leads out of. -/
structure Closed (g : Guts) (start stop : ℕ) (bef : σ → σ) (ch : Ch) (P : ℕ → Prop) : Prop where
  jumps : ∀ i j, start ≤ i → i < stop → Jumps g.strip i j → P i → P j
  takes : ∀ (v : σ) i j, start ≤ i → i < stop → (∀ k, isset v k = true → P k) →
    Takes g ch i j → isset (bef v) i = true → P j

/-- The places that are not set yet. -/
def unset (stop : ℕ) (aft : σ) : Finset ℕ :=
  (Finset.range (stop + 1)).filter fun j => isset aft j = false

theorem unset_subset {aft aft' : σ} (h : ∀ j, isset aft j = true → isset aft' j = true) :
    unset stop aft' ⊆ unset stop aft := by
  intro j hj
  simp only [unset, Finset.mem_filter] at hj ⊢
  refine ⟨hj.1, ?_⟩
  by_contra hset
  rw [Bool.not_eq_false] at hset
  simp [h j hset] at hj

/-- A state that is new leaves fewer unset. -/
theorem unset_lt {aft aft' : σ} (h : ∀ j, isset aft j = true → isset aft' j = true) {j : ℕ}
    (hj : j ≤ stop) (hold : isset aft j = false) (hnew : isset aft' j = true) :
    (unset stop aft').card < (unset stop aft).card := by
  refine Finset.card_lt_card ⟨unset_subset h, fun hsub => ?_⟩
  have hmem : j ∈ unset stop aft := by
    simp [unset, hold]
    omega
  have := hsub hmem
  simp [unset, hnew] at this

/-- What a turn leaves done, up to where it goes on. -/
theorem Turn.below {pc pc' : ℕ} {aft aft' : σ} (hbef : Local bef)
    (ht : Turn g start bef ch pc aft aft' pc') (h : Below g start bef ch pc aft) :
    Below g start bef ch pc' aft' := by
  intro i j hi hlt
  have hle : i ≤ pc := by
    rcases ht.next with h | h <;> omega
  have hsame : isset aft' i = isset aft i := by
    rw [Bool.eq_iff_iff]
    refine ⟨fun hset => ?_, ht.keeps i⟩
    rcases ht.ahead i hset with h | h | h
    · exact h
    · omega
    · omega
  rw [hbef aft' aft i hsame, hsame]
  rcases hle.eq_or_lt with rfl | hlt
  · exact ⟨ht.jumped j, ht.taken j⟩
  · have := h i j hi hlt
    exact ⟨fun hj hset => ht.keeps j (this.1 hj hset), fun hj hset => ht.keeps j (this.2 hj hset)⟩

/-- How much there is still to do: the pass turns back only for a new state. -/
def left (stop pc : ℕ) (aft : σ) : ℕ := (unset stop aft).card * (stop + 1) + (stop - pc)

/-- Every turn leaves less to be done. -/
theorem Turn.left_lt {pc pc' : ℕ} {aft aft' : σ} (ht : Turn g start bef ch pc aft aft' pc')
    (hpc : pc < stop) : left stop pc' aft' < left stop pc aft := by
  unfold left
  rcases ht.next with rfl | ⟨_, hle, hold, hnew⟩
  · have hsub : unset stop aft' ⊆ unset stop aft := unset_subset ht.keeps
    have := Nat.mul_le_mul_right (stop + 1) (Finset.card_le_card hsub)
    omega
  · have hlt := unset_lt ht.keeps (hle.trans hpc.le) hold hnew
    have := Nat.mul_le_mul_right (stop + 1) (Nat.succ_le_of_lt hlt)
    rw [Nat.succ_mul] at this
    omega

/-- **A pass of `step`** ends, and has made all turns. -/
theorem stepFrom_pass (hr : Ready g.strip start stop) (hl : Lawful σ g.strip.length Fits)
    (hbef : Local bef) (fuel : ℕ) {pc : ℕ} {aft : σ} (hf : Fits aft) (hstart : start ≤ pc)
    (hstop : pc ≤ stop) (hfuel : left stop pc aft < fuel) (hb : Below g start bef ch pc aft) :
    ∃ aft', stepFrom g stop bef ch fuel pc aft = some aft' ∧ Fits aft' ∧
      (∀ j, isset aft j = true → isset aft' j = true) ∧ Below g start bef ch stop aft' ∧
      ∀ P : ℕ → Prop, Closed g start stop bef ch P → (∀ j, isset aft j = true → P j) →
        ∀ j, isset aft' j = true → P j := by
  induction fuel generalizing pc aft with
  | zero => omega
  | succ fuel ih =>
    rw [stepFrom]
    rcases hstop.eq_or_lt with rfl | hlt
    · rw [if_pos rfl]
      exact ⟨aft, rfl, hf, fun _ h => h, hb, fun _ _ h => h⟩
    rw [if_neg hlt.ne]
    obtain ⟨s, hs⟩ : ∃ s, g.strip[pc]? = some s :=
      ⟨_, List.getElem?_eq_getElem (hlt.trans hr.stop_lt)⟩
    obtain ⟨aft₁, pc₁, hstep, hf₁, ht⟩ : ∃ aft₁ pc₁, stepOp g bef ch pc aft s = some (aft₁, pc₁) ∧
        Fits aft₁ ∧ Turn g start bef ch pc aft aft₁ pc₁ := stepOp_turn hr hl hf hstart hlt hs
    have hpc₁ : start ≤ pc₁ ∧ pc₁ ≤ stop := by
      rcases ht.next with h | h <;> omega
    -- each turn goes on, or back with a state that was not set before
    have hleft := ht.left_lt hlt
    obtain ⟨aft', hrun, hf', hkeeps, hbelow, hleast⟩ :=
      ih hf₁ hpc₁.1 hpc₁.2 (by omega) (ht.below hbef hb)
    refine ⟨aft', by simp [hs, hstep, hrun], hf', fun j h => hkeeps j (ht.keeps j h), hbelow,
      fun P hP haft => hleast P hP fun j hj => ?_⟩
    rcases ht.only j hj with h | ⟨hjump, h⟩ | ⟨htake, h⟩
    · exact haft j h
    · exact hP.jumps pc j hstart hlt hjump (haft pc h)
    · exact hP.takes aft pc j hstart hlt haft htake h

/-- A pass ends, with the least set above the second one that no move leads out of. -/
theorem step_pass (hr : Ready g.strip start stop) (hl : Lawful σ g.strip.length Fits)
    (hbef : Local bef) (ch : Ch) {aft : σ} (hf : Fits aft) :
    ∃ aft', step g start stop bef ch aft = some aft' ∧ Fits aft' ∧
      (∀ j, isset aft j = true → isset aft' j = true) ∧ Below g start bef ch stop aft' ∧
      ∀ P : ℕ → Prop, Closed g start stop bef ch P → (∀ j, isset aft j = true → P j) →
        ∀ j, isset aft' j = true → P j := by
  refine stepFrom_pass hr hl hbef _ hf le_rfl hr.le ?_ fun i j hi hlt => by omega
  have hcard : (unset stop aft).card ≤ stop + 1 := by
    refine (Finset.card_filter_le _ _).trans ?_
    simp
  have hstop := hr.stop_lt
  have hmul := Nat.mul_le_mul hcard (le_refl (stop + 1))
  have hlen := Nat.mul_le_mul (Nat.succ_le_of_lt hstop) (Nat.succ_le_of_lt hstop)
  have : (g.strip.length + 1) * (g.strip.length + 1) =
      g.strip.length * g.strip.length + 2 * g.strip.length + 1 := by ring
  unfold left
  simp only [Nat.succ_eq_add_one] at hlen
  omega

end Pass

end Spegla.Regex
