import Spegla.Regex.Code

/-!
# What the compiler writes

The strip is written from left to right, with operators put in and completed behind the end of what
they belong to. Here: what that leaves.

- `strip_closeQuest`, `strip_plus`, `strip_star`: the operators of one repetition.
- `repeat_bound`: a bound is written as `boundCode` says, for any operand.
-/

namespace Spegla.Regex

open CString

variable {p : Parse} {s₀ c : List Sop}

/-- Everything but the strip is the same. -/
def Parse.Beside (p p' : Parse) : Prop :=
  p'.next = p.next ∧ p'.nsub = p.nsub ∧ p'.nbol = p.nbol ∧ p'.neol = p.neol ∧ p'.sets = p.sets

theorem Parse.Beside.trans {p p' p'' : Parse} (h : p.Beside p') (h' : p'.Beside p'') :
    p.Beside p'' := by
  unfold Parse.Beside at *
  grind

/-- Closing a `?` writes to the strip only. -/
theorem beside_closeQuest (pos : ℕ) : p.Beside (p.closeQuest pos) := ⟨rfl, rfl, rfl, rfl, rfl⟩

/-- So does an insertion. -/
theorem beside_insert (op : ℕ → Sop) (pos : ℕ) : p.Beside (p.insert op pos) :=
    ⟨rfl, rfl, rfl, rfl, rfl⟩

/-- So does a `?` around what stands there. -/
theorem beside_questAt (pos : ℕ) : p.Beside (p.questAt pos) := ⟨rfl, rfl, rfl, rfl, rfl⟩

/-- So does a copy. -/
theorem beside_dupl (start finish : ℕ) : p.Beside (p.dupl start finish) := ⟨rfl, rfl, rfl, rfl, rfl⟩

/-- An operator is put in front of what has been written since a place. -/
theorem strip_insert (h : p.strip = s₀ ++ c) (op : ℕ → Sop) :
    (p.insert op s₀.length).strip = s₀ ++ op (c.length + 1) :: c := by
  simp [Parse.insert, Parse.here, h]

/-- One is put behind it, with the way back. -/
theorem strip_astern (h : p.strip = s₀ ++ c) (op : ℕ → Sop) :
    (p.astern op s₀.length).strip = s₀ ++ (c ++ [op c.length]) := by
  simp [Parse.astern, Parse.emit, Parse.here, h]

theorem modify_length_append {α : Type*} (l : List α) (a : α) (d : List α) (f : α → α) :
    (l ++ a :: d).modify l.length f = l ++ f a :: d := by
  induction l with
  | nil => rfl
  | cons b l ih => simpa [List.modify_succ_cons] using ih

/-- The operand of an operator is set. -/
theorem strip_dofwd {s : Sop} {d : List Sop} (h : p.strip = s₀ ++ s :: d) (value : ℕ) :
    (p.dofwd s₀.length value).strip = s₀ ++ s.setOpnd value :: d := by
  rw [Parse.dofwd, h, modify_length_append]

/-- It is set to the way to the end. -/
theorem strip_ahead {s : Sop} {d : List Sop} (h : p.strip = s₀ ++ s :: d) :
    (p.ahead s₀.length).strip = s₀ ++ s.setOpnd (d.length + 1) :: d := by
  unfold Parse.ahead
  rw [strip_dofwd h]
  simp [Parse.here, h]

/-- What has been written is taken away. -/
theorem strip_drop (h : p.strip = s₀ ++ c) : (p.drop c.length).strip = s₀ := by
  simp [Parse.drop, Parse.here, h]

/-- A part is copied to the end. -/
theorem strip_dupl {d e : List Sop} (h : p.strip = s₀ ++ (c ++ (d ++ e))) :
    (p.dupl (s₀ ++ c).length ((s₀ ++ c).length + d.length)).strip = p.strip ++ d := by
  simp only [Parse.dupl, Nat.add_sub_cancel_left]
  congr 1
  rw [h, ← List.append_assoc, List.drop_left, List.take_left]

/-! ## One repetition -/

/-- The three operators that close a `?`. -/
theorem strip_closeQuest {n : ℕ} (h : p.strip = s₀ ++ .oCh_ n :: c) :
    (p.closeQuest s₀.length).strip = s₀ ++ questCode c := by
  have h₁ : (p.astern .oOr1 s₀.length).strip = s₀ ++ .oCh_ n :: (c ++ [.oOr1 (c.length + 1)]) :=
    strip_astern h .oOr1
  have h₂ := strip_ahead h₁
  have h₃ : (((p.astern .oOr1 s₀.length).ahead s₀.length).emit (.oOr2 0)).strip =
      (s₀ ++ .oCh_ (c.length + 2) :: (c ++ [.oOr1 (c.length + 1)])) ++ [.oOr2 0] := by
    rw [Parse.emit, h₂]
    simp [Sop.setOpnd]
  have hhere : ((((p.astern .oOr1 s₀.length).ahead s₀.length).emit (.oOr2 0)).here - 1) =
      (s₀ ++ Sop.oCh_ (c.length + 2) :: (c ++ [Sop.oOr1 (c.length + 1)])).length := by
    rw [Parse.here, h₃, List.length_append, List.length_singleton, Nat.add_sub_cancel]
  have h₄ := strip_ahead h₃
  rw [← hhere] at h₄
  have h₅ : ((((p.astern .oOr1 s₀.length).ahead s₀.length).emit (.oOr2 0)).ahead
      ((((p.astern .oOr1 s₀.length).ahead s₀.length).emit (.oOr2 0)).here - 1)).strip =
      (s₀ ++ .oCh_ (c.length + 2) :: c) ++ [.oOr1 (c.length + 1), .oOr2 1] := by
    rw [h₄]
    simp [Sop.setOpnd]
  show (Parse.astern _ .o_Ch (Parse.here _ - 2)).strip = _
  have hlast : ((((p.astern .oOr1 s₀.length).ahead s₀.length).emit (.oOr2 0)).ahead
      ((((p.astern .oOr1 s₀.length).ahead s₀.length).emit (.oOr2 0)).here - 1)).here - 2 =
      (s₀ ++ Sop.oCh_ (c.length + 2) :: c).length := by
    rw [Parse.here, h₅, List.length_append]
    simp
  rw [hlast, strip_astern h₅]
  simp [questCode, altCode, altTail]

/-- What has been written is put into a `?`. -/
theorem strip_questAt (h : p.strip = s₀ ++ c) :
    (p.questAt s₀.length).strip = s₀ ++ questCode c :=
  strip_closeQuest (strip_insert h .oCh_)

/-- What has been written is put into a loop. -/
theorem strip_plus (h : p.strip = s₀ ++ c) :
    ((p.insert .oPlus_ s₀.length).astern .o_Plus s₀.length).strip = s₀ ++ plusCode c := by
  rw [strip_astern (strip_insert h .oPlus_)]
  simp [plusCode]

/-- It is put into a loop that may be left out. -/
theorem strip_star (h : p.strip = s₀ ++ c) :
    ((((p.insert .oPlus_ s₀.length).astern .o_Plus s₀.length).insert .oQuest_ s₀.length).astern
      .o_Quest s₀.length).strip = s₀ ++ starCode c := by
  rw [strip_astern (strip_insert (strip_plus h) .oQuest_)]
  simp [starCode]

/-! ## Bounds -/

theorem repMap_zero : repMap 0 = 0 := rfl

theorem repMap_one : repMap 1 = 1 := rfl

theorem repMap_infinity : repMap INFINITY = 3 := rfl

/-- Every bound from two on is one case. -/
theorem repMap_many {n : ℕ} (hn : 2 ≤ n) (hlt : n < INFINITY) : repMap n = 2 := by
  unfold repMap
  rw [if_neg (by omega), if_neg (by omega)]

/-- `x{1,n}` -/
theorem repeat_upTo {n fuel : ℕ} (hlt : n + 1 < INFINITY) (hfuel : n + 1 ≤ fuel)
    (h : p.strip = s₀ ++ c) :
    ∃ p', repeat_ fuel p s₀.length 1 (n + 1) = .ok p' ∧ p'.strip = s₀ ++ upTo c (n + 1) ∧
      p.Beside p' := by
  obtain ⟨fuel, rfl⟩ : ∃ f, fuel = f + 1 := ⟨fuel - 1, by omega⟩
  induction n generalizing p s₀ fuel with
  | zero => exact ⟨p, rfl, h, rfl, rfl, rfl, rfl, rfl⟩
  | succ n ih =>
    obtain ⟨fuel, rfl⟩ : ∃ f, fuel = f + 1 := ⟨fuel - 1, by omega⟩
    have hq := strip_questAt h
    -- the operand behind its `OCH_`
    have hd : ((p.questAt s₀.length).dupl (s₀.length + 1) (p.here + 1)).strip =
        (s₀ ++ questCode c) ++ c := by
      have hsplit : (p.questAt s₀.length).strip =
          s₀ ++ ([Sop.oCh_ (c.length + 2)] ++ (c ++ [.oOr1 (c.length + 1), .oOr2 1, .o_Ch 2])) := by
        rw [hq]
        simp [questCode, altCode, altTail]
      have := strip_dupl hsplit
      have hfrom : s₀.length + 1 = (s₀ ++ [Sop.oCh_ (c.length + 2)]).length := by simp
      have hto : p.here + 1 = (s₀ ++ [Sop.oCh_ (c.length + 2)]).length + c.length := by
        simp [Parse.here, h]
        omega
      rw [hfrom, hto, this, hq]
    have hhere : (p.questAt s₀.length).here = (s₀ ++ questCode c).length := by
      rw [Parse.here, hq]
    obtain ⟨p', hrun, hstrip, hbeside⟩ := ih (by omega) hd fuel (by omega)
    refine ⟨p', ?_, ?_, ((beside_questAt _).trans (beside_dupl _ _)).trans hbeside⟩
    · rw [repeat_, repMap_one, repMap_many (by omega) hlt]
      show repeat_ (fuel + 1) _ (p.questAt s₀.length).here 1 (n + 1) = _
      rw [hhere]
      exact hrun
    · rw [hstrip]
      simp [upTo]

/-- **`repeat`** writes the copies of a bound from one on, by induction on it. -/
theorem repeat_fromOne {n : ℕ} (fuel : ℕ) (hn : 1 ≤ n) (hle : n ≤ INFINITY) (hfuel : n ≤ fuel)
    (h : p.strip = s₀ ++ c) :
    ∃ p', repeat_ fuel p s₀.length 1 n = .ok p' ∧ p'.strip = s₀ ++ fromOne c n ∧ p.Beside p' := by
  unfold fromOne
  by_cases hinf : n = INFINITY
  · subst hinf
    obtain ⟨fuel, rfl⟩ : ∃ f, fuel = f + 1 := ⟨fuel - 1, by omega⟩
    refine ⟨_, rfl, ?_, rfl, rfl, rfl, rfl, rfl⟩
    rw [if_pos rfl]
    exact strip_plus h
  · obtain ⟨n, rfl⟩ : ∃ m, n = m + 1 := ⟨n - 1, by omega⟩
    rw [if_neg hinf]
    exact repeat_upTo (by omega) hfuel h

/-- `x{m+1,n}` -/
theorem repeat_copies {m n : ℕ} (fuel : ℕ) (hmn : m + 1 ≤ n) (hm : m + 1 < INFINITY)
    (hle : n ≤ INFINITY)
    (hfuel : m + n ≤ fuel) (h : p.strip = s₀ ++ c) :
    ∃ p', repeat_ fuel p s₀.length (m + 1) n = .ok p' ∧
      p'.strip = s₀ ++ (copies c m ++ fromOne c (if n = INFINITY then INFINITY else n - m)) ∧
      p.Beside p' := by
  induction m generalizing p s₀ n fuel with
  | zero =>
    obtain ⟨p', hrun, hstrip, hbeside⟩ := repeat_fromOne fuel (by omega) hle (by omega) h
    refine ⟨p', hrun, ?_, hbeside⟩
    rw [hstrip]
    split <;> simp [copies, *]
  | succ m ih =>
    obtain ⟨fuel, rfl⟩ : ∃ f, fuel = f + 1 := ⟨fuel - 1, by omega⟩
    have hhere : p.here = (s₀ ++ c).length := by rw [Parse.here, h]
    have hd : (p.dupl s₀.length p.here).strip = (s₀ ++ c) ++ c := by
      have hsplit : p.strip = s₀ ++ ([] ++ (c ++ [])) := by simpa using h
      have := strip_dupl hsplit
      rw [hhere, List.length_append]
      simp only [List.append_nil] at this
      rw [this, h]
    have hmany : repMap (m + 1 + 1) = 2 := repMap_many (by omega) hm
    have hcopies : s₀ ++ c ++ copies c m = s₀ ++ copies c (m + 1) := by
      simp [copies, List.replicate_succ]
    -- `repeat` copies the operand and goes on with one fewer, but infinity stays
    by_cases hinf : n = INFINITY
    · subst hinf
      obtain ⟨p', hrun, hstrip, hbeside⟩ :=
        ih (n := INFINITY) fuel (by omega) (by omega) le_rfl (by omega) hd
      refine ⟨p', ?_, ?_, (beside_dupl _ _).trans hbeside⟩
      · rw [repeat_, hmany, repMap_infinity]
        simp only [hhere] at hrun ⊢
        exact hrun
      · rw [hstrip, ← List.append_assoc, hcopies, List.append_assoc]
        simp
    · have hmany' : repMap n = 2 := repMap_many (by omega) (by omega)
      obtain ⟨p', hrun, hstrip, hbeside⟩ :=
        ih (n := n - 1) fuel (by omega) (by omega) (by omega) (by omega) hd
      refine ⟨p', ?_, ?_, (beside_dupl _ _).trans hbeside⟩
      · rw [repeat_, hmany, hmany']
        simp only [hhere] at hrun ⊢
        exact hrun
      · rw [hstrip, if_neg (by omega), if_neg hinf, ← List.append_assoc, hcopies, List.append_assoc,
          show n - 1 - m = n - (m + 1) by omega]

/-- A bound is written as `boundCode` says. -/
theorem repeat_bound {m n : ℕ} (fuel : ℕ) (hmn : m ≤ n) (hm : m < INFINITY) (hle : n ≤ INFINITY)
    (hfuel : m + n + 1 ≤ fuel) (h : p.strip = s₀ ++ c) :
    ∃ p', repeat_ fuel p s₀.length m n = .ok p' ∧ p'.strip = s₀ ++ boundCode c m n ∧
      p.Beside p' := by
  unfold boundCode
  rcases m with _ | m
  · rw [if_pos rfl]
    obtain ⟨fuel, rfl⟩ : ∃ f, fuel = f + 1 := ⟨fuel - 1, by omega⟩
    by_cases hn : n = 0
    · -- `{0}` drops the operand
      subst hn
      refine ⟨_, rfl, ?_, rfl, rfl, rfl, rfl, rfl⟩
      have : p.here - s₀.length = c.length := by simp [Parse.here, h]
      rw [if_pos rfl, this, strip_drop h, List.append_nil]
    · rw [if_neg hn]
      have hins : (p.insert .oCh_ s₀.length).strip = (s₀ ++ [.oCh_ (c.length + 1)]) ++ c := by
        rw [strip_insert h]
        simp
      obtain ⟨p', hrun, hstrip, hbeside⟩ := repeat_fromOne fuel (by omega) hle (by omega) hins
      have hstrip' : p'.strip = s₀ ++ .oCh_ (c.length + 1) :: fromOne c n := by
        rw [hstrip]
        simp
      refine ⟨p'.closeQuest s₀.length, ?_, strip_closeQuest hstrip',
        ((beside_insert _ _).trans hbeside).trans (beside_closeQuest _)⟩
      have hlen : (s₀ ++ [Sop.oCh_ (c.length + 1)]).length = s₀.length + 1 := by simp
      rw [hlen] at hrun
      have hmap : repMap n = 1 ∨ repMap n = 2 ∨ repMap n = 3 := by
        unfold repMap
        split
        · omega
        · split <;> simp
      rcases hmap with hmap | hmap | hmap <;> simp [repeat_, repMap_zero, hmap, hrun]
  · rw [if_neg (by omega), Nat.add_sub_cancel]
    exact repeat_copies fuel hmn hm hle (by omega) h

end Spegla.Regex
