import Spegla.Lib.PathWalk

/-!
# The normal form of a path

The shortest path that names the same place, as far as the text of a path tells: empty components
and `.` are left out, and `..` takes the name before it away.

- `normStep`, `normalize`: one component after the other, on a stack; `rooted` says whether `..`
  stays where nothing is left to take away.
- `normalize_mem`: what is left are names, and `..` where the path is not rooted.
- `normalize_balance`, `foldl_rooted_length`: how many components are left, and when none of
  the names has been taken away.
-/

namespace PosixFs

open CString

/-- The component `..`. -/
def up : Str := ['.', '.']

/-- Whether a component stands for nothing: it is empty or `.`. -/
def Idle (c : Str) : Prop := c = [] ∨ c = ['.']

instance (c : Str) : Decidable (Idle c) := inferInstanceAs (Decidable (_ ∨ _))

/-- One more component of a path. -/
def normStep (rooted : Bool) (st : List Str) (c : Str) : List Str :=
  if Idle c then st
  else if c = up then
    match st.getLast? with
    | none => if rooted then [] else [up]
    | some l => if l = up then st ++ [up] else st.dropLast
  else st ++ [c]

/-- The components of the normal form. -/
def normalize (rooted : Bool) (cs : List Str) : List Str := cs.foldl (normStep rooted) []

/-- The normal form as a string, from the root or from `.`, where `..` needs no `.` before it. -/
def normalStr (rooted : Bool) (st : List Str) : Str :=
  if rooted then if st = [] then ['/'] else below st
  else if st.head? = some up then (below st).drop 1
  else '.' :: below st

variable {rooted : Bool} {c : Str} {st : List Str}

theorem normStep_idle (h : Idle c) : normStep rooted st c = st := if_pos h

theorem normStep_name (h : ¬Idle c) (hup : c ≠ up) : normStep rooted st c = st ++ [c] := by
  rw [normStep, if_neg h, if_neg hup]

/-- `..` behind a name takes it away. -/
theorem normStep_up_name {d : Str} (hd : d ≠ up) : normStep rooted (st ++ [d]) up = st := by
  rw [normStep, if_neg (by decide), if_pos rfl, List.getLast?_concat]
  simp only [if_neg hd, List.dropLast_concat]

/-- `..` behind nothing, or behind `..`, stays, but at the root. -/
theorem normStep_up_nil : normStep rooted [] up = if rooted then [] else [up] := by
  rw [normStep, if_neg (by decide), if_pos rfl]
  rfl

theorem normStep_up_up : normStep rooted (st ++ [up]) up = st ++ [up] ++ [up] := by
  rw [normStep, if_neg (by decide), if_pos rfl, List.getLast?_concat]
  simp

/-- Components that stand for nothing do not matter. -/
theorem foldl_normStep_filter : ∀ (cs st : List Str),
    (cs.filter fun c => ¬Idle c).foldl (normStep rooted) st = cs.foldl (normStep rooted) st := by
  intro cs
  induction cs with
  | nil => exact fun _ => rfl
  | cons c cs ih =>
    intro st
    by_cases hc : Idle c
    · rw [List.filter_cons_of_neg (by simp [hc]), List.foldl_cons, normStep_idle hc, ih]
    · rw [List.filter_cons_of_pos (by simp [hc]), List.foldl_cons, List.foldl_cons, ih]

/-- Names alone are all left. -/
theorem foldl_normStep_names : ∀ (cs st : List Str), up ∉ cs →
    cs.foldl (normStep rooted) st = st ++ cs.filter fun c => ¬Idle c := by
  intro cs
  induction cs with
  | nil => simp
  | cons c cs ih =>
    intro st hup
    rw [List.mem_cons, not_or] at hup
    rw [List.foldl_cons]
    by_cases hc : Idle c
    · rw [normStep_idle hc, ih st hup.2, List.filter_cons_of_neg (by simp [hc])]
    · rw [normStep_name hc (Ne.symm hup.1), ih _ hup.2, List.filter_cons_of_pos (by simp [hc]),
        List.append_assoc, List.singleton_append]

/-! ## What is left -/

/-- One step leaves components of the stack, the component itself, or `..`. -/
theorem normStep_mem {d : Str} (h : d ∈ normStep rooted st c) :
    d ∈ st ∨ (¬Idle c ∧ d = c ∧ (d = up → rooted = false ∨ up ∈ st)) := by
  by_cases hc : Idle c
  · rw [normStep_idle hc] at h
    exact Or.inl h
  · by_cases hup : c = up
    · subst hup
      rcases List.eq_nil_or_concat st with rfl | ⟨st, l, rfl⟩
      · rw [normStep_up_nil] at h
        cases rooted with
        | true => simp at h
        | false => exact Or.inr ⟨hc, by simpa using h, fun _ => Or.inl rfl⟩
      · rw [List.concat_eq_append] at h ⊢
        by_cases hl : l = up
        · subst hl
          rw [normStep_up_up] at h
          rcases List.mem_append.mp h with h | h
          · exact Or.inl h
          · exact Or.inr ⟨hc, by simpa using h, fun _ => Or.inr (by simp)⟩
        · rw [normStep_up_name hl] at h
          exact Or.inl (List.mem_append_left _ h)
    · rw [normStep_name hc hup] at h
      rcases List.mem_append.mp h with h | h
      · exact Or.inl h
      · obtain rfl : d = c := by simpa using h
        exact Or.inr ⟨hc, rfl, fun h => absurd h hup⟩

/-- What is left are components of the path that stand for something, and no `..` at the root. -/
theorem foldl_normStep_mem {d : Str} : ∀ (cs st : List Str), d ∈ cs.foldl (normStep rooted) st →
    (∀ e ∈ st, ¬Idle e ∧ (e = up → rooted = false)) →
      (d ∈ st ∨ d ∈ cs) ∧ ¬Idle d ∧ (d = up → rooted = false) := by
  intro cs
  induction cs with
  | nil => exact fun st h hst => ⟨Or.inl h, hst d h⟩
  | cons c cs ih =>
    intro st h hst
    rw [List.foldl_cons] at h
    have hst' : ∀ e ∈ normStep rooted st c, ¬Idle e ∧ (e = up → rooted = false) := by
      intro e he
      rcases normStep_mem he with he | ⟨hc, rfl, hup⟩
      · exact hst e he
      · exact ⟨hc, fun h => (hup h).elim id fun hmem => (hst up hmem).2 rfl⟩
    obtain ⟨hmem, hd⟩ := ih _ h hst'
    refine ⟨?_, hd⟩
    rcases hmem with hmem | hmem
    · rcases normStep_mem hmem with hmem | ⟨-, rfl, -⟩
      · exact Or.inl hmem
      · exact Or.inr (List.mem_cons_self ..)
    · exact Or.inr (List.mem_cons_of_mem _ hmem)

theorem normalize_mem {cs : List Str} {d : Str} (h : d ∈ normalize rooted cs) :
    d ∈ cs ∧ ¬Idle d ∧ (d = up → rooted = false) := by
  obtain ⟨hmem, hd⟩ := foldl_normStep_mem cs [] h (by simp)
  exact ⟨hmem.elim (by simp) id, hd⟩

/-! ## How much is left -/

/-- The names among the components. -/
def namesOf (cs : List Str) : List Str := cs.filter fun c => ¬Idle c ∧ c ≠ up

/-- Off the root each `..` takes a name away or stays: names less `..` are what they were. -/
theorem normalize_balance : ∀ cs st : List Str, up ∉ cs.foldl (normStep false) st →
    ((cs.foldl (normStep false) st).length : Int) =
      st.length - 2 * st.count up + (namesOf cs).length - cs.count up := by
  have hstep : ∀ (c : Str) (st : List Str),
      ((normStep false st c).length : Int) - 2 * (normStep false st c).count up =
        st.length - 2 * st.count up + (namesOf [c]).length - [c].count up := by
    intro c st
    by_cases hc : Idle c
    · have hne : c ≠ up := by rintro rfl; exact absurd hc (by decide)
      rw [normStep_idle hc]
      simp [namesOf, hc, hne]
    · by_cases hup : c = up
      · subst hup
        rcases List.eq_nil_or_concat st with rfl | ⟨st, l, rfl⟩
        · rw [normStep_up_nil]
          decide
        · rw [List.concat_eq_append]
          by_cases hl : l = up
          · subst hl
            rw [normStep_up_up]
            simp [namesOf]
            omega
          · rw [normStep_up_name hl]
            simp [namesOf, List.count_append, hl]
            omega
      · rw [normStep_name hc hup]
        simp [namesOf, hc, hup, List.count_append]
        omega
  intro cs
  induction cs with
  | nil =>
    intro st hup
    have : st.count up = 0 := List.count_eq_zero.mpr hup
    simp [namesOf, this]
  | cons c cs ih =>
    intro st hup
    have h := ih _ hup
    have hc := hstep c st
    have hnames : (namesOf (c :: cs)).length = (namesOf [c]).length + (namesOf cs).length := by
      rw [← List.length_append, namesOf, namesOf, namesOf, ← List.filter_append,
        List.singleton_append]
    have hcount : (c :: cs).count up = [c].count up + cs.count up := by
      rw [← List.count_append, List.singleton_append]
    rw [List.foldl_cons, h, hnames, hcount]
    omega

/-- At the root no more is left than there are names; and if no name is taken away, `..` only stood
before them. -/
theorem foldl_rooted_length : ∀ cs st : List Str, up ∉ st →
    (cs.foldl (normStep true) st).length ≤ st.length + (namesOf cs).length ∧
      ((cs.foldl (normStep true) st).length = st.length + (namesOf cs).length →
        (st ≠ [] → up ∉ cs) ∧
          ∃ k, (cs.filter fun c => ¬Idle c) = List.replicate k up ++ namesOf cs) := by
  intro cs
  induction cs with
  | nil => exact fun st _ => ⟨by simp [namesOf], fun _ => ⟨by simp, 0, rfl⟩⟩
  | cons c cs ih =>
    intro st hst
    rw [List.foldl_cons]
    by_cases hc : Idle c
    · have hne : c ≠ up := by rintro rfl; exact absurd hc (by decide)
      obtain ⟨hle, heq⟩ := ih st hst
      have hnames : namesOf (c :: cs) = namesOf cs := List.filter_cons_of_neg (by simp [hc])
      rw [normStep_idle hc, hnames, List.filter_cons_of_neg (by simp [hc])]
      refine ⟨hle, fun h => ⟨fun hne' => ?_, (heq h).2⟩⟩
      simp [Ne.symm hne, (heq h).1 hne']
    · by_cases hup : c = up
      · subst hup
        have hnames : namesOf (up :: cs) = namesOf cs := List.filter_cons_of_neg (by simp)
        rw [hnames, List.filter_cons_of_pos (by decide)]
        rcases List.eq_nil_or_concat st with rfl | ⟨st, l, rfl⟩
        · -- at the root itself nothing happens
          obtain ⟨hle, heq⟩ := ih [] hst
          rw [normStep_up_nil, if_pos rfl]
          refine ⟨hle, fun h => ⟨fun hne => absurd rfl hne, ?_⟩⟩
          obtain ⟨k, hk⟩ := (heq h).2
          exact ⟨k + 1, by rw [hk, List.replicate_succ, List.cons_append]⟩
        · rw [List.concat_eq_append] at hst ⊢
          rw [List.mem_append, not_or, List.mem_singleton] at hst
          rw [normStep_up_name (Ne.symm hst.2), List.length_append, List.length_singleton]
          have hle := (ih st hst.1).1
          exact ⟨by omega, fun h => by omega⟩
      · have hnames : namesOf (c :: cs) = c :: namesOf cs :=
          List.filter_cons_of_pos (by simp [hc, hup])
        have hst' : up ∉ st ++ [c] := by simp [hst, Ne.symm hup]
        obtain ⟨hle, heq⟩ := ih (st ++ [c]) hst'
        rw [normStep_name hc hup, hnames, List.filter_cons_of_pos (by simp [hc])]
        rw [List.length_append, List.length_singleton] at hle heq
        rw [List.length_cons]
        refine ⟨by omega, fun h => ?_⟩
        have hcs := (heq (by omega)).1 (by simp)
        have hkept : (cs.filter fun c => ¬Idle c) = namesOf cs := by
          refine List.filter_congr fun d hd => ?_
          have : d ≠ up := by rintro rfl; exact hcs hd
          simp [this]
        exact ⟨fun _ => by simp [Ne.symm hup, hcs], 0, by rw [hkept]; rfl⟩

end PosixFs
