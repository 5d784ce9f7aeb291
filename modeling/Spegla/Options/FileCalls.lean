import Spegla.Options.GetOpt

/-!
# What `get_opt_file` keeps (`tgetopt.c`)

- `Kept`: what no part of `get_opt_file` changes, and the indices that `gos_last_opt` can get.
- `fileLoop_kept`, `tgetopt_kept`: it holds from before a call to after it, and `tgetopts_kept` over
  a number of calls.
-/

namespace Spegla

open CString

/-- The index of an entry of the table. -/
def IsEntry (go : List GetOpt) (lopt : Int) : Prop := 0 ≤ lopt ∧ lopt < go.length

instance (go : List GetOpt) (lopt : Int) : Decidable (IsEntry go lopt) :=
  inferInstanceAs (Decidable (_ ∧ _))

/-- The table, the type and the path stay, and `GOS_ERRNO` is not set. `gos_last_opt` stays, or it
becomes the index of an entry. -/
structure Kept (gos gos' : GetOptState) : Prop where
  table : gos'.gosGo = gos.gosGo
  type : gos'.gosType = gos.gosType
  errno : gos'.gosErrno = .errno → gos.gosErrno = .errno
  lastOpt : gos'.gosLastOpt = gos.gosLastOpt ∨ IsEntry gos.gosGo gos'.gosLastOpt

namespace Kept

variable {gos gos₁ gos₂ : GetOptState}

theorem refl (gos : GetOptState) : Kept gos gos := ⟨rfl, rfl, id, .inl rfl⟩

theorem trans (h : Kept gos gos₁) (h' : Kept gos₁ gos₂) : Kept gos gos₂ where
  table := h'.table.trans h.table
  type := h'.type.trans h.type
  errno := h.errno ∘ h'.errno
  lastOpt := by
    rcases h'.lastOpt with he | hi
    · rw [he]
      exact h.lastOpt
    · rw [h.table] at hi
      exact .inr hi

/-- An index of the table stays one. -/
theorem isEntry (h : Kept gos gos₁) (hi : IsEntry gos.gosGo gos.gosLastOpt) :
    IsEntry gos₁.gosGo gos₁.gosLastOpt := by
  rw [h.table]
  rcases h.lastOpt with he | hi'
  · rw [he]
    exact hi
  · exact hi'

end Kept

/-- The state that a part of `get_opt_file` leaves. -/
def RowStep.gos : RowStep → GetOptState
  | .restart gos => gos
  | .ret _ gos => gos
  | .goOn _ gos => gos

/-- A row that goes on does so with the entry that `gos_last_opt` is. -/
structure RowKept (gos : GetOptState) (step : RowStep) : Prop where
  kept : Kept gos step.gos
  goOn : ∀ {lopt gos'}, step = .goOn lopt gos' → gos'.gosLastOpt = lopt

section Steps

variable {gos gos' : GetOptState} {step : RowStep}

/-- Looking a name up keeps the table, the type and the path. -/
theorem lookUp_kept (gos : GetOptState) (tok : Str) : RowKept gos (lookUp gos tok) := by
  rw [lookUp]
  cases hfind : gos.gosGo.findIdx? (·.goName = tok) with
  | none => exact ⟨⟨rfl, rfl, nofun, .inl rfl⟩, nofun⟩
  | some lopt =>
    have hlt := (List.findIdx?_eq_some_iff_getElem.mp hfind).1
    have hentry : IsEntry gos.gosGo lopt := ⟨Int.natCast_nonneg _, Int.ofNat_lt.mpr hlt⟩
    refine ⟨⟨rfl, rfl, id, .inr hentry⟩, ?_⟩
    rintro _ _ ⟨⟩
    rfl

/-- So does going on to the next row. -/
theorem restart_kept (gos : GetOptState) : RowKept gos (.restart { gos with gosPos := -1 }) :=
  ⟨⟨rfl, rfl, id, .inl rfl⟩, nofun⟩

/-- So does a row with an option. -/
theorem optionRow_kept (gos : GetOptState) (tok : Option Str) :
    RowKept gos (optionRow gos tok) := by
  cases tok with
  | none => exact restart_kept gos
  | some name =>
    rw [optionRow]
    split
    · exact restart_kept gos
    split
    · exact restart_kept gos
    · exact lookUp_kept gos name

/-- A part that begins with other values of fields that `Kept` does not mention. -/
theorem RowKept.from (h : RowKept gos' step) (hk : Kept gos gos') : RowKept gos step :=
  ⟨hk.trans h.kept, h.goOn⟩

/-- So does the start of a row. -/
theorem parseRowStart_kept (h : parseRowStart gos = some step) : RowKept gos step := by
  obtain ⟨⟨tok, pos⟩, -, h⟩ := Option.bind_eq_some_iff.mp h
  cases tok with
  | none =>
    cases h
    exact ⟨⟨rfl, rfl, id, .inl rfl⟩, nofun⟩
  | some head =>
    simp only at h
    split at h
    · split at h
      · cases h
        exact ⟨⟨rfl, rfl, nofun, .inl rfl⟩, nofun⟩
      · obtain ⟨⟨tok', pos'⟩, -, h⟩ := Option.bind_eq_some_iff.mp h
        cases h
        exact (optionRow_kept _ tok').from ⟨rfl, rfl, id, .inl rfl⟩
    · cases h
      exact (optionRow_kept _ (some head)).from ⟨rfl, rfl, id, .inl rfl⟩

/-- So does a new row. -/
theorem newRow_kept (h : newRow gos = some step) : RowKept gos step := by
  rw [newRow] at h
  cases hline : gos.gosFp.fgets MAX_STR with
  | none =>
    simp only [hline] at h
    cases h
    refine ⟨⟨rfl, rfl, fun he => ?_, .inl rfl⟩, nofun⟩
    simp only [RowStep.gos] at he
    split at he <;> cases he
  | some r =>
    simp only [hline] at h
    exact (parseRowStart_kept h).from ⟨rfl, rfl, id, .inl rfl⟩

/-- So does an option without a value. -/
theorem noArgument_kept {lopt : Int} (h : noArgument gos lopt = some step) : Kept gos step.gos := by
  obtain ⟨want, -, h⟩ := Option.bind_eq_some_iff.mp h
  split at h
  · cases h
    exact ⟨rfl, rfl, id, .inl rfl⟩
  · cases h
    exact ⟨rfl, rfl, nofun, .inl rfl⟩

/-- So does an option with one. -/
theorem anArgument_kept {lopt : Int} {tok : Str} (h : anArgument gos lopt tok = some step) :
    Kept gos step.gos := by
  obtain ⟨want, -, h⟩ := Option.bind_eq_some_iff.mp h
  split at h
  · cases h
    exact ⟨rfl, rfl, nofun, .inl rfl⟩
  · cases h
    exact ⟨rfl, rfl, id, .inl rfl⟩

/-- So does the rest of a row. -/
theorem rowArg_kept {lopt : Int} {haveDelim : Bool} (h : rowArg gos lopt haveDelim = some step)
    (hl : gos.gosLastOpt = lopt) : Kept gos step.gos := by
  have hk : ∀ pos, Kept gos { gos with gosLastOpt := lopt, gosPos := pos } :=
    fun pos => ⟨rfl, rfl, id, .inl hl.symm⟩
  obtain ⟨⟨tok, pos⟩, -, h⟩ := Option.bind_eq_some_iff.mp h
  cases tok with
  | none =>
    simp only at h
    split at h
    · cases h
      exact hk (-1)
    · exact (hk pos).trans (noArgument_kept h)
  | some tok =>
    simp only at h
    split at h
    · split at h
      · cases h
        exact hk (-1)
      · exact (hk pos).trans (noArgument_kept h)
    split at h
    · exact (hk pos).trans (anArgument_kept h)
    split at h
    · cases h
      exact ⟨rfl, rfl, nofun, .inl hl.symm⟩
    · obtain ⟨⟨tok', pos'⟩, -, h⟩ := Option.bind_eq_some_iff.mp h
      cases tok' with
      | none => exact (hk pos').trans (noArgument_kept h)
      | some tok' =>
        simp only at h
        split at h
        · exact (hk pos').trans (noArgument_kept h)
        · exact (hk pos').trans (anArgument_kept h)

/-- So does the first row of a call. -/
theorem beginRow_kept (h : beginRow gos = some step) : RowKept gos step := by
  rw [beginRow] at h
  split at h
  · exact newRow_kept h
  · cases h
    refine ⟨.refl gos, ?_⟩
    rintro _ _ ⟨⟩
    rfl

/-- `get_opt_file` from `restart` on. -/
theorem fileLoop_kept {fuel : Nat} {haveDelim : Bool} {call : OptCall}
    (h : fileLoop fuel haveDelim gos = some (call, gos')) : Kept gos gos' := by
  induction fuel generalizing gos haveDelim call with
  | zero => cases h
  | succ fuel ih =>
    obtain ⟨step, hrow, h⟩ := Option.bind_eq_some_iff.mp h
    have hk := beginRow_kept hrow
    cases step with
    | restart gos₁ => exact hk.kept.trans (ih h)
    | ret call' gos₁ =>
      cases h
      exact hk.kept
    | goOn lopt gos₁ =>
      obtain ⟨step, harg, h⟩ := Option.bind_eq_some_iff.mp h
      have hk' := hk.kept.trans (rowArg_kept harg (hk.goOn rfl))
      cases step with
      | restart gos₂ =>
        obtain ⟨⟨call', gos₃⟩, hloop, h⟩ := Option.bind_eq_some_iff.mp h
        cases h
        exact hk'.trans (ih hloop)
      | ret call' gos₂ =>
        cases h
        exact hk'
      | goOn => cases h

/-- A call that has an error before it. -/
theorem getOptFile_error {gos : GetOptState} (he : gos.gosErrno ≠ .ok) :
    getOptFile gos = some (.failed, gos) := if_pos he

/-- One call. -/
theorem tgetopt_kept {call : OptCall} (hf : gos.gosType = .file)
    (h : tgetopt gos = some (call, gos')) : Kept gos gos' := by
  simp only [tgetopt, hf, getOptFile] at h
  split at h
  · cases h
    exact .refl _
  · exact fileLoop_kept h

/-- A number of calls. -/
theorem tgetopts_kept {n : Nat} {calls : List (OptCall × GosErrno)} (hf : gos.gosType = .file)
    (h : tgetopts n gos = some (calls, gos')) : Kept gos gos' := by
  induction n generalizing gos calls with
  | zero =>
    cases h
    exact .refl _
  | succ n ih =>
    obtain ⟨⟨call, gos₁⟩, hcall, h⟩ := Option.bind_eq_some_iff.mp h
    obtain ⟨⟨calls', last⟩, hrest, he⟩ := Option.bind_eq_some_iff.mp h
    cases he
    have hk := tgetopt_kept hf hcall
    exact hk.trans (ih (hk.type.trans hf) hrest)

/-- No call sets `GOS_ERRNO`. -/
theorem tgetopts_errno {n : Nat} {calls : List (OptCall × GosErrno)} (hf : gos.gosType = .file)
    (he : gos.gosErrno ≠ .errno) (h : tgetopts n gos = some (calls, gos')) :
    ∀ c ∈ calls, c.2 ≠ .errno := by
  induction n generalizing gos calls with
  | zero =>
    cases h
    exact fun c hc => absurd hc List.not_mem_nil
  | succ n ih =>
    obtain ⟨⟨call, gos₁⟩, hcall, h⟩ := Option.bind_eq_some_iff.mp h
    obtain ⟨⟨calls', last⟩, hrest, heq⟩ := Option.bind_eq_some_iff.mp h
    cases heq
    have hk := tgetopt_kept hf hcall
    have he' := mt hk.errno he
    intro c hc
    rcases List.mem_cons.mp hc with rfl | hc
    · exact he'
    · exact ih (hk.type.trans hf) he' hrest c hc

/-- An error stays. -/
theorem tgetopts_stuck (hf : gos.gosType = .file) (he : gos.gosErrno ≠ .ok) (n : Nat) :
    tgetopts n gos = some (List.replicate n (.failed, gos.gosErrno), gos) := by
  have hcall : tgetopt gos = some (.failed, gos) := by
    simp only [tgetopt, hf]
    exact getOptFile_error he
  induction n with
  | zero => rfl
  | succ n ih =>
    simp only [tgetopts, hcall, ih, Option.bind_eq_bind, Option.bind_some]
    rfl

end Steps

end Spegla
