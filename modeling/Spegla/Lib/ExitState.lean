import Mathlib.Tactic.Common

/-!
# Programs that change a state and may exit

An imperative program that may end early is an `EStateM ε σ α`: it returns a
value or exits with a reason, and it leaves a state behind either way. This
file is the small program logic for such programs.

- `wp x s Q E`: started in `s`, `x` returns with `Q` or exits with `E`; both
  postconditions see the state that was reached. The `wp_…` equations compute it
  along the program text, `wp_mono` weakens it.
- `Keeps I x`: `x` keeps the invariant `I`, however it ends. The `Keeps` rules
  compose it along the program text, through lists and through bounded loops.
- `Returns P x Q`: from a state with `P`, `x` returns with `Q`, and does not exit. `Leads P x Q`: it
  returns with `Q` unless it exits.
-/

namespace ExitState

universe u

variable {ε σ α β : Type u}

/-! ## Weakest preconditions -/

/-- The weakest precondition of `x` for returning with `Q` or exiting with `E`. -/
def wp (x : EStateM ε σ α) (s : σ) (Q : α → σ → Prop) (E : ε → σ → Prop) : Prop :=
  match x s with
  | .ok a s' => Q a s'
  | .error e s' => E e s'

variable {s : σ} {Q : α → σ → Prop} {E : ε → σ → Prop}

/-- A run can be checked. -/
instance {x : EStateM ε σ α} [∀ a s, Decidable (Q a s)] [∀ e s, Decidable (E e s)] :
    Decidable (wp x s Q E) :=
  show Decidable (match x s with | .ok a s' => Q a s' | .error e s' => E e s') from
    match x s with
    | .ok a s' => inferInstanceAs (Decidable (Q a s'))
    | .error e s' => inferInstanceAs (Decidable (E e s'))

@[simp] theorem wp_pure (a : α) : wp (pure a : EStateM ε σ α) s Q E ↔ Q a s := Iff.rfl

@[simp] theorem wp_get {Q : σ → σ → Prop} :
    wp (get : EStateM ε σ σ) s Q E ↔ Q s s := Iff.rfl

@[simp] theorem wp_set {Q : PUnit → σ → Prop} (t : σ) :
    wp (set t : EStateM ε σ PUnit) s Q E ↔ Q ⟨⟩ t := Iff.rfl

@[simp] theorem wp_modify {Q : PUnit → σ → Prop} (f : σ → σ) :
    wp (modify f : EStateM ε σ PUnit) s Q E ↔ Q ⟨⟩ (f s) := Iff.rfl

@[simp] theorem wp_modifyGet (f : σ → α × σ) :
    wp (modifyGet f : EStateM ε σ α) s Q E ↔ Q (f s).1 (f s).2 := Iff.rfl

@[simp] theorem wp_throw (e : ε) : wp (throw e : EStateM ε σ α) s Q E ↔ E e s := Iff.rfl

@[simp] theorem wp_bind {Q : β → σ → Prop} (x : EStateM ε σ α) (f : α → EStateM ε σ β) :
    wp (x >>= f) s Q E ↔ wp x s (fun a s' => wp (f a) s' Q E) E := by
  unfold wp
  show (match EStateM.bind x f s with | .ok a s' => Q a s' | .error e s' => E e s') ↔ _
  unfold EStateM.bind
  cases x s <;> exact Iff.rfl

@[simp] theorem wp_map {Q : β → σ → Prop} (x : EStateM ε σ α) (f : α → β) :
    wp (f <$> x) s Q E ↔ wp x s (fun a s' => Q (f a) s') E := by
  unfold wp
  show (match EStateM.map f x s with | .ok a s' => Q a s' | .error e s' => E e s') ↔ _
  unfold EStateM.map
  cases x s <;> exact Iff.rfl

theorem wp_ite {c : Prop} [Decidable c] (x y : EStateM ε σ α) :
    wp (if c then x else y) s Q E ↔ (c → wp x s Q E) ∧ (¬c → wp y s Q E) := by
  by_cases h : c <;> simp [h]

/-- A run that cannot exit has a result. -/
theorem wp_result {x : EStateM ε σ α} (h : wp x s Q fun _ _ => False) :
    ∃ a s', x s = .ok a s' ∧ Q a s' := by
  unfold wp at h
  cases hx : x s with
  | ok a s' => rw [hx] at h; exact ⟨a, s', rfl, h⟩
  | error e s' => rw [hx] at h; exact h.elim

theorem wp_of_result {x : EStateM ε σ α} {a : α} {s' : σ} (hx : x s = .ok a s') :
    wp x s Q E ↔ Q a s' := by
  unfold wp
  rw [hx]

/-- Weakening both postconditions. -/
theorem wp_mono {x : EStateM ε σ α} {Q' : α → σ → Prop} {E' : ε → σ → Prop}
    (h : wp x s Q E) (hQ : ∀ a s', Q a s' → Q' a s') (hE : ∀ e s', E e s' → E' e s') :
    wp x s Q' E' := by
  unfold wp at h ⊢
  cases hx : x s with
  | ok a s' => rw [hx] at h; exact hQ a s' h
  | error e s' => rw [hx] at h; exact hE e s' h

/-- Postconditions that hold in any case. -/
theorem wp_true {x : EStateM ε σ α} {Q : α → σ → Prop} {E : ε → σ → Prop}
    (hQ : ∀ a s', Q a s') (hE : ∀ e s', E e s') : wp x s Q E := by
  unfold wp
  cases x s with
  | ok a s' => exact hQ a s'
  | error e s' => exact hE e s'

/-- Both of two facts about the same run. -/
theorem wp_and {x : EStateM ε σ α} {Q' : α → σ → Prop} {E' : ε → σ → Prop}
    (h : wp x s Q E) (h' : wp x s Q' E') :
    wp x s (fun a s' => Q a s' ∧ Q' a s') (fun e s' => E e s' ∧ E' e s') := by
  unfold wp at h h' ⊢
  cases hx : x s with
  | ok a s' => rw [hx] at h h'; exact ⟨h, h'⟩
  | error e s' => rw [hx] at h h'; exact ⟨h, h'⟩

/-- A bind whose first part meets `R` continues from any state that `R` allows. -/
theorem wp_seq {x : EStateM ε σ α} {f : α → EStateM ε σ β} {R : α → σ → Prop}
    {Q : β → σ → Prop} (hx : wp x s R E) (hf : ∀ a s', R a s' → wp (f a) s' Q E) :
    wp (x >>= f) s Q E :=
  (wp_bind x f).mpr (wp_mono hx hf fun _ _ h => h)

/-- A loop over a list, where `I` says what is known before the elements that are left. -/
theorem wp_forM {γ : Type u} {f : γ → EStateM ε σ PUnit} {I : List γ → σ → Prop}
    (hf : ∀ c l s, I (c :: l) s → wp (f c) s (fun _ => I l) E) :
    ∀ (l : List γ) (s : σ), I l s → wp (l.forM f) s (fun _ => I []) E
  | [], _, h => h
  | c :: l, s, h => wp_seq (hf c l s h) fun _ s' h' => wp_forM hf l s' h'

/-! ## Invariants -/

/-- From the state `s` the program ends, either way, in one with `I`. -/
abbrev EndsIn (I : σ → Prop) (x : EStateM ε σ α) (s : σ) : Prop := wp x s (fun _ => I) (fun _ => I)

/-- `x` keeps `I`: from a state with `I` it ends, either way, in one with `I`. -/
def Keeps (I : σ → Prop) (x : EStateM ε σ α) : Prop := ∀ s, I s → EndsIn I x s

variable {I : σ → Prop}

theorem Keeps.pure (a : α) : Keeps I (pure a : EStateM ε σ α) := fun _ h => h

theorem Keeps.throw (e : ε) : Keeps I (throw e : EStateM ε σ α) := fun _ h => h

theorem Keeps.get : Keeps I (get : EStateM ε σ σ) := fun _ h => h

theorem Keeps.modify {f : σ → σ} (h : ∀ s, I s → I (f s)) :
    Keeps I (modify f : EStateM ε σ PUnit) := h

theorem Keeps.bind {x : EStateM ε σ α} {f : α → EStateM ε σ β} (hx : Keeps I x)
    (hf : ∀ a, Keeps I (f a)) : Keeps I (x >>= f) := fun s hs =>
  wp_seq (hx s hs) fun a s' hs' => hf a s' hs'

/-- What follows a look at the state is started in that state. -/
theorem Keeps.get_bind {f : σ → EStateM ε σ α} (h : ∀ s, I s → EndsIn I (f s) s) :
    Keeps I (MonadState.get >>= f) := h

theorem EndsIn.bind {x : EStateM ε σ α} {f : α → EStateM ε σ β} (hx : EndsIn I x s)
    (hf : ∀ a, Keeps I (f a)) : EndsIn I (x >>= f) s :=
  wp_seq hx fun a s' hs' => hf a s' hs'

theorem Keeps.map {x : EStateM ε σ α} (f : α → β) (hx : Keeps I x) : Keeps I (f <$> x) :=
  fun s hs => (wp_map x f).mpr (hx s hs)

theorem Keeps.forM {γ : Type u} {f : γ → EStateM ε σ PUnit} :
    ∀ l : List γ, (∀ c, Keeps I (f c)) → Keeps I (l.forM f)
  | [], _ => Keeps.pure _
  | c :: l, h => (h c).bind fun _ => Keeps.forM l h

theorem Keeps.ite {c : Prop} [Decidable c] {x y : EStateM ε σ α} (hx : c → Keeps I x)
    (hy : ¬c → Keeps I y) : Keeps I (if c then x else y) := by
  by_cases h : c
  · rw [if_pos h]; exact hx h
  · rw [if_neg h]; exact hy h

/-- A fold keeps what each of its steps keeps. -/
theorem Keeps.foldlM {γ : Type u} {f : β → γ → EStateM ε σ β} :
    ∀ (l : List γ) (b : β), (∀ b, ∀ c ∈ l, Keeps I (f b c)) → Keeps I (l.foldlM f b)
  | [], b, _ => Keeps.pure b
  | c :: l, b, h => by
    rw [List.foldlM_cons]
    exact (h b c (List.mem_cons_self ..)).bind fun b' =>
      Keeps.foldlM l b' fun b'' c' hc => h b'' c' (List.mem_cons_of_mem _ hc)

/-! ## Programs that return -/

/-- From a state with `P` the program returns with `Q`, and does not exit. -/
def Returns (P : σ → Prop) (x : EStateM ε σ α) (Q : α → σ → Prop) : Prop :=
  ∀ s, P s → wp x s Q (fun _ _ => False)

namespace Returns

variable {P : σ → Prop} {Q : α → σ → Prop}

theorem pure {a : α} (h : ∀ s, P s → Q a s) : Returns P (pure a : EStateM ε σ α) Q := h

theorem get : Returns P (get : EStateM ε σ σ) (fun a s => a = s ∧ P s) := fun _ hs => ⟨rfl, hs⟩

theorem modify {f : σ → σ} {R : σ → Prop} (h : ∀ s, P s → R (f s)) :
    Returns P (modify f : EStateM ε σ PUnit) (fun _ => R) := h

theorem bind {x : EStateM ε σ α} {f : α → EStateM ε σ β} {R : β → σ → Prop} (hx : Returns P x Q)
    (hf : ∀ a, Returns (Q a) (f a) R) : Returns P (x >>= f) R := fun s hs =>
  wp_seq (hx s hs) fun a s' h => hf a s' h

theorem ite {c : Prop} [Decidable c] {x y : EStateM ε σ α} (hx : c → Returns P x Q)
    (hy : ¬c → Returns P y Q) : Returns P (if c then x else y) Q := by
  by_cases h : c
  · rw [if_pos h]; exact hx h
  · rw [if_neg h]; exact hy h

theorem pre {x : EStateM ε σ α} {A : σ → Prop} (hx : Returns P x Q) (h : ∀ s, A s → P s) :
    Returns A x Q := fun s hs => hx s (h s hs)

theorem post {x : EStateM ε σ α} {R : α → σ → Prop} (hx : Returns P x Q)
    (h : ∀ a s, Q a s → R a s) : Returns P x R := fun s hs =>
  wp_mono (hx s hs) h fun _ _ h' => h'

/-- What follows a test that always comes out the same. -/
theorem always {ε σ β : Type} {P Q : σ → Prop} {R : β → σ → Prop} {x : EStateM ε σ Bool}
    {f : Bool → EStateM ε σ β} (hx : Returns P x fun b s => b = true ∧ Q s)
    (hf : Returns Q (f true) R) : Returns P (x >>= f) R :=
  hx.bind fun b s h => by
    obtain ⟨rfl, hs⟩ := h
    exact hf s hs

end Returns

/-! ## Programs that return or exit -/

/-- From a state with `P` the program returns with `Q`, unless it exits. -/
def Leads (P : σ → Prop) (x : EStateM ε σ α) (Q : α → σ → Prop) : Prop :=
  ∀ s, P s → wp x s Q (fun _ _ => True)

namespace Leads

variable {P : σ → Prop} {Q : α → σ → Prop} {x : EStateM ε σ α}

theorem pure {a : α} (h : ∀ s, P s → Q a s) : Leads P (pure a : EStateM ε σ α) Q := h

theorem get : Leads P (get : EStateM ε σ σ) (fun a s => a = s ∧ P s) := fun _ hs => ⟨rfl, hs⟩

theorem modify {f : σ → σ} {R : σ → Prop} (h : ∀ s, P s → R (f s)) :
    Leads P (modify f : EStateM ε σ PUnit) (fun _ => R) := h

theorem bind {f : α → EStateM ε σ β} {R : β → σ → Prop} (hx : Leads P x Q)
    (hf : ∀ a, Leads (Q a) (f a) R) : Leads P (x >>= f) R := fun s hs =>
  wp_seq (hx s hs) fun a s' h => hf a s' h

theorem ite {c : Prop} [Decidable c] {y : EStateM ε σ α} (hx : c → Leads P x Q)
    (hy : ¬c → Leads P y Q) : Leads P (if c then x else y) Q := by
  by_cases h : c
  · rw [if_pos h]; exact hx h
  · rw [if_neg h]; exact hy h

theorem pre {A : σ → Prop} (hx : Leads P x Q) (h : ∀ s, A s → P s) : Leads A x Q := fun s hs =>
  hx s (h s hs)

theorem post {R : α → σ → Prop} (hx : Leads P x Q) (h : ∀ a s, Q a s → R a s) : Leads P x R :=
  fun s hs => wp_mono (hx s hs) h fun _ _ _ => trivial

theorem of_keeps (h : Keeps P x) : Leads P x (fun _ => P) := fun s hs =>
  wp_mono (h s hs) (fun _ _ h' => h') fun _ _ _ => trivial

/-- A program that does not exit returns. -/
theorem returns {R : α → σ → Prop} (hx : Leads P x Q) {s : σ} (hs : P s)
    (h : wp x s R fun _ _ => False) : wp x s Q fun _ _ => False :=
  wp_mono (wp_and (hx s hs) h) (fun _ _ h' => h'.1) fun _ _ h' => h'.2

end Leads

/-! ## Programs that follow a computation -/

/-- From the state `s` the program follows the computation `o`: it returns where `o` has a value,
with a result that `R` relates to it, and exits where `o` has none. -/
def Follows {γ : Type u} (o : Option γ) (x : EStateM ε σ α) (s : σ) (R : α → γ → σ → Prop)
    (E : σ → Prop) : Prop :=
  wp x s (fun a s' => ∃ c, o = some c ∧ R a c s') (fun _ s' => o = none ∧ E s')

namespace Follows

variable {γ δ : Type u} {o : Option γ} {x : EStateM ε σ α} {R : α → γ → σ → Prop} {E : σ → Prop}

theorem pure {a : α} {c : γ} (h : R a c s) : Follows (some c) (pure a : EStateM ε σ α) s R E :=
  ⟨c, rfl, h⟩

theorem throw {e : ε} (h : E s) : Follows none (throw e : EStateM ε σ α) s R E := ⟨rfl, h⟩

theorem congr {o : Option γ} (p : Option γ) (ho : o = p) (h : Follows p x s R E) :
    Follows o x s R E := ho ▸ h

/-- The next step of the one is the next step of the other. -/
theorem bind {f : γ → Option δ} {g : α → EStateM ε σ β} {R' : β → δ → σ → Prop}
    (hx : Follows o x s R E) (hf : ∀ a c s', R a c s' → Follows (f c) (g a) s' R' E) :
    Follows (o >>= f) (x >>= g) s R' E := by
  refine (wp_bind x g).mpr (wp_mono hx ?_ ?_)
  · rintro a s' ⟨c, rfl, hR⟩
    exact hf a c s' hR
  · rintro e s' ⟨rfl, hE⟩
    exact ⟨rfl, hE⟩

/-- The program makes a step of its own. -/
theorem seq {g : α → EStateM ε σ β} {R' : β → γ → σ → Prop} {P : α → σ → Prop}
    (hx : wp x s P fun _ _ => False) (hf : ∀ a s', P a s' → Follows o (g a) s' R' E) :
    Follows o (x >>= g) s R' E :=
  (wp_bind x g).mpr (wp_mono hx hf fun _ _ h => h.elim)

/-- How the program ends says whether the computation has a value. -/
theorem attach (hx : Follows o x s R E) :
    Follows o x s (fun a c s' => o = some c ∧ R a c s') (fun s' => o = none ∧ E s') :=
  wp_mono hx (fun _ _ ⟨c, ho, h⟩ => ⟨c, ho, ho, h⟩) fun _ _ h => ⟨h.1, h⟩

theorem mono {R' : α → γ → σ → Prop} {E' : σ → Prop} (hx : Follows o x s R E)
    (hR : ∀ a c s', R a c s' → R' a c s') (hE : ∀ s', E s' → E' s') : Follows o x s R' E' :=
  wp_mono hx (fun a s' ⟨c, ho, h⟩ => ⟨c, ho, hR a c s' h⟩) fun _ s' ⟨ho, h⟩ => ⟨ho, hE s' h⟩

end Follows

end ExitState
