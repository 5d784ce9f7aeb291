import Spegla.Lib.ExitState

/-!
# Programs that keep a log

A program over a state that holds a log of what was done, the latest entry first.
A property may hold of a run only as long as everything the run does meets a
condition; the log is where the condition can be stated.

- `Grows`: a program adds to the log and takes nothing away.
- `Provided ok s s' p`: since `s` the log has grown, and if every new entry meets
  `ok`, then `p`.
- `Logs p P x Q`: from a state with `P` the program `x` returns with `Q`, and all that it
  logs has `p`.
- `Upholds ok G P x P'`: from a state with `P` the program `x` returns with `P'` or
  exits with `G`, provided that what it logs meets `ok`. The rules compose it along
  the program text.
-/

namespace ExitState

universe u v

variable {ε σ α β : Type u} {L : Type v} {log : σ → List L} {ok : L → Prop} {G : σ → Prop}

/-! ## Growing logs -/

/-- The program only adds to the log. -/
def Grows (log : σ → List L) (x : EStateM ε σ α) : Prop :=
  ∀ tr, Keeps (fun s => tr <:+ log s) x

theorem Grows.bind {x : EStateM ε σ α} {f : α → EStateM ε σ β} (hx : Grows log x)
    (hf : ∀ a, Grows log (f a)) : Grows log (x >>= f) := fun tr =>
  (hx tr).bind fun a => hf a tr

/-! ## Conditions on what is logged -/

/-- Since the state `s` the log has grown to that of `s'`; if every new entry meets
`ok`, then `p`. -/
def Provided (log : σ → List L) (ok : L → Prop) (s s' : σ) (p : Prop) : Prop :=
  ∃ new, log s' = new ++ log s ∧ ((∀ x ∈ new, ok x) → p)

theorem Provided.of {s s' : σ} {p : Prop} (h : log s' = log s) (hp : p) :
    Provided log ok s s' p := ⟨[], h, fun _ => hp⟩

theorem Provided.mono {s s' : σ} {p q : Prop} (h : Provided log ok s s' p) (hpq : p → q) :
    Provided log ok s s' q := by
  obtain ⟨new, hnew, hp⟩ := h
  exact ⟨new, hnew, fun hok => hpq (hp hok)⟩

theorem Provided.strict {ok' : L → Prop} {s s' : σ} {p : Prop} (h : Provided log ok s s' p)
    (hok : ∀ e, ok' e → ok e) : Provided log ok' s s' p := by
  obtain ⟨new, hnew, hp⟩ := h
  exact ⟨new, hnew, fun hall => hp fun e he => hok e (hall e he)⟩

theorem Provided.trans {s s' s'' : σ} {p q r : Prop} (h : Provided log ok s s' (p → q))
    (h' : Provided log ok s' s'' (q → r)) : Provided log ok s s'' (p → r) := by
  obtain ⟨new, hnew, hq⟩ := h
  obtain ⟨new', hnew', hr⟩ := h'
  refine ⟨new' ++ new, by rw [hnew', hnew, List.append_assoc], fun hok hp => ?_⟩
  exact hr (fun x hx => hok x (List.mem_append_left _ hx))
    (hq (fun x hx => hok x (List.mem_append_right _ hx)) hp)

theorem Provided.and {s s' : σ} {p q : Prop} (hp : Provided log ok s s' p)
    (hq : Provided log ok s s' q) : Provided log ok s s' (p ∧ q) := by
  obtain ⟨new, hnew, hp⟩ := hp
  obtain ⟨new', hnew', hq⟩ := hq
  obtain rfl := List.append_cancel_right (hnew.symm.trans hnew')
  exact ⟨new, hnew, fun hok => ⟨hp hok, hq hok⟩⟩

/-- One entry more: it may be assumed to meet the condition. -/
theorem Provided.cons {s s₁ s' : σ} {p : Prop} {x : L} (hx : log s₁ = x :: log s)
    (hg : log s₁ <:+ log s') (h : ok x → Provided log ok s₁ s' p) : Provided log ok s s' p := by
  by_cases hok : ok x
  · obtain ⟨new, hnew, hp⟩ := h hok
    exact ⟨new ++ [x], by rw [hnew, hx]; simp, fun hall =>
      hp fun y hy => hall y (List.mem_append_left _ hy)⟩
  · obtain ⟨new, hnew⟩ := hg
    exact ⟨new ++ [x], by rw [← hnew, hx]; simp, fun hall => absurd (hall x (by simp)) hok⟩

/-- What is provided since a later state is provided since an earlier one. -/
theorem Provided.since {s s₁ s' : σ} {p : Prop} (hg : log s <:+ log s₁)
    (h : Provided log ok s₁ s' p) : Provided log ok s s' p := by
  obtain ⟨pre, hpre⟩ := hg
  obtain ⟨new, hnew, hp⟩ := h
  exact ⟨new ++ pre, by rw [hnew, ← hpre, List.append_assoc], fun hok =>
    hp fun x hx => hok x (List.mem_append_left _ hx)⟩

theorem Provided.suffix {s s' : σ} {p : Prop} (h : Provided log ok s s' p) : log s <:+ log s' := by
  obtain ⟨new, hnew, -⟩ := h
  exact ⟨new, hnew.symm⟩

/-- From `P` the program returns with `P'` or exits with `G`, provided that what it
logs meets `ok`. -/
def Upholds (log : σ → List L) (ok : L → Prop) (G : σ → Prop) (P : σ → Prop)
    (x : EStateM ε σ α) (P' : α → σ → Prop) : Prop :=
  ∀ s, wp x s (fun a s' => Provided log ok s s' (P s → P' a s'))
    (fun _ s' => Provided log ok s s' (P s → G s'))

variable {P : σ → Prop} {P' : α → σ → Prop}

namespace Upholds

theorem pure {a : α} (h : ∀ s, P s → P' a s) :
    Upholds log ok G P (pure a : EStateM ε σ α) P' := fun s => Provided.of rfl (h s)

theorem throw {e : ε} (h : ∀ s, P s → G s) :
    Upholds log ok G P (throw e : EStateM ε σ α) P' := fun s => Provided.of rfl (h s)

theorem get : Upholds log ok G P (get : EStateM ε σ σ) (fun a s => a = s ∧ P s) := fun _ =>
  Provided.of rfl fun h => ⟨rfl, h⟩

theorem modify {f : σ → σ} {Q : σ → Prop} (hlog : ∀ s, log (f s) = log s)
    (h : ∀ s, P s → Q (f s)) :
    Upholds log ok G P (modify f : EStateM ε σ PUnit) (fun _ => Q) := fun s =>
  Provided.of (hlog s) (h s)

theorem bind {x : EStateM ε σ α} {f : α → EStateM ε σ β} {Q : β → σ → Prop}
    (hx : Upholds log ok G P x P') (hf : ∀ a, Upholds log ok G (P' a) (f a) Q) :
    Upholds log ok G P (x >>= f) Q := fun s =>
  (wp_bind x f).mpr <| wp_mono (hx s)
    (fun a s' h => wp_mono (hf a s') (fun _ _ h' => h.trans h') fun _ _ h' => h.trans h')
    fun _ _ h => h

/-- Reading the state and going on from another one with the same log. -/
theorem update {f : σ → σ} {k : σ → EStateM ε σ α} {Q : σ → Prop} (hlog : ∀ s, log (f s) = log s)
    (h : ∀ s, P s → Q (f s)) (hk : ∀ s, Upholds log ok G Q (k s) P') :
    Upholds log ok G P (MonadState.get >>= fun s => set (f s) >>= fun _ => k s) P' := fun s =>
  have hset : Provided log ok s (f s) (P s → Q (f s)) := Provided.of (hlog s) (h s)
  wp_mono (hk s (f s)) (fun _ _ h' => hset.trans h') fun _ _ h' => hset.trans h'

theorem map {x : EStateM ε σ α} {f : α → β} {Q : β → σ → Prop}
    (hx : Upholds log ok G P x fun a => Q (f a)) : Upholds log ok G P (f <$> x) Q := fun s =>
  (wp_map x f).mpr (hx s)

theorem ite {c : Prop} [Decidable c] {x y : EStateM ε σ α} (hx : c → Upholds log ok G P x P')
    (hy : ¬c → Upholds log ok G P y P') : Upholds log ok G P (if c then x else y) P' := by
  by_cases h : c
  · rw [if_pos h]; exact hx h
  · rw [if_neg h]; exact hy h

theorem pre {x : EStateM ε σ α} {P₀ : σ → Prop} (hx : Upholds log ok G P x P')
    (h : ∀ s, P₀ s → P s) : Upholds log ok G P₀ x P' := fun s =>
  wp_mono (hx s) (fun _ _ h' => h'.mono fun hp hp₀ => hp (h s hp₀))
    fun _ _ h' => h'.mono fun hp hp₀ => hp (h s hp₀)

theorem post {x : EStateM ε σ α} {P₁ : α → σ → Prop} (hx : Upholds log ok G P x P')
    (h : ∀ a s, P' a s → P₁ a s) : Upholds log ok G P x P₁ := fun s =>
  wp_mono (hx s) (fun a s' h' => h'.mono fun hp hp₀ => h a s' (hp hp₀)) fun _ _ h' => h'

/-- A fact that does not depend on the state is carried along. -/
theorem frame {x : EStateM ε σ α} (c : Prop) (hx : Upholds log ok G P x P') :
    Upholds log ok G (fun s => P s ∧ c) x (fun a s => P' a s ∧ c) := fun s =>
  wp_mono (hx s) (fun _ _ h => h.mono fun hp hpc => ⟨hp hpc.1, hpc.2⟩)
    fun _ _ h => h.mono fun hp hpc => hp hpc.1

/-- From either of two states. -/
theorem or {x : EStateM ε σ α} {A : σ → Prop} (hx : Upholds log ok G P x P')
    (hx' : Upholds log ok G A x P') : Upholds log ok G (fun s => P s ∨ A s) x P' := fun s =>
  wp_mono (wp_and (hx s) (hx' s)) (fun _ _ h => (h.1.and h.2).mono fun hpq => Or.rec hpq.1 hpq.2)
    fun _ _ h => (h.1.and h.2).mono fun hpq => Or.rec hpq.1 hpq.2

/-- A parameter may depend on the state before. -/
theorem choose {γ : Type u} {x : EStateM ε σ α} {A : γ → σ → Prop} (g : σ → γ)
    (hx : ∀ c, Upholds log ok G (A c) x P') : Upholds log ok G (fun s => A (g s) s) x P' := fun s =>
  hx (g s) s

/-- From a state that has what is wanted for some parameter. -/
theorem exists_ {γ : Type u} [Nonempty γ] {x : EStateM ε σ α} {A : γ → σ → Prop}
    (hx : ∀ c, Upholds log ok G (A c) x P') :
    Upholds log ok G (fun s => ∃ c, A c s) x P' := fun s => by
  by_cases h : ∃ c, A c s
  · obtain ⟨c, hc⟩ := h
    exact wp_mono (hx c s) (fun _ _ h' => h'.mono fun hp _ => hp hc) fun _ _ h' =>
      h'.mono fun hp _ => hp hc
  · obtain ⟨c⟩ := ‹Nonempty γ›
    exact wp_mono (hx c s) (fun _ _ h' => h'.mono fun _ hex => (h hex).elim) fun _ _ h' =>
      h'.mono fun _ hex => (h hex).elim

/-- A fold upholds what each of its steps upholds. -/
theorem foldlM {γ : Type u} {f : β → γ → EStateM ε σ β} {I : β → σ → Prop} :
    ∀ (l : List γ) (b : β), (∀ b c, Upholds log ok G (I b) (f b c) I) →
      Upholds log ok G (I b) (l.foldlM f b) I
  | [], _, _ => pure fun _ h => h
  | c :: l, b, h => by
    rw [List.foldlM_cons]
    exact (h b c).bind fun b' => foldlM l b' h

/-- So does a loop over a list. -/
theorem forM {γ : Type u} {f : γ → EStateM ε σ PUnit} : ∀ (l : List γ),
    (∀ c ∈ l, Upholds log ok G P (f c) fun _ => P) → Upholds log ok G P (l.forM f) fun _ => P
  | [], _ => pure fun _ h => h
  | c :: l, h => (h c (List.mem_cons_self ..)).bind fun _ =>
      forM l fun c' hc' => h c' (List.mem_cons_of_mem _ hc')

/-- What a run from `P` gives, with a log that grows in any case. -/
theorem of_provided {x : EStateM ε σ α} (hg : Grows log x)
    (h : ∀ s, P s → wp x s (fun a s' => Provided log ok s s' (P' a s'))
      (fun _ s' => Provided log ok s s' (G s'))) : Upholds log ok G P x P' := by
  intro s
  by_cases hp : P s
  · exact wp_mono (h s hp) (fun _ _ h' => h'.mono fun hq _ => hq) fun _ _ h' =>
      h'.mono fun hq _ => hq
  · refine wp_mono (hg (log s) s (List.suffix_refl _)) (fun _ s' hs' => ?_) fun _ s' hs' => ?_
    all_goals
      obtain ⟨new, hnew⟩ := hs'
      exact ⟨new, hnew.symm, fun _ hp' => absurd hp' hp⟩

theorem of_wp {x : EStateM ε σ α} (hg : Grows log x)
    (h : ∀ s, P s → wp x s P' (fun _ => G)) : Upholds log ok G P x P' := by
  refine of_provided hg fun s hs => ?_
  refine wp_mono (wp_and (h s hs) (hg (log s) s (List.suffix_refl _))) (fun a s' h' => ?_)
    fun _ s' h' => ?_
  all_goals
    obtain ⟨new, hnew⟩ := h'.2
    exact ⟨new, hnew.symm, fun _ => h'.1⟩

/-- An invariant that the program keeps in any case. -/
theorem of_keeps {x : EStateM ε σ α} (hg : Grows log x) (h : Keeps P x) (hG : ∀ s, P s → G s) :
    Upholds log ok G P x (fun _ => P) :=
  of_wp hg fun s hs => wp_mono (h s hs) (fun _ _ h' => h') fun _ _ h' => hG _ h'

/-- Under stricter conditions on what is logged. -/
theorem strict {ok' : L → Prop} {x : EStateM ε σ α} (hx : Upholds log ok G P x P')
    (h : ∀ e, ok' e → ok e) : Upholds log ok' G P x P' := fun s =>
  wp_mono (hx s) (fun _ _ h' => h'.strict h) fun _ _ h' => h'.strict h

/-- From a state that cannot be, anything follows. -/
theorem absurd {x : EStateM ε σ α} (hg : Grows log x) (h : ∀ s, ¬P s) :
    Upholds log ok G P x P' := of_wp hg fun s hs => (h s hs).elim

/-- What follows a program with two results, where each of them says something about the state. -/
theorem branch {ε σ β : Type} {log : σ → List L} {G P A B : σ → Prop} {Q : β → σ → Prop}
    {x : EStateM ε σ Bool} {f : Bool → EStateM ε σ β}
    (hx : Upholds log ok G P x fun b s => (b = true ∧ A s) ∨ (b = false ∧ B s))
    (ht : Upholds log ok G A (f true) Q) (hf : Upholds log ok G B (f false) Q) :
    Upholds log ok G P (x >>= f) Q := by
  refine hx.bind fun b => ?_
  cases b with
  | true => exact ht.pre fun s h => h.elim And.right fun h' => nomatch h'.1
  | false => exact hf.pre fun s h => h.elim (fun h' => nomatch h'.1) And.right

/-- The same for a test. -/
theorem test {ε σ β : Type} {log : σ → List L} {G P A B : σ → Prop} {Q : β → σ → Prop}
    {x : EStateM ε σ Bool} {y z : EStateM ε σ β}
    (hx : Upholds log ok G P x fun b s => (b = true ∧ A s) ∨ (b = false ∧ B s))
    (hy : Upholds log ok G A y Q) (hz : Upholds log ok G B z Q) :
    Upholds log ok G P (do if ← x then y else z) Q :=
  branch hx hy hz

/-- The run from a state with `P`. -/
theorem run {x : EStateM ε σ α} (hx : Upholds log ok G P x P') {s : σ} (hs : P s) :
    wp x s (fun a s' => Provided log ok s s' (P' a s')) (fun _ s' => Provided log ok s s' (G s')) :=
  wp_mono (hx s) (fun _ _ h => h.mono fun hp => hp hs) fun _ _ h => h.mono fun hp => hp hs

end Upholds

/-! ## What is logged -/

/-- Since the state `s` the log has grown to that of `s'`, by entries with `p`. -/
def Adds (log : σ → List L) (p : L → Prop) (s s' : σ) : Prop :=
  ∃ new, log s' = new ++ log s ∧ ∀ x ∈ new, p x

variable {p : L → Prop}

theorem Adds.of {s s' : σ} (h : log s' = log s) : Adds log p s s' := ⟨[], h, by simp⟩

theorem Adds.one {s s' : σ} {x : L} (h : log s' = x :: log s) (hx : p x) : Adds log p s s' :=
  ⟨[x], h, by simpa using hx⟩

theorem Adds.trans {s s' s'' : σ} (h : Adds log p s s') (h' : Adds log p s' s'') :
    Adds log p s s'' := by
  obtain ⟨new, hnew, hp⟩ := h
  obtain ⟨new', hnew', hp'⟩ := h'
  refine ⟨new' ++ new, by rw [hnew', hnew, List.append_assoc], fun x hx => ?_⟩
  exact (List.mem_append.mp hx).elim (hp' x) (hp x)

theorem Adds.mono {q : L → Prop} {s s' : σ} (h : Adds log p s s') (hpq : ∀ x, p x → q x) :
    Adds log q s s' := by
  obtain ⟨new, hnew, hp⟩ := h
  exact ⟨new, hnew, fun x hx => hpq x (hp x hx)⟩

/-- From `P` the program returns with `Q`, and all that it logs has `p`. -/
def Logs (log : σ → List L) (p : L → Prop) (P : σ → Prop) (x : EStateM ε σ α) (Q : α → σ → Prop) :
    Prop := ∀ s, P s → wp x s (fun a s' => Adds log p s s' ∧ Q a s') (fun _ _ => False)

namespace Logs

variable {P : σ → Prop} {Q : α → σ → Prop}

theorem pure {a : α} (h : ∀ s, P s → Q a s) : Logs log p P (pure a : EStateM ε σ α) Q := fun s hs =>
  ⟨Adds.of rfl, h s hs⟩

theorem get : Logs log p P (get : EStateM ε σ σ) (fun a s => a = s ∧ P s) := fun _ hs =>
  ⟨Adds.of rfl, rfl, hs⟩

theorem modify {f : σ → σ} {R : σ → Prop} (hlog : ∀ s, log (f s) = log s) (h : ∀ s, P s → R (f s)) :
    Logs log p P (modify f : EStateM ε σ PUnit) (fun _ => R) := fun s hs =>
  ⟨Adds.of (hlog s), h s hs⟩

theorem bind {x : EStateM ε σ α} {f : α → EStateM ε σ β} {R : β → σ → Prop}
    (hx : Logs log p P x Q) (hf : ∀ a, Logs log p (Q a) (f a) R) :
    Logs log p P (x >>= f) R := fun s hs =>
  wp_seq (hx s hs) fun a s' h => wp_mono (hf a s' h.2) (fun _ _ h' => ⟨h.1.trans h'.1, h'.2⟩)
    fun _ _ h' => h'

theorem ite {c : Prop} [Decidable c] {x y : EStateM ε σ α} (hx : c → Logs log p P x Q)
    (hy : ¬c → Logs log p P y Q) : Logs log p P (if c then x else y) Q := by
  by_cases h : c
  · rw [if_pos h]; exact hx h
  · rw [if_neg h]; exact hy h

theorem pre {x : EStateM ε σ α} {A : σ → Prop} (hx : Logs log p P x Q) (h : ∀ s, A s → P s) :
    Logs log p A x Q := fun s hs => hx s (h s hs)

theorem post {x : EStateM ε σ α} {R : α → σ → Prop} (hx : Logs log p P x Q)
    (h : ∀ a s, Q a s → R a s) : Logs log p P x R := fun s hs =>
  wp_mono (hx s hs) (fun a s' h' => ⟨h'.1, h a s' h'.2⟩) fun _ _ h' => h'

/-- Other entries. -/
theorem mono {q : L → Prop} {x : EStateM ε σ α} (hx : Logs log p P x Q) (hpq : ∀ e, p e → q e) :
    Logs log q P x Q := fun s hs =>
  wp_mono (hx s hs) (fun _ _ h => ⟨h.1.mono hpq, h.2⟩) fun _ _ h => h

end Logs

end ExitState
