import Spegla.Lib.PosixCalls

/-!
# A file made where nothing was

A program that makes a file under a new name, works on it by that name and then
takes it away or renames it touches nothing else.

- `Scratch fs₀ cwd s p c fs`: the tree `fs` is `fs₀` but for the place `p`, which
  the string `s` names; `c` is the content of the plain file there, if one is.
- `Scratch.create` makes one; `Scratch.fopen`, `append`, `change`, `unlink` say what
  the calls do to it, `Scratch.rename` what becomes of it in the end.
- `Extends`: everything that was there is there still; paths that led to something
  lead there still (`nodeAt_extends`).
-/

namespace PosixFs

open CString

/-! ## Trees that only grow -/

/-- Whatever is in `fs` is in `fs'`. -/
def Extends (fs fs' : Fs) : Prop := ∀ p n, fs.get p = some n → fs'.get p = some n

theorem Extends.refl (fs : Fs) : Extends fs fs := fun _ _ h => h

theorem Extends.trans {fs fs' fs'' : Fs} (h : Extends fs fs') (h' : Extends fs' fs'') :
    Extends fs fs'' := fun p n hp => h' p n (h p n hp)

theorem Extends.shape {fs fs' : Fs} (h : Extends fs fs') {p : Path} (hp : fs.get p ≠ none) :
    fs'.shape p = fs.shape p := by
  obtain ⟨n, hn⟩ := Option.ne_none_iff_exists'.mp hp
  unfold Fs.shape
  rw [hn, h p n hn]

/-- A walk that ends at something meets only what is there. -/
theorem walkWith_extends {a a' : Path → List Str → Except Errno Path} {fs fs' : Fs} {p : Path}
    (follow : Bool) (hx : Extends fs fs') (hp : fs.get p ≠ none)
    (ha : ∀ q cs, a q cs = .ok p → a' q cs = .ok p) :
    ∀ (cs : List Str) (cur : Path), walkWith a fs follow cur cs = .ok p →
      walkWith a' fs' follow cur cs = .ok p
  | [], _, h => h
  | c :: cs, cur, h => by
    have ih := walkWith_extends follow hx hp ha cs
    rw [walkWith_cons] at h ⊢
    split at h
    · next h₁ => rw [if_pos h₁]; exact ih cur h
    · next h₁ =>
      rw [if_neg h₁]
      split at h
      · next h₂ => rw [if_pos h₂]; exact ih cur.dropLast h
      · next h₂ =>
        rw [if_neg h₂]
        by_cases hc : fs.get (cur ++ [c]) = none
        · -- nothing is here: the walk would end at nothing
          have hs : fs.shape (cur ++ [c]) = .absent := by
            unfold Fs.shape
            rw [hc]
          rw [hs] at h
          simp only at h
          split at h
          · rw [Except.ok.injEq] at h
            exact absurd hc (h ▸ hp)
          · simp at h
        · rw [hx.shape hc]
          cases hk : fs.shape (cur ++ [c]) with
          | absent => rw [hk] at h; exact h
          | other => rw [hk] at h; exact h
          | dir => rw [hk] at h; exact ih _ h
          | link t =>
            rw [hk] at h
            simp only at h ⊢
            split at h
            · next hl => rw [if_pos hl]; exact h
            · next hl => rw [if_neg hl]; exact ha _ _ h

theorem walk_extends {fs fs' : Fs} {p : Path} (follow : Bool) (hx : Extends fs fs')
    (hp : fs.get p ≠ none) : ∀ (n : Nat) (cur : Path) (cs : List Str),
      walk fs follow n cur cs = .ok p → walk fs' follow n cur cs = .ok p
  | 0, cur, cs, h => walkWith_extends follow hx hp (fun _ _ h => by simp at h) cs cur h
  | n + 1, cur, cs, h =>
    walkWith_extends follow hx hp (fun q cs h => walk_extends follow hx hp n q cs h) cs cur h

/-- A path that leads to a node leads to it in every tree that has what was there. -/
theorem nodeAt_extends {fs fs' : Fs} (hx : Extends fs fs') {cwd : Path} {follow : Bool} {s : Str}
    {p : Path} {n : Node} (h : nodeAt cwd follow s fs = .ok (p, n)) :
    nodeAt cwd follow s fs' = .ok (p, n) := by
  obtain ⟨hr, hg⟩ := nodeAt_ok.mp h
  refine nodeAt_ok.mpr ⟨?_, hx p n hg⟩
  unfold resolve at hr ⊢
  split at hr
  · simp at hr
  · next hs =>
    rw [if_neg hs]
    exact walk_extends follow hx (by rw [hg]; simp) _ _ _ hr

/-! ## The file -/

/-- The tree `fs` is `fs₀` but for the place `p`, which `s` names and where nothing
was. There is a plain file with the content `c`, or nothing. -/
structure Scratch (fs₀ : Fs) (cwd : Path) (s : Str) (p : Path) (c : Option Str)
    (fs : Fs) : Prop where
  path : resolve fs₀ cwd false s = .ok p
  fresh : fs₀.get p = none
  place : fs₀.HasPlace p
  off : ∀ q, q ≠ p → fs.get q = fs₀.get q
  absent : c = none → fs.get p = none
  present : ∀ d, c = some d → ∃ m t, fs.get p = some ⟨.file d, m, t⟩

variable {fs₀ fs fs' : Fs} {cwd : Path} {s : Str} {p : Path} {c : Option Str}

namespace Scratch

/-- Whatever was there at first is there still. -/
theorem extends_ (h : Scratch fs₀ cwd s p c fs) : Extends fs₀ fs := fun q n hq => by
  rw [h.off q fun hqp => by rw [hqp, h.fresh] at hq; simp at hq]
  exact hq

theorem shape (h : Scratch fs₀ cwd s p c fs) : fs.shape p = .absent ∨ fs.shape p = .other := by
  unfold Fs.shape
  cases c with
  | none => rw [h.absent rfl]; exact Or.inl rfl
  | some d =>
    obtain ⟨m, t, hp⟩ := h.present d rfl
    rw [hp]
    exact Or.inr rfl

/-- Whatever the content, the tree has one shape. -/
theorem shape_eq {fs' : Fs} {d d' : Str} (h : Scratch fs₀ cwd s p (some d) fs)
    (h' : Scratch fs₀ cwd s p (some d') fs') (q : Path) : fs.shape q = fs'.shape q := by
  unfold Fs.shape
  by_cases hq : q = p
  · obtain ⟨m, t, hp⟩ := h.present d rfl
    obtain ⟨m', t', hp'⟩ := h'.present d' rfl
    rw [hq, hp, hp']
  · rw [h.off q hq, h'.off q hq]

/-- The string names the place in the new tree too, links followed or not. -/
theorem resolve (h : Scratch fs₀ cwd s p c fs) (follow : Bool) :
    PosixFs.resolve fs cwd follow s = .ok p := by
  refine resolve_create follow h.path (Or.inl ?_) h.shape fun q hq => ?_
  · unfold Fs.shape
    rw [h.fresh]
  · unfold Fs.shape
    rw [h.off q hq]

/-- What is at the place now. -/
theorem nodeAt (h : Scratch fs₀ cwd s p c fs) (follow : Bool) :
    match c with
    | none => PosixFs.nodeAt cwd follow s fs = .error .ENOENT
    | some d => ∃ m t, PosixFs.nodeAt cwd follow s fs = .ok (p, ⟨.file d, m, t⟩) := by
  cases c with
  | none =>
    show PosixFs.nodeAt cwd follow s fs = .error .ENOENT
    unfold PosixFs.nodeAt
    rw [h.resolve follow]
    simp only [h.absent rfl]
  | some d =>
    obtain ⟨m, t, hp⟩ := h.present d rfl
    exact ⟨m, t, nodeAt_ok.mpr ⟨h.resolve follow, hp⟩⟩

/-- A change of the place alone. -/
theorem put (h : Scratch fs₀ cwd s p c fs) {c' : Option Str} {n : Option Node}
    (hget : ∀ q, fs'.get q = if q = p then n else fs.get q)
    (hn : n = none ∧ c' = none ∨ ∃ d m t, c' = some d ∧ n = some ⟨.file d, m, t⟩) :
    Scratch fs₀ cwd s p c' fs' where
  path := h.path
  fresh := h.fresh
  place := h.place
  off q hq := by rw [hget, if_neg hq, h.off q hq]
  absent hc := by
    rw [hget, if_pos rfl]
    rcases hn with ⟨hn, -⟩ | ⟨d, m, t, hd, -⟩
    · exact hn
    · rw [hc] at hd; simp at hd
  present d hd := by
    rw [hget, if_pos rfl]
    rcases hn with ⟨-, hc⟩ | ⟨d', m, t, hd', hn⟩
    · rw [hc] at hd; simp at hd
    · rw [hd', Option.some_inj] at hd
      subst hd
      exact ⟨m, t, hn⟩

/-- `open` with `O_EXCL` makes one. -/
theorem create {now : Int} (h : PosixFs.create cwd now s fs₀ = .ok fs) :
    ∃ p, Scratch fs₀ cwd s p (some []) fs := by
  obtain ⟨p, hr, hfresh, hplace, hget⟩ := make_ok h
  refine ⟨p, hr, hfresh, hplace, fun q hq => ?_, fun hc => by simp at hc, fun d hd => ?_⟩
  · rw [hget, if_neg hq]
  · rw [Option.some_inj] at hd
    subst hd
    exact ⟨_, _, by rw [hget, if_pos rfl]⟩

theorem fopen {cut : Bool} {umask : BitVec 12} {now : Int} (h : Scratch fs₀ cwd s p c fs)
    (ho : PosixFs.fopen cwd cut umask now s fs = .ok fs') :
    Scratch fs₀ cwd s p (some (if cut then [] else c.getD [])) fs' := by
  obtain ⟨q, d, m, t, hr, hd, hget⟩ := fopen_ok ho
  obtain rfl : p = q := by simpa using (h.resolve true).symm.trans hr
  refine h.put hget (Or.inr ⟨_, m, t, rfl, ?_⟩)
  cases c with
  | none =>
    rcases hd with ⟨-, hd⟩ | ⟨n, _, hn, -⟩
    · simp [hd]
    · rw [h.absent rfl] at hn; simp at hn
  | some e =>
    obtain ⟨m', t', hp⟩ := h.present e rfl
    rcases hd with ⟨hn, -⟩ | ⟨n, c₀, hn, hk, hd⟩
    · rw [hp] at hn; simp at hn
    · rw [hp, Option.some_inj] at hn
      rw [← hn] at hk
      obtain rfl : e = c₀ := by simpa using hk
      rw [hd]
      rfl

/-- Opening it does not fail, whether it is there or not. -/
theorem fopen_total (cut : Bool) (umask : BitVec 12) (now : Int) (h : Scratch fs₀ cwd s p c fs) :
    ∃ fs', PosixFs.fopen cwd cut umask now s fs = .ok fs' := by
  unfold PosixFs.fopen
  rw [h.resolve true]
  cases c with
  | none =>
    have hplace : fs.HasPlace p := by
      obtain ⟨n, hn, hk⟩ := Fs.isDir_iff.mp h.place.1
      exact ⟨Fs.isDir_iff.mpr ⟨n, h.extends_ _ _ hn, hk⟩, h.place.2⟩
    simp only [h.absent rfl, add, ne_eq, not_true_eq_false, if_false]
    rw [if_pos hplace]
    exact ⟨_, rfl⟩
  | some d =>
    obtain ⟨m, t, hp⟩ := h.present d rfl
    simp only [hp]
    exact ⟨_, rfl⟩

/-- Nor does writing to it. -/
theorem append_total (data : Str) (now : Int) {d : Str} (h : Scratch fs₀ cwd s p (some d) fs) :
    ∃ fs', PosixFs.append cwd data now s fs = .ok fs' := by
  obtain ⟨m, t, hn⟩ := h.nodeAt true
  unfold PosixFs.append PosixFs.change
  rw [hn]
  exact ⟨_, rfl⟩

theorem append {data : Str} {now : Int} {d : Str} (h : Scratch fs₀ cwd s p (some d) fs)
    (ha : PosixFs.append cwd data now s fs = .ok fs') :
    Scratch fs₀ cwd s p (some (d ++ data)) fs' := by
  obtain ⟨q, n, n', hr, hn, hf, hget⟩ := change_ok (fun n m hm hk => by simp [hk] at hm) ha
  obtain rfl : p = q := by simpa using (h.resolve true).symm.trans hr
  obtain ⟨m, t, hp⟩ := h.present d rfl
  rw [hp, Option.some_inj] at hn
  subst hn
  simp only [Except.ok.injEq] at hf
  exact h.put hget (Or.inr ⟨_, m, now, rfl, by rw [← hf]⟩)

/-- `chmod` and `utimes` leave the content. -/
theorem change {f : Node → Except Errno Node} (h : Scratch fs₀ cwd s p c fs)
    (hk : ∀ n m, f n = .ok m → m.kind = n.kind)
    (hc : PosixFs.change cwd true f s fs = .ok fs') : Scratch fs₀ cwd s p c fs' := by
  obtain ⟨q, n, m, hr, hn, hf, hget⟩ := change_ok (fun n m hm hd => (hk n m hm).trans hd) hc
  obtain rfl : p = q := by simpa using (h.resolve true).symm.trans hr
  cases c with
  | none => rw [h.absent rfl] at hn; simp at hn
  | some d =>
    obtain ⟨m', t', hp⟩ := h.present d rfl
    rw [hp, Option.some_inj] at hn
    have hkind : m.kind = .file d := by rw [hk n m hf, ← hn]
    exact h.put hget (Or.inr ⟨d, m.mode, m.mtime, rfl, by rw [← hkind]⟩)

theorem unlink (h : Scratch fs₀ cwd s p c fs) (hu : PosixFs.unlink cwd s fs = .ok fs') :
    Scratch fs₀ cwd s p none fs' := by
  obtain ⟨q, n, hr, -, -, hget⟩ := unlink_ok hu
  obtain rfl : p = q := by simpa using (h.resolve false).symm.trans hr
  exact h.put hget (Or.inl ⟨rfl, rfl⟩)

/-- Unlinking a file that is there does not fail. -/
theorem unlink_present {d : Str} (h : Scratch fs₀ cwd s p (some d) fs) :
    ∃ fs', PosixFs.unlink cwd s fs = .ok fs' := by
  obtain ⟨m, t, hn⟩ := h.nodeAt false
  exact ⟨fs.del p, by unfold PosixFs.unlink; rw [hn]; simp⟩

/-- `rename` puts the file where `t` leads, whatever was there. -/
theorem rename {t : Str} (h : Scratch fs₀ cwd s p c fs)
    (hr : PosixFs.rename cwd s t fs = .ok fs') : ∃ d m u q, c = some d ∧
      PosixFs.resolve fs cwd false t = .ok q ∧ fs.isDir q = false ∧
      fs.get p = some ⟨.file d, m, u⟩ ∧
      ∀ r, fs'.get r = if r = q then some ⟨.file d, m, u⟩ else if r = p then none
        else fs₀.get r := by
  obtain ⟨p', n, q, hres, hn, -, hq, hdir, hget⟩ := rename_ok hr
  obtain rfl : p = p' := by simpa using (h.resolve false).symm.trans hres
  cases c with
  | none => rw [h.absent rfl] at hn; simp at hn
  | some d =>
    obtain ⟨m, u, hp⟩ := h.present d rfl
    have hn' := hp.symm.trans hn
    rw [Option.some_inj] at hn'
    refine ⟨d, m, u, q, rfl, hq, hdir, hp, fun r => ?_⟩
    rw [hget, hn']
    by_cases hrq : r = q
    · rw [if_pos hrq, if_pos hrq]
    · rw [if_neg hrq, if_neg hrq]
      by_cases hrp : r = p
      · rw [if_pos hrp, if_pos hrp]
      · rw [if_neg hrp, if_neg hrp, h.off r hrp]

end Scratch

end PosixFs
