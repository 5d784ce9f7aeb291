import Spegla.CalmRuns
import Spegla.Lib.Fields

/-!
# Removing where nothing fails

Where no call fails and no maximum is set, `spf_rm` removes an entry with all that is below it, and
nothing else.

- `Erases`: what is at a place or below it is gone; the rest is as it was.
- `rmF_calm`, `rmEntries_calm`, `rmRf_calm`: one entry, the entries of a directory, a hierarchy; the
  last is by induction on the depth.
- `spfRm_calm`: `spf_rm` of a file or of a directory.
-/

namespace Spegla

open CString PosixFs ExitState

variable {F : Type} {env : Env F} {ds : List Str} {c : Str} {w w' : World F} {fs₀ : Fs}
variable {E : Exit → World F → Prop}

/-- A string with `"/../"` in it has a component `".."`. -/
theorem haveDotdotRef_components {f : Str} (h : ['.', '.'] ∉ components f) :
    haveDotdotRef f = false := by
  by_contra hd
  rw [Bool.not_eq_false] at hd
  obtain ⟨⟨a, r⟩, hr⟩ := Option.isSome_iff_exists.mp hd
  obtain ⟨rfl, b, rfl⟩ := strstr_some hr
  have hsplit : a ++ (['/', '.', '.', '/'] ++ b) = a ++ '/' :: (['.', '.'] ++ '/' :: b) := rfl
  rw [hsplit, components_append_slash, components_append_slash] at h
  simp [components] at h

/-- The path of proper names has none. -/
theorem haveDotdotRef_dirStr (hds : ∀ d ∈ ds, IsName d) (hc : IsName c) :
    haveDotdotRef (dirStr ds ++ c) = false := by
  refine haveDotdotRef_components ?_
  rw [components_dirStr ds c (fun d hd => (hds d hd).noslash) hc.noslash]
  simp only [List.cons_append, List.mem_cons, List.mem_append, List.not_mem_nil, or_false, not_or]
  exact ⟨by simp, fun hd => (hds _ hd).ne_dotdot rfl, fun hd => hc.ne_dotdot hd.symm⟩

/-- The path of a name in a directory, wherever the run is. -/
theorem resolve_dirStr (hds : ∀ d ∈ ds, IsName d) (hdir : w.fs.isDir (env.cwd ++ ds) = true)
    (hc : IsName c) : resolve w.fs env.cwd false (dirStr ds ++ c) = .ok (env.cwd ++ ds ++ [c]) := by
  have hin : StandsIn env ds { w with curDir := dirStr ds } := ⟨rfl, hds, hdir⟩
  exact hin.resolve hc

/-! ## One entry -/

/-- What is at the place `p` or below it is gone, and the rest is as it was. -/
structure Erases (p : Path) (w w' : World F) : Prop where
  curDir : w'.curDir = w.curDir
  get : ∀ q, w'.fs.get q = if p <+: q then none else w.fs.get q

theorem Erases.extends_ {p : Path} (h : Erases p w w') : Extends w'.fs w.fs := by
  intro q n hq
  rw [h.get] at hq
  split at hq
  · simp at hq
  · exact hq

/-- `is_dir`, of a path that leads to something. -/
theorem isDir_calm {f : Str} {p : Path} {n : Node} (hcalm : NothingFails env)
    (hp : resolve w.fs env.cwd false f = .ok p) (hn : w.fs.get p = some n) :
    wp (isDir env (some f)) w (fun b w' => w' = w.ticked ∧ b = w.fs.isDir p) E := by
  unfold isDir
  rw [wp_bind, wp_look, lookAt_of_ok (hcalm.fault _ _) (lstat_total hp hn)]
  refine ⟨rfl, ?_⟩
  unfold Fs.isDir
  rw [hn]

/-- A file or an empty directory. -/
theorem rmF_calm {f : Str} {p : Path} {n : Node} (hcalm : NothingFails env)
    (hmax : env.spMaxDelete = 0) (hp : resolve w.fs env.cwd false f = .ok p)
    (hn : w.fs.get p = some n) (hroot : p ≠ []) (hbare : ∀ q, q ≠ [] → w.fs.get (p ++ q) = none) :
    wp (rmF env (some f)) w (fun ok w' => ok = true ∧ Erases p w w') E := by
  have herases : ∀ fs : Fs, (∀ q, fs.get q = if q = p then none else w.fs.get q) →
      ∀ q, fs.get q = if p <+: q then none else w.fs.get q := by
    intro fs hfs q
    rw [hfs]
    by_cases hpre : p <+: q
    · obtain ⟨t, rfl⟩ := hpre
      rw [if_pos (List.prefix_append ..)]
      by_cases ht : t = []
      · simp [ht]
      · rw [hbare t ht]
        simp
    · rw [if_neg hpre, if_neg]
      rintro rfl
      exact hpre (List.prefix_refl _)
  unfold rmF
  rw [wp_bind, wp_get, if_neg (by simp [maxDeletes, hmax])]
  refine wp_seq (isDir_calm hcalm hp hn) ?_
  rintro _ _ ⟨rfl, rfl⟩
  rw [wp_bind]
  unfold removeOne
  by_cases hdir : n.kind = .dir
  · have hempty : w.fs.names p = [] := by
      refine List.eq_nil_iff_forall_not_mem.mpr fun d hd => ?_
      exact Fs.mem_names.mp hd (hbare [d] (by simp))
    obtain ⟨fs, hfs⟩ := rmdir_total hp hn hdir hroot hempty
    obtain ⟨p', n', hp', -, -, -, hget⟩ := rmdir_ok hfs
    obtain rfl := Except.ok.inj (hp.symm.trans hp')
    rw [if_pos (Fs.isDir_iff.mpr ⟨n, hn, hdir⟩)]
    exact wp_act_ok hcalm hfs ⟨rfl, rfl, herases fs hget⟩
  · have hfile : w.fs.isDir p = false := by
      unfold Fs.isDir
      rw [hn]
      exact decide_eq_false hdir
    obtain ⟨fs, hfs⟩ := unlink_total hp hn hdir
    obtain ⟨p', n', hp', -, -, hget⟩ := unlink_ok hfs
    obtain rfl := Except.ok.inj (hp.symm.trans hp')
    rw [hfile, if_neg (by simp)]
    exact wp_act_ok hcalm hfs ⟨rfl, rfl, herases fs hget⟩

/-! ## A hierarchy -/

/-- The paths at and below the directory `ds` fit into `pathMax` bytes. -/
def PathsRoom (env : Env F) (fs : Fs) (ds : List Str) : Prop :=
  ∀ q, fs.get (env.cwd ++ ds ++ q) ≠ none → (dirStr (ds ++ q)).length < env.pathMax

theorem PathsRoom.below (h : PathsRoom env fs₀ ds) (es : List Str) :
    PathsRoom env fs₀ (ds ++ es) := by
  intro q hq
  rw [List.append_assoc]
  refine h (es ++ q) ?_
  rwa [← List.append_assoc, List.append_assoc env.cwd]

/-- The directories at and below `ds` are less than `n` deep. -/
def LessDeep (env : Env F) (fs : Fs) (ds : List Str) (n : Nat) : Prop :=
  ∀ q, fs.isDir (env.cwd ++ ds ++ q) = true → q.length < n

/-- The entries of the directory `ds`, one after the other, where `rm` removes what is below it. -/
theorem rmEntries_calm {rm : Str → Prog F Bool} {f : Str} (hcalm : NothingFails env)
    (hmax : env.spMaxDelete = 0) (hds : ∀ d ∈ ds, IsName d)
    (hf : ∀ name, f ++ '/' :: name = dirStr ds ++ name)
    (hroom : PathsRoom env fs₀ ds)
    (hrm : ∀ c w, IsName c → Extends w.fs fs₀ → w.fs.isDir (env.cwd ++ ds ++ [c]) = true →
      wp (rm (dirStr ds ++ c)) w (fun _ => Erases (env.cwd ++ ds ++ [c]) w) E) :
    ∀ (names : List Str) (w : World F), names.Nodup → Extends w.fs fs₀ →
      w.fs.isDir (env.cwd ++ ds) = true →
      (∀ c ∈ names, IsName c ∧ w.fs.get (env.cwd ++ ds ++ [c]) ≠ none) →
      wp (rmEntries env rm f names) w (fun _ w' => w'.curDir = w.curDir ∧
        ∀ q, w'.fs.get q = if ∃ c ∈ names, env.cwd ++ ds ++ [c] <+: q then none else w.fs.get q)
        E := by
  intro names
  induction names with
  | nil => exact fun w _ _ _ _ => ⟨rfl, fun q => by simp⟩
  | cons c names ih =>
    intro w hnodup hx hdir hthere
    obtain ⟨hnew, hnodup⟩ := List.nodup_cons.mp hnodup
    obtain ⟨hc, hget⟩ := hthere c (List.mem_cons_self ..)
    obtain ⟨n, hn⟩ := Option.ne_none_iff_exists'.mp hget
    have hp := resolve_dirStr hds hdir hc
    have hbuf : (f ++ '/' :: c).take (env.pathMax - 1) = dirStr ds ++ c := by
      have hlen := hroom [c] (by rw [hx _ n hn]; simp)
      rw [dirStr_concat, List.length_append, List.length_singleton] at hlen
      rw [hf]
      exact List.take_of_length_le (by omega)
    -- the first entry goes, and the others are where they were
    have hrest : ∀ w₁ : World F, Erases (env.cwd ++ ds ++ [c]) w w₁ →
        wp (rmEntries env rm f names) w₁ (fun _ w' => w'.curDir = w.curDir ∧
          ∀ q, w'.fs.get q = if ∃ d ∈ c :: names, env.cwd ++ ds ++ [d] <+: q then none
            else w.fs.get q) E := by
      intro w₁ h₁
      have hsame : ∀ q, ¬env.cwd ++ ds ++ [c] <+: q → w₁.fs.get q = w.fs.get q := fun q hq => by
        rw [h₁.get, if_neg hq]
      have hdir₁ : w₁.fs.isDir (env.cwd ++ ds) = true := by
        obtain ⟨k, hk, hkd⟩ := Fs.isDir_iff.mp hdir
        exact Fs.isDir_iff.mpr ⟨k, (hsame _ (not_prefix_self _ _)).trans hk, hkd⟩
      refine wp_mono (ih w₁ hnodup (h₁.extends_.trans hx) hdir₁ fun d hd => ?_) ?_ fun _ _ h => h
      · obtain ⟨hdn, hdget⟩ := hthere d (List.mem_cons_of_mem _ hd)
        refine ⟨hdn, ?_⟩
        rw [hsame _ fun hpre => ?_]
        · exact hdget
        · have heq := List.append_cancel_left (hpre.eq_of_length (by simp))
          exact hnew (List.singleton_inj.mp heq ▸ hd)
      · rintro _ w' ⟨hcur, hall⟩
        refine ⟨hcur.trans h₁.curDir, fun q => ?_⟩
        rw [hall, h₁.get]
        by_cases hq : env.cwd ++ ds ++ [c] <+: q
        · rw [if_pos hq, ite_self, if_pos ⟨c, List.mem_cons_self .., hq⟩]
        · rw [if_neg hq]
          refine if_congr ?_ rfl rfl
          constructor
          · rintro ⟨d, hd, hpre⟩
            exact ⟨d, List.mem_cons_of_mem _ hd, hpre⟩
          · rintro ⟨d, hd, hpre⟩
            rcases List.mem_cons.mp hd with rfl | hd
            · exact absurd hpre hq
            · exact ⟨d, hd, hpre⟩
    unfold rmEntries
    simp only [hbuf]
    refine wp_seq (isDir_calm hcalm hp hn) ?_
    rintro _ _ ⟨rfl, rfl⟩
    rw [wp_ite]
    constructor
    · intro hd
      exact wp_seq (hrm c w.ticked hc hx hd) fun _ w₁ h₁ => hrest w₁ ⟨h₁.curDir, h₁.get⟩
    · intro hd
      rw [Bool.not_eq_true] at hd
      refine wp_seq (rmF_calm hcalm hmax hp hn (by simp)
        fun q hq => Fs.get_below hd hq) ?_
      rintro _ w₁ ⟨-, h₁⟩
      exact hrest w₁ ⟨h₁.curDir, h₁.get⟩

/-- A directory with all that is below it. -/
theorem rmRf_calm (hcalm : NothingFails env) (hmax : env.spMaxDelete = 0) :
    ∀ (stack : Nat) (ds : List Str) (c : Str) (w : World F), Extends w.fs fs₀ →
      (∀ d ∈ ds, IsName d) → IsName c → w.fs.isDir (env.cwd ++ ds ++ [c]) = true →
      PathsRoom env fs₀ (ds ++ [c]) → LessDeep env fs₀ (ds ++ [c]) stack →
      wp (rmRf env stack (dirStr ds ++ c)) w
        (fun ok w' => ok = true ∧ Erases (env.cwd ++ ds ++ [c]) w w') E := by
  have hdirs : ∀ {w : World F} {p : Path}, Extends w.fs fs₀ → w.fs.isDir p = true →
      fs₀.isDir p = true := by
    intro w p hx hd
    obtain ⟨n, hn, hk⟩ := Fs.isDir_iff.mp hd
    exact Fs.isDir_iff.mpr ⟨n, hx _ n hn, hk⟩
  intro stack
  induction stack with
  | zero =>
    intro ds c w hx _ _ hdir _ hdeep
    have h0 := hdeep [] (by rw [List.append_nil, ← List.append_assoc]; exact hdirs hx hdir)
    exact absurd h0 (Nat.not_lt_zero _)
  | succ stack ih =>
    intro ds c w hx hds hc hdir hroom hdeep
    have hup : w.fs.isDir (env.cwd ++ ds) = true := Fs.isDir_prefix hdir
    have hds' : ∀ d ∈ ds ++ [c], IsName d := by
      intro d hd
      rcases List.mem_append.mp hd with hd | hd
      · exact hds d hd
      · rw [List.mem_singleton.mp hd]
        exact hc
    obtain ⟨n, hn, hk⟩ := Fs.isDir_iff.mp hdir
    have hp := resolve_dirStr hds hup hc
    have hread : lookAt env .opendir (some (dirStr ds ++ c)) (readdir env.cwd) w.ticked =
        .ok (w.fs.names (env.cwd ++ ds ++ [c])) := by
      refine lookAt_of_ok (hcalm.fault _ _) ?_
      unfold readdir
      rw [ticked_fs, nodeAt_ok.mpr ⟨resolve_dir true hp hdir, hn⟩]
      simp [hk]
    unfold rmRf
    rw [if_neg (by rw [haveDotdotRef_dirStr hds hc]; simp)]
    refine wp_seq (isDir_calm hcalm hp hn) ?_
    rintro _ _ ⟨rfl, rfl⟩
    rw [if_pos hdir, wp_bind, wp_get, if_neg (by simp [maxDeletes, hmax]), wp_bind, wp_look, hread]
    simp only
    refine wp_seq (rmEntries_calm hcalm hmax hds' (fun name => ?_) hroom
      (fun d w₁ hd hx₁ hdir₁ => ?_) _ w.ticked.ticked (Fs.names_nodup ..) hx ?_
      fun d hd => ⟨Fs.isName_of_mem hd, ?_⟩) ?_
    · rw [dirStr_concat]
      simp
    · -- one directory down
      refine wp_mono (ih (ds ++ [c]) d w₁ hx₁ hds' hd hdir₁ (hroom.below [d]) fun q hq => ?_)
        (fun _ _ h => h.2) fun _ _ h => h
      have hlen := hdeep (d :: q) (by simpa using hq)
      rw [List.length_cons] at hlen
      omega
    · rw [← List.append_assoc]
      exact hdir
    · rw [← List.append_assoc]
      exact Fs.mem_names.mp hd
    · rintro _ w₁ ⟨hcur, hall⟩
      rw [← List.append_assoc] at hall
      have hself : w₁.fs.get (env.cwd ++ ds ++ [c]) = some n := by
        rw [hall, if_neg]
        · exact hn
        · rintro ⟨d, -, hpre⟩
          exact not_prefix_self _ d hpre
      -- all that was below has gone with the entries
      have hbare : ∀ q, q ≠ [] → w₁.fs.get (env.cwd ++ ds ++ [c] ++ q) = none := by
        intro q hq
        obtain ⟨d, t, rfl⟩ := List.exists_cons_of_ne_nil hq
        rw [hall]
        split
        · rfl
        · next hnone =>
          by_contra hthere
          refine hnone ⟨d, Fs.mem_names.mpr fun habs => hthere ?_, t, by simp⟩
          have := Fs.get_absent (q := t) habs
          simpa using this
      have hup₁ : w₁.fs.isDir (env.cwd ++ ds) = true :=
        Fs.isDir_of_get (c := c) (by rw [hself]; simp)
      refine wp_mono (rmF_calm hcalm hmax (resolve_dirStr hds hup₁ hc) hself (by simp) hbare) ?_
        fun _ _ h => h
      rintro ok w₂ ⟨hok, h₂⟩
      refine ⟨hok, h₂.curDir.trans hcur, fun q => ?_⟩
      rw [h₂.get, hall]
      by_cases hq : env.cwd ++ ds ++ [c] <+: q
      · rw [if_pos hq, if_pos hq]
      · rw [if_neg hq, if_neg hq, if_neg]
        · rfl
        · rintro ⟨d, -, hpre⟩
          exact hq ((List.prefix_append _ [d]).trans hpre)

/-! ## `spf_rm` -/

/-- An entry is removed, with all that is below it. -/
theorem spfRm_calm {spf : SpFile} (hcalm : NothingFails env) (hmax : env.spMaxDelete = 0)
    (hdel : env.spDoDelete = true) (h : StandsIn env ds w) (hname : IsName spf.spfName)
    (htype : spf.spfType = .directory ↔ w.fs.isDir (env.cwd ++ ds ++ [spf.spfName]) = true)
    (hthere : w.fs.get (env.cwd ++ ds ++ [spf.spfName]) ≠ none)
    (hroom : PathsRoom env w.fs (ds ++ [spf.spfName]))
    (hdeep : LessDeep env w.fs (ds ++ [spf.spfName]) env.stack) :
    wp (spfRm env spf) w
      (fun ok w' => ok = true ∧ Erases (env.cwd ++ ds ++ [spf.spfName]) w w') E := by
  obtain ⟨n, hn⟩ := Option.ne_none_iff_exists'.mp hthere
  have hlogged : StandsIn env ds (w.logged (.spfRm spf)) := ⟨h.curDir, h.names, h.dir⟩
  have hfull : spfFullName env spf (w.logged (.spfRm spf)) = some (dirStr ds ++ spf.spfName) := by
    unfold spfFullName
    rw [hlogged.curDir]
    refine fullName_of_fits hname.noslash ?_
    have hlen := hroom [] (by rwa [List.append_nil, ← List.append_assoc])
    rw [List.append_nil, dirStr_concat, List.length_append, List.length_append,
      List.length_singleton] at hlen
    omega
  unfold spfRm
  rw [wp_bind, wp_record, if_pos hdel, wp_bind, wp_get, wp_ite, hfull]
  constructor
  · intro hdir
    simp only
    refine wp_mono (rmRf_calm hcalm hmax env.stack ds spf.spfName _ (Extends.refl _) h.names hname
      (htype.mp hdir) hroom hdeep) ?_ fun _ _ h => h
    exact fun _ w' hw' => ⟨hw'.1, hw'.2.curDir, hw'.2.get⟩
  · intro hfile
    have hnodir : w.fs.isDir (env.cwd ++ ds ++ [spf.spfName]) = false := by
      rw [Bool.eq_false_iff, ne_eq, ← htype]
      exact hfile
    refine wp_mono (rmF_calm hcalm hmax (hlogged.resolve hname) hn (by simp)
      fun q hq => Fs.get_below hnodir hq) ?_ fun _ _ h => h
    exact fun _ w' hw' => ⟨hw'.1, hw'.2.curDir, hw'.2.get⟩

end Spegla
