import Spegla.Names
import Spegla.NoDelete
import Spegla.Removing

/-!
# Files to be skipped

The patterns keep what is to be skipped out of the two listings that are compared, and so out of
what the comparison removes. `rm_rf`, which removes a directory with all that is in it, does not
look at them.

- `Matched`: a pattern matches the path of a name, from the root of the mirror.
- `Spared`: whatever matches a pattern and was there at first is there still, in every tree since.
- `RemovesNone`: where a run goes through directories under proper names, and no directory that
  is to be removed has something to be skipped below it.
- `mirror_spares`: such a run spares what is to be skipped; `mirror_spares_not`: one that removes
  a directory does not.
-/

namespace Spegla

open CString PosixFs ExitState

variable {F : Type} {env : Env F}

/-! ## What is to be spared -/

/-- A pattern matches the path of the name `c` in the directory `ds`. -/
def Matched (env : Env F) (ds : List Str) (c : Str) : Prop :=
  ∃ sps ∈ env.skip, sps ((dirStr ds ++ c).drop 1) = true

/-- Something is at `q` in the tree `fs`, under a path that a pattern matches. -/
def Guarded (env : Env F) (fs : Fs) (q : Path) : Prop :=
  fs.get q ≠ none ∧ ∃ ds c, q = env.cwd ++ ds ++ [c] ∧ Matched env ds c

/-- What is guarded in the tree `fs₀` is there in `fs`. -/
def SparedIn (env : Env F) (fs₀ fs : Fs) : Prop := ∀ q, Guarded env fs₀ q → fs.get q ≠ none

/-- Nothing that is guarded has been removed since the state `w₀`. -/
structure Spared (env : Env F) (w₀ w : World F) : Prop where
  now : SparedIn env w₀.fs w.fs
  hist : ∀ fs ∈ w.hist, fs ∈ w₀.hist ∨ SparedIn env w₀.fs fs

/-- The run is in the directory `ds`, which no symbolic link leads to. -/
structure StandsIn (env : Env F) (ds : List Str) (w : World F) : Prop where
  curDir : w.curDir = dirStr ds
  names : ∀ d ∈ ds, IsName d
  dir : w.fs.isDir (env.cwd ++ ds) = true

/-- In the directory `ds` with everything spared. -/
def SparedInside (env : Env F) (w₀ : World F) (ds : List Str) (w : World F) : Prop :=
  StandsIn env ds w ∧ Spared env w₀ w

/-- Below the path `f` nothing has a path that a pattern matches. -/
def NoneBelow (env : Env F) (f : Str) (fs : Fs) : Prop :=
  ∀ p q, resolve fs env.cwd false f = .ok p → q ≠ [] → fs.get (p ++ q) ≠ none →
    ∀ sps ∈ env.skip, sps ((f ++ PosixFs.below q).drop 1) = false

/-- The conditions on what a run records: a file that is downloaded and an entry that is removed
have proper names; a directory that is removed has nothing to be skipped below it, and only paths
that fit; a directory that is entered has a proper name that fits, and is no link. -/
def RemovesNone (env : Env F) (x : Logged) : Prop :=
  match x.event with
  | .fetch spf => IsName spf.spfName
  | .spfRm spf => IsName spf.spfName ∧ (env.spDoDelete = true → spf.spfType = .directory →
      PathsFit env (x.curDir ++ spf.spfName) x.fs ∧ NoneBelow env (x.curDir ++ spf.spfName) x.fs)
  | .enter spf => IsName spf.spfName ∧ CanEnter env.pathMax x.curDir spf.spfName ∧
      ∃ p n, nodeAt env.cwd false (x.curDir ++ spf.spfName) x.fs = .ok (p, n) ∧ n.kind = .dir
  | _ => True

variable {w₀ w : World F} {ds : List Str}

/-! ## Paths in a directory -/

/-- A name in a directory that no link leads to. -/
theorem StandsIn.resolve (h : StandsIn env ds w) {c : Str} (hc : IsName c) :
    resolve w.fs env.cwd false (dirStr ds ++ c) = .ok (env.cwd ++ ds ++ [c]) := by
  have hslash : ∀ d ∈ ds, '/' ∉ d := fun d hd => (h.names d hd).noslash
  have hwalk : walk w.fs false symloopMax env.cwd (ds ++ [c]) = .ok (env.cwd ++ ds ++ [c]) :=
    walk_name h.names h.dir hc (Or.inl rfl) symloopMax
  unfold PosixFs.resolve
  rw [if_neg (by simp [dirStr]), components_dirStr ds c hslash hc.noslash]
  exact hwalk

/-- What a string names is at one place. -/
theorem StandsIn.resolve_eq (h : StandsIn env ds w) {c : Str} (hc : IsName c) {p : Path}
    (hp : PosixFs.resolve w.fs env.cwd false (dirStr ds ++ c) = .ok p) : p = env.cwd ++ ds ++ [c] :=
  Except.ok.inj (hp.symm.trans (h.resolve hc))

theorem dirStr_append (ds : List Str) (q : Path) (c e : Str) :
    dirStr (ds ++ c :: q) ++ e = dirStr ds ++ c ++ PosixFs.below (q ++ [e]) := by
  induction q generalizing ds c with
  | nil => rw [dirStr_concat]; simp [PosixFs.below]
  | cons d q ih =>
    have hsplit : ds ++ c :: d :: q = (ds ++ [c]) ++ d :: q := by simp
    rw [hsplit, ih, dirStr_concat]
    simp [PosixFs.below]

/-- The directory that a run is in, and those above it, are at or below none of its names. -/
theorem not_prefix_self (p : Path) (c : Str) : ¬p ++ [c] <+: p := by
  intro h
  have hlen := h.length_le
  rw [List.length_append, List.length_singleton] at hlen
  omega

/-! ## What the calls lose -/

/-- A call that loses nothing that is guarded, nor the directory. -/
theorem SparedInside.loses {B : Path → Prop} {fs : Fs} (h : SparedInside env w₀ ds w)
    (hl : LosesOnly B w.fs fs) (hB : ∀ q, B q → ¬Guarded env w₀.fs q)
    (hdir : ¬B (env.cwd ++ ds)) : SparedInside env w₀ ds (w.wrote fs) := by
  have hnow : SparedIn env w₀.fs fs := by
    intro q hq
    obtain ⟨n, hn⟩ := Option.ne_none_iff_exists'.mp (h.2.now q hq)
    obtain ⟨n', hn', -⟩ := hl q n hn fun hb => hB q hb hq
    rw [hn']
    simp
  refine ⟨⟨h.1.curDir, h.1.names, ?_⟩, hnow, fun fs' hfs' => ?_⟩
  · obtain ⟨n, hn, hk⟩ := Fs.isDir_iff.mp h.1.dir
    obtain ⟨n', hn', hk'⟩ := hl _ n hn hdir
    exact Fs.isDir_iff.mpr ⟨n', hn', hk' hk⟩
  · rcases List.mem_cons.mp hfs' with rfl | hfs'
    · exact Or.inr hnow
    · exact h.2.hist fs' hfs'

theorem sparedInside_stable (env : Env F) (w₀ : World F) (ds : List Str) :
    Stable (SparedInside env w₀ ds) where
  ticked _ h := ⟨⟨h.1.curDir, h.1.names, h.1.dir⟩, h.2.now, h.2.hist⟩
  record _ _ _ h := ⟨⟨h.1.curDir, h.1.names, h.1.dir⟩, h.2.now, h.2.hist⟩
  count _ _ h := ⟨⟨h.1.curDir, h.1.names, h.1.dir⟩, h.2.now, h.2.hist⟩
  conn _ _ _ _ h := ⟨⟨h.1.curDir, h.1.names, h.1.dir⟩, h.2.now, h.2.hist⟩

/-- A call that loses nothing at all. -/
theorem act_spared {call : Sys} {f : Option Str} {g : Int → Str → Fs → Except Errno Fs}
    (hg : ∀ now s fs fs', g now s fs = .ok fs' → LosesOnly (fun _ => False) fs fs') :
    Keeps (SparedInside env w₀ ds) (act env call f g) :=
  Keeps.act (sparedInside_stable env w₀ ds).ticked fun w s fs h _ hfs =>
    h.loses (hg _ s w.fs fs hfs) (fun _ hb => hb.elim) id

/-- The place of the name `c` in the directory `ds` may be lost. -/
def Free (env : Env F) (fs₀ : Fs) (ds : List Str) (c : Str) : Prop :=
  IsName c ∧ ¬Guarded env fs₀ (env.cwd ++ ds ++ [c])

/-- A call that loses what its path names, where that may be lost. -/
theorem act_free {call : Sys} {f : Option Str} {g : Int → Str → Fs → Except Errno Fs} {c : Str}
    (hg : ∀ now s fs fs', g now s fs = .ok fs' →
      ∃ p, PosixFs.resolve fs env.cwd false s = .ok p ∧ LosesOnly (· = p) fs fs')
    (hf : ∀ s, f = some s → s = dirStr ds ++ c) (hfree : Free env w₀.fs ds c) :
    Keeps (SparedInside env w₀ ds) (act env call f g) := by
  refine Keeps.act (sparedInside_stable env w₀ ds).ticked fun w s fs h hs hfs => ?_
  obtain ⟨p, hp, hl⟩ := hg _ s w.fs fs hfs
  rw [hf s hs] at hp
  obtain rfl := h.1.resolve_eq hfree.1 hp
  refine h.loses hl (fun q hq => ?_) fun hself => ?_
  · rw [hq]
    exact hfree.2
  · have := congrArg List.length hself
    simp at this

/-- A call that loses nothing guarded, whether its path is a null pointer or not. -/
theorem rmF_spared {f : Option Str} {c : Str} (hf : ∀ s, f = some s → s = dirStr ds ++ c)
    (hfree : Free env w₀.fs ds c) : Keeps (SparedInside env w₀ ds) (rmF env f) :=
  rmF_keeps (sparedInside_stable env w₀ ds).toStill
    (act_free (fun _ _ _ _ h => rmdir_loses h) hf hfree)
    (act_free (fun _ _ _ _ h => unlink_loses h) hf hfree)

/-! ## What is removed -/

/-- The full name of an entry in the directory. -/
theorem StandsIn.fullName (h : StandsIn env ds w) {spf : SpFile} {s : Str}
    (hs : spfFullName env spf w = some s) : s = dirStr ds ++ spf.spfName := by
  unfold spfFullName at hs
  rw [h.curDir] at hs
  exact (fullName_some hs).1

/-- The path of a name does not end in a slash. -/
theorem stripSlash_name (s : Str) (hc : IsName c) :
    (if (s ++ c).all (· = '/') then s ++ c
      else ((s ++ c).reverse.dropWhile (· = '/')).reverse) = s ++ c := by
  obtain ⟨p, x, rfl⟩ := List.eq_nil_or_concat c |>.resolve_left hc.ne_nil
  have hx : x ≠ '/' := fun hx => hc.noslash (by simp [hx])
  simp [hx]

/-- `spf_rm` of what is no directory. -/
theorem spfRm_spared {spf : SpFile} (htype : spf.spfType ≠ .directory)
    (hfree : Free env w₀.fs ds spf.spfName) : Keeps (SparedInside env w₀ ds) (spfRm env spf) := by
  refine ((sparedInside_stable env w₀ ds).recorded rfl).bind fun _ => ?_
  refine Keeps.ite (fun _ => Keeps.get_bind fun w hw => ?_) fun _ => Keeps.pure _
  rw [if_neg htype]
  exact rmF_spared (fun s hs => hw.1.fullName hs) hfree w hw

/-- Where no pattern matches the name of an entry, its place is free. -/
theorem free_of_not_matched {c : Str} {fs : Fs} (hc : IsName c) (hm : ¬Matched env ds c) :
    Free env fs ds c := by
  refine ⟨hc, ?_⟩
  rintro ⟨-, ds', c', heq, hm'⟩
  have hsplit := List.append_inj' heq rfl
  obtain rfl := List.append_cancel_left hsplit.1
  obtain rfl : c = c' := by simpa using hsplit.2
  exact hm hm'

/-- The trees that a removal goes through have what it leaves. -/
def Shrinks (w w' : World F) : Prop := ∀ fs ∈ w'.hist, fs ∈ w.hist ∨ Extends w'.fs fs

theorem shrinks_still (w : World F) : Still (Shrinks w) where
  ticked _ h := h
  record _ _ _ h := h
  count _ _ h := h

theorem act_shrinks {call : Sys} {f : Option Str} {g : Int → Str → Fs → Except Errno Fs}
    (hg : ∀ now s fs fs', g now s fs = .ok fs' → Extends fs' fs) :
    Keeps (Shrinks w) (act env call f g) := by
  refine Keeps.act (shrinks_still w).ticked fun w₁ s fs h _ hfs fs' hfs' => ?_
  have hx := hg _ s w₁.fs fs hfs
  rcases List.mem_cons.mp hfs' with rfl | hfs'
  · exact Or.inr (Extends.refl _)
  · exact (h fs' hfs').imp_right fun h => hx.trans h

theorem spfRm_shrinks (spf : SpFile) : Keeps (Shrinks w) (spfRm env spf) := by
  refine spfRm_keeps (shrinks_still w) (fun f => rmF_keeps (shrinks_still w) ?_ ?_) spf
  · refine act_shrinks fun _ s fs fs' h q n hq => ?_
    obtain ⟨p, -, -, -, -, -, hget⟩ := rmdir_ok h
    rw [hget] at hq
    split at hq
    · simp at hq
    · exact hq
  · refine act_shrinks fun _ s fs fs' h q n hq => ?_
    obtain ⟨p, -, -, -, -, hget⟩ := unlink_ok h
    rw [hget] at hq
    split at hq
    · simp at hq
    · exact hq

/-- At a directory without anything to be skipped below it nothing is guarded. -/
theorem not_guarded_atOrBelow {f c : Str} (h : SparedInside env w₀ ds w)
    (hfree : Free env w₀.fs ds c) (hf : f = dirStr ds ++ c) (hnone : NoneBelow env f w.fs)
    {q : Path} (hq : AtOrBelow env f w.fs q) : ¬Guarded env w₀.fs q := by
  intro hguard
  obtain ⟨p, hp, r, rfl⟩ := hq
  have hpath := hp
  rw [hf] at hpath
  obtain rfl := h.1.resolve_eq hfree.1 hpath
  rcases List.eq_nil_or_concat r with rfl | ⟨r, e, rfl⟩
  · rw [List.append_nil] at hguard
    exact hfree.2 hguard
  · obtain ⟨ds', c', heq, sps, hsps, hmatch⟩ := hguard.2
    have hsplit : env.cwd ++ (ds ++ c :: r) ++ [e] = env.cwd ++ ds' ++ [c'] := by
      rw [← heq]
      simp
    have hlast := List.append_inj' hsplit rfl
    obtain rfl := List.append_cancel_left hlast.1
    obtain rfl : e = c' := by simpa using hlast.2
    have hfalse := hnone _ (r.concat e) hp (by simp) (h.2.now _ hguard) sps hsps
    rw [List.concat_eq_append, hf, ← dirStr_append, hmatch] at hfalse
    simp at hfalse

/-- What `spf_rm` of a directory takes away is not guarded. -/
theorem spfRm_dir_wp {spf : SpFile} (h : SparedInside env w₀ ds w)
    (htype : spf.spfType = .directory) (hfree : Free env w₀.fs ds spf.spfName)
    (hok : RemovesNone env ⟨.spfRm spf, w.curDir, w.fs⟩) :
    wp (spfRm env spf) w (fun _ => SparedInside env w₀ ds) fun _ => Spared env w₀ := by
  have hlogged := (sparedInside_stable env w₀ ds).record w (.spfRm spf) rfl h
  by_cases hdel : env.spDoDelete = true
  swap
  · unfold spfRm
    rw [wp_bind, wp_record, wp_ite]
    exact ⟨fun hd => absurd hd hdel, fun _ => hlogged⟩
  cases hname : spfFullName env spf w with
  | none =>
    have hnone : spfFullName env spf (w.logged (.spfRm spf)) = none := hname
    unfold spfRm
    rw [wp_bind, wp_record, if_pos hdel, wp_bind, wp_get, if_pos htype, hnone]
    exact hlogged.2
  | some f =>
    obtain ⟨hfit, hnone⟩ := hok.2 hdel htype
    have hf := h.1.fullName hname
    have hpath : w.curDir ++ spf.spfName = f := by rw [hf, h.1.curDir]
    have hfull : fullName env.pathMax w.curDir spf.spfName = some f := hname
    change PathsFit env (w.curDir ++ spf.spfName) w.fs at hfit
    change NoneBelow env (w.curDir ++ spf.spfName) w.fs at hnone
    rw [hpath] at hfit hnone
    -- what is lost is at or below the removed directory, where no name is guarded
    have hkeep : ∀ w', LosesOnly (AtOrBelow env f w.fs) w.fs w'.fs → Shrinks w w' →
        w'.curDir = w.curDir → SparedInside env w₀ ds w' := by
      intro w' hl hsh hcur
      have hB := fun q (hq : AtOrBelow env f w.fs q) =>
        not_guarded_atOrBelow h hfree hf hnone hq
      have hdir : ¬AtOrBelow env f w.fs (env.cwd ++ ds) := by
        rintro ⟨p, hp, hpre⟩
        rw [hf] at hp
        obtain rfl := h.1.resolve_eq hfree.1 hp
        exact not_prefix_self _ _ hpre
      have hw := h.loses hl hB hdir
      refine ⟨⟨hcur.trans h.1.curDir, h.1.names, hw.1.dir⟩, hw.2.now, fun fs hfs => ?_⟩
      rcases hsh fs hfs with hfs | hx
      · exact h.2.hist fs hfs
      · refine Or.inr fun q hq => ?_
        obtain ⟨n, hn⟩ := Option.ne_none_iff_exists'.mp (hw.2.now q hq)
        rw [hx q n hn]
        simp
    have hcurDir : Keeps (fun w' : World F => w'.curDir = w.curDir) (spfRm env spf) :=
      spfRm_keeps ⟨fun _ h => h, fun _ _ _ h => h, fun _ _ h => h⟩ (fun f =>
        rmF_keeps ⟨fun _ h => h, fun _ _ _ h => h, fun _ _ h => h⟩
          (Keeps.act (fun _ h => h) fun _ _ _ h _ _ => h)
          (Keeps.act (fun _ h => h) fun _ _ _ h _ _ => h)) spf
    refine wp_mono (wp_and (spfRm_loses hfull hfit) (wp_and
      (spfRm_shrinks (w := w) spf w fun fs hfs => Or.inl hfs) (hcurDir w rfl))) ?_ ?_
    · rintro _ w' ⟨hl, hsh, hcur⟩
      exact hkeep w' hl hsh hcur
    · rintro _ w' ⟨hl, hsh, hcur⟩
      exact (hkeep w' hl hsh hcur).2

/-- `spf_rm`, of whatever type the entry is. -/
theorem spfRm_upholds {spf : SpFile} (hfree : IsName spf.spfName → Free env w₀.fs ds spf.spfName) :
    Does (RemovesNone env) (Spared env w₀) (SparedInside env w₀ ds) (spfRm env spf)
      fun _ => SparedInside env w₀ ds := by
  -- the call is recorded first, and its record may be assumed to meet the condition
  have hrecord : Does (RemovesNone env) (Spared env w₀) (SparedInside env w₀ ds)
      (record (.spfRm spf)) fun _ s => ∃ w, s = w.logged (.spfRm spf) ∧ SparedInside env w₀ ds w ∧
        RemovesNone env ⟨.spfRm spf, w.curDir, w.fs⟩ :=
    Does.record fun w hw hok => ⟨w, rfl, hw, hok⟩
  refine hrecord.bind fun _ => ?_
  refine Upholds.of_wp (grows_of_loose fun hI => ?_) ?_
  · refine Keeps.ite (fun _ => Keeps.get.bind fun w => Keeps.ite (fun _ => ?_) fun _ => hI.rmF _)
      fun _ => Keeps.pure _
    cases spfFullName env spf w with
    | none => exact Keeps.throw _
    | some f => exact rmRf_keeps hI.toStill hI.rmF _ f
  · rintro _ ⟨w, rfl, hw, hok⟩
    by_cases htype : spf.spfType = .directory
    · exact spfRm_dir_wp hw htype (hfree hok.1) hok
    · exact wp_mono (spfRm_spared htype (hfree hok.1) w hw) (fun _ _ h => h)
        fun _ _ h => h.2

/-! ## Downloads -/

theorem spfRestoreName_spared {spf : SpFile} (hfree : Free env w₀.fs ds spf.spfName) :
    Keeps (SparedInside env w₀ ds) (spfRestoreName env spf) := by
  refine spfRestoreName_keeps (sparedInside_stable env w₀ ds).toStill fun w orig hw _ => ?_
  refine act_free (fun _ s fs fs' h => ?_) (fun s hs => hw.1.fullName hs) hfree _
    ((sparedInside_stable env w₀ ds).ticked w hw)
  cases ho : fullName env.pathMax w.curDir orig with
  | none => rw [ho] at h; simp [renameTo] at h
  | some o =>
    rw [ho] at h
    exact rename_loses h

theorem spfChmod_spared (spf : SpFile) (mode : Mode) :
    Keeps (SparedInside env w₀ ds) (spfChmod env spf mode) :=
  spfChmod_keeps fun w hw => act_spared (fun _ _ _ _ h => (chmod_keepsKinds h).losesOnly) w hw

theorem spfNewTime_spared (spf : SpFile) : Keeps (SparedInside env w₀ ds) (spfNewTime env spf) :=
  spfNewTime_keeps fun w hw => act_spared (fun _ _ _ _ h => (utimes_keepsKinds h).losesOnly) w hw

/-- A plain file loses its content at most. -/
theorem truncate_loses {cwd : Path} {now : Int} {s : Str} {fs fs' : Fs}
    (h : truncate cwd now s fs = .ok fs') : LosesOnly (fun _ => False) fs fs' := by
  refine change_loses (fun n m hm hd => ?_) h
  simp [hd] at hm

theorem append_loses {cwd : Path} {data : Str} {now : Int} {s : Str} {fs fs' : Fs}
    (h : append cwd data now s fs = .ok fs') : LosesOnly (fun _ => False) fs fs' := by
  refine change_loses (fun n m hm hd => ?_) h
  simp [hd] at hm

/-- The tries of a download, whose temporary file was not there at first. -/
theorem tries_spared {spf : SpFile} {c : Str} (hfree : Free env w₀.fs ds spf.spfName)
    (hremote : Free env w₀.fs ds c) :
    Tries env (RemovesNone env) (Spared env w₀) spf (dirStr ds ++ c) (dirStr ds ++ spf.spfName)
      (fun _ _ => SparedInside env w₀ ds) (fun _ _ => SparedInside env w₀ ds)
      (fun _ _ => SparedInside env w₀ ds) (SparedInside env w₀ ds) (fun _ => True)
      (SparedInside env w₀ ds) where
  exits _ _ _ h := h.2
  lost _ _ _ h := h.2
  ends _ h := h.2
  again _ _ _ h := h
  refused _ _ _ h := h
  retry _ _ w n h := (sparedInside_stable env w₀ ds).conn w w.ftp w.ftpResp n h
  resume size erased := by
    have hI := sparedInside_stable env w₀ ds
    refine Upholds.ite (fun _ => Upholds.pure fun _ h => h) fun _ => ?_
    refine Upholds.bind (Upholds.of_keeps (grows_of_loose fun hI => hI.look) hI.look fun _ h => h.2)
      fun r => Upholds.ite (fun _ => ?_) fun _ => Upholds.pure fun _ h => h
    exact (spfRm_upholds fun _ => hfree).bind fun _ => Upholds.pure fun _ h => h
  login _ _ := Upholds.of_keeps (grows_of_loose fun hI => ftpRelogin_keeps hI.toStable)
    (ftpRelogin_keeps (sparedInside_stable env w₀ ds)) fun _ h => h.2
  giveUp _ _ := by
    have hI := sparedInside_stable env w₀ ds
    refine (Does.record fun w h _ => hI.record w _ rfl h).bind fun _ => ?_
    refine (spfRm_upholds fun _ => hfree).bind fun _ => ?_
    exact Upholds.of_keeps (grows_of_loose fun hI => hI.spfRestoreName spf)
      (spfRestoreName_spared hfree) fun _ h => h.2
  get _ _ := by
    refine (Upholds.of_keeps (grows_of_loose fun hI => hI.ftpGet _ _ _)
      (ftpGet_keeps (sparedInside_stable env w₀ ds) (act_spared fun _ _ _ _ h => fopen_loses h)
        fun _ => act_spared fun _ _ _ _ h => append_loses h) fun _ h => h.2).post fun _ _ h => ?_
    exact ⟨fun _ => h, fun _ _ => h, fun _ _ => ⟨h, trivial⟩⟩
  finish := Upholds.of_keeps (grows_of_loose fun hI => hI.finishFile spf)
    ((spfChmod_spared spf 0).bind fun _ => (spfNewTime_spared spf).bind fun _ =>
      spfRestoreName_spared hfree) fun _ h => h.2
  cut _ _ := (Upholds.of_keeps (grows_of_loose fun hI => hI.act)
    (act_spared fun _ _ _ _ h => truncate_loses h) fun _ h => h.2).frame True
  remove _ _ := (Upholds.of_keeps (grows_of_loose fun hI => hI.act)
    (act_free (fun _ _ _ _ h => unlink_loses h) (fun s hs => (Option.some.inj hs).symm) hremote)
      fun _ h => h.2).pre fun _ h => h.1

theorem isName_tempName {name : Str} (h : IsName name) (suffix : TempSuffix) :
    IsName (tempName name suffix) where
  ne_nil := by simp [tempName]
  ne_dot := by simp [tempName]
  ne_dotdot := by simp [tempName]
  noslash := tempName_noslash h.noslash suffix

/-- A download takes away nothing but its temporary file, and what it is to replace. -/
theorem getFtpFile_spared (spf : SpFile) :
    Does (RemovesNone env) (Spared env w₀)
      (fun w => SparedInside env w₀ ds w ∧ ¬Matched env ds spf.spfName) (getFtpFile env spf)
      fun _ => SparedInside env w₀ ds := by
  refine Upholds.of_provided (grows_of_loose fun hI => hI.getFtpFile spf) fun w ⟨h, hm⟩ => ?_
  have hst := sparedInside_stable env w₀ ds
  have hlogged := hst.record w (.fetch spf) rfl h
  have hcur : w.curDir.getLast? = some '/' := by
    rw [h.1.curDir]
    exact dirStr_getLast ds
  refine getFtpFile_provided hcur (fun hok => IsName.noslash hok) ⟨hlogged, hst.ticked _ hlogged⟩ ?_
  rintro hok suffix p remoteFile s rfl hs hremote
  have hname : IsName spf.spfName := hok
  have htemp := isName_tempName hname suffix
  obtain rfl : remoteFile = dirStr ds ++ spf.spfName := h.1.fullName hremote
  rw [h.1.curDir]
  by_cases hthere : w.fs.get (env.cwd ++ ds ++ [tempName spf.spfName suffix]) = none
  · -- nothing guarded was there, or it would be there still
    have hfree : Free env w₀.fs ds (tempName spf.spfName suffix) :=
      ⟨htemp, fun hguard => h.2.now _ hguard hthere⟩
    have hremote : Free env w₀.fs ds spf.spfName := free_of_not_matched hname hm
    refine ⟨_, _, _, _, _, tries_spared hfree hremote, fun w' hd _ _ => ?_⟩
    have hl : LosesOnly (fun _ => False) w.fs w'.fs := fun q n hq _ =>
      ⟨n, hd.scratch.extends_ q n hq, id⟩
    have hw := h.loses hl (fun _ hb => hb.elim) id
    refine ⟨⟨hd.curDir.trans h.1.curDir, h.1.names, hw.1.dir⟩, hw.2.now, fun fs hfs => ?_⟩
    rcases hd.hist fs hfs with hfs | ⟨c, hs⟩
    · exact h.2.hist fs hfs
    · refine Or.inr fun q hq => ?_
      obtain ⟨n, hn⟩ := Option.ne_none_iff_exists'.mp (h.2.now q hq)
      rw [hs.extends_ q n hn]
      simp
  · -- the temporary file is made where nothing was
    refine ⟨_, _, _, _, _, Tries.never fun _ h => h.2, fun w' hd _ _ => hthere ?_⟩
    have hpath := hd.scratch.path
    obtain rfl := h.1.resolve_eq htemp hpath
    exact hd.scratch.fresh

/-! ## Whole runs -/

/-- The condition on an entry that no pattern matches. -/
theorem not_matched_of_skip {spf : SpFile}
    (h : spfIsASkip env.pathMax (dirStr ds) env.skip spf = some false) :
    ¬Matched env ds spf.spfName := by
  rintro ⟨sps, hsps, hmatch⟩
  obtain ⟨p, hp, hfalse⟩ := spfIsASkip_false h sps hsps
  rw [(fullName_some hp).1, hmatch] at hfalse
  simp at hfalse

theorem spared_runInv (env : Env F) (w₀ : World F) :
    RunInv env (RemovesNone env) (Spared env w₀) (SparedInside env w₀)
      (fun ds spf => ¬Matched env ds spf.spfName)
      (fun ds spf => IsName spf.spfName ∧ CanEnter env.pathMax (dirStr ds) spf.spfName)
      (fun ds spf => ds ++ [spf.spfName]) := by
  have hkeeps : ∀ {x : Prog F Bool} (ds : List Str), (∀ {I : World F → Prop}, Loose I → Keeps I x) →
      Keeps (SparedInside env w₀ ds) x →
      Does (RemovesNone env) (Spared env w₀) (SparedInside env w₀ ds) x fun _ =>
        SparedInside env w₀ ds := fun ds hg hx =>
    Upholds.of_keeps (grows_of_loose hg) hx fun _ h => h.2
  exact {
    still := fun ds => (sparedInside_stable env w₀ ds).toStill
    traversed := fun ds w _ h => ⟨⟨h.1.curDir, h.1.names, h.1.dir⟩, h.2.now, h.2.hist⟩
    exits := fun _ _ h => h.2
    notSkip := fun ds w spf h hskip => not_matched_of_skip (h.1.curDir ▸ hskip)
    listDir := fun ds => listDir_does (sparedInside_stable env w₀ ds) fun _ h => h.2
    getFtpFile := fun ds spf => getFtpFile_spared spf
    spfRm := fun ds spf => by
      by_cases hm : Matched env ds spf.spfName
      · exact Upholds.absurd (grows_of_loose fun hI => hI.spfRm spf) fun _ h => h.2 hm
      · exact (spfRm_upholds fun hname => free_of_not_matched hname hm).pre fun _ h => h.1
    spfSymlink := fun ds spf => hkeeps ds
      (fun hI => spfSymlink_keeps hI.toStill fun w hw => hI.act w hw)
      (spfSymlink_keeps (sparedInside_stable env w₀ ds).toStill fun w hw =>
        act_spared (fun now s fs fs' h => by
          cases ht : spf.spfSymlink with
          | none => rw [ht] at h; simp at h
          | some target => rw [ht] at h; exact make_loses h) w hw)
    spfMkdir := fun ds spf => Upholds.of_keeps
      (grows_of_loose fun hI => spfMkdir_keeps hI.toStill fun w hw => hI.act w hw)
      (spfMkdir_keeps (sparedInside_stable env w₀ ds).toStill fun w hw =>
        act_spared (fun _ _ _ _ h => make_loses h) w hw) fun _ h => h.2
    spfChmod := fun ds spf mode => hkeeps ds (fun hI => spfChmod_keeps fun w hw => hI.act w hw)
      (spfChmod_spared spf mode)
    spfNewTime := fun ds spf => hkeeps ds (fun hI => spfNewTime_keeps fun w hw => hI.act w hw)
      (spfNewTime_spared spf)
    -- the directory that is entered is a real one, so the path follows the names
    enter := fun ds spf w h hok => by
      obtain ⟨hname, hcan, p, n, hn, hk⟩ := hok
      obtain ⟨hp, hget⟩ := nodeAt_ok.mp hn
      change CanEnter env.pathMax w.curDir spf.spfName at hcan
      change resolve w.fs env.cwd false (w.curDir ++ spf.spfName) = .ok p at hp
      rw [h.1.curDir] at hp hcan
      obtain rfl := h.1.resolve_eq hname hp
      refine ⟨⟨hname, hcan⟩, ⟨?_, ?_, ?_⟩, h.2.now, h.2.hist⟩
      · show (curDirCd env.pathMax w.curDir spf.spfName).getD w.curDir = _
        rw [h.1.curDir, curDirCd_of_fits (dirStr_getLast ds) hcan.1 hcan.2, dirStr_concat]
        rfl
      · intro d hd
        rcases List.mem_append.mp hd with hd | hd
        · exact h.1.names d hd
        · rw [List.mem_singleton.mp hd]
          exact hname
      · rw [← List.append_assoc]
        exact Fs.isDir_iff.mpr ⟨n, hget, hk⟩
    below := fun ds spf w₁ w _ _ h => ⟨⟨h.1.curDir, h.1.names, h.1.dir⟩, h.2.now, h.2.hist⟩
    leave := fun ds spf w hent h => by
      refine ⟨⟨?_, fun d hd => h.1.names d (List.mem_append_left _ hd), ?_⟩, h.2.now, h.2.hist⟩
      · show curDirCdup w.curDir = _
        rw [h.1.curDir, dirStr_concat]
        exact curDirCdup_cd (dirStr_getLast ds) hent.1.noslash
      · have hdir := h.1.dir
        rw [← List.append_assoc] at hdir
        exact Fs.isDir_prefix hdir
    outside := fun ds spf w₁ w _ _ h => ⟨⟨h.1.curDir, h.1.names, h.1.dir⟩, h.2.now, h.2.hist⟩ }

/-- **Files to be skipped.** A run removes nothing whose path a pattern matches, if what it
downloads and removes has proper names, the directories that it removes have nothing to be skipped
below them, and those that it enters have proper names that fit, and are no links. -/
theorem mirror_spares (env : Env F) (listing : Str) (ds : List Str) (w : World F)
    (hcur : w.curDir = dirStr ds) (hds : ∀ d ∈ ds, IsName d)
    (hdir : w.fs.isDir (env.cwd ++ ds) = true) :
    wp (mirror env listing) w
      (fun _ w' => Provided World.trace (RemovesNone env) w w' (Spared env w w'))
      (fun _ w' => Provided World.trace (RemovesNone env) w w' (Spared env w w')) := by
  have hstart : SparedInside env w ds w :=
    ⟨⟨hcur, hds, hdir⟩, fun _ hq => hq.1, fun _ h => Or.inl h⟩
  exact wp_mono (((spared_runInv env w).mirror_upholds ds listing).run hstart)
    (fun _ _ h => h.mono fun h => h.2) fun _ _ h => h

/-- A pattern for the directory `d` and all that is in it, and one for the file `a` in it alone. -/
def skipD : Env Unit := { calmEnv deadFtp with skip := [fun p => ['/', 'd'].isPrefixOf p] }
def skipDA : Env Unit := { calmEnv deadFtp with skip := [fun p => p = ['/', 'd', '/', 'a']] }

section

-- a run on fixed inputs is not to be unfolded
attribute [local irreducible] wp

theorem mirror_spares_skipD :
    wp (mirror skipD listingA) rootWithD
      (fun _ w' => Provided World.trace (RemovesNone skipD) rootWithD w'
        (Spared skipD rootWithD w'))
      (fun _ w' => Provided World.trace (RemovesNone skipD) rootWithD w'
        (Spared skipD rootWithD w')) :=
  mirror_spares skipD listingA [] rootWithD rfl (by simp) (by decide +kernel)

/-- The directory `d` is not on the server, and is removed with the file in it. -/
theorem mirror_spares_not :
    wp (mirror skipDA listingA) rootWithD (fun _ w' => ¬Spared skipDA rootWithD w')
      fun _ _ => False := by
  have hguard : Guarded skipDA rootWithD.fs [['d'], ['a']] :=
    ⟨by decide +kernel, [['d']], ['a'], rfl, fun p => p = ['/', 'd', '/', 'a'],
      List.mem_singleton_self _, by decide +kernel⟩
  have hrun : wp (mirror skipDA listingA) rootWithD (fun _ w' => w'.fs.get [['d'], ['a']] = none)
      fun _ _ => False := by decide +kernel
  generalize mirror skipDA listingA = run at hrun ⊢
  exact wp_mono hrun (fun _ w' hgone hspared => hspared.now _ hguard hgone) fun _ _ h => h

end

end Spegla
