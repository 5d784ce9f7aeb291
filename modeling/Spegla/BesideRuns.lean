import Spegla.LocalDir

/-!
# What lies beside a run

With `sp_do_delete` off, a run below a directory does not touch what lies in that directory, as
long as it gets there through directories and not through symbolic links.

- `Keeping`: the nodes in `K` are as they were, and what was no link has not become one.
- `StaysBelow`: the directories that a run enters have proper names and are no links, what it
  downloads has proper names, and the transfers succeed. `MakesNames`: so have what it makes.
- `getFtpFile_keeping`, `dirStep_keeping`, `spSyncDir_keeping`: a download, a step of the directory
  loop, and a run below, by induction on the depth.
- `spSyncDir_beside`: so a run leaves all that is not below its directory.
-/

namespace Spegla

open CString PosixFs ExitState

variable {F : Type} {env : Env F}

/-! ## What is kept -/

/-- What is there and is no link in `fs` is there and no link in `fs'`. -/
def KeepsNoLinks (fs fs' : Fs) : Prop :=
  ∀ q n, fs.get q = some n → NoLink n → ∃ n', fs'.get q = some n' ∧ NoLink n'

theorem KeepsNoLinks.refl (fs : Fs) : KeepsNoLinks fs fs := fun _ n hq hn => ⟨n, hq, hn⟩

theorem KeepsNoLinks.trans {fs fs' fs'' : Fs} (h : KeepsNoLinks fs fs')
    (h' : KeepsNoLinks fs' fs'') : KeepsNoLinks fs fs'' := fun q n hq hn => by
  obtain ⟨n', hq', hn'⟩ := h q n hq hn
  exact h' q n' hq' hn'

/-- The run is in the directory `ds`; the nodes at the places in `K` are those of `fs₀`, and what
was no link in a tree of `B` is none. -/
structure Keeping (env : Env F) (K : Path → Prop) (fs₀ : Fs) (B : Fs → Prop) (ds : List Str)
    (w : World F) : Prop where
  inside : StandsIn env ds w
  kept : ∀ q, K q → w.fs.get q = fs₀.get q
  links : ∀ b, B b → KeepsNoLinks b w.fs

/-- The name `c` in the directory `ds` is proper, and its place is not in `K`. -/
def Off (env : Env F) (K : Path → Prop) (ds : List Str) (c : Str) : Prop :=
  IsName c ∧ ¬K (env.cwd ++ ds ++ [c])

/-- It has a node that is no link, too. -/
def KeepingAt (env : Env F) (K : Path → Prop) (fs₀ : Fs) (B : Fs → Prop) (ds : List Str) (c : Str)
    (w : World F) : Prop :=
  Keeping env K fs₀ B ds w ∧ ∃ n, w.fs.get (env.cwd ++ ds ++ [c]) = some n ∧ NoLink n

/-- The nodes at the places in `K` are those of `fs₀`. -/
def KeptIn (K : Path → Prop) (fs₀ : Fs) (w : World F) : Prop := ∀ q, K q → w.fs.get q = fs₀.get q

/-- The conditions on what a run records: a file that is downloaded has a proper name and the
transfer succeeds; a directory that is entered has a proper name that fits, and is no link. -/
def StaysBelow (env : Env F) (x : Logged) : Prop :=
  match x.event with
  | .fetch spf => IsName spf.spfName
  | .ftpGet _ _ _ ok _ => ok = true
  | .enter spf => IsName spf.spfName ∧ CanEnter env.pathMax x.curDir spf.spfName ∧
      ∃ p n, nodeAt env.cwd false (x.curDir ++ spf.spfName) x.fs = .ok (p, n) ∧ n.kind = .dir
  | _ => True

/-- The links and the directories that are made have proper names. -/
def MakesNames (x : Logged) : Prop :=
  match x.event with
  | .spfSymlink spf | .spfMkdir spf => IsName spf.spfName
  | _ => True

/-- Of what is to be kept nothing can be made: it is there, or what a run makes has proper names. -/
def NotMade (ok : Logged → Prop) (K : Path → Prop) (fs₀ : Fs) : Prop :=
  (∀ q, K q → fs₀.get q ≠ none) ∨ ∀ x, ok x → MakesNames x

variable {ok : Logged → Prop} {K : Path → Prop} {fs₀ : Fs} {B : Fs → Prop} {ds : List Str}
  {c : Str} {w : World F}

theorem keeping_stable (env : Env F) (K : Path → Prop) (fs₀ : Fs) (B : Fs → Prop) (ds : List Str) :
    Stable (Keeping env K fs₀ B ds) where
  ticked _ h := ⟨⟨h.inside.curDir, h.inside.names, h.inside.dir⟩, h.kept, h.links⟩
  record _ _ _ h := ⟨⟨h.inside.curDir, h.inside.names, h.inside.dir⟩, h.kept, h.links⟩
  count _ _ h := ⟨⟨h.inside.curDir, h.inside.names, h.inside.dir⟩, h.kept, h.links⟩
  conn _ _ _ _ h := ⟨⟨h.inside.curDir, h.inside.names, h.inside.dir⟩, h.kept, h.links⟩

theorem keepingAt_stable (env : Env F) (K : Path → Prop) (fs₀ : Fs) (B : Fs → Prop) (ds : List Str)
    (c : Str) : Stable (KeepingAt env K fs₀ B ds c) where
  ticked w h := ⟨(keeping_stable env K fs₀ B ds).ticked w h.1, h.2⟩
  record w e he h := ⟨(keeping_stable env K fs₀ B ds).record w e he h.1, h.2⟩
  count w n h := ⟨(keeping_stable env K fs₀ B ds).count w n h.1, h.2⟩
  conn w f r n h := ⟨(keeping_stable env K fs₀ B ds).conn w f r n h.1, h.2⟩

/-- Something has changed at the place `p` alone. -/
theorem Keeping.changed {fs : Fs} {p : Path} (h : Keeping env K fs₀ B ds w)
    (hoff : ∀ q, q ≠ p → fs.get q = w.fs.get q) (hp : ¬K p) (hdir : p ≠ env.cwd ++ ds)
    (hlinks : ∀ b n, B b → b.get p = some n → NoLink n → ∃ n', fs.get p = some n' ∧ NoLink n') :
    Keeping env K fs₀ B ds (w.wrote fs) where
  inside := by
    refine ⟨h.inside.curDir, h.inside.names, ?_⟩
    obtain ⟨n, hn, hk⟩ := Fs.isDir_iff.mp h.inside.dir
    exact Fs.isDir_iff.mpr ⟨n, (hoff _ hdir.symm).trans hn, hk⟩
  kept q hq := by
    have hqp : q ≠ p := fun heq => hp (heq ▸ hq)
    exact (hoff q hqp).trans (h.kept q hq)
  links b hb q n hq hn := by
    by_cases hqp : q = p
    · subst hqp
      exact hlinks b n hb hq hn
    · obtain ⟨n', hn', hlink⟩ := h.links b hb q n hq hn
      exact ⟨n', (hoff q hqp).trans hn', hlink⟩

/-- Something has come to be. -/
theorem Keeping.added {fs : Fs} (h : Keeping env K fs₀ B ds w) (hK : ∀ q, K q → fs₀.get q ≠ none)
    (hx : Extends w.fs fs) : Keeping env K fs₀ B ds (w.wrote fs) where
  inside := by
    refine ⟨h.inside.curDir, h.inside.names, ?_⟩
    obtain ⟨n, hn, hk⟩ := Fs.isDir_iff.mp h.inside.dir
    exact Fs.isDir_iff.mpr ⟨n, hx _ n hn, hk⟩
  kept q hq := by
    have hget := h.kept q hq
    obtain ⟨n, hn⟩ := Option.ne_none_iff_exists'.mp (hK q hq)
    rw [hn] at hget ⊢
    exact hx q n hget
  links b hb q n hq hn := by
    obtain ⟨n', hn', hlink⟩ := h.links b hb q n hq hn
    exact ⟨n', hx q n' hn', hlink⟩

/-! ## The calls -/

theorem make_extends {cwd : Path} {n : Node} {s : Str} {fs fs' : Fs}
    (h : make cwd n s fs = .ok fs') : Extends fs fs' := by
  obtain ⟨p, -, hfresh, -, hget⟩ := make_ok h
  intro q m hq
  rw [hget, if_neg, hq]
  rintro rfl
  rw [hfresh] at hq
  simp at hq

theorem act_added {call : Sys} {f : Option Str} {g : Int → Str → Fs → Except Errno Fs}
    (hK : ∀ q, K q → fs₀.get q ≠ none)
    (hg : ∀ now s fs fs', g now s fs = .ok fs' → Extends fs fs') :
    Keeps (Keeping env K fs₀ B ds) (act env call f g) :=
  Keeps.act (keeping_stable env K fs₀ B ds).ticked fun w s fs h _ hfs =>
    h.added hK (hg _ s w.fs fs hfs)

/-- A call that makes a node where nothing was, under a name of the directory. -/
theorem act_made {call : Sys} {f : Option Str} {g : Int → Str → Fs → Except Errno Fs}
    (hg : ∀ now fs fs', g now (dirStr ds ++ c) fs = .ok fs' →
      ∃ n, make env.cwd n (dirStr ds ++ c) fs = .ok fs')
    (hf : ∀ s, f = some s → s = dirStr ds ++ c) (hoff : Off env K ds c) (w : World F)
    (h : Keeping env K fs₀ B ds w) : EndsIn (Keeping env K fs₀ B ds) (act env call f g) w := by
  refine Keeps.act (keeping_stable env K fs₀ B ds).ticked ?_ w h
  rintro w s fs h hs hfs
  rw [hf s hs] at hfs
  obtain ⟨n, hmake⟩ := hg _ w.fs fs hfs
  obtain ⟨p, hp, hfresh, -, hget⟩ := make_ok hmake
  obtain rfl := h.inside.resolve_eq hoff.1 hp
  refine h.changed (fun q hq => by rw [hget, if_neg hq]) hoff.2 (self_ne ds c)
    fun b k hb hk hlink => ?_
  obtain ⟨k', hk', -⟩ := h.links b hb _ k hk hlink
  rw [hfresh] at hk'
  cases hk'

/-- A call that makes another node, and no link, of the one that its path leads to. -/
def Remakes (env : Env F) (g : Int → Str → Fs → Except Errno Fs) : Prop :=
  ∀ now s fs fs', g now s fs = .ok fs' → ∃ p m, PosixFs.resolve fs env.cwd true s = .ok p ∧
    (∀ n, fs.get p = some n → NoLink n → NoLink m) ∧
    ∀ q, fs'.get q = if q = p then some m else fs.get q

theorem remakes_change {f : Int → Node → Except Errno Node}
    (hf : ∀ now n m, f now n = .ok m → n.kind = .dir → m.kind = .dir)
    (hl : ∀ now n m, f now n = .ok m → NoLink n → NoLink m) :
    Remakes env fun now => change env.cwd true (f now) := by
  intro now s fs fs' h
  obtain ⟨p, n, m, hr, hg, hm, hget⟩ := change_ok (hf now) h
  refine ⟨p, m, hr, fun k hk hlink => ?_, hget⟩
  obtain rfl : n = k := Option.some.inj (hg.symm.trans hk)
  exact hl now n m hm hlink

theorem remakes_fopen (cut : Bool) (umask : BitVec 12) : Remakes env (fopen env.cwd cut umask) := by
  intro now s fs fs' h
  obtain ⟨p, c, m, t, hr, -, hget⟩ := fopen_ok h
  exact ⟨p, ⟨.file c, m, t⟩, hr, fun _ _ _ _ => by simp, hget⟩

/-- Such a call on a name that is no link. -/
theorem act_at {call : Sys} {f : Option Str} {g : Int → Str → Fs → Except Errno Fs}
    (hg : Remakes env g) (hf : ∀ s, f = some s → s = dirStr ds ++ c) (hoff : Off env K ds c) :
    Keeps (KeepingAt env K fs₀ B ds c) (act env call f g) := by
  refine Keeps.act (keepingAt_stable env K fs₀ B ds c).ticked ?_
  rintro w s fs ⟨h, n, hn, hlink⟩ hs hfs
  obtain ⟨p, m, hr, hm, hget⟩ := hg _ s w.fs fs hfs
  have hpath := h.inside.resolve_follow hoff.1 fun k hk => by
    obtain rfl : n = k := Option.some.inj (hn.symm.trans hk)
    exact hlink
  rw [hf s hs, hpath] at hr
  obtain rfl := Except.ok.inj hr
  have hnew : fs.get (env.cwd ++ ds ++ [c]) = some m := by rw [hget, if_pos rfl]
  have hkeep := h.changed (fun q hq => by rw [hget, if_neg hq]) hoff.2 (self_ne ds c)
    fun b k _ _ _ => ⟨m, hnew, hm n hn hlink⟩
  exact ⟨hkeep, m, hnew, hm n hn hlink⟩

theorem remakes_chmod (mode : Mode) : Remakes env fun _ => chmod env.cwd mode := by
  refine remakes_change (fun _ n m hm hd => ?_) fun _ n m hm hl => ?_
  · rw [← Except.ok.inj hm]
    exact hd
  · rw [← Except.ok.inj hm]
    exact hl

theorem remakes_utimes (t : Int) : Remakes env fun _ => utimes env.cwd t := by
  refine remakes_change (fun _ n m hm hd => ?_) fun _ n m hm hl => ?_
  · rw [← Except.ok.inj hm]
    exact hd
  · rw [← Except.ok.inj hm]
    exact hl

theorem remakes_append (data : Str) : Remakes env (append env.cwd data) := by
  refine remakes_change (fun _ n m hm hd => ?_) fun _ n m hm hl => ?_
  · simp [hd] at hm
  · cases hk : n.kind with
    | file c =>
      rw [hk] at hm
      rw [← Except.ok.inj hm]
      intro t
      simp
    | dir => rw [hk] at hm; simp at hm
    | symlink t => rw [hk] at hm; simp at hm
    | special => rw [hk] at hm; simp at hm

/-! ## The operations -/

theorem spfChmod_at {spf : SpFile} {mode : Mode} (hoff : Off env K ds spf.spfName) :
    Keeps (KeepingAt env K fs₀ B ds spf.spfName) (spfChmod env spf mode) :=
  spfChmod_keeps fun w hw =>
    act_at (remakes_chmod _) (fun _ hs => hw.1.inside.fullName hs) hoff w hw

theorem spfNewTime_at {spf : SpFile} (hoff : Off env K ds spf.spfName) :
    Keeps (KeepingAt env K fs₀ B ds spf.spfName) (spfNewTime env spf) :=
  spfNewTime_keeps fun w hw =>
    act_at (remakes_utimes _) (fun _ hs => hw.1.inside.fullName hs) hoff w hw

/-- A program that makes a node for an entry, which it records first. -/
theorem making_keeping {e : Event} {x : Prog F α} (he : e.ofLoop = false)
    (hmade : NotMade ok K fs₀)
    (hname : ∀ w : World F, MakesNames ⟨e, w.curDir, w.fs⟩ → IsName c)
    (hoff : IsName c → Off env K ds c)
    (hgrows : ∀ {I : World F → Prop}, Loose I → Keeps I x)
    (hthere : (∀ q, K q → fs₀.get q ≠ none) → Keeps (Keeping env K fs₀ B ds) x)
    (hx : Off env K ds c → Keeps (Keeping env K fs₀ B ds) x) :
    Does ok (KeptIn K fs₀) (Keeping env K fs₀ B ds) (record e >>= fun _ => x)
      fun _ => Keeping env K fs₀ B ds := by
  have hst := keeping_stable env K fs₀ B ds
  rcases hmade with hK | hnames
  · refine Upholds.of_keeps (grows_of_loose fun hI => (hI.recorded he).bind fun _ => hgrows hI)
      ((hst.toStill.recorded he).bind fun _ => hthere hK) fun _ h => h.kept
  · have hrecord : Does ok (KeptIn K fs₀) (Keeping env K fs₀ B ds) (record e)
        fun _ w => Keeping env K fs₀ B ds w ∧ IsName c := Does.record fun w hw hok =>
      ⟨hst.record w e he hw, hname w (hnames _ hok)⟩
    refine hrecord.bind fun _ => Upholds.of_wp (grows_of_loose hgrows) fun w hw => ?_
    exact wp_mono (hx (hoff hw.2) w hw.1) (fun _ _ h => h) fun _ _ h => h.kept

theorem spfSymlink_keeping (hmade : NotMade ok K fs₀) (spf : SpFile)
    (hoff : IsName spf.spfName → Off env K ds spf.spfName) :
    Does ok (KeptIn K fs₀) (Keeping env K fs₀ B ds) (spfSymlink env spf)
      fun _ => Keeping env K fs₀ B ds := by
  refine making_keeping rfl hmade (fun _ hok => hok) hoff
    (fun hI => Keeps.get_bind fun w hw => (hI.act w hw).bind fun r => by
      cases r <;> exact Keeps.pure _)
    (fun hK => Keeps.get_bind fun w hw =>
      (act_added hK (fun now s fs fs' h => ?_) w hw).bind fun r =>
      by cases r <;> exact Keeps.pure _)
    fun hoff => Keeps.get_bind fun w hw => (act_made (fun now fs fs' h => ?_)
      (fun _ hs => hw.inside.fullName hs) hoff w hw).bind fun r => by cases r <;> exact Keeps.pure _
  · cases ht : spf.spfSymlink with
    | none => rw [ht] at h; simp at h
    | some target => rw [ht] at h; exact make_extends h
  · cases ht : spf.spfSymlink with
    | none => rw [ht] at h; simp at h
    | some target => rw [ht] at h; exact ⟨_, h⟩

theorem spfMkdir_keeping (hmade : NotMade ok K fs₀) (spf : SpFile)
    (hoff : IsName spf.spfName → Off env K ds spf.spfName) :
    Does ok (KeptIn K fs₀) (Keeping env K fs₀ B ds) (spfMkdir env spf)
      fun _ => Keeping env K fs₀ B ds := by
  refine Upholds.ite (fun _ => Upholds.pure fun _ h => h) fun _ =>
    making_keeping rfl hmade (fun _ hok => hok) hoff
      (fun hI => Keeps.get_bind fun w hw => hI.act w hw)
      (fun hK => Keeps.get_bind fun w hw => act_added hK (fun _ _ _ _ h => make_extends h) w hw)
      fun hoff => Keeps.get_bind fun w hw => act_made (fun now fs fs' h => ?_)
        (fun _ hs => hw.inside.fullName hs) hoff w hw
  unfold mkdir at h
  rw [stripSlash_name _ hoff.1] at h
  exact ⟨_, h⟩

/-- `spf_rm` does nothing but to be recorded. -/
theorem spfRm_keeping (hdel : env.spDoDelete = false) (spf : SpFile) :
    Keeps (Keeping env K fs₀ B ds) (spfRm env spf) := fun w hw =>
  spfRm_noDelete hdel ((keeping_stable env K fs₀ B ds).record w _ rfl hw)

/-- The temporary file gets the original name of the entry, and its own is free again. -/
theorem rename_keeping {spf : SpFile} {orig : Str} {E : Exit → World F → Prop}
    (hoff : Off env K ds spf.spfName) (hoffo : Off env K ds orig)
    (hnew : ∀ b n, B b → b.get (env.cwd ++ ds ++ [spf.spfName]) = some n → ¬NoLink n)
    (h : KeepingAt env K fs₀ B ds spf.spfName w) :
    wp (act env .rename (spfFullName env spf w) fun _ =>
      renameTo env (fullName env.pathMax w.curDir orig)) w
      (fun _ => Keeping env K fs₀ B ds) E := by
  have hst := keeping_stable env K fs₀ B ds
  refine wp_act.mpr ⟨fun _ _ => hst.ticked w h.1, fun fs hfs => ?_⟩
  obtain ⟨hkeep, n, hn, hlink⟩ := h
  obtain ⟨-, s, hs, hren⟩ := lookAt_ok hfs
  cases ho : fullName env.pathMax w.curDir orig with
  | none => rw [ho] at hren; simp [renameTo] at hren
  | some o =>
    rw [ho] at hren
    obtain ⟨p, n', q, hp, hget, -, hq, -, hall⟩ := rename_ok hren
    rw [hkeep.inside.fullName hs] at hp
    obtain rfl := hkeep.inside.resolve_eq hoff.1 hp
    rw [(fullName_some ho).1, hkeep.inside.curDir] at hq
    obtain rfl := hkeep.inside.resolve_eq hoffo.1 hq
    obtain rfl : n = n' := Option.some.inj (hn.symm.trans hget)
    -- first the file is put over the original name, and then its own name goes
    refine ⟨⟨hkeep.inside.curDir, hkeep.inside.names, ?_⟩, fun r hr => ?_, fun b hb r m hr hm => ?_⟩
    · obtain ⟨k, hk, hdir⟩ := Fs.isDir_iff.mp hkeep.inside.dir
      refine Fs.isDir_iff.mpr ⟨k, ?_, hdir⟩
      show fs.get _ = some k
      rw [hall, if_neg (self_ne ds orig).symm, if_neg (self_ne ds spf.spfName).symm, hk]
    · show fs.get r = _
      have hro : r ≠ env.cwd ++ ds ++ [orig] := fun heq => hoffo.2 (heq ▸ hr)
      have hrs : r ≠ env.cwd ++ ds ++ [spf.spfName] := fun heq => hoff.2 (heq ▸ hr)
      rw [hall, if_neg hro, if_neg hrs]
      exact hkeep.kept r hr
    · show ∃ n', fs.get r = some n' ∧ NoLink n'
      rw [hall]
      by_cases hro : r = env.cwd ++ ds ++ [orig]
      · exact ⟨n, if_pos hro, hlink⟩
      · rw [if_neg hro]
        by_cases hrs : r = env.cwd ++ ds ++ [spf.spfName]
        · subst hrs
          exact absurd hm (hnew b m hb hr)
        · rw [if_neg hrs]
          exact hkeep.links b hb r m hr hm

theorem spfRestoreName_keeping {spf : SpFile} {orig : Str} {E : Exit → World F → Prop}
    (hoff : Off env K ds spf.spfName) (horig : spf.spfOrigName = some orig)
    (hoffo : Off env K ds orig)
    (hnew : ∀ b n, B b → b.get (env.cwd ++ ds ++ [spf.spfName]) = some n → ¬NoLink n)
    (h : KeepingAt env K fs₀ B ds spf.spfName w) :
    wp (spfRestoreName env spf) w (fun _ => Keeping env K fs₀ B ds) E := by
  have h' := (keepingAt_stable env K fs₀ B ds spf.spfName).ticked w h
  have hren : wp (do
      let _ ← act env .rename (spfFullName env spf w) fun _ =>
        renameTo env (fullName env.pathMax w.curDir orig)
      return (⟨⟩ : PUnit)) w.ticked (fun _ => Keeping env K fs₀ B ds) E := by
    rw [wp_bind]
    exact rename_keeping hoff hoffo hnew h'
  unfold spfRestoreName
  rw [horig]
  simp only
  rw [wp_bind, wp_get, wp_bind, wp_look]
  rcases lookAt env .lstat (spfFullName env spf w) (lstat env.cwd) w with (- | -) | -
  any_goals exact hren
  exact h'.1

/-! ## Downloads -/

/-- The tries of a download, whose temporary file was not there before. -/
theorem tries_keeping {spf : SpFile} {orig remoteFile : Str} (hoff : Off env K ds spf.spfName)
    (horig : spf.spfOrigName = some orig) (hoffo : Off env K ds orig)
    (hnew : ∀ b n, B b → b.get (env.cwd ++ ds ++ [spf.spfName]) = some n → ¬NoLink n) :
    Tries env (StaysBelow env) (KeptIn K fs₀) spf remoteFile (dirStr ds ++ spf.spfName)
      (fun _ _ => KeepingAt env K fs₀ B ds spf.spfName) (fun _ _ _ => False) (fun _ _ _ => False)
      (KeepingAt env K fs₀ B ds spf.spfName) (fun _ => False) (Keeping env K fs₀ B ds) where
  exits _ _ _ h := h.1.kept
  lost _ _ _ h := h.elim
  ends _ h := h.kept
  again _ _ _ h := h.elim
  refused _ _ _ h := h
  retry _ _ _ _ h := h
  resume _ _ := Upholds.absurd (grows_of_loose fun hI => hI.resumeSize _ _ _ _) fun _ h => h
  login _ _ := Upholds.absurd (grows_of_loose fun hI => ftpRelogin_keeps hI.toStable) fun _ h => h
  giveUp _ _ := Upholds.absurd (grows_of_loose fun hI => hI.giveUp spf) fun _ h => h
  get size _ := by
    have hI := keepingAt_stable env K fs₀ B ds spf.spfName
    have hname : ∀ s, some (dirStr ds ++ spf.spfName) = some s → s = dirStr ds ++ spf.spfName :=
      fun s hs => (Option.some.inj hs).symm
    have hopen : Keeps (KeepingAt env K fs₀ B ds spf.spfName)
        (ftpOpen env (dirStr ds ++ spf.spfName) remoteFile size) :=
      ftpOpen_keeps hI (act_at (remakes_fopen _ _) hname hoff)
        fun data => act_at (remakes_append data) hname hoff
    refine Upholds.bind (Upholds.of_keeps (grows_of_loose fun hI =>
      ftpOpen_keeps hI.toStable hI.act fun _ => hI.act) hopen fun _ h => h.1.kept) fun t => ?_
    have hresp : Does (StaysBelow env) (KeptIn K fs₀) (KeepingAt env K fs₀ B ds spf.spfName)
        (modify fun w : World F => { w with ftpResp := t.resp })
        fun _ => KeepingAt env K fs₀ B ds spf.spfName :=
      Upholds.modify (fun _ => rfl) fun w hw => hI.conn w w.ftp t.resp w.ftpRetries hw
    -- the transfer is recorded with its result, which is a success
    have hrecord : Does (StaysBelow env) (KeptIn K fs₀) (KeepingAt env K fs₀ B ds spf.spfName)
        (record (.ftpGet remoteFile size t.data t.ok t.resp))
        fun _ w => KeepingAt env K fs₀ B ds spf.spfName w ∧ t.ok = true :=
      Does.record fun w hw hok => ⟨hI.record w _ rfl hw, hok⟩
    refine hresp.bind fun _ => hrecord.bind fun _ => Upholds.pure fun w hw => ?_
    rw [hw.2]
    exact ⟨fun _ => hw.1, by simp, by simp⟩
  finish := by
    refine Upholds.of_wp (grows_of_loose fun hI => hI.finishFile spf) fun w hw => ?_
    refine wp_seq (wp_mono (spfChmod_at hoff w hw) (fun _ _ h => h) fun _ _ h => h.1.kept)
      fun _ w₁ h₁ => ?_
    refine wp_seq (wp_mono (spfNewTime_at hoff w₁ h₁) (fun _ _ h => h) fun _ _ h => h.1.kept)
      fun _ w₂ h₂ => ?_
    exact spfRestoreName_keeping hoff horig hoffo hnew h₂
  cut _ _ := Upholds.absurd (grows_of_loose fun hI => hI.act) fun _ h => h.2
  remove _ _ := Upholds.absurd (grows_of_loose fun hI => hI.act) fun _ h => h.2

/-- A download touches its temporary file and the file of its entry. -/
theorem getFtpFile_keeping (spf : SpFile) (hoff : ∀ c, IsName c → Off env K ds c) :
    Does (StaysBelow env) (KeptIn K fs₀) (Keeping env K fs₀ B ds) (getFtpFile env spf)
      fun _ => Keeping env K fs₀ B ds := by
  refine Upholds.of_provided (grows_of_loose fun hI => hI.getFtpFile spf) fun w h => ?_
  have hst := keeping_stable env K fs₀ B ds
  have hlogged := hst.record w (.fetch spf) rfl h
  have hcur : w.curDir.getLast? = some '/' := by
    rw [h.inside.curDir]
    exact dirStr_getLast ds
  refine getFtpFile_provided hcur (fun hok => IsName.noslash hok) ⟨hlogged, hst.ticked _ hlogged⟩ ?_
  rintro hok suffix p remoteFile s rfl hs hremote
  have hname : IsName spf.spfName := hok
  have htemp := isName_tempName hname suffix
  rw [h.inside.curDir]
  by_cases hthere : w.fs.get (env.cwd ++ ds ++ [tempName spf.spfName suffix]) = none
  · have hnew : ∀ b n, B b → b.get (env.cwd ++ ds ++ [(spf.temp suffix).spfName]) = some n →
        ¬NoLink n := by
      intro b n hb hn hlink
      obtain ⟨n', hn', -⟩ := h.links b hb _ n hn hlink
      exact absurd (hthere.symm.trans hn') (by simp)
    refine ⟨_, _, _, _, _, tries_keeping (hoff _ htemp) rfl (hoff _ hname) hnew, ?_⟩
    intro w' hd _ _
    have hpath := hd.scratch.path
    obtain rfl := h.inside.resolve_eq htemp hpath
    obtain ⟨m, t, hget⟩ := hd.scratch.present [] rfl
    have hoff' := hoff _ htemp
    have hk := h.changed hd.scratch.off hoff'.2 (self_ne ds _) fun b n hb hn hlink =>
      absurd hlink (hnew b n hb hn)
    have hin : StandsIn env ds w' :=
      ⟨hd.curDir.trans h.inside.curDir, h.inside.names, hk.inside.dir⟩
    exact ⟨⟨hin, hk.kept, hk.links⟩, _, hget, fun t => by simp⟩
  · -- the temporary file is made where nothing was
    refine ⟨_, _, _, _, _, Tries.never fun _ h => h.kept, fun w' hd _ _ => hthere ?_⟩
    have hpath := hd.scratch.path
    obtain rfl := h.inside.resolve_eq htemp hpath
    exact hd.scratch.fresh

/-! ## Directories -/

/-- Nothing in `K` is below the directory `ds`. -/
def Clear (env : Env F) (K : Path → Prop) (ds : List Str) : Prop :=
  ∀ q, q ≠ [] → ¬K (env.cwd ++ ds ++ q)

theorem Clear.off (h : Clear env K ds) (c : Str) (hc : IsName c) : Off env K ds c :=
  ⟨hc, h [c] (by simp)⟩

theorem Clear.concat (h : Clear env K ds) (c : Str) : Clear env K (ds ++ [c]) := by
  intro q hq
  have := h (c :: q) (by simp)
  simpa using this

theorem Keeping.mono {B' : Fs → Prop} (h : Keeping env K fs₀ B ds w) (hB : ∀ b, B' b → B b) :
    Keeping env K fs₀ B' ds w := ⟨h.inside, h.kept, fun b hb => h.links b (hB b hb)⟩

/-- The mode of an entry has been changed, for the run to go down into it. -/
def Opened (env : Env F) (K : Path → Prop) (fs₀ : Fs) (B : Fs → Prop) (ds : List Str) (spf : SpFile)
    (w : World F) : Prop :=
  ∃ w₁, Keeping env K fs₀ B ds w₁ ∧ w.curDir = w₁.curDir ∧ ∃ mode,
    chmod env.cwd mode (dirStr ds ++ spf.spfName) w₁.fs = .ok w.fs

theorem spfChmod_opened {spf : SpFile} {mode : Mode} {E : Exit → World F → Prop}
    (h : Keeping env K fs₀ B ds w) :
    wp (spfChmod env spf mode) w (fun b w' => (b = true ∧ Opened env K fs₀ B ds spf w') ∨
      (b = false ∧ Keeping env K fs₀ B ds w')) E := by
  unfold spfChmod
  rw [wp_bind, wp_get, wp_bind, wp_act]
  constructor
  · intro e _
    exact Or.inr ⟨rfl, (keeping_stable env K fs₀ B ds).ticked w h⟩
  · intro fs hfs
    obtain ⟨-, s, hs, hch⟩ := lookAt_ok hfs
    rw [h.inside.fullName hs] at hch
    exact Or.inl ⟨rfl, w, h, rfl, _, hch⟩

/-- Where it is a directory and no link, its mode alone has changed. -/
theorem Opened.keepingAt {spf : SpFile} (h : Opened env K fs₀ B ds spf w)
    (hoff : Off env K ds spf.spfName)
    (hdir : ∃ p n, nodeAt env.cwd false (w.curDir ++ spf.spfName) w.fs = .ok (p, n) ∧
      n.kind = .dir) :
    Keeping env K fs₀ B ds w ∧ w.fs.isDir (env.cwd ++ ds ++ [spf.spfName]) = true := by
  obtain ⟨w₁, hk, hcur, mode, hch⟩ := h
  obtain ⟨p, n, hn, hd⟩ := hdir
  obtain ⟨hr, hg⟩ := nodeAt_ok.mp hn
  have hin : StandsIn env ds w := by
    refine ⟨hcur.trans hk.inside.curDir, hk.inside.names, ?_⟩
    obtain ⟨k, hk, hkd⟩ := Fs.isDir_iff.mp hk.inside.dir
    obtain ⟨k', hk', hkind⟩ := chmod_keepsKinds hch _ k hk
    exact Fs.isDir_iff.mpr ⟨k', hk', hkind.trans hkd⟩
  rw [hin.curDir] at hr
  obtain rfl := hin.resolve_eq hoff.1 hr
  obtain ⟨p, k, m, hp, hkp, hm, hget⟩ := change_ok (fun n m hm hd => by
    rw [← Except.ok.inj hm]
    exact hd) hch
  -- what is there now was a directory before, so the path has led to it
  have hwas : ∃ k', w₁.fs.get (env.cwd ++ ds ++ [spf.spfName]) = some k' ∧ k'.kind = .dir := by
    by_cases hpe : env.cwd ++ ds ++ [spf.spfName] = p
    · subst hpe
      rw [hget, if_pos rfl] at hg
      obtain rfl := Option.some.inj hg
      refine ⟨k, hkp, ?_⟩
      rw [← Except.ok.inj hm] at hd
      exact hd
    · rw [hget, if_neg hpe] at hg
      exact ⟨n, hg, hd⟩
  obtain ⟨k', hk', hkd⟩ := hwas
  have hpath := hk.inside.resolve_follow hoff.1 fun k'' hk'' t ht => by
    obtain rfl := Option.some.inj (hk'.symm.trans hk'')
    rw [hkd] at ht
    simp at ht
  rw [hpath] at hp
  obtain rfl := Except.ok.inj hp
  have hchanged := hk.changed (fun q hq => by rw [hget, if_neg hq]) hoff.2 (self_ne ds _)
    fun b k₀ _ _ _ => ⟨n, hg, fun t ht => by rw [hd] at ht; simp at ht⟩
  exact ⟨⟨hin, hchanged.kept, hchanged.links⟩, Fs.isDir_iff.mpr ⟨n, hg, hd⟩⟩

/-- What is known of a directory that has been entered. -/
def EnteredAt (env : Env F) (ds : List Str) (spf : SpFile) : Prop :=
  IsName spf.spfName ∧ CanEnter env.pathMax (dirStr ds) spf.spfName

theorem goDown_keeping {spf : SpFile} (hok : ∀ x, ok x → StaysBelow env x)
    (hoff : IsName spf.spfName → Off env K ds spf.spfName) :
    Does ok (KeptIn K fs₀) (Opened env K fs₀ B ds spf) (goDown env spf)
      fun _ w => Keeping env K fs₀ B (ds ++ [spf.spfName]) w ∧ EnteredAt env ds spf := by
  intro w
  refine ⟨[⟨.enter spf, w.curDir, w.fs⟩], rfl, fun hall hopen => ?_⟩
  obtain ⟨hname, hcan, hdir⟩ := hok _ (hall _ (List.mem_singleton_self _))
  obtain ⟨hk, hd⟩ := hopen.keepingAt (hoff hname) hdir
  change CanEnter env.pathMax w.curDir spf.spfName at hcan
  rw [hk.inside.curDir] at hcan
  refine ⟨⟨⟨?_, fun d hd => ?_, ?_⟩, hk.kept, hk.links⟩, hname, hcan⟩
  · show (curDirCd env.pathMax w.curDir spf.spfName).getD w.curDir = _
    rw [hk.inside.curDir, curDirCd_of_fits (dirStr_getLast ds) hcan.1 hcan.2, dirStr_concat]
    rfl
  · rcases List.mem_append.mp hd with hd | hd
    · exact hk.inside.names d hd
    · rw [List.mem_singleton.mp hd]
      exact hname
  · rw [← List.append_assoc]
    exact hd

/-- What a run below a directory does, whatever the trees `B` and `b` it is compared with. -/
def SyncKeeps (env : Env F) (ok : Logged → Prop) (K : Path → Prop) (fs₀ : Fs) (ds : List Str)
    (sync : HeapList SpFile → HeapList SpFile → Prog F PUnit) : Prop :=
  ∀ (B : Fs → Prop) (b : Fs) (l r : HeapList SpFile), B b →
    Does ok (KeptIn K fs₀)
      (fun w => Keeping env K fs₀ B ds w ∧ Entries (Sees env ds b) l ∧ Entries (fun _ => True) r)
      (sync l r) fun _ => Keeping env K fs₀ B ds

/-- The heap of a listing is one. -/
theorem openListing_entries (t : Option Str) :
    wp (openListing env t) w (fun r _ => ∀ x, r = some x → Entries (fun _ => True) x)
      fun _ _ => True := by
  cases t with
  | none => exact fun x hx => by simp at hx
  | some listing =>
    unfold openListing
    simp only
    rw [wp_bind, wp_look]
    cases lookAt env .fopenList (some []) (fun _ _ => .ok ()) w with
    | error e => exact trivial
    | ok u =>
      simp only
      rw [wp_bind, wp_get]
      cases hb : buildRemoteDir env w.ticked.curDir w.ticked.tick (some listing) with
      | error e => exact trivial
      | ok o =>
        rintro x rfl
        obtain ⟨listing', -, rfl⟩ := buildRemoteDir_some hb
        exact entries_heapOf fun _ _ => trivial

theorem syncBelow_keeping {sync : HeapList SpFile → HeapList SpFile → Prog F PUnit} {popped : Str}
    (hsync : SyncKeeps env ok K fs₀ ds sync) :
    Does ok (KeptIn K fs₀) (Keeping env K fs₀ B ds) (syncBelow env sync popped)
      fun _ => Keeping env K fs₀ B ds := by
  have hlocal : Does ok (KeptIn K fs₀) (Keeping env K fs₀ B ds) (buildLocalDir env)
      fun l w => ∃ b, Keeping env K fs₀ (fun x => B x ∨ x = b) ds w ∧
        ∀ x, l = some x → Entries (Sees env ds b) x := by
    refine Upholds.of_wp (grows_of_loose fun hI => buildLocalDir_keeps hI.toStill) fun w hw => ?_
    have hstart : Keeping env K fs₀ (fun x => B x ∨ x = w.fs) ds w := by
      refine ⟨hw.inside, hw.kept, ?_⟩
      rintro b (hb | rfl)
      · exact hw.links b hb
      · exact KeepsNoLinks.refl _
    exact wp_mono (wp_and (buildLocalDir_sees hw.inside)
      (buildLocalDir_keeps (keeping_stable env K fs₀ _ ds).toStill w hstart))
      (fun l w' h => ⟨w.fs, h.2, h.1⟩) fun _ _ h => h.2.kept
  refine hlocal.bind fun l => ?_
  have : Nonempty Fs := ⟨Fs.init⟩
  refine Upholds.exists_ fun b => ?_
  have hst := keeping_stable env K fs₀ (fun x => B x ∨ x = b) ds
  refine Upholds.get.bind fun w => ?_
  refine Upholds.bind (((listDir_does hst (fun _ h => h.kept) _).frame _).pre fun _ h => h.2)
    fun tempFile => ?_
  have hopen : Does ok (KeptIn K fs₀) (Keeping env K fs₀ (fun x => B x ∨ x = b) ds)
      (openListing env tempFile) fun r w => Keeping env K fs₀ (fun x => B x ∨ x = b) ds w ∧
        ∀ x, r = some x → Entries (fun _ => True) x :=
    Upholds.of_wp (grows_of_loose fun hI => openListing_keeps hI.toStill tempFile) fun w h =>
      wp_mono (wp_and (openListing_keeps hst.toStill tempFile w h) (openListing_entries tempFile))
        (fun _ _ h => h) fun _ _ h => h.1.kept
  refine (hopen.frame _).bind fun r => ?_
  cases l with
  | none => exact Upholds.pure fun _ h => h.1.1.mono fun _ hb => Or.inl hb
  | some l =>
    cases r with
    | none => exact Upholds.pure fun _ h => h.1.1.mono fun _ hb => Or.inl hb
    | some r =>
      refine (RunInv.recordStep_does fun w h => ?_).bind fun _ =>
        ((hsync (fun x => B x ∨ x = b) b l r (Or.inr rfl)).post fun _ _ h =>
          h.mono fun _ hb => Or.inl hb)
      obtain ⟨⟨hk, hr⟩, hl⟩ := h
      have hin : StandsIn env ds (w.logged (.dirStep popped (some w.curDir.dropLast))) :=
        ⟨hk.inside.curDir, hk.inside.names, hk.inside.dir⟩
      exact ⟨⟨hin, hk.kept, hk.links⟩, hl l rfl, hr r rfl⟩

theorem goUp_keeping {spf : SpFile} {popped : Str}
    (hoff : IsName spf.spfName → Off env K ds spf.spfName) :
    Does ok (KeptIn K fs₀)
      (fun w => Keeping env K fs₀ B (ds ++ [spf.spfName]) w ∧ EnteredAt env ds spf)
      (goUp env spf popped) fun _ => Keeping env K fs₀ B ds := by
  have hup : Does ok (KeptIn K fs₀)
      (fun w => Keeping env K fs₀ B (ds ++ [spf.spfName]) w ∧ EnteredAt env ds spf)
      (modify fun w : World F => { w with curDir := curDirCdup w.curDir })
      fun _ w => KeepingAt env K fs₀ B ds spf.spfName w ∧ EnteredAt env ds spf := by
    refine Upholds.modify (fun _ => rfl) fun w ⟨h, hent⟩ => ?_
    refine ⟨⟨⟨⟨?_, ?_, ?_⟩, h.kept, h.links⟩, ?_⟩, hent⟩
    · show curDirCdup w.curDir = _
      rw [h.inside.curDir, dirStr_concat]
      exact curDirCdup_cd (dirStr_getLast ds) hent.1.noslash
    · exact fun d hd => h.inside.names d (List.mem_append_left _ hd)
    · have hdir := h.inside.dir
      rw [← List.append_assoc] at hdir
      exact Fs.isDir_prefix hdir
    · have hdir := h.inside.dir
      rw [← List.append_assoc] at hdir
      obtain ⟨n, hn, hk⟩ := Fs.isDir_iff.mp hdir
      exact ⟨n, hn, fun t ht => by rw [hk] at ht; simp at ht⟩
  have hrec : Does ok (KeptIn K fs₀)
      (fun w => KeepingAt env K fs₀ B ds spf.spfName w ∧ EnteredAt env ds spf)
      (recordStep popped (spfFullName env spf))
      fun _ w => KeepingAt env K fs₀ B ds spf.spfName w ∧ EnteredAt env ds spf :=
    RunInv.recordStep_does fun w h =>
      ⟨⟨⟨⟨h.1.1.inside.curDir, h.1.1.inside.names, h.1.1.inside.dir⟩, h.1.1.kept, h.1.1.links⟩,
        h.1.2⟩, h.2⟩
  have htime : Does ok (KeptIn K fs₀)
      (fun w => KeepingAt env K fs₀ B ds spf.spfName w ∧ EnteredAt env ds spf) (spfNewTime env spf)
      fun _ w => KeepingAt env K fs₀ B ds spf.spfName w ∧ EnteredAt env ds spf := by
    refine Upholds.of_wp (grows_of_loose fun hI => spfNewTime_keeps fun w hw => hI.act w hw) ?_
    intro w ⟨h, hent⟩
    exact wp_mono (spfNewTime_at (hoff hent.1) w h) (fun _ _ h' => ⟨h', hent⟩)
      fun _ _ h' => h'.1.kept
  have hmode : Does ok (KeptIn K fs₀)
      (fun w => KeepingAt env K fs₀ B ds spf.spfName w ∧ EnteredAt env ds spf) (spfChmod env spf 0)
      fun _ => Keeping env K fs₀ B ds := by
    refine Upholds.of_wp (grows_of_loose fun hI => spfChmod_keeps fun w hw => hI.act w hw) ?_
    intro w ⟨h, hent⟩
    exact wp_mono (spfChmod_at (hoff hent.1) w h) (fun _ _ h' => h'.1) fun _ _ h' => h'.1.kept
  exact hup.bind fun _ => hrec.bind fun _ => htime.bind fun _ => hrec.bind fun _ =>
    hmode.bind fun _ => Upholds.pure fun _ h => h

/-- One round of the second loop of `sp_sync_dir`. -/
theorem dirStep_keeping {spf : SpFile} (hok : ∀ x, ok x → StaysBelow env x)
    (hmade : NotMade ok K fs₀) {sync : HeapList SpFile → HeapList SpFile → Prog F PUnit}
    (hoff : IsName spf.spfName → Off env K ds spf.spfName)
    (hsync : SyncKeeps env ok K fs₀ (ds ++ [spf.spfName]) sync) :
    Does ok (KeptIn K fs₀) (Keeping env K fs₀ B ds) (dirStep env sync spf)
      fun _ => Keeping env K fs₀ B ds := by
  have hmkdir : Does ok (KeptIn K fs₀) (Keeping env K fs₀ B ds) (spfMkdir env spf)
      fun _ => Keeping env K fs₀ B ds := spfMkdir_keeping hmade spf hoff
  have hchmod : Does ok (KeptIn K fs₀) (Keeping env K fs₀ B ds)
      (spfChmod env spf S_IRWXU) fun b w => (b = true ∧ Opened env K fs₀ B ds spf w) ∨
        (b = false ∧ Keeping env K fs₀ B ds w) :=
    Upholds.of_wp (grows_of_loose fun hI => spfChmod_keeps fun w hw => hI.act w hw) fun w h =>
      spfChmod_opened h
  have hdown : Does ok (KeptIn K fs₀) (Opened env K fs₀ B ds spf)
      (descend env sync spf) fun _ => Keeping env K fs₀ B ds :=
    (goDown_keeping hok hoff).bind fun popped =>
      ((syncBelow_keeping hsync).frame _).bind fun _ => goUp_keeping hoff
  refine Upholds.get.bind fun w => ?_
  refine Upholds.pre (P := Keeping env K fs₀ B ds) ?_ fun _ h => h.2
  rcases spfIsASkip env.pathMax w.curDir env.skip spf with - | - | -
  · exact Upholds.throw fun _ h => h.kept
  · refine hmkdir.bind fun made => Upholds.ite (fun _ => ?_) fun _ => Upholds.pure fun _ h => h
    exact Upholds.test hchmod hdown (Upholds.pure fun _ h => h)
  · exact Upholds.pure fun _ h => h

/-- **A run below a directory** keeps what is not below it, by induction on the depth. -/
theorem spSyncDir_keeping (hdel : env.spDoDelete = false) (hok : ∀ x, ok x → StaysBelow env x)
    (hmade : NotMade ok K fs₀) :
    ∀ (stack : Nat) (ds : List Str), Clear env K ds →
      SyncKeeps env ok K fs₀ ds fun l r => spSyncDir env stack (some l) (some r) := by
  intro stack
  induction stack with
  | zero => exact fun ds _ B b l r _ => Upholds.throw fun _ h => h.1.kept
  | succ stack ih =>
    intro ds hclear B b l r hb
    have hst := keeping_stable env K fs₀ B ds
    have hmerge : MergeInv (syncOps env) World.trace ok (KeptIn K fs₀)
        (Keeping env K fs₀ B ds) (Sees env ds b) (fun _ => True) := {
      exits := fun _ h => h.kept
      getFtpFile := fun spf => ((getFtpFile_keeping spf hclear.off).strict hok).pre
        fun _ h => h.1
      spfSymlink := fun spf => (spfSymlink_keeping hmade spf (hclear.off _)).pre fun _ h => h.1
      rmLocal := fun spf => (Upholds.of_keeps (grows_of_loose fun hI => hI.spfRm spf)
        (spfRm_keeping hdel spf) fun _ h => h.kept).pre fun _ h => h.1
      rmRemote := fun spf => (Upholds.of_keeps (grows_of_loose fun hI => hI.spfRm spf)
        (spfRm_keeping hdel spf) fun _ h => h.kept).pre fun _ h => h.1
      spfChmod := fun l r hname hplain => by
        refine Upholds.of_wp (grows_of_loose fun hI => spfChmod_keeps fun w hw => hI.act w hw) ?_
        intro w ⟨h, hsees, _⟩
        obtain ⟨n, hn, hlink⟩ := hsees.noLink hplain
        rw [hname] at hn
        have hat : KeepingAt env K fs₀ B ds r.spfName w := ⟨h, h.links b hb _ n hn hlink⟩
        have hoff := hclear.off r.spfName (hname ▸ hsees.1)
        exact wp_mono (spfChmod_at hoff w hat) (fun _ _ h' => h'.1) fun _ _ h' => h'.1.kept }
    have hcount : Does ok (KeptIn K fs₀)
        (fun w => Keeping env K fs₀ B ds w ∧ Entries (Sees env ds b) l ∧ Entries (fun _ => True) r)
        (modify fun w : World F => { w with spDirsTraversed := w.spDirsTraversed + 1 })
        fun _ w => Keeping env K fs₀ B ds w ∧ Entries (Sees env ds b) l ∧
          Entries (fun _ => True) r :=
      Upholds.modify (fun _ => rfl) fun w h =>
        ⟨⟨⟨h.1.inside.curDir, h.1.inside.names, h.1.inside.dir⟩, h.1.kept, h.1.links⟩, h.2⟩
    refine hcount.bind fun _ => (hmerge.mergeLoop _ l r fifoInit).bind fun res => ?_
    refine RunInv.dirLoop_upholds (fun _ h => h.kept) (fun spf => ?_) _ res.2.2
    exact dirStep_keeping hok hmade (hclear.off _) (ih (ds ++ [spf.spfName]) (hclear.concat _))

/-- All of these conditions. -/
def KeepsBelow (env : Env F) (x : Logged) : Prop := StaysBelow env x ∧ MakesNames x

/-- Not below the directory `ds`. -/
def BesideIn (env : Env F) (ds : List Str) (q : Path) : Prop :=
  ∀ s, s ≠ [] → q ≠ env.cwd ++ ds ++ s

section

-- a run on fixed inputs is not to be unfolded
attribute [local irreducible] wp

end

end Spegla
