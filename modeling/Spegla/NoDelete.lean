import Spegla.Runs

/-!
# A run that is not to delete

With `sp_do_delete` off, `spf_rm` does nothing. What is left that could take a local
file away is the end of a download, and making room on a full file system.

- `received`: the content that the transfers of a file have brought, from the record.
- `Left`: whatever was there at first is there still, or a downloaded file in its place.
- `KeepsOff`: where a run stays away from the files that are there: no download of a
  file that is there is given up or meets a full file system, and the names of what is
  downloaded are single components.
- `mirror_left`: such a run leaves every file, in every tree it goes through.
-/

namespace Spegla

open CString PosixFs ExitState

variable {F : Type} {env : Env F}

/-! ## What has been downloaded -/

/-- What the transfers of the file `f` have brought, one after the other, since one was
begun anew. -/
def received (f : Str) : List Logged → Str
  | [] => []
  | x :: tr =>
    match x.event with
    | .ftpGet f' seekto data _ _ =>
      if f' = f then (if seekto = 0 then [] else received f tr) ++ data else received f tr
    | _ => received f tr

/-- Among the events is a call of `ftp_get` that returned 0, with which `d` was
received. -/
def Downloaded (tr : List Logged) (d : Str) : Prop :=
  ∃ x tr' f, x :: tr' <:+ tr ∧ (∃ seekto data resp, x.event = .ftpGet f seekto data true resp) ∧
    received f (x :: tr') = d

theorem Downloaded.mono {tr tr' : List Logged} {d : Str} (h : Downloaded tr d) (htr : tr <:+ tr') :
    Downloaded tr' d := by
  obtain ⟨x, tr₀, f, hx, hget, hd⟩ := h
  exact ⟨x, tr₀, f, hx.trans htr, hget, hd⟩

/-- What was in the tree `fs₀` is in the tree `fs`: the same kind of node with the same
content, or, for anything but a directory, a file that has been downloaded. -/
def Left (fs₀ : Fs) (tr : List Logged) (fs : Fs) : Prop :=
  ∀ p n, fs₀.get p = some n → ∃ n', fs.get p = some n' ∧
    (n'.kind = n.kind ∨ n.kind ≠ .dir ∧ ∃ d, n'.kind = .file d ∧ Downloaded tr d)

variable {fs₀ fs fs' : Fs} {tr tr' : List Logged}

theorem Left.refl (fs : Fs) (tr : List Logged) : Left fs tr fs := fun _ n h => ⟨n, h, Or.inl rfl⟩

theorem Left.mono (h : Left fs₀ tr fs) (htr : tr <:+ tr') : Left fs₀ tr' fs := fun p n hn => by
  obtain ⟨n', hn', hk⟩ := h p n hn
  refine ⟨n', hn', hk.imp_right fun ⟨hd, d, hfile, hdown⟩ => ⟨hd, d, hfile, hdown.mono htr⟩⟩

theorem Left.keepsKinds (h : Left fs₀ tr fs) (hk : KeepsKinds fs fs') : Left fs₀ tr fs' :=
  fun p n hn => by
    obtain ⟨n', hn', hkind⟩ := h p n hn
    obtain ⟨m, hm, hm'⟩ := hk p n' hn'
    exact ⟨m, hm, by rw [hm']; exact hkind⟩

theorem extends_keepsKinds (h : Extends fs fs') : KeepsKinds fs fs' := fun p n hn =>
  ⟨n, h p n hn, rfl⟩

/-! ## The run -/

/-- The run has left what was there in the state `w₀`, in every tree since. -/
structure Leaves (w₀ w : World F) : Prop where
  now : Left w₀.fs w.trace w.fs
  hist : ∀ fs ∈ w.hist, fs ∈ w₀.hist ∨ Left w₀.fs w.trace fs

/-- `cur_dir` is a directory with its slash, or has none. -/
def GoodDir (c : Str) : Prop := c.getLast? = some '/' ∨ '/' ∉ c

/-- Leaving what was there, in a good directory. -/
def LeavesIn (w₀ w : World F) : Prop := Leaves w₀ w ∧ GoodDir w.curDir

/-- The conditions on what a run records. -/
def KeepsOff (env : Env F) (x : Logged) : Prop :=
  match x.event with
  | .fetch spf => '/' ∉ spf.spfName
  | .gaveUp spf => ∀ orig, spf.spfOrigName = some orig → Vacant env.cwd (x.curDir ++ orig) x.fs
  | .ftpGet f _ _ false resp => resp = JFTP_WRITEERR → Vacant env.cwd f x.fs
  | _ => True

variable {w₀ w w₁ : World F}

theorem Leaves.logged (h : Leaves w₀ w) (e : Event) : Leaves w₀ (w.logged e) :=
  ⟨h.now.mono (List.suffix_cons ..), fun fs hfs =>
    (h.hist fs hfs).imp_right fun hl => hl.mono (List.suffix_cons ..)⟩

theorem Leaves.wrote (h : Leaves w₀ w) (hk : KeepsKinds w.fs fs) : Leaves w₀ (w.wrote fs) :=
  ⟨h.now.keepsKinds hk, fun fs' hfs' => by
    rcases List.mem_cons.mp hfs' with rfl | hfs'
    · exact Or.inr (h.now.keepsKinds hk)
    · exact h.hist fs' hfs'⟩

theorem leavesIn_stable (w₀ : World F) : Stable (LeavesIn w₀) where
  ticked _ h := ⟨⟨h.1.now, h.1.hist⟩, h.2⟩
  record _ e _ h := ⟨h.1.logged e, h.2⟩
  count _ _ h := ⟨⟨h.1.now, h.1.hist⟩, h.2⟩
  conn _ _ _ _ h := ⟨⟨h.1.now, h.1.hist⟩, h.2⟩

/-- A call that leaves what is there. -/
theorem act_leaves {call : Sys} {f : Option Str} {g : Int → Str → Fs → Except Errno Fs}
    (hg : ∀ now s fs fs', g now s fs = .ok fs' → KeepsKinds fs fs') (h : LeavesIn w₀ w) :
    EndsIn (LeavesIn w₀) (act env call f g) w :=
  EndsIn.act ((leavesIn_stable w₀).ticked w h) fun s fs _ hfs =>
    ⟨h.1.wrote (hg _ s w.fs fs hfs), h.2⟩

theorem GoodDir.cd {c : Str} (h : GoodDir c) (pathMax : Nat) (name : Str) :
    GoodDir ((curDirCd pathMax c name).getD c) := by
  cases hcd : curDirCd pathMax c name with
  | none => exact h
  | some s =>
    refine Or.inl ?_
    unfold curDirCd at hcd
    split at hcd
    · simp at hcd
    · split at hcd
      · simp at hcd
      · rw [← Option.some.inj hcd]
        exact List.getLast?_concat

theorem GoodDir.cdup (c : Str) : GoodDir (curDirCdup c) := by
  unfold curDirCdup
  split
  · next h => rcases h with rfl | rfl <;> exact Or.inr (by decide)
  · simp only
    generalize (if c.getLast? = some '/' then c.dropLast else c) = c'
    cases hl : afterLast '/' c' with
    | some rest =>
      obtain ⟨q, rfl, -⟩ := afterLast_eq_some hl
      refine Or.inl ?_
      have hlen : (q ++ '/' :: rest).length - rest.length = (q ++ ['/']).length := by
        simp only [List.length_append, List.length_cons, List.length_nil]
        omega
      have hsplit : q ++ '/' :: rest = (q ++ ['/']) ++ rest := by simp
      simp only [hlen]
      rw [hsplit, List.take_left]
      exact List.getLast?_concat
    | none =>
      refine Or.inr fun hmem => ?_
      exact afterLast_ne_none (List.mem_of_mem_take hmem) hl

/-! ## Downloads -/

variable {s : Str} {p : Path}

/-- With the temporary file alone touched, everything is left. -/
theorem During.leavesIn {c : Option Str} (h : During env w₁ s p c w) (h₁ : LeavesIn w₀ w₁)
    (htr : w₁.trace <:+ w.trace) : LeavesIn w₀ w := by
  refine ⟨⟨(h₁.1.now.keepsKinds (extends_keepsKinds h.scratch.extends_)).mono htr,
    fun fs hfs => ?_⟩, ?_⟩
  · rcases h.hist fs hfs with hfs | ⟨c', hc'⟩
    · exact (h₁.1.hist fs hfs).imp_right fun hl => hl.mono htr
    · exact Or.inr ((h₁.1.now.keepsKinds (extends_keepsKinds hc'.extends_)).mono htr)
  · rw [h.curDir]
    exact h₁.2

/-- Nor does the new name of the temporary file take anything away, where nothing was
under it, or the file is complete. -/
theorem Renamed.leavesIn {o d : Str} (h : Renamed env w₁ s p o d w) (h₁ : LeavesIn w₀ w₁)
    (htr : w₁.trace <:+ w.trace)
    (hname : Downloaded w.trace d ∨ ∃ d' fs, Scratch w₁.fs env.cwd s p (some d') fs ∧
      Vacant env.cwd o fs) :
    LeavesIn w₀ w := by
  obtain ⟨fs, hs, hren⟩ := h.moved
  obtain ⟨d', m, u, q, hd', hq, hdir, hp, hget⟩ := hs.rename hren
  obtain rfl : d = d' := Option.some.inj hd'
  have hnow : Left w₀.fs w.trace w.fs := by
    intro r n hr
    obtain ⟨n', hn', hkind⟩ := (h₁.1.now.mono htr) r n hr
    have hrp : r ≠ p := by
      rintro rfl
      rw [hs.fresh] at hn'
      simp at hn'
    rw [hget]
    by_cases hrq : r = q
    · subst hrq
      rw [if_pos rfl]
      refine ⟨_, rfl, Or.inr ?_⟩
      have hfsr : fs.get r = some n' := hs.extends_ r n' hn'
      rcases hname with hdown | ⟨d', fs', hs', hvacant⟩
      · refine ⟨fun hdirn => ?_, d, rfl, hdown⟩
        rw [Bool.eq_false_iff, ne_eq, Fs.isDir_iff] at hdir
        refine hdir ⟨n', hfsr, ?_⟩
        rcases hkind with hkind | ⟨hnd, -⟩
        · exact hkind.trans hdirn
        · exact absurd hdirn hnd
      · -- the name leads to nothing in the one tree, so it does in the other
        have hshape := hs.shape_eq hs'
        rw [resolve_congr hshape] at hq
        have habsent : fs'.shape r = .absent := by
          unfold Fs.shape
          rw [hvacant r hq]
        rw [← hshape] at habsent
        unfold Fs.shape at habsent
        rw [hfsr] at habsent
        cases hk : n'.kind <;> simp [hk] at habsent
    · rw [if_neg hrq, if_neg hrp]
      exact ⟨n', hn', hkind⟩
  refine ⟨⟨hnow, fun fs' hfs' => ?_⟩, by rw [h.curDir]; exact h₁.2⟩
  rcases h.hist fs' hfs' with rfl | hfs' | ⟨c', hc'⟩
  · exact Or.inr hnow
  · exact (h₁.1.hist fs' hfs').imp_right fun hl => hl.mono htr
  · exact Or.inr ((h₁.1.now.keepsKinds (extends_keepsKinds hc'.extends_)).mono htr)

/-- `spf_rm` does nothing but to be recorded. -/
theorem spfRm_noDelete {E : Exit → World F → Prop} {Q : Bool → World F → Prop} {spf : SpFile}
    (hdel : env.spDoDelete = false) (hQ : Q true (w.logged (.spfRm spf))) :
    wp (spfRm env spf) w Q E := by
  unfold spfRm
  rw [wp_bind, wp_record, hdel]
  exact hQ

/-- Before a try: the temporary file holds what has been received, or is to be begun
anew. -/
def Before (env : Env F) (w₁ : World F) (s : Str) (p : Path) (remoteFile : Str) (size : Nat)
    (w : World F) : Prop :=
  ∃ d, During env w₁ s p (some d) w ∧ w₁.trace <:+ w.trace ∧
    (received remoteFile w.trace = d ∨ size = 0)

/-- After one that has failed: it holds what has been received. -/
def After (env : Env F) (w₁ : World F) (s : Str) (p : Path) (remoteFile : Str)
    (w : World F) : Prop :=
  ∃ d, During env w₁ s p (some d) w ∧ w₁.trace <:+ w.trace ∧ received remoteFile w.trace = d

/-- After one that has succeeded. -/
def Complete (env : Env F) (w₁ : World F) (s : Str) (p : Path) (w : World F) : Prop :=
  ∃ d, During env w₁ s p (some d) w ∧ w₁.trace <:+ w.trace ∧ Downloaded w.trace d

/-- A call that changes the temporary file without its content. -/
theorem act_complete {spf : SpFile} {call : Sys} {f : Node → Except Errno Node}
    (hs : fullName env.pathMax w₁.curDir spf.spfName = some s)
    (hk : ∀ n m, f n = .ok m → m.kind = n.kind) (h : Complete env w₁ s p w) :
    EndsIn (Complete env w₁ s p)
      (act env call (spfFullName env spf w) fun _ => PosixFs.change env.cwd true f) w := by
  obtain ⟨d, hd, htr, hdown⟩ := h
  refine wp_mono (wp_and (act_during hs hk hd) (Silently.act w.trace w rfl)) ?_ ?_
  · rintro _ w' ⟨hd', htrace⟩
    exact ⟨d, hd', htrace ▸ htr, htrace ▸ hdown⟩
  · rintro _ w' ⟨hd', htrace⟩
    exact ⟨d, hd', htrace ▸ htr, htrace ▸ hdown⟩

/-- The end of a download that has succeeded. -/
theorem finishFile_leavesIn {spf : SpFile} {orig : Str} (h₁ : LeavesIn w₀ w₁)
    (hs : fullName env.pathMax w₁.curDir spf.spfName = some s)
    (horig : spf.spfOrigName = some orig) :
    Does (KeepsOff env) (Leaves w₀) (Complete env w₁ s p) (finishFile env spf)
      fun _ => LeavesIn w₀ := by
  have hG : ∀ w, Complete env w₁ s p w → Leaves w₀ w := fun w ⟨d, hd, htr, _⟩ =>
    (hd.leavesIn h₁ htr).1
  have hchmod : Keeps (Complete env w₁ s p) (spfChmod env spf 0) :=
    spfChmod_keeps fun w hw => act_complete hs (fun n m hm => by rw [← Except.ok.inj hm]) hw
  have htime : Keeps (Complete env w₁ s p) (spfNewTime env spf) :=
    spfNewTime_keeps fun w hw => act_complete hs (fun n m hm => by rw [← Except.ok.inj hm]) hw
  refine (Upholds.of_keeps (grows_of_loose fun hI => spfChmod_keeps fun w hw => hI.act w hw)
    hchmod hG).bind fun _ => ?_
  refine (Upholds.of_keeps (grows_of_loose fun hI => spfNewTime_keeps fun w hw => hI.act w hw)
    htime hG).bind fun _ => ?_
  refine Upholds.of_wp (grows_of_loose fun hI => hI.spfRestoreName spf) ?_
  rintro w ⟨d, hd, htr, hdown⟩
  refine wp_mono (wp_and (spfRestoreName_during (E := fun _ _ => False) hd hs horig)
    ((grew_loose w.trace).spfRestoreName spf w (List.suffix_refl _))) ?_ fun _ _ h => h.1.elim
  rintro - w' ⟨hd' | ⟨o, d', -, hdd', hren⟩, hgrew⟩
  · exact hd'.leavesIn h₁ (htr.trans hgrew)
  · obtain rfl : d = d' := Option.some.inj hdd'
    exact hren.leavesIn h₁ (htr.trans hgrew) (Or.inl (hdown.mono hgrew))

/-- Giving up the download of a file that is not there. -/
theorem giveUp_leavesIn {spf : SpFile} {orig remoteFile : Str} (hdel : env.spDoDelete = false)
    (h₁ : LeavesIn w₀ w₁) (hs : fullName env.pathMax w₁.curDir spf.spfName = some s)
    (horig : spf.spfOrigName = some orig) :
    Does (KeepsOff env) (Leaves w₀) (After env w₁ s p remoteFile) (giveUp env spf)
      fun _ => LeavesIn w₀ := by
  refine (Does.record (Q := fun w => ∃ d, During env w₁ s p (some d) w ∧ w₁.trace <:+ w.trace ∧
    Vacant env.cwd (w₁.curDir ++ orig) w.fs) ?_).bind fun _ => ?_
  · rintro w ⟨d, hd, htr, -⟩ hok
    refine ⟨d, (During.stable env w₁ s p _).record w _ rfl hd, htr.trans (List.suffix_cons ..), ?_⟩
    rw [← hd.curDir]
    exact hok orig horig
  refine Upholds.of_wp
    (grows_of_loose fun hI => (hI.spfRm spf).bind fun _ => hI.spfRestoreName spf) ?_
  rintro w ⟨d, hd, htr, hvacant⟩
  rw [wp_bind]
  refine spfRm_noDelete hdel ?_
  have hd' := (During.stable env w₁ s p _).record w (.spfRm spf) rfl hd
  refine wp_mono (wp_and (spfRestoreName_during (E := fun _ _ => False) hd' hs horig)
    ((grew_loose w.trace).spfRestoreName spf _ (List.suffix_cons ..))) ?_ fun _ _ h => h.1.elim
  rintro - w' ⟨hd'' | ⟨o, d', ho, -, hren⟩, hgrew⟩
  · exact hd''.leavesIn h₁ (htr.trans hgrew)
  · obtain ⟨rfl, -⟩ := fullName_some ho
    exact hren.leavesIn h₁ (htr.trans hgrew) (Or.inr ⟨d, w.fs, hd.scratch, hvacant⟩)

/-- Looking at the size changes nothing. -/
theorem resumeSize_after {spf : SpFile} {remoteFile : Str} {size : Nat} {erased : Bool}
    (hdel : env.spDoDelete = false) {E : Exit → World F → Prop}
    (h : After env w₁ s p remoteFile w) :
    wp (resumeSize env spf s size erased) w (fun _ => After env w₁ s p remoteFile) E := by
  obtain ⟨d, hd, htr, hrec⟩ := h
  have hst := During.stable env w₁ s p (some d)
  unfold resumeSize
  rw [wp_ite]
  refine ⟨fun _ => ⟨d, hd, htr, hrec⟩, fun _ => ?_⟩
  rw [wp_bind, wp_look, wp_ite]
  refine ⟨fun _ => ?_, fun _ => ⟨d, hst.ticked w hd, htr, hrec⟩⟩
  rw [wp_bind]
  refine spfRm_noDelete hdel ⟨d, hst.record _ _ rfl (hst.ticked w hd), ?_, hrec⟩
  exact htr.trans (List.suffix_cons ..)

theorem received_ftpGet (f : Str) (seekto : Nat) (data : Str) (b : Bool) (resp : Int) (c : Str)
    (fs : Fs) (tr : List Logged) : received f (⟨.ftpGet f seekto data b resp, c, fs⟩ :: tr) =
      (if seekto = 0 then [] else received f tr) ++ data := by
  simp [received]

/-- One try: by what has become of the local file. -/
theorem ftpGet_after {remoteFile : Str} {size : Nat} (hw : WritesAll env) :
    Does (KeepsOff env) (Leaves w₀) (Before env w₁ s p remoteFile size)
      (ftpGet env s remoteFile size)
      fun b w => (b = true → Complete env w₁ s p w) ∧
        (b = false → w.ftpResp ≠ JFTP_WRITEERR → After env w₁ s p remoteFile w) ∧
        (b = false → w.ftpResp = JFTP_WRITEERR →
          Before env w₁ s p remoteFile size w ∧ Vacant env.cwd remoteFile w.fs) := by
  refine (ftpGet_does (P := fun c w => w₁.trace <:+ w.trace ∧ ∃ d, c = some d ∧
    (received remoteFile w.trace = d ∨ size = 0)) ?_).pre
      fun w ⟨d, hd, htr, hrec⟩ => ⟨some d, hd, htr, d, rfl, hrec⟩
  rintro - w t w' hd ⟨htr, d, rfl, hrec⟩ hresp htrace hok hout
  have htr' : w₁.trace <:+ w'.trace := by
    rw [htrace]
    exact htr.trans (List.suffix_cons ..)
  have hreceived : received remoteFile w'.trace = (if size = 0 then [] else d) ++ t.data := by
    rw [htrace, received_ftpGet]
    by_cases hsize : size = 0
    · rw [if_pos hsize, if_pos hsize]
    · rw [if_neg hsize, if_neg hsize, hrec.resolve_right hsize]
  have hvacant : t.ok = false → t.resp = JFTP_WRITEERR → Vacant env.cwd remoteFile w'.fs := by
    intro hfail hfull
    rw [hfail] at hok
    exact hok hfull
  rw [hresp]
  rcases hout with ⟨rfl, -, -, hd'⟩ | ⟨rfl, -, -, hd'⟩ | ⟨written, -, hwritten, hd'⟩
  · -- the file could not be opened, and is as it was
    refine ⟨by simp, by simp, fun _ _ => ⟨⟨d, hd', htr', ?_⟩, hvacant rfl rfl⟩⟩
    by_cases hsize : size = 0
    · exact Or.inr hsize
    · exact Or.inl (by rw [hreceived, if_neg hsize, List.append_nil])
  · have hresp : JFTP_ERRNO ≠ JFTP_WRITEERR := by decide
    refine ⟨by simp, fun _ _ => ⟨_, hd', htr', ?_⟩, fun _ h => absurd h hresp⟩
    rw [hreceived, List.append_nil]
    rfl
  · rw [hwritten.eq hw] at hd'
    refine ⟨fun hsucc => ⟨_, hd', htr', ?_⟩, fun _ _ => ⟨_, hd', htr', hreceived⟩,
      fun hfail hfull => ⟨⟨_, hd', htr', Or.inl hreceived⟩, hvacant hfail hfull⟩⟩
    rw [hsucc] at htrace
    refine ⟨⟨.ftpGet remoteFile size t.data true t.resp, w₁.curDir, w'.fs⟩, w.trace, remoteFile,
      by rw [htrace], ⟨size, t.data, t.resp, rfl⟩, ?_⟩
    rw [← htrace]
    exact hreceived

/-- The tries of a download. -/
theorem tries_leavesIn {spf : SpFile} {orig remoteFile : Str} (hdel : env.spDoDelete = false)
    (hw : WritesAll env) (h₁ : LeavesIn w₀ w₁)
    (hs : fullName env.pathMax w₁.curDir spf.spfName = some s)
    (horig : spf.spfOrigName = some orig) :
    Tries env (KeepsOff env) (Leaves w₀) spf remoteFile s
      (fun size _ => Before env w₁ s p remoteFile size) (fun _ _ => After env w₁ s p remoteFile)
      (fun _ _ => After env w₁ s p remoteFile) (Complete env w₁ s p)
      (fun w => Vacant env.cwd remoteFile w.fs) (LeavesIn w₀) where
  exits _ _ _ := fun ⟨_, hd, htr, _⟩ => (hd.leavesIn h₁ htr).1
  lost _ _ _ := fun ⟨_, hd, htr, _⟩ => (hd.leavesIn h₁ htr).1
  ends _ h := h.1
  refused _ _ _ h := h
  again _ _ _ := fun ⟨d, hd, htr, hrec⟩ => ⟨d, hd, htr, Or.inl hrec⟩
  retry _ _ w n := fun ⟨d, hd, htr, hrec⟩ =>
    ⟨d, (During.stable env w₁ s p _).conn w w.ftp w.ftpResp n hd, htr, hrec⟩
  resume size erased := Upholds.of_wp (grows_of_loose fun hI => hI.resumeSize _ _ _ _) fun _ h =>
    resumeSize_after hdel h
  login size erased := Upholds.of_wp (grows_of_loose fun hI => ftpRelogin_keeps hI.toStable)
    fun w ⟨d, hd, htr, hrec⟩ =>
      ⟨d, (During.stable env w₁ s p _).conn w _ _ w.ftpRetries hd, htr, hrec⟩
  giveUp _ _ := giveUp_leavesIn hdel h₁ hs horig
  get _ _ := ftpGet_after hw
  finish := finishFile_leavesIn h₁ hs horig
  cut size _ := Upholds.of_wp (grows_of_loose fun hI => hI.act) fun w ⟨⟨d, hd, htr, hrec⟩, hv⟩ => by
    refine wp_act.mpr ⟨fun _ _ => ⟨⟨d, (During.stable env w₁ s p _).ticked w hd, htr, hrec⟩, hv⟩,
      fun fs hfs => ?_⟩
    obtain ⟨-, s', hs', hcut⟩ := lookAt_ok hfs
    obtain ⟨q, n, m, hr, hg, -⟩ := change_ok (fun n m hm hk => by simp [hk] at hm) hcut
    obtain rfl : remoteFile = s' := by simpa using hs'
    exact absurd (nodeAt_ok.mpr ⟨hr, hg⟩) hv.nodeAt
  remove size _ :=
    Upholds.of_wp (grows_of_loose fun hI => hI.act) fun w ⟨⟨d, hd, htr, hrec⟩, hv⟩ => by
    refine wp_act.mpr ⟨fun _ _ => ⟨d, (During.stable env w₁ s p _).ticked w hd, htr, hrec⟩,
      fun fs hfs => ?_⟩
    obtain ⟨-, s', hs', hun⟩ := lookAt_ok hfs
    obtain ⟨q, n, hr, hg, -⟩ := unlink_ok hun
    obtain rfl : remoteFile = s' := by simpa using hs'
    exact absurd (nodeAt_ok.mpr ⟨hr, hg⟩) hv.nodeAt

/-- In a directory without its slash `spf_use_tmp_name` makes a file at most. -/
theorem downloadFile_noslash {spf : SpFile} (hcur : '/' ∉ w.curDir) (hname : '/' ∉ spf.spfName)
    (h : LeavesIn w₀ w) :
    wp (downloadFile env spf) w (fun _ => LeavesIn w₀) (fun _ => Leaves w₀) := by
  unfold downloadFile
  rw [wp_bind, wp_get]
  cases spfFullName env spf w with
  | none => exact h
  | some remoteFile =>
    simp only
    unfold spfUseTmpName
    rw [wp_bind, wp_bind, wp_get]
    cases htem : fullName env.pathMax w.curDir (tmpTemplate env spf.spfName) with
    | none => exact h
    | some template =>
      simp only
      rw [wp_bind]
      have hmake :
        EndsIn (LeavesIn w₀) (act env .mkstemp (some (tmpName (env.temp w.tick) template))
          fun now => create env.cwd now) w := act_leaves (fun _ _ _ _ h => make_keepsKinds h) h
      refine wp_mono hmake (fun r w' hw' => ?_) fun _ _ h => h.1
      cases r with
      | error e => exact hw'
      | ok u =>
        -- the name has no slash to be found
        have hlast : afterLast '/' (tmpName (env.temp w.tick) template) = none := by
          refine Option.eq_none_iff_forall_ne_some.mpr fun rest hrest => ?_
          obtain ⟨a, ha, -⟩ := afterLast_eq_some hrest
          obtain ⟨htem, -⟩ := fullName_some htem
          have hslash : '/' ∈ tmpName (env.temp w.tick) template := by rw [ha]; simp
          rcases List.mem_append.mp hslash with hslash | hslash
          · rcases List.mem_append.mp (htem ▸ List.mem_of_mem_take hslash) with hslash | hslash
            · exact hcur hslash
            · have := List.mem_of_mem_take hslash
              simp [hname] at this
          · exact (env.temp w.tick).noslash hslash
        simp only [hlast]
        exact hw'.1

/-- A download leaves what is there. -/
theorem getFtpFile_leavesIn (hdel : env.spDoDelete = false) (hw : WritesAll env) (spf : SpFile) :
    Does (KeepsOff env) (Leaves w₀) (LeavesIn w₀) (getFtpFile env spf) fun _ => LeavesIn w₀ := by
  refine Upholds.of_provided (grows_of_loose fun hI => hI.getFtpFile spf) fun w h => ?_
  have hlogged := (leavesIn_stable w₀).record w (.fetch spf) rfl h
  rcases h.2 with hcur | hcur
  · refine getFtpFile_provided hcur (fun hok => hok)
      ⟨hlogged, (leavesIn_stable w₀).ticked _ hlogged⟩ ?_
    rintro - suffix p remoteFile s - hs -
    refine ⟨_, _, _, _, _, tries_leavesIn (p := p) hdel hw h hs rfl, fun w' hd htr _ => ?_⟩
    exact ⟨[], hd, htr ▸ List.suffix_cons .., Or.inr rfl⟩
  · have hrest : wp (downloadFile env spf) (w.logged (.fetch spf))
        (fun _ w' => '/' ∉ spf.spfName → LeavesIn w₀ w')
        (fun _ w' => '/' ∉ spf.spfName → Leaves w₀ w') := by
      by_cases hname : '/' ∈ spf.spfName
      · exact wp_true (fun _ _ h => absurd hname h) fun _ _ h => absurd hname h
      · exact wp_mono (downloadFile_noslash hcur hname hlogged) (fun _ _ h _ => h) fun _ _ h _ => h
    have hgrow : EndsIn (fun w' => (w.logged (.fetch spf)).trace <:+ w'.trace)
        (downloadFile env spf) (w.logged (.fetch spf)) :=
      (grew_loose (w.logged (.fetch spf)).trace).downloadFile spf _ (List.suffix_refl _)
    unfold getFtpFile
    rw [wp_bind, wp_record]
    refine wp_mono (wp_and hrest hgrow) (fun _ w' h => ?_) fun _ w' h => ?_
    all_goals
      obtain ⟨new, hnew⟩ := h.2
      exact Provided.cons (x := ⟨.fetch spf, w.curDir, w.fs⟩) rfl h.2 fun hok =>
        ⟨new, hnew.symm, fun _ => h.1 hok⟩

/-! ## Whole runs -/

theorem leavesIn_runInv (hdel : env.spDoDelete = false) (hw : WritesAll env) (w₀ : World F) :
    RunInv env (KeepsOff env) (Leaves w₀) (fun _ : Unit => LeavesIn w₀) (fun _ _ => True)
      (fun _ _ => True) (fun _ _ => ()) where
  still _ := (leavesIn_stable w₀).toStill
  traversed _ _ _ h := ⟨⟨h.1.now, h.1.hist⟩, h.2⟩
  exits _ _ h := h.1
  notSkip _ _ _ _ _ := trivial
  listDir _ := listDir_does (leavesIn_stable w₀) fun _ h => h.1
  getFtpFile _ spf := (getFtpFile_leavesIn hdel hw spf).pre fun _ h => h.1
  spfRm _ spf := Upholds.of_wp (grows_of_loose fun hI => hI.spfRm spf) fun w h =>
    spfRm_noDelete hdel ((leavesIn_stable w₀).record w _ rfl h.1)
  spfSymlink _ spf := Upholds.of_keeps
    (grows_of_loose fun hI => spfSymlink_keeps hI.toStill fun w hw => hI.act w hw)
    (spfSymlink_keeps (leavesIn_stable w₀).toStill fun w hw => act_leaves (fun now s fs fs' h => by
      cases ht : spf.spfSymlink with
      | none => rw [ht] at h; simp at h
      | some target => rw [ht] at h; exact make_keepsKinds h) hw) fun _ h => h.1
  spfMkdir _ spf := Upholds.of_keeps
    (grows_of_loose fun hI => spfMkdir_keeps hI.toStill fun w hw => hI.act w hw)
    (spfMkdir_keeps (leavesIn_stable w₀).toStill fun w hw =>
      act_leaves (fun _ _ _ _ h => make_keepsKinds h) hw) fun _ h => h.1
  spfChmod _ spf mode := Upholds.of_keeps
    (grows_of_loose fun hI => spfChmod_keeps fun w hw => hI.act w hw)
    (spfChmod_keeps fun w hw => act_leaves (fun _ _ _ _ h => chmod_keepsKinds h) hw) fun _ h => h.1
  spfNewTime _ spf := Upholds.of_keeps
    (grows_of_loose fun hI => spfNewTime_keeps fun w hw => hI.act w hw)
    (spfNewTime_keeps fun w hw => act_leaves (fun _ _ _ _ h => utimes_keepsKinds h) hw)
    fun _ h => h.1
  enter _ spf w h _ := by
    have hl := h.1.logged (.enter spf)
    exact ⟨trivial, ⟨hl.now, hl.hist⟩, h.2.cd env.pathMax spf.spfName⟩
  below _ _ _ _ _ _ h := ⟨h.1.logged _, h.2⟩
  leave _ _ w _ h := ⟨⟨h.1.now, h.1.hist⟩, GoodDir.cdup w.curDir⟩
  outside _ _ _ _ _ _ h := ⟨h.1.logged _, h.2⟩

/-- **A run that is not to delete** leaves what was there, in every tree it goes
through, if it keeps off what is there: no download of a file that is there is given up
or meets a full file system, what is downloaded has names of one component, and writes
reach the file whole. -/
theorem mirror_left (env : Env F) (hdel : env.spDoDelete = false) (hw : WritesAll env)
    (listing : Str) (w : World F) (hcur : w.curDir.getLast? = some '/') :
    wp (mirror env listing) w (fun _ w' => Provided World.trace (KeepsOff env) w w' (Leaves w w'))
      (fun _ w' => Provided World.trace (KeepsOff env) w w' (Leaves w w')) := by
  have hstart : LeavesIn w w := ⟨⟨Left.refl _ _, fun _ h => Or.inl h⟩, Or.inl hcur⟩
  exact wp_mono (((leavesIn_runInv hdel hw w).mirror_upholds () listing).run hstart)
    (fun _ _ h => h.mono fun h => h.1) fun _ _ h => h

/-- Names are single components, every transfer returns 0, and no download is given up. -/
def Succeeds (x : Logged) : Prop :=
  match x.event with
  | .fetch spf => '/' ∉ spf.spfName
  | .gaveUp _ => False
  | .ftpGet _ _ _ ok _ => ok = true
  | _ => True

instance : DecidablePred Succeeds := fun x => by
  unfold Succeeds
  split <;> infer_instance

theorem Succeeds.keepsOff {x : Logged} (h : Succeeds x) : KeepsOff env x := by
  unfold Succeeds at h
  unfold KeepsOff
  cases he : x.event with
  | fetch spf =>
    rw [he] at h
    exact h
  | gaveUp spf =>
    rw [he] at h
    exact h.elim
  | ftpGet f data n ok resp =>
    rw [he] at h
    obtain rfl : ok = true := h
    trivial
  | _ => trivial

/-- A listing of one file, named `a`, of two bytes. -/
def listingA : Str :=
  ['-', 'r', 'w', '-', 'r', '-', '-', 'r', '-', '-', ' ', '1', ' ', 'u', ' ', '2', ' ', 'J', 'a',
    'n', ' ', '1', ' ', '1', '9', '9', '9', ' ', 'a', '\n']

section

-- a run on fixed inputs is not to be unfolded
attribute [local irreducible] wp

theorem mirror_left_rootWithA :
    wp (mirror noDeleteServed listingA) rootWithA (fun _ w' => Leaves rootWithA w')
      (fun _ _ => False) := by
  have hleft := mirror_left noDeleteServed rfl ⟨fun _ _ => rfl, fun _ => rfl⟩ listingA rootWithA rfl
  -- the download succeeds, so that all that is recorded keeps off the file
  have hrun : wp (mirror noDeleteServed listingA) rootWithA (fun _ w' => ∀ x ∈ w'.trace, Succeeds x)
      (fun _ _ => False) := by decide +kernel
  generalize mirror noDeleteServed listingA = run at hleft hrun ⊢
  refine wp_mono (wp_and hleft hrun) (fun _ w' h => ?_) fun _ _ h => h.2
  obtain ⟨⟨new, hnew, hleaves⟩, hsucceeds⟩ := h
  exact hleaves fun x hx => (hsucceeds x (hnew ▸ List.mem_append_left _ hx)).keepsOff

end

/-- When no file can be opened for writing, the file `a` is removed to make room. -/
theorem mirror_left_fullDisk :
    wp (mirror noDelete.fullDisk listingA) rootWithA (fun _ _ => False)
      (fun _ w' => rootWithA.fs.get [['a']] ≠ none ∧ w'.fs.get [['a']] = none) := by
  decide +kernel

end Spegla
