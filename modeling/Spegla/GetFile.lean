import Spegla.Download

/-!
# A failed download

A download goes to a temporary file, and the original is in no danger from it,
with two exceptions. When the file system is full the original is given up to make
room. And the temporary file, which is renamed to the original name at the end of
a download that is given up if it is still there, is there when nothing is to be
deleted.

- `OriginalKept`: what was under the name of the entry is there still.
- `getFtpFile_keeps_original`: a call in which no `ftp_get` succeeds or meets a full
  file system keeps the original, if the temporary file can be deleted or the download
  is not given up.
-/

namespace Spegla

open CString PosixFs ExitState

variable {F : Type} {env : Env F}

/-- Whatever the name of the entry led to, it leads to, unchanged. -/
def OriginalKept (env : Env F) (spf : SpFile) (w w' : World F) : Prop :=
  ∀ follow p n, nodeAt env.cwd follow (w.curDir ++ spf.spfName) w.fs = .ok (p, n) →
    nodeAt env.cwd follow (w.curDir ++ spf.spfName) w'.fs = .ok (p, n)

/-- The temporary file can be deleted. -/
def CanDelete (env : Env F) : Prop := env.spDoDelete = true ∧ ∀ t, env.fault t .unlink = none

/-- An event of a failed download that does not put the original in danger: no call of
`ftp_get` has returned 0 or met a full file system, and the temporary file can be deleted
if the download is given up. -/
def FailsSafely (env : Env F) (x : Logged) : Prop :=
  x.event.succeeded = false ∧ x.event.diskFull = false ∧
    (x.event.givenUp = true → CanDelete env)

variable {w₀ : World F} {s : Str} {p : Path} {spf : SpFile} {orig : Str}

/-- The temporary file alone has been touched. -/
abbrev Touched (env : Env F) (w₀ : World F) (s : Str) (p : Path) (w : World F) : Prop :=
  ∃ c, During env w₀ s p c w

theorem touched_stable (env : Env F) (w₀ : World F) (s : Str) (p : Path) :
    Stable (Touched env w₀ s p) where
  ticked w := fun ⟨c, h⟩ => ⟨c, (During.stable env w₀ s p c).ticked w h⟩
  record w e he := fun ⟨c, h⟩ => ⟨c, (During.stable env w₀ s p c).record w e he h⟩
  count w n := fun ⟨c, h⟩ => ⟨c, (During.stable env w₀ s p c).count w n h⟩
  conn w f r n := fun ⟨c, h⟩ => ⟨c, (During.stable env w₀ s p c).conn w f r n h⟩

/-- Looking at the size after a lost connection. -/
theorem resumeSize_touched {w : World F} {size : Nat} {erased : Bool} (h : Touched env w₀ s p w)
    (hs : fullName env.pathMax w₀.curDir spf.spfName = some s) (hplain : spf.spfType = .plainfile) :
    wp (resumeSize env spf s size erased) w (fun _ => Touched env w₀ s p)
      (fun _ => Touched env w₀ s p) := by
  unfold resumeSize
  rw [wp_ite]
  refine ⟨fun _ => h, fun _ => ?_⟩
  obtain ⟨c, h⟩ := (touched_stable env w₀ s p).ticked w h
  rw [wp_bind, wp_look, wp_ite]
  refine ⟨fun _ => ?_, fun _ => ⟨c, h⟩⟩
  rw [wp_bind]
  exact wp_mono (spfRm_during h hs (by rw [hplain]; simp))
    (fun _ _ ⟨c', h₁, _⟩ => ⟨c', h₁⟩) fun _ _ h₁ => ⟨c, h₁⟩

/-- Giving up, where the temporary file can be deleted. -/
theorem giveUp_safe (hs : fullName env.pathMax w₀.curDir spf.spfName = some s)
    (horig : spf.spfOrigName = some orig) (hplain : spf.spfType = .plainfile) :
    Does (FailsSafely env) (fun w => Extends w₀.fs w.fs) (Touched env w₀ s p) (giveUp env spf)
      fun _ w => Extends w₀.fs w.fs := by
  refine (Does.record (Q := fun w => Touched env w₀ s p w ∧ CanDelete env) fun w hw hok =>
    ⟨(touched_stable env w₀ s p).record w _ rfl hw, hok.2.2 rfl⟩).bind fun _ => ?_
  refine Upholds.of_wp
    (grows_of_loose fun hI => (hI.spfRm spf).bind fun _ => hI.spfRestoreName spf) ?_
  rintro w ⟨⟨c, h⟩, hdo, hfault⟩
  rw [wp_bind]
  refine wp_mono (spfRm_during h hs (by rw [hplain]; simp)) ?_ fun _ _ h' => h'.scratch.extends_
  rintro - w₁ ⟨c', h₁, -, hgone, -⟩
  refine wp_mono (spfRestoreName_during (E := fun _ _ => False) h₁ hs horig) ?_ fun _ _ h => h.elim
  rintro - w₂ (h₂ | ⟨o, d, -, hc', -⟩)
  · exact h₂.scratch.extends_
  · rw [hgone hdo hfault] at hc'
    simp at hc'

/-- The tries of a failed download touch the temporary file alone. -/
theorem tries_safe {remoteFile : Str} (hs : fullName env.pathMax w₀.curDir spf.spfName = some s)
    (horig : spf.spfOrigName = some orig) (hplain : spf.spfType = .plainfile) :
    Tries env (FailsSafely env) (fun w => Extends w₀.fs w.fs) spf remoteFile s
      (fun _ _ => Touched env w₀ s p) (fun _ _ => Touched env w₀ s p)
      (fun _ _ => Touched env w₀ s p) (fun _ => False) (fun _ => False)
      (fun w => Extends w₀.fs w.fs) where
  exits _ _ _ := fun ⟨_, h⟩ => h.scratch.extends_
  lost _ _ _ := fun ⟨_, h⟩ => h.scratch.extends_
  ends _ h := h
  again _ _ _ h := h
  refused _ _ _ h := h
  retry _ _ w n h := (touched_stable env w₀ s p).conn w w.ftp w.ftpResp n h
  resume size erased := Upholds.of_wp (grows_of_loose fun hI => hI.resumeSize _ _ _ _) fun w h =>
    wp_mono (resumeSize_touched h hs hplain) (fun _ _ h => h) fun _ _ ⟨_, h⟩ => h.scratch.extends_
  login size erased := Upholds.of_keeps (grows_of_loose fun hI => ftpRelogin_keeps hI.toStable)
    (ftpRelogin_keeps (touched_stable env w₀ s p)) fun _ ⟨_, h⟩ => h.scratch.extends_
  giveUp _ _ := giveUp_safe hs horig hplain
  get size erased := by
    refine (ftpGet_does (P := fun _ _ => True) fun c w t w' hd _ hresp _ hok hout => ?_).pre
      fun w ⟨c, h⟩ => ⟨c, h, trivial⟩
    have hfail : t.ok = false := hok.1
    have hfull : ¬t.resp = JFTP_WRITEERR := by
      have := hok.2.1
      simpa [Event.diskFull, hfail] using this
    rw [hfail, hresp]
    exact ⟨by simp, fun _ _ => hout.during, fun _ h => absurd h hfull⟩
  finish := Upholds.absurd (grows_of_loose fun hI => hI.finishFile spf) fun _ h => h
  cut _ _ := Upholds.absurd (grows_of_loose fun hI => hI.act) fun _ h => h.2
  remove _ _ := Upholds.absurd (grows_of_loose fun hI => hI.act) fun _ h => h.2

/-- **A failed download.** A call of `get_ftp_file` for a plain file in which no
`ftp_get` returns 0 leaves what was under the name of the entry, if none meets a full
file system, and if the temporary file can be deleted or the download is not given up. -/
theorem getFtpFile_keeps_original (env : Env F) (spf : SpFile) (w : World F)
    (hplain : spf.spfType = .plainfile) (hname : '/' ∉ spf.spfName)
    (hcur : w.curDir.getLast? = some '/') :
    wp (getFtpFile env spf) w
      (fun _ w' => Provided World.trace (FailsSafely env) w w' (OriginalKept env spf w w'))
      (fun _ w' => Provided World.trace (FailsSafely env) w w' (OriginalKept env spf w w')) := by
  have hkept : ∀ {w' : World F}, Provided World.trace (FailsSafely env) w w' (Extends w.fs w'.fs) →
      Provided World.trace (FailsSafely env) w w' (OriginalKept env spf w w') := fun h =>
    h.mono fun hx _ _ _ hn => nodeAt_extends hx hn
  refine wp_mono (getFtpFile_provided (G := fun w' => Extends w.fs w'.fs)
    (R := fun w' => Extends w.fs w'.fs) hcur (fun _ => hname)
    ⟨Extends.refl _, Extends.refl _⟩ fun _ suffix p remoteFile s _ hs _ => ?_)
    (fun _ _ h => hkept h) fun _ _ h => hkept h
  exact ⟨_, _, _, _, _, tries_safe (p := p) hs rfl hplain, fun w' h _ _ => ⟨_, h⟩⟩

/-! ## A full file system, and a transfer that is given up -/

/-- A plain file `a`. -/
def fileA : SpFile := { (default : SpFile) with spfName := ['a'], spfMode := 0o644#12 }

/-- A plain file `a/b`, as a name. -/
def fileAB : SpFile := { fileA with spfName := ['a', '/', 'b'] }

/-- A run at the start, in a root directory with the file `b` in `a`, and links and
directories where the temporary file for `a/b` leads to. -/
def rootWithAB : World Unit :=
  startIn ((((Fs.init.put [['a']] ⟨.dir, 0o755#12, 0⟩).put [['a'], ['b']] nodeA).put
    [['.', 'i', 'n', '.', 'a']] ⟨.dir, 0o755#12, 0⟩).put
    [['b', '.', 'a', 'b', 'c']] ⟨.symlink ['a', '/', 'b'], 0o777#12, 0⟩)

section

-- a run on fixed inputs is not to be unfolded
attribute [local irreducible] wp

theorem getFtpFile_keeps_original_fileA :
    wp (getFtpFile (calmEnv deadFtp) fileA) rootWithA
      (fun _ w' => Provided World.trace (FailsSafely (calmEnv deadFtp)) rootWithA w'
        (OriginalKept (calmEnv deadFtp) fileA rootWithA w'))
      (fun _ w' => Provided World.trace (FailsSafely (calmEnv deadFtp)) rootWithA w'
        (OriginalKept (calmEnv deadFtp) fileA rootWithA w')) :=
  getFtpFile_keeps_original (calmEnv deadFtp) fileA rootWithA rfl (by decide) rfl

end

/-- With no success, a full file system loses the original by design; a download that is
given up while nothing is to be deleted replaces it; and with a name of two components
the temporary file is not a new one. -/
theorem getFtpFile_loses_original :
    wp (getFtpFile (calmEnv deadFtp).fullDisk fileA) rootWithA (fun _ _ => False) (fun _ w' =>
      (∀ x ∈ w'.trace, x.event.succeeded = false) ∧
      ¬OriginalKept (calmEnv deadFtp).fullDisk fileA rootWithA w') ∧
    wp (getFtpFile noDelete fileA) rootWithA (fun _ w' =>
      (∀ x ∈ w'.trace, x.event.succeeded = false) ∧ ¬OriginalKept noDelete fileA rootWithA w')
      (fun _ _ => False) ∧
    wp (getFtpFile (calmEnv deadFtp) fileAB) rootWithAB (fun _ w' =>
      (∀ x ∈ w'.trace, x.event.succeeded = false) ∧
      ¬OriginalKept (calmEnv deadFtp) fileAB rootWithAB w') (fun _ _ => False) := by
  have hlost : ∀ (env : Env Unit) (spf : SpFile) (p : Path) {w w' : World Unit}, env.cwd = [] →
      nodeAt [] false (w.curDir ++ spf.spfName) w.fs = .ok (p, nodeA) →
      nodeAt [] false (w.curDir ++ spf.spfName) w'.fs ≠ .ok (p, nodeA) →
      ¬OriginalKept env spf w w' := by
    intro env spf p w w' hcwd hat hne hkept
    have h := hkept false p nodeA
    rw [hcwd] at h
    exact hne (h hat)
  refine ⟨?_, ?_, ?_⟩
  · have hrun : wp (getFtpFile (calmEnv deadFtp).fullDisk fileA) rootWithA
      (fun _ _ => False) (fun _ w' =>
        (∀ x ∈ w'.trace, x.event.succeeded = false) ∧
        nodeAt [] false ['.', '/', 'a'] w'.fs ≠ .ok ([['a']], nodeA)) := by decide +kernel
    generalize getFtpFile (calmEnv deadFtp).fullDisk fileA = run at hrun ⊢
    exact wp_mono hrun (fun _ _ h => h) fun _ w' h =>
      ⟨h.1, hlost (calmEnv deadFtp).fullDisk fileA [['a']] rfl (by decide) h.2⟩
  · have hrun : wp (getFtpFile noDelete fileA) rootWithA (fun _ w' =>
        (∀ x ∈ w'.trace, x.event.succeeded = false) ∧
        nodeAt [] false ['.', '/', 'a'] w'.fs ≠ .ok ([['a']], nodeA)) (fun _ _ => False) := by
      decide +kernel
    generalize getFtpFile noDelete fileA = run at hrun ⊢
    exact wp_mono hrun (fun _ w' h => ⟨h.1, hlost noDelete fileA [['a']] rfl (by decide) h.2⟩)
      fun _ _ h => h
  · have hrun : wp (getFtpFile (calmEnv deadFtp) fileAB) rootWithAB (fun _ w' =>
        (∀ x ∈ w'.trace, x.event.succeeded = false) ∧
        nodeAt [] false ['.', '/', 'a', '/', 'b'] w'.fs ≠ .ok ([['a'], ['b']], nodeA))
        (fun _ _ => False) := by decide +kernel
    generalize getFtpFile (calmEnv deadFtp) fileAB = run at hrun ⊢
    exact wp_mono hrun (fun _ w' h =>
      ⟨h.1, hlost (calmEnv deadFtp) fileAB [['a'], ['b']] rfl (by decide) h.2⟩) fun _ _ h => h

end Spegla
