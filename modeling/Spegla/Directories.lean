import Spegla.Runs

/-!
# Where a run is

`cur_dir` goes down with every directory of the queue and up again behind it. The two
undo each other for names that are single components and fit, and for no others.

- `RightSteps`: every step of the directory loop has acted on the directory that was
  popped.
- `spSyncDir_curDir`: a run that enters directories with such names comes back to where
  it began, and all its steps are right.
-/

namespace Spegla

open CString PosixFs ExitState

variable {F : Type} {env : Env F}

/-- A step of the directory loop acts on the directory that was popped. -/
def Event.right : Event → Bool
  | .dirStep popped actsOn => actsOn = some popped
  | _ => true

/-- Every step since the state `w₀` is right. -/
def RightSteps (w₀ w : World F) : Prop :=
  ∃ new, w.trace = new ++ w₀.trace ∧ ∀ x ∈ new, x.event.right = true

/-- A directory that is entered has a name that can be entered. -/
def EntersName (env : Env F) (x : Logged) : Prop :=
  ∀ spf, x.event = .enter spf → CanEnter env.pathMax x.curDir spf.spfName

theorem RightSteps.logged {w₀ w : World F} {e : Event} (h : RightSteps w₀ w) (he : e.right = true) :
    RightSteps w₀ (w.logged e) := by
  obtain ⟨new, hnew, hright⟩ := h
  refine ⟨⟨e, w.curDir, w.fs⟩ :: new, ?_, fun x hx => ?_⟩
  · show _ :: w.trace = _
    rw [hnew, List.cons_append]
  · rcases List.mem_cons.mp hx with rfl | hx
    · exact he
    · exact hright x hx

theorem Event.right_of_not_ofLoop : ∀ {e : Event}, e.ofLoop = false → e.right = true
  | .dirStep _ _, h => by simp [Event.ofLoop] at h
  | .enter _, _ | .fetch _, _ | .ftpGet .., _ | .gaveUp _, _ | .spfRm _, _ | .spfSymlink _, _
  | .spfMkdir _, _ => rfl

/-- The run is in the directory `c`, with right steps since `w₀`. -/
structure IsIn (w₀ : World F) (c : Str) (w : World F) : Prop where
  curDir : w.curDir = c
  slash : c.getLast? = some '/'
  steps : RightSteps w₀ w

theorem isIn_loose (w₀ : World F) (c : Str) : Loose (IsIn w₀ c) where
  ticked _ h := ⟨h.curDir, h.slash, h.steps⟩
  record _ _ he h := ⟨h.curDir, h.slash, h.steps.logged (Event.right_of_not_ofLoop he)⟩
  count _ _ h := ⟨h.curDir, h.slash, h.steps⟩
  conn _ _ _ _ h := ⟨h.curDir, h.slash, h.steps⟩
  wrote _ _ h := ⟨h.curDir, h.slash, h.steps⟩

/-- Where the run is below `c`. -/
def below (pathMax : Nat) (c : Str) (spf : SpFile) : Str := (curDirCd pathMax c spf.spfName).getD c

theorem below_of_canEnter {pathMax : Nat} {c : Str} {spf : SpFile} (hc : c.getLast? = some '/')
    (h : CanEnter pathMax c spf.spfName) : below pathMax c spf = c ++ spf.spfName ++ ['/'] := by
  unfold below
  rw [curDirCd_of_fits hc h.1 h.2]
  rfl

theorem isIn_runInv (env : Env F) (w₀ : World F) :
    RunInv env (EntersName env) (RightSteps w₀) (IsIn w₀) (fun _ _ => True)
      (fun c spf => c.getLast? = some '/' ∧ CanEnter env.pathMax c spf.spfName)
      (below env.pathMax) := by
  have hkeeps : ∀ {α : Type} {x : Prog F α} (c : Str), (∀ {I}, Loose I → Keeps I x) →
      Does (EntersName env) (RightSteps w₀) (IsIn w₀ c) x fun _ => IsIn w₀ c := fun c hx =>
    Upholds.of_keeps (grows_of_loose hx) (hx (isIn_loose w₀ c)) fun _ h => h.steps
  exact {
    still := fun c => (isIn_loose w₀ c).toStill
    listDir := fun c => listDir_does (isIn_loose w₀ c).toStable fun _ h => h.steps
    traversed := fun _ _ _ h => ⟨h.curDir, h.slash, h.steps⟩
    exits := fun _ _ h => h.steps
    notSkip := fun _ _ _ _ _ => trivial
    getFtpFile := fun c spf => (hkeeps c fun hI => hI.getFtpFile spf).pre fun _ h => h.1
    spfRm := fun c spf => (hkeeps c fun hI => hI.spfRm spf).pre fun _ h => h.1
    spfSymlink :=
      fun c spf => hkeeps c fun hI => spfSymlink_keeps hI.toStill fun w hw => hI.act w hw
    spfMkdir := fun c spf => hkeeps c fun hI => spfMkdir_keeps hI.toStill fun w hw => hI.act w hw
    spfChmod := fun c spf mode => hkeeps c fun hI => spfChmod_keeps fun w hw => hI.act w hw
    spfNewTime := fun c spf => hkeeps c fun hI => spfNewTime_keeps fun w hw => hI.act w hw
    enter := fun c spf w h hok => by
      have hcan : CanEnter env.pathMax c spf.spfName := h.curDir ▸ hok spf rfl
      refine ⟨⟨h.slash, hcan⟩, ?_, ?_, h.steps.logged rfl⟩
      · rw [h.curDir]
        rfl
      · rw [below_of_canEnter h.slash hcan]
        exact List.getLast?_concat
    below := fun c spf w₁ w h₁ hent h => by
      refine ⟨h.curDir, h.slash, h.steps.logged ?_⟩
      have hdir : w.curDir.dropLast = w₁.curDir ++ spf.spfName := by
        rw [h.curDir, below_of_canEnter hent.1 hent.2, h₁.curDir, List.dropLast_concat]
      simp [Event.right, hdir]
    leave := fun c spf w hent h => by
      refine ⟨?_, hent.1, h.steps⟩
      show curDirCdup w.curDir = c
      rw [h.curDir, below_of_canEnter hent.1 hent.2]
      exact curDirCdup_cd hent.1 hent.2.1
    outside := fun c spf w₁ w h₁ hent h => by
      refine ⟨h.curDir, h.slash, h.steps.logged ?_⟩
      have hfits := hent.2.2
      have hfull : spfFullName env spf w = some (w₁.curDir ++ spf.spfName) := by
        unfold spfFullName
        rw [h.curDir, h₁.curDir]
        exact fullName_of_fits hent.2.1 (by omega)
      simp [Event.right, hfull] }

/-- **Where a run is.** A call of `sp_sync_dir` that returns leaves `cur_dir` as it was,
and the steps of its directory loops act on the directories that were popped, if the
directories it enters have names that are single components and fit; a directory with
another name is not left again for where it was entered from. -/
theorem spSyncDir_curDir (env : Env F) (stack : Nat) (ls rs : List SpFile) (w : World F)
    (hcur : w.curDir.getLast? = some '/') :
    wp (spSyncDir env stack (some (heapOf ls)) (some (heapOf rs))) w
      (fun _ w' => Provided World.trace (EntersName env) w w'
        (w'.curDir = w.curDir ∧ RightSteps w w'))
      (fun _ w' => Provided World.trace (EntersName env) w w' (RightSteps w w')) ∧
    ∀ c name, c.getLast? = some '/' →
      (curDirCdup ((curDirCd env.pathMax c name).getD c) = c ↔ CanEnter env.pathMax c name) := by
  refine ⟨?_, fun c name hc => curDirCdup_cd_iff hc⟩
  have hstart : IsIn w w.curDir w := ⟨rfl, hcur, [], rfl, by simp⟩
  have hrun := ((isIn_runInv env w).spSyncDir_upholds stack w.curDir (heapOf ls) (heapOf rs)).run
    (s := w) ⟨hstart, entries_heapOf fun _ _ => trivial, entries_heapOf fun _ _ => trivial⟩
  exact wp_mono hrun (fun _ _ h => h.mono fun hP => ⟨hP.curDir, hP.steps⟩) fun _ _ h => h

/-- A run at the start, in a root directory with the directory `b` in `a`. -/
def rootWithDirs : World Unit :=
  startIn ((Fs.init.put [['a']] ⟨.dir, 0o755#12, 0⟩).put [['a'], ['b']] ⟨.dir, 0o755#12, 0⟩)

/-- The local directory `a`, and a remote directory that is called `a/b`. -/
def dirA : SpFile := { (default : SpFile) with spfName := ['a'], spfType := .directory }
def dirAB : SpFile := { dirA with spfName := ['a', '/', 'b'] }

theorem spSyncDir_curDir_rootWithDirs :
    wp (spSyncDir noDelete 2 (some (heapOf [dirA])) (some (heapOf [dirA]))) rootWithDirs
      (fun _ w' => Provided World.trace (EntersName noDelete) rootWithDirs w'
        (w'.curDir = rootWithDirs.curDir ∧ RightSteps rootWithDirs w'))
      (fun _ w' => Provided World.trace (EntersName noDelete) rootWithDirs w'
        (RightSteps rootWithDirs w')) ∧
    ∀ c name, c.getLast? = some '/' →
      (curDirCdup ((curDirCd 255 c name).getD c) = c ↔ CanEnter 255 c name) :=
  spSyncDir_curDir noDelete 2 [dirA] [dirA] rootWithDirs rfl

/-- From the directory `a/b` the run comes back to `a`, and works on what is there. -/
theorem spSyncDir_curDir_lost :
    wp (spSyncDir noDelete 2 (some (heapOf [dirA])) (some (heapOf [dirAB]))) rootWithDirs
      (fun _ w' => w'.curDir ≠ rootWithDirs.curDir ∧ ∃ x ∈ w'.trace, x.event.right = false)
      (fun _ _ => False) := by
  decide +kernel

end Spegla
