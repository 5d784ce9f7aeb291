import Spegla.Runs

/-!
# Logging in again (`spegla.c`, `main`, `get_ftp_file` and `sp_sync_dir`)

Three loops log in again after a failure, with one number of retries between them.

- `Tally`: how often the program has tried, and how often it was asked to. `counting`: the
  operations of a connection, with a tally.
- `loginLoop`, `mainRun`: `main` from its first login on. A run that is over leaves its tally.
- `Balanced`: what holds of the tally while a run goes on. `Pending`: a request has failed.
  `Settled`: what holds at the end, whatever has ended the run.
- `reloginDir_tally`, `reloginFile_tally`, `loginLoop_retries`: the three loops.
- `mainRun_retries`: a run tries no more often than it is allowed to if it is not asked to more
  often. A retry is left where their number is 0, which is looked at before it is counted down.
-/

namespace Spegla

open CString PosixFs ExitState

variable {F : Type}

/-! ## The program -/

/-- How often a run has logged in again, and how many failures there were to do that for. -/
structure Tally where
  attempts : Nat
  failures : Nat
deriving DecidableEq, Repr

def Tally.attempt (t : Tally) : Tally := { t with attempts := t.attempts + 1 }

def Tally.failure (t : Tally) : Tally := { t with failures := t.failures + 1 }

/-- `ftp_resp` of a connection that is lost. -/
def Lost (resp : Int) : Prop := resp = JFTP_BROKEN ∨ resp = JFTP_TIMEOUT

instance (resp : Int) : Decidable (Lost resp) := inferInstanceAs (Decidable (_ ∨ _))

/-- The operations of a connection, with a tally. -/
def counting (ops : FtpOps F) : FtpOps (F × Tally) where
  ftpGet c remoteFile seekto :=
    let r := ops.ftpGet c.1 remoteFile seekto
    (r.1, r.2, if r.1.ok = false ∧ Lost r.1.resp then c.2.failure else c.2)
  ftpDir c dir :=
    let r := ops.ftpDir c.1 dir
    (r.1, r.2, if r.1.1 = none ∧ Lost r.1.2 then c.2.failure else c.2)
  ftpRelogin c :=
    let r := ops.ftpRelogin c.1
    (r.1, r.2, if r.1.1 then c.2.attempt else c.2.attempt.failure)

/-- The environment with such operations. -/
def counted (env : Env F) : Env (F × Tally) := { env with ftp := counting env.ftp }

/-- What `main` asks of the server before it mirrors: `ftp_login`, by the number of the call, and
then the type, the remote directory and its listing. -/
structure LoginOps (F : Type) where
  ftpLogin : Nat → Option F
  ftpReqType : F → Bool × F
  ftpCd : F → Bool × F
  ftpDirDot : F → Option Str × F

/-- The loop of `main` that logs in, with the retries that are left; none where `main` quits. -/
def loginLoop (ftpLogin : Nat → Option F) : Nat → Tally → Int → Tally × Option (F × Int)
  | 0, t, _ => (t, none)
  | fuel + 1, t, retries =>
    match ftpLogin t.attempts with
    | some c => (t, some (c, retries))
    | none =>
      if retries < 0 then (t.failure, none)
      else loginLoop ftpLogin fuel t.failure.attempt (retries - 1)

/-- The state in which `main` begins to mirror. -/
def startMain (fs : Fs) (c : F) (retries : Int) : World F :=
  { fs := fs
    curDir := ['.', '/']
    spDeletes := 0
    spDirsTraversed := 0
    ftpRetries := retries
    ftpResp := 0
    ftp := c
    tick := 0
    hist := []
    trace := [] }

/-- The state that a program leaves. -/
def leaves {α : Type} (x : Prog F α) (w : World F) : World F :=
  match x w with
  | .ok _ w' => w'
  | .error _ w' => w'

/-- `main` from its first login on, with the option `retries`: the tally at its end. -/
def mainRun (env : Env F) (ops : LoginOps F) (fs : Fs) (retries : Nat) : Tally :=
  match loginLoop ops.ftpLogin (retries + 2) ⟨0, 0⟩ retries with
  | (t, none) => t
  | (t, some (c, left)) =>
    let (set, c) := ops.ftpReqType c
    if set = false then t
    else
      let (there, c) := ops.ftpCd c
      if there = false then t
      else
        match ops.ftpDirDot c with
        | (none, _) => t
        | (some listing, c) =>
          (leaves (mirror (counted env) listing) (startMain fs (c, t) left)).ftp.2

/-! ## The number of retries -/

variable {n : Nat} {t : Tally} {retries : Int}

/-- While a run goes on it has tried for each failure, and has the rest of the retries. -/
structure Balanced (n : Nat) (t : Tally) (retries : Int) : Prop where
  failures : t.failures = t.attempts
  sum : t.attempts + retries = n
  low : -1 ≤ retries

/-- There is a failure that it has not tried again for. -/
structure Pending (n : Nat) (t : Tally) (retries : Int) : Prop where
  failures : t.failures = t.attempts + 1
  sum : t.attempts + retries = n
  low : -1 ≤ retries

/-- It has tried once more than it was to, and had another failure. -/
structure Spent (n : Nat) (t : Tally) : Prop where
  attempts : t.attempts = n + 1
  failures : t.failures = n + 2

/-- What is said of a run at its end. A run that has reached its limit of deletions ends between a
failure and the try for it. -/
structure Settled (n : Nat) (t : Tally) : Prop where
  tried : t.attempts ≤ t.failures
  asked : t.failures ≤ t.attempts + 1
  atMost : t.attempts ≤ n + 1

theorem Balanced.settled (h : Balanced n t retries) : Settled n t := by
  have hfailures := h.failures
  have hsum := h.sum
  have hlow := h.low
  exact ⟨by omega, by omega, by omega⟩

/-- Before the try. -/
theorem Balanced.settled_before (h : Balanced n t.attempt retries) : Settled n t := by
  have hfailures : t.failures = t.attempts + 1 := h.failures
  have hsum : ((t.attempts + 1 : Nat) : Int) + retries = n := h.sum
  have hlow := h.low
  exact ⟨by omega, by omega, by omega⟩

theorem Spent.settled (h : Spent n t) : Settled n t := by
  have hattempts := h.attempts
  have hfailures := h.failures
  exact ⟨by omega, by omega, by omega⟩

theorem Balanced.failure (h : Balanced n t retries) : Pending n t.failure retries where
  failures := congrArg (· + 1) h.failures
  sum := h.sum
  low := h.low

/-- The test of the retries fails. -/
theorem Pending.spent (h : Pending n t retries) (hr : retries < 0) : Spent n t := by
  have hsum := h.sum
  have hlow := h.low
  have hfailures := h.failures
  exact ⟨by omega, by omega⟩

/-- Another try. -/
theorem Pending.attempt (h : Pending n t retries) (hr : ¬retries < 0) :
    Balanced n t.attempt (retries - 1) where
  failures := h.failures
  sum := by
    have hsum := h.sum
    show ((t.attempts + 1 : Nat) : Int) + (retries - 1) = n
    omega
  low := by omega

/-! ## The login loop -/

theorem loginLoop_retries (ftpLogin : Nat → Option F) : ∀ (fuel : Nat) (t : Tally) (retries : Int),
    Balanced n t retries → retries + 2 ≤ fuel →
    (∀ t', loginLoop ftpLogin fuel t retries = (t', none) → Spent n t') ∧
      ∀ t' c left, loginLoop ftpLogin fuel t retries = (t', some (c, left)) →
        Balanced n t' left := by
  intro fuel
  induction fuel with
  | zero =>
    intro t retries h hfuel
    have hlow := h.low
    omega
  | succ fuel ih =>
    intro t retries h hfuel
    rw [loginLoop]
    cases ftpLogin t.attempts with
    | some c =>
      constructor
      · intro t' ht'
        cases ht'
      · intro t' c' left ht'
        cases ht'
        exact h
    | none =>
      by_cases hr : retries < 0
      · simp only [if_pos hr]
        constructor
        · intro t' ht'
          cases ht'
          exact h.failure.spent hr
        · intro t' c left ht'
          cases ht'
      · simp only [if_neg hr]
        exact ih _ _ (h.failure.attempt hr) (by omega)

/-! ## What the operations do to the tally -/

variable {env : Env F} {w : World (F × Tally)}

/-- What a state says of the tally and of the retries that are left. -/
def Counts (J : Tally → Int → Prop) (w : World (F × Tally)) : Prop := J w.ftp.2 w.ftpRetries

theorem counts_treeFree (J : Tally → Int → Prop) : TreeFree (F := F × Tally) (Counts J) where
  ticked _ h := h
  record _ _ _ h := h
  count _ _ h := h
  wrote _ _ h := h

/-- The program returns with `Q`, or the run is over and settled. -/
abbrev Settles (n : Nat) {α : Type} (x : Prog (F × Tally) α) (w : World (F × Tally))
    (Q : α → World (F × Tally) → Prop) : Prop := wp x w Q fun _ w' => Settled n w'.ftp.2

/-- What looks at no counter leaves the tally as it is. -/
theorem Settles.of_keeps {α : Type} {x : Prog (F × Tally) α} {J : Tally → Int → Prop}
    (hx : ∀ {I : World (F × Tally) → Prop}, TreeFree I → Keeps I x)
    (hJ : ∀ t r, J t r → Settled n t) (h : Counts J w) : Settles n x w fun _ => Counts J :=
  wp_mono (hx (counts_treeFree J) w h) (fun _ _ h' => h') fun _ w' h' => hJ _ w'.ftpRetries h'

theorem keeps_balanced {α : Type} {x : Prog (F × Tally) α}
    (hx : ∀ {I : World (F × Tally) → Prop}, TreeFree I → Keeps I x) (h : Counts (Balanced n) w) :
    Settles n x w fun _ => Counts (Balanced n) :=
  Settles.of_keeps hx (fun _ _ => Balanced.settled) h

/-- A request has cost the connection, or it has not. -/
structure Answered (n : Nat) (lost : Prop) (t : Tally) (retries : Int) : Prop where
  pending : lost → Pending n t retries
  balanced : ¬lost → Balanced n t retries

theorem Answered.of_counted {lost : Prop} [Decidable lost] (h : Balanced n t retries) :
    Answered n lost (if lost then t.failure else t) retries where
  pending hlost := by
    rw [if_pos hlost]
    exact h.failure
  balanced hlost := by
    rw [if_neg hlost]
    exact h

theorem ftpRelogin_tally (h : Balanced n w.ftp.2.attempt w.ftpRetries) :
    Settles n (ftpRelogin (counted env)) w fun b w' =>
      Counts (Answered n (b = false)) w' ∧ w'.ftpRetries = w.ftpRetries := by
  refine ⟨?_, rfl⟩
  show Answered n ((env.ftp.ftpRelogin w.ftp.1).1.1 = false)
    (if (env.ftp.ftpRelogin w.ftp.1).1.1 then w.ftp.2.attempt else w.ftp.2.attempt.failure) _
  cases (env.ftp.ftpRelogin w.ftp.1).1.1 with
  | true => exact ⟨by simp, fun _ => h⟩
  | false => exact ⟨fun _ => h.failure, by simp⟩

theorem ftpDir_tally (h : Counts (Balanced n) w) :
    Settles n (ftpDir (counted env)) w fun o w' =>
      Counts (Answered n (o = none ∧ Lost w'.ftpResp)) w' :=
  Answered.of_counted h

theorem ftpTransfer_tally {localFile remoteFile : Str} {seekto : Nat} (h : Counts (Balanced n) w) :
    Settles n (ftpTransfer (counted env) localFile remoteFile seekto) w fun t w' =>
      Counts (Answered n (t.ok = false ∧ Lost t.resp)) w' := by
  simp only [Settles, ftpTransfer, wp_bind, wp_modifyGet, wp_get, wp_pure]
  exact (counts_treeFree _).act _ (Answered.of_counted h)

theorem ftpOpen_tally {localFile remoteFile : Str} {seekto : Nat} (h : Counts (Balanced n) w) :
    Settles n (ftpOpen (counted env) localFile remoteFile seekto) w fun t w' =>
      Counts (Answered n (t.ok = false ∧ Lost t.resp)) w' := by
  have hkept : ∀ {t : Transfer} {w : World (F × Tally)}, ¬Lost t.resp → Counts (Balanced n) w →
      Counts (Answered n (t.ok = false ∧ Lost t.resp)) w :=
    fun hlost h => ⟨fun h' => absurd h'.2 hlost, fun _ => h⟩
  refine wp_seq (keeps_balanced (fun hI => hI.act) h) fun r w₁ h₁ => ?_
  cases r with
  | error e => exact hkept (by decide) h₁
  | ok u =>
    show Settles n (ftpSeek (counted env) localFile remoteFile seekto) w₁ _
    by_cases hseek : seekto = 0
    · rw [ftpSeek, if_pos hseek]
      exact ftpTransfer_tally h₁
    · rw [ftpSeek, if_neg hseek]
      refine wp_seq (keeps_balanced (fun hI => hI.look) h₁) fun r w₂ h₂ => ?_
      cases r with
      | error e => exact hkept (by decide) h₂
      | ok u => exact ftpTransfer_tally h₂

theorem ftpGet_tally {localFile remoteFile : Str} {seekto : Nat} (h : Counts (Balanced n) w) :
    Settles n (ftpGet (counted env) localFile remoteFile seekto) w fun b w' =>
      Counts (Answered n (b = false ∧ Lost w'.ftpResp)) w' :=
  wp_seq (ftpOpen_tally h) fun _ _ h₁ => h₁

/-! ## The loops -/

/-- The loop of `sp_sync_dir` that logs in again, by induction on the retries. -/
theorem reloginDir_tally : ∀ (fuel : Nat) (w : World (F × Tally)), Counts (Pending n) w →
    w.ftpRetries + 2 ≤ fuel →
    Settles n (reloginDir (counted env) fuel) w fun _ => Counts (Balanced n) := by
  intro fuel
  induction fuel with
  | zero =>
    intro w h hfuel
    have hlow := h.low
    omega
  | succ fuel ih =>
    intro w h hfuel
    by_cases hr : w.ftpRetries < 0
    · simp only [Settles, reloginDir, wp_bind, wp_get, wp_set, hr, if_true]
      exact (h.spent hr).settled
    · simp only [Settles, reloginDir, wp_bind, wp_get, wp_set, hr, if_false]
      refine wp_mono (ftpRelogin_tally (h.attempt hr)) (fun b w₁ h₁ => ?_) fun _ _ h' => h'
      obtain ⟨hafter, hleft⟩ := h₁
      cases b with
      | true => exact hafter.balanced (by simp)
      | false =>
        refine ih w₁ (hafter.pending rfl) ?_
        rw [hleft]
        show w.ftpRetries - 1 + 2 ≤ _
        omega

/-- The loop of `get_ftp_file` that logs in again, by induction on the retries. -/
theorem reloginFile_tally (spf : SpFile) (localFile : Str) :
    ∀ (fuel : Nat) (w : World (F × Tally)) (size : Nat) (erased : Bool), Counts (Pending n) w →
      w.ftpRetries + 2 ≤ fuel →
      Settles n (reloginFile (counted env) spf localFile fuel size erased) w fun _ =>
        Counts (Balanced n) := by
  intro fuel
  induction fuel with
  | zero =>
    intro w size erased h hfuel
    have hlow := h.low
    omega
  | succ fuel ih =>
    intro w size erased h hfuel
    by_cases hr : w.ftpRetries < 0
    · simp only [Settles, reloginFile, wp_bind, wp_get, wp_set, hr, if_true]
      refine wp_mono (Settles.of_keeps (J := fun t _ => Spent n t) (fun hI => hI.giveUp spf)
        (fun _ _ => Spent.settled) (h.spent hr)) (fun _ _ h' => ?_) fun _ _ h' => h'
      exact Spent.settled h'
    · simp only [Settles, reloginFile, wp_bind, wp_get, wp_set, hr, if_false]
      have htry : Counts (fun t r => Balanced n t.attempt r ∧ r + 2 ≤ fuel)
          { w with ftpRetries := w.ftpRetries - 1 } := by
        refine ⟨h.attempt hr, ?_⟩
        show w.ftpRetries - 1 + 2 ≤ _
        omega
      refine wp_mono (Settles.of_keeps (fun hI => hI.resumeSize spf localFile size erased)
        (fun _ _ h' => h'.1.settled_before) htry) (fun r w₁ h₁ => ?_) fun _ _ h' => h'
      refine wp_mono (ftpRelogin_tally h₁.1) (fun b w₂ h₂ => ?_) fun _ _ h' => h'
      obtain ⟨hafter, hleft⟩ := h₂
      cases b with
      | true => exact hafter.balanced (by simp)
      | false =>
        refine ih w₂ _ _ (hafter.pending rfl) ?_
        rw [hleft]
        exact h₁.2

/-- The tries of `get_ftp_file`, by induction on their number. -/
theorem restart_tally (spf : SpFile) (remoteFile localFile : Str) :
    ∀ (fuel : Nat) (w : World (F × Tally)) (size : Nat) (rmedOrig erased : Bool),
      Counts (Balanced n) w →
      Settles n (restart (counted env) spf remoteFile localFile fuel size rmedOrig erased) w
        fun _ => Counts (Balanced n) := by
  intro fuel
  induction fuel with
  | zero =>
    intro w size rmedOrig erased h
    exact Balanced.settled h
  | succ fuel ih =>
    intro w size rmedOrig erased h
    refine wp_seq (ftpGet_tally h) fun b w₁ h₁ => ?_
    cases b with
    | true =>
      exact keeps_balanced (fun hI => hI.finishFile spf) (h₁.balanced (by simp))
    | false =>
      have hkept : ¬Lost w₁.ftpResp → Counts (Balanced n) w₁ := fun hlost =>
        h₁.balanced fun h' => hlost h'.2
      simp only [Bool.false_eq_true, if_false, wp_bind, wp_get]
      rw [wp_ite]
      refine ⟨fun hlost => ?_, fun hlost => ?_⟩
      · refine wp_seq (reloginFile_tally spf localFile _ w₁ size erased (h₁.pending ⟨rfl, hlost⟩)
          (by omega)) fun r w₂ h₂ => ih w₂ _ _ _ h₂
      · have h₁ : Counts (Balanced n) w₁ := h₁.balanced fun h' => hlost h'.2
        have hlater : ∀ {x : Prog (F × Tally) PUnit}, (∀ {I}, TreeFree I → Keeps I x) →
            Settles n x w₁ fun _ => Counts (Balanced n) := fun hx =>
          keeps_balanced hx h₁
        rw [wp_ite]
        refine ⟨fun _ => hlater fun hI => hI.giveUp spf, fun _ => ?_⟩
        rw [wp_ite]
        refine ⟨fun _ => ?_, fun _ => Balanced.settled h₁⟩
        rw [wp_ite]
        refine ⟨fun _ => Balanced.settled h₁, fun _ => ?_⟩
        refine wp_seq (keeps_balanced (fun hI => hI.act) h₁) fun _ w₂ h₂ => ?_
        refine wp_seq (keeps_balanced (fun hI => hI.act) h₂) fun _ w₃ h₃ => ?_
        exact ih w₃ _ _ _ h₃

theorem getFtpFile_tally (spf : SpFile) (h : Counts (Balanced n) w) :
    Settles n (getFtpFile (counted env) spf) w fun _ => Counts (Balanced n) := by
  show Settles n (downloadFile (counted env) spf) (w.logged (.fetch spf)) _
  have h : Counts (Balanced n) (w.logged (.fetch spf)) := h
  rw [downloadFile, Settles, wp_bind, wp_get]
  cases spfFullName (counted env) spf (w.logged (.fetch spf)) with
  | none => exact h
  | some remoteFile =>
    refine wp_seq (keeps_balanced (fun hI => hI.spfUseTmpName spf) h)
      fun r w₁ h₁ => ?_
    cases r with
    | none => exact h₁
    | some spf =>
      simp only [wp_bind, wp_get]
      cases spfFullName (counted env) spf w₁ with
      | none => exact h₁
      | some localFile => exact restart_tally spf remoteFile localFile _ w₁ _ _ _ h₁

/-- The loop of `sp_sync_dir` that lists a directory, by induction on the number of tries. -/
theorem listDir_tally : ∀ (fuel : Nat) (w : World (F × Tally)), Counts (Balanced n) w →
    Settles n (listDir (counted env) fuel) w fun _ => Counts (Balanced n) := by
  intro fuel
  induction fuel with
  | zero =>
    intro w h
    exact Balanced.settled h
  | succ fuel ih =>
    intro w h
    refine wp_seq (ftpDir_tally h) fun o w₁ h₁ => ?_
    cases o with
    | some tempFile => exact h₁.balanced (by simp)
    | none =>
      simp only [wp_bind, wp_get]
      rw [wp_ite]
      refine ⟨fun hlost => ?_, fun hlost => ?_⟩
      · refine wp_seq (reloginDir_tally _ w₁ (h₁.pending ⟨rfl, hlost⟩) (by omega)) fun _ w₂ h₂ => ?_
        rw [wp_bind, wp_get, wp_ite]
        exact ⟨fun _ => h₂, fun _ => ih w₂ h₂⟩
      · have h₁ : Counts (Balanced n) w₁ := h₁.balanced fun h' => hlost h'.2
        rw [wp_ite]
        exact ⟨fun _ => h₁, fun _ => Balanced.settled h₁⟩

/-! ## The whole run -/

/-- While a run mirrors, its tally is balanced. -/
theorem balanced_runInv (env : Env F) (n : Nat) :
    RunInv (counted env) (fun _ => True) (fun w => Settled n w.ftp.2)
      (fun _ : Unit => Counts (Balanced n)) (fun _ _ => True) (fun _ _ => True)
      (fun _ _ => ()) := by
  have hfree : TreeFree (F := F × Tally) (Counts (Balanced n)) := counts_treeFree _
  have hkeeps : ∀ {α : Type} {x : Prog (F × Tally) α}, (∀ {I}, TreeFree I → Keeps I x) →
      Does (fun _ => True) (fun w => Settled n w.ftp.2) (Counts (Balanced n)) x
        fun _ => Counts (Balanced n) := fun hx =>
    Upholds.of_keeps (grows_of_loose fun hI => hx hI.toTreeFree) (hx hfree)
      fun _ => Balanced.settled
  exact {
    still := fun _ => hfree.toStill
    traversed := fun _ _ _ h => h
    exits := fun _ _ => Balanced.settled
    notSkip := fun _ _ _ _ _ => trivial
    listDir := fun _ fuel => Upholds.of_wp (fun tr => listDir_keeps (grew_loose tr).toStable fuel)
      (listDir_tally fuel)
    getFtpFile := fun _ spf => Upholds.of_wp (grows_of_loose fun hI => hI.getFtpFile spf)
      fun _ h => getFtpFile_tally spf h.1
    spfRm := fun _ spf => (hkeeps fun hI => hI.spfRm spf).pre fun _ h => h.1
    spfSymlink := fun _ spf => hkeeps fun hI => spfSymlink_keeps hI.toStill fun w hw => hI.act w hw
    spfMkdir := fun _ spf => hkeeps fun hI => spfMkdir_keeps hI.toStill fun w hw => hI.act w hw
    spfChmod := fun _ spf mode => hkeeps fun hI => spfChmod_keeps fun w hw => hI.act w hw
    spfNewTime := fun _ spf => hkeeps fun hI => spfNewTime_keeps fun w hw => hI.act w hw
    enter := fun _ _ _ h _ => ⟨trivial, h⟩
    below := fun _ _ _ _ _ _ h => h
    leave := fun _ _ _ _ h => h
    outside := fun _ _ _ _ _ _ h => h }

theorem leaves_of_wp {α : Type} {x : Prog F α} {w : World F} {P : World F → Prop}
    (h : wp x w (fun _ => P) fun _ => P) : P (leaves x w) := by
  unfold leaves
  unfold wp at h
  cases hx : x w <;> simpa only [hx] using h

theorem mirror_settled (listing : Str) (h : Counts (Balanced n) w) :
    Settled n (leaves (mirror (counted env) listing) w).ftp.2 := by
  refine leaves_of_wp (P := fun w' => Settled n w'.ftp.2)
    (wp_mono (((balanced_runInv env n).mirror_upholds () listing).run h) ?_ ?_)
  · intro _ w' h'
    obtain ⟨new, -, h'⟩ := h'
    exact Balanced.settled (h' fun _ _ => trivial)
  · intro _ w' h'
    obtain ⟨new, -, h'⟩ := h'
    exact h' fun _ _ => trivial

theorem mainRun_settled (env : Env F) (ops : LoginOps F) (fs : Fs) (retries : Nat) :
    Settled retries (mainRun env ops fs retries) := by
  have hstart : Balanced retries ⟨0, 0⟩ retries := ⟨rfl, by simp, by omega⟩
  obtain ⟨hquit, hlogin⟩ :=
    loginLoop_retries ops.ftpLogin (retries + 2) ⟨0, 0⟩ retries hstart (by omega)
  unfold mainRun
  generalize loginLoop ops.ftpLogin (retries + 2) ⟨0, 0⟩ retries = r at hquit hlogin
  obtain ⟨t, _ | ⟨c, left⟩⟩ := r
  · exact (hquit t rfl).settled
  · have h := hlogin t c left rfl
    simp only
    split
    · exact h.settled
    · split
      · exact h.settled
      · cases ops.ftpDirDot (ops.ftpCd (ops.ftpReqType c).2).2 with
        | mk listing c =>
          cases listing with
          | none => exact h.settled
          | some listing => exact mirror_settled listing h

/-- **The retries.** A run with `retries` retries tries to log in again at most as often if no more
requests than that have failed, whatever fails. With two more it has tried once too often, and it
never tries more often than that. -/
theorem mainRun_retries (env : Env F) (ops : LoginOps F) (fs : Fs) (retries : Nat) :
    ((mainRun env ops fs retries).failures ≤ retries →
      (mainRun env ops fs retries).attempts ≤ retries) ∧
    (retries + 2 ≤ (mainRun env ops fs retries).failures →
      (mainRun env ops fs retries).attempts = retries + 1) ∧
    (mainRun env ops fs retries).attempts ≤ retries + 1 := by
  have h := mainRun_settled env ops fs retries
  have htried := h.tried
  have hasked := h.asked
  have hatMost := h.atMost
  refine ⟨fun hf => by omega, fun hf => by omega, hatMost⟩

/-- A server that refuses every login. -/
def refuses : LoginOps Unit where
  ftpLogin _ := none
  ftpReqType c := (false, c)
  ftpCd c := (false, c)
  ftpDirDot c := (none, c)

/-- A server that refuses the first login only, and then has nothing to list. -/
def refusesOnce : LoginOps Unit where
  ftpLogin n := if n = 0 then none else some ()
  ftpReqType c := (true, c)
  ftpCd c := (true, c)
  ftpDirDot c := (none, c)

theorem mainRun_retries_refused :
    (mainRun (calmEnv deadFtp) refuses Fs.init 3).attempts = 3 + 1 ∧
      (mainRun (calmEnv deadFtp) refusesOnce Fs.init 3).attempts ≤ 3 :=
  ⟨(mainRun_retries (calmEnv deadFtp) refuses Fs.init 3).2.1 (by decide),
    (mainRun_retries (calmEnv deadFtp) refusesOnce Fs.init 3).1 (by decide)⟩

/-- No retry is allowed, and there is one. -/
theorem mainRun_retries_one_more : ¬(mainRun (calmEnv deadFtp) refuses Fs.init 0).attempts ≤ 0 := by
  decide

end Spegla
