import Spegla.Lib.EventLog
import Spegla.SyncDir

/-!
# What the operations keep

An invariant of a run that looks at the tree, at `cur_dir` and at the record, and
not at the counters, is kept by an operation if the system calls of the operation
that change the tree keep it.

- `Still`: such an invariant, which may also look at the connection. `Stable`: one that does not.
- `TreeFree`: one that does not look at the tree. `Loose`: one that looks at neither.
- `…_keeps`, `Loose.…`: one lemma for each operation, up to `getFtpFile`.
- `grew_loose`: the record only gets longer, whatever happens.
-/

namespace Spegla

open CString PosixFs ExitState

variable {F : Type} {env : Env F} {I : World F → Prop}

/-- The invariant does not look at the counters, and events of the operations may be
added. -/
structure Still (I : World F → Prop) : Prop where
  ticked : ∀ w, I w → I w.ticked
  record : ∀ w e, e.ofLoop = false → I w → I (w.logged e)
  count : ∀ w n, I w → I { w with spDeletes := n }

/-- It does not look at the connection either. -/
structure Stable (I : World F → Prop) : Prop extends Still I where
  conn : ∀ w ftp resp retries, I w →
    I { w with ftp := ftp, ftpResp := resp, ftpRetries := retries }

/-- A call that only looks keeps whatever does not look at its result. -/
theorem Still.look (hI : Still I) {α : Type} {call : Sys} {f : Option Str}
    {g : Str → Fs → Except Errno α} : Keeps I (look env call f g) :=
  Keeps.look hI.ticked

/-- So does recording an event that is none of the loops. -/
theorem Still.recorded (hI : Still I) {e : Event} (he : e.ofLoop = false) :
    Keeps I (Spegla.record (F := F) e) := Keeps.modify fun w => hI.record w e he

/-- `is_dir` only looks. -/
theorem isDir_keeps (hI : Still I) (f : Option Str) : Keeps I (isDir env f) :=
  hI.look.bind fun r => by cases r <;> exact Keeps.pure _

/-- `rm_f` keeps what its two calls keep. -/
theorem rmF_keeps (hI : Still I) {f : Option Str}
    (hrmdir : Keeps I (act env .rmdir f fun _ => rmdir env.cwd))
    (hunlink : Keeps I (act env .unlink f fun _ => unlink env.cwd)) : Keeps I (rmF env f) := by
  refine Keeps.get.bind fun w => Keeps.ite (fun _ => Keeps.throw _) fun _ => ?_
  refine (isDir_keeps hI f).bind fun b => Keeps.bind ?_ fun r => ?_
  · exact Keeps.ite (fun _ => hrmdir) fun _ => hunlink
  · cases r with
    | error e => exact Keeps.pure _
    | ok u => exact (Keeps.modify fun w => hI.count w _).bind fun _ => Keeps.pure _

/-- The loop of `rm_rf` over the entries of a directory, by induction on their names. -/
theorem rmEntries_keeps (hI : Still I) (hrm : ∀ f, Keeps I (rmF env f)) {rec : Str → Prog F Bool}
    (hrec : ∀ f, Keeps I (rec f)) (f : Str) : ∀ names, Keeps I (rmEntries env rec f names)
  | [] => Keeps.pure _
  | name :: names => by
    refine (isDir_keeps hI _).bind fun b => Keeps.ite (fun _ => ?_) fun _ => ?_
    · exact (hrec _).bind fun _ => rmEntries_keeps hI hrm hrec f names
    · exact (hrm _).bind fun _ => rmEntries_keeps hI hrm hrec f names

/-- **`rm_rf`** keeps what `rm_f` keeps, by induction on the depth. -/
theorem rmRf_keeps (hI : Still I) (hrm : ∀ f, Keeps I (rmF env f)) :
    ∀ stack f, Keeps I (rmRf env stack f)
  | 0, _ => Keeps.throw _
  | stack + 1, f => by
    refine Keeps.ite (fun _ => Keeps.pure _) fun _ => ?_
    refine (isDir_keeps hI _).bind fun b => Keeps.ite (fun _ => ?_) fun _ => hrm _
    refine Keeps.get.bind fun w => Keeps.ite (fun _ => Keeps.throw _) fun _ => ?_
    refine hI.look.bind fun r => ?_
    cases r with
    | error e => exact Keeps.pure _
    | ok names =>
      exact (rmEntries_keeps hI hrm (rmRf_keeps hI hrm stack) f names).bind fun _ => hrm _

/-- `spf_rm` keeps it too. -/
theorem spfRm_keeps (hI : Still I) (hrm : ∀ f, Keeps I (rmF env f)) (spf : SpFile) :
    Keeps I (spfRm env spf) := by
  refine (hI.recorded rfl).bind fun _ => Keeps.ite (fun _ => ?_) fun _ => Keeps.pure _
  refine Keeps.get.bind fun w => Keeps.ite (fun _ => ?_) fun _ => hrm _
  cases spfFullName env spf w with
  | none => exact Keeps.throw _
  | some f => exact rmRf_keeps hI hrm _ f

/-! An operation that acts on the path of its entry keeps what the call keeps from the
state it is made in. -/

/-- `spf_chmod` keeps what its call keeps. -/
theorem spfChmod_keeps {spf : SpFile} {mode : Mode}
    (hact : ∀ w, I w → EndsIn I
      (act env .chmod (spfFullName env spf w) fun _ => chmod env.cwd (spf.spfMode ||| mode)) w) :
    Keeps I (spfChmod env spf mode) :=
  Keeps.get_bind fun w hw => (hact w hw).bind fun r => by cases r <;> exact Keeps.pure _

/-- `spf_new_time` keeps what its call keeps. -/
theorem spfNewTime_keeps {spf : SpFile}
    (hact : ∀ w, I w → EndsIn I
      (act env .utimes (spfFullName env spf w) fun _ => utimes env.cwd spf.spfTime) w) :
    Keeps I (spfNewTime env spf) :=
  Keeps.get_bind fun w hw => (hact w hw).bind fun r => by cases r <;> exact Keeps.pure _

/-- `spf_mkdir` keeps what its call keeps. -/
theorem spfMkdir_keeps (hI : Still I) {spf : SpFile}
    (hact : ∀ w, I w → EndsIn I (act env .mkdir (spfFullName env spf w) fun now =>
      mkdir env.cwd ((spf.spfMode ||| S_IRWXU) &&& ~~~env.umask) now) w) :
    Keeps I (spfMkdir env spf) :=
  Keeps.ite (fun _ => Keeps.pure _) fun _ => (hI.recorded rfl).bind fun _ => Keeps.get_bind hact

/-- `spf_symlink` keeps what its call keeps. -/
theorem spfSymlink_keeps (hI : Still I) {spf : SpFile}
    (hact : ∀ w, I w → EndsIn I (act env .symlink (spfFullName env spf w) fun now f fs =>
      match spf.spfSymlink with
      | none => .error .EFAULT
      | some target => symlink env.cwd target now f fs) w) : Keeps I (spfSymlink env spf) :=
  (hI.recorded rfl).bind fun _ => Keeps.get_bind fun w hw => (hact w hw).bind fun r => by
    cases r <;> exact Keeps.pure _

/-- `spf_restore_name` keeps what the renaming keeps. -/
theorem spfRestoreName_keeps (hI : Still I) {spf : SpFile}
    (hact : ∀ w orig, I w → spf.spfOrigName = some orig →
      EndsIn I (act env .rename (spfFullName env spf w) fun _ =>
        renameTo env (fullName env.pathMax w.curDir orig)) w.ticked) : Keeps I
          (spfRestoreName env spf) := by
  unfold spfRestoreName
  cases ho : spf.spfOrigName with
  | none => exact Keeps.pure _
  | some orig =>
    refine Keeps.get_bind fun w hw => ?_
    have hrename := (hact w orig hw ho).bind fun _ => Keeps.pure (⟨⟩ : PUnit)
    show EndsIn I (look env .lstat (spfFullName env spf w) (lstat env.cwd) >>= fun r => _) w
    rw [EndsIn, wp_bind, wp_look]
    rcases lookAt env .lstat (spfFullName env spf w) (lstat env.cwd) w with (- | -) | -
    any_goals exact hrename
    exact hI.ticked w hw

/-- `spf_stat_init` only looks. -/
theorem spfStatInit_keeps (hI : Still I) (f : Str) : Keeps I (spfStatInit env f) := by
  refine Keeps.get.bind fun w => hI.look.bind fun r => ?_
  cases r with
  | error e => exact Keeps.pure _
  | ok n =>
    refine Keeps.ite (fun _ => hI.look.bind fun r => ?_) fun _ => Keeps.pure _
    cases r <;> exact Keeps.pure _

/-! ## The local directory and the connection -/

/-- A pure result or an exit changes nothing. -/
theorem ofExcept_keeps {α : Type} (r : Except Exit α) : Keeps I (ofExcept r) := by
  cases r with
  | error e => exact Keeps.throw _
  | ok a => exact Keeps.pure _

/-- `build_local_dir` only looks. -/
theorem buildLocalDir_keeps (hI : Still I) : Keeps I (buildLocalDir env) := by
  refine Keeps.get.bind fun w => hI.look.bind fun r => ?_
  cases r with
  | error e => exact Keeps.pure _
  | ok names =>
    refine Keeps.map _ (Keeps.foldlM names _ fun headp name _ => ?_)
    refine (spfStatInit_keeps hI name).bind fun s => ?_
    cases s with
    | none => exact Keeps.pure _
    | some spf =>
      refine Keeps.get.bind fun w => (ofExcept_keeps _).bind fun o => ?_
      cases o <;> exact Keeps.pure _

/-- `ftp_relogin` is none of the local tree. -/
theorem ftpRelogin_keeps (hI : Stable I) : Keeps I (ftpRelogin env) := fun w hw =>
  hI.conn w _ _ w.ftpRetries hw

/-- Nor is `ftp_dir`. -/
theorem ftpDir_keeps (hI : Stable I) : Keeps I (ftpDir env) := fun w hw =>
  hI.conn w _ _ w.ftpRetries hw

/-- Nor is the count of the retries. -/
theorem useRetry_keeps (hI : Stable I) {w : World F} (hw : I w) :
    I { w with ftpRetries := w.ftpRetries - 1 } :=
  hI.conn w w.ftp w.ftpResp _ hw

/-- The loop that logs in again for a listing, by induction on the fuel. -/
theorem reloginDir_keeps (hI : Stable I) : ∀ fuel, Keeps I (reloginDir env fuel)
  | 0 => Keeps.throw _
  | fuel + 1 => fun w hw => by
    have hw' := useRetry_keeps hI hw
    by_cases hr : w.ftpRetries < 0
    · simp only [reloginDir, wp_bind, wp_get, wp_set, hr, if_true]
      exact hw'
    · simp only [reloginDir, wp_bind, wp_get, wp_set, hr, if_false]
      refine wp_mono (ftpRelogin_keeps hI _ hw') (fun b w₁ hw₁ => ?_) fun _ _ h => h
      cases b with
      | true => exact hw₁
      | false => exact reloginDir_keeps hI fuel w₁ hw₁

/-- The loop of `sp_sync_dir` that lists a directory keeps it, by induction on the fuel. -/
theorem listDir_keeps (hI : Stable I) : ∀ fuel, Keeps I (listDir env fuel)
  | 0 => Keeps.throw _
  | fuel + 1 => by
    refine (ftpDir_keeps hI).bind fun r => ?_
    cases r with
    | some t => exact Keeps.pure _
    | none =>
      refine Keeps.get.bind fun w => Keeps.ite (fun _ => ?_) fun _ =>
        Keeps.ite (fun _ => Keeps.pure _) fun _ => Keeps.throw _
      refine (reloginDir_keeps hI _).bind fun _ => Keeps.get.bind fun w => ?_
      exact Keeps.ite (fun _ => Keeps.pure _) fun _ => listDir_keeps hI fuel

/-- `build_remote_dir` only reads the listing. -/
theorem openListing_keeps (hI : Still I) (t : Option Str) : Keeps I (openListing env t) := by
  cases t with
  | none => exact Keeps.pure _
  | some listing =>
    refine hI.look.bind fun r => ?_
    cases r with
    | error e => exact Keeps.throw _
    | ok u => exact Keeps.get.bind fun w => ofExcept_keeps _

/-! ## Files -/

/-- The invariant does not look at the tree. -/
structure TreeFree (I : World F → Prop) : Prop extends Still I where
  wrote : ∀ w fs, I w → I (w.wrote fs)

/-- It looks neither at the tree nor at the connection. -/
structure Loose (I : World F → Prop) : Prop extends Stable I, TreeFree I

/-- What is free of the tree is kept by every call that changes it. -/
theorem TreeFree.act (hI : TreeFree I) {call : Sys} {f : Option Str}
    {g : Int → Str → Fs → Except Errno Fs} : Keeps I (act env call f g) :=
  Keeps.act hI.ticked fun w _ fs hw _ _ => hI.wrote w fs hw

/-- That the record has grown is loose. -/
theorem grew_loose (tr : List Logged) : Loose (F := F) fun w => tr <:+ w.trace where
  ticked _ h := h
  record _ _ _ h := h.trans (List.suffix_cons ..)
  count _ _ h := h
  conn _ _ _ _ h := h
  wrote _ _ h := h

/-- What keeps the record as it is. -/
def Silently {α : Type} (x : Prog F α) : Prop :=
  ∀ tr : List Logged, Keeps (fun w : World F => w.trace = tr) x

/-- A call that only looks records nothing. -/
theorem Silently.look {α : Type} {call : Sys} {f : Option Str} {g : Str → Fs → Except Errno α} :
    Silently (look env call f g) := fun _ => Keeps.look fun _ h => h

/-- Nor does one that changes the tree. -/
theorem Silently.act {call : Sys} {f : Option Str} {g : Int → Str → Fs → Except Errno Fs} :
    Silently (act env call f g) := fun _ => Keeps.act (fun _ h => h) fun _ _ _ h _ _ => h

/-- `rm_f` keeps what is free of the tree. -/
theorem TreeFree.rmF (hI : TreeFree I) (f : Option Str) : Keeps I (rmF env f) :=
  rmF_keeps hI.toStill hI.act hI.act

/-- So does `spf_rm`. -/
theorem TreeFree.spfRm (hI : TreeFree I) (spf : SpFile) : Keeps I (spfRm env spf) :=
  spfRm_keeps hI.toStill hI.rmF spf

/-- So does `spf_restore_name`. -/
theorem TreeFree.spfRestoreName (hI : TreeFree I) (spf : SpFile) :
    Keeps I (spfRestoreName env spf) :=
  spfRestoreName_keeps hI.toStill fun w _ hw _ => hI.act _ (hI.ticked w hw)

/-- A transfer keeps what its writes keep. -/
theorem ftpTransfer_keeps (hI : Stable I) {localFile remoteFile : Str} {seekto : Nat}
    (hwrite : ∀ data, Keeps I (act env .fwrite (some localFile) (append env.cwd data))) :
    Keeps I (ftpTransfer env localFile remoteFile seekto) := fun w hw => by
  have hw' := hI.conn w (env.ftp.ftpGet w.ftp remoteFile seekto).2 w.ftpResp w.ftpRetries hw
  simp only [Spegla.ftpTransfer, wp_bind, wp_modifyGet, wp_get, wp_pure]
  exact hwrite _ _ hw'

/-- With its `fopen` as well. -/
theorem ftpOpen_keeps (hI : Stable I) {localFile remoteFile : Str} {seekto : Nat}
    (hopen : Keeps I (act env .fopen (some localFile) (fopen env.cwd (seekto = 0) env.umask)))
    (hwrite : ∀ data, Keeps I (act env .fwrite (some localFile) (append env.cwd data))) :
    Keeps I (ftpOpen env localFile remoteFile seekto) := by
  refine hopen.bind fun r => ?_
  cases r with
  | error e => exact Keeps.pure _
  | ok u =>
    refine Keeps.ite (fun _ => ftpTransfer_keeps hI hwrite) fun _ => hI.look.bind fun r => ?_
    cases r with
    | error e => exact Keeps.pure _
    | ok u => exact ftpTransfer_keeps hI hwrite

/-- **`ftp_get`** keeps what its `fopen` and its writes keep. -/
theorem ftpGet_keeps (hI : Stable I) {localFile remoteFile : Str} {seekto : Nat}
    (hopen : Keeps I (act env .fopen (some localFile) (fopen env.cwd (seekto = 0) env.umask)))
    (hwrite : ∀ data, Keeps I (act env .fwrite (some localFile) (append env.cwd data))) :
    Keeps I (ftpGet env localFile remoteFile seekto) := by
  refine (ftpOpen_keeps hI hopen hwrite).bind fun t => ?_
  refine (Keeps.modify fun w => hI.conn w w.ftp t.resp w.ftpRetries).bind fun _ => ?_
  exact (hI.recorded rfl).bind fun _ => Keeps.pure _

/-- So it keeps what is loose. -/
theorem Loose.ftpGet (hI : Loose I) (localFile remoteFile : Str) (seekto : Nat) :
    Keeps I (ftpGet env localFile remoteFile seekto) :=
  ftpGet_keeps hI.toStable hI.act fun _ => hI.act

/-- The end of a download that has succeeded keeps what is free of the tree. -/
theorem TreeFree.finishFile (hI : TreeFree I) (spf : SpFile) : Keeps I (finishFile env spf) :=
  (spfChmod_keeps fun w hw => hI.act w hw).bind fun _ =>
    (spfNewTime_keeps fun w hw => hI.act w hw).bind fun _ => hI.spfRestoreName spf

/-- So does the end of one that is given up. -/
theorem TreeFree.giveUp (hI : TreeFree I) (spf : SpFile) : Keeps I (giveUp env spf) :=
  (hI.recorded rfl).bind fun _ => (hI.spfRm spf).bind fun _ => hI.spfRestoreName spf

/-- So does the look at what the temporary file holds. -/
theorem TreeFree.resumeSize (hI : TreeFree I) (spf : SpFile) (localFile : Str) (size : Nat)
    (erased : Bool) : Keeps I (resumeSize env spf localFile size erased) :=
  Keeps.ite (fun _ => Keeps.pure _) fun _ => hI.look.bind fun _ =>
    Keeps.ite (fun _ => (hI.spfRm spf).bind fun _ => Keeps.pure _) fun _ => Keeps.pure _

/-- The loop that logs in again for a download, by induction on the fuel. -/
theorem Loose.reloginFile (hI : Loose I) (spf : SpFile) (localFile : Str) :
    ∀ fuel size erased, Keeps I (reloginFile env spf localFile fuel size erased)
  | 0, _, _ => Keeps.throw _
  | fuel + 1, size, erased => fun w hw => by
    have hw' := useRetry_keeps hI.toStable hw
    by_cases hr : w.ftpRetries < 0
    · simp only [Spegla.reloginFile, wp_bind, wp_get, wp_set, hr, if_true]
      exact wp_mono (hI.giveUp spf _ hw') (fun _ _ h => h) fun _ _ h => h
    · simp only [Spegla.reloginFile, wp_bind, wp_get, wp_set, hr, if_false]
      refine wp_mono (hI.resumeSize spf localFile size erased _ hw') (fun r w₁ hw₁ => ?_)
        fun _ _ h => h
      refine wp_mono (ftpRelogin_keeps hI.toStable w₁ hw₁) (fun b w₂ hw₂ => ?_) fun _ _ h => h
      cases b with
      | true => exact hw₂
      | false => exact hI.reloginFile spf localFile fuel _ _ w₂ hw₂

/-- The tries of a download, by induction on the fuel. -/
theorem Loose.restart (hI : Loose I) (spf : SpFile) (remoteFile localFile : Str) :
    ∀ fuel size rmedOrig erased,
      Keeps I (restart env spf remoteFile localFile fuel size rmedOrig erased)
  | 0, _, _, _ => Keeps.throw _
  | fuel + 1, size, rmedOrig, erased => by
    refine (hI.ftpGet _ _ _).bind fun b => Keeps.ite (fun _ => hI.finishFile _) fun _ => ?_
    refine Keeps.get.bind fun w => Keeps.ite (fun _ => ?_) fun _ => Keeps.ite (fun _ => ?_) fun _ =>
      Keeps.ite (fun _ => Keeps.ite (fun _ => Keeps.throw _) fun _ => ?_) fun _ => Keeps.throw _
    · exact (hI.reloginFile _ _ _ _ _).bind fun r => hI.restart _ _ _ fuel _ _ _
    · exact hI.giveUp _
    · exact hI.act.bind fun _ => hI.act.bind fun _ => hI.restart _ _ _ fuel _ _ _

/-- `spf_use_tmp_name` keeps what is free of the tree. -/
theorem TreeFree.spfUseTmpName (hI : TreeFree I) (spf : SpFile) :
    Keeps I (spfUseTmpName env spf) := by
  refine Keeps.get.bind fun w => ?_
  cases fullName env.pathMax w.curDir (tmpTemplate env spf.spfName) with
  | none => exact Keeps.pure _
  | some template =>
    refine hI.act.bind fun r => ?_
    cases r with
    | error e => exact Keeps.pure _
    | ok u =>
      simp only
      cases afterLast '/' (tmpName (env.temp w.tick) template) with
      | none => exact Keeps.throw _
      | some str => exact Keeps.pure _

/-- A download keeps what is loose. -/
theorem Loose.downloadFile (hI : Loose I) (spf : SpFile) : Keeps I (downloadFile env spf) := by
  refine Keeps.get.bind fun w => ?_
  cases spfFullName env spf w with
  | none => exact Keeps.pure _
  | some remoteFile =>
    refine (hI.spfUseTmpName spf).bind fun r => ?_
    cases r with
    | none => exact Keeps.pure _
    | some spf =>
      refine Keeps.get.bind fun w => ?_
      cases spfFullName env spf w with
      | none => exact Keeps.pure _
      | some localFile => exact hI.restart _ _ _ _ _ _ _

/-- **`get_ftp_file`** keeps what is loose. -/
theorem Loose.getFtpFile (hI : Loose I) (spf : SpFile) : Keeps I (getFtpFile env spf) :=
  (hI.recorded rfl).bind fun _ => hI.downloadFile spf

end Spegla
