import Spegla.Container.Fifo
import Spegla.Listing
import Spegla.SpfUtil

/-!
# Mirroring (`spegla.c`, `build_local_dir` to `sp_sync_dir`)

- `buildLocalDir`: the entries of the current directory.
- `ftpGet`: the part of `ftp_get` that deals with the local file; the transfer
  between it is an operation of the connection.
- `getFtpFile`: a file under a temporary name, with restarts.
- `mergeLoop`: the comparison of two heaps, over the operations it calls.
- `dirLoop`, `spSyncDir`: the directories, recursively.
-/

namespace Spegla

open CString PosixFs ExitState

variable {F : Type} (env : Env F)

/-! ## The local directory -/

/-- A result that may be an exit. -/
def ofExcept {σ α : Type} : Except Exit α → EStateM Exit σ α
  | .error e => throw e
  | .ok a => return a

/-- One round of the loop of `build_local_dir`. -/
def addName (headp : HeapList SpFile) (name : Str) : Prog F (HeapList SpFile) := do
  match ← spfStatInit env name with
  | none => return headp
  | some spf =>
    let w ← get
    match ← ofExcept (filterEntry env w.curDir spf) with
    | none => return headp
    | some spf => return heapPush headp spf

/-- `build_local_dir`. -/
def buildLocalDir : Prog F (Option (HeapList SpFile)) := do
  let w ← get
  match ← look env .opendir (some w.curDir) (readdir env.cwd) with
  | .error _ => return none
  | .ok names => some <$> names.foldlM (addName env) (heapInit spfPushComp)

/-! ## The connection -/

/-- `ftp_relogin`. -/
def ftpRelogin : Prog F Bool :=
  modifyGet fun w =>
    let r := env.ftp.ftpRelogin w.ftp
    (r.1.1, { w with ftp := r.2, ftpResp := r.1.2 })

/-- `ftp_dir` of the current directory: the file with the listing. -/
def ftpDir : Prog F (Option Str) :=
  modifyGet fun w =>
    let r := env.ftp.ftpDir w.ftp w.curDir
    (r.1.1, { w with ftp := r.2, ftpResp := r.1.2 })

/-- The transfer of `ftp_get`: the data that comes goes to the local file. -/
def ftpTransfer (localFile remoteFile : Str) (seekto : Nat) : Prog F Transfer := do
  let t ← modifyGet fun w : World F =>
    let r := env.ftp.ftpGet w.ftp remoteFile seekto
    (r.1, { w with ftp := r.2 })
  let w ← get
  let _ ← act env .fwrite (some localFile) (append env.cwd (env.fwrite w.tick t.data))
  return t

/-- `ftp_get`, once the local file is open, with its old content if it is to be
continued. -/
def ftpSeek (localFile remoteFile : Str) (seekto : Nat) : Prog F Transfer := do
  if seekto = 0 then ftpTransfer env localFile remoteFile seekto
  else
    match ← look env .fseek (some localFile) fun _ _ => .ok () with
    | .error _ => return ⟨[], false, JFTP_ERRNO⟩
    | .ok _ => ftpTransfer env localFile remoteFile seekto

/-- The local file of `ftp_get` and what follows. -/
def ftpOpen (localFile remoteFile : Str) (seekto : Nat) : Prog F Transfer := do
  match ← act env .fopen (some localFile) (fopen env.cwd (seekto = 0) env.umask) with
  | .error _ => return ⟨[], false, JFTP_WRITEERR⟩
  | .ok _ => ftpSeek env localFile remoteFile seekto

/-- `ftp_get`. -/
def ftpGet (localFile remoteFile : Str) (seekto : Nat) : Prog F Bool := do
  let t ← ftpOpen env localFile remoteFile seekto
  modify fun w => { w with ftpResp := t.resp }
  record (.ftpGet remoteFile seekto t.data t.ok t.resp)
  return t.ok

/-! ## Files -/

/-- The size of the local file, and whether it is to be begun anew, after a
connection was lost. -/
def resumeSize (spf : SpFile) (localFile : Str) (size : Nat) (erased : Bool) :
    Prog F (Nat × Bool) := do
  if erased then return (size, erased)
  else
    let r ← look env .stat (some localFile) (stat env.cwd)
    let size := match r with
      | .error _ => 0
      | .ok n => n.size
    if size = 0 then
      let _ ← spfRm env spf
      return (size, true)
    else return (size, erased)

/-- The end of a download that is given up: the temporary file is removed, and
renamed should it still be there. -/
def giveUp (spf : SpFile) : Prog F PUnit := do
  record (.gaveUp spf)
  let _ ← spfRm env spf
  spfRestoreName env spf

/-- The loop of `get_ftp_file` that logs in again. A round costs a retry, and
there is none below zero. -/
def reloginFile (spf : SpFile) (localFile : Str) : Nat → Nat → Bool → Prog F (Nat × Bool)
  | 0, _, _ => throw .hang
  | fuel + 1, size, erased => do
    let w ← get
    set { w with ftpRetries := w.ftpRetries - 1 }
    if w.ftpRetries < 0 then
      giveUp env spf
      throw .retriedEnough
    else
      let r ← resumeSize env spf localFile size erased
      if ← ftpRelogin env then return r
      else reloginFile spf localFile fuel r.1 r.2

/-- The end of `get_ftp_file`, once the file is there. -/
def finishFile (spf : SpFile) : Prog F PUnit := do
  let _ ← spfChmod env spf 0
  let _ ← spfNewTime env spf
  spfRestoreName env spf

/-- `get_ftp_file` from the label `restart`. `fuel` bounds the restarts: each
costs a retry, apart from the one for a write error. -/
def restart (spf : SpFile) (remoteFile localFile : Str) :
    Nat → Nat → Bool → Bool → Prog F PUnit
  | 0, _, _, _ => throw .hang
  | fuel + 1, size, rmedOrig, erased => do
    if ← ftpGet env localFile remoteFile size then finishFile env spf
    else
      let w ← get
      if w.ftpResp = JFTP_BROKEN ∨ w.ftpResp = JFTP_TIMEOUT then
        let r ← reloginFile env spf localFile (w.ftpRetries.toNat + 2) size erased
        restart spf remoteFile localFile fuel r.1 rmedOrig r.2
      else if w.ftpResp = JFTP_ERR then giveUp env spf
      else if w.ftpResp = JFTP_WRITEERR then
        if rmedOrig then throw .fileSystemFull
        else
          let _ ← act env .openTrunc (some remoteFile) (truncate env.cwd)
          let _ ← act env .unlink (some remoteFile) fun _ => unlink env.cwd
          restart spf remoteFile localFile fuel size true erased
      else throw .unexpectedError

/-- `get_ftp_file`, before the tries. -/
def downloadFile (spf : SpFile) : Prog F PUnit := do
  let w ← get
  match spfFullName env spf w with
  | none => return ⟨⟩
  | some remoteFile =>
    match ← spfUseTmpName env spf with
    | none => return ⟨⟩
    | some spf =>
      let w ← get
      match spfFullName env spf w with
      | none => return ⟨⟩
      | some localFile =>
        restart env spf remoteFile localFile (w.ftpRetries.toNat + 4) 0 false false

/-- `get_ftp_file`. -/
def getFtpFile (spf : SpFile) : Prog F PUnit := do
  record (.fetch spf)
  downloadFile env spf

/-! ## The comparison of two directories -/

/-- The operations the first loop of `sp_sync_dir` calls, on a state `σ`. -/
structure SyncOps (σ : Type) where
  getFtpFile : SpFile → EStateM Exit σ PUnit
  spfSymlink : SpFile → EStateM Exit σ Bool
  spfRm : SpFile → EStateM Exit σ Bool
  spfChmod : SpFile → Mode → EStateM Exit σ Bool

/-- The operations of the program. -/
def syncOps : SyncOps (World F) :=
  { getFtpFile := getFtpFile env
    spfSymlink := spfSymlink env
    spfRm := spfRm env
    spfChmod := spfChmod env }

variable {σ : Type} (ops : SyncOps σ)

/-- `sp_get_file`: the queue of directories afterwards. -/
def spGetFile (spf : SpFile) (fifo : FifoList SpFile) : EStateM Exit σ (FifoList SpFile) := do
  match spf.spfType with
  | .directory => return fifoPush fifo spf
  | .plainfile =>
    ops.getFtpFile spf
    return fifo
  | .symlink =>
    let _ ← ops.spfSymlink spf
    return fifo
  | .unknown => return fifo

/-- The two entries of one name and one type. An unknown type is met without end. -/
def mergeSame (spfL spfR : SpFile) (dirs : FifoList SpFile) : EStateM Exit σ (FifoList SpFile) := do
  match spfR.spfType with
  | .directory =>
    spGetFile ops { spfR with spfOpt := { spfR.spfOpt with dontCreate := true } } dirs
  | .plainfile =>
    if spfTimeCmp spfR spfL ≠ 0 ∨ spfR.spfSize ≠ spfL.spfSize then spGetFile ops spfR dirs
    else if spfR.spfMode ≠ spfL.spfMode then
      let _ ← ops.spfChmod { spfR with spfOpt := { spfR.spfOpt with logChmod := true } } 0
      return dirs
    else return dirs
  | .symlink =>
    match spfR.spfSymlink, spfL.spfSymlink with
    | some targetR, some targetL =>
      if strcmp targetR targetL ≠ 0 then
        if ← ops.spfRm spfR then spGetFile ops spfR dirs else return dirs
      else return dirs
    | _, _ => throw .nullPointer
  | .unknown => throw .hang

/-- One round of the first loop of `sp_sync_dir`. -/
def mergeStep (l r : HeapList SpFile) (dirs : FifoList SpFile) :
    EStateM Exit σ (HeapList SpFile × HeapList SpFile × FifoList SpFile) := do
  match heapPop l, heapPop r with
  | none, none => return (l, r, dirs)
  -- there are no more files locally
  | none, some (spf, r) => return (l, r, ← spGetFile ops spf dirs)
  -- there are no more files on the server
  | some (spf, l), none =>
    let _ ← ops.spfRm spf
    return (l, r, dirs)
  | some (spfL, l'), some (spfR, r') =>
    let cmp := spfNameCmp spfL spfR
    -- a file is missing locally
    if cmp > 0 then return (l, r', ← spGetFile ops spfR dirs)
    -- exceeding local file
    else if cmp < 0 then
      let _ ← ops.spfRm spfL
      return (l', r, dirs)
    -- differing file types
    else if spfR.spfType ≠ spfL.spfType then
      let _ ← ops.spfRm spfL
      return (l', r', ← spGetFile ops spfR dirs)
    else return (l', r', ← mergeSame ops spfL spfR dirs)

/-- The first loop of `sp_sync_dir`. -/
def mergeLoop : Nat → HeapList SpFile → HeapList SpFile → FifoList SpFile →
    EStateM Exit σ (HeapList SpFile × HeapList SpFile × FifoList SpFile)
  | 0, _, _, _ => throw .hang
  | fuel + 1, l, r, dirs =>
    if heapPeek l = none ∧ heapPeek r = none then return (l, r, dirs)
    else do
      let (l, r, dirs) ← mergeStep ops l r dirs
      mergeLoop fuel l r dirs

/-! ## Directories -/

/-- The loop of `sp_sync_dir` that logs in again. -/
def reloginDir : Nat → Prog F PUnit
  | 0 => throw .hang
  | fuel + 1 => do
    let w ← get
    set { w with ftpRetries := w.ftpRetries - 1 }
    if w.ftpRetries < 0 then throw .retriedEnough
    else if ← ftpRelogin env then return ⟨⟩
    else reloginDir fuel

/-- The loop of `sp_sync_dir` that lists the current directory. -/
def listDir : Nat → Prog F (Option Str)
  | 0 => throw .hang
  | fuel + 1 => do
    match ← ftpDir env with
    | some tempFile => return some tempFile
    | none =>
      let w ← get
      if w.ftpResp = JFTP_BROKEN ∨ w.ftpResp = JFTP_TIMEOUT then
        reloginDir env (w.ftpRetries.toNat + 2)
        let w ← get
        if w.ftpResp = JFTP_ERR then return none else listDir fuel
      else if w.ftpResp = JFTP_ERR then return none
      else throw .unexpectedError

/-- The heap of a listing. A listing that cannot be opened is closed nonetheless. -/
def openListing (tempFile : Option Str) : Prog F (Option (HeapList SpFile)) := do
  match tempFile with
  | none => return none
  | some listing =>
    match ← look env .fopenList (some []) fun _ _ => .ok () with
    | .error _ => throw .nullPointer
    | .ok _ =>
      let w ← get
      ofExcept (buildRemoteDir env w.curDir w.tick (some listing))

/-- One step down in the hierarchy: the path of the directory. -/
def goDown (spf : SpFile) : Prog F Str := do
  record (.enter spf)
  let w ← get
  set { w with curDir := (curDirCd env.pathMax w.curDir spf.spfName).getD w.curDir }
  return w.curDir ++ spf.spfName

/-- Record that a step of the loop for the directory `popped` acts on a path. -/
def recordStep (popped : Str) (actsOn : World F → Option Str) : Prog F PUnit := do
  let w ← get
  record (.dirStep popped (actsOn w))

/-- The two listings of the directory that has been entered, and its mirroring. -/
def syncBelow (sync : HeapList SpFile → HeapList SpFile → Prog F PUnit) (popped : Str) :
    Prog F PUnit := do
  let l ← buildLocalDir env
  let w ← get
  let tempFile ← listDir env (w.ftpRetries.toNat + 3)
  let r ← openListing env tempFile
  match l, r with
  | some l, some r =>
    recordStep popped fun w => some w.curDir.dropLast
    sync l r
  | _, _ => return ⟨⟩

/-- One step up, and the time and mode of the directory. -/
def goUp (spf : SpFile) (popped : Str) : Prog F PUnit := do
  modify fun w => { w with curDir := curDirCdup w.curDir }
  recordStep popped (spfFullName env spf)
  let _ ← spfNewTime env spf
  recordStep popped (spfFullName env spf)
  let _ ← spfChmod env spf 0

/-- The body of the directory loop once the directory is there. -/
def descend (sync : HeapList SpFile → HeapList SpFile → Prog F PUnit) (spf : SpFile) :
    Prog F PUnit := do
  let popped ← goDown env spf
  syncBelow env sync popped
  goUp env spf popped

/-- One round of the second loop of `sp_sync_dir`. -/
def dirStep (sync : HeapList SpFile → HeapList SpFile → Prog F PUnit) (spf : SpFile) :
    Prog F PUnit := do
  let w ← get
  match spfIsASkip env.pathMax w.curDir env.skip spf with
  | none => throw .nullPointer
  | some true => return ⟨⟩
  | some false =>
    let made ← spfMkdir env spf
    -- if the directory already existed, no problem
    if made = .ok ⟨⟩ ∨ made = .error .EEXIST then
      -- make sure we can descend, will restore file mode later
      if ← spfChmod env spf S_IRWXU then descend env sync spf
      else return ⟨⟩
    else return ⟨⟩

/-- The second loop of `sp_sync_dir`. -/
def dirLoop (step : SpFile → EStateM Exit σ PUnit) : Nat → FifoList SpFile → EStateM Exit σ PUnit
  | 0, _ => throw .hang
  | fuel + 1, dirs => do
    match fifoPop dirs with
    | none => return ⟨⟩
    | some (spf, dirs) =>
      step spf
      dirLoop step fuel dirs

/-- `sp_sync_dir`, at most `stack` directories deep. -/
def spSyncDir : Nat → Option (HeapList SpFile) → Option (HeapList SpFile) → Prog F PUnit
  | 0, _, _ => throw .stackOverflow
  | _ + 1, none, _ => return ⟨⟩
  | _ + 1, some _, none => return ⟨⟩
  | stack + 1, some l, some r => do
    modify fun w => { w with spDirsTraversed := w.spDirsTraversed + 1 }
    let (_, _, dirs) ← mergeLoop (syncOps env) (l.heapKeys + r.heapKeys + 1) l r fifoInit
    dirLoop (dirStep env fun l r => spSyncDir stack (some l) (some r)) (fifoCount dirs + 1) dirs

/-- The mirroring of `main`: the listing of the remote directory is at hand. -/
def mirror (listing : Str) : Prog F PUnit := do
  let r ← openListing env (some listing)
  let l ← buildLocalDir env
  spSyncDir env env.stack l r

end Spegla
