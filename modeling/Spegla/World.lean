import Spegla.CurDir
import Spegla.ParseRow
import Spegla.Lib.ExitState
import Spegla.Lib.PosixCalls

/-!
# The state of a run

What the globals of `spegla.c` and `spf_util.c` hold, the file system they act
on, and the connection to the server.

- `Env`: what stays the same during a run: the configuration, and the outside
  world's decisions (which system calls fail, what the clock shows, which names
  `mkstemp` finds).
- `FtpOps`: the three operations of `jftp.c` that `spegla.c` uses, on the state
  `F` of a connection. They are arbitrary here; the modules under `Jftp` model
  them with the calls they make.
- `World`: what changes. `hist` and `trace` record the trees the run went through
  and what it did; no function reads them.
- `Prog`: a program over such a state, which may leave through `exit`.
- `look`, `act`: one system call that reads or changes the tree.
-/

namespace Spegla

open CString PosixFs ExitState

/-! ## The values of `ftp_resp` -/

def JFTP_BROKEN : Int := 1
def JFTP_WRITEERR : Int := 4
def JFTP_TIMEOUT : Int := 5
def JFTP_ERR : Int := 6
def JFTP_ERRNO : Int := 7

variable {F α : Type}

/-! ## The environment -/

/-- The system calls of the program. -/
inductive Sys where
  | lstat | stat | readlink | opendir | rmdir | unlink | chmod | utimes | mkdir | symlink
  | rename | mkstemp | fopen | fseek | fwrite | openTrunc | fopenList
deriving DecidableEq, Repr

/-- Why a run ends before its end: `exit` with one of the messages of `e_errx`, a
crash, or never. -/
inductive Exit where
  | retriedEnough
  | fileSystemFull
  | unexpectedError
  | maxDeletes
  | nullPointer
  | stackOverflow
  | hang
deriving DecidableEq, Repr

/-- How a transfer of `ftp_get` went: the data that came, whether it returned 0,
and what it left in `ftp_resp`. -/
structure Transfer where
  data : Str
  ok : Bool
  resp : Int
deriving DecidableEq, Repr

/-- The operations on a connection. `ftpGet` is given the remote file and the
offset, once the local file is open; `ftpDir` gives the listing, if any, and
`ftp_resp`; `ftpRelogin` gives whether it succeeded, and `ftp_resp`. -/
structure FtpOps (F : Type) where
  ftpGet : F → Str → Nat → Transfer × F
  ftpDir : F → Str → (Option Str × Int) × F
  ftpRelogin : F → (Bool × Int) × F

/-- What `mkstemp` puts in the place of `"XXX"`. -/
structure TempSuffix where
  str : Str
  length : str.length = 3
  noslash : '/' ∉ str

/-- What does not change during a run. `fault` says which system call (by the
number of calls before it) fails for a reason the tree does not show; `fwrite`
says what of the data of a write reaches the file. `stack` is how deep the
recursions may go. -/
structure Env (F : Type) where
  pathMax : Nat
  stack : Nat
  cwd : Path
  spDoDelete : Bool
  spMaxDelete : Nat
  skip : List (Str → Bool)
  treatasdir : List SpTreatasdir
  umask : Mode
  clock : Nat → Int
  fault : Nat → Sys → Option Errno
  fwrite : Nat → Str → Str
  temp : Nat → TempSuffix
  row : RowEnv
  leftover : Nat → Nat → Str
  ftp : FtpOps F

/-- A connection on which every request fails. -/
def deadFtp : FtpOps Unit :=
  { ftpGet := fun _ _ _ => (⟨[], false, JFTP_ERR⟩, ())
    ftpDir := fun _ _ => ((none, JFTP_ERR), ())
    ftpRelogin := fun _ => ((false, JFTP_ERR), ()) }

/-- An environment without patterns in which every system call gets what it asks
for. -/
def calmEnv (ftp : FtpOps F) : Env F :=
  { pathMax := 255
    stack := 8
    cwd := []
    spDoDelete := true
    spMaxDelete := 0
    skip := []
    treatasdir := []
    umask := 0o022#12
    clock := fun _ => 0
    fault := fun _ _ => none
    fwrite := fun _ data => data
    temp := fun _ => ⟨['a', 'b', 'c'], rfl, by decide⟩
    row := ⟨0, 100, fun tm => tm.tmYear⟩
    leftover := fun _ _ => []
    ftp := ftp }

/-- One in which nothing is to be deleted. -/
def noDelete : Env Unit := { calmEnv deadFtp with spDoDelete := false }

/-- A connection on which every file is `yy`, and an environment with it in which nothing is to be
deleted. -/
def servingFtp : FtpOps Unit := { deadFtp with ftpGet := fun _ _ _ => (⟨['y', 'y'], true, 0⟩, ()) }
def noDeleteServed : Env Unit := { calmEnv servingFtp with spDoDelete := false }

/-- One in which no file can be opened for writing. -/
def Env.fullDisk (env : Env F) : Env F :=
  { env with fault := fun _ call => if call = .fopen then some .EOTHER else none }

/-! ## The state -/

/-- What a run records: an entry that is to be downloaded, each call of `ftp_get`
(with the data that came, whether it returned 0, and `ftp_resp`) and whether the
download is given up; the calls of `spf_rm` and `spf_symlink`; a directory that is
entered, and, for each step of the directory loop, the path of the directory that was
popped with the path the step acted on. -/
inductive Event where
  | fetch (spf : SpFile)
  | ftpGet (remoteFile : Str) (seekto : Nat) (data : Str) (ok : Bool) (resp : Int)
  | gaveUp (spf : SpFile)
  | spfRm (spf : SpFile)
  | spfSymlink (spf : SpFile)
  | spfMkdir (spf : SpFile)
  | enter (spf : SpFile)
  | dirStep (popped : Str) (actsOn : Option Str)
deriving DecidableEq, Repr

/-- A call of `ftp_get` that returned 0. -/
def Event.succeeded : Event → Bool
  | .ftpGet _ _ _ ok _ => ok
  | _ => false

/-- A call of `ftp_get` that met a full file system. -/
def Event.diskFull : Event → Bool
  | .ftpGet _ _ _ ok resp => !ok && resp = JFTP_WRITEERR
  | _ => false

/-- A download that is given up. -/
def Event.givenUp : Event → Bool
  | .gaveUp _ => true
  | _ => false

/-- What the directory loop records. -/
def Event.ofLoop : Event → Bool
  | .enter _ | .dirStep _ _ => true
  | _ => false

/-- An event, with the directory it happened in and the tree at that time. -/
structure Logged where
  event : Event
  curDir : Str
  fs : Fs

/-- The state of a run. -/
structure World (F : Type) where
  fs : Fs
  curDir : Str
  spDeletes : Nat
  spDirsTraversed : Nat
  ftpRetries : Int
  ftpResp : Int
  ftp : F
  tick : Nat
  hist : List Fs
  trace : List Logged

/-- A run at its start, in the root of the tree `fs`, without a connection. -/
def startIn (fs : Fs) : World Unit :=
  { fs := fs
    curDir := ['.', '/']
    spDeletes := 0
    spDirsTraversed := 0
    ftpRetries := 3
    ftpResp := 0
    ftp := ()
    tick := 0
    hist := []
    trace := [] }

/-- A file, and a run at its start in a root directory that holds it under the name `a`. -/
def nodeA : Node := ⟨.file ['x'], 0o644#12, 5⟩
def rootWithA : World Unit := startIn (Fs.init.put [['a']] nodeA)

/-- A program that changes the state and may exit. -/
abbrev Prog (F : Type) (α : Type) := EStateM Exit (World F) α

/-- The state after an event. -/
def World.logged (w : World F) (e : Event) : World F :=
  { w with trace := ⟨e, w.curDir, w.fs⟩ :: w.trace }

/-- Record an event. -/
def record (e : Event) : Prog F PUnit := modify fun w => w.logged e

/-- The state after a system call that changed nothing. -/
def World.ticked (w : World F) : World F := { w with tick := w.tick + 1 }

/-- The state after a system call that made the tree `fs`. -/
def World.wrote (w : World F) (fs : Fs) : World F :=
  { w with tick := w.tick + 1, fs := fs, hist := fs :: w.hist }

/-- The result of a system call that reads the tree. A null pointer for the path
is `EFAULT`. -/
def lookAt (env : Env F) (call : Sys) (f : Option Str) (g : Str → Fs → Except Errno α)
    (w : World F) : Except Errno α :=
  match env.fault w.tick call, f with
  | some e, _ => .error e
  | none, none => .error .EFAULT
  | none, some f => g f w.fs

/-- A system call that reads the tree. -/
def look (env : Env F) (call : Sys) (f : Option Str) (g : Str → Fs → Except Errno α) :
    Prog F (Except Errno α) :=
  modifyGet fun w => (lookAt env call f g w, w.ticked)

/-- A system call that changes the tree; `g` is given the time. -/
def act (env : Env F) (call : Sys) (f : Option Str) (g : Int → Str → Fs → Except Errno Fs) :
    Prog F (Except Errno PUnit) :=
  modifyGet fun w =>
    match lookAt env call f (g (env.clock w.tick)) w with
    | .error e => (.error e, w.ticked)
    | .ok fs => (.ok ⟨⟩, w.wrote fs)

/-! ## What a system call does -/

@[simp] theorem ticked_fs (w : World F) : w.ticked.fs = w.fs := rfl
@[simp] theorem ticked_curDir (w : World F) : w.ticked.curDir = w.curDir := rfl
@[simp] theorem ticked_hist (w : World F) : w.ticked.hist = w.hist := rfl
@[simp] theorem ticked_trace (w : World F) : w.ticked.trace = w.trace := rfl
@[simp] theorem ticked_ftp (w : World F) : w.ticked.ftp = w.ftp := rfl
@[simp] theorem logged_fs (w : World F) (e : Event) : (w.logged e).fs = w.fs := rfl
@[simp] theorem logged_curDir (w : World F) (e : Event) : (w.logged e).curDir = w.curDir := rfl
@[simp] theorem logged_hist (w : World F) (e : Event) : (w.logged e).hist = w.hist := rfl
@[simp] theorem logged_ftp (w : World F) (e : Event) : (w.logged e).ftp = w.ftp := rfl
@[simp] theorem wrote_fs (w : World F) (fs : Fs) : (w.wrote fs).fs = fs := rfl
@[simp] theorem wrote_curDir (w : World F) (fs : Fs) : (w.wrote fs).curDir = w.curDir := rfl
@[simp] theorem wrote_hist (w : World F) (fs : Fs) : (w.wrote fs).hist = fs :: w.hist := rfl
@[simp] theorem wrote_trace (w : World F) (fs : Fs) : (w.wrote fs).trace = w.trace := rfl
@[simp] theorem wrote_ftp (w : World F) (fs : Fs) : (w.wrote fs).ftp = w.ftp := rfl

variable {env : Env F} {call : Sys} {f : Option Str} {w : World F}
variable {E : Exit → World F → Prop}

@[simp] theorem wp_record {e : Event} {Q : PUnit → World F → Prop} :
    wp (record e) w Q E ↔ Q ⟨⟩ (w.logged e) := Iff.rfl

@[simp] theorem wp_look {g : Str → Fs → Except Errno α} {Q : Except Errno α → World F → Prop} :
    wp (look env call f g) w Q E ↔ Q (lookAt env call f g w) w.ticked := Iff.rfl

/-- A call that changes the tree either fails and leaves it, or does what `g` says. -/
theorem wp_act {g : Int → Str → Fs → Except Errno Fs} {Q : Except Errno PUnit → World F → Prop} :
    wp (act env call f g) w Q E ↔
      (∀ e, lookAt env call f (g (env.clock w.tick)) w = .error e → Q (.error e) w.ticked) ∧
      (∀ fs, lookAt env call f (g (env.clock w.tick)) w = .ok fs → Q (.ok ⟨⟩) (w.wrote fs)) := by
  unfold act
  rw [wp_modifyGet]
  cases lookAt env call f (g (env.clock w.tick)) w with
  | error e => simp
  | ok fs => simp

/-- What a successful call saw: no outside failure, and a path. -/
theorem lookAt_ok {g : Str → Fs → Except Errno α} {a : α} (h : lookAt env call f g w = .ok a) :
    env.fault w.tick call = none ∧ ∃ s, f = some s ∧ g s w.fs = .ok a := by
  unfold lookAt at h
  cases hf : env.fault w.tick call with
  | some e => rw [hf] at h; simp at h
  | none =>
    rw [hf] at h
    cases f with
    | none => simp at h
    | some s => exact ⟨rfl, s, rfl, h⟩

theorem lookAt_of_ok {g : Str → Fs → Except Errno α} {s : Str} {a : α}
    (hf : env.fault w.tick call = none) (hg : g s w.fs = .ok a) :
    lookAt env call (some s) g w = .ok a := by
  unfold lookAt
  rw [hf]
  exact hg

/-- A call that changes the tree ends in what its success makes. -/
theorem EndsIn.act {I : World F → Prop} {g : Int → Str → Fs → Except Errno Fs} (ht : I w.ticked)
    (hg : ∀ s fs, f = some s → g (env.clock w.tick) s w.fs = .ok fs → I (w.wrote fs)) :
    EndsIn I (act env call f g) w := by
  refine wp_act.mpr ⟨fun _ _ => ht, fun fs h => ?_⟩
  obtain ⟨-, s, hs, hgs⟩ := lookAt_ok h
  exact hg s fs hs hgs

/-- A call that changes the tree keeps what its successes keep. -/
theorem Keeps.act {I : World F → Prop} {g : Int → Str → Fs → Except Errno Fs}
    (ht : ∀ w, I w → I w.ticked)
    (hg : ∀ w s fs, I w → f = some s → g (env.clock w.tick) s w.fs = .ok fs → I (w.wrote fs)) :
    Keeps I (act env call f g) := fun w hw =>
  EndsIn.act (ht w hw) fun s fs hs hgs => hg w s fs hw hs hgs

theorem Keeps.look {I : World F → Prop} {g : Str → Fs → Except Errno α}
    (ht : ∀ w, I w → I w.ticked) : Keeps I (look env call f g) := fun w hw => ht w hw

end Spegla
