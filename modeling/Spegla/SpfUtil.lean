import Spegla.World

/-!
# Operations on entries (`spf_util.c`)

What the program does to the local tree, entry by entry. A function that reports
an error by a negative number gives a `Bool` here, `true` for success; the
warnings it prints are left out.
-/

namespace Spegla

open CString PosixFs ExitState

variable {F : Type} (env : Env F)

/-- `spf_full_name`. -/
def spfFullName (spf : SpFile) (w : World F) : Option Str :=
  fullName env.pathMax w.curDir spf.spfName

/-! ## Removing -/

/-- `is_dir`. -/
def isDir (f : Option Str) : Prog F Bool := do
  match ← look env .lstat f (lstat env.cwd) with
  | .error _ => return false
  | .ok n => return decide (n.kind = .dir)

/-- Whether the maximum number of deletes is reached. -/
def maxDeletes (w : World F) : Bool := env.spMaxDelete ≠ 0 ∧ env.spMaxDelete ≤ w.spDeletes

/-- The call that removes a file or an empty directory. -/
def removeOne (f : Option Str) (dir : Bool) : Prog F (Except Errno PUnit) :=
  if dir then act env .rmdir f fun _ => rmdir env.cwd
  else act env .unlink f fun _ => unlink env.cwd

/-- `rm_f`. -/
def rmF (f : Option Str) : Prog F Bool := do
  let w ← get
  if maxDeletes env w then throw .maxDeletes
  else
    match ← removeOne env f (← isDir env f) with
    | .error _ => return false
    | .ok _ =>
      modify fun w => { w with spDeletes := w.spDeletes + 1 }
      return true

/-- The loop of `rm_rf` over the names in the directory `f`. -/
def rmEntries (rmRf : Str → Prog F Bool) (f : Str) : List Str → Prog F PUnit
  | [] => return ⟨⟩
  | name :: names => do
    let fileBuf := (f ++ '/' :: name).take (env.pathMax - 1)
    if ← isDir env (some fileBuf) then
      let _ ← rmRf fileBuf
      rmEntries rmRf f names
    else
      let _ ← rmF env (some fileBuf)
      rmEntries rmRf f names

/-- `rm_rf`, at most `stack` directories deep. The test of the number of deletes
before `rm_f` is the first thing `rm_f` does itself. -/
def rmRf : Nat → Str → Prog F Bool
  | 0, _ => throw .stackOverflow
  | stack + 1, f =>
    if haveDotdotRef f then return false
    else do
      if ← isDir env (some f) then
        let w ← get
        if maxDeletes env w then throw .maxDeletes
        else
          match ← look env .opendir (some f) (readdir env.cwd) with
          | .error _ => return false
          | .ok names =>
            rmEntries env (rmRf stack) f names
            rmF env (some f)
      else rmF env (some f)

/-- `spf_rm`. -/
def spfRm (spf : SpFile) : Prog F Bool := do
  record (.spfRm spf)
  if env.spDoDelete then
    let w ← get
    if spf.spfType = .directory then
      match spfFullName env spf w with
      | none => throw .nullPointer
      | some f => rmRf env env.stack f
    else rmF env (spfFullName env spf w)
  else return true

/-! ## Changing and making -/

/-- `spf_chmod`. -/
def spfChmod (spf : SpFile) (mode : Mode) : Prog F Bool := do
  let w ← get
  match ← act env .chmod (spfFullName env spf w) fun _ => chmod env.cwd (spf.spfMode ||| mode) with
  | .error _ => return false
  | .ok _ => return true

/-- `spf_new_time`. -/
def spfNewTime (spf : SpFile) : Prog F Bool := do
  let w ← get
  match ← act env .utimes (spfFullName env spf w) fun _ => utimes env.cwd spf.spfTime with
  | .error _ => return false
  | .ok _ => return true

/-- `spf_mkdir`, with `errno`. -/
def spfMkdir (spf : SpFile) : Prog F (Except Errno PUnit) := do
  if spf.spfOpt.dontCreate then return .ok ⟨⟩
  else
    record (.spfMkdir spf)
    let w ← get
    act env .mkdir (spfFullName env spf w) fun now =>
      mkdir env.cwd ((spf.spfMode ||| S_IRWXU) &&& ~~~env.umask) now

/-- `spf_symlink`. -/
def spfSymlink (spf : SpFile) : Prog F Bool := do
  record (.spfSymlink spf)
  let w ← get
  let ret ← act env .symlink (spfFullName env spf w) fun now f fs =>
    match spf.spfSymlink with
    | none => .error .EFAULT
    | some target => symlink env.cwd target now f fs
  match ret with
  | .error _ => return false
  | .ok _ => return true

/-! ## Looking -/

/-- The type of an entry from `st_mode`. -/
def ftypeOf : Kind → SpFtype
  | .file _ => .plainfile
  | .dir => .directory
  | .symlink _ => .symlink
  | .special => .unknown

/-- The entry that `lstat` describes. -/
def statEntry (f : Str) (n : Node) : SpFile :=
  { spfTime := n.mtime
    spfTgranul := 0
    spfType := ftypeOf n.kind
    spfOpt := { isLocal := true }
    spfSize := n.size
    spfMode := n.mode
    spfName := f
    spfSymlink := none
    spfOrigName := none }

/-- `spf_stat_init`. -/
def spfStatInit (f : Str) : Prog F (Option SpFile) := do
  let w ← get
  let cf := fullName env.pathMax w.curDir f
  match ← look env .lstat cf (lstat env.cwd) with
  | .error _ => return none
  | .ok n =>
    let spf := statEntry f n
    if spf.spfType = .symlink then
      match ← look env .readlink cf (readlink env.cwd env.pathMax) with
      | .error _ => return none
      | .ok buf => return some { spf with spfSymlink := some buf }
    else return some spf

/-! ## Temporary names -/

/-- The template for `mkstemp`. -/
def tmpTemplate (name : Str) : Str :=
  (['.', 'i', 'n', '.'] ++ name ++ ['.', 'X', 'X', 'X']).take (env.pathMax - 1)

/-- The name `mkstemp` makes of a template: another text in the place of `XXX`. -/
def tmpName (suffix : TempSuffix) (template : Str) : Str :=
  template.take (template.length - 3) ++ suffix.str

/-- `spf_use_tmp_name`: the entry under its temporary name. -/
def spfUseTmpName (spf : SpFile) : Prog F (Option SpFile) := do
  let w ← get
  match fullName env.pathMax w.curDir (tmpTemplate env spf.spfName) with
  | none => return none
  | some template =>
    let buf := tmpName (env.temp w.tick) template
    match ← act env .mkstemp (some buf) fun now => create env.cwd now with
    | .error _ => return none
    | .ok _ =>
      match afterLast '/' buf with
      | none => throw .nullPointer
      | some str => return some { spf with spfName := str, spfOrigName := some spf.spfName }

/-- `rename` to a path that may be a null pointer. -/
def renameTo (o : Option Str) (f : Str) (fs : Fs) : Except Errno Fs :=
  match o with
  | none => .error .EFAULT
  | some o => rename env.cwd f o fs

/-- `spf_restore_name`: what is under the temporary name gets the original one. -/
def spfRestoreName (spf : SpFile) : Prog F PUnit := do
  match spf.spfOrigName with
  | none => return ⟨⟩
  | some orig =>
    let w ← get
    let f := spfFullName env spf w
    match ← look env .lstat f (lstat env.cwd) with
    | .error .ENOENT => return ⟨⟩
    | _ =>
      let _ ← act env .rename f fun _ => renameTo env (fullName env.pathMax w.curDir orig)
      return ⟨⟩

end Spegla
