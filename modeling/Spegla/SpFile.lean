import Mathlib.Data.BitVec
import Spegla.Lib.CString

/-!
# File entries (`spegla.h`, the comparisons of `spf_util.c`)

`struct sp_file` describes one name of a directory, as a server lists it
(`parse_row`) or as the local file system has it (`spf_stat_init`). The two are
compared by `spf_time_cmp` and ordered by `spf_name_cmp`; `spf_push_comp` turns
the order around for a heap that gives its greatest element first.
-/

namespace Spegla

open CString

/-- The permission bits of a `mode_t`, set-id and sticky bits included. -/
abbrev Mode := BitVec 12

def S_IXUSR : Mode := 0o100#12
def S_IXGRP : Mode := 0o010#12
def S_IXOTH : Mode := 0o001#12
def S_IRWXU : Mode := 0o700#12

/-- `enum sp_ftype`. -/
inductive SpFtype where
  | plainfile
  | directory
  | symlink
  | unknown
deriving DecidableEq, Repr

/-- The flag bits of `spf_opt` (`SPFO_DONT_CREATE` and so on), one field each. -/
structure SpfOpt where
  dontCreate : Bool := false
  logChmod : Bool := false
  isLocal : Bool := false
  isLink : Bool := false
deriving DecidableEq, Repr

/-- `struct sp_file`. `spfOrigName` is the name put aside by `spf_use_tmp_name`. -/
structure SpFile where
  spfTime : Int
  spfTgranul : Int
  spfType : SpFtype
  spfOpt : SpfOpt
  spfSize : Int
  spfMode : Mode
  spfName : Str
  spfSymlink : Option Str
  spfOrigName : Option Str
deriving DecidableEq, Repr

/-- `spf_time_cmp`: two times are equal when they agree up to the granularity
with which either of them is known. -/
def spfTimeCmp (f1 f2 : SpFile) : Int :=
  if f1.spfTime - f1.spfTgranul ≤ f2.spfTime + f2.spfTgranul ∧
      f1.spfTime + f1.spfTgranul ≥ f2.spfTime - f2.spfTgranul then 0
  else if f1.spfTime > f2.spfTime then 1
  else -1

/-- `spf_name_cmp`, on two entries that are there. -/
def spfNameCmp (f1 f2 : SpFile) : Int := strcmp f1.spfName f2.spfName

/-- `spf_push_comp`, the comparison the heaps are built with. -/
def spfPushComp (f1 f2 : SpFile) : Int := -spfNameCmp f1 f2

end Spegla
