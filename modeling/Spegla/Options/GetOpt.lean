import Mathlib.Algebra.Group.Int.Defs
import Spegla.Options.Token

/-!
# Options (`tgetopt.c`)

The options of the command line, of a config file or of the environment, one after the other.

- `GetOptState`: `struct get_opt_state`. Allocations succeed.
- `getOptFile`: the rows of the file are read by `newRow`, and the arguments of an option by
  `rowArg`, which may find more than one of them in a row.
- `getOptArgv`, `getOptEnv`, `tgetopt`: the other front ends, and the call that chooses one.
-/

namespace Spegla

open CString

/-! ## The state -/

/-- `enum go_want_arg`. -/
inductive GoWantArg where
  | noArg
  | reqArg
  | optArg
deriving DecidableEq, Repr

/-- `struct get_opt`. A short name `?` stands for none. -/
structure GetOpt where
  goName : Str
  goSname : Char
  goWantArg : GoWantArg
deriving DecidableEq, Repr

/-- The values of `gos_errno`. -/
inductive GosErrno where
  | ok
  | argReq
  | endOfOptions
  | unknownOption
  | dontAccept
  | endOfArgMark
  | eread
  | syntaxE
  | syntaxEs
  | syntaxEs2
  | eonlyFile
  | errno
deriving DecidableEq, Repr

/-- The values of `gos_type`. -/
inductive GosType where
  | argv
  | file
  | env
deriving DecidableEq, Repr

/-- A file that is read: all of it, and what is left of it from the position on. A broken one cannot
be read to its end. -/
structure ConfFile where
  data : Str
  rest : Str
  broken : Bool

/-- `fgets`; where it fails, the file has ended, or it is broken. -/
def ConfFile.fgets (size : Nat) (fp : ConfFile) : Option (Str × ConfFile) :=
  match CString.fgets size fp.rest with
  | none => none
  | some (line, rest) =>
    -- a line that the end of the file cuts off is lost in a broken one
    if fp.broken ∧ rest = [] ∧ line.getLast? ≠ some '\n' ∧ line.length + 1 < size then none
    else some (line, { fp with rest := rest })

/-- `MAX_STR`. -/
def MAX_STR : Nat := 1024

/-- `struct get_opt_state`. `gosGo` is the table without the entry that ends it; `gosArgv` and
`gosEnvEp` are the strings from the pointer on. -/
structure GetOptState where
  gosGo : List GetOpt
  gosBuf : Str
  gosErrno : GosErrno
  gosLastOpt : Int
  gosLastArg : Option Str
  gosLastLong : Bool
  gosType : GosType
  gosFp : ConfFile
  gosPath : Str
  gosPos : Int
  gosInSect : Bool
  gosArgc : Int
  gosArgv : List Str
  gosOptind : Nat
  gosPrefix : Str
  gosEnvEp : List Str

/-- The memory that `calloc` gives. -/
def gosZero (go : List GetOpt) : GetOptState :=
  { gosGo := go
    gosBuf := List.replicate MAX_STR nul
    gosErrno := .ok
    gosLastOpt := 0
    gosLastArg := none
    gosLastLong := false
    gosType := .argv
    gosFp := { data := [], rest := [], broken := false }
    gosPath := []
    gosPos := 0
    gosInSect := false
    gosArgc := 0
    gosArgv := []
    gosOptind := 0
    gosPrefix := []
    gosEnvEp := [] }

/-- `tgetopt_argv_init`. -/
def tgetoptArgvInit (argc : Int) (argv : List Str) (go : List GetOpt) : GetOptState :=
  { gosZero go with gosArgc := argc, gosArgv := argv, gosType := .argv }

/-- `tgetopt_file_init`. -/
def tgetoptFileInit (fp : ConfFile) (path : Option Str) (go : List GetOpt) : GetOptState :=
  { gosZero go with
    gosFp := fp
    gosLastOpt := -1
    gosPos := -1
    gosLastLong := true
    gosPath := path.getD []
    -- if path is empty assume in section
    gosInSect := path.getD [] = []
    gosType := .file }

/-- `tgetopt_env_init`. -/
def tgetoptEnvInit (pre : Str) (environ : List Str) (go : List GetOpt) : GetOptState :=
  { gosZero go with
    gosPrefix := pre
    gosEnvEp := environ
    gosType := .env
    gosLastLong := true }

/-- What a call leaves with its caller: the value that it returns, and what it has written to
`*option` and `*arg`. -/
structure OptCall where
  ret : Int
  option : Option Int
  arg : Option (Option Str)
deriving DecidableEq, Repr

/-- A call that returns −1, and writes nothing. -/
def OptCall.failed : OptCall := { ret := -1, option := none, arg := none }

/-- `go[lopt].go_want_arg`. -/
def wantArg (go : List GetOpt) (lopt : Int) : Option GoWantArg :=
  if lopt < 0 then none else go[lopt.toNat]?.map GetOpt.goWantArg

/-! ## Config files -/

/-- What `fgets` leaves in a buffer. -/
def overlay (line buf : Str) : Str := line ++ nul :: buf.drop (line.length + 1)

/-- `if (len != 0 && buf[len - 1] == '\n') buf[len - 1] = '\0';` -/
def chomp (buf : Str) : Str :=
  if (cstr buf).getLast? = some '\n' then buf.set ((cstr buf).length - 1) nul else buf

/-- `comment` and `delimeter` of `get_opt_file`. -/
def comment : Str := ['#', '!']
def delimeter : Str := ['=', ':']

/-- `tok == NULL || in_set(comment, tok[0])` -/
def rowEnds : Option Str → Bool
  | none => true
  | some tok => inSet comment (tok.headD nul)

/-- Where a part of `get_opt_file` leads to. -/
inductive RowStep where
  | restart (gos : GetOptState)
  | ret (call : OptCall) (gos : GetOptState)
  | goOn (lopt : Int) (gos : GetOptState)

/-- The option look up. -/
def lookUp (gos : GetOptState) (tok : Str) : RowStep :=
  match gos.gosGo.findIdx? (·.goName = tok) with
  | none =>
    .ret { ret := -1, option := none, arg := some (some tok) }
      { gos with gosLastArg := some tok, gosErrno := .unknownOption }
  | some lopt => .goOn lopt { gos with gosLastOpt := lopt }

/-- A token behind a section identifier, or the first one of a row without. -/
def optionRow (gos : GetOptState) (tok : Option Str) : RowStep :=
  match tok with
  | none => .restart { gos with gosPos := -1 }
  | some name =>
    if rowEnds (some name) then .restart { gos with gosPos := -1 }
    else if ¬gos.gosInSect then .restart { gos with gosPos := -1 }
    else lookUp gos name

/-- `(strlen(path) == len - 2) && (strncmp(path, tok + 1, len - 2) == 0)` -/
def isSection (path tok : Str) : Bool :=
  path.length = tok.length - 2 ∧ path.take (tok.length - 2) = (tok.drop 1).take (tok.length - 2)

/-- A row that has been read. -/
def parseRowStart (gos : GetOptState) : Option RowStep := do
  let (tok, pos) ← nextToken gos.gosBuf gos.gosPos
  let gos := { gos with gosPos := pos }
  match tok with
  | none => return .restart { gos with gosPos := -1 }
  | some head =>
    -- check for section identifier
    if head.headD nul = '[' then
      if head.getLast? ≠ some ']' then
        return .ret .failed { gos with gosErrno := .syntaxEs }
      else
        let gos := { gos with gosInSect := isSection gos.gosPath head }
        let (tok, pos) ← nextToken gos.gosBuf gos.gosPos
        return optionRow { gos with gosPos := pos } tok
    else return optionRow gos tok

/-- A new row. -/
def newRow (gos : GetOptState) : Option RowStep :=
  let gos := { gos with gosPos := 0 }
  match gos.gosFp.fgets MAX_STR with
  | none =>
    some (.ret .failed { gos with gosErrno := if gos.gosFp.broken then .eread else .endOfOptions })
  | some (line, fp) =>
    parseRowStart { gos with gosBuf := chomp (overlay line gos.gosBuf), gosFp := fp }

/-- The case when there is no argument to an option. -/
def noArgument (gos : GetOptState) (lopt : Int) : Option RowStep := do
  if (← wantArg gos.gosGo lopt) ≠ .reqArg then
    return .ret { ret := 0, option := some lopt, arg := some none } { gos with gosLastArg := none }
  else
    return .ret { ret := -1, option := some lopt, arg := none } { gos with gosErrno := .argReq }

/-- An argument of an option. -/
def anArgument (gos : GetOptState) (lopt : Int) (tok : Str) : Option RowStep := do
  let gos := { gos with gosLastArg := some tok }
  -- does this option support arguments?
  if (← wantArg gos.gosGo lopt) = .noArg then
    return .ret { ret := -1, option := some lopt, arg := some (some tok) }
      { gos with gosErrno := .dontAccept }
  else return .ret { ret := 0, option := some lopt, arg := some (some tok) } gos

/-- The rest of a row, behind the name of an option, or behind an argument. -/
def rowArg (gos : GetOptState) (lopt : Int) (haveDelim : Bool) : Option RowStep := do
  let (tok, pos) ← nextToken gos.gosBuf gos.gosPos
  let gos := { gos with gosLastOpt := lopt, gosPos := pos }
  match tok with
  | none => if haveDelim then return .restart { gos with gosPos := -1 } else noArgument gos lopt
  | some tok =>
    if rowEnds (some tok) then
      if haveDelim then return .restart { gos with gosPos := -1 } else noArgument gos lopt
    -- if we got delimiter before don't look for it again
    else if haveDelim then anArgument gos lopt tok
    else if ¬inSet delimeter (tok.headD nul) then
      return .ret { ret := -1, option := some lopt, arg := none } { gos with gosErrno := .syntaxE }
    else
      let (tok, pos) ← nextToken gos.gosBuf gos.gosPos
      let gos := { gos with gosPos := pos }
      match tok with
      | none => noArgument gos lopt
      | some tok => if rowEnds (some tok) then noArgument gos lopt else anArgument gos lopt tok

/-- The beginning of `get_opt_file`: a new row, where there is need for one. -/
def beginRow (gos : GetOptState) : Option RowStep :=
  if gos.gosPos < 0 then newRow gos else some (.goOn gos.gosLastOpt gos)

/-- A call that has written `lopt` to `*option` before, and may have written it again. -/
def OptCall.behind (call : OptCall) (lopt : Int) : OptCall :=
  { call with option := some (call.option.getD lopt) }

/-- `get_opt_file` from `restart` on. -/
def fileLoop : Nat → Bool → GetOptState → Option (OptCall × GetOptState)
  | 0, _, _ => none
  | fuel + 1, haveDelim, gos => do
    let step ← beginRow gos
    let haveDelim := haveDelim && !decide (gos.gosPos < 0)
    match step with
    | .restart gos => fileLoop fuel haveDelim gos
    | .ret call gos => return (call, gos)
    | .goOn lopt gos =>
      match ← rowArg gos lopt haveDelim with
      | .restart gos =>
        let (call, gos) ← fileLoop fuel haveDelim gos
        return (call.behind lopt, gos)
      | .ret call gos => return (call, gos)
      | .goOn _ _ => none

/-- `get_opt_file`. -/
def getOptFile (gos : GetOptState) : Option (OptCall × GetOptState) :=
  if gos.gosErrno ≠ .ok then some (.failed, gos)
  else fileLoop (gos.gosFp.rest.length + 2) true gos

/-! ## The command line -/

/-- An argument that an option has been given. -/
def argvReturn (gos : GetOptState) (lopt : Int) (arg : Option Str) : OptCall × GetOptState :=
  ({ ret := 0, option := some lopt, arg := some arg },
    { gos with gosLastOpt := lopt, gosLastArg := arg })

/-- An option that cannot be taken. -/
def argvError (gos : GetOptState) (lopt : Int) (arg : Option Str) (err : GosErrno) :
    OptCall × GetOptState :=
  ({ ret := -1, option := some lopt, arg := some arg },
    { gos with gosLastOpt := lopt, gosLastArg := arg, gosErrno := err })

/-- The following argv, or a dash where there is none. -/
def nextArg (gos : GetOptState) : Option Str :=
  if gos.gosArgc > 1 then gos.gosArgv[1]? else some ['-']

/-- In the middle of parsing a short opt: `larg` is `*gos_argv`. -/
def shortOpt (gos : GetOptState) (larg : Str) : Option (OptCall × GetOptState) := do
  let gos := { gos with gosLastLong := false }
  let ch ← (larg ++ [nul])[gos.gosOptind]?
  match gos.gosGo.findIdx? fun g => g.goSname ≠ '?' ∧ ch = g.goSname with
  | none =>
    -- didn't recognise option put it in arg
    return argvError { gos with gosBuf := ch :: nul :: gos.gosBuf.drop 2 } (-1)
      (some (cstr [ch])) .unknownOption
  | some lopt =>
    let want ← wantArg gos.gosGo lopt
    if want = .noArg then
      -- move optind to next short option, or reset it if there is no more
      let next ← (larg ++ [nul])[gos.gosOptind + 1]?
      return argvReturn { gos with gosOptind := if next = nul then 0
        else gos.gosOptind + 1 } lopt none
    else
      let next ← (larg ++ [nul])[gos.gosOptind + 1]?
      if next ≠ nul then
        return argvReturn { gos with gosOptind := 0 } lopt (some (larg.drop (gos.gosOptind + 1)))
      else
        -- take the following argv if there is one and it doesn't start with a '-'
        let value ← nextArg gos
        if value.headD nul ≠ '-' then
          return argvReturn
            { gos with gosArgc := gos.gosArgc - 1, gosArgv := gos.gosArgv.tail, gosOptind := 0 }
            lopt (some value)
        else if want = .reqArg then return argvError gos lopt none .argReq
        else return argvReturn { gos with gosOptind := 0 } lopt none

/-- The entry of a long opt, which is behind the two dashes. -/
def longIndex (go : List GetOpt) (larg : Str) : Option Nat :=
  go.findIdx? fun g =>
    g.goName.isPrefixOf larg ∧
      (larg[g.goName.length]? = some '=' ∨ larg[g.goName.length]? = none)

/-- A long opt that is in the table. -/
def longOpt (gos : GetOptState) (larg : Str) (lopt : Nat) : Option (OptCall × GetOptState) := do
  let g ← gos.gosGo[lopt]?
  if larg[g.goName.length]? = some '=' then
    let arg := some (larg.drop (g.goName.length + 1))
    -- does this option support arguments?
    if g.goWantArg = .noArg then return argvError gos lopt arg .dontAccept
    else return argvReturn gos lopt arg
  else if g.goWantArg = .reqArg then return argvError gos lopt none .argReq
  else return argvReturn gos lopt none

/-- What is not a long opt of the table. -/
def otherArg (gos : GetOptState) (larg : Str) : Option (OptCall × GetOptState) :=
  -- a normal opt
  if larg.headD nul = '-' ∧ larg.length > 1 then
    match gos.gosArgv with
    | [] => none
    | larg :: _ => shortOpt { gos with gosOptind := 1 } larg
  -- didn't recognise the option
  else some (argvError gos (-1) (some larg) .unknownOption)

/-- `get_opt_argv`. -/
def getOptArgv (gos : GetOptState) : Option (OptCall × GetOptState) :=
  if gos.gosErrno ≠ .ok then some (.failed, gos)
  else
    let gos := { gos with gosLastLong := true }
    if gos.gosOptind ≠ 0 then
      match gos.gosArgv with
      | [] => none
      | larg :: _ => shortOpt gos larg
    else
      match gos.gosArgv with
      | [] => none
      | _ :: argv =>
        let gos := { gos with gosArgc := gos.gosArgc - 1, gosArgv := argv }
        -- out of options
        if gos.gosArgc = 0 then some (.failed, { gos with gosErrno := .endOfOptions })
        else
          match argv with
          | [] => none
          | larg :: rest =>
            if larg = ['-', '-'] then
              some (.failed,
                { gos with gosArgc := gos.gosArgc - 1, gosArgv := rest, gosErrno := .endOfArgMark })
            else if larg.take 2 = ['-', '-'] then
              match longIndex gos.gosGo (larg.drop 2) with
              | some lopt => longOpt gos (larg.drop 2) lopt
              | none => otherArg gos (larg.drop 2)
            else otherArg gos larg

/-! ## The environment -/

/-- `strncasecmp(s, t, strlen(s)) == 0` -/
def casePrefix (s t : Str) : Bool := (s.map Char.toLower).isPrefixOf (t.map Char.toLower)

/-- The option that a variable is for, and what is after its `=`. -/
def envOption (go : List GetOpt) (pre var : Str) : Option (Nat × Str) :=
  if casePrefix pre var ∧ var[pre.length]? = some '_' then
    let p := var.drop (pre.length + 1)
    (go.findIdx? fun g => casePrefix g.goName p ∧ p[g.goName.length]? = some '=').bind fun i =>
      go[i]?.map fun g => (i, p.drop (g.goName.length + 1))
  else none

/-- The loop of `get_opt_env`. -/
def envLoop (go : List GetOpt) (pre : Str) : List Str → Option (Nat × Str × List Str)
  | [] => none
  | var :: ep =>
    match envOption go pre var with
    | some (i, value) => some (i, value, ep)
    | none => envLoop go pre ep

/-- `get_opt_env`. -/
def getOptEnv (gos : GetOptState) : OptCall × GetOptState :=
  if gos.gosErrno ≠ .ok then (.failed, gos)
  else
    match envLoop gos.gosGo gos.gosPrefix gos.gosEnvEp with
    | none => (.failed, { gos with gosErrno := .endOfOptions })
    | some (i, value, ep) =>
      ({ ret := 0, option := some i, arg := some (if value = [] then none else some value) },
        { gos with gosEnvEp := ep })

/-! ## Calls -/

/-- `tgetopt`. -/
def tgetopt (gos : GetOptState) : Option (OptCall × GetOptState) :=
  match gos.gosType with
  | .argv => getOptArgv gos
  | .file => getOptFile gos
  | .env => some (getOptEnv gos)

/-- A number of calls: what each of them gives, with the errno after it, and the last state. -/
def tgetopts : Nat → GetOptState → Option (List (OptCall × GosErrno) × GetOptState)
  | 0, gos => some ([], gos)
  | n + 1, gos => do
    let (call, gos) ← tgetopt gos
    let (calls, last) ← tgetopts n gos
    return ((call, gos.gosErrno) :: calls, last)

/-- The errors that are no errors of an option. -/
def GosErrno.noOption : GosErrno → Bool
  | .endOfOptions | .eread | .unknownOption | .syntaxEs => true
  | _ => false

/-- A call as its caller sees it. Where the error is none of an option, `*option` is not a result:
it is as it was, or it is the option of an earlier row. -/
def OptCall.result (call : OptCall) (err : GosErrno) : OptCall × GosErrno :=
  (if err.noOption then { call with option := none } else call, err)

/-- A number of calls as their caller sees them. -/
def results (calls : List (OptCall × GosErrno)) : List (OptCall × GosErrno) :=
  calls.map fun c => c.1.result c.2

/-- What a number of calls of `tgetopt` give. -/
def tgetoptResults (n : Nat) (gos : GetOptState) : Option (List (OptCall × GosErrno)) :=
  (tgetopts n gos).map fun r => results r.1

/-! ## The table of the program -/

/-- `go` of `spegla.c`. -/
def goTable : List GetOpt :=
  [
    ⟨['c', 'o', 'n', 'f', 'i', 'g', 'f', 'i', 'l', 'e'], 'f', .reqArg⟩,
    ⟨['s', 'e', 'c', 't', 'i', 'o', 'n'], 's', .reqArg⟩,
    ⟨['l', 'o', 'c', 'a', 'l', 'd', 'i', 'r'], 'l', .reqArg⟩,
    ⟨['r', 'e', 'm', 'o', 't', 'e', 'd', 'i', 'r'], 'r', .reqArg⟩,
    ⟨['u', 's', 'e', 'r', 'n', 'a', 'm', 'e'], 'u', .reqArg⟩,
    ⟨['p', 'a', 's', 's', 'w', 'o', 'r', 'd'], 'p', .reqArg⟩,
    ⟨['h', 'o', 's', 't'], 'h', .reqArg⟩,
    ⟨['v', 'e', 'r', 's', 'i', 'o', 'n'], 'v', .optArg⟩,
    ⟨['w', 'a', 'r', 'n', 'o', 'v', 'e', 'r', 'r', 'i', 'd', 'e', 's'], 'w', .reqArg⟩,
    ⟨['s', 'k', 'i', 'p'], '?', .reqArg⟩,
    ⟨['s', 'h', 'o', 'w', 'c', 'o', 'n', 'f'], '?', .reqArg⟩,
    ⟨['l', 'o', 'g', 'f', 'i', 'l', 'e'], '?', .reqArg⟩,
    ⟨['l', 'o', 'c', 'k', 'f', 'i', 'l', 'e'], '?', .reqArg⟩,
    ⟨['r', 'e', 't', 'r', 'i', 'e', 's'], '?', .reqArg⟩,
    ⟨['r', 'e', 't', 'r', 'y', 't', 'i', 'm', 'e'], '?', .reqArg⟩,
    ⟨['t', 'i', 'm', 'e', 'o', 'u', 't'], '?', .reqArg⟩,
    ⟨['p', 'o', 'r', 't'], '?', .reqArg⟩,
    ⟨['p', 'a', 's', 's', 'i', 'v', 'e'], '?', .reqArg⟩,
    ⟨['m', 'a', 'x', 'd', 'e', 'l', 'e', 't', 'e'], '?', .reqArg⟩,
    ⟨['l', 'o', 'g', 'l', 'e', 'v', 'e', 'l'], '?', .reqArg⟩,
    ⟨['t', 'e', 'm', 'p', 'd', 'i', 'r'], '?', .reqArg⟩,
    ⟨['t', 'r', 'e', 'a', 't', 'a', 's', 'd', 'i', 'r'], '?', .reqArg⟩,
    ⟨['t', 'r', 'e', 'a', 't', 'a', 's', 'd', 'i', 'r', 'd', 'e', 's', 't'], '?', .reqArg⟩,
    ⟨['m', 'i', 'n', 'f', 'r', 'e', 'e'], '?', .reqArg⟩,
    ⟨['d', 'o', 'd', 'e', 'l', 'e', 't', 'e'], '?', .reqArg⟩,
    ⟨['m', 'i', 'r', 'r', 'o', 'r', 'u', 's', 'e', 'r'], '?', .reqArg⟩,
    ⟨['h', 'e', 'l', 'p'], '?', .noArg⟩,
    ⟨['u', 'r', 'l'], '?', .reqArg⟩,
    ⟨['f', 'a', 'm', 'i', 'l', 'y'], 'a', .reqArg⟩
  ]

end Spegla
