import Spegla.Jftp.Req

/-!
# Commands (`jftp.c`, `ftp_relogin` to `ftp_dir`)

- `ftpRelogin`, `ftpCd`: a new connection, and the directory on the server.
- `ftpPort`: the data connection, active or passive. `ftpReadData`: what comes on it.
- `ftpGet`: a file; `ftpRetr` is the part of it that follows the opening of the local
  file. `ftpDir2`, `ftpDir`: a listing, as the content of the temporary file.
- `chunks`: what of a file has been read.

`SO_RCVTIMEO` is there, `INET6` is not. The results of `ftp_set_sock_opts` and of
`setsockopt(IP_PORTRANGE)` are ignored by the source and left out.
-/

namespace Spegla.Jftp

open CString FtpReply ExitState

variable {S : Type} (net : Net S)

/-! ## The directory on the server -/

/-- `ftp_cd`. The new directory is kept before the server has answered. -/
def ftpCd (dir : Str) : Ftp S Bool := do
  if ← succeeds net .malloc then
    modify fun c => { c with ftpRemoteDir := some dir }
    if ← ftpReq net (['C', 'W', 'D', ' '] ++ dir) then
      let c ← get
      if c.ftpResp ≠ 250 then
        setResp JFTP_ERR
        return false
      else return true
    else return false
  else
    setResp JFTP_ERRNO
    return false

/-- A failure of `ftp_relogin`. -/
def loginFailed : Ftp S Bool := do
  closeCom
  setResp JFTP_ERR
  return false

/-- A new control connection, with what the server says first. -/
def Conn.connected (c : Conn S) (fd : Nat) : Conn S :=
  let r := net.server.greeting c.server
  { c with
    ftpCom := some fd
    sent := []
    input := r.1.flatMap Reply.bytes
    server := r.2
    log := .greeted r.1 :: c.log }

/-- `ftp_relogin` once the user is logged in: the type of data, and the directory. -/
def loginType : Ftp S Bool := do
  setResp 0
  let ok ← ftpReq net ['T', 'Y', 'P', 'E', ' ', 'I']
  let c ← get
  if ¬ok ∨ c.ftpResp ≠ 200 then loginFailed
  else
    match c.ftpRemoteDir with
    | none => return true
    | some dir => if strcmp dir ['/'] ≠ 0 then ftpCd net dir else return true

/-- `ftp_relogin` once the connection is there. -/
def ftpLogin : Ftp S Bool := do
  let ok ← ftpResponse net
  let c ← get
  if ¬ok ∨ c.ftpResp ≠ 220 then loginFailed
  else
    let ok ← ftpReq net (['u', 's', 'e', 'r', ' '] ++ net.ftpUserName)
    let c ← get
    if ¬ok ∨ c.ftpResp ≠ 331 ∧ c.ftpResp ≠ 230 then loginFailed
    else
      -- USER command can respond 230 immediately in some cases
      let ok ← if c.ftpResp ≠ 230 then ftpReq net (['p', 'a', 's', 's', ' '] ++ net.ftpPassword)
        else pure true
      let c ← get
      if ¬ok ∨ c.ftpResp ≠ 230 then loginFailed else loginType net

/-- `ftp_relogin`. -/
def ftpRelogin : Ftp S Bool := do
  closeCom
  closeListen
  closeData
  if ← succeeds net .socket then
    let fd ← newFd
    modify fun c => { c with ftpCom := some fd }
    if ← succeeds net .gethostbyname then
      if ← succeeds net .connect then
        modify fun c => c.connected net fd
        ftpLogin net
      else loginFailed
    else loginFailed
  else
    setResp JFTP_ERR
    return false

/-! ## The data connection -/

/-- A failure of `ftp_port` that gives the control connection up. -/
def portBroken : Ftp S Bool := do
  closeListen
  closeCom
  setResp JFTP_BROKEN
  return false

/-- The sanity check of `ftp_port`, and a new socket, on which nothing has come yet. -/
def listenSocket : Ftp S Bool := do
  closeListen
  if ← succeeds net .socket then
    let fd ← newFd
    modify fun c => { c with ftpListen := some fd, data := [] }
    return true
  else return false

/-- `ftp_port`, doing active ftp. -/
def portActive : Ftp S Bool := do
  if ← listenSocket net then
    if ← succeeds net .bind then
      let c ← get
      if ← succeeds net .getsockname then
        if ← succeeds net .listen then
          let ok ← ftpReq net (['P', 'O', 'R', 'T', ' '] ++ net.hostPort c.tick)
          let c ← get
          if ok ∧ c.ftpResp = 200 then return true
          else
            if ok then setResp JFTP_ERR
            closeListen
            return false
        else portBroken
      else portBroken
    else portBroken
  else
    setResp JFTP_BROKEN
    return false

/-- `ftp_port`, doing passive ftp: the connection to the server. -/
def portConnect : Ftp S Bool := do
  closeData
  if ← succeeds net .socket then
    let fd ← newFd
    modify fun c => { c with ftpData := some fd, data := [] }
    if ← succeeds net .connect then return true
    else
      closeData
      setResp JFTP_ERR
      return false
  else
    setResp JFTP_ERR
    return false

/-- The numbers that `sscanf(p, "(%d,%d,%d,%d,%d,%d", …)` finds in the reply to `PASV`. -/
def pasvNumbers (buf : Str) : List Int :=
  match buf.dropWhile (· ≠ '(') with
  | [] => []
  | _ :: s => scanList ',' 6 s

/-- `ftp_port`, doing passive ftp. -/
def portPassive : Ftp S Bool := do
  let ok ← ftpReq net ['P', 'A', 'S', 'V']
  let c ← get
  if ok ∧ c.ftpResp = 227 then
    if (pasvNumbers (cstr c.ftpBuf)).length = 6 then portConnect net
    else
      setResp JFTP_ERR
      return false
  else
    if ok then setResp JFTP_ERR
    return false

/-- `ftp_port`. -/
def ftpPort : Ftp S Bool := do
  let c ← get
  let ok ← succeeds net .getsockname
  if ok ∧ c.ftpCom ≠ none then
    if net.ftpPassive then portPassive net else portActive net
  else
    closeCom
    setResp JFTP_BROKEN
    return false

/-- `ftp_read_data` once the data connection is there: what was read is in `ftp_buf`, and
its length in `ftp_resp`. -/
def readChunk (size : Nat) : Ftp S Bool := do
  let c ← get
  if c.ftpData = none then
    setResp JFTP_BROKEN
    return false
  else
    match ← call net .readData 0 with
    | .ok n =>
      modify fun c =>
        let k := min (max n 1) size
        { c with
          ftpBuf := c.data.take k
          ftpResp := (c.data.take k).length
          data := c.data.drop k }
      return true
    | .fail =>
      closeData
      setResp JFTP_BROKEN
      return false
    | .timeout =>
      closeData
      setResp JFTP_TIMEOUT
      return false

/-- `ftp_read_data`. -/
def ftpReadData (size : Nat) : Ftp S Bool := do
  let c ← get
  if c.ftpData = none ∧ c.ftpListen ≠ none then
    match ← call net .select 0 with
    | .fail =>
      setResp JFTP_ERR
      return false
    | .timeout =>
      closeListen
      setResp JFTP_TIMEOUT
      return false
    | .ok _ =>
      let ok ← succeeds net .accept
      closeListen
      if ok then
        let fd ← newFd
        modify fun c => { c with ftpData := some fd }
        if ← succeeds net .setsockopt then readChunk net size
        else
          closeData
          setResp JFTP_ERR
          return false
      else
        setResp JFTP_BROKEN
        return false
  else readChunk net size

/-! ## Files -/

/-- `fclose`, whose result is not looked at: what does not get out of the buffer is lost. -/
def fcloseFile : Ftp S PUnit := modify fun c => c.logged (.fclose (net.flushed c.tick))

/-- The label `ret_bad` of `ftp_get`. -/
def retBad : Ftp S Bool := do
  closeListen
  closeData
  fcloseFile net
  return false

/-- How many of `size` bytes a call moves. -/
def Outcome.moved (size : Nat) : Outcome → Nat
  | .ok n => min n size
  | _ => 0

/-- `fwrite(chunk, done, 1, fp)`: the number of items, 0 or 1. What of the chunk goes to
the buffer of the stream, and how much of the buffer to the file, is recorded. -/
def fwriteChunk (chunk : Str) : Ftp S Int := do
  let r ← call net .fwrite chunk.length
  modify fun c => c.logged (.fwrite chunk (r.moved chunk.length) (net.flushed c.tick))
  return if r.moved chunk.length = chunk.length then 1 else 0

/-- The loop of `ftp_get`: `true` at the end of the data. -/
def getLoop : Nat → Ftp S Bool
  | 0 => throw .hang
  | fuel + 1 => do
    let c ← get
    if c.ftpResp ≤ 0 then return true
    else
      let res ← fwriteChunk net c.ftpBuf
      if res < 0 then
        let _ ← ftpResponse net
        setResp JFTP_WRITEERR
        return false
      else if ← ftpReadData net JFTP_BUF then getLoop fuel
      else return false

/-- The end of `ftp_get`, once all the data is there. -/
def getFinish : Ftp S Bool := do
  fcloseFile net
  closeListen
  closeData
  if ← ftpResponse net then
    let c ← get
    if c.ftpResp ≠ 226 then
      setResp JFTP_ERR
      retBad net
    else return true
  else
    closeCom
    setResp JFTP_BROKEN
    retBad net

/-- The data of `ftp_get`, once the server has said that it comes. -/
def getData : Ftp S Bool := do
  if ← ftpReadData net JFTP_BUF then
    let c ← get
    if ← getLoop net (c.data.length + 2) then getFinish net else retBad net
  else retBad net

/-- `REST`, where the file is to be continued. -/
def ftpRest (seekto : Nat) : Ftp S Bool := do
  if seekto > 0 then
    let ok ← ftpReq net (['R', 'E', 'S', 'T', ' '] ++ (Nat.repr seekto).toList)
    let c ← get
    if ok ∧ c.ftpResp = 350 then return true
    else
      if ok then setResp JFTP_ERR
      return false
  else return true

/-- `ftp_get` once the local file is open. -/
def ftpRetr (remoteFile : Str) (seekto : Nat) : Ftp S Bool := do
  if ← ftpPort net then
    if ← ftpRest net seekto then
      let ok ← ftpReq net (['R', 'E', 'T', 'R', ' '] ++ remoteFile)
      let c ← get
      if ok ∧ c.ftpResp = 150 then getData net
      else
        if ok then setResp JFTP_ERR
        retBad net
    else retBad net
  else
    modify fun c =>
      if c.ftpResp ≠ JFTP_BROKEN ∧ c.ftpResp ≠ JFTP_TIMEOUT then { c with ftpResp := JFTP_ERR }
        else c
    retBad net

/-- The opening of the local file: where `fseek` fails, it stays open. -/
def getOpen (seekto : Nat) : Ftp S Bool := do
  if ← succeeds net .fopen then
    recordNet (.fopen (0 < seekto))
    if 0 < seekto then
      if ← succeeds net .fseek then return true
      else
        setResp JFTP_ERRNO
        return false
    else return true
  else
    setResp JFTP_WRITEERR
    return false

/-- `ftp_get`. -/
def ftpGet (remoteFile : Str) (seekto : Nat) : Ftp S Bool := do
  let ok ← if ← getOpen net seekto then ftpRetr net remoteFile seekto else pure false
  let c ← get
  recordNet (.returned ok c.ftpResp (c.input ++ c.sent))
  return ok

/-! ## Listings -/

/-- A failing exit of `ftp_dir2`, with the class of the failure. -/
def listFailed (resp : Int) : Ftp S (Option Str) := do
  recordNet (.listFailed resp)
  return none

/-- Such an exit, where the data connection was lost. -/
def listDataLost : Ftp S (Option Str) := do
  recordNet .listDataLost
  let c ← get
  listFailed c.ftpResp

/-- The loop of `ftp_dir2`: the content of the temporary file at the end of the data. -/
def dirLoop : Nat → Str → Ftp S (Option Str)
  | 0, _ => throw .hang
  | fuel + 1, tmp => do
    let c ← get
    if c.ftpResp ≤ 0 then return some tmp
    else
      match ← call net .writeFile c.ftpBuf.length with
      | .ok n =>
        if ← ftpReadData net JFTP_BUF then dirLoop fuel (tmp ++ c.ftpBuf.take n)
        else
          closeListen
          closeData
          listDataLost
      | _ =>
        setResp JFTP_WRITEERR
        closeListen
        closeData
        let _ ← ftpResponse net
        listFailed JFTP_WRITEERR

/-- The end of `ftp_dir2`, once all the data is there. -/
def dirFinish (tmp : Str) : Ftp S (Option Str) := do
  closeListen
  closeData
  if ← ftpResponse net then
    let c ← get
    -- a listing that was aborted leaves the code of the reply
    if c.ftpResp ≠ 226 then listFailed JFTP_ERR else return some tmp
  else
    closeCom
    setResp JFTP_BROKEN
    listFailed JFTP_BROKEN

/-- The data of `ftp_dir2`, once the server has said that it comes. -/
def dirData : Ftp S (Option Str) := do
  if ← ftpReadData net JFTP_BUF then
    let c ← get
    match ← dirLoop net (c.data.length + 2) [] with
    | some tmp => dirFinish net tmp
    | none => return none
  else listDataLost

/-- The command of `ftp_dir2`. -/
def listCmd (flags dir : Str) : Str :=
  if strcmp dir ['.'] = 0 ∨ dir = [] then ['l', 'i', 's', 't', ' '] ++ flags
  else ['l', 'i', 's', 't', ' '] ++ flags ++ ' ' :: dir

/-- `ftp_dir2`, with the temporary file open. -/
def ftpList (flags dir : Str) : Ftp S (Option Str) := do
  if ← ftpPort net then
    let ok ← ftpReq net (listCmd flags dir)
    let c ← get
    if ok ∧ c.ftpResp = 150 then dirData net
    else
      closeListen
      closeData
      if ok then setResp JFTP_ERR
      let c ← get
      listFailed c.ftpResp
  else
    closeListen
    closeData
    let c ← get
    listFailed c.ftpResp

/-- `ftp_dir2`. -/
def ftpDir2 (flags dir : Str) : Ftp S (Option Str) := do
  let tmp ←
    if ← succeeds net .malloc then
      if ← succeeds net .mkstemp then ftpList net flags dir
      else
        setResp JFTP_WRITEERR
        listFailed JFTP_WRITEERR
    else
      setResp JFTP_ERRNO
      listFailed JFTP_ERRNO
  let c ← get
  recordNet (.returned tmp.isSome c.ftpResp (c.input ++ c.sent))
  return tmp

/-- `ftp_cd` in `ftp_dir`, down to the directory. -/
def goDown (dir : Str) : Ftp S Bool := do
  let ok ← ftpCd net dir
  let c ← get
  recordNet (.wentDown ok c.ftpResp)
  return ok

/-- `ftp_cd` in `ftp_dir`, back to where it was. -/
def goBack (dir : Str) : Ftp S Bool := do
  let ok ← ftpCd net dir
  let c ← get
  recordNet (.wentBack ok c.ftpResp (c.ftpCom ≠ none))
  return ok

/-- `ftp_dir`. -/
def ftpDir (dir : Str) : Ftp S (Option Str) := do
  let c ← get
  match c.ftpRemoteDir with
  | none => throw .nullPointer
  | some remoteDir =>
    let buf := remoteDir.take (net.pathMax - 1)
    if ← goDown net dir then
      let res ← ftpDir2 net ['-', 'l', 'a', 'g'] []
      if ← goBack net buf then return res else return none
    else return none

/-! ## What has been read -/

/-- What of a file has been read, from the record. -/
def chunks (log : List (NetEvent S)) : Str :=
  log.reverse.flatMap fun e =>
    match e with
    | .fwrite chunk .. => chunk
    | _ => []

end Spegla.Jftp
