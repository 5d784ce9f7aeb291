import Spegla.Lib.EventLog
import Spegla.Lib.FtpReply
import Spegla.World

/-!
# The state of a connection (`jftp.c`, `struct ftp_con`)

- `Server`: the other side, which answers a command with replies and with the data it
  sends on the data connection.
- `Net`: what stays the same: the server, how each low-level call goes, and the settings.
- `Conn`: what changes. `input` is what the server has sent on the control connection and
  nobody has read, `sent` what it has got of a command that has no end yet. `closed` and
  `log` record what was done; no function reads them.
- `call`: one low-level call. `ftpReadCom`, `ftpWrite`: `ftp_read` and `ftp_write` on the
  control connection.

The counters that only the statistics show are left out.
-/

namespace Spegla.Jftp

open CString FtpReply ExitState

/-- `JFTP_BUF`, the size of `ftp_buf`. -/
def JFTP_BUF : Nat := 16384

variable {S α : Type}

/-! ## The other side -/

/-- How a server answers a command: its replies, in order, and what it sends on the data
connection. -/
structure Response where
  replies : List Reply
  data : Str

/-- A server: the replies to a new connection, and those to a command line. -/
structure Server (S : Type) where
  greeting : S → List Reply × S
  answer : S → Str → Response × S

/-- The low-level calls. -/
inductive NetCall where
  | socket | gethostbyname | connect | getsockname | bind | listen | select | accept | setsockopt
  | read | write | readData | malloc | mkstemp | writeFile | fopen | fseek | fwrite
deriving DecidableEq, Repr

/-- How a call goes: it succeeds, with a number of bytes where it moves some, it fails, or
the time is up. -/
inductive Outcome where
  | ok (n : Nat)
  | fail
  | timeout
deriving DecidableEq, Repr

/-- What does not change: `outcome` says how a call goes, by the number of calls before it;
`flushed`, in the same way, how many bytes a stream gets out of its buffer;
`hostPort` is the address and port that `getsockname` shows, in the form of `PORT`. -/
structure Net (S : Type) where
  server : Server S
  outcome : Nat → NetCall → Outcome
  flushed : Nat → Nat
  hostPort : Nat → Str
  ftpPassive : Bool
  ftpUserName : Str
  ftpPassword : Str
  pathMax : Nat

/-- A server that never says anything. -/
def muteServer : Server Unit := { greeting := fun s => ([], s), answer := fun s _ => (⟨[], []⟩, s) }

/-- An active connection to a server on which every call succeeds. -/
def calmNet (server : Server S) : Net S :=
  { server := server
    outcome := fun _ _ => .ok JFTP_BUF
    flushed := fun _ => JFTP_BUF
    hostPort := fun _ => ['1', ',', '2', ',', '3', ',', '4', ',', '5', ',', '6']
    ftpPassive := false
    ftpUserName := ['u']
    ftpPassword := ['p']
    pathMax := 255 }

/-! ## The state -/

/-- What a connection records: what the server says first; a command that the server carries
out, in its state before it, with the replies; a call that does not do what it is asked for; what is
done with the local file, with how much `fwrite` takes of a chunk and how much then leaves the
buffer of the stream; how `ftp_get` and `ftp_dir2` return, with what has not been read of the
replies; and, of a listing, why it fails, whether that is because its data connection is lost, and
how the ways down and back end, with whether the control connection is still open. -/
inductive NetEvent (S : Type) where
  | greeted (replies : List Reply)
  | command (state : S) (cmd : Str) (replies : List Reply)
  | lost (call : NetCall) (r : Outcome)
  | fopen (keep : Bool)
  | fwrite (chunk : Str) (written flushed : Nat)
  | fclose (flushed : Nat)
  | returned (ok : Bool) (resp : Int) (unread : Str)
  | listFailed (resp : Int)
  | listDataLost
  | wentDown (ok : Bool) (resp : Int)
  | wentBack (ok : Bool) (resp : Int) (kept : Bool)

/-- `struct ftp_con`. -/
structure Conn (S : Type) where
  ftpCom : Option Nat
  ftpListen : Option Nat
  ftpData : Option Nat
  ftpRemoteDir : Option Str
  ftpResp : Int
  ftpBuf : Str
  server : S
  sent : Str
  input : Str
  data : Str
  fds : Nat
  closed : List Nat
  tick : Nat
  log : List (NetEvent S)

/-- A connection before its first login. -/
def Conn.init (s : S) : Conn S :=
  { ftpCom := none
    ftpListen := none
    ftpData := none
    ftpRemoteDir := none
    ftpResp := 0
    ftpBuf := []
    server := s
    sent := []
    input := []
    data := []
    fds := 0
    closed := []
    tick := 0
    log := [] }

/-- A program on a connection. -/
abbrev Ftp (S : Type) (α : Type) := EStateM Exit (Conn S) α

/-- The connection after an event. -/
def Conn.logged (c : Conn S) (e : NetEvent S) : Conn S := { c with log := e :: c.log }

/-- What has been recorded since the state `c`, the latest event first. -/
def newEvents (c c' : Conn S) : List (NetEvent S) := c'.log.take (c'.log.length - c.log.length)

/-- The new events are what the record has grown by. -/
theorem newEvents_eq {c c' : Conn S} {new : List (NetEvent S)} (h : c'.log = new ++ c.log) :
    newEvents c c' = new := by
  unfold newEvents
  rw [h, List.length_append, Nat.add_sub_cancel, List.take_left]

/-- Record an event. -/
def recordNet (e : NetEvent S) : Ftp S PUnit := modify fun c => c.logged e

/-- Set `ftp_resp`. -/
def setResp (resp : Int) : Ftp S PUnit := modify fun c => { c with ftpResp := resp }

/-! ## Descriptors -/

/-- The record of closed descriptors after `FD_CLOSE`. -/
def fdClose (fd : Option Nat) (closed : List Nat) : List Nat :=
  match fd with
  | none => closed
  | some n => n :: closed

/-- `FD_CLOSE(c->ftp_com)`: what was not read is gone. -/
def Conn.closeCom (c : Conn S) : Conn S :=
  { c with ftpCom := none, closed := fdClose c.ftpCom c.closed, sent := [], input := [] }

/-- `FD_CLOSE(c->ftp_listen)`. -/
def Conn.closeListen (c : Conn S) : Conn S :=
  { c with ftpListen := none, closed := fdClose c.ftpListen c.closed }

/-- `FD_CLOSE(c->ftp_data)`. -/
def Conn.closeData (c : Conn S) : Conn S :=
  { c with ftpData := none, closed := fdClose c.ftpData c.closed }

def closeCom : Ftp S PUnit := modify Conn.closeCom
def closeListen : Ftp S PUnit := modify Conn.closeListen
def closeData : Ftp S PUnit := modify Conn.closeData

/-- A new descriptor. -/
def newFd : Ftp S Nat := modifyGet fun c => (c.fds, { c with fds := c.fds + 1 })

/-! ## Low-level calls -/

variable (net : Net S)

/-- Whether a call does what it is asked for, where it is to move `size` bytes. -/
def Outcome.isFull (size : Nat) : Outcome → Bool
  | .ok n => size ≤ n
  | _ => false

/-- The state after a call that was to move `size` bytes. -/
def Conn.called (c : Conn S) (k : NetCall) (size : Nat) (r : Outcome) : Conn S :=
  { c with
    tick := c.tick + 1
    log := if r.isFull size then c.log else .lost k r :: c.log }

/-- One low-level call that is to move `size` bytes. -/
def call (k : NetCall) (size : Nat) : Ftp S Outcome :=
  modifyGet fun c => (net.outcome c.tick k, c.called k size (net.outcome c.tick k))

/-- Whether a call succeeds, where a failure and the end of time are the same. -/
def succeeds (k : NetCall) : Ftp S Bool := do
  return (← call net k 0).isFull 0

/-! ## The control connection -/

/-- The server carries out the command line it has got. -/
def Conn.execute (c : Conn S) : Conn S :=
  let cmd := if c.sent.getLast? = some '\r' then c.sent.dropLast else c.sent
  let r := net.server.answer c.server cmd
  { c with
    server := r.2
    sent := []
    input := c.input ++ r.1.replies.flatMap Reply.bytes
    data := c.data ++ r.1.data
    log := .command c.server cmd r.1.replies :: c.log }

/-- The server gets bytes on the control connection. -/
def Conn.deliver (c : Conn S) : Str → Conn S
  | [] => c
  | b :: bytes =>
    if b = '\n' then (c.execute net).deliver bytes
    else ({ c with sent := c.sent ++ [b] } : Conn S).deliver bytes

/-- `ftp_write` on the control connection: `false` where nothing was written, with whether
the time was up. -/
def ftpWrite (bytes : Str) : Ftp S (Except Bool PUnit) := do
  let c ← get
  if c.ftpCom = none then return .error false
  else
    match ← call net .write bytes.length with
    | .fail => return .error false
    | .timeout => return .error true
    | .ok n =>
      -- sometimes it's possible to get 0 under Solaris
      if n = 0 then return .error false
      else
        modify fun c => c.deliver net (bytes.take n)
        return .ok ⟨⟩

/-- `ftp_read` of one byte on the control connection. -/
def ftpReadCom : Ftp S (Except Bool Char) := do
  let c ← get
  if c.ftpCom = none then return .error false
  else
    match ← call net .read 0 with
    | .fail => return .error false
    | .timeout => return .error true
    | .ok n =>
      modifyGet fun c =>
        match c.input with
        -- the server has nothing more to say, and closes the connection
        | [] => (.error false, c.logged (.lost .read (.ok n)))
        | b :: rest => (.ok b, { c with input := rest })

end Spegla.Jftp
