import Spegla.Jftp.Commands

/-!
# Sessions

What a request does to a connection on which every reply has been read, in the form that
the commands are composed of.

- `Session`: the part of a connection that an invariant may speak of.
- `Ready`, `Waiting`, `Cut`: the control connection is open and every reply has been read,
  or the final reply to a transfer has not, or the connection has been lost; each with an
  invariant of the session.
- `Rfc959`: a server that answers each command as it should.
- `ftpReq_upholds`: a request is answered, and the first of the replies has been read, or
  the connection is lost; this holds where the replies that the run records meet `ok`.
- `ftpReq_plain`, `ftpReq_transfer`, `ftpReq_cut`: what follows for a command that gets a
  single reply, for one that starts a transfer, and for a connection that is lost already.
-/

namespace Spegla.Jftp

open CString FtpReply ExitState

variable {S α : Type} {net : Net S} {ok : NetEvent S → Prop}

/-! ## Records grow -/

/-- The program only adds to the record. -/
abbrev NetGrows (x : Ftp S α) : Prop := Grows Conn.log x

/-- A call adds to the record. -/
theorem call_grows (k : NetCall) (size : Nat) : NetGrows (call net k size) := by
  intro tr c hc
  show tr <:+ (if _ then c.log else _ :: c.log)
  split
  · exact hc
  · exact hc.trans (List.suffix_cons ..)

/-- So does whatever changes the rest of the state only. -/
theorem modify_grows {f : Conn S → Conn S} (h : ∀ c, c.log <:+ (f c).log) :
    NetGrows (modify f : Ftp S PUnit) := fun _ c hc => hc.trans (h c)

/-- Reading the control connection adds to the record. -/
theorem ftpReadCom_grows : NetGrows (ftpReadCom net) := by
  intro tr
  refine Keeps.get.bind fun c => Keeps.ite (fun _ => Keeps.pure _) fun _ => ?_
  refine (call_grows .read 0 tr).bind fun r => ?_
  cases r with
  | fail => exact Keeps.pure _
  | timeout => exact Keeps.pure _
  | ok n =>
    intro c hc
    show wp (modifyGet _ : Ftp S _) c _ _
    rw [wp_modifyGet]
    cases c.input with
    | nil => exact hc.trans (List.suffix_cons ..)
    | cons b rest => exact hc

/-- The end of a read or write that has failed adds to it. -/
theorem ioErr_grows (timedOut : Bool) : NetGrows (ioErr timedOut : Ftp S Bool) := fun _ _ hc => hc

/-- The end of a line of a reply, whatever comes after it. -/
theorem endLine_grows {again : Bool → Ftp S Bool} (h : ∀ b, NetGrows (again b)) (line : Str)
    (islongtext : Bool) : NetGrows (endLine again line islongtext) := by
  intro tr
  refine Keeps.bind (fun _ hc => hc) fun _ => ?_
  refine Keeps.ite (fun _ _ hc => hc) fun _ => Keeps.ite (fun _ => h true tr) fun _ => ?_
  exact Keeps.ite (fun _ _ hc => hc) fun _ _ hc => hc

/-- The lines of a reply, by induction on the fuel. -/
theorem readReply_grows (fuel : Nat) : ∀ line size islongtext,
    NetGrows (readReply net fuel line size islongtext) := by
  induction fuel with
  | zero =>
    intro line size islongtext tr
    exact Keeps.throw _
  | succ fuel ih =>
    intro line size islongtext tr
    refine (ftpReadCom_grows tr).bind fun r => ?_
    cases r with
    | error timedOut => exact ioErr_grows timedOut tr
    | ok b =>
      refine Keeps.ite
        (fun _ => endLine_grows (fun lt => ih [] JFTP_BUF lt) line islongtext tr) fun _ => ?_
      exact Keeps.ite (fun _ _ hc => hc) fun _ => ih _ _ islongtext tr

/-- A reply adds to the record. -/
theorem ftpResponse_grows : NetGrows (ftpResponse net) := fun tr =>
  Keeps.get.bind fun _ => readReply_grows _ _ _ _ tr

/-- What a server sends adds to it. -/
theorem deliver_grows (bytes : Str) : ∀ (c : Conn S), c.log <:+ (c.deliver net bytes).log := by
  induction bytes with
  | nil =>
    intro c
    exact List.suffix_refl _
  | cons b bytes ih =>
    intro c
    rw [Conn.deliver]
    split
    · exact (List.suffix_cons ..).trans (ih (c.execute net))
    · exact ih { c with sent := c.sent ++ [b] }

/-- Sending adds to it. -/
theorem ftpWrite_grows (bytes : Str) : NetGrows (ftpWrite net bytes) := by
  intro tr
  refine Keeps.get.bind fun c => Keeps.ite (fun _ => Keeps.pure _) fun _ => ?_
  refine (call_grows .write _ tr).bind fun r => ?_
  cases r with
  | fail => exact Keeps.pure _
  | timeout => exact Keeps.pure _
  | ok n =>
    refine Keeps.ite (fun _ => Keeps.pure _) fun _ => ?_
    exact (modify_grows (fun c => deliver_grows _ c) tr).bind fun _ => Keeps.pure _

/-- **A command and its reply** only add to the record. -/
theorem ftpReq_grows (cmd : Str) : NetGrows (ftpReq net cmd) := by
  intro tr
  refine Keeps.bind (fun _ hc => hc) fun _ => (ftpWrite_grows _ tr).bind fun r => ?_
  cases r with
  | error timedOut => exact ioErr_grows timedOut tr
  | ok u => exact ftpResponse_grows tr

/-! ## What an invariant speaks of -/

/-- The part of a connection that an invariant may speak of. -/
structure Session (S : Type) where
  server : S
  remoteDir : Option Str
  data : Str
  log : List (NetEvent S)

def Conn.session (c : Conn S) : Session S := ⟨c.server, c.ftpRemoteDir, c.data, c.log⟩

/-- The session after an event. -/
def Session.logged (σ : Session S) (e : NetEvent S) : Session S := { σ with log := e :: σ.log }

/-- The replies to a command, and the session after it. -/
def Session.replies (net : Net S) (σ : Session S) (cmd : Str) : List Reply :=
  (net.server.answer σ.server cmd).1.replies

def Session.after (net : Net S) (σ : Session S) (cmd : Str) : Session S :=
  { server := (net.server.answer σ.server cmd).2
    remoteDir := σ.remoteDir
    data := σ.data ++ (net.server.answer σ.server cmd).1.data
    log := .command σ.server cmd (σ.replies net cmd) :: σ.log }

/-- Where the program goes on, `ftp_get` and `ftp_dir2` leave nothing unread. -/
def NetEvent.AllRead : NetEvent S → Prop
  | .returned ok resp unread => ok = true ∨ resp = JFTP_ERR → unread = []
  | _ => True

/-- What an invariant does not look at: all events but commands and bad returns. -/
def NetEvent.Passes (e : NetEvent S) : Prop :=
  match e with
  | .command .. => False
  | e => e.AllRead

def Quiet (I : Session S → Prop) : Prop := ∀ σ e, NetEvent.Passes e → I σ → I (σ.logged e)

variable {I J : Session S → Prop} {K : Reply → Session S → Prop}

/-- The control connection is open, and every reply has been read. -/
structure Ready (I : Session S → Prop) (c : Conn S) : Prop where
  com : c.ftpCom ≠ none
  input : c.input = []
  sent : c.sent = []
  keep : I c.session

/-- The control connection is open, and the final reply to a transfer is to be read. -/
structure Waiting (K : Reply → Session S → Prop) (c : Conn S) : Prop where
  com : c.ftpCom ≠ none
  sent : c.sent = []
  reply : ∃ r : Reply, r.Fits JFTP_BUF ∧ c.input = r.bytes ∧ K r c.session

/-- The connection has been lost. -/
def Lost (resp : Int) : Prop := resp = JFTP_BROKEN ∨ resp = JFTP_TIMEOUT

/-- The connection has been lost, and the control connection is closed. -/
structure Cut (J : Session S → Prop) (c : Conn S) : Prop where
  com : c.ftpCom = none
  input : c.input = []
  sent : c.sent = []
  keep : J c.session
  resp : Lost c.ftpResp

/-- The command `cmd` has been carried out, and the first reply to it has been read. -/
structure Answered (net : Net S) (ok : NetEvent S → Prop) (I : Session S → Prop) (cmd : Str)
    (c : Conn S) : Prop where
  com : c.ftpCom ≠ none
  sent : c.sent = []
  reply : ∃ σ r rs, I σ ∧ σ.replies net cmd = r :: rs ∧ ok (.command σ.server cmd (r :: rs)) ∧
    c.session = σ.after net cmd ∧ c.input = rs.flatMap Reply.bytes ∧ c.ftpResp = r.code

/-! ## One request -/

variable {c : Conn S}

/-- What a broken connection leaves of a session. -/
theorem Broken.cut {c' : Conn S} (h : Broken net c c') (hJ : Quiet J) (hkeep : J c.session) :
    Provided Conn.log ok c c' (Cut J c') := by
  obtain ⟨k, r, hlog⟩ := h.log
  refine ⟨[.lost k r], hlog, fun _ => ⟨h.com, h.input, h.sent, ?_, h.resp⟩⟩
  have hsession : c'.session = c.session.logged (.lost k r) := by
    unfold Conn.session Session.logged
    rw [h.server, h.remoteDir, h.data, hlog]
  rw [hsession]
  exact hJ _ (.lost k r) trivial hkeep

/-- Where there is nothing to read, the connection is lost. -/
theorem ftpResponse_empty {E : Exit → Conn S → Prop} (hcom : c.ftpCom ≠ none) (hin : c.input = [])
    {Q : Bool → Conn S → Prop} (hbroken : ∀ c', Broken net c c' → Q false c') :
    wp (ftpResponse net) c Q E := by
  unfold ftpResponse
  rw [wp_bind, wp_get, hin]
  show wp (ftpReadCom net >>= fun r => _) c Q E
  rw [wp_bind]
  unfold ftpReadCom call
  rw [wp_bind, wp_get, if_neg hcom, wp_bind, wp_modifyGet]
  cases hout : net.outcome c.tick .read with
  | ok n =>
    have hfull : (Outcome.ok n).isFull 0 = true := decide_eq_true (Nat.zero_le n)
    simp only [Conn.called, hfull, if_true]
    rw [wp_modifyGet, hin]
    exact hbroken _
      ⟨rfl, rfl, rfl, rfl, rfl, rfl, rfl, rfl, Or.inl rfl, ⟨.read, .ok n, rfl⟩, Or.inl hin⟩
  | fail =>
    exact hbroken _
      ⟨rfl, rfl, rfl, rfl, rfl, rfl, rfl, rfl, Or.inl rfl, ⟨.read, .fail, rfl⟩, Or.inl hin⟩
  | timeout =>
    exact hbroken _
      ⟨rfl, rfl, rfl, rfl, rfl, rfl, rfl, rfl, Or.inr rfl, ⟨.read, .timeout, rfl⟩, Or.inl hin⟩

/-- What is no whole line yet stays in the buffer of the server. -/
theorem deliver_append {s : Str} (hs : '\n' ∉ s) : ∀ (c : Conn S),
    c.deliver net s = { c with sent := c.sent ++ s } := by
  induction s with
  | nil =>
    intro c
    simp [Conn.deliver]
  | cons b s ih =>
    intro c
    rw [List.mem_cons, not_or] at hs
    rw [Conn.deliver, if_neg (Ne.symm hs.1), ih hs.2]
    simp

/-- A whole line is carried out. -/
theorem deliver_line {s : Str} (hs : '\n' ∉ s) : ∀ (c : Conn S),
    c.deliver net (s ++ ['\n']) = ({ c with sent := c.sent ++ s } : Conn S).execute net := by
  induction s with
  | nil =>
    intro c
    simp [Conn.deliver]
  | cons b s ih =>
    intro c
    rw [List.mem_cons, not_or] at hs
    rw [List.cons_append, Conn.deliver, if_neg (Ne.symm hs.1), ih hs.2]
    simp

/-- A whole command line is carried out. -/
theorem deliver_cmd {cmd : Str} (hcmd : '\n' ∉ cmd) (hsent : c.sent = []) :
    c.deliver net (cmd ++ ['\r', '\n']) = { c with
      server := (net.server.answer c.server cmd).2
      sent := []
      input := c.input ++ (c.session.replies net cmd).flatMap Reply.bytes
      data := c.data ++ (net.server.answer c.server cmd).1.data
      log := .command c.server cmd (c.session.replies net cmd) :: c.log } := by
  have hline : '\n' ∉ cmd ++ ['\r'] := by
    rw [List.mem_append, not_or]
    exact ⟨hcmd, by decide⟩
  have h : c.deliver net (cmd ++ ['\r'] ++ ['\n']) = _ := deliver_line hline c
  rw [List.append_assoc, List.singleton_append] at h
  rw [h, hsent, List.nil_append]
  unfold Conn.execute
  simp only [List.getLast?_concat, List.dropLast_concat, if_true]
  rfl

/-- A part of a command line is not carried out. -/
theorem newline_not_mem_part {cmd : Str} (hcmd : '\n' ∉ cmd) {m : Nat} (hm : m < cmd.length + 2) :
    '\n' ∉ (cmd ++ ['\r', '\n']).take m := by
  have hsplit : cmd ++ ['\r', '\n'] = (cmd ++ ['\r']) ++ ['\n'] := by simp
  rw [hsplit, List.take_append_of_le_length (by simp; omega)]
  intro hmem
  have := List.mem_of_mem_take hmem
  rw [List.mem_append, List.mem_singleton] at this
  rcases this with h | h
  · exact hcmd h
  · exact absurd h (by decide)

/-- The end of `io_err`, where a lost call is the last that was recorded. -/
theorem ioErr_cut {E : Exit → Conn S → Prop} {A : Bool → Conn S → Prop} {timedOut : Bool}
    {c₁ : Conn S} {k : NetCall} {r : Outcome} (hs : c₁.session = c.session.logged (.lost k r))
    (hJ : Quiet J) (hkeep : J c.session) : wp (ioErr timedOut) c₁
      (fun b c' => Provided Conn.log ok c c' (A b c' ∨ (b = false ∧ Cut J c'))) E := by
  have hlog : c₁.log = .lost k r :: c.log := congrArg Session.log hs
  refine ⟨[.lost k r], hlog, fun _ => Or.inr ⟨rfl, rfl, rfl, rfl, ?_, ?_⟩⟩
  · show J c₁.session
    rw [hs]
    exact hJ _ (.lost k r) trivial hkeep
  · cases timedOut with
    | false => exact Or.inl rfl
    | true => exact Or.inr rfl

/-- The reply to a command line that has been carried out. -/
theorem ftpResponse_answered {cmd : Str} {c₂ : Conn S} (hcom : c₂.ftpCom ≠ none)
    (hsent : c₂.sent = []) (hI : I c.session) (hsession : c₂.session = c.session.after net cmd)
    (hinput : c₂.input = (c.session.replies net cmd).flatMap Reply.bytes)
    (hne : c.session.replies net cmd ≠ [])
    (hfits : ok (.command c.server cmd (c.session.replies net cmd)) →
      ∀ r ∈ c.session.replies net cmd, r.Fits JFTP_BUF)
    (hJ : Quiet J) (hkeep : J (c.session.after net cmd)) :
    wp (ftpResponse net) c₂ (fun b c' => Provided Conn.log ok c c'
      ((b = true ∧ Answered net ok I cmd c') ∨ (b = false ∧ Cut J c')))
      (fun _ c' => Provided Conn.log ok c c' False) := by
  have hlog : c₂.log = .command c.server cmd (c.session.replies net cmd) :: c.log :=
    congrArg Session.log hsession
  by_cases hok : ok (.command c.server cmd (c.session.replies net cmd))
  swap
  · -- the command is recorded, so that nothing is asked of what follows
    refine wp_mono (ftpResponse_grows c₂.log c₂ (List.suffix_refl _)) (fun _ c' hg => ?_)
      fun _ c' hg => ?_
    · exact Provided.cons hlog hg fun h => absurd h hok
    · exact Provided.cons hlog hg fun h => absurd h hok
  obtain ⟨r, rs, hreplies⟩ := List.exists_cons_of_ne_nil hne
  rw [hreplies] at hinput hok
  rw [List.flatMap_cons] at hinput
  refine ftpResponse_spec _ hcom hinput
    (hfits (by rw [hreplies]; exact hok) r (by rw [hreplies]; simp)) ?_ ?_
  · intro c' hb
    refine Provided.cons hlog ?_ fun _ => ?_
    · obtain ⟨k, r', hl⟩ := hb.log
      rw [hl]
      exact List.suffix_cons ..
    · exact (hb.cut hJ (by rw [hsession]; exact hkeep)).mono fun h => Or.inr ⟨rfl, h⟩
  · intro t ht
    refine ⟨[.command c.server cmd (c.session.replies net cmd)], hlog, fun _ =>
      Or.inl ⟨rfl, hcom, hsent, ?_⟩⟩
    exact ⟨c.session, r, rs, hI, hreplies, hok, hsession, rfl, rfl⟩

/-- A request on a connection on which every reply has been read. -/
theorem ftpReq_upholds {cmd : Str} (hline : ∀ σ, I σ → '\n' ∉ cmd)
    (hne : ∀ σ : Session S, I σ → σ.replies net cmd ≠ [])
    (hfits : ∀ s rs, ok (.command s cmd rs) → ∀ r ∈ rs, r.Fits JFTP_BUF) (hJ : Quiet J)
    (hcut : ∀ σ : Session S, I σ → J σ ∧ J (σ.after net cmd)) :
    Upholds Conn.log ok (fun _ => False) (Ready I) (ftpReq net cmd) fun b c' =>
      (b = true ∧ Answered net ok I cmd c') ∨ (b = false ∧ Cut J c') := by
  refine Upholds.of_provided (ftpReq_grows cmd) fun c hc => ?_
  have hcmd := hline c.session hc.keep
  obtain ⟨hJ₀, hJ₁⟩ := hcut c.session hc.keep
  unfold ftpReq
  rw [wp_bind, wp_modify, wp_bind]
  -- what is sent is cut at the size of the buffer
  generalize htext : (cmd ++ ['\r', '\n']).take (JFTP_BUF - 1) = text
  have hlen : text.length = min (JFTP_BUF - 1) (cmd.length + 2) := by
    rw [← htext, List.length_take]
    simp
  unfold ftpWrite call
  rw [wp_bind, wp_get, if_neg hc.com, wp_bind, wp_modifyGet]
  cases hout : net.outcome c.tick .write with
  | fail =>
    simp only [wp_pure]
    refine ioErr_cut (k := .write) (r := .fail) ?_ hJ hJ₀
    rfl
  | timeout =>
    simp only [wp_pure]
    refine ioErr_cut (k := .write) (r := .timeout) ?_ hJ hJ₀
    rfl
  | ok n =>
    by_cases hn : n = 0
    · -- nothing was written
      subst hn
      have hfull : (Outcome.ok 0).isFull text.length = false := by
        unfold Outcome.isFull
        rw [decide_eq_false_iff_not, hlen]
        unfold JFTP_BUF
        omega
      simp only [if_true, wp_pure]
      refine ioErr_cut (k := .write) (r := .ok 0) ?_ hJ hJ₀
      show Session.mk _ _ _ (if _ then _ else _) = _
      rw [hfull]
      rfl
    · simp only [if_neg hn]
      rw [wp_bind, wp_modify]
      show wp (ftpResponse net) _ _ _
      by_cases hwhole : text.length ≤ n ∧ cmd.length + 2 ≤ JFTP_BUF - 1
      · -- the whole command line
        have hfull : (Outcome.ok n).isFull text.length = true := decide_eq_true hwhole.1
        have htake : text.take n = cmd ++ ['\r', '\n'] := by
          rw [List.take_of_length_le hwhole.1, ← htext, List.take_of_length_le
            (by simpa using hwhole.2)]
        rw [htake]
        simp only [Conn.called, hfull, if_true]
        rw [deliver_cmd hcmd]
        swap
        · exact hc.sent
        refine ftpResponse_answered hc.com rfl hc.keep rfl ?_ (hne _ hc.keep)
          (fun h => hfits _ _ h) hJ hJ₁
        show c.input ++ _ = _
        rw [hc.input, List.nil_append]
        rfl
      · -- a part of it, which the server does not carry out
        have hpart : '\n' ∉ text.take n := by
          rw [← htext, List.take_take]
          refine newline_not_mem_part hcmd ?_
          omega
        rw [deliver_append hpart]
        refine ftpResponse_empty ?_ ?_ fun c' hb => ?_
        · exact hc.com
        · exact hc.input
        have hgrow : c.log <:+ (if (Outcome.ok n).isFull text.length = true then c.log
            else .lost .write (.ok n) :: c.log) := by
          split
          · exact List.suffix_refl _
          · exact List.suffix_cons ..
        have hkeep : J ⟨c.server, c.ftpRemoteDir, c.data,
            if (Outcome.ok n).isFull text.length = true then c.log
            else .lost .write (.ok n) :: c.log⟩ := by
          split
          · exact hJ₀
          · exact hJ _ (.lost .write (.ok n)) trivial hJ₀
        exact ((hb.cut hJ hkeep).since hgrow).mono fun h => Or.inr ⟨rfl, h⟩

/-! ## The server -/

/-- The first word of a command, in capital letters. -/
def word (cmd : Str) : Str := (cmd.takeWhile (· ≠ ' ')).map Char.toUpper

/-- A command that moves data. -/
def Transfers (cmd : Str) : Prop :=
  word cmd = ['R', 'E', 'T', 'R'] ∨ word cmd = ['L', 'I', 'S', 'T']

/-- A command that changes neither the directory nor moves data. -/
def Plain (cmd : Str) : Prop := ¬Transfers cmd ∧ word cmd ≠ ['C', 'W', 'D']

instance (cmd : Str) : Decidable (Transfers cmd) :=
  inferInstanceAs (Decidable (word cmd = ['R', 'E', 'T', 'R'] ∨ word cmd = ['L', 'I', 'S', 'T']))

instance (cmd : Str) : Decidable (Plain cmd) :=
  inferInstanceAs (Decidable (¬Transfers cmd ∧ word cmd ≠ ['C', 'W', 'D']))

/-- The first word is up to the first blank. -/
theorem takeWhile_word {w : Str} (hw : ' ' ∉ w) (rest : Str) :
    (w ++ rest).takeWhile (· ≠ ' ') = w ++ rest.takeWhile (· ≠ ' ') := by
  refine List.takeWhile_append_of_pos fun a ha => ?_
  rw [decide_eq_true_iff]
  rintro rfl
  exact hw ha

/-- The first word of a command does not depend on its argument. -/
theorem word_append {w : Str} (hw : ' ' ∉ w) (rest : Str) :
    word (w ++ ' ' :: rest) = word w := by
  have hself := takeWhile_word hw []
  rw [List.append_nil, List.takeWhile_nil, List.append_nil] at hself
  unfold word
  rw [takeWhile_word hw, List.takeWhile_cons_of_neg (by simp), List.append_nil, hself]

/-- Whether a command is plain is up to its first word. -/
theorem plain_append {w : Str} (hw : ' ' ∉ w) (hplain : Plain w) (rest : Str) :
    Plain (w ++ ' ' :: rest) := by
  unfold Plain Transfers
  rw [word_append hw]
  exact hplain

/-- Whether a command transfers does not either. -/
theorem transfers_append {w : Str} (hw : ' ' ∉ w) (htransfers : Transfers w) (rest : Str) :
    Transfers (w ++ ' ' :: rest) := by
  unfold Transfers
  rw [word_append hw]
  exact htransfers

/-- A server that answers each command as it should: a transfer gets a preliminary reply
and a final one, or is refused; any other command gets one reply. -/
structure Rfc959 (server : Server S) : Prop where
  greeting : ∀ s, ∃ r, 200 ≤ r.code ∧ ((server.greeting s).1 = [r] ∨
    ∃ p, p.code = 120 ∧ (server.greeting s).1 = [p, r])
  transfer : ∀ s cmd, Transfers cmd →
    (∃ r, 400 ≤ r.code ∧ (server.answer s cmd).1 = ⟨[r], []⟩) ∨
    ∃ p r data, (p.code = 125 ∨ p.code = 150) ∧ 200 ≤ r.code ∧
      (server.answer s cmd).1 = ⟨[p, r], data⟩
  single : ∀ s cmd, ¬Transfers cmd → ∃ r, 200 ≤ r.code ∧ (server.answer s cmd).1 = ⟨[r], []⟩

/-- A server that follows the protocol replies to every command. -/
theorem Rfc959.replies_ne_nil {cmd : Str} (h : Rfc959 net.server) (σ : Session S) :
    σ.replies net cmd ≠ [] := by
  unfold Session.replies
  by_cases ht : Transfers cmd
  · rcases h.transfer σ.server cmd ht with ⟨r, -, hr⟩ | ⟨p, r, data, -, -, hr⟩
    all_goals
      rw [hr]
      simp
  · obtain ⟨r, -, hr⟩ := h.single σ.server cmd ht
    rw [hr]
    simp

/-- What is asked of a server, of what a run records, and of two invariants: `I` where the
connection is there, `J` where it is lost. -/
structure Kept (net : Net S) (ok : NetEvent S → Prop) (I J : Session S → Prop) : Prop where
  rfc : Rfc959 net.server
  greeting : ∀ rs, ok (.greeted rs) → ∀ r ∈ rs, r.Fits JFTP_BUF
  fits : ∀ s cmd rs, ok (.command s cmd rs) → ∀ r ∈ rs, r.Fits JFTP_BUF
  quiet : Quiet I
  quietJ : Quiet J
  cut : ∀ σ, I σ → J σ
  plain : ∀ σ cmd, Plain cmd → I σ → I (σ.after net cmd)

/-- A command that gets a single reply. -/
theorem ftpReq_single (h : Kept net ok I J) {R : Session S → Prop} {cmd : Str}
    (hcmd : ∀ σ, R σ → '\n' ∉ cmd)
    (hsingle : ¬Transfers cmd) (hcut : ∀ σ, R σ → J σ ∧ J (σ.after net cmd)) :
    Upholds Conn.log ok (fun _ => False) (Ready R) (ftpReq net cmd) fun b c' =>
      (b = true ∧ ∃ σ r, R σ ∧ (net.server.answer σ.server cmd).1 = ⟨[r], []⟩ ∧
        c'.ftpResp = r.code ∧ Ready (· = σ.after net cmd) c') ∨ (b = false ∧ Cut J c') := by
  refine (ftpReq_upholds hcmd (fun σ _ => h.rfc.replies_ne_nil σ)
    (fun s rs => h.fits s cmd rs) h.quietJ hcut).post fun b c' hc' => ?_
  rcases hc' with ⟨hb, hans⟩ | hcut'
  swap
  · exact Or.inr hcut'
  refine Or.inl ⟨hb, ?_⟩
  obtain ⟨σ, r, rs, hσ, hreplies, -, hsession, hinput, hresp⟩ := hans.reply
  obtain ⟨r', -, hr'⟩ := h.rfc.single σ.server cmd hsingle
  have hone : [r'] = r :: rs := by
    rw [← hreplies]
    unfold Session.replies
    rw [hr']
  obtain ⟨rfl, rfl⟩ := List.cons.inj hone
  exact ⟨σ, r', hσ, hr', hresp, hans.com, hinput, hans.sent, hsession⟩

/-- A plain command. -/
theorem ftpReq_plain (h : Kept net ok I J) {cmd : Str} (hcmd : '\n' ∉ cmd) (hplain : Plain cmd) :
    Upholds Conn.log ok (fun _ => False) (Ready I) (ftpReq net cmd) fun b c' =>
      (b = true ∧ Ready I c') ∨ (b = false ∧ Cut J c') := by
  refine (ftpReq_single h (fun _ _ => hcmd) hplain.1 fun σ hσ =>
    ⟨h.cut σ hσ, h.cut _ (h.plain σ cmd hplain hσ)⟩).post fun b c' hc' => ?_
  rcases hc' with ⟨hb, σ, r, hσ, -, -, hready⟩ | hcut
  · refine Or.inl ⟨hb, hready.com, hready.input, hready.sent, ?_⟩
    rw [hready.keep]
    exact h.plain σ cmd hplain hσ
  · exact Or.inr hcut

/-- A command that starts a transfer, where no server announces it by 125. -/
theorem ftpReq_transfer (h : Kept net ok I J) {R : Session S → Prop} {cmd : Str} (hcmd : '\n' ∉ cmd)
    (htransfer : Transfers cmd)
    (hR : ∀ σ, R σ → I σ) (hpre : ∀ s cmd rs, ok (.command s cmd rs) → ∀ r ∈ rs, r.code ≠ 125)
    (hrefused : ∀ σ r, R σ → (net.server.answer σ.server cmd).1 = ⟨[r], []⟩ → I (σ.after net cmd))
    (hsent : ∀ σ p r data, R σ → (net.server.answer σ.server cmd).1 = ⟨[p, r], data⟩ →
      K r (σ.after net cmd))
    (hcut : ∀ r σ, K r σ → J σ) :
    Upholds Conn.log ok (fun _ => False) (Ready R) (ftpReq net cmd) fun b c' =>
      (b = true ∧ ((c'.ftpResp = 150 ∧ Waiting K c') ∨ (c'.ftpResp ≠ 150 ∧ Ready I c'))) ∨
      (b = false ∧ Cut J c') := by
  refine (ftpReq_upholds (fun _ _ => hcmd) (fun σ _ => h.rfc.replies_ne_nil σ)
    (fun s rs => h.fits s cmd rs)
    h.quietJ fun σ hσ => ⟨h.cut σ (hR σ hσ), ?_⟩).post fun b c' hc' => ?_
  · rcases h.rfc.transfer σ.server cmd htransfer with ⟨r, -, hr⟩ | ⟨p, r, data, -, -, hr⟩
    · exact h.cut _ (hrefused σ r hσ hr)
    · exact hcut r _ (hsent σ p r data hσ hr)
  rcases hc' with ⟨hb, hans⟩ | hcut'
  swap
  · exact Or.inr hcut'
  refine Or.inl ⟨hb, ?_⟩
  obtain ⟨σ, r, rs, hσ, hreplies, hok, hsession, hinput, hresp⟩ := hans.reply
  have hans' : (net.server.answer σ.server cmd).1.replies = r :: rs := hreplies
  rcases h.rfc.transfer σ.server cmd htransfer with ⟨r', hcode, hr'⟩ | ⟨p, r', data, hcode, -, hr'⟩
  · -- refused
    rw [hr'] at hans'
    obtain ⟨rfl, rfl⟩ := List.cons.inj hans'
    refine Or.inr ⟨by rw [hresp]; omega, hans.com, hinput, hans.sent, ?_⟩
    rw [hsession]
    exact hrefused σ r' hσ hr'
  · rw [hr'] at hans'
    obtain ⟨rfl, rfl⟩ := List.cons.inj hans'
    have hne := hpre _ _ _ hok p (List.mem_cons_self ..)
    refine Or.inl ⟨by rw [hresp]; omega, hans.com, hans.sent, r', ?_, ?_, ?_⟩
    · exact h.fits _ _ _ hok r' (by simp)
    · rw [hinput]
      simp
    · rw [hsession]
      exact hsent σ p r' data hσ hr'

/-- A request on a connection that is lost. -/
theorem ftpReq_cut {cmd : Str} :
    Upholds Conn.log ok (fun _ => False) (fun c => c.ftpCom = none ∧ J c.session) (ftpReq net cmd)
      fun b c' => b = false ∧ Cut J c' := by
  refine Upholds.of_wp (ftpReq_grows cmd) fun c hc => ?_
  unfold ftpReq ftpWrite
  rw [wp_bind, wp_modify, wp_bind, wp_bind, wp_get, if_pos hc.1]
  exact ⟨rfl, rfl, rfl, rfl, hc.2, Or.inl rfl⟩

end Spegla.Jftp
