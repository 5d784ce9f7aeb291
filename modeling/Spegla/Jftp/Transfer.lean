import Spegla.Jftp.Session

/-!
# Transfers

What `ftp_port`, `ftp_get` and `ftp_dir2` do on a connection on which every reply has been
read.

- `DataRead`: what a call of `ftp_read_data` can do.
- `ftpPort_upholds`: a data connection on which nothing has come yet.
- `Fetching`: the final reply to a transfer is to be read, and the data that has been read
  is in the file or in the buffer.
- `ftpRetr_upholds`, `ftpDir2_upholds`: a file and a listing. They hold as long as what the
  run records meets `ok`.
-/

namespace Spegla.Jftp

open CString FtpReply ExitState

variable {S : Type} {net : Net S} {ok : NetEvent S → Prop} {c : Conn S} {E : Exit → Conn S → Prop}

/-! ## Low-level calls -/

/-- A call that goes wrong. -/
def Wrong (net : Net S) (k : NetCall) (r : Outcome) : Prop :=
    (∃ t, net.outcome t k = r) ∧ ∀ n, r ≠ .ok n

/-- The test of a call has two outcomes, and the second one is recorded. -/
theorem wp_succeeds {k : NetCall} {Q : Bool → Conn S → Prop}
    (hok : ∀ t, Q true { c with tick := t })
    (hfail : ∀ t r, Wrong net k r → Q false { c with tick := t, log := .lost k r :: c.log }) :
    wp (succeeds net k) c Q E := by
  unfold succeeds call
  rw [wp_bind, wp_modifyGet]
  show Q ((net.outcome c.tick k).isFull 0) (c.called k 0 (net.outcome c.tick k))
  unfold Conn.called
  cases hfull : (net.outcome c.tick k).isFull 0 with
  | true => exact hok (c.tick + 1)
  | false =>
    refine hfail (c.tick + 1) (net.outcome c.tick k) ⟨⟨c.tick, rfl⟩, fun n hn => ?_⟩
    rw [hn] at hfull
    exact absurd (Nat.zero_le n) (of_decide_eq_false hfull)

/-- One event. -/
theorem Provided.event {c c' : Conn S} {e : NetEvent S} {p : Prop} (hlog : c'.log = e :: c.log)
    (hp : ok e → p) : Provided Conn.log ok c c' p :=
  ⟨[e], hlog, fun hok => hp (hok e (List.mem_cons_self ..))⟩

variable {I J : Session S → Prop} {K : Reply → Session S → Prop}

/-- A test that fails is recorded, and the connection is as it was. -/
theorem succeeds_upholds (hI : Quiet I) (k : NetCall) :
    Upholds Conn.log ok (fun _ => False) (Ready I) (succeeds net k) fun _ => Ready I := by
  intro c
  refine wp_succeeds (fun t => Provided.of rfl fun h => ⟨h.com, h.input, h.sent, h.keep⟩)
    fun t r _ => ?_
  refine Provided.event rfl fun _ h => ⟨h.com, h.input, h.sent, ?_⟩
  exact hI c.session (.lost k r) trivial h.keep

/-- Recording an event takes the invariant to what holds with the event in the record. -/
theorem recordNet_upholds {P Q : Conn S → Prop} (e : NetEvent S) (h : ∀ c, P c → Q (c.logged e)) :
    Upholds Conn.log ok (fun _ => False) P (recordNet e) fun _ => Q := fun c =>
  Provided.event rfl fun _ hc => h c hc

/-! ## Reading from the data connection -/

/-- Nothing has changed but what concerns the data. -/
structure SameControl (c c' : Conn S) : Prop where
  com : c'.ftpCom = c.ftpCom
  sent : c'.sent = c.sent
  input : c'.input = c.input
  server : c'.server = c.server
  remoteDir : c'.ftpRemoteDir = c.ftpRemoteDir

/-- A call of `ftp_read_data`: a chunk, which is empty only at the end of the data; or a call
that did not succeed; or there is no data connection. -/
inductive DataRead (net : Net S) (size : Nat) (c : Conn S) : Bool → Conn S → Prop where
  | chunk (c' : Conn S) (k : Nat) : 0 < k → SameControl c c' → c'.ftpData ≠ none → c'.log = c.log →
      c'.ftpBuf = c.data.take k → c'.ftpResp = (c.data.take k).length → c'.data = c.data.drop k →
      DataRead net size c true c'
  | lost (c' : Conn S) (k : NetCall) (r : Outcome) : Wrong net k r → SameControl c c' →
      c'.log = .lost k r :: c.log → c'.data = c.data →
      (Lost c'.ftpResp ∨ c'.ftpResp = JFTP_ERR ∧ (k = .select ∧ r = .fail ∨ k = .setsockopt)) →
      DataRead net size c false c'
  | closed (c' : Conn S) : c.ftpData = none → c.ftpListen = none → SameControl c c' →
    c'.log = c.log → c'.data = c.data →
      Lost c'.ftpResp → DataRead net size c false c'

/-- What follows a call that only has to do with the data, once there is a data connection. -/
theorem DataRead.after {size : Nat} (c₀ : Conn S) {c c' : Conn S} {b : Bool}
    (hfd : c.ftpData ≠ none)
    (hsame : SameControl c₀ c) (hlog : c.log = c₀.log) (hdata : c.data = c₀.data)
    (h : DataRead net size c b c') : DataRead net size c₀ b c' := by
  have htrans : ∀ c', SameControl c c' → SameControl c₀ c' := fun c' h' =>
    ⟨h'.com.trans hsame.com, h'.sent.trans hsame.sent, h'.input.trans hsame.input,
      h'.server.trans hsame.server, h'.remoteDir.trans hsame.remoteDir⟩
  cases h with
  | chunk _ k hk h' hfd' hlog' hbuf hresp hdata' =>
    rw [hdata] at hbuf hresp hdata'
    exact .chunk c' k hk (htrans c' h') hfd' (hlog'.trans hlog) hbuf hresp hdata'
  | lost _ k r hwrong h' hlog' hdata' hresp =>
    exact .lost c' k r hwrong (htrans c' h') (by rw [hlog', hlog]) (hdata'.trans hdata) hresp
  | closed _ hnone _ h' hlog' hdata' hresp => exact absurd hnone hfd

/-- The three ends of a read: data has come, the peer has closed, or the read has failed. -/
theorem readChunk_spec {size : Nat} (hsize : 0 < size)
    (hlisten : c.ftpData = none → c.ftpListen = none)
    {Q : Bool → Conn S → Prop} (h : ∀ b c', DataRead net size c b c' → Q b c') :
    wp (readChunk net size) c Q E := by
  unfold readChunk
  rw [wp_bind, wp_get]
  by_cases hdata : c.ftpData = none
  · rw [if_pos hdata]
    exact h _ _ (.closed _ hdata (hlisten hdata) ⟨rfl, rfl, rfl, rfl, rfl⟩ rfl rfl (Or.inl rfl))
  · rw [if_neg hdata]
    unfold call
    rw [wp_bind, wp_modifyGet]
    unfold Conn.called
    cases hout : net.outcome c.tick .readData with
    | ok n =>
      have hlog : (c.called .readData 0 (.ok n)).log = c.log := rfl
      exact h _ _ (.chunk _ (min (max n 1) size) (by omega) ⟨rfl, rfl, rfl, rfl, rfl⟩ hdata
        hlog rfl rfl rfl)
    | fail =>
      exact h _ _ (.lost _ .readData .fail ⟨⟨_, hout⟩, by simp⟩ ⟨rfl, rfl, rfl, rfl, rfl⟩ rfl rfl
        (Or.inl (Or.inl rfl)))
    | timeout =>
      exact h _ _ (.lost _ .readData .timeout ⟨⟨_, hout⟩, by simp⟩ ⟨rfl, rfl, rfl, rfl, rfl⟩ rfl rfl
        (Or.inl (Or.inr rfl)))

/-- Each call of `ftp_read_data` is one of these. -/
theorem ftpReadData_spec {size : Nat} (hsize : 0 < size) {Q : Bool → Conn S → Prop}
    (h : ∀ b c', DataRead net size c b c' → Q b c') : wp (ftpReadData net size) c Q E := by
  unfold ftpReadData
  rw [wp_bind, wp_get]
  split
  swap
  · next hno =>
    exact readChunk_spec hsize (fun hnone => not_not.mp fun hlisten => hno ⟨hnone, hlisten⟩) h
  unfold call
  rw [wp_bind, wp_modifyGet]
  cases hout : net.outcome c.tick .select with
  | fail =>
    exact h _ _ (.lost _ .select .fail ⟨⟨_, hout⟩, by simp⟩ ⟨rfl, rfl, rfl, rfl, rfl⟩ rfl rfl
      (Or.inr ⟨rfl, Or.inl ⟨rfl, rfl⟩⟩))
  | timeout =>
    exact h _ _ (.lost _ .select .timeout ⟨⟨_, hout⟩, by simp⟩ ⟨rfl, rfl, rfl, rfl, rfl⟩ rfl rfl
      (Or.inl (Or.inr rfl)))
  | ok n =>
    have hfull : (Outcome.ok n).isFull 0 = true := decide_eq_true (Nat.zero_le n)
    unfold Conn.called
    simp only [hfull, if_true]
    rw [wp_bind]
    refine wp_succeeds (fun t => ?_) fun t r hwrong => ?_
    swap
    · exact h _ _ (.lost _ .accept r hwrong ⟨rfl, rfl, rfl, rfl, rfl⟩ rfl rfl (Or.inl (Or.inl rfl)))
    simp only [closeListen, newFd, wp_bind, wp_modify, wp_modifyGet, if_true]
    refine wp_succeeds (fun t => ?_) fun t r hwrong => ?_
    · rw [if_pos rfl]
      refine readChunk_spec hsize (by simp) fun b c' h' => h b c' (.after c ?_ ?_ ?_ ?_ h')
      · simp
      · exact ⟨rfl, rfl, rfl, rfl, rfl⟩
      · rfl
      · rfl
    · rw [if_neg (by decide)]
      exact h _ _ (.lost _ .setsockopt r hwrong ⟨rfl, rfl, rfl, rfl, rfl⟩ rfl rfl
        (Or.inr ⟨rfl, Or.inr rfl⟩))

/-! ## A data connection -/

/-- The invariant does not look at the data. -/
def Forgets (I : Session S → Prop) : Prop := ∀ σ d, I σ → I { σ with data := d }

/-- Nothing has come on the data connection. -/
def Empty (I : Session S → Prop) (σ : Session S) : Prop := I σ ∧ σ.data = []

/-- With no data yet, an invariant that is kept is kept still. -/
theorem Kept.empty (h : Kept net ok I J) : Kept net ok (Empty I) J where
  rfc := h.rfc
  greeting := h.greeting
  fits := h.fits
  quiet := fun σ e he hσ => ⟨h.quiet σ e he hσ.1, hσ.2⟩
  quietJ := h.quietJ
  cut := fun σ hσ => h.cut σ hσ.1
  plain := by
    intro σ cmd hcmd hσ
    obtain ⟨r, -, hr⟩ := h.rfc.single σ.server cmd hcmd.1
    refine ⟨h.plain σ cmd hcmd hσ.1, ?_⟩
    show σ.data ++ _ = []
    rw [hσ.2, hr]
    rfl

/-- The connection is as it was, or it has been lost. -/
def Safe (I J : Session S → Prop) (c : Conn S) : Prop := Ready I c ∨ Cut J c

/-- The settings that go into commands are lines. -/
structure OneLine (net : Net S) : Prop where
  hostPort : ∀ n, '\n' ∉ net.hostPort n
  ftpUserName : '\n' ∉ net.ftpUserName
  ftpPassword : '\n' ∉ net.ftpPassword

theorem Ready.empty (h : Ready (Empty I) c) : Ready I c := ⟨h.com, h.input, h.sent, h.keep.1⟩

/-- The same for a program that goes on in either case. -/
theorem succeeds_test (hI : Quiet I) (k : NetCall) :
    Upholds Conn.log ok (fun _ => False) (Ready I) (succeeds net k) fun b c' =>
      (b = true ∧ Ready I c') ∨ (b = false ∧ Ready I c') :=
  (succeeds_upholds hI k).post fun b c' h => by
    cases b with
    | true => exact Or.inl ⟨rfl, h⟩
    | false => exact Or.inr ⟨rfl, h⟩

/-- Closing the listening socket is none of the control connection. -/
theorem closeListen_upholds :
    Upholds Conn.log ok (fun _ => False) (Ready I) closeListen fun _ => Ready I := fun _ =>
  Provided.of rfl fun h => ⟨h.com, h.input, h.sent, h.keep⟩

/-- Closing the data connection is none of it either. -/
theorem closeData_upholds :
    Upholds Conn.log ok (fun _ => False) (Ready I) closeData fun _ => Ready I := fun _ =>
  Provided.of rfl fun h => ⟨h.com, h.input, h.sent, h.keep⟩

/-- With a listening socket no data has come yet. -/
theorem listenSocket_upholds (hI : Quiet I) (hf : Forgets I) :
    Upholds Conn.log ok (fun _ => False) (Ready I) (listenSocket net) fun b c' =>
      (b = true ∧ Ready (Empty I) c') ∨ (b = false ∧ Ready I c') := by
  refine closeListen_upholds.bind fun _ => ?_
  refine Upholds.test (succeeds_test hI .socket) ?_ ?_
  · intro c
    exact Provided.of rfl fun h => Or.inl ⟨rfl, h.com, h.input, h.sent, hf _ [] h.keep, rfl⟩
  · exact Upholds.pure fun c h => Or.inr ⟨rfl, h⟩

/-- Where the data connection cannot be set up the control connection is given up. -/
theorem portBroken_upholds (hcut : ∀ σ, I σ → J σ) :
    Upholds Conn.log ok (fun _ => False) (Ready I) (portBroken : Ftp S Bool) fun b c' =>
      (b = true ∧ Ready (Empty I) c') ∨ (b = false ∧ Safe I J c') := fun _ =>
  Provided.of rfl fun h => Or.inr ⟨rfl, Or.inr ⟨rfl, rfl, rfl, hcut _ h.keep, Or.inl rfl⟩⟩

/-- Active mode: `PORT` is sent for a socket that is listened on. -/
theorem portActive_upholds (h : Kept net ok I J) (hf : Forgets I) (hline : OneLine net) :
    Upholds Conn.log ok (fun _ => False) (Ready I) (portActive net) fun b c' =>
      (b = true ∧ Ready (Empty I) c') ∨ (b = false ∧ Safe I J c') := by
  have hbroken : Upholds Conn.log ok (fun _ => False) (Ready (Empty I)) (portBroken : Ftp S Bool)
      fun b c' => (b = true ∧ Ready (Empty I) c') ∨ (b = false ∧ Safe I J c') :=
    (portBroken_upholds h.cut).pre fun c hc => hc.empty
  refine Upholds.test (listenSocket_upholds h.quiet hf) ?_ ?_
  swap
  · exact fun c => Provided.of rfl fun hc =>
      Or.inr ⟨rfl, Or.inl ⟨hc.com, hc.input, hc.sent, hc.keep⟩⟩
  refine Upholds.test (succeeds_test h.empty.quiet .bind) ?_ hbroken
  refine Upholds.get.bind fun c₀ => ?_
  refine Upholds.pre (Upholds.test (succeeds_test h.empty.quiet .getsockname) ?_ hbroken)
    fun c hc => hc.2
  refine Upholds.test (succeeds_test h.empty.quiet .listen) ?_ hbroken
  have hplain : Plain (['P', 'O', 'R', 'T'] ++ ' ' :: net.hostPort c₀.tick) :=
    plain_append (by decide) (by decide) _
  have hcmd : '\n' ∉ ['P', 'O', 'R', 'T', ' '] ++ net.hostPort c₀.tick := by
    rw [List.mem_append, not_or]
    exact ⟨by decide, hline.hostPort _⟩
  refine Upholds.branch (ftpReq_plain h.empty hcmd hplain) ?_ ?_
  · refine Upholds.get.bind fun c₁ => Upholds.ite (fun _ => ?_) fun _ => ?_
    · exact Upholds.pure fun c hc => Or.inl ⟨rfl, hc.2⟩
    · simp only [if_true]
      exact fun c => Provided.of rfl fun hc =>
        Or.inr ⟨rfl, Or.inl ⟨hc.2.com, hc.2.input, hc.2.sent, hc.2.keep.1⟩⟩
  · refine Upholds.get.bind fun c₁ => ?_
    simp only [Bool.false_eq_true, false_and, if_false]
    exact fun c => Provided.of rfl fun hc =>
      Or.inr ⟨rfl, Or.inr ⟨hc.2.com, hc.2.input, hc.2.sent, hc.2.keep, hc.2.resp⟩⟩

/-- The `connect` of passive mode. -/
theorem portConnect_upholds (h : Kept net ok I J) (hf : Forgets I) :
    Upholds Conn.log ok (fun _ => False) (Ready I) (portConnect net) fun b c' =>
      (b = true ∧ Ready (Empty I) c') ∨ (b = false ∧ Safe I J c') := by
  have hfail : Upholds Conn.log ok (fun _ => False) (Ready I)
      (do setResp JFTP_ERR; return false : Ftp S Bool)
      fun b c' => (b = true ∧ Ready (Empty I) c') ∨ (b = false ∧ Safe I J c') := fun _ =>
    Provided.of rfl fun hc => Or.inr ⟨rfl, Or.inl ⟨hc.com, hc.input, hc.sent, hc.keep⟩⟩
  refine closeData_upholds.bind fun _ => ?_
  refine Upholds.test (succeeds_test h.quiet .socket) ?_ hfail
  have hfd : Upholds Conn.log ok (fun _ => False) (Ready I) (newFd : Ftp S Nat) fun _ => Ready I :=
    fun _ => Provided.of rfl fun hc => ⟨hc.com, hc.input, hc.sent, hc.keep⟩
  refine hfd.bind fun fd => ?_
  have hopen : Upholds Conn.log ok (fun _ => False) (Ready I)
      (modify fun c => { c with ftpData := some fd, data := [] } : Ftp S PUnit)
      fun _ => Ready (Empty I) := fun _ =>
    Provided.of rfl fun hc => ⟨hc.com, hc.input, hc.sent, hf _ [] hc.keep, rfl⟩
  refine hopen.bind fun _ => Upholds.test (succeeds_test h.empty.quiet .connect) ?_ ?_
  · exact Upholds.pure fun c hc => Or.inl ⟨rfl, hc⟩
  · exact (closeData_upholds.pre fun c hc => hc.empty).bind fun _ => hfail

/-- Passive mode: `PASV` is sent, and its reply tells where to connect to. -/
theorem portPassive_upholds (h : Kept net ok I J) (hf : Forgets I) :
    Upholds Conn.log ok (fun _ => False) (Ready I) (portPassive net) fun b c' =>
      (b = true ∧ Ready (Empty I) c') ∨ (b = false ∧ Safe I J c') := by
  refine Upholds.branch (ftpReq_plain h (by decide) (by decide)) ?_ ?_
  · refine Upholds.get.bind fun c₁ =>
      Upholds.ite (fun _ => Upholds.ite (fun _ => ?_) fun _ => ?_) fun _ => ?_
    · exact (portConnect_upholds h hf).pre fun c hc => hc.2
    · exact fun c => Provided.of rfl fun hc =>
        Or.inr ⟨rfl, Or.inl ⟨hc.2.com, hc.2.input, hc.2.sent, hc.2.keep⟩⟩
    · simp only [if_true]
      exact fun c => Provided.of rfl fun hc =>
        Or.inr ⟨rfl, Or.inl ⟨hc.2.com, hc.2.input, hc.2.sent, hc.2.keep⟩⟩
  · refine Upholds.get.bind fun c₁ => ?_
    simp only [Bool.false_eq_true, false_and, if_false]
    exact fun c => Provided.of rfl fun hc =>
      Or.inr ⟨rfl, Or.inr ⟨hc.2.com, hc.2.input, hc.2.sent, hc.2.keep, hc.2.resp⟩⟩

/-- `ftp_port`: a data connection on which nothing has come, or none. -/
theorem ftpPort_upholds (h : Kept net ok I J) (hf : Forgets I) (hline : OneLine net) :
    Upholds Conn.log ok (fun _ => False) (Ready I) (ftpPort net) fun b c' =>
      (b = true ∧ Ready (Empty I) c') ∨ (b = false ∧ Safe I J c') := by
  refine Upholds.get.bind fun c₀ => ?_
  refine Upholds.pre ((succeeds_upholds h.quiet .getsockname).bind fun b => ?_) fun c hc => hc.2
  refine Upholds.ite (fun _ => Upholds.ite (fun _ => ?_) fun _ => ?_) fun _ => ?_
  · exact portPassive_upholds h hf
  · exact portActive_upholds h hf hline
  · exact fun c => Provided.of rfl fun hc =>
      Or.inr ⟨rfl, Or.inr ⟨rfl, rfl, rfl, h.cut _ hc.keep, Or.inl rfl⟩⟩

/-! ## The data of a file -/

/-- What is asked of the calls on the data connection, and of a server: it announces a
transfer by 150. -/
structure Orderly (ok : NetEvent S → Prop) : Prop where
  select : ¬ok (.lost .select .fail)
  setsockopt : ∀ r, ¬ok (.lost .setsockopt r)
  announced : ∀ s cmd rs, ok (.command s cmd rs) → ∀ r ∈ rs, r.code ≠ 125

/-- What is read in two parts of a run is read one after the other. -/
theorem chunks_append (log log' : List (NetEvent S)) :
    chunks (log' ++ log) = chunks log ++ chunks log' := by
  simp [chunks]

/-- The session after several events. -/
theorem Quiet.append (hI : Quiet I) {σ : Session S} (h : I σ) (new : List (NetEvent S))
    (hnew : ∀ e ∈ new, e.Passes) : I { σ with log := new ++ σ.log } := by
  induction new with
  | nil => exact h
  | cons e new ih =>
    exact hI { σ with log := new ++ σ.log } e (hnew e (List.mem_cons_self ..))
      (ih fun e' he' => hnew e' (List.mem_cons_of_mem _ he'))

/-- The final reply to a transfer is to be read; of the data, `buf` has been read and not
been written yet. -/
structure Fetching (K : Reply → Session S → Prop) (buf : Str) (c : Conn S) : Prop where
  com : c.ftpCom ≠ none
  sent : c.sent = []
  reply : ∃ (r : Reply) (σ : Session S) (new : List (NetEvent S)), r.Fits JFTP_BUF ∧
    c.input = r.bytes ∧ K r σ ∧ c.session = { σ with data := c.data, log := new ++ σ.log } ∧
    (∀ e ∈ new, e.Passes) ∧ chunks new ++ buf ++ c.data = σ.data

/-- All of the data has been read and written. -/
def Fetched (K : Reply → Session S → Prop) (r : Reply) (τ : Session S) : Prop :=
  ∃ (σ : Session S) (new : List (NetEvent S)), K r σ ∧
    τ = { σ with data := [], log := new ++ σ.log } ∧
    (∀ e ∈ new, e.Passes) ∧ chunks new = σ.data

/-- What `ftp_read_data` has left in `ftp_buf`. -/
def Conn.pending (c : Conn S) : Str := if 0 < c.ftpResp then c.ftpBuf else []

/-- Before the first read nothing has been read. -/
theorem Waiting.fetching (h : Waiting K c) : Fetching K [] c := by
  obtain ⟨r, hfits, hinput, hK⟩ := h.reply
  exact ⟨h.com, h.sent, r, c.session, [], hfits, hinput, hK, rfl, by simp, rfl⟩

/-- When the data has come to its end, all of it has been read and written. -/
theorem Fetching.fetched (h : Fetching K [] c) (hdata : c.data = []) : Waiting (Fetched K) c := by
  obtain ⟨r, σ, new, hfits, hinput, hK, hsession, hnew, hgot⟩ := h.reply
  refine ⟨h.com, h.sent, r, hfits, hinput, σ, new, hK, ?_, hnew, ?_⟩
  · rw [hsession, hdata]
  · rw [hdata, List.append_nil, List.append_nil] at hgot
    exact hgot

/-- The same connection, with events more. -/
theorem Fetching.events {c' : Conn S} {buf buf' : Str} (h : Fetching K buf c)
    (more : List (NetEvent S))
    (hsame : SameControl c c') (hlog : c'.log = more ++ c.log) (hmore : ∀ e ∈ more, e.Passes)
    (hdata : chunks more ++ buf' ++ c'.data = buf ++ c.data) : Fetching K buf' c' := by
  obtain ⟨r, σ, new, hfits, hinput, hK, hsession, hnew, hgot⟩ := h.reply
  refine ⟨hsame.com.trans_ne h.com, hsame.sent.trans h.sent, r, σ, more ++ new, hfits,
    hsame.input.trans hinput, hK, ?_, ?_, ?_⟩
  · have hserver := congrArg Session.server hsession
    have hremote := congrArg Session.remoteDir hsession
    have hlog' := congrArg Session.log hsession
    unfold Conn.session at hserver hremote hlog' ⊢
    rw [hsame.server, hsame.remoteDir, hlog, List.append_assoc]
    simp only at hserver hremote hlog'
    rw [hserver, hremote, hlog']
  · intro e he
    rcases List.mem_append.mp he with he | he
    · exact hmore e he
    · exact hnew e he
  · rw [chunks_append, List.append_assoc, List.append_assoc, ← List.append_assoc
      (chunks more), hdata,
      ← List.append_assoc]
    exact hgot

/-- What `ftp_read_data` does to a transfer; `n` bounds what is still to come. -/
theorem ftpReadData_fetching (ho : Orderly ok) (n : Nat) :
    Upholds Conn.log ok (fun _ => False) (fun c => Fetching K [] c ∧ c.data.length < n)
      (ftpReadData net JFTP_BUF) fun b c' =>
        (b = true ∧ Fetching K c'.pending c' ∧ (c'.ftpResp ≤ 0 → c'.data = []) ∧
          (c'.ftpResp ≤ 0 ∧ 0 < n ∨ c'.data.length + 2 ≤ n)) ∨
        (b = false ∧ Fetching K [] c' ∧ Lost c'.ftpResp) := by
  intro c
  refine ftpReadData_spec (by decide) fun b c' hread => ?_
  cases hread with
  | chunk _ k hk hsame _ hlog hbuf hresp hdata =>
    refine Provided.of hlog fun h => Or.inl ⟨rfl, ?_⟩
    have hpending : c'.pending = c.data.take k := by
      unfold Conn.pending
      rw [hbuf]
      split
      · rfl
      · next hle =>
        rw [hresp] at hle
        exact (List.eq_nil_of_length_eq_zero (by omega)).symm
    refine ⟨h.1.events [] hsame hlog (by simp) ?_, fun hle => ?_, ?_⟩
    · rw [hpending, hdata]
      simp [chunks]
    · rw [hresp] at hle
      have hnil : c.data = [] := by
        have := List.length_take (i := k) (l := c.data)
        exact List.eq_nil_of_length_eq_zero (by omega)
      rw [hdata, hnil, List.drop_nil]
    · rw [hresp, hdata, List.length_take, List.length_drop]
      have := h.2
      omega
  | lost _ k r _ hsame hlog hdata hresp =>
    refine Provided.event hlog fun hok h => Or.inr ⟨rfl, ?_, ?_⟩
    · exact h.1.events [.lost k r] hsame hlog (by simp [NetEvent.Passes, NetEvent.AllRead])
        (by rw [hdata]; rfl)
    · rcases hresp with hlost | ⟨-, ⟨rfl, rfl⟩ | rfl⟩
      · exact hlost
      · exact absurd hok ho.select
      · exact absurd hok (ho.setsockopt r)
  | closed _ _ _ hsame hlog hdata hresp =>
    refine Provided.of hlog fun h => Or.inr ⟨rfl, ?_, hresp⟩
    exact h.1.events [] hsame hlog (by simp) (by rw [hdata]; rfl)

/-- A call of `fwrite`, which takes `written` bytes of the chunk. -/
structure FileWrite (chunk : Str) (c : Conn S) (res : Int) (c' : Conn S) : Prop where
  same : SameControl c c'
  data : c'.data = c.data
  items : 0 ≤ res
  log : ∃ (written flushed : Nat) (lost : List (NetEvent S)), written ≤ chunk.length ∧
    c'.log = .fwrite chunk written flushed :: (lost ++ c.log) ∧
      (lost = [] ∨ ∃ r, lost = [.lost .fwrite r])

/-- `fwrite` takes a chunk as a whole, or a part of it with an error. -/
theorem fwriteChunk_spec {chunk : Str} {Q : Int → Conn S → Prop}
    (h : ∀ res c', FileWrite chunk c res c' → Q res c') : wp (fwriteChunk net chunk) c Q E := by
  unfold fwriteChunk call
  rw [wp_bind, wp_modifyGet]
  generalize net.outcome c.tick .fwrite = r
  refine h _ _
    ⟨⟨rfl, rfl, rfl, rfl, rfl⟩, rfl, ?_, r.moved chunk.length, net.flushed (c.tick + 1), ?_⟩
  · show (0 : Int) ≤ if r.moved chunk.length = chunk.length then 1 else 0
    split <;> decide
  have hle : r.moved chunk.length ≤ chunk.length := by
    cases r with
    | ok n => exact Nat.min_le_right n chunk.length
    | fail => exact Nat.zero_le _
    | timeout => exact Nat.zero_le _
  cases hfull : r.isFull chunk.length with
  | true => exact ⟨[], hle, congrArg _ (if_pos hfull), Or.inl rfl⟩
  | false => exact ⟨[.lost .fwrite r], hle, congrArg _ (if_neg (by simp [hfull])), Or.inr ⟨r, rfl⟩⟩

/-- What is handed to `fwrite` counts as written. -/
theorem fwriteChunk_fetching (chunk : Str) (n : Nat) :
    Upholds Conn.log ok (fun _ => False) (fun c => Fetching K chunk c ∧ c.data.length < n)
      (fwriteChunk net chunk) fun res c' => 0 ≤ res ∧ Fetching K [] c' ∧ c'.data.length < n := by
  intro c
  refine fwriteChunk_spec fun res c' hw => ?_
  obtain ⟨w, n', lost, -, hlog, hlost⟩ := hw.log
  have hpasses : ∀ e ∈ NetEvent.fwrite chunk w n' :: lost, e.Passes := by
    rcases hlost with rfl | ⟨r, rfl⟩ <;> simp [NetEvent.Passes, NetEvent.AllRead]
  have hchunks : chunks (NetEvent.fwrite chunk w n' :: lost) = chunk := by
    rcases hlost with rfl | ⟨r, rfl⟩ <;> simp [chunks]
  refine ⟨.fwrite chunk w n' :: lost, hlog, fun _ h => ⟨hw.items, ?_, by rw [hw.data]; exact h.2⟩⟩
  refine h.1.events _ hw.same hlog hpasses ?_
  rw [hchunks, hw.data, List.append_nil]

/-- The loop of `ftp_get` ends, and then all of the data is written, or the data connection
has been lost. -/
theorem getLoop_upholds (ho : Orderly ok) (fuel : Nat) :
    Upholds Conn.log ok (fun _ => False)
      (fun c => Fetching K c.pending c ∧ (c.ftpResp ≤ 0 → c.data = []) ∧
        (c.ftpResp ≤ 0 ∧ 0 < fuel ∨ c.data.length + 2 ≤ fuel))
      (getLoop net fuel) fun b c' =>
        (b = true ∧ Fetching K [] c' ∧ c'.data = []) ∨
        (b = false ∧ Fetching K [] c' ∧ Lost c'.ftpResp) := by
  induction fuel with
  | zero =>
    refine Upholds.throw fun c hc => ?_
    rcases hc.2.2 with ⟨-, h⟩ | h
    · exact absurd h (Nat.lt_irrefl 0)
    · omega
  | succ fuel ih =>
    refine Upholds.get.bind fun c₀ => Upholds.ite (fun hend => ?_) fun hmore => ?_
    · refine Upholds.pure fun c hc => Or.inl ⟨rfl, ?_, ?_⟩
      · obtain ⟨rfl, hfetch, -⟩ := hc
        have hpending : c₀.pending = [] := if_neg (by omega)
        rw [hpending] at hfetch
        exact hfetch
      · obtain ⟨rfl, -, hdata, -⟩ := hc
        exact hdata hend
    · refine Upholds.pre ((fwriteChunk_fetching (K := K) c₀.ftpBuf fuel).bind fun res => ?_)
        fun c hc => ?_
      swap
      · obtain ⟨rfl, hfetch, -, hfuel⟩ := hc
        have hpending : c₀.pending = c₀.ftpBuf := if_pos (by omega)
        rw [hpending] at hfetch
        exact ⟨hfetch, by omega⟩
      by_cases hneg : res < 0
      · -- `fwrite` gives a number of items, which is never negative
        refine Upholds.absurd (fun tr => ?_) fun c hc => absurd hc.1 (by omega)
        rw [if_pos hneg]
        exact (ftpResponse_grows tr).bind fun _ _ hc => hc
      · rw [if_neg hneg]
        refine Upholds.pre (Upholds.test (ftpReadData_fetching ho fuel) ?_ ?_) fun c hc => hc.2
        · exact ih
        · exact Upholds.pure fun c hc => Or.inr ⟨rfl, hc⟩

/-- The final reply is read, or the connection is lost. -/
theorem ftpResponse_waiting (hJ : Quiet J) (hK : ∀ r σ, K r σ → J σ) :
    Upholds Conn.log ok (fun _ => False) (Waiting K) (ftpResponse net) fun b c' =>
      (b = true ∧ ∃ r : Reply, c'.ftpResp = r.code ∧ Ready (K r) c') ∨ (b = false ∧ Cut J c') := by
  refine Upholds.of_provided ftpResponse_grows fun c hc => ?_
  obtain ⟨r, hfits, hinput, hkeep⟩ := hc.reply
  refine ftpResponse_spec [] hc.com (by rw [hinput, List.append_nil]) hfits (fun c' hb => ?_)
    fun t ht => ?_
  · exact (hb.cut hJ (hK r _ hkeep)).mono fun h => Or.inr ⟨rfl, h⟩
  · exact Provided.of rfl (Or.inl ⟨rfl, r, rfl, hc.com, rfl, hc.sent, hkeep⟩)

/-- All of the data has come, and the server has said so. -/
def Done (K : Reply → Session S → Prop) (τ : Session S) : Prop :=
    ∃ r : Reply, r.code = 226 ∧ Fetched K r τ

/-- What a call of `ftp_get` that fails leaves behind: the connection as it was, or a
connection that the caller gives up. -/
def Bad (I J : Session S → Prop) (c : Conn S) : Prop := Ready I c ∨ (Lost c.ftpResp ∧ J c.session)

/-- A safe end is one that the caller knows how to go on from. -/
theorem Safe.bad (h : Safe I J c) : Bad I J c := h.imp id fun h' => ⟨h'.resp, h'.keep⟩

/-- The end of a download that has failed leaves the connection as it is. -/
theorem retBad_upholds (hI : Quiet I) (hJ : Quiet J) :
    Upholds Conn.log ok (fun _ => False) (Bad I J) (retBad net) fun b c' =>
      b = false ∧ Bad I J c' := by
  intro c
  refine Provided.event rfl fun _ h => ⟨rfl, ?_⟩
  rcases h with h | ⟨hresp, hkeep⟩
  · exact Or.inl ⟨h.com, h.input, h.sent, hI c.session (.fclose _) trivial h.keep⟩
  · exact Or.inr ⟨hresp, hJ c.session (.fclose _) trivial hkeep⟩

/-- The invariant of a download holds at its end. -/
theorem Quiet.fetched (hI : Quiet I) (hf : Forgets I) (hK : ∀ r σ, K r σ → I σ) (r : Reply)
    (τ : Session S) (h : Fetched K r τ) : I τ := by
  obtain ⟨σ, new, hkeep, rfl, hnew, -⟩ := h
  exact hI.append (hf σ [] (hK r σ hkeep)) new hnew

/-- After the data the final reply is read, and nothing else. -/
theorem getFinish_upholds (h : Kept net ok I J) (hf : Forgets I) (hK : ∀ r σ, K r σ → I σ) :
    Upholds Conn.log ok (fun _ => False) (fun c => Fetching K [] c ∧ c.data = []) (getFinish net)
      fun b c' => (b = true ∧ Ready (Done K) c') ∨ (b = false ∧ Bad I J c') := by
  have hbad : Upholds Conn.log ok (fun _ => False) (Bad I J) (retBad net)
      fun b c' => (b = true ∧ Ready (Done K) c') ∨ (b = false ∧ Bad I J c') :=
    (retBad_upholds h.quiet h.quietJ).post fun b c' hc' => Or.inr hc'
  have hclose : Upholds Conn.log ok (fun _ => False) (fun c => Fetching K [] c ∧ c.data = [])
      (fcloseFile net) fun _ => Waiting (Fetched K) := by
    refine fun c => Provided.event (e := .fclose (net.flushed c.tick)) rfl fun _ hc => ?_
    refine Fetching.fetched (c := c.logged (.fclose (net.flushed c.tick))) ?_ hc.2
    exact hc.1.events [.fclose _] ⟨rfl, rfl, rfl, rfl, rfl⟩ rfl
      (by simp [NetEvent.Passes, NetEvent.AllRead]) rfl
  have hlisten :
    Upholds Conn.log ok (fun _ => False) (Waiting (Fetched K)) (closeListen : Ftp S PUnit)
      fun _ => Waiting (Fetched K) := fun _ => Provided.of rfl fun hc => ⟨hc.com, hc.sent, hc.reply⟩
  have hdata : Upholds Conn.log ok (fun _ => False) (Waiting (Fetched K)) (closeData : Ftp S PUnit)
      fun _ => Waiting (Fetched K) := fun _ => Provided.of rfl fun hc => ⟨hc.com, hc.sent, hc.reply⟩
  refine hclose.bind fun _ => hlisten.bind fun _ => hdata.bind fun _ => ?_
  have hkeep := h.quiet.fetched hf hK
  refine Upholds.test (ftpResponse_waiting h.quietJ fun r σ hσ => h.cut σ (hkeep r σ hσ)) ?_ ?_
  · refine Upholds.get.bind fun c₀ => Upholds.ite (fun hresp => ?_) fun hresp => ?_
    · have hset : Upholds Conn.log ok (fun _ => False)
          (fun c => c₀ = c ∧ ∃ r : Reply, c.ftpResp = r.code ∧ Ready (Fetched K r) c)
          (setResp JFTP_ERR : Ftp S PUnit) fun _ => Bad I J := fun _ => Provided.of rfl fun hc => by
        obtain ⟨-, r, -, hready⟩ := hc
        exact Or.inl ⟨hready.com, hready.input, hready.sent, hkeep r _ hready.keep⟩
      exact hset.bind fun _ => hbad
    · refine Upholds.pure fun c hc => Or.inl ⟨rfl, ?_⟩
      obtain ⟨rfl, r, hr, hready⟩ := hc
      exact ⟨hready.com, hready.input, hready.sent, r, by omega, hready.keep⟩
  · have hset : Upholds Conn.log ok (fun _ => False) (Cut J)
        (do closeCom; setResp JFTP_BROKEN : Ftp S PUnit) fun _ => Bad I J := fun _ =>
      Provided.of rfl fun hc => Or.inr ⟨Or.inl rfl, hc.keep⟩
    exact hset.bind fun _ => hbad

/-- What a transfer that has lost its data connection leaves to the caller. -/
theorem Fetching.bad {buf : Str} (h : Fetching K buf c) (hresp : Lost c.ftpResp) (hJ : Quiet J)
    (hf : Forgets I) (hcut : ∀ σ, I σ → J σ) (hK : ∀ r σ, K r σ → I σ) : Bad I J c := by
  obtain ⟨r, σ, new, -, -, hkeep, hsession, hnew, -⟩ := h.reply
  refine Or.inr ⟨hresp, ?_⟩
  rw [hsession]
  exact hJ.append (hcut _ (hf σ c.data (hK r σ hkeep))) new hnew

/-- The data of a file, and the final reply. -/
theorem getData_upholds (h : Kept net ok I J) (hf : Forgets I) (ho : Orderly ok)
    (hK : ∀ r σ, K r σ → I σ) :
    Upholds Conn.log ok (fun _ => False) (Waiting K) (getData net) fun b c' =>
      (b = true ∧ Ready (Done K) c') ∨ (b = false ∧ Bad I J c') := by
  have hbad : Upholds Conn.log ok (fun _ => False) (fun c => Fetching K [] c ∧ Lost c.ftpResp)
      (retBad net) fun b c' => (b = true ∧ Ready (Done K) c') ∨ (b = false ∧ Bad I J c') :=
    ((retBad_upholds h.quiet h.quietJ).post fun b c' hc' => Or.inr hc').pre fun c hc =>
      hc.1.bad hc.2 h.quietJ hf h.cut hK
  refine Upholds.pre (Upholds.choose (fun c => c.data.length + 1) fun n =>
    Upholds.test (ftpReadData_fetching ho n) ?_ hbad) fun c hc => ⟨hc.fetching, Nat.lt_succ_self _⟩
  refine Upholds.get.bind fun c₀ => ?_
  refine Upholds.pre (Upholds.test (getLoop_upholds ho (c₀.data.length + 2))
    (getFinish_upholds h hf hK) hbad) fun c' hc => ?_
  obtain ⟨rfl, hfetch, hend, -⟩ := hc
  exact ⟨hfetch, hend, Or.inr (Nat.le_refl _)⟩

/-- What is asked of the invariants of `ftp_get`: `R` holds where the file is asked for, and
`K` once the server has said that it comes. -/
structure Gets (net : Net S) (I R : Session S → Prop) (K : Reply → Session S → Prop)
    (remoteFile : Str) (seekto : Nat) : Prop where
  start : seekto = 0 → ∀ σ, Empty I σ → R σ
  rest : 0 < seekto → ∀ σ r, Empty I σ →
    (net.server.answer σ.server (['R', 'E', 'S', 'T', ' '] ++ (Nat.repr seekto).toList)).1 =
    ⟨[r], []⟩ →
    r.code = 350 → R (σ.after net (['R', 'E', 'S', 'T', ' '] ++ (Nat.repr seekto).toList))
  ready : ∀ σ, R σ → I σ
  refused : ∀ σ r, R σ → (net.server.answer σ.server (['R', 'E', 'T', 'R', ' '] ++ remoteFile)).1 =
    ⟨[r], []⟩ → I (σ.after net (['R', 'E', 'T', 'R', ' '] ++ remoteFile))
  sent : ∀ σ p r data, R σ →
    (net.server.answer σ.server (['R', 'E', 'T', 'R', ' '] ++ remoteFile)).1 =
    ⟨[p, r], data⟩ → K r (σ.after net (['R', 'E', 'T', 'R', ' '] ++ remoteFile))
  keep : ∀ r σ, K r σ → I σ

variable {R : Session S → Prop} {remoteFile : Str} {seekto : Nat}

theorem newline_not_mem_repr (n : Nat) : '\n' ∉ (Nat.repr n).toList := by
  rw [Nat.toList_repr]
  intro h
  exact absurd (Nat.isDigit_of_mem_toDigits (by decide) (by decide) h) (by decide)

/-- `REST`, for a download that does not start at the beginning. -/
theorem ftpRest_upholds (h : Kept net ok I J) (hg : Gets net I R K remoteFile seekto) :
    Upholds Conn.log ok (fun _ => False) (Ready (Empty I)) (ftpRest net seekto) fun b c' =>
      (b = true ∧ Ready R c') ∨ (b = false ∧ Bad I J c') := by
  refine Upholds.ite (fun hpos => ?_) fun hzero => ?_
  swap
  · refine Upholds.pure fun c hc => Or.inl ⟨rfl, hc.com, hc.input, hc.sent, ?_⟩
    exact hg.start (by omega) _ hc.keep
  have hplain : Plain (['R', 'E', 'S', 'T'] ++ ' ' :: (Nat.repr seekto).toList) :=
    plain_append (by decide) (by decide) _
  have hcmd : '\n' ∉ ['R', 'E', 'S', 'T', ' '] ++ (Nat.repr seekto).toList := by
    rw [List.mem_append, not_or]
    exact ⟨by decide, newline_not_mem_repr seekto⟩
  refine Upholds.branch (ftpReq_single h.empty (fun _ _ => hcmd) hplain.1 fun σ hσ =>
    ⟨h.empty.cut σ hσ, h.empty.cut _ (h.empty.plain σ _ hplain hσ)⟩) ?_ ?_
  · refine Upholds.get.bind fun c₀ => Upholds.ite (fun hresp => ?_) fun _ => ?_
    · refine Upholds.pure fun c hc => Or.inl ⟨rfl, ?_⟩
      obtain ⟨rfl, σ, r, hσ, hr, hcode, hready⟩ := hc
      refine ⟨hready.com, hready.input, hready.sent, ?_⟩
      rw [hready.keep]
      exact hg.rest hpos σ r hσ hr (by omega)
    · simp only [if_true]
      refine fun c => Provided.of rfl fun hc => Or.inr ⟨rfl, Or.inl ?_⟩
      obtain ⟨rfl, σ, r, hσ, -, -, hready⟩ := hc
      refine ⟨hready.com, hready.input, hready.sent, ?_⟩
      show I c₀.session
      rw [hready.keep]
      exact h.plain σ _ hplain hσ.1
  · refine Upholds.get.bind fun c₁ => ?_
    simp only [Bool.false_eq_true, false_and, if_false]
    exact Upholds.pure fun c hc => Or.inr ⟨rfl, Or.inr ⟨hc.2.resp, hc.2.keep⟩⟩

/-- `ftp_get` once the local file is open. -/
theorem ftpRetr_upholds (h : Kept net ok I J) (hf : Forgets I) (hline : OneLine net)
    (ho : Orderly ok)
    (hname : '\n' ∉ remoteFile) (hg : Gets net I R K remoteFile seekto) :
    Upholds Conn.log ok (fun _ => False) (Ready I) (ftpRetr net remoteFile seekto) fun b c' =>
      (b = true ∧ Ready (Done K) c') ∨ (b = false ∧ Bad I J c') := by
  have hbad : Upholds Conn.log ok (fun _ => False) (Bad I J) (retBad net)
      fun b c' => (b = true ∧ Ready (Done K) c') ∨ (b = false ∧ Bad I J c') :=
    (retBad_upholds h.quiet h.quietJ).post fun b c' hc' => Or.inr hc'
  refine Upholds.test (ftpPort_upholds h hf hline) ?_ ?_
  · refine Upholds.test (ftpRest_upholds h hg) ?_ hbad
    have htransfers : Transfers (['R', 'E', 'T', 'R'] ++ ' ' :: remoteFile) :=
      transfers_append (by decide) (by decide) _
    have hcmd : '\n' ∉ ['R', 'E', 'T', 'R', ' '] ++ remoteFile := by
      rw [List.mem_append, not_or]
      exact ⟨by decide, hname⟩
    refine Upholds.branch
      (ftpReq_transfer h hcmd htransfers hg.ready ho.announced hg.refused hg.sent
      fun r σ hσ => h.cut σ (hg.keep r σ hσ)) ?_ ?_
    · refine Upholds.get.bind fun c₀ => Upholds.ite (fun hresp => ?_) fun hresp => ?_
      · refine (getData_upholds h hf ho hg.keep).pre fun c hc => ?_
        obtain ⟨rfl, hc⟩ := hc
        exact hc.elim And.right fun h' => absurd hresp.2 h'.1
      · simp only [if_true]
        have hset : Upholds Conn.log ok (fun _ => False)
            (fun c => c₀ = c ∧ (c.ftpResp = 150 ∧ Waiting K c ∨ c.ftpResp ≠ 150 ∧ Ready I c))
            (setResp JFTP_ERR : Ftp S PUnit) fun _ => Bad I J :=
            fun _ => Provided.of rfl fun hc => by
          obtain ⟨rfl, hc⟩ := hc
          rcases hc with hc | ⟨-, hready⟩
          · exact absurd ⟨rfl, hc.1⟩ hresp
          · exact Or.inl ⟨hready.com, hready.input, hready.sent, hready.keep⟩
        exact hset.bind fun _ => hbad
    · refine Upholds.get.bind fun c₁ => ?_
      simp only [Bool.false_eq_true, false_and, if_false]
      exact hbad.pre fun c hc => Or.inr ⟨hc.2.resp, hc.2.keep⟩
  · have hset : Upholds Conn.log ok (fun _ => False) (Safe I J)
        (modify fun c => if c.ftpResp ≠ JFTP_BROKEN ∧ c.ftpResp ≠ JFTP_TIMEOUT
          then { c with ftpResp := JFTP_ERR } else c : Ftp S PUnit) fun _ => Bad I J := by
      refine Upholds.modify (fun c => ?_) fun c hc => ?_
      · split <;> rfl
      · split
        · next hne =>
          rcases hc with hc | hc
          · exact Or.inl ⟨hc.com, hc.input, hc.sent, hc.keep⟩
          · exact absurd hc.resp fun h' => h'.elim hne.1 hne.2
        · exact hc.bad
    exact hset.bind fun _ => hbad

/-- Opening the local file is none of the connection. -/
theorem getOpen_upholds (hI : Quiet I) :
    Upholds Conn.log ok (fun _ => False) (Ready I) (getOpen net seekto) fun _ => Ready I := by
  have hset : ∀ resp, Upholds Conn.log ok (fun _ => False) (Ready I)
      (do setResp resp; return false : Ftp S Bool) fun _ => Ready I := fun resp _ =>
    Provided.of rfl fun hc => ⟨hc.com, hc.input, hc.sent, hc.keep⟩
  have hrecord : Upholds Conn.log ok (fun _ => False) (Ready I) (recordNet (.fopen (0 < seekto)))
      fun _ => Ready I :=
    recordNet_upholds _ fun c hc =>
      ⟨hc.com, hc.input, hc.sent, hI c.session (.fopen _) trivial hc.keep⟩
  refine Upholds.test (succeeds_test hI .fopen) ?_ (hset JFTP_WRITEERR)
  refine hrecord.bind fun _ => Upholds.ite (fun _ => ?_) fun _ => Upholds.pure fun _ hc => hc
  exact Upholds.test (succeeds_test hI .fseek) (Upholds.pure fun _ hc => hc) (hset JFTP_ERRNO)

/-- What is recorded at the return of a call changes nothing. -/
theorem Ready.returned (h : Ready I c) (hI : Quiet I) (b : Bool) (resp : Int) :
    Ready I (c.logged (.returned b resp (c.input ++ c.sent))) := by
  refine ⟨h.com, h.input, h.sent, hI c.session _ (fun _ => ?_) h.keep⟩
  rw [h.input, h.sent]
  rfl

/-- A lost connection is not `JFTP_ERR`. -/
theorem Lost.ne_err {resp : Int} (h : Lost resp) : resp ≠ JFTP_ERR := by
  rcases h with h | h
  all_goals
    rw [h]
    decide

/-- The same where the call has failed. -/
theorem Bad.returned (h : Bad I J c) (hI : Quiet I) (hJ : Quiet J) :
    Bad I J (c.logged (.returned false c.ftpResp (c.input ++ c.sent))) := by
  rcases h with h | ⟨hresp, hkeep⟩
  · exact Or.inl (h.returned hI false c.ftpResp)
  · refine Or.inr ⟨hresp, hJ c.session _ (fun h' => ?_) hkeep⟩
    exact h'.elim (fun h' => nomatch h') fun h' => absurd h' hresp.ne_err

/-- The same where the connection has been lost or is as it was. -/
theorem Safe.returned (h : Safe I J c) (hI : Quiet I) (hJ : Quiet J) :
    Safe I J (c.logged (.returned false c.ftpResp (c.input ++ c.sent))) := by
  rcases h with h | h
  · exact Or.inl (h.returned hI false c.ftpResp)
  · refine Or.inr ⟨h.com, h.input, h.sent, hJ c.session _ (fun h' => ?_) h.keep, h.resp⟩
    exact h'.elim (fun h' => nomatch h') fun h' => absurd h' h.resp.ne_err

/-- The return from `ftp_get` or `ftp_dir2`. -/
theorem returned_upholds {α : Type} {T : Session S → Prop} {B : Conn S → Prop} (hT : Quiet T)
    (hB : ∀ c, B c → B (c.logged (.returned false c.ftpResp (c.input ++ c.sent))))
    (b : Bool) (a : α) :
    Upholds Conn.log ok (fun _ => False) (fun c => (b = true ∧ Ready T c) ∨ (b = false ∧ B c))
      (do let c ← get; recordNet (.returned b c.ftpResp (c.input ++ c.sent)); return a)
      fun a' c' => a' = a ∧ ((b = true ∧ Ready T c') ∨ (b = false ∧ B c')) := by
  intro c
  refine Provided.event rfl fun _ hc => ⟨rfl, ?_⟩
  rcases hc with ⟨hb, hready⟩ | ⟨rfl, hbad⟩
  · exact Or.inl ⟨hb, hready.returned hT b c.ftpResp⟩
  · exact Or.inr ⟨rfl, hB c hbad⟩

/-- `ftp_get`. -/
theorem ftpGet_upholds (h : Kept net ok I J) (hf : Forgets I) (hline : OneLine net)
    (ho : Orderly ok)
    (hname : '\n' ∉ remoteFile) (hg : Gets net I R K remoteFile seekto) {T : Session S → Prop}
    (hT : Quiet T) (hdone : ∀ τ, Done K τ → T τ) :
    Upholds Conn.log ok (fun _ => False) (Ready I) (ftpGet net remoteFile seekto) fun b c' =>
      (b = true ∧ Ready T c') ∨ (b = false ∧ Bad I J c') := by
  have hreturn : ∀ b, Upholds Conn.log ok (fun _ => False)
      (fun c => (b = true ∧ Ready (Done K) c) ∨ (b = false ∧ Bad I J c))
      (do let c ← get; recordNet (.returned b c.ftpResp (c.input ++ c.sent)); return b)
      fun b c' => (b = true ∧ Ready T c') ∨ (b = false ∧ Bad I J c') := by
    intro b
    refine Upholds.post
      (Upholds.pre (returned_upholds hT (fun c hc => Bad.returned hc h.quiet h.quietJ) b b)
        fun c hc => ?_) ?_
    · rcases hc with ⟨hb, hready⟩ | hbad
      · exact Or.inl ⟨hb, hready.com, hready.input, hready.sent, hdone _ hready.keep⟩
      · exact Or.inr hbad
    · rintro _ c' ⟨rfl, hc'⟩
      exact hc'
  refine (getOpen_upholds h.quiet).bind fun opened => Upholds.ite (fun _ => ?_) fun _ => ?_
  · exact (ftpRetr_upholds h hf hline ho hname hg).bind hreturn
  · refine Upholds.bind (Upholds.pure fun c hc => ?_) hreturn
    exact Or.inr ⟨rfl, Or.inl hc⟩

end Spegla.Jftp
