import Spegla.Jftp.Calls

/-!
# Listings where nothing fails

`ftp_dir` goes back to where it was by the name that `ftp_cd` got, as it was given: on a
server on which nothing fails, what this name means in the directory that was listed
decides everything.

- `Calm`: no low-level call fails. `Helpful`: a server with directories, which goes to each
  directory that is there, and refuses nothing else.
- `ftpDir_calm`: what `ftp_dir` does then.
- `visits_comeBack`: so each listing succeeds and comes back exactly if the name leads back
  from each of the directories.
-/

namespace Spegla.Jftp

open CString FtpReply ExitState

variable {S D : Type}

/-! ## Connections and servers on which nothing fails -/

/-- No low-level call fails, and the address of a data connection is a short line. -/
structure Calm (net : Net S) : Prop where
  outcome : ∀ t k, ∃ n, net.outcome t k = .ok n ∧ (k = .write → JFTP_BUF ≤ n)
  hostPort : ∀ t, '\n' ∉ net.hostPort t ∧ (net.hostPort t).length + 7 < JFTP_BUF

/-- A server with directories: `cd w d` is where the name `d` leads to from `w`. It takes
every `CWD` to a directory that is there, and nothing else that `ftp_dir` asks for is
refused. Names that lead somewhere are lines of a sensible length, as are its replies. -/
structure Helpful (server : Server S) (D : Type) where
  dir : S → D
  home : D
  cd : D → Str → Option D
  line : ∀ w d v, cd w d = some v → '\n' ∉ d ∧ d.length + 6 < JFTP_BUF
  cwd : ∀ s d, ∃ r : Reply, r.Fits JFTP_BUF ∧ (server.answer s (cwd d)).1 = ⟨[r], []⟩ ∧
    (r.code = 250 ↔ (cd (dir s) d).isSome = true) ∧
    dir (server.answer s (Jftp.cwd d)).2 = (cd (dir s) d).getD (dir s)
  port : ∀ s a, ∃ r : Reply, r.Fits JFTP_BUF ∧ r.code = 200 ∧
    (server.answer s (['P', 'O', 'R', 'T', ' '] ++ a)).1 = ⟨[r], []⟩ ∧
    dir (server.answer s (['P', 'O', 'R', 'T', ' '] ++ a)).2 = dir s
  pasv : ∀ s, ∃ r : Reply, r.Fits JFTP_BUF ∧ r.code = 227 ∧ (pasvNumbers (cstr r.last)).length = 6 ∧
    (server.answer s ['P', 'A', 'S', 'V']).1 = ⟨[r], []⟩ ∧
    dir (server.answer s ['P', 'A', 'S', 'V']).2 = dir s
  list : ∀ s, ∃ (p r : Reply) (data : Str), p.Fits JFTP_BUF ∧ r.Fits JFTP_BUF ∧ p.code = 150 ∧
    r.code = 226 ∧
    (server.answer s (listCmd ['-', 'l', 'a', 'g'] [])).1 = ⟨[p, r], data⟩ ∧
    dir (server.answer s (listCmd ['-', 'l', 'a', 'g'] [])).2 = dir s

variable {net : Net S} {c : Conn S}

/-! ## Requests -/

/-- Where nothing goes wrong, no call does. -/
theorem Calm.not_wrong (hn : Calm net) {k : NetCall} {r : Outcome} : ¬Wrong net k r := by
  rintro ⟨⟨t, rfl⟩, h⟩
  obtain ⟨n, hout, -⟩ := hn.outcome t k
  exact h n hout

/-- A connection with a reply on it is not broken. -/
theorem Calm.not_broken (hn : Calm net) {c' : Conn S} (hin : c.input ≠ []) : ¬Broken net c c' := by
  intro h
  rcases h.cause with h | ⟨t, k, -, h⟩
  · exact hin h
  · obtain ⟨n, hout, -⟩ := hn.outcome t k
    exact h n hout

/-- No reply is empty. -/
theorem bytes_ne_nil (r : Reply) : r.bytes ≠ [] := by
  simp [Reply.bytes, Reply.linesBytes]

/-- The connection once the first of the replies to a command has been read. -/
def Conn.answered (net : Net S) (c : Conn S) (cmd : Str) (r : Reply) (rs : List Reply)
    (t : Nat) : Conn S :=
  { c with
    server := (net.server.answer c.server cmd).2
    sent := []
    input := rs.flatMap Reply.bytes
    data := c.data ++ (net.server.answer c.server cmd).1.data
    log := .command c.server cmd (c.session.replies net cmd) :: c.log
    ftpBuf := r.last
    ftpResp := r.code
    tick := t }

/-- A command is sent, and its first reply is read. -/
theorem wp_ftpReq_calm (hn : Calm net) {cmd : Str} {r : Reply} {rs : List Reply}
    {Q : Bool → Conn S → Prop}
    {E : Exit → Conn S → Prop} (hline : '\n' ∉ cmd) (hlen : cmd.length + 2 < JFTP_BUF)
    {I : Session S → Prop} (hc : Ready I c) (hreplies : c.session.replies net cmd = r :: rs)
    (hfits : r.Fits JFTP_BUF) (h : ∀ t, Q true (c.answered net cmd r rs t)) :
    wp (ftpReq net cmd) c Q E := by
  have htext : (cmd ++ ['\r', '\n']).take (JFTP_BUF - 1) = cmd ++ ['\r', '\n'] :=
    List.take_of_length_le (by simp; omega)
  unfold ftpReq
  rw [wp_bind, wp_modify, htext, wp_bind]
  unfold ftpWrite call
  rw [wp_bind, wp_get, if_neg hc.com, wp_bind, wp_modifyGet]
  obtain ⟨n, hn', hwrite⟩ := hn.outcome c.tick .write
  cases hout : net.outcome c.tick .write with
  | fail => exact absurd (hout.symm.trans hn') (by simp)
  | timeout => exact absurd (hout.symm.trans hn') (by simp)
  | ok m =>
  obtain rfl : m = n := Outcome.ok.inj (hout.symm.trans hn')
  have hsize : JFTP_BUF ≤ m := hwrite rfl
  have hwhole : (cmd ++ ['\r', '\n']).length ≤ m := by
    simp
    omega
  have hfull : (Outcome.ok m).isFull (cmd ++ ['\r', '\n']).length = true := decide_eq_true hwhole
  have hpos : m ≠ 0 := by
    unfold JFTP_BUF at hsize
    omega
  simp only [if_neg hpos]
  rw [wp_bind, wp_modify, List.take_of_length_le hwhole]
  simp only [Conn.called, hfull, if_true]
  rw [deliver_cmd hline]
  swap
  · exact hc.sent
  show wp (ftpResponse net) _ Q E
  refine ftpResponse_spec (r := r) (rs.flatMap Reply.bytes) hc.com ?_ hfits (fun c' hb => ?_)
    fun t _ => h t
  · show c.input ++ (c.session.replies net cmd).flatMap Reply.bytes = _
    rw [hc.input, hreplies]
    rfl
  · refine absurd hb (hn.not_broken ?_)
    show c.input ++ (c.session.replies net cmd).flatMap Reply.bytes ≠ []
    rw [hc.input, hreplies]
    simp [bytes_ne_nil]

/-! ## The steps of a listing -/

variable (P : Helpful net.server D)

/-- The server is in `w`, and the name `R` is kept. -/
def Stands (R : Option Str) (w : D) (σ : Session S) : Prop := σ.remoteDir = R ∧ P.dir σ.server = w

variable {P} {R : Option Str} {w : D}

/-- There is a data connection, or a socket on which it comes. -/
def HasData (c : Conn S) : Prop := c.ftpData ≠ none ∨ c.ftpListen ≠ none

/-- Only the final reply to a listing is still to be read. -/
def Coming (P : Helpful net.server D) (R : Option Str) (w : D) (c : Conn S) : Prop :=
  Waiting (fun r σ => r.code = 226 ∧ Stands P R w σ) c ∧ HasData c

/-- Every call succeeds. -/
theorem succeeds_calm (hn : Calm net) {A : Conn S → Prop} (hA : ∀ c t, A c → A { c with tick := t })
    (k : NetCall) : Returns A (succeeds net k) fun b c' => b = true ∧ A c' := by
  intro c hc
  exact wp_succeeds (fun t => ⟨rfl, hA c t hc⟩) fun t r hwrong => absurd hwrong hn.not_wrong

/-- The count of the calls is none of the session. -/
theorem Ready.ticked {I : Session S → Prop} (c : Conn S) (t : Nat) (h : Ready I c) :
    Ready I { c with tick := t } := ⟨h.com, h.input, h.sent, h.keep⟩

/-- A command that gets a single reply and does not move. -/
theorem ftpReq_stays (hn : Calm net) {cmd : Str} (hline : '\n' ∉ cmd)
    (hlen : cmd.length + 2 < JFTP_BUF)
    (code : Nat) (good : Str → Prop)
    (hanswer : ∀ s, ∃ r : Reply, r.Fits JFTP_BUF ∧ r.code = code ∧ good r.last ∧
      (net.server.answer s cmd).1 = ⟨[r], []⟩ ∧ P.dir (net.server.answer s cmd).2 =
      P.dir s) (p : Prop) :
    Returns (fun c => Ready (Stands P R w) c ∧ (p → HasData c)) (ftpReq net cmd)
      fun b c' => b = true ∧
      Ready (Stands P R w) c' ∧ c'.ftpResp = code ∧ good c'.ftpBuf ∧ (p → HasData c') := by
  rintro c ⟨hc, hfd⟩
  obtain ⟨r, hfits, hcode, hgood, hr, hdir⟩ := hanswer c.server
  refine wp_ftpReq_calm hn hline hlen hc (congrArg Response.replies hr) hfits fun t =>
    ⟨rfl, ?_, ?_, hgood, hfd⟩
  · exact ⟨hc.com, rfl, rfl, hc.keep.1, hdir.trans hc.keep.2⟩
  · exact congrArg Nat.cast hcode

/-- Active mode sets up a data connection. -/
theorem portActive_calm (hn : Calm net) :
    Returns (Ready (Stands P R w)) (portActive net) fun b c' =>
      b = true ∧ Ready (Stands P R w) c' ∧ HasData c' := by
  have hticked : ∀ (c : Conn S) t, Ready (Stands P R w) c ∧ HasData c →
      Ready (Stands P R w) { c with tick := t } ∧ HasData { c with tick := t } := fun c t h =>
    ⟨h.1.ticked c t, h.2⟩
  have hlisten : Returns (Ready (Stands P R w)) (listenSocket net) fun b c' =>
      b = true ∧ Ready (Stands P R w) c' ∧ HasData c' := by
    have hclose :
      Returns (Ready (Stands P R w)) (closeListen : Ftp S PUnit) fun _ => Ready (Stands P R w) :=
      fun c hc => ⟨hc.com, hc.input, hc.sent, hc.keep⟩
    refine hclose.bind fun _ => (succeeds_calm hn Ready.ticked .socket).always fun c hc => ?_
    refine ⟨rfl, ⟨hc.com, hc.input, hc.sent, hc.keep⟩, Or.inr ?_⟩
    show (some c.fds : Option Nat) ≠ none
    simp
  refine hlisten.always ((succeeds_calm hn hticked .bind).always (Returns.get.bind fun c₀ => ?_))
  refine Returns.pre ((succeeds_calm hn hticked .getsockname).always
    ((succeeds_calm hn hticked .listen).always ?_)) fun c hc => hc.2
  obtain ⟨hline, hlen⟩ := hn.hostPort c₀.tick
  have hcmd : '\n' ∉ ['P', 'O', 'R', 'T', ' '] ++ net.hostPort c₀.tick := by
    rw [List.mem_append, not_or]
    exact ⟨by decide, hline⟩
  refine Returns.bind (Returns.pre (ftpReq_stays hn hcmd (by simp; omega) 200 (fun _ => True)
    (fun s => ?_) True) fun c hc => ⟨hc.1, fun _ => hc.2⟩) fun b => ?_
  · obtain ⟨r, hfits, hcode, hr, hdir⟩ := P.port s (net.hostPort c₀.tick)
    exact ⟨r, hfits, hcode, trivial, hr, hdir⟩
  refine Returns.get.bind fun c₁ => Returns.ite (fun _ => ?_) fun hne => ?_
  · exact Returns.pure fun c hc => ⟨rfl, hc.2.2.1, hc.2.2.2.2.2 trivial⟩
  · rintro c ⟨rfl, hb, -, hresp, -⟩
    exact absurd ⟨hb, hresp⟩ hne

/-- So does passive mode. -/
theorem portPassive_calm (hn : Calm net) :
    Returns (Ready (Stands P R w)) (portPassive net) fun b c' =>
      b = true ∧ Ready (Stands P R w) c' ∧ HasData c' := by
  have hclose :
    Returns (Ready (Stands P R w)) (closeData : Ftp S PUnit) fun _ => Ready (Stands P R w) :=
    fun c hc => ⟨hc.com, hc.input, hc.sent, hc.keep⟩
  have hfd : Returns (Ready (Stands P R w)) (newFd : Ftp S Nat) fun _ => Ready (Stands P R w) :=
    fun c hc => ⟨hc.com, hc.input, hc.sent, hc.keep⟩
  have hopen : ∀ fd : Nat, Returns (Ready (Stands P R w))
      (modify fun c => { c with ftpData := some fd, data := [] } : Ftp S PUnit)
      fun _ c' => Ready (Stands P R w) c' ∧ HasData c' := fun fd c hc =>
    ⟨⟨hc.com, hc.input, hc.sent, hc.keep⟩, Or.inl (Option.some_ne_none fd)⟩
  have hconnect : Returns (Ready (Stands P R w)) (portConnect net) fun b c' =>
      b = true ∧ Ready (Stands P R w) c' ∧ HasData c' := by
    refine hclose.bind fun _ => (succeeds_calm hn Ready.ticked .socket).always ?_
    refine hfd.bind fun fd => (hopen fd).bind fun _ => ?_
    refine (succeeds_calm hn (fun c t h => ⟨h.1.ticked c t, h.2⟩) .connect).always ?_
    exact Returns.pure fun c hc => ⟨rfl, hc⟩
  refine Returns.bind (Returns.pre (ftpReq_stays hn (by decide) (by decide) 227
    (fun line => (pasvNumbers (cstr line)).length = 6) P.pasv False) fun c hc =>
      ⟨hc, False.elim⟩) fun b => ?_
  refine Returns.get.bind fun c₁ =>
    Returns.ite (fun _ => Returns.ite (fun _ => ?_) fun hne => ?_) fun hne => ?_
  · exact hconnect.pre fun c hc => hc.2.2.1
  · rintro c ⟨rfl, -, -, -, hgood, -⟩
    exact absurd hgood hne
  · rintro c ⟨rfl, hb, -, hresp, -⟩
    exact absurd ⟨hb, hresp⟩ hne

/-- So does the choice between the two. -/
theorem ftpPort_calm (hn : Calm net) :
    Returns (Ready (Stands P R w)) (ftpPort net) fun b c' =>
      b = true ∧ Ready (Stands P R w) c' ∧ HasData c' := by
  refine Returns.get.bind fun c₀ => ?_
  refine Returns.bind
    (Returns.pre (succeeds_calm hn (A := fun c => c₀.ftpCom = c.ftpCom ∧ Ready (Stands P R w) c)
    (fun c t h => ⟨h.1, h.2.ticked c t⟩) .getsockname) fun c hc => ⟨by rw [hc.1], hc.2⟩) fun b => ?_
  refine Returns.ite (fun _ => Returns.ite (fun _ => ?_) fun _ => ?_) fun hne => ?_
  · exact (portPassive_calm hn).pre fun c hc => hc.2.2
  · exact (portActive_calm hn).pre fun c hc => hc.2.2
  · rintro c ⟨hb, hcom, hc⟩
    exact absurd ⟨hb, hcom ▸ hc.com⟩ hne

/-- A read of the data leaves the reply where it is. -/
theorem Coming.read (h : Coming P R w c) {c' : Conn S} (hsame : SameControl c c')
    (hfd : c'.ftpData ≠ none) :
    Coming P R w c' := by
  obtain ⟨⟨hcom, hsent, r, hfits, hinput, hcode, hremote, hdir⟩, -⟩ := h
  refine ⟨⟨?_, ?_, r, hfits, ?_, hcode, ?_, ?_⟩, Or.inl hfd⟩
  · rw [hsame.com]
    exact hcom
  · rw [hsame.sent]
    exact hsent
  · rw [hsame.input]
    exact hinput
  · exact hsame.remoteDir.trans hremote
  · exact (congrArg P.dir hsame.server).trans hdir

/-- A read gives data, or finds its end. -/
theorem ftpReadData_calm (hn : Calm net) (n : Nat) :
    Returns (fun c => Coming P R w c ∧ c.data.length < n) (ftpReadData net JFTP_BUF) fun b c' =>
      b = true ∧ Coming P R w c' ∧ (c'.ftpResp ≤ 0 ∧ 0 < n ∨ c'.data.length + 2 ≤ n) := by
  rintro c ⟨hc, hlen⟩
  refine ftpReadData_spec (by decide) fun b c' hread => ?_
  cases hread with
  | chunk _ k hk hsame hfd hlog hbuf hresp hdata =>
    refine ⟨rfl, hc.read hsame hfd, ?_⟩
    rw [hdata, hresp, List.length_take, List.length_drop]
    omega
  | lost _ k r hwrong => exact absurd hwrong hn.not_wrong
  | closed _ hdata hlisten => exact absurd hc.2 (by simp [HasData, hdata, hlisten])

/-- The loop ends with the file. -/
theorem dirLoop_calm (hn : Calm net) (fuel : Nat) : ∀ tmp : Str,
    Returns (fun c => Coming P R w c ∧ (c.ftpResp ≤ 0 ∧ 0 < fuel ∨ c.data.length + 2 ≤ fuel))
      (dirLoop net fuel tmp) fun res c' => res.isSome = true ∧ Coming P R w c' := by
  induction fuel with
  | zero =>
    rintro tmp c ⟨-, h⟩
    omega
  | succ fuel ih =>
    intro tmp
    refine Returns.get.bind fun c₀ => Returns.ite (fun _ => ?_) fun hmore => ?_
    · exact Returns.pure fun c hc => ⟨rfl, hc.2.1⟩
    have hwrite : Returns
        (fun c => c₀ = c ∧ Coming P R w c ∧
          (c.ftpResp ≤ 0 ∧ 0 < fuel + 1 ∨ c.data.length + 2 ≤ fuel + 1))
        (call net .writeFile c₀.ftpBuf.length) fun r c' =>
          (∃ m, r = .ok m) ∧ Coming P R w c' ∧ c'.data.length < fuel := by
      rintro c ⟨rfl, hc, hfuel⟩
      obtain ⟨m, hout, -⟩ := hn.outcome c₀.tick .writeFile
      refine ⟨⟨m, hout⟩, ⟨⟨hc.1.com, hc.1.sent, hc.1.reply⟩, hc.2⟩, ?_⟩
      show c₀.data.length < fuel
      omega
    refine hwrite.bind fun r => ?_
    cases r with
    | fail =>
      rintro c ⟨⟨m, h⟩, -⟩
      cases h
    | timeout =>
      rintro c ⟨⟨m, h⟩, -⟩
      cases h
    | ok m => exact ((ftpReadData_calm hn fuel).always (ih _)).pre fun c hc => hc.2

/-- The final reply to a listing. -/
theorem dirFinish_calm (hn : Calm net) (tmp : Str) :
    Returns (Coming P R w) (dirFinish net tmp) fun res c' =>
      res.isSome = true ∧ Ready (Stands P R w) c' := by
  have hlisten : Returns (Coming P R w) (closeListen : Ftp S PUnit) fun _ =>
      Waiting fun r σ => r.code = 226 ∧ Stands P R w σ :=
        fun c hc => ⟨hc.1.com, hc.1.sent, hc.1.reply⟩
  have hdata :
    Returns (Waiting fun r σ => r.code = 226 ∧ Stands P R w σ) (closeData : Ftp S PUnit) fun _ =>
      Waiting fun r σ => r.code = 226 ∧ Stands P R w σ := fun c hc => ⟨hc.com, hc.sent, hc.reply⟩
  have hresponse :
    Returns (Waiting fun r σ => r.code = 226 ∧ Stands P R w σ) (ftpResponse net) fun b c' =>
      b = true ∧ c'.ftpResp = 226 ∧ Ready (Stands P R w) c' := by
    rintro c ⟨hcom, hsent, r, hfits, hinput, hcode, hkeep⟩
    refine ftpResponse_spec [] hcom (by rw [hinput, List.append_nil]) hfits
      (fun c' hb => ?_) fun t _ => ?_
    · refine absurd hb (hn.not_broken ?_)
      rw [hinput]
      exact bytes_ne_nil r
    · exact ⟨rfl, congrArg Nat.cast hcode, hcom, rfl, hsent, hkeep⟩
  refine hlisten.bind fun _ => hdata.bind fun _ => hresponse.always (Returns.get.bind fun c₀ => ?_)
  refine Returns.ite (fun hne => ?_) fun _ => Returns.pure fun c hc => ⟨rfl, hc.2.2⟩
  rintro c ⟨rfl, hresp, -⟩
  exact absurd hresp hne

/-- A listing of the current directory succeeds, and the session stays where it is. -/
theorem ftpList_calm (hn : Calm net) :
    Returns (Ready (Stands P R w)) (ftpList net ['-', 'l', 'a', 'g'] []) fun res c' =>
      res.isSome = true ∧ Ready (Stands P R w) c' := by
  have hdata : Returns (Coming P R w) (dirData net) fun res c' =>
      res.isSome = true ∧ Ready (Stands P R w) c' := by
    intro c hc
    refine (ftpReadData_calm hn (c.data.length + 1)).always ?_ c ⟨hc, Nat.lt_succ_self _⟩
    rw [if_pos rfl]
    refine Returns.get.bind fun c₀ => ?_
    refine Returns.pre
      ((dirLoop_calm (P := P) (R := R) (w := w) hn (c₀.data.length + 2) []).bind fun res => ?_)
      fun c hc => ?_
    · cases res with
      | none =>
        rintro c ⟨h, -⟩
        cases h
      | some tmp => exact (dirFinish_calm hn tmp).pre fun c hc => hc.2
    · obtain ⟨rfl, hcoming, -⟩ := hc
      exact ⟨hcoming, Or.inr (Nat.le_refl _)⟩
  have hlist : Returns (fun c => Ready (Stands P R w) c ∧ HasData c)
      (ftpReq net (listCmd ['-', 'l', 'a', 'g'] [])) fun b c' => b = true ∧ c'.ftpResp = 150 ∧
      Coming P R w c' := by
    rintro c ⟨hc, hfd⟩
    obtain ⟨p, r, data, hpfits, hrfits, hp, hr, hanswer, hdir⟩ := P.list c.server
    refine wp_ftpReq_calm hn (by decide) (by decide) hc (congrArg Response.replies hanswer)
      hpfits fun t => ?_
    refine ⟨rfl, congrArg Nat.cast hp,
      ⟨hc.com, rfl, r, hrfits, ?_, hr, hc.keep.1, hdir.trans hc.keep.2⟩, hfd⟩
    exact List.append_nil _
  refine (ftpPort_calm hn).always (Returns.bind hlist fun b => Returns.get.bind fun c₀ => ?_)
  refine Returns.ite (fun _ => hdata.pre fun c hc => hc.2.2.2) fun hne => ?_
  rintro c ⟨rfl, hb, hresp, -⟩
  exact absurd ⟨hb, hresp⟩ hne

/-- So does `ftp_dir2`. -/
theorem ftpDir2_calm (hn : Calm net) :
    Returns (Ready (Stands P R w)) (ftpDir2 net ['-', 'l', 'a', 'g'] []) fun res c' =>
      res.isSome = true ∧ Ready (Stands P R w) c' := by
  have hreturn : ∀ tmp : Option Str, Returns (fun c => tmp.isSome = true ∧ Ready (Stands P R w) c)
      (do let c ← get; recordNet (.returned tmp.isSome c.ftpResp (c.input ++ c.sent)); return tmp)
      fun res c' => res.isSome = true ∧ Ready (Stands P R w) c' := fun tmp c hc =>
    ⟨hc.1, hc.2.com, hc.2.input, hc.2.sent, hc.2.keep⟩
  exact (succeeds_calm hn Ready.ticked .malloc).always
    ((succeeds_calm hn Ready.ticked .mkstemp).always
    ((ftpList_calm hn).bind hreturn))

/-! ## The way down and back -/

/-- `ftp_cd`: the name is kept, and the server goes where it leads to, if it leads anywhere. -/
theorem ftpCd_calm (hn : Calm net) {d : Str} (hline : '\n' ∉ d) (hlen : d.length + 6 < JFTP_BUF) :
    Returns (Ready (Stands P R w)) (ftpCd net d) fun b c' =>
      b = (P.cd w d).isSome ∧ Ready (Stands P (some d) ((P.cd w d).getD w)) c' := by
  refine (succeeds_calm hn Ready.ticked .malloc).always ?_
  have hkeep : Returns (Ready (Stands P R w))
      (modify fun c => { c with ftpRemoteDir := some d } : Ftp S PUnit) fun _ =>
      Ready (Stands P (some d) w) :=
    fun c hc => ⟨hc.com, hc.input, hc.sent, rfl, hc.keep.2⟩
  have hreq : Returns (Ready (Stands P (some d) w)) (ftpReq net (cwd d)) fun b c' =>
      b = true ∧ (c'.ftpResp = 250 ↔ (P.cd w d).isSome = true) ∧
        Ready (Stands P (some d) ((P.cd w d).getD w)) c' := by
    intro c hc
    obtain ⟨r, hfits, hr, hcode, hdir⟩ := P.cwd c.server d
    have hw : P.dir c.server = w := hc.keep.2
    rw [hw] at hcode hdir
    refine wp_ftpReq_calm hn (newline_not_mem_cwd hline) ?_ hc (congrArg Response.replies hr)
      hfits fun t => ?_
    · show (['C', 'W', 'D', ' '] ++ d).length + 2 < JFTP_BUF
      simp
      omega
    · refine ⟨rfl, ?_, hc.com, rfl, rfl, hc.keep.1, hdir⟩
      rw [← hcode]
      exact Nat.cast_inj (R := Int) (n := 250)
  refine hkeep.bind fun _ =>
    hreq.always (Returns.get.bind fun c₀ => Returns.ite (fun hne => ?_) fun hok => ?_)
  · rintro c ⟨rfl, hcode, hc⟩
    refine ⟨?_, hc.com, hc.input, hc.sent, hc.keep⟩
    exact (Bool.eq_false_iff.mpr fun h => hne (hcode.mpr h)).symm
  · rintro c ⟨rfl, hcode, hc⟩
    exact ⟨(hcode.mp (not_not.mp hok)).symm, hc⟩

/-- `ftp_dir`, to a directory that is there: it comes to where the name that was kept leads to
from that directory, if it leads anywhere. -/
theorem ftpDir_calm (hn : Calm net) {d R : Str} {v : D} (hd : P.cd w d = some v)
    (hline : '\n' ∉ R.take (net.pathMax - 1))
    (hlen : (R.take (net.pathMax - 1)).length + 6 < JFTP_BUF) :
    Returns (Ready (Stands P (some R) w)) (ftpDir net d) fun res c' =>
      res.isSome = (P.cd v (R.take (net.pathMax - 1))).isSome ∧
      Ready (Stands P (some (R.take (net.pathMax - 1)))
        ((P.cd v (R.take (net.pathMax - 1))).getD v)) c' := by
  have hgo : ∀ {R' : Option Str} {u : D} {d' : Str}, '\n' ∉ d' → d'.length + 6 < JFTP_BUF →
      ∀ e : Bool → Conn S → NetEvent S, Returns (Ready (Stands P R' u))
        (do let b ← ftpCd net d'; let c ← get; recordNet (e b c); return b) fun b c' =>
          b = (P.cd u d').isSome ∧ Ready (Stands P (some d') ((P.cd u d').getD u)) c' := by
    intro R' u d' hline' hlen' e
    refine (ftpCd_calm hn hline' hlen').bind fun b => Returns.get.bind fun c₀ => ?_
    rintro c ⟨rfl, hb, hc⟩
    exact ⟨hb, hc.com, hc.input, hc.sent, hc.keep⟩
  have hdown : Returns (Ready (Stands P (some R) w)) (goDown net d) fun b c' =>
      b = true ∧ Ready (Stands P (some d) v) c' := by
    obtain ⟨hline', hlen'⟩ := P.line w d v hd
    refine (hgo hline' hlen' fun b c => .wentDown b c.ftpResp).post fun b c hc => ?_
    rw [hd] at hc
    exact hc
  refine Returns.get.bind fun c₀ => ?_
  rintro c ⟨rfl, hc⟩
  have hremote : c₀.ftpRemoteDir = some R := hc.keep.1
  rw [hremote]
  refine hdown.always (Returns.bind (ftpDir2_calm hn) fun res c₁ hc₁ => ?_) c₀ hc
  refine (hgo hline hlen fun b c => .wentBack b c.ftpResp (c.ftpCom ≠ none)).bind
    (fun b => ?_) c₁ hc₁.2
  refine Returns.ite (fun hb => Returns.pure fun c hc => ⟨?_, hc.2⟩) fun hb =>
    Returns.pure fun c hc => ⟨?_, hc.2⟩
  · rw [← hc.1, hb]
    exact hc₁.1
  · rw [← hc.1, Bool.not_eq_true] at *
    exact hb.symm

/-! ## Any number of listings -/

/-- The calls of `ftp_dir` after the first `ftp_cd`. -/
def visits (net : Net S) (R : Str) (ds : List Str) : Ftp S (List (CallStep S)) := do
  if ← ftpCd net R then calls net (ds.map Call.dir) .goesOn else return []

/-- A call has succeeded, the server is where it was, and this is the directory that the name
that is kept means. -/
def ComesBack {server : Server S} (P : Helpful server D) (step : CallStep S) : Prop :=
  step.ok = true ∧ P.dir step.after.server = P.dir step.before.server ∧
    ∃ R', step.after.ftpRemoteDir = some R' ∧ P.cd P.home R' = some (P.dir step.before.server)

/-- The name `R`, cut to what `ftp_dir` has room for, means `w` both in the directory `d` below
`w` and after the login. -/
def LeadsBack (net : Net S) (P : Helpful net.server D) (R : Str) (w : D) (d : Str) : Prop :=
  (∀ v, P.cd w d = some v → P.cd v (R.take (net.pathMax - 1)) = some w) ∧
    P.cd P.home (R.take (net.pathMax - 1)) = some w

/-- The calls, from a state in which they may be made. -/
theorem calls_calm (hn : Calm net) {R₀ : Str} (hline : '\n' ∉ R₀) (hlen : R₀.length + 6 < JFTP_BUF)
    (hcut : R₀.take (net.pathMax - 1) = R₀) (ds : List Str)
    (hds : ∀ d ∈ ds, (P.cd w d).isSome = true) :
    ∀ (R : Str) (c : Conn S), R.take (net.pathMax - 1) = R₀ → Ready (Stands P (some R) w) c →
      wp (calls net (ds.map Call.dir) .goesOn) c
        (fun steps _ =>
          (steps.map CallStep.call = ds.map Call.dir ∧ ∀ step ∈ steps, ComesBack P step) ↔
          ∀ d ∈ ds, LeadsBack net P R₀ w d)
        (fun _ _ => ¬∀ d ∈ ds, LeadsBack net P R₀ w d) := by
  induction ds with
  | nil =>
    intro R c hR hc
    exact ⟨fun _ d hd => absurd hd List.not_mem_nil, fun _ =>
      ⟨rfl, fun _ h => absurd h List.not_mem_nil⟩⟩
  | cons d ds ih =>
    intro R c hR hc
    obtain ⟨v, hv⟩ := Option.isSome_iff_exists.mp (hds d (List.mem_cons_self ..))
    have hdir := ftpDir_calm hn hv (hR ▸ hline) (hR ▸ hlen) c hc
    rw [hR] at hdir
    rw [List.map_cons, calls, if_pos (show Phase.goesOn.allows (.dir d) = true from rfl), wp_bind,
      wp_get, wp_bind]
    refine (wp_map _ _).mpr (wp_mono hdir (fun res c₁ hc₁ => ?_) fun _ _ h => h.elim)
    rw [wp_bind, wp_get, wp_bind]
    obtain ⟨hsome, hstands⟩ := hc₁
    have hbefore : P.dir c.server = w := hc.keep.2
    have hafter : P.dir c₁.server = (P.cd v R₀).getD v := hstands.keep.2
    have hremote : c₁.ftpRemoteDir = some R₀ := hstands.keep.1
    -- one listing comes back exactly if its way back leads there
    have hstep : ComesBack P ⟨.dir d, res.isSome, c, c₁⟩ ↔ LeadsBack net P R₀ w d := by
      unfold ComesBack LeadsBack
      rw [hcut]
      show res.isSome = true ∧ P.dir c₁.server = P.dir c.server ∧ _ ↔ _
      rw [hsome, hbefore, hafter]
      constructor
      · rintro ⟨hres, hw, R', hR', hhome⟩
        obtain rfl := Option.some.inj (hremote.symm.trans hR')
        obtain ⟨u, hu⟩ := Option.isSome_iff_exists.mp hres
        rw [hu] at hw
        refine ⟨fun v' hv' => ?_, hhome⟩
        obtain rfl := Option.some.inj (hv.symm.trans hv')
        rw [hu]
        exact congrArg some hw
      · rintro ⟨hback, hhome⟩
        rw [hback v hv]
        exact ⟨rfl, rfl, R₀, hremote, hhome⟩
    -- from there the next ones do as well; otherwise the condition fails already
    by_cases hleads : LeadsBack net P R₀ w d
    · have hback : P.cd v R₀ = some w := by
        have h := hleads.1 v hv
        rwa [hcut] at h
      rw [hback] at hsome hstands
      rw [hsome]
      refine wp_mono (ih (fun d' hd' => hds d' (List.mem_cons_of_mem _ hd')) R₀ c₁ hcut hstands)
        (fun more _ h => ?_) fun _ _ h hall => h fun d' hd' => hall d' (List.mem_cons_of_mem _ hd')
      rw [hsome] at hstep
      refine Iff.trans ?_ (List.forall_mem_cons.trans (and_iff_right hleads)).symm
      refine Iff.trans ?_ h
      constructor
      · rintro ⟨hcalls, hall⟩
        exact ⟨(List.cons.inj hcalls).2, fun step hmem => hall step (List.mem_cons_of_mem _ hmem)⟩
      · rintro ⟨hcalls, hall⟩
        exact ⟨congrArg (List.cons _) hcalls, List.forall_mem_cons.mpr ⟨hstep.mpr hleads, hall⟩⟩
    · exact wp_true
        (fun more _ => iff_of_false (fun h => hleads (hstep.mp (h.2 _ (List.mem_cons_self ..))))
        fun h => hleads (h d (List.mem_cons_self ..))) fun _ _ h =>
          hleads (h d (List.mem_cons_self ..))

/-- What counts of the name is what fits into `pathMax`. -/
theorem LeadsBack.cut {R : Str} {d : Str} :
    LeadsBack net P (R.take (net.pathMax - 1)) w d ↔ LeadsBack net P R w d := by
  unfold LeadsBack
  rw [List.take_take, Nat.min_self]

/-- **Listings where nothing fails.** After the first `ftp_cd`, to a directory that is there, all
of the listings are made, succeed, and come back to that directory, exactly if its name, as it
was given, leads back from each of the directories that are listed. -/
theorem visits_comeBack (P : Helpful net.server D) (hn : Calm net) {R : Str} {w : D}
    (hR : P.cd P.home R = some w) (ds : List Str)
    (hds : ∀ d ∈ ds, (P.cd w d).isSome = true) {c : Conn S}
    (hc : Ready (fun σ => P.dir σ.server = P.home) c) :
    wp (visits net R ds) c
      (fun steps _ =>
        (steps.map CallStep.call = ds.map Call.dir ∧ ∀ step ∈ steps, ComesBack P step) ↔
        ∀ d ∈ ds, LeadsBack net P R w d)
      (fun _ _ => ¬∀ d ∈ ds, LeadsBack net P R w d) := by
  obtain ⟨hline, hlen⟩ := P.line P.home R w hR
  have hhome : Ready (Stands P c.ftpRemoteDir P.home) c := ⟨hc.com, hc.input, hc.sent, rfl, hc.keep⟩
  have hline₀ : '\n' ∉ R.take (net.pathMax - 1) := fun h => hline (List.mem_of_mem_take h)
  have hlen₀ : (R.take (net.pathMax - 1)).length + 6 < JFTP_BUF := by
    rw [List.length_take]
    omega
  have hcut : (R.take (net.pathMax - 1)).take (net.pathMax - 1) = R.take (net.pathMax - 1) := by
    rw [List.take_take, Nat.min_self]
  refine (wp_bind _ _).mpr
    (wp_mono (ftpCd_calm hn hline hlen c hhome) (fun b c₁ h => ?_) fun _ _ h => h.elim)
  obtain ⟨hb, hstands⟩ := h
  rw [hR] at hb hstands
  rw [hb]
  refine wp_mono (calls_calm hn hline₀ hlen₀ hcut ds hds R c₁ rfl hstands) (fun steps _ h => ?_)
    fun _ _ h => ?_
  · simpa only [LeadsBack.cut] using h
  · simpa only [LeadsBack.cut] using h

/-! ## Servers with directories -/

/-- A reply to `PASV`. -/
def passiveReply : Reply :=
  { code := 227
    before := []
    last := digits 227 ++ [' ', '(', '1', ',', '2', ',', '3', ',', '4', ',', '5', ',', '6', ')']
    isCode := by decide
    shape := Shape.single _ (by simp)
    oneLine := by decide }

/-- A server with the directories of `cd`. -/
def dirServer (cd : D → Str → Option D) (home : D) : Server D :=
  { greeting := fun _ => ([Reply.short 220 Reply.code_220], home)
    answer := fun s cmd =>
      if word cmd = ['C', 'W', 'D'] then
        match cd s (cmd.drop 4) with
        | some w => (⟨[Reply.short 250 Reply.code_250], []⟩, w)
        | none => (⟨[Reply.short 550 Reply.code_550], []⟩, s)
      else if Transfers cmd then
        (⟨[Reply.short 150 Reply.code_150, Reply.short 226 Reply.code_226], ['x']⟩, s)
      else if word cmd = ['P', 'A', 'S', 'V'] then (⟨[passiveReply], []⟩, s)
      else (⟨[Reply.short 200 Reply.code_200], []⟩, s) }

/-- Such a server is a helpful one. -/
def dirServer_helpful (cd : D → Str → Option D) (home : D)
    (hline : ∀ w d v, cd w d = some v → '\n' ∉ d ∧ d.length + 6 < JFTP_BUF) :
    Helpful (dirServer cd home) D where
  dir := id
  home := home
  cd := cd
  line := hline
  cwd := by
    intro s d
    have hanswer : (dirServer cd home).answer s (cwd d) =
        match cd s d with
        | some w => (⟨[Reply.short 250 (by decide)], []⟩, w)
        | none => (⟨[Reply.short 550 (by decide)], []⟩, s) := by
      simp only [dirServer]
      exact if_pos (word_cwd d)
    rw [hanswer]
    show ∃ r : Reply, _ ∧ _ ∧ (_ ↔ (cd s d).isSome = true) ∧ _ = (cd s d).getD s
    cases cd s d with
    | some w => exact ⟨Reply.short 250 (by decide), by decide, rfl, iff_of_true rfl rfl, rfl⟩
    | none =>
      exact ⟨Reply.short 550 (by decide), by decide, rfl, iff_of_false (by decide) (by simp), rfl⟩
  port := by
    intro s a
    have hword : word (['P', 'O', 'R', 'T', ' '] ++ a) = ['P', 'O', 'R', 'T'] := by
      show word (['P', 'O', 'R', 'T'] ++ ' ' :: a) = _
      rw [word_append (by decide)]
      rfl
    have hanswer : (dirServer cd home).answer s (['P', 'O', 'R', 'T', ' '] ++ a) =
        (⟨[Reply.short 200 (by decide)], []⟩, s) := by
      simp only [dirServer, Transfers, hword]
      rfl
    rw [hanswer]
    exact ⟨Reply.short 200 (by decide), by decide, rfl, rfl, rfl⟩
  pasv := fun s => ⟨passiveReply, by decide, rfl, by decide, rfl, rfl⟩
  list := fun s =>
    ⟨Reply.short 150 (by decide), Reply.short 226 (by decide), ['x'], by decide, by decide,
    rfl, rfl, rfl, rfl⟩

/-- Nothing goes wrong in the network of the examples. -/
theorem calmNet_calm (server : Server S) : Calm (calmNet server) where
  outcome := fun _ _ => ⟨JFTP_BUF, rfl, fun _ => Nat.le_refl _⟩
  hostPort := fun _ => show '\n' ∉ ['1', ',', '2', ',', '3', ',', '4', ',', '5', ',', '6'] ∧
    ['1', ',', '2', ',', '3', ',', '4', ',', '5', ',', '6'].length + 7 < JFTP_BUF by decide

/-- The directories 0, to which the login leads, 1, which is called `p` there and `/p` everywhere,
and 2, which is called `d` in 1. -/
def fewDirs (w : Nat) (d : Str) : Option Nat :=
  if d = ['/', 'p'] ∨ w = 0 ∧ d = ['p'] then some 1
  else if w = 1 ∧ d = ['d'] then some 2
  else none

/-- The names of its directories fit into a command. -/
theorem fewDirs_line (w : Nat) (d : Str) (v : Nat) (h : fewDirs w d = some v) :
    '\n' ∉ d ∧ d.length + 6 < JFTP_BUF := by
  unfold fewDirs at h
  split at h
  · next hd => rcases hd with rfl | ⟨-, rfl⟩ <;> decide
  · split at h
    · next hd =>
      obtain ⟨-, rfl⟩ := hd
      decide
    · cases h

/-- A connection after the login. -/
def atHome : Conn Nat := { Conn.init 0 with ftpCom := some 0 }

/-- A connection to a server with these directories. -/
def fewNet : Net Nat := calmNet (dirServer fewDirs 0)

def fewHelpful : Helpful fewNet.server Nat := dirServer_helpful fewDirs 0 fewDirs_line

section

attribute [local irreducible] wp

theorem visits_comeBack_absolute :
    wp (visits fewNet ['/', 'p'] [['d'], ['d']]) atHome
      (fun steps _ => (steps.map CallStep.call = [['d'], ['d']].map Call.dir ∧
        ∀ step ∈ steps, ComesBack fewHelpful step) ↔
        ∀ d ∈ [['d'], ['d']], LeadsBack fewNet fewHelpful ['/', 'p'] 1 d)
      (fun _ _ => ¬∀ d ∈ [['d'], ['d']], LeadsBack fewNet fewHelpful ['/', 'p'] 1 d) :=
  visits_comeBack fewHelpful (calmNet_calm _) (by decide) _ (by decide) ⟨by decide, rfl, rfl, rfl⟩

/-- The relative name `p` means nothing in `d`: the listing fails, and the server stays there. -/
theorem visits_lost :
    fewHelpful.cd fewHelpful.home ['p'] = some 1 ∧ fewHelpful.cd 1 ['d'] = some 2 ∧
    wp (visits fewNet ['p'] [['d']]) atHome
      (fun steps _ => steps.map CallStep.ok = [false] ∧ ¬∀ step ∈ steps, ComesBack fewHelpful step)
      (fun _ _ => False) := by
  refine ⟨by decide, by decide, ?_⟩
  have hrun : wp (visits fewNet ['p'] [['d']]) atHome
      (fun steps _ => steps.map CallStep.ok = [false]) (fun _ _ => False) := by decide +kernel
  refine wp_mono hrun (fun steps _ h => ⟨h, fun hall => ?_⟩) fun _ _ h => h
  cases steps with
  | nil => cases h
  | cons step steps =>
    have hok : step.ok = true := (hall step (List.mem_cons_self ..)).1
    rw [List.map_cons, hok] at h
    cases h

end

end Spegla.Jftp
