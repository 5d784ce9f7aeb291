import Spegla.Jftp.Transfer

/-!
# Directories and logins

- `ftpDir2_upholds`: a listing. It asks that the data connection of a listing is not lost:
  `ftp_dir2` does not read the final reply then.
- `ftpCd_ready`, `ftpCd_cut`, `ftpDir_upholds`: the way to a directory, and to one and back.
- `ftpRelogin_upholds`: a new connection, with the directory that is kept.
-/

namespace Spegla.Jftp

open CString FtpReply ExitState

variable {S : Type} {net : Net S} {ok : NetEvent S → Prop} {c : Conn S}
variable {I J : Session S → Prop} {K : Reply → Session S → Prop}

/-! ## Listings -/

/-- What is asked of the invariants of a listing: `K` holds once the server has said that it
comes. -/
structure Lists (net : Net S) (I : Session S → Prop) (K : Reply → Session S → Prop)
    (cmd : Str) : Prop where
  refused : ∀ σ r, I σ → (net.server.answer σ.server cmd).1 = ⟨[r], []⟩ → I (σ.after net cmd)
  sent : ∀ σ p r data, I σ → (net.server.answer σ.server cmd).1 = ⟨[p, r], data⟩ →
    K r (σ.after net cmd)
  keep : ∀ r σ, K r σ → I σ
  quiet : ∀ r, Quiet (K r)
  forgets : ∀ r, Forgets (K r)

/-- While nothing is buffered a download and a listing wait for the same reply. -/
theorem Fetching.waiting {buf : Str} (h : Fetching K buf c) (hquiet : ∀ r, Quiet (K r))
    (hforgets : ∀ r, Forgets (K r)) : Waiting K c := by
  obtain ⟨r, σ, new, hfits, hinput, hK, hsession, hnew, -⟩ := h.reply
  refine ⟨h.com, h.sent, r, hfits, hinput, ?_⟩
  rw [hsession]
  exact (hquiet r).append (hforgets r σ c.data hK) new hnew

/-- A read of the data connection leaves less data, or ends the loop. -/
theorem ftpReadData_waiting (ho : Orderly ok) (hquiet : ∀ r, Quiet (K r))
    (hforgets : ∀ r, Forgets (K r))
    (n : Nat) :
    Upholds Conn.log ok (fun _ => False) (fun c => Waiting K c ∧ c.data.length < n)
      (ftpReadData net JFTP_BUF) fun b c' =>
        (b = true ∧ Waiting K c' ∧ (c'.ftpResp ≤ 0 ∧ 0 < n ∨ c'.data.length + 2 ≤ n)) ∨
        (b = false ∧ Waiting K c') := by
  refine Upholds.post (Upholds.pre (ftpReadData_fetching (K := K) ho n) fun c hc =>
    ⟨hc.1.fetching, hc.2⟩) fun b c' hc' => ?_
  rcases hc' with ⟨hb, hfetch, -, hn⟩ | ⟨hb, hfetch, -⟩
  · exact Or.inl ⟨hb, hfetch.waiting hquiet hforgets, hn⟩
  · exact Or.inr ⟨hb, hfetch.waiting hquiet hforgets⟩

/-- Events that pass change nothing about a safe end. -/
theorem Safe.logged (h : Safe I J c) {e : NetEvent S} (he : e.Passes) (hI : Quiet I)
    (hJ : Quiet J) :
    Safe I J (c.logged e) := by
  rcases h with h | h
  · exact Or.inl ⟨h.com, h.input, h.sent, hI c.session e he h.keep⟩
  · exact Or.inr ⟨h.com, h.input, h.sent, hJ c.session e he h.keep, h.resp⟩

/-- What a listing gives: a file, with `A`, or nothing, with `B`. -/
def Listed (A B : Conn S → Prop) (res : Option Str) (c : Conn S) : Prop :=
  (res.isSome = true ∧ A c) ∨ (res = none ∧ B c)

/-- Recording why a listing fails is such an event. -/
theorem listFailed_upholds (hI : Quiet I) (hJ : Quiet J) (A : Conn S → Prop) (resp : Int) :
    Upholds Conn.log ok (fun _ => False) (Safe I J) (listFailed resp)
      (Listed A (Safe I J)) := fun _ =>
  Provided.event rfl fun _ h => Or.inr ⟨rfl, h.logged trivial hI hJ⟩

/-- The end of a listing that has lost its data connection is not asked for. -/
theorem listDataLost_upholds (hlost : ¬ok .listDataLost) (P : Conn S → Prop)
    (Q : Option Str → Conn S → Prop) :
    Upholds Conn.log ok (fun _ => False) P listDataLost Q := fun c =>
  ⟨[.listFailed c.ftpResp, .listDataLost], rfl, fun hok =>
    absurd (hok .listDataLost (by simp)) hlost⟩

/-- The reply is still waited for when the data connection has been closed. -/
theorem closes_waiting {β : Type} {x : Ftp S β} {Q : β → Conn S → Prop}
    (hx : Upholds Conn.log ok (fun _ => False) (Waiting K) x Q) :
    Upholds Conn.log ok (fun _ => False) (Waiting K) (do closeListen; closeData; x) Q := by
  have hlisten : Upholds Conn.log ok (fun _ => False) (Waiting K) (closeListen : Ftp S PUnit)
      fun _ => Waiting K := fun _ => Provided.of rfl fun hc => ⟨hc.com, hc.sent, hc.reply⟩
  have hdata : Upholds Conn.log ok (fun _ => False) (Waiting K) (closeData : Ftp S PUnit)
      fun _ => Waiting K := fun _ => Provided.of rfl fun hc => ⟨hc.com, hc.sent, hc.reply⟩
  exact hlisten.bind fun _ => hdata.bind fun _ => hx

/-- A low-level call, where less than `n` bytes of data are still to come. -/
theorem call_waiting (hquiet : ∀ r, Quiet (K r)) (k : NetCall) (size n : Nat) :
    Upholds Conn.log ok (fun _ => False) (fun c => Waiting K c ∧ c.data.length < n)
      (call net k size) fun _ c' => Waiting K c' ∧ c'.data.length < n := by
  intro c
  show Provided Conn.log ok c (c.called k size (net.outcome c.tick k)) _
  unfold Conn.called
  cases (net.outcome c.tick k).isFull size with
  | true => exact Provided.of rfl fun h => ⟨⟨h.1.com, h.1.sent, h.1.reply⟩, h.2⟩
  | false =>
    refine Provided.event rfl fun _ h => ⟨⟨h.1.com, h.1.sent, ?_⟩, h.2⟩
    obtain ⟨r, hfits, hinput, hK⟩ := h.1.reply
    exact ⟨r, hfits, hinput, hquiet r c.session (.lost k _) trivial hK⟩

/-- **The loop of a listing** keeps the reply to be read, by induction on the data that is still to
come. -/
theorem dirLoop_upholds (h : Kept net ok I J) (ho : Orderly ok)
    (hlost : ¬ok .listDataLost) {cmd : Str}
    (hl : Lists net I K cmd) (fuel : Nat) : ∀ tmp : Str,
    Upholds Conn.log ok (fun _ => False)
      (fun c => Waiting K c ∧ (c.ftpResp ≤ 0 ∧ 0 < fuel ∨ c.data.length + 2 ≤ fuel))
      (dirLoop net fuel tmp) (Listed (Waiting K) (Safe I J)) := by
  induction fuel with
  | zero =>
    intro tmp
    refine Upholds.throw fun c hc => ?_
    rcases hc.2 with ⟨-, h⟩ | h
    · exact absurd h (Nat.lt_irrefl 0)
    · omega
  | succ fuel ih =>
    intro tmp
    refine Upholds.get.bind fun c₀ => Upholds.ite (fun hend => ?_) fun hmore => ?_
    · refine Upholds.pure fun c hc => Or.inl ⟨rfl, ?_⟩
      obtain ⟨rfl, hwait, -⟩ := hc
      exact hwait
    have hwrite : Upholds Conn.log ok (fun _ => False)
        (fun c => c₀ = c ∧ Waiting K c ∧
          (c.ftpResp ≤ 0 ∧ 0 < fuel + 1 ∨ c.data.length + 2 ≤ fuel + 1))
        (call net .writeFile c₀.ftpBuf.length) fun _ c' => Waiting K c' ∧
        c'.data.length < fuel := by
      refine Upholds.pre (call_waiting hl.quiet .writeFile _ fuel) fun c hc => ?_
      obtain ⟨rfl, hwait, hfuel⟩ := hc
      exact ⟨hwait, by omega⟩
    refine hwrite.bind fun r => ?_
    -- a failed or late write ends the listing, but its reply is still read
    have hfail :
      Upholds Conn.log ok (fun _ => False) (fun c' => Waiting K c' ∧ c'.data.length < fuel)
        (do
          setResp JFTP_WRITEERR
          closeListen
          closeData
          let _ ← ftpResponse net
          listFailed JFTP_WRITEERR) (Listed (Waiting K) (Safe I J)) := by
      have hset : Upholds Conn.log ok (fun _ => False)
        (fun c' => Waiting K c' ∧ c'.data.length < fuel)
          (setResp JFTP_WRITEERR : Ftp S PUnit) fun _ => Waiting K := fun _ =>
        Provided.of rfl fun hc => ⟨hc.1.com, hc.1.sent, hc.1.reply⟩
      refine hset.bind fun _ => closes_waiting ?_
      refine Upholds.bind
        (Upholds.post (ftpResponse_waiting h.quietJ fun r σ hσ => h.cut σ (hl.keep r σ hσ))
        fun b c' hc' => ?_) fun _ => listFailed_upholds h.quiet h.quietJ _ _
      rcases hc' with ⟨-, r, -, hready⟩ | ⟨-, hcut⟩
      · exact Or.inl ⟨hready.com, hready.input, hready.sent, hl.keep r _ hready.keep⟩
      · exact Or.inr hcut
    cases r with
    | fail => exact hfail
    | timeout => exact hfail
    | ok n =>
      refine Upholds.test (ftpReadData_waiting ho hl.quiet hl.forgets fuel) (ih _) ?_
      exact closes_waiting (listDataLost_upholds hlost _ _)

/-- The reply is read at the end, and with it everything the server has sent. -/
theorem dirFinish_upholds (h : Kept net ok I J) {cmd : Str} (hl : Lists net I K cmd) (tmp : Str) :
    Upholds Conn.log ok (fun _ => False) (Waiting K) (dirFinish net tmp)
      (Listed (Ready fun τ => ∃ r, K r τ) (Safe I J)) := by
  refine closes_waiting ?_
  refine Upholds.test (ftpResponse_waiting h.quietJ fun r σ hσ => h.cut σ (hl.keep r σ hσ)) ?_ ?_
  · refine Upholds.get.bind fun c₀ => Upholds.ite (fun _ => ?_) fun _ => ?_
    · refine (listFailed_upholds h.quiet h.quietJ _ _).pre fun c hc => ?_
      obtain ⟨-, r, -, hready⟩ := hc
      exact Or.inl ⟨hready.com, hready.input, hready.sent, hl.keep r _ hready.keep⟩
    · refine Upholds.pure fun c hc => Or.inl ⟨rfl, ?_⟩
      obtain ⟨-, r, -, hready⟩ := hc
      exact ⟨hready.com, hready.input, hready.sent, r, hready.keep⟩
  · have hset : Upholds Conn.log ok (fun _ => False) (Cut J)
        (do closeCom; setResp JFTP_BROKEN : Ftp S PUnit) fun _ => Safe I J := fun _ =>
      Provided.of rfl fun hc => Or.inr ⟨rfl, rfl, rfl, hc.keep, Or.inl rfl⟩
    exact hset.bind fun _ => listFailed_upholds h.quiet h.quietJ _ _

/-- The first read and the loop. -/
theorem dirData_upholds (h : Kept net ok I J) (ho : Orderly ok)
    (hlost : ¬ok .listDataLost) {cmd : Str}
    (hl : Lists net I K cmd) :
    Upholds Conn.log ok (fun _ => False) (Waiting K) (dirData net)
      (Listed (Ready fun τ => ∃ r, K r τ) (Safe I J)) := by
  refine Upholds.pre (Upholds.choose (fun c => c.data.length + 1) fun n =>
    Upholds.test (ftpReadData_waiting ho hl.quiet hl.forgets n) ?_ ?_) fun c hc =>
      ⟨hc, Nat.lt_succ_self _⟩
  swap
  · exact listDataLost_upholds hlost _ _
  refine Upholds.get.bind fun c₀ => ?_
  refine Upholds.pre ((dirLoop_upholds h ho hlost hl (c₀.data.length + 2) []).bind fun res => ?_)
    fun c hc => ?_
  · cases res with
    | none =>
      exact Upholds.pure fun c hc => Or.inr ⟨rfl, hc.elim (fun h' => nomatch h'.1) And.right⟩
    | some tmp =>
      exact (dirFinish_upholds h hl tmp).pre fun c hc => hc.elim And.right fun h' => nomatch h'.1
  · obtain ⟨rfl, hwait, -⟩ := hc
    exact ⟨hwait, Or.inr (Nat.le_refl _)⟩

/-- A listing with its command: the file, or a connection that is as it was or lost. -/
theorem ftpList_upholds (h : Kept net ok I J) (hf : Forgets I) (hline : OneLine net)
    (ho : Orderly ok)
    (hlost : ¬ok .listDataLost) {flags dir : Str} (hcmd : '\n' ∉ listCmd flags dir)
    (htransfers : Transfers (listCmd flags dir)) (hl : Lists net I K (listCmd flags dir)) :
    Upholds Conn.log ok (fun _ => False) (Ready I) (ftpList net flags dir)
      (Listed (Ready fun τ => ∃ r, K r τ) (Safe I J)) := by
  have hclose : ∀ {β : Type} {x : Ftp S β} {Q : β → Conn S → Prop},
      Upholds Conn.log ok (fun _ => False) (Safe I J) x Q →
      Upholds Conn.log ok (fun _ => False) (Safe I J) (do closeListen; closeData; x) Q := by
    intro β x Q hx
    have hboth : Upholds Conn.log ok (fun _ => False) (Safe I J)
        (do closeListen; closeData : Ftp S PUnit) fun _ => Safe I J := fun _ =>
      Provided.of rfl fun hc => by
        rcases hc with hc | hc
        · exact Or.inl ⟨hc.com, hc.input, hc.sent, hc.keep⟩
        · exact Or.inr ⟨hc.com, hc.input, hc.sent, hc.keep, hc.resp⟩
    exact hboth.bind fun _ => hx
  have hend : Upholds Conn.log ok (fun _ => False) (Safe I J)
      (do let c ← get; listFailed c.ftpResp) (Listed (Ready fun τ => ∃ r, K r τ) (Safe I J)) :=
    Upholds.get.bind fun c₀ => (listFailed_upholds h.quiet h.quietJ _ _).pre fun c hc => hc.2
  refine Upholds.test (ftpPort_upholds h hf hline) ?_ (hclose hend)
  refine Upholds.branch
    (ftpReq_transfer (R := Empty I) h hcmd htransfers (fun σ hσ => hσ.1) ho.announced
    (fun σ r hσ => hl.refused σ r hσ.1) (fun σ p r data hσ => hl.sent σ p r data hσ.1)
    fun r σ hσ => h.cut σ (hl.keep r σ hσ)) ?_ ?_
  · refine Upholds.get.bind fun c₀ => Upholds.ite (fun hresp => ?_) fun hresp => ?_
    · refine (dirData_upholds h ho hlost hl).pre fun c hc => ?_
      obtain ⟨rfl, hc⟩ := hc
      exact hc.elim And.right fun h' => absurd hresp.2 h'.1
    · simp only [if_true]
      have hset : Upholds Conn.log ok (fun _ => False) (Ready I)
          (setResp JFTP_ERR : Ftp S PUnit) fun _ => Safe I J := fun _ =>
        Provided.of rfl fun hc => Or.inl ⟨hc.com, hc.input, hc.sent, hc.keep⟩
      refine Upholds.pre (closeListen_upholds.bind fun _ => closeData_upholds.bind fun _ =>
        hset.bind fun _ => hend) fun c hc => ?_
      obtain ⟨rfl, hc⟩ := hc
      rcases hc with hc | ⟨-, hready⟩
      · exact absurd ⟨rfl, hc.1⟩ hresp
      · exact hready
  · refine Upholds.get.bind fun c₁ => ?_
    simp only [Bool.false_eq_true, false_and, if_false]
    exact (hclose hend).pre fun c hc => Or.inr hc.2

/-- `ftp_dir2`. -/
theorem ftpDir2_upholds (h : Kept net ok I J) (hf : Forgets I) (hline : OneLine net)
    (ho : Orderly ok)
    (hlost : ¬ok .listDataLost) {flags dir : Str} (hcmd : '\n' ∉ listCmd flags dir)
    (htransfers : Transfers (listCmd flags dir)) (hl : Lists net I K (listCmd flags dir))
    {T : Session S → Prop} (hT : Quiet T) (hK : ∀ r τ, K r τ → T τ) :
    Upholds Conn.log ok (fun _ => False) (Ready I) (ftpDir2 net flags dir)
      (Listed (Ready T) (Safe I J)) := by
  have hreturn : ∀ tmp : Option Str, Upholds Conn.log ok (fun _ => False)
      (Listed (Ready fun τ => ∃ r, K r τ) (Safe I J) tmp)
      (do let c ← get; recordNet (.returned tmp.isSome c.ftpResp (c.input ++ c.sent)); return tmp)
      (Listed (Ready T) (Safe I J)) := by
    intro tmp
    refine Upholds.post (Upholds.pre
      (returned_upholds hT (fun c hc => Safe.returned hc h.quiet h.quietJ) tmp.isSome tmp)
      fun c hc => ?_) ?_
    · rcases hc with ⟨hb, hready⟩ | ⟨rfl, hsafe⟩
      · obtain ⟨r, hr⟩ := hready.keep
        exact Or.inl ⟨hb, hready.com, hready.input, hready.sent, hK r _ hr⟩
      · exact Or.inr ⟨rfl, hsafe⟩
    · rintro _ c' ⟨rfl, hc'⟩
      exact hc'.imp id fun hc' => ⟨Option.isNone_iff_eq_none.mp (by simpa using hc'.1), hc'.2⟩
  have hfail : ∀ resp, Upholds Conn.log ok (fun _ => False) (Ready I)
      (do setResp resp; listFailed resp) (Listed (Ready fun τ => ∃ r, K r τ) (Safe I J)) := by
    intro resp
    have hset : Upholds Conn.log ok (fun _ => False) (Ready I) (setResp resp : Ftp S PUnit)
        fun _ => Safe I J := fun _ =>
      Provided.of rfl fun hc => Or.inl ⟨hc.com, hc.input, hc.sent, hc.keep⟩
    exact hset.bind fun _ => listFailed_upholds h.quiet h.quietJ _ _
  refine Upholds.test (succeeds_test h.quiet .malloc)
    (Upholds.test (succeeds_test h.quiet .mkstemp) ?_ ?_) ?_
  · exact (ftpList_upholds h hf hline ho hlost hcmd htransfers hl).bind hreturn
  · exact (hfail JFTP_WRITEERR).bind hreturn
  · exact (hfail JFTP_ERRNO).bind hreturn

/-! ## The way to a directory -/

/-- The session once `dir` is kept as the directory. -/
def Session.toDir (σ : Session S) (dir : Str) : Session S := { σ with remoteDir := some dir }

/-- The command of `ftp_cd`. -/
def cwd (dir : Str) : Str := ['C', 'W', 'D', ' '] ++ dir

/-- `CWD` is one line if the name of the directory is. -/
theorem newline_not_mem_cwd {dir : Str} (hdir : '\n' ∉ dir) : '\n' ∉ cwd dir := by
  unfold cwd
  rw [List.mem_append, not_or]
  exact ⟨by decide, hdir⟩

/-- The first word of the command. -/
theorem word_cwd (dir : Str) : word (cwd dir) = ['C', 'W', 'D'] := by
  show word (['C', 'W', 'D'] ++ ' ' :: dir) = _
  rw [word_append (by decide)]
  rfl

/-- `CWD` asks for no data. -/
theorem not_transfers_cwd (dir : Str) : ¬Transfers (cwd dir) := by
  unfold Transfers
  rw [word_cwd]
  decide

variable {D JD A B : Session S → Prop} {dir : Str}

/-- `ftp_cd` on a connection on which every reply has been read: `A` where the server goes
there, `B` where it refuses. -/
theorem ftpCd_ready (hI : Quiet I) (hD : Kept net ok D JD) (hdir : ∀ σ, I σ → '\n' ∉ dir)
    (hcut : ∀ σ, I σ → JD (σ.toDir dir) ∧ JD ((σ.toDir dir).after net (cwd dir)))
    (hA : ∀ σ r, I σ → (net.server.answer σ.server (cwd dir)).1 = ⟨[r], []⟩ → r.code = 250 →
      A ((σ.toDir dir).after net (cwd dir)))
    (hB : ∀ σ r, I σ → (net.server.answer σ.server (cwd dir)).1 = ⟨[r], []⟩ → r.code ≠ 250 →
      B ((σ.toDir dir).after net (cwd dir))) :
    Upholds Conn.log ok (fun _ => False) (Ready I) (ftpCd net dir) fun b c' =>
      (b = true ∧ Ready A c') ∨
      (b = false ∧ ((c'.ftpResp = JFTP_ERRNO ∧ Ready I c') ∨ (c'.ftpResp = JFTP_ERR ∧ Ready B c') ∨
        Cut JD c')) := by
  refine Upholds.test (succeeds_test hI .malloc) ?_ ?_
  swap
  · exact fun _ => Provided.of rfl fun hc =>
      Or.inr ⟨rfl, Or.inl ⟨rfl, hc.com, hc.input, hc.sent, hc.keep⟩⟩
  have hset : Upholds Conn.log ok (fun _ => False) (Ready I)
      (modify fun c => { c with ftpRemoteDir := some dir } : Ftp S PUnit)
      fun _ => Ready fun τ => ∃ σ, I σ ∧ τ = σ.toDir dir := fun c =>
    Provided.of rfl fun hc => ⟨hc.com, hc.input, hc.sent, c.session, hc.keep, rfl⟩
  refine hset.bind fun _ => Upholds.test (ftpReq_single hD ?_ (not_transfers_cwd dir) ?_) ?_ ?_
  · rintro _ ⟨σ, hσ, rfl⟩
    exact newline_not_mem_cwd (hdir σ hσ)
  · rintro _ ⟨σ, hσ, rfl⟩
    exact hcut σ hσ
  · refine Upholds.get.bind fun c₀ => Upholds.ite (fun hresp => ?_) fun hresp => ?_
    · refine fun c => Provided.of rfl fun hc => Or.inr ⟨rfl, Or.inr (Or.inl ⟨rfl, ?_⟩)⟩
      obtain ⟨rfl, _, r, ⟨σ, hσ, rfl⟩, hr, hcode, hready⟩ := hc
      refine ⟨hready.com, hready.input, hready.sent, ?_⟩
      show B c₀.session
      rw [hready.keep]
      exact hB σ r hσ hr (by omega)
    · refine Upholds.pure fun c hc => Or.inl ⟨rfl, ?_⟩
      obtain ⟨rfl, _, r, ⟨σ, hσ, rfl⟩, hr, hcode, hready⟩ := hc
      refine ⟨hready.com, hready.input, hready.sent, ?_⟩
      rw [hready.keep]
      exact hA σ r hσ hr (by omega)
  · exact Upholds.pure fun c hc => Or.inr ⟨rfl, Or.inr (Or.inr hc)⟩

/-- `ftp_cd` on a connection that is lost. -/
theorem ftpCd_cut (hJ : Quiet J) (hset : ∀ σ, J σ → JD (σ.toDir dir)) :
    Upholds Conn.log ok (fun _ => False) (Cut J) (ftpCd net dir) fun b c' =>
      b = false ∧ ((c'.ftpResp = JFTP_ERRNO ∧ J c'.session) ∨ Cut JD c') := by
  have hmalloc : Upholds Conn.log ok (fun _ => False) (Cut J) (succeeds net .malloc) fun b c' =>
      (b = true ∧ Cut J c') ∨ (b = false ∧ Cut J c') := by
    intro c
    refine wp_succeeds
      (fun t => Provided.of rfl fun h => Or.inl ⟨rfl, h.com, h.input, h.sent, h.keep, h.resp⟩)
      fun t r _ => ?_
    refine Provided.event rfl fun _ h => Or.inr ⟨rfl, h.com, h.input, h.sent, ?_, h.resp⟩
    exact hJ c.session (.lost .malloc r) trivial h.keep
  refine Upholds.test hmalloc ?_ ?_
  swap
  · exact fun _ => Provided.of rfl fun hc => ⟨rfl, Or.inl ⟨rfl, hc.keep⟩⟩
  have hkeep : Upholds Conn.log ok (fun _ => False) (Cut J)
      (modify fun c => { c with ftpRemoteDir := some dir } : Ftp S PUnit)
      fun _ c' => c'.ftpCom = none ∧ JD c'.session := fun c =>
    Provided.of rfl fun hc => ⟨hc.com, hset c.session hc.keep⟩
  have hreq : Upholds Conn.log ok (fun _ => False) (fun c => c.ftpCom = none ∧ JD c.session)
      (ftpReq net (cwd dir)) fun b c' => (b = true ∧ False) ∨ (b = false ∧ Cut JD c') :=
    ftpReq_cut.post fun b c' hc' => Or.inr hc'
  refine hkeep.bind fun _ => Upholds.test hreq ?_ ?_
  · refine Upholds.get.bind fun c₀ => Upholds.ite (fun _ => ?_) fun _ => ?_
    · exact fun _ => Provided.of rfl fun hc => hc.2.elim
    · exact Upholds.pure fun _ hc => hc.2.elim
  · exact Upholds.pure fun c hc => ⟨rfl, Or.inr hc⟩

/-! ## To a directory and back -/

/-- What is asked of the invariants of `ftp_dir`: `D` holds in the directory and `JD` where
the connection is lost there; `R` is what was kept as the directory before. `X` is what the
record shows once the directory is listed, and `W` holds in any case. -/
structure Dirs (net : Net S) (ok : NetEvent S → Prop) (I J W : Session S → Prop)
    (D JD : Str → Session S → Prop) (X : List (NetEvent S) → Prop) (dir : Str) : Prop where
  kept : ∀ R, Kept net ok (D R) (JD R)
  forgets : ∀ R, Forgets (D R)
  named : ∀ σ, I σ → σ.remoteDir ≠ none
  line : ∀ R σ, D R σ → '\n' ∉ R
  down : ∀ R σ r, I σ → σ.remoteDir = some R →
    (net.server.answer σ.server (cwd dir)).1 = ⟨[r], []⟩ → r.code = 250 →
    D R ((σ.toDir dir).after net (cwd dir))
  downRefused : ∀ σ r, ok (.wentDown false JFTP_ERR) → I σ →
    (net.server.answer σ.server (cwd dir)).1 = ⟨[r], []⟩ → r.code ≠ 250 →
    I ((σ.toDir dir).after net (cwd dir))
  downCut : ∀ R σ, I σ → σ.remoteDir = some R →
    JD R (σ.toDir dir) ∧ JD R ((σ.toDir dir).after net (cwd dir))
  downLost : ∀ R resp σ, Lost resp → ok (.wentDown false resp) → JD R σ → J σ
  list : ∀ R, Lists net (D R) (fun _ τ => D R τ ∧ X τ.log) (listCmd ['-', 'l', 'a', 'g'] [])
  more : ∀ e l, X l → X (e :: l)
  back : ∀ R σ r, D R σ →
    (net.server.answer σ.server (cwd (R.take (net.pathMax - 1)))).1 = ⟨[r], []⟩ →
    r.code = 250 →
    I ((σ.toDir (R.take (net.pathMax - 1))).after net (cwd (R.take (net.pathMax - 1))))
  backRefused : ∀ R σ r, ok (.wentBack false JFTP_ERR true) → D R σ →
    (net.server.answer σ.server (cwd (R.take (net.pathMax - 1)))).1 = ⟨[r], []⟩ → r.code ≠ 250 →
    I ((σ.toDir (R.take (net.pathMax - 1))).after net (cwd (R.take (net.pathMax - 1))))
  backCut : ∀ R σ, D R σ → J (σ.toDir (R.take (net.pathMax - 1))) ∧
    J ((σ.toDir (R.take (net.pathMax - 1))).after net (cwd (R.take (net.pathMax - 1))))
  backLost : ∀ R σ, JD R σ → J (σ.toDir (R.take (net.pathMax - 1)))
  quietW : Quiet W
  lost : ∀ σ, J σ → W σ
  lostThere : ∀ R σ, JD R σ → W σ

/-- What a call of `ftp_dir` leaves behind where it fails: `ftp_resp` is none of the classes
on which the caller goes on, or the connection is as it was, or it has been lost. -/
def Failed (I J W : Session S → Prop) (c : Conn S) : Prop :=
  (c.ftpResp = JFTP_ERRNO ∧ W c.session) ∨ Safe I J c

variable {W : Session S → Prop} {D JD : Str → Session S → Prop} {X : List (NetEvent S) → Prop}

/-- Down into the directory to be listed: in it, or the call has failed. -/
theorem goDown_upholds (h : Kept net ok I J) (hd : Dirs net ok I J W D JD X dir)
    (hdir : '\n' ∉ dir) {R : Str} :
    Upholds Conn.log ok (fun _ => False) (Ready fun σ => I σ ∧ σ.remoteDir = some R)
      (goDown net dir)
      fun b c' => (b = true ∧ Ready (D R) c') ∨ (b = false ∧ Failed I J W c') := by
  have hcd := ftpCd_ready (I := fun σ => I σ ∧ σ.remoteDir = some R)
    (A := D R) (B := fun τ => ∃ σ r, I σ ∧ (net.server.answer σ.server (cwd dir)).1 = ⟨[r], []⟩ ∧
      r.code ≠ 250 ∧ τ = (σ.toDir dir).after net (cwd dir))
    (fun σ e he hσ => ⟨h.quiet σ e he hσ.1, hσ.2⟩) (hd.kept R) (fun _ _ => hdir)
    (fun σ hσ => hd.downCut R σ hσ.1 hσ.2) (fun σ r hσ => hd.down R σ r hσ.1 hσ.2)
    fun σ r hσ hr hcode => ⟨σ, r, hσ.1, hr, hcode, rfl⟩
  refine hcd.bind fun b => Upholds.get.bind fun c₀ => fun c => ?_
  refine Provided.event rfl fun hok hc => ?_
  obtain ⟨rfl, hc⟩ := hc
  rcases hc with ⟨hb, hready⟩ | ⟨rfl, ⟨hresp, hready⟩ | ⟨hresp, hready⟩ | hcut⟩
  · exact Or.inl
      ⟨hb, hready.com, hready.input, hready.sent, (hd.kept R).quiet _
        (.wentDown _ _) trivial hready.keep⟩
  · refine Or.inr ⟨rfl, Or.inl ⟨hresp, hd.quietW c₀.session (.wentDown _ _) trivial ?_⟩⟩
    exact hd.lost _ (h.cut _ hready.keep.1)
  · obtain ⟨σ, r, hσ, hr, hcode, hτ⟩ := hready.keep
    rw [hresp] at hok
    refine Or.inr ⟨rfl, Or.inr (Or.inl ⟨hready.com, hready.input, hready.sent, ?_⟩)⟩
    refine h.quiet c₀.session (.wentDown _ _) trivial ?_
    rw [hτ]
    exact hd.downRefused σ r hok hσ hr hcode
  · refine Or.inr ⟨rfl, Or.inr (Or.inr ⟨hcut.com, hcut.input, hcut.sent, ?_, hcut.resp⟩)⟩
    exact h.quietJ c₀.session (.wentDown _ _) trivial (hd.downLost R _ _ hcut.resp hok hcut.keep)

/-- Back to the directory that is kept, whatever the listing has recorded. -/
theorem goBack_upholds (h : Kept net ok I J) (hd : Dirs net ok I J W D JD X dir) {R : Str}
    {Y : List (NetEvent S) → Prop} (hY : ∀ e l, Y l → Y (e :: l)) :
    Upholds Conn.log ok (fun _ => False) (Ready fun σ => D R σ ∧ Y σ.log)
      (goBack net (R.take (net.pathMax - 1)))
      fun b c' => (b = true ∧ Ready (fun τ => I τ ∧ Y τ.log) c') ∨
      (b = false ∧ Failed I J W c') := by
  have hcd := ftpCd_ready (I := fun σ => D R σ ∧ Y σ.log) (A := fun τ => I τ ∧ Y τ.log)
    (B := fun τ => ∃ σ r, D R σ ∧
      (net.server.answer σ.server (cwd (R.take (net.pathMax - 1)))).1 = ⟨[r], []⟩ ∧ r.code ≠ 250 ∧
      τ = (σ.toDir (R.take (net.pathMax - 1))).after net (cwd (R.take (net.pathMax - 1))))
    (fun σ e he hσ => ⟨(hd.kept R).quiet σ e he hσ.1, hY e _ hσ.2⟩) h
    (fun σ hσ hmem => hd.line R σ hσ.1 (List.mem_of_mem_take hmem))
    (fun σ hσ => hd.backCut R σ hσ.1)
    (fun σ r hσ hr hcode => ⟨hd.back R σ r hσ.1 hr hcode, hY _ _ hσ.2⟩)
    fun σ r hσ hr hcode => ⟨σ, r, hσ.1, hr, hcode, rfl⟩
  refine hcd.bind fun b => Upholds.get.bind fun c₀ => fun c => ?_
  refine Provided.event rfl fun hok hc => ?_
  obtain ⟨rfl, hc⟩ := hc
  rcases hc with ⟨hb, hready⟩ | ⟨rfl, ⟨hresp, hready⟩ | ⟨hresp, hready⟩ | hcut⟩
  · refine Or.inl ⟨hb, hready.com, hready.input, hready.sent, ?_, hY _ _ hready.keep.2⟩
    exact h.quiet _ (.wentBack _ _ _) trivial hready.keep.1
  · refine Or.inr ⟨rfl, Or.inl ⟨hresp, hd.quietW c₀.session (.wentBack _ _ _) trivial ?_⟩⟩
    exact hd.lostThere R _ ((hd.kept R).cut _ hready.keep.1)
  · obtain ⟨σ, r, hσ, hr, hcode, hτ⟩ := hready.keep
    have hkept : decide (c₀.ftpCom ≠ none) = true := decide_eq_true hready.com
    rw [hresp, hkept] at hok
    refine Or.inr ⟨rfl, Or.inr (Or.inl ⟨hready.com, hready.input, hready.sent, ?_⟩)⟩
    refine h.quiet c₀.session (.wentBack _ _ _) trivial ?_
    rw [hτ]
    exact hd.backRefused R σ r hok hσ hr hcode
  · refine Or.inr ⟨rfl, Or.inr (Or.inr ⟨hcut.com, hcut.input, hcut.sent, ?_, hcut.resp⟩)⟩
    exact h.quietJ c₀.session (.wentBack _ _ _) trivial hcut.keep

/-- The way back on a connection that is lost. -/
theorem goBack_cut (h : Kept net ok I J) (hd : Dirs net ok I J W D JD X dir) {R : Str} :
    Upholds Conn.log ok (fun _ => False) (Cut (JD R)) (goBack net (R.take (net.pathMax - 1)))
      fun b c' => b = false ∧ Failed I J W c' := by
  refine (ftpCd_cut (hd.kept R).quietJ (hd.backLost R)).bind fun b =>
    Upholds.get.bind fun c₀ => fun c => ?_
  refine Provided.event rfl fun hok hc => ?_
  obtain ⟨rfl, rfl, ⟨hresp, hkeep⟩ | hcut⟩ := hc
  · refine ⟨rfl, Or.inl ⟨hresp, hd.quietW c₀.session (.wentBack _ _ _) trivial ?_⟩⟩
    exact hd.lostThere R _ hkeep
  · refine ⟨rfl, Or.inr (Or.inr ⟨hcut.com, hcut.input, hcut.sent, ?_, hcut.resp⟩)⟩
    exact h.quietJ c₀.session (.wentBack _ _ _) trivial hcut.keep

/-- `ftp_dir`. -/
theorem ftpDir_upholds (h : Kept net ok I J) (hline : OneLine net) (ho : Orderly ok)
    (hlost : ¬ok .listDataLost) (hd : Dirs net ok I J W D JD X dir) (hdir : '\n' ∉ dir) :
    Upholds Conn.log ok (fun _ => False) (Ready I) (ftpDir net dir)
      (Listed (Ready fun τ => I τ ∧ X τ.log) (Failed I J W)) := by
  refine Upholds.get.bind fun c₀ => ?_
  cases hremote : c₀.ftpRemoteDir with
  | none =>
    refine Upholds.throw fun c hc => ?_
    obtain ⟨rfl, hready⟩ := hc
    exact hd.named _ hready.keep hremote
  | some R =>
    have hfrom : ∀ c, c₀ = c ∧ Ready I c → Ready (fun σ => I σ ∧ σ.remoteDir = some R) c := by
      rintro c ⟨rfl, hready⟩
      exact ⟨hready.com, hready.input, hready.sent, hready.keep, hremote⟩
    refine Upholds.pre (Upholds.test (goDown_upholds h hd hdir) ?_ ?_) hfrom
    swap
    · exact Upholds.pure fun c hc => Or.inr ⟨rfl, hc⟩
    refine (ftpDir2_upholds (hd.kept R) (hd.forgets R) hline ho hlost (by decide)
      (by decide) (hd.list R)
      (fun σ e he hσ => ⟨(hd.kept R).quiet σ e he hσ.1, hd.more e _ hσ.2⟩) fun r τ hτ =>
      hτ).bind fun res => ?_
    cases res with
    | some listing =>
      refine Upholds.pre (Upholds.test (goBack_upholds h hd hd.more) ?_ ?_) fun c hc =>
        hc.elim And.right fun h' => nomatch h'.1
      · exact Upholds.pure fun c hc => Or.inl ⟨rfl, hc⟩
      · exact Upholds.pure fun c hc => Or.inr ⟨rfl, hc⟩
    | none =>
      have hback : Upholds Conn.log ok (fun _ => False) (Safe (D R) (JD R))
          (goBack net (R.take (net.pathMax - 1)))
          fun b c' => (b = true ∧ Ready I c') ∨ (b = false ∧ Failed I J W c') := by
        refine Upholds.or ?_ ((goBack_cut h hd).post fun b c' hc' => Or.inr hc')
        refine Upholds.post
          (Upholds.pre (goBack_upholds h hd (Y := fun _ => True) fun _ _ _ => trivial)
          fun c hc => ⟨hc.com, hc.input, hc.sent, hc.keep, trivial⟩) fun b c' hc' => ?_
        exact hc'.imp (fun hc' => ⟨hc'.1, hc'.2.com, hc'.2.input, hc'.2.sent, hc'.2.keep.1⟩) id
      refine Upholds.pre (Upholds.test hback ?_ ?_) fun c hc =>
        hc.elim (fun h' => nomatch h'.1) And.right
      · exact Upholds.pure fun c hc => Or.inr ⟨rfl, Or.inr (Or.inl hc)⟩
      · exact Upholds.pure fun c hc => Or.inr ⟨rfl, hc⟩

/-! ## A new connection -/

/-- What is asked of the invariants of `ftp_relogin`: `L` holds from the greeting on. -/
structure Logins (net : Net S) (ok : NetEvent S → Prop) (I J L : Session S → Prop) : Prop where
  kept : Kept net ok L J
  greet : ∀ σ, J σ → L { σ with server := (net.server.greeting σ.server).2 }
  stay : ∀ σ, L σ → (∀ dir, σ.remoteDir = some dir → strcmp dir ['/'] = 0) → I σ
  line : ∀ σ dir, L σ → σ.remoteDir = some dir → '\n' ∉ dir
  back : ∀ σ dir r, L σ → σ.remoteDir = some dir →
    (net.server.answer σ.server (cwd dir)).1 = ⟨[r], []⟩ → r.code = 250 →
    I ((σ.toDir dir).after net (cwd dir))
  refused : ∀ σ dir, L σ → σ.remoteDir = some dir → J (σ.toDir dir) ∧
    J ((σ.toDir dir).after net (cwd dir))

variable {L : Session S → Prop}

/-- What `ftp_relogin` leaves behind. -/
def LoggedIn (I J : Session S → Prop) (b : Bool) (c : Conn S) : Prop :=
  (b = true ∧ Ready I c) ∨ (b = false ∧ J c.session)

/-- A login that fails leaves the invariant of a lost connection. -/
theorem loginFailed_upholds :
    Upholds Conn.log ok (fun _ => False) (fun c => J c.session) loginFailed
      (LoggedIn I J) := fun _ =>
  Provided.of rfl fun hc => Or.inr ⟨rfl, hc⟩

/-- A step of the login: it goes on where the reply is the right one. -/
theorem loginStep_upholds (hL : ∀ σ, L σ → J σ) {x : Ftp S Bool} {bad : Conn S → Prop}
    [DecidablePred bad] {rest : Conn S → Ftp S Bool}
    (hx : Upholds Conn.log ok (fun _ => False) (Ready L) x fun b c' =>
      (b = true ∧ Ready L c') ∨ (b = false ∧ Cut J c'))
    (hrest : ∀ c₀, Upholds Conn.log ok (fun _ => False) (fun c => c₀ = c ∧ Ready L c) (rest c₀)
      (LoggedIn I J)) :
    Upholds Conn.log ok (fun _ => False) (Ready L)
      (do let b ← x; let c ← get; if ¬b ∨ bad c then loginFailed else rest c) (LoggedIn I J) := by
  refine Upholds.branch hx ?_ ?_
  · refine Upholds.get.bind fun c₀ => Upholds.ite (fun _ => ?_) fun _ => hrest c₀
    exact loginFailed_upholds.pre fun c hc => hL _ hc.2.keep
  · refine Upholds.get.bind fun c₀ => ?_
    rw [if_pos (Or.inl (by decide))]
    exact loginFailed_upholds.pre fun c hc => hc.2.keep

/-- The first reply of the server has not been read, and another one may follow it. -/
def Greeted (L : Session S → Prop) (c : Conn S) : Prop :=
  Waiting (fun _ => L) c ∨
  (c.ftpCom ≠ none ∧ c.sent = [] ∧ L c.session ∧
    ∃ (p : Reply) (rest : Str), p.code = 120 ∧ p.Fits JFTP_BUF ∧ c.input = p.bytes ++ rest)

/-- The greeting is read; behind a reply 120 comes another one. -/
theorem ftpResponse_greeted (h : Kept net ok L J) :
    Upholds Conn.log ok (fun _ => False) (Greeted L) (ftpResponse net) fun b c' =>
      (b = true ∧ (Ready L c' ∨ (c'.ftpResp = 120 ∧ J c'.session))) ∨ (b = false ∧ Cut J c') := by
  refine Upholds.or ?_ ?_
  · refine (ftpResponse_waiting h.quietJ fun _ σ hσ => h.cut σ hσ).post fun b c' hc' => ?_
    rcases hc' with ⟨hb, r, -, hready⟩ | hcut
    · exact Or.inl ⟨hb, Or.inl hready⟩
    · exact Or.inr hcut
  · refine Upholds.of_provided ftpResponse_grows fun c hc => ?_
    obtain ⟨hcom, -, hkeep, p, rest, hcode, hfits, hinput⟩ := hc
    refine ftpResponse_spec _ hcom hinput hfits (fun c' hb => ?_) fun t ht => ?_
    · exact (hb.cut h.quietJ (h.cut _ hkeep)).mono fun h' => Or.inr ⟨rfl, h'⟩
    · refine Provided.of rfl (Or.inl ⟨rfl, Or.inr ⟨?_, h.cut _ hkeep⟩⟩)
      show ((p.code : Nat) : Int) = 120
      rw [hcode]
      rfl

/-- The type of the transfers, and then the directory that is kept. -/
theorem loginType_upholds (hl : Logins net ok I J L) :
    Upholds Conn.log ok (fun _ => False) (Ready L) (loginType net) (LoggedIn I J) := by
  have hset : Upholds Conn.log ok (fun _ => False) (Ready L) (setResp 0 : Ftp S PUnit)
      fun _ => Ready L := fun _ => Provided.of rfl fun hc => ⟨hc.com, hc.input, hc.sent, hc.keep⟩
  refine hset.bind fun _ =>
    loginStep_upholds hl.kept.cut (ftpReq_plain hl.kept (by decide) (by decide))
    fun c₀ => ?_
  cases hremote : c₀.ftpRemoteDir with
  | none =>
    refine Upholds.pure fun c hc => Or.inl ⟨rfl, ?_⟩
    obtain ⟨rfl, hready⟩ := hc
    refine ⟨hready.com, hready.input, hready.sent, hl.stay _ hready.keep fun dir hdir => ?_⟩
    exact absurd (hremote.symm.trans hdir) (by simp)
  | some dir =>
    refine Upholds.ite (fun hne => ?_) fun hroot => ?_
    · refine Upholds.pre
        (Upholds.post (ftpCd_ready (I := fun σ => L σ ∧ σ.remoteDir = some dir) (A := I)
        (B := J) (fun σ e he hσ => ⟨hl.kept.quiet σ e he hσ.1, hσ.2⟩) hl.kept
        (fun σ hσ => hl.line σ dir hσ.1 hσ.2) (fun σ hσ => hl.refused σ dir hσ.1 hσ.2)
        (fun σ r hσ => hl.back σ dir r hσ.1 hσ.2) fun σ r hσ _ _ => (hl.refused σ dir hσ.1 hσ.2).2)
        fun b c' hc' => ?_) fun c hc => ?_
      · rcases hc' with ⟨hb, hready⟩ | ⟨hb, ⟨-, hready⟩ | ⟨-, hready⟩ | hcut⟩
        · exact Or.inl ⟨hb, hready⟩
        · exact Or.inr ⟨hb, hl.kept.cut _ hready.keep.1⟩
        · exact Or.inr ⟨hb, hready.keep⟩
        · exact Or.inr ⟨hb, hcut.keep⟩
      · obtain ⟨rfl, hready⟩ := hc
        exact ⟨hready.com, hready.input, hready.sent, hready.keep, hremote⟩
    · refine Upholds.pure fun c hc => Or.inl ⟨rfl, ?_⟩
      obtain ⟨rfl, hready⟩ := hc
      refine ⟨hready.com, hready.input, hready.sent, hl.stay _ hready.keep fun dir' hdir' => ?_⟩
      obtain rfl : dir = dir' := Option.some.inj (hremote.symm.trans hdir')
      exact not_not.mp hroot

/-- **A login**, from the greeting to the directory that is kept. -/
theorem ftpLogin_upholds (hl : Logins net ok I J L) (hline : OneLine net) :
    Upholds Conn.log ok (fun _ => False) (Greeted L) (ftpLogin net) (LoggedIn I J) := by
  have huser : '\n' ∉ ['u', 's', 'e', 'r', ' '] ++ net.ftpUserName := by
    rw [List.mem_append, not_or]
    exact ⟨by decide, hline.ftpUserName⟩
  have hpass : '\n' ∉ ['p', 'a', 's', 's', ' '] ++ net.ftpPassword := by
    rw [List.mem_append, not_or]
    exact ⟨by decide, hline.ftpPassword⟩
  have hplain : ∀ w rest : Str, ' ' ∉ w → Plain w → Plain (w ++ ' ' :: rest) := fun w rest hw hp =>
    plain_append hw hp rest
  refine Upholds.branch (ftpResponse_greeted hl.kept) ?_ ?_
  swap
  · refine Upholds.get.bind fun c₀ => ?_
    rw [if_pos (Or.inl (by decide))]
    exact loginFailed_upholds.pre fun c hc => hc.2.keep
  refine Upholds.get.bind fun c₀ => Upholds.ite (fun _ => ?_) fun hgreet => ?_
  · refine loginFailed_upholds.pre fun c hc => ?_
    exact hc.2.elim (fun hready => hl.kept.cut _ hready.keep) And.right
  refine Upholds.pre (loginStep_upholds hl.kept.cut
    (ftpReq_plain hl.kept huser (hplain ['u', 's', 'e', 'r'] _ (by decide) (by decide))) fun c₁ =>
    ?_) fun c hc => ?_
  swap
  · obtain ⟨rfl, hready | ⟨hresp, -⟩⟩ := hc
    · exact hready
    · rw [hresp] at hgreet
      exact absurd (Or.inr (by decide)) hgreet
  refine Upholds.ite (fun _ => ?_) fun _ => ?_
  · refine (loginStep_upholds hl.kept.cut (ftpReq_plain hl.kept hpass
      (hplain ['p', 'a', 's', 's'] _ (by decide) (by decide))) fun c₂ => ?_).pre fun c hc => hc.2
    exact (loginType_upholds hl).pre fun c hc => hc.2
  · refine (loginStep_upholds hl.kept.cut (Upholds.pure fun c hc => Or.inl ⟨rfl, hc⟩)
      fun c₂ => ?_).pre
      fun c hc => hc.2
    exact (loginType_upholds hl).pre fun c hc => hc.2

/-- `ftp_relogin`. -/
theorem ftpRelogin_upholds (hl : Logins net ok I J L) (hline : OneLine net) :
    Upholds Conn.log ok (fun _ => False) (fun c => J c.session) (ftpRelogin net)
      (LoggedIn I J) := by
  have hquiet := hl.kept.quietJ
  have hsucceeds : ∀ k, Upholds Conn.log ok (fun _ => False) (fun c => J c.session) (succeeds net k)
      fun b c' => (b = true ∧ J c'.session) ∨ (b = false ∧ J c'.session) := by
    intro k c
    refine wp_succeeds (fun t => Provided.of rfl fun hc => Or.inl ⟨rfl, hc⟩) fun t r _ => ?_
    exact Provided.event rfl fun _ hc => Or.inr ⟨rfl, hquiet c.session (.lost k r) trivial hc⟩
  have hclose : ∀ f : Conn S → Conn S, (∀ c, (f c).session = c.session) →
      Upholds Conn.log ok (fun _ => False) (fun c => J c.session) (modify f : Ftp S PUnit)
        fun _ c' => J c'.session := fun f hf c =>
    Provided.of (congrArg Session.log (hf c)) fun hc => (congrArg J (hf c)).mpr hc
  have hfd : Upholds Conn.log ok (fun _ => False) (fun c => J c.session) (newFd : Ftp S Nat)
      fun _ c' => J c'.session := fun _ => Provided.of rfl fun hc => hc
  have hconnected : ∀ fd : Nat, Upholds Conn.log ok (fun _ => False) (fun c => J c.session)
      (modify fun c => c.connected net fd : Ftp S PUnit) fun _ => Greeted L := by
    intro fd c
    refine Provided.event rfl fun hok hc => ?_
    have hkeep : L ({ c.session with server := (net.server.greeting c.server).2 }.logged
        (.greeted (net.server.greeting c.server).1)) :=
      hl.kept.quiet _ _ trivial (hl.greet c.session hc)
    have hfits := hl.kept.greeting _ hok
    obtain ⟨r, -, hr | ⟨p, hcode, hr⟩⟩ := hl.kept.rfc.greeting c.server
    · refine Or.inl ⟨by simp [Conn.connected], rfl, r, hfits r (by rw [hr]; simp), ?_, hkeep⟩
      show (net.server.greeting c.server).1.flatMap Reply.bytes = _
      rw [hr]
      simp
    · refine Or.inr
        ⟨by simp [Conn.connected], rfl, hkeep, p, r.bytes, hcode, hfits p (by rw [hr]; simp), ?_⟩
      show (net.server.greeting c.server).1.flatMap Reply.bytes = _
      rw [hr]
      simp
  refine Upholds.bind (hclose Conn.closeCom fun _ => rfl) fun _ =>
    Upholds.bind (hclose Conn.closeListen fun _ => rfl) fun _ =>
    Upholds.bind (hclose Conn.closeData fun _ => rfl) fun _ =>
      Upholds.test (hsucceeds .socket) ?_ ?_
  · refine hfd.bind fun fd => Upholds.bind (hclose _ ?_) fun _ =>
      Upholds.test (hsucceeds .gethostbyname) ?_ loginFailed_upholds
    · exact fun _ => rfl
    refine Upholds.test (hsucceeds .connect) ?_ loginFailed_upholds
    exact (hconnected fd).bind fun _ => ftpLogin_upholds hl hline
  · exact fun _ => Provided.of rfl fun hc => Or.inr ⟨rfl, hc⟩

end Spegla.Jftp
