import Spegla.Jftp.FileClose

/-!
# The descriptors of the data connection

- `Balanced`: since a state, every descriptor of a data connection that has been given out is open
  in one of the two fields or has been closed once.
- `Closable`, `Account`: what an invariant has to survive for the functions of a transfer to keep
  it.
- `ftpReadData_fds`: only a failing `select` leaves a descriptor behind.
- `transfers_close`: `ftp_get` closes all descriptors of its data connection, and `ftp_dir2` does
  exactly if no `select` fails.
-/

namespace Spegla.Jftp

open CString FtpReply ExitState

variable {S α : Type} {net : Net S} {P : Conn S → Prop}

/-! ## What concerns the descriptors -/

/-- A `select` that fails. -/
def NetEvent.isSelectFail : NetEvent S → Bool
  | .lost .select .fail => true
  | _ => false

/-- How often `select` has failed. -/
def Conn.selectFails (c : Conn S) : Nat := c.log.countP NetEvent.isSelectFail

/-- The descriptors are the same, and no `select` has failed. -/
structure SameFds (c c' : Conn S) : Prop where
  com : c'.ftpCom = c.ftpCom
  listen : c'.ftpListen = c.ftpListen
  data : c'.ftpData = c.ftpData
  fds : c'.fds = c.fds
  closed : c'.closed = c.closed
  selects : c'.selectFails = c.selectFails

theorem SameFds.trans {c c' c'' : Conn S} (h : SameFds c c') (h' : SameFds c' c'') :
    SameFds c c'' :=
  ⟨h'.com.trans h.com, h'.listen.trans h.listen, h'.data.trans h.data, h'.fds.trans h.fds,
    h'.closed.trans h.closed, h'.selects.trans h.selects⟩

/-- An invariant about the descriptors that survives their closing. -/
structure Closable (P : Conn S → Prop) : Prop where
  same : ∀ {c c'}, P c → SameFds c c' → P c'
  closeCom : ∀ {c}, P c → P c.closeCom
  closeListen : ∀ {c}, P c → P c.closeListen
  closeData : ∀ {c}, P c → P c.closeData
  one : ∀ {c}, P c → c.ftpData = none ∨ c.ftpListen = none

/-- There is no data connection. -/
def NoData (P : Conn S → Prop) (c : Conn S) : Prop := P c ∧ c.ftpData = none ∧ c.ftpListen = none

/-- An invariant that also survives a new data connection. -/
structure Account (P : Conn S → Prop) : Prop extends Closable P where
  openListen :
    ∀ {c}, NoData P c → P { c with fds := c.fds + 1, ftpListen := some c.fds, data := [] }
  openData : ∀ {c : Conn S} (d : Str), NoData P c →
    P { c with fds := c.fds + 1, ftpData := some c.fds, data := d }

/-- An invariant that does not look at the record. -/
def Unrecorded (P : Conn S → Prop) : Prop := ∀ c log, P c → P { c with log := log }

/-- An invariant with no data connection survives the closing too. -/
theorem Closable.noData (h : Closable P) : Closable (NoData P) where
  same hc hs := ⟨h.same hc.1 hs, hs.data.trans hc.2.1, hs.listen.trans hc.2.2⟩
  closeCom hc := ⟨h.closeCom hc.1, hc.2⟩
  closeListen hc := ⟨h.closeListen hc.1, hc.2.1, rfl⟩
  closeData hc := ⟨h.closeData hc.1, rfl, hc.2.2⟩
  one hc := Or.inl hc.2.1

/-- With both fields closed there is none. -/
theorem Closable.close (h : Closable P) {c : Conn S} (hc : P c) :
    NoData P c.closeListen.closeData := ⟨h.closeData (h.closeListen hc), rfl, rfl⟩

/-! ## The account of the descriptors -/

/-- Closing puts the descriptor, if there is one, among the closed ones. -/
theorem count_fdClose (fd : Option Nat) (closed : List Nat) (n : Nat) :
    (fdClose fd closed).count n = closed.count n + fd.toList.count n := by
  cases fd with
  | none => rfl
  | some k => simp [fdClose, List.count_cons]

/-- One descriptor more. -/
theorem count_given {closed : List Nat} {fds n : Nat}
    (h : closed.count n = if n < fds then 1 else 0) :
    closed.count n + [fds].count n = if n < fds + 1 then 1 else 0 := by
  rw [h]
  by_cases hn : fds = n
  · subst hn
    simp
  · rw [List.count_eq_zero.mpr fun hmem => hn (List.mem_singleton.mp hmem).symm]
    have hiff : n < fds + 1 ↔ n < fds := by omega
    rw [Nat.add_zero]
    exact if_congr hiff.symm rfl rfl

/-- Since the state `c₀`, each descriptor that was given out is open for the data connection or has
been closed once. -/
structure Balanced (c₀ c : Conn S) : Prop where
  given : c₀.fds ≤ c.fds
  com : ∀ n, c.ftpCom = some n → n < c₀.fds
  one : c.ftpData = none ∨ c.ftpListen = none
  once : ∀ n, c₀.fds ≤ n →
    c.closed.count n + c.ftpData.toList.count n + c.ftpListen.toList.count n =
      if n < c.fds then 1 else 0

/-- The account survives whatever a transfer does to the descriptors. -/
theorem balanced_account (c₀ : Conn S) : Account (Balanced c₀) where
  same hc hs := by
    constructor
    · rw [hs.fds]
      exact hc.given
    · rw [hs.com]
      exact hc.com
    · rw [hs.data, hs.listen]
      exact hc.one
    · rw [hs.fds, hs.data, hs.listen, hs.closed]
      exact hc.once
  closeCom {c} hc := by
    refine ⟨hc.given, fun n hn => (nomatch hn), hc.one, fun n hn => ?_⟩
    have hcom : c.ftpCom.toList.count n = 0 := by
      cases hk : c.ftpCom with
      | none => rfl
      | some k => simp [Nat.ne_of_lt (Nat.lt_of_lt_of_le (hc.com k hk) hn)]
    show (fdClose c.ftpCom c.closed).count n + _ + _ = _
    rw [count_fdClose, hcom]
    exact hc.once n hn
  closeListen {c} hc := by
    refine ⟨hc.given, hc.com, Or.inr rfl, fun n hn => ?_⟩
    have honce := hc.once n hn
    show (fdClose c.ftpListen c.closed).count n + c.ftpData.toList.count n + 0 =
      if n < c.fds then 1 else 0
    rw [count_fdClose, ← honce]
    omega
  closeData {c} hc := by
    refine ⟨hc.given, hc.com, Or.inl rfl, fun n hn => ?_⟩
    have honce := hc.once n hn
    show (fdClose c.ftpData c.closed).count n + 0 + c.ftpListen.toList.count n =
      if n < c.fds then 1 else 0
    rw [count_fdClose, ← honce]
    omega
  one hc := hc.one
  openListen {c} hc := by
    obtain ⟨hc, hdata, hlisten⟩ := hc
    refine ⟨Nat.le_succ_of_le hc.given, hc.com, Or.inl hdata, fun n hn => ?_⟩
    have honce := hc.once n hn
    rw [hdata, hlisten] at honce
    show c.closed.count n + c.ftpData.toList.count n + [c.fds].count n = _
    rw [hdata]
    exact count_given honce
  openData {c} d hc := by
    obtain ⟨hc, hdata, hlisten⟩ := hc
    refine ⟨Nat.le_succ_of_le hc.given, hc.com, Or.inr hlisten, fun n hn => ?_⟩
    have honce := hc.once n hn
    rw [hdata, hlisten] at honce
    show c.closed.count n + [c.fds].count n + c.ftpListen.toList.count n = _
    rw [hlisten]
    exact count_given honce

/-- The account is none of the record. -/
theorem balanced_unrecorded (c₀ : Conn S) : Unrecorded (Balanced c₀) := fun _ _ hc =>
  ⟨hc.given, hc.com, hc.one, hc.once⟩

/-! ## Requests -/

theorem called_same {c : Conn S} {k : NetCall} {r : Outcome} {n : Nat}
    (h : (NetEvent.lost (S := S) k r).isSelectFail = false) : SameFds c (c.called k n r) := by
  refine ⟨rfl, rfl, rfl, rfl, rfl, ?_⟩
  show (if _ then c.log else _ :: c.log).countP _ = c.log.countP _
  split
  · rfl
  · exact List.countP_cons_of_neg (by rw [h]; decide)

theorem isSelectFail_eq {k : NetCall} (hk : k ≠ .select) (r : Outcome) :
    (NetEvent.lost (S := S) k r).isSelectFail = false := by
  cases k with
  | select => exact absurd rfl hk
  | _ => rfl

/-- A call other than `select` keeps what concerns the descriptors, however it ends. -/
theorem call_keeps (h : Closable P) {k : NetCall} (hk : k ≠ .select) (size : Nat) :
    Keeps P (call net k size) := fun _ hc => h.same hc (called_same (isSelectFail_eq hk _))

/-- So does the test whether such a call has succeeded. -/
theorem succeeds_keeps (h : Closable P) {k : NetCall} (hk : k ≠ .select) :
    Keeps P (succeeds net k) := (call_keeps h hk 0).bind fun _ => Keeps.pure _

/-- An event may depend on the state. -/
theorem logged_keeps (h : Closable P) {e : Conn S → NetEvent S}
    (he : ∀ c, (e c).isSelectFail = false) :
    Keeps P (modify fun c => c.logged (e c) : Ftp S PUnit) :=
  fun c hc =>
  h.same hc ⟨rfl, rfl, rfl, rfl, rfl, List.countP_cons_of_neg (by rw [he]; decide)⟩

/-- Recording an event keeps it, unless the event is a failing `select`. -/
theorem record_keeps (h : Closable P) {e : NetEvent S} (he : e.isSelectFail = false) :
    Keeps P (recordNet e) := logged_keeps h fun _ => he

/-- Closing the local file is none of the descriptors. -/
theorem fcloseFile_keeps (h : Closable P) : Keeps P (fcloseFile net) := logged_keeps h fun _ => rfl

theorem setResp_keeps (h : Closable P) (resp : Int) : Keeps P (setResp resp) := fun _ hc =>
  h.same hc ⟨rfl, rfl, rfl, rfl, rfl, rfl⟩

/-- `setResp` and a result. -/
theorem failWith_keeps (h : Closable P) (resp : Int) (a : α) :
    Keeps P (do setResp resp; return a) := (setResp_keeps h resp).bind fun _ => Keeps.pure _

/-- Reading the control connection keeps it. -/
theorem ftpReadCom_keeps (h : Closable P) : Keeps P (ftpReadCom net) := by
  refine Keeps.get.bind fun c₀ => Keeps.ite (fun _ => Keeps.pure _) fun _ => ?_
  refine (call_keeps h (by decide) 0).bind fun r => ?_
  cases r with
  | fail => exact Keeps.pure _
  | timeout => exact Keeps.pure _
  | ok n =>
    intro c hc
    show wp (modifyGet _ : Ftp S _) c _ _
    rw [wp_modifyGet]
    cases c.input with
    | nil => exact record_keeps h (e := .lost .read (.ok n)) rfl c hc
    | cons b rest => exact h.same hc ⟨rfl, rfl, rfl, rfl, rfl, rfl⟩

/-- The end of a read or write that has failed closes the control connection only. -/
theorem ioErr_keeps (h : Closable P) (timedOut : Bool) : Keeps P (ioErr timedOut) := fun _ hc =>
  h.closeData (h.closeListen (h.closeCom (h.same hc ⟨rfl, rfl, rfl, rfl, rfl, rfl⟩)))

/-- The lines of a reply are read one by one. -/
theorem readReply_keeps (h : Closable P) (fuel : Nat) : ∀ line size islongtext,
    Keeps P (readReply net fuel line size islongtext) := by
  induction fuel with
  | zero =>
    intro line size islongtext
    exact Keeps.throw _
  | succ fuel ih =>
    intro line size islongtext
    have hsame : ∀ buf, Keeps P (modify fun c => { c with ftpBuf := buf } : Ftp S PUnit) :=
      fun buf _ hc => h.same hc ⟨rfl, rfl, rfl, rfl, rfl, rfl⟩
    refine (ftpReadCom_keeps h).bind fun r => ?_
    cases r with
    | error timedOut => exact ioErr_keeps h timedOut
    | ok b =>
      refine Keeps.ite (fun _ => ?_) fun _ => Keeps.ite (fun _ => ?_) fun _ => ih _ _ _
      · refine (hsame line).bind fun _ => Keeps.ite (fun _ => failWith_keeps h _ _) fun _ => ?_
        refine Keeps.ite (fun _ => ih [] JFTP_BUF true) fun _ => ?_
        exact Keeps.ite (fun _ => failWith_keeps h _ _) fun _ => failWith_keeps h _ _
      · exact (hsame _).bind fun _ => failWith_keeps h _ _

/-- Reading a reply keeps what concerns the descriptors. -/
theorem ftpResponse_keeps (h : Closable P) : Keeps P (ftpResponse net) :=
  Keeps.get.bind fun _ => readReply_keeps h _ _ _ _

/-- What a server sends leaves the descriptors alone. -/
theorem deliver_sameFds (bytes : Str) : ∀ (c : Conn S), SameFds c (c.deliver net bytes) := by
  induction bytes with
  | nil =>
    intro c
    exact ⟨rfl, rfl, rfl, rfl, rfl, rfl⟩
  | cons b bytes ih =>
    intro c
    rw [Conn.deliver]
    split
    · have hcmd : SameFds c (c.execute net) :=
        ⟨rfl, rfl, rfl, rfl, rfl, List.countP_cons_of_neg Bool.false_ne_true⟩
      exact hcmd.trans (ih _)
    · have hsent : SameFds c { c with sent := c.sent ++ [b] } := ⟨rfl, rfl, rfl, rfl, rfl, rfl⟩
      exact hsent.trans (ih _)

/-- A command and its reply keep what concerns the descriptors. -/
theorem ftpReq_keeps (h : Closable P) (cmd : Str) : Keeps P (ftpReq net cmd) := by
  have hsame : ∀ buf, Keeps P (modify fun c => { c with ftpBuf := buf } : Ftp S PUnit) :=
    fun buf _ hc => h.same hc ⟨rfl, rfl, rfl, rfl, rfl, rfl⟩
  have hwrite : ∀ bytes, Keeps P (ftpWrite net bytes) := by
    intro bytes
    refine Keeps.get.bind fun c₀ => Keeps.ite (fun _ => Keeps.pure _) fun _ => ?_
    refine (call_keeps h (by decide) _).bind fun r => ?_
    cases r with
    | fail => exact Keeps.pure _
    | timeout => exact Keeps.pure _
    | ok n =>
      refine Keeps.ite (fun _ => Keeps.pure _) fun _ => Keeps.bind ?_ fun _ => Keeps.pure _
      exact fun c hc => h.same hc (deliver_sameFds _ c)
  refine (hsame _).bind fun _ => (hwrite _).bind fun r => ?_
  cases r with
  | error timedOut => exact ioErr_keeps h timedOut
  | ok u => exact ftpResponse_keeps h

/-! ## A new data connection -/

/-- A test that keeps an invariant. -/
theorem keeps_test {k : NetCall} {x y : Ftp S α} {Q : α → Conn S → Prop} (h : Closable P)
    (hk : k ≠ .select) (hx : Leads P x Q) (hy : Leads P y Q) :
    Leads P (do if ← succeeds net k then x else y) Q :=
  (Leads.of_keeps (succeeds_keeps h hk)).bind fun _ => Leads.ite (fun _ => hx) fun _ => hy

/-- Closing the listening socket keeps it. -/
theorem closeListen_keeps (h : Closable P) : Keeps P (closeListen : Ftp S PUnit) := fun _ hc =>
  h.closeListen hc

/-- Closing the data connection keeps it. -/
theorem closeData_keeps (h : Closable P) : Keeps P (closeData : Ftp S PUnit) := fun _ hc =>
  h.closeData hc

/-- Closing the control connection keeps it. -/
theorem closeCom_keeps (h : Closable P) : Keeps P (closeCom : Ftp S PUnit) := fun _ hc =>
  h.closeCom hc

/-- In active mode a new descriptor is given out, and listened on. -/
theorem portActive_leads (h : Account P) : Leads (NoData P) (portActive net) fun _ => P := by
  have hn := h.noData
  have hbroken : Keeps P (portBroken : Ftp S Bool) :=
    (closeListen_keeps h.toClosable).bind fun _ => (closeCom_keeps h.toClosable).bind fun _ =>
      failWith_keeps h.toClosable _ _
  have hlisten : Leads (NoData P) (listenSocket net) fun _ => P := by
    refine (Leads.of_keeps (closeListen_keeps hn)).bind fun _ => keeps_test hn (by decide) ?_ ?_
    · exact fun c hc => h.openListen hc
    · exact Leads.pure fun c hc => hc.1
  have hport : Keeps P (do
      let c ← get
      if ← succeeds net .getsockname then
        if ← succeeds net .listen then
          let ok ← ftpReq net (['P', 'O', 'R', 'T', ' '] ++ net.hostPort c.tick)
          let c ← get
          if ok ∧ c.ftpResp = 200 then return true
          else
            if ok then setResp JFTP_ERR
            closeListen
            return false
        else portBroken
      else portBroken) := by
    have hc := h.toClosable
    refine Keeps.get.bind fun _ => (succeeds_keeps hc (by decide)).bind fun _ =>
      Keeps.ite (fun _ => ?_) fun _ => hbroken
    refine (succeeds_keeps hc (by decide)).bind fun _ => Keeps.ite (fun _ => ?_) fun _ => hbroken
    refine (ftpReq_keeps hc _).bind fun ok => Keeps.get.bind fun _ =>
      Keeps.ite (fun _ => Keeps.pure _) fun _ => ?_
    have hclose : Keeps P (do closeListen; return false : Ftp S Bool) :=
      (closeListen_keeps hc).bind fun _ => Keeps.pure _
    exact Keeps.ite (fun _ => (setResp_keeps hc _).bind fun _ => hclose) fun _ => hclose
  refine hlisten.bind fun _ => Leads.ite (fun _ => ?_) fun _ => ?_
  · exact keeps_test h.toClosable (by decide) (Leads.of_keeps hport) (Leads.of_keeps hbroken)
  · exact Leads.of_keeps (failWith_keeps h.toClosable _ _)

/-- In passive mode a new descriptor is given out, and connected. -/
theorem portPassive_leads (h : Account P) : Leads (NoData P) (portPassive net) fun _ => P := by
  have hn := h.noData
  have hfail : ∀ resp, Leads (NoData P) (do setResp resp; return false : Ftp S Bool) fun _ => P :=
    fun resp => (Leads.of_keeps (failWith_keeps hn resp false)).post fun _ _ hc => hc.1
  have hconnect : Leads (NoData P) (portConnect net) fun _ => P := by
    have hc := h.toClosable
    refine (Leads.of_keeps (closeData_keeps hn)).bind fun _ =>
      keeps_test hn (by decide) ?_ (hfail _)
    refine Leads.bind (Q := fun fd c => ∃ c₀, NoData P c₀ ∧ c = { c₀ with fds := c₀.fds + 1 } ∧
      fd = c₀.fds) (fun c hc => ⟨c, hc, rfl, rfl⟩) fun fd => ?_
    refine Leads.bind (Q := fun _ => P) ?_ fun _ => keeps_test hc (by decide) ?_ ?_
    · rintro c ⟨c₀, hc₀, rfl, rfl⟩
      exact h.openData [] hc₀
    · exact Leads.pure fun _ hc => hc
    · exact Leads.of_keeps ((closeData_keeps hc).bind fun _ => failWith_keeps hc _ _)
  refine (Leads.of_keeps (ftpReq_keeps hn _)).bind fun ok => Leads.get.bind fun c₀ => ?_
  refine Leads.pre (P := NoData P) ?_ fun _ hc => hc.2
  refine Leads.ite (fun _ => Leads.ite (fun _ => hconnect) fun _ => hfail _) fun _ => ?_
  exact Leads.ite (fun _ => hfail _) fun _ => Leads.pure fun _ hc => hc.1

/-- `ftp_port`, without a data connection before. -/
theorem ftpPort_leads (h : Account P) : Leads (NoData P) (ftpPort net) fun _ => P := by
  have hn := h.noData
  refine Leads.get.bind fun c₀ => Leads.pre (P := NoData P) ?_ fun _ hc => hc.2
  refine (Leads.of_keeps (succeeds_keeps hn (by decide))).bind fun ok =>
    Leads.ite (fun _ => Leads.ite (fun _ => ?_) fun _ => ?_) fun _ => ?_
  · exact portPassive_leads h
  · exact portActive_leads h
  · refine Leads.post (Q := fun _ => NoData P) (Leads.of_keeps ?_) fun _ _ hc => hc.1
    exact (closeCom_keeps hn).bind fun _ => failWith_keeps hn _ _

/-! ## The data -/

/-- What a call of `ftp_read_data` leaves: a data connection; no data connection; or, where `select`
has failed, one that is still being waited for. -/
inductive DataLeft (P : Conn S → Prop) (c : Conn S) : Bool → Conn S → Prop where
  | read (c' : Conn S) : P c' → c'.ftpData ≠ none → DataLeft P c true c'
  | lost (c' : Conn S) : NoData P c' → DataLeft P c false c'
  | waiting (c' : Conn S) : c.ftpData = none → c'.ftpListen ≠ none →
      SameFds c { c' with log := c.log } → c'.selectFails = c.selectFails + 1 →
        DataLeft P c false c'

theorem setResp_noData (h : Closable P) {c : Conn S} (resp : Int) (hc : NoData P c) :
    NoData P { c with ftpResp := resp } := h.noData.same hc ⟨rfl, rfl, rfl, rfl, rfl, rfl⟩

/-- A read of the data connection that fails has closed it. -/
theorem readChunk_fds (h : Closable P) (size : Nat) {c : Conn S} (hc : P c)
    (hlisten : c.ftpListen = none) {E : Exit → Conn S → Prop} :
    wp (readChunk net size) c (fun b c' =>
      b = true ∧ P c' ∧ c'.ftpData ≠ none ∨ b = false ∧ NoData P c') E := by
  rw [readChunk, wp_bind, wp_get]
  by_cases hdata : c.ftpData = none
  · rw [if_pos hdata]
    exact Or.inr ⟨rfl, setResp_noData h _ ⟨hc, hdata, hlisten⟩⟩
  · rw [if_neg hdata, call, wp_bind, wp_modifyGet]
    have hlost : ∀ r, P (c.called .readData 0 r) := fun r => h.same hc (called_same rfl)
    cases net.outcome c.tick .readData with
    | ok n => exact Or.inl ⟨rfl, h.same (hlost (.ok n)) ⟨rfl, rfl, rfl, rfl, rfl, rfl⟩, hdata⟩
    | fail =>
      refine Or.inr ⟨rfl, setResp_noData h _ ?_⟩
      exact ⟨h.closeData (hlost .fail), rfl, hlisten⟩
    | timeout =>
      refine Or.inr ⟨rfl, setResp_noData h _ ?_⟩
      exact ⟨h.closeData (hlost .timeout), rfl, hlisten⟩

/-- Only a failing `select` leaves a descriptor behind. -/
theorem ftpReadData_fds (h : Account P) (size : Nat) {c : Conn S} (hc : P c)
    {E : Exit → Conn S → Prop} : wp (ftpReadData net size) c (DataLeft P c) E := by
  have hchunk : ∀ c₁ : Conn S, P c₁ → c₁.ftpListen = none →
      wp (readChunk net size) c₁ (DataLeft P c) E := by
    intro c₁ h₁ hlisten
    refine wp_mono (readChunk_fds h.toClosable size h₁ hlisten) (fun b c' h' => ?_)
      fun _ _ h' => h'
    obtain ⟨rfl, h', hdata⟩ | ⟨rfl, h'⟩ := h'
    · exact .read c' h' hdata
    · exact .lost c' h'
  rw [ftpReadData, wp_bind, wp_get]
  split
  case isFalse hno =>
    refine hchunk c hc ?_
    obtain hdata | hlisten := h.one hc
    · exact not_not.mp fun hlisten => hno ⟨hdata, hlisten⟩
    · exact hlisten
  case isTrue hwait =>
    rw [call, wp_bind, wp_modifyGet]
    cases net.outcome c.tick .select with
    | fail =>
      exact .waiting _ hwait.1 hwait.2 ⟨rfl, rfl, rfl, rfl, rfl, rfl⟩ (List.countP_cons_of_pos rfl)
    | timeout =>
      refine .lost _ (setResp_noData h.toClosable _ ?_)
      exact ⟨h.closeListen (h.same hc (called_same rfl)), hwait.1, rfl⟩
    | ok n =>
      have hc₁ : P (c.called .select 0 (.ok n)) := h.same hc (called_same rfl)
      refine (wp_bind _ _).mpr (wp_succeeds_iff.mpr ?_)
      rw [wp_bind]
      have hc₂ := h.closeListen (h.same hc₁ (called_same (k := .accept)
        (r := net.outcome (c.called .select 0 (.ok n)).tick .accept) (n := 0) rfl))
      have hnone : NoData P _ := ⟨hc₂, hwait.1, rfl⟩
      show wp (if _ then _ else _) _ _ _
      split
      · have hopen := h.openData c.data hnone
        refine (wp_bind _ _).mpr ((wp_modifyGet _).mpr ((wp_bind _ _).mpr ((wp_modify _).mpr
          ((wp_bind _ _).mpr (wp_succeeds_iff.mpr ?_)))))
        have hc₃ := h.same hopen (called_same (k := .setsockopt) (n := 0)
          (r := net.outcome (c.tick + 2) .setsockopt) rfl)
        show wp (if _ then _ else _) _ _ _
        split
        · exact hchunk _ hc₃ rfl
        · refine .lost _ (setResp_noData h.toClosable _ ?_)
          exact ⟨h.closeData hc₃, rfl, rfl⟩
      · exact .lost _ (setResp_noData h.toClosable _ hnone)

/-! ## Transfers -/

/-- A read keeps the account: where `select` fails the descriptor stays open in its field. -/
theorem ftpReadData_keeps (h : Account P) (hlog : Unrecorded P) (size : Nat) :
    Keeps P (ftpReadData net size) := by
  intro c hc
  refine wp_mono (ftpReadData_fds h size hc (E := fun _ => P)) (fun b c' h' => ?_) fun _ _ h' => h'
  cases h' with
  | read _ h' _ => exact h'
  | lost _ h' => exact h'.1
  | waiting _ _ _ hsame _ =>
    have hsaved := h.same hc hsame
    exact hlog { c' with log := c.log } c'.log hsaved

/-- The loop of `ftp_get` keeps the account, read by read. -/
theorem getLoop_keeps (h : Account P) (hlog : Unrecorded P) (fuel : Nat) :
    Keeps P (getLoop net fuel) := by
  have hc := h.toClosable
  induction fuel with
  | zero => exact Keeps.throw _
  | succ fuel ih =>
    refine Keeps.get.bind fun c₀ => Keeps.ite (fun _ => Keeps.pure _) fun _ => ?_
    have hwrite : Keeps P (fwriteChunk net c₀.ftpBuf) :=
      (call_keeps hc (by decide) _).bind fun _ => (logged_keeps hc fun _ => rfl).bind fun _ =>
        Keeps.pure _
    refine hwrite.bind fun res => Keeps.ite (fun _ => ?_) fun _ => ?_
    · exact (ftpResponse_keeps hc).bind fun _ => failWith_keeps hc _ _
    · exact (ftpReadData_keeps h hlog _).bind fun _ =>
        Keeps.ite (fun _ => ih) fun _ => Keeps.pure _

/-- The command of a download and its loop keep the account. -/
theorem fetchData_leads (h : Account P) (hlog : Unrecorded P) (remoteFile : Str) (seekto : Nat) :
    Leads (NoData P) (fetchData net remoteFile seekto) fun _ => P := by
  have hc := h.toClosable
  have hrest : Keeps P (ftpRest net seekto) := by
    refine Keeps.ite (fun _ => ?_) fun _ => Keeps.pure _
    refine (ftpReq_keeps hc _).bind fun ok => Keeps.get.bind fun _ =>
      Keeps.ite (fun _ => Keeps.pure _) fun _ => ?_
    exact Keeps.ite (fun _ => failWith_keeps hc _ _) fun _ => Keeps.pure _
  refine (ftpPort_leads h).bind fun b => Leads.of_keeps (Keeps.ite (fun _ => ?_) fun _ => ?_)
  · refine hrest.bind fun _ => Keeps.ite (fun _ => ?_) fun _ => Keeps.pure _
    refine (ftpReq_keeps hc _).bind fun ok => Keeps.get.bind fun _ =>
      Keeps.ite (fun _ => ?_) fun _ => ?_
    · refine (ftpReadData_keeps h hlog _).bind fun _ =>
        Keeps.ite (fun _ => ?_) fun _ => Keeps.pure _
      exact Keeps.get.bind fun _ => getLoop_keeps h hlog _
    · exact Keeps.ite (fun _ => failWith_keeps hc _ _) fun _ => Keeps.pure _
  · refine Keeps.bind (fun c hP => hc.same hP ?_) fun _ => Keeps.pure _
    dsimp only
    split <;> exact ⟨rfl, rfl, rfl, rfl, rfl, rfl⟩

/-- What closes both descriptors first may go on as if there was no data connection. -/
theorem closes_leads (h : Closable P) {x : Ftp S α} {Q : α → Conn S → Prop}
    (hx : Leads (NoData P) x Q) : Leads P (do closeListen; closeData; x) Q := fun _ hc =>
  hx _ (h.close hc)

/-- After the end of a failed download there is no data connection. -/
theorem retBad_leads (h : Closable P) : Leads P (retBad net) fun _ => NoData P :=
  closes_leads h (Leads.of_keeps ((fcloseFile_keeps h.noData).bind fun _ => Keeps.pure _))

/-- After the end of a download there is none either. -/
theorem getFinish_leads (h : Closable P) : Leads P (getFinish net) fun _ => NoData P := by
  have hbad : Leads (NoData P) (retBad net) fun _ => NoData P :=
    (retBad_leads h).pre fun _ hc => hc.1
  refine (Leads.of_keeps (fcloseFile_keeps h)).bind fun _ => closes_leads h ?_
  refine (Leads.of_keeps (ftpResponse_keeps h.noData)).bind fun _ =>
    Leads.ite (fun _ => ?_) fun _ => ?_
  · refine Leads.get.bind fun c₀ => Leads.pre (P := NoData P) ?_ fun _ hc => hc.2
    refine Leads.ite (fun _ => ?_) fun _ => Leads.pure fun _ hc => hc
    exact (Leads.of_keeps (setResp_keeps h.noData _)).bind fun _ => hbad
  · refine (Leads.of_keeps (closeCom_keeps h.noData)).bind fun _ => ?_
    exact (Leads.of_keeps (setResp_keeps h.noData _)).bind fun _ => hbad

variable (net) in
/-- `ftp_get` leaves no data connection. -/
theorem ftpGet_leads (h : Account P) (hlog : Unrecorded P) (remoteFile : Str) (seekto : Nat) :
    Leads (NoData P) (ftpGet net remoteFile seekto) fun _ => NoData P := by
  have hn := h.noData
  have hopen : Keeps (NoData P) (getOpen net seekto) := by
    refine (succeeds_keeps hn (by decide)).bind fun _ => Keeps.ite (fun _ => ?_) fun _ =>
      failWith_keeps hn _ _
    refine (record_keeps hn rfl).bind fun _ => Keeps.ite (fun _ => ?_) fun _ => Keeps.pure _
    exact (succeeds_keeps hn (by decide)).bind fun _ =>
      Keeps.ite (fun _ => Keeps.pure _) fun _ => failWith_keeps hn _ _
  have hretr : Leads (NoData P) (ftpRetr net remoteFile seekto) fun _ => NoData P := by
    rw [ftpRetr_eq]
    refine (fetchData_leads h hlog remoteFile seekto).bind fun _ =>
      Leads.ite (fun _ => ?_) fun _ => ?_
    · exact getFinish_leads h.toClosable
    · exact retBad_leads h.toClosable
  have hreturn : ∀ ok : Bool, Leads (NoData P) (do
      let c ← get
      recordNet (.returned ok c.ftpResp (c.input ++ c.sent))
      return ok : Ftp S Bool) fun _ => NoData P := fun ok => Leads.of_keeps <|
    Keeps.get.bind fun c =>
      (record_keeps hn (e := .returned ok c.ftpResp (c.input ++ c.sent)) rfl).bind
      fun _ => Keeps.pure _
  refine (Leads.of_keeps hopen).bind fun b => Leads.ite (fun _ => ?_) fun _ => ?_
  · exact hretr.bind hreturn
  · exact hreturn false

/-! ### Listings -/

/-- The data connection is still being waited for, since a `select` has failed. -/
def LeftOpen (c₀ c : Conn S) : Prop := c.ftpListen ≠ none ∧ c.selectFails = c₀.selectFails + 1

/-- A descriptor that was left open stays so while other events are recorded. -/
theorem LeftOpen.logged {c₀ c : Conn S} (h : LeftOpen c₀ c) {e : NetEvent S}
    (he : e.isSelectFail = false) : LeftOpen c₀ (c.logged e) :=
  ⟨h.1, (List.countP_cons_of_neg (by rw [he]; decide)).trans h.2⟩

/-- An invariant with the number of failures of `select` fixed. -/
def SelectsAs (c₀ : Conn S) (P : Conn S → Prop) (c : Conn S) : Prop :=
  P c ∧ c.selectFails = c₀.selectFails

/-- The account together with the number of `select`s that have failed is one. -/
theorem Account.selectsAs (h : Account P) (c₀ : Conn S) : Account (SelectsAs c₀ P) where
  same hc hs := ⟨h.same hc.1 hs, hs.selects.trans hc.2⟩
  closeCom hc := ⟨h.closeCom hc.1, hc.2⟩
  closeListen hc := ⟨h.closeListen hc.1, hc.2⟩
  closeData hc := ⟨h.closeData hc.1, hc.2⟩
  one hc := h.one hc.1
  openListen hc := ⟨h.openListen ⟨hc.1.1, hc.2⟩, hc.1.2⟩
  openData d hc := ⟨h.openData d ⟨hc.1.1, hc.2⟩, hc.1.2⟩

/-- Recording why a listing fails keeps the account. -/
theorem listFailed_keeps (h : Closable P) (resp : Int) :
    Keeps P (listFailed resp : Ftp S (Option Str)) :=
  (record_keeps h (e := .listFailed resp) rfl).bind fun _ => Keeps.pure _

/-- So does recording that its data connection is lost. -/
theorem listDataLost_keeps (h : Closable P) : Keeps P (listDataLost : Ftp S (Option Str)) :=
  (record_keeps h (e := .listDataLost) rfl).bind fun _ => Keeps.get.bind fun _ =>
  listFailed_keeps h _

/-- Closing, and a failure. -/
theorem dropped_leads (h : Closable P) {x : Ftp S (Option Str)} (hx : Keeps (NoData P) x)
    {Q : Option Str → Conn S → Prop} (hQ : ∀ res c, NoData P c → Q res c) :
    Leads P (do closeListen; closeData; x) Q :=
  closes_leads h ((Leads.of_keeps hx).post hQ)

variable (net) in
/-- The loop of `ftp_dir2` has a data connection, so that it does not wait for one. -/
theorem dirLoop_leads (h : Account P) (fuel : Nat) : ∀ tmp : Str,
    Leads (fun c => P c ∧ c.ftpData ≠ none) (dirLoop net fuel tmp)
      fun res c => P c ∧ (res = none → NoData P c) := by
  have hc := h.toClosable
  induction fuel with
  | zero => exact fun _ _ _ => trivial
  | succ fuel ih =>
    intro tmp
    refine Leads.get.bind fun c₀ => Leads.ite (fun _ => ?_) fun _ => ?_
    · exact Leads.pure fun c hP => ⟨hP.2.1, fun h => nomatch h⟩
    rintro c ⟨rfl, hP, hdata⟩
    refine (wp_bind _ _).mpr ((wp_modifyGet _).mpr ?_)
    have h₁ : P (c₀.called .writeFile c₀.ftpBuf.length (net.outcome c₀.tick .writeFile)) :=
      hc.same hP (called_same rfl)
    have hfail : Leads P (do
        setResp JFTP_WRITEERR
        closeListen
        closeData
        let _ ← ftpResponse net
        listFailed JFTP_WRITEERR : Ftp S (Option Str)) fun res c => P c ∧
          (res = none → NoData P c) := by
      refine (Leads.of_keeps (setResp_keeps hc _)).bind fun _ => dropped_leads hc ?_ ?_
      · exact (ftpResponse_keeps hc.noData).bind fun _ => listFailed_keeps hc.noData _
      · exact fun res c hn => ⟨hn.1, fun _ => hn⟩
    dsimp only
    cases hr : net.outcome c₀.tick .writeFile with
    | fail => exact hfail _ (hr ▸ h₁)
    | timeout => exact hfail _ (hr ▸ h₁)
    | ok n =>
      rw [hr] at h₁
      refine (wp_bind _ _).mpr (wp_mono (ftpReadData_fds h _ h₁ (E := fun _ _ => True))
        (fun b c' h' => ?_) fun _ _ _ => trivial)
      cases h' with
      | read _ h' hdata' => exact ih _ c' ⟨h', hdata'⟩
      | lost _ h' =>
        refine dropped_leads hc (listDataLost_keeps hc.noData) (fun res c hn => ?_) c' h'.1
        exact ⟨hn.1, fun _ => hn⟩
      | waiting _ hnone => exact absurd hnone hdata

variable (net) in
/-- After the end of a listing there is no data connection. -/
theorem dirFinish_leads (h : Closable P) (tmp : Str) :
    Leads P (dirFinish net tmp) fun _ => NoData P := by
  have hn := h.noData
  refine dropped_leads h ?_ fun _ _ hc => hc
  refine (ftpResponse_keeps hn).bind fun _ => Keeps.ite (fun _ => ?_) fun _ => ?_
  · exact Keeps.get.bind fun _ => Keeps.ite (fun _ => listFailed_keeps hn _) fun _ => Keeps.pure _
  · exact (closeCom_keeps hn).bind fun _ => (setResp_keeps hn _).bind fun _ => listFailed_keeps hn _

/-- `ftp_dir2` leaves no data connection, unless a `select` has failed. -/
theorem dirData_leads (h : Account P) (c₀ : Conn S) :
    Leads (SelectsAs c₀ P) (dirData net) fun _ c =>
      NoData (SelectsAs c₀ P) c ∨ LeftOpen c₀ c := by
  have hs := h.selectsAs c₀
  intro c hc
  refine (wp_bind _ _).mpr (wp_mono (ftpReadData_fds hs _ hc (E := fun _ _ => True))
    (fun b c₁ h₁ => ?_) fun _ _ _ => trivial)
  cases h₁ with
  | read _ h₁ hdata =>
    refine (wp_bind _ _).mpr (wp_get.mpr ((wp_bind _ _).mpr (wp_mono
      (dirLoop_leads net hs (c₁.data.length + 2) [] c₁ ⟨h₁, hdata⟩) (fun res c₂ h₂ => ?_)
      fun _ _ _ => trivial)))
    cases res with
    | none => exact Or.inl (h₂.2 rfl)
    | some tmp =>
      exact wp_mono (dirFinish_leads net hs.toClosable tmp c₂ h₂.1)
        (fun _ _ h₃ => Or.inl h₃) fun _ _ _ => trivial
  | lost _ h₁ =>
    exact wp_mono (listDataLost_keeps hs.noData c₁ h₁) (fun _ _ h₂ => Or.inl h₂)
      fun _ _ _ => trivial
  | waiting _ _ hlisten _ hfails =>
    have hopen : LeftOpen c₀ c₁ := ⟨hlisten, hfails.trans (congrArg (· + 1) hc.2)⟩
    have hlost := hopen.logged (e := .listDataLost) rfl
    exact Or.inr (hlost.logged (e := .listFailed c₁.ftpResp) rfl)

/-- A listing has no data connection at its end, or has left a descriptor open where a `select`
failed. -/
theorem ftpList_leads (h : Account P) (c₀ : Conn S) (flags dir : Str) :
    Leads (NoData (SelectsAs c₀ P)) (ftpList net flags dir) fun _ c =>
      NoData (SelectsAs c₀ P) c ∨ LeftOpen c₀ c := by
  have hs := h.selectsAs c₀
  have hc := hs.toClosable
  have hlast : Keeps (NoData (SelectsAs c₀ P))
      (do let c ← get; listFailed c.ftpResp : Ftp S (Option Str)) :=
    Keeps.get.bind fun _ => listFailed_keeps hc.noData _
  refine (ftpPort_leads hs).bind fun _ => Leads.ite (fun _ => ?_) fun _ => ?_
  · refine (Leads.of_keeps (ftpReq_keeps hc _)).bind fun ok => Leads.get.bind fun _ =>
      Leads.pre (P := SelectsAs c₀ P) ?_ fun _ hP => hP.2
    refine Leads.ite (fun _ => dirData_leads h c₀) fun _ => dropped_leads hc ?_ fun _ _ => Or.inl
    exact Keeps.ite (fun _ => (setResp_keeps hc.noData _).bind fun _ => hlast) fun _ => hlast
  · exact dropped_leads hc hlast fun _ _ => Or.inl

variable (net) in
/-- So has `ftp_dir2`, which makes the file first. -/
theorem ftpDir2_leads (h : Account P) (c₀ : Conn S) (flags dir : Str) :
    Leads (NoData (SelectsAs c₀ P)) (ftpDir2 net flags dir) fun _ c =>
      NoData (SelectsAs c₀ P) c ∨ LeftOpen c₀ c := by
  have hs := h.selectsAs c₀
  have hn := hs.noData
  have hreturn : ∀ tmp : Option Str, Leads (fun c => NoData (SelectsAs c₀ P) c ∨ LeftOpen c₀ c) (do
      let c ← get
      recordNet (.returned tmp.isSome c.ftpResp (c.input ++ c.sent))
      return tmp) fun _ c => NoData (SelectsAs c₀ P) c ∨ LeftOpen c₀ c := by
    intro tmp c hc
    obtain hc | hc := hc
    · exact Or.inl
        (hn.same hc ⟨rfl, rfl, rfl, rfl, rfl, List.countP_cons_of_neg Bool.false_ne_true⟩)
    · exact Or.inr (hc.logged rfl)
  have hfail : ∀ resp, Leads (NoData (SelectsAs c₀ P)) (do
      setResp resp
      let tmp ← listFailed resp
      let c ← get
      recordNet (.returned tmp.isSome c.ftpResp (c.input ++ c.sent))
      return tmp : Ftp S (Option Str)) fun _ c => NoData (SelectsAs c₀ P) c ∨ LeftOpen c₀ c :=
    fun resp => (Leads.of_keeps (setResp_keeps hn resp)).bind fun _ =>
      ((Leads.of_keeps (listFailed_keeps hn resp)).post fun _ _ => Or.inl).bind hreturn
  refine keeps_test hn (by decide) (keeps_test hn (by decide) ?_ ?_) ?_
  · exact (ftpList_leads h c₀ flags dir).bind hreturn
  · exact hfail _
  · exact hfail _

/-! ## What a transfer leaves -/

/-- Descriptors are given out in order: those that are in use or have been closed are below the next
one. -/
structure Conn.Numbered (c : Conn S) : Prop where
  com : ∀ n, c.ftpCom = some n → n < c.fds
  closed : ∀ n ∈ c.closed, n < c.fds

/-- Since `c` there is no data connection left, and each of its descriptors has been closed once. -/
def DataClosed (c c' : Conn S) : Prop :=
  c'.ftpData = none ∧ c'.ftpListen = none ∧ ∀ n, c.fds ≤ n → n < c'.fds → c'.closed.count n = 1

/-- Without a data connection the account starts balanced. -/
theorem balanced_start {c : Conn S} (hdata : c.ftpData = none) (hlisten : c.ftpListen = none)
    (hnum : c.Numbered) : NoData (Balanced c) c := by
  refine ⟨⟨Nat.le_refl _, hnum.com, Or.inl hdata, fun n hn => ?_⟩, hdata, hlisten⟩
  rw [hdata, hlisten, if_neg (Nat.not_lt.mpr hn)]
  exact List.count_eq_zero.mpr fun hmem => Nat.not_lt.mpr hn (hnum.closed n hmem)

/-- A balanced account without a data connection: all descriptors have been closed. -/
theorem NoData.closed {c c' : Conn S} (h : NoData (Balanced c) c') : DataClosed c c' := by
  obtain ⟨h, hdata, hlisten⟩ := h
  refine ⟨hdata, hlisten, fun n hn hlt => ?_⟩
  have honce := h.once n hn
  rw [hdata, hlisten, if_pos hlt] at honce
  exact honce

/-- Which event a failing `select` is. -/
theorem isSelectFail_iff {e : NetEvent S} : e.isSelectFail = true ↔ e = .lost .select .fail := by
  constructor
  · intro h
    unfold NetEvent.isSelectFail at h
    split at h
    · rfl
    · cases h
  · rintro rfl
    rfl

/-- What the number of failures says about the new events. -/
theorem selectFails_newEvents {c c' : Conn S} {new : List (NetEvent S)}
    (h : c'.log = new ++ c.log) :
    .lost .select .fail ∉ newEvents c c' ↔ c'.selectFails = c.selectFails := by
  rw [newEvents_eq h, Conn.selectFails, Conn.selectFails, h, List.countP_append]
  constructor
  · intro hnone
    have hzero : new.countP NetEvent.isSelectFail = 0 :=
      List.countP_eq_zero.mpr fun e he hfail => hnone (isSelectFail_iff.mp hfail ▸ he)
    rw [hzero, Nat.zero_add]
  · intro hsame hmem
    have hzero : new.countP NetEvent.isSelectFail = 0 := by omega
    exact List.countP_eq_zero.mp hzero _ hmem rfl

/-- The record has only grown. -/
theorem ListEnd.suffix {c c' : Conn S} {res : Option Str} (h : ListEnd c res c') :
    ∃ new, c'.log = new ++ c.log := by
  obtain ⟨-, new, hnew, -⟩ | ⟨-, resp, c₁, c₂, -, ⟨new, hnew, -⟩, h₂, ⟨new', hnew', -⟩⟩ := h
  · exact ⟨new, hnew⟩
  · exact ⟨new' ++ .listFailed resp :: new, by rw [hnew', h₂, hnew, List.append_assoc]; rfl⟩

/-- **The data connection.** Called without one, `ftp_get` leaves none and has closed each of its
descriptors once; `ftp_dir2` does exactly if no `select` fails. -/
theorem transfers_close (net : Net S) {c : Conn S} (hdata : c.ftpData = none)
    (hlisten : c.ftpListen = none) (hnum : c.Numbered) (remoteFile : Str) (seekto : Nat)
    (flags dir : Str) :
    wp (ftpGet net remoteFile seekto) c (fun _ c' => DataClosed c c') (fun _ _ => False) ∧
      wp (ftpDir2 net flags dir) c
        (fun _ c' => DataClosed c c' ↔ .lost .select .fail ∉ newEvents c c') fun _ _ => False := by
  have hstart := balanced_start hdata hlisten hnum
  have haccount := balanced_account c
  constructor
  · have hget := ftpGet_leads net haccount (balanced_unrecorded c) remoteFile seekto
    refine wp_mono (hget.returns hstart (ftpGet_closes net c remoteFile seekto)) ?_ fun _ _ h => h
    exact fun _ _ h => h.closed
  · have hdir := ftpDir2_leads net haccount c flags dir
    have hlisting : Listing (fun _ => True) (ftpDir2 net flags dir) := ftpDir2_listing flags dir
    have hlist := hlisting c trivial
    have hends := hdir.returns ⟨⟨hstart.1, rfl⟩, hstart.2⟩ hlist
    refine wp_mono (wp_and hends hlist) (fun res c' h => ?_) fun _ _ h => h.1
    obtain ⟨new, hnew⟩ := h.2.suffix
    rw [selectFails_newEvents hnew]
    obtain hclosed | hopen := h.1
    · exact ⟨fun _ => hclosed.1.2, fun _ => NoData.closed ⟨hclosed.1.1, hclosed.2⟩⟩
    · refine ⟨fun h => absurd h.2.1 hopen.1, fun hsame => ?_⟩
      have hmore := hopen.2
      omega

/-- An active connection on which `select` fails. -/
def noSelectNet : Net Unit :=
  { calmNet (helloServer (Reply.short 150 Reply.code_150)) with
    outcome := fun _ k => if k = .select then .fail else .ok JFTP_BUF }

/-- A logged in connection, with the descriptor of the control connection. -/
def loggedInOne : Conn Unit := { loggedIn with fds := 1 }

theorem loggedInOne_numbered : loggedInOne.Numbered where
  com n hn := by
    cases hn
    exact Nat.zero_lt_one
  closed n hn := nomatch hn

section

attribute [local irreducible] wp

theorem transfers_close_hello :
    wp (ftpGet noSelectNet ['f'] 0) loggedInOne (fun _ c' => DataClosed loggedInOne c')
        (fun _ _ => False) ∧
      wp (ftpDir2 noSelectNet [] []) loggedInOne
        (fun _ c' => DataClosed loggedInOne c' ↔
          .lost .select .fail ∉ newEvents loggedInOne c') fun _ _ => False :=
  transfers_close noSelectNet rfl rfl loggedInOne_numbered ['f'] 0 [] []

/-- The listening socket is left open. -/
theorem ftpDir2_leaves_listen :
    wp (ftpDir2 noSelectNet [] []) loggedInOne (fun _ c' => ¬DataClosed loggedInOne c')
      fun _ _ => False := by
  have hrun : wp (ftpDir2 noSelectNet [] []) loggedInOne (fun _ c' => c'.ftpListen = some 1)
      fun _ _ => False := by decide +kernel
  refine wp_mono hrun (fun _ c' h hclosed => ?_) fun _ _ h => h
  exact nomatch h.symm.trans hclosed.2.1

end

end Spegla.Jftp
