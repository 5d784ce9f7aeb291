import Spegla.Jftp.Failures

/-!
# The way back from a listing

`ftp_dir` goes back to the directory it has come from also after a listing that failed, and the
reply to that `CWD`, or the loss of the connection, goes to `ftp_resp` as the listing's failure did.

- `Told`: how an exchange of a command and a reply ends.
- `BackFails`: the `CWD` back goes wrong in the way that a class stands for, from what the calls and
  the server do.
- `ftpDir_class`: `ftp_dir` leaves the class of the failure that made it fail, exactly if the way
  back from each listing that failed goes wrong in that way.
-/

namespace Spegla.Jftp

open CString FtpReply ExitState

variable {S : Type} {net : Net S} {c : Conn S}

/-! ## How an exchange ends -/

/-- The class that stands for the loss of a connection by a call that went like `r`. -/
def lossClass (r : Outcome) : Int := if r = .timeout then JFTP_TIMEOUT else JFTP_BROKEN

/-- The connection is lost by the last call, or it is still there and there is a reply or none that
can be read. -/
def Told (ok : Bool) (c : Conn S) : Prop :=
  (c.ftpCom = none ∧ ok = false ∧ ∃ k r, c.log.head? = some (.lost k r) ∧ c.ftpResp = lossClass r) ∨
    (c.ftpCom ≠ none ∧ (ok = false → c.ftpResp = JFTP_ERR))

/-- The end of `io_err`, behind the call that went wrong. -/
theorem ioErr_told {timedOut : Bool} {k : NetCall} {r : Outcome}
    (hlog : c.log.head? = some (.lost k r))
    (hloss : (if timedOut then JFTP_TIMEOUT else JFTP_BROKEN) = lossClass r) :
    wp (ioErr timedOut) c Told fun _ _ => False :=
  wp_ioErr.mpr (Or.inl ⟨rfl, rfl, k, r, hlog, hloss⟩)

/-- A byte is read, or the connection is given up for the call that went wrong. -/
theorem ftpReadCom_told {n : Nat} (hcom : c.ftpCom ≠ none) (hin : c.input.length < n + 1) :
    wp (ftpReadCom net) c (fun res c' => c'.ftpCom ≠ none ∧
      (∀ t, res = .error t → ∃ k r, c'.log.head? = some (.lost k r) ∧
        (if t then JFTP_TIMEOUT else JFTP_BROKEN) = lossClass r) ∧
      ∀ b, res = .ok b → c'.input.length < n) fun _ _ => False := by
  unfold ftpReadCom
  rw [wp_bind, wp_get, if_neg hcom]
  unfold call
  rw [wp_bind, wp_modifyGet]
  cases hout : net.outcome c.tick .read with
  | fail =>
    refine ⟨hcom, fun t ht => ⟨.read, .fail, rfl, ?_⟩, fun b hb => by cases hb⟩
    cases ht
    rfl
  | timeout =>
    refine ⟨hcom, fun t ht => ⟨.read, .timeout, rfl, ?_⟩, fun b hb => by cases hb⟩
    cases ht
    rfl
  | ok m =>
    show wp (modifyGet _ : Ftp S _) _ _ _
    rw [wp_modifyGet]
    show _ ∧ _
    cases hinput : c.input with
    | nil =>
      have hempty : (c.called .read 0 (.ok m)).input = [] := hinput
      simp only [hempty]
      refine ⟨hcom, fun t ht => ⟨.read, .ok m, rfl, ?_⟩, fun b hb => by cases hb⟩
      cases ht
      rfl
    | cons b rest =>
      have hbyte : (c.called .read 0 (.ok m)).input = b :: rest := hinput
      simp only [hbyte]
      rw [hinput, List.length_cons] at hin
      exact ⟨hcom, fun t ht => by (cases ht), fun _ _ => Nat.lt_of_succ_lt_succ hin⟩

/-- The end of a line of a reply, whatever comes after it. -/
theorem endLine_told {again : Bool → Ftp S Bool} {n : Nat} (hcom : c.ftpCom ≠ none)
    (hin : c.input.length < n)
    (h : ∀ lt (c : Conn S), c.ftpCom ≠ none → c.input.length < n →
      wp (again lt) c Told fun _ _ => False) (line : Str) (islongtext : Bool) :
    wp (endLine again line islongtext) c Told fun _ _ => False := by
  refine (wp_bind _ _).mpr ((wp_modify _).mpr ((wp_ite _ _).mpr ⟨fun _ => ?_, fun _ =>
    (wp_ite _ _).mpr ⟨fun _ => ?_, fun _ => (wp_ite _ _).mpr ⟨fun _ => ?_, fun _ => ?_⟩⟩⟩))
  · exact Or.inr ⟨hcom, fun _ => rfl⟩
  · exact h true _ hcom hin
  · exact Or.inr ⟨hcom, fun _ => rfl⟩
  · exact Or.inr ⟨hcom, fun hb => by cases hb⟩

/-- The lines of a reply, by induction on what is still to be read. -/
theorem readReply_told (fuel : Nat) : ∀ (line : Str) (size : Nat) (islongtext : Bool) (c : Conn S),
    c.ftpCom ≠ none → c.input.length < fuel →
      wp (readReply net fuel line size islongtext) c Told fun _ _ => False := by
  induction fuel with
  | zero => exact fun _ _ _ c _ hin => absurd hin (Nat.not_lt_zero _)
  | succ fuel ih =>
    intro line size islongtext c hcom hin
    refine (wp_bind _ _).mpr
      (wp_mono (ftpReadCom_told hcom hin) (fun res c' h => ?_) fun _ _ h => h)
    obtain ⟨hcom', hlost, hread⟩ := h
    cases res with
    | error timedOut =>
      obtain ⟨k, r, hlog, hloss⟩ := hlost timedOut rfl
      exact ioErr_told hlog hloss
    | ok b =>
      have hin' := hread b rfl
      refine (wp_ite _ _).mpr ⟨fun _ => ?_, fun _ => (wp_ite _ _).mpr ⟨fun _ => ?_, fun _ => ?_⟩⟩
      · exact endLine_told hcom' hin' (fun lt c hc hin => ih [] JFTP_BUF lt c hc hin)
          line islongtext
      · exact Or.inr ⟨hcom', fun _ => rfl⟩
      · exact ih _ _ _ c' hcom' hin'

/-- A reply that is read, or the last call has lost the connection. -/
theorem ftpResponse_told (hcom : c.ftpCom ≠ none) :
    wp (ftpResponse net) c Told fun _ _ => False :=
  (wp_bind _ _).mpr (readReply_told _ _ _ _ c hcom (Nat.lt_succ_self _))

/-- What a server sends leaves the control connection open. -/
theorem deliver_com (bytes : Str) : ∀ c : Conn S, (c.deliver net bytes).ftpCom = c.ftpCom := by
  induction bytes with
  | nil => exact fun _ => rfl
  | cons b bytes ih =>
    intro c
    rw [Conn.deliver]
    split
    · exact ih (c.execute net)
    · exact ih { c with sent := c.sent ++ [b] }

/-- A command and its reply. -/
theorem ftpReq_told (hcom : c.ftpCom ≠ none) (cmd : Str) :
    wp (ftpReq net cmd) c Told fun _ _ => False := by
  unfold ftpReq ftpWrite
  simp only [wp_bind, wp_modify, wp_get]
  rw [if_neg hcom]
  unfold call
  rw [wp_bind, wp_modifyGet]
  generalize htext : (cmd ++ ['\r', '\n']).take (JFTP_BUF - 1) = text
  have hlen : 0 < text.length := by
    rw [← htext, List.length_take, List.length_append]
    show 0 < min 16383 (cmd.length + 2)
    omega
  cases hout : net.outcome c.tick .write with
  | fail => exact ioErr_told (k := .write) (r := .fail) rfl rfl
  | timeout => exact ioErr_told (k := .write) (r := .timeout) rfl rfl
  | ok n =>
    show wp (if n = 0 then _ else _) _ _ _
    refine (wp_ite _ _).mpr ⟨fun hzero => ?_, fun _ => ?_⟩
    · refine ioErr_told (k := .write) (r := .ok n) ?_ rfl
      have hshort : (Outcome.ok n).isFull text.length = false := by
        rw [hzero]
        exact decide_eq_false (Nat.not_le_of_lt hlen)
      show (if (Outcome.ok n).isFull text.length = true then c.log
        else .lost .write (.ok n) :: c.log).head? = _
      rw [hshort]
      rfl
    · refine (wp_bind _ _).mpr ((wp_modify _).mpr ?_)
      refine ftpResponse_told ?_
      rw [deliver_com]
      exact hcom

/-! ## The way back -/

/-- The `CWD` back to `dir` goes wrong in the way that `cls` stands for: there is no memory for the
name of the directory; the connection is closed already; it is lost on the way, by a call after
which the time is up, or by another; or the server does not take the command. -/
def BackFails (net : Net S) (dir : Str) (c : Conn S) (cls : Int) : Prop :=
  if (net.outcome c.tick .malloc).isFull 0 = false then cls = JFTP_ERRNO
  else if c.ftpCom = none then cls = JFTP_BROKEN
  else
    wp (ftpReq net (['C', 'W', 'D', ' '] ++ dir))
      { c with tick := c.tick + 1, ftpRemoteDir := some dir }
      (fun ok c' =>
        if c'.ftpCom = none then ∃ k r, c'.log.head? = some (.lost k r) ∧ cls = lossClass r
        else cls = JFTP_ERR ∧ ¬(ok = true ∧ c'.ftpResp = 250))
      fun _ _ => False

/-- `ftp_cd` on the way back fails with the class `cls` exactly if it goes wrong so. -/
theorem ftpCd_back (dir : Str) (cls : Int) (c : Conn S) :
    wp (ftpCd net dir) c (fun b c' => b = false ∧ c'.ftpResp = cls ↔ BackFails net dir c cls)
      fun _ _ => False := by
  unfold ftpCd succeeds call BackFails
  simp only [wp_bind, wp_modifyGet, wp_pure]
  cases hmalloc : (net.outcome c.tick .malloc).isFull 0 with
  | false =>
    rw [if_pos rfl, if_neg Bool.false_ne_true]
    exact ⟨fun h => h.2.symm, fun h => ⟨rfl, h.symm⟩⟩
  | true =>
    rw [if_neg (Bool.noConfusion : ¬true = false), if_pos rfl]
    simp only [wp_bind, wp_modify]
    have hstate : ({ c.called .malloc 0 (net.outcome c.tick .malloc) with
        ftpRemoteDir := some dir } : Conn S) =
          { c with tick := c.tick + 1, ftpRemoteDir := some dir } := by
      unfold Conn.called
      rw [if_pos hmalloc]
    rw [hstate]
    -- on a connection that is closed already the command fails at once
    by_cases hcom : c.ftpCom = none
    · rw [if_pos hcom]
      have hio : wp (ftpReq net (['C', 'W', 'D', ' '] ++ dir))
          { c with tick := c.tick + 1, ftpRemoteDir := some dir }
          (fun ok c' => ok = false ∧ c'.ftpResp = JFTP_BROKEN) fun _ _ => False := by
        unfold ftpReq ftpWrite
        simp only [wp_bind, wp_modify, wp_get]
        rw [if_pos hcom]
        exact And.intro rfl rfl
      refine wp_mono hio (fun ok c' h => ?_) fun _ _ h => h
      obtain ⟨rfl, hresp⟩ := h
      rw [if_neg Bool.false_ne_true]
      exact ⟨fun h => h.2.symm.trans hresp, fun h => ⟨rfl, hresp.trans h.symm⟩⟩
    · rw [if_neg hcom]
      have hcom' :
        ({ c with tick := c.tick + 1, ftpRemoteDir := some dir } : Conn S).ftpCom ≠ none :=
        hcom
      obtain ⟨ok, c', hrun, htold⟩ := wp_result (ftpReq_told hcom' (['C', 'W', 'D', ' '] ++ dir))
      refine (wp_of_result hrun).mpr ?_
      rw [wp_of_result hrun]
      obtain ⟨hnone, rfl, k, r, hlog, hresp⟩ | ⟨hsome, herr⟩ := htold
      · -- the connection is lost
        rw [if_pos hnone, if_neg Bool.false_ne_true]
        constructor
        · rintro ⟨-, hcls⟩
          exact ⟨k, r, hlog, hcls.symm.trans hresp⟩
        · rintro ⟨k', r', hlog', rfl⟩
          cases hlog.symm.trans hlog'
          exact ⟨rfl, hresp⟩
      · rw [if_neg hsome]
        cases ok with
        | false =>
          rw [if_neg Bool.false_ne_true]
          refine ⟨fun h => ⟨h.2.symm.trans (herr rfl), fun hok => by cases hok.1⟩, fun h => ?_⟩
          exact ⟨rfl, (herr rfl).trans h.1.symm⟩
        | true =>
          rw [if_pos rfl, wp_bind, wp_get]
          refine (wp_ite _ _).mpr ⟨fun hcode => ?_, fun hcode => ?_⟩
          · refine ⟨fun h => ⟨h.2.symm, fun hok => hcode hok.2⟩, fun h => ⟨rfl, h.1.symm⟩⟩
          · have hdone : c'.ftpResp = 250 := not_not.mp hcode
            exact iff_of_false (fun h => by cases h.1) fun h => h.2 ⟨rfl, hdone⟩

/-- The listing of `dir` that `ftp_dir` asks for fails with the class `cls`, and leaves the state
`c'`. -/
def ListFails (net : Net S) (c : Conn S) (dir : Str) (cls : Int) (c' : Conn S) : Prop :=
  ∃ c₁, goDown net dir c = .ok true c₁ ∧ ftpDir2 net ['-', 'l', 'a', 'g'] [] c₁ = .ok none c' ∧
    .listFailed cls ∈ newEvents c₁ c'

/-- The class that is left after a listing that failed is that of the way back. -/
theorem classRight_back {c c' : Conn S} {b kept : Bool} {cls : Int} {new new' : List (NetEvent S)}
    (hnew : newEvents c c' = .wentBack b c'.ftpResp kept :: (new' ++ .listFailed cls :: new))
    (hinner : ∀ e ∈ new, e.IsInner) (hinner' : ∀ e ∈ new', e.IsInner)
    (hfail : b = false → IsFailure c'.ftpResp) (hok : b = true → c'.ftpResp = 250) :
    ClassRight c none c' ↔ b = false ∧ c'.ftpResp = cls := by
  have hfirst : (failures (newEvents c c')).head? = some cls := by
    rw [hnew, failures_cons, failures_append, failures_cons, failures_inner hinner,
      failures_inner hinner']
    rfl
  constructor
  · intro hright
    obtain ⟨hfailure, hhead⟩ := hright rfl
    refine ⟨?_, Option.some.inj (hhead.symm.trans hfirst)⟩
    by_contra hb
    rw [hok (by simpa using hb)] at hfailure
    exact absurd hfailure (by decide)
  · rintro ⟨hb, hcls⟩ -
    exact ⟨hfail hb, hfirst.trans (congrArg some hcls.symm)⟩

/-- The way back, with what it records. -/
theorem goBack_spec (dir : Str) (cls : Int) (c : Conn S) :
    wp (goBack net dir) c (fun b c' => (b = false ∧ c'.ftpResp = cls ↔ BackFails net dir c cls) ∧
      (b = false → IsFailure c'.ftpResp) ∧ (b = true → c'.ftpResp = 250) ∧
      ∃ kept new, c'.log = .wentBack b c'.ftpResp kept :: (new ++ c.log) ∧ ∀ e ∈ new, e.IsInner)
      fun _ _ => False := by
  refine (wp_bind _ _).mpr ?_
  refine wp_mono (wp_and (ftpCd_back dir cls c) (ftpCd_resp dir c trivial)) (fun b c' h => ?_)
    fun _ _ h => h.1
  obtain ⟨hback, ⟨new, hnew, hwire⟩, hfail, hok⟩ := h
  refine ⟨hback, hfail, hok, decide (c'.ftpCom ≠ none), new, ?_, fun e he => (hwire e he).isInner⟩
  rw [← hnew]
  rfl

/-- **What `ftp_dir` leaves behind.** Where it fails, `ftp_resp` shows the class of the failure that
made it fail, exactly if the way back from a listing that failed goes wrong in the same way. -/
theorem ftpDir_class (net : Net S) (c : Conn S) (dir : Str) :
    wp (ftpDir net dir) c
      (fun res c' => ClassRight c res c' ↔ ∀ remoteDir, c.ftpRemoteDir = some remoteDir →
        ∀ cls c₁, ListFails net c dir cls c₁ →
          BackFails net (remoteDir.take (net.pathMax - 1)) c₁ cls)
      (fun _ _ => c.ftpRemoteDir = none) := by
  refine (wp_bind _ _).mpr ?_
  rw [wp_get]
  cases hremote : c.ftpRemoteDir with
  | none => rfl
  | some remoteDir =>
    have hdown : wp (goDown net dir) c (fun b c' => ∃ new,
        c'.log = .wentDown b c'.ftpResp :: (new ++ c.log) ∧ (∀ e ∈ new, e.IsInner) ∧
          (b = false → IsFailure c'.ftpResp)) fun _ _ => False :=
      wp_goDown fun b c' new hlog hinner hfail => ⟨new, hlog, hinner, hfail⟩
    obtain ⟨b, c₁, hrun₁, n₁, hlog₁, hinner₁, hfail₁⟩ := wp_result hdown
    refine (wp_bind _ _).mpr ((wp_of_result hrun₁).mpr ?_)
    cases b with
    | false =>
      -- no way down
      refine iff_of_true ?_ fun _ _ cls c₂ hlist => ?_
      · exact classRight_first (newEvents_eq hlog₁) hinner₁ rfl (hfail₁ rfl)
      · obtain ⟨c₃, hrun₃, -⟩ := hlist
        cases hrun₁.symm.trans hrun₃
    | true =>
      have hdir : Listing (fun _ => True) (ftpDir2 net ['-', 'l', 'a', 'g'] []) :=
        ftpDir2_listing _ _
      obtain ⟨res, c₂, hrun₂, hlisting⟩ := wp_result (hdir c₁ trivial)
      refine (wp_bind _ _).mpr ((wp_of_result hrun₂).mpr ?_)
      have hlists : ∀ cls c₃, ListFails net c dir cls c₃ ↔
          c₃ = c₂ ∧ res = none ∧ .listFailed cls ∈ newEvents c₁ c₂ := by
        intro cls c₃
        constructor
        · rintro ⟨c₄, hrun₄, hrun₅, hmem⟩
          cases hrun₁.symm.trans hrun₄
          cases hrun₂.symm.trans hrun₅
          exact ⟨rfl, rfl, hmem⟩
        · rintro ⟨rfl, rfl, hmem⟩
          exact ⟨c₁, hrun₁, hrun₂, hmem⟩
      have hdown : ∀ e ∈ NetEvent.wentDown true c₁.ftpResp :: n₁, e.IsInner := fun e he =>
        (List.mem_cons.mp he).elim (fun h => h ▸ rfl) (hinner₁ e)
      have happend : ∀ {l l' : List (NetEvent S)}, (∀ e ∈ l, e.IsInner) → (∀ e ∈ l', e.IsInner) →
          ∀ e ∈ l ++ l', e.IsInner := fun hl hl' e he => (List.mem_append.mp he).elim (hl e) (hl' e)
      rcases hlisting with ⟨hsome, n₂, hlog₂, hinner₂⟩ | ⟨rfl, cls, d₁, d₂, -, ⟨n₂, hlog₂, hinner₂⟩,
        hmark, n₂', hlog₂', hinner₂'⟩
      · -- a listing
        refine (wp_bind _ _).mpr
          (wp_mono (goBack_spec _ 0 c₂) (fun b c₃ h => ?_) fun _ _ h => h.elim)
        obtain ⟨-, hfail₃, -, kept, n₃, hlog₃, hinner₃⟩ := h
        have hnone : ∀ remoteDir', some remoteDir = some remoteDir' → ∀ cls c₃,
            ListFails net c dir cls c₃ →
              BackFails net (remoteDir'.take (net.pathMax - 1)) c₃ cls := by
          intro _ _ cls c₃ hlist
          rw [((hlists cls c₃).mp hlist).2.1] at hsome
          cases hsome
        cases b with
        | false =>
          have hnew : newEvents c c₃ = .wentBack false c₃.ftpResp kept ::
              (n₃ ++ (n₂ ++ .wentDown true c₁.ftpResp :: n₁)) := by
            refine newEvents_eq ?_
            rw [hlog₃, hlog₂, hlog₁]
            simp
          exact iff_of_true (classRight_first hnew (happend hinner₃ (happend hinner₂ hdown)) rfl
            (hfail₃ rfl)) hnone
        | true =>
          refine iff_of_true (fun hres => ?_) hnone
          rw [hres] at hsome
          cases hsome
      · -- no listing
        have hevents : newEvents c₁ c₂ = n₂' ++ .listFailed cls :: n₂ := by
          refine newEvents_eq ?_
          rw [hlog₂', hmark, hlog₂]
          simp
        have hcls : ∀ cls', NetEvent.listFailed cls' ∈ newEvents c₁ c₂ ↔ cls' = cls := by
          intro cls'
          rw [hevents, List.mem_append, List.mem_cons]
          constructor
          · rintro (h | h | h)
            · exact absurd h (not_mem_inner hinner₂' (by simp [NetEvent.failure]))
            · cases h
              rfl
            · exact absurd h (not_mem_inner hinner₂ (by simp [NetEvent.failure]))
          · rintro rfl
            exact Or.inr (Or.inl rfl)
        refine (wp_bind _ _).mpr (wp_mono (goBack_spec _ cls c₂) (fun b c₃ h => ?_)
          fun _ _ h => h.elim)
        obtain ⟨hback, hfail₃, hok₃, kept, n₃, hlog₃, hinner₃⟩ := h
        have hnew : newEvents c c₃ = .wentBack b c₃.ftpResp kept ::
            ((n₃ ++ n₂') ++ .listFailed cls :: (n₂ ++ .wentDown true c₁.ftpResp :: n₁)) := by
          refine newEvents_eq ?_
          rw [hlog₃, hlog₂', hmark, hlog₂, hlog₁]
          simp
        have hright : ClassRight c none c₃ ↔ ∀ remoteDir', some remoteDir = some remoteDir' →
            ∀ cls' c₄, ListFails net c dir cls' c₄ →
              BackFails net (remoteDir'.take (net.pathMax - 1)) c₄ cls' := by
          rw [classRight_back hnew (happend hinner₂ hdown) (happend hinner₃ hinner₂') hfail₃ hok₃,
            hback]
          constructor
          · intro h _ hdir cls' c₄ hlist
            cases hdir
            obtain ⟨rfl, -, hmem⟩ := (hlists cls' c₄).mp hlist
            obtain rfl := (hcls cls').mp hmem
            exact h
          · intro h
            exact h remoteDir rfl cls c₂ ((hlists cls c₂).mpr ⟨rfl, rfl, (hcls cls).mpr rfl⟩)
        cases b with
        | false => exact hright
        | true => exact hright

/-- The server refuses the listing, and takes the way back: `ftp_resp` is 250. -/
theorem ftpDir_hidden :
    Rfc959 shyServer ∧
    wp (ftpDir (calmNet shyServer) ['d']) loggedIn
      (fun res c' => res = none ∧ c'.ftpResp = 250 ∧ ¬ClassRight loggedIn res c')
      (fun _ _ => False) :=
  ⟨shyServer_rfc959, by decide +kernel⟩

end Spegla.Jftp
