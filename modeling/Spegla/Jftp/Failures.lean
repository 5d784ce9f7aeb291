import Spegla.Jftp.Calls

/-!
# The classes of failures

- `Classed`: a function that ends, and where it fails leaves one of the failure classes in
  `ftp_resp`; it records nothing but calls and commands.
- `ftpDir2_listing`: so does a listing; what fails in it is recorded with its class.
- `ClassRight`: what `ftp_dir` leaves in `ftp_resp` is the class of the failure that made it fail.
-/

namespace Spegla.Jftp

open CString FtpReply ExitState

variable {S : Type} {net : Net S}

/-! ## Functions that leave a class behind -/

/-- The failure classes that do not have to do with local files. -/
def IsNetFailure (resp : Int) : Prop :=
  resp = JFTP_BROKEN ∨ resp = JFTP_TIMEOUT ∨ resp = JFTP_ERR ∨ resp = JFTP_ERRNO

/-- The failure classes. -/
def IsFailure (resp : Int) : Prop := IsNetFailure resp ∨ resp = JFTP_WRITEERR

instance (resp : Int) : Decidable (IsNetFailure resp) := inferInstanceAs (Decidable (_ ∨ _))

instance (resp : Int) : Decidable (IsFailure resp) := inferInstanceAs (Decidable (_ ∨ _))

/-- A lost connection is a failure of the network. -/
theorem Lost.isNetFailure {resp : Int} (h : Lost resp) : IsNetFailure resp :=
  h.elim Or.inl fun h => Or.inr (Or.inl h)

/-- No failure of the network is one of the local disk. -/
theorem IsNetFailure.ne_writeerr {resp : Int} (h : IsNetFailure resp) : resp ≠ JFTP_WRITEERR := by
  rintro rfl
  exact absurd h (by decide)

/-- A call, a command, or a greeting. -/
def NetEvent.IsWire : NetEvent S → Prop
  | .greeted _ => True
  | .command .. => True
  | .lost .. => True
  | _ => False

/-- From `P` the function ends, and if it fails, `ftp_resp` is a failure class. -/
def Classed (P : Conn S → Prop) (x : Ftp S Bool) : Prop :=
  Logs Conn.log NetEvent.IsWire P x fun b c' => b = false → IsNetFailure c'.ftpResp

/-- Setting `ftp_resp` to a failure and returning. -/
theorem setResp_classed {P : Conn S → Prop} {resp : Int} (h : IsNetFailure resp) (b : Bool) :
    Classed P (do setResp resp; return b) := fun _ _ => ⟨Adds.of rfl, fun _ => h⟩

/-- A call only records itself. -/
theorem call_wire (P : Conn S → Prop) (hP : ∀ c k r size, P c → P (c.called k size r)) (k : NetCall)
    (size : Nat) : Logs Conn.log NetEvent.IsWire P (call net k size) fun _ => P := by
  intro c hc
  refine ⟨?_, hP _ _ _ _ hc⟩
  show Adds Conn.log _ c (c.called k size (net.outcome c.tick k))
  unfold Conn.called
  cases (net.outcome c.tick k).isFull size with
  | true => exact Adds.of rfl
  | false => exact Adds.one rfl trivial

/-- So does the test whether a call has succeeded. -/
theorem succeeds_wire (k : NetCall) :
    Logs Conn.log NetEvent.IsWire (fun _ => True) (succeeds net k) fun _ _ => True :=
  (call_wire (fun _ => True) (fun _ _ _ _ _ => trivial) k 0).bind fun _ =>
  Logs.pure fun _ _ => trivial

/-- A test whose outcome says nothing. -/
theorem classed_test {x y : Ftp S Bool} (k : NetCall) (hx : Classed (fun _ => True) x)
    (hy : Classed (fun _ => True) y) :
    Classed (fun _ => True) (do if ← succeeds net k then x else y) :=
  (succeeds_wire k).bind fun _ => Logs.ite (fun _ => hx) fun _ => hy

/-- A read or write that fails leaves `JFTP_TIMEOUT` or `JFTP_BROKEN`. -/
theorem ioErr_classed (P : Conn S → Prop) (timedOut : Bool) :
    Classed P (ioErr timedOut) := fun _ _ =>
  ⟨Adds.of rfl, fun _ => by
    cases timedOut with
    | false => exact Or.inl rfl
    | true => exact Or.inr (Or.inl rfl)⟩

/-- A byte that is read is gone. -/
theorem ftpReadCom_wire (n : Nat) :
    Logs Conn.log NetEvent.IsWire (fun c => c.input.length < n + 1) (ftpReadCom net) fun r c' =>
      ∀ b, r = .ok b → c'.input.length < n := by
  refine Logs.get.bind fun c₀ => Logs.ite (fun _ => Logs.pure (by simp)) fun _ => ?_
  refine Logs.pre
    (Logs.bind (call_wire (fun c => c.input.length < n + 1) (fun _ _ _ _ h => h) .read 0)
    fun r => ?_) fun c hc => hc.2
  cases r with
  | fail => exact Logs.pure (by simp)
  | timeout => exact Logs.pure (by simp)
  | ok m =>
    intro c hc
    show wp (modifyGet _ : Ftp S _) c _ _
    rw [wp_modifyGet]
    cases hin : c.input with
    | nil => exact ⟨Adds.one rfl trivial, by simp⟩
    | cons b rest =>
      refine ⟨Adds.of rfl, fun _ _ => ?_⟩
      rw [hin, List.length_cons] at hc
      exact Nat.lt_of_succ_lt_succ hc

/-- The end of a line of a reply: the next line, the number of the reply or a failure. -/
theorem endLine_classed {again : Bool → Ftp S Bool} {P : Conn S → Prop}
    (hP : ∀ c buf, P c → P { c with ftpBuf := buf }) (h : ∀ b, Classed P (again b)) (line : Str)
    (islongtext : Bool) : Classed P (endLine again line islongtext) := by
  refine Logs.bind (Logs.modify (R := P) (fun _ => rfl) fun c hc => hP c line hc) fun _ => ?_
  refine Logs.ite (fun _ => setResp_classed (by decide) false) fun _ =>
    Logs.ite (fun _ => h true) fun _ => ?_
  refine Logs.ite (fun _ => setResp_classed (by decide) false) fun _ => ?_
  exact fun _ _ => ⟨Adds.of rfl, fun h => nomatch h⟩

/-- Reading a reply leaves a failure whenever it returns false, by induction on what is still to be
read. -/
theorem readReply_classed (fuel : Nat) : ∀ (line : Str) (size : Nat) (islongtext : Bool),
    Classed (fun c => c.input.length < fuel) (readReply net fuel line size islongtext) := by
  induction fuel with
  | zero => exact fun _ _ _ c hc => absurd hc (Nat.not_lt_zero _)
  | succ fuel ih =>
    intro line size islongtext
    refine (ftpReadCom_wire fuel).bind fun r => ?_
    cases r with
    | error timedOut => exact ioErr_classed _ timedOut
    | ok b =>
      refine Logs.pre (P := fun c => c.input.length < fuel) ?_ fun c hc => hc b rfl
      refine Logs.ite (fun _ => ?_) fun _ => Logs.ite (fun _ => ?_) fun _ => ih _ _ _
      · exact endLine_classed (fun _ _ h => h) (fun lt => ih [] JFTP_BUF lt) line islongtext
      · exact fun _ _ => ⟨Adds.of rfl, fun _ => (by decide : IsNetFailure JFTP_ERR)⟩

/-- So does `ftp_response`. -/
theorem ftpResponse_classed : Classed (fun _ => True) (ftpResponse net) := by
  refine Logs.get.bind fun c₀ => Logs.pre (readReply_classed _ _ _ _) fun c hc => ?_
  rw [← hc.1]
  exact Nat.lt_succ_self _

/-- What a server sends is recorded as such, event by event. -/
theorem deliver_wire (bytes : Str) : ∀ (c : Conn S),
    Adds Conn.log NetEvent.IsWire c (c.deliver net bytes) := by
  induction bytes with
  | nil => exact fun c => Adds.of rfl
  | cons b bytes ih =>
    intro c
    rw [Conn.deliver]
    split
    · have hone : Adds Conn.log NetEvent.IsWire c (c.execute net) := Adds.one rfl trivial
      exact Adds.trans hone (ih (c.execute net))
    · exact Adds.trans (Adds.of rfl) (ih { c with sent := c.sent ++ [b] })

/-- Sending a command only records calls and what the server sends. -/
theorem ftpWrite_wire (bytes : Str) :
    Logs Conn.log NetEvent.IsWire (fun _ => True) (ftpWrite net bytes) fun _ _ => True := by
  refine Logs.get.bind fun c₀ => Logs.ite (fun _ => Logs.pure fun _ _ => trivial) fun _ => ?_
  refine Logs.pre
    (Logs.bind (call_wire (fun _ => True) (fun _ _ _ _ _ => trivial) .write _) fun r => ?_)
    fun _ _ => trivial
  cases r with
  | fail => exact Logs.pure fun _ _ => trivial
  | timeout => exact Logs.pure fun _ _ => trivial
  | ok n =>
    refine Logs.ite (fun _ => Logs.pure fun _ _ => trivial) fun _ => ?_
    exact fun c _ => ⟨deliver_wire _ c, trivial⟩

/-- A command leaves a failure of the network whenever it returns false. -/
theorem ftpReq_classed (cmd : Str) : Classed (fun _ => True) (ftpReq net cmd) := by
  refine Logs.bind (Logs.modify (R := fun _ => True) (fun _ => rfl) fun _ _ => trivial) fun _ => ?_
  refine (ftpWrite_wire _).bind fun r => ?_
  cases r with
  | error timedOut => exact ioErr_classed _ timedOut
  | ok u => exact ftpResponse_classed

/-- A step that changes the connection only, and does not record anything. -/
theorem classed_modify {f : Conn S → Conn S} {x : Ftp S Bool} (hlog : ∀ c, (f c).log = c.log)
    (hx : Classed (fun _ => True) x) : Classed (fun _ => True) (do modify f; x) :=
  (Logs.modify (R := fun _ => True) hlog fun _ _ => trivial).bind fun _ => hx

/-- Making a listening socket only records calls. -/
theorem listenSocket_wire :
    Logs Conn.log NetEvent.IsWire (fun _ => True) (listenSocket net) fun _ _ => True := by
  have hclose : Logs Conn.log NetEvent.IsWire (fun _ => True) (closeListen : Ftp S PUnit)
      fun _ _ => True := fun _ _ => ⟨Adds.of rfl, trivial⟩
  refine hclose.bind fun _ => ?_
  refine (succeeds_wire .socket).bind fun b => Logs.ite (fun _ => ?_) fun _ =>
    Logs.pure fun _ _ => trivial
  exact fun _ _ => ⟨Adds.of rfl, trivial⟩

/-- A connection that was lost while the data connection is set up. -/
theorem portBroken_classed : Classed (fun _ => True) (portBroken : Ftp S Bool) := fun _ _ =>
  ⟨Adds.of rfl, fun _ => (by decide : IsNetFailure JFTP_BROKEN)⟩

/-- Active mode leaves a failure whenever it returns false. -/
theorem portActive_classed : Classed (fun _ => True) (portActive net) := by
  refine listenSocket_wire.bind fun b => Logs.ite (fun _ => ?_) fun _ =>
    setResp_classed (by decide) false
  refine classed_test .bind ?_ portBroken_classed
  refine Logs.get.bind fun c₀ => Logs.pre (P := fun _ => True) ?_ fun _ _ => trivial
  refine classed_test .getsockname (classed_test .listen ?_ portBroken_classed) portBroken_classed
  refine (ftpReq_classed _).bind fun b => Logs.get.bind fun c₁ => Logs.ite (fun _ => ?_) fun _ => ?_
  · exact Logs.pure fun _ _ h => nomatch h
  · cases b with
    | true => exact fun _ _ => ⟨Adds.of rfl, fun _ => (by decide : IsNetFailure JFTP_ERR)⟩
    | false => exact fun c hc => ⟨Adds.of rfl, fun _ => hc.2 rfl⟩

/-- So does the `connect` of passive mode. -/
theorem portConnect_classed : Classed (fun _ => True) (portConnect net) := by
  have hfd : Logs Conn.log NetEvent.IsWire (fun _ => True) (newFd : Ftp S Nat) fun _ _ => True :=
    fun _ _ => ⟨Adds.of rfl, trivial⟩
  refine classed_modify (fun _ => rfl) (classed_test .socket ?_ (setResp_classed (by decide) false))
  refine hfd.bind fun fd => classed_modify (fun _ => rfl) ?_
  refine classed_test .connect (Logs.pure fun _ _ h => nomatch h) ?_
  exact classed_modify (fun _ => rfl) (setResp_classed (by decide) false)

/-- So does passive mode. -/
theorem portPassive_classed : Classed (fun _ => True) (portPassive net) := by
  refine (ftpReq_classed _).bind fun b => Logs.get.bind fun c₁ =>
    Logs.ite (fun _ => Logs.ite (fun _ => ?_) fun _ => ?_)
    fun _ => ?_
  · exact portConnect_classed.pre fun _ _ => trivial
  · exact setResp_classed (by decide) false
  · cases b with
    | true => exact fun _ _ => ⟨Adds.of rfl, fun _ => (by decide : IsNetFailure JFTP_ERR)⟩
    | false => exact fun c hc => ⟨Adds.of rfl, fun _ => hc.2 rfl⟩

/-- So does the choice between the two. -/
theorem ftpPort_classed : Classed (fun _ => True) (ftpPort net) := by
  refine Logs.get.bind fun c₀ => Logs.pre (P := fun _ => True) ?_ fun _ _ => trivial
  refine (succeeds_wire .getsockname).bind fun b =>
    Logs.ite (fun _ => Logs.ite (fun _ => ?_) fun _ => ?_) fun _ => ?_
  · exact portPassive_classed
  · exact portActive_classed
  · exact fun _ _ => ⟨Adds.of rfl, fun _ => (by decide : IsNetFailure JFTP_BROKEN)⟩

/-- A call of `ftp_read_data`, where less than `n` bytes are still to come. -/
theorem ftpReadData_classed (n : Nat) :
    Logs Conn.log NetEvent.IsWire (fun c => c.data.length < n)
      (ftpReadData net JFTP_BUF) fun b c' =>
      (b = true → c'.ftpResp ≤ 0 ∧ 0 < n ∨ c'.data.length + 2 ≤ n) ∧
      (b = false → IsNetFailure c'.ftpResp) := by
  intro c hc
  refine ftpReadData_spec (by decide) fun b c' hread => ?_
  cases hread with
  | chunk _ k hk _ _ hlog _ hresp hdata =>
    refine ⟨Adds.of hlog, fun _ => ?_, fun h => nomatch h⟩
    rw [hresp, hdata, List.length_take, List.length_drop]
    omega
  | lost _ k r _ _ hlog _ hresp =>
    refine ⟨Adds.one hlog trivial, fun h => (nomatch h), fun _ => ?_⟩
    rcases hresp with hlost | ⟨herr, -⟩
    · exact hlost.isNetFailure
    · rw [herr]
      decide
  | closed _ _ _ _ hlog _ hresp =>
    exact ⟨Adds.of hlog, fun h => (nomatch h), fun _ => hresp.isNetFailure⟩

/-! ## Listings -/

/-- The class of the failure that an event records. -/
def NetEvent.failure : NetEvent S → Option Int
  | .wentDown false resp => some resp
  | .listFailed resp => some resp
  | .wentBack false resp _ => some resp
  | _ => none

/-- An event that records no failure of `ftp_dir`. -/
def NetEvent.IsInner (e : NetEvent S) : Prop := e.failure = none

/-- What comes over the wire is inside a listing. -/
theorem NetEvent.IsWire.isInner {e : NetEvent S} (h : e.IsWire) : e.IsInner := by
  cases e with
  | wentDown ok resp => exact h.elim
  | wentBack ok resp kept => exact h.elim
  | listFailed resp => exact h.elim
  | _ => rfl

/-- What a listing records: nothing but inner events where it succeeds, and its class once
where it fails. -/
def ListEnd (c : Conn S) (res : Option Str) (c' : Conn S) : Prop :=
  (res.isSome = true ∧ Adds Conn.log NetEvent.IsInner c c') ∨
  (res = none ∧ ∃ resp c₁ c₂, IsFailure resp ∧ Adds Conn.log NetEvent.IsInner c c₁ ∧
    c₂.log = .listFailed resp :: c₁.log ∧ Adds Conn.log NetEvent.IsInner c₂ c')

/-- From `P` the listing ends. -/
def Listing (P : Conn S → Prop) (x : Ftp S (Option Str)) : Prop :=
  ∀ c, P c → wp x c (ListEnd c) (fun _ _ => False)

/-- The end of a listing, seen from an earlier state of the same listing. -/
theorem ListEnd.since {c c₁ c' : Conn S} {res : Option Str}
    (h : Adds Conn.log NetEvent.IsInner c c₁)
    (h' : ListEnd c₁ res c') : ListEnd c res c' := by
  rcases h' with ⟨hsome, hadds⟩ | ⟨hnone, resp, c₂, c₃, hresp, hadds, hlog, hmore⟩
  · exact Or.inl ⟨hsome, h.trans hadds⟩
  · exact Or.inr ⟨hnone, resp, c₂, c₃, hresp, h.trans hadds, hlog, hmore⟩

/-- The end of a listing, with more of its inner events behind it. -/
theorem ListEnd.until {c c₁ c' : Conn S} {res : Option Str} (h : ListEnd c res c₁)
    (h' : Adds Conn.log NetEvent.IsInner c₁ c') : ListEnd c res c' := by
  rcases h with ⟨hsome, hadds⟩ | ⟨hnone, resp, c₂, c₃, hresp, hadds, hlog, hmore⟩
  · exact Or.inl ⟨hsome, hadds.trans h'⟩
  · exact Or.inr ⟨hnone, resp, c₂, c₃, hresp, hadds, hlog, hmore.trans h'⟩

variable {α : Type} {P : Conn S → Prop}

/-- A stronger condition in front. -/
theorem Listing.pre {A : Conn S → Prop} {x : Ftp S (Option Str)} (hx : Listing P x)
    (h : ∀ c, A c → P c) :
    Listing A x := fun c hc => hx c (h c hc)

/-- One of two ways to go on. -/
theorem Listing.ite {b : Prop} [Decidable b] {x y : Ftp S (Option Str)} (hx : b → Listing P x)
    (hy : ¬b → Listing P y) : Listing P (if b then x else y) := by
  by_cases h : b
  · rw [if_pos h]; exact hx h
  · rw [if_neg h]; exact hy h

/-- What comes before a listing. -/
theorem Listing.bind {x : Ftp S α} {f : α → Ftp S (Option Str)} {Q : α → Conn S → Prop}
    (hx : Logs Conn.log NetEvent.IsWire P x Q) (hf : ∀ a, Listing (Q a) (f a)) :
    Listing P (x >>= f) := fun c hc =>
  wp_seq (hx c hc) fun a c₁ h => wp_mono (hf a c₁ h.2)
    (fun _ _ h' => h'.since (h.1.mono fun _ => NetEvent.IsWire.isInner)) fun _ _ h' => h'

/-- Recording a failure ends a listing as it should, with `ftp_resp` set to a failure. -/
theorem listFailed_listing (resp : Int) :
    Listing (fun _ : Conn S => IsFailure resp) (listFailed resp) := fun c hc =>
  Or.inr ⟨rfl, resp, c, c.logged (.listFailed resp), hc, Adds.of rfl, rfl, Adds.of rfl⟩

/-- The class is what `ftp_resp` shows. -/
theorem listFailed_resp :
    Listing (fun c => IsFailure c.ftpResp)
      (do let c ← get; listFailed c.ftpResp : Ftp S (Option Str)) :=
  fun c hc => listFailed_listing c.ftpResp c hc

/-- Closing the data connection first changes nothing about the end. -/
theorem closes_listing {P : Conn S → Prop} (hP : ∀ c, P c → P c.closeListen.closeData)
    {x : Ftp S (Option Str)} (hx : Listing P x) :
    Listing P (do closeListen; closeData; x) := fun c hc =>
  wp_mono (hx c.closeListen.closeData (hP c hc)) (fun _ _ h => h.since (Adds.of rfl)) fun _ _ h => h

/-- A lost data connection is recorded in front of the failure. -/
theorem listDataLost_listing :
    Listing (fun c => IsFailure c.ftpResp) (listDataLost : Ftp S (Option Str)) := fun c hc =>
  wp_mono (listFailed_resp (c.logged .listDataLost) hc)
    (fun _ _ h => h.since (Adds.one (x := .listDataLost) rfl rfl)) fun _ _ h => h

/-- The loop of a listing, by induction on the data that is still to come. -/
theorem dirLoop_listing (fuel : Nat) : ∀ tmp : Str,
    Listing (fun c => c.ftpResp ≤ 0 ∧ 0 < fuel ∨ c.data.length + 2 ≤ fuel)
      (dirLoop net fuel tmp) := by
  induction fuel with
  | zero =>
    intro tmp c hc
    exact absurd hc (by omega)
  | succ fuel ih =>
    intro tmp
    refine Listing.bind Logs.get fun c₀ => Listing.ite (fun _ => ?_) fun hmore => ?_
    · exact fun c _ => Or.inl ⟨rfl, Adds.of rfl⟩
    refine Listing.pre
      (Listing.bind (call_wire (fun c => c.data.length < fuel) (fun _ _ _ _ h => h) .writeFile _)
      fun r => ?_) fun c hc => ?_
    swap
    · obtain ⟨rfl, hc⟩ := hc
      omega
    have hfail : Listing (fun c => c.data.length < fuel) (do
        setResp JFTP_WRITEERR
        closeListen
        closeData
        let _ ← ftpResponse net
        listFailed JFTP_WRITEERR) := by
      refine Listing.bind
        (Logs.modify (R := fun _ => True) (fun _ => rfl) fun _ _ => trivial) fun _ => ?_
      refine closes_listing (fun _ h => h) (Listing.bind ftpResponse_classed fun _ => ?_)
      exact (listFailed_listing JFTP_WRITEERR).pre fun _ _ => by decide
    cases r with
    | fail => exact hfail
    | timeout => exact hfail
    | ok n =>
      refine Listing.bind (ftpReadData_classed fuel) fun b =>
        Listing.ite (fun hb => ?_) fun hb => ?_
      · exact (ih _).pre fun c hc => hc.1 hb
      · refine (closes_listing (fun _ h => h) listDataLost_listing).pre fun c hc => Or.inl (hc.2 ?_)
        simpa using hb

/-- The end of a listing reads the last reply. -/
theorem dirFinish_listing (tmp : Str) : Listing (fun _ => True) (dirFinish net tmp) := by
  refine closes_listing (fun _ h => h)
    (Listing.bind ftpResponse_classed fun b => Listing.ite (fun _ => ?_) fun _ => ?_)
  · refine Listing.bind Logs.get fun c₀ => Listing.ite (fun _ => ?_) fun _ => ?_
    · exact (listFailed_listing JFTP_ERR).pre fun _ _ => by decide
    · exact fun c _ => Or.inl ⟨rfl, Adds.of rfl⟩
  · exact fun c _ => Or.inr ⟨rfl, JFTP_BROKEN, _, _, by decide, Adds.of rfl, rfl, Adds.of rfl⟩

/-- The data connection of a listing, from its first read to its end. -/
theorem dirData_listing : Listing (fun _ => True) (dirData net) := by
  intro c _
  refine Listing.bind (P := fun c' => c'.data.length < c.data.length + 1) (ftpReadData_classed _)
    (fun b => Listing.ite (fun _ => ?_) fun hb => ?_) c (Nat.lt_succ_self _)
  · refine Listing.bind Logs.get fun c₀ => ?_
    intro c₁ hc₁
    obtain ⟨rfl, -⟩ := hc₁
    refine (wp_bind _ _).mpr
      (wp_mono (dirLoop_listing _ [] c₀ (Or.inr (Nat.le_refl _))) (fun res c₂ h => ?_)
      fun _ _ h => h)
    cases res with
    | none => exact h
    | some tmp =>
      have hadds : Adds Conn.log NetEvent.IsInner c₀ c₂ := h.elim And.right fun h' => nomatch h'.1
      exact wp_mono (dirFinish_listing tmp c₂ trivial) (fun _ _ h' => h'.since hadds)
        fun _ _ h' => h'
  · exact listDataLost_listing.pre fun c' hc' => Or.inl (hc'.2 (by simpa using hb))

/-- A listing, with its command, gives the file or ends in a failure that is recorded. -/
theorem ftpList_listing (flags dir : Str) : Listing (fun _ => True) (ftpList net flags dir) := by
  refine Listing.bind ftpPort_classed fun b => Listing.ite (fun _ => ?_) fun hb => ?_
  · refine Listing.bind ((ftpReq_classed _).pre fun _ _ => trivial) fun b =>
      Listing.bind Logs.get fun c₀ => Listing.ite (fun _ => ?_) fun _ => ?_
    · exact dirData_listing.pre fun _ _ => trivial
    · cases b with
      | true =>
        refine Listing.pre (P := fun _ => True) (closes_listing (fun _ h => h) ?_)
          fun _ _ => trivial
        refine Listing.bind
          (Logs.modify (R := fun c => IsFailure c.ftpResp) (fun _ => rfl) fun _ _ => ?_) fun _ =>
          listFailed_resp
        exact (by decide : IsFailure JFTP_ERR)
      | false =>
        refine Listing.pre (P := fun c => IsFailure c.ftpResp) (closes_listing (fun _ h => h) ?_)
          fun c hc => Or.inl (hc.2 rfl)
        exact listFailed_resp
  · refine (closes_listing (P := fun c => IsFailure c.ftpResp) (fun _ h => h) listFailed_resp).pre
      fun c hc => Or.inl (hc ?_)
    simpa using hb

/-- `ftp_dir2`. -/
theorem ftpDir2_listing (flags dir : Str) : Listing (fun _ => True) (ftpDir2 net flags dir) := by
  have hreturn : ∀ {x : Ftp S (Option Str)} {P : Conn S → Prop}, Listing P x → Listing P (do
      let tmp ← x
      let c ← get
      recordNet (.returned tmp.isSome c.ftpResp (c.input ++ c.sent))
      return tmp) := by
    intro x P hx c hc
    refine (wp_bind _ _).mpr (wp_mono (hx c hc) (fun res c' h => ?_) fun _ _ h => h)
    exact h.until (Adds.one (x := .returned res.isSome c'.ftpResp (c'.input ++ c'.sent)) rfl rfl)
  have hfail : ∀ resp, IsFailure resp →
      Listing (fun _ => True)
        (do setResp resp; listFailed resp : Ftp S (Option Str)) := fun resp h =>
    Listing.bind (Logs.modify (R := fun _ => IsFailure resp) (fun _ => rfl) fun _ _ => h) fun _ =>
      listFailed_listing resp
  refine Listing.bind (succeeds_wire .malloc) fun _ => Listing.ite (fun _ => ?_) fun _ => ?_
  · refine Listing.bind (succeeds_wire .mkstemp) fun _ => Listing.ite (fun _ => ?_) fun _ => ?_
    · exact hreturn (ftpList_listing flags dir)
    · exact hreturn (hfail JFTP_WRITEERR (by decide))
  · exact hreturn (hfail JFTP_ERRNO (by decide))

/-! ## The class that `ftp_dir` leaves behind -/

/-- The classes of the failures, the first one first. -/
def failures (new : List (NetEvent S)) : List Int := new.reverse.filterMap NetEvent.failure

/-- The events are recorded with the last one in front, and the failures listed with the first one
in front. -/
theorem failures_cons (e : NetEvent S) (new : List (NetEvent S)) :
    failures (e :: new) = failures new ++ e.failure.toList := by
  unfold failures
  rw [List.reverse_cons, List.filterMap_append]
  cases h : e.failure <;> simp [h]

/-- The failures of two parts of a run. -/
theorem failures_append (new new' : List (NetEvent S)) :
    failures (new' ++ new) = failures new ++ failures new' := by
  unfold failures
  rw [List.reverse_append, List.filterMap_append]

/-- Inside a listing no failure is recorded. -/
theorem failures_inner {new : List (NetEvent S)} (h : ∀ e ∈ new, e.IsInner) :
    failures new = [] := by
  unfold failures
  rw [List.filterMap_eq_nil_iff]
  exact fun e he => h e (List.mem_reverse.mp he)

/-- What `ftp_dir` is to leave in `ftp_resp` where it fails: the class of the failure that made
it fail. -/
def ClassRight (c : Conn S) (res : Option Str) (c' : Conn S) : Prop :=
  res = none → IsFailure c'.ftpResp ∧ (failures (newEvents c c')).head? = some c'.ftpResp

/-- A `CWD` that succeeds leaves its code behind. -/
theorem ftpCd_resp (dir : Str) :
    Logs Conn.log NetEvent.IsWire (fun _ => True) (ftpCd net dir) fun b c' =>
      (b = false → IsFailure c'.ftpResp) ∧ (b = true → c'.ftpResp = 250) := by
  refine (succeeds_wire .malloc).bind fun _ => Logs.ite (fun _ => ?_) fun _ => ?_
  swap
  · exact fun _ _ => ⟨Adds.of rfl, fun _ => (by decide : IsFailure JFTP_ERRNO), fun h => nomatch h⟩
  refine Logs.bind (Logs.modify (R := fun _ => True) (fun _ => rfl) fun _ _ => trivial) fun _ => ?_
  refine (ftpReq_classed _).bind fun b => Logs.ite (fun _ => ?_) fun hb => ?_
  · refine Logs.get.bind fun c₀ => Logs.ite (fun _ => ?_) fun hresp => ?_
    · exact fun _ _ => ⟨Adds.of rfl, fun _ => (by decide : IsFailure JFTP_ERR), fun h => nomatch h⟩
    · refine Logs.pure fun c hc => ⟨fun h => (nomatch h), fun _ => ?_⟩
      rw [← hc.1]
      exact not_not.mp hresp
  · exact Logs.pure fun c hc => ⟨fun _ => Or.inl (hc (by simpa using hb)), fun h => nomatch h⟩

variable {c : Conn S}

/-- Going down into a directory records its inner events, and then how it went. -/
theorem wp_goDown {dir : Str} {Q : Bool → Conn S → Prop} {E : Exit → Conn S → Prop}
    (h : ∀ b c' new, c'.log = .wentDown b c'.ftpResp :: (new ++ c.log) → (∀ e ∈ new, e.IsInner) →
      (b = false → IsFailure c'.ftpResp) → Q b c') : wp (goDown net dir) c Q E := by
  refine (wp_bind _ _).mpr
    (wp_mono (ftpCd_resp dir c trivial) (fun b c' hc' => ?_) fun _ _ h => h.elim)
  obtain ⟨⟨new, hnew, hwire⟩, hfail, -⟩ := hc'
  refine h b (c'.logged (.wentDown b c'.ftpResp)) new ?_ (fun e he => (hwire e he).isInner) hfail
  rw [← hnew]
  rfl

/-- A recorded failure is none of the inner events. -/
theorem not_mem_inner {new : List (NetEvent S)} (h : ∀ e ∈ new, e.IsInner) {e : NetEvent S}
    (he : e.failure ≠ none) : e ∉ new := fun hmem => he (h e hmem)

/-- A failure without a listing that failed before it. -/
theorem classRight_first {c c' : Conn S} {e : NetEvent S} {new : List (NetEvent S)}
    (hnew : newEvents c c' = e :: new) (hinner : ∀ e ∈ new, e.IsInner)
    (he : e.failure = some c'.ftpResp) (hfail : IsFailure c'.ftpResp) : ClassRight c none c' := by
  intro _
  rw [hnew, failures_cons, failures_inner hinner, he]
  exact ⟨hfail, rfl⟩

/-- A server that lists nothing. -/
def shyServer : Server Unit :=
  { greeting := (helloServer (Reply.short 150 Reply.code_150)).greeting
    answer := fun s cmd =>
      if word cmd = ['L', 'I', 'S', 'T'] then (⟨[Reply.short 550 Reply.code_550], []⟩, s)
      else (helloServer (Reply.short 150 Reply.code_150)).answer s cmd }

/-- The server keeps to the protocol. -/
theorem shyServer_rfc959 : Rfc959 shyServer := by
  have hhello : Rfc959 (helloServer (Reply.short 150 (by decide))) :=
    helloServer_rfc959 (Or.inr rfl)
  constructor
  case greeting => exact hhello.greeting
  case transfer =>
    intro s cmd h
    rcases h with h | h
    · have hne : word cmd ≠ ['L', 'I', 'S', 'T'] := by
        rw [h]
        decide
      have hanswer :
        shyServer.answer s cmd = (helloServer (Reply.short 150 (by decide))).answer s cmd :=
        if_neg hne
      rw [hanswer]
      exact hhello.transfer s cmd (Or.inl h)
    · have hanswer : shyServer.answer s cmd = (⟨[Reply.short 550 (by decide)], []⟩, s) := if_pos h
      rw [hanswer]
      exact Or.inl ⟨Reply.short 550 (by decide), by decide, rfl⟩
  case single =>
    intro s cmd h
    have hanswer :
      shyServer.answer s cmd = (helloServer (Reply.short 150 (by decide))).answer s cmd :=
      if_neg fun hlist => h (Or.inr hlist)
    rw [hanswer]
    exact hhello.single s cmd h

instance (c c' : Conn S) (res : Option Str) : Decidable (ClassRight c res c') :=
  inferInstanceAs
    (Decidable (res = none → IsFailure c'.ftpResp ∧ (failures (newEvents c c')).head? = _))

/-- A connection that is logged in. -/
def loggedIn : Conn Unit := { Conn.init () with ftpCom := some 0, ftpRemoteDir := some ['/', 'p'] }

end Spegla.Jftp
