import Spegla.Jftp.LocalFile

/-!
# The closing of the local file

- `FileState`, `fileState`: whether the local file of `ftp_get` is open, from what was recorded.
- `fetchData`: `ftp_get` up to the end of the data. `ftpRetr_eq`: what follows it.
- `ftpGet_closes`: the file is closed exactly once, and not used afterwards, exactly if `fseek` does
  not fail and the reply at the end of the data is there and is 226.
-/

namespace Spegla.Jftp

open CString FtpReply ExitState

variable {S : Type} {net : Net S}

/-- What has become of a local file; `misused` is one that was used or closed while not open. -/
inductive FileState where
  | unopened | opened | closed | misused
deriving DecidableEq, Repr

/-- After an event. -/
def FileState.after : FileState → NetEvent S → FileState
  | .unopened, .fopen _ => .opened
  | _, .fopen _ => .misused
  | .opened, .fwrite .. => .opened
  | _, .fwrite .. => .misused
  | .opened, .fclose _ => .closed
  | _, .fclose _ => .misused
  | s, _ => s

/-- After the events of a record. -/
def fileState (s : FileState) (new : List (NetEvent S)) : FileState :=
  new.foldr (fun e s => s.after e) s

/-- The state of a file after two parts of a run. -/
theorem fileState_append (s : FileState) (new new' : List (NetEvent S)) :
    fileState s (new' ++ new) = fileState (fileState s new) new' := List.foldr_append

/-- A call has closed the file that it has opened exactly once, and not used it afterwards. -/
def ClosedOnce (c c' : Conn S) : Prop :=
  fileState .unopened (newEvents c c') = .unopened ∨ fileState .unopened (newEvents c c') = .closed

/-- What comes over the wire leaves it alone. -/
theorem fileState_wire (s : FileState) {new : List (NetEvent S)} (h : ∀ e ∈ new, e.IsWire) :
    fileState s new = s := by
  induction new with
  | nil => rfl
  | cons e new ih =>
    have ih := ih fun e' he' => h e' (List.mem_cons_of_mem _ he')
    have he : e.IsWire := h e (List.mem_cons_self ..)
    show (fileState s new).after e = s
    rw [ih]
    cases e with
    | fopen keep => exact he.elim
    | fwrite chunk written flushed => exact he.elim
    | fclose flushed => exact he.elim
    | _ => cases s <;> rfl

/-- Writing leaves the file open. -/
theorem fileState_writes {new : List (NetEvent S)} (h : ∀ e ∈ new, e.IsWrite) :
    fileState .opened new = .opened := by
  induction new with
  | nil => rfl
  | cons e new ih =>
    have ih := ih fun e' he' => h e' (List.mem_cons_of_mem _ he')
    have he : e.IsWrite := h e (List.mem_cons_self ..)
    show (fileState .opened new).after e = .opened
    rw [ih]
    cases e with
    | fopen keep => exact he.elim
    | fclose flushed => exact he.elim
    | _ => rfl

/-! ## Up to the end of the data -/

variable (net) in
/-- `ftp_get`, once the local file is open, up to the end of the data: whether it gets there. -/
def fetchData (remoteFile : Str) (seekto : Nat) : Ftp S Bool := do
  if ← ftpPort net then
    if ← ftpRest net seekto then
      let ok ← ftpReq net (['R', 'E', 'T', 'R', ' '] ++ remoteFile)
      let c ← get
      if ok ∧ c.ftpResp = 150 then
        if ← ftpReadData net JFTP_BUF then
          let c ← get
          getLoop net (c.data.length + 2)
        else return false
      else
        if ok then setResp JFTP_ERR
        return false
    else return false
  else
    modify fun c =>
      if c.ftpResp ≠ JFTP_BROKEN ∧ c.ftpResp ≠ JFTP_TIMEOUT then { c with ftpResp := JFTP_ERR }
        else c
    return false

/-- A test goes on in both branches. -/
theorem ite_bind {α β : Type} {p : Prop} [Decidable p] (x y : Ftp S α) (f : α → Ftp S β) :
    (if p then x else y) >>= f = if p then x >>= f else y >>= f := by
  split <;> rfl

/-- What follows the end of the data, and what follows a failure before it. -/
theorem ftpRetr_eq (remoteFile : Str) (seekto : Nat) :
    ftpRetr net remoteFile seekto = (do
      if ← fetchData net remoteFile seekto then getFinish net else retBad net) := by
  simp only [ftpRetr, fetchData, getData, bind_assoc, ite_bind, pure_bind,
    Bool.false_eq_true, if_false]

variable (net) in
/-- The data of a download is written to the file that is open. -/
theorem fetchData_writes (remoteFile : Str) (seekto : Nat) :
    Logs Conn.log NetEvent.IsWrite (fun _ => True) (fetchData net remoteFile seekto)
      fun _ _ => True := by
  have hwire : ∀ {x : Ftp S Bool}, Classed (fun _ => True) x →
      Logs Conn.log NetEvent.IsWrite (fun _ => True) x fun _ _ => True := fun h =>
    (h.mono fun _ => NetEvent.IsWire.isWrite).post fun _ _ _ => trivial
  refine (hwire ftpPort_classed).bind fun b => Logs.ite (fun _ => ?_) fun _ => ?_
  swap
  · exact fun c _ => ⟨Adds.of (by dsimp only [modify]; split <;> rfl), trivial⟩
  refine (hwire (ftpRest_classed seekto)).bind fun b => Logs.ite (fun _ => ?_) fun _ => ?_
  swap
  · exact Logs.pure fun _ _ => trivial
  refine (hwire (ftpReq_classed _)).bind fun b => Logs.pre (Logs.get.bind fun c₀ => ?_) fun c h => h
  refine Logs.ite (fun _ => ?_) fun _ => ?_
  · intro c _
    refine Logs.bind (P := fun c' => c'.data.length < c.data.length + 1)
      ((ftpReadData_classed _).mono fun _ => NetEvent.IsWire.isWrite)
      (fun b => Logs.ite (fun _ => ?_) fun _ => Logs.pure fun _ _ => trivial) c (Nat.lt_succ_self _)
    refine Logs.get.bind fun c₀ => ?_
    refine Logs.pre ((getLoop_writes (c₀.data.length + 2)).post fun _ _ _ => trivial)
      fun c' hc' => ?_
    rw [hc'.1]
    exact Or.inr (Nat.le_refl _)
  · cases b with
    | true => exact fun _ _ => ⟨Adds.of rfl, trivial⟩
    | false => exact fun _ _ => ⟨Adds.of rfl, trivial⟩

/-! ## What `ftp_get` does about the file -/

/-- `fseek` succeeds, where it is called. -/
def SeekWorks (net : Net S) (c : Conn S) (seekto : Nat) : Prop :=
  (net.outcome c.tick .fopen).isFull 0 = true → 0 < seekto →
    (net.outcome (c.tick + 1) .fseek).isFull 0 = true

/-- `ftp_get` gets to the end of the data in the state `c'`. -/
def EndOfData (net : Net S) (c : Conn S) (remoteFile : Str) (seekto : Nat) (c' : Conn S) : Prop :=
  ∃ c₀, getOpen net seekto c = .ok true c₀ ∧ fetchData net remoteFile seekto c₀ = .ok true c'

/-- Once the data connection is closed, the server's final reply is there and is 226. -/
def Completed (net : Net S) (c : Conn S) : Prop :=
  wp (ftpResponse net) (c.logged (.fclose (net.flushed c.tick))).closeListen.closeData
    (fun ok c' => ok = true ∧ c'.ftpResp = 226) fun _ _ => False

/-- The test of a call has exactly the outcome of the network. -/
theorem wp_succeeds_iff {c : Conn S} {k : NetCall} {Q : Bool → Conn S → Prop}
    {E : Exit → Conn S → Prop} : wp (succeeds net k) c Q E ↔
      Q ((net.outcome c.tick k).isFull 0) (c.called k 0 (net.outcome c.tick k)) := Iff.rfl

/-- A call that succeeds is not recorded. -/
theorem called_full {c : Conn S} {k : NetCall} {r : Outcome} (h : r.isFull 0 = true) :
    (c.called k 0 r).log = c.log := if_pos h

/-- One that fails is. -/
theorem called_lost {c : Conn S} {k : NetCall} {r : Outcome} (h : r.isFull 0 = false) :
    (c.called k 0 r).log = .lost k r :: c.log := if_neg (by rw [h]; decide)

variable (net) in
/-- How the opening of the local file ends: open, open and given up by `fseek`, or not open. -/
theorem getOpen_ends (c : Conn S) (seekto : Nat) :
    wp (getOpen net seekto) c (fun b c' =>
      (b = true ∧ SeekWorks net c seekto ∧ c'.log = .fopen (0 < seekto) :: c.log) ∨
      (b = false ∧ ¬SeekWorks net c seekto ∧
        ∃ r, c'.log = .lost .fseek r :: .fopen (0 < seekto) :: c.log) ∨
      (b = false ∧ SeekWorks net c seekto ∧ ∃ r, c'.log = .lost .fopen r :: c.log))
      fun _ _ => False := by
  refine (wp_bind _ _).mpr (wp_succeeds_iff.mpr ?_)
  cases hopen : (net.outcome c.tick .fopen).isFull 0 with
  | false =>
    refine Or.inr (Or.inr ⟨rfl, fun h => ?_, _, called_lost hopen⟩)
    rw [hopen] at h
    exact absurd h (by decide)
  | true =>
    have hlog := called_full (c := c) (k := .fopen) hopen
    refine (wp_bind _ _).mpr
      ((wp_modify _).mpr ((wp_ite _ _).mpr ⟨fun hpos => ?_, fun hzero => ?_⟩))
    · refine (wp_bind _ _).mpr (wp_succeeds_iff.mpr ?_)
      show wp (if (net.outcome (c.tick + 1) .fseek).isFull 0 = true then _ else _) _ _ _
      cases hseek : (net.outcome (c.tick + 1) .fseek).isFull 0 with
      | true =>
        refine Or.inl ⟨rfl, fun _ _ => hseek, ?_⟩
        exact (called_full hseek).trans (congrArg (List.cons _) hlog)
      | false =>
        refine Or.inr (Or.inl ⟨rfl, fun h => ?_, net.outcome (c.tick + 1) .fseek, ?_⟩)
        · exact absurd ((h hopen hpos).symm.trans hseek) (by decide)
        · exact (called_lost hseek).trans (congrArg (fun l => _ :: _ :: l) hlog)
    · exact Or.inl ⟨rfl, fun _ hpos => absurd hpos hzero, congrArg (List.cons _) hlog⟩

/-- The record of a call, from that of its parts. -/
theorem newEvents_returned {c c' : Conn S} {new : List (NetEvent S)} (h : c'.log = new ++ c.log)
    (ok : Bool) (resp : Int) (unread : Str) :
    newEvents c (c'.logged (.returned ok resp unread)) = .returned ok resp unread :: new :=
  newEvents_eq (congrArg (List.cons _) h)

/-- What the end of `ftp_get` makes of an open file. -/
theorem getFinish_closes (c : Conn S) :
    wp (getFinish net) c (fun _ c' => ∃ new, c'.log = new ++ c.log ∧
      (Completed net c ∧ fileState .opened new = .closed ∨
        ¬Completed net c ∧ fileState .opened new = .misused)) fun _ _ => False := by
  refine (wp_bind _ _).mpr ((wp_modify _).mpr ((wp_bind _ _).mpr ((wp_modify _).mpr
    ((wp_bind _ _).mpr ((wp_modify _).mpr ((wp_bind _ _).mpr ?_))))))
  have hreply : Classed (fun _ => True) (ftpResponse net) := ftpResponse_classed
  obtain ⟨b, c₁, hrun, ⟨new, hnew, hwire⟩, -⟩ :=
    wp_result (hreply (c.logged (.fclose (net.flushed c.tick))).closeListen.closeData trivial)
  have hstate : fileState .opened (new ++ [.fclose (net.flushed c.tick)]) = .closed := by
    rw [fileState_append]
    exact fileState_wire _ hwire
  have hlog : c₁.log = (new ++ [.fclose (net.flushed c.tick)]) ++ c.log := by
    rw [List.append_assoc]
    exact hnew
  have hiff : Completed net c ↔ b = true ∧ c₁.ftpResp = 226 := wp_of_result hrun
  have hbad : ∀ (c₂ : Conn S) (n : Nat), c₂.log = .fclose n :: c₁.log →
      ∃ new', c₂.log = new' ++ c.log ∧ fileState .opened new' = .misused := by
    intro c₂ n h₂
    refine ⟨.fclose n :: (new ++ [.fclose (net.flushed c.tick)]), by rw [h₂, hlog]; rfl, ?_⟩
    show (fileState .opened (new ++ [.fclose (net.flushed c.tick)])).after (.fclose n) = .misused
    rw [hstate]
    rfl
  refine (wp_of_result hrun).mpr ?_
  cases b with
  | false =>
    obtain ⟨new', hlog', hstate'⟩ := hbad (c₁.closeCom.logged (.fclose (net.flushed c₁.tick))) _ rfl
    exact ⟨new', hlog', Or.inr ⟨fun h => absurd (hiff.mp h).1 (by decide), hstate'⟩⟩
  | true =>
    refine (wp_bind _ _).mpr ((wp_get).mpr ((wp_ite _ _).mpr ⟨fun hresp => ?_, fun hresp => ?_⟩))
    · obtain ⟨new', hlog', hstate'⟩ := hbad (c₁.logged (.fclose (net.flushed c₁.tick))) _ rfl
      exact ⟨new', hlog', Or.inr ⟨fun h => hresp (hiff.mp h).2, hstate'⟩⟩
    · exact ⟨_, hlog, Or.inl ⟨hiff.mpr ⟨rfl, not_not.mp hresp⟩, hstate⟩⟩

/-- Whether the file has been closed once shows in what was recorded since the start. -/
theorem closedOnce_returned {c c' : Conn S} {new : List (NetEvent S)} (h : c'.log = new ++ c.log)
    (ok : Bool) (resp : Int) (unread : Str) :
    ClosedOnce c (c'.logged (.returned ok resp unread)) ↔
      fileState .unopened new = .unopened ∨ fileState .unopened new = .closed := by
  have hstate : fileState .unopened (newEvents c (c'.logged (.returned ok resp unread))) =
      fileState .unopened new := by
    rw [newEvents_returned h]
    show (fileState .unopened new).after (.returned ok resp unread) = _
    cases fileState .unopened new <;> rfl
  rw [ClosedOnce, hstate]

/-- **The closing of the local file.** The file that `ftp_get` opens is closed exactly once, and not
used afterwards, exactly if `fseek` works and the final reply to what was fetched is 226. -/
theorem ftpGet_closes (net : Net S) (c : Conn S) (remoteFile : Str) (seekto : Nat) :
    wp (ftpGet net remoteFile seekto) c
      (fun _ c' => ClosedOnce c c' ↔ SeekWorks net c seekto ∧
        ∀ c₁, EndOfData net c remoteFile seekto c₁ → Completed net c₁) fun _ _ => False := by
  obtain ⟨b, c₀, hopen, hends⟩ := wp_result (getOpen_ends net c seekto)
  refine (wp_bind _ _).mpr ((wp_bind _ _).mpr ((wp_of_result hopen).mpr ?_))
  -- the data is at its end only in the state that the loop leaves
  have hend : ∀ c₁, EndOfData net c remoteFile seekto c₁ ↔
      b = true ∧ fetchData net remoteFile seekto c₀ = .ok true c₁ := by
    intro c₁
    constructor
    · rintro ⟨c₂, h₂, hfetch⟩
      cases hopen.symm.trans h₂
      exact ⟨rfl, hfetch⟩
    · rintro ⟨rfl, hfetch⟩
      exact ⟨c₀, hopen, hfetch⟩
  obtain ⟨rfl, hseek, hlog⟩ | ⟨rfl, hseek, r, hlog⟩ | ⟨rfl, hseek, r, hlog⟩ := hends
  · -- the file is open
    rw [if_pos rfl, ftpRetr_eq]
    obtain ⟨done, c₁, hfetch, ⟨new, hnew, hwrites⟩, -⟩ :=
      wp_result (fetchData_writes net remoteFile seekto c₀ trivial)
    have hlog₁ : c₁.log = (new ++ [.fopen (0 < seekto)]) ++ c.log := by
      rw [hnew, hlog, List.append_assoc]
      rfl
    have hopened : fileState .unopened (new ++ [.fopen (0 < seekto)]) = .opened := by
      rw [fileState_append]
      exact fileState_writes hwrites
    refine (wp_bind _ _).mpr ((wp_bind _ _).mpr ((wp_of_result hfetch).mpr ?_))
    cases done with
    | false =>
      have hlog₂ : (c₁.closeListen.closeData.logged (.fclose (net.flushed c₁.tick))).log =
          (.fclose (net.flushed c₁.tick) :: (new ++ [.fopen (0 < seekto)])) ++ c.log :=
        congrArg (List.cons _) hlog₁
      have hclosed : fileState .unopened (.fclose (net.flushed c₁.tick) ::
          (new ++ [.fopen (0 < seekto)])) = .closed :=
        congrArg (FileState.after · (.fclose (net.flushed c₁.tick))) hopened
      refine (closedOnce_returned hlog₂ _ _ _).trans
        ⟨fun _ => ⟨hseek, fun c₂ h₂ => ?_⟩, fun _ => ?_⟩
      · obtain ⟨-, h₂⟩ := (hend c₂).mp h₂
        cases hfetch.symm.trans h₂
      · exact Or.inr hclosed
    | true =>
      refine wp_mono (getFinish_closes c₁) (fun ok c₂ h => ?_) fun _ _ h => h
      obtain ⟨fin, hfin, hends⟩ := h
      have hlog₂ : c₂.log = (fin ++ (new ++ [.fopen (0 < seekto)])) ++ c.log := by
        rw [hfin, hlog₁, ← List.append_assoc]
      have hstate : fileState .unopened (fin ++ (new ++ [.fopen (0 < seekto)])) =
          fileState .opened fin := by
        rw [fileState_append, hopened]
      refine (closedOnce_returned hlog₂ _ _ _).trans ?_
      rw [hstate]
      have hcompleted : (∀ c₂, EndOfData net c remoteFile seekto c₂ → Completed net c₂) ↔
          Completed net c₁ := by
        constructor
        · intro h
          exact h c₁ ((hend c₁).mpr ⟨rfl, hfetch⟩)
        · intro h c₂ h₂
          cases hfetch.symm.trans ((hend c₂).mp h₂).2
          exact h
      rw [hcompleted]
      obtain ⟨hdone, hfile⟩ | ⟨hdone, hfile⟩ := hends
      · exact ⟨fun _ => ⟨hseek, hdone⟩, fun _ => Or.inr hfile⟩
      · rw [hfile]
        exact ⟨fun h => absurd h (by decide), fun h => absurd h.2 hdone⟩
  · -- `fseek` failed, and the file is still open
    have hlog' : c₀.log = [.lost .fseek r, .fopen (0 < seekto)] ++ c.log := hlog
    refine (closedOnce_returned hlog' _ _ _).trans ⟨fun h => ?_, fun h => absurd h.1 hseek⟩
    exact absurd h (by simp [fileState, FileState.after])
  · -- it was not opened
    have hlog' : c₀.log = [.lost .fopen r] ++ c.log := hlog
    refine (closedOnce_returned hlog' _ _ _).trans ⟨fun _ => ⟨hseek, fun c₁ h₁ => ?_⟩, fun _ => ?_⟩
    · exact absurd ((hend c₁).mp h₁).1 (by decide)
    · exact Or.inl rfl

/-- A server that ends a transfer with the reply `final`. -/
def endServer (final : Reply) : Server Unit :=
  { greeting := fun s => ([Reply.short 220 Reply.code_220], s)
    answer := fun s cmd =>
      (if Transfers cmd then ⟨[Reply.short 150 Reply.code_150, final], ['x']⟩
        else ⟨[Reply.short 200 Reply.code_200], []⟩, s) }

section

attribute [local irreducible] wp

/-- The server says that the transfer was not completed, and the file is closed twice. -/
theorem ftpGet_closes_twice :
    wp (ftpGet (calmNet (endServer (Reply.short 550 Reply.code_550))) ['f'] 0) loggedIn
      (fun _ c' => ¬ClosedOnce loggedIn c') fun _ _ => False := by
  have hrun : wp (ftpGet (calmNet (endServer (Reply.short 550 Reply.code_550))) ['f'] 0) loggedIn
      (fun _ c' => fileState .unopened (newEvents loggedIn c') = .misused) fun _ _ => False := by
    decide +kernel
  refine wp_mono hrun (fun _ c' h => ?_) fun _ _ h => h
  rw [ClosedOnce, h]
  decide

end

end Spegla.Jftp
