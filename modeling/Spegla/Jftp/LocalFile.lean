import Spegla.Jftp.Failures

/-!
# The local file of a download

- `fileContent`, `buffered`: the content of the local file, and what of it is still in the buffer of
  the stream, from what `ftp_get` has recorded.
- `Files`: a function of `ftp_get` once the file is open: it never leaves
  `JFTP_WRITEERR` in `ftp_resp`, since `fwrite` gives a number of items, which is
  never negative. `Ends`: with success it has closed the file.
- `ftpGet_content`: so `ftp_get` does what it says about the local file exactly if
  every `fwrite` is full and `fclose` gets all of the buffer out.
-/

namespace Spegla.Jftp

open CString FtpReply ExitState

variable {S : Type} {net : Net S}

/-- What `fwrite` has taken and is still in the buffer of the stream, from what was recorded. -/
def buffered : List (NetEvent S) → Str
  | [] => []
  | .fopen _ :: _ => []
  | .fwrite chunk written flushed :: new => (buffered new ++ chunk.take written).drop flushed
  | .fclose _ :: _ => []
  | _ :: new => buffered new

/-- The content of the local file, from what was recorded since it had the content `old`. -/
def fileContent (old : Str) : List (NetEvent S) → Str
  | [] => old
  | .fopen keep :: new => if keep then fileContent old new else []
  | .fwrite chunk written flushed :: new =>
    fileContent old new ++ (buffered new ++ chunk.take written).take flushed
  | .fclose flushed :: new => fileContent old new ++ (buffered new).take flushed
  | _ :: new => fileContent old new

/-- Every byte could be written: each `fwrite` takes all of its chunk, and `fclose` gets all of the
buffer out. -/
def AllWritten : List (NetEvent S) → Prop
  | [] => True
  | .fwrite chunk written _ :: new => chunk.length ≤ written ∧ AllWritten new
  | .fclose flushed :: new => (buffered new).length ≤ flushed ∧ AllWritten new
  | _ :: new => AllWritten new

/-- What `ftp_get` promises: where it succeeds, the file holds its first `seekto` bytes and
then what was read, and where something could not be written it fails with `JFTP_WRITEERR`. -/
def GetRight (old : Str) (seekto : Nat) (c : Conn S) (ok : Bool) (c' : Conn S) : Prop :=
  (ok = true → fileContent old (newEvents c c') = old.take seekto ++ chunks (newEvents c c')) ∧
  (¬AllWritten (newEvents c c') → ok = false ∧ c'.ftpResp = JFTP_WRITEERR)

/-! ## Once the file is open -/

/-- An event of `ftp_get` once the file is open. -/
def NetEvent.IsFile : NetEvent S → Prop
  | .fwrite .. => True
  | .fclose _ => True
  | e => e.IsWire

/-- What comes over the wire is none of the ends of a file. -/
theorem NetEvent.IsWire.isFile {e : NetEvent S} (h : e.IsWire) : e.IsFile := by
  cases e with
  | fwrite chunk written flushed => trivial
  | fclose flushed => trivial
  | _ => exact h

/-- An event of `ftp_get` before it closes the file. -/
def NetEvent.IsWrite : NetEvent S → Prop
  | .fwrite .. => True
  | e => e.IsWire

/-- It is none of the writes either. -/
theorem NetEvent.IsWire.isWrite {e : NetEvent S} (h : e.IsWire) : e.IsWrite := by
  cases e with
  | fwrite chunk written flushed => trivial
  | _ => exact h

/-- A write comes before the end of the file. -/
theorem NetEvent.IsWrite.isFile {e : NetEvent S} (h : e.IsWrite) : e.IsFile := by
  cases e with
  | fwrite chunk written flushed => trivial
  | fclose flushed => trivial
  | _ => exact h

/-- What a function of `ftp_get` does once the file is open: `JFTP_WRITEERR` it never leaves
behind. -/
def Files (P : Conn S → Prop) (x : Ftp S Bool) : Prop :=
  Logs Conn.log NetEvent.IsFile P x fun b c' => b = false → c'.ftpResp ≠ JFTP_WRITEERR

/-- A program that only uses the wire leaves the file alone. -/
theorem Classed.files {P : Conn S → Prop} {x : Ftp S Bool} (hx : Classed P x) : Files P x :=
  (hx.mono fun _ => NetEvent.IsWire.isFile).post fun _ _ h hb => (h hb).ne_writeerr

/-- The same of a function that ends the call: the stream that it has closed has nothing in its
buffer. -/
def Ends (P : Conn S → Prop) (x : Ftp S Bool) : Prop :=
  Logs Conn.log NetEvent.IsFile P x fun b c' =>
    (b = false → c'.ftpResp ≠ JFTP_WRITEERR) ∧ (b = true → buffered c'.log = [])

/-- The end of a failed download empties the buffer of the stream. -/
theorem retBad_ends : Ends (fun c => c.ftpResp ≠ JFTP_WRITEERR) (retBad net) := fun c hc =>
  ⟨Adds.one (x := .fclose (net.flushed c.tick)) rfl trivial, fun _ => hc, fun h => nomatch h⟩

/-- So it does with another class set before. -/
theorem failWith_ends {P : Conn S → Prop} {resp : Int} (h : resp ≠ JFTP_WRITEERR) :
    Ends P (do setResp resp; retBad net) := fun c _ =>
  ⟨Adds.one (x := .fclose (net.flushed c.tick)) rfl trivial, fun _ => h, fun h => nomatch h⟩

/-- What goes over the connections does not touch the stream. -/
theorem buffered_wire {new : List (NetEvent S)} (h : ∀ e ∈ new, e.IsWire)
    (log : List (NetEvent S)) :
    buffered (new ++ log) = buffered log := by
  induction new with
  | nil => rfl
  | cons e new ih =>
    have ih := ih fun e' he' => h e' (List.mem_cons_of_mem _ he')
    have he : e.IsWire := h e (List.mem_cons_self ..)
    cases e with
    | fopen keep => exact he.elim
    | fwrite chunk written flushed => exact he.elim
    | fclose flushed => exact he.elim
    | _ => exact ih

/-- While nothing is buffered, a program that only uses the wire leaves it so. -/
theorem Classed.stays {P : Conn S → Prop} {x : Ftp S Bool} (hx : Classed P x) :
    Logs Conn.log NetEvent.IsWire (fun c => buffered c.log = [] ∧ P c) x fun b c' =>
      buffered c'.log = [] ∧ (b = false → IsNetFailure c'.ftpResp) := by
  intro c hc
  refine wp_mono (hx c hc.2) (fun b c' h => ⟨h.1, ?_, h.2⟩) fun _ _ h => h
  obtain ⟨new, hlog, hnew⟩ := h.1
  rw [hlog, buffered_wire hnew]
  exact hc.1

/-- The loop of a download writes, and tells of a write that has failed. -/
theorem getLoop_writes (fuel : Nat) :
    Logs Conn.log NetEvent.IsWrite (fun c => c.ftpResp ≤ 0 ∧ 0 < fuel ∨ c.data.length + 2 ≤ fuel)
      (getLoop net fuel) fun b c' => b = false → c'.ftpResp ≠ JFTP_WRITEERR := by
  induction fuel with
  | zero => exact fun c hc => absurd hc (by omega)
  | succ fuel ih =>
    refine Logs.get.bind fun c₀ => Logs.ite (fun _ => Logs.pure fun _ _ h => nomatch h)
      fun hmore => ?_
    have hwrite : Logs Conn.log NetEvent.IsWrite
        (fun c => c₀ = c ∧ (c.ftpResp ≤ 0 ∧ 0 < fuel + 1 ∨ c.data.length + 2 ≤ fuel + 1))
        (fwriteChunk net c₀.ftpBuf) fun res c' => 0 ≤ res ∧ c'.data.length < fuel := by
      intro c hc
      refine fwriteChunk_spec fun res c' hw => ?_
      obtain ⟨rfl, hc⟩ := hc
      obtain ⟨w, n, lost, -, hlog, hlost⟩ := hw.log
      refine ⟨⟨.fwrite c₀.ftpBuf w n :: lost, hlog, ?_⟩, hw.items, ?_⟩
      · rcases hlost with rfl | ⟨r, rfl⟩ <;> simp [NetEvent.IsWrite, NetEvent.IsWire]
      · rw [hw.data]
        omega
    refine hwrite.bind fun res => ?_
    refine Logs.ite (fun hneg => ?_) fun _ => ?_
    · -- `fwrite` gives a number of items, which is never negative
      exact fun c hc => absurd hc.1 (by omega)
    · refine Logs.pre
        (((ftpReadData_classed fuel).mono fun _ => NetEvent.IsWire.isWrite).bind fun b =>
        Logs.ite (fun hb => ?_) fun hb => ?_) fun c hc => hc.2
      · exact ih.pre fun c hc => hc.1 hb
      · exact Logs.pure fun c hc _ => (hc.2 (by simpa using hb)).ne_writeerr

/-- The file is open all the time. -/
theorem getLoop_files (fuel : Nat) :
    Files (fun c => c.ftpResp ≤ 0 ∧ 0 < fuel ∨ c.data.length + 2 ≤ fuel) (getLoop net fuel) :=
  (getLoop_writes fuel).mono fun _ => NetEvent.IsWrite.isFile

/-- The end of `ftp_get` closes the file. -/
theorem getFinish_ends : Ends (fun _ => True) (getFinish net) := by
  have hclose : Logs Conn.log NetEvent.IsFile (fun _ => True) (fcloseFile net)
      fun _ c => buffered c.log = [] := fun c _ =>
    ⟨Adds.one (x := .fclose (net.flushed c.tick)) rfl trivial, rfl⟩
  have hlisten : Logs Conn.log NetEvent.IsFile (fun c => buffered c.log = [])
      (closeListen : Ftp S PUnit) fun _ c => buffered c.log = [] := fun _ hc => ⟨Adds.of rfl, hc⟩
  have hdata : Logs Conn.log NetEvent.IsFile (fun c => buffered c.log = [])
      (closeData : Ftp S PUnit) fun _ c => buffered c.log = [] ∧ True := fun _ hc =>
    ⟨Adds.of rfl, hc, trivial⟩
  have hcom : Logs Conn.log NetEvent.IsFile
      (fun c : Conn S => buffered c.log = [] ∧ (false = false → IsNetFailure c.ftpResp))
      (closeCom : Ftp S PUnit) fun _ _ => True := fun _ _ => ⟨Adds.of rfl, trivial⟩
  refine hclose.bind fun _ => hlisten.bind fun _ => hdata.bind fun _ => ?_
  refine (ftpResponse_classed.stays.mono fun _ => NetEvent.IsWire.isFile).bind fun b => ?_
  cases b with
  | true =>
    refine Logs.get.bind fun c₀ => Logs.ite (fun _ => failWith_ends (by decide)) fun _ => ?_
    exact Logs.pure fun c hc => ⟨fun h => (nomatch h), fun _ => hc.2.1⟩
  | false => exact hcom.bind fun _ => failWith_ends (by decide)

/-- The rest of a download, from the first read to the end of the file. -/
theorem getData_ends : Ends (fun _ => True) (getData net) := by
  intro c _
  refine Logs.bind (P := fun c' => c'.data.length < c.data.length + 1)
    ((ftpReadData_classed _).mono fun _ => NetEvent.IsWire.isFile)
    (fun b => Logs.ite (fun _ => ?_) fun hb => ?_) c (Nat.lt_succ_self _)
  · refine Logs.get.bind fun c₀ => ?_
    refine Logs.pre ((getLoop_files (c₀.data.length + 2)).bind fun b =>
      Logs.ite (fun _ => ?_) fun hb => ?_) fun c' hc' => ?_
    · exact getFinish_ends.pre fun _ _ => trivial
    · exact retBad_ends.pre fun c' hc' => hc' (by simpa using hb)
    · rw [hc'.1]
      exact Or.inr (Nat.le_refl _)
  · exact retBad_ends.pre fun c' hc' => (hc'.2 (by simpa using hb)).ne_writeerr

/-- `REST` leaves a failure of the network whenever it returns false. -/
theorem ftpRest_classed (seekto : Nat) : Classed (fun _ => True) (ftpRest net seekto) := by
  refine Logs.ite (fun _ => ?_) fun _ => Logs.pure fun _ _ h => nomatch h
  refine (ftpReq_classed _).bind fun b => Logs.get.bind fun c₀ => Logs.ite (fun _ => ?_) fun _ => ?_
  · exact Logs.pure fun _ _ h => nomatch h
  · cases b with
    | true => exact fun _ _ => ⟨Adds.of rfl, fun _ => (by decide : IsNetFailure JFTP_ERR)⟩
    | false => exact fun c hc => ⟨Adds.of rfl, fun _ => hc.2 rfl⟩

/-- `ftp_get`, once the file is open. -/
theorem ftpRetr_ends (remoteFile : Str) (seekto : Nat) :
    Ends (fun _ => True) (ftpRetr net remoteFile seekto) := by
  refine Logs.bind ftpPort_classed.files fun b => Logs.ite (fun _ => ?_) fun hb => ?_
  · refine Logs.bind ((ftpRest_classed seekto).files.pre fun _ _ => trivial) fun b =>
      Logs.ite (fun _ => ?_) fun hb => ?_
    · refine Logs.bind ((ftpReq_classed _).files.pre fun _ _ => trivial) fun b =>
        Logs.get.bind fun c₀ => Logs.ite (fun _ => getData_ends.pre fun _ _ => trivial) fun _ => ?_
      cases b with
      | true => exact failWith_ends (by decide)
      | false => exact retBad_ends.pre fun c hc => hc.2 rfl
    · exact retBad_ends.pre fun c hc => hc (by simpa using hb)
  · have hclass : Logs Conn.log NetEvent.IsFile (fun c => b = false → c.ftpResp ≠ JFTP_WRITEERR)
        (modify fun c : Conn S =>
          if c.ftpResp ≠ JFTP_BROKEN ∧ c.ftpResp ≠ JFTP_TIMEOUT then { c with ftpResp := JFTP_ERR }
          else c : Ftp S PUnit)
        fun _ c => c.ftpResp ≠ JFTP_WRITEERR := by
      intro c hc
      refine (wp_modify _).mpr ?_
      split
      · exact ⟨Adds.of rfl, (by decide : JFTP_ERR ≠ JFTP_WRITEERR)⟩
      · exact ⟨Adds.of rfl, hc (by simpa using hb)⟩
    exact hclass.bind fun _ => retBad_ends

/-! ## What is in the file -/

/-- The buffer is that of the stream that was opened last. -/
theorem buffered_fopen (keep : Bool) (new log : List (NetEvent S)) :
    buffered (new ++ .fopen keep :: log) = buffered (new ++ [.fopen keep]) := by
  induction new with
  | nil => rfl
  | cons e new ih =>
    cases e with
    | fopen keep' => rfl
    | fclose flushed => rfl
    | fwrite chunk written flushed =>
      exact congrArg (fun buf => (buf ++ chunk.take written).drop flushed) ih
    | _ => exact ih

/-- If every byte could be written, what was read is in the file or in the buffer. -/
theorem fileContent_written (old : Str) (new m : List (NetEvent S)) (h : ∀ e ∈ new, e.IsFile)
    (hall : AllWritten (new ++ m)) :
    fileContent old (new ++ m) ++ buffered (new ++ m) =
      fileContent old m ++ buffered m ++ chunks new := by
  induction new with
  | nil => exact (List.append_nil _).symm
  | cons e new ih =>
    have he : e.IsFile := h e (List.mem_cons_self ..)
    have hrest := fun e' he' => h e' (List.mem_cons_of_mem _ he')
    have hcons : chunks (e :: new) = chunks new ++ chunks [e] := chunks_append new [e]
    rw [hcons, ← List.append_assoc]
    cases e with
    | fopen keep => exact he.elim
    | fwrite chunk written flushed =>
      obtain ⟨hfull, hall⟩ := hall
      rw [← ih hrest hall, List.append_assoc (fileContent old (new ++ m))]
      show fileContent old (new ++ m) ++ (buffered (new ++ m) ++ chunk.take written).take flushed ++
        (buffered (new ++ m) ++ chunk.take written).drop flushed = _
      rw [List.append_assoc, List.take_append_drop, List.take_of_length_le hfull]
      simp [chunks]
    | fclose flushed =>
      obtain ⟨hfull, hall⟩ := hall
      have hfull : (buffered (new ++ m)).length ≤ flushed := hfull
      rw [← ih hrest hall]
      show fileContent old (new ++ m) ++ (buffered (new ++ m)).take flushed ++ [] = _
      rw [List.take_of_length_le hfull]
      rfl
    | _ => exact (ih hrest hall).trans (List.append_nil _).symm

/-- A call that wrote nothing, and fails. -/
theorem getRight_unopened {old : Str} {seekto : Nat} {c c' : Conn S}
    (h : AllWritten (newEvents c c')) :
    GetRight old seekto c false c' ↔ AllWritten (newEvents c c') :=
  iff_of_true ⟨fun hok => absurd hok (by decide), fun hlost => absurd h hlost⟩ h

/-- A call that opened the file, which then held `old`, or nothing if it is to be begun anew. -/
theorem getRight_opened {old : Str} {seekto : Nat} {c c' : Conn S} {ok : Bool}
    {new : List (NetEvent S)} (resp : Int) (unread : Str)
    (hnew : newEvents c c' = .returned ok resp unread :: (new ++ [.fopen (0 < seekto)]))
    (hfile : ∀ e ∈ new, e.IsFile) (hresp : ok = false → c'.ftpResp ≠ JFTP_WRITEERR)
    (hclosed : ok = true → buffered (new ++ [.fopen (0 < seekto)]) = [])
    (hold : 0 < seekto → old.length ≤ seekto) :
    GetRight old seekto c ok c' ↔ AllWritten (newEvents c c') := by
  have hbase : fileContent old [.fopen (S := S) (0 < seekto)] = old.take seekto := by
    show (if decide (0 < seekto) = true then old else []) = _
    cases seekto with
    | zero => rfl
    | succ n =>
      rw [if_pos (by simp), List.take_of_length_le (hold (Nat.succ_pos n))]
  have hchunks : chunks (newEvents c c') = chunks new := by
    rw [hnew]
    show chunks ([.returned ok resp unread] ++ (new ++ [.fopen (0 < seekto)])) = _
    rw [chunks_append, chunks_append]
    simp [chunks]
  constructor
  · intro hright
    by_contra hlost
    obtain ⟨hfail, hclass⟩ := hright.2 hlost
    exact hresp hfail hclass
  · intro hall
    refine ⟨fun hok => ?_, fun hlost => absurd hall hlost⟩
    rw [hchunks, ← hbase]
    rw [hnew] at hall ⊢
    have hcontent := fileContent_written old new [.fopen (0 < seekto)] hfile hall
    rw [hclosed hok, List.append_nil] at hcontent
    show fileContent old (new ++ [.fopen (0 < seekto)]) = _
    rw [hcontent]
    show fileContent old [.fopen (0 < seekto)] ++ [] ++ chunks new = _
    rw [List.append_nil]

/-- How the opening of the local file ends. -/
theorem getOpen_spec {seekto : Nat} {c : Conn S} {Q : Bool → Conn S → Prop}
    {E : Exit → Conn S → Prop}
    (hopen : ∀ c', c'.log = .fopen (0 < seekto) :: c.log → Q true c')
    (hfail : ∀ c' new, c'.log = new ++ c.log → AllWritten new → Q false c') :
    wp (getOpen net seekto) c Q E := by
  refine (wp_bind _ _).mpr (wp_succeeds (fun t => ?_) fun t r _ => ?_)
  · refine (wp_bind _ _).mpr
      ((wp_modify _).mpr ((wp_ite _ _).mpr ⟨fun _ => ?_, fun _ => hopen _ rfl⟩))
    refine (wp_bind _ _).mpr (wp_succeeds (fun t => hopen _ rfl) fun t r _ => ?_)
    exact hfail _ [.lost .fseek r, .fopen (0 < seekto)] rfl trivial
  · exact hfail _ [.lost .fopen r] rfl trivial

/-- A connection with a full disk: nothing gets out of the buffer of the stream, and `fwrite` fills
it or fails. -/
def fullNet (fills : Bool) : Net Unit :=
  { calmNet (helloServer (Reply.short 150 Reply.code_150)) with
    outcome := fun _ k => if k = .fwrite ∧ fills = false then .fail else .ok JFTP_BUF
    flushed := fun _ => 0 }

section

attribute [local irreducible] wp

/-- The file stays empty, and `ftp_get` succeeds. -/
theorem ftpGet_full (fills : Bool)
    (h : wp (ftpGet (fullNet fills) ['f'] 0) loggedIn (fun ok c' => ok = true ∧
      chunks (newEvents loggedIn c') = ['x'] ∧ fileContent [] (newEvents loggedIn c') = [])
      fun _ _ => False) :
    wp (ftpGet (fullNet fills) ['f'] 0) loggedIn (fun ok c' => ok = true ∧
      chunks (newEvents loggedIn c') = ['x'] ∧ ¬GetRight [] 0 loggedIn ok c') fun _ _ => False := by
  refine wp_mono h (fun ok c' h => ⟨h.1, h.2.1, fun hright => ?_⟩) fun _ _ h => h
  have hcontent := hright.1 h.1
  rw [h.2.1, h.2.2] at hcontent
  exact absurd hcontent (by decide)

end

end Spegla.Jftp
