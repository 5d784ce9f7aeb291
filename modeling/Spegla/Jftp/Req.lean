import Spegla.Jftp.Conn

/-!
# Requests and replies (`jftp.c`, `ftp_req`)

- `ftpReq`: a command and the reply to it. `ftpResponse`: `ftp_req(c, JFTP_RESPONSE)`.
- `readReply`: the loop that reads a reply byte by byte. The four bytes it copies to
  `rescode` never reach behind the NUL that ends the line, so that nothing of an earlier
  line shows in them.
- `ftpResponse_spec`: a reply is read to its end and no further, unless the connection
  is lost. `ftpResponses_read`: so `k` calls read `k` replies.
-/

namespace Spegla.Jftp

open CString FtpReply ExitState

variable {S : Type} (net : Net S)

/-! ## The code -/

/-- The label `io_err` of `ftp_req`. -/
def ioErr (timedOut : Bool) : Ftp S Bool := do
  setResp (if timedOut then JFTP_TIMEOUT else JFTP_BROKEN)
  closeCom
  closeListen
  closeData
  return false

/-- Whether the text goes on behind a line. -/
def longText (line : Str) (islongtext : Bool) : Bool :=
  if markOf line = some '-' then true
  else if markOf line = some ' ' then false
  else islongtext

/-- What `ftp_req` does at the end of a line; `again` reads the next one. -/
def endLine (again : Bool → Ftp S Bool) (line : Str) (islongtext : Bool) : Ftp S Bool := do
  modify fun c => { c with ftpBuf := line }
  if (markOf line = some '-' ∨ markOf line = some ' ') ∧ statusOf line < 100 then
    setResp JFTP_ERR
    return false
  else if longText line islongtext then again true
  else if statusOf line = 0 then
    setResp JFTP_ERR
    return false
  else
    setResp (statusOf line)
    return true

/-- The loop of `ftp_req`: `line` has been read of a line, and there is room for `size`
bytes. -/
def readReply : Nat → Str → Nat → Bool → Ftp S Bool
  | 0, _, _, _ => throw .hang
  | fuel + 1, line, size, islongtext => do
    match ← ftpReadCom net with
    | .error timedOut => ioErr timedOut
    | .ok b =>
      if b = '\n' then
        endLine (fun islongtext => readReply fuel [] JFTP_BUF islongtext) line islongtext
      else if size = 1 then
        -- the buffer is full, and the line has no end yet
        modify fun c => { c with ftpBuf := line ++ [b] }
        setResp JFTP_ERR
        return false
      else readReply fuel (line ++ [b]) (size - 1) islongtext

/-- `ftp_req(c, JFTP_RESPONSE)`. -/
def ftpResponse : Ftp S Bool := do
  let c ← get
  readReply net (c.input.length + 1) [] JFTP_BUF false

/-- `ftp_req(c, cmd)`. -/
def ftpReq (cmd : Str) : Ftp S Bool := do
  let text := (cmd ++ ['\r', '\n']).take (JFTP_BUF - 1)
  modify fun c => { c with ftpBuf := text }
  match ← ftpWrite net text with
  | .error timedOut => ioErr timedOut
  | .ok _ => ftpResponse net

/-! ## Reading a reply -/

variable {net}

/-- The connection was lost since `c`, by a low-level call that did not succeed or because
the server had nothing more to send. -/
structure Broken (net : Net S) (c c' : Conn S) : Prop where
  com : c'.ftpCom = none
  listen : c'.ftpListen = none
  dataFd : c'.ftpData = none
  input : c'.input = []
  sent : c'.sent = []
  server : c'.server = c.server
  remoteDir : c'.ftpRemoteDir = c.ftpRemoteDir
  data : c'.data = c.data
  resp : c'.ftpResp = JFTP_BROKEN ∨ c'.ftpResp = JFTP_TIMEOUT
  log : ∃ k r, c'.log = .lost k r :: c.log
  cause : c.input = [] ∨ ∃ t k, c.tick ≤ t ∧ ∀ n, net.outcome t k ≠ .ok n

/-- The connection while a reply is read. -/
def Conn.reading (c : Conn S) (input buf : Str) (tick : Nat) : Conn S :=
  { c with input := input, ftpBuf := buf, tick := tick }

variable {c : Conn S} {E : Exit → Conn S → Prop} {Q : Bool → Conn S → Prop}

/-- The end of `io_err`. -/
theorem wp_ioErr {timedOut : Bool} : wp (ioErr timedOut) c Q E ↔
    Q false ((({ c with ftpResp := if timedOut then JFTP_TIMEOUT
      else JFTP_BROKEN } : Conn S).closeCom).closeListen).closeData :=
  Iff.rfl

/-- One byte: the read fails, or the byte is there. -/
theorem wp_ftpReadCom {b : Char} {rest : Str} {R : Except Bool Char → Conn S → Prop}
    (hcom : c.ftpCom ≠ none) (hin : c.input = b :: rest)
    (hfail : ∀ t, (∀ n, net.outcome c.tick .read ≠ .ok n) →
      R (.error t) (c.called .read 0 (net.outcome c.tick .read)))
    (hok : R (.ok b) { c with input := rest, tick := c.tick + 1 }) :
    wp (ftpReadCom net) c R E := by
  unfold ftpReadCom call
  rw [wp_bind, wp_get, if_neg hcom, wp_bind, wp_modifyGet]
  cases hout : net.outcome c.tick .read with
  | ok n =>
    have hfull : (Outcome.ok n).isFull 0 = true := decide_eq_true (Nat.zero_le n)
    simp only [Conn.called, hfull, if_true]
    rw [wp_modifyGet, hin]
    exact hok
  | fail =>
    have h := hfail false (by rw [hout]; simp)
    rw [hout] at h
    exact h
  | timeout =>
    have h := hfail true (by rw [hout]; simp)
    rw [hout] at h
    exact h

/-- A failed read loses the connection. -/
theorem broken_of_read {input buf : Str} {tick : Nat} {timedOut : Bool} (htick : c.tick ≤ tick)
    (hfail : ∀ n, net.outcome tick .read ≠ .ok n) :
    Broken net c (((({ (c.reading input buf tick).called .read 0 (net.outcome tick .read) with
      ftpResp := if timedOut then JFTP_TIMEOUT
        else JFTP_BROKEN } : Conn S).closeCom).closeListen).closeData) := by
  constructor
  case cause => exact Or.inr ⟨tick, .read, htick, hfail⟩
  case resp =>
    cases timedOut with
    | false => exact Or.inl rfl
    | true => exact Or.inr rfl
  case log =>
    refine ⟨.read, net.outcome tick .read, ?_⟩
    show (if (net.outcome tick .read).isFull 0 then c.log else _) = _
    cases hout : net.outcome tick .read with
    | ok n => exact absurd hout (hfail n)
    | fail => rfl
    | timeout => rfl
  all_goals rfl

/-- One line, from the part `acc` of it that has been read to its end. -/
theorem readReply_line {rest : Str} {islongtext : Bool} (hcom : c.ftpCom ≠ none)
    (hbroken : ∀ c', Broken net c c' → Q false c') (l : Str) :
    ∀ (acc buf : Str) (fuel tick : Nat), '\n' ∉ l → acc.length + l.length < JFTP_BUF →
      c.tick ≤ tick → l.length < fuel →
      (∀ t, tick ≤ t →
        wp (endLine (fun lt => readReply net (fuel - l.length - 1) [] JFTP_BUF lt)
          (acc ++ l) islongtext)
          (c.reading rest buf t) Q E) →
      wp (readReply net fuel acc (JFTP_BUF - acc.length) islongtext)
        (c.reading (l ++ '\n' :: rest) buf tick) Q E := by
  induction l with
  | nil =>
    intro acc buf fuel tick hl hlen htick hfuel hend
    obtain ⟨fuel, rfl⟩ : ∃ f, fuel = f + 1 := ⟨fuel - 1, by simp at hfuel; omega⟩
    rw [readReply, wp_bind]
    refine wp_ftpReadCom hcom rfl (fun t hfail => ?_) ?_
    · exact hbroken _ (broken_of_read htick hfail)
    · have h := hend (tick + 1) (Nat.le_succ tick)
      rw [List.append_nil] at h
      exact h
  | cons b l ih =>
    intro acc buf fuel tick hl hlen htick hfuel hend
    obtain ⟨fuel, rfl⟩ : ∃ f, fuel = f + 1 := ⟨fuel - 1, by simp at hfuel; omega⟩
    rw [List.mem_cons, not_or] at hl
    rw [List.length_cons] at hlen hfuel
    rw [readReply, wp_bind]
    refine wp_ftpReadCom hcom rfl (fun t hfail => ?_) ?_
    · exact hbroken _ (broken_of_read htick hfail)
    · simp only
      rw [if_neg (Ne.symm hl.1), if_neg (by omega)]
      have hsize : JFTP_BUF - acc.length - 1 = JFTP_BUF - (acc ++ [b]).length := by
        rw [List.length_append, List.length_singleton]
        omega
      rw [hsize]
      refine ih (acc ++ [b]) buf fuel (tick + 1) hl.2 ?_ (by omega) (by omega) fun t ht => ?_
      · rw [List.length_append, List.length_singleton]
        omega
      · have h := hend t (by omega)
        rw [List.length_cons] at h
        rw [List.append_assoc, List.singleton_append]
        rw [show fuel - l.length - 1 = fuel + 1 - (l.length + 1) - 1 by omega]
        exact h

/-- The bytes of a line and of what follows it. -/
theorem linesBytes_cons (line : Str) (lines : List Str) (rest : Str) :
    Reply.linesBytes (line :: lines) ++ rest =
      line ++ '\n' :: (Reply.linesBytes lines ++ rest) := by
  simp [Reply.linesBytes]

/-- The lines of a long text, up to the last one. -/
theorem readReply_inner {rest : Str} (hcom : c.ftpCom ≠ none)
    (hbroken : ∀ c', Broken net c c' → Q false c') (lines : List Str) :
    ∀ (buf : Str) (fuel tick : Nat), (∀ line ∈ lines, '\n' ∉ line ∧ line.length < JFTP_BUF ∧
        longText line true = true ∧
        (markOf line = some '-' ∨ markOf line = some ' ' → 100 ≤ statusOf line)) →
      c.tick ≤ tick → (Reply.linesBytes lines ++ rest).length < fuel →
      (∀ buf' fuel' t, tick ≤ t → rest.length < fuel' →
        wp (readReply net fuel' [] JFTP_BUF true) (c.reading rest buf' t) Q E) →
      wp (readReply net fuel [] JFTP_BUF true)
        (c.reading (Reply.linesBytes lines ++ rest) buf tick) Q E := by
  induction lines with
  | nil =>
    intro buf fuel tick hlines htick hfuel hend
    exact hend buf fuel tick (Nat.le_refl tick) hfuel
  | cons line lines ih =>
    intro buf fuel tick hlines htick hfuel hend
    obtain ⟨hnl, hlen, hlong, hstatus⟩ := hlines line (List.mem_cons_self ..)
    rw [linesBytes_cons] at hfuel ⊢
    rw [List.length_append, List.length_cons] at hfuel
    refine readReply_line hcom hbroken line [] buf fuel tick hnl (by simpa using hlen) htick
      (by omega) fun t ht => ?_
    rw [List.nil_append]
    unfold endLine
    rw [wp_bind, wp_modify,
      if_neg (fun h => absurd h.2 (by have := hstatus h.1; omega)), if_pos hlong]
    refine ih line _ t (fun l hl => hlines l (List.mem_cons_of_mem _ hl)) (by omega) (by omega) ?_
    intro buf' fuel' t' ht' hfuel'
    exact hend buf' fuel' t' (by omega) hfuel'

/-- The last line of a reply. -/
theorem readReply_last {r : Reply} {rest buf : Str} {islongtext : Bool} {fuel tick : Nat}
    (hcom : c.ftpCom ≠ none) (hbroken : ∀ c', Broken net c c' → Q false c')
    (hfit : r.last.length < JFTP_BUF) (hlong : longText r.last islongtext = false)
    (htick : c.tick ≤ tick) (hfuel : r.last.length < fuel)
    (hok : ∀ t, c.tick ≤ t →
      Q true { c.reading rest r.last t with ftpResp := r.code }) :
    wp (readReply net fuel [] JFTP_BUF islongtext)
      (c.reading (r.last ++ '\n' :: rest) buf tick) Q E := by
  obtain ⟨hge, hlt⟩ := r.isCode
  obtain ⟨hstatus, -⟩ := r.shape.last_status hlt
  have hnl : '\n' ∉ r.last := r.oneLine r.last (by simp)
  refine readReply_line hcom hbroken r.last [] buf fuel tick hnl (by simpa using hfit) htick
    hfuel fun t ht => ?_
  rw [List.nil_append]
  unfold endLine
  rw [wp_bind, wp_modify, if_neg (fun h => absurd h.2 (by omega)), hlong, if_neg (by simp),
    if_neg (by omega), hstatus]
  exact hok t (by omega)

/-- A reply that fits into the buffer is read to its end, or the connection is lost. -/
theorem ftpResponse_spec {r : Reply} (rest : Str) (hcom : c.ftpCom ≠ none)
    (hin : c.input = r.bytes ++ rest) (hfit : r.Fits JFTP_BUF)
    (hbroken : ∀ c', Broken net c c' → Q false c')
    (hok : ∀ t, c.tick ≤ t → Q true { c.reading rest r.last t with ftpResp := r.code }) :
    wp (ftpResponse net) c Q E := by
  obtain ⟨hge, hlt⟩ := r.isCode
  obtain ⟨hstatus, hmark⟩ := r.shape.last_status hlt
  have hlast : r.last.length < JFTP_BUF := hfit r.last (by simp)
  unfold ftpResponse
  rw [wp_bind, wp_get, hin]
  have hstart : c = c.reading (r.bytes ++ rest) c.ftpBuf c.tick := by
    unfold Conn.reading
    rw [← hin]
  have hbytes : r.bytes ++ rest = Reply.linesBytes r.before ++ (r.last ++ '\n' :: rest) := by
    simp [Reply.bytes, Reply.linesBytes]
  have hfinish : ∀ (buf : Str) (lt : Bool) (fuel t : Nat), longText r.last lt = false → c.tick ≤ t →
      (r.last ++ '\n' :: rest).length < fuel →
      wp (readReply net fuel [] JFTP_BUF lt) (c.reading (r.last ++ '\n' :: rest) buf t) Q E := by
    intro buf lt fuel t hlong ht hfuel
    rw [List.length_append] at hfuel
    exact readReply_last hcom hbroken hlast hlong ht (by omega) hok
  rw [hbytes] at hstart ⊢
  rw [hstart]
  have hshape := r.shape
  cases hbefore : r.before with
  | nil =>
    -- one line
    rw [hbefore] at hshape
    refine hfinish _ false _ _ ?_ (Nat.le_refl _) (Nat.lt_succ_self _)
    unfold longText
    rw [if_neg hmark]
    split <;> rfl
  | cons first inner =>
    rw [hbefore] at hshape
    obtain ⟨hfirst, hfirstmark⟩ := hshape.first_mark hlt
    have hlong : longText r.last true = false := by
      unfold longText
      rw [if_neg hmark, if_pos hshape.last_mark]
    have hmem : ∀ line ∈ r.before, '\n' ∉ line ∧ line.length < JFTP_BUF := fun line hline =>
      ⟨r.oneLine line (List.mem_append_left _ hline), hfit line (List.mem_append_left _ hline)⟩
    rw [linesBytes_cons]
    obtain ⟨hnl, hlen⟩ := hmem first (by rw [hbefore]; exact List.mem_cons_self ..)
    refine readReply_line hcom hbroken first [] _ _ _ hnl (by simpa using hlen) (Nat.le_refl _)
      (by rw [List.length_append]; omega) fun t ht => ?_
    rw [List.nil_append]
    unfold endLine
    have hfirstlong : longText first false = true := by
      unfold longText
      rw [if_pos hfirstmark]
    rw [wp_bind, wp_modify, if_neg (fun h => absurd h.2 (by omega)), if_pos hfirstlong]
    refine readReply_inner (c := c) hcom hbroken inner first _ t ?_
      ht ?_ fun buf' fuel' t' ht' hfuel' =>
      hfinish buf' true fuel' t' hlong (by omega) hfuel'
    · intro line hline
      have hline' : line ∈ r.before := by
        rw [hbefore]
        exact List.mem_cons_of_mem _ hline
      obtain ⟨hnl, hlen⟩ := hmem line hline'
      have hinner := r.shape.before_mark hlt hline'
      refine ⟨hnl, hlen, ?_, fun hm => ?_⟩
      · unfold longText
        split
        · rfl
        · next hne =>
          rw [if_neg (fun hb => hne (hinner (Or.inl hb)).2)]
      · rw [(hinner hm.symm).1]
        exact hge
    · simp only [List.length_append, List.length_cons]
      omega

/-! ## Several replies -/

/-- `k` calls of `ftp_req(c, JFTP_RESPONSE)`: the results, with `ftp_resp` and `ftp_buf`. -/
def ftpResponses (net : Net S) : Nat → Ftp S (List (Bool × Int × Str))
  | 0 => return []
  | k + 1 => do
    let ok ← ftpResponse net
    let c ← get
    let more ← ftpResponses net k
    return (ok, c.ftpResp, c.ftpBuf) :: more

/-- Where every read succeeds, each call reads one reply: it returns 0 with the code of the
reply and its last line, and what follows the reply is still to be read. -/
theorem ftpResponses_read (hread : ∀ t k, ∃ n, net.outcome t k = .ok n) (rs : List Reply) :
    ∀ (rest : Str) (c : Conn S), (∀ r ∈ rs, r.Fits JFTP_BUF) → c.ftpCom ≠ none →
      c.input = rs.flatMap Reply.bytes ++ rest →
      wp (ftpResponses net rs.length) c
        (fun res c' => res = rs.map (fun r => (true, (r.code : Int), r.last)) ∧ c'.input = rest)
        (fun _ _ => False) := by
  induction rs with
  | nil =>
    intro rest c hfit hcom hin
    exact ⟨rfl, hin⟩
  | cons r rs ih =>
    intro rest c hfit hcom hin
    rw [List.flatMap_cons, List.append_assoc] at hin
    have hbytes : r.bytes ≠ [] := by
      simp [Reply.bytes, Reply.linesBytes]
    show wp (ftpResponse net >>= fun ok => _) c _ _
    rw [wp_bind]
    refine ftpResponse_spec _ hcom hin (hfit r (List.mem_cons_self ..)) (fun c' h => ?_)
      fun t ht => ?_
    · -- nothing fails, and the reply is there
      rcases h.cause with hempty | ⟨t, k, -, hfail⟩
      · rw [hin, List.append_eq_nil_iff] at hempty
        exact absurd hempty.1 hbytes
      · obtain ⟨n, hn⟩ := hread t k
        exact absurd hn (hfail n)
    · rw [wp_bind, wp_get, wp_bind]
      refine wp_mono (ih rest _ (fun r' hr' => hfit r' (List.mem_cons_of_mem _ hr')) hcom rfl) ?_
        fun _ _ h => h
      rintro res c' ⟨rfl, hrest⟩
      exact ⟨rfl, hrest⟩

/-- A greeting of two lines, with one byte of the next reply behind it. -/
def greetingReply : Reply :=
  { code := 220
    before := [digits 220 ++ ['-', 'h', 'i']]
    last := digits 220 ++ [' ', 'y', 'o']
    isCode := by decide
    shape := Shape.multi ['h', 'i'] [] ['y', 'o'] (by simp)
    oneLine := by decide }

def greeted : Conn Unit :=
  { Conn.init () with ftpCom := some 0, input := greetingReply.bytes ++ ['2'] }

section

attribute [local irreducible] wp

theorem ftpResponses_read_greeting :
    wp (ftpResponses (calmNet muteServer) 1) greeted
      (fun res c' => res = [(true, 220, greetingReply.last)] ∧ c'.input = ['2'])
      (fun _ _ => False) :=
  ftpResponses_read (fun _ _ => ⟨_, rfl⟩) [greetingReply] ['2'] greeted (by decide) (by decide)
    (by decide)

end

end Spegla.Jftp
