import Spegla.Jftp.Directory

/-!
# Sequences of calls (`spegla.c`)

`spegla.c` logs in, goes to the remote directory, and then gets files and lists directories.
It goes on after a failure of the class `JFTP_ERR`, logs in again, until it succeeds, after
`JFTP_BROKEN` and `JFTP_TIMEOUT`, and stops after the other failures.

- `calls`: such a sequence. `calls_upholds` carries an invariant of the phases through it.
- `serve_allRead`: where the server announces each transfer by 150, in short lines, and no
  listing loses its data connection, `ftp_get` and `ftp_dir2` leave nothing unread.
-/

namespace Spegla.Jftp

open CString FtpReply ExitState

variable {S : Type}

/-- A call. -/
inductive Call where
  | relogin
  | get (remoteFile : Str) (seekto : Nat)
  | dir (d : Str)

/-- What `spegla.c` does next. -/
inductive Phase where
  | goesOn
  | relogins
  | stops

/-- The calls that come next. -/
def Phase.allows : Phase → Call → Bool
  | .goesOn, .get _ _ => true
  | .goesOn, .dir _ => true
  | .relogins, .relogin => true
  | _, _ => false

/-- What comes after a call. -/
def Call.next (k : Call) (ok : Bool) (resp : Int) : Phase :=
  match k with
  | .relogin => if ok then .goesOn else .relogins
  | .get _ _ =>
    if ok = true ∨ resp = JFTP_ERR ∨ resp = JFTP_WRITEERR then .goesOn
    else if resp = JFTP_BROKEN ∨ resp = JFTP_TIMEOUT then .relogins
    else .stops
  | .dir _ =>
    if ok = true ∨ resp = JFTP_ERR then .goesOn
    else if resp = JFTP_BROKEN ∨ resp = JFTP_TIMEOUT then .relogins
    else .stops

/-- A call that was made. -/
structure CallStep (S : Type) where
  call : Call
  ok : Bool
  before : Conn S
  after : Conn S

variable (net : Net S)

/-- One call: whether it succeeds. -/
def Call.run : Call → Ftp S Bool
  | .relogin => ftpRelogin net
  | .get remoteFile seekto => ftpGet net remoteFile seekto
  | .dir d => Option.isSome <$> ftpDir net d

/-- A sequence of calls; those that `spegla.c` does not make are left out. -/
def calls : List Call → Phase → Ftp S (List (CallStep S))
  | [], _ => return []
  | k :: ks, phase =>
    if phase.allows k then do
      let before ← get
      let ok ← k.run net
      let after ← get
      let more ← calls ks (k.next ok after.ftpResp)
      return ⟨k, ok, before, after⟩ :: more
    else calls ks phase

/-- The calls before the first listing: a login, the type, and the remote directory. -/
def start (remoteDir : Str) : Ftp S Bool := do
  if ← ftpRelogin net then
    if ← ftpReq net ['T', 'Y', 'P', 'E', ' ', 'I'] then ftpCd net remoteDir else return false
  else return false

/-- A run of `spegla.c`, as far as the connection is concerned. -/
def serve (remoteDir : Str) (ks : List Call) : Ftp S (List (CallStep S)) := do
  if ← start net remoteDir then calls net ks .goesOn else return []

variable {net} {ok : NetEvent S → Prop}

/-- The names in a call are lines. -/
def Call.IsLine : Call → Prop
  | .relogin => True
  | .get remoteFile _ => '\n' ∉ remoteFile
  | .dir d => '\n' ∉ d

/-- An invariant of the phases is carried through the calls, each of which is right. -/
theorem calls_upholds {P : Phase → Conn S → Prop} (Right : CallStep S → Prop)
    (hstep : ∀ phase k before, phase.allows k = true → k.IsLine →
      Upholds Conn.log ok (fun _ => False) (fun c => before = c ∧ P phase c) (k.run net) fun b c' =>
        P (k.next b c'.ftpResp) c' ∧ Right ⟨k, b, before, c'⟩) :
    ∀ (ks : List Call) (phase : Phase), (∀ k ∈ ks, k.IsLine) →
      Upholds Conn.log ok (fun _ => False) (P phase) (calls net ks phase) fun steps c' =>
        (∃ phase', P phase' c') ∧ ∀ step ∈ steps, Right step := by
  intro ks
  induction ks with
  | nil =>
    intro phase hks
    exact Upholds.pure fun c hc => ⟨⟨phase, hc⟩, by simp⟩
  | cons k ks ih =>
    intro phase hks
    have hks' : ∀ k' ∈ ks, k'.IsLine := fun k' hk' => hks k' (List.mem_cons_of_mem _ hk')
    refine Upholds.ite (fun hallows => ?_) fun _ => ih phase hks'
    refine Upholds.get.bind fun before => ?_
    refine (hstep phase k before hallows (hks k (List.mem_cons_self ..))).bind fun b => ?_
    refine Upholds.get.bind fun after => ?_
    refine Upholds.pre
      (((ih (k.next b after.ftpResp) hks').frame (Right ⟨k, b, before, after⟩)).bind
      fun more => ?_) fun c hc => ?_
    · refine Upholds.pure fun c hc => ⟨hc.1.1, fun step hmem => ?_⟩
      rcases List.mem_cons.mp hmem with rfl | hmem
      · exact hc.2
      · exact hc.1.2 step hmem
    · obtain ⟨rfl, hP, hright⟩ := hc
      exact ⟨hP, hright⟩

/-- A phase with an invariant. -/
def PhaseInv (I J W : Session S → Prop) : Phase → Conn S → Prop
  | .goesOn, c => Ready I c
  | .relogins, c => J c.session
  | .stops, c => W c.session

variable {I J W : Session S → Prop} {c : Conn S}

/-- The phase after `ftp_relogin`. -/
theorem phaseInv_relogin {b : Bool} (h : LoggedIn I J b c) :
    PhaseInv I J W (Call.relogin.next b c.ftpResp) c := by
  rcases h with ⟨rfl, hready⟩ | ⟨rfl, hkeep⟩
  · exact hready
  · exact hkeep

/-- What a call leaves behind is what the next phase needs, if it is the connection as it was
or if `ftp_resp` says that the connection is lost. -/
theorem phaseInv_bad (hcut : ∀ σ, I σ → J σ) (hlost : ∀ σ, J σ → W σ) (h : Bad I J c) :
    (c.ftpResp = JFTP_ERR ∨ c.ftpResp = JFTP_WRITEERR → Ready I c) ∧
    (Lost c.ftpResp → J c.session) ∧ W c.session := by
  rcases h with hready | ⟨hresp, hkeep⟩
  · exact ⟨fun _ => hready, fun _ => hcut _ hready.keep, hlost _ (hcut _ hready.keep)⟩
  · refine ⟨fun h => ?_, fun _ => hkeep, hlost _ hkeep⟩
    rcases h with h | h
    · exact absurd h hresp.ne_err
    · rcases hresp with hr | hr
      all_goals
        rw [hr] at h
        exact absurd h (by decide)

/-- The phase after `ftp_get`. -/
theorem phaseInv_get {remoteFile : Str} {seekto : Nat} {b : Bool} (hcut : ∀ σ, I σ → J σ)
    (hlost : ∀ σ, J σ → W σ) (h : (b = true ∧ Ready I c) ∨ (b = false ∧ Bad I J c)) :
    PhaseInv I J W ((Call.get remoteFile seekto).next b c.ftpResp) c := by
  rcases h with ⟨rfl, hready⟩ | ⟨rfl, hbad⟩
  · exact hready
  obtain ⟨hgoes, hrelogins, hstops⟩ := phaseInv_bad hcut hlost hbad
  simp only [Call.next, Bool.false_eq_true, false_or]
  split
  · next herr => exact hgoes herr
  · split
    · next hresp => exact hrelogins hresp
    · exact hstops

/-- The phase after `ftp_dir`. -/
theorem phaseInv_dir {d : Str} {b : Bool} (hcut : ∀ σ, I σ → J σ) (hlost : ∀ σ, J σ → W σ)
    (h : (b = true ∧ Ready I c) ∨ (b = false ∧ Failed I J W c)) :
    PhaseInv I J W ((Call.dir d).next b c.ftpResp) c := by
  rcases h with ⟨rfl, hready⟩ | ⟨rfl, ⟨hresp, hstops⟩ | hsafe⟩
  · exact hready
  · simp only [Call.next, hresp]
    exact hstops
  obtain ⟨hgoes, hrelogins, hstops⟩ := phaseInv_bad hcut hlost hsafe.bad
  simp only [Call.next, Bool.false_eq_true, false_or]
  split
  · next herr => exact hgoes (Or.inl herr)
  · split
    · next hresp => exact hrelogins hresp
    · exact hstops

/-- The calls begin with a login and the change to the remote directory. -/
theorem start_upholds {I₀ J₀ L : Session S → Prop} (hl : Logins net ok I₀ J₀ L)
    (h₀ : Kept net ok I₀ J₀)
    (h : Kept net ok I J) (hline : OneLine net) {R : Str} (hR : '\n' ∉ R)
    (hgo : ∀ σ r, I₀ σ → (net.server.answer σ.server (cwd R)).1 = ⟨[r], []⟩ → r.code = 250 →
      I ((σ.toDir R).after net (cwd R)))
    (hcut : ∀ σ, I₀ σ → J (σ.toDir R) ∧ J ((σ.toDir R).after net (cwd R))) :
    Upholds Conn.log ok (fun _ => False) (fun c => J₀ c.session) (start net R) fun b c' =>
      (b = true ∧ Ready I c') ∨ (b = false ∧ (J₀ c'.session ∨ J c'.session)) := by
  refine Upholds.test (ftpRelogin_upholds hl hline) ?_ ?_
  swap
  · exact Upholds.pure fun c hc => Or.inr ⟨rfl, Or.inl hc⟩
  refine Upholds.test (ftpReq_plain h₀ (by decide) (by decide)) ?_ ?_
  swap
  · exact Upholds.pure fun c hc => Or.inr ⟨rfl, Or.inl hc.keep⟩
  refine (ftpCd_ready (B := J) h₀.quiet h (fun _ _ => hR) hcut hgo fun σ r hσ _ _ =>
    (hcut σ hσ).2).post
    fun b c' hc' => ?_
  rcases hc' with ⟨hb, hready⟩ | ⟨hb, ⟨-, hready⟩ | ⟨-, hready⟩ | hcut⟩
  · exact Or.inl ⟨hb, hready⟩
  · exact Or.inr ⟨hb, Or.inl (h₀.cut _ hready.keep)⟩
  · exact Or.inr ⟨hb, Or.inr hready.keep⟩
  · exact Or.inr ⟨hb, Or.inr hcut.keep⟩

/-! ## Nothing is left unread -/

/-- What is asked of the server and of the calls: each line of a reply fits into the buffer,
a transfer is announced by 150, `select` and `setsockopt` do not fail, and no listing loses
its data connection. -/
def NetEvent.Served : NetEvent S → Prop
  | .greeted rs => ∀ r ∈ rs, r.Fits JFTP_BUF
  | .command _ _ rs => ∀ r ∈ rs, r.Fits JFTP_BUF ∧ r.code ≠ 125
  | .lost k r => ¬(k = .select ∧ r = .fail) ∧ k ≠ .setsockopt
  | .listDataLost => False
  | _ => True

/-- A served run is an orderly one. -/
theorem orderly_served : Orderly (NetEvent.Served (S := S)) where
  select := fun h => h.1 ⟨rfl, rfl⟩
  setsockopt := fun _ h => h.2 rfl
  announced := fun _ _ _ h r hr => (h r hr).2

/-- Nothing was left unread so far, and of the remote directory `p` holds. -/
def Reads (p : Option Str → Prop) (σ : Session S) : Prop := (∀ e ∈ σ.log, e.AllRead) ∧ p σ.remoteDir

/-- An event with all replies read adds nothing that is unread. -/
theorem Reads.logged {p : Option Str → Prop} {σ : Session S} (h : Reads p σ) {e : NetEvent S}
    (he : e.AllRead) : Reads p (σ.logged e) := by
  refine ⟨fun e' he' => ?_, h.2⟩
  rcases List.mem_cons.mp he' with rfl | he'
  · exact he
  · exact h.1 e' he'

/-- Events that pass are of that kind. -/
theorem NetEvent.Passes.allRead {e : NetEvent S} (h : e.Passes) : e.AllRead := by
  cases e with
  | command s cmd rs => exact h.elim
  | _ => exact h

/-- So is a command with its reply. -/
theorem Reads.after {p : Option Str → Prop} {σ : Session S} (h : Reads p σ) (cmd : Str) :
    Reads p (σ.after net cmd) :=
      Reads.logged (e := .command σ.server cmd (σ.replies net cmd)) h trivial

/-- Reading everything is kept by every server that follows the protocol. -/
theorem Reads.kept {p q : Option Str → Prop} (hrfc : Rfc959 net.server) (hpq : ∀ d, p d → q d) :
    Kept net NetEvent.Served (Reads p) (Reads q) where
  rfc := hrfc
  greeting := fun _ h => h
  fits := fun _ _ _ h r hr => (h r hr).1
  quiet := fun _ _ he h => h.logged he.allRead
  quietJ := fun _ _ he h => h.logged he.allRead
  cut := fun _ h => ⟨h.1, hpq _ h.2⟩
  plain := fun _ cmd _ h => h.after cmd

/-- The directory that is kept, if any, is a line. -/
def LineDir (d : Option Str) : Prop := ∀ dir, d = some dir → '\n' ∉ dir

/-- A directory is kept, and it is a line. -/
def KeptDir (d : Option Str) : Prop := d ≠ none ∧ LineDir d

/-- A name of one line can be kept. -/
theorem keptDir_some {dir : Str} (h : '\n' ∉ dir) : KeptDir (some dir) :=
  ⟨by simp, fun _ h' => Option.some.inj h' ▸ h⟩

/-- The directory that is kept is kept once more. -/
theorem Reads.again {p : Option Str → Prop} {σ : Session S} {dir : Str} (h : Reads p σ)
    (hdir : σ.remoteDir = some dir) : Reads p (σ.toDir dir) := by
  refine ⟨h.1, ?_⟩
  have hp := h.2
  rw [hdir] at hp
  exact hp

/-- It is kept by a login. -/
theorem reads_logins {p : Option Str → Prop} (hrfc : Rfc959 net.server)
    (hp : ∀ d, p d → LineDir d) :
    Logins net NetEvent.Served (Reads p) (Reads p) (Reads p) where
  kept := Reads.kept hrfc fun _ h => h
  greet := fun _ h => h
  stay := fun _ h _ => h
  line := fun _ dir h hdir => hp _ h.2 dir hdir
  back := fun _ dir _ h hdir _ _ => (h.again hdir).after (cwd dir)
  refused := fun _ dir h hdir => ⟨h.again hdir, (h.again hdir).after (cwd dir)⟩

/-- It is kept by a download. -/
theorem reads_gets (remoteFile : Str) (seekto : Nat) :
    Gets net (Reads KeptDir) (Reads KeptDir) (fun _ => Reads KeptDir) remoteFile seekto where
  start := fun _ _ h => h.1
  rest := fun _ _ _ h _ _ => h.1.after _
  ready := fun _ h => h
  refused := fun _ _ h _ => h.after _
  sent := fun _ _ _ _ h _ => h.after _
  keep := fun _ _ h => h

/-- Nothing was left unread so far, and the directory that is to be kept again is a line. -/
def ReadsThere (R : Str) : Session S → Prop := Reads fun d => KeptDir d ∧ '\n' ∉ R

/-- It is kept on the way back from a directory. -/
theorem readsThere_back {R : Str} {σ : Session S} (h : ReadsThere R σ) {n : Nat} :
    Reads KeptDir (σ.toDir (R.take n)) :=
  ⟨h.1, keptDir_some fun hmem => h.2.2 (List.mem_of_mem_take hmem)⟩

/-- It is kept by a listing. -/
theorem reads_dirs (hrfc : Rfc959 net.server) {d : Str} (hd : '\n' ∉ d) :
    Dirs net NetEvent.Served (Reads KeptDir) (Reads KeptDir) (Reads KeptDir) ReadsThere ReadsThere
      (fun _ => True) d where
  kept := fun _ => Reads.kept hrfc fun _ h => h
  forgets := fun _ _ _ h => h
  named := fun _ h => h.2.1
  line := fun _ _ h => h.2.2
  down := fun R σ _ h hR _ _ =>
    Reads.after (σ := σ.toDir d) ⟨h.1, keptDir_some hd, h.2.2 R hR⟩ (cwd d)
  downRefused := fun σ _ _ h _ _ => Reads.after (σ := σ.toDir d) ⟨h.1, keptDir_some hd⟩ (cwd d)
  downCut := fun R σ h hR =>
    have h' : ReadsThere R (σ.toDir d) := ⟨h.1, keptDir_some hd, h.2.2 R hR⟩
    ⟨h', h'.after (cwd d)⟩
  downLost := fun _ _ _ _ _ h => ⟨h.1, h.2.1⟩
  list := fun _ =>
    { refused := fun _ _ h _ => h.after _
      sent := fun _ _ _ _ h _ => ⟨h.after _, trivial⟩
      keep := fun _ _ h => h.1
      quiet := fun _ _ _ he h => ⟨h.1.logged he.allRead, trivial⟩
      forgets := fun _ _ _ h => h }
  more := fun _ _ _ => trivial
  back := fun _ _ _ h _ _ => (readsThere_back h).after _
  backRefused := fun _ _ _ _ h _ _ => (readsThere_back h).after _
  backCut := fun _ _ h => ⟨readsThere_back h, (readsThere_back h).after _⟩
  backLost := fun _ _ h => readsThere_back h
  quietW := fun _ _ he h => h.logged he.allRead
  lost := fun _ h => h
  lostThere := fun _ _ h => ⟨h.1, h.2.1⟩

/-- One call of a run. -/
theorem call_allRead (hrfc : Rfc959 net.server) (hline : OneLine net) (phase : Phase) (k : Call)
    (before : Conn S) (hallows : phase.allows k = true) (hk : k.IsLine) :
    Upholds Conn.log NetEvent.Served (fun _ => False)
      (fun c => before = c ∧
        PhaseInv (Reads KeptDir) (Reads KeptDir) (Reads KeptDir) phase c) (k.run net)
      fun b c' => PhaseInv (Reads KeptDir) (Reads KeptDir) (Reads KeptDir)
      (k.next b c'.ftpResp) c' ∧ True := by
  have hkept : Kept net NetEvent.Served (Reads KeptDir) (Reads KeptDir) :=
    Reads.kept hrfc fun _ h => h
  have hid : ∀ σ : Session S, Reads KeptDir σ → Reads KeptDir σ := fun _ h => h
  have hquiet : Quiet (Reads (S := S) KeptDir) := hkept.quiet
  have hforgets : Forgets (Reads (S := S) KeptDir) := fun _ _ h => h
  cases phase with
  | stops => cases k <;> cases hallows
  | relogins =>
    cases k with
    | get remoteFile seekto => cases hallows
    | dir d => cases hallows
    | relogin =>
      refine Upholds.post (Upholds.pre (ftpRelogin_upholds (reads_logins hrfc fun _ h => h.2) hline)
        fun c hc => hc.2) fun b c' hc' => ⟨phaseInv_relogin hc', trivial⟩
  | goesOn =>
    cases k with
    | relogin => cases hallows
    | get remoteFile seekto =>
      refine Upholds.post (Upholds.pre (ftpGet_upholds hkept hforgets hline orderly_served hk
        (reads_gets remoteFile seekto) hquiet fun τ hτ => ?_) fun c hc => hc.2)
        fun b c' hc' => ⟨phaseInv_get hid hid hc', trivial⟩
      obtain ⟨r, -, hfetched⟩ := hτ
      exact hquiet.fetched hforgets (fun _ _ h => h) r τ hfetched
    | dir d =>
      refine Upholds.map
        (Upholds.post (Upholds.pre (ftpDir_upholds hkept hline orderly_served (fun h => h)
        (reads_dirs hrfc hk) hk) fun c hc => hc.2) fun res c' hc' =>
          ⟨phaseInv_dir hid hid ?_, trivial⟩)
      rcases hc' with ⟨hsome, hready⟩ | ⟨rfl, hfailed⟩
      · exact Or.inl ⟨hsome, hready.com, hready.input, hready.sent, hready.keep.1⟩
      · exact Or.inr ⟨rfl, hfailed⟩

/-- A run of `spegla.c` in which the server and the calls are as `Served` says: whenever
`ftp_get` or `ftp_dir2` succeeds or fails with `JFTP_ERR`, it has read every reply to the
commands so far. -/
theorem serve_allRead (hrfc : Rfc959 net.server) (hline : OneLine net) (remoteDir : Str)
    (hremote : '\n' ∉ remoteDir) (ks : List Call) (hks : ∀ k ∈ ks, k.IsLine) (s : S) :
    wp (serve net remoteDir ks) (Conn.init s)
      (fun _ c' => (∀ e ∈ c'.log, e.Served) → ∀ e ∈ c'.log, e.AllRead)
      (fun _ c' => ¬∀ e ∈ c'.log, e.Served) := by
  have hstart : Upholds Conn.log NetEvent.Served (fun _ => False) (fun c => Reads LineDir c.session)
      (start net remoteDir) fun b c' => (b = true ∧ Ready (Reads KeptDir) c') ∨
        (b = false ∧ (Reads LineDir c'.session ∨ Reads KeptDir c'.session)) := by
    have hto : ∀ σ : Session S, Reads LineDir σ → Reads KeptDir (σ.toDir remoteDir) := fun σ h =>
      ⟨h.1, keptDir_some hremote⟩
    exact start_upholds (reads_logins hrfc fun _ h => h) (Reads.kept hrfc fun _ h => h)
      (Reads.kept hrfc fun _ h => h) hline hremote (fun σ _ h _ _ => (hto σ h).after _)
      fun σ h => ⟨hto σ h, (hto σ h).after _⟩
  have hserve : Upholds Conn.log NetEvent.Served (fun _ => False) (fun c => Reads LineDir c.session)
      (serve net remoteDir ks) fun _ c' => ∀ e ∈ c'.log, e.AllRead := by
    refine Upholds.test hstart ?_ (Upholds.pure fun c hc => hc.elim And.left And.left)
    refine Upholds.post (Upholds.pre (calls_upholds (fun _ => True)
      (fun phase k before => call_allRead hrfc hline phase k before) ks .goesOn hks) fun c hc => hc)
      fun steps c' hc' => ?_
    obtain ⟨⟨phase, hphase⟩, -⟩ := hc'
    cases phase with
    | goesOn => exact hphase.keep.1
    | relogins => exact hphase.1
    | stops => exact hphase.1
  have hinit : Reads LineDir (Conn.init s).session := ⟨by simp [Conn.session, Conn.init], by
    intro dir hdir
    cases hdir⟩
  refine wp_mono (hserve.run hinit) (fun _ c' h hok => ?_) fun _ c' h hok => ?_
  all_goals
    obtain ⟨new, hnew, hall⟩ := h
    have hlog : c'.log = new := by
      rw [hnew]
      exact List.append_nil new
    rw [hlog] at hok
  · exact hall hok
  · exact hall hok

/-- A server that takes any name, and announces each transfer by `pre`. -/
def helloServer (pre : Reply) : Server Unit :=
  { greeting := fun s => ([Reply.short 220 Reply.code_220], s)
    answer := fun s cmd =>
      (if Transfers cmd then ⟨[pre, Reply.short 226 Reply.code_226], ['x']⟩
        else if word cmd = ['U', 'S', 'E', 'R'] then ⟨[Reply.short 230 Reply.code_230], []⟩
        else if word cmd = ['C', 'W', 'D'] then ⟨[Reply.short 250 Reply.code_250], []⟩
        else ⟨[Reply.short 200 Reply.code_200], []⟩, s) }

/-- The server of the example follows the protocol. -/
theorem helloServer_rfc959 {pre : Reply} (hpre : pre.code = 125 ∨ pre.code = 150) :
    Rfc959 (helloServer pre) where
  greeting := fun s => ⟨Reply.short 220 (by decide), by decide, Or.inl rfl⟩
  transfer := fun s cmd h =>
    Or.inr ⟨pre, Reply.short 226 (by decide), ['x'], hpre, by decide, if_pos h⟩
  single := by
    intro s cmd h
    show ∃ r : Reply, 200 ≤ r.code ∧ (if Transfers cmd then _ else _) = _
    rw [if_neg h]
    split
    · exact ⟨Reply.short 230 (by decide), by decide, rfl⟩
    · split
      · exact ⟨Reply.short 250 (by decide), by decide, rfl⟩
      · exact ⟨Reply.short 200 (by decide), by decide, rfl⟩

/-- Its addresses are one line. -/
theorem calmNet_oneLine (server : Server S) : OneLine (calmNet server) where
  hostPort := fun _ => show '\n' ∉ ['1', ',', '2', ',', '3', ',', '4', ',', '5', ',', '6'] by decide
  ftpUserName := show '\n' ∉ ['u'] by decide
  ftpPassword := show '\n' ∉ ['p'] by decide

section

attribute [local irreducible] wp

theorem serve_allRead_hello :
    wp (serve (calmNet (helloServer (Reply.short 150 (by decide)))) ['/', 'p']
      [.dir ['.'], .get ['f'] 0])
      (Conn.init ())
      (fun _ c' => (∀ e ∈ c'.log, e.Served) → ∀ e ∈ c'.log, e.AllRead)
      (fun _ c' => ¬∀ e ∈ c'.log, e.Served) :=
  serve_allRead (helloServer_rfc959 (Or.inr rfl)) (calmNet_oneLine _) ['/', 'p'] (by decide) _ (by
    intro k hk
    rcases List.mem_cons.mp hk with rfl | hk
    · show '\n' ∉ ['.']
      decide
    · obtain rfl := List.mem_singleton.mp hk
      show '\n' ∉ ['f']
      decide) ()

end

/-- Where `ftp_get` and `ftp_dir2` go on or are to go on. -/
instance (e : NetEvent S) : Decidable e.AllRead :=
  match e with
  | .returned ok resp unread =>
    inferInstanceAs (Decidable (ok = true ∨ resp = JFTP_ERR → unread = []))
  | .greeted .. | .command .. | .lost .. | .fopen .. | .fwrite .. | .fclose .. | .listFailed ..
  | .listDataLost | .wentDown .. | .wentBack .. => isTrue trivial

/-- A server may announce a transfer by 125: `ftp_get` takes this for a refusal, and the final
reply is left unread. -/
theorem serve_unread :
    Rfc959 (helloServer (Reply.short 125 (by decide))) ∧
    wp (serve (calmNet (helloServer (Reply.short 125 (by decide)))) ['/', 'p'] [.get ['f'] 0])
      (Conn.init ())
      (fun _ c' => ¬∀ e ∈ c'.log, e.AllRead) (fun _ _ => False) :=
  ⟨helloServer_rfc959 (Or.inl rfl), by decide +kernel⟩

end Spegla.Jftp
