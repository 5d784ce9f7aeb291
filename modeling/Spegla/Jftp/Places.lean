import Spegla.Jftp.Calls

/-!
# The directory on the server

`ftp_cd` keeps the new directory before the server has answered, `ftp_dir` goes back by the
directory that was kept before, and `ftp_relogin` goes to the one that is kept now.

- `Places`: what is asked of a server that has directories.
- `serve_inPlace`: where each way down succeeds, and each way back succeeds or loses the
  connection, a call that succeeds has been carried out in the right directory.
-/

namespace Spegla.Jftp

open CString FtpReply ExitState

variable {S D : Type}

/-- The directory of a session on a server: only `CWD` changes it, to what the name means
there, and for an absolute name that is the same everywhere. -/
structure Places (server : Server S) (D : Type) where
  dir : S → D
  home : D
  target : D → Str → D
  greeted : ∀ s, dir (server.greeting s).2 = home
  moves : ∀ s d r, (server.answer s (cwd d)).1 = ⟨[r], []⟩ → r.code = 250 →
    dir (server.answer s (cwd d)).2 = target (dir s) d
  stays : ∀ s cmd, word cmd ≠ ['C', 'W', 'D'] → dir (server.answer s cmd).2 = dir s
  absolute : ∀ w w' d, d.head? = some '/' → target w d = target w' d

variable {net : Net S} (P : Places net.server D) (R : Str)

/-- The remote directory. -/
def Places.root : D := P.target P.home R

/-- What a call has added to the record. -/
def CallStep.news (step : CallStep S) : List (NetEvent S) := newEvents step.before step.after

/-- The event is the execution of `cmd` in a state with `p`. -/
def NetEvent.Executes (cmd : Str) (p : S → Prop) : NetEvent S → Prop
  | .command s cmd' _ => cmd' = cmd ∧ p s
  | _ => False

/-- A call that succeeds has been carried out in the directory it is meant for. -/
def InPlace (step : CallStep S) : Prop :=
  step.ok = true →
    match step.call with
    | .relogin => True
    | .get remoteFile _ => ∃ e ∈ step.news,
        e.Executes (['R', 'E', 'T', 'R', ' '] ++ remoteFile) (fun s => P.dir s = P.root R)
    | .dir d => ∃ e ∈ step.news,
        e.Executes (listCmd ['-', 'l', 'a', 'g'] []) (fun s => P.dir s = P.target (P.root R) d)

/-- What is asked of a run: the server and the calls are as before, each way down succeeds,
and each way back succeeds or loses the connection. -/
def NetEvent.Led : NetEvent S → Prop
  | .wentDown ok resp => ok = true ∨ resp = JFTP_ERRNO
  | .wentBack ok resp kept => ok = true ∨ kept = false ∨ resp = JFTP_ERRNO
  | e => e.Served

/-- A run that is led back is an orderly one. -/
theorem orderly_led : Orderly (NetEvent.Led (S := S)) where
  select := fun h => h.1 ⟨rfl, rfl⟩
  setsockopt := fun _ h => h.2 rfl
  announced := fun _ _ _ h r hr => (h r hr).2

/-! ## The invariants -/

/-- The session is in `w`, the directory `R` is kept, and the record has grown from `log`. -/
def At (w : D) (log : List (NetEvent S)) (σ : Session S) : Prop :=
  σ.remoteDir = some R ∧ P.dir σ.server = w ∧ log <:+ σ.log

/-- The directory `R` is kept. -/
def KeepsDir (σ : Session S) : Prop := σ.remoteDir = some R

variable {P R} {w : D} {log : List (NetEvent S)} {σ : Session S} {d : Str}

/-- An event leaves the session where it is. -/
theorem At.logged (h : At P R w log σ) (e : NetEvent S) : At P R w log (σ.logged e) :=
  ⟨h.1, h.2.1, h.2.2.trans (List.suffix_cons ..)⟩

/-- So does every command but `CWD`. -/
theorem At.after (h : At P R w log σ) {cmd : Str} (hcmd : word cmd ≠ ['C', 'W', 'D']) :
    At P R w log (σ.after net cmd) :=
  ⟨h.1, (P.stays σ.server cmd hcmd).trans h.2.1, h.2.2.trans (List.suffix_cons ..)⟩

/-- `CWD` leads to where the name means. -/
theorem At.moved (h : At P R w log σ) {r : Reply}
    (hr : (net.server.answer σ.server (cwd d)).1 = ⟨[r], []⟩) (hcode : r.code = 250) :
    At P d (P.target w d) log ((σ.toDir d).after net (cwd d)) := by
  refine ⟨rfl, ?_, h.2.2.trans (List.suffix_cons ..)⟩
  rw [← h.2.1]
  exact P.moves σ.server d r hr hcode

/-- Being at a place is kept by a server that follows the protocol. -/
theorem At.kept (hrfc : Rfc959 net.server) {J : Session S → Prop} (hJ : Quiet J)
    (hcut : ∀ σ, At P R w log σ → J σ) : Kept net NetEvent.Led (At P R w log) J where
  rfc := hrfc
  greeting := fun _ h => h
  fits := fun _ _ _ h r hr => (h r hr).1
  quiet := fun _ e _ h => h.logged e
  quietJ := hJ
  cut := hcut
  plain := fun _ _ hplain h => h.after hplain.2

/-- The directory that is kept is none of the events. -/
theorem keepsDir_quiet : Quiet (KeepsDir (S := S) R) := fun _ _ _ h => h

/-! ## One call -/

/-- Since `log` the command has been carried out in a state with `p`. -/
def Since (log : List (NetEvent S)) (cmd : Str) (p : S → Prop) (l : List (NetEvent S)) : Prop :=
  ∃ new, l = new ++ log ∧ ∃ e ∈ new, e.Executes cmd p

/-- What has been carried out since then stays so. -/
theorem Since.cons {cmd : Str} {p : S → Prop} {l : List (NetEvent S)} (h : Since log cmd p l)
    (e : NetEvent S) : Since log cmd p (e :: l) := by
  obtain ⟨new, rfl, e', he', hexec⟩ := h
  exact ⟨e :: new, rfl, e', List.mem_cons_of_mem _ he', hexec⟩

/-- A command is carried out where the session is. -/
theorem At.since (h : At P R w log σ) (cmd : Str) :
    Since log cmd (fun s => P.dir s = w) (σ.after net cmd).log := by
  obtain ⟨new, hnew⟩ := h.2.2
  refine ⟨.command σ.server cmd (σ.replies net cmd) :: new, ?_, _,
    List.mem_cons_self .., rfl, h.2.1⟩
  show _ :: σ.log = _
  rw [← hnew]
  rfl

/-- What a call has added is what came since. -/
theorem Since.news {cmd : Str} {p : S → Prop} {step : CallStep S}
    (h : Since step.before.log cmd p step.after.log) : ∃ e ∈ step.news, e.Executes cmd p := by
  obtain ⟨new, hnew, e, he, hexec⟩ := h
  refine ⟨e, ?_, hexec⟩
  unfold CallStep.news
  rw [newEvents_eq hnew]
  exact he

variable {w₀ : D}

/-- `RETR` is not `CWD`. -/
theorem word_retr (remoteFile : Str) :
    word (['R', 'E', 'T', 'R', ' '] ++ remoteFile) ≠ ['C', 'W', 'D'] := by
  show word (['R', 'E', 'T', 'R'] ++ ' ' :: remoteFile) ≠ _
  rw [word_append (by decide)]
  decide

/-- Nor is `REST`. -/
theorem word_rest (n : Nat) :
    word (['R', 'E', 'S', 'T', ' '] ++ (Nat.repr n).toList) ≠ ['C', 'W', 'D'] := by
  show word (['R', 'E', 'S', 'T'] ++ ' ' :: _) ≠ _
  rw [word_append (by decide)]
  decide

/-- The command has been carried out in `w`, where the session still is. -/
def Asked (P : Places net.server D) (R : Str) (w : D) (log : List (NetEvent S)) (cmd : Str)
    (σ : Session S) : Prop := At P R w log σ ∧ Since log cmd (fun s => P.dir s = w) σ.log

/-- What has been asked is none of the later events. -/
theorem asked_quiet {cmd : Str} : Quiet (Asked P R w log cmd) := fun _ e _ h =>
  ⟨h.1.logged e, h.2.cons e⟩

/-- The steps of `ftp_get` in the directory `w`. -/
theorem places_gets (remoteFile : Str) (seekto : Nat) :
    Gets net (At P R w log) (At P R w log)
      (fun _ => Asked P R w log (['R', 'E', 'T', 'R', ' '] ++ remoteFile)) remoteFile seekto where
  start := fun _ _ h => h.1
  rest := fun _ _ _ h _ _ => h.1.after (word_rest seekto)
  ready := fun _ h => h
  refused := fun _ _ h _ => h.after (word_retr remoteFile)
  sent := fun _ _ _ _ h _ => ⟨h.after (word_retr remoteFile), h.since _⟩
  keep := fun _ _ h => h.1

/-- The session is in the directory `d` below `R`, to which it is to go back. -/
def Below (P : Places net.server D) (R d : Str) (w : D) (log : List (NetEvent S)) (R' : Str)
    (σ : Session S) :
    Prop := R' = R ∧ At P d w log σ

/-- The steps of `ftp_dir` in the directory `R`. -/
theorem places_dirs (hrfc : Rfc959 net.server) (habs : R.head? = some '/') (hR : '\n' ∉ R)
    (hlen : R.length < net.pathMax) :
    Dirs net NetEvent.Led (At P R (P.root R) log) (KeepsDir R) (fun _ => True)
      (Below P R d (P.target (P.root R) d) log) (fun R' _ => R' = R)
      (Since log (listCmd ['-', 'l', 'a', 'g'] []) fun s => P.dir s = P.target (P.root R) d) d := by
  have htake : R.take (net.pathMax - 1) = R := List.take_of_length_le (by omega)
  -- the path that is kept is absolute, so it leads to the root from everywhere
  have hback : ∀ w', P.target w' R = P.root R := fun w' => P.absolute w' P.home R habs
  exact
  { kept := fun R' =>
      { (At.kept hrfc (fun _ _ _ _ => trivial) fun _ _ => trivial :
          Kept net NetEvent.Led (At P d (P.target (P.root R) d) log) fun _ => True) with
        quiet := fun _ e _ h => ⟨h.1, h.2.logged e⟩
        quietJ := fun _ _ _ h => h
        cut := fun _ h => h.1
        plain := fun _ _ hplain h => ⟨h.1, h.2.after hplain.2⟩ }
    forgets := fun _ _ _ h => h
    named := fun σ h => by
      rw [h.1]
      simp
    line := fun R' σ h => h.1 ▸ hR
    down := fun R' σ r h hR' hr hcode =>
      ⟨(Option.some.inj (h.1.symm.trans hR')).symm, h.moved hr hcode⟩
    downRefused := fun _ _ hok => absurd hok (by rintro (h | h) <;> cases h)
    downCut := fun R' σ h hR' =>
      ⟨(Option.some.inj (h.1.symm.trans hR')).symm, (Option.some.inj (h.1.symm.trans hR')).symm⟩
    downLost := by
      intro R' resp σ hlost hok _
      rcases hok with h | h
      · cases h
      · rcases hlost with h' | h'
        all_goals
          rw [h'] at h
          exact absurd h (by decide)
    list := fun R' =>
      { refused := fun _ _ h _ => ⟨h.1, h.2.after (by decide)⟩
        sent := fun _ _ _ _ h _ => ⟨⟨h.1, h.2.after (by decide)⟩, h.2.since _⟩
        keep := fun _ _ h => h.1
        quiet := fun _ _ e _ h => ⟨⟨h.1.1, h.1.2.logged e⟩, h.2.cons e⟩
        forgets := fun _ _ _ h => h }
    more := fun e l h => h.cons e
    back := by
      rintro _ σ r ⟨rfl, h⟩ hr hcode
      rw [htake] at hr ⊢
      have hmoved := h.moved hr hcode
      rw [hback] at hmoved
      exact hmoved
    backRefused := by
      rintro R' σ r (h | h | h) _ _ _
      · cases h
      · cases h
      · exact absurd h (by decide)
    backCut := by
      rintro _ σ ⟨rfl, -⟩
      rw [htake]
      exact ⟨rfl, rfl⟩
    backLost := by
      rintro _ σ rfl
      rw [htake]
      exact rfl
    quietW := fun _ _ _ h => h
    lost := fun _ _ => trivial
    lostThere := fun _ _ _ => trivial }

/-- The steps of `ftp_relogin`, where `R` is kept. -/
theorem places_logins (hrfc : Rfc959 net.server) (hR : '\n' ∉ R)
    (hroot : strcmp R ['/'] = 0 → P.home = P.root R) :
    Logins net NetEvent.Led (At P R (P.root R) []) (KeepsDir R) (At P R P.home []) where
  kept := At.kept hrfc keepsDir_quiet fun _ h => h.1
  greet := fun σ h => ⟨h, P.greeted σ.server, List.nil_suffix⟩
  stay := fun σ h hdir => ⟨h.1, h.2.1.trans (hroot (hdir R h.1)), h.2.2⟩
  line := by
    intro σ dir h hdir
    obtain rfl := Option.some.inj (h.1.symm.trans hdir)
    exact hR
  back := by
    intro σ dir r h hdir hr hcode
    obtain rfl := Option.some.inj (h.1.symm.trans hdir)
    exact h.moved hr hcode
  refused := by
    intro σ dir h hdir
    obtain rfl := Option.some.inj (h.1.symm.trans hdir)
    exact ⟨rfl, rfl⟩

/-- One call of a run. -/
theorem call_inPlace (hrfc : Rfc959 net.server) (hline : OneLine net) (habs : R.head? = some '/')
    (hR : '\n' ∉ R) (hlen : R.length < net.pathMax) (hroot : strcmp R ['/'] = 0 → P.home = P.root R)
    (phase : Phase) (k : Call) (before : Conn S) (hallows : phase.allows k = true) (hk : k.IsLine) :
    Upholds Conn.log NetEvent.Led (fun _ => False)
      (fun c => before = c ∧ PhaseInv (At P R (P.root R) []) (KeepsDir R) (fun _ => True) phase c)
      (k.run net) fun b c' =>
        PhaseInv (At P R (P.root R) []) (KeepsDir R) (fun _ => True) (k.next b c'.ftpResp) c' ∧
        InPlace P R ⟨k, b, before, c'⟩ := by
  have hkept : Kept net NetEvent.Led (At P R (P.root R) before.log) (KeepsDir R) :=
    At.kept hrfc keepsDir_quiet fun _ h => h.1
  have hforgets : Forgets (At P R (P.root R) before.log) := fun _ _ h => h
  cases phase with
  | stops => cases k <;> cases hallows
  | relogins =>
    cases k with
    | get remoteFile seekto => cases hallows
    | dir d => cases hallows
    | relogin =>
      refine Upholds.post (Upholds.pre (ftpRelogin_upholds (places_logins hrfc hR hroot) hline)
        fun c hc => hc.2) fun b c' hc' => ⟨phaseInv_relogin hc', fun _ => trivial⟩
  | goesOn =>
    -- what is asked of the server in this call is recorded behind what was there before
    have hstart : ∀ c, before = c ∧ Ready (At P R (P.root R) []) c →
        Ready (At P R (P.root R) before.log) c := by
      rintro c ⟨rfl, h⟩
      exact ⟨h.com, h.input, h.sent, h.keep.1, h.keep.2.1, List.suffix_refl _⟩
    have hkeep : ∀ σ, At P R (P.root R) before.log σ → At P R (P.root R) [] σ := fun σ h =>
      ⟨h.1, h.2.1, List.nil_suffix⟩
    cases k with
    | relogin => cases hallows
    | get remoteFile seekto =>
      refine Upholds.post (Upholds.pre (ftpGet_upholds
        (T := Asked P R (P.root R) before.log (['R', 'E', 'T', 'R', ' '] ++ remoteFile))
        hkept hforgets
        hline orderly_led hk (places_gets remoteFile seekto) asked_quiet fun τ hτ => ?_) hstart)
          fun b c' hc' => ⟨?_, ?_⟩
      · obtain ⟨r, -, hfetched⟩ := hτ
        exact asked_quiet.fetched (fun _ _ h => h) (fun _ _ h => h) r τ hfetched
      · refine phaseInv_get (fun _ h => h.1) (fun _ _ => trivial) ?_
        rcases hc' with ⟨hb, hready⟩ | ⟨hb, hready | hlost⟩
        · exact Or.inl ⟨hb, hready.com, hready.input, hready.sent, hkeep _ hready.keep.1⟩
        · exact Or.inr ⟨hb, Or.inl ⟨hready.com, hready.input, hready.sent, hkeep _ hready.keep⟩⟩
        · exact Or.inr ⟨hb, Or.inr hlost⟩
      · intro hok
        rcases hc' with ⟨-, hready⟩ | ⟨hb, -⟩
        · exact Since.news hready.keep.2
        · exact absurd (hok.symm.trans hb) (by decide)
    | dir d =>
      refine Upholds.map
        (Upholds.post (Upholds.pre (ftpDir_upholds hkept hline orderly_led (fun h => h)
        (places_dirs hrfc habs hR hlen) hk) hstart) fun res c' hc' => ⟨?_, ?_⟩)
      · refine phaseInv_dir (fun _ h => h.1) (fun _ _ => trivial) ?_
        rcases hc' with ⟨hsome, hready⟩ | ⟨rfl, hstop | hready | hcut⟩
        · exact Or.inl ⟨hsome, hready.com, hready.input, hready.sent, hkeep _ hready.keep.1⟩
        · exact Or.inr ⟨rfl, Or.inl hstop⟩
        · exact Or.inr
            ⟨rfl, Or.inr (Or.inl ⟨hready.com, hready.input, hready.sent, hkeep _ hready.keep⟩)⟩
        · exact Or.inr ⟨rfl, Or.inr (Or.inr hcut)⟩
      · intro hok
        rcases hc' with ⟨-, hready⟩ | ⟨rfl, -⟩
        · exact Since.news hready.keep.2
        · cases hok

/-- A run of `spegla.c` in which the server and the calls are as `Led` says, for an absolute
remote directory: each call that succeeds has been carried out in the right directory. -/
theorem serve_inPlace (P : Places net.server D) (hrfc : Rfc959 net.server) (hline : OneLine net)
    (habs : R.head? = some '/') (hR : '\n' ∉ R) (hlen : R.length < net.pathMax)
    (hroot : strcmp R ['/'] = 0 → P.home = P.root R) (ks : List Call)
    (hks : ∀ k ∈ ks, k.IsLine) (s : S) :
    wp (serve net R ks) (Conn.init s)
      (fun steps c' => (∀ e ∈ c'.log, e.Led) → ∀ step ∈ steps, InPlace P R step)
      (fun _ c' => ¬∀ e ∈ c'.log, e.Led) := by
  have hstart : Upholds Conn.log NetEvent.Led (fun _ => False)
      (fun c => (fun σ : Session S => σ.remoteDir = none) c.session) (start net R) fun b c' =>
        (b = true ∧ Ready (At P R (P.root R) []) c') ∨
        (b = false ∧ (c'.session.remoteDir = none ∨ KeepsDir R c'.session)) := by
    have hnone :
      Kept net NetEvent.Led (fun σ => σ.remoteDir = none) (fun σ => σ.remoteDir = none) :=
      { rfc := hrfc
        greeting := fun _ h => h
        fits := fun _ _ _ h r hr => (h r hr).1
        quiet := fun _ _ _ h => h
        quietJ := fun _ _ _ h => h
        cut := fun _ h => h
        plain := fun _ _ _ h => h }
    have hlogins :
      Logins net NetEvent.Led (fun σ => σ.remoteDir = none) (fun σ => σ.remoteDir = none)
        (fun σ => σ.remoteDir = none) :=
      { kept := hnone
        greet := fun _ h => h
        stay := fun _ h _ => h
        line := fun σ dir h hdir => absurd (h.symm.trans hdir) (by simp)
        back := fun σ dir r h hdir => absurd (h.symm.trans hdir) (by simp)
        refused := fun σ dir h hdir => absurd (h.symm.trans hdir) (by simp) }
    refine start_upholds hlogins hnone (At.kept hrfc keepsDir_quiet fun _ h => h.1) hline hR
      (fun σ r _ hr hcode => ⟨rfl, ?_, List.nil_suffix⟩) fun σ _ => ⟨rfl, rfl⟩
    exact (P.moves σ.server R r hr hcode).trans (P.absolute _ _ R habs)
  have hserve : Upholds Conn.log NetEvent.Led (fun _ => False)
      (fun c => (fun σ : Session S => σ.remoteDir = none) c.session) (serve net R ks) fun steps _ =>
        ∀ step ∈ steps, InPlace P R step := by
    refine Upholds.test hstart ?_ (Upholds.pure fun c hc => by simp)
    refine Upholds.post (Upholds.pre (calls_upholds (InPlace P R)
      (fun phase k before => call_inPlace hrfc hline habs hR hlen hroot phase k before)
      ks .goesOn hks)
      fun c hc => hc) fun steps c' hc' => hc'.2
  refine wp_mono (hserve.run (s := Conn.init s) rfl) (fun _ c' h hok => ?_) fun _ c' h hok => ?_
  all_goals
    obtain ⟨new, hnew, hall⟩ := h
    have hlog : c'.log = new := by
      rw [hnew]
      exact List.append_nil new
    rw [hlog] at hok
    exact hall hok

/-! ## A server with a directory that is easier to enter than to leave -/

/-- A server with the directories 1, which every absolute name means, and 2, which every
other name means. Where `locked`, there is no `CWD` from 2 to 1. -/
def doorServer (locked : Bool) : Server Nat :=
  { greeting := fun _ => ([Reply.short 220 Reply.code_220], 0)
    answer := fun s cmd =>
      if word cmd = ['C', 'W', 'D'] then
        if cmd[4]? ≠ some '/' then (⟨[Reply.short 250 Reply.code_250], []⟩, 2)
        else if locked ∧ s = 2 then (⟨[Reply.short 550 Reply.code_550], []⟩, s)
        else (⟨[Reply.short 250 Reply.code_250], []⟩, 1)
      else (((helloServer (Reply.short 150 Reply.code_150)).answer () cmd).1, s) }

/-- The server with the door follows the protocol. -/
theorem doorServer_rfc959 (locked : Bool) : Rfc959 (doorServer locked) where
  greeting := fun s => ⟨Reply.short 220 (by decide), by decide, Or.inl rfl⟩
  transfer := by
    intro s cmd h
    have hcwd : word cmd ≠ ['C', 'W', 'D'] := by
      rcases h with h | h <;> rw [h] <;> decide
    have hanswer : ((doorServer locked).answer s cmd).1 =
        ((helloServer (Reply.short 150 (by decide))).answer () cmd).1 :=
        congrArg Prod.fst (if_neg hcwd)
    rw [hanswer]
    exact (helloServer_rfc959 (Or.inr rfl)).transfer () cmd h
  single := by
    intro s cmd h
    show ∃ r : Reply, 200 ≤ r.code ∧ (if word cmd = _ then _ else _ : Response × Nat).1 = _
    split
    · split
      · exact ⟨Reply.short 250 (by decide), by decide, rfl⟩
      · split
        · exact ⟨Reply.short 550 (by decide), by decide, rfl⟩
        · exact ⟨Reply.short 250 (by decide), by decide, rfl⟩
    · exact (helloServer_rfc959 (Or.inr rfl)).single () cmd h

/-- The directories of this server. -/
def doorPlaces (locked : Bool) : Places (calmNet (doorServer locked)).server Nat where
  dir := id
  home := 0
  target := fun _ d => if d.head? ≠ some '/' then 2 else 1
  greeted := fun _ => rfl
  moves := by
    intro s d r hr hcode
    have hhead : (cwd d)[4]? = d.head? := by cases d <;> rfl
    have hword : word (cwd d) = ['C', 'W', 'D'] := word_cwd d
    revert hr
    show (if word (cwd d) = _ then _ else _ : Response × Nat).1 = _ →
      (if word (cwd d) = _ then _ else _ : Response × Nat).2 = _
    rw [if_pos hword, hhead]
    intro hr
    split at hr
    · next hne => rw [if_pos hne, if_pos hne]
    · next hne =>
      rw [if_neg hne, if_neg hne]
      split at hr
      · obtain rfl := (List.cons.inj (congrArg Response.replies hr)).1
        exact absurd hcode (by decide)
      · next hopen => rw [if_neg hopen]
  stays := fun s cmd h => congrArg Prod.snd (if_neg h)
  absolute := fun _ _ _ _ => rfl

section

attribute [local irreducible] wp

theorem serve_inPlace_open :
    wp (serve (calmNet (doorServer false)) ['/', 'p'] [.dir ['d'], .get ['f'] 0]) (Conn.init 0)
      (fun steps c' => (∀ e ∈ c'.log, e.Led) → ∀ step ∈ steps,
        InPlace (doorPlaces false) ['/', 'p'] step)
      (fun _ c' => ¬∀ e ∈ c'.log, e.Led) :=
  serve_inPlace (doorPlaces false) (doorServer_rfc959 false)
    (calmNet_oneLine _) rfl (by decide) (by decide) (by decide) _ (by
      intro k hk
      rcases List.mem_cons.mp hk with rfl | hk
      · show '\n' ∉ ['d']
        decide
      · obtain rfl := List.mem_singleton.mp hk
        show '\n' ∉ ['f']
        decide) 0

end

instance (cmd : Str) (p : S → Prop) [DecidablePred p] (e : NetEvent S) :
    Decidable (e.Executes cmd p) :=
  match e with
  | .command s cmd' _ => inferInstanceAs (Decidable (cmd' = cmd ∧ p s))
  | .greeted .. | .lost .. | .fopen .. | .fwrite .. | .fclose .. | .returned .. | .listFailed ..
  | .listDataLost | .wentDown .. | .wentBack .. => isFalse id

instance [DecidableEq D] (step : CallStep S) : Decidable (InPlace P R step) :=
  match step with
  | ⟨.relogin, _, _, _⟩ => isTrue fun _ => trivial
  | ⟨.get remoteFile seekto, ok, before, after⟩ => inferInstanceAs (Decidable (ok = true →
      ∃ e ∈ (⟨.get remoteFile seekto, ok, before, after⟩ : CallStep S).news,
        e.Executes (['R', 'E', 'T', 'R', ' '] ++ remoteFile) (fun s => P.dir s = P.root R)))
  | ⟨.dir d, ok, before, after⟩ => inferInstanceAs (Decidable (ok = true →
      ∃ e ∈ (⟨.dir d, ok, before, after⟩ : CallStep S).news,
        e.Executes (listCmd ['-', 'l', 'a', 'g'] []) (fun s => P.dir s = P.target (P.root R) d)))

/-- Where the server refuses the way back, `ftp_dir` fails, and the next file is taken from
the directory that was listed. -/
theorem serve_outOfPlace :
    Rfc959 (doorServer true) ∧
    wp (serve (calmNet (doorServer true)) ['/', 'p'] [.dir ['d'], .get ['f'] 0]) (Conn.init 0)
      (fun steps _ => ¬∀ step ∈ steps,
        InPlace (doorPlaces true) ['/', 'p'] step)
      (fun _ _ => False) :=
  ⟨doorServer_rfc959 true, by decide +kernel⟩

end Spegla.Jftp
