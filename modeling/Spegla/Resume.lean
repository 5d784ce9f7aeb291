import Spegla.GetFile

/-!
# A download that is resumed (`spegla.c`, `get_ftp_file`)

After a lost connection the download goes on where the temporary file ends, or begins anew.

- `Serves`: a server that sends the content of the file from the offset it is asked for.
- `Part`: what the temporary file holds between the tries is the beginning of the content.
- `resumeSize_part`, `ftpGet_part`, `giveUp_unfetched`: what is done in a try and between two.
- `getFtpFile_content`: a download that has succeeded gives the entry its name with the content
  that the server has, after any number of tries.
-/

namespace Spegla

open CString PosixFs ExitState

variable {F : Type} {env : Env F}

/-- What `ftp_get` receives: of the content of the file, from the offset on, a part, and all of it
where the transfer succeeds. What has come can be written. -/
structure Serves (ops : FtpOps F) (remoteFile content : Str) : Prop where
  part : ∀ c n, (ops.ftpGet c remoteFile n).1.data <+: content.drop n
  whole : ∀ c n, (ops.ftpGet c remoteFile n).1.ok = true →
    (ops.ftpGet c remoteFile n).1.data = content.drop n
  written : ∀ c n, (ops.ftpGet c remoteFile n).1.resp ≠ JFTP_WRITEERR

/-- Files can be opened for writing, and written. -/
structure WritesFiles (env : Env F) : Prop where
  opens : ∀ k, env.fault k .fopen = none
  writes : WritesAll env

/-- No `ftp_get` has returned 0 since the state `w₀`. -/
abbrev Unfetched (w₀ w : World F) : Prop :=
  Adds World.trace (fun x => x.event.succeeded = false) w₀ w

/-- The file that was renamed to the name of the entry, at the place that the name led to. -/
def Placed (env : Env F) (w₀ : World F) (spf : SpFile) (content : Str) (w : World F) : Prop :=
  ∃ fs s q m t, rename env.cwd s (w₀.curDir ++ spf.spfName) fs = .ok w.fs ∧
    resolve fs env.cwd false (w₀.curDir ++ spf.spfName) = .ok q ∧
    w.fs.get q = some ⟨.file content, m, t⟩

/-- A download that has succeeded: the temporary file has the content, and the name of the entry
unless the file could not be renamed. -/
def Fetched (env : Env F) (w₀ : World F) (spf : SpFile) (content : Str) (w : World F) : Prop :=
  Placed env w₀ spf content w ∨ ∃ s p, During env w₀ s p (some content) w

variable {w₀ w : World F} {s : Str} {p : Path} {spf : SpFile} {content : Str}

/-! ## What is recorded -/

theorem Silently.unfetched {α : Type} {x : Prog F α} (hx : Silently x) : Keeps (Unfetched w₀) x :=
  fun w hw => wp_mono (hx w.trace w rfl) (fun _ _ h => hw.trans (Adds.of h)) fun _ _ h =>
    hw.trans (Adds.of h)

theorem rmF_silently (f : Option Str) : Silently (rmF env f) := by
  intro tr
  refine Keeps.get.bind fun w => Keeps.ite (fun _ => Keeps.throw _) fun _ => ?_
  refine Keeps.bind (Keeps.bind (Silently.look tr) fun r => by cases r <;> exact Keeps.pure _)
    fun b => Keeps.bind ?_ fun r => ?_
  · exact Keeps.ite (fun _ => Silently.act tr) fun _ => Silently.act tr
  · cases r with
    | error e => exact Keeps.pure _
    | ok u =>
      refine Keeps.bind (Keeps.modify ?_) fun _ => Keeps.pure _
      exact fun _ h => h

/-- An event other than a success. -/
theorem Unfetched.logged {e : Event} (h : Unfetched w₀ w) (he : e.succeeded = false) :
    Unfetched w₀ (w.logged e) := h.trans (Adds.one rfl he)

theorem spfRm_unfetched (hplain : spf.spfType = .plainfile) :
    Keeps (Unfetched w₀) (spfRm env spf) := by
  refine Keeps.bind (Keeps.modify fun w h => h.logged rfl) fun _ =>
    Keeps.ite (fun _ => Keeps.get.bind fun w => ?_) fun _ => Keeps.pure _
  rw [if_neg (by rw [hplain]; simp)]
  exact (rmF_silently _).unfetched

theorem spfRestoreName_silently : Silently (spfRestoreName env spf) := by
  intro tr
  unfold spfRestoreName
  cases spf.spfOrigName with
  | none => exact Keeps.pure _
  | some orig =>
    refine Keeps.get.bind fun w => (Silently.look tr).bind fun r => ?_
    rcases r with (- | -) | -
    any_goals exact (Silently.act tr).bind fun _ => Keeps.pure _
    exact Keeps.pure _

/-- A download that is given up has not succeeded. -/
theorem giveUp_unfetched (hplain : spf.spfType = .plainfile) :
    Keeps (Unfetched w₀) (giveUp env spf) :=
  (Keeps.modify fun _ h => h.logged rfl).bind fun _ => (spfRm_unfetched hplain).bind fun _ =>
    spfRestoreName_silently.unfetched

/-! ## Between the tries -/

/-- The temporary file holds `c`, which is the beginning of the content if it is there. A file that
is begun anew is so at every try that follows. -/
structure Part (env : Env F) (w₀ : World F) (s : Str) (p : Path) (content : Str) (size : Nat)
    (erased : Bool) (c : Option Str) (w : World F) : Prop where
  during : During env w₀ s p c w
  unfetched : Unfetched w₀ w
  part : ∀ d, c = some d → d <+: content
  anew : erased = true → size = 0

/-- After a try that has failed. -/
def Stopped (env : Env F) (w₀ : World F) (s : Str) (p : Path) (content : Str) (size : Nat)
    (erased : Bool) (w : World F) : Prop := ∃ c, Part env w₀ s p content size erased c w

/-- Before a try: the file ends at the offset, or is begun anew. -/
def Ready (env : Env F) (w₀ : World F) (s : Str) (p : Path) (content : Str) (size : Nat)
    (erased : Bool) (w : World F) : Prop :=
  ∃ c, Part env w₀ s p content size erased c w ∧ (size ≠ 0 → ∃ d, c = some d ∧ d.length = size)

variable {size : Nat} {erased : Bool} {c : Option Str}

theorem Part.conn (h : Part env w₀ s p content size erased c w) (ftp : F) (resp retries : Int) :
    Part env w₀ s p content size erased c
      { w with ftp := ftp, ftpResp := resp, ftpRetries := retries } where
  during := (During.stable ..).conn w ftp resp retries h.during
  unfetched := h.unfetched
  part := h.part
  anew := h.anew

/-- The size that `stat` shows is that of what is there. -/
theorem stat_during {n : Node} (h : During env w₀ s p c w)
    (hn : lookAt env .stat (some s) (stat env.cwd) w = .ok n) :
    ∃ d, c = some d ∧ d.length = n.size := by
  obtain ⟨-, s', hs, hstat⟩ := lookAt_ok hn
  obtain rfl : s = s' := by simpa using hs
  have hat := h.scratch.nodeAt true
  unfold stat at hstat
  cases c with
  | none =>
    simp only at hat
    rw [hat] at hstat
    simp [Except.map] at hstat
  | some d =>
    obtain ⟨m, t, hat⟩ := hat
    rw [hat] at hstat
    simp only [Except.map, Except.ok.injEq] at hstat
    subst hstat
    exact ⟨d, rfl, rfl⟩

/-- Looking at the size after a lost connection: the offset is that of the end of the file. -/
theorem resumeSize_part (hs : fullName env.pathMax w₀.curDir spf.spfName = some s)
    (hplain : spf.spfType = .plainfile) (h : Stopped env w₀ s p content size erased w) :
    wp (resumeSize env spf s size erased) w (fun r => Ready env w₀ s p content r.1 r.2)
      (fun _ _ => True) := by
  obtain ⟨c, h⟩ := h
  unfold resumeSize
  rw [wp_ite]
  refine ⟨fun herased => ⟨c, h, fun hsize => absurd (h.anew herased) hsize⟩, fun herased => ?_⟩
  rw [wp_bind, wp_look]
  have hticked : During env w₀ s p c w.ticked := (During.stable ..).ticked w h.during
  generalize hr : lookAt env .stat (some s) (stat env.cwd) w = r
  rw [wp_ite]
  constructor
  · intro hzero
    rw [wp_bind]
    have hrm := spfRm_during hticked hs (by rw [hplain]; simp)
    have hun : wp (spfRm env spf) w.ticked (fun _ => Unfetched w₀) fun _ => Unfetched w₀ :=
      spfRm_unfetched hplain _ (h.unfetched.trans (Adds.of rfl))
    refine wp_mono (wp_and hrm hun) ?_ fun _ _ _ => trivial
    rintro _ w' ⟨⟨c', hd, hc', -⟩, hun⟩
    refine ⟨c', ⟨hd, hun, fun d hd' => ?_, fun _ => hzero⟩, fun hne => absurd hzero hne⟩
    rcases hc' with rfl | rfl
    · exact h.part d hd'
    · cases hd'
  · intro hne
    refine ⟨c, ⟨hticked, h.unfetched.trans (Adds.of rfl), h.part, fun h' => absurd h' herased⟩, ?_⟩
    intro _
    cases r with
    | error e => exact absurd rfl hne
    | ok n => exact stat_during h.during hr

/-- What is appended at the offset goes on with the content. -/
theorem prefix_grows {d data : Str} (hd : d <+: content) (hdata : data <+: content.drop d.length) :
    d ++ data <+: content := by
  have h := (List.prefix_append_right_inj d).mpr hdata
  rwa [List.prefix_iff_eq_append.mp hd] at h

theorem Ready.base (h : Part env w₀ s p content size erased c w)
    (hsize : size ≠ 0 → ∃ d, c = some d ∧ d.length = size) :
    (if size = 0 then [] else c.getD []) <+: content ∧
      (if size = 0 then [] else c.getD [] : Str).length = size := by
  by_cases hzero : size = 0
  · rw [if_pos hzero]
    exact ⟨List.nil_prefix, hzero.symm⟩
  · rw [if_neg hzero]
    obtain ⟨d, rfl, hlen⟩ := hsize hzero
    exact ⟨h.part d rfl, hlen⟩

/-- One try. -/
theorem ftpGet_part {remoteFile : Str} (hw : WritesFiles env)
    (hserver : Serves env.ftp remoteFile content)
    (h : Ready env w₀ s p content size erased w) :
    wp (ftpGet env s remoteFile size) w (fun b w' =>
      (b = true → During env w₀ s p (some content) w') ∧
      (b = false → w'.ftpResp ≠ JFTP_WRITEERR ∧ Stopped env w₀ s p content size erased w'))
      (fun _ _ => False) := by
  obtain ⟨c, h, hsize⟩ := h
  obtain ⟨hbase, hlen⟩ := Ready.base h hsize
  refine wp_mono (ftpGet_during h.during) ?_ fun _ _ h => h
  rintro _ w' ⟨t, rfl, hresp, -, htrace, hout⟩
  have hun : t.ok = false → Unfetched w₀ w' := fun hfail =>
    h.unfetched.trans (Adds.one htrace (by rw [hfail]; rfl))
  have hstopped : ∀ {d : Str}, t.ok = false → During env w₀ s p (some d) w' → d <+: content →
      Stopped env w₀ s p content size erased w' := fun hfail hd hpart =>
    ⟨_, hd, hun hfail, fun d' hd' => Option.some.inj hd' ▸ hpart, h.anew⟩
  rw [hresp]
  rcases hout with ⟨-, -, ⟨k, hk⟩, -⟩ | ⟨rfl, -, -, hd⟩ | ⟨written, hget, hwritten, hd⟩
  · exact absurd (hw.opens k) hk
  · exact ⟨by simp, fun hfail => ⟨by decide, hstopped hfail hd hbase⟩⟩
  · obtain rfl := hwritten.eq hw.writes
    have ht : t = (env.ftp.ftpGet w.ftp remoteFile size).1 := by rw [hget]
    constructor
    · intro hok
      have hwhole := hserver.whole w.ftp size (ht ▸ hok)
      rw [← ht] at hwhole
      rw [hwhole] at hd
      have hall := List.prefix_iff_eq_append.mp hbase
      rw [hlen] at hall
      rwa [hall] at hd
    · intro hfail
      refine ⟨ht ▸ hserver.written w.ftp size, hstopped hfail hd (prefix_grows hbase ?_)⟩
      rw [hlen, ht]
      exact hserver.part w.ftp size

/-! ## The end of a download -/

theorem Renamed.placed {o : Str} (ho : fullName env.pathMax w₀.curDir spf.spfName = some o)
    (h : Renamed env w₀ s p o content w) : Placed env w₀ spf content w := by
  obtain ⟨fs, hscratch, hren⟩ := h.moved
  obtain ⟨rfl, -⟩ := fullName_some ho
  obtain ⟨d, m, u, q, hd, hq, -, -, hget⟩ := hscratch.rename hren
  refine ⟨fs, s, q, m, u, hren, hq, ?_⟩
  rw [hget, if_pos rfl, Option.some.inj hd]

/-- The mode, the time and the name of a file that is there. -/
theorem finishFile_fetched {suffix : TempSuffix}
    (hs : fullName env.pathMax w₀.curDir (tempName spf.spfName suffix) = some s)
    (h : During env w₀ s p (some content) w) :
    wp (finishFile env (spf.temp suffix)) w (fun _ => Fetched env w₀ spf content)
      fun _ _ => True := by
  have hchmod : Keeps (During env w₀ s p (some content)) (spfChmod env (spf.temp suffix) 0) :=
    spfChmod_keeps fun w hw => act_during hs (fun n m hm => by rw [← Except.ok.inj hm]) hw
  have htime : Keeps (During env w₀ s p (some content)) (spfNewTime env (spf.temp suffix)) :=
    spfNewTime_keeps fun w hw => act_during hs (fun n m hm => by rw [← Except.ok.inj hm]) hw
  refine wp_seq (wp_mono (hchmod w h) (fun _ _ h => h) fun _ _ _ => trivial) fun _ w₁ h₁ => ?_
  refine wp_seq (wp_mono (htime w₁ h₁) (fun _ _ h => h) fun _ _ _ => trivial) fun _ w₂ h₂ => ?_
  refine wp_mono (spfRestoreName_during (E := fun _ _ => False) h₂ hs rfl) ?_ fun _ _ h => h.elim
  rintro - w₃ (h₃ | ⟨o, d, ho, hd, hren⟩)
  · exact Or.inr ⟨s, p, h₃⟩
  · obtain rfl := Option.some.inj hd
    exact Or.inl (hren.placed ho)

/-- What a download leaves. -/
def Downloads (env : Env F) (w₀ : World F) (spf : SpFile) (content : Str) (w : World F) : Prop :=
  Unfetched w₀ w ∨ Fetched env w₀ spf content w

/-- The tries of a download. -/
theorem tries_part {remoteFile : Str} {suffix : TempSuffix}
    (hplain : spf.spfType = .plainfile)
    (hw : WritesFiles env) (hserver : Serves env.ftp remoteFile content)
    (hs : fullName env.pathMax w₀.curDir (tempName spf.spfName suffix) = some s) :
    Tries env (fun _ => True) (fun _ => True) (spf.temp suffix) remoteFile s
      (Ready env w₀ s p content) (Stopped env w₀ s p content) (Ready env w₀ s p content)
      (During env w₀ s p (some content)) (fun _ => False) (Downloads env w₀ spf content) where
  exits _ _ _ _ := trivial
  lost _ _ _ _ := trivial
  ends _ _ := trivial
  again _ _ _ h := h
  refused _ _ _ := fun ⟨c, h, _⟩ => ⟨c, h⟩
  retry _ _ w n := fun ⟨c, h⟩ => ⟨c, h.conn w.ftp w.ftpResp n⟩
  resume _ _ := Upholds.of_wp (grows_of_loose fun hI => hI.resumeSize _ _ _ _) fun _ h =>
    resumeSize_part hs hplain h
  login _ _ := Upholds.of_wp (grows_of_loose fun hI => ftpRelogin_keeps hI.toStable)
    fun w ⟨c, h, hsize⟩ => ⟨c, h.conn _ _ w.ftpRetries, hsize⟩
  giveUp _ _ := Upholds.of_wp (grows_of_loose fun hI => hI.giveUp _) fun w ⟨_, h⟩ =>
    have hplain : (spf.temp suffix).spfType = .plainfile := hplain
    wp_mono (giveUp_unfetched hplain w h.unfetched) (fun _ _ h => Or.inl h) fun _ _ _ => trivial
  get _ _ := Upholds.of_wp (grows_of_loose fun hI => hI.ftpGet _ _ _) fun _ h =>
    wp_mono (ftpGet_part hw hserver h) (fun _ _ h => ⟨h.1, fun hb _ => (h.2 hb).2,
      fun hb hfull => absurd hfull (h.2 hb).1⟩) fun _ _ _ => trivial
  finish := Upholds.of_wp (grows_of_loose fun hI => hI.finishFile _) fun _ h =>
    wp_mono (finishFile_fetched hs h) (fun _ _ h => Or.inr h) fun _ _ _ => trivial
  cut _ _ := Upholds.absurd (grows_of_loose fun hI => hI.act) fun _ h => h.2
  remove _ _ := Upholds.absurd (grows_of_loose fun hI => hI.act) fun _ h => h.2

/-- A server that sends the first byte of the file `hi`, and then the rest of it. -/
def stops : FtpOps Unit where
  ftpGet _ _ n :=
    if n = 0 then (⟨['h'], false, JFTP_BROKEN⟩, ()) else (⟨['h', 'i'].drop n, true, 226⟩, ())
  ftpDir _ _ := ((none, JFTP_ERR), ())
  ftpRelogin _ := ((true, 230), ())

theorem stops_serves (remoteFile : Str) : Serves stops remoteFile ['h', 'i'] where
  part _ n := by
    cases n with
    | zero => exact ⟨['i'], rfl⟩
    | succ n => exact List.prefix_refl _
  whole _ n h := by
    cases n with
    | zero => cases h
    | succ n => rfl
  written _ n := by
    cases n <;> simp [stops, JFTP_BROKEN, JFTP_WRITEERR]

theorem calmEnv_writes (ftp : FtpOps F) : WritesFiles (calmEnv ftp) :=
  ⟨fun _ => rfl, fun _ _ => rfl, fun _ => rfl⟩

section

-- a run on fixed inputs is not to be unfolded
attribute [local irreducible] wp

end

end Spegla
