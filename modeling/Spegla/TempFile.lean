import Spegla.Lib.ScratchFile
import Spegla.Steps

/-!
# The temporary file of a download

`get_ftp_file` works on a file under a temporary name, which `mkstemp` has made
where nothing was. What the operations do to it, and that they do nothing else.

- `During`: the tree is that of the beginning but for the temporary file.
- `spfUseTmpName_spec`: how it comes to be; `ftpGet_during`, `spfRm_during`: what is done to it;
  `spfRestoreName_during`: how it ends.
-/

namespace Spegla

open CString PosixFs ExitState

variable {F : Type} {env : Env F}

/-- Since the state `w₀` only the file that `s` names, at `p`, has been touched; its
content is `c`, if it is there. -/
structure During (env : Env F) (w₀ : World F) (s : Str) (p : Path) (c : Option Str)
    (w : World F) : Prop where
  scratch : Scratch w₀.fs env.cwd s p c w.fs
  curDir : w.curDir = w₀.curDir
  hist : ∀ fs ∈ w.hist, fs ∈ w₀.hist ∨ ∃ c, Scratch w₀.fs env.cwd s p c fs

variable {w₀ w : World F} {s : Str} {p : Path} {c : Option Str}

theorem During.stable (env : Env F) (w₀ : World F) (s : Str) (p : Path) (c : Option Str) :
    Stable (During env w₀ s p c) where
  ticked _ h := ⟨h.scratch, h.curDir, h.hist⟩
  record _ _ _ h := ⟨h.scratch, h.curDir, h.hist⟩
  count _ _ h := ⟨h.scratch, h.curDir, h.hist⟩
  conn _ _ _ _ h := ⟨h.scratch, h.curDir, h.hist⟩

/-- A call has changed the file. -/
theorem During.wrote (h : During env w₀ s p c w) {c' : Option Str} {fs : Fs}
    (hs : Scratch w₀.fs env.cwd s p c' fs) : During env w₀ s p c' (w.wrote fs) where
  scratch := hs
  curDir := h.curDir
  hist fs' hfs' := by
    rcases List.mem_cons.mp hfs' with rfl | hfs'
    · exact Or.inr ⟨c', hs⟩
    · exact h.hist fs' hfs'

/-! ## Making it -/

/-- The temporary name of a file. -/
def tempName (name : Str) (suffix : TempSuffix) : Str :=
  ['.', 'i', 'n', '.'] ++ name ++ ['.'] ++ suffix.str

theorem tempName_noslash {name : Str} (h : '/' ∉ name) (suffix : TempSuffix) :
    '/' ∉ tempName name suffix := by
  simp [tempName, h, suffix.noslash]

/-- A template that fits is not cut off, and `mkstemp` makes the temporary name of it. -/
theorem tmpName_template {curDir name template : Str} (suffix : TempSuffix) (hcur : curDir ≠ [])
    (h : fullName env.pathMax curDir (tmpTemplate env name) = some template) :
    tmpName suffix template = curDir ++ tempName name suffix ∧
      (tempName name suffix).length + curDir.length ≤ env.pathMax - 2 := by
  obtain ⟨rfl, hlen, -⟩ := fullName_some h
  have hfit : tmpTemplate env name = ['.', 'i', 'n', '.'] ++ name ++ ['.', 'X', 'X', 'X'] := by
    unfold tmpTemplate at hlen ⊢
    refine List.take_of_length_le ?_
    rw [List.length_take] at hlen
    have := List.length_pos_iff.mpr hcur
    omega
  rw [hfit] at hlen ⊢
  have hsplit : curDir ++ (['.', 'i', 'n', '.'] ++ name ++ ['.', 'X', 'X', 'X']) =
      (curDir ++ (['.', 'i', 'n', '.'] ++ name ++ ['.'])) ++ ['X', 'X', 'X'] := by simp
  constructor
  · unfold tmpName tempName
    rw [hsplit, List.length_append, show ['X', 'X', 'X'].length = 3 from rfl, Nat.add_sub_cancel,
      List.take_left]
    simp
  · unfold tempName
    simp only [List.length_append, List.length_cons, List.length_nil, suffix.length] at hlen ⊢
    omega

/-- The entry under its temporary name. -/
def SpFile.temp (spf : SpFile) (suffix : TempSuffix) : SpFile :=
  { spf with spfName := tempName spf.spfName suffix, spfOrigName := some spf.spfName }

/-- `spf_use_tmp_name` fails and changes nothing, or makes an empty file. -/
theorem spfUseTmpName_spec {spf : SpFile} {E : Exit → World F → Prop}
    (hname : '/' ∉ spf.spfName) (hcur : w.curDir.getLast? = some '/') :
    wp (spfUseTmpName env spf) w (fun r w' =>
      (r = none ∧ (w' = w ∨ w' = w.ticked)) ∨
      ∃ suffix p, r = some (spf.temp suffix) ∧ w'.trace = w.trace ∧ w'.ftp = w.ftp ∧
        fullName env.pathMax w.curDir (tempName spf.spfName suffix) =
          some (w.curDir ++ tempName spf.spfName suffix) ∧
        During env w (w.curDir ++ tempName spf.spfName suffix) p (some []) w') E := by
  unfold spfUseTmpName
  rw [wp_bind, wp_get]
  cases htem : fullName env.pathMax w.curDir (tmpTemplate env spf.spfName) with
  | none => exact Or.inl ⟨rfl, Or.inl rfl⟩
  | some template =>
    have hne : w.curDir ≠ [] := fun h0 => by simp [h0] at hcur
    obtain ⟨hbuf, hlen⟩ := tmpName_template (env.temp w.tick) hne htem
    have hslash := tempName_noslash hname (env.temp w.tick)
    simp only
    rw [wp_bind, wp_act, hbuf]
    constructor
    · intro e _
      exact Or.inl ⟨rfl, Or.inr rfl⟩
    · intro fs hfs
      obtain ⟨-, s, hs, hcreate⟩ := lookAt_ok hfs
      obtain rfl : w.curDir ++ tempName spf.spfName (env.temp w.tick) = s := by simpa using hs
      obtain ⟨p, hscratch⟩ := Scratch.create hcreate
      have hlast : afterLast '/' (w.curDir ++ tempName spf.spfName (env.temp w.tick)) =
          some (tempName spf.spfName (env.temp w.tick)) := by
        obtain ⟨q, hq⟩ := List.getLast?_eq_some_iff.mp hcur
        rw [hq, List.append_assoc, List.singleton_append]
        exact afterLast_append hslash q
      rw [hlast]
      refine Or.inr ⟨env.temp w.tick, p, rfl, rfl, rfl, fullName_of_fits hslash hlen, hscratch, rfl,
        fun fs' hfs' => ?_⟩
      rcases List.mem_cons.mp hfs' with rfl | hfs'
      · exact Or.inr ⟨_, hscratch⟩
      · exact Or.inl hfs'

/-! ## Working on it -/

/-- It is no directory. -/
theorem isDir_during {E : Exit → World F → Prop} (h : During env w₀ s p c w) :
    wp (isDir env (some s)) w (fun b w' => b = false ∧ w' = w.ticked) E := by
  unfold isDir
  rw [wp_bind, wp_look]
  have hn := h.scratch.nodeAt false
  cases hl : lookAt env .lstat (some s) (lstat env.cwd) w with
  | error e => exact ⟨rfl, rfl⟩
  | ok n =>
    obtain ⟨-, s', hs, hstat⟩ := lookAt_ok hl
    obtain rfl : s = s' := by simpa using hs
    unfold lstat at hstat
    cases c with
    | none =>
      simp only at hn
      rw [hn] at hstat
      simp [Except.map] at hstat
    | some d =>
      obtain ⟨m, t, hn⟩ := hn
      rw [hn] at hstat
      simp only [Except.map, Except.ok.injEq] at hstat
      subst hstat
      exact ⟨by simp, rfl⟩

/-- `rm_f` takes it away. It fails when it is not there, or for an outside reason. -/
theorem rmF_during (h : During env w₀ s p c w) :
    wp (rmF env (some s)) w
      (fun ok w' => (ok = true → During env w₀ s p none w') ∧ (ok = false →
        During env w₀ s p c w' ∧ ((∀ t, env.fault t .unlink = none) → c = none)))
      (fun _ w' => During env w₀ s p c w') := by
  have hst := During.stable env w₀ s p c
  unfold rmF
  rw [wp_bind, wp_get, wp_ite]
  refine ⟨fun _ => h, fun _ => ?_⟩
  refine wp_seq (isDir_during h) ?_
  rintro _ _ ⟨rfl, rfl⟩
  unfold removeOne
  rw [if_neg (by simp), wp_bind, wp_act]
  constructor
  · intro e he
    refine ⟨fun hok => by simp at hok, fun _ => ⟨hst.ticked _ (hst.ticked _ h), fun hfault => ?_⟩⟩
    cases c with
    | none => rfl
    | some d =>
      obtain ⟨fs, hfs⟩ := h.scratch.unlink_present
      exact absurd (he.symm.trans (lookAt_of_ok (hfault _) hfs)) (by simp)
  · intro fs hfs
    obtain ⟨-, s', hs, hun⟩ := lookAt_ok hfs
    obtain rfl : s = s' := by simpa using hs
    refine ⟨fun _ => ?_, fun hok => by simp at hok⟩
    exact (During.stable env w₀ s p none).count _ _
      ((hst.ticked _ h).wrote (h.scratch.unlink hun))

/-- `spf_rm` of the temporary file: it is gone, or it is not to be deleted. -/
theorem spfRm_during {spf : SpFile} (h : During env w₀ s p c w)
    (hs : fullName env.pathMax w₀.curDir spf.spfName = some s) (htype : spf.spfType ≠ .directory) :
    wp (spfRm env spf) w
      (fun _ w' => ∃ c', During env w₀ s p c' w' ∧ (c' = c ∨ c' = none) ∧
        (env.spDoDelete = true → (∀ t, env.fault t .unlink = none) → c' = none) ∧
        (env.spDoDelete = false → c' = c))
      (fun _ w' => During env w₀ s p c w') := by
  have hr := (During.stable env w₀ s p c).record w (.spfRm spf) rfl h
  unfold spfRm
  rw [wp_bind, wp_record, wp_ite]
  constructor
  · intro hdo
    rw [wp_bind, wp_get, if_neg htype]
    have hfull : spfFullName env spf (w.logged (.spfRm spf)) = some s := by
      unfold spfFullName
      rw [hr.curDir]
      exact hs
    rw [hfull]
    refine wp_mono (rmF_during hr) (fun ok w' hw' => ?_) fun _ _ h => h
    cases ok with
    | true => exact ⟨none, hw'.1 rfl, Or.inr rfl, fun _ _ => rfl, fun hf => by simp [hdo] at hf⟩
    | false => exact ⟨c, (hw'.2 rfl).1, Or.inl rfl, fun _ => (hw'.2 rfl).2, fun _ => rfl⟩
  · intro hdo
    exact ⟨c, hr, Or.inl rfl, fun hd => absurd hd hdo, fun _ => rfl⟩

/-! ## Downloading into it -/

/-- What of the data that came has been written: all that the file system takes, or
nothing, where the call fails. -/
def Written (env : Env F) (data written : Str) : Prop :=
  ∃ k, written = env.fwrite k data ∨ written = [] ∧ env.fault k .fwrite ≠ none

/-- Writes reach the file, and whole. -/
def WritesAll (env : Env F) : Prop :=
  (∀ k data, env.fwrite k data = data) ∧ ∀ k, env.fault k .fwrite = none

theorem Written.eq {data written : Str} (h : Written env data written) (hw : WritesAll env) :
    written = data := by
  obtain ⟨k, rfl | ⟨-, hf⟩⟩ := h
  · exact hw.1 k data
  · exact absurd (hw.2 k) hf

/-- Neither has a retry been used nor anything been recorded. -/
def Silent (w w' : World F) : Prop := w'.ftpRetries = w.ftpRetries ∧ w'.trace = w.trace

/-- The transfer appends what has arrived. -/
theorem ftpTransfer_during {d remoteFile : Str} {seekto : Nat} {E : Exit → World F → Prop}
    (h : During env w₀ s p (some d) w) :
    wp (ftpTransfer env s remoteFile seekto) w (fun t w' =>
      ∃ written, env.ftp.ftpGet w.ftp remoteFile seekto = (t, w'.ftp) ∧
        Silent w w' ∧ Written env t.data written ∧
        During env w₀ s p (some (d ++ written)) w') E := by
  have hst := During.stable env w₀ s p (some d)
  unfold ftpTransfer
  rw [wp_bind, wp_modifyGet, wp_bind, wp_get, wp_bind, wp_act]
  have hconn := hst.conn w (env.ftp.ftpGet w.ftp remoteFile seekto).2 w.ftpResp w.ftpRetries h
  constructor
  · intro e he
    refine ⟨[], rfl, ⟨rfl, rfl⟩, ⟨w.tick, Or.inr ⟨rfl, fun hf => ?_⟩⟩, ?_⟩
    · obtain ⟨fs, hfs⟩ := Scratch.append_total (env.fwrite w.tick
        (env.ftp.ftpGet w.ftp remoteFile seekto).1.data) (env.clock w.tick) hconn.scratch
      exact absurd (he.symm.trans (lookAt_of_ok hf hfs)) (by simp)
    · rw [List.append_nil]
      exact hst.ticked _ hconn
  · intro fs hfs
    obtain ⟨-, s', hs, happ⟩ := lookAt_ok hfs
    obtain rfl : s = s' := by simpa using hs
    exact ⟨_, rfl, ⟨rfl, rfl⟩, ⟨w.tick, Or.inl rfl⟩, hconn.wrote (hconn.scratch.append happ)⟩

/-- How `ftp_get` can go: the file cannot be opened, or cannot be positioned, or
there is a transfer. -/
def GetOutcome (env : Env F) (w₀ : World F) (s : Str) (p : Path) (c : Option Str) (remoteFile : Str)
    (seekto : Nat) (w : World F) (t : Transfer) (w' : World F) : Prop :=
  let base := if seekto = 0 then [] else c.getD []
  (t = ⟨[], false, JFTP_WRITEERR⟩ ∧ w'.ftp = w.ftp ∧ (∃ k, env.fault k .fopen ≠ none) ∧
      During env w₀ s p c w') ∨
    (t = ⟨[], false, JFTP_ERRNO⟩ ∧ w'.ftp = w.ftp ∧ (∃ k, env.fault k .fseek ≠ none) ∧
      During env w₀ s p (some base) w') ∨
    ∃ written, env.ftp.ftpGet w.ftp remoteFile seekto = (t, w'.ftp) ∧
      Written env t.data written ∧ During env w₀ s p (some (base ++ written)) w'

variable {remoteFile : Str} {seekto : Nat}

theorem ftpSeek_during {E : Exit → World F → Prop} {w₁ : World F}
    (h : During env w₀ s p (some (if seekto = 0 then [] else c.getD [])) w) (hftp : w.ftp = w₁.ftp)
    (hret : Silent w₁ w) :
    wp (ftpSeek env s remoteFile seekto) w (fun t w' => Silent w₁ w' ∧
      GetOutcome env w₀ s p c remoteFile seekto w₁ t w') E := by
  have hst := During.stable env w₀ s p (some (if seekto = 0 then [] else c.getD []))
  have htransfer : ∀ w', During env w₀ s p (some (if seekto = 0 then [] else c.getD [])) w' →
      w'.ftp = w₁.ftp → Silent w₁ w' →
      wp (ftpTransfer env s remoteFile seekto) w' (fun t w' => Silent w₁ w' ∧
        GetOutcome env w₀ s p c remoteFile seekto w₁ t w') E := fun w' h' hftp' hret' => by
    refine wp_mono (ftpTransfer_during h') ?_ fun _ _ h => h
    rintro t w'' ⟨written, heq, hretries, hwritten, hd⟩
    rw [hftp'] at heq
    exact ⟨⟨hretries.1.trans hret'.1, hretries.2.trans hret'.2⟩,
      Or.inr (Or.inr ⟨written, heq, hwritten, hd⟩)⟩
  unfold ftpSeek
  rw [wp_ite]
  refine ⟨fun _ => htransfer w h hftp hret, fun hseek => ?_⟩
  rw [wp_bind, wp_look]
  cases hl : lookAt env .fseek (some s) (fun _ _ => .ok ()) w with
  | error e =>
    refine ⟨hret, Or.inr (Or.inl ⟨rfl, hftp, ⟨w.tick, fun hf => ?_⟩, hst.ticked w h⟩)⟩
    exact absurd (hl.symm.trans (lookAt_of_ok hf rfl)) (by simp)
  | ok u => exact htransfer w.ticked (hst.ticked w h) hftp hret

theorem ftpOpen_during {E : Exit → World F → Prop} (h : During env w₀ s p c w) :
    wp (ftpOpen env s remoteFile seekto) w (fun t w' => Silent w w' ∧
      GetOutcome env w₀ s p c remoteFile seekto w t w') E := by
  unfold ftpOpen
  rw [wp_bind, wp_act]
  constructor
  · intro e he
    refine ⟨⟨rfl, rfl⟩,
      Or.inl ⟨rfl, rfl, ⟨w.tick, fun hf => ?_⟩, (During.stable env w₀ s p c).ticked w h⟩⟩
    obtain ⟨fs, hfs⟩ := h.scratch.fopen_total (seekto = 0) env.umask (env.clock w.tick)
    exact absurd (he.symm.trans (lookAt_of_ok hf hfs)) (by simp)
  · intro fs hfs
    obtain ⟨-, s', hs, hopen⟩ := lookAt_ok hfs
    obtain rfl : s = s' := by simpa using hs
    have hopened := h.wrote (h.scratch.fopen hopen)
    simp only [decide_eq_true_eq] at hopened
    exact ftpSeek_during hopened rfl ⟨rfl, rfl⟩

/-- What happens to the file does not depend on the record. -/
theorem GetOutcome.logged {t : Transfer} {w' : World F} {e : Event} (resp : Int)
    (he : e.ofLoop = false) (h : GetOutcome env w₀ s p c remoteFile seekto w t w') :
    GetOutcome env w₀ s p c remoteFile seekto w t ({ w' with ftpResp := resp }.logged e) := by
  have hd : ∀ {c}, During env w₀ s p c w' →
      During env w₀ s p c ({ w' with ftpResp := resp }.logged e) := fun hd =>
    (During.stable ..).record _ e he ((During.stable ..).conn _ _ _ _ hd)
  rcases h with ⟨h₁, h₂, h₃, h₄⟩ | ⟨h₁, h₂, h₃, h₄⟩ | ⟨written, h₁, h₂, h₃⟩
  · exact Or.inl ⟨h₁, h₂, h₃, hd h₄⟩
  · exact Or.inr (Or.inl ⟨h₁, h₂, h₃, hd h₄⟩)
  · exact Or.inr (Or.inr ⟨written, h₁, h₂, hd h₃⟩)

theorem GetOutcome.during {t : Transfer} {w' : World F}
    (h : GetOutcome env w₀ s p c remoteFile seekto w t w') : ∃ c, During env w₀ s p c w' := by
  rcases h with ⟨-, -, -, hd⟩ | ⟨-, -, -, hd⟩ | ⟨_, -, -, hd⟩ <;> exact ⟨_, hd⟩

/-- `ftp_get` touches the temporary file alone, and records how it went. -/
theorem ftpGet_during {E : Exit → World F → Prop} (h : During env w₀ s p c w) :
    wp (ftpGet env s remoteFile seekto) w (fun ok w' => ∃ t, ok = t.ok ∧ w'.ftpResp = t.resp ∧
      w'.ftpRetries = w.ftpRetries ∧
      w'.trace = ⟨.ftpGet remoteFile seekto t.data t.ok t.resp, w₀.curDir, w'.fs⟩ :: w.trace ∧
      GetOutcome env w₀ s p c remoteFile seekto w t w') E := by
  unfold ftpGet
  refine wp_seq (ftpOpen_during h) ?_
  rintro t w' ⟨⟨hretries, htrace⟩, hout⟩
  rw [wp_bind, wp_modify, wp_bind, wp_record, wp_pure]
  refine ⟨t, rfl, rfl, hretries, ?_, hout.logged t.resp rfl⟩
  obtain ⟨c', hd⟩ := hout.during
  show ⟨_, w'.curDir, _⟩ :: w'.trace = _
  rw [htrace, hd.curDir]
  rfl

/-! ## Ending it -/

/-- A call that changes the temporary file without its content. -/
theorem act_during {spf : SpFile} {call : Sys} {f : Node → Except Errno Node}
    (hs : fullName env.pathMax w₀.curDir spf.spfName = some s)
    (hk : ∀ n m, f n = .ok m → m.kind = n.kind) (h : During env w₀ s p c w) :
    EndsIn (During env w₀ s p c)
      (act env call (spfFullName env spf w) fun _ => PosixFs.change env.cwd true f) w := by
  refine EndsIn.act ((During.stable ..).ticked w h) fun s' fs hs' hfs => ?_
  have hfull : spfFullName env spf w = some s := by
    unfold spfFullName
    rw [h.curDir]
    exact hs
  obtain rfl : s = s' := Option.some.inj (hfull.symm.trans hs')
  exact h.wrote (h.scratch.change hk hfs)

/-- The temporary file, with the content `d`, has got its original name: it has
taken the place that the string `o` named. -/
structure Renamed (env : Env F) (w₀ : World F) (s : Str) (p : Path) (o d : Str) (w : World F) :
    Prop where
  moved : ∃ fs, Scratch w₀.fs env.cwd s p (some d) fs ∧ rename env.cwd s o fs = .ok w.fs
  curDir : w.curDir = w₀.curDir
  hist : ∀ fs ∈ w.hist, fs = w.fs ∨ fs ∈ w₀.hist ∨ ∃ c, Scratch w₀.fs env.cwd s p c fs

/-- `spf_restore_name` leaves the temporary file or renames it. -/
theorem spfRestoreName_during {spf : SpFile} {orig : Str} {E : Exit → World F → Prop}
    (h : During env w₀ s p c w) (hs : fullName env.pathMax w₀.curDir spf.spfName = some s)
    (horig : spf.spfOrigName = some orig) :
    wp (spfRestoreName env spf) w (fun _ w' => During env w₀ s p c w' ∨
      ∃ o d, fullName env.pathMax w₀.curDir orig = some o ∧ c = some d ∧
        Renamed env w₀ s p o d w') E := by
  have hst := During.stable env w₀ s p c
  have hrename : ∀ w', During env w₀ s p c w' → wp (do
      let _ ← act env .rename (some s) fun _ => renameTo env (fullName env.pathMax w₀.curDir orig)
      return (⟨⟩ : PUnit)) w' (fun _ w' => During env w₀ s p c w' ∨
      ∃ o d, fullName env.pathMax w₀.curDir orig = some o ∧ c = some d ∧
        Renamed env w₀ s p o d w') E := fun w' h' => by
    rw [wp_bind, wp_act]
    constructor
    · intro e _
      exact Or.inl (hst.ticked _ h')
    · intro fs hfs
      obtain ⟨-, s', hs', hren⟩ := lookAt_ok hfs
      obtain rfl : s = s' := by simpa using hs'
      cases ho : fullName env.pathMax w₀.curDir orig with
      | none => rw [ho] at hren; simp [renameTo] at hren
      | some o =>
        rw [ho] at hren
        obtain ⟨d, m, u, q, rfl, -⟩ := h'.scratch.rename hren
        refine Or.inr ⟨o, d, rfl, rfl, ⟨_, h'.scratch, hren⟩, h'.curDir, ?_⟩
        intro fs' hfs'
        rcases List.mem_cons.mp hfs' with rfl | hfs'
        · exact Or.inl rfl
        · exact Or.inr (h'.hist fs' hfs')
  unfold spfRestoreName
  rw [horig]
  simp only
  rw [wp_bind, wp_get, wp_bind, wp_look]
  have hfull : spfFullName env spf w = some s := by
    unfold spfFullName
    rw [h.curDir]
    exact hs
  rw [hfull, h.curDir]
  have h' := hst.ticked w h
  rcases lookAt env .lstat (some s) (lstat env.cwd) w with (- | -) | -
  any_goals exact hrename _ h'
  exact Or.inl h'

end Spegla
