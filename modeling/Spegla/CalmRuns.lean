import Spegla.BesideRuns
import Spegla.Lib.PosixTotal

/-!
# Operations where nothing fails

- `NothingFails`: no call fails for an outside reason.
- `NowIs`: one node has changed, and what it is now, such as the temporary file of a download.
- `getFtpFile_calm`: a download whose transfer succeeds puts the file there, if there is room for
  the name of the temporary file and no directory in the way.
-/

namespace Spegla

open CString PosixFs ExitState

variable {F : Type} {env : Env F}

/-! ## Calls that do not fail -/

/-- No call fails for an outside reason, and writes reach the file whole. -/
structure NothingFails (env : Env F) : Prop where
  fault : ∀ k call, env.fault k call = none
  fwrite : ∀ k data, env.fwrite k data = data

variable {w₀ w : World F} {ds : List Str} {c : Str} {n : Node}
variable {E : Exit → World F → Prop}

/-- A call that changes the tree and does not fail. -/
theorem wp_act_ok {call : Sys} {s : Str} {g : Int → Str → Fs → Except Errno Fs}
    {Q : Except Errno PUnit → World F → Prop} (hcalm : NothingFails env) {fs : Fs}
    (hg : g (env.clock w.tick) s w.fs = .ok fs) (hQ : Q (.ok ⟨⟩) (w.wrote fs)) :
    wp (act env call (some s) g) w Q E := by
  have hok : lookAt env call (some s) (g (env.clock w.tick)) w = .ok fs :=
    lookAt_of_ok (hcalm.fault w.tick call) hg
  refine wp_act.mpr ⟨fun e he => ?_, fun fs' hfs' => ?_⟩
  · rw [hok] at he
    simp at he
  · rw [hok] at hfs'
    rw [← Except.ok.inj hfs']
    exact hQ

/-- A name in a directory has its place. -/
theorem StandsIn.hasPlace (h : StandsIn env ds w) (hc : IsName c) :
    w.fs.HasPlace (env.cwd ++ ds ++ [c]) := Fs.hasPlace_concat.mpr ⟨h.dir, hc⟩

/-! ## One node -/

/-- Since the state `w₀` the node under the name `c` in the directory `ds` has become `n`, and
nothing else has changed. -/
structure NowIs (env : Env F) (w₀ : World F) (ds : List Str) (c : Str) (n : Node) (w : World F) :
    Prop where
  curDir : w.curDir = w₀.curDir
  off : ∀ q, q ≠ env.cwd ++ ds ++ [c] → w.fs.get q = w₀.fs.get q
  node : w.fs.get (env.cwd ++ ds ++ [c]) = some n

theorem NowIs.stands (h : NowIs env w₀ ds c n w) (h₀ : StandsIn env ds w₀) :
    StandsIn env ds w := by
  refine ⟨h.curDir.trans h₀.curDir, h₀.names, ?_⟩
  obtain ⟨k, hk, hd⟩ := Fs.isDir_iff.mp h₀.dir
  exact Fs.isDir_iff.mpr ⟨k, (h.off _ (self_ne ds c).symm).trans hk, hd⟩

/-- Its name leads to it. -/
theorem NowIs.resolve (h : NowIs env w₀ ds c n w) (h₀ : StandsIn env ds w₀) (hc : IsName c)
    (hn : NoLink n) : resolve w.fs env.cwd true (dirStr ds ++ c) = .ok (env.cwd ++ ds ++ [c]) :=
  (h.stands h₀).resolve_follow hc fun k hk => by
    obtain rfl : n = k := Option.some.inj (h.node.symm.trans hk)
    exact hn

theorem NowIs.wrote {m : Node} {fs : Fs} (h : NowIs env w₀ ds c n w)
    (hget : ∀ q, fs.get q = if q = env.cwd ++ ds ++ [c] then some m else w.fs.get q) :
    NowIs env w₀ ds c m (w.wrote fs) where
  curDir := h.curDir
  off q hq := by
    show fs.get q = _
    rw [hget, if_neg hq]
    exact h.off q hq
  node := by
    show fs.get _ = _
    rw [hget, if_pos rfl]

/-- A call that changes the node alone. -/
theorem act_node {call : Sys} {f : Int → Node → Except Errno Node} {m : Node}
    (hcalm : NothingFails env) (h₀ : StandsIn env ds w₀) (hc : IsName c) (hn : NoLink n)
    (hf : f (env.clock w.tick) n = .ok m) (hd : n.kind = .dir → m.kind = .dir)
    (h : NowIs env w₀ ds c n w) :
    wp (act env call (some (dirStr ds ++ c)) fun now => change env.cwd true (f now)) w
      (fun r w' => r = .ok ⟨⟩ ∧ NowIs env w₀ ds c m w' ∧ w'.trace = w.trace) E := by
  obtain ⟨fs, hfs, hget⟩ := change_total (h.resolve h₀ hc hn) h.node hf hd
  exact wp_act_ok hcalm hfs ⟨rfl, h.wrote hget, rfl⟩

theorem NowIs.fullName (h : NowIs env w₀ ds c n w) (h₀ : StandsIn env ds w₀) (hc : IsName c)
    (hfits : c.length + (dirStr ds).length ≤ env.pathMax - 2) :
    fullName env.pathMax w.curDir c = some (dirStr ds ++ c) := by
  rw [h.curDir, h₀.curDir]
  exact fullName_of_fits hc.noslash hfits

/-- The node gets the mode of its entry. -/
theorem spfChmod_node {spf : SpFile} {mode : Mode} (hcalm : NothingFails env)
    (h₀ : StandsIn env ds w₀) (hname : IsName spf.spfName)
    (hfits : spf.spfName.length + (dirStr ds).length ≤ env.pathMax - 2) (hn : NoLink n)
    (h : NowIs env w₀ ds spf.spfName n w) :
    wp (spfChmod env spf mode) w (fun ok w' => ok = true ∧
      NowIs env w₀ ds spf.spfName { n with mode := spf.spfMode ||| mode } w' ∧
      w'.trace = w.trace) E := by
  have hfull : spfFullName env spf w = some (dirStr ds ++ spf.spfName) :=
    h.fullName h₀ hname hfits
  unfold spfChmod
  rw [wp_bind, wp_get, hfull, wp_bind]
  refine wp_mono (act_node (f := fun _ n => .ok { n with mode := spf.spfMode ||| mode }) hcalm h₀
    hname hn rfl (fun hd => hd) h) ?_ fun _ _ h => h
  rintro _ w' ⟨rfl, h', htrace⟩
  exact ⟨rfl, h', htrace⟩

/-- It gets the time of its entry. -/
theorem spfNewTime_node {spf : SpFile} (hcalm : NothingFails env)
    (h₀ : StandsIn env ds w₀) (hname : IsName spf.spfName)
    (hfits : spf.spfName.length + (dirStr ds).length ≤ env.pathMax - 2) (hn : NoLink n)
    (h : NowIs env w₀ ds spf.spfName n w) :
    wp (spfNewTime env spf) w (fun ok w' => ok = true ∧
      NowIs env w₀ ds spf.spfName { n with mtime := spf.spfTime } w' ∧ w'.trace = w.trace) E := by
  have hfull : spfFullName env spf w = some (dirStr ds ++ spf.spfName) :=
    h.fullName h₀ hname hfits
  unfold spfNewTime
  rw [wp_bind, wp_get, hfull, wp_bind]
  refine wp_mono (act_node (f := fun _ n => .ok { n with mtime := spf.spfTime }) hcalm h₀
    hname hn rfl (fun hd => hd) h) ?_ fun _ _ h => h
  rintro _ w' ⟨rfl, h', htrace⟩
  exact ⟨rfl, h', htrace⟩

/-! ## The temporary file -/

/-- The path of the temporary file for `name` fits into `pathMax` bytes. -/
def TempFits (pathMax : Nat) (ds : List Str) (name : Str) : Prop :=
  name.length + 8 + (dirStr ds).length ≤ pathMax - 2

instance (pathMax : Nat) (ds : List Str) (name : Str) : Decidable (TempFits pathMax ds name) := by
  unfold TempFits
  infer_instance

theorem tempName_length (name : Str) (suffix : TempSuffix) :
    (tempName name suffix).length = name.length + 8 := by
  simp only [tempName, List.length_append, List.length_cons, List.length_nil, suffix.length]
  omega

/-- The entry is used under a name of which nothing was there. -/
theorem spfUseTmpName_calm {spf : SpFile} (hcalm : NothingFails env) (h : StandsIn env ds w)
    (hname : IsName spf.spfName) (hfits : TempFits env.pathMax ds spf.spfName)
    (hfree : w.fs.get (env.cwd ++ ds ++ [tempName spf.spfName (env.temp w.tick)]) = none) :
    wp (spfUseTmpName env spf) w (fun r w' => r = some (spf.temp (env.temp w.tick)) ∧
      ∃ t, NowIs env w ds (tempName spf.spfName (env.temp w.tick)) ⟨.file [], 0o600#12, t⟩ w')
      E := by
  unfold TempFits at hfits
  have hcut : tmpTemplate env spf.spfName =
      ['.', 'i', 'n', '.'] ++ spf.spfName ++ ['.', 'X', 'X', 'X'] := by
    refine List.take_of_length_le ?_
    simp only [List.length_append, List.length_cons, List.length_nil]
    omega
  have htem : fullName env.pathMax w.curDir (tmpTemplate env spf.spfName) =
      some (dirStr ds ++ tmpTemplate env spf.spfName) := by
    rw [h.curDir]
    refine fullName_of_fits ?_ ?_
    · rw [hcut]
      simp [hname.noslash]
    · rw [hcut]
      simp only [List.length_append, List.length_cons, List.length_nil]
      omega
  have hbuf := (tmpName_template (env.temp w.tick) (by simp [dirStr]) (h.curDir ▸ htem)).1
  have hpath := isName_tempName hname (env.temp w.tick)
  obtain ⟨fs, hfs, hget⟩ := make_total (n := ⟨.file [], 0o600#12, env.clock w.tick⟩)
    (h.resolve hpath) hfree (h.hasPlace hpath)
  have hlast : afterLast '/' (dirStr ds ++ tempName spf.spfName (env.temp w.tick)) =
      some (tempName spf.spfName (env.temp w.tick)) := by
    obtain ⟨q, hq⟩ := List.getLast?_eq_some_iff.mp (dirStr_getLast ds)
    rw [hq, List.append_assoc, List.singleton_append]
    exact afterLast_append hpath.noslash q
  unfold spfUseTmpName
  rw [wp_bind, wp_get, htem]
  simp only
  rw [wp_bind, hbuf]
  refine wp_act_ok hcalm hfs ?_
  simp only [hlast]
  refine ⟨rfl, env.clock w.tick, rfl, fun q hq => ?_, ?_⟩
  · show fs.get q = _
    rw [hget, if_neg hq]
  · show fs.get _ = _
    rw [hget, if_pos rfl]

/-- A transfer that succeeds, into the temporary file. -/
theorem ftpGet_calm {remoteFile d data : Str} {m : Mode} {t resp : Int} (hcalm : NothingFails env)
    (h₀ : StandsIn env ds w₀) (hc : IsName c)
    (hserve : ∀ f : F, (env.ftp.ftpGet f remoteFile 0).1 = ⟨data, true, resp⟩)
    (h : NowIs env w₀ ds c ⟨.file d, m, t⟩ w) :
    wp (ftpGet env (dirStr ds ++ c) remoteFile 0) w
      (fun ok w' => ok = true ∧ ∃ t', NowIs env w₀ ds c ⟨.file data, m, t'⟩ w') E := by
  have hopen : wp (ftpOpen env (dirStr ds ++ c) remoteFile 0) w (fun t w' =>
      t = ⟨data, true, resp⟩ ∧ ∃ t', NowIs env w₀ ds c ⟨.file data, m, t'⟩ w') E := by
    obtain ⟨fs, hfs, hget⟩ := fopen_total env.umask (env.clock w.tick)
      (h.resolve h₀ hc (by simp [NoLink])) h.node
    unfold ftpOpen
    rw [wp_bind]
    refine wp_act_ok hcalm (by simpa using hfs) ?_
    have hopened := h.wrote hget
    unfold ftpSeek
    simp only [if_true, ftpTransfer, wp_bind, wp_modifyGet, wp_get, wp_pure, hserve]
    have hconn : NowIs env w₀ ds c ⟨.file [], m, env.clock w.tick⟩
        { w.wrote fs with ftp := (env.ftp.ftpGet (w.wrote fs).ftp remoteFile 0).2 } :=
      ⟨hopened.curDir, hopened.off, hopened.node⟩
    obtain ⟨fs', hfs', hget'⟩ := append_total data (env.clock (w.wrote fs).tick)
      (hconn.resolve h₀ hc (by simp [NoLink])) hconn.node
    rw [hcalm.fwrite]
    exact wp_act_ok hcalm hfs' ⟨trivial, _, hconn.wrote hget'⟩
  unfold ftpGet
  refine wp_seq hopen ?_
  rintro _ w' ⟨rfl, t', h'⟩
  exact ⟨rfl, t', h'.curDir, h'.off, h'.node⟩

/-! ## Lands -/

theorem tempName_ne (name : Str) (suffix : TempSuffix) : name ≠ tempName name suffix := by
  intro h
  have hlen := congrArg List.length h
  rw [tempName_length] at hlen
  omega

/-- Nothing has changed but the file `c` in the directory `ds` and its temporary files. -/
structure Touches (env : Env F) (ds : List Str) (c : Str) (w w' : World F) : Prop where
  curDir : w'.curDir = w.curDir
  off : ∀ q, q ≠ env.cwd ++ ds ++ [c] → (∀ k, q ≠ env.cwd ++ ds ++ [tempName c (env.temp k)]) →
    w'.fs.get q = w.fs.get q

theorem Touches.refl (ds : List Str) (c : Str) (w : World F) : Touches env ds c w w :=
  ⟨rfl, fun _ _ _ => rfl⟩

theorem Touches.stands {w' : World F} (h : Touches env ds c w w') (h₀ : StandsIn env ds w) :
    StandsIn env ds w' := by
  refine ⟨h.curDir.trans h₀.curDir, h₀.names, ?_⟩
  obtain ⟨k, hk, hd⟩ := Fs.isDir_iff.mp h₀.dir
  refine Fs.isDir_iff.mpr ⟨k, ?_, hd⟩
  rw [h.off _ (self_ne ds c).symm fun k => (self_ne ds _).symm]
  exact hk

/-- What a download does where nothing fails. -/
structure Lands (env : Env F) (ds : List Str) (spf : SpFile) (data : Str) (w w' : World F) :
    Prop where
  touches : Touches env ds spf.spfName w w'
  stays : ¬TempFits env.pathMax ds spf.spfName → w'.fs = w.fs
  comes : TempFits env.pathMax ds spf.spfName →
    w.fs.isDir (env.cwd ++ ds ++ [spf.spfName]) = false →
    ∀ q, w'.fs.get q = if q = env.cwd ++ ds ++ [spf.spfName] then
      some ⟨.file data, spf.spfMode, spf.spfTime⟩ else w.fs.get q

theorem NowIs.touches {k : Nat} (h : NowIs env w₀ ds (tempName c (env.temp k)) n w) :
    Touches env ds c w₀ w := ⟨h.curDir, fun q _ hq => h.off q (hq k)⟩

/-- The temporary file gets the name of the entry, if that is not the name of a directory. -/
theorem spfRestoreName_calm {spf : SpFile} {k : Nat} {data : Str} (hcalm : NothingFails env)
    (h₀ : StandsIn env ds w₀) (hname : IsName spf.spfName)
    (hfits : TempFits env.pathMax ds spf.spfName)
    (hfree : w₀.fs.get (env.cwd ++ ds ++ [tempName spf.spfName (env.temp k)]) = none)
    (h : NowIs env w₀ ds (tempName spf.spfName (env.temp k)) ⟨.file data, spf.spfMode, spf.spfTime⟩
      w) :
    wp (spfRestoreName env (spf.temp (env.temp k))) w (fun _ => Lands env ds spf data w₀) E := by
  have htemp := isName_tempName hname (env.temp k)
  have hlen := tempName_length spf.spfName (env.temp k)
  have hfull : spfFullName env (spf.temp (env.temp k)) w =
      some (dirStr ds ++ tempName spf.spfName (env.temp k)) := by
    refine h.fullName h₀ htemp ?_
    unfold TempFits at hfits
    omega
  have horig : fullName env.pathMax w.curDir spf.spfName = some (dirStr ds ++ spf.spfName) := by
    rw [h.curDir, h₀.curDir]
    refine fullName_of_fits hname.noslash ?_
    unfold TempFits at hfits
    omega
  have hst := h.stands h₀
  have hstat : lookAt env .lstat (some (dirStr ds ++ tempName spf.spfName (env.temp k)))
      (lstat env.cwd) w = .ok ⟨.file data, spf.spfMode, spf.spfTime⟩ :=
    lookAt_of_ok (hcalm.fault _ _) (lstat_total (hst.resolve htemp) h.node)
  unfold spfRestoreName
  rw [show (spf.temp (env.temp k)).spfOrigName = some spf.spfName from rfl]
  simp only
  rw [wp_bind, wp_get, wp_bind, wp_look, hfull, hstat, horig]
  simp only
  rw [wp_bind, wp_act]
  constructor
  · intro e he
    refine ⟨⟨h.curDir, h.touches.off⟩, fun hn => absurd hfits hn, fun _ hdir => ?_⟩
    -- a rename to a name that is not that of a directory succeeds
    have hne : env.cwd ++ ds ++ [spf.spfName] ≠
        env.cwd ++ ds ++ [tempName spf.spfName (env.temp k)] := fun heq => by
      exact tempName_ne _ _ (List.singleton_inj.mp (List.append_cancel_left heq))
    have hdir' : w.fs.isDir (env.cwd ++ ds ++ [spf.spfName]) = false := by
      rw [Bool.eq_false_iff, ne_eq, Fs.isDir_iff, h.off _ hne, ← Fs.isDir_iff, hdir]
      simp
    obtain ⟨fs', hfs'⟩ := rename_total (hst.resolve htemp) h.node (by simp) (hst.resolve hname)
      hdir' (hst.hasPlace hname)
    have hok : lookAt env .rename (some (dirStr ds ++ tempName spf.spfName (env.temp k)))
        (renameTo env (some (dirStr ds ++ spf.spfName))) w.ticked = .ok fs' :=
      lookAt_of_ok (hcalm.fault _ _) hfs'
    rw [hok] at he
    simp at he
  · intro fs hfs
    obtain ⟨-, s, hs, hren⟩ := lookAt_ok hfs
    obtain rfl := Option.some.inj hs
    obtain ⟨p, n, q, hp, hn, -, hq, -, hall⟩ := rename_ok hren
    obtain rfl := Except.ok.inj (hp.symm.trans (hst.resolve htemp))
    obtain rfl := Except.ok.inj (hq.symm.trans (hst.resolve hname))
    obtain rfl := Option.some.inj (hn.symm.trans h.node)
    have hget : ∀ r, fs.get r = if r = env.cwd ++ ds ++ [spf.spfName] then
        some ⟨.file data, spf.spfMode, spf.spfTime⟩ else w₀.fs.get r := by
      intro r
      rw [hall, ticked_fs]
      by_cases hr : r = env.cwd ++ ds ++ [tempName spf.spfName (env.temp k)]
      · rw [if_pos hr, hr, hfree]
      · rw [if_neg hr, h.off r hr]
    refine ⟨⟨h.curDir, fun r hr _ => ?_⟩, fun hn => absurd hfits hn, fun _ _ => hget⟩
    show fs.get r = _
    rw [hget, if_neg hr]

/-- The end of a download. -/
theorem finishFile_calm {spf : SpFile} {k : Nat} {data : Str} {m : Mode} {t : Int}
    (hcalm : NothingFails env) (h₀ : StandsIn env ds w₀) (hname : IsName spf.spfName)
    (hfits : TempFits env.pathMax ds spf.spfName)
    (hfree : w₀.fs.get (env.cwd ++ ds ++ [tempName spf.spfName (env.temp k)]) = none)
    (h : NowIs env w₀ ds (tempName spf.spfName (env.temp k)) ⟨.file data, m, t⟩ w) :
    wp (finishFile env (spf.temp (env.temp k))) w (fun _ => Lands env ds spf data w₀) E := by
  have htemp := isName_tempName hname (env.temp k)
  have hroom : (spf.temp (env.temp k)).spfName.length + (dirStr ds).length ≤ env.pathMax - 2 := by
    rw [show (spf.temp (env.temp k)).spfName = tempName spf.spfName (env.temp k) from rfl,
      tempName_length]
    unfold TempFits at hfits
    omega
  unfold finishFile
  refine wp_seq (spfChmod_node hcalm h₀ htemp hroom (by simp [NoLink]) h) ?_
  rintro _ w₁ ⟨-, h₁, -⟩
  refine wp_seq (spfNewTime_node hcalm h₀ htemp hroom (by simp [NoLink]) h₁) ?_
  rintro _ w₂ ⟨-, h₂, -⟩
  have hnode : (⟨.file data, spf.spfMode ||| 0, spf.spfTime⟩ : Node) =
      ⟨.file data, spf.spfMode, spf.spfTime⟩ := by simp
  exact spfRestoreName_calm hcalm h₀ hname hfits hfree (hnode ▸ h₂)

/-- **A download where nothing fails.** -/
theorem getFtpFile_calm {spf : SpFile} {data : Str} {resp : Int} (hcalm : NothingFails env)
    (h : StandsIn env ds w) (hname : IsName spf.spfName)
    (hserve : ∀ f : F, (env.ftp.ftpGet f (dirStr ds ++ spf.spfName) 0).1 = ⟨data, true, resp⟩)
    (hfree : ∀ k, w.fs.get (env.cwd ++ ds ++ [tempName spf.spfName (env.temp k)]) = none) :
    wp (getFtpFile env spf) w (fun _ => Lands env ds spf data w) E := by
  have hnothing : ∀ w' : World F, w'.fs = w.fs → w'.curDir = w.curDir →
      ¬TempFits env.pathMax ds spf.spfName → Lands env ds spf data w w' :=
    fun w' hfs hcur hfits =>
      ⟨⟨hcur, fun q _ _ => by rw [hfs]⟩, fun _ => hfs, fun h => absurd h hfits⟩
  have hlogged : StandsIn env ds (w.logged (.fetch spf)) := ⟨h.curDir, h.names, h.dir⟩
  unfold getFtpFile downloadFile
  rw [wp_bind, wp_record, wp_bind, wp_get]
  -- a path too long for the temporary name is given up before anything is sent
  by_cases hfits : TempFits env.pathMax ds spf.spfName
  · have hremote : spfFullName env spf (w.logged (.fetch spf)) =
        some (dirStr ds ++ spf.spfName) := by
      unfold spfFullName
      rw [hlogged.curDir]
      refine fullName_of_fits hname.noslash ?_
      unfold TempFits at hfits
      omega
    rw [hremote]
    simp only
    refine wp_seq (spfUseTmpName_calm hcalm hlogged hname hfits (hfree _)) ?_
    rintro _ w₁ ⟨rfl, t, h₁⟩
    generalize (w.logged (.fetch spf)).tick = k at h₁ ⊢
    have hlocal : spfFullName env (spf.temp (env.temp k)) w₁ =
        some (dirStr ds ++ tempName spf.spfName (env.temp k)) := by
      refine h₁.fullName hlogged (isName_tempName hname _) ?_
      rw [tempName_length]
      unfold TempFits at hfits
      omega
    simp only
    rw [wp_bind, wp_get, hlocal]
    simp only
    -- the first try delivers the file, so the loop is not entered again
    rw [show w₁.ftpRetries.toNat + 4 = w₁.ftpRetries.toNat + 3 + 1 from rfl, restart]
    refine wp_seq (ftpGet_calm hcalm hlogged (isName_tempName hname _) hserve h₁) ?_
    rintro _ w₂ ⟨rfl, t', h₂⟩
    rw [if_pos rfl]
    refine wp_mono (finishFile_calm hcalm hlogged hname hfits (hfree _) h₂) ?_ fun _ _ h => h
    exact fun _ w' hd => ⟨⟨hd.touches.curDir, hd.touches.off⟩, hd.stays, hd.comes⟩
  · cases hremote : spfFullName env spf (w.logged (.fetch spf)) with
    | none => exact hnothing _ rfl rfl hfits
    | some remoteFile =>
      simp only
      have hnone : fullName env.pathMax (w.logged (.fetch spf)).curDir
          (tmpTemplate env spf.spfName) = none := by
        by_contra hsome
        obtain ⟨template, htem⟩ := Option.ne_none_iff_exists'.mp hsome
        rw [hlogged.curDir] at htem
        have hlen := (tmpName_template (env.temp 0) (by simp [dirStr]) htem).2
        rw [tempName_length] at hlen
        exact hfits hlen
      unfold spfUseTmpName
      rw [wp_bind, wp_bind, wp_get, hnone]
      exact hnothing _ rfl rfl hfits

end Spegla
