import Spegla.CalmListings

/-!
# Directories where nothing fails

One round of the second loop of `sp_sync_dir`: the directory is made if it is not there, entered,
mirrored and left, and gets its time and mode.

- `Came`: the run has come into the directory; `Went`: it has left it again.
- `spfMkdir_calm`, `goDown_calm`, `goUp_calm`: the steps.
- `dirStep_calm`: the round, for whatever is done in the directory.
-/

namespace Spegla

open CString PosixFs ExitState

variable {F : Type} {env : Env F} {ds : List Str} {c : Str} {spf : SpFile} {w w' : World F}
variable {E : Exit → World F → Prop}

/-- The run has come into the directory of the entry `spf`, which is there now. With
`SPFO_DONT_CREATE` it has not been made. -/
structure Came (env : Env F) (ds : List Str) (spf : SpFile) (w w' : World F) : Prop where
  inside : StandsIn env (ds ++ [spf.spfName]) w'
  off : ∀ q, q ≠ env.cwd ++ ds ++ [spf.spfName] → w'.fs.get q = w.fs.get q
  walks : spf.spfOpt.dontCreate = true → OnlyWalks w w'

/-- The run has left the directory of the entry `spf`, which has its mode and time now. -/
structure Went (env : Env F) (ds : List Str) (spf : SpFile) (w w' : World F) : Prop where
  inside : StandsIn env ds w'
  get : ∀ q, w'.fs.get q = if q = env.cwd ++ ds ++ [spf.spfName] then
    some ⟨.dir, spf.spfMode, spf.spfTime⟩ else w.fs.get q
  walks : OnlyWalks w w'

/-- The directory is there afterwards, and it alone may be new. -/
theorem spfMkdir_calm (hcalm : NothingFails env) (h : StandsIn env ds w)
    (hname : IsName spf.spfName)
    (hfits : spf.spfName.length + (dirStr ds).length ≤ env.pathMax - 2)
    (hthere : if spf.spfOpt.dontCreate then w.fs.isDir (env.cwd ++ ds ++ [spf.spfName]) = true
      else w.fs.get (env.cwd ++ ds ++ [spf.spfName]) = none) :
    wp (spfMkdir env spf) w (fun made w' => made = .ok ⟨⟩ ∧
      (∃ m t, NowIs env w ds spf.spfName ⟨.dir, m, t⟩ w') ∧
      (spf.spfOpt.dontCreate = true → w'.trace = w.trace)) E := by
  unfold spfMkdir
  rw [wp_ite]
  constructor
  · intro hdont
    rw [if_pos hdont] at hthere
    obtain ⟨⟨k, m, t⟩, hn, hk⟩ := Fs.isDir_iff.mp hthere
    obtain rfl : k = .dir := hk
    exact ⟨rfl, ⟨m, t, rfl, fun _ _ => rfl, hn⟩, fun _ => rfl⟩
  · intro hcreate
    rw [if_neg hcreate] at hthere
    have hfull : spfFullName env spf w = some (dirStr ds ++ spf.spfName) := by
      unfold spfFullName
      rw [h.curDir]
      exact fullName_of_fits hname.noslash hfits
    obtain ⟨fs, hfs, hget⟩ := make_total (n := ⟨.dir, (spf.spfMode ||| S_IRWXU) &&& ~~~env.umask,
      env.clock w.tick⟩) (h.resolve hname) hthere (h.hasPlace hname)
    rw [wp_bind, wp_record, wp_bind, wp_get]
    have hfull' :
      spfFullName env spf (w.logged (.spfMkdir spf)) = some (dirStr ds ++ spf.spfName) :=
      hfull
    rw [hfull']
    have hmade : NowIs env w ds spf.spfName ⟨.dir, (spf.spfMode ||| S_IRWXU) &&& ~~~env.umask,
        env.clock w.tick⟩ ((w.logged (.spfMkdir spf)).wrote fs) :=
      ⟨rfl, fun q hq => (hget q).trans (if_neg hq), (hget _).trans (if_pos rfl)⟩
    have hmkdir : mkdir env.cwd ((spf.spfMode ||| S_IRWXU) &&& ~~~env.umask) (env.clock w.tick)
        (dirStr ds ++ spf.spfName) (w.logged (.spfMkdir spf)).fs = .ok fs := by
      unfold mkdir
      rw [stripSlash_name _ hname]
      exact hfs
    exact wp_act_ok hcalm hmkdir ⟨rfl, ⟨_, _, hmade⟩, fun hdont => absurd hdont hcreate⟩

/-- One step down. -/
theorem goDown_calm (h : StandsIn env ds w)
    (hcan : CanEnter env.pathMax (dirStr ds) spf.spfName) :
    wp (goDown env spf) w (fun _ w' => w'.curDir = dirStr (ds ++ [spf.spfName]) ∧
      w'.fs = w.fs ∧ OnlyWalks w w') E := by
  unfold goDown
  rw [wp_bind, wp_record, wp_bind, wp_get, wp_bind, wp_set, wp_pure]
  refine ⟨?_, rfl, onlyWalks_logged w rfl⟩
  show (curDirCd env.pathMax w.curDir spf.spfName).getD w.curDir = _
  rw [h.curDir, curDirCd_of_fits (dirStr_getLast ds) hcan.1 hcan.2, dirStr_concat]
  rfl

/-- What is recorded in the directory loop changes nothing else. -/
theorem NowIs.logged {w₀ : World F} {n : Node} (h : NowIs env w₀ ds c n w) (e : Event) :
    NowIs env w₀ ds c n (w.logged e) := ⟨h.curDir, h.off, h.node⟩

/-- One step up, with the time and the mode of the directory. -/
theorem goUp_calm {popped : Str} (hcalm : NothingFails env) (hname : IsName spf.spfName)
    (hfits : spf.spfName.length + (dirStr ds).length ≤ env.pathMax - 2)
    (h : StandsIn env (ds ++ [spf.spfName]) w) :
    wp (goUp env spf popped) w (fun _ => Went env ds spf w) E := by
  have hnames : ∀ d ∈ ds, IsName d := fun d hd => h.names d (List.mem_append_left _ hd)
  have hdir := h.dir
  rw [← List.append_assoc] at hdir
  obtain ⟨⟨k, m, t⟩, hn, hk⟩ := Fs.isDir_iff.mp hdir
  obtain rfl : k = .dir := hk
  have hup : StandsIn env ds { w with curDir := curDirCdup w.curDir } := by
    refine ⟨?_, hnames, Fs.isDir_prefix hdir⟩
    show curDirCdup w.curDir = _
    rw [h.curDir, dirStr_concat]
    exact curDirCdup_cd (dirStr_getLast ds) hname.noslash
  have hstart : NowIs env { w with curDir := curDirCdup w.curDir } ds spf.spfName ⟨.dir, m, t⟩
      { w with curDir := curDirCdup w.curDir } := ⟨rfl, fun _ _ => rfl, hn⟩
  unfold goUp
  simp only [recordStep]
  rw [wp_bind, wp_modify, wp_bind, wp_bind, wp_get, wp_record]
  refine wp_seq (spfNewTime_node hcalm hup hname hfits (by simp [NoLink]) (hstart.logged _)) ?_
  rintro _ w₁ ⟨-, h₁, htrace₁⟩
  rw [wp_bind, wp_bind, wp_get, wp_record]
  refine wp_seq (spfChmod_node hcalm hup hname hfits (by simp [NoLink]) (h₁.logged _)) ?_
  rintro _ w₂ ⟨-, h₂, htrace₂⟩
  refine ⟨h₂.stands hup, fun q => ?_, ?_⟩
  · by_cases hq : q = env.cwd ++ ds ++ [spf.spfName]
    · rw [if_pos hq, hq, h₂.node]
      simp
    · rw [if_neg hq, h₂.off q hq]
  · -- two events more: one before the time, and one before the mode
    have hwalk : OnlyWalks w w₁ := by
      obtain ⟨new, hnew, hloop⟩ := onlyWalks_logged { w with curDir := curDirCdup w.curDir }
        (e := .dirStep popped (spfFullName env spf { w with curDir := curDirCdup w.curDir })) rfl
      exact ⟨new, htrace₁.trans hnew, hloop⟩
    obtain ⟨new, hnew, hloop⟩ := onlyWalks_logged w₁ (e := .dirStep popped (spfFullName env spf w₁))
      rfl
    exact hwalk.trans ⟨new, htrace₂.trans hnew, hloop⟩

/-- **One round of the directory loop.** -/
theorem dirStep_calm {sync : HeapList SpFile → HeapList SpFile → Prog F PUnit} {rs : List SpFile}
    {Q Q' : World F → Prop} (hcalm : NothingFails env) (hpat : NoPatterns env)
    (h : StandsIn env ds w) (hname : IsName spf.spfName)
    (hcan : CanEnter env.pathMax (dirStr ds) spf.spfName)
    (hthere : if spf.spfOpt.dontCreate then w.fs.isDir (env.cwd ++ ds ++ [spf.spfName]) = true
      else w.fs.get (env.cwd ++ ds ++ [spf.spfName]) = none)
    (hroom : PathsRoom env w.fs (ds ++ [spf.spfName]))
    (hobtains : Obtains env (ds ++ [spf.spfName]) rs)
    (hsync : ∀ w₁, Came env ds spf w w₁ →
      wp (sync (heapOf (localDir env (ds ++ [spf.spfName]) w₁.fs)) (heapOf rs)) w₁
        (fun _ w₂ => StandsIn env (ds ++ [spf.spfName]) w₂ ∧ Q w₂) E)
    (hout : ∀ w₂ w', Q w₂ → Went env ds spf w₂ w' → Q' w') :
    wp (dirStep env sync spf) w (fun _ => Q') E := by
  have hfits : spf.spfName.length + (dirStr ds).length ≤ env.pathMax - 2 := by
    have := hcan.2
    omega
  unfold dirStep
  rw [wp_bind, wp_get, hpat.skip]
  show wp (spfMkdir env spf >>= _) w _ E
  refine wp_seq (spfMkdir_calm hcalm h hname hfits hthere) ?_
  rintro _ w₁ ⟨rfl, ⟨m, t, h₁⟩, htrace₁⟩
  rw [if_pos (Or.inl rfl)]
  refine wp_seq (spfChmod_node hcalm h hname hfits (by simp [NoLink]) h₁) ?_
  rintro _ w₂ ⟨rfl, h₂, htrace₂⟩
  rw [if_pos rfl]
  -- down into it, with the path and the directory that is there now
  unfold descend
  refine wp_seq (goDown_calm (h₂.stands h) hcan) ?_
  rintro popped w₃ ⟨hcur₃, hfs₃, hwalks₃⟩
  have hwalks : spf.spfOpt.dontCreate = true → OnlyWalks w w₃ := fun hdont => by
    obtain ⟨new, hnew, hloop⟩ := hwalks₃
    exact ⟨new, by rw [hnew, htrace₂, htrace₁ hdont], hloop⟩
  have hget₃ : ∀ q, q ≠ env.cwd ++ ds ++ [spf.spfName] → w₃.fs.get q = w.fs.get q := fun q hq => by
    rw [hfs₃]
    exact h₂.off q hq
  have hin₃ : StandsIn env (ds ++ [spf.spfName]) w₃ := by
    refine ⟨hcur₃, fun d hd => ?_, ?_⟩
    · rcases List.mem_append.mp hd with hd | hd
      · exact h.names d hd
      · rw [List.mem_singleton.mp hd]
        exact hname
    · rw [← List.append_assoc, hfs₃]
      exact Fs.isDir_iff.mpr ⟨_, h₂.node, rfl⟩
  -- nothing below has been touched, so the paths there fit as before
  have hroom₃ : PathsRoom env w₃.fs (ds ++ [spf.spfName]) := by
    intro q hq
    by_cases hself : q = []
    · rw [hself, List.append_nil, dirStr_concat, List.length_append, List.length_append,
        List.length_singleton]
      have := hcan.2
      have : 0 < spf.spfName.length := List.length_pos_iff.mpr hname.ne_nil
      omega
    · rw [hget₃] at hq
      · exact hroom q hq
      · intro heq
        rw [← List.append_assoc] at heq
        exact hself (List.append_right_eq_self.mp heq)
  refine wp_seq (syncBelow_calm (Q := fun w₂ => StandsIn env (ds ++ [spf.spfName]) w₂ ∧ Q w₂) hcalm
    hpat hin₃ hroom₃ hobtains fun w₄ hfs₄ hcur₄ hwalks₄ => ?_) ?_
  · rw [← hfs₄]
    refine hsync w₄ ⟨⟨hcur₄.trans hcur₃, hin₃.names, by rw [hfs₄]; exact hin₃.dir⟩, fun q hq => ?_,
      fun hdont => (hwalks hdont).trans hwalks₄⟩
    rw [hfs₄]
    exact hget₃ q hq
  · rintro _ w₅ ⟨hin₅, hQ⟩
    exact wp_mono (goUp_calm hcalm hname hfits hin₅) (fun _ w' hw' => hout w₅ w' hQ hw')
      fun _ _ h => h

end Spegla
