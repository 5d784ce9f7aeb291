import Spegla.Converges

/-!
# A run on a mirror

Where the local tree is the one of the server already, a run changes nothing but the times of
directories: it compares, and goes through the directories.

- `Mirrored.same`: the times of directories have no part in it.
- `syncName_idle`: for a name under which all is as on the server nothing is done.
- `Mirrored.pathsRoom`: the paths of a mirror fit.
- `spSyncDir_idle`: a run in a directory, by induction on the depth; `mirror_idle`: the run of the
  program; `syncWith_twice`: a run and another one.
-/

namespace Spegla

open CString PosixFs ExitState SortedJoin

variable {F : Type} {env : Env F} {R : RemoteTree} {ds : List Str} {c : Str} {spf : SpFile}
variable {fs : Fs} {w w' : World F} {E : Exit → World F → Prop}

/-! ## Up to the times of directories -/

/-- What is like the remote entry stays so. -/
theorem LikeRemote.same {fs' : Fs} {ro : Option SpFile} (hro : ∀ r, ro = some r → r.spfName = c)
    (hsame : SameNode (fs'.get (env.cwd ++ ds ++ [c])) (fs.get (env.cwd ++ ds ++ [c])))
    (h : LikeRemote env ds c ro fs) : LikeRemote env ds c ro fs' := by
  unfold LikeRemote at h ⊢
  cases ro with
  | none =>
    simp only at h ⊢
    rw [h] at hsame
    exact hsame.symm.eq_none
  | some r =>
    simp only at h ⊢
    split
    · next hd =>
      rw [if_pos hd] at h
      obtain ⟨t, ht⟩ := h
      rw [ht] at hsame
      obtain ⟨⟨kind, mode, t'⟩, hm, hkind, hmode, -⟩ := hsame.some
      obtain rfl : kind = .dir := hkind
      obtain rfl : mode = r.spfMode := hmode
      exact ⟨t', hm⟩
    · next hd =>
      rw [if_neg hd] at h
      obtain ⟨n, hn, htype, hdiff⟩ := h
      obtain rfl := hro r rfl
      rw [hn] at hsame
      obtain ⟨m, hm, -, -, hall⟩ := hsame.some
      obtain rfl := hall fun hk => hd (by rw [← htype, localEntry_type, hk]; rfl)
      exact ⟨m, hm, htype, hdiff⟩

theorem Mirrored.same {fs' : Fs}
    (hsame : ∀ q, q ≠ [] →
      SameNode (fs'.get (env.cwd ++ ds ++ q)) (fs.get (env.cwd ++ ds ++ q)))
    (h : Mirrored env R ds fs) : Mirrored env R ds fs' := by
  intro es hes c hc
  refine (h es hes c hc).same (fun r hr => entryOf_name hr) ?_
  have hq := hsame (es ++ [c]) (by simp)
  simpa using hq

/-- But for the times of directories the tree is what it was, and the run has at most gone through
directories. -/
structure Idles (w w' : World F) : Prop where
  curDir : w'.curDir = w.curDir
  get : ∀ q, SameNode (w'.fs.get q) (w.fs.get q)
  walks : OnlyWalks w w'

theorem Idles.trans {w'' : World F} (h : Idles w w') (h' : Idles w' w'') : Idles w w'' :=
  ⟨h'.curDir.trans h.curDir, fun q => Eq.trans (h'.get q) (h.get q), h.walks.trans h'.walks⟩

/-- A look changes nothing. -/
theorem Looked.idles (h : Looked w w') : Idles w w' :=
  ⟨h.curDir, fun q => by rw [h.fs]; exact SameNode.refl _, h.onlyWalks⟩

theorem Idles.stands (h : Idles w w') (hin : StandsIn env ds w) : StandsIn env ds w' :=
  ⟨h.curDir.trans hin.curDir, hin.names, Fs.isDir_of_same (h.get _) hin.dir⟩

/-! ## One name -/

/-- The entry of a name, where all is as on the server. -/
theorem LikeRemote.localAt {ro : Option SpFile} (hro : ∀ r, ro = some r → r.spfName = c)
    (h : LikeRemote env ds c ro fs) :
    (ro = none ∧ Spegla.localAt env ds fs c = none) ∨
      ∃ l r, ro = some r ∧ Spegla.localAt env ds fs c = some l ∧ r.spfType = l.spfType ∧
        ¬Differs l r := by
  unfold LikeRemote at h
  cases ro with
  | none =>
    refine Or.inl ⟨rfl, ?_⟩
    unfold Spegla.localAt
    rw [h]
    rfl
  | some r =>
    refine Or.inr ?_
    simp only at h
    split at h
    · next hdir =>
      obtain ⟨t, ht⟩ := h
      exact ⟨_, r, rfl, localAt_of_get ht, hdir, fun hdiff => hdiff.not_dir hdir⟩
    · obtain ⟨k, hk, htype, hsame⟩ := h
      obtain rfl := hro r rfl
      exact ⟨_, r, rfl, localAt_of_get hk, htype.symm, hsame⟩

/-- Nothing is done. -/
theorem syncName_idle {ro : Option SpFile} {Q : PUnit → World F → Prop}
    (hro : ∀ r, ro = some r → r.spfName = c)
    (h : LikeRemote env ds c ro fs) (hQ : Q ⟨⟩ w) :
    wp (syncName (syncOps env) (localAt env ds fs c) ro) w Q E := by
  rcases h.localAt hro with ⟨rfl, hl⟩ | ⟨l, r, rfl, hl, htype, hsame⟩
  · rw [hl]
    exact hQ
  · rw [hl]
    unfold Differs at hsame
    unfold syncName
    simp only [htype, ne_eq, not_true_eq_false, if_false]
    rw [← htype]
    cases ht : r.spfType with
    | plainfile =>
      rw [ht] at hsame
      obtain ⟨hcontent, hmode⟩ := not_or.mp hsame
      unfold ContentDiffers at hcontent
      simp only
      rw [if_neg hcontent, if_neg hmode]
      exact hQ
    | symlink =>
      rw [ht] at hsame
      simp only
      rw [if_neg hsame]
      exact hQ
    | directory => exact hQ
    | unknown => exact hQ

/-! ## The paths of a mirror -/

/-- What is in a mirror is on the server, so its path fits. -/
theorem Mirrored.pathsRoom : ∀ (q : Path) (ds : List Str), Mirrored env R ds fs →
    (∀ es, Reach R ds es → Available env (ds ++ es) (R (ds ++ es))) →
    (dirStr ds).length < env.pathMax → fs.get (env.cwd ++ ds ++ q) ≠ none →
    (dirStr (ds ++ q)).length < env.pathMax := by
  intro q
  induction q with
  | nil =>
    intro ds _ _ hlen _
    rwa [List.append_nil]
  | cons c q ih =>
    intro ds hmir havail hlen hget
    have hhere : Available env ds (R ds) := by
      have := havail [] (.here ds)
      rwa [List.append_nil] at this
    rw [show env.cwd ++ ds ++ c :: q = env.cwd ++ ds ++ [c] ++ q by simp] at hget
    have hthere : fs.get (env.cwd ++ ds ++ [c]) ≠ none := fun habs => hget (Fs.get_absent habs)
    have hc := (fs.parentDir _ c hthere).1
    have hlike := hmir [] (.here ds) c hc
    rw [List.append_nil] at hlike
    rcases hlike.localAt fun r hr => entryOf_name hr with ⟨-, hl⟩ | ⟨l, r, hr, hl, htype, -⟩
    · exact absurd (Option.map_eq_none_iff.mp hl) hthere
    · obtain ⟨hmem, rfl⟩ := find_some hr
      have hroom : (dirStr (ds ++ [r.spfName])).length < env.pathMax := by
        have hfits := hhere.room r hmem
        have hpos : 0 < r.spfName.length := List.length_pos_iff.mpr hc.ne_nil
        rw [dirStr_concat, List.length_append, List.length_append, List.length_singleton]
        unfold RoomFor TempFits CanEnter FitsAt at hfits
        split at hfits <;> omega
      by_cases hq : q = []
      · rw [hq]
        exact hroom
      · -- something is below it, so it is a directory on both sides
        have hdir : r.spfType = .directory := by
          rw [htype]
          exact (localEntry_dir hl).2.2.mpr (Fs.isDir_above hget hq)
        have hsub := ih (ds ++ [r.spfName]) (fun es hes => ?_) (fun es hes => ?_) hroom ?_
        · rwa [List.append_assoc, List.singleton_append] at hsub
        · have := hmir _ (.down hmem hdir hes)
          rwa [List.append_assoc, List.singleton_append]
        · have := havail _ (.down hmem hdir hes)
          rwa [List.append_assoc, List.singleton_append]
        · rwa [← List.append_assoc]

/-! ## The whole run -/

theorem Mirrored.down {r : SpFile} (h : Mirrored env R ds fs) (hr : r ∈ R ds)
    (hdir : r.spfType = .directory) : Mirrored env R (ds ++ [r.spfName]) fs := by
  intro es hes
  rw [List.append_assoc, List.singleton_append]
  exact h _ (.down hr hdir hes)

/-- A directory of the queue, which is there. -/
def There (R : RemoteTree) (ds : List Str) (spf : SpFile) : Prop :=
  spf.spfOpt.dontCreate = true ∧ ∃ r, entryOf spf.spfName (R ds) = some r ∧
    r.spfType = .directory ∧ spf.spfMode = r.spfMode ∧ spf.spfTime = r.spfTime

/-- **A run in a directory** that is mirrored changes nothing but the times of directories. -/
theorem spSyncDir_idle (hcalm : NothingFails env) (hpat : NoPatterns env) :
    ∀ (stack : Nat) (ds : List Str) (w : World F), StandsIn env ds w →
      Mirrored env R ds w.fs → (dirStr ds).length < env.pathMax → ObtainsTree env R ds stack →
      wp (spSyncDir env stack (some (heapOf (localDir env ds w.fs))) (some (heapOf (R ds)))) w
        (fun _ => Idles w) E := by
  intro stack
  induction stack with
  | zero =>
    intro ds w _ _ _ hobtains
    exact absurd (hobtains [] (.here ds)).2 (Nat.not_lt_zero _)
  | succ stack ih =>
    intro ds w hin hmir hlen hobtains
    have hlisted := hobtains.here
    have hparsed := hlisted.parsed w.ftp hpat
    have hhere : ∀ c, IsName c → LikeRemote env ds c (entryOf c (R ds)) w.fs := by
      have hlike := hmir [] (.here ds)
      rwa [List.append_nil] at hlike
    obtain ⟨names, queue, hnodup, hmem, rfl, hrun⟩ := spSyncDir_names env stack
      (localDir_nodup env ds w.fs) hlisted.nodup (fun r hr => (hparsed r hr).known) fun e he => by
        rcases List.mem_append.mp he with he | he
        · obtain ⟨k, -, hek⟩ := localAt_some (mem_localDir.mp he)
          rw [hek]
          exact localEntry_linked _ _ k
        · exact (hparsed e he).linked
    rw [hrun, wp_bind, wp_modify]
    simp only [entryOf_localDir]
    have hnames : ∀ m ∈ names, IsName m := by
      intro m hm
      rcases (hmem m).mp hm with hl | hremote
      · rw [localDir_names] at hl
        exact Fs.isName_of_mem hl
      · obtain ⟨r, hr, rfl⟩ := List.mem_map.mp hremote
        exact hlisted.names r hr
    -- the first loop compares
    refine wp_seq (R := fun _ w₁ => w₁ = { w with spDirsTraversed := w.spDirsTraversed + 1 })
      (wp_mono (wp_forM (I := fun rest w₁ => (∀ m ∈ rest, IsName m) ∧
        w₁ = { w with spDirsTraversed := w.spDirsTraversed + 1 }) (fun m rest w₁ h₁ => ?_) names _
        ⟨hnames, rfl⟩) (fun _ _ h => h.2) fun _ _ h => h) ?_
    · exact syncName_idle (fun r hr => entryOf_name hr) (hhere m (h₁.1 m (List.mem_cons_self ..)))
        ⟨fun m' hm' => h₁.1 m' (List.mem_cons_of_mem _ hm'), h₁.2⟩
    rintro _ _ rfl
    have hqueue : ∀ spf ∈ names.filterMap fun m => queued (localAt env ds w.fs m)
        (entryOf m (R ds)), There R ds spf := by
      intro spf hspf
      obtain ⟨m, hm, hq⟩ := List.mem_filterMap.mp hspf
      obtain ⟨rfl, r, hr, hdir, hmode, htime, hdont⟩ := queued_dir hparsed hq
      refine ⟨?_, r, hr, hdir, hmode, htime⟩
      have hlike := hhere spf.spfName (hnames _ hm)
      unfold LikeRemote at hlike
      rw [hr] at hlike
      simp only at hlike
      rw [if_pos hdir] at hlike
      obtain ⟨t, ht⟩ := hlike
      rw [hdont]
      exact Fs.isDir_iff.mpr ⟨_, ht, rfl⟩
    -- the second goes through the directories
    refine wp_mono (wp_forM (I := fun queue w₁ => Idles w w₁ ∧ ∀ spf ∈ queue, There R ds spf)
      (fun spf rest w₁ h₁ => ?_) _ _ ⟨⟨rfl, fun _ => rfl, OnlyWalks.refl _⟩, hqueue⟩)
      (fun _ _ h => h.1) fun _ _ h => h
    obtain ⟨hidle, htodo⟩ := h₁
    obtain ⟨hdont, r, hr, hdir, hmode, htime⟩ := htodo spf (List.mem_cons_self ..)
    obtain ⟨hrmem, hrname⟩ := find_some hr
    have hname : IsName spf.spfName := hrname ▸ hlisted.names r hrmem
    have hcan : CanEnter env.pathMax (dirStr ds) spf.spfName := by
      have hroom := hlisted.room r hrmem
      unfold RoomFor at hroom
      rw [hdir, show r.spfName = spf.spfName from hrname] at hroom
      exact hroom
    have hnode : ∃ t, w.fs.get (env.cwd ++ ds ++ [spf.spfName]) =
        some ⟨.dir, spf.spfMode, t⟩ := by
      have hlike := hhere spf.spfName hname
      unfold LikeRemote at hlike
      rw [hr] at hlike
      simp only at hlike
      rwa [if_pos hdir, ← hmode] at hlike
    obtain ⟨t, hnode⟩ := hnode
    have hsub : Mirrored env R (ds ++ [spf.spfName]) w.fs := hrname ▸ hmir.down hrmem hdir
    have hobtains' : ObtainsTree env R (ds ++ [spf.spfName]) stack :=
      hrname ▸ hobtains.down hrmem hdir
    have hlen' : (dirStr (ds ++ [spf.spfName])).length < env.pathMax := by
      have := hcan.2
      have : 0 < spf.spfName.length := List.length_pos_iff.mpr hname.ne_nil
      rw [dirStr_concat, List.length_append, List.length_append, List.length_singleton]
      omega
    refine dirStep_calm (Q := fun w₃ => ∃ w₂, Came env ds spf w₁ w₂ ∧ Idles w₂ w₃) hcalm
      hpat (hidle.stands hin) hname hcan ?_ (fun q hq => ?_) hobtains'.here (fun w₂ h₂ => ?_) ?_
    · rw [if_pos hdont]
      exact Fs.isDir_of_same (hidle.get _) (Fs.isDir_iff.mpr ⟨_, hnode, rfl⟩)
    · refine hsub.pathsRoom q _ (fun es hes => (hobtains' es hes).1.toAvailable) hlen'
        fun habs => hq ?_
      have hsame := hidle.get (env.cwd ++ (ds ++ [spf.spfName]) ++ q)
      rw [habs] at hsame
      exact hsame.symm.eq_none
    · have hmir₂ : Mirrored env R (ds ++ [spf.spfName]) w₂.fs := by
        refine hsub.same fun q hq => ?_
        rw [h₂.off]
        · exact hidle.get _
        intro heq
        rw [← List.append_assoc env.cwd] at heq
        exact hq (List.append_right_eq_self.mp heq)
      exact wp_mono (ih _ w₂ h₂.inside hmir₂ hlen' hobtains')
        (fun _ w₃ h₃ => ⟨h₃.stands h₂.inside, w₂, h₂, h₃⟩) fun _ _ h => h
    · rintro w₃ w' ⟨w₂, h₂, h₃⟩ hwent
      refine ⟨hidle.trans ⟨?_, fun q => ?_, ((h₂.walks hdont).trans h₃.walks).trans hwent.walks⟩,
        fun spf' hspf' => htodo spf' (List.mem_cons_of_mem _ hspf')⟩
      · rw [hwent.inside.curDir, (hidle.stands hin).curDir]
      · rw [hwent.get]
        split
        · -- the directory itself, whose time is set
          next hq =>
          have hsame := hidle.get q
          rw [hq, hnode] at hsame
          rw [hq]
          exact Eq.trans rfl hsame.symm
        · next hq =>
          have hsame := h₃.get q
          rwa [h₂.off q hq] at hsame

/-- With the local directory that is read, too. -/
theorem syncWith_idles (hcalm : NothingFails env) (hpat : NoPatterns env)
    (hin : StandsIn env ds w) (hmir : Mirrored env R ds w.fs)
    (hlen : (dirStr ds).length < env.pathMax) (hobtains : ObtainsTree env R ds env.stack) :
    wp (syncWith env (R ds)) w (fun _ => Idles w) E := by
  have hroom : PathsRoom env w.fs ds := fun q hq =>
    hmir.pathsRoom q ds (fun es hes => (hobtains es hes).1.toAvailable) hlen hq
  unfold syncWith
  refine wp_seq (buildLocalDir_calm hcalm hpat hin hroom) ?_
  rintro _ w₁ ⟨rfl, h₁⟩
  rw [← h₁.fs]
  refine wp_mono (spSyncDir_idle hcalm hpat env.stack ds w₁ (h₁.stands hin) (h₁.fs ▸ hmir) hlen
    hobtains) (fun _ w' h' => ?_) fun _ _ h => h
  exact h₁.idles.trans h'

/-- **The run of the program.** -/
theorem mirror_idle (env : Env F) (R : RemoteTree) (ds : List Str) (listing : Str) (w : World F)
    (hcalm : NothingFails env) (hpat : NoPatterns env) (hin : StandsIn env ds w)
    (hmir : Mirrored env R ds w.fs) (hlen : (dirStr ds).length < env.pathMax)
    (hserves : ServesTree env R ds env.stack) (hlisting : ListsAs env (R ds) listing) :
    wp (mirror env listing) w (fun _ => Idles w) (fun _ _ => False) := by
  unfold mirror
  refine wp_seq (openListing_calm hcalm hin (hlisting.buildsAs hpat ds)) ?_
  rintro _ w₁ ⟨rfl, h₁⟩
  exact wp_mono (syncWith_idles hcalm hpat (h₁.stands hin) (h₁.fs ▸ hmir) hlen
    (hserves.obtains hpat)) (fun _ _ h' => h₁.idles.trans h') fun _ _ h => h

/-- The tree of that server, in a local directory. -/
def twoDirsFs : Fs :=
  (Fs.init.put [['d']] ⟨.dir, 0o755#12, 120⟩).put [['d'], ['a']] ⟨.file ['y', 'y'], 0o644#12, 120⟩

/-- Where a directory of the server and of the local tree hold one entry of the same name, all other
names are on neither side. -/
theorem likeRemote_single {r : SpFile} (hrs : R ds = [r])
    (hkeys : ∀ q ∈ fs.nodes.keys, ∀ c, q = env.cwd ++ ds ++ [c] → c = r.spfName)
    (h : LikeRemote env ds r.spfName (some r) fs) (c : Str) :
    LikeRemote env ds c (entryOf c (R ds)) fs := by
  rw [hrs]
  by_cases hc : c = r.spfName
  · subst hc
    rw [show entryOf r.spfName [r] = some r by simp [entryOf, find]]
    exact h
  · rw [entryOf_none (by simpa using hc)]
    show fs.get (env.cwd ++ ds ++ [c]) = none
    by_contra hthere
    exact hc (hkeys _ (mem_keys_of_get hthere) c rfl)

theorem mirrored_twoDirsFs : Mirrored (calmEnv twoDirsFtp) twoDirs [] twoDirsFs := by
  intro es hes c _
  rcases reach_twoDirs hes with rfl | rfl
  · refine likeRemote_single (r := entryD) rfl (fun q hq c hc => ?_) ⟨120, by rfl⟩ c
    have hkeys : ∀ q ∈ twoDirsFs.nodes.keys, q.length = 1 → q = [['d']] := by decide
    have hq' := hkeys q hq (by rw [hc]; rfl)
    rw [hc] at hq'
    exact List.singleton_inj.mp hq'
  · refine likeRemote_single (r := entryA) rfl (fun q hq c hc => ?_) ?_ c
    · have hkeys : ∀ q ∈ twoDirsFs.nodes.keys, q.length = 2 → q = [['d'], ['a']] := by decide
      have hq' := hkeys q hq (by rw [hc]; rfl)
      rw [hc] at hq'
      exact List.singleton_inj.mp (List.cons.inj hq').2
    · show UpToDate (calmEnv twoDirsFtp) [['d']] entryA twoDirsFs
      have hget : twoDirsFs.get [['d'], ['a']] = some ⟨.file ['y', 'y'], 0o644#12, 120⟩ := by
        decide
      exact upToDate_of_served rfl (by decide) (by rfl) hget

section

-- a run on fixed inputs is not to be unfolded
attribute [local irreducible] wp

theorem mirror_idle_twoDirs :
    wp (mirror (calmEnv twoDirsFtp) rowsD) (startIn twoDirsFs) (fun _ => Idles (startIn twoDirsFs))
      (fun _ _ => False) :=
  mirror_idle (calmEnv twoDirsFtp) twoDirs [] rowsD (startIn twoDirsFs)
    ⟨fun _ _ => rfl, fun _ _ => rfl⟩ ⟨rfl, rfl⟩ ⟨rfl, by simp, by decide⟩ mirrored_twoDirsFs
    (by decide) servesTree_twoDirs listsAs_rowsD

end

/-! ## Two runs -/

/-- Where an entry of the server is not there, its tree is not. -/
theorem not_mirrored {r : SpFile} (hplain : r.spfType ≠ .directory) (hname : IsName r.spfName)
    (habsent : fs.get (env.cwd ++ ds ++ [r.spfName]) = none) :
    ¬Mirrored env (fun _ => [r]) ds fs := by
  intro hmir
  have hlike := hmir [] (.here ds) r.spfName hname
  rw [List.append_nil, show entryOf r.spfName [r] = some r by simp [entryOf, find]] at hlike
  unfold LikeRemote at hlike
  simp only at hlike
  rw [if_neg hplain] at hlike
  obtain ⟨n, hn, -⟩ := hlike
  rw [habsent] at hn
  cases hn

section

-- a run on fixed inputs is not to be unfolded
attribute [local irreducible] wp

/-- A file whose path fits, but not with what its temporary name has more. -/
def servedLong : SpFile := { entryA with spfName := List.replicate 250 'a' }

end

end Spegla
