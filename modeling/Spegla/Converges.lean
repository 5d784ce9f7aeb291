import Spegla.CalmDirs
import Spegla.Settling

/-!
# The mirror

With `sp_do_delete` on, no maximum of deletes and no patterns, a run in which nothing fails makes
the local tree the one of the server, whatever it was.

- `RemoteTree`, `Reach`: what the server has, and the directories that are reached from one.
- `Mirrored`: the local tree below a directory is that of the server.
- `Partly`: all names are settled and the directories but those to come are mirrored;
  `Partly.step`: the second loop.
- `spSyncDir_mirrors`: a run in a directory, by induction on the depth; `syncWith_mirrors`,
  `mirror_converges`: the run of the program, with the listing of the remote directory at hand and
  with its text.
-/

namespace Spegla

open CString PosixFs ExitState SortedJoin

variable {F : Type} {env : Env F}

/-! ## The tree of the server -/

/-- What the server has in each directory. -/
abbrev RemoteTree := List Str → List SpFile

/-- From the directory `ds` the server has directories along the names `es`. -/
inductive Reach (R : RemoteTree) : List Str → List Str → Prop where
  | here (ds : List Str) : Reach R ds []
  | down {ds es : List Str} {r : SpFile} (hr : r ∈ R ds) (hdir : r.spfType = .directory)
      (h : Reach R (ds ++ [r.spfName]) es) : Reach R ds (r.spfName :: es)

/-- Under the name `c` in the directory `ds` is what the server has there: nothing, a directory with
its mode, or an entry like the remote one. -/
def LikeRemote (env : Env F) (ds : List Str) (c : Str) (ro : Option SpFile) (fs : Fs) : Prop :=
  match ro with
  | none => fs.get (env.cwd ++ ds ++ [c]) = none
  | some r =>
    if r.spfType = .directory then
      ∃ t, fs.get (env.cwd ++ ds ++ [c]) = some ⟨.dir, r.spfMode, t⟩
    else UpToDate env ds r fs

/-- Below the directory `ds` the local tree is that of the server: this holds of every name in every
directory that is reached. -/
def Mirrored (env : Env F) (R : RemoteTree) (ds : List Str) (fs : Fs) : Prop :=
  ∀ es, Reach R ds es → ∀ c, IsName c →
    LikeRemote env (ds ++ es) c (entryOf c (R (ds ++ es))) fs

/-- The server has the tree `R` below the directory `ds`, and it is less than `n` directories deep.
-/
def ServesTree (env : Env F) (R : RemoteTree) (ds : List Str) (n : Nat) : Prop :=
  ∀ es, Reach R ds es → Offers env (ds ++ es) (R (ds ++ es)) ∧ es.length < n

/-- The listings below the directory `ds` give the tree `R`, less than `n` directories deep. -/
def ObtainsTree (env : Env F) (R : RemoteTree) (ds : List Str) (n : Nat) : Prop :=
  ∀ es, Reach R ds es → Obtains env (ds ++ es) (R (ds ++ es)) ∧ es.length < n

/-- No name for a temporary file is taken. -/
def NoTemps (env : Env F) (R : RemoteTree) (ds : List Str) (fs : Fs) : Prop :=
  ∀ es, Reach R ds es → TempsFree env (ds ++ es) (R (ds ++ es)) fs

variable {R : RemoteTree} {ds : List Str} {c : Str} {r spf : SpFile} {fs fs' fs₀ : Fs}
variable {w w' : World F} {E : Exit → World F → Prop} {n : Nat}

theorem LikeRemote.congr {ro : Option SpFile} (hr : ∀ r, ro = some r → r.spfName = c)
    (hsame : fs'.get (env.cwd ++ ds ++ [c]) = fs.get (env.cwd ++ ds ++ [c]))
    (h : LikeRemote env ds c ro fs) : LikeRemote env ds c ro fs' := by
  unfold LikeRemote at h ⊢
  cases ro with
  | none => exact hsame.trans h
  | some r =>
    simp only at h ⊢
    split
    · next hd =>
      rw [if_pos hd] at h
      obtain ⟨t, ht⟩ := h
      exact ⟨t, hsame.trans ht⟩
    · next hd =>
      rw [if_neg hd] at h
      obtain rfl := hr r rfl
      exact (UpToDate.congr hsame).mpr h

/-- Whether the tree is mirrored depends on what is below the directory. -/
theorem Mirrored.congr
    (hsame : ∀ q, q ≠ [] → fs'.get (env.cwd ++ ds ++ q) = fs.get (env.cwd ++ ds ++ q))
    (h : Mirrored env R ds fs) : Mirrored env R ds fs' := by
  intro es hes c hc
  refine (h es hes c hc).congr (fun r hr => entryOf_name hr) ?_
  have hq := hsame (es ++ [c]) (by simp)
  simpa using hq

theorem ServesTree.obtains (hpat : NoPatterns env) (h : ServesTree env R ds n) :
    ObtainsTree env R ds n := fun es hes => ⟨(h es hes).1.obtains hpat, (h es hes).2⟩

theorem ObtainsTree.down (h : ObtainsTree env R ds (n + 1)) (hr : r ∈ R ds)
    (hdir : r.spfType = .directory) : ObtainsTree env R (ds ++ [r.spfName]) n := by
  intro es hes
  obtain ⟨hobtains, hlen⟩ := h _ (.down hr hdir hes)
  rw [List.length_cons] at hlen
  rw [List.append_assoc, List.singleton_append]
  exact ⟨hobtains, by omega⟩

theorem ObtainsTree.here (h : ObtainsTree env R ds n) : Obtains env ds (R ds) := by
  have hobtains := (h [] (.here ds)).1
  rwa [List.append_nil] at hobtains

/-- A part of a tree has no more names in it. -/
theorem NoTemps.down (h : NoTemps env R ds fs₀) (hr : r ∈ R ds) (hdir : r.spfType = .directory)
    (hx : ∀ q k, q ≠ [] → fs.get (env.cwd ++ (ds ++ [r.spfName]) ++ q) = some k →
      fs₀.get (env.cwd ++ (ds ++ [r.spfName]) ++ q) = some k) :
    NoTemps env R (ds ++ [r.spfName]) fs := by
  intro es hes r' hr' ht k
  have hpath : ds ++ r.spfName :: es = ds ++ [r.spfName] ++ es := by simp
  have htemps := h _ (.down hr hdir hes)
  rw [hpath] at htemps
  obtain ⟨habsent, hunlisted⟩ := htemps r' hr' ht k
  refine ⟨?_, hunlisted⟩
  by_contra hthere
  obtain ⟨m, hm⟩ := Option.ne_none_iff_exists'.mp hthere
  have hold : fs₀.get (env.cwd ++ (ds ++ [r.spfName] ++ es) ++
      [tempName r'.spfName (env.temp k)]) = some m := by
    have hsub := hx (es ++ [tempName r'.spfName (env.temp k)]) m (by simp) (by simpa using hm)
    simpa using hsub
  rw [habsent] at hold
  simp at hold

/-! ## The second loop -/

/-- A directory `spf` of the queue: it is a remote one; with `SPFO_DONT_CREATE` it is there, and
otherwise nothing is; below it is nothing that the tree `fs₀` does not have. -/
structure Queued (env : Env F) (ds : List Str) (rs : List SpFile) (fs₀ : Fs) (spf : SpFile)
    (fs : Fs) : Prop where
  remote : ∃ r, entryOf spf.spfName rs = some r ∧ r.spfType = .directory ∧
    spf.spfMode = r.spfMode ∧ spf.spfTime = r.spfTime
  there : if spf.spfOpt.dontCreate then fs.isDir (env.cwd ++ ds ++ [spf.spfName]) = true
    else fs.get (env.cwd ++ ds ++ [spf.spfName]) = none
  old : ∀ q k, fs.get (env.cwd ++ ds ++ [spf.spfName] ++ q) = some k →
    fs₀.get (env.cwd ++ ds ++ [spf.spfName] ++ q) = some k

/-- Under the name `c` all is as on the server, with what is below. -/
def Finished (env : Env F) (R : RemoteTree) (ds : List Str) (c : Str) (fs : Fs) : Prop :=
  LikeRemote env ds c (entryOf c (R ds)) fs ∧
    ∀ r, entryOf c (R ds) = some r → r.spfType = .directory → Mirrored env R (ds ++ [c]) fs

/-- The directories of `queue` are still to come; all else is finished. -/
structure Partly (env : Env F) (R : RemoteTree) (ds : List Str) (fs₀ : Fs) (queue : List SpFile)
    (w : World F) : Prop where
  inside : StandsIn env ds w
  nodup : (queue.map SpFile.spfName).Nodup
  off : ∀ q, (∀ c, ¬env.cwd ++ ds ++ [c] <+: q) → w.fs.get q = fs₀.get q
  todo : ∀ spf ∈ queue, Queued env ds (R ds) fs₀ spf w.fs
  done : ∀ c, IsName c → c ∉ queue.map SpFile.spfName → Finished env R ds c w.fs

theorem Queued.congr {rs : List SpFile} (h : Queued env ds rs fs₀ spf fs)
    (hsame : ∀ q, fs'.get (env.cwd ++ ds ++ [spf.spfName] ++ q) =
      fs.get (env.cwd ++ ds ++ [spf.spfName] ++ q)) : Queued env ds rs fs₀ spf fs' := by
  have hself := hsame []
  rw [List.append_nil] at hself
  refine ⟨h.remote, ?_, fun q k hq => h.old q k ((hsame q).symm.trans hq)⟩
  have hthere := h.there
  unfold Fs.isDir at hthere ⊢
  rw [hself]
  exact hthere

theorem Finished.congr (h : Finished env R ds c fs)
    (hsame : ∀ q, fs'.get (env.cwd ++ ds ++ [c] ++ q) = fs.get (env.cwd ++ ds ++ [c] ++ q)) :
    Finished env R ds c fs' := by
  have hself := hsame []
  rw [List.append_nil] at hself
  refine ⟨h.1.congr (fun r hr => entryOf_name hr) hself, fun r hr hd => ?_⟩
  refine (h.2 r hr hd).congr fun q _ => ?_
  rw [← List.append_assoc env.cwd]
  exact hsame q

/-- A tree in which all names are finished is mirrored. -/
theorem mirrored_of_finished (havail : Available env ds (R ds))
    (h : ∀ c, IsName c → Finished env R ds c fs) : Mirrored env R ds fs := by
  intro es hes
  cases hes with
  | here =>
    rw [List.append_nil]
    exact fun c hc => (h c hc).1
  | @down _ es r hr hdir hes =>
    intro c hc
    have hentry : entryOf r.spfName (R ds) = some r := find_of_mem havail.nodup hr
    have hbelow := (h r.spfName (havail.names r hr)).2 r hentry hdir es hes c hc
    rwa [List.append_assoc, List.singleton_append] at hbelow

/-- Where another name is, nothing at or below a place changes. -/
theorem off_other {a b : Str} (hab : a ≠ b)
    (hoff : ∀ q, ¬env.cwd ++ ds ++ [a] <+: q → fs'.get q = fs.get q) (q : Path) :
    fs'.get (env.cwd ++ ds ++ [b] ++ q) = fs.get (env.cwd ++ ds ++ [b] ++ q) := by
  refine hoff _ fun hpre => ?_
  rcases List.prefix_or_prefix_of_prefix hpre (List.prefix_append (env.cwd ++ ds ++ [b]) q) with
    hab' | hba'
  · exact not_prefix_name hab hab'
  · exact not_prefix_name hab.symm hba'

/-- What is queued is a remote directory, to be made if it is not there. -/
theorem queued_dir {rs : List SpFile} (hparsed : ∀ r ∈ rs, Parsed r)
    (h : queued (localAt env ds fs₀ c) (entryOf c rs) = some spf) :
    spf.spfName = c ∧ ∃ r, entryOf c rs = some r ∧ r.spfType = .directory ∧
      spf.spfMode = r.spfMode ∧ spf.spfTime = r.spfTime ∧
      spf.spfOpt.dontCreate = fs₀.isDir (env.cwd ++ ds ++ [c]) := by
  unfold queued at h
  cases hr : entryOf c rs with
  | none => rw [hr] at h; cases localAt env ds fs₀ c <;> simp at h
  | some r =>
    have hname := entryOf_name hr
    have hopt : r.spfOpt.dontCreate = false := by
      rw [(hparsed r (find_some hr).1).opt]
    cases hl : localAt env ds fs₀ c with
    | none =>
      simp only [hl, hr, Option.ite_none_right_eq_some, Option.some.injEq] at h
      obtain ⟨hdir, rfl⟩ := h
      refine ⟨hname, r, rfl, hdir, rfl, rfl, ?_⟩
      rw [hopt]
      unfold Fs.isDir
      rw [Option.map_eq_none_iff.mp hl]
    | some l =>
      obtain ⟨-, -, hdirl⟩ := localEntry_dir hl
      simp only [hl, hr, Option.ite_none_right_eq_some] at h
      obtain ⟨hdir, h⟩ := h
      split at h
      · next hld =>
        rw [← Option.some.inj h]
        exact ⟨hname, r, rfl, hdir, rfl, rfl, (hdirl.mp hld).symm⟩
      · next hld =>
        rw [← Option.some.inj h]
        refine ⟨hname, r, rfl, hdir, rfl, rfl, ?_⟩
        rw [hopt, eq_comm, Bool.eq_false_iff, ne_eq, ← hdirl]
        exact hld

/-- A remote directory is queued. -/
theorem queued_of_dir (lo : Option SpFile) (hdir : r.spfType = .directory) :
    ∃ spf, queued lo (some r) = some spf := by
  cases lo with
  | none => exact ⟨r, by simp [queued, hdir]⟩
  | some l =>
    by_cases hl : l.spfType = .directory
    · exact ⟨{ r with spfOpt := { r.spfOpt with dontCreate := true } }, by
        simp [queued, hdir, hl]⟩
    · exact ⟨r, by simp [queued, hdir, hl]⟩

/-- Between the two loops. -/
theorem Halfway.partly {names : List Str} (havail : Available env ds (R ds))
    (hparsed : ∀ r ∈ R ds, Parsed r) (hnodup : names.Nodup)
    (hnames : ∀ r ∈ R ds, r.spfName ∈ names) (h : Halfway env ds (R ds) fs₀ [] w) :
    Partly env R ds fs₀
      (names.filterMap fun m => queued (localAt env ds fs₀ m) (entryOf m (R ds))) w := by
  have hname : ∀ m spf, queued (localAt env ds fs₀ m) (entryOf m (R ds)) = some spf →
      spf.spfName = m := fun m spf hq => (queued_dir hparsed hq).1
  refine ⟨h.inside, ?_, h.off, fun spf hspf => ?_, fun c hc hm => ?_⟩
  · refine List.Nodup.map_on (fun a ha b hb hab => ?_)
      (hnodup.filterMap fun a b spf ha hb => ?_)
    · obtain ⟨m, -, hqa⟩ := List.mem_filterMap.mp ha
      obtain ⟨k, -, hqb⟩ := List.mem_filterMap.mp hb
      obtain rfl := hname m a hqa
      obtain rfl := hname k b hqb
      rw [hab, hqb] at hqa
      exact (Option.some.inj hqa).symm
    · exact (hname a spf ha).symm.trans (hname b spf hb)
  · obtain ⟨m, -, hq⟩ := List.mem_filterMap.mp hspf
    obtain ⟨rfl, r, hr, hdir, hmode, htime, hdont⟩ := queued_dir hparsed hq
    have hisname : IsName spf.spfName := by
      rw [← entryOf_name hr]
      exact havail.names r (find_some hr).1
    have hset := h.done spf.spfName hisname (List.not_mem_nil)
    refine ⟨⟨r, hr, hdir, hmode, htime⟩, ?_, fun q k hq' => ?_⟩
    · rw [hdont]
      split
      · next hd =>
        have hsame := hset.kept r hr hdir hd _ (List.prefix_refl _)
        unfold Fs.isDir at hd ⊢
        rw [hsame]
        exact hd
      · next hd =>
        rw [Bool.not_eq_true] at hd
        exact hset.free r hr hdir hd
    · by_cases hd : fs₀.isDir (env.cwd ++ ds ++ [spf.spfName]) = true
      · rw [← hset.kept r hr hdir hd _ (List.prefix_append ..)]
        exact hq'
      · rw [Bool.not_eq_true] at hd
        rw [Fs.get_absent (hset.free r hr hdir hd)] at hq'
        simp at hq'
  · have hset := h.done c hc (List.not_mem_nil)
    have hnodir : ∀ r, entryOf c (R ds) = some r → r.spfType ≠ .directory := by
      intro r hr hdir
      obtain ⟨spf, hq⟩ := queued_of_dir (localAt env ds fs₀ c) hdir
      rw [← hr] at hq
      refine hm (List.mem_map.mpr ⟨spf, List.mem_filterMap.mpr ⟨c, ?_, hq⟩, hname c spf hq⟩)
      obtain ⟨hmem, rfl⟩ := find_some hr
      exact hnames r hmem
    refine ⟨?_, fun r hr hdir => absurd hdir (hnodir r hr)⟩
    unfold LikeRemote
    cases hr : entryOf c (R ds) with
    | none => exact hset.gone hr
    | some r =>
      simp only
      rw [if_neg (hnodir r hr)]
      exact hset.like r hr (hnodir r hr)

/-- What a run in the directory `ds` does: it makes the tree below it that of the server, and leaves
the rest as it was. -/
structure Mirrors (env : Env F) (R : RemoteTree) (ds : List Str) (w w' : World F) : Prop where
  inside : StandsIn env ds w'
  off : ∀ q, (∀ c, ¬env.cwd ++ ds ++ [c] <+: q) → w'.fs.get q = w.fs.get q
  mirrored : Mirrored env R ds w'.fs

/-- What a run in `ds` needs of the local tree: the paths fit, the directories are no deeper than
`rm_rf` goes, and no name for a temporary file is taken. -/
structure Roomy (env : Env F) (R : RemoteTree) (ds : List Str) (fs : Fs) : Prop where
  room : PathsRoom env fs ds
  deep : LessDeep env fs ds (env.stack + 1)
  temps : NoTemps env R ds fs

/-- A directory of the queue is mirrored. -/
theorem Partly.step {queue : List SpFile} {sync : HeapList SpFile → HeapList SpFile → Prog F PUnit}
    (hcalm : NothingFails env) (hpat : NoPatterns env) (hobtains : ObtainsTree env R ds (n + 1))
    (hroomy : Roomy env R ds fs₀)
    (hsync : ∀ r ∈ R ds, r.spfType = .directory → ∀ w₁ : World F,
      StandsIn env (ds ++ [r.spfName]) w₁ → Roomy env R (ds ++ [r.spfName]) w₁.fs →
      wp (sync (heapOf (localDir env (ds ++ [r.spfName]) w₁.fs))
        (heapOf (R (ds ++ [r.spfName])))) w₁
        (fun _ => Mirrors env R (ds ++ [r.spfName]) w₁) E)
    (h : Partly env R ds fs₀ (spf :: queue) w) :
    wp (dirStep env sync spf) w (fun _ => Partly env R ds fs₀ queue) E := by
  have hspf := h.todo spf (List.mem_cons_self ..)
  obtain ⟨r, hr, hdir, hmode, htime⟩ := hspf.remote
  obtain ⟨hmem, hrname⟩ := find_some hr
  have hname : IsName spf.spfName := hrname ▸ hobtains.here.names r hmem
  have hcan : CanEnter env.pathMax (dirStr ds) spf.spfName := by
    have hroom := hobtains.here.room r hmem
    unfold RoomFor at hroom
    rw [hdir, show r.spfName = spf.spfName from hrname] at hroom
    exact hroom
  -- all that is below the directory has been there at the start
  have hold : ∀ w₁ : World F, Came env ds spf w w₁ → ∀ q k, q ≠ [] →
      w₁.fs.get (env.cwd ++ (ds ++ [spf.spfName]) ++ q) = some k →
      fs₀.get (env.cwd ++ (ds ++ [spf.spfName]) ++ q) = some k := by
    intro w₁ h₁ q k hq hget
    rw [← List.append_assoc env.cwd] at hget ⊢
    refine hspf.old q k ?_
    rwa [h₁.off _ fun heq => hq (List.append_right_eq_self.mp heq)] at hget
  obtain ⟨hnew, hnodup⟩ := List.nodup_cons.mp h.nodup
  refine dirStep_calm (Q := fun w₂ => ∃ w₁, Came env ds spf w w₁ ∧
    Mirrors env R (ds ++ [spf.spfName]) w₁ w₂) hcalm hpat h.inside hname hcan hspf.there ?_
    (hrname ▸ hobtains.down hmem hdir).here (fun w₁ h₁ => ?_) ?_
  · intro q hq
    obtain ⟨k, hk⟩ := Option.ne_none_iff_exists'.mp hq
    rw [← List.append_assoc env.cwd] at hk
    refine hroomy.room.below [spf.spfName] q ?_
    rw [← List.append_assoc env.cwd, hspf.old q k hk]
    simp
  · have hsub := hsync r hmem hdir w₁
    rw [show r.spfName = spf.spfName from hrname] at hsub
    refine wp_mono (hsub h₁.inside ⟨fun q hq => ?_, fun q hq => ?_, ?_⟩) (fun _ w₂ h₂ => ?_)
      fun _ _ h => h
    · by_cases hself : q = []
      · have := hcan.2
        have : 0 < spf.spfName.length := List.length_pos_iff.mpr hname.ne_nil
        rw [hself, List.append_nil, dirStr_concat, List.length_append, List.length_append,
          List.length_singleton]
        omega
      · obtain ⟨k, hk⟩ := Option.ne_none_iff_exists'.mp hq
        refine hroomy.room.below [spf.spfName] q ?_
        rw [hold w₁ h₁ q k hself hk]
        simp
    · by_cases hself : q = []
      · rw [hself]
        exact Nat.succ_pos _
      · obtain ⟨k, hk, hd⟩ := Fs.isDir_iff.mp hq
        have hdeep := hroomy.deep (spf.spfName :: q) (Fs.isDir_iff.mpr ⟨k, ?_, hd⟩)
        · rw [List.length_cons] at hdeep
          omega
        · have hk' := hold w₁ h₁ q k hself hk
          simpa using hk'
    · have htemps : _ → NoTemps env R (ds ++ [r.spfName]) w₁.fs := hroomy.temps.down hmem hdir
      rw [show r.spfName = spf.spfName from hrname] at htemps
      exact htemps (hold w₁ h₁)
    · exact ⟨h₂.inside, w₁, h₁, h₂⟩
  · rintro w₂ w' ⟨w₁, h₁, h₂⟩ hwent
    have hoff : ∀ q, ¬env.cwd ++ ds ++ [spf.spfName] <+: q → w'.fs.get q = w.fs.get q := by
      intro q hq
      have hself : q ≠ env.cwd ++ ds ++ [spf.spfName] := fun heq => hq (heq ▸ List.prefix_refl _)
      rw [hwent.get, if_neg hself, h₂.off q fun d hd => hq ?_, h₁.off q hself]
      rw [← List.append_assoc env.cwd] at hd
      exact (List.prefix_append _ [d]).trans hd
    refine ⟨hwent.inside, hnodup, fun q hq => ?_, fun spf' hspf' => ?_, fun c hc hm => ?_⟩
    · rw [hoff q (hq _)]
      exact h.off q hq
    · have hne : spf.spfName ≠ spf'.spfName := fun heq =>
        hnew (heq ▸ List.mem_map_of_mem hspf')
      exact (h.todo spf' (List.mem_cons_of_mem _ hspf')).congr (off_other hne hoff)
    · by_cases hcs : c = spf.spfName
      · subst hcs
        refine ⟨?_, fun _ _ _ => h₂.mirrored.congr fun q hq => ?_⟩
        · unfold LikeRemote
          rw [hr]
          simp only
          rw [if_pos hdir, hwent.get, if_pos rfl, hmode]
          exact ⟨_, rfl⟩
        · rw [hwent.get, if_neg]
          intro heq
          rw [← List.append_assoc env.cwd] at heq
          exact hq (List.append_right_eq_self.mp heq)
      · have hm' : c ∉ (spf :: queue).map SpFile.spfName := by
          rw [List.map_cons, List.mem_cons, not_or]
          exact ⟨hcs, hm⟩
        exact (h.done c hc hm').congr (off_other (Ne.symm hcs) hoff)

/-! ## The whole run -/

/-- **A run in a directory** mirrors it, by induction on the depth of the remote tree. -/
theorem spSyncDir_mirrors (hcalm : NothingFails env) (hpat : NoPatterns env)
    (hdel : env.spDoDelete = true) (hmax : env.spMaxDelete = 0) :
    ∀ (stack : Nat) (ds : List Str) (w : World F), StandsIn env ds w → Roomy env R ds w.fs →
      ObtainsTree env R ds stack →
      wp (spSyncDir env stack (some (heapOf (localDir env ds w.fs))) (some (heapOf (R ds)))) w
        (fun _ => Mirrors env R ds w) E := by
  intro stack
  induction stack with
  | zero =>
    intro ds w _ _ hobtains
    exact absurd (hobtains [] (.here ds)).2 (Nat.not_lt_zero _)
  | succ stack ih =>
    intro ds w hin hroomy hobtains
    have hhere := hobtains.here
    have hparsed := hhere.parsed w.ftp hpat
    have htemps : TempsFree env ds (R ds) w.fs := by
      have htemps := hroomy.temps [] (.here ds)
      rwa [List.append_nil] at htemps
    obtain ⟨names, queue, hnodup, hmem, rfl, hrun⟩ := spSyncDir_names env stack
      (localDir_nodup env ds w.fs) hhere.nodup (fun r hr => (hparsed r hr).known) fun e he => by
        rcases List.mem_append.mp he with he | he
        · obtain ⟨k, -, hek⟩ := localAt_some (mem_localDir.mp he)
          rw [hek]
          exact localEntry_linked _ _ k
        · exact (hparsed e he).linked
    rw [hrun, wp_bind, wp_modify]
    -- the first loop, name by name
    have hcount : StandsIn env ds { w with spDirsTraversed := w.spDirsTraversed + 1 } :=
      ⟨hin.curDir, hin.names, hin.dir⟩
    refine wp_seq (syncNames_settle hcalm hmax hdel hcount hroomy.room hroomy.deep
      hhere.toAvailable hparsed htemps hnodup hmem) fun _ w₁ h₁ => ?_
    -- the second, directory by directory
    have hpartly := h₁.partly hhere.toAvailable hparsed hnodup
      fun r hr => (hmem _).mpr (Or.inr (List.mem_map_of_mem hr))
    simp only [entryOf_localDir]
    refine wp_mono (wp_forM (I := fun queue => Partly env R ds w.fs queue) (fun spf rest w₂ h₂ =>
      h₂.step hcalm hpat hobtains hroomy fun r hr hdir w₃ hin₃ hroomy₃ =>
        ih _ w₃ hin₃ hroomy₃ (hobtains.down hr hdir)) _ w₁ hpartly) (fun _ w' h' => ?_)
        fun _ _ h => h
    exact ⟨h'.inside, h'.off,
      mirrored_of_finished hhere.toAvailable fun c hc => h'.done c hc (by simp)⟩

/-- Below the directory `ds` the tree of the server is in place, and the rest is as it was. The
times of directories are left out of both. -/
structure Converged (env : Env F) (R : RemoteTree) (ds : List Str) (w w' : World F) : Prop where
  inside : StandsIn env ds w'
  off : ∀ q, (∀ c, ¬env.cwd ++ ds ++ [c] <+: q) → SameNode (w'.fs.get q) (w.fs.get q)
  mirrored : Mirrored env R ds w'.fs

/-- What `main` does with the listing of the remote directory: the local one is read, and
`sp_sync_dir` goes through the two. -/
def syncWith (env : Env F) (rs : List SpFile) : Prog F PUnit := do
  let l ← buildLocalDir env
  spSyncDir env env.stack l (some (heapOf rs))

/-- With the local directory that is read, too. -/
theorem syncWith_mirrors (hcalm : NothingFails env) (hpat : NoPatterns env)
    (hdel : env.spDoDelete = true) (hmax : env.spMaxDelete = 0) (hin : StandsIn env ds w)
    (hroomy : Roomy env R ds w.fs) (hobtains : ObtainsTree env R ds env.stack) :
    wp (syncWith env (R ds)) w (fun _ => Mirrors env R ds w) E := by
  unfold syncWith
  refine wp_seq (buildLocalDir_calm hcalm hpat hin hroomy.room) ?_
  rintro _ w₁ ⟨rfl, h₁⟩
  rw [← h₁.fs]
  refine wp_mono (spSyncDir_mirrors hcalm hpat hdel hmax env.stack ds w₁ (h₁.stands hin)
    (h₁.fs ▸ hroomy) hobtains) (fun _ w' h' => ?_) fun _ _ h => h
  exact ⟨h'.inside, fun q hq => (h'.off q hq).trans (congrArg (·.get q) h₁.fs), h'.mirrored⟩

def rowD : Str := "drwxr-xr-x 2 u g 0 Jan 1 2020 d".toList
def rowA : Str := "-rw-r--r-- 1 u g 2 Jan 1 2020 a".toList
def rowsD : Str := listingText none [(rowD, false)]
def rowsA : Str := listingText none [(rowA, false)]

def twoDirsFtp : FtpOps Unit :=
  { deadFtp with
    ftpGet := fun _ _ _ => (⟨['y', 'y'], true, 0⟩, ())
    ftpDir := fun _ dir => ((some (if dir = ['.', '/'] then rowsD else rowsA), 0), ()) }

def entryD : SpFile :=
  { (default : SpFile) with
    spfTime := 120, spfTgranul := SECSPERDAY, spfType := .directory, spfMode := 0o755#12
    spfName := ['d'] }
def entryA : SpFile :=
  { (default : SpFile) with
    spfTime := 120, spfTgranul := SECSPERDAY, spfSize := 2, spfMode := 0o644#12
    spfName := ['a'] }

def twoDirs : RemoteTree := fun ds => if ds = [] then [entryD] else [entryA]

theorem reach_twoDirs {es : List Str} (h : Reach twoDirs [] es) : es = [] ∨ es = [['d']] := by
  cases h with
  | here => exact Or.inl rfl
  | down hr hdir h =>
    obtain rfl := List.mem_singleton.mp hr
    refine Or.inr ?_
    cases h with
    | here => rfl
    | down hr' hdir' _ =>
      obtain rfl := List.mem_singleton.mp hr'
      simp [entryA, default] at hdir'

theorem listsAs_rowsD : ListsAs (calmEnv twoDirsFtp) [entryD] rowsD := by
  refine ⟨none, [(rowD, false)], rfl, nofun, by simp, fun row hrow => ?_, rfl⟩
  obtain rfl := List.mem_singleton.mp hrow
  exact ⟨by decide, by decide, by decide, by decide, _, fun _ => rfl⟩

theorem listsAs_rowsA : ListsAs (calmEnv twoDirsFtp) [entryA] rowsA := by
  refine ⟨none, [(rowA, false)], rfl, nofun, by simp, fun row hrow => ?_, rfl⟩
  obtain rfl := List.mem_singleton.mp hrow
  exact ⟨by decide, by decide, by decide, by decide, _, fun _ => rfl⟩

theorem servesTree_twoDirs : ServesTree (calmEnv twoDirsFtp) twoDirs [] 8 := by
  intro es hes
  rcases reach_twoDirs hes with rfl | rfl
  · refine ⟨⟨⟨by decide, by decide, fun r hr ht => ?_, by decide, fun r hr t ht => ?_⟩,
      fun _ => ⟨rowsD, rfl, listsAs_rowsD⟩⟩, by decide⟩
    · rw [List.mem_singleton.mp hr] at ht
      simp [entryD] at ht
    · rw [List.mem_singleton.mp hr] at ht
      simp [entryD, default] at ht
  · refine ⟨⟨⟨by decide, by decide, fun r hr _ => ?_, by decide, fun r hr t ht => ?_⟩,
      fun _ => ⟨rowsA, rfl, listsAs_rowsA⟩⟩, by decide⟩
    · rw [List.mem_singleton.mp hr]
      exact ⟨['y', 'y'], ⟨0, fun _ => rfl⟩, rfl⟩
    · rw [List.mem_singleton.mp hr] at ht
      simp [entryA, default] at ht

theorem mem_keys_of_get {fs : Fs} {q : Path} (h : fs.get q ≠ none) : q ∈ fs.nodes.keys := by
  rw [← AList.mem_keys, ← AList.lookup_isSome, Option.isSome_iff_ne_none]
  exact h

theorem roomy_rootWithA : Roomy (calmEnv twoDirsFtp) twoDirs [] rootWithA.fs := by
  refine ⟨fun q hq => ?_, fun q hq => ?_, fun es hes r hr ht k => ?_⟩
  · have hkeys : ∀ q ∈ rootWithA.fs.nodes.keys, (dirStr q).length < 255 := by decide
    exact hkeys q (mem_keys_of_get hq)
  · have hkeys : ∀ q ∈ rootWithA.fs.nodes.keys, q.length < 9 := by decide
    obtain ⟨n, hn, -⟩ := Fs.isDir_iff.mp hq
    exact hkeys q (mem_keys_of_get (by
      show rootWithA.fs.get ([] ++ [] ++ q) ≠ none
      rw [show rootWithA.fs.get ([] ++ [] ++ q) = some n from hn]
      simp))
  · rcases reach_twoDirs hes with rfl | rfl
    · rw [List.mem_singleton.mp hr] at ht
      simp [entryD] at ht
    · rw [List.mem_singleton.mp hr]
      refine ⟨?_, ?_⟩
      · show rootWithA.fs.get [['d'], ['.', 'i', 'n', '.', 'a', '.', 'a', 'b', 'c']] = none
        decide
      · show ['.', 'i', 'n', '.', 'a', '.', 'a', 'b', 'c'] ∉ [['a']]
        decide

section

-- a run on fixed inputs is not to be unfolded
attribute [local irreducible] wp

end

end Spegla
