import Spegla.CalmRemoval
import Spegla.RemoteDir
import Spegla.Updates

/-!
# Listings where nothing fails

Without patterns, and where no call fails, `build_local_dir` shows a directory as it is, and the
listing of the server is got.

- `localDir`: the entries of a directory; `entryOf_localDir`: the entry of a name.
- `Offers`: what the server has in a directory, by the rows of its listing; `Obtains`: by what
  `build_remote_dir` makes of it.
- `buildLocalDir_calm`, `openListing_calm`: the two heaps of a directory that is entered.
-/

namespace Spegla

open CString PosixFs ExitState SortedJoin

variable {F : Type} {env : Env F} {ds : List Str} {c : Str} {w w' : World F}
variable {E : Exit → World F → Prop}

/-- The configuration has no patterns. -/
structure NoPatterns (env : Env F) : Prop where
  skip : env.skip = []
  treatasdir : env.treatasdir = []

/-- The run has looked, and changed nothing but the connection and its counters. -/
structure Looked (w w' : World F) : Prop where
  fs : w'.fs = w.fs
  curDir : w'.curDir = w.curDir
  trace : w'.trace = w.trace

theorem Looked.refl (w : World F) : Looked w w := ⟨rfl, rfl, rfl⟩

theorem Looked.trans {w'' : World F} (h : Looked w w') (h' : Looked w' w'') : Looked w w'' :=
  ⟨h'.fs.trans h.fs, h'.curDir.trans h.curDir, h'.trace.trans h.trace⟩

theorem Looked.stands (h : Looked w w') (hin : StandsIn env ds w) : StandsIn env ds w' :=
  ⟨h.curDir.trans hin.curDir, hin.names, by rw [h.fs]; exact hin.dir⟩

/-! ## The local directory -/

/-- The entry of the name `c` in the directory `ds` of the tree `fs`, if there is one. -/
def localAt (env : Env F) (ds : List Str) (fs : Fs) (c : Str) : Option SpFile :=
  (fs.get (env.cwd ++ ds ++ [c])).map (localEntry env.pathMax c)

/-- The entries of the directory `ds` of the tree `fs`. -/
def localDir (env : Env F) (ds : List Str) (fs : Fs) : List SpFile :=
  (fs.names (env.cwd ++ ds)).filterMap (localAt env ds fs)

theorem localAt_some {fs : Fs} {e : SpFile} (h : localAt env ds fs c = some e) :
    ∃ n, fs.get (env.cwd ++ ds ++ [c]) = some n ∧ e = localEntry env.pathMax c n := by
  obtain ⟨n, hn, rfl⟩ := Option.map_eq_some_iff.mp h
  exact ⟨n, hn, rfl⟩

theorem localAt_of_get {fs : Fs} {n : Node} (h : fs.get (env.cwd ++ ds ++ [c]) = some n) :
    localAt env ds fs c = some (localEntry env.pathMax c n) := by
  unfold localAt
  rw [h]
  rfl

theorem mem_localDir {fs : Fs} {e : SpFile} :
    e ∈ localDir env ds fs ↔ localAt env ds fs e.spfName = some e := by
  unfold localDir
  rw [List.mem_filterMap]
  constructor
  · rintro ⟨c, -, he⟩
    obtain ⟨n, hn, rfl⟩ := localAt_some he
    exact he
  · intro he
    obtain ⟨n, hn, -⟩ := localAt_some he
    exact ⟨e.spfName, Fs.mem_names.mpr (by rw [hn]; simp), he⟩

/-- The names of the entries are those in the directory. -/
theorem localDir_names (env : Env F) (ds : List Str) (fs : Fs) :
    (localDir env ds fs).map SpFile.spfName = fs.names (env.cwd ++ ds) := by
  unfold localDir
  rw [List.map_filterMap]
  refine (List.filterMap_congr fun c hc => ?_).trans List.filterMap_some
  obtain ⟨n, hn⟩ := Option.ne_none_iff_exists'.mp (Fs.mem_names.mp hc)
  rw [localAt_of_get hn]
  rfl

theorem localDir_nodup (env : Env F) (ds : List Str) (fs : Fs) :
    ((localDir env ds fs).map SpFile.spfName).Nodup := by
  rw [localDir_names]
  exact Fs.names_nodup ..

/-- The entry that has a name. -/
theorem entryOf_localDir (env : Env F) (ds : List Str) (fs : Fs) (c : Str) :
    entryOf c (localDir env ds fs) = localAt env ds fs c := by
  cases he : localAt env ds fs c with
  | none =>
    by_contra hsome
    obtain ⟨e, hfind⟩ := Option.ne_none_iff_exists'.mp hsome
    obtain ⟨hmem, rfl⟩ := find_some hfind
    rw [mem_localDir.mp hmem] at he
    simp at he
  | some e =>
    obtain ⟨n, -, rfl⟩ := localAt_some he
    have hmem : localEntry env.pathMax c n ∈ localDir env ds fs := mem_localDir.mpr he
    exact find_of_mem (localDir_nodup env ds fs) hmem

/-- `spf_stat_init` of a name whose path fits. -/
theorem spfStatInit_calm {n : Node} (hcalm : NothingFails env) (h : StandsIn env ds w)
    (hc : IsName c) (hn : w.fs.get (env.cwd ++ ds ++ [c]) = some n)
    (hfits : FitsAt env.pathMax ds c) :
    wp (spfStatInit env c) w
      (fun o w' => o = some (localEntry env.pathMax c n) ∧ Looked w w') E := by
  have hfull : fullName env.pathMax w.curDir c = some (dirStr ds ++ c) := by
    rw [h.curDir]
    exact fullName_of_fits hc.noslash hfits
  have hp := h.resolve hc
  unfold spfStatInit
  rw [wp_bind, wp_get, wp_bind, wp_look, hfull,
    lookAt_of_ok (hcalm.fault _ _) (lstat_total hp hn)]
  simp only
  rw [wp_ite]
  constructor
  · intro htype
    obtain ⟨t, ht⟩ : ∃ t, n.kind = .symlink t := by
      cases hk : n.kind with
      | symlink t => exact ⟨t, rfl⟩
      | file d => simp [statEntry, hk, ftypeOf] at htype
      | dir => simp [statEntry, hk, ftypeOf] at htype
      | special => simp [statEntry, hk, ftypeOf] at htype
    have hread : readlink env.cwd env.pathMax (dirStr ds ++ c) w.ticked.fs =
        .ok (t.take env.pathMax) := by
      unfold readlink
      rw [ticked_fs, nodeAt_ok.mpr ⟨hp, hn⟩]
      simp [ht]
    rw [wp_bind, wp_look, lookAt_of_ok (hcalm.fault _ _) hread]
    refine ⟨?_, rfl, rfl, rfl⟩
    simp [localEntry, ht]
  · intro htype
    refine ⟨?_, rfl, rfl, rfl⟩
    cases hk : n.kind with
    | symlink t => simp [statEntry, hk, ftypeOf] at htype
    | file d => simp [localEntry, hk, statEntry]
    | dir => simp [localEntry, hk, statEntry]
    | special => simp [localEntry, hk, statEntry]

/-- Without patterns every entry stays as it is. -/
theorem filterEntry_noPatterns (hpat : NoPatterns env) (curDir : Str) (spf : SpFile) :
    filterEntry env curDir spf = .ok (some spf) := by
  unfold filterEntry
  rw [hpat.skip, hpat.treatasdir]
  rfl

/-- The directory that a run is in. -/
theorem StandsIn.resolve_curDir (h : StandsIn env ds w) :
    PosixFs.resolve w.fs env.cwd true (dirStr ds) = .ok (env.cwd ++ ds) := by
  have hslash : ∀ d ∈ ds, '/' ∉ d := fun d hd => (h.names d hd).noslash
  have hcomp : components (dirStr ds) = ['.'] :: ds ++ [[]] := by
    have happ := components_dirStr ds [] hslash (by simp)
    rwa [List.append_nil] at happ
  have hpre : ∀ es, es ≠ [] → es <+: ds → w.fs.isDir (env.cwd ++ es) = true := by
    rintro es - ⟨fs, rfl⟩
    have hdir := h.dir
    rw [← List.append_assoc] at hdir
    exact Fs.isDir_prefix hdir
  have hwalk : walk w.fs true symloopMax env.cwd (ds ++ [[]]) = .ok (env.cwd ++ ds) := by
    show walkWith _ w.fs true env.cwd (ds ++ [[]]) = _
    rw [walkWith_dirs ds env.cwd [[]] h.names hpre]
    rfl
  unfold PosixFs.resolve
  rw [if_neg (by simp [dirStr]), hcomp]
  exact hwalk

/-- The entries of `build_local_dir` are all there are. -/
theorem buildLocalDir_calm (hcalm : NothingFails env) (hpat : NoPatterns env)
    (h : StandsIn env ds w) (hroom : PathsRoom env w.fs ds) :
    wp (buildLocalDir env) w
      (fun l w' => l = some (heapOf (localDir env ds w.fs)) ∧ Looked w w') E := by
  -- the loop over the names, by induction on what is left of them
  have hadd : ∀ (names : List Str) (headp : HeapList SpFile) (w' : World F), Looked w w' →
      (∀ c ∈ names, c ∈ w.fs.names (env.cwd ++ ds)) →
      wp (names.foldlM (addName env) headp) w' (fun headp' w'' =>
        headp' = heapPushAll headp (names.filterMap (localAt env ds w.fs)) ∧ Looked w w'') E := by
    intro names
    induction names with
    | nil => exact fun headp w' hw' _ => ⟨rfl, hw'⟩
    | cons c names ih =>
      intro headp w' hw' hnames
      obtain ⟨n, hn⟩ := Option.ne_none_iff_exists'.mp
        (Fs.mem_names.mp (hnames c (List.mem_cons_self ..)))
      have hc := Fs.isName_of_mem (hnames c (List.mem_cons_self ..))
      have hfits : FitsAt env.pathMax ds c := by
        have hlen := hroom [c] (by rw [hn]; simp)
        rw [dirStr_concat, List.length_append, List.length_append, List.length_singleton] at hlen
        unfold FitsAt
        omega
      have hn' : w'.fs.get (env.cwd ++ ds ++ [c]) = some n := by rw [hw'.fs, hn]
      -- one name: it is shown by `lstat`, and no pattern skips it
      have hpush : wp (addName env headp c) w' (fun headp' w'' =>
          headp' = heapPush headp (localEntry env.pathMax c n) ∧ Looked w w'') E := by
        unfold addName
        refine wp_seq (spfStatInit_calm hcalm (hw'.stands h) hc hn' hfits) ?_
        rintro _ w₁ ⟨rfl, h₁⟩
        simp only
        rw [wp_bind, wp_get, filterEntry_noPatterns hpat]
        exact ⟨rfl, hw'.trans h₁⟩
      rw [List.foldlM_cons]
      refine wp_seq hpush ?_
      rintro _ w₁ ⟨rfl, h₁⟩
      refine wp_mono (ih _ w₁ h₁ fun d hd => hnames d (List.mem_cons_of_mem _ hd)) ?_
        fun _ _ h => h
      rintro _ w₂ ⟨rfl, h₂⟩
      refine ⟨?_, h₂⟩
      rw [List.filterMap_cons, localAt_of_get hn]
      rfl
  obtain ⟨n, hn, hk⟩ := Fs.isDir_iff.mp h.dir
  have hread : readdir env.cwd w.curDir w.fs = .ok (w.fs.names (env.cwd ++ ds)) := by
    unfold readdir
    rw [h.curDir, nodeAt_ok.mpr ⟨h.resolve_curDir, hn⟩]
    simp [hk]
  unfold buildLocalDir
  rw [wp_bind, wp_get, wp_bind, wp_look, lookAt_of_ok (hcalm.fault _ _) hread]
  simp only
  rw [wp_map]
  refine wp_mono (hadd _ (heapInit spfPushComp) w.ticked ⟨rfl, rfl, rfl⟩ fun _ h => h) ?_
    fun _ _ h => h
  rintro _ w' ⟨rfl, h'⟩
  exact ⟨rfl, h'⟩

/-! ## The remote directory -/

theorem parseYear_granul {renv : RowEnv} {mon mday : Int} {tok : Str} {save : Option Str}
    {tm : Tm} {tgranul : Int} {save' : Option Str}
    (h : parseYear renv mon mday tok save = some (tm, tgranul, save')) : 0 ≤ tgranul := by
  unfold parseYear at h
  split at h
  · simp only [Option.some.injEq, Prod.mk.injEq] at h
    rw [← h.2.1]
    decide
  · simp only [Option.some.injEq, Prod.mk.injEq] at h
    rw [← h.2.1]
    decide
  · split at h
    · simp at h
    · split at h
      · simp only [Option.some.injEq, Prod.mk.injEq] at h
        exact le_of_eq h.2.1
      · simp only [Option.some.injEq, Prod.mk.injEq] at h
        exact le_of_eq h.2.1
  · simp at h

/-- An entry that `parse_row` makes has no options, and a granularity. -/
theorem parseRow_defaults {renv : RowEnv} {row leftover : Str} {spf : SpFile}
    (h : parseRow renv row leftover = some spf) : spf.spfOpt = {} ∧ 0 ≤ spf.spfTgranul := by
  rw [parseRow_eq] at h
  obtain ⟨⟨f, save⟩, hf, h⟩ := Option.bind_eq_some_iff.mp h
  obtain ⟨tok, -, h⟩ := Option.bind_eq_some_iff.mp h
  obtain ⟨⟨name, link⟩, -, rfl⟩ := Option.map_eq_some_iff.mp h
  refine ⟨rfl, ?_⟩
  unfold rowFields at hf
  simp only [Option.bind_eq_bind, Option.bind_eq_some_iff, Option.pure_def, Option.some.injEq,
    Prod.exists] at hf
  obtain ⟨tok₀, save₀, -, ftype, mode, -, hf⟩ := hf
  obtain ⟨size, tok₁, save₁, -, mon, -, hf⟩ := hf
  obtain ⟨tok₂, save₂, -, mday, rest, -, hf⟩ := hf
  obtain ⟨tok₃, save₃, -, tm, tgranul, save₄, hyear, hf⟩ := hf
  obtain ⟨rfl, rfl⟩ := Prod.mk.inj hf
  exact parseYear_granul hyear

/-- The paths that are needed for the entry `r` in the directory `ds` fit into `pathMax` bytes. -/
def RoomFor (pathMax : Nat) (ds : List Str) (r : SpFile) : Prop :=
  match r.spfType with
  | .plainfile => TempFits pathMax ds r.spfName
  | .directory => CanEnter pathMax (dirStr ds) r.spfName
  | _ => FitsAt pathMax ds r.spfName

instance (pathMax : Nat) (ds : List Str) (r : SpFile) : Decidable (RoomFor pathMax ds r) := by
  unfold RoomFor
  cases r.spfType <;> infer_instance

/-- The text `listing` has a row for each entry of `rs`, in this order. It may have rows for the
directory itself and the one above it, and a line that counts blocks comes first; some row there is.
-/
def ListsAs (env : Env F) (rs : List SpFile) (listing : Str) : Prop :=
  ∃ total rows, listing = listingText total rows ∧ TotalFits env total ∧ rows ≠ [] ∧
    (∀ row ∈ rows, RowLine env row.1) ∧
    (parsedEntries env (rows.map Prod.fst)).filter (NotDots ·) = rs

theorem treated_noPatterns (hpat : NoPatterns env) (curDir : Str) (spf : SpFile) :
    treated env curDir spf = spf := by
  unfold treated
  rw [hpat.treatasdir]
  exact if_neg (by simp [spfIsATreatasdir])

theorem listedEntries_noPatterns (hpat : NoPatterns env) (curDir : Str) (rows : List Str) :
    listedEntries env curDir rows = (parsedEntries env rows).filter (NotDots ·) := by
  have htreated : treated env curDir = id := funext (treated_noPatterns hpat curDir)
  unfold listedEntries
  rw [htreated, List.map_id, hpat.skip]
  exact List.filter_eq_self.mpr fun spf _ => rfl

/-- Without patterns, `build_remote_dir` gives the entries of the listing. -/
theorem ListsAs.heap {rs : List SpFile} {listing : Str} (hpat : NoPatterns env)
    (h : ListsAs env rs listing) (curDir : Str) (tick : Nat) :
    buildRemoteDir env curDir tick (some listing) = .ok (some (heapOf rs)) := by
  obtain ⟨total, rows, rfl, ht, hne, hrows, rfl⟩ := h
  have hanswer : AllAnswer env curDir (rows.map Prod.fst) := fun spf _ _ => by
    refine ⟨?_, ?_⟩
    · rw [hpat.treatasdir]
      simp [spfIsATreatasdir]
    · rw [hpat.skip]
      exact Option.some_ne_none _
  rw [buildRemoteDir_heap tick ht hrows hne hanswer, listedEntries_noPatterns hpat]

/-- The entries `rs` of the directory `ds` have proper names and no name twice, and their files are
delivered; all paths fit, and the targets of the links. -/
structure Available (env : Env F) (ds : List Str) (rs : List SpFile) : Prop where
  nodup : (rs.map SpFile.spfName).Nodup
  names : ∀ r ∈ rs, IsName r.spfName
  serves : ∀ r ∈ rs, r.spfType = .plainfile → ∃ data, Delivers env ds r data
  room : ∀ r ∈ rs, RoomFor env.pathMax ds r
  targets : ∀ r ∈ rs, ∀ t, r.spfSymlink = some t → t.length ≤ env.pathMax

/-- What the server has in the directory `ds`: it lists the entries `rs`, row by row. -/
structure Offers (env : Env F) (ds : List Str) (rs : List SpFile) : Prop extends
    Available env ds rs where
  listed : ∀ f : F, ∃ listing, (env.ftp.ftpDir f (dirStr ds)).1.1 = some listing ∧
    ListsAs env rs listing

/-- In the directory `ds`, `build_remote_dir` makes the entries `rs` of the text. -/
def BuildsAs (env : Env F) (ds : List Str) (rs : List SpFile) (listing : Str) : Prop :=
  ∀ tick, buildRemoteDir env (dirStr ds) tick (some listing) = .ok (some (heapOf rs))

/-- What is got in the directory `ds`: of whatever the server lists there, the entries `rs`. -/
structure Obtains (env : Env F) (ds : List Str) (rs : List SpFile) : Prop extends
    Available env ds rs where
  listed : ∀ f : F, ∃ listing, (env.ftp.ftpDir f (dirStr ds)).1.1 = some listing ∧
    BuildsAs env ds rs listing

variable {rs : List SpFile}

theorem ListsAs.buildsAs {listing : Str} (hpat : NoPatterns env) (h : ListsAs env rs listing)
    (ds : List Str) : BuildsAs env ds rs listing := h.heap hpat (dirStr ds)

/-- Without patterns, the entries of the rows are what is made of the listing. -/
theorem Offers.obtains (hpat : NoPatterns env) (h : Offers env ds rs) : Obtains env ds rs := by
  refine ⟨h.toAvailable, fun f => ?_⟩
  obtain ⟨listing, hlist, hlists⟩ := h.listed f
  exact ⟨listing, hlist, hlists.buildsAs hpat ds⟩

/-- What is known of an entry that comes from a listing. -/
structure Parsed (r : SpFile) : Prop where
  known : r.spfType ≠ .unknown
  linked : r.Linked
  opt : r.spfOpt = {}
  granul : 0 ≤ r.spfTgranul

theorem Obtains.parsed (f : F) (hpat : NoPatterns env) (h : Obtains env ds rs) :
    ∀ r ∈ rs, Parsed r := by
  intro r hr
  obtain ⟨listing, -, hbuild⟩ := h.listed f
  obtain ⟨listing', -, heap⟩ := buildRemoteDir_some (hbuild 0)
  -- the two lists make one heap, so they have the same entries
  have hmem : r ∈ rowEntries env (dirStr ds) 0 (listingRows env.pathMax listing') := by
    have helems := congrArg HeapList.elems heap
    rw [heapOf_elems, heapOf_elems] at helems
    rw [← Multiset.mem_coe, ← helems]
    exact hr
  obtain ⟨row, -, hrow⟩ := mem_rowEntries.mp hmem
  obtain ⟨spf₀, hparse, -, -, hfilter⟩ := rowEntry_some hrow
  rw [filterEntry_noPatterns hpat] at hfilter
  obtain rfl := Option.some.inj (Except.ok.inj hfilter)
  obtain ⟨hopt, hgranul⟩ := parseRow_defaults hparse
  obtain ⟨hknown, hlinked⟩ := rowEntry_known hrow
  exact ⟨hknown, hlinked, hopt, hgranul⟩

theorem openListing_calm {listing : Str} (hcalm : NothingFails env) (hin : StandsIn env ds w)
    (h : BuildsAs env ds rs listing) :
    wp (openListing env (some listing)) w (fun r w' => r = some (heapOf rs) ∧ Looked w w') E := by
  have hopen : lookAt env .fopenList (some []) (fun _ _ => .ok ()) w = .ok () :=
    lookAt_of_ok (hcalm.fault _ _) rfl
  unfold openListing
  simp only
  rw [wp_bind, wp_look, hopen]
  simp only
  rw [wp_bind, wp_get, show w.ticked.curDir = dirStr ds from hin.curDir, h w.ticked.tick]
  exact ⟨rfl, rfl, rfl, rfl⟩

theorem listDir_calm (fuel : Nat) (h : Obtains env ds rs) (hin : StandsIn env ds w) :
    wp (listDir env (fuel + 1)) w
      (fun t w' => (∃ listing, t = some listing ∧ BuildsAs env ds rs listing) ∧ Looked w w') E := by
  obtain ⟨listing, hlist, hbuild⟩ := h.listed w.ftp
  unfold listDir ftpDir
  rw [wp_bind, wp_modifyGet, hin.curDir, hlist]
  exact ⟨⟨listing, rfl, hbuild⟩, rfl, hin.curDir.symm, rfl⟩

/-! ## A directory that has been entered -/

/-- Since the state `w` the run has recorded at most that it entered and left directories. -/
def OnlyWalks (w w' : World F) : Prop :=
  ∃ new, w'.trace = new ++ w.trace ∧ ∀ x ∈ new, x.event.ofLoop = true

theorem OnlyWalks.refl (w : World F) : OnlyWalks w w := ⟨[], rfl, by simp⟩

theorem OnlyWalks.trans {w'' : World F} (h : OnlyWalks w w') (h' : OnlyWalks w' w'') :
    OnlyWalks w w'' := by
  obtain ⟨new, hnew, hloop⟩ := h
  obtain ⟨new', hnew', hloop'⟩ := h'
  refine ⟨new' ++ new, by rw [hnew', hnew, List.append_assoc], fun x hx => ?_⟩
  rcases List.mem_append.mp hx with hx | hx
  · exact hloop' x hx
  · exact hloop x hx

theorem Looked.onlyWalks (h : Looked w w') : OnlyWalks w w' := ⟨[], h.trace, by simp⟩

theorem onlyWalks_logged (w : World F) {e : Event} (he : e.ofLoop = true) :
    OnlyWalks w (w.logged e) :=
  ⟨[⟨e, w.curDir, w.fs⟩], rfl, fun x hx => by rw [List.mem_singleton.mp hx]; exact he⟩

/-- A directory that has been entered is mirrored with its two listings. -/
theorem syncBelow_calm {sync : HeapList SpFile → HeapList SpFile → Prog F PUnit} {popped : Str}
    {Q : World F → Prop} (hcalm : NothingFails env) (hpat : NoPatterns env)
    (hin : StandsIn env ds w) (hroom : PathsRoom env w.fs ds) (h : Obtains env ds rs)
    (hsync : ∀ w₁ : World F, w₁.fs = w.fs → w₁.curDir = w.curDir → OnlyWalks w w₁ →
      wp (sync (heapOf (localDir env ds w.fs)) (heapOf rs)) w₁ (fun _ => Q) E) :
    wp (syncBelow env sync popped) w (fun _ => Q) E := by
  unfold syncBelow
  refine wp_seq (buildLocalDir_calm hcalm hpat hin hroom) ?_
  rintro _ w₁ ⟨rfl, h₁⟩
  rw [wp_bind, wp_get]
  refine wp_seq (listDir_calm _ h (h₁.stands hin)) ?_
  rintro _ w₂ ⟨⟨listing, rfl, hlist⟩, h₂⟩
  refine wp_seq (openListing_calm hcalm ((h₁.trans h₂).stands hin) hlist) ?_
  rintro _ w₃ ⟨rfl, h₃⟩
  have hall := (h₁.trans h₂).trans h₃
  simp only [recordStep]
  rw [wp_bind, wp_bind, wp_get, wp_record]
  exact hsync _ hall.fs hall.curDir (hall.onlyWalks.trans (onlyWalks_logged w₃ rfl))

end Spegla
