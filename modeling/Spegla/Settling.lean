import Spegla.CalmListings

/-!
# What one name becomes

With `sp_do_delete` on and where nothing fails, the first loop of `sp_sync_dir` leaves under each
name what the server has there, but for directories, which it leaves to the second loop.

- `SettlesName`: the local tree under a name after its step.
- `fetch_like`: an entry that is got is up to date.
- `syncName_settles`: one name, with all kinds of local and remote entries.
- `Halfway`: all names but those to come; `syncNames_settle`: the whole loop.
-/

namespace Spegla

open CString PosixFs ExitState SortedJoin

variable {F : Type} {env : Env F} {ds : List Str} {n : Str} {r : SpFile} {w w' : World F}
variable {E : Exit → World F → Prop}

/-- Under the name `n` in the directory `ds` is what the remote entry `ro` says, or, for a
directory, the directory that was there in the tree `fs₀`, or nothing. -/
structure SettledAt (env : Env F) (ds : List Str) (n : Str) (ro : Option SpFile) (fs₀ fs : Fs) :
    Prop where
  gone : ro = none → fs.get (env.cwd ++ ds ++ [n]) = none
  like : ∀ r, ro = some r → r.spfType ≠ .directory → UpToDate env ds r fs
  kept : ∀ r, ro = some r → r.spfType = .directory →
    fs₀.isDir (env.cwd ++ ds ++ [n]) = true →
    ∀ q, env.cwd ++ ds ++ [n] <+: q → fs.get q = fs₀.get q
  free : ∀ r, ro = some r → r.spfType = .directory →
    fs₀.isDir (env.cwd ++ ds ++ [n]) = false → fs.get (env.cwd ++ ds ++ [n]) = none

/-- So it is after a step, and nothing else has changed. -/
structure SettlesName (env : Env F) (ds : List Str) (n : Str) (ro : Option SpFile)
    (w w' : World F) :
    Prop where
  curDir : w'.curDir = w.curDir
  off : ∀ q, ¬env.cwd ++ ds ++ [n] <+: q → w'.fs.get q = w.fs.get q
  made : SettledAt env ds n ro w.fs w'.fs

/-- An entry that the server offers in the directory `ds`, with names for its temporary file. -/
structure Offered (env : Env F) (ds : List Str) (fs : Fs) (r : SpFile) : Prop extends Parsed r where
  name : IsName r.spfName
  serves : r.spfType = .plainfile → ∃ data, Delivers env ds r data
  room : RoomFor env.pathMax ds r
  target : ∀ t, r.spfSymlink = some t → t.length ≤ env.pathMax
  free : r.spfType = .plainfile →
    ∀ k, fs.get (env.cwd ++ ds ++ [tempName r.spfName (env.temp k)]) = none

/-- A place is not at or below another in its directory. -/
theorem not_prefix_name {p : Path} {a b : Str} (h : a ≠ b) : ¬p ++ [a] <+: p ++ [b] := by
  intro hpre
  have heq := List.append_cancel_left (hpre.eq_of_length (by simp))
  exact h (List.singleton_inj.mp heq)

/-! ## Getting an entry -/

/-- A link is made. -/
theorem spfSymlink_makes {t : Str} (hcalm : NothingFails env) (h : StandsIn env ds w)
    (hname : IsName r.spfName) (hfits : FitsAt env.pathMax ds r.spfName)
    (hlink : r.spfSymlink = some t) (hfree : w.fs.get (env.cwd ++ ds ++ [r.spfName]) = none) :
    wp (spfSymlink env r) w (fun _ w' => w'.curDir = w.curDir ∧ ∃ m time, ∀ q, w'.fs.get q =
      if q = env.cwd ++ ds ++ [r.spfName] then some ⟨.symlink t, m, time⟩ else w.fs.get q) E := by
  have hfull : spfFullName env r (w.logged (.spfSymlink r)) = some (dirStr ds ++ r.spfName) := by
    unfold spfFullName
    rw [logged_curDir, h.curDir]
    exact fullName_of_fits hname.noslash hfits
  obtain ⟨fs, hfs, hget⟩ := make_total
    (n := ⟨.symlink t, 0o777#12, env.clock (w.logged (.spfSymlink r)).tick⟩) (h.resolve hname)
    hfree (h.hasPlace hname)
  unfold spfSymlink
  rw [wp_bind, wp_record, wp_bind, wp_get, wp_bind, hfull, hlink]
  exact wp_act_ok hcalm hfs ⟨rfl, _, _, hget⟩

/-- A link is like its entry, if its target fits into the buffer of `readlink`. -/
theorem upToDate_of_link {fs : Fs} {t : Str} {m : Mode} {time : Int}
    (htype : r.spfType = .symlink) (hlink : r.spfSymlink = some t) (hlen : t.length ≤ env.pathMax)
    (hget : fs.get (env.cwd ++ ds ++ [r.spfName]) = some ⟨.symlink t, m, time⟩) :
    UpToDate env ds r fs := by
  refine ⟨_, hget, htype.symm, ?_⟩
  unfold Differs
  rw [htype]
  simp [localEntry, hlink, List.take_of_length_le hlen]

/-- **What is got.** A file takes the place of what is there, if that is no directory; a link is
made where nothing is; a directory is put off. -/
theorem fetch_like (hcalm : NothingFails env) (h : StandsIn env ds w) (hr : Offered env ds w.fs r)
    (hnodir : w.fs.isDir (env.cwd ++ ds ++ [r.spfName]) = false)
    (hfree : r.spfType = .symlink → w.fs.get (env.cwd ++ ds ++ [r.spfName]) = none) :
    wp (fetch (syncOps env) r) w (fun _ w' => w'.curDir = w.curDir ∧
      (∀ q, q ≠ env.cwd ++ ds ++ [r.spfName] → w'.fs.get q = w.fs.get q) ∧
      (r.spfType = .directory → w'.fs = w.fs) ∧
      (r.spfType ≠ .directory → UpToDate env ds r w'.fs)) E := by
  have hroom := hr.room
  unfold RoomFor at hroom
  unfold fetch
  cases ht : r.spfType with
  | plainfile =>
    rw [ht] at hroom
    obtain ⟨data, ⟨resp, hserve⟩, hsize⟩ := hr.serves ht
    refine wp_mono (getFtpFile_calm hcalm h hr.name hserve (hr.free ht)) (fun _ w' hl => ?_)
      fun _ _ h => h
    have hget := hl.comes hroom hnodir
    refine ⟨hl.touches.curDir, fun q hq => by rw [hget, if_neg hq], by simp, fun _ => ?_⟩
    exact upToDate_of_served ht hr.granul hsize (by rw [hget, if_pos rfl])
  | symlink =>
    rw [ht] at hroom
    obtain ⟨t, hlink⟩ := Option.ne_none_iff_exists'.mp (hr.linked ht)
    rw [wp_bind]
    refine wp_mono (spfSymlink_makes hcalm h hr.name hroom hlink (hfree ht)) ?_ fun _ _ h => h
    rintro _ w' ⟨hcur, m, time, hget⟩
    refine ⟨hcur, fun q hq => by rw [hget, if_neg hq], by simp, fun _ => ?_⟩
    exact upToDate_of_link ht hlink (hr.target t hlink) (by rw [hget, if_pos rfl])
  | directory => exact ⟨rfl, fun _ _ => rfl, fun _ => rfl, fun hd => absurd rfl hd⟩
  | unknown => exact absurd ht hr.known

/-! ## One name -/

/-- Where the entry is got, and nothing is left of what was there, the name is settled. -/
theorem settles_of_fetch {w₁ : World F} (hname : r.spfName = n) (hcur : w₁.curDir = w.curDir)
    (hoff : ∀ q, ¬env.cwd ++ ds ++ [n] <+: q → w₁.fs.get q = w.fs.get q)
    (hdir : r.spfType = .directory → w.fs.isDir (env.cwd ++ ds ++ [n]) = false)
    (hclear : r.spfType = .directory → w₁.fs.get (env.cwd ++ ds ++ [n]) = none)
    (h : w'.curDir = w₁.curDir ∧
      (∀ q, q ≠ env.cwd ++ ds ++ [r.spfName] → w'.fs.get q = w₁.fs.get q) ∧
      (r.spfType = .directory → w'.fs = w₁.fs) ∧
      (r.spfType ≠ .directory → UpToDate env ds r w'.fs)) :
    SettlesName env ds n (some r) w w' := by
  subst hname
  obtain ⟨hcur', hoff', hput, hlike⟩ := h
  refine ⟨hcur'.trans hcur, fun q hq => ?_, by simp, fun r' hr' ht => ?_, fun r' hr' ht hd => ?_,
    fun r' hr' ht _ => ?_⟩
  · rw [hoff' q fun heq => hq (heq ▸ List.prefix_refl _), hoff q hq]
  · obtain rfl := Option.some.inj hr'
    exact hlike ht
  · obtain rfl := Option.some.inj hr'
    rw [hdir ht] at hd
    simp at hd
  · obtain rfl := Option.some.inj hr'
    rw [hput ht]
    exact hclear ht

/-- Nothing is done, and nothing was to be done. -/
theorem SettlesName.idle (hcur : w'.curDir = w.curDir) (hfs : w'.fs = w.fs)
    (hlike : r.spfType ≠ .directory → UpToDate env ds r w.fs)
    (hdir : r.spfType = .directory → w.fs.isDir (env.cwd ++ ds ++ [n]) = false →
      w.fs.get (env.cwd ++ ds ++ [n]) = none) :
    SettlesName env ds n (some r) w w' := by
  refine ⟨hcur, fun q _ => by rw [hfs], by simp, fun r' hr' ht => ?_,
    fun _ _ _ _ q _ => by rw [hfs], fun r' hr' ht hd => ?_⟩
  · obtain rfl := Option.some.inj hr'
    rw [hfs]
    exact hlike ht
  · obtain rfl := Option.some.inj hr'
    rw [hfs]
    exact hdir ht hd

/-- What is known of the name `n` before its step. -/
structure Facing (env : Env F) (ds : List Str) (n : Str) (ro : Option SpFile) (w : World F) :
    Prop where
  inside : StandsIn env ds w
  name : IsName n
  room : PathsRoom env w.fs (ds ++ [n])
  deep : LessDeep env w.fs (ds ++ [n]) env.stack
  right : ∀ r, ro = some r → r.spfName = n ∧ Offered env ds w.fs r

theorem localEntry_dir {fs : Fs} {e : SpFile} (h : localAt env ds fs n = some e) :
    e.spfName = n ∧ fs.get (env.cwd ++ ds ++ [n]) ≠ none ∧
      (e.spfType = .directory ↔ fs.isDir (env.cwd ++ ds ++ [n]) = true) := by
  obtain ⟨k, hk, rfl⟩ := localAt_some h
  refine ⟨rfl, by rw [hk]; simp, ?_⟩
  rw [localEntry_type, Fs.isDir_iff]
  constructor
  · intro hd
    refine ⟨k, hk, ?_⟩
    cases hkind : k.kind with
    | dir => rfl
    | file d => simp [hkind, ftypeOf] at hd
    | symlink t => simp [hkind, ftypeOf] at hd
    | special => simp [hkind, ftypeOf] at hd
  · rintro ⟨k', hk', hd⟩
    obtain rfl := Option.some.inj (hk.symm.trans hk')
    rw [hd]
    rfl

/-- What a removal leaves of the directory and of an entry of the server. -/
theorem Erases.facing {w₁ : World F} (h : Erases (env.cwd ++ ds ++ [n]) w w₁)
    (hin : StandsIn env ds w) (hr : Offered env ds w.fs r) :
    StandsIn env ds w₁ ∧ Offered env ds w₁.fs r := by
  refine ⟨⟨h.curDir.trans hin.curDir, hin.names, ?_⟩, hr.toParsed, hr.name, hr.serves, hr.room,
    hr.target, fun ht k => ?_⟩
  · obtain ⟨k, hk, hd⟩ := Fs.isDir_iff.mp hin.dir
    refine Fs.isDir_iff.mpr ⟨k, ?_, hd⟩
    rw [h.get, if_neg (not_prefix_self _ _), hk]
  · rw [h.get]
    split
    · rfl
    · exact hr.free ht k

/-- What was there is removed, and the entry is got. -/
theorem replace_settles {e : SpFile} (hcalm : NothingFails env) (hmax : env.spMaxDelete = 0)
    (hdel : env.spDoDelete = true) (h : Facing env ds n (some r) w) (he : e.spfName = n)
    (hthere : w.fs.get (env.cwd ++ ds ++ [n]) ≠ none)
    (htype : e.spfType = .directory ↔ w.fs.isDir (env.cwd ++ ds ++ [n]) = true)
    (hdir : r.spfType = .directory → w.fs.isDir (env.cwd ++ ds ++ [n]) = false) :
    wp (spfRm env e) w (fun ok w₁ => ok = true ∧
      wp (fetch (syncOps env) r) w₁ (fun _ => SettlesName env ds n (some r) w) E) E := by
  obtain ⟨hrn, hr⟩ := h.right r rfl
  subst he
  refine wp_mono (spfRm_calm hcalm hmax hdel h.inside h.name htype hthere h.room h.deep) ?_
    fun _ _ h => h
  rintro ok w₁ ⟨hok, h₁⟩
  obtain ⟨hin₁, hr₁⟩ := h₁.facing h.inside hr
  have hgone : w₁.fs.get (env.cwd ++ ds ++ [r.spfName]) = none := by
    rw [h₁.get, hrn, if_pos (List.prefix_refl _)]
  have hnodir : w₁.fs.isDir (env.cwd ++ ds ++ [r.spfName]) = false := by
    unfold Fs.isDir
    rw [hgone]
  refine ⟨hok, wp_mono (fetch_like hcalm hin₁ hr₁ hnodir fun _ => hgone) (fun _ w' h' => ?_)
    fun _ _ h => h⟩
  exact settles_of_fetch hrn h₁.curDir (fun q hq => by rw [h₁.get, if_neg hq]) hdir
    (fun _ => hrn ▸ hgone) h'

/-- A file whose mode alone was another is like its entry once the mode is changed. -/
theorem upToDate_of_chmod {fs' : Fs} {k : Node} (hplain : r.spfType = .plainfile)
    (hkind : ftypeOf k.kind = .plainfile)
    (hcontent : ¬ContentDiffers (localEntry env.pathMax r.spfName k) r)
    (hget : fs'.get (env.cwd ++ ds ++ [r.spfName]) = some { k with mode := r.spfMode }) :
    UpToDate env ds r fs' := by
  refine ⟨_, hget, hkind.trans hplain.symm, ?_⟩
  unfold Differs
  rw [hplain]
  rintro (hc | hm)
  · exact hcontent hc
  · exact hm rfl

/-- The two entries of one type. -/
theorem sameType_settles {l : SpFile} (hcalm : NothingFails env) (hmax : env.spMaxDelete = 0)
    (hdel : env.spDoDelete = true) (h : Facing env ds n (some r) w)
    (hl : localAt env ds w.fs n = some l) (htype : r.spfType = l.spfType) :
    wp (syncName (syncOps env) (some l) (some r)) w
      (fun _ => SettlesName env ds n (some r) w) E := by
  obtain ⟨hname, hthere, hdir⟩ := localEntry_dir hl
  obtain ⟨rfl, hr⟩ := h.right r rfl
  obtain ⟨k, hk, hlk⟩ := localAt_some hl
  have hkind : ftypeOf k.kind = r.spfType := by rw [htype, hlk]; rfl
  have hfile : r.spfType ≠ .directory → w.fs.isDir (env.cwd ++ ds ++ [r.spfName]) = false := by
    intro hne
    rw [Bool.eq_false_iff, ne_eq, ← hdir, ← htype]
    exact hne
  -- where nothing differs the entry is up to date
  have hsame : ¬Differs l r → UpToDate env ds r w.fs := fun hd => by
    refine ⟨k, hk, by rw [← hlk, htype], ?_⟩
    rw [← hlk]
    exact hd
  unfold syncName
  simp only [htype, ne_eq, not_true_eq_false, if_false]
  rw [← htype]
  cases ht : r.spfType with
  | unknown => exact absurd ht hr.known
  | directory =>
    refine SettlesName.idle rfl rfl (fun hne => absurd ht hne) fun _ hd => ?_
    rw [hdir.mp (htype ▸ ht)] at hd
    simp at hd
  | plainfile =>
    have hne : r.spfType ≠ .directory := by rw [ht]; simp
    have hroom := hr.room
    unfold RoomFor at hroom
    rw [ht] at hroom hkind
    simp only
    rw [wp_ite]
    constructor
    · intro _
      refine wp_mono (fetch_like hcalm h.inside hr (hfile hne) (by simp [ht])) (fun _ w' h' => ?_)
        fun _ _ h => h
      exact settles_of_fetch rfl rfl (fun _ _ => rfl) (fun hd => absurd hd hne)
        (fun hd => absurd hd hne) h'
    · intro hcontent
      rw [wp_ite]
      constructor
      · intro _
        have hlink : NoLink k := fun t ht' => by
          rw [ht'] at hkind
          simp [ftypeOf] at hkind
        have hfits : FitsAt env.pathMax ds r.spfName := by
          unfold TempFits at hroom
          unfold FitsAt
          omega
        rw [wp_bind]
        refine wp_mono (spfChmod_calm { r with spfOpt := { r.spfOpt with logChmod := true } } hcalm
          h.inside h.name hk hlink) ?_ fun _ _ h => h
        rintro _ w' ⟨hcur, hget⟩
        refine ⟨hcur, fun q hq => ?_, by simp, fun r' hr' _ => ?_, fun r' hr' hd => ?_,
          fun r' hr' hd => ?_⟩
        · rw [hget, if_neg]
          rintro ⟨rfl, -⟩
          exact hq (List.prefix_refl _)
        · obtain rfl := Option.some.inj hr'
          refine upToDate_of_chmod ht hkind ?_ (by rw [hget, if_pos ⟨rfl, hfits⟩])
          rw [← hlk]
          exact hcontent
        · obtain rfl := Option.some.inj hr'
          exact absurd hd hne
        · obtain rfl := Option.some.inj hr'
          exact absurd hd hne
      · intro hmode
        refine SettlesName.idle rfl rfl (fun _ => hsame ?_) fun hd => absurd hd hne
        unfold Differs
        rw [ht]
        exact not_or.mpr ⟨hcontent, hmode⟩
  | symlink =>
    have hne : r.spfType ≠ .directory := by rw [ht]; simp
    simp only
    rw [wp_ite]
    constructor
    · intro _
      rw [wp_bind]
      refine wp_mono (replace_settles hcalm hmax hdel h rfl hthere ?_ fun hd => absurd hd hne) ?_
        fun _ _ h => h
      · rw [htype]
        exact hdir
      · rintro ok w₁ ⟨rfl, h₁⟩
        exact h₁
    · intro htarget
      refine SettlesName.idle rfl rfl (fun _ => hsame ?_) fun hd => absurd hd hne
      unfold Differs
      rw [ht]
      exact htarget

/-- **One name.** Whatever is there and whatever the server has, the step of the first loop leaves
there what the server has. -/
theorem syncName_settles {ro : Option SpFile} (hcalm : NothingFails env)
    (hmax : env.spMaxDelete = 0) (hdel : env.spDoDelete = true) (h : Facing env ds n ro w) :
    wp (syncName (syncOps env) (localAt env ds w.fs n) ro) w
      (fun _ => SettlesName env ds n ro w) E := by
  cases hl : localAt env ds w.fs n with
  | none =>
    have hnone : w.fs.get (env.cwd ++ ds ++ [n]) = none := by
      unfold localAt at hl
      exact Option.map_eq_none_iff.mp hl
    have hnodir : w.fs.isDir (env.cwd ++ ds ++ [n]) = false := by
      unfold Fs.isDir
      rw [hnone]
    cases ro with
    | none => exact ⟨rfl, fun _ _ => rfl, fun _ => hnone, by simp, by simp, by simp⟩
    | some r =>
      obtain ⟨rfl, hr⟩ := h.right r rfl
      refine wp_mono (fetch_like hcalm h.inside hr hnodir fun _ => hnone) (fun _ w' h' => ?_)
        fun _ _ h => h
      exact settles_of_fetch rfl rfl (fun _ _ => rfl) (fun _ => hnodir) (fun _ => hnone) h'
  | some l =>
    obtain ⟨hname, hthere, hdir⟩ := localEntry_dir hl
    cases ro with
    | none =>
      unfold syncName
      simp only
      rw [wp_bind]
      refine wp_mono (spfRm_calm hcalm hmax hdel h.inside (hname ▸ h.name) (hname ▸ hdir)
        (hname ▸ hthere) (hname ▸ h.room) (hname ▸ h.deep)) ?_ fun _ _ h => h
      rintro _ w' ⟨-, h'⟩
      rw [hname] at h'
      refine ⟨h'.curDir, fun q hq => by rw [h'.get, if_neg hq], fun _ => ?_, by simp, by simp,
        by simp⟩
      rw [h'.get, if_pos (List.prefix_refl _)]
    | some r =>
      obtain ⟨hrn, hr⟩ := h.right r rfl
      by_cases htype : r.spfType = l.spfType
      · exact sameType_settles hcalm hmax hdel h hl htype
      · unfold syncName
        simp only
        rw [if_pos htype, wp_bind]
        refine wp_mono (replace_settles hcalm hmax hdel h hname hthere hdir fun hd => ?_)
          (fun _ _ h => h.2) fun _ _ h => h
        rw [Bool.eq_false_iff, ne_eq, ← hdir, ← hd]
        exact fun heq => htype heq.symm

/-! ## All names -/

/-- What is settled under a name depends on what is there and below. -/
theorem SettledAt.congr {ro : Option SpFile} {fs₀ fs fs' : Fs}
    (h : SettledAt env ds n ro fs₀ fs)
    (hr : ∀ r, ro = some r → r.spfName = n)
    (hsame : ∀ q, env.cwd ++ ds ++ [n] <+: q → fs'.get q = fs.get q) :
    SettledAt env ds n ro fs₀ fs' := by
  have hself := hsame _ (List.prefix_refl _)
  refine ⟨fun hro => hself.trans (h.gone hro), fun r hro ht => ?_, fun r hro ht hd q hq => ?_,
    fun r hro ht hd => hself.trans (h.free r hro ht hd)⟩
  · obtain rfl := hr r hro
    exact (UpToDate.congr hself).mpr (h.like r hro ht)
  · rw [hsame q hq]
    exact h.kept r hro ht hd q hq

/-- It may be compared with an earlier tree that had the same there. -/
theorem SettledAt.since {ro : Option SpFile} {fs₀ fs₁ fs : Fs}
    (h : SettledAt env ds n ro fs₁ fs)
    (hsame : ∀ q, env.cwd ++ ds ++ [n] <+: q → fs₁.get q = fs₀.get q) :
    SettledAt env ds n ro fs₀ fs := by
  have hdir : fs₁.isDir (env.cwd ++ ds ++ [n]) = fs₀.isDir (env.cwd ++ ds ++ [n]) := by
    unfold Fs.isDir
    rw [hsame _ (List.prefix_refl _)]
  refine ⟨h.gone, h.like, fun r hro ht hd q hq => ?_, fun r hro ht hd => ?_⟩
  · rw [h.kept r hro ht (hdir.trans hd) q hq, hsame q hq]
  · exact h.free r hro ht (hdir.trans hd)

/-- The names for the temporary files of the entries `rs` are those of no entry, and nothing in the
directory `ds` has them. -/
def TempsFree (env : Env F) (ds : List Str) (rs : List SpFile) (fs : Fs) : Prop :=
  ∀ r ∈ rs, r.spfType = .plainfile → ∀ k,
    fs.get (env.cwd ++ ds ++ [tempName r.spfName (env.temp k)]) = none ∧
      tempName r.spfName (env.temp k) ∉ rs.map SpFile.spfName

/-- Of the names, `pending` are still to come; the others are settled. -/
structure Halfway (env : Env F) (ds : List Str) (rs : List SpFile) (fs₀ : Fs) (pending : List Str)
    (w : World F) : Prop where
  inside : StandsIn env ds w
  nodup : pending.Nodup
  listed : ∀ m ∈ pending, fs₀.get (env.cwd ++ ds ++ [m]) ≠ none ∨ m ∈ rs.map SpFile.spfName
  left : ∀ m ∈ pending, ∀ q, env.cwd ++ ds ++ [m] <+: q → w.fs.get q = fs₀.get q
  off : ∀ q, (∀ c, ¬env.cwd ++ ds ++ [c] <+: q) → w.fs.get q = fs₀.get q
  done : ∀ c, IsName c → c ∉ pending → SettledAt env ds c (entryOf c rs) fs₀ w.fs

variable {rs : List SpFile} {fs₀ : Fs} {rest : List Str}

theorem entryOf_name {c : Str} {es : List SpFile} (h : entryOf c es = some r) : r.spfName = c :=
  (find_some h).2

theorem entryOf_none {c : Str} {es : List SpFile} (h : c ∉ es.map SpFile.spfName) :
    entryOf c es = none := by
  by_contra hsome
  obtain ⟨e, he⟩ := Option.ne_none_iff_exists'.mp hsome
  obtain ⟨hmem, rfl⟩ := find_some he
  exact h (List.mem_map_of_mem hmem)

/-- Before the step of the next name. -/
theorem Halfway.facing (hroom : PathsRoom env fs₀ ds) (hdeep : LessDeep env fs₀ ds (env.stack + 1))
    (havail : Available env ds rs) (hparsed : ∀ r ∈ rs, Parsed r) (htemps : TempsFree env ds rs fs₀)
    (h : Halfway env ds rs fs₀ (n :: rest) w) : Facing env ds n (entryOf n rs) w := by
  have hn := List.mem_cons_self (a := n) (l := rest)
  have hname : IsName n := by
    rcases h.listed n hn with hthere | hlisted
    · exact (fs₀.parentDir _ n hthere).1
    · obtain ⟨r, hr, rfl⟩ := List.mem_map.mp hlisted
      exact havail.names r hr
  have hleft : ∀ q, w.fs.get (env.cwd ++ (ds ++ [n]) ++ q) =
      fs₀.get (env.cwd ++ (ds ++ [n]) ++ q) := by
    intro q
    rw [← List.append_assoc env.cwd]
    exact h.left n hn _ (List.prefix_append ..)
  refine ⟨h.inside, hname, fun q hq => ?_, fun q hq => ?_, fun r hr => ⟨entryOf_name hr, ?_⟩⟩
  · rw [hleft] at hq
    exact hroom.below [n] q hq
  · have hdir : fs₀.isDir (env.cwd ++ ds ++ n :: q) = true := by
      unfold Fs.isDir at hq ⊢
      rw [hleft] at hq
      simpa using hq
    have hlen := hdeep _ hdir
    rw [List.length_cons] at hlen
    omega
  · obtain ⟨hmem, rfl⟩ := find_some hr
    refine ⟨hparsed r hmem, havail.names r hmem, havail.serves r hmem, havail.room r hmem,
      havail.targets r hmem, fun ht k => ?_⟩
    obtain ⟨habsent, hunlisted⟩ := htemps r hmem ht k
    -- the name of a temporary file is none of the names to come, so it is settled
    refine (h.done _ (isName_tempName (havail.names r hmem) _) fun hm => ?_).gone
      (entryOf_none hunlisted)
    rcases h.listed _ hm with hthere | hlisted
    · exact hthere habsent
    · exact hunlisted hlisted

/-- One name more. -/
theorem Halfway.step (h : Halfway env ds rs fs₀ (n :: rest) w)
    (hstep : SettlesName env ds n (entryOf n rs) w w') : Halfway env ds rs fs₀ rest w' := by
  obtain ⟨hnew, hnodup⟩ := List.nodup_cons.mp h.nodup
  have hn := List.mem_cons_self (a := n) (l := rest)
  have hoff : ∀ {c}, c ≠ n → ∀ q, env.cwd ++ ds ++ [c] <+: q → w'.fs.get q = w.fs.get q := by
    intro c hc q hq
    refine hstep.off q fun hpre => ?_
    rcases List.prefix_or_prefix_of_prefix hq hpre with hcn | hnc
    · exact not_prefix_name hc hcn
    · exact not_prefix_name hc.symm hnc
  refine ⟨⟨hstep.curDir.trans h.inside.curDir, h.inside.names, ?_⟩, hnodup,
    fun m hm => h.listed m (List.mem_cons_of_mem _ hm), fun m hm q hq => ?_, fun q hq => ?_,
    fun c hc hm => ?_⟩
  · obtain ⟨k, hk, hd⟩ := Fs.isDir_iff.mp h.inside.dir
    exact Fs.isDir_iff.mpr ⟨k, (hstep.off _ (not_prefix_self _ _)).trans hk, hd⟩
  · have hmn : m ≠ n := fun heq => hnew (heq ▸ hm)
    rw [hoff hmn q hq]
    exact h.left m (List.mem_cons_of_mem _ hm) q hq
  · rw [hstep.off q (hq n)]
    exact h.off q hq
  · by_cases hcn : c = n
    · subst hcn
      exact hstep.made.since (h.left c hn)
    · have hc' : c ∉ n :: rest := by
        rw [List.mem_cons, not_or]
        exact ⟨hcn, hm⟩
      exact (h.done c hc hc').congr (fun r hr => entryOf_name hr) (hoff hcn)

/-- **The first loop** settles all names. -/
theorem syncNames_settle {names : List Str} (hcalm : NothingFails env) (hmax : env.spMaxDelete = 0)
    (hdel : env.spDoDelete = true) (hin : StandsIn env ds w) (hroom : PathsRoom env w.fs ds)
    (hdeep : LessDeep env w.fs ds (env.stack + 1)) (havail : Available env ds rs)
    (hparsed : ∀ r ∈ rs, Parsed r) (htemps : TempsFree env ds rs w.fs) (hnodup : names.Nodup)
    (hnames : ∀ m, m ∈ names ↔
      m ∈ (localDir env ds w.fs).map SpFile.spfName ∨ m ∈ rs.map SpFile.spfName) :
    wp (names.forM fun m => syncName (syncOps env) (entryOf m (localDir env ds w.fs))
      (entryOf m rs)) w (fun _ => Halfway env ds rs w.fs []) E := by
  have hstart : Halfway env ds rs w.fs names w := by
    refine ⟨hin, hnodup, fun m hm => ?_, fun _ _ _ _ => rfl, fun _ _ => rfl, fun c hc hm => ?_⟩
    · refine ((hnames m).mp hm).imp_left fun hl => ?_
      rw [localDir_names] at hl
      exact Fs.mem_names.mp hl
    · -- a name that is on neither side has nothing
      rw [hnames, not_or, localDir_names, Fs.mem_names, ne_eq, not_not] at hm
      rw [entryOf_none hm.2]
      exact ⟨fun _ => hm.1, by simp, by simp, by simp⟩
  refine wp_forM (fun m rest w₁ h₁ => ?_) names w hstart
  have hat : entryOf m (localDir env ds w.fs) = localAt env ds w₁.fs m := by
    rw [entryOf_localDir]
    unfold localAt
    rw [h₁.left m (List.mem_cons_self ..) _ (List.prefix_refl _)]
  rw [hat]
  exact wp_mono (syncName_settles hcalm hmax hdel
    (h₁.facing hroom hdeep havail hparsed htemps)) (fun _ _ h => h₁.step h) fun _ _ h => h

end Spegla
