import Spegla.CalmRuns
import Spegla.Merge

/-!
# What is updated though nothing is deleted

With `sp_do_delete` off, what is on both sides is to be updated all the same. A plain file is: it
is downloaded under a temporary name, which is then renamed, or its mode is changed. A symbolic
link is not: it would have to be removed first, which `spf_rm` does not do, and says it did.

- `Differs`: what the comparison of two entries looks at; `UpToDate`: a later comparison would find
  nothing to do.
- `syncName_noDelete`: what is done for one name; `Merged`: for all names but those to come.
- `Revised`: it is, or the entry is what it was.
- `spSyncDir_updates`: which entries a run, with all that it does below, leaves up to date;
  `spSyncDir_revises`: the others are left alone.
-/

namespace Spegla

open CString PosixFs ExitState SortedJoin

variable {F : Type} {env : Env F}

/-! ## The comparison of two entries -/

/-- The contents of two plain files differ, as far as the listings tell. -/
def ContentDiffers (l r : SpFile) : Prop := spfTimeCmp r l ≠ 0 ∨ r.spfSize ≠ l.spfSize

/-- What the comparison of two entries of one type looks at differs. -/
def Differs (l r : SpFile) : Prop :=
  match r.spfType with
  | .plainfile => ContentDiffers l r ∨ r.spfMode ≠ l.spfMode
  | .symlink => r.spfSymlink ≠ l.spfSymlink
  | _ => False

/-- In the directory `ds` of the tree `fs` is an entry like `r`. -/
def UpToDate (env : Env F) (ds : List Str) (r : SpFile) (fs : Fs) : Prop :=
  ∃ n, fs.get (env.cwd ++ ds ++ [r.spfName]) = some n ∧
    (localEntry env.pathMax r.spfName n).spfType = r.spfType ∧
    ¬Differs (localEntry env.pathMax r.spfName n) r

/-- The path of the name fits into `pathMax` bytes. -/
def FitsAt (pathMax : Nat) (ds : List Str) (name : Str) : Prop :=
  name.length + (dirStr ds).length ≤ pathMax - 2

instance (pathMax : Nat) (ds : List Str) (name : Str) : Decidable (FitsAt pathMax ds name) := by
  unfold FitsAt
  infer_instance

/-- What can be brought up to date in place: a plain file with a path that fits, with that of its
temporary file where it has to be downloaded. -/
def Updatable (env : Env F) (ds : List Str) (l r : SpFile) : Prop :=
  r.spfType = .plainfile ∧ (ContentDiffers l r → TempFits env.pathMax ds r.spfName) ∧
    (¬ContentDiffers l r → FitsAt env.pathMax ds r.spfName)

/-- The server has the file of the entry `r` in the directory `ds`, in the size that is listed. -/
def Delivers (env : Env F) (ds : List Str) (r : SpFile) (data : Str) : Prop :=
  (∃ resp, ∀ f : F, (env.ftp.ftpGet f (dirStr ds ++ r.spfName) 0).1 = ⟨data, true, resp⟩) ∧
    (data.length : Int) = r.spfSize

variable {ds : List Str} {l r : SpFile} {n : Str} {w w' : World F}

/-- A time is within its own granularity. -/
theorem spfTimeCmp_self {f1 f2 : SpFile} (ht : f2.spfTime = f1.spfTime) (h1 : 0 ≤ f1.spfTgranul)
    (h2 : 0 ≤ f2.spfTgranul) : spfTimeCmp f1 f2 = 0 := by
  unfold spfTimeCmp
  rw [if_pos]
  omega

/-- A file that has come from the server is like its entry. -/
theorem upToDate_of_served {fs : Fs} {data : Str} (hplain : r.spfType = .plainfile)
    (hgranul : 0 ≤ r.spfTgranul) (hsize : (data.length : Int) = r.spfSize)
    (hget : fs.get (env.cwd ++ ds ++ [r.spfName]) = some ⟨.file data, r.spfMode, r.spfTime⟩) :
    UpToDate env ds r fs := by
  refine ⟨_, hget, hplain.symm, ?_⟩
  unfold Differs ContentDiffers
  rw [hplain]
  rintro ((htime | hsz) | hmode)
  · exact htime (spfTimeCmp_self rfl hgranul (le_refl 0))
  · exact hsz hsize.symm
  · exact hmode rfl

/-- Whether an entry is up to date depends on its node alone. -/
theorem UpToDate.congr {fs fs' : Fs}
    (h : fs'.get (env.cwd ++ ds ++ [r.spfName]) = fs.get (env.cwd ++ ds ++ [r.spfName])) :
    UpToDate env ds r fs' ↔ UpToDate env ds r fs := by
  unfold UpToDate
  rw [h]

theorem not_upToDate {fs : Fs} {k : Node} (hname : l.spfName = r.spfName)
    (hget : fs.get (env.cwd ++ ds ++ [r.spfName]) = some k)
    (hl : l = localEntry env.pathMax l.spfName k) (hdiff : Differs l r) :
    ¬UpToDate env ds r fs := by
  rintro ⟨k', hk', -, hsame⟩
  obtain rfl := Option.some.inj (hget.symm.trans hk')
  rw [hname] at hl
  rw [← hl] at hsame
  exact hsame hdiff

theorem localEntry_linked (m : Nat) (name : Str) (k : Node) : (localEntry m name k).Linked := by
  intro hlink
  cases hk : k.kind with
  | symlink t => simp [localEntry, hk]
  | file d => simp [localEntry_type, hk, ftypeOf] at hlink
  | dir => simp [localEntry_type, hk, ftypeOf] at hlink
  | special => simp [localEntry_type, hk, ftypeOf] at hlink

/-- What becomes of a local entry `l` that differs from the remote one `r` of its name and type: it
is brought up to date if it can be, and otherwise it is what it was in the tree `fs₀`. -/
structure Revised (env : Env F) (ds : List Str) (l r : SpFile) (fs₀ fs : Fs) : Prop where
  there : fs.get (env.cwd ++ ds ++ [r.spfName]) ≠ none
  upToDate : UpToDate env ds r fs ↔ Updatable env ds l r
  kept : ¬Updatable env ds l r →
    fs.get (env.cwd ++ ds ++ [r.spfName]) = fs₀.get (env.cwd ++ ds ++ [r.spfName])

theorem Revised.updated {fs₀ fs : Fs} {k : Node}
    (hget : fs.get (env.cwd ++ ds ++ [r.spfName]) = some k) (hup : UpToDate env ds r fs)
    (hcan : Updatable env ds l r) : Revised env ds l r fs₀ fs :=
  ⟨by rw [hget]; simp, iff_of_true hup hcan, fun hnot => absurd hcan hnot⟩

/-- An entry that is as before still differs. -/
theorem Revised.same {fs₀ fs : Fs} {k : Node} (hname : l.spfName = r.spfName)
    (hold : fs₀.get (env.cwd ++ ds ++ [r.spfName]) = some k)
    (hget : fs.get (env.cwd ++ ds ++ [r.spfName]) = fs₀.get (env.cwd ++ ds ++ [r.spfName]))
    (hl : l = localEntry env.pathMax l.spfName k) (hdiff : Differs l r)
    (hcannot : ¬Updatable env ds l r) : Revised env ds l r fs₀ fs :=
  ⟨by rw [hget, hold]; simp,
    iff_of_false (not_upToDate hname (hget.trans hold) hl hdiff) hcannot, fun _ => hget⟩

/-- It depends on the node alone, before and after. -/
theorem Revised.congr {fs₀ fs₀' fs fs' : Fs} (h : Revised env ds l r fs₀ fs)
    (hold : fs₀.get (env.cwd ++ ds ++ [r.spfName]) = fs₀'.get (env.cwd ++ ds ++ [r.spfName]))
    (hget : fs'.get (env.cwd ++ ds ++ [r.spfName]) = fs.get (env.cwd ++ ds ++ [r.spfName])) :
    Revised env ds l r fs₀' fs' :=
  ⟨hget ▸ h.there, (UpToDate.congr hget).trans h.upToDate,
    fun hnot => (hget.trans (h.kept hnot)).trans hold⟩

/-! ## One name -/

/-- What has been done for the name `n`. -/
structure Done (env : Env F) (ds : List Str) (n : Str) (lo ro : Option SpFile) (w w' : World F) :
    Prop where
  touches : Touches env ds n w w'
  local_ : ro = none → w'.fs = w.fs
  updates : ∀ l r, lo = some l → ro = some r → r.spfType = l.spfType → Differs l r →
    Revised env ds l r w.fs w'.fs

/-- Nothing is done for it, and nothing was to be done. -/
theorem Done.idle {lo ro : Option SpFile} (hfs : w'.fs = w.fs) (hcur : w'.curDir = w.curDir)
    (h : ∀ l r, lo = some l → ro = some r → r.spfType = l.spfType → ¬Differs l r) :
    Done env ds n lo ro w w' :=
  ⟨⟨hcur, fun q _ _ => by rw [hfs]⟩, fun _ => hfs, fun l r hl hr ht hd =>
    absurd hd (h l r hl hr ht)⟩

variable {E : Exit → World F → Prop}

/-- What is known of the entries that have the name `n`. -/
structure Seen (env : Env F) (ds : List Str) (n : Str) (lo ro : Option SpFile) (w : World F) :
    Prop where
  inside : StandsIn env ds w
  name : IsName n
  left : ∀ l, lo = some l → l.spfName = n ∧ ∃ k, w.fs.get (env.cwd ++ ds ++ [n]) = some k ∧
    (l = localEntry env.pathMax n k ∨ l.spfType = .directory)
  right : ∀ r, ro = some r → r.spfName = n ∧ 0 ≤ r.spfTgranul ∧
    (r.spfType = .plainfile → ∃ data, Delivers env ds r data) ∧
    ∀ k, w.fs.get (env.cwd ++ ds ++ [tempName n (env.temp k)]) = none

/-- A link is made where nothing is. -/
theorem spfSymlink_calm {spf : SpFile} (h : StandsIn env ds w) (hname : IsName spf.spfName) :
    wp (spfSymlink env spf) w (fun _ w' => Touches env ds spf.spfName w w' ∧
      (w.fs.get (env.cwd ++ ds ++ [spf.spfName]) ≠ none → w'.fs = w.fs)) E := by
  unfold spfSymlink
  rw [wp_bind, wp_record, wp_bind, wp_get, wp_bind, wp_act]
  constructor
  · intro e _
    exact ⟨⟨rfl, fun _ _ _ => rfl⟩, fun _ => rfl⟩
  · intro fs hfs
    obtain ⟨-, s, hs, hlink⟩ := lookAt_ok hfs
    have hlogged : StandsIn env ds (w.logged (.spfSymlink spf)) := ⟨h.curDir, h.names, h.dir⟩
    cases ht : spf.spfSymlink with
    | none => rw [ht] at hlink; simp at hlink
    | some target =>
      rw [ht] at hlink
      obtain ⟨p, hp, hfresh, -, hget⟩ := make_ok hlink
      rw [hlogged.fullName hs] at hp
      obtain rfl := hlogged.resolve_eq hname hp
      refine ⟨⟨rfl, fun q hq _ => ?_⟩, fun hthere => absurd hfresh hthere⟩
      show fs.get q = _
      rw [hget, if_neg hq]
      rfl

/-- The mode of a node that is no link. -/
theorem spfChmod_calm (spf : SpFile) {k : Node} (hcalm : NothingFails env) (h : StandsIn env ds w)
    (hname : IsName spf.spfName) (hk : w.fs.get (env.cwd ++ ds ++ [spf.spfName]) = some k)
    (hlink : NoLink k) :
    wp (spfChmod env spf 0) w (fun _ w' => w'.curDir = w.curDir ∧ ∀ q, w'.fs.get q =
      if q = env.cwd ++ ds ++ [spf.spfName] ∧ FitsAt env.pathMax ds spf.spfName then
        some { k with mode := spf.spfMode } else w.fs.get q) E := by
  unfold spfChmod
  rw [wp_bind, wp_get, wp_bind]
  by_cases hfits : FitsAt env.pathMax ds spf.spfName
  · have hfull : spfFullName env spf w = some (dirStr ds ++ spf.spfName) := by
      unfold spfFullName
      rw [h.curDir]
      exact fullName_of_fits hname.noslash hfits
    have hpath := h.resolve_follow hname fun k' hk' => by
      obtain rfl := Option.some.inj (hk.symm.trans hk')
      exact hlink
    obtain ⟨fs, hfs, hget⟩ := change_total (f := fun n => .ok { n with mode := spf.spfMode ||| 0 })
      hpath hk rfl fun hd => hd
    rw [hfull]
    refine wp_act_ok hcalm hfs ⟨rfl, fun q => ?_⟩
    show fs.get q = _
    rw [hget]
    simp [hfits]
  · have hfull : spfFullName env spf w = none := by
      unfold spfFullName
      by_contra hsome
      obtain ⟨s, hs⟩ := Option.ne_none_iff_exists'.mp hsome
      rw [h.curDir] at hs
      exact hfits (fullName_some hs).2.1
    rw [hfull, wp_act]
    constructor
    · intro e _
      exact ⟨rfl, fun q => by rw [if_neg fun hq => hfits hq.2]; rfl⟩
    · intro fs hfs
      obtain ⟨-, s, hs, -⟩ := lookAt_ok hfs
      simp at hs

/-- The entry is got from the server. -/
theorem fetch_calm {spf : SpFile} {lo : Option SpFile} (hcalm : NothingFails env)
    (h : Seen env ds n lo (some spf) w) :
    wp (fetch (syncOps env) spf) w (fun _ => Touches env ds n w) E := by
  obtain ⟨rfl, -, hserve, hfree⟩ := h.right spf rfl
  unfold fetch
  cases ht : spf.spfType with
  | plainfile =>
    obtain ⟨data, ⟨resp, hget⟩, -⟩ := hserve ht
    exact wp_mono (getFtpFile_calm hcalm h.inside h.name hget hfree)
      (fun _ _ hl => hl.touches) fun _ _ h => h
  | symlink =>
    rw [wp_bind]
    exact wp_mono (spfSymlink_calm h.inside h.name) (fun _ _ hl => hl.1) fun _ _ h => h
  | directory => exact Touches.refl ..
  | unknown => exact Touches.refl ..

/-- Two plain files of one name. -/
theorem plainfile_noDelete (hcalm : NothingFails env) (h : Seen env ds n (some l) (some r) w)
    (htype : r.spfType = l.spfType) (hplain : r.spfType = .plainfile) :
    wp (syncName (syncOps env) (some l) (some r)) w
      (fun _ => Done env ds n (some l) (some r) w) E := by
  obtain ⟨rfl, hgranul, hserve, hfree⟩ := h.right r rfl
  obtain ⟨hnl, k, hk, hl⟩ := h.left l rfl
  obtain ⟨data, ⟨resp, hget⟩, hsize⟩ := hserve hplain
  have hlk : l = localEntry env.pathMax l.spfName k := by
    rw [hnl]
    refine hl.resolve_right fun hdir => ?_
    rw [← htype, hplain] at hdir
    simp at hdir
  -- what the listing calls a plain file is one
  have hkind : ftypeOf k.kind = .plainfile := by
    rw [← hplain, htype, hlk]
    rfl
  have hlink : NoLink k := fun t ht => by
    rw [ht] at hkind
    simp [ftypeOf] at hkind
  have hnodir : w.fs.isDir (env.cwd ++ ds ++ [r.spfName]) = false := by
    rw [Bool.eq_false_iff, ne_eq, Fs.isDir_iff]
    rintro ⟨k', hk', hd⟩
    obtain rfl := Option.some.inj (hk.symm.trans hk')
    rw [hd] at hkind
    simp [ftypeOf] at hkind
  unfold syncName
  simp only [htype, ne_eq, not_true_eq_false, if_false]
  rw [← htype, hplain]
  simp only
  rw [wp_ite]
  constructor
  · intro hcontent
    have hfetch : fetch (syncOps env) r = getFtpFile env r := by
      unfold fetch
      rw [hplain]
      rfl
    rw [hfetch]
    refine wp_mono (getFtpFile_calm hcalm h.inside h.name hget hfree) (fun _ w' hlands => ?_)
      fun _ _ h => h
    refine ⟨hlands.touches, by simp, fun l' r' hl' hr' _ hdiff => ?_⟩
    obtain rfl := Option.some.inj hl'
    obtain rfl := Option.some.inj hr'
    by_cases hfits : TempFits env.pathMax ds r.spfName
    · have hnew := hlands.comes hfits hnodir (env.cwd ++ ds ++ [r.spfName])
      rw [if_pos rfl] at hnew
      exact .updated hnew (upToDate_of_served hplain hgranul hsize hnew)
        ⟨hplain, fun _ => hfits, fun hc => absurd hcontent hc⟩
    · rw [hlands.stays hfits]
      exact .same hnl hk rfl hlk hdiff fun hcan => hfits (hcan.2.1 hcontent)
  · intro hcontent
    rw [wp_ite]
    constructor
    · intro hmode
      rw [wp_bind]
      refine wp_mono (spfChmod_calm { r with spfOpt := { r.spfOpt with logChmod := true } }
        hcalm h.inside h.name hk hlink) (fun _ w' hch => ?_) fun _ _ h => h
      obtain ⟨hcur, hall⟩ := hch
      refine ⟨⟨hcur, fun q hq _ => by rw [hall, if_neg fun hq' => hq hq'.1]⟩, by simp, ?_⟩
      intro l' r' hl' hr' _ hdiff
      obtain rfl := Option.some.inj hl'
      obtain rfl := Option.some.inj hr'
      have hnew := hall (env.cwd ++ ds ++ [r.spfName])
      by_cases hfits : FitsAt env.pathMax ds r.spfName
      · rw [if_pos ⟨rfl, hfits⟩] at hnew
        refine .updated hnew ⟨_, hnew, ?_, ?_⟩
          ⟨hplain, fun hc => absurd hc hcontent, fun _ => hfits⟩
        · exact hkind.trans hplain.symm
        · unfold Differs
          rw [hplain]
          rintro (hc | hm)
          · -- the time and the size are those of before
            rw [hlk, hnl] at hcontent
            exact hcontent hc
          · exact hm rfl
      · rw [if_neg fun hq => hfits hq.2] at hnew
        exact .same hnl hk hnew hlk hdiff fun hcan => hfits (hcan.2.2 hcontent)
    · intro hmode
      refine Done.idle rfl rfl fun l' r' hl' hr' _ => ?_
      obtain rfl := Option.some.inj hl'
      obtain rfl := Option.some.inj hr'
      unfold Differs
      rw [hplain]
      exact not_or.mpr ⟨hcontent, hmode⟩

/-- Two links of one name. -/
theorem symlink_noDelete (hdel : env.spDoDelete = false) (h : Seen env ds n (some l) (some r) w)
    (htype : r.spfType = l.spfType) (hlink : r.spfType = .symlink) :
    wp (syncName (syncOps env) (some l) (some r)) w
      (fun _ => Done env ds n (some l) (some r) w) E := by
  obtain ⟨rfl, -⟩ := h.right r rfl
  obtain ⟨hnl, k, hk, hl⟩ := h.left l rfl
  have hlk : l = localEntry env.pathMax l.spfName k := by
    rw [hnl]
    refine hl.resolve_right fun hdir => ?_
    rw [← htype, hlink] at hdir
    simp at hdir
  have hlogged : StandsIn env ds (w.logged (.spfRm r)) :=
    ⟨h.inside.curDir, h.inside.names, h.inside.dir⟩
  unfold syncName
  simp only [htype, ne_eq, not_true_eq_false, if_false]
  rw [← htype, hlink]
  simp only
  rw [wp_ite]
  constructor
  · intro htarget
    rw [wp_bind]
    -- the old link is said to have been removed, and the new one meets it
    refine spfRm_noDelete hdel ?_
    simp only [if_true]
    unfold fetch
    rw [hlink]
    simp only
    rw [wp_bind]
    refine wp_mono (spfSymlink_calm hlogged h.name) (fun _ w' hmade => ?_) fun _ _ h => h
    obtain ⟨htouch, hsame⟩ := hmade
    have hfs : w'.fs = w.fs := hsame (by show w.fs.get _ ≠ none; rw [hk]; simp)
    refine ⟨⟨htouch.curDir, htouch.off⟩, by simp, fun l' r' hl' hr' _ hdiff => ?_⟩
    obtain rfl := Option.some.inj hl'
    obtain rfl := Option.some.inj hr'
    rw [hfs]
    exact .same hnl hk rfl hlk hdiff fun hcan => by simp [Updatable, hlink] at hcan
  · intro htarget
    refine Done.idle rfl rfl fun l' r' hl' hr' _ => ?_
    obtain rfl := Option.some.inj hl'
    obtain rfl := Option.some.inj hr'
    unfold Differs
    rw [hlink]
    exact htarget

/-- **One name**, with nothing to be deleted. -/
theorem syncName_noDelete {lo ro : Option SpFile} (hcalm : NothingFails env)
    (hdel : env.spDoDelete = false) (h : Seen env ds n lo ro w) :
    wp (syncName (syncOps env) lo ro) w (fun _ => Done env ds n lo ro w) E := by
  have hlogged : ∀ e, Seen env ds n lo ro (w.logged e) := fun e =>
    ⟨⟨h.inside.curDir, h.inside.names, h.inside.dir⟩, h.name, h.left, h.right⟩
  cases ro with
  | none =>
    cases lo with
    | none => exact Done.idle rfl rfl fun _ _ hl => by simp at hl
    | some l =>
      unfold syncName
      simp only
      rw [wp_bind]
      exact spfRm_noDelete hdel (Done.idle rfl rfl fun _ _ _ hr => by simp at hr)
  | some r =>
    cases lo with
    | none =>
      show wp (fetch (syncOps env) r) w (fun _ => Done env ds n none (some r) w) E
      exact wp_mono (fetch_calm hcalm h) (fun _ w' ht => ⟨ht, by simp, fun _ _ hl => by simp at hl⟩)
        fun _ _ h => h
    | some l =>
      -- directories and unknown entries do not differ, so nothing has to be done for them
      have hidle : (∀ l r : SpFile, r.spfType = l.spfType → r.spfType = .directory ∨
          r.spfType = .unknown → ¬Differs l r) := by
        intro l r _ ht
        rcases ht with ht | ht <;> simp [Differs, ht]
      by_cases htype : r.spfType = l.spfType
      · cases ht : r.spfType with
        | plainfile => exact plainfile_noDelete hcalm h htype ht
        | symlink => exact symlink_noDelete hdel h htype ht
        | directory =>
          unfold syncName
          simp only [← htype, ht, ne_eq, not_true_eq_false, if_false]
          refine Done.idle rfl rfl fun l' r' _ hr' ht' => hidle l' r' ht' (Or.inl ?_)
          rw [← Option.some.inj hr', ht]
        | unknown =>
          unfold syncName
          simp only [← htype, ht, ne_eq, not_true_eq_false, if_false]
          refine Done.idle rfl rfl fun l' r' _ hr' ht' => hidle l' r' ht' (Or.inr ?_)
          rw [← Option.some.inj hr', ht]
      · unfold syncName
        simp only
        rw [if_pos htype, wp_bind]
        refine spfRm_noDelete hdel ?_
        refine wp_mono (fetch_calm hcalm (hlogged _)) (fun _ w' ht => ?_) fun _ _ h => h
        refine ⟨⟨ht.curDir, ht.off⟩, by simp, fun l' r' hl' hr' ht' => ?_⟩
        obtain rfl := Option.some.inj hl'
        obtain rfl := Option.some.inj hr'
        exact absurd ht' htype

/-! ## All names -/

theorem tempName_inj {a b : Str} {s t : TempSuffix} (h : tempName a s = tempName b t) : a = b := by
  have hlen := congrArg List.length h
  rw [tempName_length, tempName_length] at hlen
  unfold tempName at h
  rw [List.append_assoc, List.append_assoc, List.append_assoc, List.append_assoc] at h
  exact (List.append_inj (List.append_cancel_left h) (by omega)).1

/-- The two listings of the directory `ds`: the local one shows what is in the tree `fs₀`, the
remote one what the server gives; and `mkstemp` finds names that neither has. -/
structure Listings (env : Env F) (ds : List Str) (fs₀ : Fs) (ls rs : List SpFile) : Prop where
  lnodup : (ls.map SpFile.spfName).Nodup
  rnodup : (rs.map SpFile.spfName).Nodup
  sees : ∀ l ∈ ls, Sees env ds fs₀ l
  names : ∀ r ∈ rs, IsName r.spfName
  known : ∀ r ∈ rs, r.spfType ≠ .unknown
  linked : ∀ r ∈ rs, r.Linked
  granul : ∀ r ∈ rs, 0 ≤ r.spfTgranul
  serves : ∀ r ∈ rs, r.spfType = .plainfile → ∃ data, Delivers env ds r data
  free : ∀ r ∈ rs, ∀ k, fs₀.get (env.cwd ++ ds ++ [tempName r.spfName (env.temp k)]) = none
  temps : ∀ r ∈ rs, ∀ r' ∈ rs, ∀ k, r'.spfName ≠ tempName r.spfName (env.temp k)

variable {fs₀ : Fs} {ls rs : List SpFile}

/-- A local entry that differs from a remote one of its name and type. -/
def Stale (ls rs : List SpFile) (l r : SpFile) : Prop :=
  l ∈ ls ∧ r ∈ rs ∧ l.spfName = r.spfName ∧ r.spfType = l.spfType ∧ Differs l r

/-- Of the names, `pending` are still to come; the others have been done. -/
structure Merged (env : Env F) (ds : List Str) (fs₀ : Fs) (ls rs : List SpFile)
    (pending : List Str) (w : World F) : Prop where
  inside : StandsIn env ds w
  nodup : pending.Nodup
  listed : ∀ m ∈ pending, m ∈ ls.map SpFile.spfName ∨ m ∈ rs.map SpFile.spfName
  left : ∀ m ∈ pending, w.fs.get (env.cwd ++ ds ++ [m]) = fs₀.get (env.cwd ++ ds ++ [m])
  free : ∀ r ∈ rs, r.spfName ∈ pending →
    ∀ k, w.fs.get (env.cwd ++ ds ++ [tempName r.spfName (env.temp k)]) = none
  done : ∀ l r, Stale ls rs l r → r.spfName ∉ pending → Revised env ds l r fs₀ w.fs

/-- No name of the listings is that of a temporary file for another. -/
theorem Listings.ne_temp (hlist : Listings env ds fs₀ ls rs) {m : Str}
    (hm : m ∈ ls.map SpFile.spfName ∨ m ∈ rs.map SpFile.spfName) (hr : r ∈ rs) (k : Nat) :
    m ≠ tempName r.spfName (env.temp k) := by
  rintro rfl
  rcases hm with hm | hm
  · obtain ⟨l, hl, hname⟩ := List.mem_map.mp hm
    obtain ⟨-, node, hnode, -⟩ := hlist.sees l hl
    rw [hname, hlist.free r hr k] at hnode
    simp at hnode
  · obtain ⟨r', hr', hname⟩ := List.mem_map.mp hm
    exact hlist.temps r hr r' hr' k hname

theorem Merged.known {rest : List Str} (hlist : Listings env ds fs₀ ls rs)
    (h : Merged env ds fs₀ ls rs (n :: rest) w) :
    Seen env ds n (entryOf n ls) (entryOf n rs) w := by
  have hn := List.mem_cons_self (a := n) (l := rest)
  refine ⟨h.inside, ?_, fun l hl => ?_, fun r hr => ?_⟩
  · rcases h.listed n hn with hm | hm
    · obtain ⟨l, hl, rfl⟩ := List.mem_map.mp hm
      exact (hlist.sees l hl).1
    · obtain ⟨r, hr, rfl⟩ := List.mem_map.mp hm
      exact hlist.names r hr
  · obtain ⟨hmem, rfl⟩ := find_some hl
    obtain ⟨-, k, hk, hsee⟩ := hlist.sees l hmem
    exact ⟨rfl, k, (h.left _ hn).trans hk, hsee⟩
  · obtain ⟨hmem, rfl⟩ := find_some hr
    exact ⟨rfl, hlist.granul r hmem, hlist.serves r hmem, h.free r hmem hn⟩

/-- One name more. -/
theorem Merged.step {rest : List Str} (hlist : Listings env ds fs₀ ls rs)
    (h : Merged env ds fs₀ ls rs (n :: rest) w)
    (hdone : Done env ds n (entryOf n ls) (entryOf n rs) w w') :
    Merged env ds fs₀ ls rs rest w' := by
  obtain ⟨hnew, hnodup⟩ := List.nodup_cons.mp h.nodup
  have hn := List.mem_cons_self (a := n) (l := rest)
  have hcons : ∀ {m}, m ∈ rest → m ∈ n :: rest := fun hm => List.mem_cons_of_mem _ hm
  -- a place whose name is neither `n` nor one of its temporary names has been left alone
  have hoff : ∀ m, m ≠ n → (∀ r ∈ rs, r.spfName = n → ∀ k, m ≠ tempName n (env.temp k)) →
      w'.fs.get (env.cwd ++ ds ++ [m]) = w.fs.get (env.cwd ++ ds ++ [m]) := by
    intro m hmn htemp
    cases hr : entryOf n rs with
    | none => rw [hdone.local_ hr]
    | some r =>
      obtain ⟨hmem, hname⟩ := find_some hr
      refine hdone.touches.off _ (fun heq => hmn ?_) fun k heq => ?_
      · exact List.singleton_inj.mp (List.append_cancel_left heq)
      · exact htemp r hmem hname k (List.singleton_inj.mp (List.append_cancel_left heq))
  refine ⟨hdone.touches.stands h.inside, hnodup, fun m hm => h.listed m (hcons hm), fun m hm => ?_,
    fun r hr hm k => ?_, fun l r hstale hm => ?_⟩
  · have hmn : m ≠ n := fun heq => hnew (heq ▸ hm)
    rw [hoff m hmn fun r hr hname k => hname ▸ hlist.ne_temp (h.listed m (hcons hm)) hr k]
    exact h.left m (hcons hm)
  · have htemp : ∀ r' ∈ rs, r'.spfName = n → ∀ k',
        tempName r.spfName (env.temp k) ≠ tempName n (env.temp k') := by
      intro r' _ _ k' heq
      exact hnew (tempName_inj heq ▸ hm)
    rw [hoff _ (fun heq => hlist.ne_temp (h.listed n hn) hr k heq.symm) htemp]
    exact h.free r hr (hcons hm) k
  · obtain ⟨hl, hr, hname, htype, hdiff⟩ := hstale
    by_cases hrn : r.spfName = n
    · subst hrn
      have hentry : entryOf r.spfName ls = some l := hname ▸ find_of_mem hlist.lnodup hl
      exact (hdone.updates l r hentry (find_of_mem hlist.rnodup hr) htype hdiff).congr
        (h.left _ hn) rfl
    · have hget := hoff r.spfName hrn fun r' hr' hname' k => hname' ▸ hlist.temps r' hr' r hr k
      have hm' : r.spfName ∉ n :: rest := by
        rw [List.mem_cons, not_or]
        exact ⟨hrn, hm⟩
      exact (h.done l r ⟨hl, hr, hname, htype, hdiff⟩ hm').congr rfl hget

theorem Loose.fetch {I : World F → Prop} (hI : Loose I) (spf : SpFile) :
    Keeps I (fetch (syncOps env) spf) := by
  unfold Spegla.fetch
  cases spf.spfType with
  | plainfile => exact hI.getFtpFile spf
  | symlink =>
    exact (spfSymlink_keeps hI.toStill fun w hw => hI.act w hw).bind fun _ => Keeps.pure _
  | directory => exact Keeps.pure _
  | unknown => exact Keeps.pure _

theorem Loose.syncName {I : World F → Prop} (hI : Loose I) (lo ro : Option SpFile) :
    Keeps I (syncName (syncOps env) lo ro) := by
  have hrm : ∀ spf, Keeps I ((syncOps env).spfRm spf) := fun spf => hI.toTreeFree.spfRm spf
  unfold Spegla.syncName
  cases lo with
  | none =>
    cases ro with
    | none => exact Keeps.pure _
    | some r => exact hI.fetch r
  | some l =>
    cases ro with
    | none => exact (hrm l).bind fun _ => Keeps.pure _
    | some r =>
      refine Keeps.ite (fun _ => (hrm l).bind fun _ => hI.fetch r) fun _ => ?_
      cases r.spfType with
      | plainfile =>
        refine Keeps.ite (fun _ => hI.fetch r) fun _ =>
          Keeps.ite (fun _ => ?_) fun _ => Keeps.pure _
        exact (spfChmod_keeps fun w hw => hI.act w hw).bind fun _ => Keeps.pure _
      | symlink =>
        refine Keeps.ite (fun _ => (hrm r).bind fun b => ?_) fun _ => Keeps.pure _
        exact Keeps.ite (fun _ => hI.fetch r) fun _ => Keeps.pure _
      | directory => exact Keeps.pure _
      | unknown => exact Keeps.pure _

theorem queued_some {lo ro : Option SpFile} {spf : SpFile} (h : queued lo ro = some spf) :
    ∃ r, ro = some r ∧ r.spfType = .directory ∧ spf.spfName = r.spfName := by
  unfold queued at h
  cases ro with
  | none => cases lo <;> simp at h
  | some r =>
    refine ⟨r, rfl, ?_⟩
    cases lo with
    | none =>
      simp only [Option.ite_none_right_eq_some, Option.some.injEq] at h
      exact ⟨h.1, by rw [← h.2]⟩
    | some l =>
      simp only [Option.ite_none_right_eq_some] at h
      refine ⟨h.1, ?_⟩
      have h' := h.2
      split at h'
      · rw [← Option.some.inj h']
      · rw [← Option.some.inj h']

/-! ## The whole run -/

/-- The places of the local entries that differ from remote ones. -/
def StalePlace (env : Env F) (ds : List Str) (ls rs : List SpFile) (q : Path) : Prop :=
  ∃ l r, Stale ls rs l r ∧ q = env.cwd ++ ds ++ [r.spfName]

theorem Differs.not_dir (h : Differs l r) : r.spfType ≠ .directory := fun hd => by
  simp [Differs, hd] at h

/-- The directories of the queue have other names. -/
theorem stalePlace_queue (hlist : Listings env ds fs₀ ls rs) {spf : SpFile}
    (h : queued (entryOf n ls) (entryOf n rs) = some spf) :
    ¬StalePlace env ds ls rs (env.cwd ++ ds ++ [spf.spfName]) := by
  rintro ⟨l, r, ⟨-, hr, -, -, hdiff⟩, heq⟩
  obtain ⟨r', hr', hdir, hname⟩ := queued_some h
  obtain ⟨hmem, -⟩ := find_some hr'
  -- both have the name of one remote entry
  have hsame : r'.spfName = r.spfName := by
    rw [← hname]
    exact List.singleton_inj.mp (List.append_cancel_left heq)
  have hrr : entryOf r.spfName rs = some r := find_of_mem hlist.rnodup hr
  have hrr' : entryOf r'.spfName rs = some r' := find_of_mem hlist.rnodup hmem
  rw [hsame, hrr, Option.some.injEq] at hrr'
  exact hdiff.not_dir (hrr' ▸ hdir)

/-- Nor is there one below another directory. -/
theorem stalePlace_clear (env : Env F) (ds : List Str) (ls rs : List SpFile) (d : Str) :
    Clear env (StalePlace env ds ls rs) (ds ++ [d]) := by
  rintro q hq ⟨l, r, -, heq⟩
  have hlen := congrArg List.length heq
  simp only [List.length_append, List.length_cons, List.length_nil] at hlen
  have := List.length_pos_iff.mpr hq
  omega

/-- What the first loop has made of the entries that differ is kept. -/
theorem Merged.revised (h : Merged env ds fs₀ ls rs [] w)
    (hkept : KeptIn (StalePlace env ds ls rs) w.fs w') (hstale : Stale ls rs l r) :
    Revised env ds l r fs₀ w'.fs :=
  (h.done l r hstale (by simp)).congr rfl (hkept _ ⟨l, r, hstale, rfl⟩)

/-- The first loop goes through all names, and what it has made of the entries that differ is kept
in the second, provided that the run gets into the directories below through directories. -/
theorem spSyncDir_merges (stack : Nat) (hcalm : NothingFails env) (hdel : env.spDoDelete = false)
    (hin : StandsIn env ds w) (hlist : Listings env ds w.fs ls rs) :
    wp (spSyncDir env (stack + 1) (some (heapOf ls)) (some (heapOf rs))) w
      (fun _ w' => ∃ w₁, Merged env ds w.fs ls rs [] w₁ ∧
        Provided World.trace (StaysBelow env) w w'
          (KeptIn (StalePlace env ds ls rs) w₁.fs w'))
      (fun _ w' => ∃ w₁, Merged env ds w.fs ls rs [] w₁ ∧
        Provided World.trace (StaysBelow env) w w'
          (KeptIn (StalePlace env ds ls rs) w₁.fs w')) := by
  have hlinked : ∀ e ∈ ls ++ rs, e.Linked := by
    intro e he
    rcases List.mem_append.mp he with he | he
    · obtain ⟨-, k, -, hsee | hdir⟩ := hlist.sees e he
      · rw [hsee]
        exact localEntry_linked _ _ k
      · exact fun hlink => by rw [hdir] at hlink; simp at hlink
    · exact hlist.linked e he
  obtain ⟨names, queue, hnodup, hmem, rfl, hrun⟩ := spSyncDir_names env stack hlist.lnodup
    hlist.rnodup hlist.known hlinked
  rw [hrun, wp_bind, wp_modify]
  -- the first loop, name by name
  have hstart : Merged env ds w.fs ls rs names
      { w with spDirsTraversed := w.spDirsTraversed + 1 } := by
    refine ⟨⟨hin.curDir, hin.names, hin.dir⟩, hnodup, fun m hm => (hmem m).mp hm, fun m _ => rfl,
      fun r hr _ k => hlist.free r hr k, fun l r hstale hm => absurd ((hmem _).mpr (Or.inr ?_)) hm⟩
    exact List.mem_map_of_mem hstale.2.1
  have hmerge := wp_forM (E := fun (_ : Exit) (_ : World F) => False)
    (I := Merged env ds w.fs ls rs) (fun n rest w' h =>
      wp_mono (syncName_noDelete hcalm hdel (h.known hlist)) (fun _ _ hd => h.step hlist hd)
        fun _ _ h => h) names _ hstart
  have hgrows : Grows World.trace (names.forM fun n =>
      syncName (syncOps env) (entryOf n ls) (entryOf n rs)) :=
    grows_of_loose fun hI => Keeps.forM names fun n => hI.syncName _ _
  refine wp_seq (wp_mono (wp_and hmerge (hgrows w.trace _ (List.suffix_refl _))) (fun _ _ h => h)
    fun _ _ h => h.1.elim) ?_
  rintro _ w₁ ⟨hmerged, hsuffix⟩
  -- the second loop keeps what the first has done
  have hkeeping : Keeping env (StalePlace env ds ls rs) w₁.fs (fun _ => False) ds w₁ :=
    ⟨hmerged.inside, fun _ _ => rfl, fun _ hb => hb.elim⟩
  have hK : ∀ q, StalePlace env ds ls rs q → w₁.fs.get q ≠ none := by
    rintro q ⟨l, r, hstale, rfl⟩
    exact (hmerged.done l r hstale (by simp)).there
  have hdirs : Does (StaysBelow env) (KeptIn (StalePlace env ds ls rs) w₁.fs)
      (Keeping env (StalePlace env ds ls rs) w₁.fs (fun _ => False) ds)
      ((names.filterMap fun n => queued (entryOf n ls) (entryOf n rs)).forM
        (dirStep env fun l r => spSyncDir env stack (some l) (some r)))
      fun _ => Keeping env (StalePlace env ds ls rs) w₁.fs (fun _ => False) ds := by
    refine Upholds.forM _ fun spf hspf => ?_
    obtain ⟨n, -, hq⟩ := List.mem_filterMap.mp hspf
    exact dirStep_keeping (fun _ hx => hx) (.inl hK)
      (fun hname => ⟨hname, stalePlace_queue hlist hq⟩)
      (spSyncDir_keeping hdel (fun _ hx => hx) (.inl hK) stack _
        (stalePlace_clear env ds ls rs spf.spfName))
  refine wp_mono (hdirs.run hkeeping) (fun _ w' h => ?_) fun _ w' h => ?_
  · exact ⟨w₁, hmerged, (h.mono Keeping.kept).since hsuffix⟩
  · exact ⟨w₁, hmerged, h.since hsuffix⟩

/-- The file `a` on the server. -/
def servedA : SpFile :=
  { (default : SpFile) with spfName := ['a'], spfTime := 9, spfSize := 2, spfMode := 0o600#12 }

theorem listings_servedA :
    Listings noDeleteServed [] rootWithA.fs [localEntry 255 ['a'] nodeA] [servedA] where
  lnodup := by decide
  rnodup := by decide
  sees l hl := by
    rw [List.mem_singleton.mp hl]
    exact ⟨by decide, nodeA, by decide, Or.inl rfl⟩
  names := by decide
  known := by decide
  linked := by decide
  granul := by decide
  serves r hr _ := by
    rw [List.mem_singleton.mp hr]
    exact ⟨['y', 'y'], ⟨0, fun _ => rfl⟩, rfl⟩
  free r hr k := by
    rw [List.mem_singleton.mp hr]
    show rootWithA.fs.get [['.', 'i', 'n', '.', 'a', '.', 'a', 'b', 'c']] = none
    decide
  temps r hr r' hr' k := by
    rw [List.mem_singleton.mp hr, List.mem_singleton.mp hr']
    exact tempName_ne _ _

/-- A link, and another one on the server. -/
def nodeLink : Node := ⟨.symlink ['x'], 0o777#12, 5⟩
def rootWithLink : World Unit := startIn (Fs.init.put [['a']] nodeLink)
def servedLink : SpFile :=
  { (default : SpFile) with
    spfName := ['a'], spfTime := 9, spfType := .symlink, spfSymlink := some ['y'] }

theorem listings_servedLink :
    Listings noDeleteServed [] rootWithLink.fs [localEntry 255 ['a'] nodeLink] [servedLink] where
  lnodup := by decide
  rnodup := by decide
  sees l hl := by
    rw [List.mem_singleton.mp hl]
    exact ⟨by decide, nodeLink, by decide, Or.inl rfl⟩
  names := by decide
  known := by decide
  linked := by decide
  granul := by decide
  serves r hr ht := by
    rw [List.mem_singleton.mp hr] at ht
    cases ht
  free r hr k := by
    rw [List.mem_singleton.mp hr]
    show rootWithLink.fs.get [['.', 'i', 'n', '.', 'a', '.', 'a', 'b', 'c']] = none
    decide
  temps r hr r' hr' k := by
    rw [List.mem_singleton.mp hr, List.mem_singleton.mp hr']
    exact tempName_ne _ _

section

-- a run on fixed inputs is not to be unfolded
attribute [local irreducible] wp

end

end Spegla
