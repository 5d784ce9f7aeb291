import Spegla.Download

/-!
# Whole runs

What a run of `sp_sync_dir` upholds, through the comparison of two directories, the
directory loop and the recursion, from what the operations uphold.

- `RunInv`: an invariant of a run, in the directory that an index `k` stands for.
- `MergeInv`: one of the comparison of two directories; `MergeInv.mergeLoop`: its loop.
- `descend_upholds`, `dirLoop_upholds`: the other parts.
- `spSyncDir_upholds`, `mirror_upholds`: the whole, by induction on the depth.
-/

namespace Spegla

open CString PosixFs ExitState

variable {F : Type} {κ : Type}

/-- An invariant `P k` of a run while it is in the directory `k`, where the entries it
works on have `Q k`. Below it, in the directory of the entry `spf`, it is `P (next k spf)`;
`Entered k spf` is what is known once that has been entered. -/
structure RunInv (env : Env F) (ok : Logged → Prop) (G : World F → Prop) (P : κ → World F → Prop)
    (Q Entered : κ → SpFile → Prop) (next : κ → SpFile → κ) : Prop where
  still : ∀ k, Still (P k)
  traversed : ∀ k w n, P k w → P k { w with spDirsTraversed := n }
  exits : ∀ k w, P k w → G w
  notSkip : ∀ k w spf, P k w → spfIsASkip env.pathMax w.curDir env.skip spf = some false → Q k spf
  listDir : ∀ k fuel, Does ok G (P k) (listDir env fuel) fun _ => P k
  getFtpFile : ∀ k spf, Does ok G (fun w => P k w ∧ Q k spf) (getFtpFile env spf) fun _ => P k
  spfRm : ∀ k spf, Does ok G (fun w => P k w ∧ Q k spf) (spfRm env spf) fun _ => P k
  spfSymlink : ∀ k spf, Does ok G (P k) (spfSymlink env spf) fun _ => P k
  spfMkdir : ∀ k spf, Does ok G (P k) (spfMkdir env spf) fun _ => P k
  spfChmod : ∀ k spf mode, Does ok G (P k) (spfChmod env spf mode) fun _ => P k
  spfNewTime : ∀ k spf, Does ok G (P k) (spfNewTime env spf) fun _ => P k
  enter : ∀ k spf w, P k w → ok ⟨.enter spf, w.curDir, w.fs⟩ → Entered k spf ∧
    P (next k spf) { w.logged (.enter spf) with
      curDir := (curDirCd env.pathMax w.curDir spf.spfName).getD w.curDir }
  below : ∀ k spf w₀ w, P k w₀ → Entered k spf → P (next k spf) w →
    P (next k spf) (w.logged (.dirStep (w₀.curDir ++ spf.spfName) (some w.curDir.dropLast)))
  leave : ∀ k spf w, Entered k spf → P (next k spf) w →
    P k { w with curDir := curDirCdup w.curDir }
  outside : ∀ k spf w₀ w, P k w₀ → Entered k spf → P k w →
    P k (w.logged (.dirStep (w₀.curDir ++ spf.spfName) (spfFullName env spf w)))

variable {env : Env F} {ok : Logged → Prop} {G : World F → Prop} {P : κ → World F → Prop}
variable {Q Entered : κ → SpFile → Prop} {next : κ → SpFile → κ}

/-- A heap of entries with `Q`. -/
def Entries (Q : SpFile → Prop) (h : HeapList SpFile) : Prop := h.Valid ∧ ∀ e ∈ h.elems, Q e

theorem Entries.pop {Q : SpFile → Prop} {h h' : HeapList SpFile} {x : SpFile} (hh : Entries Q h)
    (hpop : heapPop h = some (x, h')) : Q x ∧ Entries Q h' := by
  obtain ⟨hv, helems, -, -⟩ := heapPop_spec hh.1 hpop
  have hmem : ∀ e, e = x ∨ e ∈ h'.elems → Q e := fun e he =>
    hh.2 e (by rw [helems]; exact Multiset.mem_cons.mpr he)
  exact ⟨hmem x (Or.inl rfl), hv, fun e he => hmem e (Or.inr he)⟩

theorem entries_heapOf {Q : SpFile → Prop} {es : List SpFile} (h : ∀ e ∈ es, Q e) :
    Entries Q (heapOf es) :=
  ⟨heapOf_valid es, fun e he => h e (by rw [heapOf_elems] at he; exact he)⟩

/-- Listing a directory keeps what does not look at the connection. -/
theorem listDir_does {P : World F → Prop} (hP : Stable P) (hG : ∀ w, P w → G w) (fuel : Nat) :
    Does ok G P (listDir env fuel) fun _ => P :=
  Upholds.of_keeps (fun tr => listDir_keeps (grew_loose tr).toStable fuel)
    (listDir_keeps hP fuel) hG

/-! ## The comparison of two directories -/

/-- An invariant `P` of the comparison of a directory whose local entries have `Ql` and whose remote
entries have `Qr`, over the operations it calls. -/
structure MergeInv {σ L : Type} (ops : SyncOps σ) (log : σ → List L) (ok : L → Prop)
    (G P : σ → Prop)
    (Ql Qr : SpFile → Prop) : Prop where
  exits : ∀ s, P s → G s
  getFtpFile : ∀ spf, Upholds log ok G (fun s => P s ∧ Qr spf) (ops.getFtpFile spf) fun _ => P
  spfSymlink : ∀ spf, Upholds log ok G (fun s => P s ∧ Qr spf) (ops.spfSymlink spf) fun _ => P
  rmLocal : ∀ spf, Upholds log ok G (fun s => P s ∧ Ql spf) (ops.spfRm spf) fun _ => P
  rmRemote : ∀ spf, Upholds log ok G (fun s => P s ∧ Qr spf) (ops.spfRm spf) fun _ => P
  spfChmod : ∀ l r, l.spfName = r.spfName → l.spfType = .plainfile →
    Upholds log ok G (fun s => P s ∧ Ql l ∧ Qr r)
      (ops.spfChmod { r with spfOpt := { r.spfOpt with logChmod := true } } 0) fun _ => P

namespace MergeInv

variable {σ L : Type} {ops : SyncOps σ} {log : σ → List L} {ok : L → Prop} {G P : σ → Prop}
variable {Ql Qr : SpFile → Prop}

theorem spGetFile (h : MergeInv ops log ok G P Ql Qr) (spf : SpFile) (dirs : FifoList SpFile) :
    Upholds log ok G (fun s => P s ∧ Qr spf) (spGetFile ops spf dirs) fun _ => P := by
  unfold Spegla.spGetFile
  cases spf.spfType with
  | directory => exact Upholds.pure fun _ hw => hw.1
  | unknown => exact Upholds.pure fun _ hw => hw.1
  | plainfile => exact (h.getFtpFile spf).bind fun _ => Upholds.pure fun _ hw => hw
  | symlink => exact (h.spfSymlink spf).bind fun _ => Upholds.pure fun _ hw => hw

theorem mergeSame (h : MergeInv ops log ok G P Ql Qr) {l r : SpFile} (hname : l.spfName = r.spfName)
    (htype : l.spfType = r.spfType) (dirs : FifoList SpFile) :
    Upholds log ok G (fun s => P s ∧ Ql l ∧ Qr r) (mergeSame ops l r dirs) fun _ => P := by
  unfold Spegla.mergeSame
  cases hk : r.spfType with
  | directory =>
    simp only [Spegla.spGetFile]
    exact Upholds.pure fun _ hw => hw.1
  | plainfile =>
    refine Upholds.ite (fun _ => (h.spGetFile r dirs).pre fun _ hw => ⟨hw.1, hw.2.2⟩) fun _ =>
      Upholds.ite (fun _ => ?_) fun _ => Upholds.pure fun _ hw => hw.1
    have hchmod := h.spfChmod l r hname (htype.trans hk)
    rw [hk] at hchmod
    exact hchmod.bind fun _ => Upholds.pure fun _ hw => hw
  | symlink =>
    simp only
    split
    · refine Upholds.ite (fun _ => ?_) fun _ => Upholds.pure fun _ hw => hw.1
      refine (((h.rmRemote r).frame (Qr r)).pre fun _ hw =>
        ⟨⟨hw.1, hw.2.2⟩, hw.2.2⟩).bind fun b => ?_
      exact Upholds.ite (fun _ => h.spGetFile r dirs) fun _ => Upholds.pure fun _ hw => hw.1
    · exact Upholds.throw fun s hs => h.exits s hs.1
  | unknown => exact Upholds.throw fun s hs => h.exits s hs.1

theorem mergeStep (h : MergeInv ops log ok G P Ql Qr) (l r : HeapList SpFile)
    (dirs : FifoList SpFile) :
    Upholds log ok G (fun s => P s ∧ Entries Ql l ∧ Entries Qr r) (mergeStep ops l r dirs)
      fun res s => P s ∧ Entries Ql res.1 ∧ Entries Qr res.2.1 := by
  unfold Spegla.mergeStep
  -- each branch works on entries that have been popped, and goes on with the heaps left over
  have hget : ∀ {l l' r r' : HeapList SpFile} {spf : SpFile} {dirs : FifoList SpFile},
      (Entries Ql l → Entries Ql l') → heapPop r = some (spf, r') →
      Upholds log ok G (fun s => P s ∧ Entries Ql l ∧ Entries Qr r)
        (do return (l', r', ← Spegla.spGetFile ops spf dirs))
        fun res s => P s ∧ Entries Ql res.1 ∧ Entries Qr res.2.1 := by
    intro l l' r r' spf dirs hl hr
    refine (((h.spGetFile spf dirs).frame (Entries Ql l' ∧ Entries Qr r')).pre fun w hw => ?_).bind
      fun _ => Upholds.pure fun _ hw => hw
    obtain ⟨hQ, hr'⟩ := hw.2.2.pop hr
    exact ⟨⟨hw.1, hQ⟩, hl hw.2.1, hr'⟩
  have hrm : ∀ {l l' r : HeapList SpFile} {spf : SpFile}, heapPop l = some (spf, l') →
      Upholds log ok G (fun s => P s ∧ Entries Ql l ∧ Entries Qr r) (ops.spfRm spf)
        fun _ s => P s ∧ Entries Ql l' ∧ Entries Qr r := by
    intro l l' r spf hl
    refine ((h.rmLocal spf).frame (Entries Ql l' ∧ Entries Qr r)).pre fun w hw => ?_
    obtain ⟨hQ, hl'⟩ := hw.2.1.pop hl
    exact ⟨⟨hw.1, hQ⟩, hl', hw.2.2⟩
  cases hl : heapPop l with
  | none =>
    cases hr : heapPop r with
    | none => exact Upholds.pure fun _ hw => hw
    | some xr => exact hget id hr
  | some xl =>
    cases hr : heapPop r with
    | none => exact (hrm hl).bind fun _ => Upholds.pure fun _ hw => hw
    | some xr =>
      refine Upholds.ite (fun _ => hget id hr) fun _ => Upholds.ite (fun _ => ?_) fun _ =>
        Upholds.ite (fun _ => ?_) fun htype => ?_
      · exact (hrm hl).bind fun _ => Upholds.pure fun _ hw => hw
      · exact (hrm hl).bind fun _ => hget id hr
      · have hname : xl.1.spfName = xr.1.spfName := by
          have hcmp : spfNameCmp xl.1 xr.1 = 0 := by omega
          exact strcmp_eq_zero hcmp
        rw [ne_eq, not_not] at htype
        refine (((h.mergeSame hname htype.symm dirs).frame
          (Entries Ql xl.2 ∧ Entries Qr xr.2)).pre fun w hw => ?_).bind fun _ =>
            Upholds.pure fun _ hw => hw
        obtain ⟨hQl, hl'⟩ := hw.2.1.pop hl
        obtain ⟨hQr, hr'⟩ := hw.2.2.pop hr
        exact ⟨⟨hw.1, hQl, hQr⟩, hl', hr'⟩

/-- The first loop of `sp_sync_dir`. -/
theorem mergeLoop (h : MergeInv ops log ok G P Ql Qr) :
    ∀ (fuel : Nat) (l r : HeapList SpFile) (dirs : FifoList SpFile),
      Upholds log ok G (fun s => P s ∧ Entries Ql l ∧ Entries Qr r) (mergeLoop ops fuel l r dirs)
        fun _ => P
  | 0, _, _, _ => Upholds.throw fun s hs => h.exits s hs.1
  | fuel + 1, l, r, dirs => by
    refine Upholds.ite (fun _ => Upholds.pure fun _ hw => hw.1) fun _ => ?_
    exact (h.mergeStep l r dirs).bind fun res => h.mergeLoop fuel res.1 res.2.1 res.2.2

end MergeInv

namespace RunInv

/-- What an operation keeps, it upholds. -/
theorem keeps (h : RunInv env ok G P Q Entered next) {α : Type} {x : Prog F α} (k : κ)
    (hk : ∀ {I : World F → Prop}, Still I → Keeps I x) : Does ok G (P k) x fun _ => P k :=
  Upholds.of_keeps (fun tr => hk (grew_loose tr).toStill) (hk (h.still k)) (h.exits k)

/-! ## The entries of a directory -/

theorem addName_upholds (h : RunInv env ok G P Q Entered next) (k : κ) (headp : HeapList SpFile)
    (name : Str) : Does ok G (fun w => P k w ∧ Entries (Q k) headp) (addName env headp name)
      fun headp w => P k w ∧ Entries (Q k) headp := by
  refine ((h.keeps k fun hI => spfStatInit_keeps hI name).frame
    (Entries (Q k) headp)).bind fun s => ?_
  cases s with
  | none => exact Upholds.pure fun _ hw => hw
  | some spf =>
    refine Upholds.get.bind fun w => ?_
    cases hf : filterEntry env w.curDir spf with
    | error e => exact Upholds.throw fun s hs => h.exits k s hs.2.1
    | ok o =>
      cases o with
      | none => exact Upholds.pure fun _ hw => hw.2
      | some spf' =>
        refine Upholds.pure ?_
        rintro s ⟨rfl, hP, hv, hQ⟩
        have hspf := h.notSkip k w spf' hP (filterEntry_some hf).2.2.2
        obtain ⟨hv', helems, -⟩ := heapPush_spec hv spf'
        refine ⟨hP, hv', fun e he => ?_⟩
        rw [helems] at he
        rcases Multiset.mem_cons.mp he with rfl | he
        · exact hspf
        · exact hQ e he

theorem buildLocalDir_upholds (h : RunInv env ok G P Q Entered next) (k : κ) :
    Does ok G (P k) (buildLocalDir env) fun l w => P k w ∧ ∀ x, l = some x → Entries (Q k) x := by
  refine Upholds.get.bind fun w =>
    ((h.keeps k fun hI => hI.look).pre fun s hs => hs.2).bind fun r => ?_
  cases r with
  | error e => exact Upholds.pure fun _ hw => ⟨hw, by simp⟩
  | ok names =>
    refine Upholds.map ?_
    refine ((Upholds.foldlM names (heapInit spfPushComp) (h.addName_upholds k)).pre fun s hs =>
      ⟨hs, entries_heapOf (List.forall_mem_nil _)⟩).post fun headp w hw => ⟨hw.1, ?_⟩
    rintro x hx
    rw [← Option.some.inj hx]
    exact hw.2

theorem openListing_upholds (h : RunInv env ok G P Q Entered next) (k : κ) (t : Option Str) :
    Does ok G (P k) (openListing env t) fun r w => P k w ∧ ∀ x, r = some x → Entries (Q k) x := by
  cases t with
  | none => exact Upholds.pure fun _ hw => ⟨hw, by simp⟩
  | some listing =>
    refine (h.keeps k fun hI => hI.look).bind fun r => ?_
    cases r with
    | error e => exact Upholds.throw fun s hs => h.exits k s hs
    | ok u =>
      refine Upholds.get.bind fun w => ?_
      cases hb : buildRemoteDir env w.curDir w.tick (some listing) with
      | error e => exact Upholds.throw fun s hs => h.exits k s hs.2
      | ok o =>
        refine Upholds.pure ?_
        rintro s ⟨rfl, hP⟩
        refine ⟨hP, ?_⟩
        rintro x rfl
        obtain ⟨listing', -, rfl⟩ := buildRemoteDir_some hb
        refine entries_heapOf fun e he => ?_
        obtain ⟨row, -, hrow⟩ := mem_rowEntries.mp he
        obtain ⟨spf₀, -, -, -, hf⟩ := rowEntry_some hrow
        exact h.notSkip k w e hP (filterEntry_some hf).2.2.2

/-! ## The comparison -/

/-- The comparison keeps `P`. -/
theorem mergeInv (h : RunInv env ok G P Q Entered next) (k : κ) :
    MergeInv (syncOps env) World.trace ok G (P k) (Q k) (Q k) where
  exits := h.exits k
  getFtpFile := h.getFtpFile k
  spfSymlink spf := (h.spfSymlink k spf).pre fun _ hw => hw.1
  rmLocal := h.spfRm k
  rmRemote := h.spfRm k
  spfChmod _ _ _ _ := (h.spfChmod k _ 0).pre fun _ hw => hw.1

/-! ## Directories -/

/-- What is known of a directory that was entered, and of its path `popped`. -/
def Down (P : κ → World F → Prop) (Entered : κ → SpFile → Prop) (k : κ) (spf : SpFile)
    (popped : Str) : Prop := Entered k spf ∧ ∃ w, P k w ∧ popped = w.curDir ++ spf.spfName

theorem goDown_upholds (h : RunInv env ok G P Q Entered next) (k : κ) (spf : SpFile) :
    Does ok G (P k) (goDown env spf) fun popped w =>
      P (next k spf) w ∧ Down P Entered k spf popped := by
  intro w
  refine ⟨[⟨.enter spf, w.curDir, w.fs⟩], rfl, fun hok hP => ?_⟩
  obtain ⟨hent, hdown⟩ := h.enter k spf w hP (hok _ (List.mem_singleton_self _))
  exact ⟨hdown, hent, w, hP, rfl⟩

theorem recordStep_does {popped : Str} {actsOn : World F → Option Str} {P R : World F → Prop}
    (h : ∀ w, P w → R (w.logged (.dirStep popped (actsOn w)))) :
    Does ok G P (recordStep popped actsOn) fun _ => R := fun w =>
  ⟨[⟨.dirStep popped (actsOn w), w.curDir, w.fs⟩], rfl, fun _ hp => h w hp⟩

theorem syncBelow_upholds (h : RunInv env ok G P Q Entered next) (k : κ) (spf : SpFile)
    (popped : Str)
    {sync : HeapList SpFile → HeapList SpFile → Prog F PUnit}
    (hsync : ∀ k l r, Does ok G (fun w => P k w ∧ Entries (Q k) l ∧ Entries (Q k) r) (sync l r)
      fun _ => P k) :
    Does ok G (fun w => P (next k spf) w ∧ Down P Entered k spf popped) (syncBelow env sync popped)
      fun _ w => P (next k spf) w ∧ Down P Entered k spf popped := by
  refine ((h.buildLocalDir_upholds (next k spf)).frame
    (Down P Entered k spf popped)).bind fun l => ?_
  refine Upholds.pre (P := fun w => P (next k spf) w ∧
    (∀ x, l = some x → Entries (Q (next k spf)) x) ∧ Down P Entered k spf popped) ?_
    fun w hw => ⟨hw.1.1, hw.1.2, hw.2⟩
  refine Upholds.get.bind fun w => ?_
  refine (((h.listDir (next k spf) _).frame _).pre fun w hw => hw.2).bind
    fun tempFile => ((h.openListing_upholds (next k spf) tempFile).frame _).bind fun r => ?_
  cases l with
  | none => exact Upholds.pure fun _ hw => ⟨hw.1.1, hw.2.2⟩
  | some l =>
    cases r with
    | none => exact Upholds.pure fun _ hw => ⟨hw.1.1, hw.2.2⟩
    | some r =>
      refine (recordStep_does (R := fun w => (P (next k spf) w ∧ Entries (Q (next k spf)) l ∧
        Entries (Q (next k spf)) r) ∧ Down P Entered k spf popped) fun w hw => ?_).bind fun _ =>
          (hsync (next k spf) l r).frame _
      obtain ⟨⟨hP, hr⟩, hl, hent, w₀, hw₀, rfl⟩ := hw
      exact ⟨⟨h.below k spf w₀ w hw₀ hent hP, hl l rfl, hr r rfl⟩, hent, w₀, hw₀, rfl⟩

theorem goUp_upholds (h : RunInv env ok G P Q Entered next) (k : κ) (spf : SpFile) (popped : Str) :
    Does ok G (fun w => P (next k spf) w ∧ Down P Entered k spf popped) (goUp env spf popped)
      fun _ => P k := by
  have hlog : Does ok G (fun w => P k w ∧ Down P Entered k spf popped)
      (recordStep popped (spfFullName env spf))
      fun _ w => P k w ∧ Down P Entered k spf popped := recordStep_does fun w hw => by
    obtain ⟨hP, hent, w₀, hw₀, rfl⟩ := hw
    exact ⟨h.outside k spf w₀ w hw₀ hent hP, hent, w₀, hw₀, rfl⟩
  have hup : Does ok G (fun w => P (next k spf) w ∧ Down P Entered k spf popped)
      (modify fun w : World F => { w with curDir := curDirCdup w.curDir })
      fun _ w => P k w ∧ Down P Entered k spf popped :=
    Upholds.modify (fun _ => rfl) fun w hw => ⟨h.leave k spf w hw.2.1 hw.1, hw.2⟩
  refine hup.bind fun _ => hlog.bind fun _ => ?_
  refine ((h.spfNewTime k spf).frame _).bind fun _ => hlog.bind fun _ => ?_
  exact ((h.spfChmod k spf 0).pre fun _ hw => hw.1).bind fun _ => Upholds.pure fun _ hw => hw

/-- Down into a directory, through it, and up again. -/
theorem descend_upholds (h : RunInv env ok G P Q Entered next) (k : κ) (spf : SpFile)
    {sync : HeapList SpFile → HeapList SpFile → Prog F PUnit}
    (hsync : ∀ k l r, Does ok G (fun w => P k w ∧ Entries (Q k) l ∧ Entries (Q k) r) (sync l r)
      fun _ => P k) : Does ok G (P k) (descend env sync spf) fun _ => P k :=
  (h.goDown_upholds k spf).bind fun popped =>
    (h.syncBelow_upholds k spf popped hsync).bind fun _ => h.goUp_upholds k spf popped

/-- One round of the second loop of `sp_sync_dir`. -/
theorem dirStep_upholds (h : RunInv env ok G P Q Entered next) (k : κ) (spf : SpFile)
    {sync : HeapList SpFile → HeapList SpFile → Prog F PUnit}
    (hsync : ∀ k l r, Does ok G (fun w => P k w ∧ Entries (Q k) l ∧ Entries (Q k) r) (sync l r)
      fun _ => P k) : Does ok G (P k) (dirStep env sync spf) fun _ => P k := by
  refine Upholds.get.bind fun w => Upholds.pre (P := P k) ?_ fun _ hw => hw.2
  rcases spfIsASkip env.pathMax w.curDir env.skip spf with - | - | -
  · exact Upholds.throw fun s hs => h.exits k s hs
  · refine (h.spfMkdir k spf).bind fun made => Upholds.ite (fun _ => ?_) fun _ =>
      Upholds.pure fun _ hw => hw
    refine (h.spfChmod k spf S_IRWXU).bind fun b => Upholds.ite (fun _ => ?_) fun _ =>
      Upholds.pure fun _ hw => hw
    exact h.descend_upholds k spf hsync
  · exact Upholds.pure fun _ hw => hw

/-- The second loop of `sp_sync_dir`. -/
theorem dirLoop_upholds {P : World F → Prop} {step : SpFile → Prog F PUnit} (hG : ∀ w, P w → G w)
    (hstep : ∀ spf, Does ok G P (step spf) fun _ => P) : ∀ (fuel : Nat) (dirs : FifoList SpFile),
      Does ok G P (dirLoop step fuel dirs) fun _ => P
  | 0, _ => Upholds.throw hG
  | fuel + 1, dirs => by
    unfold dirLoop
    cases fifoPop dirs with
    | none => exact Upholds.pure fun _ hw => hw
    | some x => exact (hstep x.1).bind fun _ => dirLoop_upholds hG hstep fuel x.2

/-- **A run of `sp_sync_dir`**, by induction on the depth. -/
theorem spSyncDir_upholds (h : RunInv env ok G P Q Entered next) : ∀ (stack : Nat) (k : κ)
    (l r : HeapList SpFile), Does ok G (fun w => P k w ∧ Entries (Q k) l ∧ Entries (Q k) r)
      (spSyncDir env stack (some l) (some r)) fun _ => P k
  | 0, k, _, _ => Upholds.throw fun w hw => h.exits k w hw.1
  | stack + 1, k, l, r => by
    have hcount : Does ok G (fun w => P k w ∧ Entries (Q k) l ∧ Entries (Q k) r)
        (modify fun w : World F => { w with spDirsTraversed := w.spDirsTraversed + 1 })
        fun _ w => P k w ∧ Entries (Q k) l ∧ Entries (Q k) r :=
      Upholds.modify (fun _ => rfl) fun w hw => ⟨h.traversed k w _ hw.1, hw.2⟩
    refine hcount.bind fun _ => ((h.mergeInv k).mergeLoop _ l r fifoInit).bind fun res => ?_
    exact dirLoop_upholds (h.exits k) (fun spf => h.dirStep_upholds k spf
      fun k l r => h.spSyncDir_upholds stack k l r) _ res.2.2

/-- A run of the program from the listing of the remote directory. -/
theorem mirror_upholds (h : RunInv env ok G P Q Entered next) (k : κ) (listing : Str) :
    Does ok G (P k) (mirror env listing) fun _ => P k := by
  have hnone : ∀ {stack : Nat} {l r : Option (HeapList SpFile)} {c : Prop}, l = none ∨ r = none →
      Does ok G (fun w => P k w ∧ c) (spSyncDir env stack l r) fun _ => P k := by
    intro stack l r c hlr
    match stack, l, r with
    | 0, _, _ => exact Upholds.throw fun w hw => h.exits k w hw.1
    | _ + 1, none, _ => exact Upholds.pure fun _ hw => hw.1
    | _ + 1, some _, none => exact Upholds.pure fun _ hw => hw.1
    | _ + 1, some _, some _ => simp at hlr
  refine (h.openListing_upholds k (some listing)).bind fun r => ?_
  refine ((h.buildLocalDir_upholds k).frame _).bind fun l => ?_
  cases l with
  | none => exact (hnone (Or.inl rfl)).pre fun w hw => ⟨hw.1.1, hw.2⟩
  | some l =>
    cases r with
    | none => exact (hnone (Or.inr rfl)).pre fun w hw => ⟨hw.1.1, hw.2⟩
    | some r =>
      exact (h.spSyncDir_upholds env.stack k l r).pre fun w hw =>
        ⟨hw.1.1, hw.1.2 l rfl, hw.2 r rfl⟩

end RunInv

end Spegla
