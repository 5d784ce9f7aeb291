import Spegla.SkippedFiles

/-!
# The local directory

What `build_local_dir` shows of the directory that a run is in.

- `localEntry`: the entry of a node; `Sees`: an entry is that of a node in the directory, or is to
  be treated as a directory.
- `spfStatInit_sees`, `buildLocalDir_sees`: all entries are so.
-/

namespace Spegla

open CString PosixFs ExitState

variable {F : Type} {env : Env F} {ds : List Str} {c : Str} {w : World F}

/-- The node is no symbolic link. -/
def NoLink (n : Node) : Prop := ∀ t, n.kind ≠ .symlink t

/-- A name in the directory that is no link. -/
theorem StandsIn.resolve_follow (h : StandsIn env ds w) (hc : IsName c)
    (hlink : ∀ n, w.fs.get (env.cwd ++ ds ++ [c]) = some n → NoLink n) :
    PosixFs.resolve w.fs env.cwd true (dirStr ds ++ c) = .ok (env.cwd ++ ds ++ [c]) := by
  have hslash : ∀ d ∈ ds, '/' ∉ d := fun d hd => (h.names d hd).noslash
  have hshape : ∀ t, w.fs.shape (env.cwd ++ ds ++ [c]) ≠ .link t := by
    intro t ht
    unfold Fs.shape at ht
    cases hget : w.fs.get (env.cwd ++ ds ++ [c]) with
    | none => rw [hget] at ht; simp at ht
    | some n =>
      have hn := hlink n hget
      rw [hget] at ht
      cases hk : n.kind with
      | symlink t' => exact hn t' hk
      | file d => simp [hk] at ht
      | dir => simp [hk] at ht
      | special => simp [hk] at ht
  have hwalk : walk w.fs true symloopMax env.cwd (ds ++ [c]) = .ok (env.cwd ++ ds ++ [c]) :=
    walk_name h.names h.dir hc (Or.inr hshape) symloopMax
  unfold PosixFs.resolve
  rw [if_neg (by simp [dirStr]), components_dirStr ds c hslash hc.noslash]
  exact hwalk

theorem self_ne (ds : Path) (c : Str) : env.cwd ++ ds ++ [c] ≠ env.cwd ++ ds := by
  intro h
  have hlen := congrArg List.length h
  simp at hlen

/-- The entry of the node `n`, as `spf_stat_init` makes it. -/
def localEntry (pathMax : Nat) (name : Str) (n : Node) : SpFile :=
  { statEntry name n with
    spfSymlink := match n.kind with
      | .symlink t => some (t.take pathMax)
      | _ => none }

/-- The entry `e` is that of a node in the directory `ds`, or one to be treated as a directory. -/
def Sees (env : Env F) (ds : List Str) (fs : Fs) (e : SpFile) : Prop :=
  IsName e.spfName ∧ ∃ n, fs.get (env.cwd ++ ds ++ [e.spfName]) = some n ∧
    (e = localEntry env.pathMax e.spfName n ∨ e.spfType = .directory)

theorem localEntry_type (m : Nat) (name : Str) (n : Node) :
    (localEntry m name n).spfType = ftypeOf n.kind := rfl

/-- A node that is seen as a plain file is no link. -/
theorem Sees.noLink {fs : Fs} {e : SpFile} (h : Sees env ds fs e) (he : e.spfType = .plainfile) :
    ∃ n, fs.get (env.cwd ++ ds ++ [e.spfName]) = some n ∧ NoLink n := by
  obtain ⟨-, n, hn, heq | hdir⟩ := h
  · refine ⟨n, hn, fun t ht => ?_⟩
    rw [heq, localEntry_type, ht] at he
    simp [ftypeOf] at he
  · rw [hdir] at he
    simp at he

/-- `spf_stat_init` of a name in the directory. -/
theorem spfStatInit_sees {E : Exit → World F → Prop} (h : StandsIn env ds w) (hc : IsName c) :
    wp (spfStatInit env c) w (fun o _ => ∀ spf, o = some spf →
      ∃ n, w.fs.get (env.cwd ++ ds ++ [c]) = some n ∧ spf = localEntry env.pathMax c n) E := by
  have hnode : ∀ cf, fullName env.pathMax w.curDir c = some cf → ∀ pn,
      nodeAt env.cwd false cf w.fs = .ok pn → w.fs.get (env.cwd ++ ds ++ [c]) = some pn.2 := by
    intro cf hcf pn hpn
    rw [(fullName_some hcf).1, h.curDir] at hpn
    obtain ⟨hr, hg⟩ := nodeAt_ok.mp hpn
    rw [h.resolve_eq hc hr] at hg
    exact hg
  unfold spfStatInit
  rw [wp_bind, wp_get, wp_bind, wp_look]
  cases hl : lookAt env .lstat (fullName env.pathMax w.curDir c) (lstat env.cwd) w with
  | error e => simp
  | ok n =>
    obtain ⟨-, cf, hcf, hstat⟩ := lookAt_ok hl
    unfold lstat at hstat
    cases hpn : nodeAt env.cwd false cf w.fs with
    | error e => rw [hpn] at hstat; simp [Except.map] at hstat
    | ok pn =>
      rw [hpn] at hstat
      obtain rfl : pn.2 = n := Except.ok.inj hstat
      have hget := hnode cf hcf pn hpn
      simp only
      rw [wp_ite]
      -- a link is read as well
      constructor
      · intro htype
        rw [wp_bind, wp_look]
        cases hl' : lookAt env .readlink (fullName env.pathMax w.curDir c)
            (readlink env.cwd env.pathMax) w.ticked with
        | error e => simp
        | ok buf =>
          rintro spf hspf
          obtain rfl := Option.some.inj hspf
          obtain ⟨-, cf', hcf', hread⟩ := lookAt_ok hl'
          obtain rfl : cf = cf' := Option.some.inj (hcf.symm.trans hcf')
          unfold readlink at hread
          rw [ticked_fs, hpn] at hread
          refine ⟨pn.2, hget, ?_⟩
          cases hk : pn.2.kind with
          | symlink t =>
            simp only [hk, Except.ok.injEq] at hread
            subst hread
            simp [localEntry, hk]
          | file d => simp [hk] at hread
          | dir => simp [hk] at hread
          | special => simp [hk] at hread
      · intro htype spf hspf
        obtain rfl := Option.some.inj hspf
        refine ⟨pn.2, hget, ?_⟩
        cases hk : pn.2.kind with
        | symlink t => simp [statEntry, hk, ftypeOf] at htype
        | file d => simp [localEntry, hk, statEntry]
        | dir => simp [localEntry, hk, statEntry]
        | special => simp [localEntry, hk, statEntry]

/-- What is said of the tree alone and of the directory. -/
theorem sameTree_still (fs : Fs) (c : Str) : Still fun w : World F => w.fs = fs ∧ w.curDir = c where
  ticked _ h := h
  record _ _ _ h := h
  count _ _ h := h

/-- The entries of `build_local_dir` are those of the directory. -/
theorem buildLocalDir_sees (h : StandsIn env ds w) :
    wp (buildLocalDir env) w
      (fun l _ => ∀ x, l = some x → Entries (Sees env ds w.fs) x) fun _ _ => True := by
  -- one name: what `lstat` shows is pushed, unless a pattern skips it
  have hadd : ∀ (name : Str) (headp : HeapList SpFile) (w' : World F), IsName name →
      w'.fs = w.fs ∧ w'.curDir = w.curDir → Entries (Sees env ds w.fs) headp →
      wp (addName env headp name) w' (fun headp' w'' => (w''.fs = w.fs ∧ w''.curDir = w.curDir) ∧
        Entries (Sees env ds w.fs) headp') fun _ _ => True := by
    intro name headp w' hname hw' hheap
    have hstands : StandsIn env ds w' := ⟨hw'.2.trans h.curDir, h.names, by rw [hw'.1]; exact h.dir⟩
    unfold addName
    refine wp_seq (wp_mono (wp_and (spfStatInit_sees (E := fun _ _ => True) hstands hname)
      (spfStatInit_keeps (sameTree_still w.fs w.curDir) name w' hw')) (fun _ _ h => h)
      fun _ _ _ => trivial) fun o w₁ ⟨hsees, hw₁⟩ => ?_
    cases o with
    | none => exact ⟨hw₁, hheap⟩
    | some spf =>
      obtain ⟨n, hn, hspf⟩ := hsees spf rfl
      rw [wp_bind, wp_get]
      cases hf : filterEntry env w₁.curDir spf with
      | error e => exact trivial
      | ok r =>
        cases r with
        | none => exact ⟨hw₁, hheap⟩
        | some spf' =>
          refine ⟨hw₁, ?_⟩
          have hname' : spf'.spfName = name := by
            rw [(filterEntry_some hf).1, hspf]
            rfl
          have hnew : Sees env ds w.fs spf' := by
            rw [hw'.1] at hn
            refine ⟨by rw [hname']; exact hname, n, by rw [hname']; exact hn, ?_⟩
            refine (filterEntry_self hf).imp_left fun heq => ?_
            rw [hname', heq, hspf]
          obtain ⟨hv, helems, -⟩ := heapPush_spec hheap.1 spf'
          refine ⟨hv, fun e he => ?_⟩
          rw [helems] at he
          rcases Multiset.mem_cons.mp he with rfl | he
          · exact hnew
          · exact hheap.2 e he
  -- all names, by induction on the list that `readdir` gives
  have hall : ∀ (names : List Str) (headp : HeapList SpFile) (w' : World F),
      (∀ c ∈ names, IsName c) → w'.fs = w.fs ∧ w'.curDir = w.curDir →
      Entries (Sees env ds w.fs) headp →
      wp (names.foldlM (addName env) headp) w' (fun headp' _ => Entries (Sees env ds w.fs) headp')
        fun _ _ => True := by
    intro names
    induction names with
    | nil => exact fun headp w' _ _ hheap => hheap
    | cons name names ih =>
      intro headp w' hnames hw' hheap
      rw [List.foldlM_cons]
      refine wp_seq (hadd name headp w' (hnames name (List.mem_cons_self ..)) hw' hheap)
        fun headp' w'' ⟨hw'', hheap'⟩ => ?_
      exact ih headp' w'' (fun c hc => hnames c (List.mem_cons_of_mem _ hc)) hw'' hheap'
  unfold buildLocalDir
  rw [wp_bind, wp_get, wp_bind, wp_look]
  cases hl : lookAt env .opendir (some w.curDir) (readdir env.cwd) w with
  | error e => simp
  | ok names =>
    obtain ⟨-, s, -, hread⟩ := lookAt_ok hl
    have hnames : ∀ c ∈ names, IsName c := by
      unfold readdir at hread
      cases hn : nodeAt env.cwd true s w.fs with
      | error e => rw [hn] at hread; simp at hread
      | ok pn =>
        rw [hn] at hread
        simp only at hread
        split at hread
        · rw [← Except.ok.inj hread]
          exact fun c hc => Fs.isName_of_mem hc
        · simp at hread
    simp only
    rw [wp_map]
    refine wp_mono (hall names (heapInit spfPushComp) w.ticked hnames ⟨rfl, rfl⟩
      (entries_heapOf (List.forall_mem_nil _))) ?_ fun _ _ h => h
    rintro headp w' hheap x hx
    rw [← Option.some.inj hx]
    exact hheap

end Spegla
