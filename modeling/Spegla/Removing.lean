import Spegla.Lib.TreeRemoval
import Spegla.SpfUtil

/-!
# What `spf_rm` removes

`spf_rm` goes through a hierarchy of directories, goes on where a removal has failed, and leaves
through `exit` where the maximum number of deletes is reached.

- `Counted`: what has been removed since a state is what `sp_deletes` has counted.
- `rmF_counted`, `rmEntries_counted`, `rmRf_counted`: so it is with one entry, with the entries of
  a directory and with a hierarchy; the last is by induction on the depth.
- `spfRm_removed`: `spf_rm` from any state, whatever calls fail; `spfRm_loses`: what may be gone.
-/

namespace Spegla

open CString PosixFs ExitState

variable {F : Type} {env : Env F}

/-- The number of deletes is within its maximum, if there is one. -/
def WithinMax (env : Env F) (n : Nat) : Prop := env.spMaxDelete ≠ 0 → n ≤ env.spMaxDelete

/-- Since the state `w₀` the nodes at some paths in `B` have been removed, nothing else has
changed in the tree, and `sp_deletes` has counted them. -/
def Counted (env : Env F) (B : Path → Prop) (w₀ w : World F) : Prop :=
  ∃ l, Taken l w₀.fs w.fs ∧ (∀ q ∈ l, B q) ∧ w.spDeletes = w₀.spDeletes + l.length ∧
    WithinMax env w.spDeletes

/-- Why a removal leaves: the maximum is reached, or the directories are too deep. -/
def RmExit (env : Env F) (e : Exit) (w : World F) : Prop :=
  e = .maxDeletes ∧ env.spMaxDelete ≠ 0 ∧ w.spDeletes = env.spMaxDelete ∨
    e = .stackOverflow ∧ env.stack ≤ env.pathMax

/-- From a state in which all removals are counted `x` leads to such a state. -/
def RmCounted (env : Env F) (B : Path → Prop) (w₀ : World F) {α : Type} (x : Prog F α) : Prop :=
  ∀ w, Counted env B w₀ w →
    wp x w (fun _ => Counted env B w₀) fun e w' => Counted env B w₀ w' ∧ RmExit env e w'

variable {B : Path → Prop} {w₀ w : World F} {f : Str}

theorem Counted.extends_ (h : Counted env B w₀ w) : Extends w.fs w₀.fs := by
  obtain ⟨l, hl, -⟩ := h
  exact hl.extends_

theorem Counted.ticked (h : Counted env B w₀ w) : Counted env B w₀ w.ticked := h

/-- One more node is removed, and counted. -/
theorem Counted.removed (h : Counted env B w₀ w) (hmax : maxDeletes env w = false)
    {fs : Fs} {p : Path}
    (hB : B p) (hp : w.fs.get p ≠ none) (hget : ∀ q, fs.get q = if q = p then none else w.fs.get q)
    {w' : World F} (hfs : w'.fs = fs) (hdel : w'.spDeletes = w.spDeletes + 1) :
    Counted env B w₀ w' := by
  obtain ⟨l, hl, hlB, hcount, hwithin⟩ := h
  refine ⟨p :: l, hfs ▸ hl.cons hp hget, ?_, ?_, ?_⟩
  · intro q hq
    rcases List.mem_cons.mp hq with rfl | hq
    · exact hB
    · exact hlB q hq
  · rw [hdel, hcount, List.length_cons, Nat.add_assoc]
  · intro hne
    rw [maxDeletes, decide_eq_false_iff_not, not_and] at hmax
    have := hmax hne
    omega

/-- Where the maximum is reached it is not exceeded. -/
theorem Counted.atMax (h : Counted env B w₀ w) (hmax : maxDeletes env w = true) :
    RmExit env .maxDeletes w := by
  obtain ⟨l, -, -, -, hwithin⟩ := h
  obtain ⟨hne, hle⟩ := of_decide_eq_true hmax
  exact Or.inl ⟨rfl, hne, Nat.le_antisymm (hwithin hne) hle⟩

/-! ## One entry -/

/-- `is_dir` says yes of directories only. -/
theorem isDir_spec {E : Exit → World F → Prop} :
    wp (isDir env (some f)) w (fun b w' => w' = w.ticked ∧
      (b = true → ∃ p n, nodeAt env.cwd false f w.fs = .ok (p, n) ∧ n.kind = .dir)) E := by
  unfold isDir
  rw [wp_bind, wp_look]
  cases hl : lookAt env .lstat (some f) (lstat env.cwd) w with
  | error e => exact ⟨rfl, by simp⟩
  | ok n =>
    refine ⟨rfl, fun hdir => ?_⟩
    obtain ⟨-, s, hs, hstat⟩ := lookAt_ok hl
    obtain rfl : f = s := Option.some.inj hs
    unfold lstat at hstat
    cases hn : nodeAt env.cwd false f w.fs with
    | error e => rw [hn] at hstat; simp [Except.map] at hstat
    | ok pn =>
      rw [hn] at hstat
      obtain rfl : pn.2 = n := Except.ok.inj hstat
      exact ⟨pn.1, pn.2, rfl, of_decide_eq_true hdir⟩

/-- The call that removes takes away what the path names, or fails. -/
theorem removeOne_spec {E : Exit → World F → Prop} (b : Bool) :
    wp (removeOne env (some f) b) w (fun r w' =>
      (∃ e, r = .error e ∧ w' = w.ticked) ∨
      ∃ fs p n, r = .ok ⟨⟩ ∧ w' = w.wrote fs ∧ nodeAt env.cwd false f w.fs = .ok (p, n) ∧
        ∀ q, fs.get q = if q = p then none else w.fs.get q) E := by
  cases b with
  | true =>
    show wp (act env .rmdir (some f) fun _ => rmdir env.cwd) w _ E
    rw [wp_act]
    refine ⟨fun e _ => Or.inl ⟨e, rfl, rfl⟩, fun fs hfs => Or.inr ?_⟩
    obtain ⟨-, s, hs, hrm⟩ := lookAt_ok hfs
    obtain rfl : f = s := Option.some.inj hs
    obtain ⟨p, n, hr, hg, -, -, hget⟩ := rmdir_ok hrm
    exact ⟨fs, p, n, rfl, rfl, nodeAt_ok.mpr ⟨hr, hg⟩, hget⟩
  | false =>
    show wp (act env .unlink (some f) fun _ => unlink env.cwd) w _ E
    rw [wp_act]
    refine ⟨fun e _ => Or.inl ⟨e, rfl, rfl⟩, fun fs hfs => Or.inr ?_⟩
    obtain ⟨-, s, hs, hrm⟩ := lookAt_ok hfs
    obtain rfl : f = s := Option.some.inj hs
    obtain ⟨p, n, hr, hg, -, hget⟩ := unlink_ok hrm
    exact ⟨fs, p, n, rfl, rfl, nodeAt_ok.mpr ⟨hr, hg⟩, hget⟩

theorem rmF_counted (hf : Confined env.cwd w₀.fs env.pathMax B f) :
    RmCounted env B w₀ (rmF env (some f)) := by
  intro w hw
  unfold rmF
  rw [wp_bind, wp_get, wp_ite]
  constructor
  · intro hmax
    exact ⟨hw, hw.atMax hmax⟩
  · intro hmax
    rw [Bool.not_eq_true] at hmax
    refine wp_seq isDir_spec fun b w₁ ⟨hw₁, _⟩ => ?_
    subst hw₁
    refine wp_seq (removeOne_spec b) fun r w₂ h => ?_
    rcases h with ⟨e, rfl, rfl⟩ | ⟨fs, p, n, rfl, rfl, hn, hget⟩
    · exact hw
    · -- what is removed now was there at first, at the same place
      have hB := (hf p n (nodeAt_extends hw.extends_ hn)).1
      have hp : w.fs.get p ≠ none := by
        have hg := (nodeAt_ok.mp hn).2
        rw [ticked_fs] at hg
        rw [hg]
        simp
      exact hw.removed hmax hB hp hget rfl rfl

/-! ## A hierarchy -/

/-- The entries of a directory, one after the other, where `rm` removes a hierarchy below it. -/
theorem rmEntries_counted {rm : Str → Prog F Bool} :
    ∀ names : List Str, (∀ c ∈ names, Confined env.cwd w₀.fs env.pathMax B (f ++ '/' :: c) ∧
      (f ++ '/' :: c).length < env.pathMax ∧ RmCounted env B w₀ (rm (f ++ '/' :: c))) →
      RmCounted env B w₀ (rmEntries env rm f names) := by
  intro names
  induction names with
  | nil => exact fun _ w hw => hw
  | cons c names ih =>
    intro h w hw
    obtain ⟨hconf, hlen, hrm⟩ := h c (List.mem_cons_self ..)
    have hrest := ih fun c' hc' => h c' (List.mem_cons_of_mem _ hc')
    have hbuf : (f ++ '/' :: c).take (env.pathMax - 1) = f ++ '/' :: c :=
      List.take_of_length_le (by omega)
    unfold rmEntries
    simp only [hbuf]
    refine wp_seq isDir_spec fun b w₁ ⟨hw₁, _⟩ => ?_
    subst hw₁
    cases b with
    | true => exact wp_seq (hrm _ hw.ticked) fun _ w₂ hw₂ => hrest w₂ hw₂
    | false => exact wp_seq (rmF_counted hconf _ hw.ticked) fun _ w₂ hw₂ => hrest w₂ hw₂

theorem rmRf_counted (hB : ∀ p c, B p → B (p ++ [c])) :
    ∀ (stack : Nat) (f : Str), Confined env.cwd w₀.fs env.pathMax B f → f.length ≤ env.pathMax →
      env.stack ≤ f.length + stack → RmCounted env B w₀ (rmRf env stack f) := by
  intro stack
  induction stack with
  | zero =>
    intro f _ hlen hstack w hw
    exact ⟨hw, Or.inr ⟨rfl, by omega⟩⟩
  | succ stack ih =>
    intro f hconf hlen hstack w hw
    unfold rmRf
    rw [wp_ite]
    refine ⟨fun _ => hw, fun _ => ?_⟩
    refine wp_seq isDir_spec fun b w₁ ⟨hw₁, hdir⟩ => ?_
    subst hw₁
    cases b with
    | false => exact rmF_counted hconf _ hw.ticked
    | true =>
      obtain ⟨p, n, hn, hk⟩ := hdir rfl
      rw [if_pos rfl, wp_bind, wp_get, wp_ite]
      refine ⟨fun hmax => ⟨hw, hw.atMax hmax⟩, fun _ => ?_⟩
      rw [wp_bind, wp_look]
      cases hl : lookAt env .opendir (some f) (readdir env.cwd) w.ticked with
      | error e => exact hw
      | ok names =>
        obtain ⟨-, s, hs, hread⟩ := lookAt_ok hl
        obtain rfl : f = s := Option.some.inj hs
        have hnames := hconf.readdir hB hw.extends_ hn hk hread
        refine wp_seq (rmEntries_counted names (fun c hc => ?_) _ hw.ticked.ticked)
          fun _ w₂ hw₂ => rmF_counted hconf w₂ hw₂
        obtain ⟨hconf', hlen'⟩ := hnames c hc
        refine ⟨hconf', hlen', ih _ hconf' hlen'.le ?_⟩
        simp only [List.length_append, List.length_cons]
        omega

/-! ## `spf_rm` -/

/-- All the paths of the hierarchy that `f` names, spelt from `f`, fit in `PATH_MAX`. -/
def PathsFit (env : Env F) (f : Str) (fs : Fs) : Prop :=
  ∀ p, resolve fs env.cwd false f = .ok p →
    ∀ q, fs.get (p ++ q) ≠ none → (f ++ below q).length < env.pathMax

/-- It is enough to look at the paths there are. -/
theorem pathsFit_of_keys {fs : Fs} {p : Path} (hp : resolve fs env.cwd false f = .ok p)
    (hkeys : ∀ k ∈ fs.nodes.keys, (f ++ below (k.drop p.length)).length < env.pathMax) :
    PathsFit env f fs := by
  intro p' hp' q hq
  obtain rfl : p = p' := Except.ok.inj (hp.symm.trans hp')
  have hmem : p ++ q ∈ fs.nodes.keys := by
    rw [← AList.mem_keys, ← AList.lookup_isSome, Option.isSome_iff_ne_none]
    exact hq
  simpa using hkeys _ hmem

/-- The path of a node that is `f` or below it; no symbolic link is on the way, for the paths of a
tree lead through directories only. -/
def AtOrBelow (env : Env F) (f : Str) (fs : Fs) (q : Path) : Prop :=
  ∃ p, resolve fs env.cwd false f = .ok p ∧ p <+: q

/-- The state after a call of `spf_rm` on the path `f` in the state `w`: what is removed is the path
itself or below it, and is nothing with `sp_do_delete` off. -/
def Removed (env : Env F) (f : Str) (w w' : World F) : Prop :=
  Counted env (fun q => env.spDoDelete = true ∧ AtOrBelow env f w.fs q) w w'

/-- `spf_rm` returns or leaves with every removal counted and within the maximum. -/
theorem spfRm_removed {spf : SpFile} (hname : fullName env.pathMax w.curDir spf.spfName = some f)
    (hfit : PathsFit env f w.fs) (hwithin : WithinMax env w.spDeletes) :
    wp (spfRm env spf) w (fun _ => Removed env f w)
      fun e w' => Removed env f w w' ∧ RmExit env e w' := by
  have hstart : Removed env f w (w.logged (.spfRm spf)) := ⟨[], Taken.refl _, by simp, rfl, hwithin⟩
  have hfull : spfFullName env spf (w.logged (.spfRm spf)) = some f := hname
  unfold spfRm
  rw [wp_bind, wp_record, wp_ite]
  refine ⟨fun hdel => ?_, fun _ => hstart⟩
  have hconf : Confined env.cwd w.fs env.pathMax
      (fun q => env.spDoDelete = true ∧ AtOrBelow env f w.fs q) f := by
    intro p n hn
    obtain ⟨hr, -⟩ := nodeAt_ok.mp hn
    exact ⟨⟨hdel, p, hr, List.prefix_refl p⟩, hfit p hr⟩
  rw [wp_bind, wp_get, wp_ite, hfull]
  constructor
  · intro _
    obtain ⟨hstr, hlen, -⟩ := fullName_some hname
    refine rmRf_counted ?_ env.stack f hconf ?_ (by omega) _ hstart
    · rintro p c ⟨hd, q, hq, hpre⟩
      exact ⟨hd, q, hq, hpre.trans (List.prefix_append ..)⟩
    · rw [hstr, List.length_append]
      omega
  · intro _
    exact rmF_counted hconf _ hstart

/-! Where the maximum is exceeded to begin with nothing is removed. -/

theorem rmF_atMax {f : Option Str} (hmax : maxDeletes env w = true) :
    wp (rmF env f) w (fun _ w' => w'.fs = w.fs) fun _ w' => w'.fs = w.fs := by
  unfold rmF
  rw [wp_bind, wp_get, hmax]
  exact rfl

theorem rmRf_atMax (hmax : maxDeletes env w = true) : ∀ (stack : Nat) (f : Str),
    wp (rmRf env stack f) w (fun _ w' => w'.fs = w.fs) fun _ w' => w'.fs = w.fs
  | 0, _ => rfl
  | stack + 1, f => by
    unfold rmRf
    rw [wp_ite]
    refine ⟨fun _ => rfl, fun _ => ?_⟩
    refine wp_seq isDir_spec fun b w₁ ⟨hw₁, _⟩ => ?_
    subst hw₁
    have hmax' : maxDeletes env w.ticked = true := hmax
    cases b with
    | true =>
      rw [if_pos rfl, wp_bind, wp_get, if_pos hmax']
      exact rfl
    | false => exact rmF_atMax hmax'

/-- `spf_rm` takes away at most the path itself and what is below it. -/
theorem spfRm_loses {spf : SpFile} (hname : fullName env.pathMax w.curDir spf.spfName = some f)
    (hfit : PathsFit env f w.fs) :
    wp (spfRm env spf) w (fun _ w' => LosesOnly (AtOrBelow env f w.fs) w.fs w'.fs)
      fun _ w' => LosesOnly (AtOrBelow env f w.fs) w.fs w'.fs := by
  by_cases hwithin : WithinMax env w.spDeletes
  · have hloses : ∀ w', Removed env f w w' → LosesOnly (AtOrBelow env f w.fs) w.fs w'.fs := by
      rintro w' ⟨l, hl, hB, -⟩
      exact hl.losesOnly fun q hq => (hB q hq).2
    exact wp_mono (spfRm_removed hname hfit hwithin) (fun _ w' h => hloses w' h)
      fun _ w' h => hloses w' h.1
  · have hmax : maxDeletes env (w.logged (.spfRm spf)) = true := by
      unfold WithinMax at hwithin
      rw [Classical.not_imp] at hwithin
      exact decide_eq_true ⟨hwithin.1, Nat.le_of_lt (Nat.lt_of_not_le hwithin.2)⟩
    have hsame : ∀ w' : World F, w'.fs = w.fs → LosesOnly (AtOrBelow env f w.fs) w.fs w'.fs := by
      intro w' hw' q n hq _
      exact ⟨n, by rw [hw', hq], id⟩
    have hfull : spfFullName env spf (w.logged (.spfRm spf)) = some f := hname
    unfold spfRm
    rw [wp_bind, wp_record, wp_ite]
    refine ⟨fun _ => ?_, fun _ => hsame _ rfl⟩
    rw [wp_bind, wp_get, wp_ite, hfull]
    constructor
    · intro _
      exact wp_mono (rmRf_atMax hmax env.stack f) (fun _ w' h => hsame w' h)
        fun _ w' h => hsame w' h
    · intro _
      exact wp_mono (rmF_atMax hmax) (fun _ w' h => hsame w' h) fun _ w' h => hsame w' h

/-- A directory `d` with the file `a` in it, and its entry. -/
def nodeD : Node := ⟨.dir, 0o755#12, 5⟩
def dirD : SpFile := statEntry ['d'] nodeD
def rootWithD : World Unit := startIn ((Fs.init.put [['d']] nodeD).put [['d'], ['a']] nodeA)

theorem spfRm_removed_dirD :
    wp (spfRm (calmEnv deadFtp) dirD) rootWithD
      (fun _ => Removed (calmEnv deadFtp) ['.', '/', 'd'] rootWithD)
      fun e w' => Removed (calmEnv deadFtp) ['.', '/', 'd'] rootWithD w' ∧
      RmExit (calmEnv deadFtp) e w' :=
  spfRm_removed (by decide +kernel)
    (pathsFit_of_keys (p := [['d']]) (by decide +kernel) (by decide +kernel)) fun h => absurd rfl h

end Spegla
