import Spegla.Lib.FileTree

/-!
# Path resolution

`resolve` turns a path string into the canonical path it names, as a kernel
does: component by component, through `.`, `..` and symbolic links.

- `components`: the text between the slashes.
- `walk`: the resolution, with the number of symbolic links it may still follow.
- `walk_congr`: it depends on the shape of the tree alone, so that neither
  contents, modes nor times matter to it.
- `walk_create`: a path that names nothing still names the same place once a
  plain node is there.
- `walkWith_dirs`: along real directories it reads the components as they stand.
- `walk_append`: behind a path that leads to a directory it goes on from there.
-/

namespace PosixFs

open CString

/-- The components of a path string: the text between its slashes. -/
def components : Str → List Str
  | [] => [[]]
  | c :: s =>
    if c = '/' then [] :: components s
    else
      match components s with
      | [] => [[c]]
      | p :: ps => (c :: p) :: ps

theorem components_ne_nil : ∀ s : Str, components s ≠ []
  | [] => by simp [components]
  | c :: s => by
    rw [components]
    split
    · simp
    · split <;> simp

theorem components_append_slash : ∀ a b : Str,
    components (a ++ '/' :: b) = components a ++ components b
  | [], b => by simp [components]
  | c :: a, b => by
    rw [List.cons_append, components, components, components_append_slash a b]
    by_cases hc : c = '/'
    · simp [hc]
    · rw [if_neg hc, if_neg hc]
      cases ha : components a with
      | nil => exact absurd ha (components_ne_nil a)
      | cons p ps => rfl

theorem components_of_noslash : ∀ {s : Str}, '/' ∉ s → components s = [s]
  | [], _ => rfl
  | c :: s, h => by
    rw [List.mem_cons, not_or] at h
    rw [components, if_neg (Ne.symm h.1), components_of_noslash h.2]

/-- The names of `q`, each behind a slash. -/
def below (q : Path) : Str := q.flatMap fun c => '/' :: c

/-- The number of symbolic links one path may lead through (`MAXSYMLINKS`). -/
def symloopMax : Nat := 32

/-- Where a symbolic link in `cur` leads from: the root for an absolute target. -/
def linkStart (cur : Path) (target : Str) : Path :=
  if target.head? = some '/' then [] else cur

/-- One pass over the components of a path; `again` goes on behind a symbolic
link. The last component need not exist. -/
def walkWith (again : Path → List Str → Except Errno Path) (fs : Fs) (follow : Bool) :
    Path → List Str → Except Errno Path
  | cur, [] => .ok cur
  | cur, c :: cs =>
    if c = [] ∨ c = ['.'] then walkWith again fs follow cur cs
    else if c = ['.', '.'] then walkWith again fs follow cur.dropLast cs
    else
      match fs.get (cur ++ [c]) with
      | none => if cs = [] then .ok (cur ++ [c]) else .error .ENOENT
      | some n =>
        match n.kind with
        | .dir => walkWith again fs follow (cur ++ [c]) cs
        | .symlink t =>
          if cs = [] ∧ follow = false then .ok (cur ++ [c])
          else again (linkStart cur t) (components t ++ cs)
        | _ => if cs = [] then .ok (cur ++ [c]) else .error .ENOTDIR

/-- Path resolution that follows at most the given number of symbolic links. -/
def walk (fs : Fs) (follow : Bool) : Nat → Path → List Str → Except Errno Path
  | 0 => walkWith (fun _ _ => .error .ELOOP) fs follow
  | n + 1 => walkWith (walk fs follow n) fs follow

/-- The canonical path that the string `s` names for a process in `cwd`. -/
def resolve (fs : Fs) (cwd : Path) (follow : Bool) (s : Str) : Except Errno Path :=
  if s = [] then .error .ENOENT
  else walk fs follow symloopMax (linkStart cwd s) (components s)

/-! ## What resolution depends on -/

/-- What resolution sees of a node. -/
inductive Shape where
  | absent
  | dir
  | link (target : Str)
  | other
deriving DecidableEq, Repr

/-- The shape of the tree at `p`. -/
def Fs.shape (fs : Fs) (p : Path) : Shape :=
  match fs.get p with
  | none => .absent
  | some n =>
    match n.kind with
    | .dir => .dir
    | .symlink t => .link t
    | _ => .other

/-- One component of a path, by the shape of the tree there. -/
theorem walkWith_cons (again : Path → List Str → Except Errno Path) (fs : Fs)
    (follow : Bool) (cur : Path) (c : Str) (cs : List Str) :
    walkWith again fs follow cur (c :: cs) =
      if c = [] ∨ c = ['.'] then walkWith again fs follow cur cs
      else if c = ['.', '.'] then walkWith again fs follow cur.dropLast cs
      else
        match fs.shape (cur ++ [c]) with
        | .absent => if cs = [] then .ok (cur ++ [c]) else .error .ENOENT
        | .dir => walkWith again fs follow (cur ++ [c]) cs
        | .link t =>
          if cs = [] ∧ follow = false then .ok (cur ++ [c])
          else again (linkStart cur t) (components t ++ cs)
        | .other => if cs = [] then .ok (cur ++ [c]) else .error .ENOTDIR := by
  rw [walkWith]
  congr 1
  congr 1
  unfold Fs.shape
  cases fs.get (cur ++ [c]) with
  | none => rfl
  | some n => cases hk : n.kind <;> simp [hk]

theorem walkWith_congr {a a' : Path → List Str → Except Errno Path} {fs fs' : Fs}
    (follow : Bool) (ha : ∀ p cs, a p cs = a' p cs) (hs : ∀ p, fs.shape p = fs'.shape p) :
    ∀ (cs : List Str) (cur : Path), walkWith a fs follow cur cs = walkWith a' fs' follow cur cs
  | [], _ => rfl
  | c :: cs, cur => by
    rw [walkWith_cons, walkWith_cons, hs (cur ++ [c]), walkWith_congr follow ha hs cs cur,
      walkWith_congr follow ha hs cs cur.dropLast, walkWith_congr follow ha hs cs (cur ++ [c])]
    simp only [ha]

/-- Resolution depends on the shape of the tree alone. -/
theorem walk_congr {fs fs' : Fs} (follow : Bool) (hs : ∀ p, fs.shape p = fs'.shape p) :
    ∀ (n : Nat) (cur : Path) (cs : List Str), walk fs follow n cur cs = walk fs' follow n cur cs
  | 0, cur, cs => walkWith_congr follow (fun _ _ => rfl) hs cs cur
  | n + 1, cur, cs => walkWith_congr follow (fun p cs => walk_congr follow hs n p cs) hs cs cur

theorem resolve_congr {fs fs' : Fs} (hs : ∀ p, fs.shape p = fs'.shape p) (cwd : Path)
    (follow : Bool) (s : Str) : resolve fs cwd follow s = resolve fs' cwd follow s := by
  unfold resolve
  rw [walk_congr follow hs]

/-- The step of `walk_create`, for one pass. -/
theorem walkWith_create {a a' : Path → List Str → Except Errno Path} {fs fs' : Fs} {p : Path}
    (follow : Bool) (ha : ∀ q cs, a q cs = .ok p → a' q cs = .ok p)
    (hp : fs.shape p = .absent ∨ fs.shape p = .other)
    (hp' : fs'.shape p = .absent ∨ fs'.shape p = .other)
    (hs : ∀ q, q ≠ p → fs.shape q = fs'.shape q) :
    ∀ (cs : List Str) (cur : Path), walkWith a fs false cur cs = .ok p →
      walkWith a' fs' follow cur cs = .ok p
  | [], _, h => h
  | c :: cs, cur, h => by
    have ih := walkWith_create follow ha hp hp' hs cs
    rw [walkWith_cons] at h ⊢
    split at h
    · next h₁ => rw [if_pos h₁]; exact ih cur h
    · next h₁ =>
      rw [if_neg h₁]
      split at h
      · next h₂ => rw [if_pos h₂]; exact ih cur.dropLast h
      · next h₂ =>
        rw [if_neg h₂]
        by_cases hc : cur ++ [c] = p
        · -- the walk has come to `p` itself, and there is no way on behind it
          rw [hc] at h ⊢
          have hcs : cs = [] := by
            by_contra hne
            rcases hp with hp | hp <;> simp [hp, hne] at h
          rcases hp' with hp' | hp' <;> simp [hp', hcs]
        · rw [← hs _ hc]
          cases hk : fs.shape (cur ++ [c]) with
          | absent => rw [hk] at h; exact h
          | other => rw [hk] at h; exact h
          | dir => rw [hk] at h; exact ih _ h
          | link t =>
            rw [hk] at h
            simp only at h ⊢
            by_cases hcs : cs = []
            · rw [if_pos (by simp [hcs]), Except.ok.injEq] at h
              exact absurd h hc
            · rw [if_neg (by simp [hcs])] at h ⊢
              exact ha _ _ h

/-- A path that leads to `p`, where nothing or a plain node is, still leads there
when only what is at `p` has changed, again to nothing or a plain node. -/
theorem walk_create {fs fs' : Fs} {p : Path} (follow : Bool)
    (hp : fs.shape p = .absent ∨ fs.shape p = .other)
    (hp' : fs'.shape p = .absent ∨ fs'.shape p = .other)
    (hs : ∀ q, q ≠ p → fs.shape q = fs'.shape q) :
    ∀ (n : Nat) (cur : Path) (cs : List Str), walk fs false n cur cs = .ok p →
      walk fs' follow n cur cs = .ok p
  | 0, cur, cs, h => walkWith_create follow (fun _ _ h => by simp at h) hp hp' hs cs cur h
  | n + 1, cur, cs, h =>
    walkWith_create follow (fun q cs h => walk_create follow hp hp' hs n q cs h) hp hp' hs cs cur h

theorem resolve_create {fs fs' : Fs} {p cwd : Path} {s : Str} (follow : Bool)
    (h : resolve fs cwd false s = .ok p)
    (hp : fs.shape p = .absent ∨ fs.shape p = .other)
    (hp' : fs'.shape p = .absent ∨ fs'.shape p = .other)
    (hs : ∀ q, q ≠ p → fs.shape q = fs'.shape q) : resolve fs' cwd follow s = .ok p := by
  unfold resolve at h ⊢
  split at h
  · simp at h
  · next hne => rw [if_neg hne]; exact walk_create follow hp hp' hs _ _ _ h

/-- The step of `resolve_nofollow`, for one pass. -/
theorem walkWith_nofollow {a a' : Path → List Str → Except Errno Path} {fs : Fs} {p : Path}
    (hp : fs.get p ≠ none)
    (ha : ∀ q cs, a q cs = .ok p → ∃ p', a' q cs = .ok p' ∧ fs.get p' ≠ none) :
    ∀ (cs : List Str) (cur : Path), walkWith a fs true cur cs = .ok p →
      ∃ p', walkWith a' fs false cur cs = .ok p' ∧ fs.get p' ≠ none
  | [], _, h => ⟨p, h, hp⟩
  | c :: cs, cur, h => by
    have ih := walkWith_nofollow hp ha cs
    rw [walkWith_cons] at h ⊢
    split at h
    · next h₁ => rw [if_pos h₁]; exact ih cur h
    · next h₁ =>
      rw [if_neg h₁]
      split at h
      · next h₂ => rw [if_pos h₂]; exact ih cur.dropLast h
      · next h₂ =>
        rw [if_neg h₂]
        cases hk : fs.shape (cur ++ [c]) with
        | absent => rw [hk] at h; exact ⟨p, h, hp⟩
        | other => rw [hk] at h; exact ⟨p, h, hp⟩
        | dir => rw [hk] at h; exact ih _ h
        | link t =>
          rw [hk] at h
          simp only [Bool.true_eq_false, and_false, if_false] at h
          simp only
          split
          · refine ⟨_, rfl, fun hn => ?_⟩
            unfold Fs.shape at hk
            rw [hn] at hk
            simp at hk
          · exact ha _ _ h

/-- A path that leads to something leads to something without following a last link. -/
theorem resolve_nofollow {fs : Fs} {cwd p : Path} {s : Str} (h : resolve fs cwd true s = .ok p)
    (hp : fs.get p ≠ none) : ∃ p', resolve fs cwd false s = .ok p' ∧ fs.get p' ≠ none := by
  have hwalk : ∀ (n : Nat) (cur : Path) (cs : List Str), walk fs true n cur cs = .ok p →
      ∃ p', walk fs false n cur cs = .ok p' ∧ fs.get p' ≠ none := by
    intro n
    induction n with
    | zero => exact fun cur cs => walkWith_nofollow hp (fun _ _ h => by simp at h) cs cur
    | succ n ih => exact fun cur cs => walkWith_nofollow hp ih cs cur
  unfold resolve at h ⊢
  split at h
  · simp at h
  · next hs => rw [if_neg hs]; exact hwalk _ _ _ h

/-! ## Resolution along real directories -/

/-- Names of directories are read as they stand. -/
theorem walkWith_dirs {again : Path → List Str → Except Errno Path} {fs : Fs} {follow : Bool} :
    ∀ (ds : List Str) (cur : Path) (cs : List Str), (∀ d ∈ ds, IsName d) →
      (∀ es, es ≠ [] → es <+: ds → fs.isDir (cur ++ es) = true) →
      walkWith again fs follow cur (ds ++ cs) = walkWith again fs follow (cur ++ ds) cs
  | [], cur, cs, _, _ => by simp
  | d :: ds, cur, cs, hn, hd => by
    have hdn := hn d (List.mem_cons_self ..)
    have hshape : fs.shape (cur ++ [d]) = .dir := by
      obtain ⟨n, hget, hk⟩ := Fs.isDir_iff.mp (hd [d] (by simp) (by simp))
      unfold Fs.shape
      rw [hget]
      simp [hk]
    rw [List.cons_append, walkWith_cons, if_neg (by simp [hdn.ne_nil, hdn.ne_dot]),
      if_neg hdn.ne_dotdot, hshape]
    show walkWith again fs follow (cur ++ [d]) (ds ++ cs) = _
    rw [walkWith_dirs ds (cur ++ [d]) cs (fun e he => hn e (List.mem_cons_of_mem _ he)),
      List.append_assoc, List.singleton_append]
    intro es hes hpre
    rw [List.append_assoc, List.singleton_append]
    exact hd (d :: es) (by simp) (by simpa using hpre)

/-- Everything above a directory is a directory. -/
theorem Fs.isDir_prefix {fs : Fs} :
    ∀ {p q : Path}, fs.isDir (p ++ q) = true → fs.isDir p = true := by
  intro p q
  induction q using List.reverseRecOn with
  | nil => intro h; simpa using h
  | append_singleton q c ih =>
    intro h
    obtain ⟨n, hn, -⟩ := Fs.isDir_iff.mp h
    refine ih (Fs.isDir_of_get (c := c) ?_)
    rw [List.append_assoc, hn]
    simp

/-- Above something is a directory. -/
theorem Fs.isDir_above {fs : Fs} {p q : Path} (h : fs.get (p ++ q) ≠ none) (hq : q ≠ []) :
    fs.isDir p = true := by
  obtain ⟨t, c, rfl⟩ := List.eq_nil_or_concat q |>.resolve_left hq
  rw [List.concat_eq_append, ← List.append_assoc] at h
  exact Fs.isDir_prefix (Fs.isDir_of_get h)

/-- Below what is no directory is nothing. -/
theorem Fs.get_below {fs : Fs} {p q : Path} (h : fs.isDir p = false) (hq : q ≠ []) :
    fs.get (p ++ q) = none := by
  by_contra hthere
  rw [Fs.isDir_above hthere hq] at h
  simp at h

/-- Below nothing is nothing. -/
theorem Fs.get_absent {fs : Fs} {p q : Path} (h : fs.get p = none) : fs.get (p ++ q) = none := by
  by_cases hq : q = []
  · rw [hq, List.append_nil, h]
  · refine Fs.get_below ?_ hq
    unfold Fs.isDir
    rw [h]

/-- The path of a name in a directory, read from above. -/
theorem walk_name {fs : Fs} {follow : Bool} {cur : Path} {ds : List Str} {c : Str}
    (hds : ∀ d ∈ ds, IsName d) (hdir : fs.isDir (cur ++ ds) = true) (hc : IsName c)
    (hlink : follow = false ∨ ∀ t, fs.shape (cur ++ ds ++ [c]) ≠ .link t) (n : Nat) :
    walk fs follow n cur (ds ++ [c]) = .ok (cur ++ ds ++ [c]) := by
  have hpre : ∀ es, es ≠ [] → es <+: ds → fs.isDir (cur ++ es) = true := by
    rintro es - ⟨fs', rfl⟩
    rw [← List.append_assoc] at hdir
    exact Fs.isDir_prefix hdir
  have key : ∀ again : Path → List Str → Except Errno Path,
      walkWith again fs follow cur (ds ++ [c]) = .ok (cur ++ ds ++ [c]) := by
    intro again
    rw [walkWith_dirs ds cur [c] hds hpre, walkWith_cons,
      if_neg (by simp [hc.ne_nil, hc.ne_dot]), if_neg hc.ne_dotdot]
    cases hk : fs.shape (cur ++ ds ++ [c]) with
    | absent => simp
    | other => simp
    | dir => rfl
    | link t =>
      rcases hlink with hf | hl
      · simp [hf]
      · exact absurd hk (hl t)
  cases n with
  | zero => exact key _
  | succ n => exact key _

/-! ## Going on from a directory -/

/-- The step of `walk_append`, for one pass. -/
theorem walkWith_append {a a' : Path → List Str → Except Errno Path} {fs : Fs} {follow : Bool}
    {p r : Path} {ds : List Str} (hdir : fs.isDir p = true)
    (hds : ∀ again, walkWith again fs follow p ds = .ok r)
    (ha : ∀ q cs, a q cs = .ok p → a' q (cs ++ ds) = .ok r) :
    ∀ (cs : List Str) (cur : Path), walkWith a fs false cur cs = .ok p →
      walkWith a' fs follow cur (cs ++ ds) = .ok r := by
  have hshape : fs.shape p = .dir := by
    obtain ⟨n, hn, hk⟩ := Fs.isDir_iff.mp hdir
    unfold Fs.shape
    rw [hn]
    simp [hk]
  intro cs
  induction cs with
  | nil =>
    intro cur h
    obtain rfl : cur = p := Except.ok.inj h
    exact hds a'
  | cons c cs ih =>
    intro cur h
    rw [List.cons_append]
    rw [walkWith_cons] at h ⊢
    split at h
    · next h₁ => rw [if_pos h₁]; exact ih cur h
    · next h₁ =>
      rw [if_neg h₁]
      split at h
      · next h₂ => rw [if_pos h₂]; exact ih cur.dropLast h
      · next h₂ =>
        rw [if_neg h₂]
        -- the walk does not end before the directory, so it comes through this component
        have hend : fs.shape (cur ++ [c]) ≠ .dir → cur ++ [c] ≠ p :=
          fun hne hcp => hne (hcp ▸ hshape)
        cases hk : fs.shape (cur ++ [c]) with
        | dir => rw [hk] at h; exact ih _ h
        | absent =>
          rw [hk] at h
          simp only at h
          split at h
          · exact absurd (Except.ok.inj h) (hend (by simp [hk]))
          · simp at h
        | other =>
          rw [hk] at h
          simp only at h
          split at h
          · exact absurd (Except.ok.inj h) (hend (by simp [hk]))
          · simp at h
        | link t =>
          rw [hk] at h
          simp only [and_true] at h ⊢
          split at h
          · exact absurd (Except.ok.inj h) (hend (by simp [hk]))
          · next hcs =>
            rw [if_neg (by simp [hcs]), ← List.append_assoc]
            exact ha _ _ h

/-- Behind a path that leads to a directory the walk goes on from there. -/
theorem walk_append {fs : Fs} (follow : Bool) {p r : Path} (ds : List Str)
    (hdir : fs.isDir p = true)
    (hds : ∀ again, walkWith again fs follow p ds = .ok r) :
    ∀ (n : Nat) (cur : Path) (cs : List Str), walk fs false n cur cs = .ok p →
      walk fs follow n cur (cs ++ ds) = .ok r := by
  intro n
  induction n with
  | zero => exact fun cur cs => walkWith_append hdir hds (fun _ _ h => by simp at h) cs cur
  | succ n ih => exact fun cur cs => walkWith_append hdir hds ih cs cur

/-- A path that leads to a directory leads there whether a last link is followed or not. -/
theorem resolve_dir {fs : Fs} {cwd p : Path} {s : Str} (follow : Bool)
    (h : resolve fs cwd false s = .ok p) (hdir : fs.isDir p = true) :
    resolve fs cwd follow s = .ok p := by
  unfold resolve at h ⊢
  split at h
  · simp at h
  · next hs =>
    have hw := walk_append follow [] hdir (fun _ => rfl) _ _ _ h
    rw [if_neg hs]
    rwa [List.append_nil] at hw

/-- A name behind a path that leads to a directory is that name in the directory. -/
theorem resolve_name {fs : Fs} {cwd p : Path} {s c : Str} (h : resolve fs cwd false s = .ok p)
    (hdir : fs.isDir p = true) (hc : IsName c) :
    resolve fs cwd false (s ++ '/' :: c) = .ok (p ++ [c]) := by
  have hlast : ∀ again, walkWith again fs false p [c] = .ok (p ++ [c]) := by
    intro again
    rw [walkWith_cons, if_neg (by simp [hc.ne_nil, hc.ne_dot]), if_neg hc.ne_dotdot]
    cases fs.shape (p ++ [c]) <;> simp [walkWith]
  unfold resolve at h ⊢
  split at h
  · simp at h
  · next hs =>
    have hstart : linkStart cwd (s ++ '/' :: c) = linkStart cwd s := by
      obtain ⟨x, s', rfl⟩ := List.exists_cons_of_ne_nil hs
      rfl
    rw [if_neg (by simp), hstart, components_append_slash, components_of_noslash hc.noslash]
    exact walk_append false [c] hdir hlast _ _ _ h

end PosixFs
