import Spegla.Lib.PathWalk

/-!
# File system calls

The calls a file-handling program makes, over the trees of `FileTree.lean`: each
takes the working directory and a path string and gives an error or a new tree
(or what it reads). The `…_ok` lemmas say everything a successful call does: the
path it acted on, what was there, and the whole new tree.
-/

namespace PosixFs

open CString

variable (cwd : Path)

/-- The node a path string names, with its path. -/
def nodeAt (follow : Bool) (s : Str) (fs : Fs) : Except Errno (Path × Node) :=
  match resolve fs cwd follow s with
  | .error e => .error e
  | .ok p =>
    match fs.get p with
    | none => .error .ENOENT
    | some n => .ok (p, n)

/-- `lstat`: the node itself. -/
def lstat (s : Str) (fs : Fs) : Except Errno Node := (nodeAt cwd false s fs).map Prod.snd

/-- `stat`: the node a symbolic link leads to. -/
def stat (s : Str) (fs : Fs) : Except Errno Node := (nodeAt cwd true s fs).map Prod.snd

/-- `readlink`, with a buffer of `size` bytes. -/
def readlink (size : Nat) (s : Str) (fs : Fs) : Except Errno Str :=
  match nodeAt cwd false s fs with
  | .error e => .error e
  | .ok (_, n) =>
    match n.kind with
    | .symlink t => .ok (t.take size)
    | _ => .error .EINVAL

/-- `opendir` and `readdir` to the end: the names in a directory, without `.`
and `..`. -/
def readdir (s : Str) (fs : Fs) : Except Errno (List Str) :=
  match nodeAt cwd true s fs with
  | .error e => .error e
  | .ok (p, n) => if n.kind = .dir then .ok (fs.names p) else .error .ENOTDIR

/-- A call that changes one node and keeps its kind of shape. -/
def change (follow : Bool) (f : Node → Except Errno Node) (s : Str) (fs : Fs) : Except Errno Fs :=
  match nodeAt cwd follow s fs with
  | .error e => .error e
  | .ok (p, n) =>
    match f n with
    | .error e => .error e
    | .ok m => .ok (fs.put p m)

/-- `chmod`. -/
def chmod (m : BitVec 12) : Str → Fs → Except Errno Fs :=
  change cwd true fun n => .ok { n with mode := m }

/-- `utimes`. -/
def utimes (t : Int) : Str → Fs → Except Errno Fs :=
  change cwd true fun n => .ok { n with mtime := t }

/-- `open(path, O_TRUNC)`: a plain file loses its content. -/
def truncate (now : Int) : Str → Fs → Except Errno Fs :=
  change cwd true fun n =>
    match n.kind with
    | .file _ => .ok { n with kind := .file [], mtime := now }
    | .dir => .error .EISDIR
    | _ => .ok n

/-- `fwrite` on a stream that is open for appending at the end of `path`. -/
def append (data : Str) (now : Int) : Str → Fs → Except Errno Fs :=
  change cwd true fun n =>
    match n.kind with
    | .file c => .ok { n with kind := .file (c ++ data), mtime := now }
    | _ => .error .EOTHER

/-- Add a node at a path where nothing is. -/
def add (n : Node) (p : Path) (fs : Fs) : Except Errno Fs :=
  if fs.get p ≠ none then .error .EEXIST
  else if fs.HasPlace p then .ok (fs.put p n)
  else .error .ENOENT

/-- A call that makes a new node at the very name `s`. -/
def make (n : Node) (s : Str) (fs : Fs) : Except Errno Fs :=
  match resolve fs cwd false s with
  | .error e => .error e
  | .ok p => add n p fs

/-- `mkdir`; slashes behind the name are ignored. -/
def mkdir (mode : BitVec 12) (now : Int) (s : Str) : Fs → Except Errno Fs :=
  make cwd ⟨.dir, mode, now⟩ (if s.all (· = '/') then s
    else (s.reverse.dropWhile (· = '/')).reverse)

/-- `symlink`. -/
def symlink (target : Str) (now : Int) : Str → Fs → Except Errno Fs :=
  make cwd ⟨.symlink target, 0o777#12, now⟩

/-- `open(path, O_CREAT | O_EXCL, 0600)`. -/
def create (now : Int) : Str → Fs → Except Errno Fs :=
  make cwd ⟨.file [], 0o600#12, now⟩

/-- `fopen(path, mode)` for writing: `cut` says whether an old content goes
(`"wb"`) or stays (`"ab"`); a missing file is made. -/
def fopen (cut : Bool) (umask : BitVec 12) (now : Int) (s : Str) (fs : Fs) : Except Errno Fs :=
  match resolve fs cwd true s with
  | .error e => .error e
  | .ok p =>
    match fs.get p with
    | none => add ⟨.file [], 0o666#12 &&& ~~~umask, now⟩ p fs
    | some n =>
      match n.kind with
      | .file c =>
        .ok (fs.put p (if cut then ⟨.file [], n.mode, now⟩ else ⟨.file c, n.mode, n.mtime⟩))
      | .dir => .error .EISDIR
      | _ => .error .EOTHER

/-- `unlink`. -/
def unlink (s : Str) (fs : Fs) : Except Errno Fs :=
  match nodeAt cwd false s fs with
  | .error e => .error e
  | .ok (p, n) => if n.kind = .dir then .error .EISDIR else .ok (fs.del p)

/-- `rmdir`. -/
def rmdir (s : Str) (fs : Fs) : Except Errno Fs :=
  match nodeAt cwd false s fs with
  | .error e => .error e
  | .ok (p, n) =>
    if n.kind ≠ .dir then .error .ENOTDIR
    else if p = [] then .error .EOTHER
    else if fs.names p ≠ [] then .error .ENOTEMPTY
    else .ok (fs.del p)

/-- `rename`, for anything but a directory. -/
def rename (s t : Str) (fs : Fs) : Except Errno Fs :=
  match nodeAt cwd false s fs with
  | .error e => .error e
  | .ok (p, n) =>
    match resolve fs cwd false t with
    | .error e => .error e
    | .ok q =>
      if n.kind = .dir ∨ fs.isDir q = true then .error .EISDIR
      else if p = q then .ok fs
      else if fs.HasPlace q then .ok ((fs.put q n).del p)
      else .error .ENOENT

variable {cwd}

/-! ## What the calls do -/

theorem nodeAt_ok {follow : Bool} {s : Str} {fs : Fs} {p : Path} {n : Node} :
    nodeAt cwd follow s fs = .ok (p, n) ↔
      resolve fs cwd follow s = .ok p ∧ fs.get p = some n := by
  unfold nodeAt
  cases hr : resolve fs cwd follow s with
  | error e => simp
  | ok q =>
    cases hg : fs.get q with
    | none =>
      simp only [hg, reduceCtorEq, Except.ok.injEq, false_iff, not_and]
      rintro rfl
      simp [hg]
    | some m =>
      simp only [hg, Except.ok.injEq, Prod.mk.injEq]
      constructor
      · rintro ⟨rfl, rfl⟩
        exact ⟨rfl, hg⟩
      · rintro ⟨rfl, h⟩
        rw [hg, Option.some_inj] at h
        exact ⟨rfl, h⟩

/-- No file has the name `s`. -/
def Vacant (cwd : Path) (s : Str) (fs : Fs) : Prop :=
  ∀ p, resolve fs cwd false s = .ok p → fs.get p = none

theorem Vacant.nodeAt {follow : Bool} {s : Str} {fs : Fs} (h : Vacant cwd s fs) {pn : Path × Node} :
    nodeAt cwd follow s fs ≠ .ok pn := by
  intro hn
  obtain ⟨hr, hg⟩ := nodeAt_ok.mp hn
  cases follow with
  | false =>
    rw [h _ hr] at hg
    simp at hg
  | true =>
    obtain ⟨p', hr', hg'⟩ := resolve_nofollow hr (by rw [hg]; simp)
    exact hg' (h p' hr')

theorem change_ok {follow : Bool} {f : Node → Except Errno Node} {s : Str} {fs fs' : Fs}
    (hf : ∀ n m, f n = .ok m → n.kind = .dir → m.kind = .dir)
    (h : change cwd follow f s fs = .ok fs') :
    ∃ p n m, resolve fs cwd follow s = .ok p ∧ fs.get p = some n ∧ f n = .ok m ∧
      ∀ q, fs'.get q = if q = p then some m else fs.get q := by
  unfold change at h
  cases hn : nodeAt cwd follow s fs with
  | error e => rw [hn] at h; simp at h
  | ok pn =>
    obtain ⟨p, n⟩ := pn
    rw [hn] at h
    cases hm : f n with
    | error e => simp [hm] at h
    | ok m =>
      simp only [hm, Except.ok.injEq] at h
      obtain ⟨hr, hg⟩ := nodeAt_ok.mp hn
      refine ⟨p, n, m, hr, hg, hm, fun q => ?_⟩
      rw [← h]
      exact Fs.get_put (Fs.fits_of_get hg (hf n m hm)) q

theorem add_ok {n : Node} {p : Path} {fs fs' : Fs} (h : add n p fs = .ok fs') :
    fs.get p = none ∧ fs.HasPlace p ∧
      ∀ q, fs'.get q = if q = p then some n else fs.get q := by
  unfold add at h
  split at h
  · simp at h
  · next hp =>
    rw [ne_eq, not_not] at hp
    split at h
    · next hd =>
      rw [Except.ok.injEq] at h
      refine ⟨hp, hd, fun q => ?_⟩
      rw [← h]
      exact Fs.get_put (Fs.fits_of_absent hp hd) q
    · simp at h

theorem make_ok {n : Node} {s : Str} {fs fs' : Fs} (h : make cwd n s fs = .ok fs') :
    ∃ p, resolve fs cwd false s = .ok p ∧ fs.get p = none ∧ fs.HasPlace p ∧
      ∀ q, fs'.get q = if q = p then some n else fs.get q := by
  unfold make at h
  cases hr : resolve fs cwd false s with
  | error e => rw [hr] at h; simp at h
  | ok p =>
    rw [hr] at h
    exact ⟨p, rfl, add_ok h⟩

/-- After `fopen` a plain file is at the path, empty or with its old content. -/
theorem fopen_ok {cut : Bool} {umask : BitVec 12} {now : Int} {s : Str} {fs fs' : Fs}
    (h : fopen cwd cut umask now s fs = .ok fs') :
    ∃ p c m t, resolve fs cwd true s = .ok p ∧
      (fs.get p = none ∧ c = [] ∨
        ∃ n c₀, fs.get p = some n ∧ n.kind = .file c₀ ∧ c = if cut then [] else c₀) ∧
      ∀ q, fs'.get q = if q = p then some ⟨.file c, m, t⟩ else fs.get q := by
  unfold fopen at h
  cases hr : resolve fs cwd true s with
  | error e => rw [hr] at h; simp at h
  | ok p =>
    rw [hr] at h
    cases hg : fs.get p with
    | none =>
      simp only [hg] at h
      exact ⟨p, [], _, _, rfl, Or.inl ⟨hg, rfl⟩, (add_ok h).2.2⟩
    | some n =>
      simp only [hg] at h
      cases hk : n.kind with
      | dir => rw [hk] at h; simp at h
      | symlink t => rw [hk] at h; simp at h
      | special => rw [hk] at h; simp at h
      | file c₀ =>
        rw [hk, Except.ok.injEq] at h
        have hd : n.kind ≠ .dir := by rw [hk]; simp
        cases cut with
        | true =>
          refine ⟨p, [], n.mode, now, rfl, Or.inr ⟨n, c₀, hg, hk, rfl⟩, fun q => ?_⟩
          rw [← h]
          exact Fs.get_put (Fs.fits_of_get hg fun h => absurd h hd) q
        | false =>
          refine ⟨p, c₀, n.mode, n.mtime, rfl, Or.inr ⟨n, c₀, hg, hk, rfl⟩, fun q => ?_⟩
          rw [← h]
          exact Fs.get_put (Fs.fits_of_get hg fun h => absurd h hd) q

/-! ## Calls that leave what is there -/

/-- Whatever is in `fs` is in `fs'` as the same kind of node, with the same content. -/
def KeepsKinds (fs fs' : Fs) : Prop :=
  ∀ p n, fs.get p = some n → ∃ n', fs'.get p = some n' ∧ n'.kind = n.kind

theorem make_keepsKinds {n : Node} {s : Str} {fs fs' : Fs} (h : make cwd n s fs = .ok fs') :
    KeepsKinds fs fs' := by
  obtain ⟨p, -, hfresh, -, hget⟩ := make_ok h
  intro q m hq
  refine ⟨m, ?_, rfl⟩
  rw [hget, if_neg, hq]
  rintro rfl
  rw [hfresh] at hq
  simp at hq

theorem change_keepsKinds {follow : Bool} {f : Node → Except Errno Node} {s : Str} {fs fs' : Fs}
    (hf : ∀ n m, f n = .ok m → m.kind = n.kind) (h : change cwd follow f s fs = .ok fs') :
    KeepsKinds fs fs' := by
  obtain ⟨p, n, m, -, hg, hm, hget⟩ := change_ok (fun n m hm hk => (hf n m hm).trans hk) h
  intro q k hq
  by_cases hqp : q = p
  · subst hqp
    rw [hg, Option.some_inj] at hq
    subst hq
    exact ⟨m, by rw [hget, if_pos rfl], hf n m hm⟩
  · exact ⟨k, by rw [hget, if_neg hqp, hq], rfl⟩

theorem chmod_keepsKinds {m : BitVec 12} {s : Str} {fs fs' : Fs} (h : chmod cwd m s fs = .ok fs') :
    KeepsKinds fs fs' :=
  change_keepsKinds (fun n _ hm => by rw [← Except.ok.inj hm]) h

theorem utimes_keepsKinds {t : Int} {s : Str} {fs fs' : Fs} (h : utimes cwd t s fs = .ok fs') :
    KeepsKinds fs fs' :=
  change_keepsKinds (fun n _ hm => by rw [← Except.ok.inj hm]) h

/-! ## Calls that take away -/

theorem unlink_ok {s : Str} {fs fs' : Fs} (h : unlink cwd s fs = .ok fs') :
    ∃ p n, resolve fs cwd false s = .ok p ∧ fs.get p = some n ∧ n.kind ≠ .dir ∧
      ∀ q, fs'.get q = if q = p then none else fs.get q := by
  unfold unlink at h
  cases hn : nodeAt cwd false s fs with
  | error e => rw [hn] at h; simp at h
  | ok pn =>
    obtain ⟨p, n⟩ := pn
    obtain ⟨hr, hg⟩ := nodeAt_ok.mp hn
    rw [hn] at h
    simp only at h
    split at h
    · simp at h
    · next hk =>
      rw [Except.ok.injEq] at h
      refine ⟨p, n, hr, hg, hk, fun q => ?_⟩
      rw [← h]
      refine Fs.get_del (Fs.names_eq_nil ?_) q
      rw [Bool.eq_false_iff, ne_eq, Fs.isDir_iff]
      rintro ⟨n', hn', hk'⟩
      rw [hg, Option.some_inj] at hn'
      exact hk (hn' ▸ hk')

theorem rmdir_ok {s : Str} {fs fs' : Fs} (h : rmdir cwd s fs = .ok fs') :
    ∃ p n, resolve fs cwd false s = .ok p ∧ fs.get p = some n ∧ n.kind = .dir ∧
      fs.names p = [] ∧ ∀ q, fs'.get q = if q = p then none else fs.get q := by
  unfold rmdir at h
  cases hn : nodeAt cwd false s fs with
  | error e => rw [hn] at h; simp at h
  | ok pn =>
    obtain ⟨p, n⟩ := pn
    obtain ⟨hr, hg⟩ := nodeAt_ok.mp hn
    rw [hn] at h
    simp only at h
    split at h
    · simp at h
    · next hk =>
      split at h
      · simp at h
      · split at h
        · simp at h
        · next hnames =>
          rw [ne_eq, not_not] at hk hnames
          rw [Except.ok.injEq] at h
          refine ⟨p, n, hr, hg, hk, hnames, fun q => ?_⟩
          rw [← h]
          exact Fs.get_del hnames q

/-- `rename` moves the node to its new name, over what was there. -/
theorem rename_ok {s t : Str} {fs fs' : Fs} (h : rename cwd s t fs = .ok fs') :
    ∃ p n q, resolve fs cwd false s = .ok p ∧ fs.get p = some n ∧ n.kind ≠ .dir ∧
      resolve fs cwd false t = .ok q ∧ fs.isDir q = false ∧
      ∀ r, fs'.get r = if r = q then some n else if r = p then none else fs.get r := by
  unfold rename at h
  cases hn : nodeAt cwd false s fs with
  | error e => rw [hn] at h; simp at h
  | ok pn =>
    obtain ⟨p, n⟩ := pn
    obtain ⟨hr, hg⟩ := nodeAt_ok.mp hn
    rw [hn] at h
    simp only at h
    cases hq : resolve fs cwd false t with
    | error e => rw [hq] at h; simp at h
    | ok q =>
      rw [hq] at h
      simp only at h
      split at h
      · simp at h
      · next hdir =>
        rw [not_or] at hdir
        refine ⟨p, n, q, hr, hg, hdir.1, rfl, Bool.eq_false_iff.mpr hdir.2, fun r => ?_⟩
        split at h
        · next hpq =>
          rw [Except.ok.injEq] at h
          subst hpq
          rw [← h]
          by_cases hrp : r = p
          · rw [if_pos hrp, hrp, hg]
          · rw [if_neg hrp, if_neg hrp]
        · next hpq =>
          split at h
          · next hd =>
            rw [Except.ok.injEq] at h
            have hfits : fs.Fits q n :=
              ⟨Or.inr hd, Or.inr (Fs.names_eq_nil (Bool.eq_false_iff.mpr hdir.2))⟩
            have hnames : (fs.put q n).names p = [] := by
              refine Fs.names_eq_nil ?_
              rw [Bool.eq_false_iff, ne_eq, Fs.isDir_iff, Fs.get_put_ne hpq]
              rintro ⟨n', hn', hk'⟩
              rw [hg, Option.some_inj] at hn'
              exact hdir.1 (hn' ▸ hk')
            rw [← h, Fs.get_del hnames, Fs.get_put hfits]
            by_cases hrp : r = p
            · rw [if_pos hrp, if_neg (hrp ▸ hpq), if_pos hrp]
            · rw [if_neg hrp, if_neg hrp]
          · simp at h

end PosixFs
