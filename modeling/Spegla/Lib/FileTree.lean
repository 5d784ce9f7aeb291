import Mathlib.Data.BitVec
import Mathlib.Data.List.AList
import Spegla.Lib.CString

/-!
# A POSIX file tree

A file system as a finite map from absolute canonical paths to nodes.

- `IsName`: a name that a directory can hold.
- `Fs`: the map, together with the facts that whatever lies in it lies in a
  directory and has a name; no call can build a tree with orphans.
- `put`, `del`: the two ways a tree changes. The path resolution and the calls of
  `PathWalk.lean` and `PosixCalls.lean` stand on them.

The times of directories change through `utimes` only.
-/

namespace PosixFs

open CString

/-- An absolute path without `.`, `..` and symbolic links: its components. -/
abbrev Path := List Str

/-- What a node is, with its data. -/
inductive Kind where
  | file (content : Str)
  | dir
  | symlink (target : Str)
  | special
deriving DecidableEq, Repr

/-- A node: its kind, its permission bits, its modification time. -/
structure Node where
  kind : Kind
  mode : BitVec 12
  mtime : Int
deriving DecidableEq, Repr

/-- The node, but for the time of a directory. -/
def Node.untimed (n : Node) : Node := if n.kind = .dir then { n with mtime := 0 } else n

theorem Node.untimed_kind (n : Node) : n.untimed.kind = n.kind := by
  unfold untimed
  split <;> rfl

theorem Node.untimed_mode (n : Node) : n.untimed.mode = n.mode := by
  unfold untimed
  split <;> rfl

theorem Node.untimed_of_kind {n : Node} (h : n.kind ≠ .dir) : n.untimed = n := if_neg h

/-- The two places hold the same, but for the time of a directory. -/
def SameNode (a b : Option Node) : Prop := a.map Node.untimed = b.map Node.untimed

theorem SameNode.refl (a : Option Node) : SameNode a a := Eq.refl _

theorem SameNode.eq_none {b : Option Node} (h : SameNode none b) : b = none :=
  Option.map_eq_none_iff.mp h.symm

theorem SameNode.symm {a b : Option Node} (h : SameNode a b) : SameNode b a := Eq.symm h

/-- Where one place holds a node, the other does; the kinds and modes agree, and of what is no
directory all. -/
theorem SameNode.some {a : Option Node} {n : Node} (h : SameNode a (some n)) :
    ∃ m, a = Option.some m ∧ m.kind = n.kind ∧ m.mode = n.mode ∧ (n.kind ≠ .dir → m = n) := by
  obtain ⟨m, rfl, hm⟩ := Option.map_eq_some_iff.mp h
  have hkind : m.kind = n.kind := by rw [← m.untimed_kind, hm, n.untimed_kind]
  refine ⟨m, rfl, hkind, ?_, fun hn => ?_⟩
  · rw [← m.untimed_mode, hm, n.untimed_mode]
  · rw [← Node.untimed_of_kind hn, ← hm, Node.untimed_of_kind (hkind ▸ hn)]

/-- `st_size`. -/
def Node.size (n : Node) : Nat :=
  match n.kind with
  | .file c => c.length
  | .symlink t => t.length
  | _ => 0

/-- The errors of the calls below, and those a caller may meet for outside
reasons (`EOTHER` stands for every reason the tree does not show). -/
inductive Errno where
  | ENOENT
  | EEXIST
  | ENOTDIR
  | EISDIR
  | ENOTEMPTY
  | ELOOP
  | EINVAL
  | EFAULT
  | EOTHER
deriving DecidableEq, Repr

/-- A name that a directory can hold: not empty, not `.` or `..`, without `/`. -/
structure IsName (c : Str) : Prop where
  ne_nil : c ≠ []
  ne_dot : c ≠ ['.']
  ne_dotdot : c ≠ ['.', '.']
  noslash : '/' ∉ c

instance (c : Str) : Decidable (IsName c) :=
  decidable_of_iff (c ≠ [] ∧ c ≠ ['.'] ∧ c ≠ ['.', '.'] ∧ '/' ∉ c)
    ⟨fun h => ⟨h.1, h.2.1, h.2.2.1, h.2.2.2⟩, fun h => ⟨h.1, h.2, h.3, h.4⟩⟩

/-- A file system: every node but the root has a name and lies in a directory. -/
structure Fs where
  nodes : AList fun _ : Path => Node
  parentDir : ∀ p c, nodes.lookup (p ++ [c]) ≠ none →
    IsName c ∧ ∃ n, nodes.lookup p = some n ∧ n.kind = .dir

namespace Fs

/-- The node at a path. -/
def get (fs : Fs) (p : Path) : Option Node := fs.nodes.lookup p

/-- Whether a directory is at `p`. -/
def isDir (fs : Fs) (p : Path) : Bool :=
  match fs.get p with
  | some n => n.kind = .dir
  | none => false

/-- The name of `q` in the directory `p`, when that is where it lies. -/
def nameIn (p q : Path) : Option Str := if q.dropLast = p then q.getLast? else none

/-- The names in the directory `p`. -/
def names (fs : Fs) (p : Path) : List Str := fs.nodes.keys.filterMap (nameIn p)

theorem isDir_iff {fs : Fs} {p : Path} :
    fs.isDir p = true ↔ ∃ n, fs.get p = some n ∧ n.kind = .dir := by
  unfold isDir
  cases fs.get p with
  | none => simp
  | some n => simp

theorem isDir_of_same {fs fs' : Fs} {q : Path} (h : SameNode (fs'.get q) (fs.get q))
    (hdir : fs.isDir q = true) : fs'.isDir q = true := by
  obtain ⟨n, hn, hk⟩ := isDir_iff.mp hdir
  rw [hn] at h
  obtain ⟨m, hm, hkind, -⟩ := h.some
  exact isDir_iff.mpr ⟨m, hm, hkind.trans hk⟩

theorem isDir_of_get {fs : Fs} {p : Path} {c : Str} (h : fs.get (p ++ [c]) ≠ none) :
    fs.isDir p = true :=
  isDir_iff.mpr (fs.parentDir p c h).2

theorem nameIn_eq_some {p q : Path} {c : Str} : nameIn p q = some c ↔ q = p ++ [c] := by
  unfold nameIn
  constructor
  · intro h
    split at h
    · next hp =>
      obtain ⟨ys, rfl⟩ := List.getLast?_eq_some_iff.mp h
      rw [List.dropLast_concat] at hp
      rw [hp]
    · simp at h
  · rintro rfl
    rw [List.dropLast_concat, if_pos rfl, List.getLast?_concat]

theorem mem_names {fs : Fs} {p : Path} {c : Str} :
    c ∈ fs.names p ↔ fs.get (p ++ [c]) ≠ none := by
  unfold names get
  rw [List.mem_filterMap, ← Option.isSome_iff_ne_none, AList.lookup_isSome, AList.mem_keys]
  constructor
  · rintro ⟨q, hq, hc⟩
    rwa [nameIn_eq_some.mp hc] at hq
  · exact fun h => ⟨_, h, nameIn_eq_some.mpr rfl⟩

theorem isName_of_mem {fs : Fs} {p : Path} {c : Str} (h : c ∈ fs.names p) : IsName c :=
  (fs.parentDir p c (mem_names.mp h)).1

theorem names_nodup (fs : Fs) (p : Path) : (fs.names p).Nodup := by
  refine List.Nodup.filterMap ?_ fs.nodes.keys_nodup
  intro q q' c hq hq'
  rw [Option.mem_def, nameIn_eq_some] at hq hq'
  rw [hq, hq']

/-- Only a directory has names in it. -/
theorem names_eq_nil {fs : Fs} {p : Path} (h : fs.isDir p = false) : fs.names p = [] := by
  refine List.eq_nil_iff_forall_not_mem.mpr fun c hc => ?_
  rw [isDir_of_get (mem_names.mp hc)] at h
  simp at h

/-- The tree of an empty root directory. -/
def init : Fs :=
  { nodes := AList.insert [] ⟨.dir, 0o755#12, 0⟩ ∅
    parentDir := by
      intro p c h
      rw [AList.lookup_insert_ne (by simp)] at h
      exact absurd rfl h }

/-! ## The two updates

`put` and `del` are the only ways a tree changes. Each is guarded by what keeps
orphans out; the calls check the guard before they come to it. -/

/-- Whether a node may stand at `p`: under a name, in a directory. -/
def HasPlace (fs : Fs) (p : Path) : Prop :=
  fs.isDir p.dropLast = true ∧ ∃ c ∈ p.getLast?, IsName c

instance (fs : Fs) (p : Path) : Decidable (fs.HasPlace p) :=
  inferInstanceAs (Decidable (_ ∧ _))

/-- Whether putting `n` at `p` leaves no orphan: `p` has its place, and what lies
below `p` still lies in a directory. -/
def Fits (fs : Fs) (p : Path) (n : Node) : Prop :=
  (p = [] ∨ fs.HasPlace p) ∧ (n.kind = .dir ∨ fs.names p = [])

instance (fs : Fs) (p : Path) (n : Node) : Decidable (fs.Fits p n) :=
  inferInstanceAs (Decidable (_ ∧ _))

theorem hasPlace_concat {fs : Fs} {p : Path} {c : Str} :
    fs.HasPlace (p ++ [c]) ↔ fs.isDir p = true ∧ IsName c := by
  unfold HasPlace
  rw [List.dropLast_concat, List.getLast?_concat]
  simp

theorem HasPlace.ne_nil {fs : Fs} {p : Path} (h : fs.HasPlace p) : p ≠ [] := by
  rintro rfl
  obtain ⟨-, c, hc, -⟩ := h
  simp at hc

/-- Put `n` at `p`. -/
def put (fs : Fs) (p : Path) (n : Node) : Fs :=
  if h : fs.Fits p n then
    { nodes := fs.nodes.insert p n
      parentDir := by
        intro q c hq
        by_cases hqp : q = p
        · subst hqp
          have hne : q ++ [c] ≠ q := fun hc => by simpa using congrArg List.length hc
          rw [AList.lookup_insert_ne hne] at hq
          refine ⟨(fs.parentDir q c hq).1, n, AList.lookup_insert _, ?_⟩
          rcases h.2 with hn | hn
          · exact hn
          · exact absurd (mem_names.mpr hq) (by rw [hn]; exact List.not_mem_nil)
        · rw [AList.lookup_insert_ne hqp]
          by_cases hqc : q ++ [c] = p
          · rcases h.1 with hp | hp
            · exact absurd (hqc.trans hp) (by simp)
            · rw [← hqc, hasPlace_concat] at hp
              exact ⟨hp.2, isDir_iff.mp hp.1⟩
          · rw [AList.lookup_insert_ne hqc] at hq
            exact fs.parentDir q c hq }
  else fs

/-- Take the node at `p` away. -/
def del (fs : Fs) (p : Path) : Fs :=
  if h : fs.names p = [] then
    { nodes := fs.nodes.erase p
      parentDir := by
        intro q c hq
        have hqc : q ++ [c] ≠ p := fun hc => hq (by rw [hc]; exact AList.lookup_erase _ _)
        rw [AList.lookup_erase_ne hqc] at hq
        by_cases hqp : q = p
        · subst hqp
          exact absurd (mem_names.mpr hq) (by rw [h]; exact List.not_mem_nil)
        · rw [AList.lookup_erase_ne hqp]
          exact fs.parentDir q c hq }
  else fs

theorem get_put {fs : Fs} {p : Path} {n : Node} (h : fs.Fits p n) (q : Path) :
    (fs.put p n).get q = if q = p then some n else fs.get q := by
  unfold put get
  rw [dif_pos h]
  by_cases hq : q = p
  · rw [if_pos hq, hq]
    exact AList.lookup_insert _
  · rw [if_neg hq]
    exact AList.lookup_insert_ne hq

theorem get_put_ne {fs : Fs} {p q : Path} {n : Node} (hq : q ≠ p) :
    (fs.put p n).get q = fs.get q := by
  by_cases h : fs.Fits p n
  · rw [get_put h, if_neg hq]
  · rw [put, dif_neg h]

theorem get_del {fs : Fs} {p : Path} (h : fs.names p = []) (q : Path) :
    (fs.del p).get q = if q = p then none else fs.get q := by
  unfold del get
  rw [dif_pos h]
  by_cases hq : q = p
  · rw [if_pos hq, hq]
    exact AList.lookup_erase _ _
  · rw [if_neg hq]
    exact AList.lookup_erase_ne hq

/-- A node may be replaced by one that is a directory if it was one. -/
theorem fits_of_get {fs : Fs} {p : Path} {n m : Node} (h : fs.get p = some n)
    (hm : n.kind = .dir → m.kind = .dir) : fs.Fits p m := by
  constructor
  · rcases List.eq_nil_or_concat p with rfl | ⟨q, c, rfl⟩
    · exact Or.inl rfl
    · rw [List.concat_eq_append] at h ⊢
      have hq : fs.get (q ++ [c]) ≠ none := by rw [h]; simp
      exact Or.inr (hasPlace_concat.mpr ⟨isDir_of_get hq, (fs.parentDir q c hq).1⟩)
  · by_cases hn : n.kind = .dir
    · exact Or.inl (hm hn)
    · refine Or.inr (names_eq_nil ?_)
      rw [Bool.eq_false_iff]
      intro hd
      obtain ⟨n', hn', hk⟩ := isDir_iff.mp hd
      rw [h, Option.some_inj] at hn'
      exact hn (hn' ▸ hk)

/-- A node may be added where nothing is, in a directory. -/
theorem fits_of_absent {fs : Fs} {p : Path} {n : Node} (h : fs.get p = none)
    (hp : fs.HasPlace p) : fs.Fits p n := by
  refine ⟨Or.inr hp, Or.inr (names_eq_nil ?_)⟩
  unfold isDir
  rw [h]

end Fs

end PosixFs
