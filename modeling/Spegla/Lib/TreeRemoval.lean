import Spegla.Lib.ScratchFile

/-!
# Taking a part of a tree away

What a program that removes a hierarchy of directories, call by call, has removed so far.

- `Taken l fs fs'`: the tree `fs'` is `fs` without the nodes at the paths of the list `l`, each
  of which was there; `Taken.cons` adds the next one.
- `LosesOnly B fs fs'`: what is gone has been in `B`; `unlink_loses` and so on for the calls.
- `Confined cwd fs m B f`: what the string `f` names, and all that is below it, is in `B`, and can
  be spelt from `f` in less than `m` characters. `Confined.name` goes one directory down.
-/

namespace PosixFs

open CString

/-! ## What is gone -/

/-- The tree `fs'` is `fs` without the nodes at the paths in `l`. -/
structure Taken (l : List Path) (fs fs' : Fs) : Prop where
  nodup : l.Nodup
  there : ∀ q ∈ l, fs.get q ≠ none
  get : ∀ q, fs'.get q = if q ∈ l then none else fs.get q

variable {l : List Path} {fs fs' fs'' : Fs} {p : Path}

theorem Taken.refl (fs : Fs) : Taken [] fs fs where
  nodup := List.nodup_nil
  there := by simp
  get := by simp

theorem Taken.extends_ (h : Taken l fs fs') : Extends fs' fs := by
  intro q n hq
  rw [h.get] at hq
  split at hq
  · simp at hq
  · exact hq

/-- One more node is taken away. -/
theorem Taken.cons (h : Taken l fs fs') (hp : fs'.get p ≠ none)
    (hget : ∀ q, fs''.get q = if q = p then none else fs'.get q) : Taken (p :: l) fs fs'' := by
  have hpl : p ∉ l := by
    intro hmem
    rw [h.get, if_pos hmem] at hp
    exact hp rfl
  constructor
  · exact List.nodup_cons.mpr ⟨hpl, h.nodup⟩
  · intro q hq
    rcases List.mem_cons.mp hq with rfl | hq
    · rwa [h.get, if_neg hpl] at hp
    · exact h.there q hq
  · intro q
    rw [hget, h.get]
    by_cases hqp : q = p
    · rw [if_pos hqp, if_pos (by rw [hqp]; exact List.mem_cons_self ..)]
    · rw [if_neg hqp]
      simp [hqp]

/-! ## What may be gone -/

/-- What is in `fs` is in `fs'`, but for places in `B`, and directories are directories. -/
def LosesOnly (B : Path → Prop) (fs fs' : Fs) : Prop :=
  ∀ q n, fs.get q = some n → ¬B q → ∃ n', fs'.get q = some n' ∧ (n.kind = .dir → n'.kind = .dir)

theorem KeepsKinds.losesOnly {B : Path → Prop} (h : KeepsKinds fs fs') : LosesOnly B fs fs' := by
  intro q n hq _
  obtain ⟨n', hn', hk⟩ := h q n hq
  exact ⟨n', hn', fun hd => hk.trans hd⟩

theorem Taken.losesOnly {B : Path → Prop} (h : Taken l fs fs') (hl : ∀ q ∈ l, B q) :
    LosesOnly B fs fs' := by
  intro q n hq hB
  refine ⟨n, ?_, id⟩
  rw [h.get, if_neg fun hmem => hB (hl q hmem), hq]

/-- One node has taken the place of another, or has come to be. -/
theorem losesOnly_of_put {n : Node} {p : Path}
    (hdir : ∀ m, fs.get p = some m → m.kind = .dir → n.kind = .dir)
    (hget : ∀ q, fs'.get q = if q = p then some n else fs.get q) :
    LosesOnly (fun _ => False) fs fs' := by
  intro q m hq _
  by_cases hqp : q = p
  · subst hqp
    exact ⟨n, by rw [hget, if_pos rfl], hdir m hq⟩
  · exact ⟨m, by rw [hget, if_neg hqp, hq], id⟩

theorem losesOnly_of_del {p : Path} (hget : ∀ q, fs'.get q = if q = p then none else fs.get q) :
    LosesOnly (· = p) fs fs' := by
  intro q n hq hne
  exact ⟨n, by rw [hget, if_neg hne, hq], id⟩

/-! What the calls may take away: the file that is unlinked or renamed. -/

theorem make_loses {cwd : Path} {n : Node} {s : Str} (h : make cwd n s fs = .ok fs') :
    LosesOnly (fun _ => False) fs fs' := (make_keepsKinds h).losesOnly

theorem change_loses {cwd : Path} {follow : Bool} {f : Node → Except Errno Node} {s : Str}
    (hf : ∀ n m, f n = .ok m → n.kind = .dir → m.kind = .dir)
    (h : change cwd follow f s fs = .ok fs') : LosesOnly (fun _ => False) fs fs' := by
  obtain ⟨p, n, m, -, hg, hm, hget⟩ := change_ok hf h
  refine losesOnly_of_put (fun k hk hd => ?_) hget
  obtain rfl : n = k := Option.some.inj (hg.symm.trans hk)
  exact hf n m hm hd

theorem fopen_loses {cwd : Path} {cut : Bool} {umask : BitVec 12} {now : Int} {s : Str}
    (h : fopen cwd cut umask now s fs = .ok fs') : LosesOnly (fun _ => False) fs fs' := by
  obtain ⟨p, c, m, t, -, hwas, hget⟩ := fopen_ok h
  refine losesOnly_of_put (fun k hk hd => ?_) hget
  rcases hwas with ⟨hnone, -⟩ | ⟨n, c₀, hn, hfile, -⟩
  · rw [hnone] at hk
    simp at hk
  · obtain rfl : n = k := Option.some.inj (hn.symm.trans hk)
    rw [hfile] at hd
    simp at hd

theorem unlink_loses {cwd : Path} {s : Str} (h : unlink cwd s fs = .ok fs') :
    ∃ p, resolve fs cwd false s = .ok p ∧ LosesOnly (· = p) fs fs' := by
  obtain ⟨p, n, hp, -, -, hget⟩ := unlink_ok h
  exact ⟨p, hp, losesOnly_of_del hget⟩

theorem rmdir_loses {cwd : Path} {s : Str} (h : rmdir cwd s fs = .ok fs') :
    ∃ p, resolve fs cwd false s = .ok p ∧ LosesOnly (· = p) fs fs' := by
  obtain ⟨p, n, hp, -, -, -, hget⟩ := rmdir_ok h
  exact ⟨p, hp, losesOnly_of_del hget⟩

theorem rename_loses {cwd : Path} {s t : Str} (h : rename cwd s t fs = .ok fs') :
    ∃ p, resolve fs cwd false s = .ok p ∧ LosesOnly (· = p) fs fs' := by
  obtain ⟨p, n, q, hp, -, -, -, hdir, hget⟩ := rename_ok h
  refine ⟨p, hp, fun r m hr hne => ?_⟩
  rw [hget]
  by_cases hrq : r = q
  · subst hrq
    refine ⟨n, by rw [if_pos rfl], fun hd => ?_⟩
    rw [Fs.isDir_iff.mpr ⟨m, hr, hd⟩] at hdir
    simp at hdir
  · exact ⟨m, by rw [if_neg hrq, if_neg hne, hr], id⟩

/-! ## Where it was -/

variable {cwd : Path} {m : Nat} {B : Path → Prop} {f : Str}

/-- The node that `f` names, if there is one, is in `B`, and the string `f` can be made that of
anything below it in less than `m` characters. -/
def Confined (cwd : Path) (fs : Fs) (m : Nat) (B : Path → Prop) (f : Str) : Prop :=
  ∀ p n, nodeAt cwd false f fs = .ok (p, n) →
    B p ∧ ∀ q, fs.get (p ++ q) ≠ none → (f ++ below q).length < m

/-- The string of what is there is short. -/
theorem Confined.length_lt (h : Confined cwd fs m B f) {n : Node}
    (hn : nodeAt cwd false f fs = .ok (p, n)) : f.length < m := by
  have hlen := (h p n hn).2 []
  rw [List.append_nil, (nodeAt_ok.mp hn).2] at hlen
  simpa [below] using hlen (by simp)

/-- A name in a directory is confined as the directory is. -/
theorem Confined.name (hB : ∀ p c, B p → B (p ++ [c])) (h : Confined cwd fs m B f) {n : Node}
    (hn : nodeAt cwd false f fs = .ok (p, n)) (hdir : n.kind = .dir) {c : Str} (hc : IsName c) :
    Confined cwd fs m B (f ++ '/' :: c) := by
  obtain ⟨hr, hg⟩ := nodeAt_ok.mp hn
  have hname := resolve_name hr (Fs.isDir_iff.mpr ⟨n, hg, hdir⟩) hc
  intro p' n' hn'
  obtain ⟨hr', -⟩ := nodeAt_ok.mp hn'
  obtain rfl : p ++ [c] = p' := Except.ok.inj (hname.symm.trans hr')
  refine ⟨hB p c (h p n hn).1, fun q hq => ?_⟩
  rw [List.append_assoc, List.singleton_append] at hq
  have hlen := (h p n hn).2 (c :: q) hq
  simpa [below] using hlen

/-- So is what `readdir` finds in it, in any tree that is left of the first. -/
theorem Confined.readdir (hB : ∀ p c, B p → B (p ++ [c])) (h : Confined cwd fs m B f)
    (hx : Extends fs' fs) {n : Node} (hn : nodeAt cwd false f fs' = .ok (p, n))
    (hdir : n.kind = .dir)
    {names : List Str} (hnames : readdir cwd f fs' = .ok names) :
    ∀ c ∈ names, Confined cwd fs m B (f ++ '/' :: c) ∧ (f ++ '/' :: c).length < m := by
  obtain ⟨hr, hg⟩ := nodeAt_ok.mp hn
  have hfollow : nodeAt cwd true f fs' = .ok (p, n) :=
    nodeAt_ok.mpr ⟨resolve_dir true hr (Fs.isDir_iff.mpr ⟨n, hg, hdir⟩), hg⟩
  unfold PosixFs.readdir at hnames
  rw [hfollow] at hnames
  simp only [hdir, if_true] at hnames
  obtain rfl := Except.ok.inj hnames
  intro c hc
  have hname := Fs.isName_of_mem hc
  have hconf := h.name hB (nodeAt_extends hx hn) hdir hname
  refine ⟨hconf, ?_⟩
  -- the name is in the first tree too, where its string is short
  obtain ⟨k, hk⟩ := Option.ne_none_iff_exists'.mp (Fs.mem_names.mp hc)
  have hnode : nodeAt cwd false (f ++ '/' :: c) fs' = .ok (p ++ [c], k) :=
    nodeAt_ok.mpr ⟨resolve_name hr (Fs.isDir_iff.mpr ⟨n, hg, hdir⟩) hname, hk⟩
  exact hconf.length_lt (nodeAt_extends hx hnode)

end PosixFs
