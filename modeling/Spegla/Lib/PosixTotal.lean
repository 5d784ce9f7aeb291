import Spegla.Lib.PosixCalls

/-!
# Calls that succeed

The converse of the `…_ok` lemmas of `PosixCalls.lean`: a call whose path leads to what it is
for does not fail, and the whole new tree.
-/

namespace PosixFs

open CString

variable {cwd : Path} {fs : Fs} {p q : Path} {s t : Str} {n m : Node}

theorem change_total {f : Node → Except Errno Node} (hr : resolve fs cwd true s = .ok p)
    (hg : fs.get p = some n) (hf : f n = .ok m) (hd : n.kind = .dir → m.kind = .dir) :
    ∃ fs', change cwd true f s fs = .ok fs' ∧
      ∀ q, fs'.get q = if q = p then some m else fs.get q := by
  refine ⟨fs.put p m, ?_, Fs.get_put (Fs.fits_of_get hg hd)⟩
  unfold change
  rw [nodeAt_ok.mpr ⟨hr, hg⟩]
  simp only [hf]

theorem make_total (hr : resolve fs cwd false s = .ok p) (hg : fs.get p = none)
    (hp : fs.HasPlace p) :
    ∃ fs', make cwd n s fs = .ok fs' ∧ ∀ q, fs'.get q = if q = p then some n else fs.get q := by
  refine ⟨fs.put p n, ?_, Fs.get_put (Fs.fits_of_absent hg hp)⟩
  unfold make add
  rw [hr]
  simp [hg, hp]

theorem fopen_total (umask : BitVec 12) (now : Int) {mode : BitVec 12} {mtime : Int} {d : Str}
    (hr : resolve fs cwd true s = .ok p)
    (hg : fs.get p = some ⟨.file d, mode, mtime⟩) :
    ∃ fs', fopen cwd true umask now s fs = .ok fs' ∧
      ∀ q, fs'.get q = if q = p then some ⟨.file [], mode, now⟩ else fs.get q := by
  refine ⟨fs.put p ⟨.file [], mode, now⟩, ?_, Fs.get_put (Fs.fits_of_get hg (by simp))⟩
  unfold fopen
  rw [hr]
  simp [hg]

theorem append_total (data : Str) (now : Int) {d : Str} {mode : BitVec 12} {mtime : Int}
    (hr : resolve fs cwd true s = .ok p)
    (hg : fs.get p = some ⟨.file d, mode, mtime⟩) :
    ∃ fs', append cwd data now s fs = .ok fs' ∧
      ∀ q, fs'.get q = if q = p then some ⟨.file (d ++ data), mode, now⟩ else fs.get q :=
  change_total hr hg rfl (by simp)

theorem rename_total (hp : resolve fs cwd false s = .ok p) (hn : fs.get p = some n)
    (hk : n.kind ≠ .dir) (hq : resolve fs cwd false t = .ok q) (hdir : fs.isDir q = false)
    (hplace : fs.HasPlace q) :
    ∃ fs', rename cwd s t fs = .ok fs' := by
  unfold rename
  rw [nodeAt_ok.mpr ⟨hp, hn⟩]
  simp only [hq, hk, hdir]
  by_cases hpq : p = q
  · exact ⟨fs, by simp [hpq]⟩
  · exact ⟨(fs.put q n).del p, by simp [hpq, hplace]⟩

theorem unlink_total (hr : resolve fs cwd false s = .ok p) (hg : fs.get p = some n)
    (hk : n.kind ≠ .dir) : ∃ fs', unlink cwd s fs = .ok fs' := by
  unfold unlink
  rw [nodeAt_ok.mpr ⟨hr, hg⟩]
  exact ⟨fs.del p, by simp [hk]⟩

theorem rmdir_total (hr : resolve fs cwd false s = .ok p) (hg : fs.get p = some n)
    (hk : n.kind = .dir) (hp : p ≠ []) (hempty : fs.names p = []) :
    ∃ fs', rmdir cwd s fs = .ok fs' := by
  unfold rmdir
  rw [nodeAt_ok.mpr ⟨hr, hg⟩]
  exact ⟨fs.del p, by simp [hk, hp, hempty]⟩

theorem lstat_total (hr : resolve fs cwd false s = .ok p) (hg : fs.get p = some n) :
    lstat cwd s fs = .ok n := by
  unfold lstat
  rw [nodeAt_ok.mpr ⟨hr, hg⟩]
  rfl

end PosixFs
