import Mathlib.Data.List.TakeWhile
import Spegla.Listing

/-!
# The ends of lines (`spegla.c`, `build_remote_dir`)

`build_remote_dir` strips a newline and a carriage return from each line of a listing. It looks for
them at `buf[len - 1]`, twice, whatever the length is.

- `stripAt`, `stripIndices`: the two rounds on the buffer, with the indices they use. They leave the
  line that `stripEol` leaves (`stripIndices_stripEol`).
- `reachedRows`: the lines that get to the loop.
- `stripsInside_iff`: the indices lie in the buffer exactly as long as no line is empty, or has
  become empty, when it is looked at.
-/

namespace Spegla

open CString

/-- `len = strlen(buf); if (buf[len - 1] == c) buf[len - 1] = '\0';`: the index, and the buffer. A
`len` of 0 gives the byte in front of the buffer, which is not a part of it. -/
def stripAt (c : Char) (buf : Str) : Int × Str :=
  let len := (cstr buf).length
  (len - 1, if 0 < len ∧ buf[len - 1]? = some c then buf.set (len - 1) nul else buf)

/-- The indices into the buffer while the end of one line is stripped. -/
def stripIndices (buf : Str) : List Int :=
  let (i, buf) := stripAt '\n' buf
  let (j, _) := stripAt '\r' buf
  [i, j]

variable {F : Type}

/-- The lines that the loop of `build_remote_dir` gets to: a null pointer that is handed to a
pattern ends the program. -/
def reachedRows (env : Env F) (curDir : Str) (tick : Nat) : List Str → List Str
  | [] => []
  | buf :: bufs =>
    buf ::
      match rowEntry env curDir (env.leftover tick bufs.length) buf with
      | .error _ => []
      | .ok _ => reachedRows env curDir tick bufs

/-- Nothing is left of the line, up to a NUL in it, or only its newline. -/
def IsBlank (buf : Str) : Prop := cstr buf = [] ∨ cstr buf = ['\n']

instance (buf : Str) : Decidable (IsBlank buf) := inferInstanceAs (Decidable (_ ∨ _))

/-! ## The buffer -/

/-- What a round leaves of the string. -/
theorem cstr_stripAt (c : Char) (buf : Str) :
    cstr (stripAt c buf).2 =
      if (cstr buf).getLast? = some c then (cstr buf).dropLast else cstr buf := by
  obtain ⟨t, hbuf⟩ : ∃ t, cstr buf ++ t = buf := List.takeWhile_prefix _
  show cstr (if 0 < (cstr buf).length ∧ buf[(cstr buf).length - 1]? = some c then
    buf.set ((cstr buf).length - 1) nul else buf) = _
  have hnul := nul_notMem_cstr buf
  generalize hp : cstr buf = p at *
  subst hbuf
  rcases List.eq_nil_or_concat p with rfl | ⟨q, x, rfl⟩
  · rw [if_neg (by simp), if_neg (by simp)]
    exact hp
  · rw [List.concat_eq_append] at *
    have hget : (q ++ [x] ++ t)[(q ++ [x]).length - 1]? = some x := by simp
    rw [hget, List.getLast?_concat, List.dropLast_concat]
    by_cases hx : x = c
    · have hset : (q ++ [x] ++ t).set ((q ++ [x]).length - 1) nul = q ++ nul :: t := by simp
      rw [if_pos ⟨by simp, by rw [hx]⟩, if_pos (by rw [hx]), hset, cstr_append]
      exact fun h => hnul (List.mem_append_left _ h)
    · rw [if_neg fun h => hx (Option.some.inj h.2), if_neg fun h => hx (Option.some.inj h)]
      exact hp

/-- The two rounds leave what `stripEol` leaves. -/
theorem stripIndices_stripEol (buf : Str) :
    cstr (stripAt '\r' (stripAt '\n' buf).2).2 = stripEol buf := by
  rw [cstr_stripAt, cstr_stripAt]
  rfl

/-! ## The indices -/

theorem mem_stripIndices {buf : Str} {i : Int} :
    i ∈ stripIndices buf ↔ i = (cstr buf).length - 1 ∨
      i = (cstr (stripAt '\n' buf).2).length - 1 := by
  show i ∈ [_, _] ↔ _
  rw [List.mem_pair]
  exact Iff.rfl

/-- A line that is not blank has a last character before and after its newline is stripped. -/
theorem stripIndices_nonneg (buf : Str) : (∀ i ∈ stripIndices buf, 0 ≤ i) ↔ ¬IsBlank buf := by
  have hround := cstr_stripAt '\n' buf
  constructor
  · rintro h (hnil | hnewline)
    · have := h _ (mem_stripIndices.mpr (Or.inl rfl))
      rw [hnil] at this
      exact absurd this (by decide)
    · have := h _ (mem_stripIndices.mpr (Or.inr rfl))
      rw [hround, hnewline] at this
      exact absurd this (by decide)
  · intro hblank i hi
    rw [IsBlank, not_or] at hblank
    have hpos := List.length_pos_iff.mpr hblank.1
    rcases mem_stripIndices.mp hi with rfl | rfl
    · omega
    · rw [hround]
      split
      · next hlast =>
        -- the newline is not the only character
        have hlong : (cstr buf).length ≠ 1 := by
          intro hone
          obtain ⟨c, hc⟩ := List.length_eq_one_iff.mp hone
          rw [hc] at hlast
          simp only [List.getLast?_singleton, Option.some.injEq] at hlast
          rw [hlast] at hc
          exact hblank.2 hc
        rw [List.length_dropLast]
        omega
      · omega

theorem stripIndices_le {buf : Str} {i : Int} (hi : i ∈ stripIndices buf) :
    i ≤ (buf.length : Int) - 1 := by
  have hlen := cstr_length_le buf
  have hround := cstr_stripAt '\n' buf
  rcases mem_stripIndices.mp hi with rfl | rfl
  · omega
  · rw [hround]
    split
    · rw [List.length_dropLast]
      omega
    · omega

/-! ## The lines of a listing -/

theorem line_length_le (k : Nat) (s : Str) : (line k s).1.length ≤ k := by
  induction k generalizing s with
  | zero => exact Nat.le_refl _
  | succ k ih =>
    cases s with
    | nil => exact Nat.zero_le _
    | cons c s =>
      rw [line]
      split
      · exact Nat.succ_le_succ (Nat.zero_le _)
      · exact Nat.succ_le_succ (ih s)

/-- Every line leaves room for its NUL. -/
theorem readLines_length {size fuel : Nat} {s buf : Str} (h : buf ∈ readLines size fuel s) :
    buf.length ≤ size - 1 := by
  induction fuel generalizing s with
  | zero => simp [readLines] at h
  | succ fuel ih =>
    rw [readLines, fgets] at h
    by_cases hs : s = []
    · simp [hs] at h
    · rw [if_neg hs] at h
      rcases List.mem_cons.mp h with rfl | h
      · exact line_length_le _ _
      · exact ih h

theorem listingRows_subset (pathMax : Nat) (listing : Str) :
    listingRows pathMax listing ⊆ readLines pathMax listing.length listing := by
  intro buf h
  rw [listingRows] at h
  split at h
  · exact absurd h (List.not_mem_nil)
  · next heq =>
    rw [heq]
    split at h
    · exact List.mem_cons_of_mem _ h
    · exact h

theorem reachedRows_subset (env : Env F) (curDir : Str) (tick : Nat) (bufs : List Str) :
    reachedRows env curDir tick bufs ⊆ bufs := by
  induction bufs with
  | nil => exact fun _ h => h
  | cons buf bufs ih =>
    intro b h
    rw [reachedRows] at h
    rcases List.mem_cons.mp h with rfl | h
    · exact List.mem_cons_self
    · split at h
      · exact absurd h List.not_mem_nil
      · exact List.mem_cons_of_mem _ (ih h)

/-- While `build_remote_dir` strips the ends of the lines of a listing, it stays in its buffer of
`PATH_MAX` bytes exactly when none of the lines that it gets to is blank. -/
theorem stripsInside_iff (env : Env F) (curDir : Str) (tick : Nat) (listing : Str) :
    (∀ buf ∈ reachedRows env curDir tick (listingRows env.pathMax listing),
      ∀ i ∈ stripIndices buf, 0 ≤ i ∧ i < env.pathMax) ↔
    ∀ buf ∈ reachedRows env curDir tick (listingRows env.pathMax listing), ¬IsBlank buf := by
  constructor
  · intro h buf hbuf
    exact (stripIndices_nonneg buf).mp fun i hi => (h buf hbuf i hi).1
  · intro h buf hbuf i hi
    have hpos := (stripIndices_nonneg buf).mpr (h buf hbuf) i hi
    have hlen := readLines_length (listingRows_subset _ _ (reachedRows_subset _ _ _ _ hbuf))
    have hle := stripIndices_le hi
    exact ⟨hpos, by omega⟩

/-- A blank line that a newline alone ends. -/
theorem blankLine_outside :
    ¬∀ buf ∈ reachedRows (calmEnv deadFtp) [] 0 (listingRows 255 ['\n']),
      ∀ i ∈ stripIndices buf, 0 ≤ i ∧ i < (255 : Int) := by
  intro h
  have := h ['\n'] (by decide +kernel) (-1) (by decide)
  exact absurd this.1 (by decide)

end Spegla
