import Mathlib.Algebra.Group.Nat.Defs
import Mathlib.Data.List.Basic
import Mathlib.Logic.Function.Basic
import Mathlib.Tactic.Common

/-!
# Rings in arrays

An array whose slots are used around the end: the elements of a list lie in the slots from `start`
on, and behind the last slot comes slot 0. One slot at least is free.

- `RingArray`: the array holds the elements. It is the array of one list only (`RingArray.unique`).
- `memmove`: elements are moved within the array, the old and the new place overlapping or not.
- `RingArray.push`, `RingArray.unwrap`: an element comes behind the last one, and what lies at the
  beginning of the array is copied behind its old end.
- `RingArray.shiftUp`, `RingArray.shiftDown`: an element is taken out by moving those before it, or
  those behind it.
-/

variable {α : Type} {data : Nat → α} {start size i : Nat} {xs ys : List α}

/-- The array holds the elements of `xs`, from the slot `start` on. -/
structure RingArray (data : Nat → α) (start size : Nat) (xs : List α) : Prop where
  start_lt : start < size
  room : xs.length < size
  slot : ∀ i < xs.length, xs[i]? = some (data ((start + i) % size))

/-- `memmove(data + dst, data + src, n)` -/
def memmove (data : Nat → α) (dst src n k : Nat) : α :=
  if dst ≤ k ∧ k < dst + n then data (src + (k - dst)) else data k

theorem memmove_inside {dst src n k : Nat} (h : k < n) :
    memmove data dst src n (dst + k) = data (src + k) := by
  rw [memmove, if_pos (by omega), Nat.add_sub_cancel_left]

theorem memmove_outside {dst src n k : Nat} (h : k < dst ∨ dst + n ≤ k) :
    memmove data dst src n k = data k := by
  rw [memmove, if_neg (by omega)]

namespace RingArray

/-- A slot before the end of the array. -/
theorem slot_front (h : start + i < size) : (start + i) % size = start + i := Nat.mod_eq_of_lt h

/-- A slot at its beginning. -/
theorem slot_back (hstart : start < size) (hi : i < size) (h : size ≤ start + i) :
    (start + i) % size = start + i - size := by
  rw [Nat.mod_eq_sub_mod h, Nat.mod_eq_of_lt (by omega)]

theorem nil (h : start < size) : RingArray data start size [] :=
  ⟨h, Nat.zero_lt_of_lt h, fun _ hi => absurd hi (Nat.not_lt_zero _)⟩

theorem getElem (h : RingArray data start size xs) (hi : i < xs.length) :
    xs[i] = data ((start + i) % size) :=
  Option.some.inj ((List.getElem?_eq_getElem hi).symm.trans (h.slot i hi))

theorem unique (h : RingArray data start size xs) (h' : RingArray data start size ys)
    (hlen : xs.length = ys.length) : xs = ys := by
  apply List.ext_getElem hlen
  intro i hi hi'
  rw [h.getElem hi, h'.getElem hi']

/-- The first element goes. -/
theorem tail {x : α} (h : RingArray data start size (x :: xs)) :
    RingArray data ((start + 1) % size) size xs := by
  refine ⟨Nat.mod_lt _ (Nat.zero_lt_of_lt h.start_lt), Nat.lt_of_succ_lt h.room, fun i hi => ?_⟩
  have hslot := h.slot (i + 1) (Nat.succ_lt_succ hi)
  rw [List.getElem?_cons_succ] at hslot
  rw [hslot, Nat.mod_add_mod, Nat.add_assoc, Nat.add_comm 1]

/-- Elements that follow one another lie in different slots. -/
theorem slot_ne {j : Nat} (hstart : start < size) (hj : j < size) (hlt : i < j) :
    (start + i) % size ≠ (start + j) % size := by
  by_cases hi : start + i < size
  · rw [slot_front hi]
    by_cases hj' : start + j < size
    · rw [slot_front hj']
      omega
    · rw [slot_back hstart hj (by omega)]
      omega
  · rw [slot_back hstart (by omega) (by omega), slot_back hstart hj (by omega)]
    omega

/-- An element comes behind the last one. -/
theorem push (h : RingArray data start size xs) (hroom : xs.length + 1 < size) (x : α) :
    RingArray (Function.update data ((start + xs.length) % size) x) start size (xs ++ [x]) := by
  refine ⟨h.start_lt, by simpa using hroom, fun i hi => ?_⟩
  rw [List.length_append, List.length_singleton] at hi
  by_cases hlast : i = xs.length
  · subst hlast
    rw [List.getElem?_concat_length, Function.update_self]
  · have hlt : i < xs.length := by omega
    rw [List.getElem?_append_left hlt, h.slot i hlt,
      Function.update_of_ne (slot_ne h.start_lt h.room hlt)]

/-- What lies at the beginning of the array is copied behind its end, in a larger array. -/
theorem unwrap {data' : Nat → α} {size' : Nat} (h : RingArray data start size xs)
    (hfits : start + xs.length < size') (hfront : ∀ k < size, data' k = data k)
    (hback : ∀ k, size + k < start + xs.length → data' (size + k) = data k) :
    RingArray data' start size' xs := by
  have hstart := h.start_lt
  have hroom := h.room
  refine ⟨by omega, by omega, fun i hi => ?_⟩
  rw [h.slot i hi, slot_front (by omega : start + i < size')]
  by_cases hi' : start + i < size
  · rw [slot_front hi', hfront _ hi']
  · rw [slot_back hstart (by omega) (by omega), ← hback (start + i - size) (by omega),
      Nat.add_sub_cancel' (by omega)]

/-- An element that lies before the end of the array goes, and those before it are moved up. -/
theorem shiftUp (h : RingArray data start size xs) (hpos : 0 < i) (hi : i < xs.length)
    (hfront : start + i < size) :
    RingArray (memmove data (start + 1) start i) (start + 1) size (xs.eraseIdx i) := by
  have hroom := h.room
  have hlen : (xs.eraseIdx i).length = xs.length - 1 := List.length_eraseIdx_of_lt hi
  refine ⟨by omega, by omega, fun j hj => ?_⟩
  rw [List.getElem?_eraseIdx]
  split
  · next hbefore =>
    rw [h.slot j (by omega), slot_front (by omega), slot_front (by omega), memmove_inside hbefore]
  · next hbehind =>
    rw [h.slot (j + 1) (by omega), Nat.add_right_comm start 1 j, Nat.add_assoc start j 1]
    by_cases hj' : start + (j + 1) < size
    · rw [slot_front hj', memmove_outside (by omega)]
    · rw [slot_back h.start_lt (by omega) (by omega), memmove_outside (by omega)]

/-- An element that lies at the beginning of the array goes, and those behind it are moved down. -/
theorem shiftDown (h : RingArray data start size xs) (hi : i < xs.length)
    (hback : size ≤ start + i) :
    RingArray (memmove data (start + i - size) (start + i - size + 1) (xs.length - i)) start size
      (xs.eraseIdx i) := by
  have hroom := h.room
  have hstart := h.start_lt
  have hlen : (xs.eraseIdx i).length = xs.length - 1 := List.length_eraseIdx_of_lt hi
  refine ⟨hstart, by omega, fun j hj => ?_⟩
  rw [List.getElem?_eraseIdx]
  split
  · next hbefore =>
    rw [h.slot j (by omega)]
    by_cases hj' : start + j < size
    · rw [slot_front hj', memmove_outside (by omega)]
    · rw [slot_back hstart (by omega) (by omega), memmove_outside (by omega)]
  · next hbehind =>
    rw [h.slot (j + 1) (by omega), slot_back hstart (by omega) (by omega),
      slot_back hstart (by omega) (by omega)]
    have hplace : start + j - size = (start + i - size) + (j - i) := by omega
    rw [hplace, memmove_inside (by omega)]
    congr 2
    omega

/-- Elements that do not go on behind the end are copied to the beginning of a new array. -/
theorem copy {data' : Nat → α} {size' : Nat} (h : RingArray data start size xs)
    (hfront : start + xs.length ≤ size) (hroom : xs.length < size')
    (hcopy : ∀ k < xs.length, data' k = data (start + k)) : RingArray data' 0 size' xs := by
  refine ⟨by omega, hroom, fun i hi => ?_⟩
  rw [h.slot i hi, slot_front (by omega), slot_front (by omega), Nat.zero_add, hcopy i hi]

end RingArray
