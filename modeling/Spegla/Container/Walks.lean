import Mathlib.Data.List.Range
import Spegla.Container.Fifo
import Spegla.Container.Heap
import Spegla.Container.Stack

/-!
# Walking queues, stacks and heaps (`container.c`, `fifo_walk` to `heap_walk_back`)

A walk is called again and again with a position that it moves by one.

- `fifoWalk`, `stackWalk`, `heapWalk` and the walks back, as the source has them.
- `Yields`: what the calls from a position on give, until one fails.
- `fifoWalkBack_yields`, `stackWalkBack_yields`, `heapWalkBack_yields`: from the last element back,
  each stored element comes once.
- `walks_overrun`: no walk forward ends with the last stored element, since it compares the position
  with the number of slots and not with that of the elements.
-/

namespace Spegla

variable {α : Type}

/-! ## The walks -/

/-- What a call does: it fails, or gives the data in a slot and the next position. A slot that is
not allocated, or a division by zero, is undefined. -/
inductive WalkStep (α : Type) where
  | fails
  | gives (slot : Nat) (data : α) (pos : Int)
  | undefined
deriving DecidableEq, Repr

/-- `*data = p[slot]`, in a block of `slots` slots. -/
def readSlot (p : Nat → α) (slots : Nat) (slot pos : Int) : WalkStep α :=
  if 0 ≤ slot ∧ slot < slots then .gives slot.toNat (p slot.toNat) pos else .undefined

/-- `p[(start + pos) % size]`. -/
def readRing (f : FifoList α) (slots : Nat) (pos next : Int) : WalkStep α :=
  if f.fifoSize = 0 then .undefined
  else readSlot f.fifoData slots ((f.fifoStart + pos).tmod f.fifoSize) next

/-- `fifo_walk` on a `struct fifo_list` whose block has `slots` slots. -/
def fifoWalkIn (slots : Nat) (f : FifoList α) (pos : Int) : WalkStep α :=
  if pos > f.fifoSize then .fails else readRing f slots pos (pos + 1)

/-- `fifo_walk_back` on such a structure. -/
def fifoWalkBackIn (slots : Nat) (f : FifoList α) (pos : Int) : WalkStep α :=
  if pos < 0 then .fails else readRing f slots pos (pos - 1)

/-- `fifo_walk`. -/
def fifoWalk (f : FifoList α) (pos : Int) : WalkStep α := fifoWalkIn f.fifoSize f pos

/-- `fifo_walk_back`. -/
def fifoWalkBack (f : FifoList α) (pos : Int) : WalkStep α := fifoWalkBackIn f.fifoSize f pos

/-- A stack as the queue it is cast to; its `stack_start` stays 0. -/
def StackList.asFifo [Inhabited α] (s : StackList α) : FifoList α where
  fifoData := fun k => s.stackData.getD k default
  fifoStart := 0
  fifoEnd := s.stackEnd
  fifoSize := s.stackSize

/-- `stack_walk`. -/
def stackWalk [Inhabited α] (s : StackList α) (pos : Int) : WalkStep α :=
  fifoWalkIn s.stackData.length s.asFifo pos

/-- `stack_walk_back`. -/
def stackWalkBack [Inhabited α] (s : StackList α) (pos : Int) : WalkStep α :=
  fifoWalkBackIn s.stackData.length s.asFifo pos

/-- `heap_walk`. -/
def heapWalk (h : HeapList α) (pos : Int) : WalkStep α :=
  if pos > h.heapSize then .fails else readSlot h.heapData h.heapSize pos (pos + 1)

/-- `heap_walk_back`. -/
def heapWalkBack (h : HeapList α) (pos : Int) : WalkStep α :=
  if pos < 0 then .fails else readSlot h.heapData h.heapSize pos (pos - 1)

/-- The calls from `pos` on give these slots and their data, and then one fails. -/
def Yields (walk : Int → WalkStep α) : Int → List (Nat × α) → Prop
  | pos, [] => walk pos = .fails
  | pos, (slot, x) :: rest => ∃ next, walk pos = .gives slot x next ∧ Yields walk next rest

/-! ## The stored elements -/

/-- How many slots of the ring are in use. -/
def fifoHeld (f : FifoList α) : Nat := (f.fifoEnd + f.fifoSize - f.fifoStart) % f.fifoSize

/-- The slots in use with their data, in the order of the queue. -/
def fifoStored (f : FifoList α) : List (Nat × α) :=
  (List.range (fifoHeld f)).map fun i =>
    let slot := (f.fifoStart + i) % f.fifoSize
    (slot, f.fifoData slot)

/-- The slots in use with their data, from the bottom to the top. -/
def stackStored [Inhabited α] (s : StackList α) : List (Nat × α) :=
  (List.range s.stackEnd).map fun i => (i, s.stackData.getD i default)

/-- The slots in use with their data, in the order of the array. -/
def heapStored (h : HeapList α) : List (Nat × α) :=
  (List.range h.heapKeys).map fun i => (i, h.heapData i)

/-- What is stored in a queue is what it holds. -/
theorem FifoList.Segment.stored {f : FifoList α} {xs : List α} (h : f.Segment xs) :
    (fifoStored f).map Prod.snd = xs := by
  have hstart := h.start
  have hroom := h.room
  have hfits := h.fits
  have hheld : fifoHeld f = xs.length := by
    rw [fifoHeld, h.finish]
    rcases Nat.lt_or_ge (f.fifoStart + xs.length) f.fifoSize with hlt | hge
    · rw [Nat.mod_eq_of_lt hlt, show f.fifoStart + xs.length + f.fifoSize - f.fifoStart =
        xs.length + f.fifoSize by omega, Nat.add_mod_right, Nat.mod_eq_of_lt hroom]
    · rw [show f.fifoStart + xs.length = f.fifoSize by omega, Nat.mod_self,
        show 0 + f.fifoSize - f.fifoStart = xs.length by omega, Nat.mod_eq_of_lt hroom]
  rw [fifoStored, List.map_map, hheld]
  refine List.ext_getElem (by simp) fun i hi hi' => ?_
  rw [List.getElem_map, List.getElem_range]
  show f.fifoData ((f.fifoStart + i) % f.fifoSize) = xs[i]
  rw [Nat.mod_eq_of_lt (by omega)]
  exact h.data i hi'

theorem fifoHeld_lt {f : FifoList α} (hsize : f.fifoSize ≠ 0) : fifoHeld f < f.fifoSize :=
  Nat.mod_lt _ (Nat.pos_of_ne_zero hsize)

/-! ## What a call gives -/

theorem readSlot_gives {p : Nat → α} {slots slot : Nat} {pos next : Int} {x : α}
    {place : Int} (h : readSlot p slots place pos = .gives slot x next) :
    place = slot ∧ slot < slots ∧ next = pos := by
  rw [readSlot] at h
  split at h
  · cases h
    omega
  · cases h

theorem readSlot_nat {p : Nat → α} {slots slot : Nat} (h : slot < slots) (pos : Int) :
    readSlot p slots slot pos = .gives slot (p slot) pos := by
  rw [readSlot, if_pos (by omega)]
  rfl

theorem readRing_gives {f : FifoList α} {slots slot : Nat} {pos next next' : Int} {x : α}
    (h : readRing f slots pos next' = .gives slot x next) :
    f.fifoSize ≠ 0 ∧ (f.fifoStart + pos).tmod f.fifoSize = slot ∧ next = next' := by
  rw [readRing] at h
  split at h
  · cases h
  · next hsize =>
    obtain ⟨hat, -, hnext⟩ := readSlot_gives h
    exact ⟨hsize, hat, hnext⟩

theorem readRing_nat {f : FifoList α} {slots : Nat} (i : Nat) (hsize : f.fifoSize ≠ 0)
    (h : (f.fifoStart + i) % f.fifoSize < slots) (next : Int) :
    readRing f slots i next =
      .gives ((f.fifoStart + i) % f.fifoSize) (f.fifoData ((f.fifoStart + i) % f.fifoSize))
        next := by
  have hmod : ((f.fifoStart : Int) + i).tmod f.fifoSize =
      ((f.fifoStart + i) % f.fifoSize : Nat) := by
    rw [Int.tmod_eq_emod_of_nonneg (by omega)]
    rfl
  rw [readRing, if_neg hsize, hmod]
  exact readSlot_nat h next

/-! ## Walking back -/

/-- A walk that goes down from each position gives what lies below, and then fails. -/
theorem Yields.countdown {walk : Int → WalkStep α} {cell : Nat → Nat × α}
    (hend : walk (-1) = .fails) {n : Nat}
    (hstep : ∀ i < n, walk i = .gives (cell i).1 (cell i).2 (i - 1)) :
    Yields walk (n - 1) ((List.range n).map cell).reverse := by
  induction n with
  | zero => exact hend
  | succ n ih =>
    rw [List.range_succ, List.map_append, List.reverse_append]
    refine ⟨n - 1, ?_, ih fun i hi => hstep i (by omega)⟩
    have hlast := hstep n (Nat.lt_succ_self n)
    rwa [show ((n + 1 : Nat) : Int) - 1 = n by omega]

/-- A walk back through a queue, from its last element on. -/
theorem fifoWalkBack_yields {f : FifoList α} (hsize : f.fifoSize ≠ 0) :
    Yields (fifoWalkBack f) (fifoHeld f - 1) (fifoStored f).reverse := by
  refine Yields.countdown rfl fun i _ => ?_
  rw [fifoWalkBack, fifoWalkBackIn, if_neg (by omega)]
  exact readRing_nat i hsize (Nat.mod_lt _ (Nat.pos_of_ne_zero hsize)) _

/-- A walk back through a stack, from its top on. -/
theorem stackWalkBack_yields [Inhabited α] {s : StackList α} {xs : List α} (h : s.Holds xs) :
    Yields (stackWalkBack s) (s.stackEnd - 1) (stackStored s).reverse := by
  have hfinish := h.finish
  have hfits := h.fits
  have hblock := h.block
  refine Yields.countdown rfl fun i hi => ?_
  have hslot : (0 + i) % s.stackSize = i := by
    rw [Nat.zero_add, Nat.mod_eq_of_lt (by omega)]
  have hread : readRing s.asFifo s.stackData.length i (i - 1) = .gives ((0 + i) % s.stackSize)
      (s.stackData.getD ((0 + i) % s.stackSize) default) (i - 1) :=
    readRing_nat i (show s.stackSize ≠ 0 by omega)
      (show (0 + i) % s.stackSize < s.stackData.length by omega) _
  rw [stackWalkBack, fifoWalkBackIn, if_neg (by omega), hread, hslot]

/-- A walk back through a heap, from its last slot on. -/
theorem heapWalkBack_yields {h : HeapList α} (hroom : h.heapKeys ≤ h.heapSize) :
    Yields (heapWalkBack h) (h.heapKeys - 1) (heapStored h).reverse := by
  refine Yields.countdown rfl fun i hi => ?_
  rw [heapWalkBack, if_neg (by omega)]
  exact readSlot_nat (by omega) _

/-! ## Walking forward -/

/-- The walk counts up: the calls lie at the positions one after the other. -/
theorem Yields.countup {walk : Int → WalkStep α} {slot : Nat → Nat} {data : Nat → α}
    (hnext : ∀ pos slot x next, walk pos = .gives slot x next → next = pos + 1) {n : Nat}
    (h : Yields walk 0 ((List.range n).map fun i => (slot i, data i))) :
    (∀ i < n, ∃ next, walk i = .gives (slot i) (data i) next) ∧ walk n = .fails := by
  suffices hfrom : ∀ k m : Nat, Yields walk k ((List.range' k m).map fun i => (slot i, data i)) →
      (∀ i < m, ∃ next, walk (k + i : Nat) = .gives (slot (k + i)) (data (k + i)) next) ∧
        walk (k + m : Nat) = .fails by
    rw [List.range_eq_range'] at h
    simpa only [Nat.zero_add] using hfrom 0 n h
  intro k m
  induction m generalizing k with
  | zero => exact fun h => ⟨fun i hi => absurd hi (Nat.not_lt_zero i), h⟩
  | succ m ih =>
    rintro ⟨next, hgives, hrest⟩
    obtain rfl := hnext _ _ _ _ hgives
    obtain ⟨hgive, hfail⟩ := ih (k + 1) hrest
    refine ⟨fun i hi => ?_, ?_⟩
    · cases i with
      | zero => exact ⟨_, hgives⟩
      | succ i =>
        rw [show k + (i + 1) = k + 1 + i by omega]
        exact hgive i (by omega)
    · rw [show k + (m + 1) = k + 1 + m by omega]
      exact hfail

theorem fifoWalkIn_gives {f : FifoList α} {slots slot : Nat} {pos next : Int} {x : α}
    (h : fifoWalkIn slots f pos = .gives slot x next) :
    f.fifoSize ≠ 0 ∧ (f.fifoStart + pos).tmod f.fifoSize = slot ∧ next = pos + 1 := by
  rw [fifoWalkIn] at h
  split at h
  · cases h
  · exact readRing_gives h

theorem fifoWalkIn_fails {f : FifoList α} {slots : Nat} {pos : Int}
    (h : fifoWalkIn slots f pos = .fails) : f.fifoSize < pos := by
  rw [fifoWalkIn] at h
  split at h
  · assumption
  · rw [readRing] at h
    split at h
    · cases h
    · rw [readSlot] at h
      split at h <;> cases h

theorem heapWalk_gives {h : HeapList α} {slot : Nat} {pos next : Int} {x : α}
    (hw : heapWalk h pos = .gives slot x next) : slot < h.heapSize ∧ next = pos + 1 := by
  rw [heapWalk] at hw
  split at hw
  · cases hw
  · obtain ⟨-, hlt, hnext⟩ := readSlot_gives hw
    exact ⟨hlt, hnext⟩

theorem heapWalk_fails {h : HeapList α} {pos : Int} (hw : heapWalk h pos = .fails) :
    h.heapSize < pos := by
  rw [heapWalk] at hw
  split at hw
  · assumption
  · rw [readSlot] at hw
    split at hw <;> cases hw

theorem fifoWalk_overruns (f : FifoList α) : ¬Yields (fifoWalk f) 0 (fifoStored f) := by
  intro h
  obtain ⟨hgives, hfails⟩ := h.countup fun pos slot x next h => (fifoWalkIn_gives h).2.2
  have hlong := fifoWalkIn_fails hfails
  have hsize : f.fifoSize ≠ 0 := by
    obtain ⟨next, hfirst⟩ := hgives 0 (by omega)
    exact (fifoWalkIn_gives hfirst).1
  have := fifoHeld_lt hsize
  omega

theorem stackWalk_overruns [Inhabited α] (s : StackList α) :
    ¬Yields (stackWalk s) 0 (stackStored s) := by
  intro h
  obtain ⟨hgives, hfails⟩ := h.countup fun pos slot x next h => (fifoWalkIn_gives h).2.2
  have hlong : (s.stackSize : Int) < s.stackEnd := fifoWalkIn_fails hfails
  -- behind its last slot, the walk is in slot 0 again
  obtain ⟨next, hagain⟩ := hgives s.stackSize (by omega)
  obtain ⟨hsize, hslot, -⟩ := fifoWalkIn_gives hagain
  have hzero : ((0 : Nat) + (s.stackSize : Int)).tmod s.stackSize = 0 := by simp
  exact hsize (Int.ofNat_inj.mp (hslot.symm.trans hzero))

theorem heapWalk_overruns (h : HeapList α) : ¬Yields (heapWalk h) 0 (heapStored h) := by
  intro hy
  obtain ⟨hgives, hfails⟩ := hy.countup fun pos slot x next hw => (heapWalk_gives hw).2
  have hlong := heapWalk_fails hfails
  obtain ⟨next, hbehind⟩ := hgives h.heapSize (by omega)
  exact absurd (heapWalk_gives hbehind).1 (Nat.lt_irrefl _)

/-- A walk from position 0 does not give the stored elements and then fail, whatever was done with
the queue, the stack or the heap before. -/
theorem walks_overrun [Inhabited α] :
    (∀ f : FifoList α, ¬Yields (fifoWalk f) 0 (fifoStored f)) ∧
      (∀ s : StackList α, ¬Yields (stackWalk s) 0 (stackStored s)) ∧
      ∀ h : HeapList α, ¬Yields (heapWalk h) 0 (heapStored h) :=
  ⟨fifoWalk_overruns, stackWalk_overruns, heapWalk_overruns⟩

/-- In a new queue, stack or heap nothing is stored, and the first call gives the data of slot 0. -/
theorem walks_overrun_new :
    fifoStored (fifoInit : FifoList Nat) = [] ∧
    fifoWalk (fifoInit : FifoList Nat) 0 = .gives 0 0 1 ∧
    ¬Yields (fifoWalk (fifoInit : FifoList Nat)) 0 [] ∧
    stackStored (stackInit : StackList Nat) = [] ∧
    stackWalk (stackInit : StackList Nat) 0 = .gives 0 0 1 ∧
    ¬Yields (stackWalk (stackInit : StackList Nat)) 0 [] ∧
    heapStored (heapInit fun x y : Nat => (x : Int) - y) = [] ∧
    heapWalk (heapInit fun x y : Nat => (x : Int) - y) 0 = .gives 0 0 1 ∧
    ¬Yields (heapWalk (heapInit fun x y : Nat => (x : Int) - y)) 0 [] := by
  refine ⟨by decide, by decide, ?_, by decide, by decide, ?_, by decide, by decide, ?_⟩
  · show fifoWalk (fifoInit : FifoList Nat) 0 ≠ .fails
    decide
  · show stackWalk (stackInit : StackList Nat) 0 ≠ .fails
    decide
  · show heapWalk (heapInit fun x y : Nat => (x : Int) - y) 0 ≠ .fails
    decide

end Spegla
