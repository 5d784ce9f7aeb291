import Spegla.Container.Heap
import Spegla.World

/-!
# Listings (`spegla.c`, `build_remote_dir`)

A listing comes as a file, read line by line into a buffer of `PATH_MAX` bytes,
and becomes a heap of entries.

- `readLines`: the successive contents of the buffer.
- `rowEntry`: what one line adds to the heap: nothing, where it is blank, does not
  parse, names `.` or `..`, or is to be skipped.
- `buildRemoteDir`: the whole listing.
-/

namespace Spegla

open CString

instance : Inhabited SpFile := ⟨⟨0, 0, .plainfile, {}, 0, 0, [], none, none⟩⟩

/-- The lines that `fgets` gives, one after the other, with a buffer of `size`
bytes. Each takes a character, so as many rounds as characters do. -/
def readLines (size : Nat) : Nat → Str → List Str
  | 0, _ => []
  | fuel + 1, s =>
    match fgets size s with
    | none => []
    | some (buf, s) => buf :: readLines size fuel s

/-- The buffer without a trailing newline and carriage return. -/
def stripEol (buf : Str) : Str :=
  let buf := cstr buf
  let buf := if buf.getLast? = some '\n' then buf.dropLast else buf
  if buf.getLast? = some '\r' then buf.dropLast else buf

def dot : Str := ['.']
def dotdot : Str := ['.', '.']

variable {F : Type}

/-- The patterns, on an entry that is about to be put on a heap: links to be
treated as directories become such, and `none` means that the entry is skipped. -/
def filterEntry (env : Env F) (curDir : Str) (spf : SpFile) : Except Exit (Option SpFile) :=
  match spfIsATreatasdir env.pathMax curDir env.treatasdir spf with
  | none => .error .nullPointer
  | some treat =>
    let spf := if treat then
        { spf with spfType := .directory, spfOpt := { spf.spfOpt with isLink := true } }
      else spf
    match spfIsASkip env.pathMax curDir env.skip spf with
    | none => .error .nullPointer
    | some true => .ok none
    | some false => .ok (some spf)

/-- One round of the loop of `build_remote_dir`: the entry that the line gives. -/
def rowEntry (env : Env F) (curDir : Str) (leftover : Str) (buf : Str) :
    Except Exit (Option SpFile) :=
  let buf := stripEol buf
  if buf = [] then .ok none
  else
    match parseRow env.row buf leftover with
    | none => .ok none
    | some spf =>
      if spf.spfName = dotdot ∨ spf.spfName = dot then .ok none
      else filterEntry env curDir spf

/-- The loop of `build_remote_dir`. -/
def addRows (env : Env F) (curDir : Str) (tick : Nat) :
    List Str → HeapList SpFile → Except Exit (HeapList SpFile)
  | [], headp => .ok headp
  | buf :: bufs, headp =>
    match rowEntry env curDir (env.leftover tick bufs.length) buf with
    | .error e => .error e
    | .ok none => addRows env curDir tick bufs headp
    | .ok (some spf) => addRows env curDir tick bufs (heapPush headp spf)

/-- Whether the buffer holds the line that counts blocks. -/
def isTotal (buf : Str) : Bool := (buf.drop 1).take 4 = ['o', 't', 'a', 'l']

/-- The lines of a listing that are rows. -/
def listingRows (pathMax : Nat) (listing : Str) : List Str :=
  match readLines pathMax listing.length listing with
  | [] => []
  | buf :: bufs => if isTotal buf then bufs else buf :: bufs

/-- `build_remote_dir`, of the file `fp`. -/
def buildRemoteDir (env : Env F) (curDir : Str) (tick : Nat) (fp : Option Str) :
    Except Exit (Option (HeapList SpFile)) :=
  match fp with
  | none => .ok none
  | some listing =>
    match listingRows env.pathMax listing with
    | [] => .ok none
    | bufs => (addRows env curDir tick bufs (heapInit spfPushComp)).map some

/-! ## The entries of a heap -/

theorem spfPushComp_isPreorder : IsPreorderComp spfPushComp where
  flip x y := by
    unfold spfPushComp spfNameCmp
    have := strcmp_antisymm x.spfName y.spfName
    omega
  trans x y z hxy hyz := by
    unfold spfPushComp spfNameCmp at *
    have hxy' := strcmp_antisymm x.spfName y.spfName
    have hyz' := strcmp_antisymm y.spfName z.spfName
    have hxz' := strcmp_antisymm x.spfName z.spfName
    -- the order of the names, with the equal ones put aside
    rcases Int.lt_or_eq_of_le (show strcmp y.spfName x.spfName ≤ 0 by omega) with h₁ | h₁
    · rcases Int.lt_or_eq_of_le (show strcmp z.spfName y.spfName ≤ 0 by omega) with h₂ | h₂
      · have := strcmp_neg_trans h₂ h₁
        omega
      · rw [strcmp_eq_zero h₂]
        omega
    · rw [← strcmp_eq_zero h₁]
      omega

/-- The entries that the rows give, in their order. -/
def rowEntries (env : Env F) (curDir : Str) (tick : Nat) : List Str → List SpFile
  | [] => []
  | buf :: bufs =>
    match rowEntry env curDir (env.leftover tick bufs.length) buf with
    | .ok (some spf) => spf :: rowEntries env curDir tick bufs
    | _ => rowEntries env curDir tick bufs

/-- The heap that pushes of `es`, one after the other, make. -/
def heapOf (es : List SpFile) : HeapList SpFile := heapPushAll (heapInit spfPushComp) es

theorem heapOf_valid (es : List SpFile) : (heapOf es).Valid :=
  (heapPushAll_spec es (heapInit_valid spfPushComp_isPreorder)).1

theorem heapOf_comp (es : List SpFile) : (heapOf es).heapComp = spfPushComp :=
  (heapPushAll_spec es (heapInit_valid spfPushComp_isPreorder)).2.2

theorem heapOf_elems (es : List SpFile) : (heapOf es).elems = es := by
  have h := (heapPushAll_spec es (heapInit_valid spfPushComp_isPreorder)).2.1
  rwa [heapInit_elems, Multiset.add_zero] at h

theorem addRows_ok {env : Env F} {curDir : Str} {tick : Nat} :
    ∀ {bufs : List Str} {headp headp' : HeapList SpFile},
      addRows env curDir tick bufs headp = .ok headp' →
        headp' = heapPushAll headp (rowEntries env curDir tick bufs)
  | [], headp, headp', h => by
    simp only [addRows, Except.ok.injEq] at h
    exact h.symm
  | buf :: bufs, headp, headp', h => by
    rw [addRows] at h
    rw [rowEntries]
    split at h
    · simp at h
    · next he =>
      rw [he]
      exact addRows_ok h
    · next spf he =>
      rw [he]
      exact addRows_ok h

/-- The heap of a listing holds the entries of its rows. -/
theorem buildRemoteDir_some {env : Env F} {curDir : Str} {tick : Nat} {fp : Option Str}
    {headp : HeapList SpFile} (h : buildRemoteDir env curDir tick fp = .ok (some headp)) :
    ∃ listing, fp = some listing ∧
      headp = heapOf (rowEntries env curDir tick (listingRows env.pathMax listing)) := by
  unfold buildRemoteDir at h
  cases fp with
  | none => simp at h
  | some listing =>
    refine ⟨listing, rfl, ?_⟩
    simp only at h
    split at h
    · simp at h
    · cases ha : addRows env curDir tick (listingRows env.pathMax listing)
        (heapInit spfPushComp) with
      | error e => simp [ha, Except.map] at h
      | ok headp' =>
        simp only [ha, Except.map, Except.ok.injEq, Option.some.injEq] at h
        rw [← h]
        exact addRows_ok ha

/-- The patterns leave the name of an entry, and its type is known if it was. -/
theorem filterEntry_some {env : Env F} {curDir : Str} {spf spf' : SpFile}
    (h : filterEntry env curDir spf = .ok (some spf')) :
    spf'.spfName = spf.spfName ∧ (spf.spfType ≠ .unknown → spf'.spfType ≠ .unknown) ∧
      (spf.Linked → spf'.Linked) ∧ spfIsASkip env.pathMax curDir env.skip spf' = some false := by
  unfold filterEntry at h
  split at h
  · simp at h
  · next treat _ =>
    simp only at h
    split at h
    · simp at h
    · simp at h
    · next hskip =>
      simp only [Except.ok.injEq, Option.some.injEq] at h
      subst h
      cases treat with
      | true => exact ⟨rfl, by simp, by simp [SpFile.Linked], hskip⟩
      | false => exact ⟨rfl, id, id, hskip⟩

/-- The entry itself goes on a heap, or a directory in its place. -/
theorem filterEntry_self {env : Env F} {curDir : Str} {spf spf' : SpFile}
    (h : filterEntry env curDir spf = .ok (some spf')) :
    spf' = spf ∨ spf'.spfType = .directory := by
  unfold filterEntry at h
  split at h
  · simp at h
  · next treat _ =>
    simp only at h
    split at h
    · simp at h
    · simp at h
    · simp only [Except.ok.injEq, Option.some.injEq] at h
      subst h
      cases treat with
      | true => exact Or.inr rfl
      | false => exact Or.inl rfl

/-- What a line adds to the heap: an entry that its row names. -/
theorem rowEntry_some {env : Env F} {curDir leftover buf : Str} {spf : SpFile}
    (h : rowEntry env curDir leftover buf = .ok (some spf)) :
    ∃ spf₀, parseRow env.row (stripEol buf) leftover = some spf₀ ∧
      spf₀.spfName ≠ dotdot ∧ spf₀.spfName ≠ dot ∧ filterEntry env curDir spf₀ =
        .ok (some spf) := by
  unfold rowEntry at h
  simp only at h
  split at h
  · simp at h
  · split at h
    · simp at h
    · next spf₀ hp =>
      split at h
      · simp at h
      · next hdots =>
        rw [not_or] at hdots
        exact ⟨spf₀, hp, hdots.1, hdots.2, h⟩

/-- The rows of a listing, each with what lies behind it in memory. -/
def rowsOf (env : Env F) (tick : Nat) : List Str → List (Str × Str)
  | [] => []
  | buf :: bufs => (env.leftover tick bufs.length, buf) :: rowsOf env tick bufs

theorem mem_rowEntries {env : Env F} {curDir : Str} {tick : Nat} {spf : SpFile} :
    ∀ {bufs : List Str}, spf ∈ rowEntries env curDir tick bufs ↔
      ∃ row ∈ rowsOf env tick bufs, rowEntry env curDir row.1 row.2 = .ok (some spf)
  | [] => by simp [rowEntries, rowsOf]
  | buf :: bufs => by
    rw [rowEntries, rowsOf]
    have ih : spf ∈ rowEntries env curDir tick bufs ↔ _ := mem_rowEntries
    split
    · next spf' he =>
      simp only [List.mem_cons, ih, exists_eq_or_imp, he, Except.ok.injEq, Option.some.injEq]
      exact or_congr_left eq_comm
    · next he =>
      simp only [List.mem_cons, ih, exists_eq_or_imp]
      exact ⟨Or.inr, fun h => h.resolve_left fun hrow => he spf hrow⟩

/-- Entries of a listing are of a known type, and links have targets. -/
theorem rowEntry_known {env : Env F} {curDir leftover buf : Str} {spf : SpFile}
    (h : rowEntry env curDir leftover buf = .ok (some spf)) :
    spf.spfType ≠ .unknown ∧ spf.Linked := by
  obtain ⟨spf₀, hp, -, -, hf⟩ := rowEntry_some h
  obtain ⟨-, hknown, hlinked, -⟩ := filterEntry_some hf
  exact ⟨hknown (parseRow_some hp).1, hlinked (parseRow_linked hp)⟩

end Spegla
