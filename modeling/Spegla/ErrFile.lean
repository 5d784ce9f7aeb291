import Spegla.Lib.CString

/-!
# Messages with another line end (`e_err.c`, `e_buf_file`)

A message is written with its line ends replaced by a newline string. One loop predicts how much
longer it becomes, and another one copies it into a block of that size.

- `newlines`: the message with its line ends replaced.
- `neededExtra`, `copyLines`, `eBufFile`: the two loops and the function, as the source has them.
- `newlines_length`: what the first loop adds up from the second character on is right.
- `copyLines_fits`, `copyLines_lt`: the second loop succeeds exactly inside the block.
- `eBufFile_iff`: which messages are written as they should be.
-/

namespace Spegla.EErr

open CString

/-- The message with each line end, `\r\n` or `\n`, replaced by `nl`. -/
def newlines (nl : Str) : Str → Str
  | [] => []
  | [c] => if c = '\n' then nl else [c]
  | c :: d :: s =>
    if c = '\r' ∧ d = '\n' then nl ++ newlines nl s
    else if c = '\n' then nl ++ newlines nl (d :: s)
    else c :: newlines nl (d :: s)

/-! ## The function -/

/-- A sum of two `int`s; overflow is undefined. -/
def addInt (a b : Int) : Option Int :=
  if -2 ^ 31 ≤ a + b ∧ a + b < 2 ^ 31 then some (a + b) else none

/-- `needed_extra += len_nl - less`. -/
def addExtra (lenNl acc less : Int) : Option Int := (addInt lenNl (-less)).bind (addInt acc)

/-- The first loop from its second round on: the newlines in what follows `prev`. -/
def neededExtra (lenNl : Int) : Int → Char → Str → Option Int
  | acc, _, [] => some acc
  | acc, prev, c :: s =>
    if c = '\n' then
      (addExtra lenNl acc (if prev ≠ '\r' then 1 else 2)).bind fun acc => neededExtra lenNl acc c s
    else neededExtra lenNl acc c s

/-- Bytes and a NUL written to the place `p` of a block of `size` bytes, where the NUL behind what
it holds stands. Anything else is undefined. -/
def store (size : Int) (block : Str) (p : Int) (bytes : Str) : Option Str :=
  if p = block.length ∧ p + bytes.length < size then some (block ++ bytes) else none

/-- The second loop; what is left of `buf` is the text. -/
def copyLines (size lenNl : Int) (nl : Str) : Str → Str → Int → Option Str
  | [], block, _ => some block
  | [c], block, p => if c = '\n' then store size block p nl else store size block p [c]
  | c :: d :: s, block, p =>
    if c = '\r' ∧ d = '\n' then
      (store size block p nl).bind fun block => copyLines size lenNl nl s block (p + lenNl)
    else if c = '\n' then
      (store size block p nl).bind fun block => copyLines size lenNl nl (d :: s) block (p + lenNl)
    else (store size block p [c]).bind fun block => copyLines size lenNl nl (d :: s) block (p + 1)

/-- The size of the block. The first round counts the first character, whatever it is, and goes on
behind it; behind the NUL of an empty message lies `behind`, up to another NUL if there is one. -/
def lenTmp (lenNl : Int) (msg : Str) (behind : Option Str) : Option Int :=
  (addExtra lenNl 0 2).bind fun acc =>
    (match msg with
      | [] => behind.bind (neededExtra lenNl acc nul)
      | c :: s => neededExtra lenNl acc c s).bind fun extra =>
        (addInt (toInt msg.length) extra).bind (addInt · 1)

/-- The translated copy. `i` counts the characters of the message as an `int`. -/
def translatedCopy (nl msg : Str) (behind : Option Str) : Option Str :=
  let lenNl := toInt nl.length
  (lenTmp lenNl msg behind).bind fun size =>
    if msg.length < 2 ^ 31 then
      (store size [] 0 []).bind fun block => copyLines size lenNl nl msg block 0
    else none

/-- `e_buf_file`: what is written to the file. -/
def eBufFile (nl msg : Str) (behind : Option Str) : Option Str :=
  if nl ≠ ['\n'] then (translatedCopy nl msg behind).map fun copy => copy ++ nl
  else some (msg ++ nl)

/-- The message and a newline are written, with all line ends replaced, whatever lies behind the
message in memory. -/
def WrittenRight (nl msg : Str) : Prop :=
  ∀ behind, eBufFile nl msg behind = some (newlines nl msg ++ nl)

variable {nl msg s block out : Str} {lenNl acc size p x : Int} {prev c : Char}

/-! ## The prediction -/

/-- What the rounds of the first loop add up to. -/
def extra (lenNl : Int) : Char → Str → Int
  | _, [] => 0
  | prev, c :: s =>
    (if c = '\n' then lenNl - if prev ≠ '\r' then 1 else 2 else 0) + extra lenNl c s

theorem addInt_some {a b : Int} (h : addInt a b = some x) : x = a + b ∧ x < 2 ^ 31 := by
  rw [addInt] at h
  split at h
  · cases h
    omega
  · cases h

theorem addInt_of_nonneg {a b : Int} (h : 0 ≤ a + b) (hlt : a + b < 2 ^ 31) :
    addInt a b = some (a + b) :=
  if_pos ⟨by omega, hlt⟩

theorem addExtra_some {less : Int} (h : addExtra lenNl acc less = some x) :
    x = acc + (lenNl - less) := by
  obtain ⟨more, hmore, hx⟩ := Option.bind_eq_some_iff.mp h
  obtain ⟨rfl, -⟩ := addInt_some hmore
  exact (addInt_some hx).1

theorem addExtra_of_nonneg {less : Int} (hless : less ≤ lenNl) (hacc : 0 ≤ acc)
    (hlt : acc + (lenNl - less) < 2 ^ 31) :
    addExtra lenNl acc less = some (acc + (lenNl - less)) := by
  rw [addExtra, addInt_of_nonneg (by omega) (by omega)]
  exact addInt_of_nonneg (by omega) (by omega)

theorem neededExtra_some (h : neededExtra lenNl acc prev s = some x) :
    x = acc + extra lenNl prev s := by
  induction s generalizing acc prev with
  | nil =>
    cases h
    exact (Int.add_zero _).symm
  | cons c s ih =>
    rw [neededExtra] at h
    rw [extra]
    split at h
    · next hc =>
      obtain ⟨acc', hacc, hrest⟩ := Option.bind_eq_some_iff.mp h
      have hsum := addExtra_some hacc
      have hx := ih hrest
      rw [if_pos hc]
      omega
    · next hc =>
      have hx := ih h
      rw [if_neg hc]
      omega

theorem extra_nonneg (h : 2 ≤ lenNl) (prev : Char) (s : Str) : 0 ≤ extra lenNl prev s := by
  induction s generalizing prev with
  | nil => exact Int.le_refl 0
  | cons c s ih =>
    have := ih c
    rw [extra]
    split
    · split <;> omega
    · omega

theorem neededExtra_of_fits (h : 2 ≤ lenNl) (hacc : 0 ≤ acc)
    (hlt : acc + extra lenNl prev s < 2 ^ 31) :
    neededExtra lenNl acc prev s = some (acc + extra lenNl prev s) := by
  induction s generalizing acc prev with
  | nil =>
    show some acc = some (acc + 0)
    rw [Int.add_zero]
  | cons c s ih =>
    have hrest := extra_nonneg h c s
    rw [extra] at hlt ⊢
    rw [neededExtra]
    by_cases hc : c = '\n'
    · rw [if_pos hc] at hlt ⊢
      rw [if_pos hc]
      have hless : (if prev ≠ '\r' then 1 else 2 : Int) ≤ 2 := by
        split <;> decide
      rw [addExtra_of_nonneg (by omega) hacc (by omega), Option.bind_some,
        ih (by omega) (by omega)]
      congr 1
      omega
    · rw [if_neg hc] at hlt ⊢
      rw [if_neg hc, ih hacc (by omega)]
      congr 1
      omega

/-- Without newlines nothing is added, and nothing is replaced. -/
theorem extra_plain (h : '\n' ∉ s) : extra lenNl prev s = 0 := by
  induction s generalizing prev with
  | nil => rfl
  | cons c s ih =>
    rw [List.mem_cons, not_or] at h
    rw [extra, if_neg (fun hc => h.1 hc.symm), ih h.2]
    rfl

/-- The replaced message is as much longer as the rounds add up to, behind anything but the first
half of a line end. -/
theorem newlines_length (h : prev ≠ '\r' ∨ s.head? ≠ some '\n') :
    ((newlines nl s).length : Int) = s.length + extra nl.length prev s := by
  induction s using newlines.induct generalizing prev with
  | case1 => rfl
  | case2 =>
    have hprev : prev ≠ '\r' := h.resolve_right fun hne => hne rfl
    rw [newlines, if_pos rfl, extra, if_pos rfl, if_pos hprev]
    simp only [extra, List.length_singleton]
    omega
  | case3 c hc =>
    rw [newlines, extra, if_neg hc, if_neg hc]
    rfl
  | case4 c d s hcd ih =>
    obtain ⟨rfl, rfl⟩ := hcd
    have := ih (Or.inl (show '\n' ≠ '\r' by decide))
    rw [newlines, if_pos ⟨rfl, rfl⟩, extra, extra, if_neg (by decide), if_pos rfl,
      if_neg (by decide)]
    simp only [List.length_append, List.length_cons]
    omega
  | case5 d s hcd ih =>
    have hprev : prev ≠ '\r' := h.resolve_right fun hne => hne rfl
    have := ih (Or.inl (show '\n' ≠ '\r' by decide))
    rw [newlines, if_neg hcd, if_pos rfl, extra, if_pos rfl, if_pos hprev]
    simp only [List.length_append, List.length_cons] at this ⊢
    omega
  | case6 c d s hcd hc ih =>
    have hbehind : c ≠ '\r' ∨ (d :: s).head? ≠ some '\n' := by
      by_cases hcr : c = '\r'
      · exact Or.inr fun hd => hcd ⟨hcr, Option.some.inj hd⟩
      · exact Or.inl hcr
    have := ih hbehind
    rw [newlines, if_neg hcd, if_neg hc, extra, if_neg hc]
    simp only [List.length_cons] at this ⊢
    omega

/-- A message with a newline becomes at least as long as the newline string. -/
theorem le_newlines_length (h : '\n' ∈ s) : nl.length ≤ (newlines nl s).length := by
  induction s using newlines.induct with
  | case1 => cases h
  | case2 => exact Nat.le_refl _
  | case3 c hc => exact absurd (List.mem_singleton.mp h).symm hc
  | case4 c d s hcd ih =>
    rw [newlines, if_pos hcd, List.length_append]
    omega
  | case5 d s hcd ih =>
    rw [newlines, if_neg hcd, if_pos rfl, List.length_append]
    omega
  | case6 c d s hcd hc ih =>
    have hrest : '\n' ∈ d :: s := (List.mem_cons.mp h).resolve_left fun heq => hc heq.symm
    have := ih hrest
    rw [newlines, if_neg hcd, if_neg hc, List.length_cons]
    omega

/-! ## The copy -/

theorem store_some (h : store size block p s = some out) : (out.length : Int) < size := by
  rw [store] at h
  split at h
  · next hp =>
    cases h
    rw [List.length_append]
    omega
  · cases h

theorem store_fits (block : Str) (h : (block.length : Int) + s.length < size) :
    store size block block.length s = some (block ++ s) :=
  if_pos ⟨rfl, h⟩

/-- What has been copied lies inside the block, with its NUL. -/
theorem copyLines_lt (h : copyLines size lenNl nl s block p = some out)
    (hblock : (block.length : Int) < size) : (out.length : Int) < size := by
  induction s using newlines.induct generalizing block p with
  | case1 =>
    cases h
    exact hblock
  | case2 =>
    rw [copyLines, if_pos rfl] at h
    exact store_some h
  | case3 c hc =>
    rw [copyLines, if_neg hc] at h
    exact store_some h
  | case4 c d s hcd ih =>
    rw [copyLines, if_pos hcd] at h
    obtain ⟨block', hstore, hrest⟩ := Option.bind_eq_some_iff.mp h
    exact ih hrest (store_some hstore)
  | case5 d s hcd ih =>
    rw [copyLines, if_neg hcd, if_pos rfl] at h
    obtain ⟨block', hstore, hrest⟩ := Option.bind_eq_some_iff.mp h
    exact ih hrest (store_some hstore)
  | case6 c d s hcd hc ih =>
    rw [copyLines, if_neg hcd, if_neg hc] at h
    obtain ⟨block', hstore, hrest⟩ := Option.bind_eq_some_iff.mp h
    exact ih hrest (store_some hstore)

/-- A newline string of known length is stored, and `p` stands at the new NUL. -/
theorem store_newline (hnl : lenNl = nl.length) {rest : Str}
    (h : (block.length : Int) + (nl ++ rest).length < size) :
    store size block block.length nl = some (block ++ nl) ∧
      (block.length : Int) + lenNl = (block ++ nl).length ∧
      ((block ++ nl).length : Int) + rest.length < size := by
  rw [List.length_append] at h
  refine ⟨store_fits block (by omega), ?_, ?_⟩
  · rw [List.length_append]
    omega
  · rw [List.length_append]
    omega

/-- A copy that fits is made, as long as the length of the newline string is known. -/
theorem copyLines_fits (block : Str) (hnl : '\n' ∈ s → lenNl = nl.length)
    (h : (block.length : Int) + (newlines nl s).length < size) :
    copyLines size lenNl nl s block block.length = some (block ++ newlines nl s) := by
  induction s using newlines.induct generalizing block with
  | case1 =>
    show some block = some (block ++ [])
    rw [List.append_nil]
  | case2 => exact store_fits block h
  | case3 c hc =>
    rw [newlines, if_neg hc] at h ⊢
    rw [copyLines, if_neg hc]
    exact store_fits block h
  | case4 c d s hcd ih =>
    have hmem : '\n' ∈ c :: d :: s := by simp [hcd.2]
    rw [newlines, if_pos hcd] at h ⊢
    obtain ⟨hstore, hp, hrest⟩ := store_newline (hnl hmem) h
    rw [copyLines, if_pos hcd, hstore, Option.bind_some, hp,
      ih _ (fun _ => hnl hmem) hrest, List.append_assoc]
  | case5 d s hcd ih =>
    have hmem : '\n' ∈ '\n' :: d :: s := List.mem_cons_self
    rw [newlines, if_neg hcd, if_pos rfl] at h ⊢
    obtain ⟨hstore, hp, hrest⟩ := store_newline (hnl hmem) h
    rw [copyLines, if_neg hcd, if_pos rfl, hstore, Option.bind_some, hp,
      ih _ (fun _ => hnl hmem) hrest, List.append_assoc]
  | case6 c d s hcd hc ih =>
    rw [newlines, if_neg hcd, if_neg hc] at h ⊢
    rw [List.length_cons] at h
    have hstore : store size block block.length [c] = some (block ++ [c]) := by
      refine store_fits block ?_
      rw [List.length_singleton]
      omega
    have hp : (block.length : Int) + 1 = (block ++ [c]).length := by
      rw [List.length_append]
      rfl
    rw [copyLines, if_neg hcd, if_neg hc, hstore, Option.bind_some, hp,
      ih _ (fun hmem => hnl (List.mem_cons_of_mem _ hmem)) (by omega), List.append_assoc]
    rfl

/-! ## Which messages are written -/

/-- The length of a string as an `int` is its length, or the string is very long. -/
theorem toInt_length_cases (s : Str) :
    toInt s.length < 2 ^ 31 ∧ (toInt s.length = s.length ∨ 2 ^ 31 ≤ s.length) := by
  unfold toInt
  rw [Int.bmod_def]
  omega

/-- The size of the block, for a message with a first character. -/
theorem lenTmp_some {behind : Option Str} (h : lenTmp lenNl (c :: s) behind = some size) :
    size = toInt (c :: s).length + (lenNl - 2 + extra lenNl c s) + 1 ∧ size < 2 ^ 31 := by
  obtain ⟨acc, hacc, h⟩ := Option.bind_eq_some_iff.mp h
  obtain ⟨x, hx, h⟩ := Option.bind_eq_some_iff.mp h
  obtain ⟨y, hy, h⟩ := Option.bind_eq_some_iff.mp h
  have hacc := addExtra_some hacc
  have hx := neededExtra_some hx
  have hy := (addInt_some hy).1
  have hsize := addInt_some h
  omega

theorem lenTmp_of_fits {behind : Option Str} (h : 2 ≤ lenNl) (hmsg : (c :: s).length < 2 ^ 31)
    (hlt : ((c :: s).length : Int) + (lenNl - 2 + extra lenNl c s) + 1 < 2 ^ 31) :
    lenTmp lenNl (c :: s) behind =
      some ((c :: s).length + (lenNl - 2 + extra lenNl c s) + 1) := by
  have hextra := extra_nonneg h c s
  have hint : toInt (c :: s).length = (c :: s).length := by
    have := toInt_length_cases (c :: s)
    omega
  rw [lenTmp, addExtra_of_nonneg h (Int.le_refl 0) (by omega), Option.bind_some]
  simp only [Int.zero_add]
  rw [neededExtra_of_fits h (by omega) (by omega), Option.bind_some, hint,
    addInt_of_nonneg (by omega) (by omega), Option.bind_some]
  exact addInt_of_nonneg (by omega) hlt

/-- In a message that the block has room for, the length of the newline string counts only where it
is right. -/
theorem lenNl_known (h : (newlines nl msg).length < 2 ^ 31) (hmem : '\n' ∈ msg) :
    toInt nl.length = nl.length := by
  have hle : nl.length ≤ (newlines nl msg).length := le_newlines_length hmem
  have := toInt_length_cases nl
  omega

/-- A message that starts with anything but a newline becomes as much longer as the first loop adds
up. -/
theorem newlines_length_cons (nl : Str) (hc : c ≠ '\n')
    (h : (newlines nl (c :: s)).length < 2 ^ 31) :
    ((newlines nl (c :: s)).length : Int) =
      (c :: s).length + extra (toInt nl.length) c s := by
  have hlen : ((newlines nl (c :: s)).length : Int) =
      (c :: s).length + extra nl.length nul (c :: s) := newlines_length (Or.inl (by decide))
  rw [extra, if_neg hc, Int.zero_add] at hlen
  by_cases hmem : '\n' ∈ c :: s
  · rw [lenNl_known h hmem]
    exact hlen
  · rw [List.mem_cons, not_or] at hmem
    rw [hlen, extra_plain hmem.2, extra_plain hmem.2]

/-- One that starts with a newline becomes longer than it adds up. -/
theorem newlines_length_newline (nl : Str) (h : (newlines nl ('\n' :: s)).length < 2 ^ 31) :
    ((newlines nl ('\n' :: s)).length : Int) =
      ('\n' :: s).length + (toInt nl.length - 1 + extra (toInt nl.length) '\n' s) := by
  have hlen : ((newlines nl ('\n' :: s)).length : Int) =
      ('\n' :: s).length + extra nl.length nul ('\n' :: s) := newlines_length (Or.inl (by decide))
  rw [extra, if_pos rfl, if_pos (by decide)] at hlen
  rw [lenNl_known h List.mem_cons_self]
  exact hlen

/-- What is known of a message that was written as it should be. -/
theorem WrittenRight.copied (h : WrittenRight nl msg) (hnl : nl ≠ ['\n']) :
    ∃ size, lenTmp (toInt nl.length) msg none = some size ∧ msg.length < 2 ^ 31 ∧
      (newlines nl msg).length < size := by
  have hrun := h none
  rw [eBufFile, if_pos hnl] at hrun
  obtain ⟨copy, hcopy, heq⟩ := Option.map_eq_some_iff.mp hrun
  have hcopied : copy = newlines nl msg := List.append_cancel_right heq
  subst hcopied
  rw [translatedCopy] at hcopy
  obtain ⟨size, hsize, hcopy⟩ := Option.bind_eq_some_iff.mp hcopy
  split at hcopy
  · next hshort =>
    obtain ⟨block, hblock, hcopy⟩ := Option.bind_eq_some_iff.mp hcopy
    exact ⟨size, hsize, hshort, copyLines_lt hcopy (store_some hblock)⟩
  · cases hcopy

/-- A message is written with its line ends replaced exactly when it is not empty and does not start
with a newline, and the newline string has two characters or more; all of it shorter than an `int`
can say. -/
theorem eBufFile_iff {nl : Str} (hnl : nl ≠ ['\n']) (msg : Str) :
    WrittenRight nl msg ↔ msg ≠ [] ∧ msg.head? ≠ some '\n' ∧ 2 ≤ toInt nl.length ∧
      (newlines nl msg).length + toInt nl.length - 1 < 2 ^ 31 := by
  have hint := (toInt_length_cases nl).1
  cases msg with
  | nil =>
    constructor
    · intro h
      obtain ⟨size, hsize, -⟩ := h.copied hnl
      obtain ⟨acc, -, hbehind⟩ := Option.bind_eq_some_iff.mp hsize
      cases hbehind
    · exact fun h => absurd rfl h.1
  | cons c s =>
    constructor
    · intro h
      obtain ⟨size, hsize, hshort, hfits⟩ := h.copied hnl
      obtain ⟨hsum, hlt⟩ := lenTmp_some hsize
      have hmsg : toInt (c :: s).length = (c :: s).length := by
        have := (toInt_length_cases (c :: s)).2
        omega
      by_cases hc : c = '\n'
      · subst hc
        -- a line end in front is counted as two characters, so the copy does not fit
        have hlen := newlines_length_newline nl (s := s) (by omega)
        omega
      · have hlen := newlines_length_cons nl (s := s) hc (by omega)
        refine ⟨List.cons_ne_nil c s, fun hhead => hc (Option.some.inj hhead), ?_, ?_⟩
        · omega
        · omega
    · rintro ⟨-, hhead, htwo, hlt⟩ behind
      have hc : c ≠ '\n' := fun hc => hhead (congrArg some hc)
      have hlong : (newlines nl (c :: s)).length < 2 ^ 31 := by omega
      have hlen := newlines_length_cons nl hc hlong
      have hextra := extra_nonneg htwo c s
      have hmsg : (c :: s).length < 2 ^ 31 := by omega
      rw [eBufFile, if_pos hnl, translatedCopy, lenTmp_of_fits htwo hmsg (by omega)]
      simp only [Option.bind_some]
      generalize hsize : ((c :: s).length : Int) +
        (toInt nl.length - 2 + extra (toInt nl.length) c s) + 1 = size
      have hstore : store size [] 0 [] = some [] := by
        refine store_fits [] ?_
        show (0 : Int) + 0 < size
        omega
      -- the counted size leaves room for the translated message
      have hcopy : copyLines size (toInt nl.length) nl (c :: s) [] 0 =
          some ([] ++ newlines nl (c :: s)) := by
        refine copyLines_fits [] (lenNl_known hlong) ?_
        show (0 : Int) + _ < size
        omega
      rw [if_pos hmsg, hstore, Option.bind_some, hcopy]
      rfl

/-- A message of two lines is written with the line ends that `jftp` sets. -/
theorem eBufFile_two_lines : WrittenRight "\r\n".toList "spegla: a\nb".toList :=
  (eBufFile_iff (by decide) _).mpr (by decide)

/-- A message that is one newline takes three bytes with its NUL, in a block of two. -/
theorem eBufFile_newline : eBufFile "\r\n".toList "\n".toList none = none ∧
    lenTmp 2 "\n".toList none = some 2 ∧ newlines "\r\n".toList "\n".toList = "\r\n".toList ∧
    ¬WrittenRight "\r\n".toList "\n".toList := by
  refine ⟨by decide, by decide, by decide, fun h => ?_⟩
  have hnone : eBufFile "\r\n".toList "\n".toList none = none := by decide
  cases hnone.symm.trans (h none)

end Spegla.EErr
