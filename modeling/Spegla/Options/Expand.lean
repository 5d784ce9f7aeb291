import Spegla.Options.Params

/-!
# The section in a file's name (`spegla.c`, `expand_with_str`)

- `expandLoop`, `expandWithStr`: the copy with its two indices, `none` where it writes outside of
  the buffer or an index overflows.
- `expansion`: what `%%` and `%s` stand for.
- `expandWithStr_right`: the name is the expansion exactly where that one fits into the buffer.

The buffer comes from `malloc`, with any contents. The strings are without their NUL.
-/

namespace Spegla

open CString

/-! ## The copy -/

/-- `MAX_LINE` -/
def MAX_LINE : Nat := 1024

/-- `buf[i] = c`, in a buffer of `MAX_LINE` characters. -/
def setBuf (buf : Str) (i : Int) (c : Char) : Option Str :=
  if 0 ≤ i ∧ i < MAX_LINE then some (buf.set i.toNat c) else none

/-- What `strlcpy` writes. -/
def strlcpyText (src : Str) (siz : Nat) : Str := if siz = 0 then [] else src.take (siz - 1) ++ [nul]

/-- `strlcpy(buf + i, src, siz)` in such a buffer, with the length of all of `src`. -/
def strlcpy (buf : Str) (i : Int) (src : Str) (siz : Nat) : Option (Str × Nat) :=
  let text := strlcpyText src siz
  if 0 ≤ i ∧ i + text.length ≤ MAX_LINE then
    some (buf.take i.toNat ++ (text ++ buf.drop (i.toNat + text.length)), src.length)
  else none

/-- `i++` of an `int`. -/
def incInt (i : Int) : Option Int := if i < INT_MAX then some (i + 1) else none

/-- The loop, from `p[j]` on. -/
def expandLoop (str : Str) : Str → Str → Int → Int → Option (Str × Int)
  | [], buf, i, _ => some (buf, i)
  | c :: p, buf, i, j =>
    if i < MAX_LINE then
      match c, p with
      | '%', '%' :: p => do
        let j ← incInt j
        let buf ← setBuf buf i '%'
        expandLoop str p buf (← incInt i) (← incInt j)
      | '%', 's' :: p => do
        let j ← incInt j
        let (buf, len) ← strlcpy buf i str (MAX_LINE - i).toNat
        -- the sum is one of `unsigned`s
        expandLoop str p buf (← incInt (toInt (i + len - 1))) (← incInt j)
      | c, p => do
        let buf ← setBuf buf i c
        expandLoop str p buf (← incInt i) (← incInt j)
    else some (buf, i)

/-- `expand_with_str`, with the contents of the allocated buffer: the new value. -/
def expandWithStr (buf : Str) (val : Option Str) (str : Str) : Option (Option Str) :=
  match val with
  | none => some none
  | some p =>
    if '%' ∈ p then do
      let (buf, i) ← expandLoop str p buf 0 0
      let buf ← setBuf buf i nul
      return some (cstr buf)
    else some (some p)

/-! ## What it stands for -/

/-- The template with its `%%` and `%s` replaced. -/
def expansion (str : Str) : Str → Str
  | [] => []
  | '%' :: '%' :: p => '%' :: expansion str p
  | '%' :: 's' :: p => str ++ expansion str p
  | c :: p => c :: expansion str p

variable {str p buf out tail : Str} {c : Char} {i j : Int}

/-- `%%` stands for one character. -/
theorem expandLoop_percent : expandLoop str ('%' :: '%' :: p) buf i j =
    if i < MAX_LINE then do
      let j ← incInt j
      let buf ← setBuf buf i '%'
      expandLoop str p buf (← incInt i) (← incInt j)
    else some (buf, i) := by
  rw [expandLoop]

/-- `%s` stands for the string. -/
theorem expandLoop_name : expandLoop str ('%' :: 's' :: p) buf i j =
    if i < MAX_LINE then do
      let j ← incInt j
      let (buf, len) ← strlcpy buf i str (MAX_LINE - i).toNat
      expandLoop str p buf (← incInt (toInt (i + len - 1))) (← incInt j)
    else some (buf, i) := by
  rw [expandLoop]

/-- Every other character stands for itself. -/
theorem expandLoop_char (hpercent : ∀ q, c = '%' → p = '%' :: q → False)
    (hname : ∀ q, c = '%' → p = 's' :: q → False) : expandLoop str (c :: p) buf i j =
    if i < MAX_LINE then do
      let buf ← setBuf buf i c
      expandLoop str p buf (← incInt i) (← incInt j)
    else some (buf, i) := by
  rw [expandLoop]
  · exact hpercent
  · exact hname

/-! ## A name that fits -/

/-- The next character. -/
theorem setBuf_append (t c : Char) (hlen : (out ++ t :: tail).length = MAX_LINE) :
    setBuf (out ++ t :: tail) out.length c = some ((out ++ [c]) ++ tail) := by
  rw [List.length_append, List.length_cons] at hlen
  rw [setBuf, if_pos (by omega), Int.toNat_natCast, List.set_append_right _ _ (Nat.le_refl _),
    Nat.sub_self, List.append_assoc]
  rfl

/-- The name of the section, if there is room for it and a NUL. -/
theorem strlcpy_append (hlen : (out ++ tail).length = MAX_LINE)
    (hfits : out.length + str.length < MAX_LINE) :
    ∃ tail', strlcpy (out ++ tail) out.length str (MAX_LINE - out.length : Int).toNat =
        some ((out ++ str) ++ tail', str.length) ∧ ((out ++ str) ++ tail').length = MAX_LINE := by
  rw [List.length_append] at hlen
  have htake : str.take ((MAX_LINE - out.length : Int).toNat - 1) = str :=
    List.take_of_length_le (by omega)
  have htext : strlcpyText str (MAX_LINE - out.length : Int).toNat = str ++ [nul] := by
    rw [strlcpyText, if_neg (by omega), htake]
  refine ⟨nul :: tail.drop (str.length + 1), ?_, ?_⟩
  · rw [strlcpy, htext, if_pos (by rw [List.length_append, List.length_singleton]; omega)]
    simp
  · simp only [List.length_append, List.length_cons, List.length_drop]
    omega

/-- Below `INT_MAX` an `int` can be counted up. -/
theorem incInt_some {n : Nat} (h : (n : Int) < INT_MAX) :
    incInt n = some ((n + 1 : Nat) : Int) := by
  rw [incInt, if_pos h]
  rfl

/-- The step for one character `c` of the name. -/
theorem char_fits {k : Nat} (hlen : (out ++ tail).length = MAX_LINE)
    (hfits : out.length + (k + 1) < MAX_LINE) (c : Char) :
    ∃ tail', setBuf (out ++ tail) out.length c = some ((out ++ [c]) ++ tail') ∧
      ((out ++ [c]) ++ tail').length = MAX_LINE ∧ (out ++ [c]).length + k < MAX_LINE ∧
      incInt out.length = some ((out ++ [c]).length : Int) := by
  cases tail with
  | nil =>
    rw [List.append_nil] at hlen
    omega
  | cons t tail =>
    have hmax : (out.length : Int) < INT_MAX := by
      simp only [MAX_LINE, INT_MAX] at hfits ⊢
      omega
    refine ⟨tail, setBuf_append t c hlen, ?_, ?_, ?_⟩
    · rw [← hlen]
      simp
    · rw [List.length_append, List.length_singleton]
      omega
    · rw [incInt_some hmax, List.length_append, List.length_singleton]

/-- The index behind the name of the section; that of an empty one is wrapped around twice. -/
theorem sectionName_index (hfits : out.length + str.length < MAX_LINE) :
    incInt (toInt (out.length + str.length - 1)) = some ((out ++ str).length : Int) := by
  simp only [MAX_LINE] at hfits
  have hint : toInt ((out.length : Int) + str.length - 1) = out.length + str.length - 1 :=
    Int.bmod_eq_of_le (by omega) (by omega)
  have hmax : (out.length : Int) + str.length - 1 < INT_MAX := by
    simp only [INT_MAX]
    omega
  rw [hint, incInt, if_pos hmax, List.length_append, Int.sub_add_cancel, Int.natCast_add]

/-- The loop, up to a place where the expansion so far is `out`. -/
theorem expandLoop_fits (str p : Str) : ∀ (out tail : Str) (j : Nat),
    (out ++ tail).length = MAX_LINE → out.length + (expansion str p).length < MAX_LINE →
    ((j + p.length : Nat) : Int) ≤ INT_MAX →
    ∃ tail', expandLoop str p (out ++ tail) out.length j =
        some ((out ++ expansion str p) ++ tail', ((out ++ expansion str p).length : Int)) ∧
      ((out ++ expansion str p) ++ tail').length = MAX_LINE := by
  -- `i` is the length of what has been written, and stays below the end of the buffer
  induction p using expansion.induct with
  | case1 =>
    intro out tail j hlen _ _
    rw [expansion, List.append_nil]
    exact ⟨tail, rfl, hlen⟩
  | case2 p ih =>
    intro out tail j hlen hfits hj
    rw [expansion, List.length_cons] at hfits
    rw [List.length_cons, List.length_cons] at hj
    obtain ⟨tail₁, hset, hlen₁, hfits₁, hi⟩ := char_fits hlen hfits '%'
    obtain ⟨tail₂, hloop, hlen₂⟩ := ih _ tail₁ (j + 1 + 1) hlen₁ hfits₁ (by omega)
    rw [expansion, List.append_cons]
    refine ⟨tail₂, ?_, hlen₂⟩
    have hnext : ((j + 1 : Nat) : Int) < INT_MAX := by omega
    rw [expandLoop_percent, if_pos (by omega), incInt_some (by omega)]
    simp only [Option.bind_eq_bind, Option.bind_some]
    rw [hset]
    simp only [Option.bind_some, hi, incInt_some hnext]
    exact hloop
  | case3 p ih =>
    intro out tail j hlen hfits hj
    rw [expansion, List.length_append] at hfits
    rw [List.length_cons, List.length_cons] at hj
    have hroom : out.length + str.length < MAX_LINE := by omega
    obtain ⟨tail₁, hcopy, hlen₁⟩ := strlcpy_append hlen hroom
    obtain ⟨tail₂, hloop, hlen₂⟩ := ih _ tail₁ (j + 1 + 1) hlen₁
      (by rw [List.length_append]; omega) (by omega)
    rw [expansion, ← List.append_assoc]
    refine ⟨tail₂, ?_, hlen₂⟩
    have hi := sectionName_index hroom
    have hnext : ((j + 1 : Nat) : Int) < INT_MAX := by omega
    rw [expandLoop_name, if_pos (by omega), incInt_some (by omega)]
    simp only [Option.bind_eq_bind, Option.bind_some]
    rw [hcopy]
    simp only [Option.bind_some, hi, incInt_some hnext]
    exact hloop
  | case4 c p hpercent hname ih =>
    intro out tail j hlen hfits hj
    rw [expansion, List.length_cons] at hfits
    · rw [List.length_cons] at hj
      obtain ⟨tail₁, hset, hlen₁, hfits₁, hi⟩ := char_fits hlen hfits c
      obtain ⟨tail₂, hloop, hlen₂⟩ := ih _ tail₁ (j + 1) hlen₁ hfits₁ (by omega)
      rw [expansion, List.append_cons]
      · refine ⟨tail₂, ?_, hlen₂⟩
        have hnext : (j : Int) < INT_MAX := by omega
        rw [expandLoop_char hpercent hname, if_pos (by omega), hset]
        simp only [Option.bind_eq_bind, Option.bind_some, hi, incInt_some hnext]
        exact hloop
      · exact hpercent
      · exact hname
    · exact hpercent
    · exact hname

/-! ## A name that does not -/

/-- A write that is defined is inside the buffer. -/
theorem setBuf_index {buf' : Str} (h : setBuf buf i c = some buf') : 0 ≤ i ∧ i < MAX_LINE := by
  by_contra hno
  rw [setBuf, if_neg hno] at h
  cases h

/-- A copy that is defined begins inside it, and returns the length of the string. -/
theorem strlcpy_index {siz : Nat} {r : Str × Nat} (h : strlcpy buf i str siz = some r) :
    0 ≤ i ∧ r.2 = str.length := by
  rw [strlcpy] at h
  split at h
  · next hin =>
    cases h
    exact ⟨hin.1, rfl⟩
  · cases h

/-- Only below `INT_MAX` it can. -/
theorem incInt_eq {i' : Int} (h : incInt i = some i') : i' = i + 1 ∧ i' ≤ INT_MAX := by
  rw [incInt] at h
  split at h
  · cases h
    exact ⟨rfl, by omega⟩
  · cases h

/-- An index that has not wrapped around. -/
theorem toInt_index {x : Int} (hx : -1 ≤ x) (hmax : x ≤ 2 ^ 32 - 2) (hlow : -1 ≤ toInt x)
    (hhigh : toInt x < MAX_LINE) : toInt x = x := by
  simp only [toInt, MAX_LINE, Int.bmod_def] at hlow hhigh ⊢
  split
  · next hsmall =>
    rw [if_pos hsmall] at hhigh
    omega
  · next hlarge =>
    rw [if_neg hlarge] at hlow
    omega

/-- If the loop ends in the buffer, it has written all of the expansion, unless the name of the
section is so long that the sum wraps around. -/
theorem expandLoop_some (hstr : str.length + MAX_LINE ≤ 2 ^ 32) (p : Str) :
    ∀ {buf buf' : Str} {i j n : Int}, expandLoop str p buf i j = some (buf', n) → 0 ≤ n →
      n < MAX_LINE → j ≤ INT_MAX →
      0 ≤ i ∧ n = i + (expansion str p).length ∧ j + p.length ≤ INT_MAX := by
  induction p using expansion.induct with
  | case1 =>
    intro buf buf' i j n h hn _ hj
    cases h
    rw [expansion]
    exact ⟨hn, by simp, by simpa using hj⟩
  | case2 p ih =>
    intro buf buf' i j n h hn hmax hj
    rw [expandLoop_percent] at h
    split at h
    · simp only [Option.bind_eq_bind, Option.bind_eq_some_iff] at h
      obtain ⟨j₁, hj₁, buf₁, hset, i₁, hi₁, j₂, hj₂, h⟩ := h
      obtain ⟨-, hend, hj'⟩ := ih h hn hmax (incInt_eq hj₂).2
      obtain ⟨rfl, -⟩ := incInt_eq hj₁
      obtain ⟨rfl, -⟩ := incInt_eq hj₂
      obtain ⟨rfl, -⟩ := incInt_eq hi₁
      rw [expansion, List.length_cons, List.length_cons, List.length_cons]
      exact ⟨(setBuf_index hset).1, by omega, by omega⟩
    · cases h
      omega
  | case3 p ih =>
    intro buf buf' i j n h hn hmax hj
    rw [expandLoop_name] at h
    split at h
    · next hi =>
      simp only [Option.bind_eq_bind, Option.bind_eq_some_iff] at h
      obtain ⟨j₁, hj₁, ⟨buf₁, len⟩, hcopy, i₁, hi₁, j₂, hj₂, h⟩ := h
      obtain ⟨hi', hend, hj'⟩ := ih h hn hmax (incInt_eq hj₂).2
      obtain ⟨rfl, -⟩ := incInt_eq hj₁
      obtain ⟨rfl, -⟩ := incInt_eq hj₂
      obtain ⟨rfl, -⟩ := incInt_eq hi₁
      obtain ⟨hi₀, hlen⟩ := strlcpy_index hcopy
      obtain rfl : len = str.length := hlen
      dsimp only at hi' hend
      -- the sum is in the buffer, or one less, so that it has not wrapped around
      have hsum : toInt (i + str.length - 1) = i + str.length - 1 :=
        toInt_index (by omega) (by simp only [MAX_LINE] at hstr hi; omega) (by omega) (by omega)
      rw [expansion, List.length_append, List.length_cons, List.length_cons]
      exact ⟨hi₀, by omega, by omega⟩
    · cases h
      omega
  | case4 c p hpercent hname ih =>
    intro buf buf' i j n h hn hmax hj
    rw [expandLoop_char hpercent hname] at h
    split at h
    · simp only [Option.bind_eq_bind, Option.bind_eq_some_iff] at h
      obtain ⟨buf₁, hset, i₁, hi₁, j₁, hj₁, h⟩ := h
      obtain ⟨-, hend, hj'⟩ := ih h hn hmax (incInt_eq hj₁).2
      obtain ⟨rfl, -⟩ := incInt_eq hj₁
      obtain ⟨rfl, -⟩ := incInt_eq hi₁
      rw [expansion, List.length_cons, List.length_cons]
      · exact ⟨(setBuf_index hset).1, by omega, by omega⟩
      · exact hpercent
      · exact hname
    · cases h
      omega

/-! ## The whole name -/

/-- Nothing ends the expansion before its end. -/
theorem nul_notMem_expansion (hstr : nul ∉ str) (p : Str) (hp : nul ∉ p) :
    nul ∉ expansion str p := by
  induction p using expansion.induct with
  | case1 =>
    rw [expansion]
    exact hp
  | case2 p ih =>
    rw [List.mem_cons, List.mem_cons, not_or, not_or] at hp
    rw [expansion, List.mem_cons, not_or]
    exact ⟨hp.1, ih hp.2.2⟩
  | case3 p ih =>
    rw [List.mem_cons, List.mem_cons, not_or, not_or] at hp
    rw [expansion, List.mem_append, not_or]
    exact ⟨hstr, ih hp.2.2⟩
  | case4 c p hpercent hname ih =>
    rw [List.mem_cons, not_or] at hp
    rw [expansion, List.mem_cons, not_or]
    · exact ⟨hp.1, ih hp.2⟩
    · exact hpercent
    · exact hname

/-- **Where the expansion fits**, the function gives it. -/
theorem expandWithStr_fits (hmem : '%' ∈ p) (hp : nul ∉ p) (hstr : nul ∉ str)
    (hbuf : buf.length = MAX_LINE) (hfits : (expansion str p).length < MAX_LINE)
    (hlen : p.length < 2 ^ 31) :
    expandWithStr buf (some p) str = some (some (expansion str p)) := by
  have hj : ((0 + p.length : Nat) : Int) ≤ INT_MAX := by
    simp only [INT_MAX]
    omega
  obtain ⟨tail, hloop, htail⟩ := expandLoop_fits str p [] buf 0 hbuf (by simpa using hfits) hj
  rw [List.nil_append] at htail
  obtain ⟨t, tail, rfl⟩ : ∃ t tail', tail = t :: tail' := by
    cases tail with
    | nil =>
      rw [List.append_nil] at htail
      omega
    | cons t tail => exact ⟨t, tail, rfl⟩
  have hloop : expandLoop str p buf 0 0 =
      some (expansion str p ++ t :: tail, ((expansion str p).length : Int)) := hloop
  have hset := setBuf_append t nul htail
  have hcstr : cstr ((expansion str p ++ [nul]) ++ tail) = expansion str p := by
    rw [List.append_assoc]
    exact cstr_append (nul_notMem_expansion hstr p hp)
  simp only [expandWithStr, if_pos hmem]
  rw [hloop]
  simp only [Option.bind_eq_bind, Option.bind_some, Option.pure_def]
  rw [hset, Option.bind_some, hcstr]

/-- A name that is written into the buffer fits into it. -/
theorem expandWithStr_some (hmem : '%' ∈ p) (hstr : str.length + MAX_LINE ≤ 2 ^ 32) {r : Option Str}
    (h : expandWithStr buf (some p) str = some r) :
    (expansion str p).length < MAX_LINE ∧ p.length < 2 ^ 31 := by
  simp only [expandWithStr, if_pos hmem, Option.bind_eq_bind, Option.bind_eq_some_iff] at h
  obtain ⟨⟨buf₁, n⟩, hloop, buf₂, hset, -⟩ := h
  obtain ⟨hn, hmax⟩ := setBuf_index hset
  obtain ⟨-, hend, hlen⟩ := expandLoop_some hstr p hloop hn hmax (by decide)
  simp only [INT_MAX] at hlen
  omega

/-- **The section in a name.** Where the expansion leaves room for its NUL and `j` reaches the end
of the template, the expansion is the value and nothing is written outside of the buffer. Elsewhere
that is not so, for the name of any section but one so long that it wraps `i` around into the
buffer. -/
theorem expandWithStr_right (hmem : '%' ∈ p) (hp : nul ∉ p) (hstr : nul ∉ str)
    (hbuf : buf.length = MAX_LINE) :
    ((expansion str p).length < MAX_LINE ∧ p.length < 2 ^ 31 →
      expandWithStr buf (some p) str = some (some ((expansion str p).take (MAX_LINE - 1)))) ∧
    (str.length + MAX_LINE ≤ 2 ^ 32 →
      expandWithStr buf (some p) str = some (some ((expansion str p).take (MAX_LINE - 1))) →
      (expansion str p).length < MAX_LINE ∧ p.length < 2 ^ 31) := by
  constructor
  · rintro ⟨hfits, hlen⟩
    rw [List.take_of_length_le (Nat.le_sub_one_of_lt hfits)]
    exact expandWithStr_fits hmem hp hstr hbuf hfits hlen
  · intro hshort hright
    exact expandWithStr_some hmem hshort hright

theorem expandWithStr_right_short : expandWithStr (List.replicate MAX_LINE nul)
    (some ['%', '%', '%', 's']) ['a', 'b'] = some (some ['%', 'a', 'b']) :=
  (expandWithStr_right (by decide) (by decide) (by decide) (List.length_replicate ..)).1
    ⟨by decide, by decide⟩

/-- A name of `MAX_LINE` characters gets its NUL behind the buffer. -/
theorem expandWithStr_overrun :
    expandWithStr (List.replicate MAX_LINE nul) (some ('%' :: '%' :: List.replicate 1023 'a')) [] ≠
      some (some ((expansion [] ('%' :: '%' :: List.replicate 1023 'a')).take (MAX_LINE - 1))) := by
  intro h
  have hlen := (expandWithStr_some (List.mem_cons_self ..) (by decide) h).1
  exact absurd hlen (by decide +kernel)

end Spegla
