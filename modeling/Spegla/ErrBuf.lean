import Mathlib.Logic.Function.Basic
import Spegla.Lib.CString

/-!
# Messages in a fixed buffer (`e_err.c`, `e_buf_format` and `e_usage`)

A message is put together in `MAX_STR` bytes, piece by piece, with a cursor and the length that
remains behind it.

- `Cursor`, `snprintf`: the buffer with its cursor, and how a piece is written at it.
- `eBufFormat`, `eUsage`: the cursors that the two functions go through, as the source has them.
- `Kept`: at every one of them the cursor lies in the buffer, with the right length behind it, and
  in the end there is a NUL.
- `messages_kept`: `e_buf_format` keeps to the buffer with every message, and `e_usage` exactly with
  those that fit, since it lacks the test of what `vsnprintf` gives back.
-/

namespace Spegla.EErr

open CString

/-- `MAX_STR`. -/
def MAX_STR : Nat := 1024

/-- The memory from the beginning of the buffer on, `p - buf`, and `len`. -/
structure Cursor where
  buf : Nat → Char
  p : Nat
  len : Nat

/-- What `snprintf` gives back for a text, read as an `unsigned`: the length of the whole text, or
-1 where that is no `int`. -/
def printed (text : Str) : Nat := if text.length < 2 ^ 31 then text.length else 2 ^ 32 - 1

/-- The memory with a text and a NUL written to the place `p`. -/
def writeAt (buf : Nat → Char) (p : Nat) (out : Str) (k : Nat) : Char :=
  if p ≤ k ∧ k < p + out.length then out.getD (k - p) nul
  else if k = p + out.length then nul
  else buf k

/-- `snprintf` at the cursor: as much of the text as there is room for, and a NUL. A byte behind the
buffer is undefined. -/
def snprintf (c : Cursor) (text : Str) : Option Cursor :=
  if c.len = 0 then some c
  else
    let out := text.take (c.len - 1)
    if c.p + out.length < MAX_STR then some { c with buf := writeAt c.buf c.p out } else none

/-- `len -= res; p += res`, where `len` is a `size_t`. -/
def Cursor.advance (c : Cursor) (res : Nat) : Cursor :=
  { c with p := c.p + res, len := (c.len + 2 ^ 64 - res) % 2 ^ 64 }

/-- A trailing `last` is removed. -/
def Cursor.strip (c : Cursor) (last : Char) : Option Cursor :=
  if c.p > 1 then
    if c.p - 1 < MAX_STR then
      some (if c.buf (c.p - 1) = last then
        { buf := Function.update c.buf (c.p - 1) nul, p := c.p - 1, len := c.len + 1 } else c)
    else none
  else some c

/-- The name at the front of a message, if there is one. -/
def putName (c : Cursor) : Option Str → Option Cursor
  | none => some c
  | some name =>
    (snprintf c (name ++ ": ".toList)).map fun c => c.advance (printed (name ++ ": ".toList))

/-- The message itself. `res` is cut down to what was written. -/
def putMessage (c : Cursor) (msg : Str) : Option Cursor :=
  let res := if printed msg ≥ c.len then c.len - 1 else printed msg
  (snprintf c msg).map fun c => c.advance res

/-- The error text behind a message, if there is one; the cursor stays. -/
def putError (c : Cursor) : Option Str → Option Cursor
  | none => some c
  | some error => snprintf c (": ".toList ++ error)

/-- `e_buf_format` with `len` at `MAX_STR`: the cursors in their order. `msg` is what the format and
its arguments say. -/
def eBufFormat (buf : Nat → Char) (name error : Option Str) (msg : Str) : Option (List Cursor) :=
  let c₀ : Cursor := { buf := buf, p := 0, len := MAX_STR }
  (putName c₀ name).bind fun c₁ =>
    (putMessage c₁ msg).bind fun c₂ =>
      (c₂.strip '\n').bind fun c₃ =>
        (c₃.strip '\r').bind fun c₄ =>
          (putError c₄ error).map fun c₅ => [c₀, c₁, c₂, c₃, c₄, c₅]

/-- `e_usage` up to the call of `e_buf_file`. -/
def eUsage (buf : Nat → Char) (pname msg : Str) : Option (List Cursor) :=
  let c₀ : Cursor := { buf := buf, p := 0, len := MAX_STR }
  let usage := "usage: ".toList ++ pname ++ " ".toList
  ((snprintf c₀ usage).map fun c => c.advance (printed usage)).bind fun c₁ =>
    ((snprintf c₁ msg).map fun c => c.advance (printed msg)).bind fun c₂ =>
      (c₂.strip '\n').bind fun c₃ =>
        (c₃.strip '\r').map fun c₄ => [c₀, c₁, c₂, c₃, c₄]

/-! ## Keeping to the buffer -/

/-- The cursor lies in the buffer, and `len` is what remains of it. -/
structure Cursor.Inside (c : Cursor) : Prop where
  p_lt : c.p < MAX_STR
  len_eq : c.p + c.len = MAX_STR

/-- The buffer holds a NUL. -/
def Cursor.Terminated (c : Cursor) : Prop := ∃ k < MAX_STR, c.buf k = nul

/-- Every cursor lies in the buffer, and in the end the buffer holds a NUL. -/
def Kept (run : Option (List Cursor)) : Prop :=
  ∃ cs, run = some cs ∧ (∀ c ∈ cs, c.Inside) ∧ ∃ c ∈ cs.getLast?, c.Terminated

variable {c : Cursor} {text msg : Str}

/-- A piece is written inside the buffer, with a NUL behind it. -/
theorem snprintf_inside (h : c.Inside) (text : Str) : ∃ c', snprintf c text = some c' ∧
    c'.p = c.p ∧ c'.len = c.len ∧ c'.buf (c.p + min text.length (c.len - 1)) = nul := by
  have hp := h.p_lt
  have hlen := h.len_eq
  have hout : (text.take (c.len - 1)).length = min text.length (c.len - 1) := by
    rw [List.length_take, Nat.min_comm]
  rw [snprintf, if_neg (by omega)]
  simp only [hout]
  rw [if_pos (by omega)]
  refine ⟨_, rfl, rfl, rfl, ?_⟩
  show writeAt c.buf c.p (text.take (c.len - 1)) (c.p + min text.length (c.len - 1)) = nul
  rw [writeAt, hout, if_neg (by omega), if_pos rfl]

/-- The cursor moves on to a place inside the buffer. -/
theorem Cursor.Inside.advance (h : c.Inside) {res : Nat} (hres : res < c.len) :
    (c.advance res).Inside := by
  have hp := h.p_lt
  have hlen := h.len_eq
  have hmax : MAX_STR = 1024 := rfl
  have hmod : (c.len + 2 ^ 64 - res) % 2 ^ 64 = c.len - res := by omega
  refine ⟨?_, ?_⟩
  · show c.p + res < MAX_STR
    omega
  · show c.p + res + (c.len + 2 ^ 64 - res) % 2 ^ 64 = MAX_STR
    rw [hmod]
    omega

theorem Cursor.Inside.strip (h : c.Inside) (hn : c.Terminated) (last : Char) :
    ∃ c', c.strip last = some c' ∧ c'.Inside ∧ c'.Terminated := by
  have hp := h.p_lt
  have hlen := h.len_eq
  rw [Cursor.strip]
  split
  · next hpos =>
    rw [if_pos (by omega)]
    refine ⟨_, rfl, ?_⟩
    split
    · refine ⟨⟨?_, ?_⟩, c.p - 1, by omega, Function.update_self ..⟩
      · show c.p - 1 < MAX_STR
        omega
      · show c.p - 1 + (c.len + 1) = MAX_STR
        omega
    · exact ⟨h, hn⟩
  · exact ⟨c, rfl, h, hn⟩

theorem start_inside (buf : Nat → Char) : Cursor.Inside ⟨buf, 0, MAX_STR⟩ := by
  refine ⟨?_, Nat.zero_add _⟩
  show 0 < MAX_STR
  decide

theorem printed_small (h : text.length < MAX_STR) : printed text = text.length :=
  if_pos (Nat.lt_trans h (by decide))

/-- What does not fit is printed as no less than the room there is. -/
theorem le_printed {n : Nat} (h : n ≤ text.length) (hn : n ≤ MAX_STR) : n ≤ printed text := by
  have hmax : MAX_STR = 1024 := rfl
  rw [printed]
  split <;> omega

/-- After a piece the cursor moves to a place up to its NUL. -/
theorem snprintf_advance (h : c.Inside) {res : Nat} (hres : res = min text.length (c.len - 1)) :
    ∃ c', (snprintf c text).map (fun c => c.advance res) = some c' ∧ c'.Inside ∧
      c'.p = c.p + res ∧ c'.Terminated := by
  obtain ⟨c', heq, hp, hlen, hnul⟩ := snprintf_inside h text
  have hin : c'.Inside := ⟨hp ▸ h.p_lt, by rw [hp, hlen]; exact h.len_eq⟩
  have hroom := h.len_eq
  have hplace := h.p_lt
  rw [← hres] at hnul
  refine ⟨c'.advance res, congrArg _ heq, hin.advance (by omega), ?_, c.p + res, by omega, hnul⟩
  show c'.p + res = c.p + res
  rw [hp]

/-- A text that fits is written as it is. -/
theorem snprintf_short (h : c.Inside) (hshort : text.length < c.len) :
    ∃ c', (snprintf c text).map (fun c => c.advance (printed text)) = some c' ∧ c'.Inside ∧
      c'.p = c.p + text.length ∧ c'.Terminated := by
  have hroom := h.len_eq
  have hprinted : printed text = text.length := printed_small (by omega)
  rw [hprinted]
  exact snprintf_advance h (by omega)

/-! ## `e_buf_format` -/

theorem putName_inside (h : c.Inside) (h0 : c.p = 0) {name : Option Str}
    (hname : ∀ s ∈ name, s.length < MAX_STR - 20) :
    ∃ c', putName c name = some c' ∧ c'.Inside := by
  cases name with
  | none => exact ⟨c, rfl, h⟩
  | some name =>
    have hlen := hname name rfl
    have hroom := h.len_eq
    have hshort : (name ++ ": ".toList).length < c.len := by
      rw [List.length_append]
      show name.length + 2 < c.len
      omega
    obtain ⟨c', heq, hin, -⟩ := snprintf_short h hshort
    exact ⟨c', heq, hin⟩

/-- The message is cut off, and the cursor stands on its NUL. -/
theorem putMessage_inside (h : c.Inside) (msg : Str) :
    ∃ c', putMessage c msg = some c' ∧ c'.Inside ∧ c'.Terminated := by
  have hroom := h.len_eq
  have hp := h.p_lt
  have hres : (if printed msg ≥ c.len then c.len - 1 else printed msg) =
      min msg.length (c.len - 1) := by
    by_cases hfits : msg.length < c.len
    · have hprinted : printed msg = msg.length := printed_small (by omega)
      rw [hprinted, if_neg (by omega)]
      omega
    · have hlong : c.len ≤ printed msg := le_printed (by omega) (by omega)
      rw [if_pos hlong]
      omega
  obtain ⟨c', heq, hin, -, hn⟩ := snprintf_advance h hres
  exact ⟨c', heq, hin, hn⟩

theorem putError_inside (h : c.Inside) (hn : c.Terminated) (error : Option Str) :
    ∃ c', putError c error = some c' ∧ c'.Inside ∧ c'.Terminated := by
  cases error with
  | none => exact ⟨c, rfl, h, hn⟩
  | some error =>
    obtain ⟨c', heq, hp, hlen, hnul⟩ := snprintf_inside h (": ".toList ++ error)
    have hroom := h.len_eq
    have hplace := h.p_lt
    exact ⟨c', heq, ⟨hp ▸ hplace, by rw [hp, hlen]; exact hroom⟩, _, by omega, hnul⟩

theorem eBufFormat_kept (buf : Nat → Char) {name : Option Str} (error : Option Str) (msg : Str)
    (hname : ∀ s ∈ name, s.length < MAX_STR - 20) : Kept (eBufFormat buf name error msg) := by
  have h₀ := start_inside buf
  obtain ⟨c₁, heq₁, h₁⟩ := putName_inside h₀ rfl hname
  obtain ⟨c₂, heq₂, h₂, hn₂⟩ := putMessage_inside h₁ msg
  obtain ⟨c₃, heq₃, h₃, hn₃⟩ := h₂.strip hn₂ '\n'
  obtain ⟨c₄, heq₄, h₄, hn₄⟩ := h₃.strip hn₃ '\r'
  obtain ⟨c₅, heq₅, h₅, hn₅⟩ := putError_inside h₄ hn₄ error
  refine ⟨[⟨buf, 0, MAX_STR⟩, c₁, c₂, c₃, c₄, c₅], ?_, ?_, c₅, rfl, hn₅⟩
  · simp only [eBufFormat, heq₁, heq₂, heq₃, heq₄, heq₅, Option.bind_some, Option.map_some]
  · intro c hc
    simp only [List.mem_cons, List.not_mem_nil, or_false] at hc
    rcases hc with rfl | rfl | rfl | rfl | rfl | rfl
    · exact h₀
    · exact h₁
    · exact h₂
    · exact h₃
    · exact h₄
    · exact h₅

/-! ## `e_usage` -/

/-- What comes first in a usage text fits. -/
theorem usage_short (buf : Nat → Char) {pname : Str} (hname : pname.length < MAX_STR - 20) :
    ∃ c, (snprintf ⟨buf, 0, MAX_STR⟩ ("usage: ".toList ++ pname ++ " ".toList)).map
      (fun c => c.advance (printed ("usage: ".toList ++ pname ++ " ".toList))) = some c ∧
      c.Inside ∧ c.p = 8 + pname.length := by
  have husage : ("usage: ".toList ++ pname ++ " ".toList).length = 8 + pname.length := by
    rw [List.length_append, List.length_append]
    show 7 + pname.length + 1 = 8 + pname.length
    omega
  have hshort : ("usage: ".toList ++ pname ++ " ".toList).length < MAX_STR := by
    rw [husage]
    omega
  obtain ⟨c, heq, hin, hp, -⟩ := snprintf_short (start_inside buf) hshort
  rw [husage, Nat.zero_add] at hp
  exact ⟨c, heq, hin, hp⟩

theorem eUsage_kept_iff (buf : Nat → Char) {pname : Str} (hname : pname.length < MAX_STR - 20)
    (msg : Str) : Kept (eUsage buf pname msg) ↔ 8 + pname.length + msg.length < MAX_STR := by
  obtain ⟨c₁, heq₁, h₁, hp₁⟩ := usage_short buf hname
  have hroom := h₁.len_eq
  constructor
  · -- the cursor behind the message lies in the buffer
    rintro ⟨cs, hcs, hin, -⟩
    obtain ⟨c, heq, hp, -⟩ := snprintf_inside h₁ msg
    simp only [eUsage, heq₁, Option.bind_some, heq, Option.map_some, Option.bind_eq_some_iff,
      Option.map_eq_some_iff] at hcs
    obtain ⟨c₃, -, c₄, -, rfl⟩ := hcs
    have h₂ : (c.advance (printed msg)).Inside := hin _ (by simp)
    have hp₂ : c.p + printed msg < MAX_STR := h₂.p_lt
    by_contra hlong
    have hprinted : c₁.len ≤ printed msg := le_printed (by omega) (by omega)
    omega
  · intro hshort
    have h₀ := start_inside buf
    obtain ⟨c₂, heq₂, h₂, -, hn₂⟩ := snprintf_short h₁ (show msg.length < c₁.len by omega)
    obtain ⟨c₃, heq₃, h₃, hn₃⟩ := h₂.strip hn₂ '\n'
    obtain ⟨c₄, heq₄, h₄, hn₄⟩ := h₃.strip hn₃ '\r'
    refine ⟨[⟨buf, 0, MAX_STR⟩, c₁, c₂, c₃, c₄], ?_, ?_, c₄, rfl, hn₄⟩
    · simp only [eUsage, heq₁, heq₂, heq₃, heq₄, Option.bind_some, Option.map_some]
    · intro c hc
      simp only [List.mem_cons, List.not_mem_nil, or_false] at hc
      rcases hc with rfl | rfl | rfl | rfl | rfl
      · exact h₀
      · exact h₁
      · exact h₂
      · exact h₃
      · exact h₄

/-- `e_buf_format` keeps to its buffer whatever the message, and `e_usage` exactly when the message
fits behind `usage: `, the name of the program and a blank. -/
theorem messages_kept (buf : Nat → Char) (pname msg : Str)
    (hname : pname.length < MAX_STR - 20) :
    (∀ name error, (∀ s ∈ name, s = pname) → Kept (eBufFormat buf name error msg)) ∧
      (Kept (eUsage buf pname msg) ↔ 8 + pname.length + msg.length < MAX_STR) :=
  ⟨fun _ error hpname => eBufFormat_kept buf error msg fun s hs => hpname s hs ▸ hname,
    eUsage_kept_iff buf hname msg⟩

/-- A message of 50 characters is kept by both. -/
theorem messages_kept_short :
    Kept (eBufFormat (fun _ => 'x') (some "spegla".toList) none (List.replicate 50 'a')) ∧
      Kept (eUsage (fun _ => 'x') "spegla".toList (List.replicate 50 'a')) :=
  have h := messages_kept (fun _ => 'x') "spegla".toList (List.replicate 50 'a') (by decide)
  ⟨h.1 (some "spegla".toList) none fun _ hs => (Option.mem_some.mp hs).symm,
    h.2.mpr (by rw [List.length_replicate]; decide)⟩

/-- With a usage text of 2000 characters the cursor is put far behind the buffer. -/
theorem eUsage_overruns :
    ¬Kept (eUsage (fun _ => 'x') "spegla".toList (List.replicate 2000 'a')) := by
  intro h
  have hfits := (eUsage_kept_iff _ (by decide) _).mp h
  rw [List.length_replicate] at hfits
  exact absurd hfits (by decide)

end Spegla.EErr
