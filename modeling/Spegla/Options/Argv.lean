import Mathlib.Data.List.Nodup
import Spegla.Options.GetOpt

/-!
# Options of the command line (`tgetopt.c`, `get_opt_argv`)

- `WellNamed`: a table whose names can be told apart.
- `Encoded`: the ways in which options and their arguments are written as strings.
- `ReadsAt`: where `get_opt_argv` is among the strings. The lemmas about it say what one call gives.
- `tgetopt_encoded`: the calls give back the options that are written, and then the end of options.
-/

namespace Spegla

open CString

/-! ## Tables and strings -/

/-- The long names are not empty and have no `=` in them, the short names are none of `?` and `-`,
and no two entries have the same one. -/
structure WellNamed (go : List GetOpt) : Prop where
  nonempty : ∀ g ∈ go, g.goName ≠ []
  noEquals : ∀ g ∈ go, '=' ∉ g.goName
  names : (go.map GetOpt.goName).Nodup
  letters : go.Pairwise fun g g' => g.goSname ≠ '?' → g.goSname ≠ g'.goSname
  noDash : ∀ g ∈ go, g.goSname ≠ '-'

/-- Options with their arguments, and the strings that they are written as. With `some text`, the
text is the rest of a string that begins with a dash. -/
inductive Encoded (go : List GetOpt) : List (Nat × Option Str) → Option Str → List Str → Prop where
  | done : Encoded go [] none []
  | longArg {i g opts args} (value : Str) : go[i]? = some g → g.goWantArg ≠ .noArg →
      Encoded go opts none args →
      Encoded go ((i, some value) :: opts) none (('-' :: '-' :: (g.goName ++ '=' :: value)) :: args)
  | long {i g opts args} : go[i]? = some g → g.goWantArg ≠ .reqArg → Encoded go opts none args →
      Encoded go ((i, none) :: opts) none (('-' :: '-' :: g.goName) :: args)
  | dash {opts text args} : Encoded go opts (some text) args →
      Encoded go opts none (('-' :: text) :: args)
  | flag {i g opts args} : go[i]? = some g → g.goSname ≠ '?' → g.goWantArg = .noArg →
      Encoded go opts none args → Encoded go ((i, none) :: opts) (some [g.goSname]) args
  | flags {i g opts text args} : go[i]? = some g → g.goSname ≠ '?' → g.goWantArg = .noArg →
      Encoded go opts (some text) args →
      Encoded go ((i, none) :: opts) (some (g.goSname :: text)) args
  | attached {i g opts value args} : go[i]? = some g → g.goSname ≠ '?' → g.goWantArg ≠ .noArg →
      value ≠ [] → Encoded go opts none args →
      Encoded go ((i, some value) :: opts) (some (g.goSname :: value)) args
  | apart {i g opts value args} : go[i]? = some g → g.goSname ≠ '?' → g.goWantArg ≠ .noArg →
      value.head? ≠ some '-' → Encoded go opts none args →
      Encoded go ((i, some value) :: opts) (some [g.goSname]) (value :: args)
  | bare {i g opts args} : go[i]? = some g → g.goSname ≠ '?' → g.goWantArg = .optArg →
      (∀ arg ∈ args.head?, arg.head? = some '-') → Encoded go opts none args →
      Encoded go ((i, none) :: opts) (some [g.goSname]) args

/-! ## Looking up a name -/

section LookUp

variable {go : List GetOpt} {i : Nat} {g : GetOpt}

/-- The only entry with a property is found. -/
theorem findIdx_only {p : GetOpt → Bool} (hg : go[i]? = some g) (hp : p g)
    (honly : ∀ j g', go[j]? = some g' → j < i → ¬p g') : go.findIdx? p = some i := by
  obtain ⟨hi, rfl⟩ := List.getElem?_eq_some_iff.mp hg
  rw [List.findIdx?_eq_some_iff_getElem]
  exact ⟨hi, hp, fun j hj => honly j _ (List.getElem?_eq_getElem (hj.trans hi)) hj⟩

/-- The loop over the short names finds the entry, since no other one has its letter. -/
theorem shortIndex_eq (h : WellNamed go) (hg : go[i]? = some g) (hs : g.goSname ≠ '?') :
    (go.findIdx? fun g' => g'.goSname ≠ '?' ∧ g.goSname = g'.goSname) = some i := by
  refine findIdx_only hg (by simpa using hs) ?_
  intro j g' hg' hj hp
  obtain ⟨hs', he⟩ : g'.goSname ≠ '?' ∧ g.goSname = g'.goSname := by simpa using hp
  obtain ⟨hi, rfl⟩ := List.getElem?_eq_some_iff.mp hg
  obtain ⟨hj', rfl⟩ := List.getElem?_eq_some_iff.mp hg'
  exact List.pairwise_iff_getElem.mp h.letters j i hj' hi hj hs' he.symm

/-- No two entries have one long name. -/
theorem name_index (h : WellNamed go) {j : Nat} {g' : GetOpt} (hg : go[i]? = some g)
    (hg' : go[j]? = some g') (hname : g'.goName = g.goName) : j = i := by
  have hj : j < (go.map GetOpt.goName).length := by
    rw [List.length_map]
    exact (List.getElem?_eq_some_iff.mp hg').1
  refine (List.getElem?_inj hj h.names).mp ?_
  rw [List.getElem?_map, List.getElem?_map, hg, hg', Option.map_some, Option.map_some, hname]

/-- A name that has an `=` behind it, or nothing, is the whole text before that. -/
theorem name_eq {name name' value : Str} (hn : '=' ∉ name) (hn' : '=' ∉ name')
    (hp : name' <+: name ++ value) (hv : ∀ c ∈ value.head?, c = '=')
    (hnext : (name ++ value)[name'.length]? = some '=' ∨ (name ++ value)[name'.length]? = none) :
    name' = name := by
  rcases List.prefix_or_prefix_of_prefix hp (List.prefix_append name value) with ⟨t, rfl⟩ | ⟨t, rfl⟩
  · cases t with
    | nil => rw [List.append_nil]
    | cons c t =>
      have hc : (name' ++ c :: t ++ value)[name'.length]? = some c := by
        rw [List.append_assoc, List.getElem?_append_right (Nat.le_refl _), Nat.sub_self]
        rfl
      rw [hc] at hnext
      rcases hnext with he | he
      · have hmem : '=' ∈ name' ++ c :: t := by simp [Option.some.inj he]
        exact absurd hmem hn
      · cases he
  · cases t with
    | nil => rw [List.append_nil]
    | cons c t =>
      obtain ⟨u, hu⟩ := (List.prefix_append_right_inj name).mp hp
      have hc : c = '=' := hv c (by rw [← hu]; rfl)
      have hmem : '=' ∈ name ++ c :: t := by simp [hc]
      exact absurd hmem hn'

/-- The entry of a long name, with an argument or without. -/
theorem longIndex_eq (h : WellNamed go) (hg : go[i]? = some g) {value : Str}
    (hv : ∀ c ∈ value.head?, c = '=') : longIndex go (g.goName ++ value) = some i := by
  have hmem := List.mem_of_getElem? hg
  refine findIdx_only hg ?_ ?_
  · have hnext : (g.goName ++ value)[g.goName.length]? = value.head? := by
      rw [List.getElem?_append_right (Nat.le_refl _), Nat.sub_self, List.head?_eq_getElem?]
    have hend : value.head? = some '=' ∨ value.head? = none := by
      cases value with
      | nil => exact .inr rfl
      | cons c value => exact .inl (congrArg some (hv c rfl))
    rw [hnext]
    simpa using hend
  · intro j g' hg' hj hp
    obtain ⟨hpre, hnext⟩ : g'.goName <+: g.goName ++ value ∧
        ((g.goName ++ value)[g'.goName.length]? = some '=' ∨
          (g.goName ++ value)[g'.goName.length]? = none) := by
      simpa only [decide_eq_true_eq, List.isPrefixOf_iff_prefix] using hp
    have hname :=
      name_eq (h.noEquals g hmem) (h.noEquals g' (List.mem_of_getElem? hg')) hpre hv hnext
    have hij := name_index h hg hg' hname
    omega

end LookUp

/-! ## One call -/

/-- `get_opt_argv` is at the strings `args`: before them, or in the string before them, of which
the text is left. -/
structure ReadsAt (go : List GetOpt) (gos : GetOptState) (mid : Option Str) (args : List Str) :
    Prop where
  table : gos.gosGo = go
  type : gos.gosType = .argv
  errno : gos.gosErrno = .ok
  argc : gos.gosArgc = args.length + 1
  before : mid = none → gos.gosOptind = 0 ∧ ∃ cur, gos.gosArgv = cur :: args
  inside : ∀ text, mid = some text →
    ∃ pre, pre ≠ [] ∧ gos.gosOptind = pre.length ∧ gos.gosArgv = (pre ++ text) :: args

namespace ReadsAt

variable {go : List GetOpt} {gos : GetOptState} {args : List Str} {i : Nat} {g : GetOpt}
  {value text : Str}

theorem wantArg_eq (hg : go[i]? = some g) : wantArg go i = some g.goWantArg := by
  rw [wantArg, if_neg (by omega), Int.toNat_natCast, hg]
  rfl

/-- A long option. -/
theorem long_call (h : ReadsAt go gos none (('-' :: '-' :: (g.goName ++ value)) :: args))
    (hgo : WellNamed go) (hg : go[i]? = some g) (hv : ∀ c ∈ value.head?, c = '=') :
    ∃ gos', tgetopt gos = longOpt gos' (g.goName ++ value) i ∧ gos'.gosOptind = 0 ∧
      ReadsAt go gos' none args := by
  obtain ⟨hoptind, cur, hargv⟩ := h.before rfl
  have hne : '-' :: '-' :: (g.goName ++ value) ≠ ['-', '-'] := by
    have := hgo.nonempty g (List.mem_of_getElem? hg)
    simp [this]
  have hargc : ¬gos.gosArgc - 1 = 0 := by
    have := h.argc
    rw [List.length_cons] at this
    omega
  have htake : ('-' :: '-' :: (g.goName ++ value)).take 2 = ['-', '-'] := rfl
  have hdrop : ('-' :: '-' :: (g.goName ++ value)).drop 2 = g.goName ++ value := rfl
  refine ⟨{ gos with gosLastLong := true, gosArgc := gos.gosArgc - 1, gosArgv :=
    ('-' :: '-' :: (g.goName ++ value)) :: args }, ?_, hoptind, ?_⟩
  · simp only [tgetopt, h.type, getOptArgv, h.errno, ne_eq, not_true_eq_false, if_false, hoptind,
      hargv, if_neg hargc, if_neg hne, htake, if_true, hdrop, h.table, longIndex_eq hgo hg hv]
  · exact {
      table := h.table
      type := h.type
      errno := h.errno
      argc := by
        have := h.argc
        rw [List.length_cons] at this
        show gos.gosArgc - 1 = _
        omega
      before := fun _ => ⟨hoptind, _, rfl⟩
      inside := fun _ he => by cases he }

/-- What a call returns is recorded, and nothing else changes. -/
theorem returned {mid : Option Str} (h : ReadsAt go gos mid args) (i : Nat) (arg : Option Str) :
    ReadsAt go (argvReturn gos i arg).2 mid args where
  table := h.table
  type := h.type
  errno := h.errno
  argc := h.argc
  before := h.before
  inside := h.inside

/-- A string that begins with a dash. -/
theorem dash_call (h : ReadsAt go gos none (('-' :: text) :: args)) {c : Char}
    (hc : text.head? = some c) (hdash : c ≠ '-') :
    ∃ gos', tgetopt gos = tgetopt gos' ∧ ReadsAt go gos' (some text) args := by
  obtain ⟨hoptind, cur, hargv⟩ := h.before rfl
  cases text with
  | nil => cases hc
  | cons d text =>
    obtain rfl : d = c := Option.some.inj hc
    have hne : ¬(('-' :: d :: text) = ['-', '-']) := by simp [hdash]
    have htake : ¬(('-' :: d :: text).take 2 = ['-', '-']) := by simp [hdash]
    have hlong : ('-' :: d :: text).headD nul = '-' ∧ ('-' :: d :: text).length > 1 := by simp
    have hargc := h.argc
    rw [List.length_cons] at hargc
    have hmore : ¬gos.gosArgc - 1 = 0 := by omega
    refine ⟨{ gos with
      gosLastLong := true, gosArgc := gos.gosArgc - 1, gosArgv := ('-' :: d :: text) :: args,
      gosOptind := 1 }, ?_, ?_⟩
    · simp only [tgetopt, h.type, getOptArgv, h.errno, ne_eq, not_true_eq_false, if_false, hoptind,
        hargv, if_neg hmore, if_neg hne, if_neg htake, otherArg, if_pos hlong,
        Nat.one_ne_zero, not_false_eq_true, if_true]
    · exact {
        table := h.table
        type := h.type
        errno := h.errno
        argc := by
          show gos.gosArgc - 1 = _
          omega
        before := fun he => by cases he
        inside := by
          rintro _ ⟨⟩
          exact ⟨['-'], by simp, rfl, rfl⟩ }

end ReadsAt

/-- What a call gives at the letter of an entry, with a text behind it. -/
def letterCase (gos : GetOptState) (i : Nat) (g : GetOpt) (text : Str) :
    Option (OptCall × GetOptState) :=
  if g.goWantArg = .noArg then
    some (argvReturn { gos with
      gosLastLong := false
      gosOptind := if text.headD nul = nul then 0 else gos.gosOptind + 1 } i none)
  else if text.headD nul ≠ nul then
    some (argvReturn { gos with gosLastLong := false, gosOptind := 0 } i (some text))
  else do
    let value ← nextArg gos
    if value.headD nul ≠ '-' then
      return argvReturn { gos with
        gosLastLong := false
        gosArgc := gos.gosArgc - 1
        gosArgv := gos.gosArgv.tail
        gosOptind := 0 } i (some value)
    else if g.goWantArg = .reqArg then
      return argvError { gos with gosLastLong := false } i none .argReq
    else return argvReturn { gos with gosLastLong := false, gosOptind := 0 } i none

/-- A letter that is none of the marks is an option, with what follows it in the argument. -/
theorem shortOpt_letter {go : List GetOpt} {gos : GetOptState} {i : Nat} {g : GetOpt}
    {pre text : Str} (hgo : WellNamed go) (htable : gos.gosGo = go) (hg : go[i]? = some g)
    (hs : g.goSname ≠ '?') (hoptind : gos.gosOptind = pre.length) :
    shortOpt gos (pre ++ g.goSname :: text) = letterCase gos i g text := by
  have hch : (pre ++ g.goSname :: text ++ [nul])[pre.length]? = some g.goSname := by
    rw [List.append_assoc, List.getElem?_append_right (Nat.le_refl _), Nat.sub_self]
    rfl
  have hnext : (pre ++ g.goSname :: text ++ [nul])[pre.length + 1]? = some (text.headD nul) := by
    rw [List.append_assoc, List.getElem?_append_right (Nat.le_add_right _ 1),
      Nat.add_sub_cancel_left]
    cases text <;> rfl
  have hdrop : (pre ++ g.goSname :: text).drop (pre.length + 1) = text := by
    rw [List.drop_append, List.drop_eq_nil_of_le (Nat.le_add_right _ 1), Nat.add_sub_cancel_left]
    rfl
  simp only [shortOpt, letterCase, hoptind, hch, htable, shortIndex_eq hgo hg hs,
    ReadsAt.wantArg_eq hg, hnext, hdrop, Option.bind_eq_bind, Option.bind_some]
  rfl

/-- What a call returns for an option. -/
def optCall (x : Nat × Option Str) : OptCall := { ret := 0, option := some x.1, arg := some x.2 }

namespace ReadsAt

variable {go : List GetOpt} {gos : GetOptState} {args : List Str} {i : Nat} {g : GetOpt}
  {value text : Str}

/-- In the middle of a string. -/
theorem short_call (h : ReadsAt go gos (some (g.goSname :: text)) args) (hgo : WellNamed go)
    (hg : go[i]? = some g) (hs : g.goSname ≠ '?') :
    ∃ pre, gos.gosOptind = pre.length ∧ gos.gosArgv = (pre ++ g.goSname :: text) :: args ∧
      tgetopt gos = letterCase gos i g text := by
  obtain ⟨pre, hpre, hoptind, hargv⟩ := h.inside _ rfl
  have hne : gos.gosOptind ≠ 0 := by
    rw [hoptind]
    exact fun he => hpre (List.eq_nil_of_length_eq_zero he)
  refine ⟨pre, hoptind, hargv, ?_⟩
  have hcall : tgetopt gos =
      shortOpt { gos with gosLastLong := true } (pre ++ g.goSname :: text) := by
    simp only [tgetopt, h.type, getOptArgv, h.errno, ne_eq, not_true_eq_false, if_false, hargv,
      if_pos hne]
  rw [hcall]
  exact shortOpt_letter hgo h.table hg hs hoptind

theorem hnil : ¬([] : Str).headD nul ≠ nul := not_not_intro rfl

/-- The string is read. -/
theorem leave {mid : Option Str} (h : ReadsAt go gos mid args) {cur : Str}
    (hargv : gos.gosArgv = cur :: args) :
    ReadsAt go { gos with gosLastLong := false, gosOptind := 0 } none args where
  table := h.table
  type := h.type
  errno := h.errno
  argc := h.argc
  before := fun _ => ⟨rfl, cur, hargv⟩
  inside := fun _ he => by cases he

/-- A flag that ends its argument. -/
theorem flag_call (h : ReadsAt go gos (some [g.goSname]) args) (hgo : WellNamed go)
    (hg : go[i]? = some g) (hs : g.goSname ≠ '?') (hw : g.goWantArg = .noArg) :
    ∃ gos', tgetopt gos = some (optCall (i, none), gos') ∧ ReadsAt go gos' none args := by
  obtain ⟨pre, hoptind, hargv, hcall⟩ := h.short_call hgo hg hs
  refine ⟨_, ?_, (h.leave hargv).returned i none⟩
  rw [hcall, letterCase, if_pos hw]
  rfl

/-- A flag with other letters behind it in one argument. -/
theorem flags_call (h : ReadsAt go gos (some (g.goSname :: text)) args) (hgo : WellNamed go)
    (hg : go[i]? = some g) (hs : g.goSname ≠ '?') (hw : g.goWantArg = .noArg) {c : Char}
    (hc : text.head? = some c) (hnul : c ≠ nul) :
    ∃ gos', tgetopt gos = some (optCall (i, none), gos') ∧ ReadsAt go gos' (some text) args := by
  obtain ⟨pre, hoptind, hargv, hcall⟩ := h.short_call hgo hg hs
  have hhead : ¬text.headD nul = nul := by
    rw [List.headD_eq_head?_getD, hc]
    exact hnul
  refine ⟨(argvReturn { gos with gosLastLong := false, gosOptind := gos.gosOptind + 1 } i none).2,
    ?_, ReadsAt.returned ?_ i none⟩
  · rw [hcall, letterCase, if_pos hw]
    simp only [if_neg hhead]
    rfl
  · exact {
      table := h.table
      type := h.type
      errno := h.errno
      argc := h.argc
      before := fun he => by cases he
      inside := by
        rintro _ ⟨⟩
        refine ⟨pre ++ [g.goSname], by simp, ?_, ?_⟩
        · rw [List.length_append, ← hoptind]
          rfl
        · rw [List.append_assoc]
          exact hargv }

/-- A letter with its value behind it. -/
theorem attached_call (h : ReadsAt go gos (some (g.goSname :: value)) args) (hgo : WellNamed go)
    (hg : go[i]? = some g) (hs : g.goSname ≠ '?') (hw : g.goWantArg ≠ .noArg) {c : Char}
    (hc : value.head? = some c) (hnul : c ≠ nul) :
    ∃ gos', tgetopt gos = some (optCall (i, some value), gos') ∧ ReadsAt go gos' none args := by
  obtain ⟨pre, hoptind, hargv, hcall⟩ := h.short_call hgo hg hs
  have hhead : value.headD nul ≠ nul := by
    rw [List.headD_eq_head?_getD, hc]
    exact hnul
  refine ⟨_, ?_, (h.leave hargv).returned i (some value)⟩
  rw [hcall, letterCase, if_neg hw, if_pos hhead]
  rfl

/-- A letter with its value in the next argument. -/
theorem apart_call (h : ReadsAt go gos (some [g.goSname]) (value :: args)) (hgo : WellNamed go)
    (hg : go[i]? = some g) (hs : g.goSname ≠ '?') (hw : g.goWantArg ≠ .noArg)
    (hv : value.head? ≠ some '-') :
    ∃ gos', tgetopt gos = some (optCall (i, some value), gos') ∧ ReadsAt go gos' none args := by
  obtain ⟨pre, hoptind, hargv, hcall⟩ := h.short_call hgo hg hs
  have hargc := h.argc
  rw [List.length_cons] at hargc
  have hmore : gos.gosArgc > 1 := by omega
  have hhead : value.headD nul ≠ '-' := by
    cases value with
    | nil => decide
    | cons c value => exact fun he => hv (congrArg some he)
  refine ⟨(argvReturn { gos with
    gosLastLong := false, gosArgc := gos.gosArgc - 1, gosArgv := value :: args, gosOptind := 0 }
      i (some value)).2, ?_, ReadsAt.returned ?_ i (some value)⟩
  · have hnext : nextArg gos = some value := by
      rw [nextArg, if_pos hmore, hargv]
      rfl
    rw [hcall, letterCase, if_neg hw, if_neg hnil]
    simp only [hnext, hargv, Option.bind_eq_bind, Option.bind_some, if_pos hhead, List.tail_cons]
    rfl
  · exact {
      table := h.table
      type := h.type
      errno := h.errno
      argc := by
        show gos.gosArgc - 1 = _
        omega
      before := fun _ => ⟨rfl, value, rfl⟩
      inside := fun _ he => by cases he }

/-- A letter whose value may be left out, and is. -/
theorem bare_call (h : ReadsAt go gos (some [g.goSname]) args) (hgo : WellNamed go)
    (hg : go[i]? = some g) (hs : g.goSname ≠ '?') (hw : g.goWantArg = .optArg)
    (hv : ∀ arg ∈ args.head?, arg.head? = some '-') :
    ∃ gos', tgetopt gos = some (optCall (i, none), gos') ∧ ReadsAt go gos' none args := by
  obtain ⟨pre, hoptind, hargv, hcall⟩ := h.short_call hgo hg hs
  have hno : g.goWantArg ≠ .noArg := by simp [hw]
  have hreq : ¬g.goWantArg = .reqArg := by simp [hw]
  have hnext : ∃ value, nextArg gos = some value ∧ ¬value.headD nul ≠ '-' := by
    have hargc := h.argc
    cases args with
    | nil => exact ⟨['-'], if_neg (by rw [List.length_nil] at hargc; omega), by decide⟩
    | cons value args =>
      refine ⟨value, ?_, ?_⟩
      · rw [nextArg, if_pos (by rw [List.length_cons] at hargc; omega), hargv]
        rfl
      · rw [List.headD_eq_head?_getD, hv value rfl]
        exact not_not_intro rfl
  obtain ⟨value, hvalue, hdash⟩ := hnext
  refine ⟨_, ?_, (h.leave hargv).returned i none⟩
  rw [hcall, letterCase, if_neg hno, if_neg hnil]
  simp only [hvalue, Option.bind_eq_bind, Option.bind_some, if_neg hdash, if_neg hreq]
  rfl

/-- A long name with its value behind an equals sign. -/
theorem longArg_call
    (h : ReadsAt go gos none (('-' :: '-' :: (g.goName ++ '=' :: value)) :: args))
    (hgo : WellNamed go) (hg : go[i]? = some g) (hw : g.goWantArg ≠ .noArg) :
    ∃ gos', tgetopt gos = some (optCall (i, some value), gos') ∧ ReadsAt go gos' none args := by
  obtain ⟨gos', hcall, -, h'⟩ := h.long_call hgo hg (by rintro c ⟨⟩; rfl)
  have hnext : (g.goName ++ '=' :: value)[g.goName.length]? = some '=' := by
    rw [List.getElem?_append_right (Nat.le_refl _), Nat.sub_self]
    rfl
  have hdrop : (g.goName ++ '=' :: value).drop (g.goName.length + 1) = value := by
    rw [List.drop_append, List.drop_eq_nil_of_le (Nat.le_add_right _ 1), Nat.add_sub_cancel_left]
    rfl
  refine ⟨_, ?_, h'.returned i (some value)⟩
  rw [hcall]
  simp only [longOpt, h'.table, hg, Option.bind_eq_bind, Option.bind_some, hnext, if_true,
    if_neg hw, hdrop]
  rfl

/-- A long name without a value. -/
theorem long_call_none (h : ReadsAt go gos none (('-' :: '-' :: g.goName) :: args))
    (hgo : WellNamed go) (hg : go[i]? = some g) (hw : g.goWantArg ≠ .reqArg) :
    ∃ gos', tgetopt gos = some (optCall (i, none), gos') ∧ ReadsAt go gos' none args := by
  have h : ReadsAt go gos none (('-' :: '-' :: (g.goName ++ [])) :: args) := by
    rwa [List.append_nil]
  obtain ⟨gos', hcall, -, h'⟩ := h.long_call hgo hg (by simp)
  have hnext : ¬(g.goName ++ [])[g.goName.length]? = some '=' := by simp
  refine ⟨_, ?_, h'.returned i none⟩
  rw [hcall]
  simp only [longOpt, h'.table, hg, Option.bind_eq_bind, Option.bind_some, if_neg hnext, if_neg hw]
  rfl

/-- Behind the last string. -/
theorem end_call (h : ReadsAt go gos none []) :
    ∃ gos', tgetopt gos = some (.failed, gos') ∧ gos'.gosErrno = .endOfOptions := by
  obtain ⟨hoptind, cur, hargv⟩ := h.before rfl
  have hargc : gos.gosArgc - 1 = 0 := by
    rw [h.argc, List.length_nil]
    rfl
  refine ⟨{ gos with
    gosLastLong := true, gosArgc := gos.gosArgc - 1, gosArgv := [], gosErrno := .endOfOptions },
    ?_, rfl⟩
  simp only [tgetopt, h.type, getOptArgv, h.errno, ne_eq, not_true_eq_false, if_false,
    hoptind, hargv,
    if_pos hargc]

end ReadsAt

/-! ## Runs -/

variable {go : List GetOpt} {opts : List (Nat × Option Str)} {mid : Option Str} {args : List Str}

/-- One call, and then the rest. -/
theorem tgetopts_cons {n : Nat} {gos gos' : GetOptState} {call : OptCall}
    (h : tgetopt gos = some (call, gos')) :
    tgetopts (n + 1) gos =
      (tgetopts n gos').map fun r => ((call, gos'.gosErrno) :: r.1, r.2) := by
  simp only [tgetopts, h, Option.bind_eq_bind, Option.bind_some]
  cases tgetopts n gos' <;> rfl

/-- Calls that follow one another. -/
theorem tgetopts_add {m n : Nat} {gos gos' gos'' : GetOptState}
    {calls calls' : List (OptCall × GosErrno)} (h : tgetopts m gos = some (calls, gos'))
    (h' : tgetopts n gos' = some (calls', gos'')) :
    tgetopts (m + n) gos = some (calls ++ calls', gos'') := by
  induction m generalizing gos calls with
  | zero =>
    cases h
    rw [Nat.zero_add]
    exact h'
  | succ m ih =>
    obtain ⟨⟨call, gos₁⟩, hcall, h⟩ := Option.bind_eq_some_iff.mp h
    obtain ⟨⟨rest, last⟩, hrest, h⟩ := Option.bind_eq_some_iff.mp h
    cases h
    rw [Nat.add_right_comm, tgetopts_cons hcall, ih hrest]
    rfl

/-- The rest of a string begins with a letter of the table. -/
theorem Encoded.letter {text : Str} (h : Encoded go opts (some text) args) :
    opts ≠ [] ∧ ∃ g ∈ go, text.head? = some g.goSname := by
  cases h with
  | flag hg _ _ _ => exact ⟨by simp, _, List.mem_of_getElem? hg, rfl⟩
  | flags hg _ _ _ => exact ⟨by simp, _, List.mem_of_getElem? hg, rfl⟩
  | attached hg _ _ _ _ => exact ⟨by simp, _, List.mem_of_getElem? hg, rfl⟩
  | apart hg _ _ _ _ => exact ⟨by simp, _, List.mem_of_getElem? hg, rfl⟩
  | bare hg _ _ _ _ => exact ⟨by simp, _, List.mem_of_getElem? hg, rfl⟩

/-- The options are read one by one. -/
theorem Encoded.calls (henc : Encoded go opts mid args) (hgo : WellNamed go)
    (hmid : ∀ text ∈ mid, nul ∉ text) (hargs : ∀ arg ∈ args, nul ∉ arg) {gos : GetOptState}
    (h : ReadsAt go gos mid args) :
    ∃ gos', tgetopts opts.length gos = some (opts.map fun x => (optCall x, .ok), gos') ∧
      ReadsAt go gos' none [] := by
  have hcons : ∀ {x opts gos gos₁}, tgetopt gos = some (optCall x, gos₁) →
      gos₁.gosErrno = .ok →
      (∃ gos', tgetopts opts.length gos₁ = some (opts.map fun x => (optCall x, .ok), gos') ∧
        ReadsAt go gos' none []) →
      ∃ gos', tgetopts (x :: opts).length gos =
        some ((x :: opts).map fun x => (optCall x, .ok), gos') ∧ ReadsAt go gos' none [] := by
    rintro x opts gos gos₁ hcall herr ⟨gos', hrest, hend⟩
    refine ⟨gos', ?_, hend⟩
    rw [List.length_cons, tgetopts_cons hcall, hrest, herr]
    rfl
  -- every form of an option is read by one call, but for a dash, which only begins an argument
  induction henc generalizing gos with
  | done => exact ⟨gos, rfl, h⟩
  | longArg value hg hw _ ih =>
    obtain ⟨gos₁, hcall, h₁⟩ := h.longArg_call hgo hg hw
    exact hcons hcall h₁.errno
      (ih (by simp) (fun arg ha => hargs arg (List.mem_cons_of_mem _ ha)) h₁)
  | long hg hw _ ih =>
    obtain ⟨gos₁, hcall, h₁⟩ := h.long_call_none hgo hg hw
    exact hcons hcall h₁.errno
      (ih (by simp) (fun arg ha => hargs arg (List.mem_cons_of_mem _ ha)) h₁)
  | @dash opts text args henc ih =>
    obtain ⟨hopts, g, hg, hhead⟩ := henc.letter
    obtain ⟨gos₁, hcall, h₁⟩ := h.dash_call hhead (hgo.noDash g hg)
    have htext : ∀ t ∈ some text, nul ∉ t := by
      rintro t ⟨⟩ hm
      exact hargs _ (List.mem_cons_self ..) (List.mem_cons_of_mem _ hm)
    obtain ⟨gos', hrest, hend⟩ := ih htext (fun arg ha => hargs arg (List.mem_cons_of_mem _ ha)) h₁
    refine ⟨gos', ?_, hend⟩
    obtain ⟨x, opts, rfl⟩ := List.exists_cons_of_ne_nil hopts
    rw [← hrest]
    simp only [List.length_cons, tgetopts, hcall]
  | flag hg hs hw _ ih =>
    obtain ⟨gos₁, hcall, h₁⟩ := h.flag_call hgo hg hs hw
    exact hcons hcall h₁.errno (ih (by simp) hargs h₁)
  | @flags i g opts text args hg hs hw henc ih =>
    obtain ⟨-, g', -, hhead⟩ := henc.letter
    have htext : ∀ t ∈ some text, nul ∉ t := by
      rintro t ⟨⟩ hm
      exact hmid _ rfl (List.mem_cons_of_mem _ hm)
    have hnul : g'.goSname ≠ nul := fun he => htext text rfl (he ▸ List.mem_of_mem_head? hhead)
    obtain ⟨gos₁, hcall, h₁⟩ := h.flags_call hgo hg hs hw hhead hnul
    exact hcons hcall h₁.errno (ih htext hargs h₁)
  | @attached i g opts value args hg hs hw hne _ ih =>
    obtain ⟨c, value, rfl⟩ := List.exists_cons_of_ne_nil hne
    have hnul : c ≠ nul := by
      rintro rfl
      exact hmid _ rfl (List.mem_cons_of_mem _ (List.mem_cons_self ..))
    obtain ⟨gos₁, hcall, h₁⟩ := h.attached_call hgo hg hs hw rfl hnul
    exact hcons hcall h₁.errno (ih (by simp) hargs h₁)
  | apart hg hs hw hv _ ih =>
    obtain ⟨gos₁, hcall, h₁⟩ := h.apart_call hgo hg hs hw hv
    exact hcons hcall h₁.errno
      (ih (by simp) (fun arg ha => hargs arg (List.mem_cons_of_mem _ ha)) h₁)
  | bare hg hs hw hv _ ih =>
    obtain ⟨gos₁, hcall, h₁⟩ := h.bare_call hgo hg hs hw hv
    exact hcons hcall h₁.errno (ih (by simp) hargs h₁)

/-- The calls give back the options that are written, and then the end of options. -/
theorem tgetopt_encoded (hgo : WellNamed go) (henc : Encoded go opts none args)
    (hargs : ∀ arg ∈ args, nul ∉ arg) (prog : Str) :
    ∃ gos', tgetopts (opts.length + 1) (tgetoptArgvInit (args.length + 1) (prog :: args) go) =
      some (opts.map (fun x => (optCall x, .ok)) ++ [(.failed, .endOfOptions)], gos') := by
  have h : ReadsAt go (tgetoptArgvInit (args.length + 1) (prog :: args) go) none args :=
    { table := rfl
      type := rfl
      errno := rfl
      argc := rfl
      before := fun _ => ⟨rfl, prog, rfl⟩
      inside := fun _ he => by cases he }
  obtain ⟨gos, hcalls, hend⟩ := henc.calls hgo (by simp) hargs h
  obtain ⟨gos', hcall, herr⟩ := hend.end_call
  refine ⟨gos', tgetopts_add hcalls ?_⟩
  rw [tgetopts_cons hcall, herr]
  rfl

/-- The table of the program is such a table. -/
theorem goTable_wellNamed : WellNamed goTable where
  nonempty := by decide +kernel
  noEquals := by decide +kernel
  names := by decide +kernel
  letters := by decide +kernel
  noDash := by decide +kernel

/-- A section, a host, the version and help are asked for: `-sa -h b -v --help`. -/
theorem tgetopt_encoded_words :
    ∃ gos', tgetopts 5 (tgetoptArgvInit 6
        [[], ['-', 's', 'a'], ['-', 'h'], ['b'], ['-', 'v'], ['-', '-', 'h', 'e', 'l', 'p']]
        goTable) =
      some ([(1, some ['a']), (6, some ['b']), (7, none), (26, none)].map
        (fun x => (optCall x, .ok)) ++
        [(.failed, .endOfOptions)], gos') := by
  have hhelp : Encoded goTable [(26, none)] none [['-', '-', 'h', 'e', 'l', 'p']] :=
    .long (g := ⟨['h', 'e', 'l', 'p'], '?', .noArg⟩) rfl (by decide) .done
  have hversion : Encoded goTable [(7, none), (26, none)] none
      [['-', 'v'], ['-', '-', 'h', 'e', 'l', 'p']] :=
    .dash (.bare (g := ⟨['v', 'e', 'r', 's', 'i', 'o', 'n'], 'v', .optArg⟩) rfl (by decide) rfl
      (by rintro arg ⟨⟩; rfl) hhelp)
  have hhost : Encoded goTable [(6, some ['b']), (7, none), (26, none)] none
      [['-', 'h'], ['b'], ['-', 'v'], ['-', '-', 'h', 'e', 'l', 'p']] :=
    .dash (.apart (g := ⟨['h', 'o', 's', 't'], 'h', .reqArg⟩) rfl (by decide) (by decide)
      (by decide) hversion)
  have hsection : Encoded goTable [(1, some ['a']), (6, some ['b']), (7, none), (26, none)] none
      [['-', 's', 'a'], ['-', 'h'], ['b'], ['-', 'v'], ['-', '-', 'h', 'e', 'l', 'p']] :=
    .dash (.attached (g := ⟨['s', 'e', 'c', 't', 'i', 'o', 'n'], 's', .reqArg⟩) rfl (by decide)
      (by decide) (by decide) hhost)
  exact tgetopt_encoded goTable_wellNamed hsection (by decide) []

end Spegla
