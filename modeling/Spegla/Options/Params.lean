import Spegla.Lib.Fields
import Spegla.Options.GetOpt

/-!
# The arguments of options (`spegla.c`, `set_param_num` and `set_param_url`)

- `setParamNum`: a number between two bounds. `setParamNum_right`: what it accepts is such a number
  exactly where the text is not empty and the value is not changed by the conversion to `int`.
- `setParamUrl`: the parts of a URL, as `UrlParams`. `FtpUrl`: a URL of the documented form.
- `setParamUrl_right`: it stores the parts of such a URL exactly where the slash behind the host is
  there and no `@` of the path can be taken for the end of a user.

The warning about a parameter that is set again is left out.
-/

namespace Spegla

open CString

/-! ## Numbers -/

/-- `INT_MAX`, where an `int` has 32 bits. -/
def INT_MAX : Int := 2 ^ 31 - 1

/-- Why the program quits: an argument of the option with this index; a URL of another type, or one
that ends too early. -/
inductive ParamError where
  | invalid (option : Nat) (arg : Str)
  | notFtp
  | shortUrl (arg : Str)
deriving DecidableEq, Repr

/-- `set_param_num`: what is stored. -/
def setParamNum (option : Nat) (arg : Str) (minVal maxVal : Int) : Except ParamError Int :=
  let tmp := toInt (strtol arg).1
  if (strtol arg).2 ≠ [] ∨ tmp > maxVal ∨ tmp < minVal then .error (.invalid option arg)
  else .ok tmp

/-- A number is taken exactly if all of the text is one and it lies within the bounds as an `int`.
-/
theorem setParamNum_ok {option : Nat} {arg : Str} {minVal maxVal v : Int} :
    setParamNum option arg minVal maxVal = .ok v ↔
      (strtol arg).2 = [] ∧ toInt (strtol arg).1 = v ∧ minVal ≤ v ∧ v ≤ maxVal := by
  rw [setParamNum]
  constructor
  · intro h
    split at h
    case isTrue => cases h
    case isFalse hno =>
      cases h
      rw [not_or, not_or, not_not, Int.not_lt, Int.not_lt] at hno
      exact ⟨hno.1, rfl, hno.2.2, hno.2.1⟩
  · rintro ⟨hend, rfl, hmin, hmax⟩
    rw [if_neg]
    rw [not_or, not_or, not_not, Int.not_lt, Int.not_lt]
    exact ⟨hend, hmax, hmin⟩

/-- `strtol` reads a text to its end if it is a numeral, or empty. -/
theorem strtol_end {arg : Str} : (strtol arg).2 = [] ↔
    (arg = [] ∧ strtol arg = (0, [])) ∨
      ∃ v, numeral arg = some (v, []) ∧ strtol arg = (clampLong v, []) := by
  cases hnum : numeral arg with
  | none =>
    have htol : strtol arg = (0, arg) := by rw [strtol, hnum]
    rw [htol]
    constructor
    · rintro rfl
      exact .inl ⟨rfl, rfl⟩
    · rintro (⟨rfl, -⟩ | ⟨v, hv, -⟩)
      · rfl
      · cases hv
  | some r =>
    obtain ⟨v, rest⟩ := r
    have htol : strtol arg = (clampLong v, rest) := by rw [strtol, hnum]
    rw [htol]
    constructor
    · rintro rfl
      exact .inr ⟨v, rfl, rfl⟩
    · rintro (⟨rfl, -⟩ | ⟨w, hw, -⟩)
      · have hnil : numeral [] = none := rfl
        exact nomatch hnil.symm.trans hnum
      · cases hw
        rfl

/-- The value is one of an `int`. -/
def IsInt (v : Int) : Prop := -2 ^ 31 ≤ v ∧ v ≤ INT_MAX

instance (v : Int) : Decidable (IsInt v) := inferInstanceAs (Decidable (_ ∧ _))

/-- A `long` is an `int` exactly if it is in its range. -/
theorem toInt_eq_self_iff {v : Int} : toInt (clampLong v) = v ↔ IsInt v := by
  unfold toInt clampLong IsInt INT_MAX
  constructor
  · intro h
    have hlo := Int.le_bmod (x := max (-2 ^ 63) (min (2 ^ 63 - 1) v)) (m := 2 ^ 32) (by decide)
    have hhi := Int.bmod_lt (x := max (-2 ^ 63) (min (2 ^ 63 - 1) v)) (m := 2 ^ 32) (by decide)
    rw [h] at hlo hhi
    omega
  · intro h
    have hclamp : max (-2 ^ 63) (min (2 ^ 63 - 1) v) = v := by omega
    rw [hclamp]
    exact Int.bmod_eq_of_le (by omega) (by omega)

/-- The text is not empty, unless 0 is out of bounds; and the value of a numeral is one of an `int`,
unless the one that is stored in its place is out of bounds. -/
def KeepsValue (arg : Str) (minVal maxVal : Int) : Prop :=
  (arg = [] → ¬(minVal ≤ 0 ∧ 0 ≤ maxVal)) ∧
  ∀ v, numeral arg = some (v, []) →
    IsInt v ∨ ¬(minVal ≤ toInt (clampLong v) ∧ toInt (clampLong v) ≤ maxVal)

/-- **Numbers.** What `set_param_num` accepts is a numeral between the bounds, which it stores,
exactly where the value is kept. -/
theorem setParamNum_right (option : Nat) (arg : Str) (minVal maxVal : Int) :
    (∀ v, setParamNum option arg minVal maxVal = .ok v →
      numeral arg = some (v, []) ∧ minVal ≤ v ∧ v ≤ maxVal) ↔ KeepsValue arg minVal maxVal := by
  constructor
  · intro h
    constructor
    · rintro rfl hzero
      have hok := h 0 (setParamNum_ok.mpr ⟨rfl, rfl, hzero⟩)
      cases hok.1
    · intro v hv
      by_contra hno
      rw [not_or, not_not] at hno
      have htol : strtol arg = (clampLong v, []) := by rw [strtol, hv]
      have hok := h _ (setParamNum_ok.mpr ⟨by rw [htol], by rw [htol], hno.2⟩)
      have hsame : v = toInt (clampLong v) :=
        congrArg Prod.fst (Option.some.inj (hv.symm.trans hok.1))
      exact hno.1 (toInt_eq_self_iff.mp hsame.symm)
  · intro h v hok
    obtain ⟨hend, hv, hbounds⟩ := setParamNum_ok.mp hok
    obtain ⟨rfl, htol⟩ | ⟨w, hw, htol⟩ := strtol_end.mp hend
    · rw [htol] at hv
      obtain rfl : 0 = v := hv
      exact absurd hbounds (h.1 rfl)
    · rw [htol] at hv
      obtain rfl : toInt (clampLong w) = v := hv
      obtain hint | hout := h.2 w hw
      · rw [toInt_eq_self_iff.mpr hint] at hbounds ⊢
        exact ⟨hw, hbounds⟩
      · exact absurd hbounds hout

/-- The index of `maxdelete`. -/
def GO_MAXDELETE : Nat := 18

/-- A limit of 2³² is stored as 0. -/
theorem setParamNum_wraps :
    ¬∀ v, setParamNum GO_MAXDELETE ['4', '2', '9', '4', '9', '6', '7', '2', '9', '6'] 0 INT_MAX =
      .ok v → numeral ['4', '2', '9', '4', '9', '6', '7', '2', '9', '6'] = some (v, []) ∧
        0 ≤ v ∧ v ≤ INT_MAX := by
  intro h
  exact absurd (h 0 (by decide)).1 (by decide)

/-! ## URLs -/

/-- The index of `port`. -/
def GO_PORT : Nat := 16

/-- What `set_param_url` stores. -/
structure UrlParams where
  username : Option Str
  password : Option Str
  host : Option Str
  port : Option Int
  remotedir : Option Str
deriving DecidableEq, Repr

/-- `p = strchr(s, c)`, where the text before `p` is ended and the one behind it is looked at. -/
def strchrSplit (c : Char) (s : Str) : Option (Str × Str) :=
  if c ∈ s then some (s.takeWhile (· ≠ c), (s.dropWhile (· ≠ c)).tail) else none

/-- The user and the password, up to the first `@`, and what follows it. -/
def setUser (arg url : Str) (params : UrlParams) : Except ParamError (UrlParams × Str) :=
  match strchrSplit '@' url with
  | none => .ok (params, url)
  | some (puser, url) =>
    let (puser, params) :=
      match strchrSplit ':' puser with
      | none => (puser, params)
      | some (puser, ppass) => (puser, { params with password := some ppass })
    if url = [] then .error (.shortUrl arg)
    else .ok ({ params with username := some puser }, url)

/-- The host and the port. -/
def setHost (phost : Str) (params : UrlParams) : Except ParamError UrlParams := do
  match strchrSplit ':' phost with
  | none => return { params with host := some phost }
  | some (phost, pport) =>
    let port ← setParamNum GO_PORT pport 0 INT_MAX
    return { params with port := some port, host := some phost }

/-- The host and the port, up to the first `/`, and the path. -/
def setHostPath (arg url : Str) (params : UrlParams) : Except ParamError UrlParams :=
  match strchrSplit '/' url with
  | none => .error (.shortUrl arg)
  | some (phost, url) => do
    let params ← setHost phost params
    if url = [] then return params else return { params with remotedir := some ('/' :: url) }

/-- `set_param_url`. -/
def setParamUrl (arg : Str) (params : UrlParams) : Except ParamError UrlParams := do
  if ¬casePrefix ['f', 't', 'p', ':', '/', '/'] arg then throw .notFtp
  else
    let url := arg.drop 6
    if url = [] then throw (.shortUrl arg)
    else
      let (params, url) ← setUser arg url params
      setHostPath arg url params

/-- A URL of the documented form, in its parts. -/
structure FtpUrl where
  user : Option (Str × Option Str)
  host : Str
  port : Option Str
  path : Option Str
  userFree : ∀ u ∈ user, ':' ∉ u.1 ∧ '@' ∉ u.1 ∧ '/' ∉ u.1
  passwordFree : ∀ u ∈ user, ∀ p ∈ u.2, '@' ∉ p ∧ '/' ∉ p
  hostFree : ':' ∉ host ∧ '@' ∉ host ∧ '/' ∉ host
  portNumber : ∀ ds ∈ port, IsNumeral ds (digitsVal ds) ∧ digitsVal ds ≤ INT_MAX

namespace FtpUrl

/-- `user[:password]`. -/
def account : Str × Option Str → Str
  | (name, none) => name
  | (name, some password) => name ++ ':' :: password

/-- `[user[:password]@]`. -/
def userText : Option (Str × Option Str) → Str
  | none => []
  | some user => account user ++ ['@']

/-- `host[:port]`. -/
def hostText (u : FtpUrl) : Str :=
  match u.port with
  | none => u.host
  | some ds => u.host ++ ':' :: ds

def pathText : Option Str → Str
  | none => []
  | some path => '/' :: path

def rest (u : FtpUrl) : Str := userText u.user ++ (u.hostText ++ pathText u.path)

/-- `ftp://[user[:password]@]host[:port][/path]`. -/
def text (u : FtpUrl) : Str := ['f', 't', 'p', ':', '/', '/'] ++ u.rest

/-- The parameters with the parts that are there. -/
def stored (u : FtpUrl) (params : UrlParams) : UrlParams where
  username := (u.user.map Prod.fst).or params.username
  password := (u.user.bind Prod.snd).or params.password
  host := some u.host
  port := (u.port.map fun ds => (digitsVal ds : Int)).or params.port
  remotedir := ((u.path.filter (· ≠ [])).map ('/' :: ·)).or params.remotedir

end FtpUrl

/-- The text is split at the first such character. -/
theorem strchrSplit_append {c : Char} {w : Str} (hw : c ∉ w) (rest : Str) :
    strchrSplit c (w ++ c :: rest) = some (w, rest) := by
  obtain ⟨htake, hdrop⟩ := takeWhile_notMem hw rest
  rw [strchrSplit, if_pos (by simp), htake, hdrop]
  rfl

/-- Without such a character it is not split. -/
theorem strchrSplit_none {c : Char} {s : Str} (h : c ∉ s) : strchrSplit c s = none := if_neg h

/-- Nothing but digits is in a numeral. -/
theorem isNumeral_notMem {ds : Str} {n : Nat} (h : IsNumeral ds n) {c : Char}
    (hc : c.isDigit = false) : c ∉ ds := fun hmem => isDigit_ne (h.isDigit c hmem) hc rfl

namespace FtpUrl

variable (u : FtpUrl) (arg : Str) (params : UrlParams)

/-- No mark that is not in the host is in the host and the port, except the colon between them. -/
theorem notMem_hostText {c : Char} (hhost : c ∉ u.host) (hcolon : c ≠ ':')
    (hdigit : c.isDigit = false) : c ∉ u.hostText := by
  unfold hostText
  split
  · exact hhost
  · next ds hds =>
    rw [List.mem_append, List.mem_cons, not_or, not_or]
    exact ⟨hhost, hcolon, isNumeral_notMem (u.portNumber ds hds).1 hdigit⟩

/-- The text of the host has no `@`. -/
theorem at_notMem_hostText : '@' ∉ u.hostText :=
  u.notMem_hostText u.hostFree.2.1 (by decide) (by decide)

/-- It has no slash either. -/
theorem slash_notMem_hostText : '/' ∉ u.hostText :=
  u.notMem_hostText u.hostFree.2.2 (by decide) (by decide)

/-- The host and the port are stored. -/
theorem setHost_hostText : setHost u.hostText params =
    .ok { params with
      host := some u.host
      port := (u.port.map fun ds => (digitsVal ds : Int)).or params.port } := by
  unfold hostText
  cases hport : u.port with
  | none =>
    rw [setHost, strchrSplit_none u.hostFree.1]
    rfl
  | some ds =>
    obtain ⟨hnum, hmax⟩ := u.portNumber ds hport
    have hmax : (digitsVal ds : Int) ≤ 2 ^ 31 - 1 := hmax
    have htol := strtol_digits hnum (by omega)
    have hint : toInt (digitsVal ds : Int) = digitsVal ds :=
      Int.bmod_eq_of_le (by omega) (by omega)
    have hok : setParamNum GO_PORT ds 0 INT_MAX = .ok (digitsVal ds : Int) :=
      setParamNum_ok.mpr ⟨by rw [htol], by rw [htol, hint], Int.natCast_nonneg _, hmax⟩
    show setHost (u.host ++ ':' :: ds) params = _
    rw [setHost, strchrSplit_append u.hostFree.1]
    simp only [hok]
    rfl

/-- The first `@` ends the user and the password. -/
theorem strchrSplit_userText {user : Str × Option Str} (huser : u.user = some user) (url : Str) :
    strchrSplit '@' (userText u.user ++ url) = some (account user, url) := by
  have hat : '@' ∉ account user := by
    obtain ⟨name, password⟩ := user
    have hname := (u.userFree _ huser).2.1
    cases password with
    | none => exact hname
    | some password =>
      show '@' ∉ name ++ ':' :: password
      rw [List.mem_append, List.mem_cons, not_or, not_or]
      exact ⟨hname, by decide, (u.passwordFree _ huser password rfl).1⟩
  rw [huser]
  show strchrSplit '@' ((account user ++ ['@']) ++ url) = _
  rw [List.append_assoc]
  exact strchrSplit_append hat url

/-- The user and the password are stored, and what follows them is left. -/
theorem setUser_some {name : Str} {password : Option Str} (huser : u.user = some (name, password))
    {url : Str} (hurl : url ≠ []) : setUser arg (userText u.user ++ url) params =
    .ok ({ params with username := some name, password := password.or params.password }, url) := by
  have hcolon := (u.userFree _ huser).1
  rw [setUser, u.strchrSplit_userText huser]
  cases password with
  | none =>
    rw [account]
    simp only [strchrSplit_none hcolon]
    exact if_neg hurl
  | some password =>
    rw [account]
    simp only [strchrSplit_append hcolon]
    exact if_neg hurl

/-- Without `@` there is no user. -/
theorem setUser_none {url : Str} (hat : '@' ∉ url) :
    setUser arg url params = .ok (params, url) := by
  rw [setUser, strchrSplit_none hat]

end FtpUrl

/-- A URL with the prefix. -/
theorem setParamUrl_prefix {url : Str} (hurl : url ≠ []) (params : UrlParams) :
    setParamUrl (['f', 't', 'p', ':', '/', '/'] ++ url) params =
      (setUser (['f', 't', 'p', ':', '/', '/'] ++ url) url params).bind fun r =>
        setHostPath (['f', 't', 'p', ':', '/', '/'] ++ url) r.2 r.1 := by
  have hprefix : casePrefix ['f', 't', 'p', ':', '/', '/']
      (['f', 't', 'p', ':', '/', '/'] ++ url) = true := by
    rw [casePrefix, List.map_append, List.isPrefixOf_iff_prefix]
    exact List.prefix_append ..
  have hdrop : (['f', 't', 'p', ':', '/', '/'] ++ url).drop 6 = url := rfl
  rw [setParamUrl, hprefix]
  simp only [not_true_eq_false, if_false, hdrop, if_neg hurl]
  rfl

namespace FtpUrl

variable (u : FtpUrl) (arg : Str) (params : UrlParams)

/-- A host and a path, of which the path can be empty. -/
theorem setHostPath_path (path : Str) : setHostPath arg (u.hostText ++ '/' :: path) params =
    .ok { params with
      host := some u.host
      port := (u.port.map fun ds => (digitsVal ds : Int)).or params.port
      remotedir := (((some path).filter (· ≠ [])).map ('/' :: ·)).or params.remotedir } := by
  rw [setHostPath, strchrSplit_append u.slash_notMem_hostText]
  simp only [u.setHost_hostText params]
  cases path with
  | nil => rfl
  | cons c path => rfl

/-- A host without a slash behind it. -/
theorem setHostPath_host : setHostPath arg u.hostText params = .error (.shortUrl arg) := by
  rw [setHostPath, strchrSplit_none u.slash_notMem_hostText]

end FtpUrl

/-- The host and the port leave the user alone. -/
theorem setHost_username {phost : Str} {params params' : UrlParams}
    (h : setHost phost params = .ok params') : params'.username = params.username := by
  rw [setHost] at h
  cases hsplit : strchrSplit ':' phost with
  | none =>
    rw [hsplit] at h
    cases h
    rfl
  | some r =>
    obtain ⟨phost, pport⟩ := r
    rw [hsplit] at h
    cases hport : setParamNum GO_PORT pport 0 INT_MAX with
    | error e =>
      simp only [hport] at h
      cases h
    | ok port =>
      simp only [hport] at h
      cases h
      rfl

/-- The host and the path are none of the user. -/
theorem setHostPath_username {arg url : Str} {params params' : UrlParams}
    (h : setHostPath arg url params = .ok params') : params'.username = params.username := by
  rw [setHostPath] at h
  cases hsplit : strchrSplit '/' url with
  | none =>
    rw [hsplit] at h
    cases h
  | some r =>
    obtain ⟨phost, path⟩ := r
    rw [hsplit] at h
    cases hhost : setHost phost params with
    | error e =>
      simp only [hhost] at h
      cases h
    | ok params₁ =>
      simp only [hhost] at h
      have hstored : (if path = [] then pure params₁ else
          pure { params₁ with remotedir := some ('/' :: path) } : Except ParamError UrlParams) =
        .ok params' := h
      have huser := setHost_username hhost
      split at hstored
      all_goals
        cases hstored
        exact huser

/-- A user is stored wherever there is an `@`. -/
theorem setUser_username {arg url : Str} {params params' : UrlParams} {rest : Str}
    (h : setUser arg url params = .ok (params', rest)) (hat : '@' ∈ url) :
    params'.username ≠ none := by
  rw [setUser, strchrSplit, if_pos hat] at h
  simp only at h
  split at h
  · cases h
  · cases h
    exact Option.some_ne_none _

namespace FtpUrl

variable (u : FtpUrl)

/-- What is left behind the user. -/
theorem setUser_rest {arg url rest : Str} {params params' : UrlParams} (hat : '@' ∉ url)
    (h : setUser arg (userText u.user ++ url) params = .ok (params', rest)) : rest = url := by
  cases huser : u.user with
  | none =>
    rw [huser] at h
    cases (setUser_none arg params hat).symm.trans h
    rfl
  | some user =>
    rw [setUser, u.strchrSplit_userText huser] at h
    simp only at h
    split at h
    · cases h
    · cases h
      rfl

end FtpUrl

/-- **URLs.** Every part of a URL of the documented form is stored exactly where there is a slash
behind the host and, unless there is a user, no `@` behind the slash. -/
theorem setParamUrl_right (u : FtpUrl) :
    (∀ params, setParamUrl u.text params = .ok (u.stored params)) ↔
      ∃ path, u.path = some path ∧ (u.user = none → '@' ∉ path) := by
  constructor
  · intro h
    have hok := h ⟨none, none, none, none, none⟩
    have hrest : u.rest ≠ [] := by
      intro hnil
      rw [FtpUrl.text, hnil] at hok
      cases hok
    rw [FtpUrl.text, setParamUrl_prefix hrest] at hok
    cases huser : setUser (['f', 't', 'p', ':', '/', '/'] ++ u.rest) u.rest
        ⟨none, none, none, none, none⟩ with
    | error e =>
      rw [huser] at hok
      cases hok
    | ok r =>
      obtain ⟨params', url⟩ := r
      rw [huser] at hok
      cases hpath : u.path with
      | none =>
        -- the host is the last part, and no slash ends it
        have hhost : u.rest = FtpUrl.userText u.user ++ u.hostText := by
          rw [FtpUrl.rest, hpath, FtpUrl.pathText, List.append_nil]
        rw [hhost] at huser
        obtain rfl := u.setUser_rest u.at_notMem_hostText huser
        exact absurd ((u.setHostPath_host _ _).symm.trans hok) (by simp)
      | some path =>
        refine ⟨path, rfl, fun hnone hat => ?_⟩
        -- the `@` of the path is taken for the end of a user
        have hmem : '@' ∈ u.rest := by
          rw [FtpUrl.rest, hpath]
          exact List.mem_append_right _ (List.mem_append_right _ (List.mem_cons_of_mem _ hat))
        have hname := setUser_username huser hmem
        rw [← setHostPath_username hok, FtpUrl.stored, hnone] at hname
        exact hname rfl
  · rintro ⟨path, hpath, hat⟩ params
    have hrest : u.rest = FtpUrl.userText u.user ++ (u.hostText ++ '/' :: path) := by
      rw [FtpUrl.rest, hpath, FtpUrl.pathText]
    have hne : u.hostText ++ '/' :: path ≠ [] := by simp
    have hne' : u.rest ≠ [] := by simp [hrest]
    rw [FtpUrl.text, setParamUrl_prefix hne', FtpUrl.stored, hpath, hrest]
    cases huser : u.user with
    | none =>
      have hno : '@' ∉ u.hostText ++ '/' :: path := by
        rw [List.mem_append, List.mem_cons, not_or, not_or]
        exact ⟨u.at_notMem_hostText, by decide, hat huser⟩
      rw [show FtpUrl.userText none = [] from rfl, List.nil_append, FtpUrl.setUser_none _ _ hno]
      exact u.setHostPath_path _ _ _
    | some user =>
      rw [← huser, u.setUser_some _ _ huser hne, huser]
      exact u.setHostPath_path _ _ _

/-- `ftp://h` -/
def noSlash : FtpUrl where
  user := none
  host := ['h']
  port := none
  path := none
  userFree := by simp
  passwordFree := by simp
  hostFree := by decide
  portNumber := by simp

/-- A URL that ends with its host is too short. -/
theorem setParamUrl_noSlash :
    ¬∀ params, setParamUrl noSlash.text params = .ok (noSlash.stored params) := by
  intro h
  exact absurd (h ⟨none, none, none, none, none⟩) (by decide)

end Spegla
