import Spegla.Options.Argv
import Spegla.Options.ConfigFile

/-!
# The same option in a file and on the command line (`tgetopt.c`)

The row `name = value` of a file, and the string `--name=value` on the command line.

- `value_tokens`: a value is one token, or its first token is another one.
- `reads_line`, `reads_string`: what the calls give for the two.
- `frontEnds_agree`: they give the same when the value is one token.
-/

namespace Spegla

open CString

/-- A table whose names can also be written in a file. -/
structure ConfNamed (go : List GetOpt) : Prop extends WellNamed go where
  plain : ∀ g ∈ go, ∀ c ∈ g.goName, Plain c ∧ c ≠ '\n'
  noHeader : ∀ g ∈ go, ¬IsHeader g.goName

/-- A printable character that is no blank, and none of `"`, `#` and `!`. -/
def InValue (c : Char) : Prop :=
  0x20 < c.toNat ∧ c.toNat < 0x7f ∧ c ≠ '"' ∧ ¬inSet comment c

instance (c : Char) : Decidable (InValue c) := inferInstanceAs (Decidable (_ ∧ _))

/-- A value that is one token. -/
def Whole (value : Str) : Prop := value.length = 1 ∨ ∀ c ∈ value, ¬inSet delimiter c

instance (value : Str) : Decidable (Whole value) := inferInstanceAs (Decidable (_ ∨ _))

/-- The row `name = value`. -/
def confRow (g : GetOpt) (value : Str) : Str := g.goName ++ ' ' :: '=' :: ' ' :: value

/-- The string `--name=value`. -/
def longString (g : GetOpt) (value : Str) : Str := '-' :: '-' :: (g.goName ++ '=' :: value)

/-- The calls give the option with the value, and then the end of options. -/
def ReadsOnly (gos : GetOptState) (i : Nat) (value : Str) : Prop :=
  tgetoptResults 2 gos = some [(optCall (i, some value), .ok), (.failed, .endOfOptions)]

/-! ## Tokens of a value -/

section Values

variable {value w s : Str} {c : Char}

/-- What may be in a value is a delimiter or plain. -/
theorem inValue_plain (hc : InValue c) : inSet delimiter c ∨ Plain c := by
  obtain ⟨hlow, -, hq, -⟩ := hc
  by_cases hd : inSet delimiter c
  · exact .inl hd
  have hn : c ≠ nul := by
    rintro rfl
    exact absurd hlow (by decide)
  have hw : ¬inSet white_space c := by
    intro hw
    have hmem : c = ' ' ∨ c = '\t' := by simpa [inSet, white_space] using hw
    rcases hmem with rfl | rfl
    · exact absurd hlow (by decide)
    · exact absurd hlow (by decide)
  exact .inr ⟨not_or.mpr ⟨hn, not_or.mpr ⟨hw, hd⟩⟩, hq⟩

/-- A word in front of something else. -/
theorem tokensFrom_word (hw : ∀ c ∈ w, Plain c) (tok s : Str) :
    tokensFrom tok (w ++ s) = tokensFrom (tok ++ w) s := by
  induction w generalizing tok with
  | nil => rw [List.append_nil, List.nil_append]
  | cons c w ih =>
    have htail := ih (fun d hd => hw d (List.mem_cons_of_mem c hd)) (tok ++ [c])
    rw [List.cons_append, tokensFrom_plain (hw c List.mem_cons_self), htail, List.append_assoc]
    rfl

/-- A delimiter is a token of its own. -/
theorem tokensFrom_delimiter (hd : inSet delimiter c) (tok s : Str) :
    tokensFrom tok (c :: s) = flush tok ++ [c] :: tokensFrom [] s := by
  have hmem : c = '#' ∨ c = '!' ∨ c = '=' ∨ c = ':' ∨ c = ',' := by
    simpa [inSet, delimiter] using hd
  have hn : c ≠ nul := by
    rcases hmem with rfl | rfl | rfl | rfl | rfl <;> decide
  have hw : ¬inSet white_space c := by
    rcases hmem with rfl | rfl | rfl | rfl | rfl <;> decide
  rw [tokensFrom, if_neg hn, if_neg hw, if_pos hd]

/-- A value is one token, or it begins with a shorter one. -/
theorem value_tokens (hne : value ≠ []) (hv : ∀ c ∈ value, InValue c) :
    ∃ tok toks, rowTokens value = tok :: toks ∧ ¬rowEnds (some tok) ∧
      (Whole value → tok = value ∧ toks = []) ∧ (¬Whole value → tok ≠ value) := by
  cases value with
  | nil => exact absurd rfl hne
  | cons c s =>
    have hends : ∀ t, ¬rowEnds (some (c :: t)) := fun _ => (hv c List.mem_cons_self).2.2.2
    rcases inValue_plain (hv c List.mem_cons_self) with hd | hp
    · refine ⟨[c], tokensFrom [] s, tokensFrom_delimiter hd [] s, hends [], fun h => ?_,
        fun h he => ?_⟩
      · have hs : s = [] := by
          rcases h with hlen | hall
          · exact List.eq_nil_of_length_eq_zero (Nat.succ.inj hlen)
          · exact absurd hd (hall c List.mem_cons_self)
        rw [hs]
        exact ⟨rfl, rfl⟩
      · rw [← (List.cons.inj he).2] at h
        exact h (.inl rfl)
    · have hq : '"' ∉ s := fun hm => (hv '"' (List.mem_cons_of_mem c hm)).2.2.1 rfl
      have htoks := tokensFrom_token hq (List.cons_ne_nil c [])
      refine ⟨c :: s.takeWhile Plain, tokensFrom [] (s.dropWhile Plain), ?_, hends _, fun h => ?_,
        fun h he => ?_⟩
      · rw [rowTokens, tokensFrom_plain hp, List.nil_append, htoks]
        rfl
      · have hall : ∀ d ∈ s, Plain d := by
          intro d hd
          rcases h with hlen | hall
          · rw [List.eq_nil_of_length_eq_zero (Nat.succ.inj hlen)] at hd
            cases hd
          · have hm := List.mem_cons_of_mem c hd
            exact (inValue_plain (hv d hm)).resolve_left (hall d hm)
        have htake : s.takeWhile Plain = s := List.takeWhile_eq_self_iff.mpr (by simpa using hall)
        have hdrop : s.dropWhile Plain = [] := List.dropWhile_eq_nil_iff.mpr (by simpa using hall)
        rw [htake, hdrop]
        exact ⟨rfl, rfl⟩
      · refine h (.inr fun d hd hdelim => ?_)
        have htake := List.takeWhile_eq_self_iff.mp (List.cons.inj he).2
        have hplain : Plain d := by
          rcases List.mem_cons.mp hd with rfl | hd
          · exact hp
          · simpa using htake d hd
        exact hplain.1 (.inr (.inr hdelim))

end Values

/-! ## The row and the string -/

section FrontEnds

variable {go : List GetOpt} {i : Nat} {g : GetOpt} {value line : Str} {c : Char}

/-- The name is a token of its own, and the delimiter behind it. -/
theorem rowTokens_confRow (hgo : ConfNamed go) (hg : go[i]? = some g) (value : Str) :
    rowTokens (confRow g value) = g.goName :: ['='] :: rowTokens value := by
  have hmem := List.mem_of_getElem? hg
  have hword := tokensFrom_word (fun c hc => (hgo.plain g hmem c hc).1) []
    (' ' :: '=' :: ' ' :: value)
  have hrest : tokensFrom [] ('=' :: ' ' :: value) = ['='] :: rowTokens value :=
    tokensFrom_delimiter (by decide) [] (' ' :: value)
  have hblank : tokensFrom g.goName (' ' :: '=' :: ' ' :: value) =
      flush g.goName ++ tokensFrom [] ('=' :: ' ' :: value) := rfl
  rw [rowTokens, confRow, hword, List.nil_append, hblank, hrest, flush,
    if_neg (hgo.nonempty g hmem)]
  rfl

/-- The entry is found under its name. -/
theorem findIdx_name (hgo : WellNamed go) (hg : go[i]? = some g) :
    go.findIdx? (·.goName = g.goName) = some i := by
  refine findIdx_only hg (by simp) fun j g' hg' hj hname => ?_
  have hsame : g'.goName = g.goName := by simpa using hname
  exact absurd (name_index hgo hg hg' hsame) (Nat.ne_of_lt hj)

/-- The first argument of the row is its first token behind the delimiter. -/
theorem confRow_results (hgo : ConfNamed go) (hg : go[i]? = some g) {tok : Str} {toks : List Str}
    (htoks : rowTokens value = tok :: toks) (hends : ¬rowEnds (some tok)) (ending : GosErrno) :
    fileResults go [] ending true [rowTokens (confRow g value)] =
      argResult g i tok :: argResults g i toks ++ [(.failed, ending)] := by
  have hmem := List.mem_of_getElem? hg
  have hname : ¬rowEnds (some g.goName) := by
    cases hn : g.goName with
    | nil => exact absurd hn (hgo.nonempty g hmem)
    | cons c w =>
      have hplain := (hgo.plain g hmem c (by rw [hn]; exact List.mem_cons_self)).1
      intro hc
      have hchar : c = '#' ∨ c = '!' := by simpa [rowEnds, inSet, comment] using hc
      rcases hchar with rfl | rfl
      · exact absurd hplain (by decide)
      · exact absurd hplain (by decide)
  have hequals : ¬rowEnds (some ['=']) := by decide
  have hdelim : ¬¬inSet delimeter (['='].headD nul) := by decide
  rw [rowTokens_confRow hgo hg, htoks, fileResults, if_neg (hgo.noHeader g hmem), if_pos rfl,
    rowResults, if_neg hname, findIdx_name hgo.toWellNamed hg]
  dsimp only
  rw [hg, Option.map_some, Option.getD_some, optionResults, if_neg hequals, if_neg hdelim,
    valueResults, if_neg hends]
  rfl

/-- A file of one line is read as this row. -/
theorem rowsOf_line {row : Str} (hq : '"' ∉ row) (hrow : '\n' ∉ row) (hne : row ≠ [])
    (hline : line = row ∨ line = row ++ ['\n']) (hlen : line.length < MAX_STR) :
    RowsOf ⟨line, line, false⟩ [rowTokens row] := by
  have hsize : MAX_STR - 1 + 1 = MAX_STR := rfl
  rcases hline with rfl | rfl
  · exact .cons (fgets_end hrow (by omega) hne rfl rfl) (toks_rowMem hq hrow (.inr rfl)) (.nil rfl)
  · have hlen' : row.length < MAX_STR - 1 := by
      rw [List.length_append, List.length_singleton] at hlen
      omega
    exact .cons (fgets_newline hrow hlen' rfl) (toks_rowMem hq hrow (.inl rfl)) (.nil rfl)

/-- The row gives the value alone when this is one token. -/
theorem reads_line (hgo : ConfNamed go) (hg : go[i]? = some g) (hw : g.goWantArg ≠ .noArg)
    (hne : value ≠ []) (hv : ∀ c ∈ value, InValue c)
    (hline : line = confRow g value ∨ line = confRow g value ++ ['\n'])
    (hlen : line.length < MAX_STR) :
    ReadsOnly (tgetoptFileInit ⟨line, line, false⟩ none go) i value ↔ Whole value := by
  have hmem := List.mem_of_getElem? hg
  have hnot : ∀ c, ¬InValue c → ¬(Plain c ∧ c ≠ '\n') → c ∉ [' ', '=', ' '] →
      c ∉ confRow g value := by
    intro c hval hname hmid hc
    rcases List.mem_append.mp hc with hc | hc
    · exact hname (hgo.plain g hmem c hc)
    · rcases List.mem_append.mp (show c ∈ [' ', '=', ' '] ++ value from hc) with hc | hc
      · exact hmid hc
      · exact hval (hv c hc)
  have hrows := rowsOf_line (hnot '"' (by decide) (by decide) (by decide))
    (hnot '\n' (by decide) (by decide) (by decide)) (by simp [confRow]) hline hlen
  have hfollows := follows_init hrows none go
  obtain ⟨tok, toks, htoks, hends, hwhole, hother⟩ := value_tokens hne hv
  have hresults := confRow_results hgo hg htoks hends .endOfOptions
  have hspec : FollowsRows (tgetoptFileInit ⟨line, line, false⟩ none go)
      (argResult g i tok :: untilError (argResults g i toks ++ [(.failed, .endOfOptions)])) := by
    rw [← untilError_ok (argResult_ok hw i tok), ← List.cons_append, ← hresults]
    exact hfollows
  have harg : argResult g i tok = (optCall (i, some tok), .ok) := if_neg hw
  rw [harg] at hspec
  constructor
  · intro hreads
    by_contra hnot
    obtain ⟨call, gos, rs, hcons, hcall, -⟩ := tgetopt_gives hspec
    rw [ReadsOnly, tgetoptResults_cons hcall] at hreads
    obtain ⟨calls, -, hfirst⟩ := Option.map_eq_some_iff.mp hreads
    have hval : call.result gos.gosErrno = (optCall (i, some value), .ok) :=
      (List.cons.inj hfirst).1
    have hsame := congrArg (OptCall.arg ∘ Prod.fst) ((List.cons.inj hcons).1.trans hval)
    exact hother hnot (Option.some.inj (Option.some.inj hsame))
  · intro h
    obtain ⟨rfl, rfl⟩ := hwhole h
    exact tgetopts_gives hspec

/-- The string gives the value. -/
theorem reads_string (hgo : ConfNamed go) (hg : go[i]? = some g) (hw : g.goWantArg ≠ .noArg)
    (hv : ∀ c ∈ value, InValue c) (prog : Str) :
    ReadsOnly (tgetoptArgvInit 2 [prog, longString g value] go) i value := by
  have hmem := List.mem_of_getElem? hg
  have hnul : nul ∉ longString g value := by
    intro hm
    rcases List.mem_append.mp (show nul ∈ ['-', '-'] ++ (g.goName ++ '=' :: value) from hm) with
      hm | hm
    · exact absurd hm (by decide)
    rcases List.mem_append.mp hm with hm | hm
    · exact absurd (hgo.plain g hmem nul hm).1 (by decide)
    rcases List.mem_cons.mp hm with hm | hm
    · exact absurd hm (by decide)
    · exact absurd (hv nul hm) (by decide)
  have henc : Encoded go [(i, some value)] none [longString g value] := .longArg value hg hw .done
  have hargs : ∀ arg ∈ [longString g value], nul ∉ arg := List.forall_mem_singleton.mpr hnul
  obtain ⟨gos', hcalls⟩ := tgetopt_encoded hgo.toWellNamed henc hargs prog
  exact congrArg (Option.map fun r => results r.1) hcalls

/-- The two give the option with the value, and nothing else, exactly when the value is one
token. -/
theorem frontEnds_agree (hgo : ConfNamed go) (hg : go[i]? = some g) (hw : g.goWantArg ≠ .noArg)
    (hne : value ≠ []) (hv : ∀ c ∈ value, InValue c)
    (hline : line = confRow g value ∨ line = confRow g value ++ ['\n'])
    (hlen : line.length < MAX_STR) (prog : Str) :
    ReadsOnly (tgetoptFileInit ⟨line, line, false⟩ none go) i value ∧
        ReadsOnly (tgetoptArgvInit 2 [prog, longString g value] go) i value ↔
      Whole value := by
  rw [reads_line hgo hg hw hne hv hline hlen]
  exact and_iff_left (reads_string hgo hg hw hv prog)

/-- The names are written in small letters. -/
theorem plain_letter (hc : c.isLower) : Plain c ∧ c ≠ '\n' := by
  have hne : ∀ d : Char, ¬d.isLower → c ≠ d := by
    rintro d hd rfl
    exact hd hc
  have hw : ¬inSet white_space c := by
    simp [inSet, white_space, hne ' ' (by decide), hne '\t' (by decide)]
  have hd : ¬inSet delimiter c := by
    simp [inSet, delimiter, hne '#' (by decide), hne '!' (by decide), hne '=' (by decide),
      hne ':' (by decide), hne ',' (by decide)]
  have hends : ¬Ends c := not_or.mpr ⟨hne nul (by decide), not_or.mpr ⟨hw, hd⟩⟩
  exact ⟨⟨hends, hne '"' (by decide)⟩, hne '\n' (by decide)⟩

/-- The table of the program can be used in a file. -/
theorem goTable_confNamed : ConfNamed goTable where
  toWellNamed := goTable_wellNamed
  plain := by
    have hletters : (goTable.all fun g => g.goName.all Char.isLower) = true := by decide +kernel
    intro g hg c hc
    exact plain_letter (List.all_eq_true.mp (List.all_eq_true.mp hletters g hg) c hc)
  noHeader := by
    have hletters : (goTable.all fun g => decide (¬IsHeader g.goName)) = true := by decide +kernel
    intro g hg
    exact of_decide_eq_true (List.all_eq_true.mp hletters g hg)

/-- `host = a` -/
theorem frontEnds_agree_host :
    ReadsOnly (tgetoptFileInit ⟨confRow ⟨['h', 'o', 's', 't'], 'h', .reqArg⟩ ['a'],
          confRow ⟨['h', 'o', 's', 't'], 'h', .reqArg⟩ ['a'], false⟩ none goTable) 6 ['a'] ∧
        ReadsOnly (tgetoptArgvInit 2 [[], longString ⟨['h', 'o', 's', 't'], 'h', .reqArg⟩ ['a']]
          goTable) 6 ['a'] ↔
      Whole ['a'] :=
  frontEnds_agree goTable_confNamed rfl (by decide) (by decide)
    (List.forall_mem_singleton.mpr (by decide)) (.inl rfl) (by decide) []

/-- `url = ftp://a/` -/
theorem frontEnds_url :
    ¬∀ (go : List GetOpt) (i : Nat) (g : GetOpt) (value : Str), ConfNamed go → go[i]? = some g →
      g.goWantArg ≠ .noArg → value ≠ [] → (∀ c ∈ value, InValue c) →
      (confRow g value).length < MAX_STR →
      ReadsOnly (tgetoptFileInit ⟨confRow g value, confRow g value, false⟩ none go) i value ∧
        ReadsOnly (tgetoptArgvInit 2 [[], longString g value] go) i value := by
  intro h
  have hv : (['f', 't', 'p', ':', '/', '/', 'a', '/'].all fun c => decide (InValue c)) = true := by
    decide
  have hurl := h goTable 27 ⟨['u', 'r', 'l'], '?', .reqArg⟩ ['f', 't', 'p', ':', '/', '/', 'a', '/']
    goTable_confNamed rfl (by decide) (by decide)
    (fun c hc => of_decide_eq_true (List.all_eq_true.mp hv c hc)) (by decide)
  have hline := hurl.1
  revert hline
  rw [ReadsOnly]
  decide +kernel

end FrontEnds

end Spegla
