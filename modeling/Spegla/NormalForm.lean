import Spegla.SymlinkResolve

/-!
# When `spf_symlink_resolve` gives the shortest path

The path that `spf_symlink_resolve` returns is said to be the shortest one regarding `..`. It is,
for targets in which nothing has to be taken away.

- `spell`, `strip`: a component that is seen, as what it puts into the buffer and as what it stands
  for.
- `targetNormal`: the normal form of a target.
- `Straight`: the targets whose components are kept as they stand.
- `spfSymlinkResolve_normal`: it is those that get their normal form.
-/

namespace Spegla

open CString PosixFs

/-! ## Strings of names -/

/-- What a component that is seen puts between the slashes of the buffer. -/
def spell (d : Str) : List Str :=
  if d = [] ∨ d = ['.'] ∨ d = up then []
  else if d = ['/'] then [[]]
  else if d.head? = some '/' then [[], d.tail]
  else [d]

/-- What it stands for: without the slash that it may begin with. -/
def strip (d : Str) : Str := if d.head? = some '/' then d.tail else d

theorem piece_spell {d : Str} (hd : '/' ∉ d.tail) : piece d = (spell d).flatMap (· ++ ['/']) := by
  unfold piece spell
  show (if d = [] ∨ d = ['.'] ∨ d = up then _ else _) = _
  by_cases hs : d = [] ∨ d = ['.'] ∨ d = up
  · rw [if_pos hs, if_pos hs]
    rfl
  · rw [if_neg hs, if_neg hs]
    obtain ⟨x, n, rfl⟩ := List.exists_cons_of_ne_nil fun h0 => hs (Or.inl h0)
    rcases List.eq_nil_or_concat n with rfl | ⟨n, y, rfl⟩
    · by_cases hx : x = '/'
      · subst hx
        rfl
      · rw [if_neg (by simpa using hx), if_neg (by simpa using hx), if_neg (by simpa using hx)]
        simp
    · rw [List.concat_eq_append] at hd ⊢
      have hy : y ≠ '/' := by
        rintro rfl
        exact hd (by simp)
      have hlast : (x :: (n ++ [y])).getLast? = some y := by
        rw [← List.cons_append, List.getLast?_concat]
      rw [hlast, if_neg (by simpa using hy), if_neg (by simp)]
      by_cases hx : x = '/'
      · subst hx
        simp
      · rw [if_neg (by simpa using hx)]
        simp

theorem pieces_spell : ∀ dirs : List Str, (∀ d ∈ dirs, '/' ∉ d.tail) →
    dirs.flatMap piece = (dirs.flatMap spell).flatMap (· ++ ['/']) := by
  intro dirs hdirs
  rw [List.flatMap_assoc]
  exact List.flatMap_congr fun d hd => piece_spell (hdirs d hd)

theorem components_slashes : ∀ cs : List Str, (∀ c ∈ cs, '/' ∉ c) →
    components (cs.flatMap (· ++ ['/'])) = cs ++ [[]] := by
  intro cs
  induction cs with
  | nil => exact fun _ => rfl
  | cons c cs ih =>
    intro h
    have hsplit : (c :: cs).flatMap (· ++ ['/']) = c ++ '/' :: cs.flatMap (· ++ ['/']) := by simp
    rw [hsplit, components_append_slash, components_of_noslash (h c (List.mem_cons_self ..)),
      ih fun d hd => h d (List.mem_cons_of_mem _ hd)]
    rfl

/-- Names that make the same string are the same. -/
theorem slashes_inj {cs cs' : List Str} (h : ∀ c ∈ cs, '/' ∉ c) (h' : ∀ c ∈ cs', '/' ∉ c)
    (heq : cs.flatMap (· ++ ['/']) = cs'.flatMap (· ++ ['/'])) : cs = cs' := by
  have hcomp := congrArg components heq
  rw [components_slashes cs h, components_slashes cs' h'] at hcomp
  exact List.append_cancel_right hcomp

theorem spell_noslash {d e : Str} (hd : '/' ∉ d.tail) (he : e ∈ spell d) : '/' ∉ e := by
  unfold spell at he
  split at he
  · simp at he
  · split at he
    · obtain rfl : e = [] := by simpa using he
      simp
    · split at he
      · rcases List.mem_cons.mp he with rfl | he
        · simp
        · obtain rfl : e = d.tail := by simpa using he
          exact hd
      · next hne hhead =>
        obtain rfl : e = d := by simpa using he
        obtain ⟨x, n, rfl⟩ := List.exists_cons_of_ne_nil fun h0 : e = [] => by simp_all
        intro hmem
        rcases List.mem_cons.mp hmem with rfl | hmem
        · simp at hhead
        · exact hd hmem

/-- Behind the names there is one more slash than before them. -/
theorem below_slash : ∀ cs : List Str, below cs ++ ['/'] = '/' :: cs.flatMap (· ++ ['/']) := by
  intro cs
  induction cs with
  | nil => rfl
  | cons c cs ih =>
    have hsplit : below (c :: cs) = '/' :: c ++ below cs := rfl
    rw [hsplit, List.append_assoc, ih]
    simp

/-! ## What the components stand for -/

/-- The text up to the first slash, and what is behind it. -/
theorem split_slash : ∀ p : Str,
    ('/' ∉ p ∧ p.takeWhile (· ≠ '/') = p ∧ p.dropWhile (· ≠ '/') = []) ∨
      ∃ u q, '/' ∉ u ∧ p = u ++ '/' :: q ∧ p.takeWhile (· ≠ '/') = u ∧
        p.dropWhile (· ≠ '/') = '/' :: q := by
  intro p
  induction p with
  | nil => exact Or.inl ⟨by simp, rfl, rfl⟩
  | cons c p ih =>
    by_cases hc : c = '/'
    · subst hc
      exact Or.inr ⟨[], p, by simp, rfl, rfl, rfl⟩
    · have hpos : decide (c ≠ '/') = true := by simpa using hc
      simp only [List.takeWhile_cons, List.dropWhile_cons, hpos, if_true]
      rcases ih with ⟨hno, htake, hdrop⟩ | ⟨u, q, hu, rfl, htake, hdrop⟩
      · exact Or.inl ⟨by simp [hno, Ne.symm hc], by rw [htake], hdrop⟩
      · exact Or.inr ⟨c :: u, q, by simp [hu, Ne.symm hc], rfl, by rw [htake], hdrop⟩

/-- A component, with the character before it. -/
theorem components_seen {c : Char} {u : Str} (hu : '/' ∉ u) :
    ((components (c :: u)).filter fun c => ¬Idle c) = [strip (c :: u)].filter fun c => ¬Idle c := by
  by_cases hc : c = '/'
  · subst hc
    have hcomp : components ('/' :: u) = [] :: [u] := by
      rw [components, if_pos rfl, components_of_noslash hu]
    rw [hcomp]
    rfl
  · have hnone : '/' ∉ c :: u := by simp [hu, Ne.symm hc]
    have hstrip : strip (c :: u) = c :: u := if_neg (by simpa using hc)
    rw [components_of_noslash hnone, hstrip]

theorem seenRest_components : ∀ (fuel : Nat) (p : Str), p.length ≤ fuel →
    ((components p).filter fun c => ¬Idle c) = ((seenRest fuel p).map strip).filter
    fun c => ¬Idle c := by
  intro fuel
  induction fuel with
  | zero =>
    intro p hp
    obtain rfl := List.length_eq_zero_iff.mp (Nat.le_zero.mp hp)
    rfl
  | succ fuel ih =>
    intro p hp
    cases p with
    | nil => rfl
    | cons c p =>
      rw [seenRest, List.map_cons]
      rcases split_slash p with ⟨hno, htake, hdrop⟩ | ⟨u, q, hu, rfl, htake, hdrop⟩
      · rw [htake, hdrop]
        exact components_seen hno
      · have hlen : q.length ≤ fuel := by
          simp only [List.length_cons, List.length_append] at hp
          omega
        rw [htake, hdrop, ← List.cons_append, components_append_slash, List.filter_append,
          components_seen hu, ih q hlen, ← List.filter_append]
        rfl

/-- The components of a target that stand for something are those that are seen. -/
theorem seenDirs_components (t : Str) :
    ((components t).filter fun c => ¬Idle c) = ((seenDirs t).map strip).filter
    fun c => ¬Idle c := by
  have hfirst : ∀ u : Str, '/' ∉ u → strip u = u := by
    intro u hu
    refine if_neg fun h => hu ?_
    exact List.mem_of_mem_head? h
  rw [seenDirs, List.map_cons]
  rcases split_slash t with ⟨hno, htake, hdrop⟩ | ⟨u, q, hu, rfl, htake, hdrop⟩
  · rw [htake, hdrop, components_of_noslash hno, hfirst t hno]
    rfl
  · rw [htake, hdrop, components_append_slash, components_of_noslash hu, hfirst u hu,
      List.filter_append, seenRest_components q.length q le_rfl, ← List.filter_append]
    rfl

theorem normalize_seen (rooted : Bool) (ds : List Str) (t : Str) :
    normalize rooted (ds ++ components t) = normalize rooted (ds ++ (seenDirs t).map strip) := by
  unfold PosixFs.normalize
  rw [← foldl_normStep_filter, List.filter_append, seenDirs_components, ← List.filter_append,
    foldl_normStep_filter]

/-! ## Relative targets -/

theorem dotted_slash {ds : List Str} {t : Str} (hds : ∀ d ∈ ds, IsName d) :
    dotted ds t ++ ['/'] = ['.', '/'] ++ (ds ++ (seenDirs t).flatMap spell).flatMap
      (· ++ ['/']) := by
  have hlast := (IsBuf.appendAll (seenDirs t) _ (dirStr_isBuf hds) (seenDirs_tail t)).last
  obtain ⟨b, hb⟩ := List.getLast?_eq_some_iff.mp hlast
  rw [dotted, hb, List.dropLast_concat, ← hb, pieces_spell _ (seenDirs_tail t), List.flatMap_append]
  simp [dirStr]

/-- What is seen of a target, spelt as it stands, has no slash. -/
theorem spells_noslash {ds : List Str} {t : Str} (hds : ∀ d ∈ ds, IsName d) :
    ∀ c ∈ ds ++ (seenDirs t).flatMap spell, '/' ∉ c := by
  intro c hc
  rcases List.mem_append.mp hc with hc | hc
  · exact (hds c hc).noslash
  · obtain ⟨d, hd, hc⟩ := List.mem_flatMap.mp hc
    exact spell_noslash (seenDirs_tail t d hd) hc

/-- What is left of the components of a path has no slash. -/
theorem normalize_noslash {rooted : Bool} {cs : List Str} (h : ∀ c ∈ cs, '/' ∉ c) :
    ∀ c ∈ normalize rooted cs, '/' ∉ c := fun c hc => h c (normalize_mem hc).1

theorem components_noslash : ∀ (s : Str), ∀ c ∈ components s, '/' ∉ c := by
  intro s
  induction s with
  | nil => simp [components]
  | cons x s ih =>
    intro c hc
    rw [components] at hc
    split at hc
    · rcases List.mem_cons.mp hc with rfl | hc
      · simp
      · exact ih c hc
    · next hx =>
      obtain ⟨p, ps, hps⟩ := List.exists_cons_of_ne_nil (components_ne_nil s)
      rw [hps] at hc ih
      rcases List.mem_cons.mp hc with rfl | hc
      · have := ih p (List.mem_cons_self ..)
        simp [this, Ne.symm hx]
      · exact ih c (List.mem_cons_of_mem _ hc)

/-- The string for a relative target is that of its normal form when the same components are left.
-/
theorem dotted_eq_normalStr {ds : List Str} {t : Str} (hds : ∀ d ∈ ds, IsName d) :
    dotted ds t = normalStr false (normalize false (ds ++ components t)) ↔
      normalize false (ds ++ components t) = ds ++ (seenDirs t).flatMap spell ∧
        (normalize false (ds ++ components t)).head? ≠ some up := by
  have hslash := dotted_slash (t := t) hds
  have hst : ∀ c ∈ normalize false (ds ++ components t), '/' ∉ c := by
    refine normalize_noslash fun c hc => ?_
    rcases List.mem_append.mp hc with hc | hc
    · exact (hds c hc).noslash
    · exact components_noslash t c hc
  generalize normalize false (ds ++ components t) = st at hst ⊢
  constructor
  · intro heq
    rw [heq, normalStr, if_neg (by simp)] at hslash
    by_cases hup : st.head? = some up
    · -- the one begins with two dots, the other with a dot and a slash
      obtain ⟨st, rfl⟩ : ∃ st', st = up :: st' := by
        cases st with
        | nil => simp at hup
        | cons d st' => exact ⟨st', by rw [Option.some.inj hup]⟩
      simp [below, up] at hslash
    · rw [if_neg hup, List.cons_append, below_slash] at hslash
      simp only [List.cons_append, List.nil_append, List.cons.injEq, true_and] at hslash
      exact ⟨slashes_inj hst (spells_noslash hds) hslash, hup⟩
  · rintro ⟨heq, hup⟩
    refine List.append_cancel_right (hslash.trans ?_)
    rw [normalStr, if_neg (by simp), if_neg hup, ← heq]
    show _ = '.' :: (below st ++ ['/'])
    rw [below_slash]
    rfl

/-- A component that does not begin with a slash is kept as it stands, if it is a name. -/
theorem spell_plain {d : Str} (hd : d.head? ≠ some '/') : spell d = namesOf [d] := by
  unfold spell
  by_cases hs : d = [] ∨ d = ['.'] ∨ d = up
  · rw [if_pos hs, namesOf, List.filter_cons_of_neg (by simp [Idle]; tauto)]
    rfl
  · rw [if_neg hs, if_neg (by rintro rfl; exact hd rfl), if_neg hd, namesOf,
      List.filter_cons_of_pos (by simp [Idle]; tauto)]
    rfl

theorem spells_plain {dirs : List Str} (h : ∀ d ∈ dirs, d.head? ≠ some '/') :
    dirs.flatMap spell = namesOf dirs := by
  induction dirs with
  | nil => rfl
  | cons d dirs ih =>
    rw [List.flatMap_cons, spell_plain (h d (List.mem_cons_self ..)),
      ih fun e he => h e (List.mem_cons_of_mem _ he), namesOf, namesOf, ← List.filter_append]
    rfl

theorem strips_plain {dirs : List Str} (h : ∀ d ∈ dirs, d.head? ≠ some '/') :
    dirs.map strip = dirs := by
  have hstrip : dirs.map strip = dirs.map id := List.map_congr_left fun d hd => if_neg (h d hd)
  rw [hstrip, List.map_id]

/-- A component behind a slash that is not its own leaves an empty one. -/
theorem nil_mem_spell {d : Str} (hd : d.head? = some '/') : [] ∈ spell d := by
  cases d with
  | nil => simp at hd
  | cons x n =>
    obtain rfl : x = '/' := Option.some.inj hd
    unfold spell
    rw [if_neg (by simp [up])]
    split
    · simp
    · simp

/-- The components of a relative target that are seen as they stand: none begins with a slash, and
none is `..`. -/
def StraightRel (t : Str) : Prop := ∀ d ∈ seenDirs t, d ≠ up ∧ d.head? ≠ some '/'

/-- A relative target gets its normal form when nothing in it has to be taken away. -/
theorem dotted_normal {ds : List Str} {t : Str} (hds : ∀ d ∈ ds, IsName d) :
    dotted ds t = normalStr false (normalize false (ds ++ components t)) ↔ StraightRel t := by
  rw [dotted_eq_normalStr hds, normalize_seen]
  have hnames : ∀ dirs : List Str, namesOf (ds ++ dirs) = ds ++ namesOf dirs := by
    intro dirs
    rw [namesOf, List.filter_append]
    congr 1
    refine List.filter_eq_self.mpr fun d hd => ?_
    simpa [Idle, not_or] using ⟨⟨(hds d hd).ne_nil, (hds d hd).ne_dot⟩, (hds d hd).ne_dotdot⟩
  have hdsup : up ∉ ds := fun h => (hds up h).ne_dotdot rfl
  have hnoup : ∀ dirs : List Str, up ∉ ds ++ namesOf dirs := by
    intro dirs
    rw [List.mem_append, not_or]
    exact ⟨hdsup, fun h => by simp [namesOf] at h⟩
  constructor
  · rintro ⟨heq, -⟩
    have hhead : ∀ d ∈ seenDirs t, d.head? ≠ some '/' := by
      intro d hd hslash
      have hmem : [] ∈ normalize false (ds ++ (seenDirs t).map strip) := by
        rw [heq]
        exact List.mem_append_right _ (List.mem_flatMap.mpr ⟨d, hd, nil_mem_spell hslash⟩)
      exact (normalize_mem hmem).2.1 (Or.inl rfl)
    rw [strips_plain hhead, spells_plain hhead] at heq
    -- each `..` makes the normal form shorter, and it is not
    have hlen := normalize_balance (ds ++ seenDirs t) [] (by
      show up ∉ normalize false (ds ++ seenDirs t)
      rw [heq]
      exact hnoup _)
    have hfold : ((ds ++ seenDirs t).foldl (normStep false) []) = ds ++ namesOf (seenDirs t) := heq
    rw [hfold, hnames, List.count_append] at hlen
    have hcount : (seenDirs t).count up = 0 := by
      simp only [List.length_nil, List.count_nil] at hlen
      omega
    intro d hd
    refine ⟨?_, hhead d hd⟩
    rintro rfl
    exact List.count_eq_zero.mp hcount hd
  · intro hstraight
    have hhead : ∀ d ∈ seenDirs t, d.head? ≠ some '/' := fun d hd => (hstraight d hd).2
    have hup : up ∉ ds ++ seenDirs t := by
      rw [List.mem_append, not_or]
      exact ⟨hdsup, fun h => (hstraight up h).1 rfl⟩
    have hfilter : ((ds ++ seenDirs t).filter fun c => ¬Idle c) = namesOf (ds ++ seenDirs t) := by
      refine List.filter_congr fun d hd => ?_
      have : d ≠ up := by rintro rfl; exact hup hd
      simp [this]
    have hfold : normalize false (ds ++ seenDirs t) = ds ++ namesOf (seenDirs t) := by
      rw [PosixFs.normalize, foldl_normStep_names _ _ hup, List.nil_append, hfilter, hnames]
    rw [strips_plain hhead, spells_plain hhead, hfold]
    exact ⟨rfl, fun h => hnoup _ (List.mem_of_mem_head? h)⟩

/-! ## Absolute targets -/

/-- One component entered in an empty buffer. -/
theorem symlinkCd_nil {m : Nat} {d r : Str} (h : symlinkCd m d [] = some r) :
    (Idle d ∧ r = []) ∨ (d.head? = some '/' ∧ r = piece d) ∨
      (¬Idle d ∧ d.head? ≠ some '/' ∧ r ≠ [] ∧ r.head? ≠ some '/') := by
  unfold symlinkCd at h
  split at h
  · simp at h
  · split at h
    · next hi => exact Or.inl ⟨hi, (Option.some.inj h).symm⟩
    · next hi =>
      split at h
      · next hup =>
        subst hup
        obtain rfl : ['.', '.', '/'] = r := Option.some.inj h
        exact Or.inr (Or.inr ⟨hi, by simp, by simp, by simp⟩)
      · next hup =>
        have hpiece : r = piece d := by
          rw [piece, if_neg (by tauto), ← Option.some.inj h, List.nil_append]
          split <;> simp_all
        have hne : d ≠ [] := fun h0 => hi (Or.inl h0)
        obtain ⟨x, n, rfl⟩ := List.exists_cons_of_ne_nil hne
        have hhead : r.head? = some x := by
          rw [hpiece, piece, if_neg (by tauto)]
          split <;> rfl
        by_cases hx : x = '/'
        · exact Or.inr (Or.inl ⟨by rw [hx]; rfl, hpiece⟩)
        · refine Or.inr (Or.inr ⟨hi, by simpa using hx, ?_, by rw [hhead]; simpa using hx⟩)
          rintro rfl
          simp at hhead

/-- Going up from a buffer that does not begin with a slash. -/
theorem cdUp_off {buf r : Str} (hne : buf ≠ []) (hoff : buf.head? ≠ some '/')
    (h : (if ['.', '.', '/'].isPrefixOf buf then some (buf ++ ['.', '.', '/'])
      else if buf = [] then some ['.', '.', '/']
      else
        match afterLast '/' buf with
        | some rest =>
          if buf.length = rest.length + 1 then some buf
          else some (buf.take (buf.length - rest.length))
        | none => some ['.', '/']) = some r) : r ≠ [] ∧ r.head? ≠ some '/' := by
  obtain ⟨x, b, rfl⟩ := List.exists_cons_of_ne_nil hne
  have hx : x ≠ '/' := by simpa using hoff
  split at h
  · rw [← Option.some.inj h]
    exact ⟨by simp, by simpa using hx⟩
  · cases hlast : afterLast '/' (x :: b) with
    | none =>
      rw [hlast] at h
      rw [← Option.some.inj h]
      exact ⟨by simp, by simp⟩
    | some rest =>
      rw [hlast] at h
      simp only at h
      split at h
      · rw [← Option.some.inj h]
        exact ⟨hne, hoff⟩
      · obtain ⟨q, hq, -⟩ := afterLast_eq_some hlast
        -- the slash that is kept is not the first character
        obtain ⟨y, q, rfl⟩ : ∃ y q', q = y :: q' := by
          cases q with
          | nil => simp [hq] at hoff
          | cons y q' => exact ⟨y, q', rfl⟩
        have hyx : x = y := by simpa using congrArg List.head? hq
        have hlen : (x :: b).length - rest.length = (q ++ ['/']).length + 1 := by
          rw [hq]
          simp only [List.length_append, List.length_cons, List.length_nil]
          omega
        rw [hlen, List.take_succ_cons] at h
        rw [← Option.some.inj h]
        exact ⟨by simp, by simpa using hx⟩

/-- A buffer that does not begin with a slash never will. -/
theorem symlinkCd_off {m : Nat} {d buf r : Str} (hne : buf ≠ []) (hoff : buf.head? ≠ some '/')
    (h : symlinkCd m d buf = some r) : r ≠ [] ∧ r.head? ≠ some '/' := by
  unfold symlinkCd at h
  split at h
  · simp at h
  · split at h
    · rw [← Option.some.inj h]
      exact ⟨hne, hoff⟩
    · split at h
      · refine cdUp_off ?_ ?_ h
        · split
          · simp
          · exact hne
        · split
          · simp
          · exact hoff
      · have hhead : (buf ++ d).head? = buf.head? := List.head?_append_of_ne_nil _ hne
        rw [← Option.some.inj h]
        split
        · exact ⟨by simp [hne], by rwa [List.head?_append_of_ne_nil _ (by simp [hne]), hhead]⟩
        · exact ⟨by simp [hne], by rwa [hhead]⟩

theorem enterAll_off {m : Nat} {r : Str} : ∀ (dirs : List Str) (buf : Str), buf ≠ [] →
    buf.head? ≠ some '/' → dirs.foldlM (fun buf d => symlinkCd m d buf) buf = some r →
      r ≠ [] ∧ r.head? ≠ some '/' := by
  intro dirs
  induction dirs with
  | nil =>
    intro buf hne hoff h
    obtain rfl : buf = r := Option.some.inj h
    exact ⟨hne, hoff⟩
  | cons d dirs ih =>
    intro buf hne hoff h
    rw [List.foldlM_cons] at h
    cases hd : symlinkCd m d buf with
    | none => rw [hd] at h; simp at h
    | some buf' =>
      rw [hd] at h
      obtain ⟨hne', hoff'⟩ := symlinkCd_off hne hoff hd
      exact ih buf' hne' hoff' h

theorem piece_isBuf {d : Str} (hd : d.head? = some '/') (htail : '/' ∉ d.tail) :
    IsBuf (piece d) := by
  obtain ⟨x, n, rfl⟩ := List.exists_cons_of_ne_nil fun h0 : d = [] => by simp [h0] at hd
  obtain rfl : x = '/' := Option.some.inj hd
  have hhead : (piece ('/' :: n)).head? = some '/' := by
    rw [piece, if_neg (by simp)]
    split <;> rfl
  refine ⟨?_, fun h => ?_, fun h => by simp [h] at hhead⟩
  · rw [piece, if_neg (by simp)]
    split
    · assumption
    · exact List.getLast?_concat
  · obtain ⟨s, hs⟩ := h
    simp [← hs] at hhead

/-- Components that stand for nothing add nothing. -/
theorem pieces_filter : ∀ dirs : List Str,
    (dirs.filter fun c => ¬Idle c).flatMap piece = dirs.flatMap piece := by
  intro dirs
  induction dirs with
  | nil => rfl
  | cons d dirs ih =>
    by_cases hi : Idle d
    · have hp : piece d = [] := if_pos (hi.imp_right Or.inl)
      rw [List.filter_cons_of_neg (by simp [hi]), List.flatMap_cons, hp, ih]
      rfl
    · rw [List.filter_cons_of_pos (by simp [hi]), List.flatMap_cons, List.flatMap_cons, ih]

/-- What becomes of the components from an empty buffer: it stays empty, or the first of them that
stands for something decides whether the string begins with a slash. -/
theorem enterAll_nil {m : Nat} {r : Str} : ∀ dirs : List Str, (∀ d ∈ dirs, '/' ∉ d.tail) →
    dirs.foldlM (fun buf d => symlinkCd m d buf) [] = some r →
      (r = [] ∧ (dirs.filter fun c => ¬Idle c) = []) ∨
      ∃ d rest, (dirs.filter fun c => ¬Idle c) = d :: rest ∧
        ((d.head? = some '/' ∧ IsBuf r ∧ r = (d :: rest).flatMap piece) ∨
          (d.head? ≠ some '/' ∧ r ≠ [] ∧ r.head? ≠ some '/')) := by
  intro dirs
  induction dirs with
  | nil =>
    intro _ h
    exact Or.inl ⟨(Option.some.inj h).symm, rfl⟩
  | cons d dirs ih =>
    intro hdirs h
    have hrest : ∀ e ∈ dirs, '/' ∉ e.tail := fun e he => hdirs e (List.mem_cons_of_mem _ he)
    rw [List.foldlM_cons] at h
    cases hd : symlinkCd m d [] with
    | none => rw [hd] at h; simp at h
    | some buf =>
      rw [hd] at h
      rcases symlinkCd_nil hd with ⟨hi, rfl⟩ | ⟨hhead, rfl⟩ | ⟨hi, hhead, hne, hoff⟩
      · rw [List.filter_cons_of_neg (by simp [hi])]
        exact ih hrest h
      · have hi : ¬Idle d := by
          rintro (rfl | rfl) <;> simp at hhead
        rw [List.filter_cons_of_pos (by simp [hi])]
        have hbuf := piece_isBuf hhead (hdirs d (List.mem_cons_self ..))
        have hall := enterAll (m := m) dirs (piece d) hbuf hrest
        have hr : r = piece d ++ dirs.flatMap piece := by
          have h' := hall.symm.trans h
          split at h'
          · exact (Option.some.inj h').symm
          · simp at h'
        refine Or.inr ⟨d, _, rfl, Or.inl ⟨hhead, ?_, ?_⟩⟩
        · rw [hr]
          exact IsBuf.appendAll dirs _ hbuf hrest
        · rw [hr, List.flatMap_cons, pieces_filter]
      · rw [List.filter_cons_of_pos (by simp [hi])]
        exact Or.inr ⟨d, _, rfl, Or.inr ⟨hhead, enterAll_off dirs buf hne hoff h⟩⟩

/-- What stands between the slashes for a component that stands for something. -/
theorem spell_cases {d : Str} (hd : ¬Idle d) :
    (d = up ∧ spell d = []) ∨ (d = ['/'] ∧ spell d = [[]]) ∨
      (∃ n, n ≠ [] ∧ d = '/' :: n ∧ spell d = [[], n]) ∨
        (d ≠ up ∧ d.head? ≠ some '/' ∧ d ≠ [] ∧ spell d = [d]) := by
  by_cases hup : d = up
  · exact Or.inl ⟨hup, if_pos (Or.inr (Or.inr hup))⟩
  · have hne : d ≠ [] := fun h0 => hd (Or.inl h0)
    have hspell : spell d = if d = ['/'] then [[]] else if d.head? = some '/' then [[], d.tail]
      else [d] :=
      if_neg (by rintro (h | h | h); exacts [hne h, hd (Or.inr h), hup h])
    rw [hspell]
    obtain ⟨x, n, rfl⟩ := List.exists_cons_of_ne_nil hne
    by_cases hx : x = '/'
    · subst hx
      by_cases hn : n = []
      · subst hn
        exact Or.inr (Or.inl ⟨rfl, rfl⟩)
      · rw [if_neg (by simpa using hn)]
        exact Or.inr (Or.inr (Or.inl ⟨n, hn, rfl, rfl⟩))
    · rw [if_neg (by simp [hx]), if_neg (by simpa using hx)]
      exact Or.inr (Or.inr (Or.inr ⟨hup, by simpa using hx, by simp, rfl⟩))

/-- Components that leave nothing are all `..`. -/
theorem spells_nil : ∀ dirs : List Str, (∀ d ∈ dirs, ¬Idle d) → dirs.flatMap spell = [] →
    ∃ k, dirs = List.replicate k up := by
  intro dirs
  induction dirs with
  | nil => exact fun _ _ => ⟨0, rfl⟩
  | cons d dirs ih =>
    intro hdirs h
    rw [List.flatMap_cons, List.append_eq_nil_iff] at h
    obtain ⟨k, hk⟩ := ih (fun e he => hdirs e (List.mem_cons_of_mem _ he)) h.2
    rcases spell_cases (hdirs d (List.mem_cons_self ..)) with ⟨rfl, -⟩ | ⟨-, hs⟩ |
      ⟨n, -, -, hs⟩ | ⟨-, -, -, hs⟩
    · exact ⟨k + 1, by rw [hk, List.replicate_succ]⟩
    all_goals
      rw [hs] at h
      simp at h

/-- Components that leave one slash are `..` around it. -/
theorem spells_slash : ∀ dirs : List Str, (∀ d ∈ dirs, ¬Idle d) → dirs.flatMap spell = [[]] →
    ∃ k k', dirs = List.replicate k up ++ ['/'] :: List.replicate k' up := by
  intro dirs
  induction dirs with
  | nil =>
    intro _ h
    simp at h
  | cons d dirs ih =>
    intro hdirs h
    have hrest : ∀ e ∈ dirs, ¬Idle e := fun e he => hdirs e (List.mem_cons_of_mem _ he)
    rw [List.flatMap_cons] at h
    rcases spell_cases (hdirs d (List.mem_cons_self ..)) with
      ⟨rfl, hs⟩ | ⟨rfl, hs⟩ | ⟨n, -, -, hs⟩ | ⟨-, -, hne, hs⟩
    · rw [hs, List.nil_append] at h
      obtain ⟨k, k', hk⟩ := ih hrest h
      exact ⟨k + 1, k', by rw [hk, List.replicate_succ, List.cons_append]⟩
    · rw [hs] at h
      obtain ⟨k', hk'⟩ := spells_nil dirs hrest (by simpa using h)
      exact ⟨0, k', by rw [hk']; rfl⟩
    · rw [hs] at h
      simp at h
    · rw [hs] at h
      simp [hne] at h

/-- Components that are names, seen as they stand. -/
def PlainNames (names : List Str) : Prop := ∀ d ∈ names, d ≠ up ∧ d.head? ≠ some '/'

/-- The components of an absolute target that stand for something and are kept as they stand: the
first begins with the slash behind a slash, and `..` comes before the names only. -/
def StraightAbs (kept : List Str) : Prop :=
  (∃ n names, ¬Idle n ∧ n ≠ up ∧ PlainNames names ∧ kept = ('/' :: n) :: names) ∨
  (∃ k names, names ≠ [] ∧ PlainNames names ∧ kept = ['/'] :: (List.replicate k up ++ names)) ∨
  ∃ k k', kept = ['/'] :: (List.replicate k up ++ ['/'] :: List.replicate k' up)

theorem StraightAbs.head {kept : List Str} (h : StraightAbs kept) :
    ∃ d rest, kept = d :: rest ∧ d.head? = some '/' := by
  rcases h with ⟨n, names, -, -, -, rfl⟩ | ⟨k, names, -, -, rfl⟩ | ⟨k, k', rfl⟩
  all_goals exact ⟨_, _, rfl, rfl⟩

theorem foldl_ups : ∀ k : Nat, (List.replicate k up).foldl (normStep true) [] = [] := by
  intro k
  induction k with
  | zero => rfl
  | succ k ih => rwa [List.replicate_succ, List.foldl_cons, normStep_up_nil, if_pos rfl]

theorem spells_ups : ∀ k : Nat, (List.replicate k up).flatMap spell = [] := by
  intro k
  induction k with
  | zero => rfl
  | succ k ih =>
    rw [List.replicate_succ, List.flatMap_cons, ih]
    rfl

theorem strips_ups (k : Nat) : (List.replicate k up).map strip = List.replicate k up :=
  strips_plain fun d hd => by
    rw [List.eq_of_mem_replicate hd]
    decide

theorem PlainNames.spells {names : List Str} (h : PlainNames names) (hi : ∀ d ∈ names, ¬Idle d) :
    names.flatMap spell = names := by
  rw [spells_plain fun d hd => (h d hd).2, namesOf, List.filter_eq_self]
  exact fun d hd => by simpa using ⟨hi d hd, (h d hd).1⟩

theorem PlainNames.fold {names : List Str} (h : PlainNames names) (hi : ∀ d ∈ names, ¬Idle d)
    (st : List Str) : (names.map strip).foldl (normStep true) st = st ++ names := by
  have hfilter : (names.filter fun c => ¬Idle c) = names :=
    List.filter_eq_self.mpr fun d hd => by simpa using hi d hd
  rw [strips_plain fun d hd => (h d hd).2, foldl_normStep_names _ _ fun hup =>
    (h up hup).1 rfl, hfilter]

/-- What the buffer spells is the normal form, behind its first slash. -/
theorem spells_abs {kept : List Str} (hi : ∀ d ∈ kept, ¬Idle d)
    (hhead : ∃ d rest, kept = d :: rest ∧ d.head? = some '/') :
    (kept.flatMap spell = [] :: if normalize true (kept.map strip) = [] then [[]]
      else normalize true (kept.map strip)) ↔ StraightAbs kept := by
  constructor
  · intro heq
    obtain ⟨d, rest, rfl, hd⟩ := hhead
    have hrest : ∀ e ∈ rest, ¬Idle e := fun e he => hi e (List.mem_cons_of_mem _ he)
    -- where the rest spells what is left of the path, none of it begins with a slash
    have hplain : ∀ st : List Str, (∀ e ∈ st, ¬Idle e) → (∀ e ∈ rest.flatMap spell, e ∈ st) →
        ∀ e ∈ rest, e.head? ≠ some '/' := fun st hst hmem e he hslash =>
      hst [] (hmem [] (List.mem_flatMap.mpr ⟨e, he, nil_mem_spell hslash⟩)) (Or.inl rfl)
    have hstrip : normalize true ((d :: rest).map strip) =
        (rest.map strip).foldl (normStep true) (normStep true [] (strip d)) := rfl
    have hst : ∀ e ∈ normalize true ((d :: rest).map strip), ¬Idle e ∧ (e = up → true = false) :=
      fun e he => (normalize_mem he).2
    generalize normalize true ((d :: rest).map strip) = st at heq hstrip hst
    rw [List.flatMap_cons] at heq
    rcases spell_cases (hi d (List.mem_cons_self ..)) with
      ⟨rfl, -⟩ | ⟨rfl, hs⟩ | ⟨n, hn, rfl, hs⟩ | ⟨-, h, -⟩
    · simp [up] at hd
    · rw [hs] at heq
      simp only [List.cons_append, List.nil_append, List.cons.injEq, true_and] at heq
      by_cases hnil : st = []
      · rw [if_pos hnil] at heq
        obtain ⟨k, k', hk⟩ := spells_slash rest hrest heq
        exact Or.inr (Or.inr ⟨k, k', by rw [hk]⟩)
      · rw [if_neg hnil] at heq
        have hheads := hplain st (fun e he => (hst e he).1) fun e he => heq ▸ he
        rw [spells_plain hheads] at heq
        have hfold : st = rest.foldl (normStep true) [] := by
          rw [hstrip, strips_plain hheads]
          rfl
        obtain ⟨k, hk⟩ := ((foldl_rooted_length rest [] (by simp)).2 (by
          rw [← hfold, ← heq]
          simp)).2
        have hkept : (rest.filter fun c => ¬Idle c) = rest :=
          List.filter_eq_self.mpr fun e he => by simpa using hrest e he
        rw [hkept] at hk
        refine Or.inr (Or.inl ⟨k, namesOf rest, heq ▸ hnil, fun e he => ?_, by rw [← hk]⟩)
        have hmem := List.mem_filter.mp he
        exact ⟨(of_decide_eq_true hmem.2).2, hheads e hmem.1⟩
    · rw [hs] at heq
      simp only [List.cons_append, List.nil_append, List.cons.injEq, true_and] at heq
      have hnil : st ≠ [] := by
        intro hnil
        rw [if_pos hnil, List.cons.injEq] at heq
        exact hn heq.1
      rw [if_neg hnil] at heq
      have hheads :=
        hplain st (fun e he => (hst e he).1) fun e he => heq ▸ List.mem_cons_of_mem _ he
      rw [spells_plain hheads] at heq
      obtain ⟨hni, hnup⟩ := hst n (heq ▸ List.mem_cons_self ..)
      have hnup' : n ≠ up := fun h => by simpa using hnup h
      have hfold : st = rest.foldl (normStep true) [n] := by
        rw [hstrip, strips_plain hheads]
        show rest.foldl _ (normStep true [] n) = _
        rw [normStep_name hni hnup']
        rfl
      have hup := ((foldl_rooted_length rest [n] (by simpa using Ne.symm hnup')).2 (by
        rw [← hfold, ← heq]
        simp [Nat.add_comm])).1 (by simp)
      refine Or.inl ⟨n, rest, hni, hnup', fun e he => ⟨?_, hheads e he⟩, rfl⟩
      rintro rfl
      exact hup he
    · exact absurd hd h
  · rintro (⟨n, names, hn, hnup, hplain, rfl⟩ | ⟨k, names, hne, hplain, rfl⟩ | ⟨k, k', rfl⟩)
    · have hnames : ∀ d ∈ names, ¬Idle d := fun d hd => hi d (List.mem_cons_of_mem _ hd)
      have hst : normalize true ((('/' :: n) :: names).map strip) = n :: names := by
        rw [PosixFs.normalize, List.map_cons, List.foldl_cons, hplain.fold hnames]
        show normStep true [] n ++ names = _
        rw [normStep_name hn hnup]
        rfl
      have hspell : spell ('/' :: n) = [[], n] := by
        rcases spell_cases (hi _ (List.mem_cons_self ..)) with ⟨h, -⟩ | ⟨h, -⟩ |
          ⟨n', -, h, hs⟩ | ⟨-, h, -⟩
        · simp [up] at h
        · exact absurd (Or.inl (List.cons.inj h).2) hn
        · rw [hs, (List.cons.inj h).2]
        · exact absurd rfl h
      rw [hst, if_neg (by simp), List.flatMap_cons, hspell, hplain.spells hnames]
      rfl
    · have hnames : ∀ d ∈ names, ¬Idle d := fun d hd =>
        hi d (List.mem_cons_of_mem _ (List.mem_append_right _ hd))
      have hst : normalize true ((['/'] :: (List.replicate k up ++ names)).map strip) = names := by
        rw [PosixFs.normalize, List.map_cons, List.foldl_cons, List.map_append,
          List.foldl_append, strips_ups]
        show (names.map strip).foldl (normStep true)
          ((List.replicate k up).foldl (normStep true) []) = _
        rw [foldl_ups, hplain.fold hnames]
        rfl
      rw [hst, if_neg hne, List.flatMap_cons, List.flatMap_append, spells_ups, hplain.spells hnames]
      rfl
    · have hst : normalize true
          ((['/'] :: (List.replicate k up ++ ['/'] :: List.replicate k' up)).map strip) = [] := by
        rw [PosixFs.normalize, List.map_cons, List.foldl_cons, List.map_append,
          List.foldl_append, strips_ups,
          List.map_cons, List.foldl_cons, strips_ups]
        show (List.replicate k' up).foldl (normStep true)
          (normStep true ((List.replicate k up).foldl (normStep true) []) []) = []
        rw [foldl_ups]
        exact foldl_ups k'
      rw [hst, if_pos rfl, List.flatMap_cons, List.flatMap_append, List.flatMap_cons,
        spells_ups, spells_ups]
      rfl

/-- The string of an absolute path, with a slash behind it. -/
theorem normalStr_slash (st : List Str) : normalStr true st ++ ['/'] =
    ([] :: if st = [] then [[]] else st).flatMap (· ++ ['/']) := by
  rw [normalStr, if_pos rfl]
  split
  · rfl
  · rw [below_slash]
    rfl

theorem strips_filter (dirs : List Str) :
    normalize true ((dirs.filter fun c => ¬Idle c).map strip) =
    normalize true (dirs.map strip) := by
  have hfold :
    ∀ (dirs st : List Str), ((dirs.filter fun c => ¬Idle c).map strip).foldl (normStep true) st =
      (dirs.map strip).foldl (normStep true) st := by
    intro dirs
    induction dirs with
    | nil => exact fun _ => rfl
    | cons d dirs ih =>
      intro st
      by_cases hi : Idle d
      · have hs : strip d = d := by
          rcases hi with rfl | rfl <;> rfl
        rw [List.filter_cons_of_neg (by simp [hi]), List.map_cons, List.foldl_cons, hs,
          normStep_idle hi]
        exact ih st
      · rw [List.filter_cons_of_pos (by simp [hi])]
        exact ih _
  exact hfold dirs []

/-- An absolute target gets its normal form when nothing in it has to be taken away. -/
theorem absolute_normal {m : Nat} {t buf : Str}
    (h : (seenDirs t).foldlM (fun buf d => symlinkCd m d buf) [] = some buf) :
    trimLast '/' buf = normalStr true (normalize true (components t)) ↔
      StraightAbs ((seenDirs t).filter fun c => ¬Idle c) := by
  have hnormal := normalize_seen true [] t
  rw [List.nil_append, List.nil_append, ← strips_filter] at hnormal
  rw [hnormal]
  have hslash : (normalStr true (normalize true
      (((seenDirs t).filter fun c => ¬Idle c).map strip))).head? = some '/' := by
    rw [normalStr, if_pos rfl]
    split
    · rfl
    · next hne =>
      obtain ⟨c, st, hst⟩ := List.exists_cons_of_ne_nil hne
      rw [hst]
      rfl
  have hkept : ∀ d ∈ (seenDirs t).filter fun c => ¬Idle c, ¬Idle d ∧ '/' ∉ d.tail := fun d hd =>
    ⟨by simpa using (List.mem_filter.mp hd).2, seenDirs_tail t d (List.mem_filter.mp hd).1⟩
  -- nothing is entered, or the first piece begins with a slash, or it does not
  rcases enterAll_nil (seenDirs t) (seenDirs_tail t) h with
    ⟨rfl, hnil⟩ | ⟨d, rest, hd, ⟨hhead, hbuf, hr⟩ | ⟨hhead, hne, hoff⟩⟩
  · rw [hnil]
    refine iff_of_false (fun heq => ?_) fun hs => ?_
    · rw [hnil] at hslash
      rw [← heq] at hslash
      simp [trimLast] at hslash
    · obtain ⟨d, rest, hk, -⟩ := hs.head
      simp at hk
  · rw [← spells_abs (fun e he => (hkept e he).1) ⟨d, rest, hd, hhead⟩]
    obtain ⟨b, hb⟩ := List.getLast?_eq_some_iff.mp hbuf.last
    have htrim : trimLast '/' buf ++ ['/'] =
        (((seenDirs t).filter fun c => ¬Idle c).flatMap spell).flatMap (· ++ ['/']) := by
      rw [hb, trimLast_concat, ← hb, hr, ← hd, pieces_spell _ fun e he => (hkept e he).2]
    constructor
    · intro heq
      rw [heq, normalStr_slash] at htrim
      refine (slashes_inj ?_ ?_ htrim).symm
      · intro c hc
        rcases List.mem_cons.mp hc with rfl | hc
        · simp
        · split at hc
          · simp_all
          · rw [← hnormal] at hc
            exact normalize_noslash (components_noslash t) c hc
      · intro c hc
        obtain ⟨e, he, hc⟩ := List.mem_flatMap.mp hc
        exact spell_noslash (hkept e he).2 hc
    · intro heq
      refine List.append_cancel_right (htrim.trans ?_)
      rw [normalStr_slash, heq]
  · refine iff_of_false (fun heq => ?_) fun hs => ?_
    · rw [← heq, trimLast] at hslash
      split at hslash
      · cases buf with
        | nil => exact hne rfl
        | cons x b =>
          cases b with
          | nil => simp at hslash
          | cons y b => exact hoff hslash
      · exact hoff hslash
    · obtain ⟨d', rest', hk, hd'⟩ := hs.head
      rw [hd, List.cons.injEq] at hk
      rw [hk.1] at hhead
      exact hhead hd'

/-! ## Targets -/

/-- The normal form of the target `t` of a link in the directory `ds`. -/
def targetNormal (ds : List Str) (t : Str) : Str :=
  if t.head? = some '/' then normalStr true (normalize true (components t))
  else normalStr false (normalize false (ds ++ components t))

/-- The targets in which nothing has to be taken away. -/
def Straight (t : Str) : Prop :=
  if t.head? = some '/' then StraightAbs ((seenDirs t).filter fun c => ¬Idle c) else StraightRel t

/-- **Where a link points.** For a target that fits, `spf_symlink_resolve` gives the normal form
exactly if nothing in it has to be taken away. -/
theorem spfSymlinkResolve_normal {m : Nat} {ds : List Str} {spf : SpFile} {t r : Str}
    (hds : ∀ d ∈ ds, IsName d) (ht : spf.spfSymlink = some t)
    (hfits : spfSymlinkResolve (dirStr ds) spf m = some r) :
    r = targetNormal ds t ↔ Straight t := by
  unfold targetNormal Straight
  by_cases habs : t.head? = some '/'
  · rw [if_pos habs, if_pos habs]
    rw [spfSymlinkResolve_seen ht, startBuf, if_pos habs, Option.bind_some,
      Option.map_eq_some_iff] at hfits
    obtain ⟨buf, hbuf, rfl⟩ := hfits
    exact absolute_normal hbuf
  · rw [if_neg habs, if_neg habs]
    rw [spfSymlinkResolve_relative hds ht habs] at hfits
    split at hfits
    · rw [← Option.some.inj hfits]
      exact dotted_normal hds
    · simp at hfits

/-- Links out of the directory `a`: to `b` beside it, and to `/b`. -/
def linkUp : SpFile :=
  { (default : SpFile) with spfType := .symlink, spfSymlink := some ['.', '.', '/', 'b'] }
def linkRoot : SpFile :=
    { (default : SpFile) with spfType := .symlink, spfSymlink := some ['/', 'b'] }

theorem spfSymlinkResolve_normal_linkUp :
    ['.', '/', 'a', '/', 'b'] = targetNormal [['a']] ['.', '.', '/', 'b'] ↔
    Straight ['.', '.', '/', 'b'] :=
  spfSymlinkResolve_normal (m := 255) (by decide) (rfl : linkUp.spfSymlink = _) (by decide)

/-- The one stays in the directory, the other loses its slash. -/
theorem spfSymlinkResolve_abnormal :
    (∃ r, spfSymlinkResolve (dirStr [['a']]) linkUp 255 = some r ∧
      r ≠ targetNormal [['a']] ['.', '.', '/', 'b']) ∧
    ∃ r, spfSymlinkResolve (dirStr [['a']]) linkRoot 255 = some r ∧
      r ≠ targetNormal [['a']] ['/', 'b'] :=
  ⟨⟨['.', '/', 'a', '/', 'b'], by decide, by decide⟩, ['b'], by decide, by decide⟩

end Spegla
