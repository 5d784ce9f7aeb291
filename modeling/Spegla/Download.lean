import Spegla.TempFile

/-!
# The restarts of a download

`get_ftp_file` tries again after a lost connection, and once after a full file
system. What a download keeps through all of this is what each of its steps keeps.

- `Tries`: invariants of the tries, with what holds at their end.
- `reloginFile_upholds`, `restart_upholds`: the two loops.
- `getFtpFile_provided`: the whole, from a state in which the entry has a proper name.
-/

namespace Spegla

open CString PosixFs ExitState

variable {F : Type} {env : Env F} {ok : Logged → Prop} {G : World F → Prop}

/-- What an operation does, provided that what it records meets `ok`. -/
abbrev Does (ok : Logged → Prop) (G P : World F → Prop) {α : Type} (x : Prog F α)
    (P' : α → World F → Prop) : Prop := Upholds World.trace ok G P x P'

/-- The record only gets longer. -/
theorem grows_of_loose {α : Type} {x : Prog F α} (h : ∀ {I : World F → Prop}, Loose I → Keeps I x) :
    Grows World.trace x := fun tr => h (grew_loose tr)

theorem Does.record {e : Event} {P Q : World F → Prop}
    (h : ∀ w, P w → ok ⟨e, w.curDir, w.fs⟩ → Q (w.logged e)) :
    Does ok G P (Spegla.record e) fun _ => Q := fun w =>
  ⟨[⟨e, w.curDir, w.fs⟩], rfl, fun hok hp => h w hp (hok _ (List.mem_singleton_self _))⟩

/-- A call of `ftp_get` for the temporary file, provided that its event meets `ok`. -/
theorem ftpGet_does {w₀ : World F} {s remoteFile : Str} {p : Path} {seekto : Nat}
    {P : Option Str → World F → Prop} {P' : Bool → World F → Prop}
    (h : ∀ c w t w', During env w₀ s p c w → P c w → w'.ftpResp = t.resp →
      w'.trace = ⟨.ftpGet remoteFile seekto t.data t.ok t.resp, w₀.curDir, w'.fs⟩ :: w.trace →
      ok ⟨.ftpGet remoteFile seekto t.data t.ok t.resp, w₀.curDir, w'.fs⟩ →
      GetOutcome env w₀ s p c remoteFile seekto w t w' → P' t.ok w') :
    Does ok G (fun w => ∃ c, During env w₀ s p c w ∧ P c w)
      (ftpGet env s remoteFile seekto) P' := by
  refine Upholds.of_provided (grows_of_loose fun hI => hI.ftpGet _ _ _) ?_
  rintro w ⟨c, hd, hp⟩
  refine wp_mono (ftpGet_during (E := fun _ _ => False) hd) ?_ fun _ _ h => h.elim
  rintro _ w' ⟨t, rfl, hresp, -, htrace, hout⟩
  exact ⟨[_], htrace, fun hok =>
    h c w t w' hd hp hresp htrace (hok _ (List.mem_singleton_self _)) hout⟩

/-- What holds between the tries of the download of `remoteFile` to `localFile`, for an
offset and whether the file is begun anew: `D` before a try, `B` after one that has
failed and `A` once the size has been looked at. A successful try gives `Done`, and one
that meets a full file system gives `D` again, with `Full`; in the end there is `R`. -/
structure Tries (env : Env F) (ok : Logged → Prop) (G : World F → Prop) (spf : SpFile)
    (remoteFile localFile : Str) (D B A : Nat → Bool → World F → Prop)
    (Done Full R : World F → Prop) : Prop where
  exits : ∀ size erased w, D size erased w → G w
  lost : ∀ size erased w, B size erased w → G w
  ends : ∀ w, R w → G w
  again : ∀ size erased w, A size erased w → D size erased w
  refused : ∀ size erased w, A size erased w → B size erased w
  retry : ∀ size erased w n, B size erased w → B size erased { w with ftpRetries := n }
  resume : ∀ size erased,
    Does ok G (B size erased) (resumeSize env spf localFile size erased) fun r => A r.1 r.2
  login : ∀ size erased, Does ok G (A size erased) (ftpRelogin env) fun _ => A size erased
  giveUp : ∀ size erased, Does ok G (B size erased) (giveUp env spf) fun _ => R
  get : ∀ size erased, Does ok G (D size erased) (ftpGet env localFile remoteFile size) fun b w =>
    (b = true → Done w) ∧ (b = false → w.ftpResp ≠ JFTP_WRITEERR → B size erased w) ∧
      (b = false → w.ftpResp = JFTP_WRITEERR → D size erased w ∧ Full w)
  finish : Does ok G Done (finishFile env spf) fun _ => R
  cut : ∀ size erased, Does ok G (fun w => D size erased w ∧ Full w)
    (act env .openTrunc (some remoteFile) (truncate env.cwd)) fun _ w => D size erased w ∧ Full w
  remove : ∀ size erased, Does ok G (fun w => D size erased w ∧ Full w)
    (act env .unlink (some remoteFile) fun _ => unlink env.cwd) fun _ => D size erased

variable {spf : SpFile} {remoteFile localFile : Str} {D B A : Nat → Bool → World F → Prop}
variable {Done Full R : World F → Prop}

/-- Tries that are never made. -/
theorem Tries.never (hR : ∀ w, R w → G w) :
    Tries env ok G spf remoteFile localFile (fun _ _ _ => False) (fun _ _ _ => False)
      (fun _ _ _ => False) (fun _ => False) (fun _ => False) R where
  exits _ _ _ h := h.elim
  lost _ _ _ h := h.elim
  ends := hR
  again _ _ _ h := h
  refused _ _ _ h := h
  retry _ _ _ _ h := h
  resume _ _ := Upholds.absurd (grows_of_loose fun hI => hI.resumeSize _ _ _ _) fun _ h => h
  login _ _ := Upholds.absurd (grows_of_loose fun hI => ftpRelogin_keeps hI.toStable) fun _ h => h
  giveUp _ _ := Upholds.absurd (grows_of_loose fun hI => hI.giveUp spf) fun _ h => h
  get _ _ := Upholds.absurd (grows_of_loose fun hI => hI.ftpGet _ _ _) fun _ h => h
  finish := Upholds.absurd (grows_of_loose fun hI => hI.finishFile spf) fun _ h => h
  cut _ _ := Upholds.absurd (grows_of_loose fun hI => hI.act) fun _ h => h.1
  remove _ _ := Upholds.absurd (grows_of_loose fun hI => hI.act) fun _ h => h.1

/-- Logging in again: by induction on the retries. -/
theorem reloginFile_upholds (h : Tries env ok G spf remoteFile localFile D B A Done Full R) :
    ∀ fuel size erased, Does ok G (B size erased) (reloginFile env spf localFile fuel size erased)
      fun r => A r.1 r.2
  | 0, size, erased => Upholds.throw fun w hw => h.lost size erased w hw
  | fuel + 1, size, erased => by
    refine Upholds.update (fun _ => rfl) (fun w hw => h.retry size erased w (w.ftpRetries - 1) hw)
      fun w => Upholds.ite (fun _ => ?_) fun _ => ?_
    · exact (h.giveUp size erased).bind fun _ => Upholds.throw h.ends
    · refine (h.resume size erased).bind fun r => (h.login r.1 r.2).bind fun b => ?_
      cases b with
      | true => exact Upholds.pure fun _ hw => hw
      | false => exact (reloginFile_upholds h fuel r.1 r.2).pre (h.refused r.1 r.2)

/-- The tries themselves. -/
theorem restart_upholds (h : Tries env ok G spf remoteFile localFile D B A Done Full R) :
    ∀ fuel size rmedOrig erased, Does ok G (D size erased)
      (restart env spf remoteFile localFile fuel size rmedOrig erased) fun _ => R
  | 0, size, _, erased => Upholds.throw (h.exits size erased)
  | fuel + 1, size, rmedOrig, erased => by
    refine (h.get size erased).bind fun b => ?_
    cases b with
    | true => exact h.finish.pre fun _ hw => hw.1 rfl
    | false =>
      refine Upholds.pre (P := fun w => (w.ftpResp ≠ JFTP_WRITEERR → B size erased w) ∧
        (w.ftpResp = JFTP_WRITEERR → D size erased w ∧ Full w)) ?_
        fun w hw => ⟨hw.2.1 rfl, hw.2.2 rfl⟩
      refine Upholds.get.bind fun w => Upholds.ite (fun hlost => ?_) fun _ => Upholds.ite
        (fun herr => ?_) fun _ => Upholds.ite (fun hfull => ?_) fun hother => ?_
      · refine ((reloginFile_upholds h _ size erased).pre ?_).bind fun r =>
          (restart_upholds h fuel _ _ _).pre fun s hs => h.again _ _ s hs
        rintro s ⟨rfl, hB, -⟩
        exact hB fun hresp => by rcases hlost with hlost | hlost <;> simp [hresp, JFTP_WRITEERR,
          JFTP_BROKEN, JFTP_TIMEOUT] at hlost
      · refine (h.giveUp size erased).pre ?_
        rintro s ⟨rfl, hB, -⟩
        exact hB fun hresp => by simp [hresp, JFTP_WRITEERR, JFTP_ERR] at herr
      · refine Upholds.pre (P := fun s => D size erased s ∧ Full s) ?_ ?_
        · refine Upholds.ite
            (fun _ => Upholds.throw fun s hs => h.exits size erased s hs.1) fun _ => ?_
          refine (h.cut size erased).bind fun _ => (h.remove size erased).bind fun _ => ?_
          exact restart_upholds h fuel size true erased
        · rintro s ⟨rfl, -, hD⟩
          exact hD hfull
      · refine Upholds.throw ?_
        rintro s ⟨rfl, hB, -⟩
        exact h.lost size erased w (hB hother)

/-- **A download.** From a state in which the entry has a proper name, it ends with `R`,
provided that what it records meets `ok`: if `R` holds where nothing has been done, and
at the end of the tries with any temporary file. -/
theorem getFtpFile_provided {w : World F} (hcur : w.curDir.getLast? = some '/')
    (hname : ok ⟨.fetch spf, w.curDir, w.fs⟩ → '/' ∉ spf.spfName)
    (hself : R (w.logged (.fetch spf)) ∧ R (w.logged (.fetch spf)).ticked)
    (htries : ok ⟨.fetch spf, w.curDir, w.fs⟩ →
      ∀ (suffix : TempSuffix) (p : Path) (remoteFile s : Str),
      s = w.curDir ++ tempName spf.spfName suffix →
      fullName env.pathMax w.curDir (tempName spf.spfName suffix) = some s →
      fullName env.pathMax w.curDir spf.spfName = some remoteFile →
      ∃ (D B A : Nat → Bool → World F → Prop) (Done Full : World F → Prop),
        Tries env ok G (spf.temp suffix) remoteFile s D B A Done Full R ∧
        ∀ w', During env w s p (some []) w' → w'.trace = (w.logged (.fetch spf)).trace →
          w'.ftp = w.ftp → D 0 false w') :
    wp (getFtpFile env spf) w (fun _ w' => Provided World.trace ok w w' (R w'))
      (fun _ w' => Provided World.trace ok w w' (G w')) := by
  have hrest : wp (downloadFile env spf) (w.logged (.fetch spf))
      (fun _ w' => ok ⟨.fetch spf, w.curDir, w.fs⟩ →
        Provided World.trace ok (w.logged (.fetch spf)) w' (R w'))
      (fun _ w' => ok ⟨.fetch spf, w.curDir, w.fs⟩ →
        Provided World.trace ok (w.logged (.fetch spf)) w' (G w')) := by
    -- where the condition does not hold, nothing is promised from this call on
    by_cases hok : ok ⟨.fetch spf, w.curDir, w.fs⟩
    swap
    · exact wp_true (fun _ _ h => absurd h hok) fun _ _ h => absurd h hok
    unfold downloadFile
    rw [wp_bind, wp_get]
    cases hremote : spfFullName env spf (w.logged (.fetch spf)) with
    | none => exact fun _ => Provided.of rfl hself.1
    | some remoteFile =>
      -- without a temporary name the call gives up, and only the clock may have gone on
      refine wp_seq (spfUseTmpName_spec (hname hok) hcur) ?_
      rintro r w₁ (⟨rfl, hw₁⟩ | ⟨suffix, p, rfl, htrace, hftp, hfull, hd⟩)
      · rcases hw₁ with rfl | rfl
        · exact fun _ => Provided.of rfl hself.1
        · exact fun _ => Provided.of rfl hself.2
      · obtain ⟨D, B, A, Done, Full, ht, hstart⟩ :=
          htries hok suffix p remoteFile _ rfl hfull hremote
        have hlocal : spfFullName env (spf.temp suffix) w₁ =
            some (w.curDir ++ tempName spf.spfName suffix) := by
          unfold spfFullName
          rw [hd.curDir]
          exact hfull
        have hd' : During env w (w.curDir ++ tempName spf.spfName suffix) p (some []) w₁ :=
          ⟨hd.scratch, hd.curDir, hd.hist⟩
        simp only
        rw [wp_bind, wp_get, hlocal]
        refine wp_mono ((restart_upholds ht (w₁.ftpRetries.toNat + 4) 0 false false).run
          (hstart w₁ hd' htrace hftp)) (fun _ w' h _ => ?_) fun _ w' h _ => ?_
        all_goals
          obtain ⟨new, hnew, hp⟩ := h
          exact ⟨new, by rw [hnew, htrace], hp⟩
  unfold getFtpFile
  rw [wp_bind, wp_record]
  have hgrow : EndsIn (fun w' => (w.logged (.fetch spf)).trace <:+ w'.trace) (downloadFile env spf)
      (w.logged (.fetch spf)) :=
    (grew_loose (w.logged (.fetch spf)).trace).downloadFile spf _ (List.suffix_refl _)
  exact wp_mono (wp_and hrest hgrow) (fun _ _ h => Provided.cons rfl h.2 h.1)
    fun _ _ h => Provided.cons rfl h.2 h.1

end Spegla
