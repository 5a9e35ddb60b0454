import Okws.InHdrFrag
import Okws.OkwcHdr

namespace Okws

open Lib

namespace OkwcHdr

variable {cfg : OkwcHdrConfig} {v v' : OkwcHdr} {t t' : Tape} {r : Stat}

theorem word_merges (S : Scanner UInt8 Scratch (Except Stat Str))
    (set : OkwcHdr → Str → Stat × OkwcHdr) : (word S set).Merges :=
  Reader.merges_ofScan (fun _ _ => rfl) fun _ _ _ => rfl

theorem skipHws_merges (mn : Nat) : (skipHws mn).Merges :=
  Reader.merges_ofScan (fun _ _ => rfl) fun _ _ _ => rfl

theorem eol_merges : eol.Merges := Reader.merges_ofScan (fun _ _ => rfl) fun _ _ _ => rfl

theorem gobbleCrlf_merges : gobbleCrlf.Merges :=
  Reader.merges_ofScan (fun _ _ => rfl) fun _ _ _ => rfl

theorem requireCrlf_merges : requireCrlf.Merges :=
  Reader.merges_ofScan (fun _ _ => rfl) fun _ _ _ => rfl

theorem spc2_wait (ht : t.Live) (h : eol v t = (none, v', t')) :
    skipHws 1 v' t' = (none, v', t') := by
  obtain ⟨s, hs, -⟩ := Reader.ofScan_wait_inv h
  have hw := Tape.get_asleep ht.ready (scan_eol_wait hs)
  rw [skipHws, Reader.ofScan_none (scan_wait (S := skipHwsScanner 1) rfl hw)]

theorem act_keep {q : OkwcHdrSt} (ht : t.Live) (h : act cfg q v t = (some r, v', t')) :
    act cfg q v t.unwait = (some r, v', t'.unwait) ∧ t.Kept t' := by
  cases q with
  | start => exact (word_merges _ _).keep ht h
  | spc1 => exact (skipHws_merges 1).keep ht h
  | statusNum => exact (word_merges _ _).keep ht h
  | spc2 =>
    simp only [act] at h ⊢
    rcases he : eol v t with ⟨_ | x, v₁, t₁⟩ <;> rw [he] at h
    · simp only [reduceCtorEq, if_false, spc2_wait ht he] at h
      cases h
    · obtain ⟨hm, hkept⟩ := eol_merges.keep ht he
      rw [hm]
      simp only at h ⊢
      split at h
      · next hx =>
        cases h
        exact ⟨if_pos hx, hkept⟩
      · next hx =>
        obtain ⟨hm₂, hkept₂⟩ := (skipHws_merges 1).keep hkept.live h
        exact ⟨(if_neg hx).trans hm₂, hkept.trans hkept₂⟩
  | statusDesc => exact Reader.onStat_keep eol_merges (word_merges _ _) ht h
  | eol1 => exact requireCrlf_merges.keep ht h
  | key => exact Reader.onStat_keep gobbleCrlf_merges (word_merges _ _) ht h
  | spc3 => exact (skipHws_merges 1).keep ht h
  | value =>
    simp only [act] at h ⊢
    split at h
    · next hc =>
      cases h
      exact ⟨if_pos hc, ht.kept⟩
    · next hc =>
      obtain ⟨hm, hkept⟩ := (word_merges _ _).keep ht h
      exact ⟨(if_neg hc).trans hm, hkept⟩
  | eol2a =>
    simp only [act] at h ⊢
    split at h
    · next hc =>
      cases h
      exact ⟨if_pos hc, ht.kept⟩
    · next hc =>
      rw [if_neg hc]
      split at h <;> cases h
      · next hk => exact ⟨if_pos hk, ht.kept⟩
      · next hk => exact ⟨if_neg hk, ht.kept⟩
  | eol2b => exact requireCrlf_merges.keep ht h
  | beyond =>
    cases h
    exact ⟨rfl, ht.kept⟩

theorem act_waited {q : OkwcHdrSt} (ht : t.Live) (h : act cfg q v t = (none, v', t')) :
    t.Waited t' := by
  cases q with
  | start => exact ((word_merges _ _).wait ht h).2
  | spc1 => exact ((skipHws_merges 1).wait ht h).2
  | statusNum => exact ((word_merges _ _).wait ht h).2
  | spc2 =>
    simp only [act] at h
    rcases he : eol v t with ⟨_ | x, v₁, t₁⟩ <;> rw [he] at h
    · simp only [reduceCtorEq, if_false, spc2_wait ht he] at h
      cases h
      exact (eol_merges.wait ht he).2
    · have hkept := (eol_merges.keep ht he).2
      simp only at h
      split at h
      · cases h
      · exact hkept.waited ((skipHws_merges 1).wait hkept.live h).2
  | statusDesc => exact Reader.onStat_waited eol_merges (word_merges _ _) ht h
  | eol1 => exact (requireCrlf_merges.wait ht h).2
  | key => exact Reader.onStat_waited gobbleCrlf_merges (word_merges _ _) ht h
  | spc3 => exact ((skipHws_merges 1).wait ht h).2
  | value =>
    simp only [act] at h
    split at h
    · cases h
    · exact ((word_merges _ _).wait ht h).2
  | eol2a =>
    simp only [act] at h
    split at h
    · cases h
    · split at h <;> cases h
  | eol2b => exact (requireCrlf_merges.wait ht h).2
  | beyond => cases h

def control (v : OkwcHdr) : OkwcHdrSt × Option Cgi := (v.state, v.ck)

theorem word_control {S : Scanner UInt8 Scratch (Except Stat Str)}
    {set : OkwcHdr → Str → Stat × OkwcHdr} (hset : ∀ v s, control (set v s).2 = control v) :
    Reader.Keeps control (word S set) :=
  Reader.keeps_ofScan (fun _ _ => rfl) fun v r => by cases r <;> simp [hset]

theorem eol_control : Reader.Keeps control eol :=
  Reader.keeps_ofScan (fun _ _ => rfl) fun _ _ => rfl

theorem skipHws_control (mn : Nat) : Reader.Keeps control (skipHws mn) :=
  Reader.keeps_ofScan (fun _ _ => rfl) fun _ _ => rfl

theorem requireCrlf_control : Reader.Keeps control requireCrlf :=
  Reader.keeps_ofScan (fun _ _ => rfl) fun _ _ => rfl

theorem gobbleCrlf_control : Reader.Keeps control gobbleCrlf :=
  Reader.keeps_ofScan (fun _ _ => rfl) fun v r => by split <;> rfl

theorem setStatus_control (cfg : OkwcHdrConfig) (v : OkwcHdr) (s : Str) :
    control (setStatus cfg v s).2 = control v := by
  unfold setStatus
  split <;> rfl

variable (cfg) in
theorem act_control {q : OkwcHdrSt} (hv : q ≠ .value) : Reader.Keeps control (act cfg q) := by
  cases q with
  | start => exact word_control fun _ _ => rfl
  | spc1 => exact skipHws_control 1
  | statusNum => exact word_control (setStatus_control cfg)
  | spc2 =>
    intro v t
    have he := eol_control v t
    simp only [act]
    split
    · exact he
    · exact (skipHws_control 1 _ _).trans he
  | statusDesc => exact Reader.keeps_onStat eol_control (word_control fun _ _ => rfl)
  | eol1 => exact requireCrlf_control
  | key => exact Reader.keeps_onStat gobbleCrlf_control (word_control fun _ _ => rfl)
  | spc3 => exact skipHws_control 1
  | value => exact absurd rfl hv
  | eol2a =>
    intro v t
    simp only [act]
    split
    · rfl
    · split <;> rfl
  | eol2b => exact requireCrlf_control
  | beyond => exact fun _ _ => rfl

theorem act_frame {q : OkwcHdrSt} {x : Option Stat} (h : act cfg q v t = (x, v', t')) :
    v'.state = v.state ∧ (v'.ck = v.ck ∨
      (q = .value ∧ x = some .ok ∧ v'.ck = some (Cgi.newCookie cfg.scratchSz))) := by
  by_cases hv : q = .value
  · subst hv
    simp only [act] at h
    split at h
    · cases h
      exact ⟨rfl, .inr ⟨rfl, rfl, rfl⟩⟩
    · have hk : Reader.Keeps control (word delimitVal setVal) := word_control fun _ _ => rfl
      have hcontrol := hk v t
      rw [h] at hcontrol
      simp only [control, Prod.mk.injEq] at hcontrol
      exact ⟨hcontrol.1, .inl hcontrol.2⟩
  · have hcontrol := act_control cfg hv v t
    rw [h] at hcontrol
    simp only [control, Prod.mk.injEq] at hcontrol
    exact ⟨hcontrol.1, .inl hcontrol.2⟩

/-- Behind the line that ends here, a field has a blank behind its colon, or there is none. -/
def spaced (v : OkwcHdr) (t : Tape) : Bool :=
  match requireCrlf v t with
  | (some .ok, v₁, t₁) => match fieldKey v₁ t₁ with
    | (some .ok, _, t₂) => match t₂.get.1 with
      | .byte b => Byte.isHws b
      | _ => false
    | _ => true
  | _ => true

/-- Behind the line that ends here, there is no field. -/
def fieldless (v : OkwcHdr) (t : Tape) : Bool :=
  match requireCrlf v t with
  | (some .ok, v₁, t₁) => (gobbleCrlf v₁ t₁).1 != some .nomatch
  | _ => true

/-- When a suspension in state `q` leaves no trace in the outcome: no line ends behind the blanks,
or the first part of a description, or of a key, that were read before it; or what is read again
there is not used. -/
def Quiet (q : OkwcHdrSt) (v : OkwcHdr) (rest : Tape) : Prop :=
  match q with
  | .spc2 => v.spcs = 0 ∨ Inside rest ∨ spaced v rest = true
  | .statusDesc => v.scr.text = [] ∨ Inside rest ∨ fieldless v rest = true
  | .key => v.scr.text = [] ∨ Inside rest ∨ v.statusHeader ≠ Http.noStatus
  | _ => True

instance (q : OkwcHdrSt) (v : OkwcHdr) (rest : Tape) : Decidable (Quiet q v rest) :=
  match q with
  | .spc2 => inferInstanceAs (Decidable (v.spcs = 0 ∨ Inside rest ∨ spaced v rest = true))
  | .statusDesc =>
    inferInstanceAs (Decidable (v.scr.text = [] ∨ Inside rest ∨ fieldless v rest = true))
  | .key =>
    inferInstanceAs (Decidable (v.scr.text = [] ∨ Inside rest ∨ v.statusHeader ≠ Http.noStatus))
  | .start | .spc1 | .statusNum | .eol1 | .spc3 | .value | .eol2a | .eol2b | .beyond =>
    inferInstanceAs (Decidable True)

theorem eol_inside (ht : t.Live) (h : Inside t.unwait) :
    ∃ u, eol v t.unwait = (some .nomatch, v, u) ∧ u.get = t.unwait.get := by
  obtain ⟨c, u, hg, hc, hu⟩ := ht.get_unwait
  refine ⟨u.unget, ?_, hu⟩
  cases c with
  | byte b =>
    have hs := scan_eol_byte hg
    rw [inside_byte h hg] at hs
    exact Reader.ofScan_some hs
  | eof => exact Reader.ofScan_some (scan_eol_eof hg)
  | wait => exact absurd rfl hc

theorem eol_outside (ht : t.Live) (h : ¬ Inside t.unwait) :
    ∃ b u, t.unwait.get = (.byte b, u) ∧ Byte.isEol b = true ∧ u.unget.get = t.unwait.get ∧
      eol v t.unwait = (some .ok, v, u.unget) := by
  obtain ⟨c, u, hg, hc, hu⟩ := ht.get_unwait
  obtain ⟨b, rfl, hb⟩ : ∃ b, c = .byte b ∧ Byte.isEol b = true := by
    simp only [Inside, hg] at h
    cases c with
    | byte b =>
      refine ⟨b, rfl, ?_⟩
      simp only [ne_eq, Ch.byte.injEq, not_and_or, not_not] at h
      simpa [Byte.isEol] using h
    | eof => simp at h
    | wait => exact absurd rfl hc
  have hs := scan_eol_byte hg
  rw [hb] at hs
  exact ⟨b, u, hg, hb, hu, Reader.ofScan_some hs⟩

theorem eol_get (ht : t.Live) {x : Stat} (h : eol v t = (some x, v', t')) :
    t.get.1 ≠ .wait ∧ t'.get = t.get := by
  obtain ⟨y, s, hs, -⟩ := Reader.ofScan_keep_inv h
  rcases hg : t.get with ⟨_ | _ | _, u⟩
  · rw [scan_eol_byte hg] at hs
    cases hs
    exact ⟨by simp, by rw [ht.get_unget hg (by simp), hg]⟩
  · rw [scan_eol_eof hg] at hs
    cases hs
    exact ⟨by simp, by rw [ht.get_unget hg (by simp), hg]⟩
  · rw [scan_wait (S := Okws.eol) rfl hg] at hs
    cases hs

section Word

variable {mark : UInt8 → Mark} {b : Bool} {set : OkwcHdr → Str → Stat × OkwcHdr}

theorem word_wait (h : word (delimScanner mark b) set v t = (none, v', t')) :
    v' = { v with scr := v'.scr } ∧ (delimScanner mark b).guard v'.scr = none ∧
      ((t.get = (.wait, t') ∧ v' = v) ∨ (v'.scr.text ≠ [] ∧ t.get.1 ≠ .wait)) := by
  obtain ⟨s, hs, rfl⟩ := Reader.ofScan_wait_inv h
  refine ⟨rfl, scan_wait_guard hs, (delim_wait hs).imp_left ?_⟩
  rintro ⟨hg, rfl⟩
  exact ⟨hg, rfl⟩

theorem word_congr (hg : (delimScanner mark b).guard v.scr = none) (h : t.get = t'.get) :
    word (delimScanner mark b) set v t = word (delimScanner mark b) set v t' :=
  Reader.ofScan_congr hg h

end Word

section Reenter

def setSpcs (k : Nat) (v : OkwcHdr) : OkwcHdr := { v with spcs := k }

def setState (q : OkwcHdrSt) (v : OkwcHdr) : OkwcHdr := { v with state := q }

/-- The parser with another description and another beginning of a word. -/
def redescribe (text : Str) (desc : Option Str) (v : OkwcHdr) : OkwcHdr :=
  { v with scr.text := text, statusDesc := desc }

/-- Behind blanks, the end of the line is found by `eol` and not by `skip_hws`: the counter is not
reset. -/
theorem spc2_reenter (ht : t.Live) (h : act cfg .spc2 v t = (none, v', t')) :
    act cfg .spc2 v t.unwait = act cfg .spc2 v' t'.canRead.unwait ∨
      (v'.spcs ≠ 0 ∧ ¬ Inside t'.canRead.unwait ∧ ∃ u, u.get = t'.canRead.unwait.get ∧
        act cfg .spc2 v t.unwait = (some .ok, setSpcs 0 v', u) ∧
        act cfg .spc2 v' t'.canRead.unwait = (some .ok, v', u)) := by
  simp only [act] at h ⊢
  rcases he : eol v t with ⟨_ | x, v₁, t₁⟩ <;> rw [he] at h
  · simp only [reduceCtorEq, if_false, spc2_wait ht he] at h
    cases h
    obtain ⟨hm, -⟩ := eol_merges.wait ht he
    exact .inl (by rw [hm])
  · obtain ⟨hm, hkept⟩ := eol_merges.keep ht he
    obtain ⟨hne, hget⟩ := eol_get ht he
    simp only at h
    split at h
    · cases h
    next hx =>
    obtain ⟨hm₂, hwaited⟩ := (skipHws_merges 1).wait hkept.live h
    obtain ⟨k, hs, rfl⟩ := Reader.ofScan_wait_inv h
    rw [hm, if_neg hx, hm₂]
    by_cases hin : Inside t'.canRead.unwait
    · obtain ⟨u, hu, hget⟩ := eol_inside (v := { v₁ with spcs := k }) hwaited.live hin
      refine .inl ?_
      rw [hu, if_neg (by simp)]
      exact Reader.ofScan_congr rfl hget.symm
    · obtain ⟨b, u, hg, hb, hu, heol⟩ := eol_outside (v := { v₁ with spcs := k }) hwaited.live hin
      have hblank : Byte.isHws b = false := by
        simp only [Byte.isEol, Bool.or_eq_true, beq_iff_eq] at hb
        obtain rfl | rfl := hb <;> decide
      have hk : k ≠ 0 := Nat.ne_of_gt ((scan_hws_wait hs).resolve_left (by rwa [hget]))
      have hskip : scan Tape.device (skipHwsScanner 1) k t'.canRead.unwait =
          (some .ok, 0, u.unget) := by
        rw [scan_exit (D := Tape.device) (e := .back .ok 0) rfl hg
          (by simp [skipHwsScanner, hblank, hk])]
        rfl
      exact .inr ⟨hk, hin, u.unget, hu, Reader.ofScan_some hskip, by rw [heol]; rfl⟩

theorem statusDesc_reenter (ht : t.Live) (h : act cfg .statusDesc v t = (none, v', t')) :
    act cfg .statusDesc v t.unwait = act cfg .statusDesc v' t'.canRead.unwait ∨
      (v'.scr.text ≠ [] ∧ ¬ Inside t'.canRead.unwait ∧ ∃ u, u.get = t'.canRead.unwait.get ∧
        act cfg .statusDesc v t.unwait = (some .ok, redescribe [] (some v'.scr.text) v', u) ∧
        act cfg .statusDesc v' t'.canRead.unwait = (some .ok, v', u)) := by
  simp only [act] at h ⊢
  obtain he | ⟨v₁, t₁, he, hword⟩ := Reader.onStat_wait h
  · obtain ⟨hm, -⟩ := eol_merges.wait ht he
    exact .inl (by simp only [Reader.onStat, hm])
  · obtain ⟨hm, hkept⟩ := eol_merges.keep ht he
    obtain ⟨hm₂, hwaited⟩ := (word_merges _ _).wait hkept.live hword
    obtain ⟨hne, hget⟩ := eol_get ht he
    obtain ⟨-, hguard, ⟨hg, -⟩ | ⟨htext, -⟩⟩ := word_wait hword
    · rw [hget] at hg
      exact absurd (by rw [hg]) hne
    rw [Reader.onStat_some hm, if_pos rfl, hm₂]
    by_cases hin : Inside t'.canRead.unwait
    · obtain ⟨u, hu, hgu⟩ := eol_inside (v := v') hwaited.live hin
      refine .inl ?_
      rw [Reader.onStat_some hu, if_pos rfl]
      exact (word_congr hguard hgu).symm
    · obtain ⟨b, u, hg, hb, hu, heol⟩ := eol_outside (v := v') hwaited.live hin
      have hguard : delimitVal.guard v'.scr = none := hguard
      have hval : scan Tape.device delimitVal v'.scr t'.canRead.unwait =
          (some (.ok v'.scr.text), { v'.scr with text := [] }, u.unget) := by
        rw [scan_exit (D := Tape.device) (e := .back (.ok v'.scr.text) { v'.scr with text := [] })
          hguard hg (by simp [delimitVal, delimScanner, hb])]
        rfl
      refine .inr ⟨htext, hin, u.unget, hu, Reader.ofScan_some hval, ?_⟩
      rw [Reader.onStat_some heol, if_neg (by simp)]

theorem key_reenter (ht : t.Live) (h : act cfg .key v t = (none, v', t')) :
    act cfg .key v t.unwait = act cfg .key v' t'.canRead.unwait ∨
      (v'.scr.text ≠ [] ∧ ¬ Inside t'.canRead.unwait ∧ ∃ r need eoh u u', r ≠ .ok ∧
        act cfg .key v t.unwait = (some .parseErr, v', u) ∧
        act cfg .key v' t'.canRead.unwait =
          (some r, { v' with needLF := need, cleanEoh := eoh }, u')) := by
  simp only [act, fieldKey] at h ⊢
  obtain hgob | ⟨v₁, t₁, hgob, hword⟩ := Reader.onStat_wait h
  · obtain ⟨hm, -⟩ := gobbleCrlf_merges.wait ht hgob
    exact .inl (by simp only [Reader.onStat, hm])
  · obtain ⟨hm, hkept⟩ := gobbleCrlf_merges.keep ht hgob
    obtain ⟨hm₂, hwaited⟩ := (word_merges _ _).wait hkept.live hword
    obtain ⟨y, need, hs, hpost⟩ := Reader.ofScan_keep_inv hgob
    obtain ⟨rfl, rfl⟩ : y = .nomatch ∧ v₁ = { v with needLF := need } := by
      split at hpost <;> cases hpost
      exact ⟨rfl, rfl⟩
    obtain ⟨k, hk, rfl⟩ := Reader.ofScan_wait_inv hword
    by_cases hq : k.text = [] ∨ Inside t'.canRead.unwait
    · obtain ⟨-, rfl, ⟨u, hg, hw⟩ | ⟨u, hg, hw⟩⟩ := scan_key_reenter ht.ready hs hk hq
      · have hgob' : gobbleCrlf { v with needLF := false, scr := k } t'.canRead.unwait =
            (some .nomatch, { v with needLF := false, scr := k }, u) := by
          rw [gobbleCrlf, Reader.ofScan_some hg]
          rfl
        refine .inl ?_
        rw [Reader.onStat_some hm, if_pos rfl, hm₂, Reader.onStat_some hgob', if_pos rfl]
        simp only [word, Reader.ofScan, hw]
      · have hgob' : gobbleCrlf { v with needLF := false, scr := k } t'.canRead.unwait =
            (some .eof, { v with needLF := false, scr := k }, u) := by
          rw [gobbleCrlf, Reader.ofScan_some hg]
          rfl
        refine .inl ?_
        rw [Reader.onStat_some hm, if_pos rfl, hm₂, Reader.onStat_some hgob', if_neg (by simp)]
        rw [word, Reader.ofScan_some hw]
    · rw [not_or] at hq
      obtain ⟨htext, hin⟩ := hq
      obtain ⟨-, rfl, -⟩ := scan_gobble_nomatch hs
      have hguard : delimitKey.guard k = none := scan_wait_guard hk
      obtain ⟨b, u, hg, hb, -, -⟩ := eol_outside (v := v) hwaited.live hin
      have hcolon : b ≠ 58 := by
        rintro rfl
        revert hb
        decide
      have hkey : scan Tape.device delimitKey k t'.canRead.unwait =
          (some (.error .parseErr), k, u) := by
        rw [scan_exit (D := Tape.device) (e := .done (.error .parseErr) k) hguard hg
          (by simp [delimitKey, delimScanner, hb, hcolon])]
        rfl
      refine .inr ⟨htext, hin, ?_⟩
      rcases hgl : scan Tape.device Okws.gobbleCrlf false t'.canRead.unwait with ⟨_ | y, need, w⟩
      · -- there is nothing to wait for
        have hlt := (hwaited.live.unwait.scan_wait hgl).2.slept.waits
        rw [Tape.waits_unwait] at hlt
        exact absurd hlt (Nat.not_lt_zero _)
      · have hy : y ≠ .nomatch := by
          rintro rfl
          obtain ⟨-, -, b', u', hg', hb', -⟩ := scan_gobble_nomatch hgl
          cases hg.symm.trans hg'
          cases hb.symm.trans hb'
        have hgob' : gobbleCrlf { v with needLF := false, scr := k } t'.canRead.unwait = _ :=
          Reader.ofScan_some hgl
        have hfinal := Reader.onStat_some (g := word delimitKey setKey) (c := .nomatch) hgob'
        rw [Reader.onStat_some hm, if_pos rfl, hm₂]
        by_cases hok : y = .ok
        · subst hok
          rw [if_neg (by simp)] at hfinal
          exact ⟨.eof, need, true, u, w, by simp, by rw [word, Reader.ofScan_some hkey], hfinal⟩
        · simp only [if_neg hok, if_neg hy] at hfinal
          exact ⟨y, need, v.cleanEoh, u, w, hok, by rw [word, Reader.ofScan_some hkey], hfinal⟩

end Reenter

section Outcome

variable (cfg) in
theorem outcome_cases (x : Option Stat) (v : OkwcHdr) (t : Tape) :
    (x = none ∧ outcome cfg (x, v, t) = .wait (v, t)) ∨
    (x = some .ok ∧ v.ck.isSome = true ∧ outcome cfg (x, v, t) = .next (v, t.canRead)) ∨
    (x = some .ok ∧ v.ck = none ∧
      outcome cfg (x, v, t) = .next ({ v with state := v.state.after }, t)) ∨
    ∃ r, x = some r ∧ r ≠ .ok ∧ outcome cfg (x, v, t) = .stop (v.finish cfg) := by
  rcases x with _ | r
  · exact .inl ⟨rfl, rfl⟩
  · by_cases hr : r = .ok
    · subst hr
      cases hc : v.ck with
      | some c => exact .inr (.inl ⟨rfl, rfl, by simp [outcome, hc]⟩)
      | none => exact .inr (.inr (.inl ⟨rfl, rfl, by simp [outcome, hc]⟩))
    · refine .inr (.inr (.inr ⟨r, rfl, hr, ?_⟩))
      cases r <;> first | rfl | exact absurd rfl hr

theorem outcome_stop (hr : r ≠ .ok) : outcome cfg (some r, v, t) = .stop (v.finish cfg) := by
  cases r <;> first | rfl | exact absurd rfl hr

theorem outcome_next (h : v.ck = none) :
    outcome cfg (some .ok, v, t) = .next ({ v with state := v.state.after }, t) :=
  if_neg (by simp [h])

theorem step_ext {c : Cgi} (h : v.ck = some c) : (machine cfg).step (v, t) =
    subOutcome v ((c.load v.spcs t).parseGutsDriver cfg.cgi) := by
  simp only [machine, h]

theorem step_act (h : v.ck = none) :
    (machine cfg).step (v, t) = outcome cfg (act cfg v.state v t) := by
  simp only [machine, h]

end Outcome

section Joins

variable {q : OkwcHdrSt}

theorem joins_act {u : OkwcHdr → OkwcHdr} (hck : v.ck = none) (hq : v.state = q)
    (hu : ∀ v, (u v).ck = v.ck ∧ (u v).state = v.state ∧ (u v).finish cfg = v.finish cfg)
    (hval : q ≠ .value) (ht : t.Live) (hw : t.waits = 0)
    (hact : act cfg q (u v) t = ((act cfg q v t).1, u (act cfg q v t).2.1, (act cfg q v t).2.2))
    (hnext : ∀ v' t', act cfg q v t = (some .ok, v', t') → v'.ck = none → t.Kept t' →
      (machine cfg).Joins (setState q.after v', t') (setState q.after (u v'), t')) :
    (machine cfg).Joins (v, t) (u v, t) := by
  refine .of_step ?_
  rw [step_act hck, step_act ((hu v).1.trans hck), (hu v).2.1, hq, hact]
  rcases ha : act cfg q v t with ⟨_ | r, v', t'⟩
  · have hlt := (act_waited ht ha).slept.waits
    omega
  · obtain ⟨hstate, hframe⟩ := act_frame ha
    have hck' : v'.ck = none := (hframe.resolve_right fun hsome => hval hsome.1).trans hck
    by_cases hr : r = .ok
    · subst hr
      rw [outcome_next hck', outcome_next ((hu v').1.trans hck'), (hu v').2.1, hstate, hq]
      exact .next (hnext v' t' ha hck' (act_keep ht ha).2)
    · rw [outcome_stop hr, outcome_stop hr, (hu v').2.2]
      exact .stop

theorem scan_hws_zero {mn k k' : Nat}
    (h : scan Tape.device (skipHwsScanner mn) k t = (some r, k', t')) : k' = 0 := by
  have hskip : Okws.skipHws Tape.device mn k t = (r, k', t') := by simp [Okws.skipHws, h]
  obtain ⟨-, hs⟩ | ⟨-, -, hk⟩ := Tape.skipHws_scan hskip
  · cases h.symm.trans hs
  · exact hk

theorem joins_spc3 (hck : v.ck = none) (hst : v.state = .spc3) (ht : t.Live) (hw : t.waits = 0)
    {b : UInt8} (hget : t.get.1 = .byte b) (hb : Byte.isHws b = true) (k : Nat) :
    (machine cfg).Joins (v, t) (setSpcs k v, t) := by
  rcases hg : t.get with ⟨c, u⟩
  obtain rfl : c = .byte b := by rw [hg] at hget; exact hget
  have hnext (k : Nat) : scan Tape.device (skipHwsScanner 1) k t =
      scan Tape.device (skipHwsScanner 1) (k + 1) u :=
    scan_next rfl hg (by simp [skipHwsScanner, hb])
  have hskip : skipHws 1 v t = skipHws 1 (setSpcs k v) t := by
    rcases hs : scan Tape.device (skipHwsScanner 1) v.spcs t with ⟨_ | r, k₁, t₁⟩
    · have hlt := (ht.scan_wait hs).2.slept.waits
      omega
    · obtain rfl := scan_hws_zero hs
      rw [hnext] at hs
      obtain ⟨m, hm⟩ := scan_hws_count (Nat.le_add_left 1 _) (Nat.le_add_left 1 k) hs
      obtain rfl := scan_hws_zero hm
      rw [skipHws, Reader.ofScan_some ((hnext v.spcs).trans hs),
        Reader.ofScan_some ((hnext k).trans hm)]
      rfl
  have hst' : (setSpcs k v).state = .spc3 := hst
  refine .of_step ?_
  rw [step_act hck, step_act (v := setSpcs k v) hck, hst, hst', act, hskip]
  exact Iter.Rel.refl Machine.Joins.refl _

theorem eol_spcs (k : Nat) : Reader.Commutes (setSpcs k) eol :=
  Reader.commutes_ofScan (fun _ => rfl) (fun _ _ => rfl) fun _ _ => rfl

theorem requireCrlf_spcs (k : Nat) : Reader.Commutes (setSpcs k) requireCrlf :=
  Reader.commutes_ofScan (fun _ => rfl) (fun _ _ => rfl) fun _ _ => rfl

theorem fieldKey_spcs (k : Nat) : Reader.Commutes (setSpcs k) fieldKey :=
  Reader.commutes_onStat
    (Reader.commutes_ofScan (fun _ => rfl) (fun _ _ => rfl) fun v r => by split <;> rfl)
    (Reader.commutes_ofScan (fun _ => rfl) (fun _ _ => rfl) fun v r => by cases r <;> rfl)

theorem requireCrlf_state (q : OkwcHdrSt) : Reader.Commutes (setState q) requireCrlf :=
  Reader.commutes_ofScan (fun _ => rfl) (fun _ _ => rfl) fun _ _ => rfl

theorem fieldKey_state (q : OkwcHdrSt) : Reader.Commutes (setState q) fieldKey :=
  Reader.commutes_onStat
    (Reader.commutes_ofScan (fun _ => rfl) (fun _ _ => rfl) fun v r => by split <;> rfl)
    (Reader.commutes_ofScan (fun _ => rfl) (fun _ _ => rfl) fun v r => by cases r <;> rfl)

theorem joins_key (hck : v.ck = none) (hst : v.state = .key) (ht : t.Live) (hw : t.waits = 0)
    (hblank : ∀ v₁ t₁, fieldKey v t = (some .ok, v₁, t₁) →
      ∃ b, t₁.get.1 = .byte b ∧ Byte.isHws b = true) (k : Nat) :
    (machine cfg).Joins (v, t) (setSpcs k v, t) := by
  refine joins_act hck hst (fun _ => ⟨rfl, rfl, rfl⟩) (by simp) ht hw (fieldKey_spcs k v t) ?_
  intro v₁ t₁ ha hck₁ hkept
  obtain ⟨b, hget, hb⟩ := hblank v₁ t₁ ha
  exact joins_spc3 (v := setState .spc3 v₁) hck₁ rfl hkept.live
    (Nat.eq_zero_of_le_zero (hw ▸ hkept.waits)) hget hb k

theorem joins_eol1 (hck : v.ck = none) (hst : v.state = .eol1) (ht : t.Live) (hw : t.waits = 0)
    (hs : spaced v t = true) (k : Nat) : (machine cfg).Joins (v, t) (setSpcs k v, t) := by
  refine joins_act hck hst (fun _ => ⟨rfl, rfl, rfl⟩) (by simp) ht hw (requireCrlf_spcs k v t) ?_
  intro v₁ t₁ ha hck₁ hkept
  refine joins_key (v := setState .key v₁) hck₁ rfl hkept.live
    (Nat.eq_zero_of_le_zero (hw ▸ hkept.waits)) (fun v₂ t₂ hkey => ?_) k
  rcases hk : fieldKey v₁ t₁ with ⟨x, v₃, t₃⟩
  have hkey₁ := fieldKey_state .key v₁ t₁
  rw [hkey, hk, Prod.mk.injEq, Prod.mk.injEq] at hkey₁
  obtain ⟨rfl, -, rfl⟩ := hkey₁
  have ha : requireCrlf v t = (some .ok, v₁, t₁) := ha
  simp only [spaced, ha, hk] at hs
  rcases hg : t₂.get.1 with b | _ | _ <;> rw [hg] at hs
  · exact ⟨b, rfl, hs⟩
  · cases hs
  · cases hs

theorem spaced_congr (h : t.get = t'.get) : spaced v t = spaced v t' := by
  have hreq : requireCrlf v t = requireCrlf v t' := Reader.ofScan_congr rfl h
  simp only [spaced, hreq]

theorem spaced_commutes {u : OkwcHdr → OkwcHdr} (hreq : Reader.Commutes u requireCrlf)
    (hkey : Reader.Commutes u fieldKey) : spaced (u v) t = spaced v t := by
  rcases h₁ : requireCrlf v t with ⟨x, v₁, t₁⟩
  have hreq := hreq v t
  rw [h₁] at hreq
  rcases h₂ : fieldKey v₁ t₁ with ⟨y, v₂, t₂⟩
  have hkey := hkey v₁ t₁
  rw [h₂] at hkey
  simp only [spaced, h₁, hreq]
  rcases x with _ | x
  · rfl
  · cases x <;> simp only [h₂, hkey]
    rcases y with _ | y
    · rfl
    · cases y <;> rfl

variable (cfg) in
theorem joins_desc (hck : v.ck = none) (hst : v.state = .statusDesc) (ht : t.Live)
    (hw : t.waits = 0) (hin : ¬ Inside t) (hs : spaced v t = true) (k : Nat) :
    (machine cfg).Joins (v, t) (setSpcs k v, t) := by
  have hun : t.unwait = t := Tape.unwait_eq hw
  obtain ⟨b, u, hg, hb, hu, heol⟩ := eol_outside (v := v) ht (hun.symm ▸ hin)
  rw [hun] at heol hu
  have hact (v : OkwcHdr) (h : eol v t = (some .ok, v, u.unget)) :
      act cfg .statusDesc v t = (some .ok, v, u.unget) := by
    rw [act, Reader.onStat_some h, if_neg (by simp)]
  refine joins_act hck hst (fun _ => ⟨rfl, rfl, rfl⟩) (by simp) ht hw ?_ ?_
  · have hcomm := eol_spcs k v t
    rw [heol] at hcomm
    rw [hact v heol, hact _ hcomm]
  · intro v₁ t₁ ha hck₁ hkept
    rw [hact v heol] at ha
    cases ha
    refine joins_eol1 (v := setState .eol1 v) hck rfl hkept.live
      (Nat.eq_zero_of_le_zero (hw ▸ hkept.waits)) ?_ k
    rw [spaced_commutes (requireCrlf_state _) (fieldKey_state _), spaced_congr hu, hs]

theorem requireCrlf_redescribe (text : Str) (desc : Option Str) :
    Reader.Commutes (redescribe text desc) requireCrlf :=
  Reader.commutes_ofScan (fun _ => rfl) (fun _ _ => rfl) fun _ _ => rfl

theorem gobbleCrlf_redescribe (text : Str) (desc : Option Str) :
    Reader.Commutes (redescribe text desc) gobbleCrlf :=
  Reader.commutes_ofScan (fun _ => rfl) (fun _ _ => rfl) fun v r => by split <;> rfl

theorem gobbleCrlf_state (q : OkwcHdrSt) : Reader.Commutes (setState q) gobbleCrlf :=
  Reader.commutes_ofScan (fun _ => rfl) (fun _ _ => rfl) fun v r => by split <;> rfl

theorem fieldless_congr (h : t.get = t'.get) : fieldless v t = fieldless v t' := by
  have hreq : requireCrlf v t = requireCrlf v t' := Reader.ofScan_congr rfl h
  simp only [fieldless, hreq]

theorem fieldless_commutes {u : OkwcHdr → OkwcHdr} (hreq : Reader.Commutes u requireCrlf)
    (hgob : Reader.Commutes u gobbleCrlf) : fieldless (u v) t = fieldless v t := by
  rcases h₁ : requireCrlf v t with ⟨x, v₁, t₁⟩
  have hreq := hreq v t
  rw [h₁] at hreq
  simp only [fieldless, h₁, hreq]
  rcases x with _ | x
  · rfl
  · cases x <;> simp only [hgob v₁ t₁]

variable (cfg) in
theorem joins_fieldless (hck : v.ck = none) (hst : v.state = .eol1) (ht : t.Live)
    (hw : t.waits = 0) (hf : fieldless v t = true) (text : Str) (desc : Option Str) :
    (machine cfg).Joins (v, t) (redescribe text desc v, t) := by
  refine joins_act hck hst (fun _ => ⟨rfl, rfl, rfl⟩) (by simp) ht hw
    (requireCrlf_redescribe text desc v t) ?_
  intro v₁ t₁ ha hck₁ hkept
  have hw₁ : t₁.waits = 0 := Nat.eq_zero_of_le_zero (hw ▸ hkept.waits)
  have ha : requireCrlf v t = (some .ok, v₁, t₁) := ha
  rcases hg : gobbleCrlf v₁ t₁ with ⟨x, v₂, t₂⟩
  simp only [fieldless, ha, hg, bne_iff_ne, ne_eq] at hf
  have hgob := gobbleCrlf_state .key v₁ t₁
  rw [hg] at hgob
  have hgob' := gobbleCrlf_redescribe text desc (setState .key v₁) t₁
  rw [hgob] at hgob'
  -- the answer of `gobble_crlf` is the one of the action
  have hact (v v' : OkwcHdr) (h : gobbleCrlf v t₁ = (x, v', t₂)) :
      act cfg .key v t₁ = (x, v', t₂) := by
    cases x with
    | none => exact Reader.onStat_none h
    | some r => rw [act, fieldKey, Reader.onStat_some h, if_neg fun hr => hf (by rw [hr])]
  refine joins_act (v := setState .key v₁) (u := redescribe text desc) (q := .key) hck₁ rfl
    (fun _ => ⟨rfl, rfl, rfl⟩) (by simp) hkept.live hw₁ ?_ ?_
  · rw [hact _ _ hgob, hact _ _ hgob']
  · intro v₃ t₃ ha₃ _ _
    rw [hact _ _ hgob] at ha₃
    cases ha₃
    -- an empty line is no `ABUF_OK`
    obtain ⟨y, s, -, hpost⟩ := Reader.ofScan_keep_inv hg
    split at hpost
    · cases hpost
    · next hy =>
      cases hpost
      exact absurd rfl hy

end Joins

section Cookie

variable {c c' : Cgi} {rc : Stat}

theorem newCookie_sound (h : 0 < cfg.scratchSz) : (Cgi.newCookie cfg.scratchSz).Sound where
  cap := h
  room _ := by simp [Cgi.newCookie, Word.full]; omega
  var := by simp [Cgi.newCookie]
  modes := rfl

theorem load_sound (hc : c.Sound) (k : Nat) (t : Tape) : (c.load k t).Sound :=
  ⟨hc.cap, hc.room, hc.var, hc.modes⟩

theorem cookie_sound (hc : c.Sound) {k : Nat}
    (h : (c.load k t).parseGutsDriver cfg.cgi = (rc, c')) : c'.Sound :=
  (Cgi.parseGutsDriver_sound (load_sound hc k t) h).1

theorem cookie_keep (hc : c.Sound) {k : Nat} (ht : t.Live)
    (h : (c.load k t).parseGutsDriver cfg.cgi = (rc, c')) (hrc : rc ≠ .wait) :
    (c.load k t.unwait).parseGutsDriver cfg.cgi = (rc, c'.unwait) ∧ t.Kept c'.tape :=
  ⟨Cgi.driver_keep ((load_sound hc k t).inv ht) h hrc,
    Cgi.parseGutsDriver_kept (c := c.load k t) ht hrc h⟩

theorem cookie_wait (hc : c.Sound) {k : Nat} (ht : t.Live)
    (h : (c.load k t).parseGutsDriver cfg.cgi = (.wait, c')) :
    t.Waited c'.tape ∧ (Cgi.Harmless (c.load k t) c' → (c.load k t.unwait).parseGutsDriver cfg.cgi =
      (c'.park.load c'.spcs c'.tape.canRead.unwait).parseGutsDriver cfg.cgi) := by
  have hfollows := Cgi.parseGutsDriver_follows (load_sound hc k t).modes ht h
  exact ⟨(ht.scan_wait hfollows).2, (Cgi.driver_wait ((load_sound hc k t).inv ht) h).2.2⟩

theorem subOutcome_cases (v : OkwcHdr) (rc : Stat) (c : Cgi) :
    (rc = .wait ∧ subOutcome v (rc, c) =
      .wait ({ v with ck := some c.park, spcs := c.spcs }, c.tape)) ∨
    (rc = .eof ∧ subOutcome v (rc, c) = .next ({ v with
      ck := none, cookie := v.cookie ++ [c.tab], spcs := c.spcs, state := .eol2a },
      c.tape.canRead)) ∨
    (rc ≠ .wait ∧ rc ≠ .eof ∧ subOutcome v (rc, c) =
      .next ({ v with ck := some c.park, spcs := c.spcs }, c.tape)) := by
  cases rc <;> simp [subOutcome]

end Cookie

section Merge

variable {w w' : OkwcHdr × Tape}

def unwait (w : OkwcHdr × Tape) : OkwcHdr × Tape := (w.1, w.2.unwait)

def Harmless (w w' : OkwcHdr × Tape) : Prop :=
  (w.1.ck.isNone = true → Quiet w.1.state w'.1 w'.2.canRead.unwait) ∧
    ∀ c ∈ w.1.ck, ∀ c' ∈ w'.1.ck, Cgi.Harmless (c.load w.1.spcs w.2) (c'.load w'.1.spcs w'.2)

instance (w w' : OkwcHdr × Tape) : Decidable (Harmless w w') :=
  inferInstanceAs (Decidable (_ ∧ _))

structure Inv (w : OkwcHdr × Tape) : Prop where
  live : w.2.Live
  cookie : ∀ c ∈ w.1.ck, c.Sound ∧ w.1.state = .value

theorem act_cookie (hcap : 0 < cfg.scratchSz) (hck : v.ck = none) {x : Option Stat}
    (h : act cfg v.state v t = (x, v', t')) : ∀ c ∈ v'.ck, c.Sound ∧ v'.state = .value := by
  intro c hc
  obtain ⟨hstate, hframe⟩ := act_frame h
  obtain hsame | ⟨hval, -, hnew⟩ := hframe
  · rw [hsame, hck] at hc
    cases hc
  · rw [hnew] at hc
    cases hc
    exact ⟨newCookie_sound hcap, hstate.trans hval⟩

theorem outcome_unwait (r : Stat) (v : OkwcHdr) (t : Tape) :
    (∀ {w}, outcome cfg (some r, v, t) = .next w →
      outcome cfg (some r, v, t.unwait) = .next (unwait w)) ∧
    ∀ {o}, outcome cfg (some r, v, t) = .stop o → outcome cfg (some r, v, t.unwait) = .stop o := by
  by_cases hr : r = .ok
  · subst hr
    simp only [outcome]
    split
    · exact ⟨by rintro _ ⟨⟩; rfl, by rintro _ ⟨⟩⟩
    · exact ⟨by rintro _ ⟨⟩; rfl, by rintro _ ⟨⟩⟩
  · rw [outcome_stop hr, outcome_stop hr]
    exact ⟨by rintro _ ⟨⟩, id⟩

theorem step_next (hcap : 0 < cfg.scratchSz) (hw : Inv w)
    (h : (machine cfg).step w = .next w') :
    (machine cfg).step (unwait w) = .next (unwait w') ∧ Inv w' ∧ w.2.Kept w'.2 := by
  obtain ⟨v, t⟩ := w
  cases hck : v.ck with
  | some c =>
    obtain ⟨hc, hval⟩ := hw.cookie c hck
    rw [unwait, step_ext hck]
    rw [step_ext hck] at h
    rcases hp : (c.load v.spcs t).parseGutsDriver cfg.cgi with ⟨rc, c'⟩
    rw [hp] at h
    obtain ⟨rfl, ho⟩ | ⟨rfl, ho⟩ | ⟨hwait, heof, ho⟩ := subOutcome_cases v rc c'
    · cases ho.symm.trans h
    · cases ho.symm.trans h
      obtain ⟨hm, hkept⟩ := cookie_keep hc hw.live hp (by simp)
      rw [hm]
      exact ⟨rfl, ⟨hkept.live.canRead, fun _ hc => by cases hc⟩, hkept.canRead⟩
    · cases ho.symm.trans h
      obtain ⟨hm, hkept⟩ := cookie_keep hc hw.live hp hwait
      rw [hm]
      obtain ⟨hwait', -⟩ | ⟨heof', -⟩ | ⟨-, -, ho'⟩ := subOutcome_cases v rc c'.unwait
      · exact absurd hwait' hwait
      · exact absurd heof' heof
      · refine ⟨ho', ⟨hkept.live, fun _ hc' => ?_⟩, hkept⟩
        cases hc'
        have hs := cookie_sound hc hp
        exact ⟨load_sound hs _ _, hval⟩
  | none =>
    rw [unwait, step_act hck]
    rw [step_act hck] at h
    rcases ha : act cfg v.state v t with ⟨_ | r, v', t'⟩ <;> rw [ha] at h
    · cases h
    · obtain ⟨hm, hkept⟩ := act_keep hw.live ha
      have hcookie := act_cookie hcap hck ha
      rw [hm]
      refine ⟨(outcome_unwait r v' t').1 h, ?_⟩
      obtain ⟨hx, -⟩ | ⟨-, -, ho⟩ | ⟨-, hnone, ho⟩ | ⟨_, -, -, ho⟩ :=
        outcome_cases cfg (some r) v' t'
      · cases hx
      · cases ho.symm.trans h
        exact ⟨⟨hkept.live.canRead, hcookie⟩, hkept.canRead⟩
      · cases ho.symm.trans h
        refine ⟨⟨hkept.live, fun c hc => ?_⟩, hkept⟩
        rw [show v'.ck = none from hnone] at hc
        cases hc
      · cases ho.symm.trans h

theorem step_stop {o : OkwcHdrOut} (hw : Inv w) (h : (machine cfg).step w = .stop o) :
    (machine cfg).step (unwait w) = .stop o := by
  obtain ⟨v, t⟩ := w
  cases hck : v.ck with
  | some c =>
    rw [step_ext hck] at h
    rcases hp : (c.load v.spcs t).parseGutsDriver cfg.cgi with ⟨rc, c'⟩
    rw [hp] at h
    obtain ⟨-, ho⟩ | ⟨-, ho⟩ | ⟨-, -, ho⟩ := subOutcome_cases v rc c' <;> cases ho.symm.trans h
  | none =>
    rw [unwait, step_act hck]
    rw [step_act hck] at h
    rcases ha : act cfg v.state v t with ⟨_ | r, v', t'⟩ <;> rw [ha] at h
    · cases h
    · rw [(act_keep hw.live ha).1]
      exact (outcome_unwait r v' t').2 h

theorem act_reenter (hck : v.ck = none) (ht : t.Live) (h : act cfg v.state v t = (none, v', t'))
    (hq : Quiet v.state v' t'.canRead.unwait) :
    Iter.Rel (machine cfg).Joins (outcome cfg (act cfg v.state v t.unwait))
      (outcome cfg (act cfg v.state v' t'.canRead.unwait)) := by
  obtain ⟨hstate, hframe⟩ := act_frame h
  have hck' : v'.ck = none := (hframe.resolve_right (by simp)).trans hck
  have hlive := (act_waited ht h).live.unwait
  have hzero : t'.canRead.unwait.waits = 0 := Tape.waits_unwait _
  have same {x y : Option Stat × OkwcHdr × Tape} (heq : x = y) :
      Iter.Rel (machine cfg).Joins (outcome cfg x) (outcome cfg y) :=
    heq ▸ Iter.Rel.refl Machine.Joins.refl _
  cases hst : v.state <;> rw [hst] at h hq
  case start => exact same ((word_merges _ _).wait ht h).1
  case spc1 => exact same ((skipHws_merges 1).wait ht h).1
  case statusNum => exact same ((word_merges _ _).wait ht h).1
  case spc2 =>
    obtain heq | ⟨hspcs, hin, u, hu, h₁, h₂⟩ := spc2_reenter ht h
    · exact same heq
    · have hs := (hq.resolve_left hspcs).resolve_left hin
      have hkept := (act_keep hlive h₂).2
      have hin : ¬ Inside u := by rwa [Inside, hu]
      rw [h₁, h₂, outcome_next hck', outcome_next (v := setSpcs 0 v') hck']
      have hjoins := joins_desc cfg (v := setState .statusDesc (setSpcs 0 v')) hck' rfl
        hkept.live (Nat.eq_zero_of_le_zero (hzero ▸ hkept.waits)) hin
        (by rw [spaced_commutes (requireCrlf_state _) (fieldKey_state _),
          spaced_commutes (requireCrlf_spcs _) (fieldKey_spcs _), spaced_congr hu, hs]) v'.spcs
      have hnext : v'.state.after = .statusDesc := by rw [hstate, hst]; rfl
      rw [show (setSpcs 0 v').state = v'.state from rfl, hnext]
      exact .next hjoins
  case statusDesc =>
    obtain heq | ⟨htext, hin, u, hu, h₁, h₂⟩ := statusDesc_reenter ht h
    · exact same heq
    · have hf := (hq.resolve_left htext).resolve_left hin
      have hkept := (act_keep hlive h₂).2
      rw [h₁, h₂, outcome_next hck', outcome_next (v := redescribe [] (some v'.scr.text) v') hck']
      have hjoins := joins_fieldless cfg
        (v := setState .eol1 (redescribe [] (some v'.scr.text) v')) hck' rfl
        hkept.live (Nat.eq_zero_of_le_zero (hzero ▸ hkept.waits))
        (by rw [fieldless_commutes (requireCrlf_state _) (gobbleCrlf_state _), fieldless_commutes
          (requireCrlf_redescribe _ _) (gobbleCrlf_redescribe _ _), fieldless_congr hu, hf])
        v'.scr.text v'.statusDesc
      have hnext : v'.state.after = .eol1 := by rw [hstate, hst]; rfl
      rw [show (redescribe [] (some v'.scr.text) v').state = v'.state from rfl, hnext]
      exact .next hjoins
  case eol1 => exact same (requireCrlf_merges.wait ht h).1
  case key =>
    obtain heq | ⟨htext, hin, r, need, eoh, u, u', hr, h₁, h₂⟩ := key_reenter ht h
    · exact same heq
    · have hs := (hq.resolve_left htext).resolve_left hin
      rw [h₁, h₂, outcome_stop (by simp), outcome_stop hr]
      have hfin : finish cfg { v' with needLF := need, cleanEoh := eoh } = v'.finish cfg := by
        simp [finish, hs]
      rw [hfin]
      exact .stop
  case spc3 => exact same ((skipHws_merges 1).wait ht h).1
  case value =>
    refine same ?_
    simp only [act] at h ⊢
    split at h
    · cases h
    · next hc =>
      obtain ⟨hm, -⟩ := (word_merges _ _).wait ht h
      obtain ⟨hv', -⟩ := word_wait h
      have hsame : v'.isSetCookie = v.isSetCookie := by rw [hv']; rfl
      rw [hsame, if_neg hc, if_neg hc]
      exact hm
  case eol2a =>
    simp only [act] at h
    split at h
    · cases h
    · split at h <;> cases h
  case eol2b => exact same (requireCrlf_merges.wait ht h).1
  case beyond => cases h

theorem step_wait (hcap : 0 < cfg.scratchSz) (hw : Inv w)
    (h : (machine cfg).step w = .wait w') :
    Inv ((machine cfg).resume w') ∧ w.2.Waited w'.2 ∧ (Harmless w w' →
      Iter.Rel (machine cfg).Joins ((machine cfg).step (unwait w))
        ((machine cfg).step (unwait ((machine cfg).resume w')))) := by
  obtain ⟨v, t⟩ := w
  cases hck : v.ck with
  | some c =>
    obtain ⟨hc, hval⟩ := hw.cookie c hck
    rw [step_ext hck] at h
    rcases hp : (c.load v.spcs t).parseGutsDriver cfg.cgi with ⟨rc, c'⟩
    rw [hp] at h
    obtain ⟨rfl, ho⟩ | ⟨rfl, ho⟩ | ⟨hwait, heof, ho⟩ := subOutcome_cases v rc c' <;>
      cases ho.symm.trans h
    obtain ⟨hwaited, hre⟩ := cookie_wait hc hw.live hp
    refine ⟨⟨hwaited.live, fun _ hc' => ?_⟩, hwaited, fun hP => ?_⟩
    · cases hc'
      have hs := cookie_sound hc hp
      exact ⟨load_sound hs _ _, hval⟩
    · have hre := hre (hP.2 c hck c'.park rfl)
      have hstep : (machine cfg).step (unwait (v, t)) = subOutcome v
          ((c'.park.load c'.spcs c'.tape.canRead.unwait).parseGutsDriver cfg.cgi) := by
        rw [← hre]
        exact step_ext hck
      have hstep' : (machine cfg).step (unwait ((machine cfg).resume
          ({ v with ck := some c'.park, spcs := c'.spcs }, c'.tape))) = subOutcome
          { v with ck := some c'.park, spcs := c'.spcs }
          ((c'.park.load c'.spcs c'.tape.canRead.unwait).parseGutsDriver cfg.cgi) := step_ext rfl
      rw [hstep, hstep']
      -- what the parser of the cookie has left behind is overwritten
      generalize (c'.park.load c'.spcs c'.tape.canRead.unwait).parseGutsDriver cfg.cgi = x
      obtain ⟨rc, d⟩ := x
      cases rc <;> exact Iter.Rel.refl Machine.Joins.refl _
  | none =>
    rw [step_act hck] at h
    rcases ha : act cfg v.state v t with ⟨_ | r, v', t'⟩ <;> rw [ha] at h
    · cases h
      have hwaited := act_waited hw.live ha
      refine ⟨⟨hwaited.live, act_cookie hcap hck ha⟩, hwaited, fun hP => ?_⟩
      obtain ⟨hstate, hframe⟩ := act_frame ha
      have hck' : v'.ck = none := (hframe.resolve_right (by simp)).trans hck
      have hquiet : Quiet v.state v' t'.canRead.unwait := hP.1 (by rw [hck]; rfl)
      have hstep : (machine cfg).step (unwait ((machine cfg).resume (v', t'))) =
          outcome cfg (act cfg v'.state v' t'.canRead.unwait) := step_act hck'
      rw [unwait, step_act hck, hstep, hstate]
      exact act_reenter hck hw.live ha hquiet
    · obtain ⟨hx, -⟩ | ⟨-, -, ho⟩ | ⟨-, -, ho⟩ | ⟨_, -, -, ho⟩ :=
        outcome_cases cfg (some r) v' t'
      · cases hx
      all_goals cases ho.symm.trans h

theorem merge (hcap : 0 < cfg.scratchSz) : Machine.Merge (machine cfg) unwait (machine cfg).Joins
    Inv Harmless (fun w => w.2.waits) where
  trans _ _ _ h h' := h.trans h'
  congr h := h.congr
  inv_next hw h := (step_next hcap hw h).2.1
  inv_wait hw h := (step_wait hcap hw h).1
  waits_next hw h := (step_next hcap hw h).2.2.waits
  waits_wait hw h := (step_wait hcap hw h).2.1.slept.waits
  next hw h := (step_next hcap hw h).1 ▸ Iter.Rel.refl Machine.Joins.refl _
  stop hw h := step_stop hw h
  wait hw h hP := (step_wait hcap hw h).2.2 hP

end Merge

section Ends

variable {w w' : OkwcHdr × Tape}

def rank : OkwcHdrSt → Nat
  | .start => 12
  | .spc1 => 11
  | .statusNum => 10
  | .spc2 => 9
  | .statusDesc => 8
  | .eol1 => 7
  | .key => 6
  | .spc3 => 5
  | .value => 4
  | .eol2a => 3
  | .eol2b => 2
  | .beyond => 1

theorem after_rank {q : OkwcHdrSt} (h : act cfg q v t = (some .ok, v', t')) :
    rank q.after < rank q ∨ (rank q.after < rank q + 5 ∧ t'.left < t.left) := by
  cases q with
  | eol2b =>
    refine .inr ⟨by simp [OkwcHdrSt.after, rank], ?_⟩
    obtain ⟨y, s, hs, hp⟩ := Reader.ofScan_keep_inv (show requireCrlf v t = _ from h)
    obtain rfl : y = .ok := by
      simp only [Okws.requireCrlf, Prod.mk.injEq] at hp
      split at hp
      · cases hp.1
      · exact hp.1
    exact scan_gobble_left hs
  | beyond => cases h
  | start | spc1 | statusNum | spc2 | statusDesc | eol1 | key | spc3 | value | eol2a =>
    exact .inl (by simp [OkwcHdrSt.after, rank, OkwcHdrSt.inc])

/-- What is left to do: the input, the rest of the line, and the word of the parser of a cookie. -/
def todo (w : OkwcHdr × Tape) : Nat :=
  38 * w.2.left + 4 * rank w.1.state +
    match w.1.ck with
    | some c => (c.load w.1.spcs w.2).todo
    | none => 2 * w.2.left + 2

theorem todo_ext {c : Cgi} (h : w.1.ck = some c) :
    todo w = 38 * w.2.left + 4 * rank w.1.state + (c.load w.1.spcs w.2).todo := by
  simp only [todo, h]

theorem todo_act (h : w.1.ck = none) :
    todo w = 38 * w.2.left + 4 * rank w.1.state + (2 * w.2.left + 2) := by
  simp only [todo, h]

theorem todo_bounds (c : Cgi) (k : Nat) (t : Tape) :
    2 * t.left ≤ (c.load k t).todo ∧ (c.load k t).todo ≤ 2 * t.left + 1 := (c.load k t).todo_bounds

theorem todo_next (hw : Inv w) (h : (machine cfg).step w = .next w') : todo w' < todo w := by
  obtain ⟨v, t⟩ := w
  cases hck : v.ck with
  | some c =>
    obtain ⟨hc, hval⟩ := hw.cookie c hck
    have hlow := (todo_bounds c v.spcs t).1
    rw [todo_ext (w := (v, t)) hck]
    rw [step_ext hck] at h
    rcases hp : (c.load v.spcs t).parseGutsDriver cfg.cgi with ⟨rc, c'⟩
    rw [hp] at h
    obtain ⟨rfl, ho⟩ | ⟨rfl, ho⟩ | ⟨hwait, heof, ho⟩ := subOutcome_cases v rc c'
    · cases ho.symm.trans h
    · cases ho.symm.trans h
      have hleft : c'.tape.canRead.left ≤ t.left := (cookie_keep hc hw.live hp (by simp)).2.left
      have hrank : rank .eol2a < rank v.state := by
        rw [show v.state = _ from hval]
        decide
      rw [todo_act rfl]
      simp only
      omega
    · cases ho.symm.trans h
      have hleft : c'.tape.left ≤ t.left := (cookie_keep hc hw.live hp hwait).2.left
      have hstep : (Cgi.machine cfg.cgi).step (c.load v.spcs t) = .next c' := by
        simp only [Cgi.machine, hp]
        cases rc <;> simp_all [Cgi.outcome]
      have hlt : c'.todo < (c.load v.spcs t).todo :=
        (Cgi.step_next ((load_sound hc v.spcs t).inv hw.live) hstep).2.2.2
      have hsame : (c'.park.load c'.spcs c'.tape).todo = c'.todo := rfl
      rw [todo_ext rfl]
      simp only [hsame]
      omega
  | none =>
    rw [todo_act (w := (v, t)) hck]
    rw [step_act hck] at h
    rcases ha : act cfg v.state v t with ⟨x, v', t'⟩
    rw [ha] at h
    have hstate := (act_frame ha).1
    obtain ⟨rfl, ho⟩ | ⟨rfl, hsome, ho⟩ | ⟨rfl, hnone, ho⟩ | ⟨r, rfl, -, ho⟩ :=
      outcome_cases cfg x v' t'
    all_goals cases ho.symm.trans h
    · have hleft : t'.canRead.left ≤ t.left := (act_keep hw.live ha).2.left
      obtain ⟨c, hc⟩ := Option.isSome_iff_exists.1 hsome
      have hhigh := (todo_bounds c v'.spcs t'.canRead).2
      rw [todo_ext hc]
      simp only [hstate]
      omega
    · have hleft : t'.left ≤ t.left := (act_keep hw.live ha).2.left
      have hrank := after_rank ha
      rw [todo_act hnone]
      simp only [hstate]
      omega

theorem todo_wait (hw : Inv w) (h : (machine cfg).step w = .wait w') :
    todo ((machine cfg).resume w') < todo w := by
  obtain ⟨v, t⟩ := w
  cases hck : v.ck with
  | some c =>
    obtain ⟨hc, hval⟩ := hw.cookie c hck
    have hlow := (todo_bounds c v.spcs t).1
    rw [todo_ext (w := (v, t)) hck]
    rw [step_ext hck] at h
    rcases hp : (c.load v.spcs t).parseGutsDriver cfg.cgi with ⟨rc, c'⟩
    rw [hp] at h
    obtain ⟨rfl, ho⟩ | ⟨rfl, ho⟩ | ⟨-, -, ho⟩ := subOutcome_cases v rc c' <;>
      cases ho.symm.trans h
    have hleft : c'.tape.canRead.left < t.left := (cookie_wait hc hw.live hp).1.slept.left
    have hhigh := (todo_bounds c' c'.spcs c'.tape.canRead).2
    have hsame : (c'.park.load c'.spcs c'.tape.canRead).todo =
      (c'.load c'.spcs c'.tape.canRead).todo := rfl
    simp only [machine]
    rw [todo_ext rfl]
    simp only [hsame]
    omega
  | none =>
    rw [todo_act (w := (v, t)) hck]
    rw [step_act hck] at h
    rcases ha : act cfg v.state v t with ⟨x, v', t'⟩
    rw [ha] at h
    obtain ⟨hstate, hframe⟩ := act_frame ha
    obtain ⟨rfl, ho⟩ | ⟨rfl, -, ho⟩ | ⟨rfl, -, ho⟩ | ⟨r, rfl, -, ho⟩ := outcome_cases cfg x v' t'
    all_goals cases ho.symm.trans h
    have hck' : v'.ck = none := (hframe.resolve_right (by simp)).trans hck
    have hleft : t'.canRead.left < t.left := (act_waited hw.live ha).slept.left
    simp only [machine]
    rw [todo_act hck']
    simp only [hstate]
    omega

theorem ends (hcap : 0 < cfg.scratchSz) (hw : Inv w) : ∃ o, (machine cfg).Ends w o :=
  Machine.ends_of_measure (I := Inv) todo
    (fun hu h => ⟨(step_next hcap hu h).2.1, todo_next hu h⟩)
    (fun hu h => ⟨(step_wait hcap hu h).1, todo_wait hu h⟩) hw

theorem start_inv (cfg : OkwcHdrConfig) (rs : List Str) : Inv (start cfg rs) where
  live := ⟨⟨.inl rfl, by simp [start, Abuf.toTape]⟩, by simp [start, Abuf.toTape, Tape.Unlimited]⟩
  cookie _ h := by cases h

/-- If every suspension is harmless, the parser ends with what it makes of the whole input. -/
theorem parsed_uncut (hcap : 0 < cfg.scratchSz) (rs : List Str)
    (h : (machine cfg).Suspends Harmless (start cfg rs)) :
    ∃ o, (machine cfg).Ends (start cfg rs) o ∧
      (machine cfg).Ends (start cfg (Abuf.whole rs.flatten)) o := by
  obtain ⟨o, ho⟩ := ends hcap (start_inv cfg rs)
  have hunwait : unwait (start cfg rs) = start cfg (Abuf.whole rs.flatten) := by
    simp only [unwait, start, Abuf.toTape_unwait]
  refine ⟨o, ho, ?_⟩
  rw [← hunwait]
  exact ((merge hcap).ends_iff Machine.Joins.refl (start_inv cfg rs) h).1 ho

/-- The configuration of the client, with small buffers. -/
def conf : OkwcHdrConfig := ⟨strtoll, 16, 0x20000, ⟨64, id⟩⟩

def cuts : List Str :=
  [ascii ['H', 'T', 'T', 'P', '/', '1', ' ', '2', '0'], [], ascii ['0', ' ', 'O'], [],
    ascii ['K', '\r'], [], ascii ['\n', 'A'], [],
    ascii [':', ' ', 'b', '\r', '\n', 'S', 'e', 't', '-', 'C', 'o', 'o', 'k', 'i', 'e', ':', ' ',
      'a', '=', '%', '4'], [],
    ascii ['1', ';', ' ', 'c', '=', 'd', '\r', '\n'], [], ascii ['\r', '\n']]

def cutBadly : List (List Str) :=
  [[ascii ['H', 'T', 'T', 'P', '/', '1', ' ', '2', '0', '0', ' ', 'O', 'K'], [],
      ascii ['\n', 'A', ':', ' ', 'b', '\n', '\n']],
    [ascii ['H', 'T', 'T', 'P', '/', '1', ' ', '2', '0', '0', ' '], [],
      ascii ['\n', 'A', ':', 'b', '\n', '\n']],
    [ascii ['H', 'T', 'T', 'P', '/', '1', ' ', '2', '0', '0', '\n', 'S', 'e', 't', '-', 'C', 'o',
      'o', 'k', 'i', 'e', ':', ' ', '\r'], [], ascii [' ', 'a', '=', 'b', '\n', '\n']]]

theorem parsed_uncut_cuts :
    ∃ o, (machine conf).Ends (start conf cuts) o ∧
      (machine conf).Ends (start conf (Abuf.whole cuts.flatten)) o :=
  parsed_uncut (by decide) cuts (Machine.suspends_of_check (n := 60) (by decide +kernel))

/-- A cut behind a description, one behind the blank in front of a description that is missing,
and one behind a carriage return in front of a cookie. -/
theorem parsed_cut_differ : cutBadly.Forall fun rs =>
    ¬ ∃ o, (machine conf).Ends (start conf rs) o ∧
      (machine conf).Ends (start conf (Abuf.whole rs.flatten)) o := by
  have differ {rs : List Str} (h : ((machine conf).run 40 (start conf rs)).isSome ∧
      ((machine conf).run 40 (start conf (Abuf.whole rs.flatten))).isSome ∧
      (machine conf).run 40 (start conf rs) ≠
        (machine conf).run 40 (start conf (Abuf.whole rs.flatten))) :
      ¬ ∃ o, (machine conf).Ends (start conf rs) o ∧
        (machine conf).Ends (start conf (Abuf.whole rs.flatten)) o :=
    Machine.not_ends_of_runs h.1 h.2.1 h.2.2
  rw [List.forall_iff_forall_mem]
  intro rs hrs
  simp only [cutBadly, List.mem_cons, List.not_mem_nil, or_false] at hrs
  obtain rfl | rfl | rfl := hrs <;> exact differ (by decide +kernel)

end Ends

end OkwcHdr

end Okws
