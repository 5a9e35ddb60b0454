import Mathlib.Data.List.Basic
import Okws.InHdr
import Okws.CgiTail

namespace Okws

open Lib

theorem Tape.get_asleep {t t' : Tape} (ht : t.Ready) (h : t.get = (.wait, t')) :
    t'.get = (.wait, t') := by
  obtain ⟨hbc, hl, -, l, -, rfl⟩ := Tape.wait_inv ht h
  exact Tape.get_waiting hbc hl rfl

namespace InHdr

variable {cfg : InHdrConfig} {v v' : InHdr} {t t' : Tape} {r : Stat}

theorem word_merges (S : Scanner UInt8 Scratch (Except Stat Str)) (set : InHdr → Str → InHdr) :
    (word S set).Merges := Reader.merges_ofScan (fun _ _ => rfl) fun _ _ _ => rfl

theorem skipHws_merges (mn : Nat) : (skipHws mn).Merges :=
  Reader.merges_ofScan (fun _ _ => rfl) fun _ _ _ => rfl

theorem eol_merges : eol.Merges := Reader.merges_ofScan (fun _ _ => rfl) fun _ _ _ => rfl

theorem gobbleCrlf_merges : gobbleCrlf.Merges :=
  Reader.merges_ofScan (fun _ _ => rfl) fun _ _ _ => rfl

theorem requireCrlf_merges : requireCrlf.Merges :=
  Reader.merges_ofScan (fun _ _ => rfl) fun _ _ _ => rfl

theorem expectQuery_merges : expectQuery.Merges :=
  Reader.merges_ofScan (fun _ _ => rfl) fun _ _ _ => rfl

theorem spc2_wait (ht : t.Live) (h : eol v t = (none, v', t')) :
    skipHws 1 v' t' = (none, v', t') := by
  obtain ⟨s, hs, -⟩ := Reader.ofScan_wait_inv h
  have hw := Tape.get_asleep ht.ready (scan_eol_wait hs)
  rw [skipHws, Reader.ofScan_none (scan_wait (S := skipHwsScanner 1) rfl hw)]

theorem act_keep {q : InHdrSt} (ht : t.Live) (h : act cfg q v t = (some r, v', t')) :
    act cfg q v t.unwait = (some r, v', t'.unwait) ∧ t.Kept t' := by
  cases q with
  | start =>
    obtain ⟨hm, hkept⟩ := (word_merges _ _).keep (ht.setMir _) h
    exact ⟨hm, hkept.ofMir⟩
  | spc1 => exact (skipHws_merges 1).keep ht h
  | target => exact (word_merges _ _).keep ht h
  | uridat => exact expectQuery_merges.keep ht h
  | spc2 =>
    simp only [act] at h ⊢
    rcases he : eol v t with ⟨_ | x, v₁, t₁⟩ <;> rw [he] at h
    · simp only [reduceCtorEq, if_false, spc2_wait ht he] at h
      cases h
    · obtain ⟨hm, hkept⟩ := eol_merges.keep ht he
      rw [hm]
      simp only at h ⊢
      split at h
      · next hx =>
        cases h
        exact ⟨if_pos hx, hkept⟩
      · next hx =>
        obtain ⟨hm₂, hkept₂⟩ := (skipHws_merges 1).keep hkept.live h
        exact ⟨(if_neg hx).trans hm₂, hkept.trans hkept₂⟩
  | optparam => exact Reader.onStat_keep eol_merges (word_merges _ _) ht h
  | eol1 =>
    obtain ⟨hm, hkept⟩ := requireCrlf_merges.keep (ht.setMir none) h
    exact ⟨hm, hkept.ofMir⟩
  | key => exact Reader.onStat_keep gobbleCrlf_merges (word_merges _ _) ht h
  | spc3 => exact (skipHws_merges 0).keep ht h
  | value =>
    simp only [act] at h ⊢
    split at h
    · next hc =>
      cases h
      exact ⟨if_pos hc, ht.kept⟩
    · next hc =>
      obtain ⟨hm, hkept⟩ := (word_merges _ _).keep ht h
      exact ⟨(if_neg hc).trans hm, hkept⟩
  | eol2a =>
    simp only [act] at h ⊢
    split at h
    · next hc =>
      cases h
      exact ⟨if_pos hc, ht.kept⟩
    · next hc =>
      rw [if_neg hc]
      split at h <;> cases h
      · next hk => exact ⟨if_pos hk, ht.kept⟩
      · next hk => exact ⟨if_neg hk, ht.kept⟩
  | eol2b => exact requireCrlf_merges.keep ht h
  | beyond =>
    cases h
    exact ⟨rfl, ht.kept⟩

theorem act_waited {q : InHdrSt} (ht : t.Live) (h : act cfg q v t = (none, v', t')) :
    t.Waited t' := by
  cases q with
  | start => exact ((word_merges _ _).wait (ht.setMir _) h).2.ofMir
  | spc1 => exact ((skipHws_merges 1).wait ht h).2
  | target => exact ((word_merges _ _).wait ht h).2
  | uridat => exact (expectQuery_merges.wait ht h).2
  | spc2 =>
    simp only [act] at h
    rcases he : eol v t with ⟨_ | x, v₁, t₁⟩ <;> rw [he] at h
    · simp only [reduceCtorEq, if_false, spc2_wait ht he] at h
      cases h
      exact (eol_merges.wait ht he).2
    · have hkept := (eol_merges.keep ht he).2
      simp only at h
      split at h
      · cases h
      · exact hkept.waited ((skipHws_merges 1).wait hkept.live h).2
  | optparam => exact Reader.onStat_waited eol_merges (word_merges _ _) ht h
  | eol1 => exact (requireCrlf_merges.wait (ht.setMir none) h).2.ofMir
  | key => exact Reader.onStat_waited gobbleCrlf_merges (word_merges _ _) ht h
  | spc3 => exact ((skipHws_merges 0).wait ht h).2
  | value =>
    simp only [act] at h
    split at h
    · cases h
    · exact ((word_merges _ _).wait ht h).2
  | eol2a =>
    simp only [act] at h
    split at h
    · cases h
    · split at h <;> cases h
  | eol2b => exact (requireCrlf_merges.wait ht h).2
  | beyond => cases h

def control (v : InHdr) : InHdrSt × Bool := (v.state, v.ext)

theorem word_control {S : Scanner UInt8 Scratch (Except Stat Str)} {set : InHdr → Str → InHdr}
    (hset : ∀ v s, control (set v s) = control v) : Reader.Keeps control (word S set) :=
  Reader.keeps_ofScan (fun _ _ => rfl) fun v r => by cases r <;> simp [hset]

theorem eol_control : Reader.Keeps control eol :=
  Reader.keeps_ofScan (fun _ _ => rfl) fun _ _ => rfl

theorem skipHws_control (mn : Nat) : Reader.Keeps control (skipHws mn) :=
  Reader.keeps_ofScan (fun _ _ => rfl) fun _ _ => rfl

theorem requireCrlf_control : Reader.Keeps control requireCrlf :=
  Reader.keeps_ofScan (fun _ _ => rfl) fun _ _ => rfl

theorem gobbleCrlf_control : Reader.Keeps control gobbleCrlf :=
  Reader.keeps_ofScan (fun _ _ => rfl) fun v r => by split <;> rfl

variable (cfg) in
theorem act_control {q : InHdrSt} (hu : q ≠ .uridat) (hv : q ≠ .value) :
    Reader.Keeps control (act cfg q) := by
  cases q with
  | start =>
    intro v t
    have hword : Reader.Keeps control
        (word (delimitWord false) fun v s => { v with tmthd := some s }) :=
      word_control fun _ _ => rfl
    exact hword v _
  | spc1 => exact skipHws_control 1
  | target => exact word_control fun _ _ => rfl
  | uridat => exact absurd rfl hu
  | spc2 =>
    intro v t
    have he := eol_control v t
    simp only [act]
    split
    · exact he
    · exact (skipHws_control 1 _ _).trans he
  | optparam => exact Reader.keeps_onStat eol_control (word_control fun _ _ => rfl)
  | eol1 => exact fun v t => requireCrlf_control { v with line1 := _ } _
  | key => exact Reader.keeps_onStat gobbleCrlf_control (word_control fun _ _ => rfl)
  | spc3 => exact skipHws_control 0
  | value => exact absurd rfl hv
  | eol2a =>
    intro v t
    simp only [act]
    split
    · rfl
    · split <;> rfl
  | eol2b => exact requireCrlf_control
  | beyond => exact fun _ _ => rfl

theorem act_frame {q : InHdrSt} {x : Option Stat} (h : act cfg q v t = (x, v', t')) :
    v'.state = v.state ∧ (v'.ext = v.ext ∨ ((q = .uridat ∨ q = .value) ∧ x = some .ok)) := by
  by_cases hu : q = .uridat
  · subst hu
    have h : expectQuery v t = (x, v', t') := h
    cases x with
    | none =>
      obtain ⟨s, -, rfl⟩ := Reader.ofScan_wait_inv h
      exact ⟨rfl, .inl rfl⟩
    | some x =>
      obtain ⟨y, s, -, hp⟩ := Reader.ofScan_keep_inv h
      cases y <;> cases hp <;> simp
  by_cases hv : q = .value
  · subst hv
    simp only [act] at h
    split at h
    · cases h
      simp
    · have hk : Reader.Keeps control (word delimitVal fun v s => { v with val := some s }) :=
        word_control fun _ _ => rfl
      have := hk v t
      rw [h] at this
      simp only [control, Prod.mk.injEq] at this
      exact ⟨this.1, .inl this.2⟩
  · have := act_control cfg hu hv v t
    rw [h] at this
    simp only [control, Prod.mk.injEq] at this
    exact ⟨this.1, .inl this.2⟩

/-- When a suspension in state `q` leaves no trace: `start` has not copied anything yet, `eol1`
is not suspended, and no line ends behind the first part of a version or a key. -/
def Quiet (q : InHdrSt) (v : InHdr) (rest : Tape) : Prop :=
  match q with
  | .start => v.scr.text = []
  | .optparam | .key => v.scr.text = [] ∨ Inside rest
  | .eol1 => False
  | _ => True

instance (q : InHdrSt) (v : InHdr) (rest : Tape) : Decidable (Quiet q v rest) :=
  match q with
  | .start => inferInstanceAs (Decidable (v.scr.text = []))
  | .optparam | .key => inferInstanceAs (Decidable (v.scr.text = [] ∨ Inside rest))
  | .eol1 => inferInstanceAs (Decidable False)
  | .spc1 | .target | .uridat | .spc2 | .spc3 | .value | .eol2a | .eol2b | .beyond =>
    inferInstanceAs (Decidable True)

theorem eol_inside (ht : t.Live) (h : Inside t.unwait) :
    ∃ u, eol v t.unwait = (some .nomatch, v, u) ∧ u.get = t.unwait.get := by
  obtain ⟨c, u, hg, hc, hu⟩ := ht.get_unwait
  refine ⟨u.unget, ?_, hu⟩
  cases c with
  | byte b =>
    have hs := scan_eol_byte hg
    rw [inside_byte h hg] at hs
    exact Reader.ofScan_some hs
  | eof => exact Reader.ofScan_some (scan_eol_eof hg)
  | wait => exact absurd rfl hc

theorem eol_nomatch_get (ht : t.Live) {x : Stat} (h : eol v t = (some x, v', t')) :
    t.get.1 ≠ .wait ∧ t'.get = t.get := by
  obtain ⟨y, s, hs, -⟩ := Reader.ofScan_keep_inv h
  rcases hg : t.get with ⟨_ | _ | _, u⟩
  · rw [scan_eol_byte hg] at hs
    cases hs
    exact ⟨by simp, by rw [ht.get_unget hg (by simp), hg]⟩
  · rw [scan_eol_eof hg] at hs
    cases hs
    exact ⟨by simp, by rw [ht.get_unget hg (by simp), hg]⟩
  · rw [scan_wait (S := Okws.eol) rfl hg] at hs
    cases hs

section Word

variable {mark : UInt8 → Mark} {b : Bool} {set : InHdr → Str → InHdr}

theorem word_wait (h : word (delimScanner mark b) set v t = (none, v', t')) :
    v' = { v with scr := v'.scr } ∧ (delimScanner mark b).guard v'.scr = none ∧
      ((t.get = (.wait, t') ∧ v' = v) ∨ (v'.scr.text ≠ [] ∧ t.get.1 ≠ .wait)) := by
  obtain ⟨s, hs, rfl⟩ := Reader.ofScan_wait_inv h
  refine ⟨rfl, scan_wait_guard hs, (delim_wait hs).imp_left ?_⟩
  rintro ⟨hg, rfl⟩
  exact ⟨hg, rfl⟩

theorem word_congr (hg : (delimScanner mark b).guard v.scr = none) (h : t.get = t'.get) :
    word (delimScanner mark b) set v t = word (delimScanner mark b) set v t' :=
  Reader.ofScan_congr hg h

end Word

theorem start_reenter (ht : t.Live) (h : act cfg .start v t = (none, v', t'))
    (hq : v'.scr.text = []) : act cfg .start v t.unwait = act cfg .start v' t'.canRead.unwait := by
  obtain ⟨hm, -⟩ := (word_merges _ _).wait (ht.setMir _) h
  obtain ⟨-, -, ⟨hg, -⟩ | ⟨hne, -⟩⟩ := word_wait h
  · obtain ⟨-, -, -, l, -, rfl⟩ := Tape.wait_inv (ht.setMir _).ready hg
    exact hm
  · exact absurd hq hne

theorem spc2_reenter (ht : t.Live) (h : act cfg .spc2 v t = (none, v', t')) :
    act cfg .spc2 v t.unwait = act cfg .spc2 v' t'.canRead.unwait ∨
      ∃ u, act cfg .spc2 v t.unwait = (some .ok, { v' with spcs := 0 }, u) ∧
        act cfg .spc2 v' t'.canRead.unwait = (some .ok, v', u) := by
  simp only [act] at h ⊢
  rcases he : eol v t with ⟨_ | x, v₁, t₁⟩ <;> rw [he] at h
  · simp only [reduceCtorEq, if_false, spc2_wait ht he] at h
    cases h
    obtain ⟨hm, -⟩ := eol_merges.wait ht he
    exact .inl (by rw [hm])
  · obtain ⟨hm, hkept⟩ := eol_merges.keep ht he
    obtain ⟨hne, hget⟩ := eol_nomatch_get ht he
    simp only at h
    split at h
    · cases h
    next hx =>
    obtain ⟨hm₂, hwaited⟩ := (skipHws_merges 1).wait hkept.live h
    obtain ⟨k, hs, rfl⟩ := Reader.ofScan_wait_inv h
    rw [hm, if_neg hx, hm₂]
    obtain ⟨c, u, hg, hc, hu⟩ := hwaited.live.get_unwait
    by_cases hin : Inside t'.canRead.unwait
    · obtain ⟨u, hu, hget⟩ := eol_inside (v := { v₁ with spcs := k }) hwaited.live hin
      refine .inl ?_
      rw [hu, if_neg (by simp)]
      exact Reader.ofScan_congr rfl hget.symm
    · -- the blanks are all read: `eol` finds the end of the line first
      obtain ⟨b, rfl, hb⟩ : ∃ b, c = .byte b ∧ Byte.isEol b = true := by
        simp only [Inside, hg] at hin
        cases c with
        | byte b =>
          refine ⟨b, rfl, ?_⟩
          simp only [ne_eq, Ch.byte.injEq, not_and_or, not_not] at hin
          simpa [Byte.isEol] using hin
        | eof => simp at hin
        | wait => exact absurd rfl hc
      have hblank : Byte.isHws b = false := by
        simp only [Byte.isEol, Bool.or_eq_true, beq_iff_eq] at hb
        obtain rfl | rfl := hb <;> decide
      have hk : k ≠ 0 := Nat.ne_of_gt ((scan_hws_wait hs).resolve_left (by rwa [hget]))
      have hskip : scan Tape.device (skipHwsScanner 1) k t'.canRead.unwait =
          (some .ok, 0, u.unget) := by
        rw [scan_exit (D := Tape.device) (e := .back .ok 0) rfl hg
          (by simp [skipHwsScanner, hblank, hk])]
        rfl
      have heol := scan_eol_byte hg
      rw [hb] at heol
      refine .inr ⟨u.unget, Reader.ofScan_some hskip, ?_⟩
      rw [eol, Reader.ofScan_some heol]
      rfl

theorem optparam_reenter (ht : t.Live) (h : act cfg .optparam v t = (none, v', t'))
    (hq : v'.scr.text = [] ∨ Inside t'.canRead.unwait) :
    act cfg .optparam v t.unwait = act cfg .optparam v' t'.canRead.unwait := by
  refine Reader.onStat_reenter eol_merges (word_merges _ _) ht.ready h fun v₁ t₁ h₁ h₂ => ?_
  have hkept := (eol_merges.keep ht h₁).2
  obtain ⟨hne, hget⟩ := eol_nomatch_get ht h₁
  obtain ⟨-, hguard, ⟨hg, -⟩ | ⟨htext, -⟩⟩ := word_wait h₂
  · rw [hget] at hg
    exact absurd (by rw [hg]) hne
  · have hlive := ((word_merges _ _).wait hkept.live h₂).2.live
    obtain ⟨u, hu, hgu⟩ := eol_inside (v := v') hlive (hq.resolve_left htext)
    rw [Reader.onStat_some hu, if_pos rfl]
    exact word_congr hguard hgu

theorem key_reenter (ht : t.Live) (h : act cfg .key v t = (none, v', t'))
    (hq : v'.scr.text = [] ∨ Inside t'.canRead.unwait) :
    act cfg .key v t.unwait = act cfg .key v' t'.canRead.unwait := by
  refine Reader.onStat_reenter gobbleCrlf_merges (word_merges _ _) ht.ready h fun v₁ t₁ h₁ h₂ => ?_
  obtain ⟨y, s, hs, hpost⟩ := Reader.ofScan_keep_inv h₁
  obtain ⟨rfl, rfl⟩ : y = .nomatch ∧ v₁ = { v with needLF := s } := by
    split at hpost <;> cases hpost
    exact ⟨rfl, rfl⟩
  obtain ⟨k, hk, rfl⟩ := Reader.ofScan_wait_inv h₂
  obtain ⟨-, rfl, ⟨u, hg, hw⟩ | ⟨u, hg, hw⟩⟩ := scan_key_reenter ht.ready hs hk hq
  · have hgob : gobbleCrlf { v with needLF := false, scr := k } t'.canRead.unwait =
        (some .nomatch, { v with needLF := false, scr := k }, u) := by
      rw [gobbleCrlf, Reader.ofScan_some hg]
      rfl
    rw [Reader.onStat_some hgob, if_pos rfl]
    simp only [word, Reader.ofScan, hw]
  · have hgob : gobbleCrlf { v with needLF := false, scr := k } t'.canRead.unwait =
        (some .eof, { v with needLF := false, scr := k }, u) := by
      rw [gobbleCrlf, Reader.ofScan_some hg]
      rfl
    rw [Reader.onStat_some hgob, if_neg (by simp)]
    rw [word, Reader.ofScan_some hw]

/-- The states in which the counter of blanks is not looked at any more. -/
def past : InHdrSt → Bool
  | .start | .spc1 | .target | .uridat | .spc2 => false
  | _ => true

theorem past_inc {q : InHdrSt} (h : past q = true) : past q.inc = true := by
  cases q <;> first | rfl | exact h

theorem past_after {q : InHdrSt} (h : past q = true) : past (after cfg q) = true := by
  cases q <;> first | rfl | cases h

/-- Equal up to a counter that is not looked at any more. -/
def Same (v v' : InHdr) : Prop :=
  ∃ k, v' = { v with spcs := k } ∧ (past v.state = true ∨ k = v.spcs)

theorem Same.refl (v : InHdr) : Same v v := ⟨v.spcs, rfl, .inr rfl⟩

theorem Same.trans {a b c : InHdr} (h : Same a b) (h' : Same b c) : Same a c := by
  obtain ⟨k, rfl, hk⟩ := h
  obtain ⟨k', rfl, hk'⟩ := h'
  refine ⟨k', rfl, ?_⟩
  obtain hp | rfl := hk
  · exact .inl hp
  · exact hk'

theorem word_spcs {S : Scanner UInt8 Scratch (Except Stat Str)} {set : InHdr → Str → InHdr}
    {k : Nat} (hset : ∀ v s, set { v with spcs := k } s = { set v s with spcs := k }) :
    Reader.Commutes (fun v => { v with spcs := k }) (word S set) :=
  Reader.commutes_ofScan (fun _ => rfl) (fun _ _ => rfl) fun v r => by cases r <;> simp [hset]

theorem eol_spcs (k : Nat) : Reader.Commutes (fun v => { v with spcs := k }) eol :=
  Reader.commutes_ofScan (fun _ => rfl) (fun _ _ => rfl) fun _ _ => rfl

theorem requireCrlf_spcs (k : Nat) : Reader.Commutes (fun v => { v with spcs := k }) requireCrlf :=
  Reader.commutes_ofScan (fun _ => rfl) (fun _ _ => rfl) fun _ _ => rfl

theorem gobbleCrlf_spcs (k : Nat) : Reader.Commutes (fun v => { v with spcs := k }) gobbleCrlf :=
  Reader.commutes_ofScan (fun _ => rfl) (fun _ _ => rfl) fun v r => by
    split <;> rfl

theorem act_spcs {q : InHdrSt} {x : Option Stat} (hq : past q = true) (k : Nat)
    (h : act cfg q v t = (x, v', t')) :
    ∃ k', act cfg q { v with spcs := k } t = (x, { v' with spcs := k' }, t') := by
  have key (hf : Reader.Commutes (fun v => { v with spcs := k }) (act cfg q)) :
      ∃ k', act cfg q { v with spcs := k } t = (x, { v' with spcs := k' }, t') :=
    ⟨k, by rw [hf v t, h]⟩
  cases q with
  | optparam =>
    exact key (Reader.commutes_onStat (eol_spcs k) (word_spcs fun _ _ => rfl))
  | eol1 => exact key fun v t => requireCrlf_spcs k { v with line1 := some t.endMirror.1 } _
  | key => exact key (Reader.commutes_onStat (gobbleCrlf_spcs k) (word_spcs fun _ _ => rfl))
  | spc3 =>
    have h : skipHws 0 v t = (x, v', t') := h
    have hgoal : ∃ k', skipHws 0 { v with spcs := k } t = (x, { v' with spcs := k' }, t') := by
      cases x with
      | none =>
        obtain ⟨s, hs, rfl⟩ := Reader.ofScan_wait_inv h
        obtain ⟨m, hm⟩ := scan_hws_count (Nat.zero_le _) (Nat.zero_le k) hs
        exact ⟨m, Reader.ofScan_none hm⟩
      | some x =>
        obtain ⟨y, s, hs, hp⟩ := Reader.ofScan_keep_inv h
        cases hp
        obtain ⟨m, hm⟩ := scan_hws_count (Nat.zero_le _) (Nat.zero_le k) hs
        exact ⟨m, Reader.ofScan_some hm⟩
    exact hgoal
  | value =>
    refine key fun v t => ?_
    by_cases hc : (cfg.parseCookies && v.iscookie) = true
    · have hc' : (cfg.parseCookies && iscookie { v with spcs := k }) = true := hc
      simp only [act, if_pos hc, if_pos hc']
    · have hc' : ¬ (cfg.parseCookies && iscookie { v with spcs := k }) = true := hc
      simp only [act, if_neg hc, if_neg hc']
      have hword : Reader.Commutes (fun v => { v with spcs := k })
          (word delimitVal fun v s => { v with val := some s }) := word_spcs fun _ _ => rfl
      exact hword v t
  | eol2a =>
    refine key fun v t => ?_
    cases hn : v.noins <;> cases hk : v.key <;> simp [act, hn, hk]
  | eol2b => exact key (requireCrlf_spcs k)
  | beyond =>
    cases h
    exact ⟨k, rfl⟩
  | start | spc1 | target | uridat | spc2 => cases hq

theorem Same.act {v₁ v₂ : InHdr} {x : Option Stat} (hs : Same v₁ v₂)
    (h : act cfg v₁.state v₁ t = (x, v', t')) :
    ∃ v'', InHdr.act cfg v₂.state v₂ t = (x, v'', t') ∧ Same v' v'' := by
  obtain ⟨k, rfl, hp | rfl⟩ := hs
  · obtain ⟨k', hk⟩ := act_spcs hp k h
    exact ⟨_, hk, k', rfl, .inl (by rwa [(act_frame h).1])⟩
  · exact ⟨v', h, Same.refl v'⟩

def Harmless {N : Type} (w w' : InHdr × N × Tape) : Prop :=
  w.1.ext = false → Quiet w.1.state w'.1 w'.2.2.canRead.unwait

instance {N : Type} (w w' : InHdr × N × Tape) : Decidable (Harmless w w') :=
  inferInstanceAs (Decidable (_ → _))

section Outcome

variable {N : Type} {n : N}

def unwait (w : InHdr × N × Tape) : InHdr × N × Tape := (w.1, w.2.1, w.2.2.unwait)

def Alike (w w' : InHdr × N × Tape) : Prop := Same w.1 w'.1 ∧ w'.2 = w.2

theorem Alike.refl (w : InHdr × N × Tape) : Alike w w := ⟨Same.refl _, rfl⟩

theorem Alike.trans {a b c : InHdr × N × Tape} (h : Alike a b) (h' : Alike b c) : Alike a c :=
  ⟨h.1.trans h'.1, h'.2.trans h.2⟩

variable (cfg) in
theorem outcome_cases (x : Option Stat) (v : InHdr) (t : Tape) :
    (x = none ∧ outcome cfg n (x, v, t) = .wait (v, n, t)) ∨
    (x = some .ok ∧ v.ext = true ∧ outcome cfg n (x, v, t) = .next (v, n, t.canRead)) ∨
    (x = some .ok ∧ v.ext = false ∧
      outcome cfg n (x, v, t) = .next ({ v with state := after cfg v.state }, n, t)) ∨
    ∃ r, x = some r ∧ r ≠ .ok ∧ outcome cfg n (x, v, t) = .stop (v.finish cfg r) := by
  rcases x with _ | r
  · exact .inl ⟨rfl, rfl⟩
  · by_cases hr : r = .ok
    · subst hr
      cases he : v.ext with
      | true => exact .inr (.inl ⟨rfl, rfl, by simp [outcome, he]⟩)
      | false => exact .inr (.inr (.inl ⟨rfl, rfl, by simp [outcome, he]⟩))
    · refine .inr (.inr (.inr ⟨r, rfl, hr, ?_⟩))
      cases r <;> first | rfl | exact absurd rfl hr

theorem outcome_same {x : Option Stat} {v₁ v₂ : InHdr} (h : Same v₁ v₂) :
    Iter.Rel Alike (outcome cfg n (x, v₁, t)) (outcome cfg n (x, v₂, t)) := by
  obtain ⟨k, rfl, hk⟩ := h
  obtain ⟨rfl, ho⟩ | ⟨rfl, he, ho⟩ | ⟨rfl, he, ho⟩ | ⟨r, rfl, hr, ho⟩ :=
    outcome_cases cfg (n := n) x v₁ t
  · exact .wait ⟨⟨k, rfl, hk⟩, rfl⟩
  · rw [ho, outcome, if_pos he]
    exact .next ⟨⟨k, rfl, hk⟩, rfl⟩
  · rw [ho, outcome, if_neg (by simp [he])]
    exact .next ⟨⟨k, rfl, hk.imp_left past_after⟩, rfl⟩
  · rw [ho]
    have : outcome cfg n (some r, { v₁ with spcs := k }, t) = .stop (v₁.finish cfg r) := by
      cases r <;> first | rfl | exact absurd rfl hr
    rw [this]
    exact .stop

theorem outcome_unwait (r : Stat) (v : InHdr) (t : Tape) :
    (∀ {w}, outcome cfg n (some r, v, t) = .next w →
      outcome cfg n (some r, v, t.unwait) = .next (unwait w)) ∧
    ∀ {o}, outcome cfg n (some r, v, t) = .stop o → outcome cfg n (some r, v, t.unwait) =
      .stop o := by
  obtain ⟨hx, -⟩ | ⟨hx, he, ho⟩ | ⟨hx, he, ho⟩ | ⟨r', hx, hr, ho⟩ :=
    outcome_cases cfg (n := n) (some r) v t
  · cases hx
  · cases hx
    simp only [outcome, he, if_true, Iter.next.injEq, reduceCtorEq, false_implies, implies_true,
      and_true]
    rintro w rfl
    rfl
  · cases hx
    simp only [outcome, he, Bool.false_eq_true, if_false, Iter.next.injEq, reduceCtorEq,
      false_implies, implies_true, and_true]
    rintro w rfl
    rfl
  · cases hx
    have hstop : outcome cfg n (some r, v, t.unwait) = .stop (v.finish cfg r) := by
      cases r <;> first | rfl | exact absurd rfl hr
    rw [ho, hstop]
    exact ⟨nofun, id⟩

theorem step_ext {P : SubParser N} (h : v.ext = true) :
    (machine cfg P).step (v, n, t) = subOutcome v (P.parse v.state v.spcs n t) := if_pos h

theorem step_act {P : SubParser N} (h : v.ext = false) :
    (machine cfg P).step (v, n, t) = outcome cfg n (act cfg v.state v t) := if_neg (by simp [h])

end Outcome

/-- Inner parsers that only look for the end of their part of the input. -/
def tails : SubParser Unit where
  parse q spcs n t := match scan Tape.device (Cgi.tailScanner (q = .uridat)) () t with
    | (o, _, t') => (o.map fun _ => .eof, spcs, n, t')

section Merge

variable {w w' : InHdr × Unit × Tape} {n : Unit}

theorem step_tail {o : Option Unit} {s : Unit} (h : v.ext = true)
    (hs : scan Tape.device (Cgi.tailScanner (v.state = .uridat)) () t = (o, s, t')) :
    (machine cfg tails).step (v, n, t) = o.elim (.wait (v, n, t'))
      fun _ => .next ({ v with ext := false, state := v.state.inc }, n, t'.canRead) := by
  rw [step_ext h]
  simp only [tails, hs]
  cases o <;> rfl

theorem step_next {v : InHdr} {t : Tape} (ht : t.Live)
    (h : (machine cfg tails).step (v, n, t) = .next w') :
    (machine cfg tails).step (v, n, t.unwait) = .next (unwait w') ∧ t.Kept w'.2.2 := by
  cases hext : v.ext with
  | true =>
    rcases hs : scan Tape.device (Cgi.tailScanner (v.state = .uridat)) () t with ⟨_ | o, s, t'⟩ <;>
      rw [step_tail hext hs] at h <;> cases h
    obtain ⟨hm, hkept⟩ := ht.scan_keep hs
    exact ⟨step_tail hext hm, hkept.canRead⟩
  | false =>
    rw [step_act hext] at h ⊢
    rcases ha : act cfg v.state v t with ⟨_ | r, v', t'⟩ <;> rw [ha] at h
    · cases h
    · obtain ⟨hm, hkept⟩ := act_keep ht ha
      rw [hm]
      refine ⟨(outcome_unwait r v' t').1 h, ?_⟩
      obtain ⟨hx, -⟩ | ⟨-, -, ho⟩ | ⟨-, -, ho⟩ | ⟨_, -, -, ho⟩ :=
        outcome_cases cfg (n := n) (some r) v' t'
      · cases hx
      · cases ho.symm.trans h
        exact hkept.canRead
      · cases ho.symm.trans h
        exact hkept
      · cases ho.symm.trans h

theorem step_stop {v : InHdr} {t : Tape} {o : InHdrOut} (ht : t.Live)
    (h : (machine cfg tails).step (v, n, t) = .stop o) :
    (machine cfg tails).step (v, n, t.unwait) = .stop o := by
  cases hext : v.ext with
  | true =>
    rcases hs : scan Tape.device (Cgi.tailScanner (v.state = .uridat)) () t with ⟨_ | o, s, t'⟩ <;>
      rw [step_tail hext hs] at h <;> cases h
  | false =>
    rw [step_act hext] at h ⊢
    rcases ha : act cfg v.state v t with ⟨_ | r, v', t'⟩ <;> rw [ha] at h
    · cases h
    · rw [(act_keep ht ha).1]
      exact (outcome_unwait r v' t').2 h

theorem step_wait {v : InHdr} {t : Tape} (ht : t.Live)
    (h : (machine cfg tails).step (v, n, t) = .wait w') :
    t.Waited w'.2.2 ∧ (Harmless (v, n, t) w' → Iter.Rel Alike
      ((machine cfg tails).step (v, n, t.unwait))
      ((machine cfg tails).step (unwait ((machine cfg tails).resume w')))) := by
  cases hext : v.ext with
  | true =>
    rcases hs : scan Tape.device (Cgi.tailScanner (v.state = .uridat)) () t with ⟨_ | o, s, t'⟩ <;>
      rw [step_tail hext hs] at h <;> cases h
    obtain ⟨hm, hwaited⟩ := ht.scan_wait hs
    refine ⟨hwaited, fun _ => ?_⟩
    have hm' : scan Tape.device (Cgi.tailScanner (v.state = .uridat)) () t.unwait =
        scan Tape.device (Cgi.tailScanner (v.state = .uridat)) () t'.canRead.unwait := hm
    simp only [machine, unwait, hext, if_true, tails, hm']
    exact Iter.Rel.refl Alike.refl _
  | false =>
    rw [step_act hext] at h
    rcases ha : act cfg v.state v t with ⟨_ | r, v', t'⟩ <;> rw [ha] at h
    · cases h
      obtain ⟨hstate, hext'⟩ := act_frame ha
      have hext' : v'.ext = false := (hext'.resolve_right (by simp)).trans hext
      refine ⟨act_waited ht ha, fun hq => ?_⟩
      have hq : Quiet v.state v' t'.canRead.unwait := hq hext
      rw [step_act hext]
      simp only [machine, unwait, hext', Bool.false_eq_true, if_false, hstate]
      have same (h : act cfg v.state v t.unwait = act cfg v.state v' t'.canRead.unwait) :
          Iter.Rel Alike (outcome cfg n (act cfg v.state v t.unwait))
            (outcome cfg n (act cfg v.state v' t'.canRead.unwait)) :=
        h ▸ Iter.Rel.refl Alike.refl _
      cases hst : v.state <;> rw [hst] at ha hq same
      case start => exact same (start_reenter ht ha hq)
      case spc1 => exact same ((skipHws_merges 1).wait ht ha).1
      case target => exact same ((word_merges _ _).wait ht ha).1
      case uridat => exact same (expectQuery_merges.wait ht ha).1
      case spc2 =>
        obtain heq | ⟨u, h₁, h₂⟩ := spc2_reenter ht ha
        · exact same heq
        · rw [h₁, h₂]
          have hpast : past (after cfg v'.state) = true := by rw [hstate, hst]; rfl
          simp only [outcome, hext', Bool.false_eq_true, if_false]
          exact .next ⟨⟨v'.spcs, rfl, .inl hpast⟩, rfl⟩
      case optparam => exact same (optparam_reenter ht ha hq)
      case eol1 => exact absurd hq id
      case key => exact same (key_reenter ht ha hq)
      case spc3 => exact same ((skipHws_merges 0).wait ht ha).1
      case value =>
        refine same ?_
        simp only [act] at ha ⊢
        split at ha
        · cases ha
        · next hc =>
          obtain ⟨hm, -⟩ := (word_merges _ _).wait ht ha
          obtain ⟨hv', -⟩ := word_wait ha
          have hck : v'.iscookie = v.iscookie := by rw [hv']; rfl
          rw [hck, if_neg hc, if_neg hc]
          exact hm
      case eol2a =>
        simp only [act] at ha
        split at ha
        · cases ha
        · split at ha <;> cases ha
      case eol2b => exact same (requireCrlf_merges.wait ht ha).1
      case beyond => cases ha
    · obtain ⟨hx, -⟩ | ⟨-, -, ho⟩ | ⟨-, -, ho⟩ | ⟨_, -, -, ho⟩ :=
        outcome_cases cfg (n := n) (some r) v' t'
      · cases hx
      all_goals cases ho.symm.trans h

theorem step_congr (h : Alike w w') :
    Iter.Rel Alike ((machine cfg tails).step w) ((machine cfg tails).step w') := by
  obtain ⟨v, n, t⟩ := w
  obtain ⟨v', n', t'⟩ := w'
  obtain ⟨hsame, heq⟩ := h
  cases heq
  cases hext : v.ext with
  | true =>
    obtain ⟨k, rfl, hk⟩ := hsame
    rcases hs : scan Tape.device (Cgi.tailScanner (v.state = .uridat)) () t with ⟨_ | o, s, t'⟩ <;>
      rw [step_tail hext hs, step_tail (v := { v with spcs := k }) hext hs]
    · exact .wait ⟨⟨k, rfl, hk⟩, rfl⟩
    · exact .next ⟨⟨k, rfl, hk.imp_left past_inc⟩, rfl⟩
  | false =>
    have hext' : v'.ext = false := by
      obtain ⟨k, rfl, -⟩ := hsame
      exact hext
    rcases ha : act cfg v.state v t with ⟨x, v₁, t₁⟩
    obtain ⟨v₂, hv₂, hsame'⟩ := hsame.act ha
    rw [step_act hext, step_act hext', ha, hv₂]
    exact outcome_same hsame'

theorem merge (cfg : InHdrConfig) : Machine.Merge (machine cfg tails) unwait Alike
    (fun w => w.2.2.Live) Harmless (fun w => w.2.2.waits) where
  trans _ _ _ h h' := h.trans h'
  congr h := step_congr h
  inv_next hw h := (step_next hw h).2.live
  inv_wait hw h := (step_wait hw h).1.live
  waits_next hw h := (step_next hw h).2.waits
  waits_wait hw h := (step_wait hw h).1.slept.waits
  next hw h := (step_next hw h).1 ▸ Iter.Rel.refl Alike.refl _
  stop hw h := step_stop hw h
  wait hw h hq := (step_wait hw h).2 hq

end Merge

section Simulation

variable {ccfg : CgiConfig} {n n' : Cgis}

/-- The inner parser that is at work in state `q`. -/
def Cgis.cgi (n : Cgis) (q : InHdrSt) : Cgi := if q = .uridat then n.url else n.cookie

structure Cgis.Sound (n : Cgis) : Prop where
  url : n.url.Sound
  cookie : n.cookie.Sound
  uriMode : n.url.uriMode = true
  cookieMode : n.cookie.uriMode = false

theorem Cgis.Sound.cgi {q : InHdrSt} (h : n.Sound) :
    (n.cgi q).Sound ∧ (n.cgi q).uriMode = decide (q = .uridat) := by
  unfold Cgis.cgi
  split
  · next hq => exact ⟨h.url, by simp [h.uriMode, hq]⟩
  · next hq => exact ⟨h.cookie, by simp [h.cookieMode, hq]⟩

theorem cgis_parse {q : InHdrSt} {k k' : Nat} {x : Option Stat} (hn : n.Sound) (ht : t.Live)
    (h : (cgis ccfg).parse q k n t = (x, k', n', t')) :
    n'.Sound ∧ (q = .uridat → k' = k) ∧
      Tape.Follows (Cgi.tailScanner (q = .uridat)) t (x.map fun r => decide (r = .eof)) t' ∧
      (x ≠ none → t.Kept t') ∧ ∀ r, x = some r → r ≠ .eof → ∃ c c' : Cgi,
      c = { n.cgi q with spcs := k, tape := t } ∧
        n'.cgi q = c' ∧ c'.tape = t' ∧ (Cgi.machine ccfg).step c = .next c' := by
  obtain ⟨hsound, hmode⟩ := hn.cgi (q := q)
  rcases hp : Cgi.parseGutsDriver ccfg { n.cgi q with spcs := k, tape := t } with ⟨rc, c⟩
  have hc : Cgi.Sound { n.cgi q with spcs := k, tape := t } :=
    ⟨hsound.cap, hsound.room, hsound.var, hsound.modes⟩
  obtain ⟨hs', hm', hk'⟩ := Cgi.parseGutsDriver_sound hc hp
  have hf := Cgi.parseGutsDriver_follows hc.modes ht hp
  simp only [hmode] at hf
  -- the result of the round in terms of the parser's return code
  have hround : Cgis.round ccfg k (n.cgi q) t =
      ((if rc = .wait then none else some rc), c.spcs, c, c.tape) := by
    simp only [Cgis.round, hp]
    cases rc <;> rfl
  have hx : x = (if rc = .wait then none else some rc) ∧ k' = c.spcs ∧ t' = c.tape ∧
      n' = (if q = .uridat then { n with url := c } else { n with cookie := c }) := by
    simp only [cgis] at h
    by_cases hq : q = .uridat
    · simp only [Cgis.cgi, hq, if_true] at hround
      simp only [hq, if_true, hround] at h
      cases h
      simp [hq]
    · simp only [Cgis.cgi, hq, if_false] at hround
      simp only [hq, if_false, hround] at h
      cases h
      simp [hq]
  obtain ⟨rfl, rfl, rfl, rfl⟩ := hx
  refine ⟨?_, fun hq => hk' (by rw [hmode, hq]; rfl), ?_, ?_, ?_⟩
  · by_cases hq : q = .uridat
    · rw [if_pos hq]
      exact ⟨hs', hn.cookie, by rw [hm', hmode, hq]; rfl, hn.cookieMode⟩
    · rw [if_neg hq]
      exact ⟨hn.url, hs', hn.uriMode, by rw [hm', hmode]; simp [hq]⟩
  · by_cases hw : rc = .wait
    · simpa [hw, Cgi.progress] using hf
    · rw [Cgi.progress_of_ne hw] at hf
      simpa [hw] using hf
  · intro hx
    exact Cgi.parseGutsDriver_kept ht (fun hw => hx (if_pos hw)) hp
  · intro r hr hne
    have hw : rc ≠ .wait := by
      rintro rfl
      cases hr
    simp only [hw, if_false, Option.some.injEq] at hr
    subst hr
    refine ⟨_, c, rfl, ?_, rfl, ?_⟩
    · by_cases hq : q = .uridat <;> simp [Cgis.cgi, hq]
    · simp only [Cgi.machine, hp]
      cases rc <;> simp_all [Cgi.outcome]

/-- A state of the parser and one of the parser that skips what the inner ones read. -/
structure Skips (w : InHdr × Cgis × Tape) (a : InHdr × Unit × Tape) : Prop where
  same : Same w.1 a.1
  live : w.2.2.Live
  sound : w.2.1.Sound
  ext : w.1.ext = true → (w.1.state = .uridat ∨ w.1.state = .value) ∧
    Tape.Follows (Cgi.tailScanner (w.1.state = .uridat)) a.2.2 (some false) w.2.2
  tape : w.1.ext = false → a.2.2 = w.2.2

theorem Skips.ext_eq {w : InHdr × Cgis × Tape} {a : InHdr × Unit × Tape} (h : Skips w a) :
    a.1.ext = w.1.ext ∧ a.1.state = w.1.state := by
  obtain ⟨k, hk, -⟩ := h.same
  rw [hk]
  exact ⟨rfl, rfl⟩

theorem same_ext {v₁ v₂ : InHdr} {k : Nat} (hs : Same v₁ v₂)
    (hq : v₁.state = .uridat ∨ v₁.state = .value)
    (hk : v₁.state = .uridat → k = v₁.spcs) : Same { v₁ with spcs := k } v₂ := by
  obtain ⟨m, rfl, hm⟩ := hs
  refine ⟨m, rfl, ?_⟩
  obtain hst | hst := hq
  · simp only [hst, past, Bool.false_eq_true, false_or] at hm
    exact .inr (hm.trans (hk hst).symm)
  · exact .inl (by rw [hst]; rfl)

theorem same_inc {v₁ v₂ : InHdr} (hs : Same v₁ v₂) :
    Same { v₁ with ext := false, state := v₁.state.inc }
      { v₂ with ext := false, state := v₂.state.inc } := by
  obtain ⟨m, rfl, hm⟩ := hs
  exact ⟨m, rfl, hm.imp_left past_inc⟩

theorem stutters (cfg : InHdrConfig) (ccfg : CgiConfig) :
    Machine.Stutters (machine cfg (cgis ccfg)) (machine cfg tails) Skips Harmless Harmless where
  next {w w' a} hR h := by
    obtain ⟨v, n, t⟩ := w
    obtain ⟨va, na, ta⟩ := a
    obtain ⟨he, hst⟩ := hR.ext_eq
    cases hext : v.ext with
    | true =>
      obtain ⟨hq, hfol⟩ := hR.ext hext
      rcases hp : (cgis ccfg).parse v.state v.spcs n t with ⟨x, k, n', t'⟩
      obtain ⟨hn', hk, hf, hkept, -⟩ := cgis_parse hR.sound hR.live hp
      have hsame := same_ext hR.same hq hk
      simp only [machine, hext, if_true, hp] at h
      cases x with
      | none => cases h
      | some r =>
        have hkept := hkept (by simp)
        simp only [Option.map_some] at hf
        simp only [subOutcome] at h
        split at h <;> cases h
        · next hr =>
          rw [hr, decide_eq_true rfl] at hf
          have hscan := hfol.trans hf
          rw [← show va.state = v.state from hst] at hscan
          exact .inr ⟨_, step_tail (he.trans hext) hscan, same_inc hsame, hkept.canRead.live, hn',
            nofun, fun _ => rfl⟩
        · next hr =>
          rw [decide_eq_false hr] at hf
          refine .inl ⟨hsame, hkept.live, hn', fun _ => ⟨hq, hfol.trans hf⟩, fun hfalse => ?_⟩
          cases hext.symm.trans hfalse
    | false =>
      obtain rfl : ta = t := hR.tape hext
      rcases ha : act cfg v.state v ta with ⟨x, v', t'⟩
      obtain ⟨va', hva', hsame⟩ := hR.same.act ha
      obtain ⟨hstate, hframe⟩ := act_frame ha
      simp only [machine, hext, Bool.false_eq_true, if_false, ha] at h
      rw [step_act (he.trans hext), hva']
      obtain ⟨rfl, ho⟩ | ⟨rfl, hx, ho⟩ | ⟨rfl, hx, ho⟩ | ⟨r, rfl, -, ho⟩ :=
        outcome_cases cfg (n := n) x v' t'
      all_goals cases ho.symm.trans h
      · have hkept := (act_keep hR.live ha).2.canRead
        refine .inr ⟨(va', na, t'.canRead), ?_, hsame, hkept.live, hR.sound, fun _ => ⟨?_, rfl⟩, ?_⟩
        · obtain ⟨m, rfl, -⟩ := hsame
          simp [outcome, hx]
        · rw [hstate]
          exact (hframe.resolve_left (by simp [hx, hext])).1
        · intro hfalse
          cases hx.symm.trans hfalse
      · have hkept := (act_keep hR.live ha).2
        refine .inr ⟨({ va' with state := after cfg va'.state }, na, t'), ?_, ?_, hkept.live,
          hR.sound,
          fun htrue => ?_, fun _ => rfl⟩
        · obtain ⟨m, rfl, -⟩ := hsame
          simp [outcome, hx]
        · obtain ⟨m, rfl, hm⟩ := hsame
          exact ⟨m, rfl, hm.imp_left past_after⟩
        · cases hx.symm.trans htrue
  wait {w w' a} hR h := by
    obtain ⟨v, n, t⟩ := w
    obtain ⟨va, na, ta⟩ := a
    obtain ⟨he, hst⟩ := hR.ext_eq
    cases hext : v.ext with
    | true =>
      obtain ⟨hq, hfol⟩ := hR.ext hext
      rcases hp : (cgis ccfg).parse v.state v.spcs n t with ⟨x, k, n', t'⟩
      obtain ⟨hn', hk, hf, -, -⟩ := cgis_parse hR.sound hR.live hp
      have hsame := same_ext hR.same hq hk
      simp only [machine, hext, if_true, hp] at h
      cases x with
      | some r =>
        simp only [subOutcome] at h
        split at h <;> cases h
      | none =>
        cases h
        have hscan := hfol.trans hf
        rw [← show va.state = v.state from hst] at hscan
        have hlive := (hR.live.scan_wait hf).2.live
        refine ⟨_, step_tail (he.trans hext) hscan,
          ⟨hsame, hlive, hn', fun _ => ⟨hq, rfl⟩, fun _ => rfl⟩,
          fun _ hfalse => ?_⟩
        cases (he.trans hext).symm.trans hfalse
    | false =>
      obtain rfl : ta = t := hR.tape hext
      rcases ha : act cfg v.state v ta with ⟨x, v', t'⟩
      obtain ⟨va', hva', hsame⟩ := hR.same.act ha
      obtain ⟨hstate, hframe⟩ := act_frame ha
      simp only [machine, hext, Bool.false_eq_true, if_false, ha] at h
      obtain ⟨rfl, ho⟩ | ⟨rfl, hx, ho⟩ | ⟨rfl, hx, ho⟩ | ⟨r, rfl, -, ho⟩ :=
        outcome_cases cfg (n := n) x v' t'
      all_goals cases ho.symm.trans h
      have hext' : v'.ext = false := (hframe.resolve_right (by simp)).trans hext
      refine ⟨(va', na, t'), by rw [step_act (he.trans hext), hva']; rfl, ⟨hsame, ?_, hR.sound,
        fun htrue => ?_, fun _ => rfl⟩, fun hP hfalse => ?_⟩
      · exact (act_waited hR.live ha).live
      · cases hext'.symm.trans htrue
      · have hquiet := hP hext
        obtain ⟨m, rfl, -⟩ := hsame
        rw [show va.state = v.state from hst]
        exact hquiet
  stop {w a o} hR h := by
    obtain ⟨v, n, t⟩ := w
    obtain ⟨va, na, ta⟩ := a
    obtain ⟨he, hst⟩ := hR.ext_eq
    cases hext : v.ext with
    | true =>
      rcases hp : (cgis ccfg).parse v.state v.spcs n t with ⟨x, k, n', t'⟩
      simp only [machine, hext, if_true, hp] at h
      cases x with
      | none => cases h
      | some r =>
        simp only [subOutcome] at h
        split at h <;> cases h
    | false =>
      obtain rfl : ta = t := hR.tape hext
      rcases ha : act cfg v.state v ta with ⟨x, v', t'⟩
      obtain ⟨va', hva', hsame⟩ := hR.same.act ha
      simp only [machine, hext, Bool.false_eq_true, if_false, ha] at h
      rw [step_act (he.trans hext), hva']
      obtain ⟨rfl, ho⟩ | ⟨rfl, hx, ho⟩ | ⟨rfl, hx, ho⟩ | ⟨r, rfl, hr, ho⟩ :=
        outcome_cases cfg (n := n) x v' t'
      all_goals cases ho.symm.trans h
      obtain ⟨m, rfl, -⟩ := hsame
      cases r <;> first | rfl | exact absurd rfl hr

end Simulation

section Ends

variable {ccfg : CgiConfig} {w w' : InHdr × Cgis × Tape}

def rank : InHdrSt → Nat
  | .start => 13
  | .spc1 => 12
  | .target => 11
  | .uridat => 10
  | .spc2 => 9
  | .optparam => 8
  | .eol1 => 7
  | .key => 6
  | .spc3 => 5
  | .value => 4
  | .eol2a => 3
  | .eol2b => 2
  | .beyond => 1

theorem after_rank {q : InHdrSt} (h : act cfg q v t = (some .ok, v', t')) :
    rank (after cfg q) < rank q ∨ (rank (after cfg q) < rank q + 5 ∧ t'.left < t.left) := by
  cases q with
  | target =>
    refine .inl ?_
    simp only [after]
    split <;> decide
  | eol2b =>
    refine .inr ⟨by simp [after, rank], ?_⟩
    obtain ⟨y, s, hs, hp⟩ := Reader.ofScan_keep_inv (show requireCrlf v t = _ from h)
    obtain rfl : y = .ok := by
      simp only [Okws.requireCrlf, Prod.mk.injEq] at hp
      split at hp
      · cases hp.1
      · exact hp.1
    exact scan_gobble_left hs
  | beyond => cases h
  | start | spc1 | uridat | spc2 | optparam | eol1 | key | spc3 | value | eol2a =>
    exact .inl (by simp [after, rank, InHdrSt.inc])

def Cgis.todo (n : Cgis) (q : InHdrSt) (t : Tape) : Nat := Cgi.todo { n.cgi q with tape := t }

theorem Cgis.todo_bounds (n : Cgis) (q : InHdrSt) (t : Tape) :
    2 * t.left ≤ n.todo q t ∧ n.todo q t ≤ 2 * t.left + 1 :=
  Cgi.todo_bounds { n.cgi q with tape := t }

/-- What is left to do: the input, the rest of the line, and the word of an inner parser. -/
def todo (w : InHdr × Cgis × Tape) : Nat :=
  38 * w.2.2.left + 4 * rank w.1.state +
    if w.1.ext then w.2.1.todo w.1.state w.2.2 else 2 * w.2.2.left + 2

theorem todo_ext (h : w.1.ext = true) :
    todo w = 38 * w.2.2.left + 4 * rank w.1.state + w.2.1.todo w.1.state w.2.2 := by
  rw [todo, if_pos h]

theorem todo_act (h : w.1.ext = false) :
    todo w = 38 * w.2.2.left + 4 * rank w.1.state + (2 * w.2.2.left + 2) := by
  rw [todo, if_neg (by simp [h])]

theorem todo_next {a : InHdr × Unit × Tape} (hw : Skips w a)
    (h : (machine cfg (cgis ccfg)).step w = .next w') : todo w' < todo w := by
  obtain ⟨v, n, t⟩ := w
  cases hext : v.ext with
  | true =>
    obtain ⟨hq, -⟩ := hw.ext hext
    have hlow := (n.todo_bounds v.state t).1
    rw [todo_ext (w := (v, n, t)) hext]
    rcases hp : (cgis ccfg).parse v.state v.spcs n t with ⟨x, k, n', t'⟩
    obtain ⟨-, -, -, hkept, hround⟩ := cgis_parse hw.sound hw.live hp
    simp only [machine, hext, if_true, hp] at h
    cases x with
    | none => cases h
    | some r =>
      have hleft : t'.canRead.left ≤ t.left := (hkept (by simp)).left
      simp only [subOutcome] at h
      split at h <;> cases h
      · have hrank : rank v.state.inc < rank v.state := by
          obtain hst | hst := hq
          · rw [show v.state = _ from hst]; decide
          · rw [show v.state = _ from hst]; decide
        rw [todo_act rfl]
        simp only
        omega
      · next hr =>
        obtain ⟨c, c', rfl, hc', rfl, hstep⟩ := hround r rfl hr
        have hc : Cgi.Inv { n.cgi v.state with spcs := v.spcs, tape := t } := by
          have hs := (hw.sound.cgi (q := v.state)).1
          exact Cgi.Sound.inv ⟨hs.cap, hs.room, hs.var, hs.modes⟩ hw.live
        have hlt : c'.todo < n.todo v.state t := (Cgi.step_next hc hstep).2.2.2
        have hsame : n'.todo v.state c'.tape = c'.todo := by rw [Cgis.todo, hc']
        have hbounds := c'.todo_bounds
        rw [todo_ext hext]
        simp only [hsame]
        have hhigh := (n.todo_bounds v.state t).2
        omega
  | false =>
    rw [todo_act (w := (v, n, t)) hext]
    rcases ha : act cfg v.state v t with ⟨x, v', t'⟩
    have hstate := (act_frame ha).1
    simp only [machine, hext, Bool.false_eq_true, if_false, ha] at h
    obtain ⟨rfl, ho⟩ | ⟨rfl, hx, ho⟩ | ⟨rfl, hx, ho⟩ | ⟨r, rfl, -, ho⟩ :=
      outcome_cases cfg (n := n) x v' t'
    all_goals cases ho.symm.trans h
    · have hleft : t'.canRead.left ≤ t.left := (act_keep hw.live ha).2.left
      have hhigh := (n.todo_bounds v.state t'.canRead).2
      rw [todo_ext hx]
      simp only [hstate]
      omega
    · have hleft : t'.left ≤ t.left := (act_keep hw.live ha).2.left
      have hrank := after_rank ha
      rw [todo_act hx]
      simp only [hstate]
      omega

theorem todo_wait {a : InHdr × Unit × Tape} (hw : Skips w a)
    (h : (machine cfg (cgis ccfg)).step w = .wait w') :
    todo ((machine cfg (cgis ccfg)).resume w') < todo w := by
  obtain ⟨v, n, t⟩ := w
  cases hext : v.ext with
  | true =>
    have hlow := (n.todo_bounds v.state t).1
    rw [todo_ext (w := (v, n, t)) hext]
    rcases hp : (cgis ccfg).parse v.state v.spcs n t with ⟨x, k, n', t'⟩
    obtain ⟨-, -, hf, -, -⟩ := cgis_parse hw.sound hw.live hp
    simp only [machine, hext, if_true, hp] at h
    cases x with
    | some r =>
      simp only [subOutcome] at h
      split at h <;> cases h
    | none =>
      cases h
      have hleft : t'.canRead.left < t.left := (hw.live.scan_wait hf).2.slept.left
      have hhigh := (n'.todo_bounds v.state t'.canRead).2
      simp only [machine]
      rw [todo_ext hext]
      simp only
      omega
  | false =>
    rw [todo_act (w := (v, n, t)) hext]
    rcases ha : act cfg v.state v t with ⟨x, v', t'⟩
    obtain ⟨hstate, hframe⟩ := act_frame ha
    simp only [machine, hext, Bool.false_eq_true, if_false, ha] at h
    obtain ⟨rfl, ho⟩ | ⟨rfl, hx, ho⟩ | ⟨rfl, hx, ho⟩ | ⟨r, rfl, -, ho⟩ :=
      outcome_cases cfg (n := n) x v' t'
    all_goals cases ho.symm.trans h
    have hext' : v'.ext = false := (hframe.resolve_right (by simp)).trans hext
    have hleft : t'.canRead.left < t.left := (act_waited hw.live ha).slept.left
    simp only [machine]
    rw [todo_act hext']
    simp only [hstate]
    omega

variable (cfg ccfg) in
theorem ends {a : InHdr × Unit × Tape} (hw : Skips w a) :
    ∃ o, (machine cfg (cgis ccfg)).Ends w o := by
  refine Machine.ends_of_measure (I := fun w => ∃ a, Skips w a) todo ?_ ?_ ⟨a, hw⟩
  · rintro u u' ⟨a, ha⟩ h
    refine ⟨?_, todo_next ha h⟩
    obtain ha' | ⟨a', -, ha'⟩ := (stutters cfg ccfg).next ha h
    · exact ⟨a, ha'⟩
    · exact ⟨a', ha'⟩
  · rintro u u' ⟨a, ha⟩ h
    obtain ⟨a', -, ha', -⟩ := (stutters cfg ccfg).wait ha h
    exact ⟨⟨_, ha'⟩, todo_wait ha h⟩

def start' (cap : Nat) (rs : List Str) : InHdr × Unit × Tape :=
  ({ scr := { cap := cap } }, (), ({ src := rs } : Abuf).toTape)

theorem start_skips (cap : Nat) {cap₂ : Nat} (h : 0 < cap₂) (rs : List Str) :
    Skips (start cap cap₂ rs) (start' cap rs) where
  same := Same.refl _
  live := ⟨⟨.inl rfl, by simp [start, Abuf.toTape]⟩, by simp [start, Abuf.toTape, Tape.Unlimited]⟩
  sound := by
    have hroom (w : Word) (hw : w.cap = cap₂) (ht : w.text = []) : w.full = false := by
      simp only [Word.full, hw, ht, List.length_nil, decide_eq_false_iff_not]
      omega
    exact ⟨⟨h, fun _ => hroom _ rfl rfl, by simp [start], rfl⟩,
      ⟨h, fun _ => hroom _ rfl rfl, by simp [start], rfl⟩, rfl, rfl⟩
  ext h := by cases h
  tape _ := rfl

/-- If every suspension is harmless, the parser ends with what it makes of the whole input. -/
theorem ends_uncut (cfg : InHdrConfig) (ccfg : CgiConfig) (cap cap₂ : Nat) (hcap : 0 < cap₂)
    (rs : List Str) (h : (machine cfg (cgis ccfg)).Suspends Harmless (start cap cap₂ rs)) :
    ∃ o, (machine cfg (cgis ccfg)).Ends (start cap cap₂ rs) o ∧
      (machine cfg (cgis ccfg)).Ends (start cap cap₂ (Abuf.whole rs.flatten)) o := by
  obtain ⟨o, ho⟩ := ends cfg ccfg (start_skips cap hcap rs)
  obtain ⟨o', ho'⟩ := ends cfg ccfg
    (start_skips cap hcap (Abuf.whole rs.flatten))
  obtain ⟨ha, hP⟩ := (stutters cfg ccfg).ends (start_skips cap hcap rs) ho
  obtain ⟨ha', -⟩ := (stutters cfg ccfg).ends (start_skips cap hcap (Abuf.whole rs.flatten)) ho'
  have hunwait : unwait (start' cap rs) = start' cap (Abuf.whole rs.flatten) := by
    simp only [unwait, start', Abuf.toTape_unwait]
  have hmerged := ((merge cfg).ends_iff Alike.refl (start_skips cap hcap rs).live (hP h)).1 ha
  rw [hunwait] at hmerged
  exact ⟨o, ho, ha'.unique hmerged ▸ ho'⟩

/-- `GET /a?b=c HTTP/1` and the field `Kv: x`, cut in all the states where it does no harm. -/
theorem ends_uncut_cuts : ∃ o,
    (machine ⟨true, true, false, false⟩ (cgis ⟨64, id⟩)).Ends (start 16 8
      [[71, 69, 84, 32], [], [47, 97, 63, 98], [], [61, 99, 32, 72, 84], [], [84, 80, 47, 49, 13,
      10, 75], [], [118, 58], [], [32, 120, 13], [], [10, 13], [], [10]]) o ∧
    (machine ⟨true, true, false, false⟩ (cgis ⟨64, id⟩)).Ends (start 16 8
      [[71, 69, 84, 32, 47, 97, 63, 98, 61, 99, 32, 72, 84, 84, 80, 47, 49, 13, 10, 75, 118, 58, 32,
      120, 13, 10, 13, 10]]) o :=
  ends_uncut ⟨true, true, false, false⟩ ⟨64, id⟩ 16 8 (by decide)
    [[71, 69, 84, 32], [], [47, 97, 63, 98], [], [61, 99, 32, 72, 84], [], [84, 80, 47, 49, 13, 10,
    75], [], [118, 58], [], [32, 120, 13], [], [10, 13], [], [10]]
    (Machine.suspends_of_check (n := 60) (by decide +kernel))

/-- `G / 1` cut behind the method, in front of the line end, and inside the line end; a key cut
in front of a line end. -/
theorem ends_cut_differ :
    ([[[71], [], [32, 47, 32, 49, 10, 10]], [[71, 32, 47, 32, 49], [], [10, 10]],
        [[71, 32, 47, 32, 49, 13], [], [10, 10]], [[71, 32, 47, 32, 49, 10, 107], [], [10]]] :
      List (List Str)).Forall fun rs =>
      ¬ ∃ o, (machine ⟨true, true, false, false⟩ (cgis ⟨64, id⟩)).Ends (start 16 8 rs) o ∧
        (machine ⟨true, true, false, false⟩ (cgis ⟨64, id⟩)).Ends
          (start 16 8 (Abuf.whole rs.flatten)) o := by
  have differ {rs : List Str}
      (h : ((machine ⟨true, true, false, false⟩ (cgis ⟨64, id⟩)).run 20 (start 16 8 rs)).isSome ∧
        ((machine ⟨true, true, false, false⟩ (cgis ⟨64, id⟩)).run 20
          (start 16 8 (Abuf.whole rs.flatten))).isSome ∧
        (machine ⟨true, true, false, false⟩ (cgis ⟨64, id⟩)).run 20 (start 16 8 rs) ≠
          (machine ⟨true, true, false, false⟩ (cgis ⟨64, id⟩)).run 20
            (start 16 8 (Abuf.whole rs.flatten))) :
      ¬ ∃ o, (machine ⟨true, true, false, false⟩ (cgis ⟨64, id⟩)).Ends (start 16 8 rs) o ∧
        (machine ⟨true, true, false, false⟩ (cgis ⟨64, id⟩)).Ends
          (start 16 8 (Abuf.whole rs.flatten)) o :=
    Machine.not_ends_of_runs h.1 h.2.1 h.2.2
  rw [List.forall_iff_forall_mem]
  intro rs hrs
  simp only [List.mem_cons, List.not_mem_nil, or_false] at hrs
  obtain rfl | rfl | rfl | rfl := hrs <;> exact differ (by decide +kernel)

end Ends

end InHdr

end Okws
