import Mathlib.Data.List.Basic
import Okws.Mpfd

namespace Okws

open Lib

theorem Tape.Ready.setMir {t : Tape} (h : t.Ready) (m : Option Mirror) :
    ({ t with mir := m } : Tape).Ready := ⟨h.erc, h.bc⟩

namespace Mpfd

variable {cfg : MpfdConfig} {v v' : Mpfd} {t t' : Tape} {r : Stat} {x : Option Stat}

section Merges

theorem word_merges (S : Scanner UInt8 Scratch (Except Stat Str)) (set : Mpfd → Str → Mpfd) :
    (word S set).Merges := Reader.merges_ofScan (fun _ _ => rfl) fun _ _ _ => rfl

theorem skipHws_merges (mn : Nat) : (skipHws mn).Merges :=
  Reader.merges_ofScan (fun _ _ => rfl) fun _ _ _ => rfl

theorem skipWs_merges : skipWs.Merges := Reader.merges_ofScan (fun _ _ => rfl) fun _ _ _ => rfl

theorem gobbleCrlf_merges : gobbleCrlf.Merges :=
  Reader.merges_ofScan (fun _ _ => rfl) fun _ _ _ => rfl

theorem requireCrlf_merges : requireCrlf.Merges :=
  Reader.merges_ofScan (fun _ _ => rfl) fun _ _ _ => rfl

theorem seek_merges : seek.Merges := Reader.merges_ofScan (fun _ _ => rfl) fun _ _ _ => rfl

theorem dispWord_merges (S : Scanner UInt8 Scratch (Except Stat Str))
    (set : Contdisp → Str → Contdisp) : (dispWord S set).Merges :=
  Reader.merges_ofScan (fun _ _ => rfl) fun _ _ _ => rfl

theorem forceMatch_merges (s : Str) : (forceMatch s).Merges :=
  Reader.merges_ofScan (fun _ _ => by simp) fun _ _ _ => rfl

theorem dispEol_merges : dispEol.Merges := Reader.merges_ofScan (fun _ _ => rfl) fun _ _ _ => rfl

theorem requirechar_merges (c : UInt8) : (requirechar c).Merges :=
  Reader.merges_ofScan (fun _ _ => rfl) fun _ _ _ => rfl

theorem dispFilename_merges : dispFilename.Merges :=
  Reader.merges_ofScan (fun _ _ => rfl) fun _ _ _ => rfl

end Merges

section Boundary

variable {dat : Bool}

theorem arm_of_armed (h : v.armed = true) : v.arm = v := if_pos h

theorem arm_armed (h : v.boundaries ≠ []) : v.arm.armed = true ∧ v.arm.boundaries ≠ [] := by
  cases ha : v.armed with
  | true => rw [arm_of_armed ha]; exact ⟨ha, h⟩
  | false =>
    obtain ⟨k, bs, hb⟩ := List.exists_cons_of_ne_nil h
    rw [arm, if_neg (by simp [ha])]
    simp [armed, setHead, hb]

theorem mirrored_unwait : mirrored dat v t.unwait = (mirrored dat v t).unwait := by
  unfold mirrored
  split <;> rfl

theorem mirrored_armed (h : v.armed = true) : mirrored dat v t = t := by simp [mirrored, h]

theorem mirrored_eq (dat : Bool) (v : Mpfd) (t : Tape) : ∃ m, mirrored dat v t =
    { t with mir := m } := by
  unfold mirrored
  split
  · exact ⟨_, rfl⟩
  · exact ⟨t.mir, rfl⟩

theorem matchBoundary_eq {v₁ : Mpfd} {t₁ : Tape} (h : v.boundaries ≠ [])
    (hs : seek v.arm (mirrored dat v t) = (x, v₁, t₁)) : matchBoundary dat v t =
      if x = some .ok ∧ dat = true then (some .ok, v₁.endMirror2 t₁, t₁.dropMirror)
        else (x, v₁, t₁) := by
  rw [matchBoundary, if_neg h, hs]
  rcases x with _ | r
  · rfl
  · cases r <;> cases dat <;> rfl

theorem seek_wait (h : v.boundaries ≠ []) (hs : seek v.arm (mirrored dat v t) = (none, v', t')) :
    v'.armed = true ∧ v'.boundaries ≠ [] := by
  obtain ⟨k, -, rfl⟩ := Reader.ofScan_wait_inv hs
  obtain ⟨ha, hne⟩ := arm_armed h
  obtain ⟨k', bs, hb⟩ := List.exists_cons_of_ne_nil hne
  rw [armed, hb] at ha
  exact ⟨by rw [armed, setHead, hb]; exact ha, by simp [setHead]⟩

theorem matchBoundary_merges (dat : Bool) : (matchBoundary dat).Merges := by
  have nil {v : Mpfd} (t : Tape) (h : v.boundaries = []) :
      matchBoundary dat v t = (some .parseErr, v, t) := by simp [matchBoundary, h]
  constructor
  · intro v v' t t' r ht h
    by_cases hb : v.boundaries = []
    · rw [nil t hb] at h
      cases h
      exact ⟨nil _ hb, ht.passed⟩
    · obtain ⟨m, hm⟩ := mirrored_eq dat v t
      rcases hs : seek v.arm (mirrored dat v t) with ⟨_ | y, v₁, t₁⟩
      · rw [matchBoundary_eq hb hs] at h
        cases h
      · have hready : (mirrored dat v t).Ready := hm ▸ ht.setMir m
        obtain ⟨hm₁, hready₁, hwaits₁⟩ := seek_merges.passed hready hs
        rw [hm] at hwaits₁
        rw [← mirrored_unwait] at hm₁
        rw [matchBoundary_eq hb hs] at h
        rw [matchBoundary_eq hb hm₁]
        split at h <;> cases h
        · next hy => exact ⟨if_pos hy, hready₁.setMir none, hwaits₁⟩
        · next hy => exact ⟨if_neg hy, hready₁, hwaits₁⟩
  · intro v v' t t' ht h
    by_cases hb : v.boundaries = []
    · rw [nil t hb] at h
      cases h
    · obtain ⟨m, hm⟩ := mirrored_eq dat v t
      rcases hs : seek v.arm (mirrored dat v t) with ⟨_ | y, v₁, t₁⟩ <;>
        rw [matchBoundary_eq hb hs] at h
      · cases h
        have hready : (mirrored dat v t).Ready := hm ▸ ht.setMir m
        obtain ⟨hm₁, hready₁, hwaits₁⟩ := seek_merges.paused hready hs
        rw [hm] at hwaits₁
        refine ⟨?_, hready₁, hwaits₁⟩
        -- entered again, the search is on: nothing is set up a second time
        obtain ⟨harmed, hne⟩ := seek_wait hb hs
        have hagain :
            seek v'.arm (mirrored dat v' t'.canRead.unwait) = seek v' t'.canRead.unwait := by
          rw [arm_of_armed harmed, mirrored_armed harmed]
        rw [← mirrored_unwait, ← hagain] at hm₁
        rcases hs' : seek v'.arm (mirrored dat v' t'.canRead.unwait) with ⟨y, v₂, t₂⟩
        rw [matchBoundary_eq hb (hm₁.trans hs'), matchBoundary_eq hne hs']
      · split at h <;> cases h
  · intro v v' t t' r ht h
    by_cases hb : v.boundaries = []
    · rw [nil t hb] at h
      cases h
      exact ht.kept
    · obtain ⟨m, hm⟩ := mirrored_eq dat v t
      rcases hs : seek v.arm (mirrored dat v t) with ⟨_ | y, v₁, t₁⟩ <;>
        rw [matchBoundary_eq hb hs] at h
      · cases h
      · rw [hm] at hs
        have hkept := (seek_merges.kept (ht.setMir m) hs).ofMir
        split at h <;> cases h
        · exact ⟨hkept.live.setMir none, hkept.waits, hkept.left⟩
        · exact hkept
  · intro v v' t t' ht h
    by_cases hb : v.boundaries = []
    · rw [nil t hb] at h
      cases h
    · obtain ⟨m, hm⟩ := mirrored_eq dat v t
      rcases hs : seek v.arm (mirrored dat v t) with ⟨_ | y, v₁, t₁⟩ <;>
        rw [matchBoundary_eq hb hs] at h
      · cases h
        rw [hm] at hs
        exact (seek_merges.waited (ht.setMir m) hs).ofMir
      · split at h <;> cases h

end Boundary

theorem value_merges : (act cfg .value).Merges := by
  refine Reader.merges_choose kt (f := value cfg) (fun k => ?_) fun {k v v' t t'} h => ?_
  · cases k with
    | disposition => exact Reader.merges_pure (f := fun v : Mpfd => (.ok, { v with ext := true }))
    | type | other => exact Reader.merges_onOk (word_merges _ _)
  · cases k with
    | disposition => cases h
    | type | other =>
      obtain ⟨s, -, rfl⟩ := Reader.ofScan_wait_inv (Reader.map_wait_inv h)
      rfl

theorem act_merges {q : MpfdSt} (hkey : q ≠ .key) (hspc : q ≠ .spc) (hdash : q ≠ .search2) :
    (act cfg q).Merges := by
  cases q with
  | start => exact Reader.merges_onOk (matchBoundary_merges false)
  | eol0 | eol1a => exact Reader.merges_onOk requireCrlf_merges
  | search3 => exact Reader.merges_onOk requireCrlf_merges
  | value => exact value_merges
  | eol1b => exact Reader.merges_pure
  | search => exact Reader.merges_map (matchBoundary_merges true)
  | eof => exact Reader.merges_onOk skipWs_merges
  | beyond => exact Reader.merges_pure (f := fun v : Mpfd => (.ok, v.inc))
  | key => exact absurd rfl hkey
  | spc => exact absurd rfl hspc
  | search2 => exact absurd rfl hdash

theorem dispAct_merges {q : ContdispSt} (h : q ≠ .sep1) : (dispAct q).Merges := by
  cases q with
  | start | nameVal =>
    rw [dispAct]
    exact dispWord_merges _ _
  | sep1 => exact absurd rfl h
  | nameKey | filenameKey => exact forceMatch_merges _
  | sep2a => exact dispEol_merges
  | sep2b => exact requirechar_merges _
  | sep2c => exact skipHws_merges 0
  | filenameVal => exact dispFilename_merges
  | beyond => exact Reader.merges_pure (f := fun v => (.ok, v))

section Spaces

/-- What `MPFD_SPC` leaves behind: `cdp.reset` forgets the blanks, whatever the result is. -/
def spcDone (x : Option Stat) (v : Mpfd) : Mpfd :=
  let v' := { v with cdp := v.cdp.reset, spcs := 0 }
  if x = some .ok then v'.inc else v'

theorem act_spc {k : Nat} (h : scan Tape.device (skipHwsScanner 1) v.spcs t = (x, k, t')) :
    act cfg .spc v t = (x, spcDone x v, t'.dropMirror) := by
  rcases x with _ | r
  · simp only [act, skipHws, Reader.ofScan_none h]
    rfl
  · simp only [act, skipHws, Reader.ofScan_some h]
    rfl

theorem spc_passed (ht : t.Ready) (h : act cfg .spc v t = (some r, v', t')) :
    act cfg .spc v t.unwait = (some r, v', t'.unwait) ∧ t.Passed t' := by
  rcases hs : scan Tape.device (skipHwsScanner 1) v.spcs t with ⟨x, k, u⟩
  rw [act_spc hs] at h
  cases h
  obtain ⟨hm, hready, hwaits⟩ := Tape.merging.scan_keep ht hs
  exact ⟨act_spc hm, hready.setMir none, hwaits⟩

theorem spc_paused (ht : t.Ready) (h : act cfg .spc v t = (none, v', t')) : t.Paused t' := by
  rcases hs : scan Tape.device (skipHwsScanner 1) v.spcs t with ⟨x, k, u⟩
  rw [act_spc hs] at h
  cases h
  have hslept := Tape.scan_slept ht hs
  exact ⟨hslept.ready.setMir none, hslept.waits⟩

theorem scan_dropMirror {k k' : Nat} (h : scan Tape.device (skipHwsScanner 1) k t = (x, k', t')) :
    scan Tape.device (skipHwsScanner 1) k t.dropMirror = (x, k', t'.dropMirror) :=
  (Tape.dropMirrorHom.scan_map trivial h).1

theorem spc_reenter (ht : t.Ready) (h : act cfg .spc v t = (none, v', t'))
    (hq : (scan Tape.device (skipHwsScanner 1) v.spcs t).2.1 = 0 ∨
      ∃ b, t'.canRead.unwait.get.1 = .byte b ∧ Byte.isHws b = true) :
    act cfg .spc v t.unwait = act cfg .spc v' t'.canRead.unwait := by
  rcases hs : scan Tape.device (skipHwsScanner 1) v.spcs t with ⟨x, k, u⟩
  rw [act_spc hs] at h
  rw [hs] at hq
  cases h
  have hm : scan Tape.device (skipHwsScanner 1) v.spcs t.unwait =
      scan Tape.device (skipHwsScanner 1) k u.canRead.unwait := (Tape.merging.scan_wait ht hs).1
  rcases hr : scan Tape.device (skipHwsScanner 1) k u.canRead.unwait with ⟨x, k', e⟩
  have hrest : ∃ m, scan Tape.device (skipHwsScanner 1) 0 u.dropMirror.canRead.unwait =
      (x, m, e.dropMirror) := by
    have hr' := scan_dropMirror hr
    obtain hk | ⟨b, hb, hws⟩ := hq
    · rw [show k = 0 from hk] at hr'
      exact ⟨k', hr'⟩
    · -- one blank more is enough for both counters
      have hg : Tape.device.get u.dropMirror.canRead.unwait =
          (.byte b, (Tape.device.get u.dropMirror.canRead.unwait).2) := Prod.ext hb rfl
      have hnext (k : Nat) : (skipHwsScanner 1).byte k b = .next (k + 1) := by
        simp [skipHwsScanner, hws]
      rw [show u.canRead.unwait.dropMirror = u.dropMirror.canRead.unwait from rfl,
        scan_next rfl hg (hnext k)] at hr'
      obtain ⟨m, hm⟩ := scan_hws_count (m := 0 + 1) (by omega) (by omega) hr'
      exact ⟨m, (scan_next rfl hg (hnext 0)).trans hm⟩
  obtain ⟨m, hm'⟩ := hrest
  rw [act_spc (hm.trans hr), act_spc (v := spcDone none v) hm']
  rfl

end Spaces

section Dashes

theorem parse2dash_reenter (ht : t.Ready) (h : parse2dash v t = (none, v', t'))
    (hq : (scan Tape.device dashScanner 0 t).2.1 = 0 ∨ t'.canRead.unwait.get.1 ≠ .byte 45) :
    parse2dash v t.unwait = parse2dash v' t'.canRead.unwait := by
  obtain ⟨n, hs, rfl⟩ := Reader.ofScan_wait_inv h
  rw [hs] at hq
  have hm : scan Tape.device dashScanner 0 t.unwait =
      scan Tape.device dashScanner n t'.canRead.unwait := (Tape.merging.scan_wait ht hs).1
  obtain hn | hq := hq
  · rw [show n = 0 from hn] at hm
    simp only [parse2dash, Reader.ofScan, hm]
  · have hguard : dashScanner.guard n = none := scan_wait_guard hs
    rcases hr : t'.canRead.unwait.get with ⟨c, e⟩
    rw [hr] at hq
    cases c with
    | byte b =>
      have hb : b ≠ 45 := fun hb => hq (by rw [hb])
      have hback (n : Nat) : dashScanner.byte n b = .back .nomatch n := by simp [dashScanner, hb]
      have h₁ := hm.trans (scan_exit hguard hr (hback n))
      have h₂ := scan_exit (D := Tape.device) rfl hr (hback 0)
      simp only [parse2dash, Reader.ofScan, h₁, h₂, Exit.apply]
    | eof =>
      have h₁ : _ = (some Stat.eof, n, e) := hm.trans (scan_eof hguard hr)
      have h₂ : _ = (some Stat.eof, 0, e) := scan_eof (D := Tape.device) (S := dashScanner) rfl hr
      simp only [parse2dash, Reader.ofScan, h₁, h₂]
    | wait => exact absurd (by rw [hr]) (Tape.get_unwait_ne_wait (Tape.scan_slept ht hs).ready)

end Dashes

section Typ

theorem setTyp_setTyp (c : Contdisp) : setTyp (setTyp c) = setTyp c := by
  simp only [setTyp]
  split
  · rfl
  · split <;> rfl

theorem skipHws_cdp (mn : Nat) (c : Contdisp) :
    Reader.Commutes (fun v => { v with cdp := c }) (skipHws mn) :=
  Reader.commutes_ofScan (fun _ => rfl) (fun _ _ => rfl) fun _ _ => rfl

theorem dispAct_sep1 (h : skipHws 1 v t = (x, v', t')) :
    dispAct .sep1 v t = (x, { v' with cdp := setTyp v'.cdp }, t') := by
  simp only [dispAct, h]

theorem sep1_passed (ht : t.Ready) (h : dispAct .sep1 v t = (some r, v', t')) :
    dispAct .sep1 v t.unwait = (some r, v', t'.unwait) ∧ t.Passed t' := by
  rcases hs : skipHws 1 v t with ⟨x, v₁, u⟩
  rw [dispAct_sep1 hs] at h
  cases h
  obtain ⟨hm, hpassed⟩ := (skipHws_merges 1).passed ht hs
  exact ⟨dispAct_sep1 hm, hpassed⟩

theorem sep1_wait (ht : t.Ready) (h : dispAct .sep1 v t = (none, v', t')) :
    dispAct .sep1 v t.unwait = dispAct .sep1 v' t'.canRead.unwait ∧ t.Paused t' ∧
      v' = { v with spcs := v'.spcs, cdp := setTyp v.cdp } := by
  rcases hs : skipHws 1 v t with ⟨x, v₁, u⟩
  rw [dispAct_sep1 hs] at h
  cases h
  obtain ⟨hm, hpaused⟩ := (skipHws_merges 1).paused ht hs
  obtain ⟨k, -, rfl⟩ := Reader.ofScan_wait_inv hs
  refine ⟨?_, hpaused, rfl⟩
  rcases hr : skipHws 1 { v with spcs := k } t'.canRead.unwait with ⟨x, v₂, e⟩
  have hcdp : v₂.cdp = v.cdp := by
    have : Reader.Keeps cdp (skipHws 1) := Reader.keeps_ofScan (fun _ _ => rfl) fun _ _ => rfl
    have := this { v with spcs := k } t'.canRead.unwait
    rwa [hr] at this
  have hr' := skipHws_cdp 1 (setTyp v.cdp) { v with spcs := k } t'.canRead.unwait
  rw [hr] at hr'
  rw [dispAct_sep1 (hm.trans hr), dispAct_sep1 hr', hcdp, setTyp_setTyp]

end Typ

theorem key_reenter (ht : t.Ready) (h : act cfg .key v t = (none, v', t'))
    (hq : v'.scr.text = [] ∨ Inside t'.canRead.unwait) :
    act cfg .key v t.unwait = act cfg .key v' t'.canRead.unwait := by
  refine Reader.onStat_reenter (Reader.merges_onOk gobbleCrlf_merges)
    (Reader.merges_onOk (word_merges _ _)) ht h fun v₁ t₁ h₁ h₂ => ?_
  obtain ⟨v₂, h₁, hv₁⟩ := Reader.onOk_inv h₁
  rw [if_neg (by simp)] at hv₁
  obtain ⟨y, s, hs, hpost⟩ := Reader.ofScan_keep_inv (hv₁ ▸ h₁)
  cases hpost
  obtain ⟨k, hk, rfl⟩ := Reader.ofScan_wait_inv (Reader.map_wait_inv h₂)
  obtain ⟨-, rfl, ⟨u, hg, hw⟩ | ⟨u, hg, hw⟩⟩ := scan_key_reenter ht hs hk hq
  · have hgob : gobbleCrlf { v with needLF := false, scr := k } t'.canRead.unwait =
        (some .nomatch, { v with needLF := false, scr := k }, u) := by
      rw [gobbleCrlf, Reader.ofScan_some hg]
    have hgob' : gobbleCrlf.onOk endHeader { v with needLF := false, scr := k } t'.canRead.unwait =
        (some .nomatch, { v with needLF := false, scr := k }, u) := Reader.map_some hgob
    rw [Reader.onStat_some hgob', if_pos rfl]
    simp only [Reader.onOk, Reader.map, word, Reader.ofScan, hw]
  · have hgob : gobbleCrlf { v with needLF := false, scr := k } t'.canRead.unwait =
        (some .eof, { v with needLF := false, scr := k }, u) := by
      rw [gobbleCrlf, Reader.ofScan_some hg]
    have hgob' : gobbleCrlf.onOk endHeader { v with needLF := false, scr := k } t'.canRead.unwait =
        (some .eof, { v with needLF := false, scr := k }, u) := Reader.map_some hgob
    rw [Reader.onStat_some hgob', if_neg (by simp)]
    simp only [Reader.onOk, Reader.map, word, Reader.ofScan, hw]
    rfl

section Rounds

theorem act_passed {q : MpfdSt} (ht : t.Ready) (h : act cfg q v t = (some r, v', t')) :
    act cfg q v t.unwait = (some r, v', t'.unwait) ∧ t.Passed t' := by
  by_cases hkey : q = .key
  · subst hkey
    exact Reader.onStat_passed (Reader.merges_onOk gobbleCrlf_merges)
      (Reader.merges_onOk (word_merges _ _)) ht h
  by_cases hspc : q = .spc
  · subst hspc
    exact spc_passed ht h
  by_cases hdash : q = .search2
  · subst hdash
    obtain ⟨r₁, v₁, h₁, hg⟩ := Reader.map_keep_inv h
    obtain ⟨hm, hpassed⟩ := Reader.ofScan_passed ht h₁
    exact ⟨(Reader.map_some hm).trans (by rw [hg]), hpassed⟩
  exact (act_merges hkey hspc hdash).passed ht h

theorem act_paused {q : MpfdSt} (ht : t.Ready) (h : act cfg q v t = (none, v', t')) :
    t.Paused t' := by
  by_cases hkey : q = .key
  · subst hkey
    exact Reader.onStat_paused (Reader.merges_onOk gobbleCrlf_merges)
      (Reader.merges_onOk (word_merges _ _)) ht h
  by_cases hspc : q = .spc
  · subst hspc
    exact spc_paused ht h
  by_cases hdash : q = .search2
  · subst hdash
    exact Reader.ofScan_paused ht (Reader.map_wait_inv h)
  exact ((act_merges hkey hspc hdash).paused ht h).2

theorem dispAct_passed {q : ContdispSt} (ht : t.Ready) (h : dispAct q v t = (some r, v', t')) :
    dispAct q v t.unwait = (some r, v', t'.unwait) ∧ t.Passed t' := by
  by_cases hq : q = .sep1
  · subst hq
    exact sep1_passed ht h
  · exact (dispAct_merges hq).passed ht h

theorem dispAct_paused {q : ContdispSt} (ht : t.Ready) (h : dispAct q v t = (none, v', t')) :
    t.Paused t' := by
  by_cases hq : q = .sep1
  · subst hq
    exact (sep1_wait ht h).2.1
  · exact ((dispAct_merges hq).paused ht h).2

theorem matchBoundary_wait {dat : Bool} (h : matchBoundary dat v t = (none, v', t')) :
    ∃ k, v' = v.arm.setHead k := by
  by_cases hb : v.boundaries = []
  · simp [matchBoundary, hb] at h
  · rcases hs : seek v.arm (mirrored dat v t) with ⟨_ | y, v₁, t₁⟩ <;>
      rw [matchBoundary_eq hb hs] at h
    · cases h
      obtain ⟨k, -, rfl⟩ := Reader.ofScan_wait_inv hs
      exact ⟨k, rfl⟩
    · split at h <;> cases h

theorem arm_control (v : Mpfd) : v.arm.state = v.state ∧ v.arm.ext = v.ext := by
  unfold arm
  split <;> exact ⟨rfl, rfl⟩

theorem act_wait_control {q : MpfdSt} (h : act cfg q v t = (none, v', t')) :
    v'.state = v.state ∧ v'.ext = v.ext := by
  cases q with
  | start =>
    obtain ⟨k, rfl⟩ := matchBoundary_wait (Reader.map_wait_inv h)
    exact arm_control v
  | search =>
    obtain ⟨k, rfl⟩ := matchBoundary_wait (Reader.map_wait_inv h)
    exact arm_control v
  | eol0 | eol1a | search2 | search3 | eof =>
    obtain ⟨s, -, rfl⟩ := Reader.ofScan_wait_inv (Reader.map_wait_inv h)
    exact ⟨rfl, rfl⟩
  | key =>
    obtain h | ⟨v₁, t₁, h₁, h₂⟩ := Reader.onStat_wait h
    · obtain ⟨s, -, rfl⟩ := Reader.ofScan_wait_inv (Reader.map_wait_inv h)
      exact ⟨rfl, rfl⟩
    · obtain ⟨v₂, h₁, hv₁⟩ := Reader.onOk_inv h₁
      rw [if_neg (by simp)] at hv₁
      obtain ⟨y, s, -, hpost⟩ := Reader.ofScan_keep_inv (hv₁ ▸ h₁)
      cases hpost
      obtain ⟨s, -, rfl⟩ := Reader.ofScan_wait_inv (Reader.map_wait_inv h₂)
      exact ⟨rfl, rfl⟩
  | spc =>
    rcases hs : scan Tape.device (skipHwsScanner 1) v.spcs t with ⟨x, k, u⟩
    rw [act_spc hs] at h
    cases h
    exact ⟨rfl, rfl⟩
  | value =>
    have h : value cfg v.kt v t = (none, v', t') := h
    cases hk : v.kt <;> rw [hk] at h
    case disposition => cases h
    all_goals
      obtain ⟨s, -, rfl⟩ := Reader.ofScan_wait_inv (Reader.map_wait_inv h)
      exact ⟨rfl, rfl⟩
  | eol1b | beyond => cases h

theorem dispAct_wait_control {q : ContdispSt} (hq : q ≠ .sep1)
    (h : dispAct q v t = (none, v', t')) :
    v'.ext = v.ext ∧ v'.cdp.state = v.cdp.state := by
  cases q with
  | sep1 => exact absurd rfl hq
  | beyond => cases h
  | start | nameKey | nameVal | sep2a | sep2b | sep2c | filenameKey | filenameVal =>
    simp only [dispAct, dispWord, forceMatch, dispEol, requirechar, skipHws, dispFilename] at h
    obtain ⟨s, -, rfl⟩ := Reader.ofScan_wait_inv h
    exact ⟨rfl, rfl⟩

end Rounds

section Merge

/-- When a suspension of the outer parser in a state leaves no trace: no line ends behind the
first part of a key, `MPFD_SPC` has not skipped a blank or has another one in front of it, and
`parse_2dash` has not read a dash or has no other one in front of it. -/
def Quiet (w w' : Mpfd × Tape) : MpfdSt → Prop
  | .key => w'.1.scr.text = [] ∨ Inside w'.2.canRead.unwait
  | .spc => (scan Tape.device (skipHwsScanner 1) w.1.spcs w.2).2.1 = 0 ∨
    w'.2.canRead.unwait.get.1 = .byte Byte.sp ∨ w'.2.canRead.unwait.get.1 = .byte Byte.ht
  | .search2 => (scan Tape.device dashScanner 0 w.2).2.1 = 0 ∨
    w'.2.canRead.unwait.get.1 ≠ .byte 45
  | _ => True

instance (w w' : Mpfd × Tape) : (q : MpfdSt) → Decidable (Quiet w w' q)
  | .key | .spc | .search2 => inferInstanceAs (Decidable (_ ∨ _))
  | .start | .eol0 | .value | .eol1a | .eol1b | .search | .search3 | .eof | .beyond =>
    inferInstanceAs (Decidable True)

/-- The suspension leaves no trace; the inner parser may not be suspended behind the type
`attachment`. -/
def Harmless (w w' : Mpfd × Tape) : Prop :=
  if w.1.ext = true then
    w.1.cdp.state = .sep1 → mystrcmp (w.1.cdp.typScr.getD []) attachment = false
  else Quiet w w' w.1.state

instance (w w' : Mpfd × Tape) : Decidable (Harmless w w') :=
  inferInstanceAs (Decidable (ite (w.1.ext = true)
    (w.1.cdp.state = .sep1 → mystrcmp (w.1.cdp.typScr.getD []) attachment = false)
    (Quiet w w' w.1.state)))

/-- The call that a round makes, and what it does with the answer. -/
def call (cfg : MpfdConfig) (v : Mpfd) : Reader Mpfd :=
  if v.ext then dispAct v.cdp.state else act cfg v.state

def close (v : Mpfd) : Option Stat × Mpfd × Tape → Iter (Mpfd × Tape) MpfdOut :=
  if v.ext then dispOutcome else outcome

theorem step_call (v : Mpfd) (t : Tape) : (machine cfg).step (v, t) = close v (call cfg v v t) := by
  simp only [machine, close, call]
  split <;> rfl

theorem call_passed {v₀ : Mpfd} (ht : t.Ready) (h : call cfg v₀ v t = (some r, v', t')) :
    call cfg v₀ v t.unwait = (some r, v', t'.unwait) ∧ t.Passed t' := by
  unfold call at h ⊢
  split at h
  · next he =>
    rw [if_pos he]
    exact dispAct_passed ht h
  · next he =>
    rw [if_neg he]
    exact act_passed ht h

theorem call_paused {v₀ : Mpfd} (ht : t.Ready) (h : call cfg v₀ v t = (none, v', t')) :
    t.Paused t' := by
  unfold call at h
  split at h
  · exact dispAct_paused ht h
  · exact act_paused ht h

theorem call_reenter (ht : t.Ready) (h : call cfg v v t = (none, v', t'))
    (hq : Harmless (v, t) (v', t')) :
    call cfg v v t.unwait = call cfg v v' t'.canRead.unwait ∧ call cfg v' = call cfg v ∧
      close v' = close v := by
  cases he : v.ext with
  | true =>
    simp only [call, he, if_true] at h
    simp only [Harmless, he, if_true] at hq
    have same (hext : v'.ext = true) (hst : v'.cdp.state = v.cdp.state)
        (heq : dispAct v.cdp.state v t.unwait = dispAct v.cdp.state v' t'.canRead.unwait) :
        call cfg v v t.unwait = call cfg v v' t'.canRead.unwait ∧ call cfg v' = call cfg v ∧
          close v' = close v := by
      simp only [call, close, he, hext, if_true, hst]
      exact ⟨heq, trivial, trivial⟩
    by_cases hsep : v.cdp.state = .sep1
    · rw [hsep] at h same
      obtain ⟨heq, -, hv'⟩ := sep1_wait ht h
      refine same (by rw [hv']; exact he) ?_ heq
      have hatt := hq hsep
      rw [hv', setTyp, hatt]
      split
      · exact hsep
      · exact hsep
    · obtain ⟨hext, hst⟩ := dispAct_wait_control hsep h
      exact same (hext.trans he) hst ((dispAct_merges hsep).paused ht h).1
  | false =>
    simp only [call, he, Bool.false_eq_true, if_false] at h
    simp only [Harmless, he, Bool.false_eq_true, if_false] at hq
    obtain ⟨hst, hext⟩ := act_wait_control h
    have same (heq : act cfg v.state v t.unwait = act cfg v.state v' t'.canRead.unwait) :
        call cfg v v t.unwait = call cfg v v' t'.canRead.unwait ∧ call cfg v' = call cfg v ∧
          close v' = close v := by
      simp only [call, close, he, hext, Bool.false_eq_true, if_false, hst]
      exact ⟨heq, trivial, trivial⟩
    refine same ?_
    by_cases hkey : v.state = .key
    · rw [hkey] at h hq ⊢
      exact key_reenter ht h hq
    by_cases hspc : v.state = .spc
    · rw [hspc] at h hq ⊢
      refine spc_reenter ht h (hq.imp_right fun hb => ?_)
      exact hb.elim (fun hb => ⟨_, hb, rfl⟩) fun hb => ⟨_, hb, rfl⟩
    by_cases hdash : v.state = .search2
    · rw [hdash] at h hq ⊢
      have hm := parse2dash_reenter ht (Reader.map_wait_inv h) hq
      simp only [act, Reader.onOk, Reader.map, hm]
    exact ((act_merges hkey hspc hdash).paused ht h).1

theorem close_cases (v₀ : Mpfd) (r : Stat) (v : Mpfd) :
    (∃ v' c, ∀ t, close v₀ (some r, v, t) = .next (v', if c = true then t.canRead else t)) ∨
      ∃ o, ∀ t, close v₀ (some r, v, t) = .stop o := by
  unfold close
  split
  · cases hc : v.crashed with
    | true => exact .inr ⟨.crash, fun t => by simp [dispOutcome, hc]⟩
    | false =>
      cases r
      case ok =>
        cases hf : v.cdp.flag with
        | true => exact .inl ⟨_, false, fun t => by simp only [dispOutcome, hc, hf]; rfl⟩
        | false => exact .inl ⟨_, true, fun t => by simp only [dispOutcome, hc, hf]; rfl⟩
      all_goals exact .inr ⟨_, fun t => by simp only [dispOutcome, hc]; rfl⟩
  · cases hc : v.crashed with
    | true => exact .inr ⟨.crash, fun t => by simp [outcome, hc]⟩
    | false =>
      by_cases hr : r = .ok
      · exact .inl ⟨v, v.ext, fun t => by simp [outcome, hc, hr]⟩
      · exact .inr ⟨v.finish r, fun t => by simp [outcome, hc, hr]⟩

theorem close_wait (v₀ v : Mpfd) (t : Tape) : close v₀ (none, v, t) = .wait (v, t) := by
  unfold close
  split <;> rfl

def unwait (w : Mpfd × Tape) : Mpfd × Tape := (w.1, w.2.unwait)

variable {w w' : Mpfd × Tape}

theorem step_next (hw : w.2.Ready) (h : (machine cfg).step w = .next w') :
    (machine cfg).step (unwait w) = .next (unwait w') ∧ w.2.Passed w'.2 := by
  obtain ⟨v, t⟩ := w
  rw [step_call] at h
  rw [unwait, step_call]
  rcases hc : call cfg v v t with ⟨_ | r, v₁, t₁⟩ <;> rw [hc] at h
  · rw [close_wait] at h
    cases h
  · obtain ⟨hm, hpassed⟩ := call_passed hw hc
    rw [hm]
    obtain ⟨v₂, c, hn⟩ | ⟨o, ho⟩ := close_cases v r v₁
    · rw [hn] at h ⊢
      cases h
      cases c with
      | true => exact ⟨rfl, ⟨.inl rfl, hpassed.ready.bc⟩, hpassed.waits⟩
      | false => exact ⟨rfl, hpassed⟩
    · rw [ho] at h
      cases h

theorem step_stop {o : MpfdOut} (hw : w.2.Ready) (h : (machine cfg).step w = .stop o) :
    (machine cfg).step (unwait w) = .stop o := by
  obtain ⟨v, t⟩ := w
  rw [step_call] at h
  rw [unwait, step_call]
  rcases hc : call cfg v v t with ⟨_ | r, v₁, t₁⟩ <;> rw [hc] at h
  · rw [close_wait] at h
    cases h
  · rw [(call_passed hw hc).1]
    obtain ⟨v₂, c, hn⟩ | ⟨o', ho⟩ := close_cases v r v₁
    · rw [hn] at h
      cases h
    · rw [ho] at h ⊢
      exact h

theorem step_wait (hw : w.2.Ready) (h : (machine cfg).step w = .wait w') :
    w.2.Paused w'.2 ∧ (Harmless w w' →
      (machine cfg).step (unwait w) = (machine cfg).step (unwait ((machine cfg).resume w'))) := by
  obtain ⟨v, t⟩ := w
  rw [step_call] at h
  rcases hc : call cfg v v t with ⟨_ | r, v₁, t₁⟩ <;> rw [hc] at h
  · rw [close_wait] at h
    cases h
    refine ⟨call_paused hw hc, fun hq => ?_⟩
    obtain ⟨heq, hcall, hclose⟩ := call_reenter hw hc hq
    rw [unwait, step_call, heq, ← hcall, ← hclose]
    exact (step_call _ _).symm
  · obtain ⟨v₂, c, hn⟩ | ⟨o, ho⟩ := close_cases v r v₁
    · rw [hn] at h
      cases h
    · rw [ho] at h
      cases h

theorem merge (cfg : MpfdConfig) :
    Machine.Merge (machine cfg) unwait Eq (fun w => w.2.Ready) Harmless
    (fun w => w.2.waits) where
  trans _ _ _ h h' := h.trans h'
  congr h := h ▸ Iter.Rel.refl (fun _ => rfl) _
  inv_next hw h := (step_next hw h).2.ready
  inv_wait hw h := (step_wait hw h).1.ready
  waits_next hw h := (step_next hw h).2.waits
  waits_wait hw h := (step_wait hw h).1.waits
  next hw h := (step_next hw h).1 ▸ Iter.Rel.refl (fun _ => rfl) _
  stop hw h := step_stop hw h
  wait hw h hq := (step_wait hw h).2 hq ▸ Iter.Rel.refl (fun _ => rfl) _

end Merge

/-- If every suspension is harmless, the parser ends on the pieces as it does on the whole body. -/
theorem ends_pieces (cfg : MpfdConfig) (cap : Nat) (bs : List Str) (lim : Int) (rs : List Str)
    (h : (machine cfg).Suspends Harmless (start cfg cap bs lim rs)) (o : MpfdOut) :
    (machine cfg).Ends (start cfg cap bs lim rs) o ↔
      (machine cfg).Ends (start cfg cap bs lim (Abuf.whole rs.flatten)) o := by
  have hunwait :
      unwait (start cfg cap bs lim rs) = start cfg cap bs lim (Abuf.whole rs.flatten) := by
    simp only [unwait, start, Abuf.toTape_unwait]
  rw [← hunwait]
  refine (merge cfg).ends_iff (fun _ => rfl) ?_ h
  exact ⟨.inl rfl, nofun⟩

/-- A file, cut in all the states where it does no harm; the limit is the length of the body. -/
theorem ends_pieces_cuts : ∃ r,
    (machine ⟨fun _ => none, fun s => s.map Byte.toLower⟩).Ends
      (start ⟨fun _ => none, fun s => s.map Byte.toLower⟩ 64 [[98]] 92
        [[45, 45], [], [98, 13], [], [10, 67, 111, 110, 116], [], [101, 110, 116, 45, 68, 105,
        115, 112, 111, 115, 105, 116, 105, 111, 110, 58], [], [32], [], [32, 102, 111, 114, 109,
        45, 100], [], [97, 116, 97, 59, 32, 110, 97], [], [109, 101, 61, 34, 102], [], [34, 59,
        32, 102, 105, 108, 101, 110], [], [97, 109, 101, 61, 34, 120], [], [34, 13, 10, 67, 111,
        110, 116, 101, 110, 116, 45, 84, 121, 112, 101, 58], [], [32, 116, 13, 10, 13], [], [10,
        104, 105, 13, 10, 45], [], [45, 98], [], [45, 45, 13], [], [10]]) (.finished r) ∧
    (machine ⟨fun _ => none, fun s => s.map Byte.toLower⟩).Ends
      (start ⟨fun _ => none, fun s => s.map Byte.toLower⟩ 64 [[98]] 92
        [[45, 45, 98, 13, 10, 67, 111, 110, 116, 101, 110, 116, 45, 68, 105, 115, 112, 111, 115,
        105, 116, 105, 111, 110, 58, 32, 32, 102, 111, 114, 109, 45, 100, 97, 116, 97, 59, 32,
        110, 97, 109, 101, 61, 34, 102, 34, 59, 32, 102, 105, 108, 101, 110, 97, 109, 101, 61, 34,
        120, 34, 13, 10, 67, 111, 110, 116, 101, 110, 116, 45, 84, 121, 112, 101, 58, 32, 116, 13,
        10, 13, 10, 104, 105, 13, 10, 45, 45, 98, 45, 45, 13, 10]]) (.finished r) := by
  have h := ends_pieces ⟨fun _ => none, fun s => s.map Byte.toLower⟩ 64 [[98]] 92
    [[45, 45], [], [98, 13], [], [10, 67, 111, 110, 116], [], [101, 110, 116, 45, 68, 105, 115,
    112, 111, 115, 105, 116, 105, 111, 110, 58], [], [32], [], [32, 102, 111, 114, 109, 45, 100],
    [], [97, 116, 97, 59, 32, 110, 97], [], [109, 101, 61, 34, 102], [], [34, 59, 32, 102, 105,
    108, 101, 110], [], [97, 109, 101, 61, 34, 120], [], [34, 13, 10, 67, 111, 110, 116, 101, 110,
    116, 45, 84, 121, 112, 101, 58], [], [32, 116, 13, 10, 13], [], [10, 104, 105, 13, 10, 45],
    [], [45, 98], [], [45, 45, 13], [], [10]]
    (Machine.suspends_of_check (n := 100) (by decide +kernel))
  exact ⟨⟨200, ⟨[⟨[102], [], true⟩], by decide⟩, [([102], ⟨some [120], some [116], [104, 105]⟩)]⟩,
    ⟨100, by decide +kernel⟩, (h _).1 ⟨100, by decide +kernel⟩⟩

/-- Cut in front of the line end behind a part of a key, behind the blank of a field, between the
dashes of the last boundary, and behind the type of an attachment. -/
theorem ends_pieces_differ :
    ([[[45, 45, 98, 10, 107], [], [10, 45, 45, 98, 45, 45, 10]], [[45, 45, 98, 10, 120, 58, 32],
      [], [121, 10, 10, 45, 45, 98, 45, 45, 10]], [[45, 45, 98, 10, 10, 45, 45, 98, 45], [], [45,
      10]], [[45, 45, 98, 10, 67, 111, 110, 116, 101, 110, 116, 45, 68, 105, 115, 112, 111, 115,
      105, 116, 105, 111, 110, 58, 32, 97, 116, 116, 97, 99, 104, 109, 101, 110, 116, 59, 32], [],
      [120, 34, 13, 10, 10, 45, 45, 98, 45, 45, 10]]] : List (List Str)).Forall fun rs =>
      ¬ ∃ o, (machine ⟨fun _ => none, fun s => s.map Byte.toLower⟩).Ends
          (start ⟨fun _ => none, fun s => s.map Byte.toLower⟩ 64 [[98]] (-1) rs) o ∧
        (machine ⟨fun _ => none, fun s => s.map Byte.toLower⟩).Ends
          (start ⟨fun _ => none, fun s => s.map Byte.toLower⟩ 64 [[98]] (-1)
            (Abuf.whole rs.flatten)) o := by
  have differ {rs : List Str}
      (h : ((machine ⟨fun _ => none, fun s => s.map Byte.toLower⟩).run 40
          (start ⟨fun _ => none, fun s => s.map Byte.toLower⟩ 64 [[98]] (-1) rs)).isSome ∧
        ((machine ⟨fun _ => none, fun s => s.map Byte.toLower⟩).run 40
          (start ⟨fun _ => none, fun s => s.map Byte.toLower⟩ 64 [[98]] (-1)
            (Abuf.whole rs.flatten))).isSome ∧
        (machine ⟨fun _ => none, fun s => s.map Byte.toLower⟩).run 40
            (start ⟨fun _ => none, fun s => s.map Byte.toLower⟩ 64 [[98]] (-1) rs) ≠
          (machine ⟨fun _ => none, fun s => s.map Byte.toLower⟩).run 40
            (start ⟨fun _ => none, fun s => s.map Byte.toLower⟩ 64 [[98]] (-1)
              (Abuf.whole rs.flatten))) :
      ¬ ∃ o, (machine ⟨fun _ => none, fun s => s.map Byte.toLower⟩).Ends
          (start ⟨fun _ => none, fun s => s.map Byte.toLower⟩ 64 [[98]] (-1) rs) o ∧
        (machine ⟨fun _ => none, fun s => s.map Byte.toLower⟩).Ends
          (start ⟨fun _ => none, fun s => s.map Byte.toLower⟩ 64 [[98]] (-1)
            (Abuf.whole rs.flatten)) o :=
    Machine.not_ends_of_runs h.1 h.2.1 h.2.2
  rw [List.forall_iff_forall_mem]
  intro rs hrs
  simp only [List.mem_cons, List.not_mem_nil, or_false] at hrs
  obtain rfl | rfl | rfl | rfl := hrs <;> exact differ (by decide +kernel)

end Mpfd

end Okws
