import Okws.CgiFrag
import Okws.Reader

namespace Okws

open Lib

namespace Cgi

/-- Reads up to the end of the query string, or of the cookie line. -/
def tailScanner (uriMode : Bool) : Scanner UInt8 Unit Unit where
  guard _ := none
  byte _ b :=
    if b = Byte.lf then .back () ()
    else if uriMode then
      if b = Byte.cr then .done () () else if Byte.isHws b then .back () () else .next ()
    else .next ()
  eof _ := .done () ()

/-- The return code of a round as `Follows` sees it. -/
def progress : Stat → Option Bool
  | .wait => none
  | .eof => some true
  | _ => some false

theorem progress_of_ne {r : Stat} (h : r ≠ .wait) : progress r = some (decide (r = .eof)) := by
  cases r <;> first | rfl | exact absurd rfl h

section

variable {cfg : CgiConfig} {vt : CgiVar} {uriMode : Bool} {w w' : Word} {t t' : Tape}

theorem tail_next {b : UInt8} (h : ∀ x ∈ [Byte.lf, Byte.cr, Byte.sp, Byte.ht], b ≠ x) :
    (tailScanner uriMode).byte () b = .next () := by
  simp only [List.mem_cons, List.not_mem_nil, or_false, forall_eq_or_imp, forall_eq] at h
  simp [tailScanner, Byte.isHws, h]

theorem tail_hexDigit {b : UInt8} {n : Nat} (h : charToHex b = some n) :
    (tailScanner uriMode).byte () b = .next () := by
  apply tail_next
  have hnone : ∀ x ∈ [Byte.lf, Byte.cr, Byte.sp, Byte.ht], charToHex x = none := by
    decide +kernel
  rintro x hx rfl
  rw [hnone b hx] at h
  cases h

variable (uriMode) in
theorem hex_leads : Tape.Leads hexScanner (tailScanner uriMode) (decide <| · = Stat.eof) where
  guard h := by cases h
  guard' := rfl
  next {s b s'} h := by
    simp only [hexScanner, Hex.digit] at h
    cases hb : charToHex b with
    | none => simp [hb] at h
    | some n => exact tail_hexDigit hb
  done {s b r s'} h := by
    simp only [hexScanner, Hex.digit] at h
    cases hb : charToHex b with
    | none => simp [hb] at h
    | some n =>
      rw [tail_hexDigit hb]
      simp only [hb, Option.map_some] at h
      split at h <;> cases h
      simp
  back {s b r s'} h hr := by
    obtain ⟨x, hx⟩ | ⟨x, hx⟩ | hx := hexScanner_cases s b <;> rw [hx] at h <;> cases h
    simp at hr
  eof {s} := .inl ⟨_, _, rfl, rfl, rfl⟩

def Modes (vt : CgiVar) (uriMode : Bool) : Prop := vt.cookieState = !uriMode

/-- A round of `parse_key_or_val` and one of the tail, on the same character. -/
def Agrees : Act Word Stat → Act Unit Unit → Prop
  | .next _, a => a = .next ()
  | .done r _, a => a = if decide (r = .eof) then .done () () else .next ()
  | .back r _, a => r = .eof → a = .back () ()

theorem keyOrValByte_tail (hm : Modes vt uriMode) (b : UInt8) :
    Agrees (keyOrValByte cfg vt uriMode w b) ((tailScanner uriMode).byte () b) := by
  have plain (hb : ∀ x ∈ [Byte.lf, Byte.cr, Byte.sp, Byte.ht], b ≠ x) :
      (tailScanner uriMode).byte () b = .next () := tail_next hb
  unfold keyOrValByte
  split
  · next hb =>
    rw [plain (hb ▸ by decide +kernel)]
    cases vt <;> simp [Agrees]
  split
  · next hb =>
    rw [plain (hb ▸ by decide +kernel)]
    split <;> simp [Agrees]
  split
  · next hb =>
    rw [plain (hb ▸ by decide +kernel)]
    cases vt <;> simp [Agrees]
  split
  · next hb =>
    subst hb
    cases uriMode
    · simp [Agrees, tailScanner, Byte.cr, Byte.lf, show vt.cookieState = true from hm]
    · simp [Agrees, tailScanner, Byte.cr, Byte.lf]
  split
  · next hb =>
    have hmode : (vt.cookieState || uriMode) = true := by
      rw [show vt.cookieState = !uriMode from hm]
      cases uriMode <;> rfl
    simp [Agrees, tailScanner, hb, hmode]
  split
  · next hb =>
    rw [plain (hb ▸ by decide +kernel)]
    simp [Agrees]
  split
  · next hb =>
    rw [plain (hb ▸ by decide +kernel)]
    simp [Agrees]
  next _ _ _ hcr hlf _ _ =>
  split
  · next hb =>
    simp only [Bool.and_eq_true] at hb
    simp [Agrees, tailScanner, hcr, hlf, hb]
  · next hb =>
    cases uriMode
    · simp [Agrees, tailScanner, hlf]
    · have hb : Byte.isHws b = false := by simpa using hb
      simp [Agrees, tailScanner, hcr, hlf, hb]

variable (cfg) in
theorem keyOrVal_tail (hm : Modes vt uriMode) (s : Word) (b : UInt8) :
    Agrees ((keyOrValScanner cfg vt uriMode).byte s b) ((tailScanner uriMode).byte () b) := by
  cases hi : s.inhex with
  | false =>
    rw [byte_of_not_inhex hi]
    exact keyOrValByte_tail hm b
  | true =>
    simp only [keyOrValScanner, hi, if_true]
    obtain ⟨y, hy⟩ | ⟨y, hy⟩ | hy := hexScanner_cases s b <;> rw [hy]
    · exact (hex_leads _).next hy
    · exact (hex_leads _).done hy
    · simp only
      split
      · rintro ⟨⟩
      · exact keyOrValByte_tail hm b

theorem keyOrVal_leads (hm : Modes vt uriMode) : Tape.Leads (keyOrValScanner cfg vt uriMode)
    (tailScanner uriMode) (decide <| · = Stat.eof) where
  guard {s r} h := by
    simp only [keyOrValScanner] at h
    split at h <;> cases h
    rfl
  guard' := rfl
  next {s b s'} h := by
    have := keyOrVal_tail cfg hm s b
    rwa [h] at this
  done {s b r s'} h := by
    have := keyOrVal_tail cfg hm s b
    rwa [h] at this
  back {s b r s'} h hr := by
    have := keyOrVal_tail cfg hm s b
    rw [h] at this
    exact this (by simpa using hr)
  eof := .inl ⟨_, _, rfl, rfl, rfl⟩

theorem skipHws_leads : Tape.Leads (skipHwsScanner 0) (tailScanner false) fun _ => false where
  guard h := by cases h
  guard' := rfl
  next {s b s'} h := by
    simp only [skipHwsScanner] at h
    split at h <;> cases h
    next hb =>
    have hlf : b ≠ Byte.lf := by
      rintro rfl
      simp [Byte.isHws, Byte.lf, Byte.sp, Byte.ht] at hb
    simp [tailScanner, hlf]
  done {s b r s'} h := by
    simp only [skipHwsScanner] at h
    split at h <;> cases h
  back _ h := by cases h
  eof := .inr ⟨_, _, rfl, rfl⟩

/-- The part of the invariant that is not about the buffer. -/
structure Sound (c : Cgi) : Prop where
  cap : 0 < c.word.cap
  room : c.word.inhex = false → c.word.full = false
  var : c.pstate ≠ .none
  modes : Modes c.pstate c.uriMode

theorem Sound.inv {c : Cgi} (h : c.Sound) (ht : c.tape.Live) : c.Inv :=
  ⟨ht.ready, h.cap, h.room, h.var, fun _ => ht.unlimited⟩

theorem loop_follows (hm : Modes vt uriMode) (ht : t.Live) (hi : w.inhex = false) {rc : Stat}
    {x : Option Str}
    (h : keyOrValEnd cfg (scan Tape.device (keyOrValScanner cfg vt uriMode) w t) =
      (rc, x, w', t')) :
    Tape.Follows (tailScanner uriMode) t (progress rc) t' := by
  rcases hs : scan Tape.device (keyOrValScanner cfg vt uriMode) w t with ⟨_ | r, w₁, t₁⟩
  · have hf := (keyOrVal_leads hm).follows ht hs
    rw [hs] at h
    cases h
    exact hf
  · have hf := (keyOrVal_leads hm).follows ht hs
    have hl := keyOrVal_result (by simp [hi]) hs
    rw [hs] at h
    simp only [keyOrValEnd] at h
    split at h <;> cases h
    · next ho =>
      have hne : r ≠ .eof := by
        rintro rfl
        simp [hl.full rfl] at ho
      simpa [hne, progress] using hf
    · rw [progress_of_ne hl.wait]
      exact hf

theorem parseKeyOrVal_follows (hm : Modes vt uriMode) (ht : t.Live) {rc : Stat} {x : Option Str}
    (h : parseKeyOrVal cfg vt uriMode w t = (rc, x, w', t')) :
    Tape.Follows (tailScanner uriMode) t (progress rc) t' := by
  cases hi : w.inhex with
  | false =>
    simp only [parseKeyOrVal, hi, Bool.false_eq_true, if_false] at h
    exact loop_follows hm ht (by simp [hi]) h
  | true =>
    simp only [parseKeyOrVal, hi, if_true] at h
    rcases hs : scan Tape.device hexScanner w t with ⟨_ | r, w₁, t₁⟩
    · have hf := (hex_leads uriMode).follows ht hs
      rw [hs] at h
      cases h
      exact hf
    · have hf := (hex_leads uriMode).follows ht hs
      rw [hs] at h
      simp only at h
      split at h
      · next he =>
        cases h
        simpa [he, progress] using hf
      · next he =>
        have hi₁ : w₁.inhex = false := ((hex_result hs).resolve_right he).2
        simp only [Option.map_some, he, decide_false] at hf
        exact hf.trans (loop_follows hm (ht.scan_keep hs).2.live (by simp [hi₁]) h)

theorem parseKeyOrVal_kept (ht : t.Live) {rc : Stat} {x : Option Str} (hrc : rc ≠ .wait)
    (h : parseKeyOrVal cfg vt uriMode w t = (rc, x, w', t')) : t.Kept t' := by
  have loop {w₀ : Word} {t₀ : Tape} (ht₀ : t₀.Live) (h : keyOrValEnd cfg
      (scan Tape.device (keyOrValScanner cfg vt uriMode) w₀ t₀) =
        (rc, x, w', t')) : t₀.Kept t' := by
    obtain ⟨r, w₁, hs, -⟩ := keyOrValEnd_keep hrc h
    exact (ht₀.scan_keep hs).2
  unfold parseKeyOrVal at h
  split at h
  · rcases hs : scan Tape.device hexScanner w t with ⟨_ | r, w₁, t₁⟩ <;> rw [hs] at h
    · cases h
      exact absurd rfl hrc
    · have hkept := (ht.scan_keep hs).2
      simp only at h
      split at h
      · cases h
        exact hkept
      · exact hkept.trans (loop hkept.live h)
  · exact loop ht h

theorem hex_eof (hi : w.inhex = true) (h : scan Tape.device hexScanner w t = (some .eof, w', t')) :
    w'.inhex = true := by
  refine scan_result (I := fun w : Word => w.inhex = true)
    (R := fun r (w : Word) => r = .eof → w.inhex = true) ?_ ?_ ?_ ?_ hi h rfl
  · intro s r _ hg
    cases hg
  · intro s b s' _ hs hb
    obtain ⟨x, hx⟩ | ⟨x, hx⟩ | hx := hexScanner_cases s b <;> rw [hx] at hb <;> cases hb
    exact hs
  · intro s b r s' _ _ hb
    obtain ⟨x, hx⟩ | ⟨x, hx⟩ | hx := hexScanner_cases s b <;> rw [hx] at hb <;> simp at hb <;>
      simp [← hb.1]
  · intro s r s' _ hs he _
    simp only [hexScanner, Exit.done.injEq, reduceCtorEq, or_false] at he
    exact he.2 ▸ hs

theorem loop_room (hcap : 0 < w.cap) {rc : Stat} {x : Option Str}
    (h : keyOrValEnd cfg (scan Tape.device (keyOrValScanner cfg vt uriMode) w t) =
      (rc, x, w', t')) :
    0 < w'.cap ∧ (w'.inhex = false → w'.full = false) := by
  have hgrow := (grows_scan cfg vt uriMode w t).cap
  rcases hs : scan Tape.device (keyOrValScanner cfg vt uriMode) w t with ⟨_ | r, w₁, t₁⟩ <;>
    rw [hs] at h hgrow
  · cases h
    exact ⟨Nat.lt_of_lt_of_le hcap hgrow, keyOrVal_guard (scan_wait_guard hs)⟩
  · have hcap₁ : 0 < w₁.cap := Nat.lt_of_lt_of_le hcap hgrow
    have hw' : w' = { w₁ with text := [] } := by
      simp only [keyOrValEnd] at h
      split at h <;> cases h <;> rfl
    subst hw'
    exact ⟨hcap₁, fun _ => by simp [Word.full]; omega⟩

theorem parseKeyOrVal_room (hcap : 0 < w.cap) {rc : Stat} {x : Option Str}
    (h : parseKeyOrVal cfg vt uriMode w t = (rc, x, w', t')) :
    0 < w'.cap ∧ (w'.inhex = false → w'.full = false) := by
  cases hi : w.inhex with
  | false =>
    simp only [parseKeyOrVal, hi, Bool.false_eq_true, if_false] at h
    exact loop_room (Nat.lt_of_lt_of_le hcap (grows_room w).cap) h
  | true =>
    have hgrow := (grows_hex w t).cap
    simp only [parseKeyOrVal, hi, if_true] at h
    rcases hs : scan Tape.device hexScanner w t with ⟨_ | r, w₁, t₁⟩ <;> rw [hs] at h hgrow
    · cases h
      refine ⟨Nat.lt_of_lt_of_le hcap hgrow, fun hi' => ?_⟩
      rw [(hex_wait hs).1, hi] at hi'
      cases hi'
    · simp only at h
      split at h
      · next he =>
        cases h
        subst he
        refine ⟨Nat.lt_of_lt_of_le hcap hgrow, fun hi' => ?_⟩
        rw [hex_eof hi hs] at hi'
        cases hi'
      · exact loop_room (Nat.lt_of_lt_of_le hcap (Nat.le_trans hgrow (grows_room w₁).cap)) h

end

variable {cfg : CgiConfig} {c c' : Cgi}

theorem parsePart_sound (hc : c.Sound) {rc : Stat} (h : c.parsePart cfg = (rc, c')) :
    c'.Sound ∧ c'.uriMode = c.uriMode ∧ c'.spcs = c.spcs := by
  rcases hp : parseKeyOrVal cfg c.pstate c.uriMode c.word c.tape with ⟨rc₀, s, w, t⟩
  have hpart : processParsedKeyOrVal rc₀ s { c with word := w, tape := t } = (rc, c') := by
    simpa [parsePart, hp] using h
  obtain ⟨key, tab, pstate, heq, hps⟩ := process_eq rc₀ s { c with word := w, tape := t }
  rw [hpart] at heq
  simp only at heq hps
  obtain ⟨hcap, hroom⟩ := parseKeyOrVal_room hc.cap hp
  subst heq
  refine ⟨⟨hcap, hroom, ?_, ?_⟩, rfl, rfl⟩
  · obtain rfl | rfl := hps
    · exact hc.var
    · exact trans_ne_none _
  · obtain rfl | rfl := hps
    · exact hc.modes
    · exact (trans_cookieState hc.var).trans hc.modes

theorem parsePart_kept (ht : c.tape.Live) {rc : Stat} (hrc : rc ≠ .wait)
    (h : c.parsePart cfg = (rc, c')) : c.tape.Kept c'.tape := by
  rcases hp : parseKeyOrVal cfg c.pstate c.uriMode c.word c.tape with ⟨rc₀, s, w, t⟩
  have hpart : processParsedKeyOrVal rc₀ s { c with word := w, tape := t } = (rc, c') := by
    simpa [parsePart, hp] using h
  obtain ⟨key, tab, pstate, heq, -⟩ := process_eq rc₀ s { c with word := w, tape := t }
  rw [hpart] at heq
  simp only at heq
  rw [heq]
  exact parseKeyOrVal_kept ht (fun h => hrc ((process_code hpart).1.2 h)) hp

theorem parseGutsDriver_kept (ht : c.tape.Live) {rc : Stat} (hrc : rc ≠ .wait)
    (h : c.parseGutsDriver cfg = (rc, c')) : c.tape.Kept c'.tape := by
  by_cases hk : c.pstate = .ckey ∧ c.word.text = []
  · rcases hs : skipHws Tape.device 0 c.spcs c.tape with ⟨r, k, t⟩
    have hpass := stillWaiting_skip hk hs
    obtain ⟨rfl, -⟩ | ⟨hr, hscan, -⟩ := Tape.skipHws_scan hs
    · simp only [parseGutsDriver, hpass, decide_true] at h
      cases h
      exact absurd rfl hrc
    · simp only [parseGutsDriver, hpass, hr, decide_false] at h
      have hkept := (ht.scan_keep hscan).2
      exact hkept.trans (parsePart_kept (c := { c with spcs := k, tape := t }) hkept.live hrc h)
  · simp only [parseGutsDriver, stillWaiting_pass hk] at h
    exact parsePart_kept ht hrc h

theorem parseGutsDriver_sound (hc : c.Sound) {rc : Stat} (h : c.parseGutsDriver cfg = (rc, c')) :
    c'.Sound ∧ c'.uriMode = c.uriMode ∧ (c.uriMode = true → c'.spcs = c.spcs) := by
  by_cases hk : c.pstate = .ckey ∧ c.word.text = []
  · rcases hs : skipHws Tape.device 0 c.spcs c.tape with ⟨r, k, t⟩
    have huri : c.uriMode = false := by
      have := hc.modes
      rw [hk.1] at this
      simpa [Modes, CgiVar.cookieState] using this
    have hsound : Sound { c with spcs := k, tape := t } := ⟨hc.cap, hc.room, hc.var, hc.modes⟩
    have hpass := stillWaiting_skip hk hs
    by_cases hr : r = .wait
    · simp only [parseGutsDriver, hpass, hr, decide_true] at h
      cases h
      exact ⟨hsound, rfl, by simp [huri]⟩
    · simp only [parseGutsDriver, hpass, hr, decide_false] at h
      obtain ⟨h₁, h₂, -⟩ := parsePart_sound hsound h
      exact ⟨h₁, h₂, by simp [huri]⟩
  · simp only [parseGutsDriver, stillWaiting_pass hk] at h
    obtain ⟨h₁, h₂, h₃⟩ := parsePart_sound hc h
    exact ⟨h₁, h₂, fun _ => h₃⟩

theorem parsePart_follows (hm : Modes c.pstate c.uriMode) (ht : c.tape.Live) {rc : Stat}
    (h : c.parsePart cfg = (rc, c')) :
    Tape.Follows (tailScanner c.uriMode) c.tape (progress rc) c'.tape := by
  rcases hp : parseKeyOrVal cfg c.pstate c.uriMode c.word c.tape with ⟨rc₀, s, w, t⟩
  have hpart : processParsedKeyOrVal rc₀ s { c with word := w, tape := t } = (rc, c') := by
    simpa [parsePart, hp] using h
  have hf := parseKeyOrVal_follows hm ht hp
  obtain ⟨hw, he⟩ := process_code hpart
  have hrc : progress rc = progress rc₀ := by
    by_cases hwait : rc₀ = .wait
    · rw [hwait, hw.2 hwait]
    · rw [progress_of_ne hwait, progress_of_ne fun h => hwait (hw.1 h)]
      simp [he]
  obtain ⟨key, tab, pstate, heq, -⟩ := process_eq rc₀ s { c with word := w, tape := t }
  rw [hpart] at heq
  simp only at heq
  rw [hrc, heq]
  exact hf

theorem parseGutsDriver_follows (hm : Modes c.pstate c.uriMode) (ht : c.tape.Live) {rc : Stat}
    (h : c.parseGutsDriver cfg = (rc, c')) :
    Tape.Follows (tailScanner c.uriMode) c.tape (progress rc) c'.tape := by
  by_cases hk : c.pstate = .ckey ∧ c.word.text = []
  · rcases hs : skipHws Tape.device 0 c.spcs c.tape with ⟨r, k, t⟩
    have huri : c.uriMode = false := by
      have := hm
      rw [hk.1] at this
      simpa [Modes, CgiVar.cookieState] using this
    have hpass := stillWaiting_skip hk hs
    obtain ⟨rfl, hscan⟩ | ⟨hr, hscan, -⟩ := Tape.skipHws_scan hs
    · simp only [parseGutsDriver, hpass, decide_true] at h
      cases h
      rw [huri]
      exact skipHws_leads.follows ht hscan
    · simp only [parseGutsDriver, hpass, hr, decide_false] at h
      have hf := skipHws_leads.follows ht hscan
      have hpart := parsePart_follows (c := { c with spcs := k, tape := t }) hm
        (ht.scan_keep hscan).2.live h
      rw [huri] at hpart ⊢
      exact hf.trans hpart
  · simp only [parseGutsDriver, stillWaiting_pass hk] at h
    exact parsePart_follows hm ht h

end Cgi

end Okws
