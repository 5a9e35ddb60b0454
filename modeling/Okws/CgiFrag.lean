import Okws.Cgi

namespace Okws

open Lib

section Word

variable (cfg : CgiConfig)

@[simp] theorem room_inhex (w : Word) : (cfg.room w).inhex = w.inhex := by
  unfold CgiConfig.room CgiConfig.extendScratch
  split
  · split <;> rfl
  · rfl

@[simp] theorem room_text (w : Word) : (cfg.room w).text = w.text := by
  unfold CgiConfig.room CgiConfig.extendScratch
  split
  · split <;> rfl
  · rfl

@[simp] theorem endHex_inhex (w : Word) : w.endHex.inhex = false := rfl

theorem room_of_not_full {w : Word} (h : w.full = false) : cfg.room w = w :=
  if_neg (by simpa [Word.full] using h)

end Word

section Loop

variable {cfg : CgiConfig} {vt : CgiVar} {uriMode : Bool}

variable (cfg vt uriMode) in
theorem keyOrValByte_cases (w : Word) (ch : UInt8) :
    (∃ c, keyOrValByte cfg vt uriMode w ch = .next (cfg.put c w)) ∨
    keyOrValByte cfg vt uriMode w ch = .next w ∨
    keyOrValByte cfg vt uriMode w ch = .next { w with inhex := true } ∨
    (∃ r, r ≠ .wait ∧ keyOrValByte cfg vt uriMode w ch = .done r w) ∨
    keyOrValByte cfg vt uriMode w ch = .back .eof w := by
  have hput : ∀ c, ∃ c', (.next (cfg.put c w) : Act Word Stat) = .next (cfg.put c' w) :=
    fun c => ⟨c, rfl⟩
  have hdone : ∀ r : Stat, r ≠ .wait → ∃ r', r' ≠ .wait ∧
    (.done r w : Act Word Stat) = .done r' w := fun r hr => ⟨r, hr, rfl⟩
  unfold keyOrValByte
  repeat' split
  all_goals first
    | exact .inl (hput _)
    | exact .inr (.inl rfl)
    | exact .inr (.inr (.inl rfl))
    | exact .inr (.inr (.inr (.inl (hdone _ (by simp)))))
    | exact .inr (.inr (.inr (.inr rfl)))

theorem keyOrVal_guard {w : Word} (h : (keyOrValScanner cfg vt uriMode).guard w = none) :
    w.inhex = false → w.full = false := by
  intro hi
  simpa [keyOrValScanner, hi] using h

theorem guard_of_inhex {w : Word} (h : w.inhex = true) :
    (keyOrValScanner cfg vt uriMode).guard w = none := by simp [keyOrValScanner, h]

theorem guard_of_not_full {w : Word} (h : w.full = false) :
    (keyOrValScanner cfg vt uriMode).guard w = none := by simp [keyOrValScanner, h]

theorem byte_of_not_inhex {w : Word} (h : w.inhex = false) (ch : UInt8) :
    (keyOrValScanner cfg vt uriMode).byte w ch = keyOrValByte cfg vt uriMode w ch := by
  simp [keyOrValScanner, h]

theorem hexScanner_cases (w : Word) (ch : UInt8) :
    (∃ x, hexScanner.byte w ch = .next { w with hex := x }) ∨
    (∃ x, hexScanner.byte w ch = .done .ok { w with hex := x }.endHex) ∨
    hexScanner.byte w ch = .back .ok w.endHex := by
  simp only [hexScanner]
  split
  · next x _ =>
    split
    · exact .inl ⟨x, rfl⟩
    · exact .inr (.inl ⟨x, rfl⟩)
  · exact .inr (.inr rfl)

/-- What is known when the loop is left: nothing waits, and if the input is not over the loop
is not inside `parse_hexchar`. -/
structure Left (r : Stat) (w : Word) : Prop where
  wait : r ≠ .wait
  inhex : r ≠ .eof → w.inhex = false
  full : r = .eof → w.full = false

theorem left_keyOrValByte {w w' : Word} {ch : UInt8} {r : Stat} (hi : w.inhex = false)
    (hf : w.full = false) (h : keyOrValByte cfg vt uriMode w ch = .done r w' ∨
      keyOrValByte cfg vt uriMode w ch = .back r w') : Left r w' := by
  obtain ⟨c, hc⟩ | hc | hc | ⟨r', hr', hc⟩ | hc :=
    keyOrValByte_cases cfg vt uriMode w ch <;> rw [hc] at h <;>
    simp at h
  · obtain ⟨rfl, rfl⟩ := h
    exact ⟨hr', fun _ => hi, fun _ => hf⟩
  · obtain ⟨rfl, rfl⟩ := h
    exact ⟨by simp, by simp, fun _ => hf⟩

theorem inhex_keyOrValByte {w w' : Word} {ch : UInt8} (hi : w.inhex = false) (hf : w.full = false)
    (h : keyOrValByte cfg vt uriMode w ch = .next w') : w'.inhex = true → w'.full = false := by
  obtain ⟨c, hc⟩ | hc | hc | ⟨r', hr', hc⟩ | hc :=
    keyOrValByte_cases cfg vt uriMode w ch <;> rw [hc] at h <;>
    cases h
  · simp [CgiConfig.put, hi]
  · simp [hi]
  · exact fun _ => hf

theorem keyOrVal_result {w w' : Word} {t t' : Tape} {r : Stat}
    (hw : w.inhex = true → w.full = false)
    (h : scan Tape.device (keyOrValScanner cfg vt uriMode) w t = (some r, w', t')) : Left r w' := by
  refine scan_result (I := fun w : Word => w.inhex = true → w.full = false) (R := Left) ?_ ?_ ?_ ?_
    hw h
  · intro s r _ hg
    simp only [keyOrValScanner] at hg
    split at hg <;> cases hg
    next hif =>
    simp only [Bool.and_eq_true, Bool.not_eq_true'] at hif
    exact ⟨by simp, fun _ => hif.1, by simp⟩
  · intro s b s' hg hI hb
    cases hi : s.inhex with
    | false =>
      rw [byte_of_not_inhex hi] at hb
      exact inhex_keyOrValByte hi (keyOrVal_guard hg hi) hb
    | true =>
      simp only [keyOrValScanner, hi, if_true] at hb
      obtain ⟨x, hx⟩ | ⟨x, hx⟩ | hx := hexScanner_cases s b <;> rw [hx] at hb <;> simp only at hb
      · cases hb
        exact hI
      · cases hb
        simp
      · split at hb
        · cases hb
        · next hf => exact inhex_keyOrValByte (by simp) (by simpa using hf) hb
  · intro s b r s' hg hI hb
    cases hi : s.inhex with
    | false =>
      rw [byte_of_not_inhex hi] at hb
      exact left_keyOrValByte hi (keyOrVal_guard hg hi) hb
    | true =>
      simp only [keyOrValScanner, hi, if_true] at hb
      obtain ⟨x, hx⟩ | ⟨x, hx⟩ | hx := hexScanner_cases s b <;> rw [hx] at hb <;> simp only at hb
      · simp at hb
      · simp at hb
      · split at hb
        · simp only [reduceCtorEq, Act.exit.injEq, Exit.back.injEq, false_or] at hb
          obtain ⟨rfl, rfl⟩ := hb
          exact ⟨by simp, by simp, by simp⟩
        · next hf => exact left_keyOrValByte (by simp) (by simpa using hf) hb
  · intro s r s' hg hI he
    simp only [keyOrValScanner, Exit.done.injEq, reduceCtorEq, or_false] at he
    obtain ⟨rfl, rfl⟩ := he
    refine ⟨by simp, by simp, fun _ => ?_⟩
    cases hi : s.inhex with
    | false => exact keyOrVal_guard hg hi
    | true => exact hI hi

/-- Inside `parse_hexchar` the loop does what `parse_hexchar` does, and then goes on. -/
theorem scan_hex {w w' : Word} {t t' : Tape} (hi : w.inhex = true)
    (h : scan Tape.device hexScanner w t = (some .ok, w', t')) :
    scan Tape.device (keyOrValScanner cfg vt uriMode) w t =
      scan Tape.device (keyOrValScanner cfg vt uriMode) (cfg.room w') t' := by
  induction t using scan_induction (D := Tape.device) generalizing w with
  | _ t ih =>
  have hg : (keyOrValScanner cfg vt uriMode).guard w = none := guard_of_inhex hi
  obtain ⟨r, hg', _⟩ | ⟨_, b, e, x, hb, hs, hr⟩ | ⟨_, b, e, x, hb, hs, hr⟩ | ⟨_, e, hb, hr⟩ |
    ⟨_, e, hb, hr⟩ := scan_cases Tape.device hexScanner w t
  · simp [hexScanner] at hg'
  · have hnext : (keyOrValScanner cfg vt uriMode).byte w b = .next x := by
      simp [keyOrValScanner, hi, hs]
    rw [scan_next hg hb hnext]
    refine ih b e hb ?_ (hr ▸ h)
    obtain ⟨y, hy⟩ | ⟨y, hy⟩ | hy := hexScanner_cases w b <;> rw [hy] at hs <;> cases hs
    exact hi
  · rw [hr] at h
    obtain ⟨y, hy⟩ | ⟨y, hy⟩ | hy := hexScanner_cases w b <;> rw [hy] at hs <;> cases hs <;> cases h
    · have hnext : (keyOrValScanner cfg vt uriMode).byte w b =
          .next (cfg.room { w with hex := y }.endHex) := by simp [keyOrValScanner, hi, hy]
      rw [scan_next hg hb hnext]
    · -- the character that is no digit is pushed back and read again
      have hi' : (cfg.room w.endHex).inhex = false := by simp
      have hget : Tape.device.get (Tape.device.unget e) = (.byte b, e) :=
        Tape.get_unget hb (by simp) (.inl (by simp))
      have hbyte : (keyOrValScanner cfg vt uriMode).byte w b =
          if (cfg.room w.endHex).full then .back .overflow (cfg.room w.endHex)
          else keyOrValByte cfg vt uriMode (cfg.room w.endHex) b := by
        simp [keyOrValScanner, hi, hy]
      cases hf : (cfg.room w.endHex).full with
      | true =>
        rw [hf, if_pos rfl] at hbyte
        rw [scan_exit hg hb hbyte, scan_guard (r := .overflow) (by simp [keyOrValScanner, hf])]
        rfl
      | false =>
        rw [hf, if_neg (by simp)] at hbyte
        have hg' : (keyOrValScanner cfg vt uriMode).guard _ = none := guard_of_not_full hf
        have hbyte' : (keyOrValScanner cfg vt uriMode).byte _ b = _ := byte_of_not_inhex hi' b
        cases hact : keyOrValByte cfg vt uriMode (cfg.room w.endHex) b with
        | next s => rw [scan_next hg hb (hbyte.trans hact), scan_next hg' hget (hbyte'.trans hact)]
        | exit x => rw [scan_exit hg hb (hbyte.trans hact), scan_exit hg' hget (hbyte'.trans hact)]
  · have heof : (some Stat.eof, w, e) = (some Stat.ok, w', t') := hr.symm.trans h
    simp at heof
  · simp [hr] at h

theorem keyOrValEnd_wait {s : Option Str} {w w' : Word} {t t' : Tape} (hw : w.inhex = false)
    (h : keyOrValEnd cfg (scan Tape.device (keyOrValScanner cfg vt uriMode) w t) =
      (.wait, s, w', t')) :
    scan Tape.device (keyOrValScanner cfg vt uriMode) w t = (none, w', t') := by
  rcases hs : scan Tape.device (keyOrValScanner cfg vt uriMode) w t with ⟨r, w₁, t₁⟩
  rw [hs] at h
  cases r with
  | none =>
    simp only [keyOrValEnd, Prod.mk.injEq, true_and] at h
    rw [h.2.1, h.2.2]
  | some r =>
    simp only [keyOrValEnd] at h
    split at h <;> simp only [Prod.mk.injEq, reduceCtorEq, false_and] at h
    exact absurd h.1 (keyOrVal_result (by simp [hw]) hs).wait

theorem keyOrValEnd_keep {x : Option Stat × Word × Tape} {rc : Stat} {s : Option Str} {w : Word}
    {t : Tape} (hrc : rc ≠ .wait) (h : keyOrValEnd cfg x = (rc, s, w, t)) :
    ∃ r w', x = (some r, w', t) ∧ ∀ t', keyOrValEnd cfg (some r, w', t') = (rc, s, w, t') := by
  obtain ⟨r, w', t'⟩ := x
  cases r with
  | none =>
    simp only [keyOrValEnd, Prod.mk.injEq] at h
    exact absurd h.1.symm hrc
  | some r =>
    refine ⟨r, w', ?_, fun t'' => ?_⟩
    · simp only [keyOrValEnd] at h
      split at h <;> simp only [Prod.mk.injEq] at h <;> rw [h.2.2.2]
    · simp only [keyOrValEnd] at h ⊢
      split at h <;> simp only [Prod.mk.injEq] at h
      · next hf => rw [if_pos hf, h.1, h.2.1, h.2.2.1]
      · next hf => rw [if_neg hf, h.1, h.2.1, h.2.2.1]

variable {w w' : Word} {t t' : Tape}

theorem hex_result {r : Stat} (h : scan Tape.device hexScanner w t = (some r, w', t')) :
    (r = .ok ∧ w'.inhex = false) ∨ r = .eof := by
  refine scan_result (I := fun _ => True)
    (R := fun r (w : Word) => (r = .ok ∧ w.inhex = false) ∨ r = .eof) ?_ (by simp) ?_ ?_ trivial h
  · intro s r _ hg
    simp [hexScanner] at hg
  · intro s b r s' _ _ hb
    obtain ⟨x, hx⟩ | ⟨x, hx⟩ | hx := hexScanner_cases s b <;> rw [hx] at hb <;> simp at hb <;>
      simp [← hb.1, ← hb.2]
  · intro s r s' _ _ he
    simp only [hexScanner, Exit.done.injEq, reduceCtorEq, or_false] at he
    simp [← he.1]

theorem hex_wait (h : scan Tape.device hexScanner w t = (none, w', t')) :
    w'.inhex = w.inhex ∧ w'.text = w.text ∧ w'.cap = w.cap := by
  refine scan_wait_invariant (I := fun x : Word => x.inhex = w.inhex ∧ x.text = w.text ∧
    x.cap = w.cap)
    ?_ ⟨rfl, rfl, rfl⟩ h
  intro s b s' hI hb
  obtain ⟨x, hx⟩ | ⟨x, hx⟩ | hx := hexScanner_cases s b <;> rw [hx] at hb <;> cases hb
  exact hI

theorem loop_keep (ht : t.Ready) {rc : Stat} {s : Option Str} {w₀ : Word} (hrc : rc ≠ .wait)
    (h : keyOrValEnd cfg (scan Tape.device (keyOrValScanner cfg vt uriMode) w₀ t) =
      (rc, s, w', t')) :
    keyOrValEnd cfg (scan Tape.device (keyOrValScanner cfg vt uriMode) w₀ t.unwait) =
      (rc, s, w', t'.unwait) ∧ t'.Ready ∧ t'.waits ≤ t.waits := by
  obtain ⟨r, w₁, hx, hend⟩ := keyOrValEnd_keep hrc h
  obtain ⟨hs, hr, hw⟩ := Tape.merging.scan_keep ht hx
  exact ⟨(congrArg _ hs).trans (hend _), hr, hw⟩

theorem parseKeyOrVal_keep (ht : t.Ready) {rc : Stat} {s : Option Str} (hrc : rc ≠ .wait)
    (h : parseKeyOrVal cfg vt uriMode w t = (rc, s, w', t')) :
    parseKeyOrVal cfg vt uriMode w t.unwait = (rc, s, w', t'.unwait) ∧ t'.Ready ∧
      t'.waits ≤ t.waits := by
  unfold parseKeyOrVal at h ⊢
  split at h
  · next hi =>
    rw [if_pos hi]
    rcases hs : scan Tape.device hexScanner w t with ⟨r, w₁, t₁⟩
    rw [hs] at h
    cases r with
    | none =>
      simp only [Prod.mk.injEq] at h
      exact absurd h.1.symm hrc
    | some r =>
      obtain ⟨hs', hr₁, hw₁⟩ := Tape.merging.scan_keep ht hs
      have hs' : scan Tape.device hexScanner w t.unwait = (some r, w₁, t₁.unwait) := hs'
      rw [hs']
      simp only at h ⊢
      split at h
      · next he =>
        simp only [Prod.mk.injEq] at h
        obtain ⟨rfl, rfl, rfl, rfl⟩ := h
        exact ⟨if_pos he, hr₁, hw₁⟩
      · next he =>
        rw [if_neg he]
        obtain ⟨h₁, h₂, h₃⟩ := loop_keep hr₁ hrc h
        exact ⟨h₁, h₂, Nat.le_trans h₃ hw₁⟩
  · next hi =>
    rw [if_neg hi]
    exact loop_keep ht hrc h

theorem parseKeyOrVal_loop (hg : (keyOrValScanner cfg vt uriMode).guard w = none)
    (hx : w.inhex = true → (scan Tape.device hexScanner w t).1 = some .ok) :
    parseKeyOrVal cfg vt uriMode w t =
      keyOrValEnd cfg (scan Tape.device (keyOrValScanner cfg vt uriMode) w t) := by
  unfold parseKeyOrVal
  split
  · next hi =>
    have hx := hx hi
    rcases hs : scan Tape.device hexScanner w t with ⟨r, w₁, t₁⟩
    rw [hs] at hx
    cases hx
    simp only [reduceCtorEq, if_false]
    rw [scan_hex hi hs]
  · next hi =>
    rw [room_of_not_full cfg (keyOrVal_guard hg (by simpa using hi))]

theorem loop_wait (ht : t.Ready) {s : Option Str} {w₀ : Word} (hi : w₀.inhex = false)
    (h : keyOrValEnd cfg (scan Tape.device (keyOrValScanner cfg vt uriMode) w₀ t) =
      (.wait, s, w', t'))
    (hx : w'.inhex = true → (scan Tape.device hexScanner w' t'.canRead.unwait).1 = some .ok) :
    keyOrValEnd cfg (scan Tape.device (keyOrValScanner cfg vt uriMode) w₀ t.unwait) =
      parseKeyOrVal cfg vt uriMode w' t'.canRead.unwait := by
  have hs := keyOrValEnd_wait hi h
  rw [parseKeyOrVal_loop (scan_wait_guard hs) hx]
  exact congrArg _ (Tape.merging.scan_wait ht hs).1

theorem parseKeyOrVal_wait (ht : t.Ready) {s : Option Str}
    (h : parseKeyOrVal cfg vt uriMode w t = (.wait, s, w', t'))
    (hx : w'.inhex = true → (scan Tape.device hexScanner w' t'.canRead.unwait).1 = some .ok) :
    parseKeyOrVal cfg vt uriMode w t.unwait =
      parseKeyOrVal cfg vt uriMode w' t'.canRead.unwait := by
  cases hi : w.inhex with
  | false =>
    simp only [parseKeyOrVal, hi, Bool.false_eq_true, if_false] at h
    rw [parseKeyOrVal, if_neg (by simp [hi])]
    exact loop_wait ht (by simp [hi]) h hx
  | true =>
    simp only [parseKeyOrVal, hi, if_true] at h
    rcases hs : scan Tape.device hexScanner w t with ⟨r, w₁, t₁⟩
    rw [hs] at h
    cases r with
    | none =>
      simp only [Prod.mk.injEq, true_and] at h
      obtain ⟨-, rfl, rfl⟩ := h
      have hi' : w₁.inhex = true := (hex_wait hs).1.trans hi
      have hm : scan Tape.device hexScanner w t.unwait =
          scan Tape.device hexScanner w₁ t₁.canRead.unwait := (Tape.merging.scan_wait ht hs).1
      rw [parseKeyOrVal, parseKeyOrVal, if_pos hi, if_pos hi', hm]
    | some r =>
      obtain ⟨hs', hr₁, -⟩ := Tape.merging.scan_keep ht hs
      have hs' : scan Tape.device hexScanner w t.unwait = (some r, w₁, t₁.unwait) := hs'
      simp only at h
      split at h
      · simp at h
      · next he =>
        have hi₁ : w₁.inhex = false := ((hex_result hs).resolve_right he).2
        rw [← loop_wait hr₁ (by simp [hi₁]) h hx, parseKeyOrVal, if_pos hi, hs']
        simp only [he, if_false]

/-- The buffer never shrinks, and what is in it stays. -/
structure Grows (w w' : Word) : Prop where
  cap : w.cap ≤ w'.cap
  text : w.text ≠ [] → w'.text ≠ []

theorem Grows.refl (w : Word) : Grows w w := ⟨Nat.le_refl _, id⟩

theorem Grows.trans {a b c : Word} (h : Grows a b) (h' : Grows b c) : Grows a c :=
  ⟨Nat.le_trans h.cap h'.cap, h'.text ∘ h.text⟩

theorem grows_room (w : Word) : Grows w (cfg.room w) := by
  refine ⟨?_, by simp⟩
  unfold CgiConfig.room CgiConfig.extendScratch
  split
  · split
    · exact Nat.le_min.2 ⟨Nat.le_mul_of_pos_right _ (by decide), Nat.le_of_lt ‹_›⟩
    · exact Nat.le_refl _
  · exact Nat.le_refl _

theorem grows_put (c : UInt8) (w : Word) : Grows w (cfg.put c w) :=
  Grows.trans (b := { w with text := w.text ++ [c] }) ⟨Nat.le_refl _, by simp⟩ (grows_room _)

theorem grows_endHex (w : Word) (x : Hex) : Grows w { w with hex := x }.endHex :=
  ⟨Nat.le_refl _, fun h => by simp [Word.endHex, h]⟩

theorem grows_byte {ch : UInt8} (h : keyOrValByte cfg vt uriMode w ch = .next w' ∨
    ∃ r, keyOrValByte cfg vt uriMode w ch = .done r w' ∨
      keyOrValByte cfg vt uriMode w ch = .back r w') : Grows w w' := by
  obtain ⟨c, hc⟩ | hc | hc | ⟨r', -, hc⟩ | hc :=
    keyOrValByte_cases cfg vt uriMode w ch <;> rw [hc] at h <;>
    simp at h
  · exact h ▸ grows_put c w
  · exact h ▸ Grows.refl w
  · exact h ▸ ⟨Nat.le_refl _, id⟩
  · exact h ▸ Grows.refl w
  · exact h ▸ Grows.refl w

theorem grows_scanner {ch : UInt8} (h : (keyOrValScanner cfg vt uriMode).byte w ch = .next w' ∨
    ∃ r, (keyOrValScanner cfg vt uriMode).byte w ch = .done r w' ∨
      (keyOrValScanner cfg vt uriMode).byte w ch = .back r w') : Grows w w' := by
  cases hi : w.inhex with
  | false =>
    simp only [byte_of_not_inhex hi] at h
    exact grows_byte h
  | true =>
    simp only [keyOrValScanner, hi, if_true] at h
    obtain ⟨x, hx⟩ | ⟨x, hx⟩ | hx := hexScanner_cases w ch <;> rw [hx] at h <;> simp only at h
    · simp only [Act.next.injEq, reduceCtorEq, or_self, exists_false, or_false] at h
      exact h ▸ ⟨Nat.le_refl _, id⟩
    · simp only [Act.next.injEq, reduceCtorEq, or_self, exists_false, or_false] at h
      exact h ▸ (grows_endHex w x).trans (grows_room _)
    · have hgrow : Grows w (cfg.room w.endHex) := (grows_endHex w w.hex).trans (grows_room _)
      split at h
      · simp only [reduceCtorEq, Act.exit.injEq, Exit.back.injEq, false_or, exists_eq_left'] at h
        exact h ▸ hgrow
      · exact hgrow.trans (grows_byte h)

variable (cfg vt uriMode) in
theorem grows_scan (w : Word) (t : Tape) :
    Grows w (scan Tape.device (keyOrValScanner cfg vt uriMode) w t).2.1 := by
  refine scan_state_invariant (I := Grows w) ?_ ?_ ?_ (.refl w)
  · exact fun hI hb => hI.trans (grows_scanner (.inl hb))
  · exact fun hI hb => hI.trans (grows_scanner (.inr ⟨_, hb⟩))
  · intro s r s' hI he
    simp only [keyOrValScanner, Exit.done.injEq, reduceCtorEq, or_false] at he
    exact he.2 ▸ hI

theorem grows_hex (w : Word) (t : Tape) : Grows w (scan Tape.device hexScanner w t).2.1 := by
  refine scan_state_invariant (I := Grows w) ?_ ?_ ?_ (.refl w)
  · intro s b s' hI hb
    obtain ⟨x, hx⟩ | ⟨x, hx⟩ | hx := hexScanner_cases s b <;> rw [hx] at hb <;> cases hb
    exact hI.trans ⟨Nat.le_refl _, id⟩
  · intro s b r s' hI hb
    obtain ⟨x, hx⟩ | ⟨x, hx⟩ | hx := hexScanner_cases s b <;> rw [hx] at hb <;> simp at hb
    · exact hb.2 ▸ hI.trans (grows_endHex s x)
    · exact hb.2 ▸ hI.trans (grows_endHex s s.hex)
  · intro s r s' hI he
    simp only [hexScanner, Exit.done.injEq, reduceCtorEq, or_false] at he
    exact he.2 ▸ hI

theorem parseKeyOrVal_slept (ht : t.Ready) {s : Option Str}
    (h : parseKeyOrVal cfg vt uriMode w t = (.wait, s, w', t')) :
    t.Slept t' ∧ Grows w w' ∧ (w'.inhex = false → w'.full = false) := by
  have loop {w₀ : Word} {t₀ : Tape} (ht₀ : t₀.Ready) (hi : w₀.inhex = false) (h : keyOrValEnd cfg
      (scan Tape.device (keyOrValScanner cfg vt uriMode) w₀ t₀) = (.wait, s, w', t')) :
      t₀.Slept t' ∧ Grows w₀ w' ∧ (w'.inhex = false → w'.full = false) := by
    have hs := keyOrValEnd_wait hi h
    have hgrow := grows_scan cfg vt uriMode w₀ t₀
    rw [hs] at hgrow
    exact ⟨Tape.scan_slept ht₀ hs, hgrow, keyOrVal_guard (scan_wait_guard hs)⟩
  cases hi : w.inhex with
  | false =>
    simp only [parseKeyOrVal, hi, Bool.false_eq_true, if_false] at h
    obtain ⟨h₁, h₂, h₃⟩ := loop ht (by simp [hi]) h
    exact ⟨h₁, (grows_room w).trans h₂, h₃⟩
  | true =>
    simp only [parseKeyOrVal, hi, if_true] at h
    have hgrow := grows_hex w t
    rcases hs : scan Tape.device hexScanner w t with ⟨r, w₁, t₁⟩
    rw [hs] at h hgrow
    cases r with
    | none =>
      simp only [Prod.mk.injEq, true_and] at h
      obtain ⟨-, rfl, rfl⟩ := h
      refine ⟨Tape.scan_slept ht hs, hgrow, fun hi' => ?_⟩
      rw [(hex_wait hs).1, hi] at hi'
      cases hi'
    | some r =>
      obtain ⟨-, hr₁, hw₁⟩ := Tape.merging.scan_keep ht hs
      have hl₁ := Tape.scan_left (.inl fun _ => ⟨_, _, rfl⟩) hs
      simp only at h
      split at h
      · simp at h
      · next he =>
        have hi₁ : w₁.inhex = false := ((hex_result hs).resolve_right he).2
        obtain ⟨h₁, h₂, h₃⟩ := loop hr₁ (by simp [hi₁]) h
        exact ⟨h₁.of_le hw₁ hl₁, hgrow.trans ((grows_room w₁).trans h₂), h₃⟩

theorem loop_left {r : Stat} (hi : w.inhex = false) (hr : r ≠ .eof)
    (h : scan Tape.device (keyOrValScanner cfg vt uriMode) w t = (some r, w', t')) :
    t'.left < t.left ∨ (w.full = true ∧ t' = t) := by
  obtain ⟨r₀, hg, hs⟩ | ⟨hg, b, e, x, hb, hx, hs⟩ | ⟨hg, b, e, x, hb, hx, hs⟩ | ⟨hg, e, hb, hs⟩ |
    ⟨hg, e, hb, hs⟩ := scan_cases Tape.device (keyOrValScanner cfg vt uriMode) w t <;> rw [hs] at h
  · cases h
    simp only [keyOrValScanner, hi, Bool.not_false, Bool.true_and] at hg
    split at hg <;> cases hg
    exact .inr ⟨‹_›, rfl⟩
  · have := Tape.scan_left (.inl fun _ => ⟨_, _, rfl⟩) h
    exact .inl (Nat.lt_of_le_of_lt this (Tape.left_byte hb).1)
  · rw [byte_of_not_inhex hi] at hx
    obtain ⟨c, hc⟩ | hc | hc | ⟨r', hr', hc⟩ | hc :=
      keyOrValByte_cases cfg vt uriMode w b <;> rw [hc] at hx <;>
      cases hx <;> cases h
    · exact .inl (Tape.left_byte hb).1
    · exact absurd rfl hr
  · cases h
    exact absurd rfl hr
  · cases h

theorem parseKeyOrVal_left {rc : Stat} {s : Option Str} (hw : w.inhex = false → w.full = false)
    (hrc : rc ≠ .wait) (heof : rc ≠ .eof)
    (h : parseKeyOrVal cfg vt uriMode w t = (rc, s, w', t')) :
    w'.text = [] ∧ w'.inhex = false ∧ w.cap ≤ w'.cap ∧
      (t'.left < t.left ∨ (w.inhex = true ∧ t'.left ≤ t.left)) := by
  have loop {w₀ : Word} {t₀ : Tape} (hi : w₀.inhex = false) (h : keyOrValEnd cfg
      (scan Tape.device (keyOrValScanner cfg vt uriMode) w₀ t₀) = (rc, s, w', t')) :
      w'.text = [] ∧ w'.inhex = false ∧ w₀.cap ≤ w'.cap ∧
        (t'.left < t₀.left ∨ (w₀.full = true ∧ t' = t₀)) := by
    rcases hs : scan Tape.device (keyOrValScanner cfg vt uriMode) w₀ t₀ with ⟨r, w₁, t₁⟩
    have hgrow := grows_scan cfg vt uriMode w₀ t₀
    rw [hs] at h hgrow
    cases r with
    | none =>
      simp only [keyOrValEnd, Prod.mk.injEq] at h
      exact absurd h.1.symm hrc
    | some r =>
      have hl := keyOrVal_result (by simp [hi]) hs
      have hr : r ≠ .eof := by
        rintro rfl
        have hf := hl.full rfl
        simp only [keyOrValEnd, hf, reduceCtorEq, Bool.false_eq_true, or_self, if_false,
          Prod.mk.injEq] at h
        exact heof h.1.symm
      have hw' : w' = { w₁ with text := [] } ∧ t' = t₁ := by
        simp only [keyOrValEnd] at h
        split at h <;> simp only [Prod.mk.injEq] at h <;> exact ⟨h.2.2.1.symm, h.2.2.2.symm⟩
      obtain ⟨rfl, rfl⟩ := hw'
      exact ⟨rfl, hl.inhex hr, hgrow.cap, loop_left hi hr hs⟩
  cases hi : w.inhex with
  | false =>
    simp only [parseKeyOrVal, hi, Bool.false_eq_true, if_false, room_of_not_full cfg (hw hi)] at h
    obtain ⟨h₁, h₂, h₃, h₄⟩ := loop hi h
    refine ⟨h₁, h₂, h₃, h₄.imp_right fun hf => ?_⟩
    rw [hw hi] at hf
    simp at hf
  | true =>
    simp only [parseKeyOrVal, hi, if_true] at h
    have hgrow := grows_hex w t
    rcases hs : scan Tape.device hexScanner w t with ⟨r, w₁, t₁⟩
    rw [hs] at h hgrow
    cases r with
    | none =>
      simp only [Prod.mk.injEq] at h
      exact absurd h.1.symm hrc
    | some r =>
      simp only at h
      split at h
      · simp only [Prod.mk.injEq] at h
        exact absurd h.1.symm heof
      · next he =>
        have hi₁ : w₁.inhex = false := ((hex_result hs).resolve_right he).2
        have hl₁ := Tape.scan_left (.inl fun _ => ⟨_, _, rfl⟩) hs
        obtain ⟨h₁, h₂, h₃, h₄⟩ := loop (show (cfg.room w₁).inhex = false by simp [hi₁]) h
        refine ⟨h₁, h₂, Nat.le_trans hgrow.cap (Nat.le_trans (grows_room w₁).cap h₃),
          .inr ⟨rfl, ?_⟩⟩
        obtain hlt | ⟨-, rfl⟩ := h₄
        · omega
        · exact hl₁

variable (cfg vt uriMode) in
theorem parseKeyOrVal_unlimited (ht : t.Unlimited) :
    (parseKeyOrVal cfg vt uriMode w t).2.2.2.Unlimited := by
  have loop (w₀ : Word) {t₀ : Tape} (ht₀ : t₀.Unlimited) : (keyOrValEnd cfg
      (scan Tape.device (keyOrValScanner cfg vt uriMode) w₀ t₀)).2.2.2.Unlimited := by
    have hs := ht₀.scan (S := keyOrValScanner cfg vt uriMode) (s := w₀)
    generalize scan Tape.device (keyOrValScanner cfg vt uriMode) w₀ t₀ = x at hs ⊢
    obtain ⟨_ | r, w₁, t₁⟩ := x
    · exact hs
    · simp only [keyOrValEnd]
      split <;> exact hs
  unfold parseKeyOrVal
  split
  · have hs := ht.scan (S := hexScanner) (s := w)
    generalize scan Tape.device hexScanner w t = x at hs ⊢
    obtain ⟨_ | r, w₁, t₁⟩ := x
    · exact hs
    · simp only
      split
      · exact hs
      · exact loop _ hs
  · exact loop _ ht

theorem parseKeyOrVal_congr (hw : w.inhex = false → w.full = false)
    (h : Tape.device.get t = Tape.device.get t') :
    parseKeyOrVal cfg vt uriMode w t = parseKeyOrVal cfg vt uriMode w t' := by
  unfold parseKeyOrVal
  split
  · rw [Merging.scan_congr (S := hexScanner) rfl h]
  · next hi =>
    have hf := hw (by simpa using hi)
    rw [room_of_not_full cfg hf, Merging.scan_congr (guard_of_not_full hf) h]

end Loop

namespace Cgi

variable {cfg : CgiConfig} {c c' : Cgi}

def unwait (c : Cgi) : Cgi := { c with tape := c.tape.unwait }

/-- The input that the suspended parser is going to see. -/
def rest (c : Cgi) : Tape := c.tape.canRead.unwait

structure Inv (c : Cgi) : Prop where
  ready : c.tape.Ready
  cap : 0 < c.word.cap
  room : c.word.inhex = false → c.word.full = false
  var : c.pstate ≠ .none
  cookie : c.pstate.cookieState = true → c.tape.Unlimited

/-- The parser is not entered again in the middle of an escape that the input does not finish,
nor before a blank that `skip_hws` would take for the beginning of a cookie. -/
def Harmless (c c' : Cgi) : Prop :=
  c.parseStillWaiting.1 = false →
    (c'.word.inhex = true → (scan Tape.device hexScanner c'.word c'.rest).1 = some .ok) ∧
    (c'.pstate = .ckey → c'.word.text = [] →
      c'.rest.get.1 ≠ .byte Byte.sp ∧ c'.rest.get.1 ≠ .byte Byte.ht)

instance (c c' : Cgi) : Decidable (Harmless c c') :=
  inferInstanceAs (Decidable (_ → (_ → _) ∧ (_ → _ → _ ∧ _)))

theorem stillWaiting_skip {r : Stat} {k : Nat} {t : Tape} (hk : c.pstate = .ckey ∧ c.word.text = [])
    (hs : skipHws Tape.device 0 c.spcs c.tape = (r, k, t)) :
    c.parseStillWaiting = (decide (r = .wait), { c with spcs := k, tape := t }) := by
  rw [parseStillWaiting, if_pos hk, hs]

theorem stillWaiting_pass (hk : ¬ (c.pstate = .ckey ∧ c.word.text = [])) :
    c.parseStillWaiting = (false, c) := if_neg hk

/-- What `parse_still_waiting` leaves of the parser when it does not wait. -/
structure Passed (c c' : Cgi) : Prop where
  eq : ∃ k t, c' = { c with spcs := k, tape := t }
  inv : c'.Inv
  waits : c'.tape.waits ≤ c.tape.waits
  left : c'.tape.left ≤ c.tape.left
  spcs : c.pstate = .ckey → c.word.text = [] → c'.spcs = 0

theorem stillWaiting_keep (hc : c.Inv) (h : c.parseStillWaiting = (false, c')) :
    c.unwait.parseStillWaiting = (false, c'.unwait) ∧ c.Passed c' := by
  by_cases hk : c.pstate = .ckey ∧ c.word.text = []
  · rcases hs : skipHws Tape.device 0 c.spcs c.tape with ⟨r, k, t⟩
    rw [stillWaiting_skip hk hs] at h
    simp only [Prod.mk.injEq, decide_eq_false_iff_not] at h
    obtain ⟨hr, rfl⟩ := h
    obtain ⟨hm, hready, hwaits, hk0⟩ := Tape.skipHws_keep hc.ready hr hs
    have hu := hc.cookie (by simp [hk.1, CgiVar.cookieState])
    obtain ⟨hleft, hu'⟩ := Tape.skipHws_left hu hr hs
    refine ⟨?_, ⟨_, _, rfl⟩, ⟨hready, hc.cap, hc.room, hc.var, fun _ => hu'⟩, hwaits, hleft,
      fun _ _ => hk0⟩
    rw [stillWaiting_skip (c := c.unwait) hk hm]
    simp [hr, unwait]
  · rw [stillWaiting_pass hk] at h
    cases h
    exact ⟨stillWaiting_pass (c := c.unwait) hk, ⟨_, _, rfl⟩, hc, Nat.le_refl _, Nat.le_refl _,
      fun h₁ h₂ => absurd ⟨h₁, h₂⟩ hk⟩

variable (cfg) in
theorem stillWaiting_wait (hc : c.Inv) (h : c.parseStillWaiting = (true, c')) :
    c.unwait.parseStillWaiting = ((machine cfg).resume c').unwait.parseStillWaiting ∧
      c.tape.Slept c'.tape ∧ ((machine cfg).resume c').Inv := by
  by_cases hk : c.pstate = .ckey ∧ c.word.text = []
  · rcases hs : skipHws Tape.device 0 c.spcs c.tape with ⟨r, k, t⟩
    rw [stillWaiting_skip hk hs] at h
    simp only [Prod.mk.injEq, decide_eq_true_eq] at h
    obtain ⟨rfl, rfl⟩ := h
    obtain ⟨hm, hslept⟩ := Tape.skipHws_wait hc.ready hs
    have hu := hc.cookie (by simp [hk.1, CgiVar.cookieState])
    have hu' := Tape.skipHws_unlimited hu hs
    refine ⟨?_, hslept, hslept.ready, hc.cap, hc.room, hc.var, fun _ => ⟨hu'.1, hu'.2⟩⟩
    rcases hs' : skipHws Tape.device 0 k t.canRead.unwait with ⟨r', k', t'⟩
    rw [stillWaiting_skip (c := c.unwait) hk (hm.trans hs'),
      stillWaiting_skip (c := ((machine cfg).resume { c with spcs := k, tape := t }).unwait) hk hs']
    rfl
  · rw [stillWaiting_pass hk] at h
    cases h

theorem process_eq (rc : Stat) (s : Option Str) (c : Cgi) :
    ∃ key tab pstate, (processParsedKeyOrVal rc s c).2 =
      { c with key := key, tab := tab, pstate := pstate } ∧
      (pstate = c.pstate ∨ pstate = c.pstate.trans) := by
  unfold processParsedKeyOrVal
  split
  · exact ⟨_, _, _, rfl, .inl rfl⟩
  · split
    · exact ⟨_, _, _, rfl, .inr rfl⟩
    · exact ⟨_, _, _, rfl, .inr rfl⟩
  · split
    · exact ⟨_, _, _, rfl, .inl rfl⟩
    · exact ⟨_, _, _, rfl, .inl rfl⟩
  · exact ⟨_, _, _, rfl, .inl rfl⟩

theorem process_unwait (rc : Stat) (s : Option Str) (c : Cgi) :
    processParsedKeyOrVal rc s c.unwait =
      ((processParsedKeyOrVal rc s c).1, (processParsedKeyOrVal rc s c).2.unwait) := by
  cases hk : c.pstate.keyState <;> cases rc <;> simp [processParsedKeyOrVal, unwait, hk]

theorem process_code {rc rc' : Stat} {s : Option Str}
    (h : processParsedKeyOrVal rc s c = (rc', c')) :
    (rc' = .wait ↔ rc = .wait) ∧ (rc' = .eof ↔ rc = .eof) := by
  cases rc <;> simp only [processParsedKeyOrVal] at h
  case ok => split at h <;> cases h <;> simp
  case eof => split at h <;> cases h <;> simp
  all_goals (cases h; simp)

theorem driver_waiting (h : c.parseStillWaiting = (true, c')) :
    c.parseGutsDriver cfg = (.wait, c') := by
  simp only [parseGutsDriver, h]

theorem driver_passed (h : c.parseStillWaiting = (false, c')) :
    c.parseGutsDriver cfg = c'.parsePart cfg := by
  simp only [parseGutsDriver, h]

theorem step_waiting (h : c.parseStillWaiting = (true, c')) : (machine cfg).step c = .wait c' :=
  congrArg outcome (driver_waiting h)

theorem step_passed (h : c.parseStillWaiting = (false, c')) :
    (machine cfg).step c = outcome (c'.parsePart cfg) := congrArg outcome (driver_passed h)

theorem outcome_next {x : Stat × Cgi} (h : outcome x = .next c) :
    x.1 ≠ .eof ∧ x.1 ≠ .wait ∧ x.2 = c := by
  obtain ⟨rc, c'⟩ := x
  cases rc <;> simp_all [outcome]

theorem outcome_wait {x : Stat × Cgi} (h : outcome x = .wait c) : x = (.wait, c) := by
  obtain ⟨rc, c'⟩ := x
  cases rc <;> simp_all [outcome]

theorem outcome_stop {x : Stat × Cgi} {o : PairTab} (h : outcome x = .stop o) :
    x.1 = .eof ∧ x.2.tab = o := by
  obtain ⟨rc, c'⟩ := x
  cases rc <;> simp_all [outcome]

theorem trans_cookieState {v : CgiVar} (h : v ≠ .none) : v.trans.cookieState = v.cookieState := by
  cases v <;> simp_all [CgiVar.trans, CgiVar.cookieState]

theorem trans_ne_none (v : CgiVar) : v.trans ≠ .none := by cases v <;> simp [CgiVar.trans]

theorem parsePart_keep {rc : Stat} (hc : c.Inv) (h : c.parsePart cfg = (rc, c'))
    (hrc : rc ≠ .wait) :
    c.unwait.parsePart cfg = (rc, c'.unwait) ∧ c'.tape.waits ≤ c.tape.waits ∧
      (rc ≠ .eof → c'.Inv ∧ c'.word.text = [] ∧ c'.word.inhex = false ∧
        (c'.tape.left < c.tape.left ∨ (c.word.inhex = true ∧ c'.tape.left ≤ c.tape.left))) := by
  rcases hp : parseKeyOrVal cfg c.pstate c.uriMode c.word c.tape with ⟨rc₀, s, w, t⟩
  have hpart : processParsedKeyOrVal rc₀ s { c with word := w, tape := t } = (rc, c') := by
    simpa [parsePart, hp] using h
  obtain ⟨hw, he⟩ := process_code hpart
  have hrc₀ : rc₀ ≠ .wait := fun h => hrc (hw.2 h)
  obtain ⟨hm, hready, hwaits⟩ := parseKeyOrVal_keep hc.ready hrc₀ hp
  obtain ⟨key, tab, pstate, heq, hps⟩ := process_eq rc₀ s { c with word := w, tape := t }
  rw [hpart] at heq
  simp only at heq hps
  refine ⟨?_, by rw [heq]; exact hwaits, fun hne => ?_⟩
  · have hu := process_unwait rc₀ s { c with word := w, tape := t }
    rw [hpart] at hu
    simp only [parsePart, unwait, hm] at hu ⊢
    exact hu
  · obtain ⟨h₁, h₂, h₃, h₄⟩ := parseKeyOrVal_left hc.room hrc₀ (fun h => hne (he.2 h)) hp
    have hcap : 0 < w.cap := Nat.lt_of_lt_of_le hc.cap h₃
    have hunl : c.pstate.cookieState = true → t.Unlimited := fun hck => by
      have := parseKeyOrVal_unlimited cfg c.pstate c.uriMode
        (w := c.word) (hc.cookie hck)
      rwa [hp] at this
    subst heq
    refine ⟨⟨hready, hcap, fun _ => by simp [Word.full, h₁]; omega, ?_, ?_⟩, h₁, h₂, h₄⟩
    · obtain rfl | rfl := hps
      · exact hc.var
      · exact trans_ne_none _
    · obtain rfl | rfl := hps
      · exact hunl
      · rw [trans_cookieState hc.var]
        exact hunl

theorem parsePart_wait (h : c.parsePart cfg = (.wait, c')) :
    ∃ s w t, parseKeyOrVal cfg c.pstate c.uriMode c.word c.tape = (.wait, s, w, t) ∧
      c' = { c with word := w, tape := t } := by
  rcases hp : parseKeyOrVal cfg c.pstate c.uriMode c.word c.tape with ⟨rc₀, s, w, t⟩
  have hpart : processParsedKeyOrVal rc₀ s { c with word := w, tape := t } = (.wait, c') := by
    simpa [parsePart, hp] using h
  obtain rfl : rc₀ = .wait := (process_code hpart).1.1 rfl
  cases hpart
  exact ⟨s, w, t, rfl, rfl⟩

theorem driver_reenter (hc : c.Inv) (h : c.parsePart cfg = (.wait, c'))
    (hspcs : c.pstate = .ckey → c.word.text = [] → c.spcs = 0)
    (hx : c'.word.inhex = true → (scan Tape.device hexScanner c'.word c'.rest).1 = some .ok)
    (hb : c'.pstate = .ckey → c'.word.text = [] →
      c'.rest.get.1 ≠ .byte Byte.sp ∧ c'.rest.get.1 ≠ .byte Byte.ht) :
    ((machine cfg).resume c').unwait.parseGutsDriver cfg = c.unwait.parsePart cfg := by
  obtain ⟨s, w, t, hp, rfl⟩ := parsePart_wait h
  obtain ⟨hslept, hgrow, hroom⟩ := parseKeyOrVal_slept hc.ready hp
  have hm := parseKeyOrVal_wait hc.ready hp hx
  -- what the parser makes of the rest, wherever the blanks are skipped
  have key (u : Tape) (hu : Tape.device.get u = Tape.device.get t.canRead.unwait) :
      parsePart cfg { c with word := w, tape := u } = parsePart cfg c.unwait := by
    simp only [parsePart, unwait, hm, parseKeyOrVal_congr hroom hu]
  by_cases hk : c.pstate = .ckey ∧ w.text = []
  · have htext : c.word.text = [] := by
      by_contra hne
      exact hgrow.text hne hk.2
    rcases hget : t.canRead.unwait.get with ⟨ch, u⟩
    have hch : ch ≠ .wait := by
      have := Tape.get_unwait_ne_wait hslept.ready
      rwa [hget] at this
    have hblank : ∀ b, ch = .byte b → Byte.isHws b = false := by
      rintro b rfl
      have := hb hk.1 hk.2
      simp only [rest, hget, ne_eq, Ch.byte.injEq] at this
      simp [Byte.isHws, this]
    obtain ⟨hs, hg⟩ := Tape.skipHws_nothing (k := c.spcs) hget hch hslept.lim hblank
    have hpass :=
      stillWaiting_skip (c := ((machine cfg).resume { c with word := w, tape := t }).unwait)
      hk hs
    rw [driver_passed hpass]
    have h0 := hspcs hk.1 htext
    refine Eq.trans ?_ (key u.unget hg)
    simp [h0, machine, unwait]
  · have hpass := stillWaiting_pass
      (c := ((machine cfg).resume { c with word := w, tape := t }).unwait) hk
    rw [driver_passed hpass]
    exact key _ rfl

/-- What is left to do: the input, and a word that is not finished. -/
def todo (c : Cgi) : Nat :=
  2 * c.tape.left + if c.word.inhex = true ∨ c.word.text ≠ [] then 1 else 0

theorem todo_bounds (c : Cgi) : 2 * c.tape.left ≤ c.todo ∧ c.todo ≤ 2 * c.tape.left + 1 := by
  unfold todo
  split <;> omega

theorem step_next (hc : c.Inv) (h : (machine cfg).step c = .next c') :
    (machine cfg).step c.unwait = .next c'.unwait ∧ c'.Inv ∧ c'.tape.waits ≤ c.tape.waits ∧
      c'.todo < c.todo := by
  rcases hp : c.parseStillWaiting with ⟨_ | _, c₁⟩
  · obtain ⟨hm, hpass⟩ := stillWaiting_keep hc hp
    obtain ⟨k, t, rfl⟩ := hpass.eq
    rw [step_passed hp] at h
    obtain ⟨he, hw, rfl⟩ := outcome_next h
    obtain ⟨hkeep, hwaits, hnext⟩ := parsePart_keep hpass.inv (Prod.eta _).symm hw
    obtain ⟨hinv, htext, hinhex, hleft⟩ := hnext he
    refine ⟨?_, hinv, Nat.le_trans hwaits hpass.waits, ?_⟩
    · rw [step_passed hm, hkeep]
      revert h he hw
      generalize parsePart cfg { c with spcs := k, tape := t } = x
      obtain ⟨rc, c'⟩ := x
      intro h he hw
      cases rc <;> simp_all [outcome]
    · have hl := hpass.left
      have htodo : (parsePart cfg { c with spcs := k, tape := t }).2.todo =
          2 * (parsePart cfg { c with spcs := k, tape := t }).2.tape.left := by
        simp [todo, htext, hinhex]
      rw [htodo]
      obtain hlt | ⟨hi, hle⟩ := hleft
      · have := c.todo_bounds
        omega
      · have hi : c.word.inhex = true := hi
        have : c.todo = 2 * c.tape.left + 1 := by simp [todo, hi]
        omega
  · rw [step_waiting hp] at h
    cases h

theorem step_stop {o : PairTab} (hc : c.Inv) (h : (machine cfg).step c = .stop o) :
    (machine cfg).step c.unwait = .stop o := by
  rcases hp : c.parseStillWaiting with ⟨_ | _, c₁⟩
  · obtain ⟨hm, hpass⟩ := stillWaiting_keep hc hp
    rw [step_passed hp] at h
    obtain ⟨he, ho⟩ := outcome_stop h
    obtain ⟨hkeep, -, -⟩ :=
      parsePart_keep hpass.inv (Prod.eta (c₁.parsePart cfg)).symm (by simp [he])
    rw [step_passed hm, hkeep, he]
    exact congrArg Iter.stop ho
  · rw [step_waiting hp] at h
    cases h

theorem driver_keep {rc : Stat} (hc : c.Inv) (h : c.parseGutsDriver cfg = (rc, c'))
    (hrc : rc ≠ .wait) : c.unwait.parseGutsDriver cfg = (rc, c'.unwait) := by
  rcases hp : c.parseStillWaiting with ⟨_ | _, c₁⟩
  · obtain ⟨hm, hpass⟩ := stillWaiting_keep hc hp
    rw [driver_passed hp] at h
    rw [driver_passed hm]
    exact (parsePart_keep hpass.inv h hrc).1
  · rw [driver_waiting hp] at h
    cases h
    exact absurd rfl hrc

theorem driver_wait (hc : c.Inv) (h : c.parseGutsDriver cfg = (.wait, c')) :
    ((machine cfg).resume c').Inv ∧ c.tape.Slept c'.tape ∧
      (Harmless c c' → c.unwait.parseGutsDriver cfg =
        ((machine cfg).resume c').unwait.parseGutsDriver cfg) := by
  rcases hp : c.parseStillWaiting with ⟨_ | _, c₁⟩
  · obtain ⟨hm, hpass⟩ := stillWaiting_keep hc hp
    obtain ⟨k, t, heq⟩ := hpass.eq
    rw [driver_passed hp] at h
    obtain ⟨s, w, u, hk, rfl⟩ := parsePart_wait h
    obtain ⟨hslept, hgrow, hroom⟩ := parseKeyOrVal_slept hpass.inv.ready hk
    refine ⟨⟨hslept.ready, Nat.lt_of_lt_of_le hpass.inv.cap hgrow.cap, hroom, hpass.inv.var, ?_⟩,
      hslept.of_le hpass.waits hpass.left, fun hP => ?_⟩
    · intro hck
      have hu := parseKeyOrVal_unlimited cfg c₁.pstate c₁.uriMode
        (w := c₁.word) (hpass.inv.cookie hck)
      rw [hk] at hu
      exact ⟨hu.1, hu.2⟩
    · obtain ⟨hx, hb⟩ := hP (by rw [hp])
      have hspcs : c₁.pstate = .ckey → c₁.word.text = [] → c₁.spcs = 0 := by
        subst heq
        exact hpass.spcs
      rw [driver_passed hm, driver_reenter hpass.inv h hspcs hx hb]
  · obtain ⟨hm, hslept, hinv⟩ := stillWaiting_wait cfg hc hp
    rw [driver_waiting hp] at h
    cases h
    refine ⟨hinv, hslept, fun _ => ?_⟩
    simp only [parseGutsDriver] at hm ⊢
    rw [hm]

theorem step_wait (hc : c.Inv) (h : (machine cfg).step c = .wait c') :
    ((machine cfg).resume c').Inv ∧ c.tape.Slept c'.tape ∧
      (Harmless c c' → (machine cfg).step c.unwait =
        (machine cfg).step ((machine cfg).resume c').unwait) := by
  obtain ⟨hinv, hslept, hre⟩ := driver_wait hc (outcome_wait h)
  exact ⟨hinv, hslept, fun hP => congrArg outcome (hre hP)⟩

theorem merge (cfg : CgiConfig) :
    Machine.Merge (machine cfg) unwait Eq Inv Harmless (fun c => c.tape.waits) where
  trans _ _ _ h h' := h.trans h'
  congr h := h ▸ Iter.Rel.refl (fun _ => rfl) _
  inv_next hc h := (step_next hc h).2.1
  inv_wait hc h := (step_wait hc h).1
  waits_next hc h := (step_next hc h).2.2.1
  waits_wait hc h := (step_wait hc h).2.1.waits
  next hc h := (step_next hc h).1 ▸ Iter.Rel.refl (fun _ => rfl) _
  stop hc h := step_stop hc h
  wait hc h hP := (step_wait hc h).2.2 hP ▸ Iter.Rel.refl (fun _ => rfl) _

theorem ends (cfg : CgiConfig) (hc : c.Inv) : ∃ tab, (machine cfg).Ends c tab := by
  refine Machine.ends_of_measure (I := Inv) todo ?_ ?_ hc
  · exact fun hu h => ⟨(step_next hu h).2.1, (step_next hu h).2.2.2⟩
  · intro u u' hu h
    obtain ⟨hinv, hslept, -⟩ := step_wait hu h
    refine ⟨hinv, ?_⟩
    have hl : ((machine cfg).resume u').tape.left < u.tape.left := hslept.left
    have := u.todo_bounds
    have := ((machine cfg).resume u').todo_bounds
    omega

end Cgi

/-- Where the parser is used; a POST body is cut off by the limit of the buffer. -/
inductive CgiMode
  | uri
  | post (lim : Int)
  | cookie

namespace Cgi

/-- A fresh parser with a scratch buffer of `cap` bytes and a source that hands out `rs`. -/
def start (mode : CgiMode) (cap : Nat) (rs : List Str) : Cgi where
  pstate := match mode with
    | .cookie => .ckey
    | _ => .key
  uriMode := match mode with
    | .uri => true
    | _ => false
  word := { cap := cap }
  tape := ({ src := rs, lim := match mode with | .post lim => lim | _ => -1 } : Abuf).toTape

theorem start_inv (mode : CgiMode) {cap : Nat} (hcap : 0 < cap) (rs : List Str) :
    (start mode cap rs).Inv where
  ready := ⟨.inl rfl, by simp [start, Abuf.toTape]⟩
  cap := hcap
  room _ := by simp [start, Word.full]; omega
  var := by cases mode <;> simp [start]
  cookie h := by
    cases mode <;> simp [start, CgiVar.cookieState] at h
    exact ⟨by simp [start, Abuf.toTape], by simp [start, Abuf.toTape]⟩

theorem start_unwait (mode : CgiMode) (cap : Nat) (rs : List Str) :
    (start mode cap rs).unwait = start mode cap (Abuf.whole rs.flatten) := by
  simp only [start, unwait, Abuf.toTape_unwait]

/-- If no suspension is harmful, the table does not depend on how the input was cut up. -/
theorem ends_whole (cfg : CgiConfig) (mode : CgiMode) (cap : Nat) (hcap : 0 < cap) (rs : List Str)
    (h : (machine cfg).Suspends Harmless (start mode cap rs)) :
    ∃ tab, (machine cfg).Ends (start mode cap rs) tab ∧
      (machine cfg).Ends (start mode cap (Abuf.whole rs.flatten)) tab := by
  obtain ⟨tab, htab⟩ := ends cfg (start_inv mode hcap rs)
  refine ⟨tab, htab, ?_⟩
  rw [← start_unwait]
  exact ((merge cfg).ends_iff (fun _ => rfl) (start_inv mode hcap rs) h).1 htab

/-- Cuts in a key, in an escape, in front of a blank that belongs to a value. -/
theorem ends_whole_cuts :
    ∃ tab, (machine ⟨64, id⟩).Ends (start .cookie 8
        [[32, 97], [], [61, 37, 52], [], [49, 43], [], [32, 98, 59], [], [], [32, 99, 13, 10]])
          tab ∧
      (machine ⟨64, id⟩).Ends (start .cookie 8
        [[32, 97, 61, 37, 52, 49, 43, 32, 98, 59, 32, 99, 13, 10]]) tab :=
  ends_whole ⟨64, id⟩ .cookie 8 (by decide)
    [[32, 97], [], [61, 37, 52], [], [49, 43], [], [32, 98, 59], [], [], [32, 99, 13, 10]]
    (Machine.suspends_of_check (n := 20) (by decide +kernel))

/-- A cut behind a carriage return in front of a cookie swallows the blank that follows, and
one inside an escape that the input does not finish loses the value. -/
theorem ends_differ :
    (¬ ∃ tab, (machine ⟨64, id⟩).Ends (start .cookie 8 [[13], [], [32, 97, 61, 98, 10]]) tab ∧
      (machine ⟨64, id⟩).Ends (start .cookie 8 [[13, 32, 97, 61, 98, 10]]) tab) ∧
    ¬ ∃ tab, (machine ⟨64, id⟩).Ends (start (.post (-1)) 8 [[97, 61, 98, 37], [], [52]]) tab ∧
      (machine ⟨64, id⟩).Ends (start (.post (-1)) 8 [[97, 61, 98, 37, 52]]) tab := by
  constructor
  · exact Machine.not_ends_of_runs (n := 9) (by decide +kernel) (by decide +kernel)
      (by decide +kernel)
  · exact Machine.not_ends_of_runs (n := 9) (by decide +kernel) (by decide +kernel)
      (by decide +kernel)

end Cgi

end Okws
