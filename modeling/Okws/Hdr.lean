import Okws.Reader

namespace Okws

open Lib

/-- The scratch buffer: what stands before `pcp`, and its length. -/
structure Scratch where
  text : Str := []
  cap : Nat
  deriving DecidableEq

/-- What a character means to one of the `delimit` functions. -/
inductive Mark
  | put (c : UInt8)
  | stop (gobble : Bool)
  | fail (gobble : Bool)

/-- The common loop of the `delimit` functions; with `word`, the end of the input ends the word. -/
def delimScanner (mark : UInt8 → Mark) (word : Bool) : Scanner UInt8 Scratch (Except Stat Str) where
  guard s := if s.cap ≤ s.text.length then some (.error .overflow) else none
  byte s b := match mark b with
    | .put c => .next { s with text := s.text ++ [c] }
    | .stop true => .done (.ok s.text) { s with text := [] }
    | .stop false => .back (.ok s.text) { s with text := [] }
    | .fail true => .done (.error .parseErr) s
    | .fail false => .back (.error .parseErr) s
  eof s :=
    if word ∧ s.text ≠ [] then .back (.ok s.text) { s with text := [] } else .done (.error .eof) s

def delimitWord (qms : Bool) : Scanner UInt8 Scratch (Except Stat Str) :=
  delimScanner (fun b =>
    if b = 63 then (if qms then .stop false else .put b)
    else if Byte.isHws b || Byte.isEol b then .stop false
    else .put b) true

def delimitKey : Scanner UInt8 Scratch (Except Stat Str) :=
  delimScanner (fun b =>
    if b = 58 then .stop true
    else if Byte.isHws b || Byte.isEol b then .fail true
    else .put (Byte.toLower b)) false

def delimitVal : Scanner UInt8 Scratch (Except Stat Str) :=
  delimScanner (fun b => if Byte.isEol b then .stop false else .put b) false

def delimit (stopchar : UInt8) (tol gobble : Bool) : Scanner UInt8 Scratch (Except Stat Str) :=
  delimScanner (fun b =>
    if b = stopchar then .stop gobble
    else if Byte.isEol b then .fail false
    else .put (if tol then Byte.toLower b else b)) false

def eol : Scanner UInt8 Unit Stat where
  guard _ := none
  byte _ b := .back (if Byte.isEol b then .ok else .nomatch) ()
  eof _ := .back .nomatch ()

/-- The variable is `CRLF_need_LF`. -/
def gobbleCrlf : Scanner UInt8 Bool Stat where
  guard _ := none
  byte need b :=
    if b = Byte.lf then .done .ok false
    else if b = Byte.cr then (if need then .done .parseErr false else .next true)
    else .back (if need then .parseErr else .nomatch) false
  eof need := .done .eof need

/-- `expectchar`, as a loop of one round. -/
def expectScanner (c : UInt8) : Scanner UInt8 Unit Stat where
  guard _ := none
  byte _ b := if b = c then .done .ok () else .back .nomatch ()
  eof _ := .back .eof ()

/-- What `require_crlf` makes of the result of `gobble_crlf`. -/
def requireCrlf (r : Stat) : Stat := if r = .nomatch then .parseErr else r

section Lines

variable {t t' : Tape}

theorem scan_eol_byte {b : UInt8} (h : t.get = (.byte b, t')) :
    scan Tape.device eol () t = (some (if Byte.isEol b then .ok else .nomatch), (), t'.unget) := by
  rw [scan_exit (D := Tape.device) (S := eol) rfl h rfl]
  rfl

theorem scan_eol_eof (h : t.get = (.eof, t')) :
    scan Tape.device eol () t = (some .nomatch, (), t'.unget) := scan_eof (S := eol) rfl h

theorem scan_eol_wait {s : Unit} (h : scan Tape.device eol () t = (none, s, t')) :
    t.get = (.wait, t') := by
  rcases hg : t.get with ⟨_ | _ | _, u⟩
  · rw [scan_eol_byte hg] at h
    cases h
  · rw [scan_eol_eof hg] at h
    cases h
  · rw [scan_wait (S := eol) rfl hg] at h
    cases h
    rfl

/-- `gobble_crlf` that finds something else has read one character and pushed it back. -/
theorem scan_gobble_nomatch {need need' : Bool}
    (h : scan Tape.device gobbleCrlf need t = (some .nomatch, need', t')) :
    need = false ∧ need' = false ∧
      ∃ b u, t.get = (.byte b, u) ∧ Byte.isEol b = false ∧ t' = u.unget := by
  obtain ⟨r, hg, -⟩ | ⟨-, b, u, x, hd, hb, hr⟩ | ⟨-, b, u, x, hd, hb, hr⟩ | ⟨-, u, hd, hr⟩ |
    ⟨-, u, hd, hr⟩ := scan_cases Tape.device gobbleCrlf need t
  · cases hg
  · -- behind a carriage return nothing is pushed back without an error
    exfalso
    rw [hr] at h
    obtain rfl : x = true := by
      simp only [gobbleCrlf] at hb
      repeat' split at hb
      all_goals cases hb
      rfl
    obtain ⟨r, hg, -⟩ | ⟨-, b, u, x, -, hb, -⟩ | ⟨-, b, u, x, -, hb, hr⟩ | ⟨-, u, -, hr⟩ |
      ⟨-, u, -, hr⟩ := scan_cases Tape.device gobbleCrlf true u
    · cases hg
    · simp only [gobbleCrlf, if_true] at hb
      repeat' split at hb
      all_goals cases hb
    · rw [hr] at h
      simp only [gobbleCrlf, if_true] at hb
      repeat' split at hb
      all_goals cases hb; cases h
    · rw [hr] at h
      cases h
    · rw [hr] at h
      cases h
  · rw [hr] at h
    simp only [gobbleCrlf] at hb
    split at hb
    · cases hb
      cases h
    · next hlf =>
      split at hb
      · split at hb <;> cases hb
        cases h
      · next hcr =>
        cases hb
        cases need with
        | true => cases h
        | false =>
          cases h
          exact ⟨rfl, rfl, b, u, hd, by simp [Byte.isEol, hlf, hcr], rfl⟩
  · rw [hr] at h
    cases h
  · rw [hr] at h
    cases h

theorem scan_gobble_other {b : UInt8} (h : t.get = (.byte b, t')) (hb : Byte.isEol b = false) :
    scan Tape.device gobbleCrlf false t = (some .nomatch, false, t'.unget) := by
  simp only [Byte.isEol, Bool.or_eq_false_iff, beq_eq_false_iff_ne] at hb
  rw [scan_exit (D := Tape.device) (e := .back .nomatch false) rfl h (by simp [gobbleCrlf, hb])]
  rfl

theorem scan_gobble_eof {need : Bool} (h : t.get = (.eof, t')) :
    scan Tape.device gobbleCrlf need t = (some .eof, need, t') := scan_eof (S := gobbleCrlf) rfl h

theorem scan_gobble_left {need need' : Bool}
    (h : scan Tape.device gobbleCrlf need t = (some .ok, need', t')) : t'.left < t.left := by
  refine Tape.scan_left_lt (fun _ => by simp [gobbleCrlf]) (fun need b _ hb => ?_)
    (fun _ _ => by simp [gobbleCrlf]) h
  simp only [gobbleCrlf] at hb
  repeat' split at hb
  all_goals cases hb

theorem scan_hws_wait {mn k k' : Nat}
    (h : scan Tape.device (skipHwsScanner mn) k t = (none, k', t')) : t.get.1 = .wait ∨ 0 < k' := by
  obtain ⟨r, hg, -⟩ | ⟨-, b, u, x, hd, hb, hr⟩ | ⟨-, b, u, x, hd, hb, hr⟩ | ⟨-, u, -, hr⟩ |
    ⟨-, u, hd, hr⟩ := scan_cases Tape.device (skipHwsScanner mn) k t
  · cases hg
  · rw [hr] at h
    refine .inr (scan_wait_invariant (I := fun k : Nat => 0 < k) ?_ ?_ h)
    · intro s b s' _ hb
      simp only [skipHwsScanner] at hb
      split at hb <;> cases hb
      omega
    · simp only [skipHwsScanner] at hb
      split at hb <;> cases hb
      omega
  · rw [hr] at h
    cases x <;> cases h
  · rw [hr] at h
    cases h
  · exact .inl (by rw [show t.get = _ from hd])

theorem scan_hws_count {mn k m k' : Nat} {o : Option Stat} (hk : mn ≤ k) (hm : mn ≤ m)
    (h : scan Tape.device (skipHwsScanner mn) k t = (o, k', t')) :
    ∃ m', scan Tape.device (skipHwsScanner mn) m t = (o, m', t') := by
  induction t using scan_induction (D := Tape.device) generalizing k m with
  | _ t ih =>
  rcases hg : Tape.device.get t with ⟨c, u⟩
  cases c with
  | byte b =>
    cases hb : Byte.isHws b with
    | true =>
      have hnext (k : Nat) : (skipHwsScanner mn).byte k b = .next (k + 1) := by
        simp [skipHwsScanner, hb]
      rw [scan_next rfl hg (hnext k)] at h
      obtain ⟨m', hm'⟩ := ih b u hg (Nat.le_succ_of_le hk) (Nat.le_succ_of_le hm) h
      exact ⟨m', (scan_next rfl hg (hnext m)).trans hm'⟩
    | false =>
      have hexit {k : Nat} (hk : mn ≤ k) : (skipHwsScanner mn).byte k b = .back .ok 0 := by
        simp [skipHwsScanner, hb, Nat.not_lt.2 hk]
      rw [scan_exit rfl hg (hexit hk)] at h
      exact ⟨k', (scan_exit rfl hg (hexit hm)).trans h⟩
  | eof =>
    have heof {k : Nat} (hk : mn ≤ k) : (skipHwsScanner mn).eof k = .back .ok 0 := by
      simp [skipHwsScanner, Nat.not_lt.2 hk]
    rw [scan_eof rfl hg, heof hk] at h
    exact ⟨k', by rw [scan_eof rfl hg, heof hm]; exact h⟩
  | wait =>
    rw [scan_wait (S := skipHwsScanner mn) rfl hg] at h
    cases h
    exact ⟨m, scan_wait rfl hg⟩

end Lines

section Delim

variable {mark : UInt8 → Mark} {word : Bool} {s s' : Scratch} {t t' : Tape}

theorem delim_guard (h : (delimScanner mark word).guard s = none) : s.text.length < s.cap := by
  simp only [delimScanner] at h
  split at h
  · cases h
  · omega

theorem delim_next {b : UInt8} (h : (delimScanner mark word).byte s b = .next s') :
    ∃ c, mark b = .put c ∧ s' = { s with text := s.text ++ [c] } := by
  simp only [delimScanner] at h
  split at h <;> cases h
  exact ⟨_, ‹_›, rfl⟩

theorem delim_wait (h : scan Tape.device (delimScanner mark word) s t = (none, s', t')) :
    (t.get = (.wait, t') ∧ s' = s) ∨ (s'.text ≠ [] ∧ t.get.1 ≠ .wait) := by
  obtain ⟨r, _, hr⟩ | ⟨_, b, u, x, hd, hb, hr⟩ | ⟨_, b, u, x, hd, hb, hr⟩ | ⟨_, u, hd, hr⟩ |
    ⟨_, u, hd, hr⟩ := scan_cases Tape.device (delimScanner mark word) s t <;> rw [hr] at h
  · cases h
  · obtain ⟨c, -, rfl⟩ := delim_next hb
    refine .inr ⟨?_, by simp [show t.get = _ from hd]⟩
    refine scan_wait_invariant (I := fun x : Scratch => x.text ≠ []) ?_ (by simp) h
    intro x b x' _ hb
    obtain ⟨c, -, rfl⟩ := delim_next hb
    simp
  · cases x <;> cases h
  · cases hx : (delimScanner mark word).eof s <;> rw [hx] at h <;> cases h
  · cases h
    exact .inl ⟨hd, rfl⟩

def Inside (t : Tape) : Prop := t.get.1 ≠ .byte Byte.cr ∧ t.get.1 ≠ .byte Byte.lf

instance (t : Tape) : Decidable (Inside t) := inferInstanceAs (Decidable (_ ∧ _))

theorem inside_byte {b : UInt8} (h : Inside t) (hg : t.get = (.byte b, t')) :
    Byte.isEol b = false := by
  simp only [Inside, hg, ne_eq, Ch.byte.injEq] at h
  simp [Byte.isEol, h]

/-- A key that is suspended behind its first character: when `gobble_crlf` is called again, it
finds nothing. -/
theorem scan_key_reenter {need need' : Bool} {t₁ : Tape} (ht : t.Ready)
    (h : scan Tape.device gobbleCrlf need t = (some .nomatch, need', t₁))
    (h' : scan Tape.device delimitKey s t₁ = (none, s', t'))
    (hq : s'.text = [] ∨ Inside t'.canRead.unwait) :
    need = false ∧ need' = false ∧
    ((∃ u, scan Tape.device gobbleCrlf false t'.canRead.unwait = (some .nomatch, false, u) ∧
        scan Tape.device delimitKey s' u = scan Tape.device delimitKey s' t'.canRead.unwait) ∨
      ∃ u, scan Tape.device gobbleCrlf false t'.canRead.unwait = (some .eof, false, u) ∧
        scan Tape.device delimitKey s' t'.canRead.unwait = (some (.error .eof), s', u)) := by
  obtain ⟨rfl, rfl, b, u, hg, -, rfl⟩ := scan_gobble_nomatch h
  have hget : u.unget.get = (.byte b, u) := Tape.get_unget hg (by simp) (.inl (by simp))
  have htext : s'.text ≠ [] := by
    obtain ⟨hw, -⟩ | ⟨hne, -⟩ := delim_wait h'
    · cases hget.symm.trans hw
    · exact hne
  have hin := hq.resolve_left htext
  have hguard : delimitKey.guard s' = none := scan_wait_guard h'
  have hready : t'.canRead.Ready :=
    (Tape.scan_slept (Tape.ready_unget (Tape.get_keep ht hg (by simp)).2) h').ready
  refine ⟨rfl, rfl, ?_⟩
  rcases hr : t'.canRead.unwait.get with ⟨c, e⟩
  cases c with
  | byte b =>
    refine .inl ⟨e.unget, scan_gobble_other hr (inside_byte hin hr), Merging.scan_congr hguard ?_⟩
    exact (Tape.get_unget hr (by simp) (.inl (by simp))).trans hr.symm
  | eof => exact .inr ⟨e, scan_gobble_eof hr, scan_eof (S := delimitKey) hguard hr⟩
  | wait => exact absurd (by rw [hr]) (Tape.get_unwait_ne_wait hready)

end Delim

end Okws
