import Okws.MpfdFrag

namespace Okws

open Lib

namespace Tape

variable {t t' : Tape}

theorem get_bc_false {c : Ch UInt8} (h : t.get = (c, t')) : t'.bc = false := by
  unfold get at h
  split at h
  · cases h
    rfl
  · next hbc =>
    have hbc : t.bc = false := by simpa using hbc
    split at h
    · cases h
      exact hbc
    · split at h <;> cases h <;> exact hbc

theorem get_byte_mir {b : UInt8} (hbc : t.bc = false) (h : t.get = (.byte b, t')) :
    t'.mir = t.mir.map (·.put b) := by
  simp only [get, hbc, Bool.false_eq_true, if_false] at h
  split at h
  · cases h
  · split at h <;> cases h
    rfl

theorem get_wait_mir (hbc : t.bc = false) (h : t.get = (.wait, t')) : t'.mir = t.mir := by
  simp only [get, hbc, Bool.false_eq_true, if_false] at h
  split at h
  · cases h
  · split at h <;> cases h <;> rfl

theorem scan_bc_false {σ ρ : Type} {S : Scanner UInt8 σ ρ} {s s' : σ} {r : ρ}
    (hg : ∀ s, S.guard s ≠ some r) (hb : ∀ s b s', S.byte s b ≠ .back r s')
    (he : ∀ s s', S.eof s ≠ .back r s') (h : scan device S s t = (some r, s', t')) :
    t'.bc = false := by
  induction t using scan_induction (D := device) generalizing s with
  | _ t ih =>
  obtain ⟨r₀, hr₀, hr⟩ | ⟨_, b, e, x, hd, _, hr⟩ | ⟨_, b, e, x, hd, hx, hr⟩ | ⟨_, e, hd, hr⟩ |
    ⟨_, e, hd, hr⟩ := scan_cases device S s t <;> rw [hr] at h
  · cases h
    exact absurd hr₀ (hg _)
  · exact ih b e hd h
  · cases x <;> cases h
    · exact get_bc_false hd
    · exact absurd hx (hb _ _ _)
  · cases hx : S.eof s <;> rw [hx] at h <;> cases h
    · exact get_bc_false hd
    · exact absurd hx (he _ _)
  · cases h

end Tape

/-- The word does not fit in the buffer: `a` begins with too many characters that satisfy `p`. -/
def Scratch.Overflows (s : Scratch) (p : UInt8 → Bool) (a : Str) : Prop :=
  s.cap ≤ s.text.length + (a.takeWhile p).length

instance (s : Scratch) (p : UInt8 → Bool) (a : Str) : Decidable (s.Overflows p a) :=
  inferInstanceAs (Decidable (_ ≤ _))

def Mark.isPut : Mark → Bool
  | .put _ => true
  | _ => false

section Overflow

variable {mark : UInt8 → Mark} {word : Bool} {s s' : Scratch} {t t' : Tape}
  {x : Option (Except Stat Str)}

theorem scratch_overflows_cons {p : UInt8 → Bool} {b c : UInt8} {a : Str} (h : p b = true) :
    s.Overflows p (b :: a) ↔ ({ s with text := s.text ++ [c] } : Scratch).Overflows p a := by
  simp only [Scratch.Overflows, List.takeWhile_cons, h, if_true, List.length_cons,
    List.length_append, List.length_nil]
  omega

theorem delim_put {b c : UInt8} (h : mark b = .put c) :
    (delimScanner mark word).byte s b = .next { s with text := s.text ++ [c] } := by
  simp [delimScanner, h]

variable (word) in
theorem delim_exit {b : UInt8} (h : (mark b).isPut = false) :
    ∃ e, (delimScanner mark word).byte s b = .exit e ∧
      ∀ t, (e.apply Tape.device t).1 ≠ some (.error .overflow) := by
  simp only [delimScanner]
  split
  · next hm => simp [hm, Mark.isPut] at h
  all_goals exact ⟨_, rfl, fun _ => by simp [Exit.apply]⟩

theorem delim_overflow {p : UInt8 → Bool} (hp : ∀ b, (mark b).isPut = p b)
    (h : scan Tape.device (delimScanner mark word) s t = (x, s', t')) :
    x = some (.error .overflow) ↔ s.Overflows p t.ahead := by
  induction t using scan_induction (D := Tape.device) generalizing s with
  | _ t ih =>
  obtain ⟨r, hg, hr⟩ | ⟨hg, b, u, y, hd, hb, hr⟩ | ⟨hg, b, u, y, hd, hb, hr⟩ | ⟨hg, u, hd, hr⟩ |
    ⟨hg, u, hd, hr⟩ := scan_cases Tape.device (delimScanner mark word) s t <;> rw [hr] at h
  · cases h
    simp only [delimScanner] at hg
    split at hg <;> cases hg
    next hle => exact iff_of_true rfl (Nat.le_trans hle (Nat.le_add_right _ _))
  · obtain ⟨c, hm, rfl⟩ := delim_next hb
    rw [Tape.ahead_byte hd, scratch_overflows_cons (c := c) (by rw [← hp, hm]; rfl)]
    exact ih b u hd h
  · have hput : (mark b).isPut = false := by
      cases hm : mark b with
      | put c => simp [delim_put hm] at hb
      | stop | fail => rfl
    obtain ⟨e, he, hne⟩ := delim_exit word (s := s) hput
    cases hb.symm.trans he
    have hlt := delim_guard hg
    rw [Tape.ahead_byte hd]
    refine iff_of_false ?_ ?_
    · have := hne u
      rwa [h] at this
    · simp only [Scratch.Overflows, List.takeWhile_cons, ← hp, hput, Bool.false_eq_true, if_false,
        List.length_nil]
      omega
  · have hlt := delim_guard hg
    rw [Tape.ahead_nil hd (by rintro _ ⟨⟩)]
    refine iff_of_false ?_
      (by simp only [Scratch.Overflows, List.takeWhile_nil, List.length_nil]; omega)
    simp only [delimScanner] at h
    split at h <;> cases h <;> simp
  · have hlt := delim_guard hg
    cases h
    rw [Tape.ahead_nil hd (by rintro _ ⟨⟩)]
    exact iff_of_false (by rintro ⟨⟩)
      (by simp only [Scratch.Overflows, List.takeWhile_nil, List.length_nil]; omega)

end Overflow

section Delim

variable {mark : UInt8 → Mark} {s s' : Scratch} {t t' : Tape}

theorem delim_error {word : Bool} {e : Stat}
    (h : scan Tape.device (delimScanner mark word) s t = (some (.error e), s', t')) :
    e = .overflow ∨ e = .parseErr ∨ e = .eof := by
  have hR := scan_answer (S := delimScanner mark word)
    (R := fun r : Except Stat Str => ∀ e, r = .error e → e = .overflow ∨ e = .parseErr ∨ e = .eof)
    (fun {s r} hg => ?_) (fun {s b r s'} hb => ?_) (fun {s r s'} he => ?_) h
  · exact hR e rfl
  · simp only [delimScanner] at hg
    split at hg <;> cases hg
    rintro e ⟨⟩
    simp
  · simp only [delimScanner] at hb
    split at hb <;> simp at hb <;> obtain ⟨rfl, -⟩ := hb <;> simp
  · simp only [delimScanner] at he
    split at he <;> simp at he <;> obtain ⟨rfl, -⟩ := he <;> simp

theorem delim_left {z : Str}
    (h : scan Tape.device (delimScanner mark false) s t = (some (.ok z), s', t')) :
      t'.left ≤ t.left :=
  Tape.scan_left_le (fun _ _ => by simp [delimScanner]) h

theorem delim_left_lt {z : Str} (hm : ∀ b, mark b ≠ .stop false)
    (h : scan Tape.device (delimScanner mark false) s t = (some (.ok z), s', t')) :
      t'.left < t.left := by
  refine Tape.scan_left_lt (fun s hg => ?_) (fun s b s' hb => ?_)
    (fun _ _ => by simp [delimScanner]) h
  · simp only [delimScanner] at hg
    split at hg <;> cases hg
  · simp only [delimScanner] at hb
    split at hb <;> cases hb
    next h' => exact hm b h'

end Delim

def isKey (b : UInt8) : Bool := b != 58 && !Byte.isHws b && !Byte.isEol b

/-- The characters in front of `stopchar`. -/
def isWord (stopchar b : UInt8) : Bool := b != stopchar && !Byte.isEol b

theorem scan_gobble_bc {t t' : Tape} {need need' : Bool}
    (h : scan Tape.device gobbleCrlf need t = (some .ok, need', t')) : t'.bc = false := by
  refine Tape.scan_bc_false (fun _ => by simp [gobbleCrlf]) (fun need b _ hb => ?_)
    (fun _ _ => by simp [gobbleCrlf]) h
  simp only [gobbleCrlf] at hb
  repeat' split at hb
  all_goals cases hb

section Words

variable {s s' : Scratch} {t t' : Tape} {x : Option (Except Stat Str)}

theorem delimitKey_overflow (h : scan Tape.device delimitKey s t = (x, s', t')) :
    x = some (.error .overflow) ↔ s.Overflows isKey t.ahead := by
  refine delim_overflow (fun b => ?_) h
  by_cases hc : b = 58
  · simp [hc, isKey, Mark.isPut]
  · cases hb : Byte.isHws b <;> cases he : Byte.isEol b <;> simp [hc, hb, he, isKey, Mark.isPut]

theorem delimitVal_overflow (h : scan Tape.device delimitVal s t = (x, s', t')) :
    x = some (.error .overflow) ↔ s.Overflows (!Byte.isEol ·) t.ahead := by
  refine delim_overflow (fun b => ?_) h
  cases he : Byte.isEol b <;> simp [Mark.isPut]

theorem delimit_overflow {c : UInt8} {tol gobble : Bool}
    (h : scan Tape.device (delimit c tol gobble) s t = (x, s', t')) :
    x = some (.error .overflow) ↔ s.Overflows (isWord c) t.ahead := by
  refine delim_overflow (fun b => ?_) h
  by_cases hc : b = c
  · simp [hc, isWord, Mark.isPut]
  · cases he : Byte.isEol b <;> simp [hc, he, isWord, Mark.isPut]

theorem delimit_cr (h : scan Tape.device (delimit Byte.cr false false) s t = (x, s', t')) :
    (∀ z, x = some (.ok z) ↔ ¬ s.Overflows (isWord Byte.cr) t.ahead ∧
      z = s.text ++ t.ahead.takeWhile (isWord Byte.cr) ∧
      (t.ahead.dropWhile (isWord Byte.cr)).head? = some Byte.cr) ∧
    (x = some (.error .parseErr) ↔ ¬ s.Overflows (isWord Byte.cr) t.ahead ∧
      (t.ahead.dropWhile (isWord Byte.cr)).head? = some Byte.lf) := by
  induction t using scan_induction (D := Tape.device) generalizing s with
  | _ t ih =>
  have hover := delimit_overflow h
  obtain ⟨r, hg, hr⟩ | ⟨hg, b, u, y, hd, hb, hr⟩ | ⟨hg, b, u, y, hd, hb, hr⟩ | ⟨hg, u, hd, hr⟩ |
    ⟨hg, u, hd, hr⟩ := scan_cases Tape.device (delimit Byte.cr false false) s t <;> rw [hr] at h
  · cases h
    simp only [delimit, delimScanner] at hg
    split at hg <;> cases hg
    simp [← hover]
  · obtain ⟨c, hm, rfl⟩ := delim_next hb
    obtain ⟨hword, rfl⟩ : isWord Byte.cr b = true ∧ c = b := by
      split at hm
      · cases hm
      · next hc =>
        split at hm <;> cases hm
        next he => simp [isWord, hc, he]
    rw [Tape.ahead_byte hd, scratch_overflows_cons (c := c) hword]
    simp only [List.takeWhile_cons, List.dropWhile_cons, hword, if_true]
    simpa using ih c u hd h
  · rw [Tape.ahead_byte hd] at hover ⊢
    simp only [delimit, delimScanner] at hb
    by_cases hc : b = Byte.cr
    · subst hc
      have hn : isWord Byte.cr Byte.cr = false := rfl
      simp only [if_true] at hb
      cases hb
      cases h
      simp only [← hover, List.takeWhile_cons, List.dropWhile_cons, hn, Bool.false_eq_true,
        if_false, List.append_nil, List.head?_cons]
      refine ⟨fun z => ?_, ?_⟩
      · simpa using eq_comm
      · simp [Byte.cr, Byte.lf]
    · cases he : Byte.isEol b with
      | false => simp [hc, he] at hb
      | true =>
        have hlf : b = Byte.lf := by
          simp only [Byte.isEol, Bool.or_eq_true, beq_iff_eq] at he
          exact he.resolve_left hc
        subst hlf
        have hn : isWord Byte.cr Byte.lf = false := rfl
        simp only [hc, he, if_true, if_false] at hb
        cases hb
        cases h
        simp only [← hover, List.takeWhile_cons, List.dropWhile_cons, hn, Bool.false_eq_true,
          if_false, List.head?_cons]
        simp [Byte.cr, Byte.lf]
  · rw [Tape.ahead_nil hd (by rintro _ ⟨⟩)] at hover ⊢
    simp only [delimit, delimScanner, Bool.false_eq_true, false_and, if_false] at h
    cases h
    simp
  · rw [Tape.ahead_nil hd (by rintro _ ⟨⟩)] at hover ⊢
    cases h
    simp

end Words

theorem skipWs_ok {t t' : Tape} {u : Unit} {x : Option Stat}
    (h : scan Tape.device skipWsScanner () t = (x, u, t')) :
    x = some .ok ↔ t.ahead.any (!Byte.isSpace ·) = true := by
  induction t using scan_induction (D := Tape.device) with
  | _ t ih =>
  obtain ⟨r, hg, hr⟩ | ⟨hg, b, u, y, hd, hb, hr⟩ | ⟨hg, b, u, y, hd, hb, hr⟩ | ⟨hg, u, hd, hr⟩ |
    ⟨hg, u, hd, hr⟩ := scan_cases Tape.device skipWsScanner () t <;> rw [hr] at h
  · cases hg
  · simp only [skipWsScanner] at hb
    split at hb <;> cases hb
    next hsp =>
      rw [Tape.ahead_byte hd, List.any_cons, hsp, Bool.not_true, Bool.false_or]
      exact ih b u hd h
  · simp only [skipWsScanner] at hb
    split at hb <;> cases hb
    next hsp =>
      cases h
      simp [Tape.ahead_byte hd, hsp]
  · cases h
    simp [Tape.ahead_nil hd nofun]
  · cases h
    simp [Tape.ahead_nil hd nofun]

namespace Kmp

/-- Whether `match` says yes to one of the characters. -/
def finds : Kmp → Str → Bool
  | _, [] => false
  | k, c :: s => k.move c == k.pattern.length || finds { k with q := k.move c } s

variable {k k' : Kmp} {t t' : Tape} {x : Option Stat}

theorem scan_ok (h : scan Tape.device scanner k t = (x, k', t')) :
    x = some .ok ↔ k.finds t.ahead = true := by
  induction t using scan_induction (D := Tape.device) generalizing k with
  | _ t ih =>
  obtain ⟨r, hg, hr⟩ | ⟨hg, b, u, y, hd, hb, hr⟩ | ⟨hg, b, u, y, hd, hb, hr⟩ | ⟨hg, u, hd, hr⟩ |
    ⟨hg, u, hd, hr⟩ := scan_cases Tape.device scanner k t <;> rw [hr] at h
  · cases hg
  · simp only [scanner] at hb
    split at hb <;> cases hb
    next hne =>
      rw [Tape.ahead_byte hd, finds, beq_eq_false_iff_ne.2 hne, Bool.false_or]
      exact ih b u hd h
  · simp only [scanner] at hb
    split at hb <;> cases hb
    next heq =>
      cases h
      simp [Tape.ahead_byte hd, finds, heq]
  · cases h
    simp [Tape.ahead_nil hd nofun, finds]
  · cases h
    simp [Tape.ahead_nil hd nofun, finds]

theorem scan_stat {r : Stat} (h : scan Tape.device scanner k t = (some r, k', t')) :
    r = .ok ∨ r = .eof := by
  refine scan_answer (S := scanner) (R := fun r => r = .ok ∨ r = .eof) (fun hg => by cases hg)
    (fun {s b r s'} hb => ?_)
    (fun {s r s'} he => ?_) h
  · simp only [scanner] at hb
    split at hb <;> simp at hb
    exact .inl hb.1.symm
  · simp only [scanner] at he
    simp at he
    exact .inr he.1.symm

theorem move_le (h : k.q ≤ k.pattern.length) (c : UInt8) : k.move c ≤ k.q + 1 := by
  have htab : Lib.Kmp.Table k.pattern k.pi k.q :=
    fun i hi => Lib.Kmp.prefixTable_spec k.pattern i (by omega)
  have hfall := (Lib.Kmp.fall_spec (T := k.pattern.take k.q) (b := 0) (c := Byte.toLower c) htab
    (Nat.le_refl _) (List.suffix_refl _) fun j hj _ _ => by omega).1
  simp only [move, Lib.Kmp.advance]
  split <;> omega

/-- What has been copied while the pattern was looked for: all that the state rests on, or as much
as there is room for. -/
structure Copied (k : Kmp) (cap : Nat) (t : Tape) : Prop where
  bc : t.bc = false
  q : k.q < k.pattern.length ∨ k.q = 0
  mir : ∃ m, t.mir = some m ∧ m.len = cap ∧ m.text.length ≤ cap ∧
    (k.q ≤ m.text.length ∨ cap ≤ m.text.length)

theorem Copied.put {cap : Nat} {b : UInt8} (h : k.Copied cap t) (hd : t.get = (.byte b, t')) :
    ∃ m, t'.mir = some m ∧ m.len = cap ∧ m.text.length ≤ cap ∧
      (k.move b ≤ m.text.length ∨ cap ≤ m.text.length) := by
  obtain ⟨m, hm, hlen, hle, hq⟩ := h.mir
  have hmove := move_le (k := k) (by have := h.q; omega) b
  refine ⟨m.put b, by rw [Tape.get_byte_mir h.bc hd, hm]; rfl, ?_⟩
  unfold Mirror.put
  split
  · simp only [List.length_append, List.length_singleton]
    omega
  · omega

theorem Copied.scan {cap : Nat} (h : k.Copied cap t)
    (hs : scan Tape.device scanner k t = (x, k', t')) :
    k'.pattern = k.pattern ∧ (x = none → k'.Copied cap t') ∧ (x = some .ok → ∃ m, t'.mir = some m ∧
      m.text.length ≤ cap ∧ (k.pattern.length ≤ m.text.length ∨ cap ≤ m.text.length)) := by
  induction t using scan_induction (D := Tape.device) generalizing k with
  | _ t ih =>
  obtain ⟨r, hg, hr⟩ | ⟨hg, b, u, y, hd, hb, hr⟩ | ⟨hg, b, u, y, hd, hb, hr⟩ | ⟨hg, u, hd, hr⟩ |
    ⟨hg, u, hd, hr⟩ := scan_cases Tape.device scanner k t <;> rw [hr] at hs
  · cases hg
  · have hput := h.put hd
    simp only [scanner] at hb
    split at hb <;> cases hb
    next hne =>
      have hmove := move_le (k := k) (by have := h.q; omega) b
      have hq := h.q
      -- a state at the end of the pattern would have been found
      have hlt : k.move b < k.pattern.length := by
        by_cases hlen : k.pattern.length = 0
        · have hP : k.pattern = [] := List.eq_nil_of_length_eq_zero hlen
          have hq0 : k.q = 0 := by omega
          have hzero : k.move b = 0 := by simp [move, Lib.Kmp.advance, Lib.Kmp.fall, hP, hq0]
          omega
        · omega
      have hcopied : ({ k with q := k.move b } : Kmp).Copied cap u :=
        ⟨Tape.get_bc_false hd, .inl hlt, hput⟩
      have hrest := ih b u hd hcopied hs
      exact hrest
  · obtain ⟨m, hm, -, hle, hput⟩ := h.put hd
    simp only [scanner] at hb
    split at hb <;> cases hb
    next heq =>
      cases hs
      exact ⟨rfl, by rintro ⟨⟩, fun _ => ⟨m, hm, hle, heq ▸ hput⟩⟩
  · cases hs
    exact ⟨rfl, by rintro ⟨⟩, by rintro ⟨⟩⟩
  · cases hs
    obtain ⟨m, hm⟩ := h.mir
    exact ⟨rfl, fun _ =>
      ⟨Tape.get_bc_false hd, h.q, m, by rw [Tape.get_wait_mir h.bc hd]; exact hm.1, hm.2⟩,
      by rintro ⟨⟩⟩

end Kmp

namespace Mpfd

/-- The end of the file's name finds no name: the string to be shortened by a character is empty,
or was never read. -/
def NoFilename (v : Mpfd) (a : Str) : Prop :=
  ((a.dropWhile (isWord Byte.cr)).head? = some Byte.cr ∧
    v.cdp.scr.text ++ a.takeWhile (isWord Byte.cr) = []) ∨
  ((a.dropWhile (isWord Byte.cr)).head? = some Byte.lf ∧ v.cdp.filenameScr.getD [] = [])

instance (v : Mpfd) (a : Str) : Decidable (NoFilename v a) := inferInstanceAs (Decidable (_ ∨ _))

/-- What goes wrong in a round of the inner loop, with the bytes `a` ahead. -/
def DispHazard (v : Mpfd) (a : Str) : ContdispSt → Prop
  | .start => v.cdp.scr.Overflows (isWord 59) a
  | .nameVal => v.cdp.scr.Overflows (isWord 34) a
  | .filenameVal => v.cdp.scr.Overflows (isWord Byte.cr) a ∨ NoFilename v a
  | _ => False

instance (v : Mpfd) (a : Str) : (q : ContdispSt) → Decidable (DispHazard v a q)
  | .start => inferInstanceAs (Decidable (v.cdp.scr.Overflows (isWord 59) a))
  | .nameVal => inferInstanceAs (Decidable (v.cdp.scr.Overflows (isWord 34) a))
  | .filenameVal =>
    inferInstanceAs (Decidable (v.cdp.scr.Overflows (isWord Byte.cr) a ∨ NoFilename v a))
  | .sep1 | .nameKey | .sep2a | .sep2b | .sep2c | .filenameKey | .beyond =>
    inferInstanceAs (Decidable False)

/-- What goes wrong in a round of the outer loop: a key or a value does not fit in the buffer, the
boundary that is about to be found does not, or there is something behind the last boundary. -/
def OuterHazard (v : Mpfd) (a : Str) : MpfdSt → Prop
  | .key => v.needLF = false ∧ a.head?.any (!Byte.isEol ·) = true ∧ v.scr.Overflows isKey a
  | .value => v.kt ≠ .disposition ∧ v.scr.Overflows (!Byte.isEol ·) a
  | .search => v.boundaries ≠ [] ∧ v.scr.cap < v.head.pattern.length ∧ v.arm.head.finds a = true
  | .eof => a.any (!Byte.isSpace ·) = true
  | _ => False

instance (v : Mpfd) (a : Str) : (q : MpfdSt) → Decidable (OuterHazard v a q)
  | .key => inferInstanceAs (Decidable (_ ∧ _ ∧ v.scr.Overflows isKey a))
  | .value => inferInstanceAs (Decidable (_ ∧ v.scr.Overflows (!Byte.isEol ·) a))
  | .search => inferInstanceAs (Decidable (_ ∧ _ ∧ _))
  | .eof => inferInstanceAs (Decidable (_ = _))
  | .start | .eol0 | .spc | .eol1a | .eol1b | .search2 | .search3 | .beyond =>
    inferInstanceAs (Decidable False)

def Hazard (w : Mpfd × Tape) : Prop :=
  if w.1.ext = true then DispHazard w.1 w.2.ahead w.1.cdp.state
  else OuterHazard w.1 w.2.ahead w.1.state

instance (w : Mpfd × Tape) : Decidable (Hazard w) :=
  inferInstanceAs (Decidable (ite (w.1.ext = true) (DispHazard w.1 w.2.ahead w.1.cdp.state)
    (OuterHazard w.1 w.2.ahead w.1.state)))

variable {cfg : MpfdConfig} {v v' : Mpfd} {t t' : Tape} {r : Stat} {x : Option Stat}

/-- What holds whenever one of the loops begins a round. -/
structure Inv (w : Mpfd × Tape) : Prop where
  ready : w.2.Ready
  crashed : w.1.crashed = false
  flag : w.1.cdp.flag = true
  state : w.1.state ≠ .beyond
  ext : w.1.ext = true → w.1.state = .value ∧ w.1.cdp.state ≠ .beyond
  value : w.1.state = .value → w.1.ext = false → w.1.cdp.state = .start
  nxt : w.1.state = .search3 → w.1.nxtState = .key ∨ w.1.nxtState = .search
  ended : w.1.state ≠ .start → w.1.state ≠ .search → w.1.state ≠ .eof → w.1.matchEnded = true
  bc : w.1.state = .search → w.2.bc = false
  copied : w.1.state = .search → w.1.armed = true → w.1.head.Copied w.1.scr.cap w.2

theorem Inv.enter (ready : t.Ready) (crashed : v.crashed = false) (flag : v.cdp.flag = true)
    (ext : v.ext = false) (ended : v.matchEnded = true) (state : v.state ≠ .beyond)
    (value : v.state = .value → v.cdp.state = .start)
    (nxt : v.state = .search3 → v.nxtState = .key ∨ v.nxtState = .search)
    (bc : v.state = .search → t.bc = false) : Inv (v, t) where
  ready := ready
  crashed := crashed
  flag := flag
  state := state
  ext h := by cases ext.symm.trans h
  value h _ := value h
  nxt := nxt
  ended _ _ _ := ended
  bc := bc
  copied _ h := by simp [armed, ended] at h

def rank : MpfdSt → Nat
  | .eol1b => 9
  | .key => 8
  | .spc => 7
  | .value => 6
  | .eol1a => 5
  | .start | .search => 4
  | .eol0 | .search2 => 3
  | .search3 => 2
  | .eof => 1
  | .beyond => 0

def dispRank : ContdispSt → Nat
  | .start => 9
  | .sep1 => 8
  | .nameKey => 7
  | .nameVal => 6
  | .sep2a => 5
  | .sep2b => 4
  | .sep2c => 3
  | .filenameKey => 2
  | .filenameVal => 1
  | .beyond => 0

def dispCredit : ContdispSt → Nat
  | .sep1 | .sep2a | .sep2c => 1
  | _ => 0

/-- At the limit of the buffer, `skip_hws` and `eol` push back the last character a second time:
the states in which they are called have one character more to read. -/
def credit (v : Mpfd) : Nat :=
  if v.ext then dispCredit v.cdp.state else if v.state = .spc then 1 else 0

/-- What is left to do: the input, the rest of the part, and the rest of the inner parser. -/
def todo (w : Mpfd × Tape) : Nat :=
  100 * (w.2.left + credit w.1) + 12 * rank w.1.state + if w.1.ext then dispRank w.1.cdp.state + 1
    else 11

theorem todo_outer (h : v.ext = false) : todo (v, t) =
    100 * (t.left + if v.state = .spc then 1 else 0) + 12 * rank v.state + 11 := by
  simp [todo, credit, h]

section Results

theorem requireCrlf_ok (h : requireCrlf v t = (some .ok, v', t')) :
    v' = { v with needLF := v'.needLF } ∧ t'.left < t.left ∧ t'.bc = false := by
  obtain ⟨y, s, hs, hp⟩ := Reader.ofScan_keep_inv h
  obtain rfl : y = .ok := by
    simp only [Okws.requireCrlf, Prod.mk.injEq] at hp
    split at hp
    · cases hp.1
    · exact hp.1
  cases hp
  exact ⟨rfl, scan_gobble_left hs, scan_gobble_bc hs⟩

theorem word_ok {mark : UInt8 → Mark} {set : Mpfd → Str → Mpfd}
    (h : word (delimScanner mark false) set v t = (some .ok, v', t')) :
    ∃ z s, scan Tape.device (delimScanner mark false) v.scr t = (some (.ok z), s, t') ∧
      v' = set { v with scr := s } z ∧ t'.left ≤ t.left := by
  obtain ⟨y, s, hs, hp⟩ := Reader.ofScan_keep_inv h
  cases y with
  | ok z =>
    cases hp
    exact ⟨z, s, hs, rfl, delim_left hs⟩
  | error e =>
    cases hp
    obtain h | h | h := delim_error hs <;> cases h

theorem dispWord_ok {mark : UInt8 → Mark} {set : Contdisp → Str → Contdisp}
    (h : dispWord (delimScanner mark false) set v t = (some .ok, v', t')) :
    ∃ z s, scan Tape.device (delimScanner mark false) v.cdp.scr t = (some (.ok z), s, t') ∧
      v' = { v with cdp := set { v.cdp with scr := s } z } ∧ t'.left ≤ t.left := by
  obtain ⟨y, s, hs, hp⟩ := Reader.ofScan_keep_inv h
  cases y with
  | ok z =>
    cases hp
    exact ⟨z, s, hs, rfl, delim_left hs⟩
  | error e =>
    cases hp
    obtain h | h | h := delim_error hs <;> cases h

theorem matchBoundary_ok {dat : Bool} (h : matchBoundary dat v t = (some .ok, v', t')) :
    v.boundaries ≠ [] ∧ ∃ k u, scan Tape.device Kmp.scanner v.arm.head (mirrored dat v t) =
      (some .ok, k, u) ∧
      (v', t') = if dat = true then
        ({ v.arm.setHead k with matchEnded := true }.endMirror2 u, u.dropMirror)
        else ({ v.arm.setHead k with matchEnded := true }, u) := by
  by_cases hb : v.boundaries = []
  · simp [matchBoundary, hb] at h
  refine ⟨hb, ?_⟩
  rcases hs : seek v.arm (mirrored dat v t) with ⟨_ | y, v₁, t₁⟩ <;>
    rw [matchBoundary_eq hb hs] at h
  · cases h
  · obtain ⟨y, k, hk, hp⟩ := Reader.ofScan_keep_inv hs
    cases hp
    split at h
    · next hy =>
      cases hy.1
      exact ⟨k, t₁, hk, by rw [if_pos hy.2]; exact (Prod.mk.inj h).2.symm⟩
    · next hy =>
      cases h
      have hdat : dat ≠ true := fun hd => hy ⟨rfl, hd⟩
      exact ⟨k, t', hk, by rw [if_neg hdat]⟩

theorem matchBoundary_parseErr {dat : Bool} (h : matchBoundary dat v t = (some .parseErr, v', t')) :
    v' = v ∧ t' = t := by
  by_cases hb : v.boundaries = []
  · simp only [matchBoundary, hb, if_true] at h
    cases h
    exact ⟨rfl, rfl⟩
  exfalso
  rcases hs : seek v.arm (mirrored dat v t) with ⟨_ | y, v₁, t₁⟩ <;>
    rw [matchBoundary_eq hb hs] at h
  · cases h
  · obtain ⟨y, k, hk, hp⟩ := Reader.ofScan_keep_inv hs
    cases hp
    have hR : y ≠ .parseErr := by
      obtain rfl | rfl := Kmp.scan_stat hk <;> simp
    split at h <;> cases h
    exact hR rfl

theorem Inv.copied_arm (hI : Inv (v, t)) (hst : v.state = .search) :
    v.arm.head.Copied v.scr.cap (mirrored true v t) ∧ v.arm.head.pattern = v.head.pattern := by
  cases ha : v.armed with
  | true =>
    rw [arm_of_armed ha, mirrored_armed ha]
    exact ⟨hI.copied hst ha, rfl⟩
  | false =>
    have hbc : t.bc = false := hI.bc hst
    simp only [arm, mirrored, ha, Bool.not_false, Bool.and_self, if_true, Bool.false_eq_true,
      if_false]
    exact ⟨⟨hbc, .inr rfl, ⟨[], v.scr.cap⟩, rfl, rfl, Nat.zero_le _, .inl (Nat.zero_le _)⟩, rfl⟩

theorem endMirror2_some {m : Mirror} (hm : t.mir = some m)
    (h : v.head.pattern.length ≤ m.text.length) :
    ∃ s w, v.endMirror2 t = { v with dat := s, scr := v.scr.overlay w } := by
  simp only [endMirror2, Tape.endMirror2, hm, if_neg (Nat.not_lt.2 h)]
  exact ⟨_, _, rfl⟩

theorem endMirror2_none {m : Mirror} (hm : t.mir = some m)
    (h : m.text.length < v.head.pattern.length) :
    v.endMirror2 t = { v with crashed := true } := by
  simp only [endMirror2, Tape.endMirror2, hm, if_pos h]

end Results

section Outer

structure Frame (v v' : Mpfd) : Prop where
  crashed : v'.crashed = v.crashed
  cdp : v'.cdp = v.cdp
  ext : v'.ext = v.ext
  ended : v'.matchEnded = v.matchEnded
  state : v'.state = v.state

theorem insertPart_frame (v : Mpfd) : Frame v v.insertPart := by
  unfold insertPart
  split
  · split <;> exact ⟨rfl, rfl, rfl, rfl, rfl⟩
  · exact ⟨rfl, rfl, rfl, rfl, rfl⟩

theorem setContentTyp_frame (v : Mpfd) (z : Str) : Frame v (v.setContentTyp cfg z) := by
  unfold setContentTyp
  split <;> exact ⟨rfl, rfl, rfl, rfl, rfl⟩

theorem matchBoundary_frame {dat : Bool} (h : matchBoundary dat v t = (some .ok, v', t')) :
    (dat = false → v'.crashed = v.crashed) ∧ v'.cdp = v.cdp ∧ v'.ext = v.ext ∧ v'.state = v.state ∧
      v'.matchEnded = true ∧ t'.left ≤ t.left := by
  obtain ⟨-, k, u, hs, heq⟩ := matchBoundary_ok h
  have hleft : u.left ≤ t.left := by
    obtain ⟨m, hm⟩ := mirrored_eq dat v t
    rw [hm] at hs
    have hle := Tape.scan_left_le (S := Kmp.scanner) (fun _ _ => by simp [Kmp.scanner]) hs
    exact hle
  have harm : v.arm.crashed = v.crashed ∧ v.arm.cdp = v.cdp ∧ v.arm.ext = v.ext ∧ v.arm.state =
      v.state := by
    unfold arm
    split <;> exact ⟨rfl, rfl, rfl, rfl⟩
  obtain ⟨hcr, hcdp, hex, hst⟩ := harm
  split at heq
  · next hd =>
    cases heq
    refine ⟨fun hd' => by simp [hd] at hd', ?_⟩
    unfold endMirror2
    split <;> exact ⟨hcdp, hex, hst, rfl, hleft⟩
  · cases heq
    exact ⟨fun _ => hcr, hcdp, hex, hst, rfl, hleft⟩

theorem inc_state {q : MpfdSt} (h : v.state = q) : v.inc.state = q.inc := by rw [inc, h]

structure Proceeds (v : Mpfd) (t : Tape) (v' : Mpfd) (t' : Tape) : Prop where
  inv : Inv (v', t')
  ext : v'.ext = false
  todo : todo (v', t') < Mpfd.todo (v, t)

theorem Proceeds.of {q : MpfdSt} (q' : MpfdSt) (hst : v.state = q) (hext : v.ext = false)
    (ready : t'.Ready)
    (crashed : v'.crashed = false) (flag : v'.cdp.flag = true) (ext : v'.ext = false)
    (ended : v'.matchEnded = true) (hst' : v'.state = q') (hq' : q' ≠ .beyond)
    (value : q' = .value → v'.cdp.state = .start)
    (nxt : q' = .search3 → v'.nxtState = .key ∨ v'.nxtState = .search)
    (bc : q' = .search → t'.bc = false)
    (hmu : 100 * (t'.left + if q' = .spc then 1 else 0) + 12 * rank q' <
      100 * (t.left + if q = .spc then 1 else 0) + 12 * rank q) : Proceeds v t v' t' where
  inv := by
    subst hst'
    exact Inv.enter ready crashed flag ext ended hq' value nxt bc
  ext := ext
  todo := by
    rw [todo_outer ext, todo_outer hext, hst, hst']
    omega

variable (hI : Inv (v, t)) (hext : v.ext = false)

include hI hext

theorem start_proceeds (hst : v.state = .start) (h : act cfg .start v t = (some .ok, v', t')) :
    Proceeds v t v' t' := by
  have hpassed := (act_passed hI.ready h).2
  obtain ⟨v₁, h₁, rfl⟩ := Reader.onOk_inv h
  obtain ⟨hcr, hcdp, hex, hs, hended, hleft⟩ := matchBoundary_frame h₁
  refine .of .eol0 hst hext hpassed.ready ((hcr rfl).trans hI.crashed) (hcdp ▸ hI.flag)
    (hex.trans hext) hended ?_ nofun nofun nofun nofun ?_
  · rw [if_pos rfl]
    exact inc_state (hs.trans hst)
  · simp only [rank, reduceCtorEq, if_false]
    omega

theorem crlf_proceeds {q q' : MpfdSt} {g : Mpfd → Mpfd} (hst : v.state = q)
    (hq : q = .eol0 ∨ q = .eol1a ∨ q = .search3) (hg : ∀ u, Frame u { g u with state := u.state })
    (hst' : ∀ b, (g { v with needLF := b }).state = q') (hq' : q' = .key ∨ q' = .eol1b ∨
      q' = .search)
    (h : requireCrlf.onOk g v t = (some .ok, v', t')) : Proceeds v t v' t' := by
  have hpassed := ((Reader.merges_onOk requireCrlf_merges).passed hI.ready h).2
  obtain ⟨v₁, h₁, rfl⟩ := Reader.onOk_inv h
  obtain ⟨hv₁, hleft, hbc⟩ := requireCrlf_ok h₁
  have hfr := hg v₁
  rw [if_pos rfl]
  have hended : v.matchEnded = true := by
    apply hI.ended <;> rw [show v.state = q from hst] <;> obtain rfl | rfl | rfl := hq <;> simp
  have hcr : v₁.crashed = v.crashed ∧ v₁.cdp = v.cdp ∧ v₁.ext = v.ext ∧ v₁.matchEnded =
      v.matchEnded := by
    rw [hv₁]
    exact ⟨rfl, rfl, rfl, rfl⟩
  obtain ⟨h₁, h₂, h₃, h₄⟩ := hcr
  refine .of q' hst hext hpassed.ready (hfr.crashed.trans (h₁.trans hI.crashed))
    (by rw [show (g v₁).cdp = _ from hfr.cdp, h₂]; exact hI.flag) (hfr.ext.trans (h₃.trans hext))
    (hfr.ended.trans (h₄.trans hended)) (hv₁ ▸ hst' v₁.needLF) ?_ ?_ ?_ (fun _ => hbc) ?_
  · obtain rfl | rfl | rfl := hq' <;> simp
  · obtain rfl | rfl | rfl := hq' <;> nofun
  · obtain rfl | rfl | rfl := hq' <;> nofun
  · have hrank : rank q' ≤ 9 := by obtain rfl | rfl | rfl := hq' <;> simp [rank]
    have hspc : q' ≠ .spc := by obtain rfl | rfl | rfl := hq' <;> simp
    have hpos : 1 ≤ rank q := by obtain rfl | rfl | rfl := hq <;> simp [rank]
    rw [if_neg hspc]
    omega

theorem key_proceeds (hst : v.state = .key) (h : act cfg .key v t = (some .ok, v', t')) :
    Proceeds v t v' t' := by
  have hpassed := (act_passed hI.ready h).2
  have hended : v.matchEnded = true := hI.ended (by simp [hst]) (by simp [hst]) (by simp [hst])
  rcases hg : gobbleCrlf.onOk endHeader v t with ⟨_ | y, v₁, t₁⟩
  · rw [act, Reader.onStat_none hg] at h
    cases h
  rw [act, Reader.onStat_some hg] at h
  obtain ⟨v₂, h₂, hv₁⟩ := Reader.onOk_inv hg
  obtain ⟨y', s, hs, hp⟩ := Reader.ofScan_keep_inv h₂
  cases hp
  split at h
  · -- a key: its colon is read
    next hy =>
    subst hy
    rw [if_neg (by simp)] at hv₁
    subst hv₁
    obtain ⟨v₃, h₃, rfl⟩ := Reader.onOk_inv h
    obtain ⟨z, w, hw, rfl, -⟩ := word_ok h₃
    have hlt : t'.left < t₁.left := delim_left_lt (fun b => by
      split
      · simp
      · split <;> simp) hw
    have hle : t₁.left ≤ t.left := Tape.scan_left_le (fun _ _ => by simp [Okws.gobbleCrlf]) hs
    refine .of .spc hst hext hpassed.ready hI.crashed hI.flag hext hended ?_ (by rintro ⟨⟩)
      (by rintro ⟨⟩) (by rintro ⟨⟩) (by rintro ⟨⟩) ?_
    · rw [if_pos rfl]
      exact inc_state hst
    · simp only [rank, reduceCtorEq, if_true, if_false]
      omega
  · -- an empty line
    cases h
    rw [if_pos rfl] at hv₁
    have hlt := scan_gobble_left hs
    have hbc := scan_gobble_bc hs
    unfold endHeader at hv₁
    split at hv₁
    · subst hv₁
      refine .of .start hst hext hpassed.ready hI.crashed hI.flag hext hended rfl
        (by rintro ⟨⟩) (by rintro ⟨⟩) (by rintro ⟨⟩) (by rintro ⟨⟩) ?_
      simp only [rank, reduceCtorEq, if_false]
      omega
    · subst hv₁
      refine .of .search hst hext hpassed.ready hI.crashed hI.flag hext hended rfl
        (by rintro ⟨⟩) (by rintro ⟨⟩) (by rintro ⟨⟩) (fun _ => hbc) ?_
      simp only [rank, reduceCtorEq, if_false]
      omega

theorem spc_proceeds (hst : v.state = .spc) (h : act cfg .spc v t = (some .ok, v', t')) :
    Proceeds v t v' t' := by
  have hpassed := (act_passed hI.ready h).2
  have hended : v.matchEnded = true := hI.ended (by simp [hst]) (by simp [hst]) (by simp [hst])
  rcases hs : scan Tape.device (skipHwsScanner 1) v.spcs t with ⟨x, k, u⟩
  rw [act_spc hs] at h
  cases h
  have hleft : u.left ≤ t.left + 1 := Tape.scan_left_succ hs
  refine .of .value hst hext hpassed.ready hI.crashed hI.flag hext hended ?_ nofun (fun _ => rfl)
    nofun nofun ?_
  · simp only [spcDone, if_true, inc, hst, MpfdSt.inc]
  · have hdrop : u.dropMirror.left = u.left := rfl
    simp only [rank, reduceCtorEq, if_true, if_false, hdrop]
    omega

theorem value_proceeds (hst : v.state = .value) (h : act cfg .value v t = (some .ok, v', t')) :
    (v' = { v with ext := true } ∧ t' = t) ∨ Proceeds v t v' t' := by
  have hpassed := (act_passed hI.ready h).2
  have hended : v.matchEnded = true := hI.ended (by simp [hst]) (by simp [hst]) (by simp [hst])
  have h : value cfg v.kt v t = (some .ok, v', t') := h
  have key {set : Mpfd → Str → Mpfd} (hset : ∀ u z, Frame u (set u z))
      (h : (word delimitVal set).onOk inc v t = (some .ok, v', t')) : Proceeds v t v' t' := by
    obtain ⟨v₁, h₁, rfl⟩ := Reader.onOk_inv h
    obtain ⟨z, w, hw, rfl, hle⟩ := word_ok h₁
    obtain ⟨hcr, hcdp, hex, hend, hs⟩ := hset { v with scr := w } z
    refine .of .eol1a hst hext hpassed.ready (hcr.trans hI.crashed)
      ((congrArg Contdisp.flag hcdp).trans hI.flag)
      (hex.trans hext) (hend.trans hended) ?_ nofun nofun nofun nofun ?_
    · rw [if_pos rfl]
      exact inc_state (hs.trans hst)
    · simp only [rank, reduceCtorEq, if_false]
      omega
  have hkinds (k : MpfdKt) (h : value cfg k v t = (some .ok, v', t')) :
      (v' = { v with ext := true } ∧ t' = t) ∨ Proceeds v t v' t' := by
    cases k with
    | other => exact .inr (key (fun _ _ => ⟨rfl, rfl, rfl, rfl, rfl⟩) h)
    | disposition =>
      cases h
      exact .inl ⟨rfl, rfl⟩
    | type => exact .inr (key setContentTyp_frame h)
  exact hkinds v.kt h

theorem eol1b_proceeds (hst : v.state = .eol1b) (h : act cfg .eol1b v t = (some .ok, v', t')) :
    Proceeds v t v' t' := by
  have hended : v.matchEnded = true := hI.ended (by simp [hst]) (by simp [hst]) (by simp [hst])
  have hframe : (some v.endLine.1, v.endLine.2, t) = (some .ok, v', t') := h
  have key : v'.crashed = v.crashed ∧ v'.cdp = v.cdp ∧ v'.ext = v.ext ∧ v'.matchEnded =
      v.matchEnded ∧
      v'.state = .key ∧ t' = t := by
    unfold endLine at hframe
    split at hframe
    · split at hframe <;> cases hframe <;> exact ⟨rfl, rfl, rfl, rfl, rfl, rfl⟩
    · cases hframe
      exact ⟨rfl, rfl, rfl, rfl, rfl, rfl⟩
  obtain ⟨hcr, hcdp, hex, hend, hs, rfl⟩ := key
  refine .of .key hst hext hI.ready (hcr.trans hI.crashed) (hcdp ▸ hI.flag) (hex.trans hext)
    (hend.trans hended) hs nofun nofun nofun nofun ?_
  simp only [rank, reduceCtorEq, if_false]
  omega

theorem search2_proceeds (hst : v.state = .search2)
    (h : act cfg .search2 v t = (some .ok, v', t')) :
    Proceeds v t v' t' := by
  have hpassed := (act_passed hI.ready h).2
  have hended : v.matchEnded = true := hI.ended (by simp [hst]) (by simp [hst]) (by simp [hst])
  obtain ⟨v₁, h₁, rfl⟩ := Reader.onOk_inv h
  obtain ⟨y, n, hs, hp⟩ := Reader.ofScan_keep_inv h₁
  have hleft : t'.left ≤ t.left := Tape.scan_left_le (fun _ _ => by simp [dashScanner]) hs
  have key : v₁.crashed = v.crashed ∧ v₁.cdp = v.cdp ∧ v₁.ext = v.ext ∧ v₁.matchEnded =
      v.matchEnded ∧
      v₁.state = v.state ∧ (v₁.nxtState = .key ∨ v₁.nxtState = .search) := by
    cases y <;> cases hp
    · exact ⟨rfl, rfl, rfl, rfl, rfl, .inr rfl⟩
    · exact ⟨rfl, rfl, rfl, rfl, rfl, .inl rfl⟩
  obtain ⟨hcr, hcdp, hex, hend, hs', hnxt⟩ := key
  refine .of .search3 hst hext hpassed.ready (hcr.trans hI.crashed) (hcdp ▸ hI.flag)
    (hex.trans hext) (hend.trans hended) ?_ (by rintro ⟨⟩) (by rintro ⟨⟩) (fun _ => hnxt)
    (by rintro ⟨⟩) ?_
  · rw [if_pos rfl]
    exact inc_state (hs'.trans hst)
  · simp only [rank, reduceCtorEq, if_false]
    omega

omit hext in
theorem search_found (hst : v.state = .search) (h : matchBoundary true v t = (some .ok, v', t')) :
    v.boundaries ≠ [] ∧ v.arm.head.finds t.ahead = true ∧
      v'.crashed = decide (v.scr.cap < v.head.pattern.length) := by
  obtain ⟨hb, k, u, hs, heq⟩ := matchBoundary_ok h
  obtain ⟨hcop, hpat⟩ := hI.copied_arm hst
  obtain ⟨hk, -, hfound⟩ := hcop.scan hs
  obtain ⟨m, hm, hle, hlen⟩ := hfound rfl
  have hahead : (mirrored true v t).ahead = t.ahead := by
    obtain ⟨m, hm⟩ := mirrored_eq true v t
    rw [hm, ← Tape.ahead_dropMirror, ← Tape.ahead_dropMirror t]
    rfl
  have hfinds := (Kmp.scan_ok hs).1 rfl
  rw [hahead] at hfinds
  refine ⟨hb, hfinds, ?_⟩
  have hcr : ({ v.arm.setHead k with matchEnded := true } : Mpfd).crashed = false := by
    have harm : v.arm.crashed = v.crashed := by
      unfold arm
      split <;> rfl
    exact harm.trans hI.crashed
  have hplen : ({ v.arm.setHead k with matchEnded := true } : Mpfd).head.pattern.length =
      v.head.pattern.length := by
    rw [← hpat, ← hk]
    rfl
  rw [if_pos rfl] at heq
  cases heq
  by_cases hcap : v.scr.cap < v.head.pattern.length
  · rw [endMirror2_none hm (by omega), decide_eq_true hcap]
  · obtain ⟨z, w, hz⟩ := endMirror2_some (v := { v.arm.setHead k with matchEnded := true }) hm (by
      rw [hplen]
      rw [hpat] at hlen
      omega)
    rw [hz, decide_eq_false hcap]
    exact hcr

theorem search_proceeds (hst : v.state = .search) (hno : ¬ OuterHazard v t.ahead .search)
    (h : act cfg .search v t = (some .ok, v', t')) : Proceeds v t v' t' := by
  have hpassed := (act_passed hI.ready h).2
  obtain ⟨y, v₁, h₁, hp⟩ := Reader.map_keep_inv h
  cases y <;> cases hp
  · obtain ⟨hb, hfinds, hcr⟩ := search_found hI hst h₁
    obtain ⟨-, hcdp, hex, hs, hended, hleft⟩ := matchBoundary_frame h₁
    have hfr := insertPart_frame v₁
    have hnot : ¬ v.scr.cap < v.head.pattern.length := fun hlt => hno ⟨hb, hlt, hfinds⟩
    refine .of .search2 hst hext hpassed.ready ?_
      ((congrArg Contdisp.flag (hfr.cdp.trans hcdp)).trans hI.flag) (hfr.ext.trans (hex.trans hext))
      (hfr.ended.trans hended) (inc_state (hfr.state.trans (hs.trans hst))) nofun
        nofun nofun nofun ?_
    · exact hfr.crashed.trans (hcr.trans (decide_eq_false hnot))
    · simp only [rank, reduceCtorEq, if_false]
      omega
  · -- no boundary is left
    obtain ⟨rfl, rfl⟩ := matchBoundary_parseErr h₁
    refine ⟨⟨hI.ready, hI.crashed, hI.flag, nofun, fun h => ?_, nofun,
      nofun, fun _ _ h => absurd rfl h, nofun, nofun⟩, hext, ?_⟩
    · cases hext.symm.trans h
    · rw [todo_outer hext, todo_outer (v := { v₁ with state := .eof }) hext, hst]
      simp only [rank, reduceCtorEq, if_false]
      omega

theorem act_proceeds {q : MpfdSt} (hst : v.state = q) (hno : ¬ OuterHazard v t.ahead q)
    (h : act cfg q v t = (some .ok, v', t')) :
    (q = .value ∧ v' = { v with ext := true } ∧ t' = t) ∨ Proceeds v t v' t' := by
  cases q with
  | start => exact .inr (start_proceeds hI hext hst h)
  | eol0 =>
    exact .inr (crlf_proceeds (g := inc) hI hext hst (.inl rfl) (fun _ => ⟨rfl, rfl, rfl, rfl, rfl⟩)
      (fun _ => inc_state hst) (.inl rfl) h)
  | key => exact .inr (key_proceeds hI hext hst h)
  | spc => exact .inr (spc_proceeds hI hext hst h)
  | value => exact (value_proceeds hI hext hst h).imp_left fun h => ⟨rfl, h⟩
  | eol1a =>
    exact .inr (crlf_proceeds (g := inc) hI hext hst (.inr (.inl rfl))
      (fun _ => ⟨rfl, rfl, rfl, rfl, rfl⟩) (fun _ => inc_state hst) (.inr (.inl rfl)) h)
  | eol1b => exact .inr (eol1b_proceeds hI hext hst h)
  | search => exact .inr (search_proceeds hI hext hst hno h)
  | search2 => exact .inr (search2_proceeds hI hext hst h)
  | search3 =>
    have hnxt : v.nxtState = .key ∨ v.nxtState = .eol1b ∨ v.nxtState = .search :=
      (hI.nxt hst).imp_right .inr
    exact .inr (crlf_proceeds (g := fun v => { v with state := v.nxtState }) hI hext hst
      (.inr (.inr rfl)) (fun _ => ⟨rfl, rfl, rfl, rfl, rfl⟩) (fun _ => rfl) hnxt h)
  | eof =>
    obtain ⟨v₁, h₁, -⟩ := Reader.onOk_inv h
    obtain ⟨y, s, hs, hp⟩ := Reader.ofScan_keep_inv h₁
    cases hp
    exact absurd ((skipWs_ok hs).1 rfl) hno
  | beyond => exact absurd hst hI.state

end Outer

section Inner

def dispTodo (q : ContdispSt) (t : Tape) : Nat := 100 * (t.left + dispCredit q) + dispRank q

/-- What a round of the inner loop leaves alone. -/
structure DispFrame (v v' : Mpfd) : Prop where
  ext : v'.ext = v.ext
  state : v'.state = v.state
  ended : v'.matchEnded = v.matchEnded

/-- What a round of the inner loop does: it goes on, it has come to its end, or it breaks down. -/
inductive DispOk (v : Mpfd) (t : Tape) (q : ContdispSt) (v' : Mpfd) (t' : Tape) : Prop
  | goes (crashed : v'.crashed = v.crashed) (flag : v'.cdp.flag = v.cdp.flag)
    (state : v'.cdp.state.inc ≠ .beyond) (todo : dispTodo v'.cdp.state.inc t' < dispTodo q t)
  | ends (crashed : v'.crashed = v.crashed) (flag : v'.cdp.flag = false)
    (left : t'.left ≤ t.left + dispCredit q)
  | breaks (crashed : v'.crashed = true) (name : q = .filenameVal ∧ NoFilename v t.ahead)

theorem dispWord_goes {mark : UInt8 → Mark} {set : Contdisp → Str → Contdisp} {q : ContdispSt}
    (hset : ∀ c z, (set c z).flag = c.flag ∧ (set c z).state = c.state)
      (hm : ∀ b, mark b ≠ .stop false)
    (hst : v.cdp.state = q) (hq : q = .start ∨ q = .nameVal)
    (h : dispWord (delimScanner mark false) set v t = (some .ok, v', t')) :
    DispFrame v v' ∧ DispOk v t q v' t' := by
  obtain ⟨z, s, hs, rfl, -⟩ := dispWord_ok h
  have hlt := delim_left_lt hm hs
  obtain ⟨hf, hs'⟩ := hset { v.cdp with scr := s } z
  refine ⟨⟨rfl, rfl, rfl⟩, .goes rfl hf ?_ ?_⟩
  · rw [show (set _ z).state = q from hs'.trans hst]
    obtain rfl | rfl := hq <;> nofun
  · rw [show (set _ z).state = q from hs'.trans hst]
    obtain rfl | rfl := hq <;> simp only [dispTodo, dispCredit, dispRank, ContdispSt.inc] <;> omega

theorem forceMatch_goes {s : Str} {q : ContdispSt} (hst : v.cdp.state = q)
    (hq : q = .nameKey ∨ q = .filenameKey) (h : forceMatch s v t = (some .ok, v', t')) :
    DispFrame v v' ∧ DispOk v t q v' t' := by
  obtain ⟨y, cp, hs, hp⟩ := Reader.ofScan_keep_inv h
  cases hp
  have hle : t'.left ≤ t.left := Tape.scan_left_le (fun _ _ => by simp [forceScanner]) hs
  refine ⟨⟨rfl, rfl, rfl⟩, .goes rfl rfl ?_ ?_⟩
  · simp only [hst]
    obtain rfl | rfl := hq <;> nofun
  · simp only [hst]
    obtain rfl | rfl := hq <;> simp only [dispTodo, dispCredit, dispRank, ContdispSt.inc] <;> omega

theorem setFilename_cases (v : Mpfd) :
    (v.cdp.filenameScr.getD [] = [] ∧ setFilename v = { v with crashed := true }) ∨
    (v.cdp.filenameScr.getD [] ≠ [] ∧ (setFilename v).crashed = v.crashed ∧
      (setFilename v).cdp.flag = false ∧
      DispFrame v (setFilename v)) := by
  unfold setFilename
  split
  · next c s hf => exact .inr ⟨by simp [hf], rfl, rfl, rfl, rfl, rfl⟩
  · next hf =>
    refine .inl ⟨?_, rfl⟩
    cases hs : v.cdp.filenameScr with
    | none => rfl
    | some l =>
      cases l with
      | nil => rfl
      | cons c s => exact absurd hs (hf c s)

theorem dispFilename_ok (h : dispFilename v t = (some .ok, v', t')) :
    DispFrame v v' ∧ DispOk v t .filenameVal v' t' := by
  obtain ⟨y, s, hs, hp⟩ := Reader.ofScan_keep_inv h
  obtain ⟨hok, herr⟩ := delimit_cr hs
  cases y with
  | ok z =>
    cases hp
    obtain ⟨-, hz, hcr⟩ := (hok z).1 rfl
    have hle : t'.left ≤ t.left := delim_left hs
    obtain ⟨hnil, heq⟩ | ⟨-, hc, hf, hfr⟩ :=
      setFilename_cases { v with cdp := { v.cdp with scr := s, filenameScr := some z } }
    · rw [heq]
      exact ⟨⟨rfl, rfl, rfl⟩, .breaks rfl ⟨rfl, .inl ⟨hcr, hz ▸ hnil⟩⟩⟩
    · exact ⟨⟨hfr.ext, hfr.state, hfr.ended⟩, .ends hc hf hle⟩
  | error e =>
    by_cases he : e = .parseErr
    · subst he
      cases hp
      obtain ⟨-, hlf⟩ := herr.1 rfl
      have hle : t'.left ≤ t.left :=
        Tape.scan_left_le (S := delimit Byte.cr false false)
          (fun _ _ => by simp [delimit, delimScanner]) hs
      obtain ⟨hnil, heq⟩ | ⟨-, hc, hf, hfr⟩ :=
        setFilename_cases { v with cdp := { v.cdp with scr := s } }
      · rw [heq]
        exact ⟨⟨rfl, rfl, rfl⟩, .breaks rfl ⟨rfl, .inr ⟨hlf, hnil⟩⟩⟩
      · exact ⟨⟨hfr.ext, hfr.state, hfr.ended⟩, .ends hc hf hle⟩
    · obtain rfl | rfl | rfl := delim_error hs <;> cases hp
      exact absurd rfl he

theorem setTyp_frame (c : Contdisp) :
    (setTyp c).flag = c.flag ∧ ((setTyp c).state = c.state ∨ (setTyp c).state = .filenameKey) := by
  unfold setTyp
  split
  · exact ⟨rfl, .inl rfl⟩
  · split
    · exact ⟨rfl, .inr rfl⟩
    · exact ⟨rfl, .inl rfl⟩

theorem sep1_goes (hst : v.cdp.state = .sep1) (h : dispAct .sep1 v t = (some .ok, v', t')) :
    DispFrame v v' ∧ DispOk v t .sep1 v' t' := by
  rcases hs : skipHws 1 v t with ⟨x, v₁, u⟩
  rw [dispAct_sep1 hs] at h
  cases h
  obtain ⟨y, k, hk, hp⟩ := Reader.ofScan_keep_inv hs
  cases hp
  have hle : t'.left ≤ t.left + 1 := Tape.scan_left_succ hk
  obtain ⟨hf, hs'⟩ := setTyp_frame v.cdp
  rw [hst] at hs'
  refine ⟨⟨rfl, rfl, rfl⟩, .goes rfl hf ?_ ?_⟩
  · obtain hs' | hs' := hs' <;> simp only [hs'] <;> nofun
  · obtain hs' | hs' := hs' <;>
        simp only [hs', dispTodo, dispCredit, dispRank, ContdispSt.inc] <;> omega

theorem sep2a_ok (hst : v.cdp.state = .sep2a) (h : dispEol v t = (some .ok, v', t')) :
    DispFrame v v' ∧ DispOk v t .sep2a v' t' := by
  obtain ⟨y, u, hs, hp⟩ := Reader.ofScan_keep_inv h
  have hle : t'.left ≤ t.left + 1 := Tape.scan_left_succ hs
  cases y <;> cases hp
  · exact ⟨⟨rfl, rfl, rfl⟩, .ends rfl rfl hle⟩
  · refine ⟨⟨rfl, rfl, rfl⟩, .goes rfl rfl ?_ ?_⟩
    · simp [hst, ContdispSt.inc]
    · simp only [hst, dispTodo, dispCredit, dispRank, ContdispSt.inc]
      omega

theorem sep2b_goes (hst : v.cdp.state = .sep2b) (h : requirechar 59 v t = (some .ok, v', t')) :
    DispFrame v v' ∧ DispOk v t .sep2b v' t' := by
  obtain ⟨y, u, hs, hp⟩ := Reader.ofScan_keep_inv h
  obtain rfl : y = .ok := by
    simp only [Prod.mk.injEq] at hp
    split at hp
    · cases hp.1
    · exact hp.1
  cases hp
  have hlt : t'.left < t.left := by
    refine Tape.scan_left_lt (S := expectScanner 59) (fun _ => nofun) (fun _ b _ hb => ?_)
      (fun _ _ => by simp [expectScanner]) hs
    simp only [expectScanner] at hb
    split at hb <;> cases hb
  refine ⟨⟨rfl, rfl, rfl⟩, .goes rfl rfl ?_ ?_⟩
  · simp [hst, ContdispSt.inc]
  · simp only [hst, dispTodo, dispCredit, dispRank, ContdispSt.inc]
    omega

theorem sep2c_goes (hst : v.cdp.state = .sep2c) (h : skipHws 0 v t = (some .ok, v', t')) :
    DispFrame v v' ∧ DispOk v t .sep2c v' t' := by
  obtain ⟨y, k, hk, hp⟩ := Reader.ofScan_keep_inv h
  cases hp
  have hle : t'.left ≤ t.left + 1 := Tape.scan_left_succ hk
  refine ⟨⟨rfl, rfl, rfl⟩, .goes rfl rfl ?_ ?_⟩
  · simp [hst, ContdispSt.inc]
  · simp only [hst, dispTodo, dispCredit, dispRank, ContdispSt.inc]
    omega

theorem dispAct_ok {q : ContdispSt} (hst : v.cdp.state = q) (hq : q ≠ .beyond)
    (h : dispAct q v t = (some .ok, v', t')) : DispFrame v v' ∧ DispOk v t q v' t' := by
  cases q with
  | start =>
    rw [dispAct] at h
    refine dispWord_goes ?_ (fun b => ?_) hst (.inl rfl) h
    · exact fun _ _ => ⟨rfl, rfl⟩
    split
    · simp
    · split <;> simp
  | sep1 => exact sep1_goes hst h
  | nameKey => exact forceMatch_goes hst (.inl rfl) h
  | nameVal =>
    rw [dispAct] at h
    refine dispWord_goes ?_ (fun b => ?_) hst (.inr rfl) h
    · exact fun _ _ => ⟨rfl, rfl⟩
    split
    · simp
    · split <;> simp
  | sep2a => exact sep2a_ok hst h
  | sep2b => exact sep2b_goes hst h
  | sep2c => exact sep2c_goes hst h
  | filenameKey => exact forceMatch_goes hst (.inr rfl) h
  | filenameVal => exact dispFilename_ok h
  | beyond => exact absurd rfl hq

end Inner

section Answers

theorem gobble_stat {t t' : Tape} {need need' : Bool} {r : Stat}
    (h : scan Tape.device Okws.gobbleCrlf need t = (some r, need', t')) :
    r = .ok ∨ r = .nomatch ∨ r = .eof ∨ r = .parseErr := by
  refine scan_answer (S := Okws.gobbleCrlf)
    (R := fun r => r = .ok ∨ r = .nomatch ∨ r = .eof ∨ r = .parseErr) (fun hg => by cases hg)
    (fun {s b r s'} hb => ?_) (fun {s r s'} he => ?_) h
  · simp only [Okws.gobbleCrlf] at hb
    repeat' split at hb
    all_goals simp at hb
    all_goals simp [← hb.1]
  · simp only [Okws.gobbleCrlf] at he
    simp at he
    simp [← he.1]

theorem hws_stat {t t' : Tape} {mn k k' : Nat} {r : Stat}
    (h : scan Tape.device (skipHwsScanner mn) k t = (some r, k', t')) :
      r = .ok ∨ r = .parseErr := by
  refine scan_answer (S := skipHwsScanner mn) (R := fun r => r = .ok ∨ r = .parseErr)
    (fun hg => by cases hg) (fun {s b r s'} hb => ?_) (fun {s r s'} he => ?_) h
  · simp only [skipHwsScanner] at hb
    split at hb <;> simp at hb
    rw [← hb.1]
    split <;> simp
  · simp only [skipHwsScanner] at he
    simp at he
    rw [← he.1]
    split <;> simp

theorem force_stat {t t' : Tape} {s s' : Str} {r : Stat}
    (h : scan Tape.device forceScanner s t = (some r, s', t')) : r = .ok ∨ r = .parseErr := by
  refine scan_answer (S := forceScanner) (R := fun r => r = .ok ∨ r = .parseErr)
    (fun hg => by cases hg) (fun {s b r s'} hb => ?_) (fun {s r s'} he => ?_) h
  · simp only [forceScanner] at hb
    repeat' split at hb
    all_goals simp at hb
    all_goals simp [← hb.1]
  · simp only [forceScanner] at he
    simp at he
    simp [← he.1]

/-- The answers a round of either loop can get, seen from the hazards `H`. -/
inductive Answer (H : Prop) (v v' : Mpfd) : Stat → Prop
  | ok : Answer H v v' .ok
  | eof : v'.crashed = v.crashed → Answer H v v' .eof
  | parseErr : v'.crashed = v.crashed → Answer H v v' .parseErr
  | overflow : H → Answer H v v' .overflow

theorem hws_answer {H : Prop} {mn : Nat} (h : skipHws mn v t = (some r, v', t')) :
    Answer H v v' r := by
  obtain ⟨y, k, hk, hp⟩ := Reader.ofScan_keep_inv h
  cases hp
  obtain rfl | rfl := hws_stat hk
  · exact .ok
  · exact .parseErr rfl

theorem crlf_answer {H : Prop} {g : Mpfd → Mpfd}
    (h : requireCrlf.onOk g v t = (some r, v', t')) : Answer H v v' r := by
  obtain ⟨v₁, h₁, rfl⟩ := Reader.onOk_inv h
  obtain ⟨y, s, hs, hp⟩ := Reader.ofScan_keep_inv h₁
  cases hp
  obtain rfl | rfl | rfl | rfl := gobble_stat hs
  · exact .ok
  · exact .parseErr rfl
  · exact .eof rfl
  · exact .parseErr rfl

theorem matchBoundary_answer {dat : Bool} (h : matchBoundary dat v t = (some r, v', t')) :
    r = .ok ∨ ((r = .eof ∨ r = .parseErr) ∧ v'.crashed = v.crashed) := by
  by_cases hb : v.boundaries = []
  · simp only [matchBoundary, hb, if_true] at h
    cases h
    exact .inr ⟨.inr rfl, rfl⟩
  rcases hs : seek v.arm (mirrored dat v t) with ⟨_ | y, v₁, t₁⟩ <;>
    rw [matchBoundary_eq hb hs] at h
  · cases h
  · obtain ⟨y, k, hk, hp⟩ := Reader.ofScan_keep_inv hs
    cases hp
    split at h <;> cases h
    · exact .inl rfl
    · obtain rfl | rfl := Kmp.scan_stat hk
      · exact .inl rfl
      · refine .inr ⟨.inl rfl, ?_⟩
        simp only [setHead, arm]
        split <;> rfl

theorem word_answer {mark : UInt8 → Mark} {set : Mpfd → Str → Mpfd} {g : Mpfd → Mpfd} {H : Prop}
    (hH : ∀ s, scan Tape.device (delimScanner mark false) v.scr t =
      (some (.error .overflow), s, t') → H)
    (h : (word (delimScanner mark false) set).onOk g v t = (some r, v', t')) : Answer H v v' r := by
  obtain ⟨v₁, h₁, rfl⟩ := Reader.onOk_inv h
  obtain ⟨y, s, hs, hp⟩ := Reader.ofScan_keep_inv h₁
  cases y with
  | ok z =>
    cases hp
    exact .ok
  | error e =>
    cases hp
    obtain rfl | rfl | rfl := delim_error hs
    · exact .overflow (hH s hs)
    · exact .parseErr rfl
    · exact .eof rfl

theorem dispWord_answer {mark : UInt8 → Mark} {set : Contdisp → Str → Contdisp} {H : Prop}
    (hH : ∀ s, scan Tape.device (delimScanner mark false) v.cdp.scr t =
      (some (.error .overflow), s, t') → H)
    (h : dispWord (delimScanner mark false) set v t = (some r, v', t')) : Answer H v v' r := by
  obtain ⟨y, s, hs, hp⟩ := Reader.ofScan_keep_inv h
  cases y with
  | ok z =>
    cases hp
    exact .ok
  | error e =>
    cases hp
    obtain rfl | rfl | rfl := delim_error hs
    · exact .overflow (hH s hs)
    · exact .parseErr rfl
    · exact .eof rfl

theorem force_answer {H : Prop} {s : Str} (h : forceMatch s v t = (some r, v', t')) :
    Answer H v v' r := by
  obtain ⟨y, cp, hs, hp⟩ := Reader.ofScan_keep_inv h
  cases hp
  obtain rfl | rfl := force_stat hs
  · exact .ok
  · exact .parseErr rfl

theorem dispAct_answer {q : ContdispSt} (h : dispAct q v t = (some r, v', t')) :
    Answer (DispHazard v t.ahead q) v v' r := by
  cases q with
  | start =>
    rw [dispAct] at h
    exact dispWord_answer (fun s hs => (delimit_overflow hs).1 rfl) h
  | nameVal =>
    rw [dispAct] at h
    exact dispWord_answer (fun s hs => (delimit_overflow hs).1 rfl) h
  | sep1 =>
    rcases hs : skipHws 1 v t with ⟨x, v₁, u⟩
    rw [dispAct_sep1 hs] at h
    cases h
    cases hws_answer (H := False) hs with
    | ok => exact .ok
    | parseErr hc => exact .parseErr hc
    | eof hc => exact .eof hc
    | overflow hF => exact absurd hF id
  | sep2c => exact hws_answer h
  | nameKey | filenameKey => exact force_answer h
  | sep2a =>
    obtain ⟨y, u, hs, hp⟩ := Reader.ofScan_keep_inv (show dispEol v t = _ from h)
    have hR : y = .ok ∨ y = .nomatch := by
      rcases hg : t.get with ⟨_ | _ | _, e⟩
      · rw [scan_eol_byte hg] at hs
        cases hs
        split <;> simp
      · rw [scan_eol_eof hg] at hs
        cases hs
        exact .inr rfl
      · rw [scan_wait (S := Okws.eol) rfl hg] at hs
        cases hs
    obtain rfl | rfl := hR <;> cases hp <;> exact .ok
  | sep2b =>
    obtain ⟨y, u, hs, hp⟩ := Reader.ofScan_keep_inv (show requirechar 59 v t = _ from h)
    cases hp
    have hR : y = .ok ∨ y = .nomatch ∨ y = .eof := by
      refine scan_answer (S := expectScanner 59) (R := fun y => y = .ok ∨ y = .nomatch ∨ y = .eof)
        (fun hg => by cases hg) (fun {s b r s'} hb => ?_) (fun {s r s'} he => ?_) hs
      · simp only [expectScanner] at hb
        split at hb <;> simp at hb <;> simp [← hb]
      · simp only [expectScanner] at he
        simp at he
        simp [← he]
    obtain rfl | rfl | rfl := hR
    · exact .ok
    · exact .parseErr rfl
    · exact .eof rfl
  | filenameVal =>
    obtain ⟨y, s, hs, hp⟩ := Reader.ofScan_keep_inv (show dispFilename v t = _ from h)
    cases y with
    | ok z =>
      cases hp
      exact .ok
    | error e =>
      obtain rfl | rfl | rfl := delim_error hs <;> cases hp
      · exact .overflow (.inl ((delimit_overflow hs).1 rfl))
      · exact .ok
      · exact .eof rfl
  | beyond =>
    cases h
    exact .ok

theorem key_answer (h : act cfg .key v t = (some r, v', t')) :
    Answer (OuterHazard v t.ahead .key) v v' r := by
  rcases hg : gobbleCrlf.onOk endHeader v t with ⟨_ | y, v₁, t₁⟩
  · rw [act, Reader.onStat_none hg] at h
    cases h
  rw [act, Reader.onStat_some hg] at h
  obtain ⟨v₂, h₂, hv₁⟩ := Reader.onOk_inv hg
  obtain ⟨y', s, hs, hp⟩ := Reader.ofScan_keep_inv h₂
  cases hp
  split at h
  · next hy =>
    subst hy
    rw [if_neg (by simp)] at hv₁
    subst hv₁
    obtain ⟨hneed, -, b, u, hget, heol, rfl⟩ := scan_gobble_nomatch hs
    have hahead : u.unget.ahead = t.ahead :=
      Tape.ahead_congr ((Tape.get_unget hget (by simp) (.inl (by simp))).trans hget.symm)
    have hans := word_answer (H := OuterHazard v t.ahead .key) (fun w hw => ⟨hneed, ?_, ?_⟩) h
    · cases hans with
      | ok => exact .ok
      | eof hc => exact .eof hc
      | parseErr hc => exact .parseErr hc
      | overflow hH => exact .overflow hH
    · rw [Tape.ahead_byte hget]
      simp [heol]
    · rw [← hahead]
      exact (delimitKey_overflow hw).1 rfl
  · next hy =>
    cases h
    obtain rfl | rfl | rfl | rfl := gobble_stat hs
    · exact .ok
    · exact absurd rfl hy
    · rw [hv₁]
      exact .eof rfl
    · rw [hv₁]
      exact .parseErr rfl

theorem value_answer (h : act cfg .value v t = (some r, v', t')) :
    Answer (OuterHazard v t.ahead .value) v v' r := by
  have h : value cfg v.kt v t = (some r, v', t') := h
  have hkinds (k : MpfdKt) (hk : v.kt = k) (h : value cfg k v t = (some r, v', t')) :
      Answer (OuterHazard v t.ahead .value) v v' r := by
    cases k with
    | disposition =>
      cases h
      exact .ok
    | other | type =>
      exact word_answer (fun w hw => ⟨by simp [hk], (delimitVal_overflow hw).1 rfl⟩) h
  exact hkinds v.kt rfl h

theorem act_answer {q : MpfdSt} (h : act cfg q v t = (some r, v', t')) :
    Answer (OuterHazard v t.ahead q) v v' r := by
  cases q with
  | start =>
    obtain ⟨v₁, h₁, rfl⟩ := Reader.onOk_inv h
    obtain rfl | ⟨rfl | rfl, hc⟩ := matchBoundary_answer h₁
    · exact .ok
    · exact .eof hc
    · exact .parseErr hc
  | eol0 | eol1a | search3 => exact crlf_answer h
  | key => exact key_answer h
  | spc =>
    rcases hs : scan Tape.device (skipHwsScanner 1) v.spcs t with ⟨x, k, u⟩
    rw [act_spc hs] at h
    cases h
    obtain rfl | rfl := hws_stat hs
    · exact .ok
    · exact .parseErr rfl
  | value => exact value_answer h
  | eol1b =>
    have h : (some v.endLine.1, v.endLine.2, t) = (some r, v', t') := h
    unfold endLine at h
    split at h
    · split at h <;> cases h
      · exact .ok
      · exact .ok
      · exact .parseErr rfl
    · cases h
      exact .ok
  | search =>
    obtain ⟨y, v₁, h₁, hp⟩ := Reader.map_keep_inv h
    obtain rfl | ⟨rfl | rfl, hc⟩ := matchBoundary_answer h₁
    · cases hp
      exact .ok
    · cases hp
      exact .eof hc
    · cases hp
      exact .ok
  | search2 =>
    obtain ⟨v₁, h₁, rfl⟩ := Reader.onOk_inv h
    obtain ⟨y, n, hs, hp⟩ := Reader.ofScan_keep_inv h₁
    have hR : y = .ok ∨ y = .nomatch ∨ y = .eof := by
      refine scan_answer (S := dashScanner) (R := fun y => y = .ok ∨ y = .nomatch ∨ y = .eof)
        (fun {s r} hg => ?_) (fun {s b r s'} hb => ?_) (fun {s r s'} he => ?_) hs
      · simp only [dashScanner] at hg
        split at hg <;> cases hg
        exact .inl rfl
      · simp only [dashScanner] at hb
        split at hb <;> simp at hb
        simp [← hb.1]
      · simp only [dashScanner] at he
        simp at he
        simp [← he.1]
    obtain rfl | rfl | rfl := hR <;> cases hp
    · exact .ok
    · exact .ok
    · exact .eof rfl
  | eof =>
    obtain ⟨v₁, h₁, rfl⟩ := Reader.onOk_inv h
    obtain ⟨y, s, hs, hp⟩ := Reader.ofScan_keep_inv h₁
    have hR : y = .ok ∨ y = .eof := by
      refine scan_answer (S := skipWsScanner) (R := fun y => y = .ok ∨ y = .eof)
        (fun hg => by cases hg) (fun {s b r s'} hb => ?_) (fun {s r s'} he => ?_) hs
      · simp only [skipWsScanner] at hb
        split at hb <;> simp at hb
        simp [← hb]
      · simp only [skipWsScanner] at he
        simp at he
        simp [← he]
    obtain rfl | rfl := hR <;> cases hp
    · exact .ok
    · exact .eof rfl
  | beyond =>
    cases h
    exact .ok

end Answers

section Waits

theorem ofScan_wait_left {V σ ρ : Type} {S : Scanner UInt8 σ ρ} {load : V → σ} {store : V → σ → V}
    {post : V → ρ → Stat × V} {u u' : V} (ht : t.Ready)
    (h : Reader.ofScan S load store post u t = (none, u', t')) : t'.canRead.left < t.left := by
  obtain ⟨s, hs, -⟩ := Reader.ofScan_wait_inv h
  exact (Tape.scan_slept ht hs).left

theorem matchBoundary_wait_inv {dat : Bool} (ht : t.Ready)
    (h : matchBoundary dat v t = (none, v', t')) :
    ∃ k, v' = v.arm.setHead k ∧ t'.canRead.left < t.left ∧
      scan Tape.device Kmp.scanner v.arm.head (mirrored dat v t) = (none, k, t') := by
  by_cases hb : v.boundaries = []
  · simp [matchBoundary, hb] at h
  · rcases hs : seek v.arm (mirrored dat v t) with ⟨_ | y, v₁, t₁⟩ <;>
      rw [matchBoundary_eq hb hs] at h
    · cases h
      obtain ⟨m, hm⟩ := mirrored_eq dat v t
      obtain ⟨k, hk, rfl⟩ := Reader.ofScan_wait_inv hs
      refine ⟨k, rfl, ?_, hk⟩
      rw [hm] at hk
      exact (Tape.scan_slept (ht.setMir m) hk).left
    · split at h <;> cases h

/-- What a suspended round of the outer loop leaves alone. -/
structure Sleeps (q : MpfdSt) (v : Mpfd) (t : Tape) (v' : Mpfd) (t' : Tape) : Prop where
  left : t'.canRead.left < t.left
  crashed : v'.crashed = v.crashed
  flag : v'.cdp.flag = v.cdp.flag
  disp : q ≠ .spc → v'.cdp.state = v.cdp.state
  nxt : v'.nxtState = v.nxtState
  ended : q ≠ .start → q ≠ .search → v'.matchEnded = v.matchEnded

theorem act_sleeps {q : MpfdSt} (ht : t.Ready) (h : act cfg q v t = (none, v', t')) :
    Sleeps q v t v' t' := by
  have search {dat : Bool} (hq : q = .start ∨ q = .search) (h : matchBoundary dat v t =
      (none, v', t')) :
      Sleeps q v t v' t' := by
    obtain ⟨k, rfl, hleft, -⟩ := matchBoundary_wait_inv ht h
    have harm : v.arm.crashed = v.crashed ∧ v.arm.cdp = v.cdp ∧ v.arm.nxtState = v.nxtState := by
      unfold arm
      split <;> exact ⟨rfl, rfl, rfl⟩
    obtain ⟨hc, hd, hn⟩ := harm
    refine ⟨hleft, hc, congrArg Contdisp.flag hd, fun _ => congrArg Contdisp.state hd, hn, ?_⟩
    obtain rfl | rfl := hq
    · exact fun h => absurd rfl h
    · exact fun _ h => absurd rfl h
  cases q with
  | start => exact search (.inl rfl) (Reader.map_wait_inv h)
  | search => exact search (.inr rfl) (Reader.map_wait_inv h)
  | eol0 | eol1a | search2 | search3 | eof =>
    have h' := Reader.map_wait_inv h
    have hleft := ofScan_wait_left ht h'
    obtain ⟨s, -, rfl⟩ := Reader.ofScan_wait_inv h'
    exact ⟨hleft, rfl, rfl, fun _ => rfl, rfl, fun _ _ => rfl⟩
  | key =>
    obtain h | ⟨v₁, t₁, h₁, h₂⟩ := Reader.onStat_wait h
    · have h' := Reader.map_wait_inv h
      have hleft := ofScan_wait_left ht h'
      obtain ⟨s, -, rfl⟩ := Reader.ofScan_wait_inv h'
      exact ⟨hleft, rfl, rfl, fun _ => rfl, rfl, fun _ _ => rfl⟩
    · have hready := ((Reader.merges_onOk gobbleCrlf_merges).passed ht h₁).2.ready
      obtain ⟨v₂, h₁, hv₁⟩ := Reader.onOk_inv h₁
      rw [if_neg (by simp)] at hv₁
      obtain ⟨y, s, hs, hpost⟩ := Reader.ofScan_keep_inv (hv₁ ▸ h₁)
      cases hpost
      have h' := Reader.map_wait_inv h₂
      have hleft := ofScan_wait_left hready h'
      have hle : t₁.left ≤ t.left :=
        Tape.scan_left_le (S := Okws.gobbleCrlf) (fun _ _ => by simp [Okws.gobbleCrlf]) hs
      obtain ⟨s, -, rfl⟩ := Reader.ofScan_wait_inv h'
      exact ⟨Nat.lt_of_lt_of_le hleft hle, rfl, rfl, fun _ => rfl, rfl, fun _ _ => rfl⟩
  | spc =>
    rcases hs : scan Tape.device (skipHwsScanner 1) v.spcs t with ⟨x, k, u⟩
    rw [act_spc hs] at h
    cases h
    exact ⟨(Tape.scan_slept ht hs).left, rfl, rfl, fun h => absurd rfl h, rfl, fun _ _ => rfl⟩
  | value =>
    have h : value cfg v.kt v t = (none, v', t') := h
    have hkinds (k : MpfdKt) (h : value cfg k v t = (none, v', t')) : Sleeps .value v t v' t' := by
      cases k with
      | disposition => cases h
      | other | type =>
        have h' := Reader.map_wait_inv h
        have hleft := ofScan_wait_left ht h'
        obtain ⟨s, -, rfl⟩ := Reader.ofScan_wait_inv h'
        exact ⟨hleft, rfl, rfl, fun _ => rfl, rfl, fun _ _ => rfl⟩
    exact hkinds v.kt h
  | eol1b | beyond => cases h

/-- What a suspended round of the inner loop leaves alone. -/
structure DispSleeps (v : Mpfd) (t : Tape) (v' : Mpfd) (t' : Tape) : Prop where
  left : t'.canRead.left < t.left
  crashed : v'.crashed = v.crashed
  flag : v'.cdp.flag = v.cdp.flag
  frame : DispFrame v v'
  disp : v'.cdp.state = v.cdp.state ∨ (v.cdp.state = .sep1 ∧ v'.cdp.state = .filenameKey)

theorem dispAct_sleeps {q : ContdispSt} (hst : v.cdp.state = q) (ht : t.Ready)
    (h : dispAct q v t = (none, v', t')) : DispSleeps v t v' t' := by
  cases q with
  | sep1 =>
    rcases hs : skipHws 1 v t with ⟨x, v₁, u⟩
    rw [dispAct_sep1 hs] at h
    cases h
    have hleft := ofScan_wait_left ht hs
    obtain ⟨k, -, rfl⟩ := Reader.ofScan_wait_inv hs
    obtain ⟨hf, hs'⟩ := setTyp_frame v.cdp
    exact ⟨hleft, rfl, hf, ⟨rfl, rfl, rfl⟩, hs'.imp_right fun h => ⟨hst, h⟩⟩
  | beyond => cases h
  | start | nameKey | nameVal | sep2a | sep2b | sep2c | filenameKey | filenameVal =>
    simp only [dispAct, dispWord, forceMatch, dispEol, requirechar, skipHws, dispFilename] at h
    have hleft := ofScan_wait_left ht h
    obtain ⟨s, -, rfl⟩ := Reader.ofScan_wait_inv h
    exact ⟨hleft, rfl, rfl, ⟨rfl, rfl, rfl⟩, .inl rfl⟩

end Waits

section Steps

variable {w w' : Mpfd × Tape}

theorem step_inner (h : v.ext = true) :
    (machine cfg).step (v, t) = dispOutcome (dispAct v.cdp.state v t) := if_pos h

theorem step_outer (h : v.ext = false) :
    (machine cfg).step (v, t) = outcome (act cfg v.state v t) := if_neg (by simp [h])

theorem dispOutcome_goes (hc : v.crashed = false) (hf : v.cdp.flag = true) :
    dispOutcome (some .ok, v, t) =
      .next ({ v with cdp := { v.cdp with state := v.cdp.state.inc } }, t) := by
  simp [dispOutcome, hc, hf]

theorem dispOutcome_ends (hc : v.crashed = false) (hf : v.cdp.flag = false) :
    dispOutcome (some .ok, v, t) = .next ({ v with
      state := v.state.inc, ext := false,
        cdp := { v.cdp with state := v.cdp.state.inc, flag := true } },
      t.canRead) := by
  simp [dispOutcome, hc, hf, inc]

theorem dispOutcome_stop (hc : v.crashed = true ∨ r ≠ .ok) :
    ∃ o, dispOutcome (some r, v, t) = .stop o ∧
    (v.crashed = true ∨ (r ≠ .eof ∧ r ≠ .parseErr) → ∀ x, o ≠ .finished x) ∧
    (v.crashed = false → r = .eof ∨ r = .parseErr → ∃ x, o = .finished x) := by
  cases hcr : v.crashed with
  | true => exact ⟨.crash, by simp [dispOutcome, hcr], by rintro _ _ ⟨⟩, by rintro ⟨⟩⟩
  | false =>
    have hr := hc.resolve_left (by simp [hcr])
    cases r
    case ok => exact absurd rfl hr
    case eof => exact ⟨_, by simp only [dispOutcome, hcr]; rfl, by simp, fun _ _ => ⟨_, rfl⟩⟩
    case parseErr => exact ⟨_, by simp only [dispOutcome, hcr]; rfl, by simp, fun _ _ => ⟨_, rfl⟩⟩
    all_goals exact ⟨.stalled, by simp only [dispOutcome, hcr]; rfl, by rintro _ _ ⟨⟩, by simp⟩

theorem outcome_stop (hc : v.crashed = true ∨ r ≠ .ok) : ∃ o, outcome (some r, v, t) = .stop o ∧
    (v.crashed = true ∨ (r ≠ .eof ∧ r ≠ .parseErr) → ∀ x, o ≠ .finished x) ∧
    (v.crashed = false → r = .eof ∨ r = .parseErr → ∃ x, o = .finished x) := by
  cases hcr : v.crashed with
  | true => exact ⟨.crash, by simp [outcome, hcr], fun _ => nofun, nofun⟩
  | false =>
    have hr := hc.resolve_left (by simp [hcr])
    refine ⟨v.finish r, by simp [outcome, hcr, hr], ?_, ?_⟩
    · cases r <;> simp [finish]
    · rintro - (rfl | rfl) <;> exact ⟨_, rfl⟩

theorem Inv.inner (hI : Inv (v, t)) (hext : v.ext = true) :
    v.state = .value ∧ v.matchEnded = true := by
  have hst : v.state = .value := (hI.ext hext).1
  exact ⟨hst, hI.ended (by simp [hst]) (by simp [hst]) (by simp [hst])⟩

theorem Inv.enterInner (ready : t.Ready) (crashed : v.crashed = false) (flag : v.cdp.flag = true)
    (ext : v.ext = true) (ended : v.matchEnded = true) (state : v.state = .value)
    (disp : v.cdp.state ≠ .beyond) : Inv (v, t) where
  ready := ready
  crashed := crashed
  flag := flag
  state := by simp [state]
  ext _ := ⟨state, disp⟩
  value _ h := by cases ext.symm.trans h
  nxt h := by cases state.symm.trans h
  ended _ _ _ := ended
  bc h := by cases state.symm.trans h
  copied h := by cases state.symm.trans h

theorem todo_inner (h : v.ext = true) : todo (v, t) =
    dispTodo v.cdp.state t + 12 * rank v.state + 1 := by
  simp only [todo, credit, h, if_true, dispTodo]
  omega

theorem inner_next (hI : Inv (v, t)) (hext : v.ext = true)
    (hno : ¬ DispHazard v t.ahead v.cdp.state)
    (h : dispOutcome (dispAct v.cdp.state v t) = .next w') : Inv w' ∧ todo w' < todo (v, t) := by
  obtain ⟨hst, hended⟩ := hI.inner hext
  obtain ⟨-, hq⟩ := hI.ext hext
  rcases ha : dispAct v.cdp.state v t with ⟨_ | r, v', t'⟩ <;> rw [ha] at h
  · cases h
  have hready := (dispAct_passed hI.ready ha).2.ready
  by_cases hr : r = .ok
  · subst hr
    obtain ⟨hfr, hok⟩ := dispAct_ok rfl hq ha
    cases hok with
    | goes hc hf hs htodo =>
      rw [dispOutcome_goes (hc.trans hI.crashed) (hf.trans hI.flag)] at h
      cases h
      refine ⟨.enterInner hready (hc.trans hI.crashed) (hf.trans hI.flag) (hfr.ext.trans hext)
        (hfr.ended.trans hended) (hfr.state.trans hst) hs, ?_⟩
      rw [todo_inner (v := { v' with cdp := { v'.cdp with state := v'.cdp.state.inc } })
        (hfr.ext.trans hext), todo_inner hext]
      have htodo : dispTodo v'.cdp.state.inc t' < dispTodo v.cdp.state t := htodo
      simp only [hfr.state]
      omega
    | ends hc hf hleft =>
      rw [dispOutcome_ends (hc.trans hI.crashed) hf] at h
      cases h
      have hs : v'.state.inc = .eol1a := by rw [hfr.state, hst]; rfl
      refine ⟨.enter ⟨.inl rfl, hready.bc⟩ (hc.trans hI.crashed) rfl rfl (hfr.ended.trans hended) ?_
        ?_ ?_ ?_, ?_⟩
      · simp [hs]
      · simp [hs]
      · simp [hs]
      · simp [hs]
      · have hleft : t'.left ≤ t.left + dispCredit v.cdp.state := hleft
        have hleft' : t'.canRead.left = t'.left := rfl
        rw [todo_outer rfl, todo_inner hext, hst]
        simp only [hs, rank, dispTodo, reduceCtorEq, if_false, hleft']
        omega
    | breaks _ hname =>
      rw [hname.1] at hno
      exact absurd (.inr hname.2) hno
  · obtain ⟨o, ho, -⟩ := dispOutcome_stop (v := v') (t := t') (.inr hr)
    cases ho.symm.trans h

theorem outcome_ok (hc : v.crashed = false) :
    outcome (some .ok, v, t) = .next (v, if v.ext then t.canRead else t) := by
  simp [outcome, hc]

theorem outer_next (hI : Inv (v, t)) (hext : v.ext = false) (hno : ¬ OuterHazard v t.ahead v.state)
    (h : outcome (act cfg v.state v t) = .next w') : Inv w' ∧ todo w' < todo (v, t) := by
  rcases ha : act cfg v.state v t with ⟨_ | r, v', t'⟩ <;> rw [ha] at h
  · cases h
  by_cases hr : r = .ok
  · subst hr
    obtain ⟨hst, rfl, rfl⟩ | hp := act_proceeds hI hext rfl hno ha
    · rw [outcome_ok (v := { v with ext := true }) hI.crashed] at h
      cases h
      have hdisp := hI.value hst hext
      have hended : v.matchEnded = true := hI.ended (by simp [hst]) (by simp [hst]) (by simp [hst])
      refine ⟨.enterInner ⟨.inl rfl, hI.ready.bc⟩ hI.crashed hI.flag rfl hended hst ?_, ?_⟩
      · rw [show v.cdp.state = _ from hdisp]
        simp
      · have hleft : t'.canRead.left = t'.left := rfl
        rw [todo_inner rfl, todo_outer hext]
        simp only [show v.cdp.state = _ from hdisp, hst, dispTodo, dispCredit, dispRank,
          reduceCtorEq, if_true, if_false, hleft]
        omega
    · rw [outcome_ok hp.inv.crashed, hp.ext, if_neg (by simp)] at h
      cases h
      exact ⟨hp.inv, hp.todo⟩
  · obtain ⟨o, ho, -⟩ := outcome_stop (v := v') (t := t') (.inr hr)
    cases ho.symm.trans h

theorem step_next_inv (hI : Inv w) (hno : ¬ Hazard w) (h : (machine cfg).step w = .next w') :
    Inv w' ∧ todo w' < todo w := by
  obtain ⟨v, t⟩ := w
  cases hext : v.ext with
  | true =>
    simp only [Hazard, hext, if_true] at hno
    exact inner_next hI hext hno ((step_inner hext).symm.trans h)
  | false =>
    simp only [Hazard, hext, Bool.false_eq_true, if_false] at hno
    exact outer_next hI hext hno ((step_outer hext).symm.trans h)

theorem inner_wait (hI : Inv (v, t)) (hext : v.ext = true)
    (h : dispOutcome (dispAct v.cdp.state v t) = .wait (v', t')) :
    Inv (v', t'.canRead) ∧ todo (v', t'.canRead) < todo (v, t) := by
  obtain ⟨hst, hended⟩ := hI.inner hext
  have hq : v.cdp.state ≠ .beyond := (hI.ext hext).2
  rcases ha : dispAct v.cdp.state v t with ⟨_ | r, v₁, t₁⟩ <;> rw [ha] at h
  · cases h
    have ht : t.Ready := hI.ready
    have hpaused := dispAct_paused ht ha
    obtain ⟨hleft, hc, hf, hfr, hd⟩ := dispAct_sleeps rfl ht ha
    refine ⟨.enterInner hpaused.ready (hc.trans hI.crashed) (hf.trans hI.flag) (hfr.ext.trans hext)
      (hfr.ended.trans hended) (hfr.state.trans hst) ?_, ?_⟩
    · obtain hd | ⟨-, hd⟩ := hd <;> rw [hd]
      · exact hq
      · nofun
    · rw [todo_inner (hfr.ext.trans hext), todo_inner hext, hfr.state]
      have hdisp : dispTodo v'.cdp.state t'.canRead < dispTodo v.cdp.state t := by
        obtain hd | ⟨hs, hd⟩ := hd
        · simp only [hd, dispTodo]
          omega
        · simp only [hs, hd, dispTodo, dispCredit, dispRank]
          omega
      omega
  · obtain hc | hc := Decidable.em (v₁.crashed = true ∨ r ≠ .ok)
    · obtain ⟨o, ho, -⟩ := dispOutcome_stop (t := t₁) hc
      cases ho.symm.trans h
    · simp only [not_or, Bool.not_eq_true, ne_eq, Decidable.not_not] at hc
      obtain ⟨hc, rfl⟩ := hc
      cases hf : v₁.cdp.flag with
      | true => cases (dispOutcome_goes hc hf).symm.trans h
      | false => cases (dispOutcome_ends hc hf).symm.trans h

theorem outer_wait (hI : Inv (v, t)) (hext : v.ext = false)
    (h : outcome (act cfg v.state v t) = .wait (v', t')) :
    Inv (v', t'.canRead) ∧ todo (v', t'.canRead) < todo (v, t) := by
  rcases ha : act cfg v.state v t with ⟨_ | r, v₁, t₁⟩ <;> rw [ha] at h
  · cases h
    have ht : t.Ready := hI.ready
    have hpaused := act_paused ht ha
    obtain ⟨hst, hex⟩ := act_wait_control ha
    obtain ⟨hleft, hc, hf, hd, hn, he⟩ := act_sleeps ht ha
    have hcop (hs : v.state = .search) : v'.head.Copied v'.scr.cap t'.canRead := by
      rw [hs] at ha
      obtain ⟨k, hv, -, hk⟩ := matchBoundary_wait_inv hI.ready (Reader.map_wait_inv ha)
      obtain ⟨hbc, hq, hmir⟩ := ((hI.copied_arm hs).1.scan hk).2.1 rfl
      have hhead : v'.head = k := by rw [hv]; rfl
      have hcap : v'.scr.cap = v.scr.cap := by
        rw [hv]
        unfold setHead arm
        split <;> rfl
      rw [hhead, hcap]
      exact ⟨hbc, hq, hmir⟩
    refine ⟨⟨hpaused.ready, hc.trans hI.crashed, hf.trans hI.flag,
      ?_, fun h => ?_, fun h _ => ?_, fun h => ?_,
      fun h₁ h₂ h₃ => ?_, fun h => (hcop (hst.symm.trans h)).bc, fun h _ =>
        hcop (hst.symm.trans h)⟩, ?_⟩
    · exact hst.symm ▸ hI.state
    · cases h.symm.trans (hex.trans hext)
    · have h : v.state = .value := hst.symm.trans h
      exact (hd (by simp [h])).trans (hI.value h hext)
    · exact hn.symm ▸ hI.nxt (hst.symm.trans h)
    · simp only [hst] at h₁ h₂ h₃
      exact (he h₁ h₂).trans (hI.ended h₁ h₂ h₃)
    · rw [todo_outer (hex.trans hext), todo_outer hext, hst]
      omega
  · obtain hc | hc := Decidable.em (v₁.crashed = true ∨ r ≠ .ok)
    · obtain ⟨o, ho, -⟩ := outcome_stop (t := t₁) hc
      cases ho.symm.trans h
    · simp only [not_or, Bool.not_eq_true, ne_eq, Decidable.not_not] at hc
      obtain ⟨hc, rfl⟩ := hc
      cases (outcome_ok hc).symm.trans h

theorem step_wait_inv (hI : Inv w) (h : (machine cfg).step w = .wait w') :
    Inv ((machine cfg).resume w') ∧ todo ((machine cfg).resume w') < todo w := by
  obtain ⟨v, t⟩ := w
  obtain ⟨v', t'⟩ := w'
  cases hext : v.ext with
  | true => exact inner_wait hI hext ((step_inner hext).symm.trans h)
  | false => exact outer_wait hI hext ((step_outer hext).symm.trans h)

theorem step_finished {o : MpfdOut} (hI : Inv w) (hno : ¬ Hazard w)
    (h : (machine cfg).step w = .stop o) :
    ∃ r, o = .finished r := by
  obtain ⟨v, t⟩ := w
  cases hext : v.ext with
  | true =>
    simp only [Hazard, hext, if_true] at hno
    rw [step_inner hext] at h
    rcases ha : dispAct v.cdp.state v t with ⟨_ | r, v', t'⟩ <;> rw [ha] at h
    · cases h
    have hanswer := dispAct_answer ha
    have finishes (hc : v'.crashed = v.crashed) (hr : r = .eof ∨ r = .parseErr) :
        ∃ r, o = .finished r := by
      obtain ⟨o', ho, -, hfin⟩ := dispOutcome_stop (v := v') (r := r) (t := t')
        (.inr (by obtain rfl | rfl := hr <;> nofun))
      cases ho.symm.trans h
      exact hfin (hc.trans hI.crashed) hr
    cases hanswer with
    | eof hc => exact finishes hc (.inl rfl)
    | parseErr hc => exact finishes hc (.inr rfl)
    | overflow hH => exact absurd hH hno
    | ok =>
      exfalso
      obtain ⟨-, hok⟩ := dispAct_ok rfl (hI.ext hext).2 ha
      cases hok with
      | goes hc hf =>
        cases (dispOutcome_goes (hc.trans hI.crashed) (hf.trans hI.flag)).symm.trans h
      | ends hc hf => cases (dispOutcome_ends (hc.trans hI.crashed) hf).symm.trans h
      | breaks _ hname =>
        have hname : v.cdp.state = .filenameVal ∧ NoFilename v t.ahead := hname
        rw [hname.1] at hno
        exact hno (.inr hname.2)
  | false =>
    simp only [Hazard, hext, Bool.false_eq_true, if_false] at hno
    rw [step_outer hext] at h
    rcases ha : act cfg v.state v t with ⟨_ | r, v', t'⟩ <;> rw [ha] at h
    · cases h
    have finishes (hc : v'.crashed = v.crashed) (hr : r = .eof ∨ r = .parseErr) :
        ∃ r, o = .finished r := by
      obtain ⟨o', ho, -, hfin⟩ := outcome_stop (v := v') (r := r) (t := t')
        (.inr (by obtain rfl | rfl := hr <;> nofun))
      cases ho.symm.trans h
      exact hfin (hc.trans hI.crashed) hr
    cases act_answer ha with
    | eof hc => exact finishes hc (.inl rfl)
    | parseErr hc => exact finishes hc (.inr rfl)
    | overflow hH => exact absurd hH hno
    | ok =>
      exfalso
      obtain ⟨-, rfl, rfl⟩ | hp := act_proceeds hI hext rfl hno ha
      · cases (outcome_ok (v := { v with ext := true }) hI.crashed).symm.trans h
      · cases (outcome_ok hp.inv.crashed).symm.trans h

/-- A call that does not come to an answer the loops know. -/
def Breaks (x : Option Stat × Mpfd × Tape) : Prop :=
  ∃ r v t, x = (some r, v, t) ∧ (r = .overflow ∨ v.crashed = true)

theorem overflow_scan {mark : UInt8 → Mark} {s : Scratch} {p : UInt8 → Bool}
    (hscan : ∀ {x s' t'}, scan Tape.device (delimScanner mark false) s t = (x, s', t') →
      (x = some (.error .overflow) ↔ s.Overflows p t.ahead)) (h : s.Overflows p t.ahead) :
    ∃ s' t', scan Tape.device (delimScanner mark false) s t =
      (some (.error .overflow), s', t') := by
  rcases hs : scan Tape.device (delimScanner mark false) s t with ⟨x, s', t'⟩
  obtain rfl := (hscan hs).2 h
  exact ⟨s', t', rfl⟩

theorem dispWord_breaks {mark : UInt8 → Mark} {set : Contdisp → Str → Contdisp} {p : UInt8 → Bool}
    (hscan : ∀ {x s' t'}, scan Tape.device (delimScanner mark false) v.cdp.scr t = (x, s', t') →
      (x = some (.error .overflow) ↔ v.cdp.scr.Overflows p t.ahead)) (h :
        v.cdp.scr.Overflows p t.ahead) :
    Breaks (dispWord (delimScanner mark false) set v t) := by
  obtain ⟨s, u, hs⟩ := overflow_scan hscan h
  rw [dispWord]
  exact ⟨_, _, _, Reader.ofScan_some hs, .inl rfl⟩

theorem dispAct_breaks {q : ContdispSt} (h : DispHazard v t.ahead q) : Breaks (dispAct q v t) := by
  cases q with
  | start =>
    rw [dispAct]
    exact dispWord_breaks delimit_overflow h
  | nameVal =>
    rw [dispAct]
    exact dispWord_breaks delimit_overflow h
  | filenameVal =>
    rcases hs : scan Tape.device (delimit Byte.cr false false) v.cdp.scr t with ⟨x, s, u⟩
    obtain ⟨hok, herr⟩ := delimit_cr hs
    rw [dispAct, dispFilename]
    by_cases hover : v.cdp.scr.Overflows (isWord Byte.cr) t.ahead
    · obtain rfl := (delimit_overflow hs).2 hover
      exact ⟨_, _, _, Reader.ofScan_some hs, .inl rfl⟩
    obtain ⟨hcr, hnil⟩ | ⟨hlf, hnil⟩ := h.resolve_left hover
    · obtain rfl := (hok _).2 ⟨hover, rfl, hcr⟩
      refine ⟨_, _, _, Reader.ofScan_some hs, .inr ?_⟩
      simp [setFilename, hnil]
    · obtain rfl := herr.2 ⟨hover, hlf⟩
      refine ⟨_, _, _, Reader.ofScan_some hs, .inr ?_⟩
      obtain ⟨-, heq⟩ | ⟨hne, -⟩ := setFilename_cases { v with cdp := { v.cdp with scr := s } }
      · simp [heq]
      · exact absurd hnil hne
  | sep1 | nameKey | sep2a | sep2b | sep2c | filenameKey | beyond => exact absurd h id

theorem word_breaks {mark : UInt8 → Mark} {set : Mpfd → Str → Mpfd} {g : Mpfd → Mpfd}
    {p : UInt8 → Bool}
    (hscan : ∀ {x s' t'}, scan Tape.device (delimScanner mark false) v.scr t = (x, s', t') →
      (x = some (.error .overflow) ↔ v.scr.Overflows p t.ahead)) (h : v.scr.Overflows p t.ahead) :
    Breaks ((word (delimScanner mark false) set).onOk g v t) := by
  obtain ⟨s, u, hs⟩ := overflow_scan hscan h
  exact ⟨_, _, _, Reader.map_some (Reader.ofScan_some hs), .inl rfl⟩

theorem key_breaks (h : OuterHazard v t.ahead .key) : Breaks (act cfg .key v t) := by
  obtain ⟨hneed, hhead, hover⟩ := h
  rcases hget : t.get with ⟨b | _ | _, u⟩
  · rw [Tape.ahead_byte hget] at hhead
    have heol : Byte.isEol b = false := by simpa using hhead
    have hahead : u.unget.ahead = t.ahead :=
      Tape.ahead_congr ((Tape.get_unget hget (by simp) (.inl (by simp))).trans hget.symm)
    have hscan : scan Tape.device Okws.gobbleCrlf v.needLF t = (some .nomatch, false, u.unget) :=
      hneed ▸ scan_gobble_other hget heol
    have hgob : gobbleCrlf.onOk endHeader v t =
        (some .nomatch, { v with needLF := false }, u.unget) :=
      Reader.map_some (Reader.ofScan_some hscan)
    rw [act, Reader.onStat_some hgob, if_pos rfl]
    exact word_breaks delimitKey_overflow (hahead ▸ hover)
  · rw [Tape.ahead_nil hget (by rintro _ ⟨⟩)] at hhead
    cases hhead
  · rw [Tape.ahead_nil hget (by rintro _ ⟨⟩)] at hhead
    cases hhead

theorem search_breaks (hI : Inv (v, t)) (hst : v.state = .search)
    (h : OuterHazard v t.ahead .search) :
    Breaks (act cfg .search v t) := by
  obtain ⟨hb, hcap, hfinds⟩ := h
  rcases hs : scan Tape.device Kmp.scanner v.arm.head (mirrored true v t) with ⟨x, k, u⟩
  obtain rfl : x = some .ok := by
    refine (Kmp.scan_ok hs).2 ?_
    obtain ⟨m, hm⟩ := mirrored_eq true v t
    rw [hm, ← Tape.ahead_dropMirror, ← hfinds, ← Tape.ahead_dropMirror t]
    rfl
  have hmatch := matchBoundary_eq hb (Reader.ofScan_some hs)
  rw [if_pos ⟨rfl, rfl⟩] at hmatch
  obtain ⟨-, -, hcr⟩ := search_found hI hst hmatch
  refine ⟨_, _, _, Reader.map_some hmatch, .inr ?_⟩
  exact (insertPart_frame _).crashed.trans (hcr.trans (decide_eq_true hcap))

variable (cfg) in
theorem act_breaks {q : MpfdSt} (hI : Inv (v, t)) (hst : v.state = q)
    (h : OuterHazard v t.ahead q) :
    Breaks (act cfg q v t) ∨ ∃ v' t', act cfg q v t = (some .ok, v', t') ∧ v'.state = .beyond := by
  cases q with
  | key => exact .inl (key_breaks h)
  | value =>
    obtain ⟨hkt, hover⟩ := h
    have hkinds (k : MpfdKt) (hk : k ≠ .disposition) : Breaks (value cfg k v t) := by
      cases k with
      | disposition => exact absurd rfl hk
      | other | type => exact word_breaks delimitVal_overflow hover
    exact .inl (hkinds v.kt hkt)
  | search => exact .inl (search_breaks hI hst h)
  | eof =>
    rcases hs : scan Tape.device skipWsScanner () t with ⟨x, s, u⟩
    obtain rfl := (skipWs_ok hs).2 h
    exact .inr ⟨v.inc, u, Reader.map_some (Reader.ofScan_some hs), inc_state hst⟩
  | start | eol0 | spc | eol1a | eol1b | search2 | search3 | beyond => exact absurd h id

variable (cfg) in
theorem step_hazard (hI : Inv w) (h : Hazard w) :
    (∃ o, (machine cfg).step w = .stop o ∧ ∀ r, o ≠ .finished r) ∨
      ∃ w', (machine cfg).step w = .next w' ∧ w'.1.state = .beyond := by
  obtain ⟨v, t⟩ := w
  cases hext : v.ext with
  | true =>
    simp only [Hazard, hext, if_true] at h
    rw [step_inner hext]
    obtain ⟨r, v', t', ha, hbr⟩ := dispAct_breaks h
    obtain ⟨o, ho, hne, -⟩ := dispOutcome_stop (v := v') (r := r) (t := t')
      (hbr.symm.imp_right fun h => by simp [h])
    rw [ha]
    exact .inl ⟨o, ho, hne (hbr.symm.imp_right fun h => by simp [h])⟩
  | false =>
    simp only [Hazard, hext, Bool.false_eq_true, if_false] at h
    rw [step_outer hext]
    obtain ⟨r, v', t', ha, hbr⟩ | ⟨v', t', ha, hs⟩ := act_breaks cfg hI rfl h
    · obtain ⟨o, ho, hne, -⟩ := outcome_stop (v := v') (r := r) (t := t')
        (hbr.symm.imp_right fun h => by simp [h])
      rw [ha]
      exact .inl ⟨o, ho, hne (hbr.symm.imp_right fun h => by simp [h])⟩
    · rw [ha]
      cases hc : v'.crashed with
      | true => exact .inl ⟨.crash, by simp [outcome, hc], nofun⟩
      | false => exact .inr ⟨_, outcome_ok hc, hs⟩

end Steps

section Runs

variable {cap : Nat} {bs : List Str} {lim : Int} {rs : List Str}

theorem start_inv : Inv (start cfg cap bs lim rs) := by
  have hfold (v : Mpfd) : ∃ ks, bs.foldl (addBoundary cfg) v = { v with boundaries := ks } := by
    induction bs generalizing v with
    | nil => exact ⟨v.boundaries, rfl⟩
    | cons b bs ih => exact ih (v.addBoundary cfg b)
  obtain ⟨ks, hks⟩ :=
    hfold { scr := { cap := cap }, cdp := { scr := { cap := cap } }, boundaries := [] }
  rw [start, hks]
  exact ⟨⟨.inl rfl, by rintro ⟨⟩⟩, rfl, rfl, by rintro ⟨⟩, by rintro ⟨⟩, by rintro ⟨⟩,
    by rintro ⟨⟩, fun h => absurd rfl h, by rintro ⟨⟩, by rintro ⟨⟩⟩

/-- The parser answers, once, and its state variables stay in their enumerations. -/
def Finishes (cfg : MpfdConfig) (w : Mpfd × Tape) : Prop :=
  (∃ r, (machine cfg).Ends w (.finished r)) ∧ ∀ u, (machine cfg).Reaches w u →
    u.1.state ≠ .beyond ∧ (u.1.ext = true → u.1.cdp.state ≠ .beyond)

variable {w : Mpfd × Tape}

theorem Finishes.inv (h : Finishes cfg w) (hI : Inv w) {u : Mpfd × Tape}
    (hu : (machine cfg).Reaches w u) :
    Inv u := by
  induction hu with
  | refl => exact hI
  | next hr hs ih =>
    refine (step_next_inv ih (fun hz => ?_) hs).1
    obtain ⟨o, ho, -⟩ | ⟨x, hx, hst⟩ := step_hazard cfg ih hz
    · cases ho.symm.trans hs
    · exact (h.2 x (hr.next hx)).1 hst
  | wait hr hs ih => exact (step_wait_inv ih hs).1

theorem Finishes.safe (h : Finishes cfg w) (hI : Inv w) {u : Mpfd × Tape}
    (hu : (machine cfg).Reaches w u) :
    ¬ Hazard u := by
  intro hz
  obtain ⟨⟨r, hr⟩, hst⟩ := h
  obtain ⟨o, ho, hne⟩ | ⟨x, hx, hs⟩ := step_hazard cfg (Finishes.inv ⟨⟨r, hr⟩, hst⟩ hI hu) hz
  · have hend : (machine cfg).Ends w o := hu.ends.2 ((Machine.ends_stop ho).2 rfl)
    exact hne r (hend.unique hr)
  · exact (hst x (hu.next hx)).1 hs

theorem inv_of_safe (hI : Inv w) (h : ∀ u, (machine cfg).Reaches w u → ¬ Hazard u) {u : Mpfd × Tape}
    (hu : (machine cfg).Reaches w u) : Inv u := by
  induction hu with
  | refl => exact hI
  | next hr hs ih => exact (step_next_inv ih (h _ hr) hs).1
  | wait hr hs ih => exact (step_wait_inv ih hs).1

theorem finishes_of_safe (hI : Inv w) (h : ∀ u, (machine cfg).Reaches w u → ¬ Hazard u) :
    Finishes cfg w := by
  obtain ⟨o, ho⟩ := Machine.ends_of_measure (M := machine cfg) (w := w)
    (I := fun u => (machine cfg).Reaches w u ∧ Inv u) todo
    (fun hu hs => by
      obtain ⟨hinv, hlt⟩ := step_next_inv hu.2 (h _ hu.1) hs
      exact ⟨⟨hu.1.next hs, hinv⟩, hlt⟩)
    (fun hu hs => by
      obtain ⟨hinv, hlt⟩ := step_wait_inv hu.2 hs
      exact ⟨⟨hu.1.wait hs, hinv⟩, hlt⟩) ⟨.refl, hI⟩
  obtain ⟨u, hu, hstop⟩ := ho.last
  obtain ⟨r, rfl⟩ := step_finished (inv_of_safe hI h hu) (h u hu) hstop
  refine ⟨⟨r, ho⟩, fun u hu => ?_⟩
  have hinv := inv_of_safe hI h hu
  exact ⟨hinv.state, fun hext => (hinv.ext hext).2⟩

end Runs

/-- On every finite body, `parse_guts` comes to its end with one `finish_parse` and stays in its
enumerations if and only if no round begins in one of the dangerous states. -/
theorem parseGuts_finishes (cfg : MpfdConfig) (cap : Nat) (bs : List Str) (lim : Int)
    (rs : List Str) :
    Finishes cfg (start cfg cap bs lim rs) ↔
      ∀ u, (machine cfg).Reaches (start cfg cap bs lim rs) u → ¬ Hazard u :=
  ⟨fun h _ => h.safe start_inv, finishes_of_safe start_inv⟩

/-- Something behind the last boundary, a key and a boundary that are too long for the buffer, and
an upload without the end of its file name. -/
theorem parseGuts_not_finishes :
    ([(64, [45, 45, 98, 10, 10, 45, 45, 98, 45, 45, 10, 120]), (4, [45, 45, 98, 10, 97, 98, 99,
      100, 101, 102, 103, 104, 58, 32, 120, 10]), (2, [45, 45, 98, 10, 10, 45, 45, 98, 45, 45,
      10]), (64, [45, 45, 98, 10, 67, 111, 110, 116, 101, 110, 116, 45, 68, 105, 115, 112, 111,
      115, 105, 116, 105, 111, 110, 58, 32, 102, 111, 114, 109, 45, 100, 97, 116, 97, 59, 32, 110,
      97, 109, 101, 61, 34, 97, 34, 59, 32, 102, 105, 108, 101, 110, 97, 109, 101, 61, 34, 13, 10,
      13, 10, 45, 45, 98, 45, 45, 13, 10])] : List (Nat × Str)).Forall fun x =>
      ¬ Finishes ⟨fun _ => none, fun s => s.map Byte.toLower⟩
        (start ⟨fun _ => none, fun s => s.map Byte.toLower⟩ x.1 [[98]] (-1) [x.2]) := by
  have hazard {cap n : Nat} {body : Str}
      (h : ((machine ⟨fun _ => none, fun s => s.map Byte.toLower⟩).stateAt n
        (start ⟨fun _ => none, fun s => s.map Byte.toLower⟩ cap [[98]] (-1) [body])).any
          (decide <| Hazard ·) = true) :
      ¬ Finishes ⟨fun _ => none, fun s => s.map Byte.toLower⟩
        (start ⟨fun _ => none, fun s => s.map Byte.toLower⟩ cap [[98]] (-1) [body]) := by
    intro hfin
    obtain ⟨u, hu, hz⟩ := (Option.any_eq_true _ _).1 h
    exact hfin.safe start_inv (Machine.reaches_of_stateAt hu) (of_decide_eq_true hz)
  rw [List.forall_iff_forall_mem]
  intro x hx
  simp only [List.mem_cons, List.not_mem_nil, or_false] at hx
  obtain rfl | rfl | rfl | rfl := hx
  · exact hazard (n := 7) (by decide +kernel)
  · exact hazard (n := 2) (by decide +kernel)
  · exact hazard (n := 3) (by decide +kernel)
  · exact hazard (n := 13) (by decide +kernel)

end Mpfd

end Okws
