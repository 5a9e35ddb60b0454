import Okws.MpfdCodec

namespace Okws

open Lib

namespace Mpfd

/-- How `parse_guts` of the inner parser returns for the last time: with `finish_parse`, without it,
or not at all. -/
inductive ContdispOut
  | finished (status : Nat) (w : Mpfd × Tape)
  | stalled
  | crash
  deriving DecidableEq

def contdispOutcome : Option Stat × Mpfd × Tape → Iter (Mpfd × Tape) ContdispOut
  | (none, v, t) => .wait (v, t)
  | (some r, v, t) =>
    let v' := { v with cdp := { v.cdp with state := v.cdp.state.inc } }
    if v.crashed then .stop .crash
    else match r with
      | .ok => if v.cdp.flag then .next (v', t) else .stop (.finished Http.ok (v', t))
      | .eof | .parseErr => .stop (.finished Http.badRequest (v, t))
      | _ => .stop .stalled

/-- `contdisp_parser_t::parse_guts`. -/
def contdispMachine : Machine (Mpfd × Tape) ContdispOut where
  step := fun (v, t) => contdispOutcome (dispAct v.cdp.state v t)
  resume := fun (v, t) => (v, t.canRead)

def extParseCb (status : Nat) : Mpfd × Tape → Iter (Mpfd × Tape) MpfdOut
  | (v, t) =>
    if status = Http.ok then
      .next ({ v.inc with ext := false, cdp := { v.cdp with flag := true } }, t.canRead)
    else .stop (.finished ⟨status, v.tab, v.files⟩)

def ContdispOut.back : ContdispOut → Iter (Mpfd × Tape) MpfdOut
  | .finished status w => extParseCb status w
  | .stalled => .stop .stalled
  | .crash => .stop .crash

/-- The parser before a value: `typ_scr` and `filename_scr` are what the last one has left. -/
def contdispStart (v : Mpfd) (cap : Nat) (typScr filenameScr : Option Str) : Mpfd :=
  nested { v with crashed := false }
    { scr := { cap := cap }, typScr := typScr, filenameScr := filenameScr }

/-- The file's name is about to be cut out of a string that is empty or was never set. -/
def Nameless (w : Mpfd × Tape) : Prop :=
  w.1.cdp.state = .filenameVal ∧ ¬ w.1.cdp.scr.Overflows (isWord Byte.cr) w.2.ahead ∧
    NoFilename w.1 w.2.ahead

section Safety

variable {v v' : Mpfd} {t t' : Tape} {q : ContdispSt} {x : Option Stat}

theorem ofScan_crashed {σ ρ : Type} {S : Scanner UInt8 σ ρ} {load : Mpfd → σ}
    {store : Mpfd → σ → Mpfd} {post : Mpfd → ρ → Stat × Mpfd}
    (h : Reader.ofScan S load store post v t = (x, v', t'))
    (hstore : ∀ v s, (store v s).crashed = v.crashed)
    (hpost : ∀ v r, (post v r).2.crashed = v.crashed) : v'.crashed = v.crashed := by
  cases x with
  | none =>
    obtain ⟨s, -, rfl⟩ := Reader.ofScan_wait_inv h
    exact hstore v s
  | some r =>
    obtain ⟨y, s, -, hp⟩ := Reader.ofScan_keep_inv h
    rw [← hstore v s, ← hpost (store v s) y, hp]

theorem skipHws_crashed {mn : Nat} (h : skipHws mn v t = (x, v', t')) :
    v'.crashed = v.crashed := by
  rw [skipHws] at h
  exact ofScan_crashed h (fun _ _ => rfl) fun _ _ => rfl

theorem dispAct_crashed (hq : q ≠ .filenameVal) (h : dispAct q v t = (x, v', t')) :
    v'.crashed = v.crashed := by
  cases q with
  | sep1 =>
    rcases hs : skipHws 1 v t with ⟨r, v₁, u⟩
    rw [dispAct_sep1 hs] at h
    cases h
    exact (skipHws_crashed hs :)
  | sep2c => exact skipHws_crashed h
  | filenameVal => exact absurd rfl hq
  | beyond =>
    cases h
    rfl
  | start | nameVal =>
    rw [dispAct, dispWord] at h
    exact ofScan_crashed h (fun _ _ => rfl) fun _ r => by cases r <;> rfl
  | sep2a =>
    rw [dispAct, dispEol] at h
    exact ofScan_crashed h (fun _ _ => rfl) fun _ r => by cases r <;> rfl
  | nameKey | filenameKey =>
    rw [dispAct, forceMatch] at h
    exact ofScan_crashed h (fun _ _ => rfl) fun _ _ => rfl
  | sep2b =>
    rw [dispAct, requirechar] at h
    exact ofScan_crashed h (fun _ _ => rfl) fun _ _ => rfl

theorem dispFilename_crashed (hc : v.crashed = false) (h : dispFilename v t = (x, v', t')) :
    v'.crashed = true ↔
      ¬ v.cdp.scr.Overflows (isWord Byte.cr) t.ahead ∧ NoFilename v t.ahead := by
  cases x with
  | none =>
    obtain ⟨s, hs, rfl⟩ := Reader.ofScan_wait_inv h
    obtain ⟨hok, herr⟩ := delimit_cr hs
    simp only [hc, Bool.false_eq_true, false_iff, not_and]
    rintro hover (⟨hcr, -⟩ | ⟨hlf, -⟩)
    · exact absurd ((hok _).2 ⟨hover, rfl, hcr⟩) nofun
    · exact absurd (herr.2 ⟨hover, hlf⟩) nofun
  | some r =>
    obtain ⟨y, s, hs, hp⟩ := Reader.ofScan_keep_inv h
    obtain ⟨hok, herr⟩ := delimit_cr hs
    cases y with
    | ok z =>
      cases hp
      obtain ⟨hover, hz, hcr⟩ := (hok z).1 rfl
      obtain ⟨hnil, heq⟩ | ⟨hne, heq, -⟩ :=
        setFilename_cases { v with cdp := { v.cdp with scr := s, filenameScr := some z } }
      · exact iff_of_true (congrArg crashed heq) ⟨hover, .inl ⟨hcr, hz ▸ hnil⟩⟩
      · refine iff_of_false (ne_true_of_eq_false (heq.trans hc)) ?_
        rintro ⟨-, ⟨-, hnil⟩ | ⟨hlf, -⟩⟩
        · exact hne (hz.trans hnil)
        · rw [hcr] at hlf
          cases hlf
    | error e =>
      by_cases he : e = .parseErr
      · subst he
        cases hp
        obtain ⟨hover, hlf⟩ := herr.1 rfl
        obtain ⟨hnil, heq⟩ | ⟨hne, heq, -⟩ :=
          setFilename_cases { v with cdp := { v.cdp with scr := s } }
        · exact iff_of_true (congrArg crashed heq) ⟨hover, .inr ⟨hlf, hnil⟩⟩
        · refine iff_of_false (ne_true_of_eq_false (heq.trans hc)) ?_
          rintro ⟨-, ⟨hcr, -⟩ | ⟨-, hnil⟩⟩
          · rw [hlf] at hcr
            cases hcr
          · exact hne hnil
      · have hv : v' = { v with cdp := { v.cdp with scr := s } } := by
          cases e <;> first | exact absurd rfl he | (cases hp; rfl)
        rw [hv]
        simp only [hc, Bool.false_eq_true, false_iff, not_and]
        rintro hover (⟨hcr, -⟩ | ⟨hlf, -⟩)
        · exact absurd ((hok _).2 ⟨hover, rfl, hcr⟩) nofun
        · exact he (Except.error.inj (Option.some.inj (herr.2 ⟨hover, hlf⟩)))

section Outcome

attribute [local simp] contdispOutcome

theorem contdispOutcome_crash :
    contdispOutcome (x, v, t) = .stop .crash ↔ x.isSome ∧ v.crashed = true := by
  cases x with
  | none => simp
  | some r =>
    cases hc : v.crashed with
    | true => simp [hc]
    | false =>
      cases r with
      | ok => cases hf : v.cdp.flag <;> simp [hc, hf]
      | _ => simp [hc]

theorem contdispOutcome_next {w : Mpfd × Tape} (h : contdispOutcome (x, v, t) = .next w) :
    v.crashed = false ∧ w = ({ v with cdp := { v.cdp with state := v.cdp.state.inc } }, t) := by
  cases x with
  | none => cases h
  | some r =>
    cases hc : v.crashed with
    | true => simp [hc] at h
    | false =>
      cases r with
      | ok =>
        cases hf : v.cdp.flag with
        | true =>
          simp [hc, hf] at h
          simp [← h, hf]
        | false => simp [hc, hf] at h
      | _ => simp [hc] at h

theorem contdispOutcome_wait {w : Mpfd × Tape} (h : contdispOutcome (x, v, t) = .wait w) :
    x = none ∧ w = (v, t) := by
  cases x with
  | none =>
    cases h
    exact ⟨rfl, rfl⟩
  | some r =>
    cases hc : v.crashed with
    | true => simp [hc] at h
    | false =>
      cases r with
      | ok => cases hf : v.cdp.flag <;> simp [hc, hf] at h
      | _ => simp [hc] at h

end Outcome

theorem contdisp_step (w : Mpfd × Tape) :
    contdispMachine.step w = contdispOutcome (dispAct w.1.cdp.state w.1 w.2) := rfl

theorem dispFilename_wait (h : dispFilename v t = (none, v', t')) : v'.crashed = v.crashed := by
  obtain ⟨s, -, rfl⟩ := Reader.ofScan_wait_inv h
  rfl

theorem step_crash_iff (hc : v.crashed = false) :
    contdispMachine.step (v, t) = .stop .crash ↔ Nameless (v, t) := by
  rcases ha : dispAct v.cdp.state v t with ⟨x, v', t'⟩
  rw [contdisp_step, ha, contdispOutcome_crash]
  by_cases hq : v.cdp.state = .filenameVal
  · rw [hq, dispAct] at ha
    have hcut := dispFilename_crashed hc ha
    have hsome : v'.crashed = true → x.isSome := by
      intro hc'
      cases x with
      | some r => rfl
      | none =>
        rw [dispFilename_wait ha, hc] at hc'
        cases hc'
    rw [and_iff_right_of_imp hsome, hcut]
    simp [Nameless, hq]
  · have := dispAct_crashed hq ha
    simp [Nameless, hq, this, hc]

theorem reaches_crashed {u : Mpfd × Tape} (h : contdispMachine.Reaches (v, t) u)
    (hc : v.crashed = false) : u.1.crashed = false := by
  induction h with
  | refl => exact hc
  | @next u u' _ hs ih =>
    obtain ⟨hc', rfl⟩ := contdispOutcome_next hs
    exact hc'
  | @wait u u' _ hs ih =>
    rw [contdisp_step] at hs
    rcases ha : dispAct u.1.cdp.state u.1 u.2 with ⟨x, v', t'⟩
    rw [ha] at hs
    obtain ⟨rfl, rfl⟩ := contdispOutcome_wait hs
    by_cases hq : u.1.cdp.state = .filenameVal
    · rw [hq, dispAct] at ha
      exact (dispFilename_wait ha).trans ih
    · exact (dispAct_crashed hq ha).trans ih

theorem ends_crash_iff (hc : v.crashed = false) :
    contdispMachine.Ends (v, t) .crash ↔ ∃ u, contdispMachine.Reaches (v, t) u ∧ Nameless u := by
  constructor
  · intro h
    obtain ⟨⟨v', t'⟩, hr, hs⟩ := h.last
    exact ⟨(v', t'), hr, (step_crash_iff (reaches_crashed hr hc)).1 hs⟩
  · rintro ⟨⟨v', t'⟩, hr, hn⟩
    rw [hr.ends, Machine.ends_stop ((step_crash_iff (reaches_crashed hr hc)).2 hn)]

end Safety

/-- With `l` in front of it, the parser comes to the state `w` with `m` in front of it. -/
def Steps (v : Mpfd) (l : Str) (w : Mpfd) (m : Str) : Prop :=
  ∀ t, t.Holds l → ∃ t', t'.Holds m ∧ contdispMachine.Reaches (v, t) (w, t')

section Steps

variable {v w : Mpfd} {l m : Str} {t : Tape} {c : Contdisp} {cap : Nat}

theorem Steps.trans {v' : Mpfd} {l' : Str} (h : Steps v l w m) (h' : Steps w m v' l') :
    Steps v l v' l' := by
  intro t ht
  obtain ⟨t', ht', hr⟩ := h t ht
  obtain ⟨t'', ht'', hr'⟩ := h' t' ht'
  exact ⟨t'', ht'', hr.trans hr'⟩

theorem Round.steps (h : Round v l w m) (hc : w.crashed = false) (hf : w.cdp.flag = true) :
    Steps v l { w with cdp := { w.cdp with state := w.cdp.state.inc } } m := by
  intro t ht
  obtain ⟨t', ht', ha⟩ := h t ht
  refine ⟨t', ht', Machine.Reaches.refl.next ?_⟩
  rw [contdisp_step, ha]
  simp [contdispOutcome, hc, hf]

theorem Round.ends (h : Round v l w m) (hc : w.crashed = false) (hf : w.cdp.flag = false)
    (ht : t.Holds l) :
    ∃ t', contdispMachine.Ends (v, t)
      (.finished Http.ok ({ w with cdp := { w.cdp with state := w.cdp.state.inc } }, t')) := by
  obtain ⟨t', -, ha⟩ := h t ht
  refine ⟨t', (Machine.ends_stop ?_).2 rfl⟩
  rw [contdisp_step, ha]
  simp [contdispOutcome, hc, hf]

theorem holds_ahead {t : Tape} (h : t.Holds l) : t.ahead = l := by
  induction l generalizing t with
  | nil =>
    obtain ⟨t', hg⟩ := h.get_nil
    exact Tape.ahead_nil hg nofun
  | cons b l ih =>
    obtain ⟨t', hg, ht', -⟩ := h.get
    rw [Tape.ahead_byte hg, ih ht']

theorem not_ends_of_hazard {q : ContdispSt} (hst : v.cdp.state = q)
    (h : DispHazard v t.ahead q) (o : Nat) (u : Mpfd × Tape) :
    ¬ contdispMachine.Ends (v, t) (.finished o u) := by
  obtain ⟨r, v', t', ha, hbad⟩ := dispAct_breaks h
  have hs : contdispMachine.step (v, t) = .stop .crash ∨
      contdispMachine.step (v, t) = .stop .stalled := by
    rw [contdisp_step]
    simp only [hst, ha]
    cases hc : v'.crashed with
    | true => simp [contdispOutcome, hc]
    | false =>
      obtain rfl : r = .overflow := by simpa [hc] using hbad
      simp [contdispOutcome, hc]
  obtain hs | hs := hs <;> rw [Machine.ends_stop hs] <;> nofun

end Steps

def Unquoted (s : Str) : Prop := ∀ b ∈ s, b ≠ 34 ∧ Byte.isEol b = false

instance (s : Str) : Decidable (Unquoted s) := inferInstanceAs (Decidable (∀ b ∈ s, _))

/-- `form-data; name="n"; filename="f"`. -/
def formDisposition (n f : Str) : Str :=
  formData ++ 59 :: Byte.sp :: (nameEq ++ (n ++ 34 :: 59 :: Byte.sp :: (filenameEq ++ (f ++ [34]))))

/-- `attachment; filename="f"`. -/
def attachDisposition (f : Str) : Str :=
  attachment ++ 59 :: Byte.sp :: (filenameEq ++ (f ++ [34]))

/-- With the value and a line end in front of it, the parser ends well and with what `P` says. -/
def Yields (v : Mpfd) (value : Str) (P : Contdisp → Prop) : Prop :=
  ∀ l t, t.Holds (value ++ crlf ++ l) →
    ∃ w, contdispMachine.Ends (v, t) (.finished Http.ok w) ∧ P w.1.cdp

section Values

variable {v : Mpfd} {c : Contdisp} {cap : Nat} {t : Tape} {n f l : Str}

theorem holds_of (l : Str) : ∃ t : Tape, t.Holds l :=
  ⟨{ toks := l.map .byte }, rfl, .inl ⟨Int.negSucc_lt_zero 0, Int.le_refl 0⟩, rfl⟩

theorem takeWhile_word {p : UInt8 → Bool} {z m : Str} (hz : ∀ b ∈ z, p b = true) :
    z.length ≤ ((z ++ m).takeWhile p).length := by
  rw [List.takeWhile_append_of_pos hz, List.length_append]
  omega

section Typ

variable (hv : v.crashed = false) (hc : Waiting cap c) (hst : c.state = .start)

include hc hst

theorem typ_steps (hv : v.crashed = false) {z : Str} {b : UInt8}
    (hz : ∀ b ∈ z, b ≠ 59 ∧ Byte.isEol b = false)
    (hlow : z.map Byte.toLower = z) (hcap : z.length < cap) (hb : Byte.isHws b = false) :
    Steps (nested v c) (z ++ 59 :: Byte.sp :: b :: l)
      (nested v { setTyp { c with typScr := some z, state := .sep1 } with
        state := (setTyp { c with typScr := some z, state := .sep1 }).state.inc }) (b :: l) := by
  have hword := (hc.word_round (v := v) (l := Byte.sp :: b :: l) 59 true
    (fun c s => { c with typScr := some s }) z (by rw [hst]; rfl) hz hcap).steps hv hc.flag
  simp only [if_true, hlow] at hword
  have hstate : c.state.inc = .sep1 := by rw [hst]; rfl
  have hflag : (setTyp { c with typScr := some z, state := .sep1 }).flag = true := by
    rw [(setTyp_frame _).1]
    exact hc.flag
  refine hword.trans ?_
  simp only [nested, hstate]
  exact (sep1_round (v := v) (c := { c with typScr := some z, state := .sep1 }) rfl hb).steps hv
    hflag

end Typ

section Form

variable (hv : v.crashed = false) (hc : Waiting cap c)

include hv hc

theorem key_steps (hst : c.state = .nameKey) :
    Steps (nested v c) (nameEq ++ l) (nested v { c with currMatch := none, state := .nameVal })
      l := by
  have h := (hc.force_round (v := v) (l := l) (z := nameEq) (by rw [hst]; rfl) (by decide)).steps
    hv hc.flag
  simpa [nested, hst, ContdispSt.inc] using h

theorem name_steps (hn : Unquoted n) (hcap : n.length < cap) :
    Steps (nested v { c with currMatch := none, state := .nameVal })
      (n ++ 34 :: 59 :: Byte.sp :: (filenameEq ++ l))
      (nested v { c with name := some n, currMatch := none, state := .filenameVal }) l := by
  have hstep {b : Contdisp} {k m : Str} (hw : b.flag = true)
      (h : Round (nested v b) k (nested v b) m) {q : ContdispSt} (hq : b.state.inc = q) :
      Steps (nested v b) k (nested v { b with state := q }) m := hq ▸ h.steps hv hw
  have hval : Steps (nested v { c with currMatch := none, state := .nameVal })
      (n ++ 34 :: 59 :: Byte.sp :: (filenameEq ++ l))
      (nested v { c with name := some n, currMatch := none, state := .sep2a })
      (59 :: Byte.sp :: (filenameEq ++ l)) :=
    (Waiting.word_round (v := v) (l := 59 :: Byte.sp :: (filenameEq ++ l))
      (c := { c with currMatch := none, state := .nameVal }) ⟨hc.scr, rfl, hc.flag⟩ 34 false
      (fun c s => { c with name := some s }) n rfl hn hcap).steps hv hc.flag
  have hsep : Steps (nested v { c with name := some n, currMatch := none, state := .sep2a })
      (59 :: Byte.sp :: (filenameEq ++ l))
      (nested v { c with name := some n, currMatch := none, state := .filenameKey })
      (filenameEq ++ l) :=
    (hstep (b := { c with name := some n, currMatch := none, state := .sep2a }) hc.flag
      (sep2a_round rfl) rfl).trans ((hstep
      (b := { c with name := some n, currMatch := none, state := .sep2b }) hc.flag
      (sep2b_round rfl) rfl).trans (hstep
      (b := { c with name := some n, currMatch := none, state := .sep2c }) hc.flag
      (sep2c_round rfl (by decide)) rfl))
  have hfile : Steps (nested v { c with name := some n, currMatch := none, state := .filenameKey })
      (filenameEq ++ l)
      (nested v { c with name := some n, currMatch := none, state := .filenameVal }) l :=
    (Waiting.force_round (v := v) (l := l) (z := filenameEq)
      (c := { c with name := some n, currMatch := none, state := .filenameKey })
      ⟨hc.scr, rfl, hc.flag⟩ rfl (by decide)).steps hv hc.flag
  exact hval.trans (hsep.trans hfile)

end Form

section Start

variable {typScr filenameScr : Option Str} {hs : Str}

def typed (cap : Nat) (filenameScr : Option Str) (z : Str) (typ : ContdispType)
    (q : ContdispSt) : Contdisp :=
  { scr := { cap := cap }, typScr := some z, typ := typ, filenameScr := filenameScr, state := q }

theorem word_typ {z : Str} (hz : z = formData ∨ z = attachment) :
    (∀ b ∈ z, b ≠ 59 ∧ Byte.isEol b = false) ∧ z.map Byte.toLower = z := by
  obtain rfl | rfl := hz <;> decide +kernel

theorem form_typ (hcap : formData.length < cap) (k : Str) :
    Steps (contdispStart v cap typScr filenameScr) (formData ++ 59 :: Byte.sp :: (nameEq ++ k))
      (nested { v with crashed := false } (typed cap filenameScr formData .formdat .nameKey))
      (nameEq ++ k) :=
  typ_steps (c := { scr := { cap := cap }, typScr := typScr, filenameScr := filenameScr })
    (b := 110) ⟨rfl, rfl, rfl⟩ rfl rfl (word_typ (.inl rfl)).1 (word_typ (.inl rfl)).2 hcap
    (by decide)

theorem attach_typ (hcap : attachment.length < cap) (k : Str) :
    Steps (contdispStart v cap typScr filenameScr)
      (attachment ++ 59 :: Byte.sp :: (filenameEq ++ k))
      (nested { v with crashed := false } (typed cap filenameScr attachment .attach .filenameVal))
      (filenameEq ++ k) :=
  typ_steps (c := { scr := { cap := cap }, typScr := typScr, filenameScr := filenameScr })
    (b := 102) ⟨rfl, rfl, rfl⟩ rfl rfl (word_typ (.inr rfl)).1 (word_typ (.inr rfl)).2 hcap
    (by decide)

theorem overflows_word {q : UInt8} {z m : Str} {s : Scratch} (hz : ∀ b ∈ z, isWord q b = true)
    (hcap : s.cap ≤ z.length) : s.Overflows (isWord q) (z ++ m) := by
  have := takeWhile_word (m := m) hz
  rw [Scratch.Overflows]
  omega

theorem typ_fits {z : Str} (hz : ∀ b ∈ z, isWord 59 b = true) {u : Mpfd × Tape} {o : Nat}
    (ht : t.Holds (z ++ l))
    (h : contdispMachine.Ends (contdispStart v cap typScr filenameScr, t) (.finished o u)) :
    z.length < cap := by
  by_contra hle
  refine not_ends_of_hazard (q := .start) rfl ?_ o u h
  rw [holds_ahead ht]
  exact overflows_word hz (Nat.le_of_not_lt hle)

theorem isWord_of_plain {q : UInt8} {z : Str} (h : ∀ b ∈ z, b ≠ q ∧ Byte.isEol b = false) :
    ∀ b ∈ z, isWord q b = true := by
  intro b hb
  simp [isWord, (h b hb).1, (h b hb).2]

theorem unquoted_eol {z : Str} (h : Unquoted z) : ∀ b ∈ z, Byte.isEol b = false :=
  fun b hb => (h b hb).2

theorem not_eol_cr {z : Str} (h : ∀ b ∈ z, Byte.isEol b = false) :
    ∀ b ∈ z, isWord Byte.cr b = true := by
  intro b hb
  have hcr : b ≠ Byte.cr := fun he => by simpa [he, Byte.isEol] using h b hb
  simp [isWord, hcr, h b hb]

theorem value_ends {g : Str} {b : UInt8} (hv : v.crashed = false) (hc : Waiting cap c)
    (hst : c.state = .filenameVal)
    (hg : ∀ a ∈ g, Byte.isEol a = false) (hb : Byte.isEol b = false)
    (ht : t.Holds (g ++ b :: crlf ++ l)) {P : Contdisp → Prop}
    (hP : ∀ q d d', P { c with flag := q, filenameScr := d, filename := some g, state := d' } ↔
      P { c with filename := some g }) :
    (∃ w, contdispMachine.Ends (nested v c, t) (.finished Http.ok w) ∧ P w.1.cdp) ↔
      g.length + 1 < cap ∧ P { c with filename := some g } := by
  constructor
  · rintro ⟨w, hw, hPw⟩
    have hcap : g.length + 1 < cap := by
      by_contra hle
      refine not_ends_of_hazard (q := .filenameVal) hst (.inl ?_) _ w hw
      have hl : g ++ b :: crlf ++ l = (g ++ [b]) ++ (crlf ++ l) := by simp
      rw [holds_ahead ht, hl]
      refine overflows_word (not_eol_cr (z := g ++ [b]) ?_) ?_
      · intro a ha
        rw [List.mem_append, List.mem_singleton] at ha
        exact ha.elim (hg a) fun h => h ▸ hb
      · have : c.scr.cap = cap := by rw [hc.scr]
        simp only [nested, this, List.length_append, List.length_singleton]
        omega
    obtain ⟨t', he⟩ := (hc.file_round hst hg hb hcap).ends hv rfl ht
    have huniq := he.unique hw
    cases huniq
    exact ⟨hcap, (hP _ _ _).1 hPw⟩
  · rintro ⟨hcap, hPc⟩
    obtain ⟨t', he⟩ := (hc.file_round hst hg hb hcap).ends hv rfl ht
    exact ⟨_, he, (hP _ _ _).2 hPc⟩

theorem yields_form (v : Mpfd) (typScr filenameScr : Option Str) (hn : Unquoted n)
    (hf : Unquoted f) :
    Yields (contdispStart v cap typScr filenameScr) (formDisposition n f)
        (fun c => c.name = some n ∧ c.filename = some f) ↔
      formData.length < cap ∧ n.length < cap ∧ f.length + 1 < cap := by
  let c := typed cap filenameScr formData .formdat .nameKey
  have hc : Waiting cap c := ⟨rfl, rfl, rfl⟩
  have hshape (l : Str) : formDisposition n f ++ crlf ++ l = formData ++ 59 :: Byte.sp ::
      (nameEq ++ (n ++ 34 :: 59 :: Byte.sp :: (filenameEq ++ (f ++ 34 :: crlf ++ l)))) := by
    simp [formDisposition]
  have hlast {u : Tape} {l : Str} (hu : u.Holds (f ++ 34 :: crlf ++ l)) :=
    value_ends (v := { v with crashed := false }) (P := fun c => c.name = some n ∧
      c.filename = some f)
        (c := { c with name := some n, currMatch := none, state := .filenameVal })
      rfl ⟨rfl, rfl, rfl⟩ rfl (unquoted_eol hf) (b := 34) rfl hu fun _ _ _ => Iff.rfl
  have hname (h₂ : n.length < cap) (l : Str) := name_steps (v := { v with crashed := false })
    (l := l) rfl hc hn h₂
  constructor
  · intro hall
    obtain ⟨t, ht⟩ := holds_of (formDisposition n f ++ crlf ++ [])
    obtain ⟨w, hw, hP⟩ := hall _ _ ht
    rw [hshape] at ht
    have h₁ := typ_fits (isWord_of_plain (word_typ (.inl rfl)).1) ht hw
    obtain ⟨t₁, ht₁, hr₁⟩ := ((form_typ h₁ _).trans (key_steps rfl hc rfl)) t ht
    have h₂ : n.length < cap := by
      by_contra hle
      refine not_ends_of_hazard (q := .nameVal) rfl ?_ _ w (hr₁.ends.1 hw)
      rw [holds_ahead ht₁]
      exact overflows_word (isWord_of_plain hn) (Nat.le_of_not_lt hle)
    obtain ⟨t₂, ht₂, hr₂⟩ := hname h₂ _ t₁ ht₁
    exact ⟨h₁, h₂, ((hlast ht₂).1 ⟨w, hr₂.ends.1 (hr₁.ends.1 hw), hP⟩).1⟩
  · rintro ⟨h₁, h₂, h₃⟩ l t ht
    rw [hshape] at ht
    obtain ⟨t₂, ht₂, hr⟩ :=
      ((form_typ h₁ _).trans ((key_steps rfl hc rfl).trans (hname h₂ _))) t ht
    obtain ⟨w, hw, hP⟩ := (hlast ht₂).2 ⟨h₃, rfl, rfl⟩
    exact ⟨w, hr.ends.2 hw, hP⟩

theorem not_yields_attach (v : Mpfd) (typScr filenameScr : Option Str) (hf : Unquoted f) :
    ¬ Yields (contdispStart v cap typScr filenameScr) (attachDisposition f)
      fun c => c.typ = .attach ∧ c.filename = some f := by
  intro hall
  have hshape : attachDisposition f ++ crlf ++ [] =
      attachment ++ 59 :: Byte.sp :: (filenameEq ++ (f ++ 34 :: crlf ++ [])) := by
    simp [attachDisposition]
  obtain ⟨t, ht⟩ := holds_of (attachDisposition f ++ crlf ++ [])
  obtain ⟨w, hw, hP⟩ := hall _ _ ht
  rw [hshape] at ht
  have h₁ := typ_fits (isWord_of_plain (word_typ (.inr rfl)).1) ht hw
  obtain ⟨t₁, ht₁, hr₁⟩ := attach_typ h₁ _ t ht
  have hg : ∀ b ∈ filenameEq ++ f, Byte.isEol b = false := by
    intro b hb
    have hkey : ∀ b ∈ filenameEq, Byte.isEol b = false := by decide +kernel
    exact (List.mem_append.1 hb).elim (hkey b) (unquoted_eol hf b)
  have hfound := (value_ends (v := { v with crashed := false }) (g := filenameEq ++ f) (b := 34)
    (P := fun c => c.typ = .attach ∧ c.filename = some f)
    (c := typed cap filenameScr attachment .attach .filenameVal) (l := [])
    rfl ⟨rfl, rfl, rfl⟩ rfl hg rfl (by simpa using ht₁) fun _ _ _ => Iff.rfl).1
      ⟨w, hr₁.ends.1 hw, hP⟩
  have hlen := congrArg List.length (Option.some.inj hfound.2.2)
  have hkey : filenameEq.length = 10 := rfl
  have hlen' : (filenameEq ++ f).length = f.length := hlen
  rw [List.length_append, hkey] at hlen'
  omega

end Start

end Values

/-- The three things that are expected of the parser: it cuts no name out of nothing unless it comes
to a place where there is none; it never finds the file's name of an attachment; and it finds both
names of form data that fit in its buffer. -/
theorem contdisp_exact (v : Mpfd) (cap : Nat) (typScr filenameScr : Option Str) :
    (∀ t, contdispMachine.Ends (contdispStart v cap typScr filenameScr, t) .crash ↔
      ∃ u, contdispMachine.Reaches (contdispStart v cap typScr filenameScr, t) u ∧ Nameless u) ∧
    (∀ f, Unquoted f →
      ¬ Yields (contdispStart v cap typScr filenameScr) (attachDisposition f)
        fun c => c.typ = .attach ∧ c.filename = some f) ∧
    ∀ n f, Unquoted n → Unquoted f →
      (Yields (contdispStart v cap typScr filenameScr) (formDisposition n f)
          (fun c => c.name = some n ∧ c.filename = some f) ↔
        formData.length < cap ∧ n.length < cap ∧ f.length + 1 < cap) :=
  ⟨fun _ => ends_crash_iff rfl, fun _ hf => not_yields_attach v typScr filenameScr hf,
    fun _ _ hn hf => yields_form v typScr filenameScr hn hf⟩

theorem contdisp_exact_form :
    Yields (contdispStart (start ⟨fun _ => none, id⟩ 64 [] (-1) []).1 64 none none)
      (formDisposition [110] [102, 46, 116])
      fun c => c.name = some [110] ∧ c.filename = some [102, 46, 116] :=
  ((contdisp_exact (start ⟨fun _ => none, id⟩ 64 [] (-1) []).1 64 none none).2.2 [110]
    [102, 46, 116] (by decide +kernel) (by decide +kernel)).2 (by decide +kernel)

/-- A value that stops behind `filename="`, one with a line feed for its end, and an attachment. -/
theorem contdisp_not_exact :
    contdispMachine.Ends
      (contdispStart (start ⟨fun _ => none, id⟩ 64 [] (-1) []).1 64 none none,
        { toks := (formData ++ 59 :: Byte.sp :: (nameEq ++ 110 :: 34 :: 59 :: Byte.sp ::
          (filenameEq ++ crlf))).map .byte }) .crash ∧
    contdispMachine.Ends
      (contdispStart (start ⟨fun _ => none, id⟩ 64 [] (-1) []).1 64 none none,
        { toks := (formData ++ 59 :: Byte.sp :: (nameEq ++ 110 :: 34 :: 59 :: Byte.sp ::
          (filenameEq ++ [102, 34, Byte.lf]))).map .byte }) .crash ∧
    ¬ Yields (contdispStart (start ⟨fun _ => none, id⟩ 64 [] (-1) []).1 64 none none)
      (attachDisposition [102]) fun c => c.typ = .attach ∧ c.filename = some [102] :=
  ⟨⟨12, by decide +kernel⟩, ⟨12, by decide +kernel⟩,
    not_yields_attach _ none none (by decide +kernel)⟩

end Mpfd

end Okws
