import Okws.CgiOversize
import Okws.XssEscape

namespace Okws

open Lib

/-- `ok_filter_cgi`. -/
inductive FilterCgi
  | xssfiltNone
  | xssfiltSome
  | xssfiltAll
  deriving DecidableEq

/-- The buffer of `xss_escape`, and whether nothing has been written behind it. -/
abbrev XssStatic := Xss.Buf × Bool

namespace FilterCgi

variable (f : FilterCgi)

/-- What `parse_key_or_val` hands out for a decoded text. -/
def apply (x : XssStatic) (s : Str) : XssStatic × Str :=
  if f = .xssfiltAll then
    let (buf, out) := x.1.escape s
    ((buf, x.2 && decide (out.reach ≤ buf.buflen)), out.ret)
  else (x, s)

def applyOpt (x : XssStatic) : Option Str → XssStatic × Option Str
  | none => (x, none)
  | some s => let (x', t) := f.apply x s; (x', some t)

def text (s : Str) : Str := if f = .xssfiltAll then Xss.xssTexts s else s

/-- The texts of the calls go through the filter in their order. -/
def calls (x : XssStatic) : List CgiCall → XssStatic × List CgiCall
  | [] => (x, [])
  | c :: cs =>
    let (x, k) := f.applyOpt x c.1
    let (x, v) := f.applyOpt x c.2
    let (x, l) := calls x cs
    (x, (k, v) :: l)

end FilterCgi

namespace Cgi

variable (f : FilterCgi) (limit : Nat)

/-- What `logPart` comes to, with the buffer. -/
def withStatic (x : XssStatic) :
    Iter (Cgi × List CgiCall) (List CgiCall) →
      Iter (Cgi × XssStatic × List CgiCall) (XssStatic × List CgiCall)
  | .next (c, log) => .next (c, x, log)
  | .wait (c, log) => .wait (c, x, log)
  | .stop log => .stop (x, log)

/-- `parse_guts` with the calls of `insert` that it has made, and the buffer of `xss_escape`, which
stays from one key or value to the next. -/
def filterMachine : Machine (Cgi × XssStatic × List CgiCall) (XssStatic × List CgiCall) where
  step
    | (c, x, log) => match c.parseStillWaiting with
      | (true, c') => .wait (c', x, log)
      | (false, c') =>
        let (rc, s, word, tape) := parseKeyOrVal ⟨limit, id⟩ c'.pstate c'.uriMode c'.word c'.tape
        let (x, s) := f.applyOpt x s
        withStatic x (logPart log c' (rc, s, word, tape))
  resume | (c, x, log) => ({ c with tape := c.tape.canRead }, x, log)

end Cgi

section Calls

variable {f : FilterCgi} {x x' : XssStatic}

theorem calls_append (a b : List CgiCall) : f.calls x (a ++ b) =
    ((f.calls (f.calls x a).1 b).1, (f.calls x a).2 ++ (f.calls (f.calls x a).1 b).2) := by
  induction a generalizing x with
  | nil => rfl
  | cons c a ih => simp only [List.cons_append, FilterCgi.calls, ih]

theorem calls_concat (a : List CgiCall) (k v : Option Str) : f.calls x (a ++ [(k, v)]) =
    ((f.applyOpt (f.applyOpt (f.calls x a).1 k).1 v).1, (f.calls x a).2 ++
      [((f.applyOpt (f.calls x a).1 k).2, (f.applyOpt (f.applyOpt (f.calls x a).1 k).1 v).2)]) := by
  rw [calls_append]
  rfl

end Calls

namespace Cgi

section Simulation

variable {f : FilterCgi} {limit : Nat} {x₀ : XssStatic}

theorem parseKeyOrVal_answer {vt : CgiVar} {uri : Bool} {w w' : Word} {t t' : Tape} {rc : Stat}
    {s : Option Str} (h : parseKeyOrVal ⟨limit, id⟩ vt uri w t = (rc, s, w', t')) :
    (rc = .separator → vt.keyState = true) ∧
      (s = none ∨ rc = .separator ∨ rc = .ok ∨ rc = .eof) := by
  have hbyte (w w₁ : Word) (b : UInt8) (r : Stat)
      (h : keyOrValByte ⟨limit, id⟩ vt uri w b = .done r w₁ ∨
        keyOrValByte ⟨limit, id⟩ vt uri w b = .back r w₁) :
      r = .separator ∧ vt.keyState = true ∨ r = .ok ∨ r = .eof := by
    unfold keyOrValByte at h
    grind [CgiVar.keyState]
  have hscan {w w₁ : Word} {t t₁ : Tape} {r : Stat}
      (h : scan Tape.device (keyOrValScanner ⟨limit, id⟩ vt uri) w t = (some r, w₁, t₁)) :
      r = .separator ∧ vt.keyState = true ∨ r = .ok ∨ r = .eof ∨ r = .overflow := by
    refine scan_answer (R := fun r => r = .separator ∧ vt.keyState = true ∨ r = .ok ∨ r = .eof ∨
      r = .overflow) ?_ ?_ ?_ h
    · intro w r hg
      simp only [keyOrValScanner] at hg
      grind
    · intro w b r w₁ hb
      simp only [keyOrValScanner] at hb
      grind
    · intro w r w₁ he
      simp only [keyOrValScanner] at he
      grind
  have hend {w : Word} {t : Tape}
      (h : keyOrValEnd ⟨limit, id⟩ (scan Tape.device (keyOrValScanner ⟨limit, id⟩ vt uri) w t) =
        (rc, s, w', t')) :
      (rc = .separator → vt.keyState = true) ∧
        (s = none ∨ rc = .separator ∨ rc = .ok ∨ rc = .eof) := by
    rcases hs : scan Tape.device (keyOrValScanner ⟨limit, id⟩ vt uri) w t with ⟨r, w₁, t₁⟩
    rw [hs] at h
    cases r with
    | none =>
      cases h
      exact ⟨by rintro ⟨⟩, .inl rfl⟩
    | some r =>
      have hr := hscan hs
      simp only [keyOrValEnd] at h
      grind
  unfold parseKeyOrVal at h
  split at h
  · split at h
    · cases h
      exact ⟨by rintro ⟨⟩, .inl rfl⟩
    · split at h
      · cases h
        exact ⟨by rintro ⟨⟩, .inl rfl⟩
      · exact hend h
  · exact hend h

/-- The parser with the filter, `c`, beside the one without. -/
structure Sim (f : FilterCgi) (x₀ : XssStatic) (c : Cgi) (x : XssStatic) (log : List CgiCall)
    (c' : Cgi) (raw : List CgiCall) : Prop where
  parser : c' = { c with key := c'.key, tab := c'.tab }
  keyed : c.pstate.keyState = true → c'.key = none
  log : (f.calls x₀ raw).2 = log
  key : f.applyOpt (f.calls x₀ raw).1 c'.key = (x, c.key)

theorem parseStillWaiting_with (c : Cgi) (k : Option Str) (t : PairTab) :
    ({ c with key := k, tab := t } : Cgi).parseStillWaiting =
      (c.parseStillWaiting.1, { c.parseStillWaiting.2 with key := k, tab := t }) := by
  unfold parseStillWaiting
  split <;> rfl

theorem parseStillWaiting_same (c : Cgi) : c.parseStillWaiting.2.key = c.key ∧
    c.parseStillWaiting.2.pstate = c.pstate := by
  unfold parseStillWaiting
  split <;> exact ⟨rfl, rfl⟩

theorem keyState_trans {p : CgiVar} (h : p.keyState = true) : p.trans.keyState = false := by
  cases p <;> first | rfl | cases h

variable (limit) in
theorem Sim.step {c c' : Cgi} {x : XssStatic} {log raw : List CgiCall}
    (h : Sim f x₀ c x log c' raw) :
    match (logMachine ⟨limit, id⟩).step (c', raw) with
    | .next (d', raw') => ∃ d y log', (filterMachine f limit).step (c, x, log) =
        .next (d, y, log') ∧ Sim f x₀ d y log' d' raw'
    | .wait (d', raw') => ∃ d y log', (filterMachine f limit).step (c, x, log) =
        .wait (d, y, log') ∧ Sim f x₀ d y log' d' raw'
    | .stop raw' => (filterMachine f limit).step (c, x, log) = .stop (f.calls x₀ raw') := by
  obtain ⟨hkey₁, hstate₁⟩ := parseStillWaiting_same c
  have hwith := parseStillWaiting_with c c'.key c'.tab
  rw [← h.parser] at hwith
  rcases hp : c.parseStillWaiting with ⟨b, c₁⟩
  rw [hp] at hwith hkey₁ hstate₁
  have hkeyed : c₁.pstate.keyState = true → c'.key = none := by
    rw [hstate₁]
    exact h.keyed
  have hkey : f.applyOpt (f.calls x₀ raw).1 c'.key = (x, c₁.key) := by
    rw [hkey₁]
    exact h.key
  cases b with
  | true =>
    simp only [logMachine, filterMachine, hwith, hp]
    exact ⟨_, _, _, rfl, rfl, hkeyed, h.log, hkey⟩
  | false =>
    simp only [logMachine, filterMachine, hwith, hp]
    rcases hr : parseKeyOrVal ⟨limit, id⟩ c₁.pstate c₁.uriMode c₁.word c₁.tape with
      ⟨rc, s, w, t⟩
    obtain ⟨hsep, htext⟩ := parseKeyOrVal_answer hr
    -- where nothing is handed out, nothing goes through the filter
    have hquiet (hs : s = none) :
        Sim f x₀ { c₁ with word := w, tape := t } (f.applyOpt x s).1 log
          { c₁ with key := c'.key, tab := c'.tab, word := w, tape := t } raw := by
      subst hs
      exact ⟨rfl, hkeyed, h.log, hkey⟩
    cases rc with
    | separator =>
      have hk := hkeyed (hsep rfl)
      rw [hk] at hkey
      obtain ⟨hx, hn⟩ := Prod.mk.inj hkey
      simp only [logPart, processParsedKeyOrVal, insertCalls, logOutcome, withStatic]
      refine ⟨_, _, _, rfl, rfl, hkeyed, ?_, ?_⟩
      · rw [calls_concat, hx, h.log]
        rfl
      · rw [calls_concat, hx, hk, ← hn]
        rfl
    | ok =>
      cases hstate : c₁.pstate.keyState with
      | true =>
        rw [hkeyed hstate] at hkey
        obtain ⟨hx, -⟩ := Prod.mk.inj hkey
        simp only [logPart, processParsedKeyOrVal, insertCalls, logOutcome, withStatic, hstate,
          if_true, List.append_nil]
        refine ⟨_, _, _, rfl, rfl, ?_, h.log, ?_⟩
        · simp [keyState_trans hstate]
        · rw [hx]
      | false =>
        simp only [logPart, processParsedKeyOrVal, insertCalls, logOutcome, withStatic, hstate,
          Bool.false_eq_true, if_false]
        refine ⟨_, _, _, rfl, rfl, fun _ => rfl, ?_, ?_⟩
        · rw [calls_concat, hkey, h.log]
        · rw [calls_concat, hkey]
          rfl
    | eof =>
      cases hstate : c₁.pstate.keyState with
      | true =>
        rw [hkeyed hstate] at hkey
        obtain ⟨hx, -⟩ := Prod.mk.inj hkey
        simp only [logPart, processParsedKeyOrVal, insertCalls, logOutcome, withStatic, hstate,
          if_true]
        rw [calls_concat, hx, h.log]
        rfl
      | false =>
        simp only [logPart, processParsedKeyOrVal, insertCalls, logOutcome, withStatic, hstate,
          Bool.false_eq_true, if_false]
        rw [calls_concat, hkey, h.log]
    | wait =>
      simp only [logPart, processParsedKeyOrVal, insertCalls, logOutcome, withStatic,
        List.append_nil]
      exact ⟨_, _, _, rfl, hquiet (by simpa using htext)⟩
    | _ =>
      simp only [logPart, processParsedKeyOrVal, insertCalls, logOutcome, withStatic,
        List.append_nil]
      exact ⟨_, _, _, rfl, hquiet (by simpa using htext)⟩

theorem Sim.resume {c c' : Cgi} {x : XssStatic} {log raw : List CgiCall}
    (h : Sim f x₀ c x log c' raw) :
    Sim f x₀ { c with tape := c.tape.canRead } x log { c' with tape := c'.tape.canRead } raw :=
  ⟨by rw [h.parser], h.keyed, h.log, h.key⟩

theorem Sim.ends {c c' : Cgi} {x : XssStatic} {log raw raw' : List CgiCall}
    (h : Sim f x₀ c x log c' raw) (hends : (logMachine ⟨limit, id⟩).Ends (c', raw) raw') :
    (filterMachine f limit).Ends (c, x, log) (f.calls x₀ raw') := by
  obtain ⟨n, hn⟩ := hends
  induction n generalizing c c' x log raw with
  | zero => cases hn
  | succ n ih =>
    have hstep := h.step limit
    rw [Machine.run] at hn
    rcases hs : (logMachine ⟨limit, id⟩).step (c', raw) with ⟨d', r⟩ | ⟨d', r⟩ | r
    · rw [hs] at hstep hn
      obtain ⟨d, y, l, hstep, hsim⟩ := hstep
      exact (Machine.ends_next hstep).2 (ih hsim hn)
    · rw [hs] at hstep hn
      obtain ⟨d, y, l, hstep, hsim⟩ := hstep
      exact (Machine.ends_wait hstep).2 (ih hsim.resume hn)
    · rw [hs] at hstep hn
      cases hn
      exact (Machine.ends_stop hstep).2 rfl

end Simulation

end Cgi

/-- The same mode, with everything that the source has in the body. -/
def CgiMode.unlimited : CgiMode → CgiMode
  | .post _ => .post (-1)
  | mode => mode

/-- How long the scratch area can get: `_maxlen`, if it is set and not too large. -/
def scratchLimit (okLimit : Nat) (maxlen : Int) : Nat :=
  if maxlen < 0 ∨ okLimit < maxlen then okLimit else maxlen.toNat

/-- The calls of `insert` that `parse_guts` makes on `B`, beginning with an area of `cap` bytes;
`xss_escape` writes nothing behind its buffer. -/
def Cgi.inserts (f : FilterCgi) (limit : Nat) (buf : Xss.Buf) (mode : CgiMode) (cap : Nat) (B : Str)
    (log : List CgiCall) : Prop :=
  ∃ buf', (filterMachine f limit).Ends
    (start mode.unlimited cap (Abuf.whole B), (buf, true), []) ((buf', true), log)

/-- What is asked of the insertions: they are fields of the input, completely decoded and completely
escaped, and in their order, without those that are longer than the area can get, and with all those
that are not longer than the declared length. -/
structure FieldsKept (f : FilterCgi) (buf : Xss.Buf) (okLimit : Nat) (maxlen : Int) (mode : CgiMode)
    (cap : Nat) (B : Str) (log : List CgiCall) (kept : List CgiField) : Prop where
  inserts : Cgi.inserts f (scratchLimit okLimit maxlen) buf mode cap B log
  calls : log = kept.map fun x => (x.map f.text).call
  fields : kept.Sublist (cgiFields mode B)
  dropped : ∀ x ∈ kept, x.length ≤ max cap (scratchLimit okLimit maxlen)
  declared : ((cgiFields mode B).filter fun x => (x.length : Int) ≤ maxlen).Sublist kept

/-- The keys and the values, as they go through the filter. -/
def CgiField.texts (x : CgiField) : List Str := x.key :: x.val.toList

/-- None of the texts is cut off by `xss_escape`, whose buffer has that length and grows. -/
def Xss.AllFit : Nat → List Str → Prop
  | _, [] => True
  | B, s :: ss => Fits (roomFor ⟨none, B⟩ s.length) 0 s ∧ AllFit (roomFor ⟨none, B⟩ s.length) ss

section Escapes

open Xss

variable {st : Buf} {s : Str}

theorem xssSafe_iff_fits (h : Sized st) : XssSafe st s ↔ Fits (roomFor ⟨none, st.buflen⟩ s.length)
    0 s := by
  by_cases hlen : (xssTexts s).length < Buf.maxBuflen
  · exact safe_iff_fits h hlen
  · -- no buffer is large enough
    have hno {B : Nat} (hB : B ≤ Buf.maxBuflen) : ¬ Fits B 0 s := by
      intro hfits
      have hne : s ≠ [] := by
        rintro rfl
        exact hlen (by decide)
      obtain ⟨c, hc⟩ := Option.isSome_iff_exists.1 (List.getLast?_isSome.2 hne)
      have := hfits c hc
      omega
    have hle {st : Buf} (h : Sized st) : st.buflen ≤ Buf.maxBuflen := by
      obtain ⟨k, -, hk, heq⟩ := h
      exact heq ▸ Nat.pow_le_pow_right (by decide) hk
    have hsafe : XssSafe st s ↔ Fits (st.resize s.length).buflen 0 s := by
      let out : Xss.Out := { mem := (st.resize s.length).buf.getD [] }
      have hlen' : out.outlen ≤ out.mem.length := Nat.zero_le _
      exact loop_safe_iff hlen' (Nat.zero_le _)
    rw [hsafe]
    exact iff_of_false (hno (hle (h.resize _))) (hno (max_le (hle h) (min_le_left _ _)))

theorem buflen_of_fits (h : Sized st) (hfits : Fits (roomFor ⟨none, st.buflen⟩ s.length) 0 s) :
    (st.escape s).1.buflen = roomFor ⟨none, st.buflen⟩ s.length := by
  have hle : st.buflen ≤ Buf.maxBuflen := by
    obtain ⟨k, -, hk, heq⟩ := h
    exact heq ▸ Nat.pow_le_pow_right (by decide) hk
  have hwrap : Buf.maxseqlen * s.length % 2 ^ 64 = Buf.maxseqlen * s.length := by
    refine Nat.mod_eq_of_lt ?_
    have hlen : s.length ≤ Buf.maxBuflen := by
      have hroom : roomFor ⟨none, st.buflen⟩ s.length ≤ Buf.maxBuflen :=
        max_le hle (min_le_left _ _)
      cases hlast : s.getLast? with
      | none =>
        rw [List.getLast?_eq_none_iff.1 hlast]
        exact Nat.zero_le _
      | some c =>
        have := hfits c hlast
        have := length_le_xssTexts s
        omega
    simp only [Buf.maxBuflen, Buf.maxseqlen] at *
    omega
  have hresize := resize_buflen h s.length
  rw [hwrap] at hresize
  exact hresize

theorem Xss.Sized.escape (h : Sized st) : Sized (st.escape s).1 := h.resize s.length

end Escapes

section Whole

open Xss

variable {f : FilterCgi} {x : XssStatic}

theorem text_injective (f : FilterCgi) : Function.Injective f.text := by
  intro s t h
  unfold FilterCgi.text at h
  split at h
  · exact xssTexts_injective h
  · exact h

theorem apply_prefix (x : XssStatic) (s : Str) : ∃ p, p <+: s ∧ (f.apply x s).2 = f.text p := by
  unfold FilterCgi.apply FilterCgi.text
  split
  · let st : Xss.Out := { mem := (x.1.resize s.length).buf.getD [] }
    have hlen : st.outlen ≤ st.mem.length := Nat.zero_le _
    obtain ⟨p, hp, hret⟩ := loop_prefix hlen (x.1.resize s.length).buflen s
    exact ⟨p, hp, hret⟩
  · exact ⟨s, List.prefix_rfl, rfl⟩

theorem length_of_apply {s t : Str} (h : (f.apply x s).2 = f.text t) : t.length ≤ s.length := by
  obtain ⟨p, hp, heq⟩ := apply_prefix (f := f) x s
  rw [text_injective f (h.symm.trans heq)]
  exact hp.length_le

theorem weight_of_calls {xs ys : List CgiField} (h : (f.calls x (xs.map CgiField.call)).2 =
    ys.map fun y => (y.map f.text).call) : weight ys ≤ weight xs := by
  induction xs generalizing x ys with
  | nil =>
    rw [List.map_eq_nil_iff.1 h.symm]
  | cons a xs ih =>
    obtain ⟨k, v⟩ := a
    cases ys with
    | nil => exact Nat.zero_le _
    | cons y ys =>
      obtain ⟨k', v'⟩ := y
      simp only [List.map_cons, FilterCgi.calls, List.cons.injEq] at h
      obtain ⟨hcall, hrest⟩ := h
      have hys := ih hrest
      simp only [CgiField.call, FilterCgi.applyOpt, CgiField.map, Prod.mk.injEq,
        Option.some.injEq] at hcall
      have hk := length_of_apply hcall.1
      have hv : (v'.getD []).length ≤ (v.getD []).length := by
        cases v with
        | none => cases v' with
          | none => exact Nat.le_refl _
          | some v' => cases hcall.2
        | some v => cases v' with
          | none => exact Nat.zero_le _
          | some v' => exact length_of_apply (Option.some.inj hcall.2)
      simp only [weight_cons]
      omega

theorem flag_of_apply {s : Str} (h : (f.apply x s).1.2 = true) : x.2 = true := by
  unfold FilterCgi.apply at h
  split at h
  · exact (Bool.and_eq_true_iff.1 h).1
  · exact h

theorem flag_of_applyOpt {s : Option Str} (h : (f.applyOpt x s).1.2 = true) : x.2 = true := by
  cases s with
  | none => exact h
  | some s => exact flag_of_apply h

theorem flag_of_calls {cs : List CgiCall} (h : (f.calls x cs).1.2 = true) : x.2 = true := by
  induction cs generalizing x with
  | nil => exact h
  | cons c cs ih => exact flag_of_applyOpt (flag_of_applyOpt (ih h))

theorem apply_then {st : Buf} (h : Sized st) (s : Str) {P : XssStatic → Prop} {Q : Nat → Prop}
    (hflag : ∀ x, P x → x.2 = true) (hP : ∀ st, Sized st → (P (st, true) ↔ Q st.buflen)) :
    ((FilterCgi.xssfiltAll.apply (st, true) s).2 = xssTexts s ∧
        P (FilterCgi.xssfiltAll.apply (st, true) s).1) ↔
      Fits (roomFor ⟨none, st.buflen⟩ s.length) 0 s ∧ Q (roomFor ⟨none, st.buflen⟩ s.length) := by
  have happly : FilterCgi.xssfiltAll.apply (st, true) s = (((st.escape s).1,
      decide ((st.escape s).2.reach ≤ (st.escape s).1.buflen)), (st.escape s).2.ret) := rfl
  have hsafe := xssSafe_iff_fits (s := s) h
  rw [happly]
  constructor
  · rintro ⟨hret, hrest⟩
    have hreach := hflag _ hrest
    have hfits := hsafe.1 ⟨hret, of_decide_eq_true hreach⟩
    refine ⟨hfits, ?_⟩
    rw [← buflen_of_fits h hfits, ← hP _ h.escape]
    exact (show _ = true from hreach) ▸ hrest
  · rintro ⟨hfits, hrest⟩
    obtain ⟨hret, hreach⟩ := hsafe.2 hfits
    refine ⟨hret, ?_⟩
    rw [← buflen_of_fits h hfits, ← hP _ h.escape] at hrest
    rw [decide_eq_true hreach]
    exact hrest

theorem calls_iff_allFit {st : Buf} (h : Sized st) (xs : List CgiField) :
    ((FilterCgi.xssfiltAll.calls (st, true) (xs.map CgiField.call)).1.2 = true ∧
      (FilterCgi.xssfiltAll.calls (st, true) (xs.map CgiField.call)).2 =
        xs.map fun x => (x.map xssTexts).call) ↔
      AllFit st.buflen (xs.flatMap CgiField.texts) := by
  induction xs generalizing st with
  | nil => exact iff_of_true ⟨rfl, rfl⟩ trivial
  | cons a xs ih =>
    obtain ⟨k, v⟩ := a
    -- the fields behind this one
    let P (x : XssStatic) : Prop :=
      (FilterCgi.xssfiltAll.calls x (xs.map CgiField.call)).1.2 = true ∧
        (FilterCgi.xssfiltAll.calls x (xs.map CgiField.call)).2 =
          xs.map fun x => (x.map xssTexts).call
    let Q (B : Nat) : Prop := AllFit B (xs.flatMap CgiField.texts)
    have hflag (x : XssStatic) (hx : P x) : x.2 = true := flag_of_calls hx.1
    have hP (st : Buf) (hst : Sized st) : P (st, true) ↔ Q st.buflen := ih hst
    cases v with
    | none =>
      have hkey := apply_then h k hflag hP
      simp only [List.map_cons, List.flatMap_cons, CgiField.texts, Option.toList_none,
        FilterCgi.calls, CgiField.call, FilterCgi.applyOpt, CgiField.map, Option.map_none,
        List.cons.injEq, Prod.mk.injEq, Option.some.injEq, and_true]
      exact and_left_comm.trans hkey
    | some v =>
      have hval (st : Buf) (hst : Sized st) := apply_then hst v hflag hP
      have hkey := apply_then h k
        (P := fun x => (FilterCgi.xssfiltAll.apply x v).2 = xssTexts v ∧
          P (FilterCgi.xssfiltAll.apply x v).1)
        (Q := fun B => Fits (roomFor ⟨none, B⟩ v.length) 0 v ∧
          Q (roomFor ⟨none, B⟩ v.length)) (fun x hx => flag_of_apply (hflag _ hx.2)) hval
      simp only [List.map_cons, List.flatMap_cons, CgiField.texts, Option.toList_some,
        FilterCgi.calls, CgiField.call, FilterCgi.applyOpt, CgiField.map, Option.map_some,
        List.cons.injEq, Prod.mk.injEq, Option.some.injEq]
      rw [and_left_comm, and_assoc]
      exact hkey

theorem calls_of_off (hf : f ≠ .xssfiltAll) (x : XssStatic) (cs : List CgiCall) :
    f.calls x cs = (x, cs) := by
  have happly (s : Option Str) : f.applyOpt x s = (x, s) := by
    cases s with
    | none => rfl
    | some s => simp only [FilterCgi.applyOpt, FilterCgi.apply, if_neg hf]
  induction cs with
  | nil => rfl
  | cons c cs ih => simp only [FilterCgi.calls, happly, ih]

end Whole

namespace Cgi

section Runs

variable {f : FilterCgi} {limit : Nat} {mode : CgiMode} {cap : Nat} {B : Str}

def stored (limit : Nat) (mode : CgiMode) (cap : Nat) (B : Str) : List CgiField :=
  (CgiConfig.store ⟨limit, id⟩).read mode ⟨none, mode.isCookie, { cap := cap }⟩ (lex mode .plain B)

theorem ends_stored (hcap : 0 < cap) (x : XssStatic) :
    (filterMachine f limit).Ends (start mode.unlimited cap (Abuf.whole B), x, [])
      (f.calls x ((stored limit mode cap B).map CgiField.call)) := by
  have htape : (start mode.unlimited cap (Abuf.whole B)).tape.Whole B := by
    cases mode <;> exact Tape.whole_start B
  have hstands : Stands mode none (start mode.unlimited cap (Abuf.whole B)) := by
    cases mode <;> exact ⟨rfl, rfl, nofun⟩
  have hfull : (start mode.unlimited cap (Abuf.whole B)).word.full = false :=
    decide_eq_false (Nat.not_le.2 hcap)
  have hstart := start_of_correct (B := B) (fun B' _ => @correct ⟨limit, id⟩ mode .plain B') hstands
    rfl rfl rfl hfull 0 _ [] htape
  rw [Option.isNone_none, Bool.and_true] at hstart
  exact Sim.ends ⟨rfl, fun _ => rfl, rfl, rfl⟩ hstart

variable (limit) in
theorem same_start (mode : CgiMode) (hcap : 0 < cap) :
    Same ⟨limit, id⟩ ⟨none, mode.isCookie, { cap := cap }⟩ ⟨none, mode.isCookie, []⟩
      ⟨none, mode.isCookie, some (cap, 0)⟩ where
  key := rfl
  side := rfl
  skip := rfl
  skip' := rfl
  text := rfl
  lengths := rfl
  room := decide_eq_false (Nat.not_le.2 hcap)

theorem room_empty {cfg : CgiConfig} {w : Word} (h : w.cap = 0) : cfg.room w = w := by
  obtain ⟨text, cap, inhex, hex⟩ := w
  obtain rfl : cap = 0 := h
  unfold CgiConfig.room CgiConfig.extendScratch
  split
  · split <;> simp
  · rfl

theorem not_ends_empty {c : Cgi} {x : XssStatic} {log : List CgiCall}
    {o : XssStatic × List CgiCall} (hcap : c.word.cap = 0) (hi : c.word.inhex = false)
    (ht : ∃ B, c.tape.Whole B) : ¬ (filterMachine f limit).Ends (c, x, log) o := by
  rintro ⟨n, hn⟩
  induction n generalizing c with
  | zero => cases hn
  | succ n ih =>
    have hpass : ∃ k t, c.parseStillWaiting = (false, { c with spcs := k, tape := t }) ∧
        ∃ B, t.Whole B := by
      obtain ⟨B, hB⟩ := ht
      by_cases hk : c.pstate = .ckey ∧ c.word.text = []
      · obtain ⟨t, hskip, ht⟩ := skipHws_whole (k := c.spcs) hB
        exact ⟨0, t, stillWaiting_skip hk hskip, _, ht⟩
      · exact ⟨c.spcs, c.tape, stillWaiting_pass hk, B, hB⟩
    obtain ⟨k, t, hpass, ht⟩ := hpass
    have hfull : (keyOrValScanner ⟨limit, id⟩ c.pstate c.uriMode).guard c.word =
        some .overflow := by
      simp [keyOrValScanner, hi, Word.full, hcap]
    have hparse : parseKeyOrVal ⟨limit, id⟩ c.pstate c.uriMode c.word t =
        (.overflow, none, { c.word with text := [] }, t) := by
      rw [parseKeyOrVal, if_neg (by simp [hi]), room_empty hcap, scan_guard hfull]
      rfl
    have hstep : (filterMachine f limit).step (c, x, log) =
        .next ({ c with spcs := k, tape := t, word := { c.word with text := [] } }, x, log) := by
      simp [filterMachine, hpass, hparse, FilterCgi.applyOpt, logPart, processParsedKeyOrVal,
        insertCalls, logOutcome, withStatic]
    rw [Machine.run, hstep] at hn
    exact ih (c := { c with spcs := k, tape := t, word := { c.word with text := [] } }) hcap hi ht hn

end Runs

end Cgi

theorem length_calls {f : FilterCgi} {x : XssStatic} (cs : List CgiCall) :
    (f.calls x cs).2.length = cs.length := by
  induction cs generalizing x with
  | nil => rfl
  | cons c cs ih => exact congrArg (· + 1) ih

section Kept

variable {f : FilterCgi} {buf : Xss.Buf} {okLimit : Nat} {maxlen : Int} {mode : CgiMode} {cap : Nat}
  {B : Str}

theorem calls_of_fieldsKept {log : List CgiCall} {kept : List CgiField} (hcap : 0 < cap)
    (h : FieldsKept f buf okLimit maxlen mode cap B log kept) :
    ∃ buf', f.calls (buf, true)
        ((Cgi.stored (scratchLimit okLimit maxlen) mode cap B).map CgiField.call) =
      ((buf', true), (cgiFields mode B).map fun x => (x.map f.text).call) := by
  obtain ⟨buf', hends⟩ := h.inserts
  have hcalls := Machine.Ends.unique (Cgi.ends_stored hcap (buf, true)) hends
  have hkept : kept = cgiFields mode B := by
    refine h.fields.eq_of_length ?_
    have hlen := congrArg (fun x => x.2.length) hcalls
    simp only [length_calls, List.length_map, h.calls] at hlen
    rw [← hlen]
    exact length_read (Cgi.same_start (scratchLimit okLimit maxlen) mode hcap).sameSide _
  exact ⟨buf', by rw [hcalls, h.calls, hkept]⟩

theorem fits_of_fieldsKept (hbuf : buf.Reached) {log : List CgiCall} {kept : List CgiField}
    (h : FieldsKept f buf okLimit maxlen mode cap B log kept) :
    0 < cap ∧ CgiConfig.fits ⟨scratchLimit okLimit maxlen, id⟩ mode cap B = true ∧
      (f = .xssfiltAll → Xss.AllFit buf.buflen ((cgiFields mode B).flatMap CgiField.texts)) := by
  have hcap : 0 < cap := by
    by_contra hcap
    obtain ⟨buf', hends⟩ := h.inserts
    refine Cgi.not_ends_empty (Nat.eq_zero_of_not_pos hcap) ?_ ⟨B, ?_⟩ hends
    · cases mode <;> rfl
    · cases mode <;> exact Tape.whole_start B
  obtain ⟨buf', hcalls⟩ := calls_of_fieldsKept hcap h
  have hweight := weight_of_calls (congrArg Prod.snd hcalls)
  obtain ⟨hfits, hstored⟩ | ⟨-, hlt⟩ := read_or_behind (fun _ => rfl)
    (Cgi.same_start (scratchLimit okLimit maxlen) mode hcap) (lex mode .plain B)
  · have hstored : Cgi.stored (scratchLimit okLimit maxlen) mode cap B = cgiFields mode B := hstored
    refine ⟨hcap, hfits, ?_⟩
    rintro rfl
    rw [hstored] at hcalls
    exact (calls_iff_allFit (Xss.Reached.sized hbuf) _).1
      ⟨congrArg (fun x => x.1.2) hcalls, congrArg Prod.snd hcalls⟩
  · exact absurd hweight (Nat.not_le.2 hlt)

theorem fieldsKept_of_fits (hbuf : buf.Reached) (hcap : 0 < cap)
    (hfits : CgiConfig.fits ⟨scratchLimit okLimit maxlen, id⟩ mode cap B = true)
    (hall : f = .xssfiltAll → Xss.AllFit buf.buflen ((cgiFields mode B).flatMap CgiField.texts)) :
    ∃ log, FieldsKept f buf okLimit maxlen mode cap B log (cgiFields mode B) := by
  have hsame := Cgi.same_start (scratchLimit okLimit maxlen) mode hcap
  obtain ⟨-, hstored⟩ | ⟨hlost, -⟩ := read_or_behind (fun _ => rfl) hsame (lex mode .plain B)
  · have hends := @Cgi.ends_stored f (scratchLimit okLimit maxlen) mode cap B hcap (buf, true)
    rw [show Cgi.stored (scratchLimit okLimit maxlen) mode cap B = cgiFields mode B from hstored]
      at hends
    have hcalls : ∃ buf', f.calls (buf, true) ((cgiFields mode B).map CgiField.call) =
        ((buf', true), (cgiFields mode B).map fun x => (x.map f.text).call) := by
      by_cases hf : f = .xssfiltAll
      · subst hf
        obtain ⟨hflag, hlog⟩ := (calls_iff_allFit (Xss.Reached.sized hbuf) _).2 (hall rfl)
        exact ⟨_, Prod.ext (Prod.ext rfl hflag) hlog⟩
      · refine ⟨buf, ?_⟩
        rw [calls_of_off hf, show f.text = id from funext fun s => if_neg hf]
        simp [CgiField.map]
    obtain ⟨buf', hcalls⟩ := hcalls
    rw [hcalls] at hends
    refine ⟨_, ⟨buf', hends⟩, rfl, List.Sublist.refl _, ?_, List.filter_sublist⟩
    intro x hx
    exact Nat.le_of_lt (length_lt_of_fits hsame (Nat.le_max_left _ _) (Nat.le_max_right _ _) nofun
      hfits x hx)
  · rw [CgiConfig.fits, hlost] at hfits
    cases hfits

end Kept

/-- The insertions are the fields of the input exactly when the scratch area has room for every
key and every value and no escape is cut off. -/
theorem fieldsKept_iff_fits (f : FilterCgi) (buf : Xss.Buf) (hbuf : buf.Reached) (okLimit : Nat)
    (maxlen : Int) (mode : CgiMode) (cap : Nat) (B : Str) :
    (∃ log kept, FieldsKept f buf okLimit maxlen mode cap B log kept) ↔
      0 < cap ∧ CgiConfig.fits ⟨scratchLimit okLimit maxlen, id⟩ mode cap B = true ∧
        (f = .xssfiltAll → Xss.AllFit buf.buflen ((cgiFields mode B).flatMap CgiField.texts)) := by
  constructor
  · rintro ⟨log, kept, h⟩
    exact fits_of_fieldsKept hbuf h
  · rintro ⟨hcap, hfits, hall⟩
    obtain ⟨log, h⟩ := fieldsKept_of_fits hbuf hcap hfits hall
    exact ⟨log, cgiFields mode B, h⟩

/-- `a=<cd`, in an area of two bytes that can grow to four. -/
theorem fieldsKept_iff_fits_grown :
    ∃ log kept, FieldsKept .xssfiltAll {} 4 5 (.post 5) 2 [97, 61, 60, 99, 100] log kept := by
  have hroom {B n : Nat} (h : 4096 ≤ B) : 4096 ≤ Xss.roomFor ⟨none, B⟩ n :=
    h.trans (le_max_left _ _)
  refine (fieldsKept_iff_fits .xssfiltAll {} .start 4 5 (.post 5) 2 _).2
    ⟨by decide, by decide, fun _ => ⟨fun c hc => ?_, fun c hc => ?_, trivial⟩⟩
  · cases hc
    exact Nat.lt_of_lt_of_le (by decide) (hroom (Nat.le_refl _))
  · cases hc
    exact Nat.lt_of_lt_of_le (by decide) (hroom (hroom (Nat.le_refl _)))

/-- `a=bcd`, in an area of two bytes: the value that is inserted is `d`. -/
theorem not_fieldsKept_suffix :
    ¬ ∃ log kept, FieldsKept .xssfiltNone {} 2 5 (.post 5) 2 [97, 61, 98, 99, 100] log kept := by
  rintro ⟨log, kept, h⟩
  have hfits := (fits_of_fieldsKept .start h).2.1
  revert hfits
  decide

end Okws
