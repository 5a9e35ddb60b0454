import Okws.CgiFields

namespace Okws

open Lib

/-- A call of `insert`: with a key, and with a value or none. -/
abbrev CgiCall := Option Str × Option Str

def CgiField.call (x : CgiField) : CgiCall := (some x.key, x.val)

def PairTab.insertCall (t : PairTab) (x : CgiCall) : PairTab := t.insert x.1 x.2 true true

namespace Cgi

/-- The calls of `insert` in `process_parsed_key_or_val`. -/
def insertCalls (rc : Stat) (s : Option Str) (c : Cgi) : List CgiCall :=
  match rc with
  | .separator => [(s, none)]
  | .ok => if c.pstate.keyState then [] else [(c.key, s)]
  | .eof => if c.pstate.keyState then [(s, none)] else [(c.key, s)]
  | _ => []

theorem insertCalls_tab (rc : Stat) (s : Option Str) (c : Cgi) :
    (processParsedKeyOrVal rc s c).2.tab =
      (insertCalls rc s c).foldl PairTab.insertCall c.tab := by
  cases hk : c.pstate.keyState <;> cases rc <;>
    simp [processParsedKeyOrVal, insertCalls, hk, PairTab.insertCall]

def logOutcome (log : List CgiCall) : Stat × Cgi → Iter (Cgi × List CgiCall) (List CgiCall)
  | (.eof, _) => .stop log
  | (.wait, c) => .wait (c, log)
  | (_, c) => .next (c, log)

/-- What `parse_guts_driver` makes of a key or a value. -/
def logPart (log : List CgiCall) (c : Cgi) (x : Stat × Option Str × Word × Tape) :
    Iter (Cgi × List CgiCall) (List CgiCall) :=
  let c' := { c with word := x.2.2.1, tape := x.2.2.2 }
  logOutcome (log ++ insertCalls x.1 x.2.1 c') (processParsedKeyOrVal x.1 x.2.1 c')

/-- `parse_guts`, with the calls of `insert` it has made. -/
def logMachine (cfg : CgiConfig) : Machine (Cgi × List CgiCall) (List CgiCall) where
  step
    | (c, log) => match c.parseStillWaiting with
      | (true, c') => .wait (c', log)
      | (false, c') => logPart log c' (parseKeyOrVal cfg c'.pstate c'.uriMode c'.word c'.tape)
  resume | (c, log) => ({ c with tape := c.tape.canRead }, log)

structure Logged (c : Cgi) (log : List CgiCall) : Prop where
  tab : c.tab = log.foldl PairTab.insertCall .empty

section Erase

variable {cfg : CgiConfig} {c c' : Cgi} {log log' : List CgiCall}

theorem passed_tab {b : Bool} (h : c.parseStillWaiting = (b, c')) : c'.tab = c.tab := by
  unfold parseStillWaiting at h
  split at h <;> cases h <;> rfl

theorem logStep_erase (h : Logged c log) :
    match (logMachine cfg).step (c, log) with
    | .next (c', log') => (machine cfg).step c = .next c' ∧ Logged c' log'
    | .wait (c', log') => (machine cfg).step c = .wait c' ∧ Logged c' log'
    | .stop log' => (machine cfg).step c = .stop (log'.foldl PairTab.insertCall .empty) := by
  rcases hp : c.parseStillWaiting with ⟨b, c₁⟩
  have htab : c₁.tab = log.foldl PairTab.insertCall .empty := (passed_tab hp).trans h.tab
  cases b with
  | true =>
    simp only [logMachine, hp]
    exact ⟨step_waiting hp, ⟨htab⟩⟩
  | false =>
    simp only [logMachine, hp]
    rw [step_passed hp, parsePart, logPart]
    rcases parseKeyOrVal cfg c₁.pstate c₁.uriMode c₁.word c₁.tape with ⟨rc, s, w, t⟩
    have hins : (processParsedKeyOrVal rc s { c₁ with word := w, tape := t }).2.tab =
        (log ++ insertCalls rc s { c₁ with word := w, tape := t }).foldl PairTab.insertCall
          .empty := by
      rw [List.foldl_append, ← htab]
      exact insertCalls_tab rc s _
    simp only
    rcases hpp : processParsedKeyOrVal rc s { c₁ with word := w, tape := t } with ⟨rc', c₂⟩
    rw [hpp] at hins
    cases rc' with
    | eof => exact congrArg Iter.stop hins
    | wait => exact ⟨rfl, ⟨hins⟩⟩
    | _ => exact ⟨rfl, ⟨hins⟩⟩

theorem ends_of_log (h : Logged c log) (hends : (logMachine cfg).Ends (c, log) log') :
    (machine cfg).Ends c (log'.foldl PairTab.insertCall .empty) := by
  obtain ⟨n, hn⟩ := hends
  induction n generalizing c log with
  | zero => cases hn
  | succ n ih =>
    have hstep := @logStep_erase cfg c log h
    rw [Machine.run] at hn
    rcases hs : (logMachine cfg).step (c, log) with ⟨c', l⟩ | ⟨c', l⟩ | l
    · rw [hs] at hstep hn
      exact (Machine.ends_next hstep.1).2 (ih hstep.2 hn)
    · rw [hs] at hstep hn
      exact (Machine.ends_wait hstep.1).2 (ih ⟨hstep.2.tab⟩ hn)
    · rw [hs] at hstep hn
      cases hn
      exact (Machine.ends_stop hstep).2 rfl

end Erase

/-- The parser in front of a key, or of the value for a key. -/
structure Stands (m : CgiMode) (key : Option Str) (c : Cgi) : Prop where
  pstate : c.pstate = match m.isCookie, key with
    | false, none => .key
    | false, some _ => .val
    | true, none => .ckey
    | true, some _ => .cval
  uri : c.uriMode = m.isUri
  key : ∀ k, key = some k → c.key = some k

def Lexes : CgiLex → Word → Prop
  | .plain, w => w.inhex = false ∧ w.hex = {}
  | .escape none, w => w.inhex = true ∧ w.hex = {}
  | .escape (some a), w => w.inhex = true ∧ ∃ v, charToHex a = some v ∧ w.hex = ⟨1, v, a⟩

def plainWord (w : Word) : Word := { w with inhex := false, hex := {} }

section Bytes

variable {cfg : CgiConfig} {m : CgiMode} {key : Option Str} {c : Cgi} {w : Word} {b : UInt8}

theorem Stands.keyState (h : c.Stands m key) : c.pstate.keyState = key.isNone := by
  rw [h.pstate]
  cases m.isCookie <;> cases key <;> rfl

theorem Stands.cookieState (h : c.Stands m key) : c.pstate.cookieState = m.isCookie := by
  rw [h.pstate]
  cases m.isCookie <;> cases key <;> rfl

theorem putText_one (b : UInt8) : cfg.putText w [b] = cfg.put b w := by
  simp [CgiConfig.putText, CgiConfig.put]

theorem putText_nil (hw : w.full = false) : cfg.putText w [] = w := by
  simp [CgiConfig.putText, room_of_not_full cfg hw]

/-- What the switch does with a character outside of an escape. -/
def Answers (cfg : CgiConfig) (key : Option Str) (w : Word) : Option CgiTok → Act Word Stat → Prop
  | none, a => a = .done .eof w ∨ a = .back .eof w
  | some (.text _ s), a => a = .next (cfg.putText w s)
  | some .sep, a => a = .done (if key.isNone then .separator else .ok) w
  | some .bind, a => a = if key.isNone then .done .ok w else .next (cfg.putText w [61])

theorem keyOrValByte_answers (h : c.Stands m key) (hw : w.full = false) (hb : b ≠ 37) :
    Answers cfg key w (plainTok m b) (keyOrValByte cfg c.pstate c.uriMode w b) := by
  have hnil : cfg.putText w [] = w := putText_nil hw
  have hone : ∀ b, cfg.putText w [b] = cfg.put b w := putText_one
  have hcookie := h.cookieState
  have hkey := h.keyState
  rw [h.uri]
  unfold plainTok keyOrValByte
  split
  · rw [h.pstate]
    cases m.isCookie <;> cases key <;> simp [Answers, hone]
  split
  · next hbind =>
    rw [hkey, hbind]
    cases key <;> simp [Answers, hone]
  split
  · rw [h.pstate]
    cases m.isCookie <;> cases key <;> simp [Answers, hone]
  split
  · rw [hcookie]
    cases m.isUri <;> cases m.isCookie <;> simp [Answers, hone, hnil]
  split
  · rw [hcookie]
    cases m.isUri <;> cases m.isCookie <;> simp [Answers, hone]
  split
  · simp [Answers, hone]
  cases hws : Byte.isHws b <;> cases m.isUri <;> simp [Answers, hone]

theorem byte_escape {x : Option UInt8} (hl : Lexes (.escape x) w) :
    (keyOrValScanner cfg c.pstate c.uriMode).byte w b = match x, charToHex b with
      | none, some v => .next { w with hex := ⟨1, v, b⟩ }
      | some a, some lo =>
        .next (cfg.putText (plainWord w) [UInt8.ofNat ((charToHex a).getD 0 * 16 + lo)])
      | x, none =>
        if (cfg.putText (plainWord w) (37 :: x.toList)).full then
          .back .overflow (cfg.putText (plainWord w) (37 :: x.toList))
        else
          keyOrValByte cfg c.pstate c.uriMode (cfg.putText (plainWord w) (37 :: x.toList)) b := by
  cases x with
  | none =>
    obtain ⟨hi, hx⟩ := hl
    cases hb : charToHex b with
    | none =>
      simp [keyOrValScanner, hi, hexScanner, Hex.digit, hb, Word.endHex, hx, Hex.text, plainWord,
        CgiConfig.putText]
    | some v => simp [keyOrValScanner, hi, hexScanner, Hex.digit, hb, hx]
  | some a =>
    obtain ⟨hi, v, ha, hx⟩ := hl
    cases hb : charToHex b with
    | none =>
      have ha0 : a ≠ 0 := by
        rintro rfl
        cases ha
      have hend : cfg.room w.endHex = cfg.putText (plainWord w) [37, a] := by
        by_cases hroom : 2 < w.cap - w.text.length
        · simp [CgiConfig.putText, plainWord, Word.endHex, Hex.text, hx, ha0, hroom,
            Nat.not_le.2 hroom]
        · simp [CgiConfig.putText, plainWord, Word.endHex, Hex.text, hx, hroom, Nat.not_lt.1 hroom]
      simp [keyOrValScanner, hi, hexScanner, Hex.digit, hb, hend]
      rfl
    | some lo =>
      simp [keyOrValScanner, hi, hexScanner, Hex.digit, hb, hx, Word.endHex, Hex.text, plainWord,
        CgiConfig.putText, ha]

end Bytes

variable (cfg : CgiConfig) (m : CgiMode)

/-- From inside the loop, with `w` in the area, the parser goes on to make these calls. -/
def Finish (c : Cgi) (w : Word) (B : Str) (calls : List CgiCall) : Prop :=
  ∀ (k : Nat) (t : Tape) (log : List CgiCall) (r : Stat) (w' : Word) (B' : Str),
    (keyOrValScanner cfg c.pstate c.uriMode).read w B = (r, w', B') → t.Whole B' →
      (logMachine cfg).After (log ++ calls)
        (logPart log { c with spcs := k } (keyOrValEnd cfg (some r, w', t)))

/-- From `parse_guts_driver` on, the parser goes on to make these calls. -/
def Start (c : Cgi) (B : Str) (calls : List CgiCall) : Prop :=
  ∀ (k : Nat) (t : Tape) (log : List CgiCall), t.Whole B →
    (logMachine cfg).Ends ({ c with spcs := k, tape := t }, log) (log ++ calls)

/-- The calls that a scratch area makes of the tokens. -/
def storeCalls (r : CgiReading Word) (ts : List CgiTok) : List CgiCall :=
  (cfg.store.read m r ts).map CgiField.call

/-- The loop in the middle of a key or a value makes the calls that the tokens to come ask for. -/
def Correct (st : CgiLex) (B : Str) : Prop :=
  ∀ {c : Cgi} {w : Word} {key : Option Str}, Stands m key c → Lexes st w → w.full = false →
    Finish cfg c w B (storeCalls cfg m ⟨key, false, plainWord w⟩ (lex m st B))

variable {cfg m} {c : Cgi} {w w' : Word} {b : UInt8} {B : Str} {calls : List CgiCall}
  {key : Option Str}

theorem finish_next (hg : (keyOrValScanner cfg c.pstate c.uriMode).guard w = none)
    (hb : (keyOrValScanner cfg c.pstate c.uriMode).byte w b = .next w')
    (h : Finish cfg c w' B calls) : Finish cfg c w (b :: B) calls := by
  intro k t log r w₁ B₁ hread
  rw [Scanner.read, hg, hb] at hread
  exact h k t log r w₁ B₁ hread

theorem finish_of_overflow {B' : Str}
    (hread : (keyOrValScanner cfg c.pstate c.uriMode).read w B = (.overflow, w', B'))
    (h : Start cfg { c with word := { w' with text := [] } } B' calls) :
    Finish cfg c w B calls := by
  intro k t log r w₁ B₁ hread' ht
  cases hread.symm.trans hread'
  have hs := h k t log ht
  simpa [keyOrValEnd, logPart, processParsedKeyOrVal, insertCalls, logOutcome,
    Machine.After] using hs

theorem finish_of_eof {B' : Str} (hc : Stands m key c) (hw : w'.full = false)
    (hread : (keyOrValScanner cfg c.pstate c.uriMode).read w B = (.eof, w', B')) :
    Finish cfg c w B [(CgiField.close (cfg.filter w'.text) key).call] := by
  intro k t log r w₁ B₁ hread' ht
  cases hread.symm.trans hread'
  have hstate := hc.keyState
  cases key with
  | none =>
    simp [keyOrValEnd, logPart, processParsedKeyOrVal, insertCalls, logOutcome, Machine.After, hw,
      hstate, CgiField.close, CgiField.call]
  | some k =>
    simp [keyOrValEnd, logPart, processParsedKeyOrVal, insertCalls, logOutcome, Machine.After, hw,
      hstate, CgiField.close, CgiField.call, hc.key k rfl]

theorem finish_of_sep {B' : Str} (hc : Stands m key c) (hw : w'.full = false)
    (hread : (keyOrValScanner cfg c.pstate c.uriMode).read w B =
      (if key.isNone then .separator else .ok, w', B'))
    (h : ∀ c', Stands m none c' → c'.word = { w' with text := [] } → Start cfg c' B' calls) :
    Finish cfg c w B ((CgiField.close (cfg.filter w'.text) key).call :: calls) := by
  intro k t log r w₁ B₁ hread' ht
  cases hread.symm.trans hread'
  have hstate := hc.keyState
  have hpstate := hc.pstate
  cases key with
  | none =>
    have hs := h { c with
      tab := c.tab.insert (some (cfg.filter w'.text)) none true true,
      word := { w' with text := [] } } ⟨hpstate, hc.uri, nofun⟩ rfl k t
      (log ++ [(some (cfg.filter w'.text), none)]) ht
    rw [List.append_assoc] at hs
    simpa [keyOrValEnd, hw, logPart, processParsedKeyOrVal, insertCalls, logOutcome,
      Machine.After, CgiField.close, CgiField.call] using hs
  | some x =>
    have htrans : c.pstate.trans = if m.isCookie then .ckey else .key := by
      rw [hpstate]
      cases m.isCookie <;> rfl
    have hs := h { c with
      tab := c.tab.insert c.key (some (cfg.filter w'.text)) true true, key := none,
      pstate := c.pstate.trans, word := { w' with text := [] } }
      ⟨by rw [htrans]; cases m.isCookie <;> rfl, hc.uri, nofun⟩ rfl k t
      (log ++ [(some x, some (cfg.filter w'.text))]) ht
    rw [List.append_assoc] at hs
    simpa [keyOrValEnd, hw, logPart, processParsedKeyOrVal, insertCalls, logOutcome,
      Machine.After, CgiField.close, CgiField.call, hstate, hc.key x rfl] using hs

theorem finish_of_bind {B' : Str} (hc : Stands m none c) (hw : w'.full = false)
    (hread : (keyOrValScanner cfg c.pstate c.uriMode).read w B = (.ok, w', B'))
    (h : ∀ c', Stands m (some (cfg.filter w'.text)) c' → c'.word = { w' with text := [] } →
      Start cfg c' B' calls) :
    Finish cfg c w B calls := by
  intro k t log r w₁ B₁ hread' ht
  cases hread.symm.trans hread'
  have hstate := hc.keyState
  have hpstate := hc.pstate
  have htrans : c.pstate.trans = if m.isCookie then .cval else .val := by
    rw [hpstate]
    cases m.isCookie <;> rfl
  have hs := h { c with
    key := some (cfg.filter w'.text), pstate := c.pstate.trans, word := { w' with text := [] } }
    ⟨by rw [htrans]; cases m.isCookie <;> rfl, hc.uri, fun _ hk => hk⟩ rfl k t log ht
  simpa [keyOrValEnd, hw, logPart, processParsedKeyOrVal, insertCalls, logOutcome,
    Machine.After, hstate] using hs

theorem skipHws_whole {k : Nat} {t : Tape} (ht : t.Whole B) :
    ∃ t', skipHws Tape.device 0 k t = (.ok, 0, t') ∧ t'.Whole (B.dropWhile Byte.isHws) := by
  have hread : ∀ k, (skipHwsScanner 0).read k B = (.ok, 0, B.dropWhile Byte.isHws) := by
    clear ht
    induction B with
    | nil => intro k; simp [Scanner.read, skipHwsScanner]
    | cons b B ih =>
      intro k
      cases hb : Byte.isHws b with
      | true =>
        have hbyte : (skipHwsScanner 0).byte k b = .next (k + 1) := by simp [skipHwsScanner, hb]
        rw [Scanner.read, show (skipHwsScanner 0).guard k = none from rfl, hbyte,
          List.dropWhile_cons_of_pos hb]
        exact ih (k + 1)
      | false =>
        have hbyte : (skipHwsScanner 0).byte k b = .back .ok 0 := by simp [skipHwsScanner, hb]
        rw [Scanner.read, show (skipHwsScanner 0).guard k = none from rfl, hbyte,
          List.dropWhile_cons_of_neg (by simp [hb])]
  obtain ⟨t', hscan, ht'⟩ := ht.scan (skipHwsScanner 0) k
  rw [hread] at hscan ht'
  exact ⟨t', by simp [skipHws, hscan], ht'⟩

theorem lex_escape_head (x : Option UInt8) (B s : Str) :
    (lex m (.escape x) B).head? ≠ some (.text true s) := by
  have hsome (a : UInt8) (B : Str) : (lex m (.escape (some a)) B).head? ≠ some (.text true s) := by
    cases B with
    | nil => simp [lex]
    | cons b B => cases hb : charToHex b <;> simp [lex, lexChar, hb]
  cases x with
  | some a => exact hsome a B
  | none =>
    cases B with
    | nil => simp [lex]
    | cons b B =>
      cases hb : charToHex b with
      | none => simp [lex, lexChar, hb]
      | some v => simpa [lex, lexChar, hb] using hsome b B

theorem plainTok_blank {s : Str} (h : plainTok m b = some (.text true s)) :
    Byte.isHws b = true := by
  unfold plainTok at h
  grind

theorem read_skip_of_head {ts : List CgiTok} (h : ∀ s, ts.head? ≠ some (.text true s)) (w : Word) :
    storeCalls cfg m ⟨key, true, w⟩ ts = storeCalls cfg m ⟨key, false, w⟩ ts := by
  cases ts with
  | nil => rfl
  | cons x ts =>
    cases x with
    | text blank s =>
      cases blank with
      | true => exact absurd rfl (h s)
      | false => rfl
    | sep => rfl
    | bind => rfl

theorem storeCalls_skip (hm : m.isCookie = true) (B : Str) (w : Word) :
    storeCalls cfg m ⟨key, true, w⟩ (lex m .plain B) =
      storeCalls cfg m ⟨key, false, w⟩ (lex m .plain (B.dropWhile Byte.isHws)) := by
  have huri : m.isUri = false := by cases m <;> first | rfl | cases hm
  induction B with
  | nil => rfl
  | cons b B ih =>
    cases hb : Byte.isHws b with
    | true =>
      have htok : lexPlain m b = ([.text true [b]], some .plain) := by
        simp only [Byte.isHws, Bool.or_eq_true, beq_iff_eq] at hb
        obtain rfl | rfl := hb <;>
          simp [lexPlain, plainTok, huri, Byte.isHws, Byte.sp, Byte.ht, Byte.cr, Byte.lf]
      rw [List.dropWhile_cons_of_pos hb, ← ih]
      simp [lex, lexChar, htok, storeCalls, CgiStore.read, CgiStore.step]
    | false =>
      rw [List.dropWhile_cons_of_neg (by simp [hb])]
      refine read_skip_of_head (fun s => ?_) w
      by_cases h37 : b = 37
      · simpa [lex, lexChar, lexPlain, h37] using lex_escape_head none B s
      · cases ht : plainTok m b with
        | none => simp [lex, lexChar, lexPlain, h37, ht]
        | some x =>
          intro hx
          have hx : x = .text true s := by simpa [lex, lexChar, lexPlain, h37, ht] using hx
          rw [hx] at ht
          simp [plainTok_blank ht] at hb

theorem parseKeyOrVal_whole {vt : CgiVar} {uri : Bool} {t : Tape} (hi : w.inhex = false)
    (hw : w.full = false) (ht : t.Whole B) :
    ∃ r w' t' B', (keyOrValScanner cfg vt uri).read w B = (r, w', B') ∧ t'.Whole B' ∧
      parseKeyOrVal cfg vt uri w t = keyOrValEnd cfg (some r, w', t') := by
  obtain ⟨t', hscan, ht'⟩ := ht.scan (keyOrValScanner cfg vt uri) w
  refine ⟨_, _, t', _, rfl, ht', ?_⟩
  rw [parseKeyOrVal, if_neg (by simp [hi]), room_of_not_full cfg hw, hscan]

theorem start_of_correct (hcor : ∀ B' : Str, B'.length ≤ B.length → Correct cfg m .plain B')
    (hc : Stands m key c) (hi : c.word.inhex = false) (hx : c.word.hex = {})
    (htext : c.word.text = []) (hw : c.word.full = false) :
    Start cfg c B (storeCalls cfg m ⟨key, m.isCookie && key.isNone, c.word⟩ (lex m .plain B)) := by
  have hplain : plainWord c.word = c.word := by
    simp [plainWord, ← hi, ← hx]
  have finish (B' : Str) (hB : B'.length ≤ B.length) (k : Nat) (t : Tape) (log : List CgiCall)
      (ht : t.Whole B') : (logMachine cfg).After
        (log ++ storeCalls cfg m ⟨key, false, c.word⟩ (lex m .plain B'))
        (logPart log { c with spcs := k, tape := t }
          (parseKeyOrVal cfg c.pstate c.uriMode c.word t)) := by
    obtain ⟨r, w', t', B₁, hread, ht', hparse⟩ := @parseKeyOrVal_whole cfg _ _ _ _ _ hi hw ht
    rw [hparse]
    have hfin := hcor B' hB hc ⟨hi, hx⟩ hw
    rw [hplain] at hfin
    exact hfin k t' log r w' B₁ hread ht'
  intro k t log ht
  rw [Machine.ends_iff_after]
  by_cases hk : c.pstate = .ckey
  · have hm : m.isCookie = true := by rw [← hc.cookieState, hk]; rfl
    have hkey : key.isNone = true := by rw [← hc.keyState, hk]; rfl
    obtain ⟨t', hskip, ht'⟩ := skipHws_whole (k := k) ht
    have hstill := stillWaiting_skip (c := { c with spcs := k, tape := t }) ⟨hk, htext⟩ hskip
    rw [hm, hkey, Bool.and_self, storeCalls_skip hm]
    simp only [logMachine, hstill]
    exact finish _ (List.dropWhile_sublist _).length_le 0 t' log ht'
  · have hskip : (m.isCookie && key.isNone) = false := by
      rw [← hc.cookieState, ← hc.keyState]
      cases hp : c.pstate <;> simp_all [CgiVar.cookieState, CgiVar.keyState]
    have hstill := stillWaiting_pass (c := { c with spcs := k, tape := t }) fun h => hk h.1
    rw [hskip]
    simp only [logMachine, hstill]
    exact finish B (Nat.le_refl _) k t log ht

theorem finish_put (hcor : ∀ B' : Str, B'.length ≤ B.length → Correct cfg m .plain B')
    (hc : Stands m key c) (hl : Lexes .plain w) (hw : w.full = false) (s : Str) :
    Finish cfg c (cfg.putText w s) B
      (storeCalls cfg m (cfg.store.put' m ⟨key, false, w⟩ s) (lex m .plain B)) := by
  have hl' : Lexes .plain (cfg.putText w s) := by
    refine ⟨?_, ?_⟩
    · rw [CgiConfig.putText, room_inhex, hl.1]
    · rw [CgiConfig.putText, room_hex, hl.2]
  have hplain : plainWord (cfg.putText w s) = cfg.putText w s := by
    simp [plainWord, ← hl'.1, ← hl'.2]
  cases hfull : (cfg.putText w s).full with
  | false =>
    have hput : cfg.store.put' m ⟨key, false, w⟩ s = ⟨key, false, cfg.putText w s⟩ := by
      simp [CgiStore.put', CgiConfig.store, hfull]
    have hfin := hcor B (Nat.le_refl _) hc hl' hfull
    rw [hplain] at hfin
    rw [hput]
    exact hfin
  | true =>
    have hput : cfg.store.put' m ⟨key, false, w⟩ s =
        ⟨key, m.isCookie && key.isNone, { cfg.putText w s with text := [] }⟩ := by
      simp [CgiStore.put', CgiConfig.store, hfull]
    have hcap : ¬ (cfg.putText w s).cap ≤ 0 := by
      have hle : w.cap ≤ cfg.grow w.cap (cfg.putText w s).text.length := le_grow _ _
      rw [← putText_cap] at hle
      simp only [Word.full, decide_eq_false_iff_not] at hw
      omega
    have hread : (keyOrValScanner cfg c.pstate c.uriMode).read (cfg.putText w s) B =
        (.overflow, cfg.putText w s, B) := by
      have hguard : (keyOrValScanner cfg c.pstate c.uriMode).guard (cfg.putText w s) =
          some .overflow := by simp [keyOrValScanner, hl'.1, hfull]
      cases B <;> simp [Scanner.read, hguard]
    rw [hput]
    exact finish_of_overflow hread (start_of_correct hcor (c := { c with
      word := { cfg.putText w s with text := [] } }) ⟨hc.pstate, hc.uri, hc.key⟩ hl'.1 hl'.2 rfl
      (decide_eq_false hcap))

theorem correct_plain (hcor : ∀ st (B' : Str), B'.length ≤ B.length → Correct cfg m st B')
    (b : UInt8) : Correct cfg m .plain (b :: B) := by
  intro c w key hc hl hw
  have hplain : plainWord w = w := by
    simp [plainWord, ← hl.1, ← hl.2]
  have hguard : (keyOrValScanner cfg c.pstate c.uriMode).guard w = none := guard_of_not_full hw
  have hbyte : (keyOrValScanner cfg c.pstate c.uriMode).byte w b =
      keyOrValByte cfg c.pstate c.uriMode w b := byte_of_not_inhex hl.1 b
  rw [hplain]
  have hplain' : ∀ B' : Str, B'.length ≤ B.length → Correct cfg m .plain B' := hcor .plain
  have hcap : ¬ w.cap ≤ 0 := by
    simp only [Word.full, decide_eq_false_iff_not] at hw
    omega
  by_cases h37 : b = 37
  · subst h37
    have hnext : (keyOrValScanner cfg c.pstate c.uriMode).byte w 37 =
        .next { w with inhex := true } := by
      rw [hbyte]
      simp [keyOrValByte, Byte.cr, Byte.lf]
    have hfin := hcor (.escape none) B (Nat.le_refl _) hc (w := { w with inhex := true })
      ⟨rfl, hl.2⟩ hw
    have hword : plainWord { w with inhex := true } = w := hplain
    rw [hword] at hfin
    exact finish_next hguard hnext hfin
  · have hans := @keyOrValByte_answers cfg _ _ _ _ _ hc hw h37
    rw [← hbyte] at hans
    have htoks : lex m .plain (b :: B) = (plainTok m b).toList ++
        if (plainTok m b).isSome then lex m .plain B else [] := by
      cases ht : plainTok m b <;> simp [lex, lexChar, lexPlain, h37, ht]
    rw [htoks]
    cases ht : plainTok m b with
    | none =>
      rw [ht] at hans
      have hread : ∃ B', (keyOrValScanner cfg c.pstate c.uriMode).read w (b :: B) =
          (.eof, w, B') := by
        rw [Scanner.read, hguard]
        obtain h | h := hans <;> rw [h] <;> exact ⟨_, rfl⟩
      obtain ⟨B', hread⟩ := hread
      exact finish_of_eof hc hw hread
    | some x =>
      rw [ht] at hans
      cases x with
      | text blank s => exact finish_next hguard hans (finish_put hplain' hc hl hw s)
      | sep =>
        have hread : (keyOrValScanner cfg c.pstate c.uriMode).read w (b :: B) =
            (if key.isNone then .separator else .ok, w, B) := by
          rw [Scanner.read, hguard, show _ = _ from hans]
        refine finish_of_sep hc hw hread fun c' hc' hword => ?_
        have hstart := start_of_correct (c := c') hplain' hc' (by rw [hword]; exact hl.1)
          (by rw [hword]; exact hl.2) (by rw [hword]) (by rw [hword]; exact decide_eq_false hcap)
        rw [Option.isNone_none, Bool.and_true, hword] at hstart
        exact hstart
      | bind =>
        cases key with
        | none =>
          have hread : (keyOrValScanner cfg c.pstate c.uriMode).read w (b :: B) = (.ok, w, B) := by
            rw [Scanner.read, hguard, show _ = _ from hans]
            rfl
          refine finish_of_bind hc hw hread fun c' hc' hword => ?_
          have hstart := start_of_correct (c := c') hplain' hc' (by rw [hword]; exact hl.1)
            (by rw [hword]; exact hl.2) (by rw [hword]) (by rw [hword]; exact decide_eq_false hcap)
          rw [Option.isNone_some, Bool.and_false, hword] at hstart
          exact hstart
        | some k => exact finish_next hguard hans (finish_put hplain' hc hl hw [61])

theorem correct_escape (hcor : ∀ st (B' : Str), B'.length ≤ B.length → Correct cfg m st B')
    (x : Option UInt8) (b : UInt8) : Correct cfg m (.escape x) (b :: B) := by
  intro c w key hc hl hw
  have hi : w.inhex = true := by
    cases x <;> exact hl.1
  have hlp : Lexes .plain (plainWord w) := ⟨rfl, rfl⟩
  have hguard : (keyOrValScanner cfg c.pstate c.uriMode).guard w = none := guard_of_inhex hi
  have hbyte := @byte_escape cfg c w b x hl
  have hplain' : ∀ B' : Str, B'.length ≤ B.length → Correct cfg m .plain B' := hcor .plain
  cases hb : charToHex b with
  | some v =>
    rw [hb] at hbyte
    cases x with
    | none =>
      have hfin := hcor (.escape (some b)) B (Nat.le_refl _) hc (w := { w with hex := ⟨1, v, b⟩ })
        ⟨hi, v, hb, rfl⟩ hw
      have htoks : lex m (.escape none) (b :: B) = lex m (.escape (some b)) B := by
        simp [lex, lexChar, hb]
      rw [htoks]
      exact finish_next hguard hbyte hfin
    | some a =>
      have htoks : lex m (.escape (some a)) (b :: B) =
          .text false [UInt8.ofNat ((charToHex a).getD 0 * 16 + v)] :: lex m .plain B := by
        simp [lex, lexChar, hb]
      rw [htoks]
      exact finish_next hguard hbyte (finish_put hplain' hc hlp hw _)
  | none =>
    -- the character is read again, outside of the escape
    have hagain : ∀ B' : Str, B'.length ≤ (b :: B).length → Correct cfg m .plain B' := by
      intro B' hB'
      cases B' with
      | nil => exact hplain' [] (Nat.zero_le _)
      | cons b' B' =>
        have hlen : B'.length ≤ B.length := Nat.le_of_succ_le_succ hB'
        have hrest : ∀ st (B₁ : Str), B₁.length ≤ B'.length → Correct cfg m st B₁ :=
          fun st B₁ h₁ => hcor st B₁ (Nat.le_trans h₁ hlen)
        exact @correct_plain cfg m B' hrest b'
    have htoks : lex m (.escape x) (b :: B) =
        .text false (37 :: x.toList) :: lex m .plain (b :: B) := by
      cases x <;> simp [lex, lexChar, hb]
    have hbyte : (keyOrValScanner cfg c.pstate c.uriMode).byte w b =
        if (cfg.putText (plainWord w) (37 :: x.toList)).full then
          .back .overflow (cfg.putText (plainWord w) (37 :: x.toList))
        else keyOrValByte cfg c.pstate c.uriMode
          (cfg.putText (plainWord w) (37 :: x.toList)) b := by
      rw [hbyte, hb]
      cases x <;> rfl
    have hfin := finish_put hagain hc hlp hw (37 :: x.toList)
    have hi' : (cfg.putText (plainWord w) (37 :: x.toList)).inhex = false := by
      rw [CgiConfig.putText, room_inhex]
      rfl
    generalize cfg.putText (plainWord w) (37 :: x.toList) = w' at hbyte hfin hi'
    have hread : (keyOrValScanner cfg c.pstate c.uriMode).read w (b :: B) =
        (keyOrValScanner cfg c.pstate c.uriMode).read w' (b :: B) := by
      cases hfull : w'.full with
      | true =>
        have hguard' : (keyOrValScanner cfg c.pstate c.uriMode).guard w' = some .overflow := by
          simp [keyOrValScanner, hi', hfull]
        rw [Scanner.read, Scanner.read, hguard, hguard', hbyte, hfull]
        rfl
      | false =>
        rw [Scanner.read, Scanner.read, hguard, guard_of_not_full hfull, hbyte, hfull,
          byte_of_not_inhex hi']
        rfl
    intro k t log r w₁ B₁ hr ht
    rw [htoks]
    exact hfin k t log r w₁ B₁ (hread.symm.trans hr) ht

theorem correct (st : CgiLex) (B : Str) : Correct cfg m st B := by
  induction hn : B.length using Nat.strongRecOn generalizing st B with
  | ind n ih =>
    cases B with
    | nil =>
      intro c w key hc hl hw
      have hguard : (keyOrValScanner cfg c.pstate c.uriMode).guard w = none := by
        simp [keyOrValScanner, hw]
      have hread : (keyOrValScanner cfg c.pstate c.uriMode).read w [] = (.eof, w, []) := by
        rw [Scanner.read, hguard]
        rfl
      have hfin := finish_of_eof hc hw hread
      exact hfin
    | cons b B =>
      have hcor : ∀ st (B' : Str), B'.length ≤ B.length → Correct cfg m st B' := by
        intro st B' hB'
        exact ih B'.length (by rw [← hn, List.length_cons]; omega) st B' rfl
      cases st with
      | plain => exact @correct_plain cfg m B hcor b
      | escape x => exact @correct_escape cfg m B hcor x b

end Cgi

end Okws
