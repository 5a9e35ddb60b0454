import Okws.InHdrFrag

/-! The target of a request, as `ahttpcon_clone::parse_reqline` finds it in `okd` and as
`http_inhdr_t` finds it in the service. -/

namespace Okws

open Lib

/-- `delimit_state`. -/
inductive DelimitSt
  | method | blanks | target
  deriving DecidableEq

/-- How the loop of `parse_reqline` ends. -/
inductive Reqline
  | found (s : Str)
  | bad
  | more
  deriving DecidableEq

namespace Reqline

def isUpper (b : UInt8) : Bool := 65 ≤ b && b ≤ 90

def isEnd (b : UInt8) : Bool := b == Byte.sp || b == 63 || Byte.isEol b

/-- The loop of `parse_reqline`; `w` is what stands behind `delimit_start`. -/
def loop : DelimitSt → Str → Str → Reqline
  | _, _, [] => .more
  | .method, w, p :: bytes =>
    if p = Byte.sp then loop .blanks w bytes
    else if !isUpper p then .bad
    else loop .method w bytes
  | .blanks, w, p :: bytes =>
    if p = Byte.sp then loop .blanks w bytes
    -- falls through to the next case
    else if isEnd p then .found w
    else loop .target (w ++ [p]) bytes
  | .target, w, p :: bytes => if isEnd p then .found w else loop .target (w ++ [p]) bytes

def uri (bytes : Str) : Str := (bytes.dropWhile isUpper).dropWhile (· == Byte.sp)

theorem loop_target (w bytes : Str) : loop .target w bytes =
    if bytes.any isEnd then .found (w ++ bytes.takeWhile (!isEnd ·)) else .more := by
  induction bytes generalizing w with
  | nil => rfl
  | cons p bytes ih => cases hp : isEnd p <;> simp [loop, hp, ih]

theorem loop_blanks (w bytes : Str) :
    loop .blanks w bytes = loop .target w (bytes.dropWhile (· == Byte.sp)) := by
  induction bytes with
  | nil => rfl
  | cons p bytes ih =>
    by_cases hp : p = Byte.sp
    · simp [loop, hp, ih]
    · simp [loop, hp]

theorem loop_method (w bytes : Str) : loop .method w bytes =
    match (bytes.dropWhile isUpper).head? with
    | none => .more
    | some b => if b = Byte.sp then loop .target w (uri bytes) else .bad := by
  induction bytes with
  | nil => rfl
  | cons p bytes ih =>
    by_cases hsp : p = Byte.sp
    · subst hsp
      have hu : isUpper Byte.sp = false := rfl
      simp [loop, loop_blanks, uri, hu]
    · cases hu : isUpper p with
      | true => simp [loop, hsp, hu, ih, uri]
      | false => simp [loop, hsp, hu]

end Reqline

/-- `parse_reqline`: the target, and `delimit_status`. -/
def parseReqline (maxline : Nat) (bytes : Str) : Option Str × Nat :=
  match Reqline.loop .method [] bytes with
  | .found s => (some s, Http.ok)
  | .bad => (none, Http.badRequest)
  | .more => (none, if maxline < bytes.length then Http.uriTooBig else Http.ok)

namespace Reqline

theorem loop_found {bytes s : Str} (h : loop .method [] bytes = .found s) :
    (bytes.dropWhile isUpper).head? = some Byte.sp ∧ s = (uri bytes).takeWhile (!isEnd ·) := by
  rw [loop_method] at h
  split at h
  · cases h
  · next b hb =>
    split at h
    · next hsp =>
      subst hsp
      rw [loop_target] at h
      split at h <;> cases h
      exact ⟨hb, by simp⟩
    · cases h

theorem parse_found {maxline : Nat} {bytes s : Str}
    (h : parseReqline maxline bytes = (some s, Http.ok)) :
    loop .method [] bytes = .found s := by
  unfold parseReqline at h
  split at h <;> simp at h
  next hl => rw [hl, h]

end Reqline

namespace Tape

def rest (t : Tape) : Str := t.unwait.ahead

variable {t t' : Tape}

theorem rest_byte {b : UInt8} (ht : t.Live) (h : t.get = (.byte b, t')) : t.rest = b :: t'.rest :=
  ahead_byte (get_keep ht.ready h (by simp)).1

theorem rest_eof (ht : t.Live) (h : t.get = (.eof, t')) : t.rest = [] :=
  ahead_nil (get_keep ht.ready h (by simp)).1 nofun

theorem rest_wait (ht : t.Live) (h : t.get = (.wait, t')) : t'.canRead.rest = t.rest :=
  (ahead_congr (get_resume ht.ready h).1).symm

theorem rest_unget {c : Ch UInt8} (ht : t.Live) (h : t.get = (c, t')) (hc : c ≠ .wait) :
    t'.unget.rest = t.rest := by
  have hu := (get_keep ht.ready h hc).1
  refine ahead_congr ?_
  rw [unwait_unget]
  exact ht.unwait.get_unget hu hc

theorem rest_setMir (t : Tape) (m : Option Mirror) :
    ({ t with mir := m } : Tape).rest = t.rest := by
  refine (ahead_dropMirror _).symm.trans ?_
  exact ahead_dropMirror t.unwait

theorem ahead_bytes {B : Str} (ht : t.Unlimited) (hbc : t.bc = false) (he : t.erc = .ok)
    (htoks : t.toks = B.map .byte) : t.ahead = B := by
  induction B generalizing t with
  | nil => exact ahead_nil (get_nil hbc ht.ne he htoks) nofun
  | cons b B ih =>
    have hget := get_byte hbc ht.ne he htoks
    have hu := ht.get
    rw [hget] at hu
    rw [ahead_byte hget]
    exact congrArg (b :: ·) (ih hu hbc he rfl)

theorem rest_start (rs : List Str) : ({ src := rs } : Abuf).toTape.rest = rs.flatten := by
  refine ahead_bytes (t := ({ src := rs } : Abuf).toTape.unwait)
    (by simp [Abuf.toTape, unwait, Unlimited]) rfl rfl ?_
  exact Abuf.regionToks_bytes rs

theorem Live.get {c : Ch UInt8} (ht : t.Live) (h : t.get = (c, t')) (hc : c ≠ .wait) : t'.Live :=
  ⟨(get_keep ht.ready h hc).2, by have := ht.unlimited.get; rwa [h] at this⟩

end Tape

section Scans

variable {t t' : Tape}

theorem scan_word {mark : UInt8 → Mark} {p : UInt8 → Bool} {s s' : Scratch}
    {x : Option (Except Stat Str)}
    (hmark : ∀ b, mark b = if p b then .put b else .stop false) (ht : t.Live)
    (h : scan Tape.device (delimScanner mark true) s t = (x, s', t')) :
    (∀ w, x = some (.ok w) →
      w = s.text ++ t.rest.takeWhile p ∧ t'.rest = t.rest.dropWhile p ∧ s'.text = []) ∧
    (x = none → ∃ u, t.rest = u ++ t'.canRead.rest ∧ u.all p = true ∧ s'.text = s.text ++ u) := by
  induction t using scan_induction (D := Tape.device) generalizing s with
  | _ t ih =>
  obtain ⟨r, hg, hr⟩ | ⟨-, b, u, y, hd, hb, hr⟩ | ⟨-, b, u, y, hd, hb, hr⟩ | ⟨-, u, hd, hr⟩ |
    ⟨-, u, hd, hr⟩ := scan_cases Tape.device (delimScanner mark true) s t <;> rw [hr] at h
  · cases h
    simp only [delimScanner] at hg
    split at hg <;> cases hg
    exact ⟨by rintro _ ⟨⟩, by rintro ⟨⟩⟩
  · obtain ⟨c, hm, rfl⟩ := delim_next hb
    rw [hmark] at hm
    split at hm <;> cases hm
    next hp =>
      obtain ⟨hok, hwait⟩ := ih b u hd (ht.get hd (by simp)) h
      rw [Tape.rest_byte ht hd, List.takeWhile_cons_of_pos hp, List.dropWhile_cons_of_pos hp]
      refine ⟨fun w hw => ?_, fun hx => ?_⟩
      · simpa using hok w hw
      · obtain ⟨l, hl, hall, htext⟩ := hwait hx
        exact ⟨b :: l, by rw [hl, List.cons_append], by simp [hp, hall], by simpa using htext⟩
  · cases hp : p b with
    | true => simp [delimScanner, hmark, hp] at hb
    | false =>
      obtain rfl : y = .back (.ok s.text) { s with text := [] } := by
        simpa [delimScanner, hmark, hp] using hb.symm
      cases h
      have hp : ¬ p b = true := by simp [hp]
      refine ⟨fun w hw => ?_, by rintro ⟨⟩⟩
      cases hw
      rw [show (Tape.device.unget u).rest = t.rest from Tape.rest_unget ht hd (by simp),
        Tape.rest_byte ht hd, List.takeWhile_cons_of_neg hp, List.dropWhile_cons_of_neg hp]
      simp
  · have hnil : t.rest = [] := Tape.rest_eof ht hd
    simp only [delimScanner] at h
    split at h <;> cases h
    · refine ⟨fun w hw => ?_, by rintro ⟨⟩⟩
      cases hw
      rw [show (Tape.device.unget u).rest = t.rest from Tape.rest_unget ht hd (by simp), hnil]
      simp
    · exact ⟨by rintro _ ⟨⟩, by rintro ⟨⟩⟩
  · cases h
    exact ⟨by rintro _ ⟨⟩, fun _ => ⟨[], (Tape.rest_wait ht hd).symm, rfl, by simp⟩⟩

theorem delimitWord_error {qms : Bool} {s s' : Scratch} {e : Stat}
    (h : scan Tape.device (delimitWord qms) s t = (some (.error e), s', t')) : e ≠ .ok := by
  refine scan_answer (S := delimitWord qms) (R := fun r => r ≠ .error .ok) (fun {s r} hg => ?_)
    (fun {s b r s'} hb => ?_) (fun {s r s'} he => ?_) h ∘ congrArg _
  · simp only [delimitWord, delimScanner] at hg
    split at hg <;> cases hg
    rintro ⟨⟩
  · simp only [delimitWord, delimScanner] at hb
    split at hb <;> simp at hb <;> simp [← hb.1]
  · simp only [delimitWord, delimScanner] at he
    split at he <;> simp at he <;> simp [← he.1]

theorem scan_hws_rest {mn k k' : Nat} {x : Option Stat} (ht : t.Live)
    (h : scan Tape.device (skipHwsScanner mn) k t = (x, k', t')) :
    (x = some .ok → t'.rest = t.rest.dropWhile Byte.isHws) ∧
    (x = none → t'.canRead.rest.dropWhile Byte.isHws = t.rest.dropWhile Byte.isHws) := by
  induction t using scan_induction (D := Tape.device) generalizing k with
  | _ t ih =>
  obtain ⟨r, hg, hr⟩ | ⟨-, b, u, y, hd, hb, hr⟩ | ⟨-, b, u, y, hd, hb, hr⟩ | ⟨-, u, hd, hr⟩ |
    ⟨-, u, hd, hr⟩ := scan_cases Tape.device (skipHwsScanner mn) k t <;> rw [hr] at h
  · cases hg
  · simp only [skipHwsScanner] at hb
    split at hb <;> cases hb
    next hp =>
      rw [Tape.rest_byte ht hd, List.dropWhile_cons_of_pos hp]
      exact ih b u hd (ht.get hd (by simp)) h
  · simp only [skipHwsScanner] at hb
    split at hb <;> cases hb
    next hp =>
      cases h
      refine ⟨fun _ => ?_, by rintro ⟨⟩⟩
      rw [show (Tape.device.unget u).rest = t.rest from Tape.rest_unget ht hd (by simp),
        Tape.rest_byte ht hd, List.dropWhile_cons_of_neg hp]
  · cases h
    refine ⟨fun _ => ?_, by rintro ⟨⟩⟩
    rw [show (Tape.device.unget u).rest = t.rest from Tape.rest_unget ht hd (by simp),
      Tape.rest_eof ht hd]
    rfl
  · cases h
    exact ⟨by rintro ⟨⟩, fun _ => by rw [Tape.rest_wait ht hd]⟩

end Scans

namespace InHdr

/-- The characters of a method, and those of a target. -/
def isMethod (b : UInt8) : Bool := !(Byte.isHws b || Byte.isEol b)
def isTarget (b : UInt8) : Bool := !(b == 63 || (Byte.isHws b || Byte.isEol b))

def uri (bytes : Str) : Str := (bytes.dropWhile isMethod).dropWhile Byte.isHws

/-- Where the parser of the request `bytes` is: in front of the target, or behind it. -/
def Located (bytes : Str) (v : InHdr) (t : Tape) : Prop :=
  match v.state with
  | .start => t.Live ∧ v.ext = false ∧ v.scr.text.all isMethod = true ∧ v.scr.text ++ t.rest = bytes
  | .spc1 => t.Live ∧ v.ext = false ∧ v.scr.text = [] ∧ t.rest.dropWhile Byte.isHws = uri bytes
  | .target =>
    t.Live ∧ v.ext = false ∧ v.scr.text.all isTarget = true ∧ v.scr.text ++ t.rest = uri bytes
  | _ => v.target = some ((uri bytes).takeWhile isTarget)

def early : InHdrSt → Bool
  | .start | .spc1 | .target => true
  | _ => false

variable {cfg : InHdrConfig} {N : Type} {P : SubParser N} {bytes : Str} {v v' : InHdr} {n n' : N}
  {t t' : Tape}
  {w w' : InHdr × N × Tape}

theorem located_late (h : early v.state = false) :
    Located bytes v t ↔ v.target = some ((uri bytes).takeWhile isTarget) := by
  unfold Located
  cases hs : v.state <;> rw [hs] at h <;> first | exact Iff.rfl | cases h

variable (cfg) in
theorem act_target {q : InHdrSt} (hq : q ≠ .target) : Reader.Keeps InHdr.target (act cfg q) := by
  have word_target {S : Scanner UInt8 Scratch (Except Stat Str)} {set : InHdr → Str → InHdr}
      (hset : ∀ v s, (set v s).target = v.target) : Reader.Keeps InHdr.target (word S set) :=
    Reader.keeps_ofScan (fun _ _ => rfl) fun v r => by cases r <;> simp [hset]
  have eol_target :
      Reader.Keeps InHdr.target eol := Reader.keeps_ofScan (fun _ _ => rfl) fun _ _ => rfl
  have hws_target (mn : Nat) : Reader.Keeps InHdr.target (skipHws mn) :=
    Reader.keeps_ofScan (fun _ _ => rfl) fun _ _ => rfl
  have require_target : Reader.Keeps InHdr.target requireCrlf :=
    Reader.keeps_ofScan (fun _ _ => rfl) fun _ _ => rfl
  have gobble_target : Reader.Keeps InHdr.target gobbleCrlf :=
    Reader.keeps_ofScan (fun _ _ => rfl) fun v r => by split <;> rfl
  cases q with
  | start =>
    intro v t
    have hword : Reader.Keeps InHdr.target
        (word (delimitWord false) fun v s => { v with tmthd := some s }) :=
      word_target fun _ _ => rfl
    exact hword v _
  | spc1 => exact hws_target 1
  | target => exact absurd rfl hq
  | uridat => exact Reader.keeps_ofScan (fun _ _ => rfl) fun v r => by split <;> rfl
  | spc2 =>
    intro v t
    have he := eol_target v t
    simp only [act]
    split
    · exact he
    · exact (hws_target 1 _ _).trans he
  | optparam => exact Reader.keeps_onStat eol_target (word_target fun _ _ => rfl)
  | eol1 => exact fun v t => require_target { v with line1 := _ } _
  | key => exact Reader.keeps_onStat gobble_target (word_target fun _ _ => rfl)
  | spc3 => exact hws_target 0
  | value =>
    intro v t
    simp only [act]
    split
    · rfl
    · have hword : Reader.Keeps InHdr.target
          (word delimitVal fun v s => { v with val := some s }) :=
        word_target fun _ _ => rfl
      exact hword v t
  | eol2a =>
    intro v t
    simp only [act]
    split
    · rfl
    · split <;> rfl
  | eol2b => exact require_target
  | beyond => exact fun _ _ => rfl

theorem delimitWord_mark (b : UInt8) (qms : Bool) :
    (if b = 63 then (if qms then Mark.stop false else .put b)
    else if Byte.isHws b || Byte.isEol b then .stop false else .put b) =
      if (if qms then isTarget else isMethod) b then .put b else .stop false := by
  by_cases hb : b = 63
  · subst hb
    cases qms <;> rfl
  · cases qms <;> cases h : (Byte.isHws b || Byte.isEol b) <;> simp [isTarget, isMethod, hb, h]

variable (cfg) in
theorem early_after {q : InHdrSt} (h : early q = false) :
    early (after cfg q) = false ∧ early q.inc = false := by
  cases q <;> first | exact ⟨rfl, rfl⟩ | cases h

theorem takeWhile_all {p : UInt8 → Bool} {u l : Str} (hu : u.all p = true) :
    (u ++ l).takeWhile p = u ++ l.takeWhile p ∧ (u ++ l).dropWhile p = l.dropWhile p := by
  rw [List.all_eq_true] at hu
  exact ⟨List.takeWhile_append_of_pos hu, List.dropWhile_append_of_pos hu⟩

section Rounds

variable {x : Option Stat}

theorem start_located (hst : v.state = .start) (hL : Located bytes v t)
    (h : act cfg .start v t = (x, v', t')) :
    (x = none → Located bytes v' t'.canRead) ∧
    (x = some .ok → Located bytes { v' with state := after cfg v'.state } t') := by
  simp only [Located, hst] at hL
  obtain ⟨ht, hext, hall, hbytes⟩ := hL
  have hmir : (t.mirror scr2Len).rest = t.rest := t.rest_setMir _
  have hmark (b : UInt8) := delimitWord_mark b false
  rcases x with _ | r
  · refine ⟨fun _ => ?_, nofun⟩
    have hlive := (act_waited ht h).live
    obtain ⟨s, hs, rfl⟩ := Reader.ofScan_wait_inv
      (show word (delimitWord false) (fun v s => { v with tmthd := some s }) v (t.mirror scr2Len) =
        _ from h)
    obtain ⟨u, hu, hpu, htext⟩ := (scan_word hmark (ht.setMir _) hs).2 rfl
    simp only [Located, hst]
    refine ⟨hlive, hext, ?_, ?_⟩
    · rw [htext, List.all_append, hall]
      exact hpu
    · rw [htext, List.append_assoc, ← hu]
      exact hmir ▸ hbytes
  · refine ⟨nofun, fun hr => ?_⟩
    cases hr
    have hlive := (act_keep ht h).2.live
    obtain ⟨y, s, hs, hp⟩ := Reader.ofScan_keep_inv
      (show word (delimitWord false) (fun v s => { v with tmthd := some s }) v (t.mirror scr2Len) =
        _ from h)
    cases y with
    | error e => cases hp; exact absurd rfl (delimitWord_error hs)
    | ok w =>
      cases hp
      obtain ⟨-, hrest, htext⟩ := (scan_word hmark (ht.setMir _) hs).1 w rfl
      simp only [Located, hst, after, InHdrSt.inc]
      refine ⟨hlive, hext, htext, ?_⟩
      have hrest : t'.rest = t.rest.dropWhile isMethod := hrest.trans (congrArg _ hmir)
      rw [hrest, uri, ← hbytes, (takeWhile_all hall).2]

theorem spc1_located (hst : v.state = .spc1) (hL : Located bytes v t)
    (h : act cfg .spc1 v t = (x, v', t')) :
    (x = none → Located bytes v' t'.canRead) ∧
    (x = some .ok → Located bytes { v' with state := after cfg v'.state } t') := by
  simp only [Located, hst] at hL
  obtain ⟨ht, hext, htext, hrest⟩ := hL
  rcases x with _ | r
  · refine ⟨fun _ => ?_, nofun⟩
    have hlive := (act_waited ht h).live
    obtain ⟨k, hk, rfl⟩ := Reader.ofScan_wait_inv (show skipHws 1 v t = _ from h)
    simp only [Located, hst]
    exact ⟨hlive, hext, htext, ((scan_hws_rest ht hk).2 rfl).trans hrest⟩
  · refine ⟨nofun, fun hr => ?_⟩
    cases hr
    have hlive := (act_keep ht h).2.live
    obtain ⟨y, k, hk, hp⟩ := Reader.ofScan_keep_inv (show skipHws 1 v t = _ from h)
    cases hp
    simp only [Located, hst, after, InHdrSt.inc]
    refine ⟨hlive, hext, by rw [htext]; rfl, ?_⟩
    rw [htext, List.nil_append, (scan_hws_rest ht hk).1 rfl, hrest]

theorem target_located (hq : cfg.parseQueryString = true) (hst : v.state = .target)
    (hL : Located bytes v t) (h : act cfg .target v t = (x, v', t')) :
    (x = none → Located bytes v' t'.canRead) ∧
    (x = some .ok → Located bytes { v' with state := after cfg v'.state } t') := by
  simp only [Located, hst] at hL
  obtain ⟨ht, hext, hall, hbytes⟩ := hL
  have hmark (b : UInt8) := delimitWord_mark b cfg.parseQueryString
  simp only [hq, if_true] at hmark
  rcases x with _ | r
  · refine ⟨fun _ => ?_, nofun⟩
    have hlive := (act_waited ht h).live
    obtain ⟨s, hs, rfl⟩ := Reader.ofScan_wait_inv
      (show word (delimitWord cfg.parseQueryString) (fun v s => { v with target := some s }) v t =
        _ from h)
    rw [hq] at hs
    obtain ⟨u, hu, hpu, htext⟩ := (scan_word hmark ht hs).2 rfl
    simp only [Located, hst]
    refine ⟨hlive, hext, ?_, ?_⟩
    · rw [htext, List.all_append, hall]
      exact hpu
    · rw [htext, List.append_assoc, ← hu]
      exact hbytes
  · refine ⟨nofun, fun hr => ?_⟩
    cases hr
    obtain ⟨y, s, hs, hp⟩ := Reader.ofScan_keep_inv
      (show word (delimitWord cfg.parseQueryString) (fun v s => { v with target := some s }) v t =
        _ from h)
    rw [hq] at hs
    cases y with
    | error e => cases hp; exact absurd rfl (delimitWord_error hs)
    | ok w =>
      cases hp
      obtain ⟨hw, -, -⟩ := (scan_word hmark ht hs).1 w rfl
      refine (located_late (by simp [hst, after, hq, early])).2 ?_
      rw [← hbytes, (takeWhile_all hall).1, hw]

theorem act_located (hq : cfg.parseQueryString = true) (he : early v.state = true)
    (hL : Located bytes v t) (h : act cfg v.state v t = (x, v', t')) :
    (x = none → Located bytes v' t'.canRead) ∧
    (x = some .ok → Located bytes { v' with state := after cfg v'.state } t') := by
  cases hst : v.state <;> rw [hst] at he h
  case start => exact start_located hst hL h
  case spc1 => exact spc1_located hst hL h
  case target => exact target_located hq hst hL h
  all_goals cases he

end Rounds

def After (bytes : Str) : Iter (InHdr × N × Tape) InHdrOut → Prop
  | .next (v, _, t) => Located bytes v t
  | .wait (v, _, t) => Located bytes v t.canRead
  | .stop _ => True

theorem step_early (hq : cfg.parseQueryString = true) (he : early v.state = true)
    (hL : Located bytes v t) :
    After bytes ((machine cfg P).step (v, n, t)) := by
  have hext : v.ext = false := by
    unfold Located at hL
    cases hs : v.state <;> rw [hs] at he hL <;> first | exact hL.2.1 | cases he
  rw [step_act hext]
  rcases hact : act cfg v.state v t with ⟨x, v', t'⟩
  obtain ⟨hwait, hok⟩ := act_located hq he hL hact
  have hext' : v'.ext = false := by
    obtain hext' | ⟨hq' | hq', -⟩ := (act_frame hact).2
    · exact hext'.trans hext
    · rw [hq'] at he
      cases he
    · rw [hq'] at he
      cases he
  obtain ⟨rfl, ho⟩ | ⟨-, hv, -⟩ | ⟨rfl, -, ho⟩ | ⟨r, -, -, ho⟩ := outcome_cases cfg (n := n) x v' t'
  · rw [ho]
    exact hwait rfl
  · cases hext'.symm.trans hv
  · rw [ho]
    exact hok rfl
  · rw [ho]
    exact trivial

theorem step_late (he : early v.state = false)
    (hL : v.target = some ((uri bytes).takeWhile isTarget)) :
    After bytes ((machine cfg P).step (v, n, t)) := by
  cases hext : v.ext with
  | true =>
    rw [step_ext hext]
    rcases P.parse v.state v.spcs n t with ⟨_ | r, k, n', t'⟩
    · exact (located_late he).2 hL
    · simp only [subOutcome]
      split
      · exact (located_late (v := { v with spcs := k, ext := false, state := v.state.inc })
          (early_after cfg he).2).2 hL
      · exact (located_late (v := { v with spcs := k }) he).2 hL
  | false =>
    rw [step_act hext]
    rcases hact : act cfg v.state v t with ⟨x, v', t'⟩
    have htgt : v'.target = some ((uri bytes).takeWhile isTarget) := by
      have hne : v.state ≠ .target := by
        intro hs
        rw [hs] at he
        cases he
      have hkeep := act_target cfg hne v t
      rw [hact] at hkeep
      exact hkeep.trans hL
    have he' : early v'.state = false := (act_frame hact).1 ▸ he
    obtain ⟨-, ho⟩ | ⟨-, -, ho⟩ | ⟨-, -, ho⟩ | ⟨r, -, -, ho⟩ := outcome_cases cfg (n := n) x v' t'
    · rw [ho]
      exact (located_late he').2 htgt
    · rw [ho]
      exact (located_late he').2 htgt
    · rw [ho]
      exact (located_late (v := { v' with state := after cfg v'.state }) (early_after cfg he').1).2
        htgt
    · rw [ho]
      exact trivial

theorem step_located (hq : cfg.parseQueryString = true) (hL : Located bytes v t) :
    After bytes ((machine cfg P).step (v, n, t)) := by
  cases he : early v.state with
  | true => exact step_early hq he hL
  | false => exact step_late he ((located_late he).1 hL)

theorem located_start (cap cap₂ : Nat) (rs : List Str) :
    Located rs.flatten (start cap cap₂ rs).1 (start cap cap₂ rs).2.2 := by
  refine ⟨⟨⟨.inl rfl, nofun⟩, by simp [start, Abuf.toTape, Tape.Unlimited]⟩, rfl, rfl, ?_⟩
  exact Tape.rest_start rs

theorem Reaches.located {ccfg : CgiConfig} {cap cap₂ : Nat} {rs : List Str}
    {w : InHdr × Cgis × Tape} (hq : cfg.parseQueryString = true)
    (h : (machine cfg (cgis ccfg)).Reaches (start cap cap₂ rs) w) :
      Located rs.flatten w.1 w.2.2 := by
  refine h.invariant (I := fun w => Located rs.flatten w.1 w.2.2) (fun {u u'} hL hs => ?_)
    (fun {u u'} hL hs => ?_) (located_start cap cap₂ rs)
  · have hafter := step_located (n := u.2.1) (P := cgis ccfg) hq hL
    rw [show (machine cfg (cgis ccfg)).step (u.1, u.2.1, u.2.2) = _ from hs] at hafter
    exact hafter
  · have hafter := step_located (n := u.2.1) (P := cgis ccfg) hq hL
    rw [show (machine cfg (cgis ccfg)).step (u.1, u.2.1, u.2.2) = _ from hs] at hafter
    exact hafter

end InHdr

namespace Reqline

theorem isUpper_isMethod {b : UInt8} (h : isUpper b = true) : InHdr.isMethod b = true := by
  simp only [isUpper, Bool.and_eq_true, decide_eq_true_eq] at h
  have hne (c : UInt8) (hc : c < 65) : (b == c) = false := by
    refine beq_eq_false_iff_ne.2 fun hb => ?_
    exact absurd (UInt8.lt_of_lt_of_le hc h.1) (by rw [hb]; exact UInt8.lt_irrefl c)
  simp only [InHdr.isMethod, Byte.isHws, Byte.isEol, hne Byte.sp (by decide),
    hne Byte.ht (by decide), hne Byte.cr (by decide), hne Byte.lf (by decide)]
  rfl

theorem dropWhile_method {bytes : Str} (h : (bytes.dropWhile isUpper).head? = some Byte.sp) :
    bytes.dropWhile InHdr.isMethod = bytes.dropWhile isUpper := by
  induction bytes with
  | nil => rfl
  | cons b bytes ih =>
    cases hb : isUpper b with
    | true =>
      rw [List.dropWhile_cons_of_pos hb] at h ⊢
      rw [List.dropWhile_cons_of_pos (isUpper_isMethod hb)]
      exact ih h
    | false =>
      have hb : ¬ isUpper b = true := by simp [hb]
      rw [List.dropWhile_cons_of_neg hb] at h ⊢
      obtain rfl : b = Byte.sp := by simpa using h
      rfl

theorem isTarget_eq (b : UInt8) : InHdr.isTarget b = (!isEnd b && b != Byte.ht) := by
  simp only [InHdr.isTarget, isEnd, Byte.isHws, bne]
  cases b == Byte.sp <;> cases b == 63 <;> cases b == Byte.ht <;> cases Byte.isEol b <;> rfl

theorem takeWhile_and {p q : UInt8 → Bool} (l : Str) :
    l.takeWhile (fun b => p b && q b) = l.takeWhile p ↔ ∀ b ∈ l.takeWhile p, q b = true := by
  induction l with
  | nil => simp
  | cons b l ih => cases hp : p b <;> cases hq : q b <;> simp [hp, hq, ih]

theorem dropWhile_hws (l : Str) :
    (l.dropWhile (· == Byte.sp)).dropWhile Byte.isHws = l.dropWhile Byte.isHws := by
  induction l with
  | nil => rfl
  | cons b l ih =>
    cases hb : b == Byte.sp with
    | true => simp [Byte.isHws, hb, ih]
    | false => simp [hb]

theorem takeWhile_target {l : Str} (hsp : l.head? ≠ some Byte.sp) :
    (l.dropWhile Byte.isHws).takeWhile InHdr.isTarget = l.takeWhile (!isEnd ·) ↔
      Byte.ht ∉ l.takeWhile (!isEnd ·) := by
  have hfun : InHdr.isTarget = fun b => !isEnd b && b != Byte.ht := funext isTarget_eq
  by_cases hht : l.head? = some Byte.ht
  · obtain ⟨l, rfl⟩ : ∃ k, l = Byte.ht :: k := by
      cases l with
      | nil => cases hht
      | cons b l => exact ⟨l, by simpa using hht⟩
    have hmem : Byte.ht ∈ (Byte.ht :: l).takeWhile (!isEnd ·) := by
      rw [List.takeWhile_cons_of_pos (by rfl)]
      exact List.mem_cons_self
    refine iff_of_false (fun h => ?_) (fun h => h hmem)
    rw [← h] at hmem
    have hno := List.all_takeWhile (p := InHdr.isTarget) (l := (Byte.ht :: l).dropWhile Byte.isHws)
    have hbad : InHdr.isTarget Byte.ht = true := List.all_eq_true.1 hno _ hmem
    cases hbad
  · have hdrop : l.dropWhile Byte.isHws = l := by
      cases l with
      | nil => rfl
      | cons b l =>
        have hsp : b ≠ Byte.sp := by simpa using hsp
        have hht : b ≠ Byte.ht := by simpa using hht
        exact List.dropWhile_cons_of_neg (by simp [Byte.isHws, hsp, hht])
    rw [hdrop, hfun, takeWhile_and]
    exact ⟨fun h hmem => absurd (h _ hmem) (by decide), fun h b hb => by
      refine bne_iff_ne.2 fun he => ?_
      exact h (he ▸ hb)⟩

end Reqline

/-- The service sees the target by which `okd` has chosen it if and only if there is no tab in it
or in front of it. -/
theorem parseReqline_inHdr (cfg : InHdrConfig) (hq : cfg.parseQueryString = true) (ccfg : CgiConfig)
    (cap cap₂ maxline : Nat) (rs : List Str) (s : Str)
    (hs : parseReqline maxline rs.flatten = (some s, Http.ok)) (w : InHdr × InHdr.Cgis × Tape)
    (hw : (InHdr.machine cfg (InHdr.cgis ccfg)).Reaches (InHdr.start cap cap₂ rs) w)
    (hkey : w.1.state = .key) :
    w.1.target = some s ↔ Byte.ht ∉ (Reqline.uri rs.flatten).takeWhile (!Reqline.isEnd ·) := by
  have htarget : w.1.target = some ((InHdr.uri rs.flatten).takeWhile InHdr.isTarget) :=
    (InHdr.located_late (by rw [hkey]; rfl)).1 (InHdr.Reaches.located hq hw)
  obtain ⟨hsp, rfl⟩ := Reqline.loop_found (Reqline.parse_found hs)
  have huri : InHdr.uri rs.flatten = (Reqline.uri rs.flatten).dropWhile Byte.isHws := by
    rw [InHdr.uri, Reqline.uri, Reqline.dropWhile_method hsp, Reqline.dropWhile_hws]
  have hhead : (Reqline.uri rs.flatten).head? ≠ some Byte.sp := by
    intro hh
    have hnot := List.head?_dropWhile_not (· == Byte.sp) (rs.flatten.dropWhile Reqline.isUpper)
    rw [show (List.dropWhile _ _).head? = _ from hh] at hnot
    cases hnot
  rw [htarget, huri, Option.some.injEq]
  exact Reqline.takeWhile_target hhead

theorem reaches_key (n cap cap₂ : Nat) (rs : List Str) (o : Option Str)
    (h : ((InHdr.machine ⟨true, true, false, false⟩ (InHdr.cgis ⟨64, id⟩)).stateAt n
      (InHdr.start cap cap₂ rs)).map (fun w => (w.1.state, w.1.target)) = some (.key, o)) :
    ∃ w, (InHdr.machine ⟨true, true, false, false⟩ (InHdr.cgis ⟨64, id⟩)).Reaches
      (InHdr.start cap cap₂ rs) w ∧
      w.1.state = .key ∧ w.1.target = o := by
  obtain ⟨w, hw, heq⟩ := Option.map_eq_some_iff.1 h
  obtain ⟨hkey, ho⟩ := Prod.mk.inj heq
  exact ⟨w, Machine.reaches_of_stateAt hw, hkey, ho⟩

/-- Two blanks and a query, cut inside the target. -/
theorem parseReqline_inHdr_query : ∃ w,
    (InHdr.machine ⟨true, true, false, false⟩ (InHdr.cgis ⟨64, id⟩)).Reaches
      (InHdr.start 64 64 [[71, 69, 84, 32, 32, 47], [],
        [97, 63, 120, 61, 121, 32, 72, 84, 84, 80, 47, 49, 46, 48, 13, 10]]) w ∧
    w.1.state = .key ∧ w.1.target = some [47, 97] := by
  obtain ⟨w, hw, hkey, -⟩ := reaches_key 10 64 64
    ([[71, 69, 84, 32, 32, 47], [],
      [97, 63, 120, 61, 121, 32, 72, 84, 84, 80, 47, 49, 46, 48, 13, 10]]) (some [47, 97])
    (by decide +kernel)
  exact ⟨w, hw, hkey,
    (parseReqline_inHdr ⟨true, true, false, false⟩ rfl ⟨64, id⟩ 64 64 1024 _ [47, 97]
    (by decide) w hw hkey).2 (by decide)⟩

/-- A tab behind the target, and one in front of it. -/
theorem parseReqline_inHdr_tab :
    ([([71, 69, 84, 32, 47, 97, 9, 72, 84, 84, 80, 47, 49, 46, 48, 13, 10],
      [47, 97, 9, 72, 84, 84, 80, 47, 49, 46, 48]),
        ([71, 69, 84, 32, 9, 47, 97, 32, 72, 84, 84, 80, 47, 49, 46, 48, 13, 10], [9, 47, 97])] :
      List (Str × Str)).Forall fun x =>
      parseReqline 1024 x.1 = (some x.2, Http.ok) ∧ ∃ w,
        (InHdr.machine ⟨true, true, false, false⟩ (InHdr.cgis ⟨64, id⟩)).Reaches
          (InHdr.start 64 64 [x.1]) w ∧
          w.1.state = .key ∧ w.1.target ≠ some x.2 := by
  rw [List.forall_iff_forall_mem]
  intro x hx
  simp only [List.mem_cons, List.not_mem_nil, or_false] at hx
  have differ {b s o : Str} (hne : o ≠ s)
      (h : ((InHdr.machine ⟨true, true, false, false⟩ (InHdr.cgis ⟨64, id⟩)).stateAt 7
      (InHdr.start 64 64 [b])).map (fun w => (w.1.state, w.1.target)) = some (.key, some o)) :
      ∃ w, (InHdr.machine ⟨true, true, false, false⟩ (InHdr.cgis ⟨64, id⟩)).Reaches
        (InHdr.start 64 64 [b]) w ∧
        w.1.state = .key ∧ w.1.target ≠ some s := by
    obtain ⟨w, hw, hkey, ho⟩ := reaches_key 7 64 64 [b] (some o) h
    exact ⟨w, hw, hkey, by simpa [ho] using hne⟩
  obtain rfl | rfl := hx
  · exact ⟨by decide +kernel, differ (o := [47, 97]) (by decide) (by decide +kernel)⟩
  · exact ⟨by decide +kernel, differ (o := [47, 97]) (by decide) (by decide +kernel)⟩

end Okws
