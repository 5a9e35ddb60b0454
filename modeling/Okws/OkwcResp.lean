import Okws.ChunkerEnd
import Okws.ContLen
import Okws.OkwcHdrFrag

/-! `resp_t::get`: a response, with a body that comes in chunks or is as long as the header says. -/

namespace Okws

open Lib Inet

/-- The bytes that are still to come, without what is pushed back. -/
def Tape.bytes (t : Tape) : Str := t.toks.filterMap fun
  | .byte b => some b
  | .wait => none

/-- The dumper by itself: what it still has to read, and what it has. -/
structure Dumper where
  left : Nat
  buf : Str := []
  abuf : Abuf

namespace Dumper

/-- A round of the loop in `async_dumper_t::parse_guts`. -/
def step (w : Dumper) : Iter Dumper Str :=
  if w.left = 0 then .stop w.buf
  else match w.abuf.dump w.left with
    | (.data s, a) => .next { left := w.left - s.length, buf := w.buf ++ s, abuf := a }
    | (.eof, _) => .stop w.buf
    | (_, a) => .wait { w with abuf := a }

def machine : Machine Dumper Str where
  step := step
  resume w := { w with abuf := w.abuf.canRead }

end Dumper

namespace OkwcHdr

variable (cfg : OkwcHdrConfig)

/-- The run of the parser comes to its end with these variables and this rest of the input. -/
def Leaves (w : OkwcHdr × Tape) (v' : OkwcHdr) (t' : Tape) : Prop :=
  ∃ v t r, (machine cfg).Reaches w (v, t) ∧ v.ck = none ∧
    act cfg v.state v t = (some r, v', t') ∧ r ≠ .ok

def isChunked (v : OkwcHdr) : Bool :=
  (v.tab.lookupStr (ascii ['t', 'r', 'a', 'n', 's', 'f', 'e', 'r', '-', 'e', 'n', 'c', 'o', 'd',
    'i', 'n', 'g'])).any (cicmp · (ascii ['c', 'h', 'u', 'n', 'k', 'e', 'd']))

end OkwcHdr

/-- The status that `resp_simple_t::get` reports, and `_body`. -/
structure OkwcResp where
  status : Int
  body : Option Str := none

namespace OkwcResp

/-- An `int` as a `size_t`. -/
def toSizeT (i : Int) : Nat := (i % 2 ^ 64).toNat

variable (cfg : OkwcHdrConfig)

/-- `get_body_T`. -/
def GetsBody (v : OkwcHdr) (a : Abuf) (m : Meals) : Prop :=
  if v.isChunked then
    RunChunker.machine.Ends { chunker := { scr := { cap := cfg.scratchSz } }, abuf := a } m
  else ∃ s, Dumper.machine.Ends { left := toSizeT (v.finish cfg).contlen, abuf := a } s ∧
    m = ⟨RunChunker.httpOk, some s⟩

/-- `get_T` behind the header, of which the parser has left `v`, and `t` of the input: the buffer
is one that reads as `t` does. -/
def Gets (v : OkwcHdr) (t : Tape) (o : OkwcResp) : Prop :=
  let h := v.finish cfg
  if h.status = Http.ok ∨ h.hasBody then
    ∃ (a : Abuf) (m : Meals), a.Wf ∧ a.toTape = t ∧ GetsBody cfg v a.canRead m ∧
      o = ⟨if h.status = Http.ok then m.status else h.status, m.body⟩
  else o = ⟨h.status, none⟩

/-- The header declares the length: a number in decimal digits, with blanks behind it. -/
def Declares (v : OkwcHdr) (n : Nat) : Prop := ∃ s w,
  v.tab.lookupStr contentLength = some s ∧ s.head?.any isDigit ∧ digits 10 0 s = (n, w) ∧
    ∀ b ∈ w, Byte.isHws b

/-- What is asked for when this is found for the length. -/
def asked (contlen : Option Int) : Nat :=
  toSizeT (if contlen.getD 0 = 0 then cfg.defContlen else contlen.getD 0)

/-- The header is there up to its empty line, the body is there in whole, and it is what was
delivered. -/
def Exact (v : OkwcHdr) (t : Tape) (o : OkwcResp) : Prop :=
  if v.isChunked then
    ∀ m ds, Chunked (t.bytes ++ m) ds →
      v.cleanEoh = true ∧ Chunked t.bytes ds ∧ o.body = some ds.flatten
  else
    ∀ n, Declares v n →
      v.cleanEoh = true ∧ n ≤ t.bytes.length ∧ o.body = some (t.bytes.take n)

/-- The header is there up to its empty line, and the body in whole.  Its chunks have less than
2^32 bytes, and none of them begins with a line feed; or its length is what is asked for, or the
connection ends with it and no less is asked for. -/
def Fits (v : OkwcHdr) (t : Tape) : Prop :=
  if v.isChunked then
    ∀ m ds, Chunked (t.bytes ++ m) ds →
      v.cleanEoh = true ∧ Chunked t.bytes ds ∧ ∀ d ∈ ds, d.length < 2 ^ 32 ∧ d.head? ≠ some Byte.lf
  else
    ∀ n, Declares v n →
      v.cleanEoh = true ∧ n ≤ t.bytes.length ∧ (asked cfg (v.tab.lookupInt contentLength) = n ∨
        t.bytes.length = n ∧ n ≤ asked cfg (v.tab.lookupInt contentLength))

end OkwcResp

section Shifted

variable {d : Str} {ds : List Str}

theorem length_shifted (d : Str) : (shifted d).length = d.length := by
  cases d with
  | nil => rfl
  | cons b d =>
    rw [shifted]
    split
    · rw [List.length_append]
      rfl
    · rfl

theorem append_ne_cons {b c : UInt8} (hbc : b ≠ c) (d : Str) : d ++ [c] ≠ b :: d := by
  induction d with
  | nil =>
    intro h
    exact hbc (List.cons.inj h).1.symm
  | cons x d ih =>
    intro h
    obtain ⟨rfl, htail⟩ := List.cons.inj h
    exact ih htail

theorem shifted_eq_iff : shifted d = d ↔ d.head? ≠ some Byte.lf := by
  cases d with
  | nil => simp [shifted]
  | cons b d =>
    rw [shifted, List.head?_cons]
    split
    · next hb =>
      subst hb
      exact ⟨fun h => absurd h (append_ne_cons (by decide) d), fun h => absurd rfl h⟩
    · next hb => exact ⟨fun _ h => hb (Option.some.inj h), fun _ => rfl⟩

theorem flatten_shifted_iff :
    (ds.map shifted).flatten = ds.flatten ↔ ∀ d ∈ ds, d.head? ≠ some Byte.lf := by
  induction ds with
  | nil => simp
  | cons d ds ih =>
    rw [List.map_cons, List.flatten_cons, List.flatten_cons, List.forall_mem_cons, ← ih,
      ← shifted_eq_iff]
    exact ⟨fun h => List.append_inj h (length_shifted d), fun ⟨hd, hds⟩ => by rw [hd, hds]⟩

end Shifted

namespace Tape

theorem get_last {t t' : Tape} {b : UInt8} (h : t.get = (.byte b, t')) :
    t'.bc = false ∧ t'.lch = .byte b := by
  unfold Tape.get at h
  split at h
  · obtain ⟨hlch, rfl⟩ := Prod.mk.inj h
    exact ⟨rfl, hlch⟩
  · next hbc =>
    split at h
    · cases h
    · split at h <;> cases h
      exact ⟨Bool.not_eq_true _ ▸ hbc, rfl⟩

theorem scan_gobble_last {need need' : Bool} {t t' : Tape}
    (h : scan device gobbleCrlf need t = (some .ok, need', t')) :
    t'.bc = false ∧ ∃ b, t'.lch = .byte b := by
  induction t using scan_induction (D := device) generalizing need with
  | _ t ih =>
  obtain ⟨_, hg, -⟩ | ⟨-, b, u, x, hd, -, hr⟩ | ⟨-, b, u, x, hd, hb, hr⟩ | ⟨-, u, -, hr⟩ |
    ⟨-, u, -, hr⟩ := scan_cases device gobbleCrlf need t
  · cases hg
  · exact ih b u hd (hr.symm.trans h)
  · rw [hr] at h
    simp only [gobbleCrlf] at hb
    repeat' split at hb
    all_goals cases hb <;> cases h
    exact ⟨(get_last hd).1, b, (get_last hd).2⟩
  · rw [hr] at h
    cases h
  · rw [hr] at h
    cases h

theorem bytes_toTape (a : Abuf) : a.toTape.bytes = a.avail ++ a.src.flatten := by
  have hmap (r : Str) : (r.map Tok.byte).filterMap (fun
      | .byte b => some b
      | .wait => none) = r := by
    rw [List.filterMap_map]
    exact List.filterMap_some
  have hsrc : (a.src.flatMap Abuf.regionToks).filterMap (fun
      | .byte b => some b
      | .wait => none) = a.src.flatten := by
    induction a.src with
    | nil => rfl
    | cons r rs ih =>
      rw [List.flatMap_cons, List.filterMap_append, ih, List.flatten_cons]
      unfold Abuf.regionToks
      split
      · next hr => rw [hr]; rfl
      · rw [hmap]
  rw [bytes, Abuf.toTape, List.filterMap_append, hmap, hsrc]

theorem holds_bytes {a : Abuf} {t : Tape} {b : UInt8} (ha : a.toTape = t) (hbc : t.bc = false)
    (hlch : t.lch = .byte b) (hu : t.Unlimited) :
    a.canRead.Holds t.bytes ∧ a.canRead.bc = false := by
  subst ha
  have hbc : a.bc = false := hbc
  have hlch : a.lch = .byte b := hlch
  have hlim : a.lim < 0 := hu.1
  refine ⟨⟨⟨.inl rfl, by simp [Abuf.canRead, hlch], by simp [Abuf.canRead, hlch], hu.2, .inl hlim⟩,
    rfl, hlim, ?_⟩, hbc⟩
  rw [Abuf.pushed_of_bc (show a.canRead.bc = false from hbc),
    Abuf.Holds.ahead_eq (show a.canRead.lim < 0 from hlim)]
  exact (bytes_toTape a).symm

end Tape

namespace OkwcHdr

variable {cfg : OkwcHdrConfig} {v v' : OkwcHdr} {t t' : Tape} {w w' : OkwcHdr × Tape}

theorem act_cleanEoh {q : OkwcHdrSt} {x : Option Stat} (h : act cfg q v t = (x, v', t')) :
    v'.cleanEoh = v.cleanEoh ∨ (x = some .eof ∧
      ∃ need need', scan Tape.device Okws.gobbleCrlf need t = (some .ok, need', t')) := by
  have keeps {f : Reader OkwcHdr} {v : OkwcHdr} {t : Tape} (hf : Reader.Keeps cleanEoh f)
      (h : f v t = (x, v', t')) : v'.cleanEoh = v.cleanEoh := by
    have hv := hf v t
    rwa [h] at hv
  have word {S : Scanner UInt8 Scratch (Except Stat Str)} {set : OkwcHdr → Str → Stat × OkwcHdr}
      (hset : ∀ v s, (set v s).2.cleanEoh = v.cleanEoh) : Reader.Keeps cleanEoh (word S set) :=
    Reader.keeps_ofScan (fun _ _ => rfl) fun v r => by cases r <;> simp [hset]
  have heol : Reader.Keeps cleanEoh eol := Reader.keeps_ofScan (fun _ _ => rfl) fun _ _ => rfl
  have hspc : Reader.Keeps cleanEoh (skipHws 1) :=
    Reader.keeps_ofScan (fun _ _ => rfl) fun _ _ => rfl
  have hline : Reader.Keeps cleanEoh requireCrlf :=
    Reader.keeps_ofScan (fun _ _ => rfl) fun _ _ => rfl
  cases q with
  | start => exact .inl (keeps (word fun _ _ => rfl) h)
  | spc1 => exact .inl (keeps hspc h)
  | statusNum =>
    refine .inl (keeps (word fun v s => ?_) h)
    unfold setStatus
    split <;> rfl
  | spc2 =>
    refine .inl (keeps (f := act cfg .spc2) (fun v t => ?_) h)
    have he := heol v t
    simp only [act]
    split
    · exact he
    · exact (hspc _ _).trans he
  | statusDesc => exact .inl (keeps (Reader.keeps_onStat heol (word fun _ _ => rfl)) h)
  | eol1 => exact .inl (keeps hline h)
  | key =>
    rcases hg : gobbleCrlf v t with ⟨_ | r, v₁, t₁⟩
    · cases (Reader.onStat_none hg).symm.trans h
      obtain ⟨s, -, rfl⟩ := Reader.ofScan_wait_inv hg
      exact .inl rfl
    · have hkey := (Reader.onStat_some hg).symm.trans h
      obtain ⟨y, s, hs, hpost⟩ := Reader.ofScan_keep_inv hg
      by_cases hy : y = .ok
      · subst hy
        cases hpost
        cases hkey
        exact .inr ⟨rfl, _, _, hs⟩
      · rw [if_neg hy] at hpost
        cases hpost
        split at hkey
        · exact .inl (keeps (v := { v with needLF := s }) (word fun _ _ => rfl) hkey)
        · cases hkey
          exact .inl rfl
  | spc3 => exact .inl (keeps hspc h)
  | value =>
    refine .inl (keeps (f := act cfg .value) (fun v t => ?_) h)
    simp only [act]
    split
    · rfl
    · exact word (fun _ _ => rfl) v t
  | eol2a =>
    refine .inl (keeps (f := act cfg .eol2a) (fun v t => ?_) h)
    simp only [act]
    split
    · rfl
    · split <;> rfl
  | eol2b => exact .inl (keeps hline h)
  | beyond =>
    cases h
    exact .inl rfl

theorem step_cleanEoh (h : (machine cfg).step w = .next w' ∨ (machine cfg).step w = .wait w') :
    w'.1.cleanEoh = w.1.cleanEoh := by
  obtain ⟨v, t⟩ := w
  cases hck : v.ck with
  | some c =>
    rw [step_ext hck] at h
    obtain ⟨-, ho⟩ | ⟨-, ho⟩ | ⟨-, -, ho⟩ :=
      subOutcome_cases v ((c.load v.spcs t).parseGutsDriver cfg.cgi).1
        ((c.load v.spcs t).parseGutsDriver cfg.cgi).2
    all_goals
      obtain h | h := h <;> cases ho.symm.trans h
      rfl
  | none =>
    rw [step_act hck] at h
    rcases ha : act cfg v.state v t with ⟨x, v₁, t₁⟩
    rw [ha] at h
    have hclean := act_cleanEoh ha
    obtain ⟨rfl, ho⟩ | ⟨rfl, -, ho⟩ | ⟨rfl, -, ho⟩ | ⟨r, rfl, -, ho⟩ := outcome_cases cfg x v₁ t₁
    all_goals obtain h | h := h <;> cases ho.symm.trans h
    all_goals exact hclean.resolve_right fun ⟨hx, _⟩ => by cases hx

theorem reaches_inv (hcap : 0 < cfg.scratchSz) {rs : List Str}
    (h : (machine cfg).Reaches (start cfg rs) w) : Inv w ∧ w.1.cleanEoh = false :=
  h.invariant (I := fun w => Inv w ∧ w.1.cleanEoh = false)
    (fun hI hs => ⟨(step_next hcap hI.1 hs).2.1, (step_cleanEoh (.inl hs)).trans hI.2⟩)
    (fun hI hs => ⟨(step_wait hcap hI.1 hs).1, (step_cleanEoh (.inr hs)).trans hI.2⟩)
    ⟨start_inv cfg rs, rfl⟩

theorem Leaves.clean (hcap : 0 < cfg.scratchSz) {rs : List Str} (h : Leaves cfg (start cfg rs) v t)
    (hclean : v.cleanEoh = true) : t.bc = false ∧ (∃ b, t.lch = .byte b) ∧ t.Unlimited := by
  obtain ⟨v₀, t₀, r, hr, -, hact, -⟩ := h
  obtain ⟨hI, hfalse⟩ := reaches_inv hcap hr
  obtain hsame | ⟨-, need, need', hs⟩ := act_cleanEoh hact
  · cases hclean.symm.trans (hsame.trans hfalse)
  · obtain ⟨hbc, hlch⟩ := Tape.scan_gobble_last hs
    exact ⟨hbc, hlch, (act_keep hI.live hact).2.live.unlimited⟩

end OkwcHdr

namespace Dumper

variable {a : Abuf} {l s : Str}

theorem dumps : Dumps machine (fun left buf a => ⟨left, buf, a⟩) fun buf _ => .stop buf where
  step left buf a := by
    by_cases hleft : left = 0
    · exact (if_pos hleft).trans (if_pos hleft).symm
    · refine (if_neg hleft).trans (Eq.trans ?_ (if_neg hleft).symm)
      rcases a.dump left with ⟨_ | _ | _ | _, a'⟩ <;> rfl
  resume _ _ _ := rfl

theorem ends_iff (h : a.Holds l) (hbc : a.bc = false) (n : Nat) :
    machine.Ends { left := n, abuf := a } s ↔ s = l.take n := by
  obtain ⟨u, s', l', a', hr, hstep, rfl, hle, -, hcase⟩ := dumps.reaches n [] h
  have hend : machine.Ends { left := n, abuf := a } s ↔ s' = s :=
    (Machine.Reaches.ends hr).trans (Machine.ends_stop hstep)
  have htake : (s' ++ l').take n = s' := by
    obtain hfull | ⟨-, hnil⟩ := hcase
    · rw [← hfull, List.take_left]
    · rw [hnil hbc, List.append_nil, List.take_of_length_le hle]
  rw [hend, htake, eq_comm]

end Dumper

namespace RunChunker

theorem ends_some {w : RunChunker} {m : Meals} (h : machine.Ends w m) (hm : m.status = httpOk) :
    ∃ b, m = ⟨httpOk, some b⟩ := by
  obtain ⟨u, -, hstop⟩ := h.last
  have hmeal : m = u.finishedMeal httpOk ∨ m = u.finishedMeal httpSrvError := by
    change step u = _ at hstop
    unfold step at hstop
    repeat' split at hstop
    all_goals first
      | cases hstop; exact .inl rfl
      | cases hstop; exact .inr rfl
      | cases hstop
  obtain rfl | rfl := hmeal
  · exact ⟨_, rfl⟩
  · cases hm

end RunChunker

namespace OkwcResp

variable {cfg : OkwcHdrConfig} {v : OkwcHdr} {t : Tape} {o : OkwcResp}

theorem Gets.body (h : Gets cfg v t o) (hok : o.status = Http.ok) :
    ∃ (a : Abuf) (m : Meals), a.toTape = t ∧ GetsBody cfg v a.canRead m ∧
      m.status = RunChunker.httpOk ∧ o.body = m.body := by
  unfold Gets at h
  simp only at h
  split at h
  · obtain ⟨a, m, -, ha, hm, rfl⟩ := h
    refine ⟨a, m, ha, hm, ?_, rfl⟩
    simp only at hok
    split at hok
    · exact Int.ofNat.inj hok
    · next hne => exact absurd hok hne
  · next hne =>
    subst h
    exact absurd (.inl hok) hne

theorem exists_toTape (t : Tape) : ∃ a : Abuf, a.Wf ∧ a.toTape = t := by
  let a : Abuf := {
    src := t.toks.map fun | .byte b => [b] | .wait => []
    bc := t.bc
    lch := t.lch
    erc := t.erc
    lim := t.lim
    ccnt := t.ccnt
    mir := t.mir }
  refine ⟨a, nofun, ?_⟩
  have htoks : (t.toks.map fun | .byte b => [b] | .wait => []).flatMap Abuf.regionToks =
      t.toks := by
    induction t.toks with
    | nil => rfl
    | cons x ts ih =>
      rw [List.map_cons, List.flatMap_cons, ih]
      cases x <;> rfl
  rw [Abuf.toTape]
  simp only [a, List.map_nil, List.nil_append, htoks]

theorem gets_length (hcap : 0 < cfg.scratchSz) {rs : List Str}
    (hl : OkwcHdr.Leaves cfg (OkwcHdr.start cfg rs) v t) (hchunked : v.isChunked = false)
    (hclean : v.cleanEoh = true) (hstatus : (v.finish cfg).status = Http.ok) :
    Gets cfg v t
      ⟨Http.ok, some (t.bytes.take (asked cfg (v.tab.lookupInt contentLength)))⟩ := by
  obtain ⟨hbc, ⟨b, hlch⟩, hu⟩ := hl.clean hcap hclean
  obtain ⟨a, ha, rfl⟩ := exists_toTape t
  obtain ⟨hholds, hback⟩ := Tape.holds_bytes rfl hbc hlch hu
  simp only [Gets, hstatus, true_or, if_true]
  refine ⟨a, ⟨RunChunker.httpOk, some (a.toTape.bytes.take
    (asked cfg (v.tab.lookupInt contentLength)))⟩, ha, rfl, ?_, rfl⟩
  rw [GetsBody, if_neg (by simp [hchunked])]
  exact ⟨_, (Dumper.ends_iff hholds hback _).mpr rfl, rfl⟩

theorem body_length (hcap : 0 < cfg.scratchSz) {rs : List Str}
    (hl : OkwcHdr.Leaves cfg (OkwcHdr.start cfg rs) v t) (hg : Gets cfg v t o)
    (hok : o.status = Http.ok) (hchunked : v.isChunked = false) (hclean : v.cleanEoh = true) :
    o.body = some (t.bytes.take (asked cfg (v.tab.lookupInt contentLength))) := by
  obtain ⟨hbc, ⟨b, hlch⟩, hu⟩ := hl.clean hcap hclean
  obtain ⟨a, m, ha, hm, -, hbody⟩ := hg.body hok
  obtain ⟨hholds, hback⟩ := Tape.holds_bytes ha hbc hlch hu
  rw [GetsBody, if_neg (by simp [hchunked])] at hm
  obtain ⟨s, hend, rfl⟩ := hm
  rw [hbody, (Dumper.ends_iff hholds hback _).mp hend]
  rfl

theorem body_chunks (hcap : 0 < cfg.scratchSz) {rs : List Str}
    (hl : OkwcHdr.Leaves cfg (OkwcHdr.start cfg rs) v t) (hg : Gets cfg v t o)
    (hok : o.status = Http.ok) (hchunked : v.isChunked = true) (hclean : v.cleanEoh = true)
    {m : Str} {ds : List Str} (hc : Chunked (t.bytes ++ m) ds)
    (hsmall : ∀ d ∈ ds, d.length < 2 ^ 32) :
    Chunked t.bytes ds ∧ o.body = some (ds.map shifted).flatten := by
  obtain ⟨hbc, ⟨b, hlch⟩, hu⟩ := hl.clean hcap hclean
  obtain ⟨a, meal, ha, hm, hstatus, hbody⟩ := hg.body hok
  obtain ⟨hholds, -⟩ := Tape.holds_bytes ha hbc hlch hu
  rw [GetsBody, if_pos hchunked] at hm
  obtain ⟨body, rfl⟩ := RunChunker.ends_some hm hstatus
  have hchunks := RunChunker.ends_chunked hc hsmall hholds
    (show RunChunker.machine.Ends (RunChunker.between cfg.scratchSz [] .start 0 a.canRead) _ from hm)
  exact ⟨hchunks.1, hbody.trans (congrArg some hchunks.2)⟩

theorem take_eq_take_iff {l : Str} {k n : Nat} (hn : n ≤ l.length) :
    l.take k = l.take n ↔ k = n ∨ l.length = n ∧ n ≤ k := by
  rw [List.take_eq_take_iff]
  omega

/-- What `HTTP_OK` is worth. -/
theorem exact_iff_fits (hcap : 0 < cfg.scratchSz) {rs : List Str}
    (hl : OkwcHdr.Leaves cfg (OkwcHdr.start cfg rs) v t) (hg : Gets cfg v t o)
    (hok : o.status = Http.ok) :
    (Fits cfg v t → Exact v t o) ∧
      ((∀ ds, Chunked t.bytes ds → ∀ d ∈ ds, d.length < 2 ^ 32) → Exact v t o → Fits cfg v t) := by
  cases hchunked : v.isChunked with
  | true =>
    simp only [Fits, Exact, hchunked, if_true]
    constructor
    · intro hfits m ds hc
      obtain ⟨hclean, hwhole, hds⟩ := hfits m ds hc
      refine ⟨hclean, hwhole, ?_⟩
      rw [(body_chunks hcap hl hg hok hchunked hclean hc fun d hd => (hds d hd).1).2,
        flatten_shifted_iff.mpr fun d hd => (hds d hd).2]
    · intro hsmall hexact m ds hc
      obtain ⟨hclean, hwhole, hbody⟩ := hexact m ds hc
      have hds := hsmall ds hwhole
      have hshift := (body_chunks hcap hl hg hok hchunked hclean hc hds).2
      have heq := Option.some.inj (hshift.symm.trans hbody)
      exact ⟨hclean, hwhole, fun d hd => ⟨hds d hd, flatten_shifted_iff.mp heq d hd⟩⟩
  | false =>
    simp only [Fits, Exact, hchunked, Bool.false_eq_true, if_false]
    constructor
    · intro hfits n hn
      obtain ⟨hclean, hlen, hasked⟩ := hfits n hn
      refine ⟨hclean, hlen, ?_⟩
      rw [body_length hcap hl hg hok hchunked hclean, (take_eq_take_iff hlen).mpr hasked]
    · intro _ hexact n hn
      obtain ⟨hclean, hlen, hbody⟩ := hexact n hn
      have htake := body_length hcap hl hg hok hchunked hclean
      exact ⟨hclean, hlen, (take_eq_take_iff hlen).mp (Option.some.inj (htake.symm.trans hbody))⟩

section Examples

def conf : OkwcHdrConfig := { OkwcHdr.conf with scratchSz := 64 }

/-- What the parser leaves when it finds the end of the header behind so many rounds. -/
def leave (n : Nat) (rs : List Str) : Option (OkwcHdr × Tape) :=
  ((OkwcHdr.machine conf).stateAt n (OkwcHdr.start conf rs)).bind fun (v, t) =>
    match v.ck, OkwcHdr.act conf v.state v t with
    | none, (some .eof, v', t') => some (v', t')
    | _, _ => none

theorem leaves_of_leave {n : Nat} {rs : List Str} (h : leave n rs = some (v, t)) :
    OkwcHdr.Leaves conf (OkwcHdr.start conf rs) v t := by
  obtain ⟨⟨v₀, t₀⟩, hstate, hleave⟩ := Option.bind_eq_some_iff.mp h
  simp only at hleave
  split at hleave
  · next hck hact =>
    cases hleave
    exact ⟨v₀, t₀, .eof, Machine.reaches_of_stateAt hstate, hck, hact, by simp⟩
  · cases hleave

def three (body : Str) : List Str :=
  [ascii ['H', 'T', 'T', 'P', '/', '1', '.', '1', ' ', '2', '0', '0', ' ', 'O', 'K', '\r', '\n'],
    [],
    ascii ['C', 'o', 'n', 't', 'e', 'n', 't', '-', 'L', 'e', 'n', 'g', 't', 'h', ':', ' ', '3',
      '\r', '\n', '\r', '\n'], body]

theorem leave_three (body : Str) (hbody : body = ascii ['a', 'b'] ∨ body = ascii ['a', 'b', 'c']) :
    ∃ v t, OkwcHdr.Leaves conf (OkwcHdr.start conf (three body)) v t ∧ v.isChunked = false ∧
      v.cleanEoh = true ∧ (v.finish conf).status = Http.ok ∧
      v.tab.lookupStr contentLength = some (ascii ['3']) ∧
      asked conf (v.tab.lookupInt contentLength) = 3 ∧ t.bytes = body := by
  have hleave : (leave 12 (three body)).any (fun (v, t) => v.isChunked = false ∧
      v.cleanEoh = true ∧ (v.finish conf).status = Http.ok ∧
      v.tab.lookupStr contentLength = some (ascii ['3']) ∧
      asked conf (v.tab.lookupInt contentLength) = 3 ∧ t.bytes = body) = true := by
    obtain rfl | rfl := hbody <;> decide +kernel
  obtain ⟨⟨v, t⟩, hl, hall⟩ := (Option.any_eq_true _ _).mp hleave
  exact ⟨v, t, leaves_of_leave hl, of_decide_eq_true hall⟩

theorem declares_three (h : v.tab.lookupStr contentLength = some (ascii ['3'])) {n : Nat} :
    Declares v n ↔ n = 3 := by
  constructor
  · rintro ⟨s, w, hs, -, hd, -⟩
    cases h.symm.trans hs
    cases hd
    rfl
  · rintro rfl
    exact ⟨_, [], h, by decide, rfl, nofun⟩

/-- A body that comes in whole. -/
theorem exact_iff_fits_three : ∃ v t o,
    OkwcHdr.Leaves conf (OkwcHdr.start conf (three (ascii ['a', 'b', 'c']))) v t ∧
      Gets conf v t o ∧ o.status = Http.ok ∧ o.body = some (ascii ['a', 'b', 'c']) ∧
        Exact v t o := by
  obtain ⟨v, t, hl, hchunked, hclean, hstatus, hlookup, hasked, hbytes⟩ :=
    leave_three _ (.inr rfl)
  have hg := gets_length (by decide) hl hchunked hclean hstatus
  rw [hasked, hbytes] at hg
  refine ⟨v, t, _, hl, hg, rfl, rfl, (exact_iff_fits (by decide) hl hg rfl).1 ?_⟩
  rw [Fits, if_neg (by simp [hchunked])]
  intro n hn
  obtain rfl := (declares_three hlookup).mp hn
  rw [hbytes]
  exact ⟨hclean, by decide, .inl hasked⟩

/-- The connection ends when two bytes of three have come. -/
theorem not_exact :
    ¬ ∀ (cfg : OkwcHdrConfig) (rs : List Str) (v : OkwcHdr) (t : Tape) (o : OkwcResp),
      OkwcHdr.Leaves cfg (OkwcHdr.start cfg rs) v t → Gets cfg v t o → o.status = Http.ok →
        Exact v t o := by
  intro h
  obtain ⟨v, t, hl, hchunked, hclean, hstatus, hlookup, -, hbytes⟩ := leave_three _ (.inl rfl)
  have hexact := h conf _ v t _ hl (gets_length (by decide) hl hchunked hclean hstatus) rfl
  rw [Exact, if_neg (by simp [hchunked])] at hexact
  have hlen := (hexact 3 ((declares_three hlookup).mpr rfl)).2.1
  rw [hbytes] at hlen
  exact absurd hlen (by decide)

end Examples

end OkwcResp

end Okws
