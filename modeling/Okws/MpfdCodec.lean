import Mathlib.Data.List.Infix
import Okws.MpfdTerm
import Okws.Trust

/-! The text that a form is sent as, and what `cgi_mpfd_t` makes of it. -/

namespace Okws

open Lib

namespace Lib

universe u w x

variable {β : Type u} {σ : Type w} {ρ : Type x}

/-- The loop on a list that it does not read to the end. -/
def Scanner.feed (S : Scanner β σ ρ) : σ → List β → Option (ρ × σ × List β)
  | s, [] => (S.guard s).map fun r => (r, s, [])
  | s, b :: l => match S.guard s with
    | some r => some (r, s, b :: l)
    | none => match S.byte s b with
      | .next y => S.feed y l
      | .done r y => some (r, y, l)
      | .back r y => some (r, y, b :: l)

section Feed

variable {S : Scanner β σ ρ} {s y : σ} {b : β} {l : List β} {r : ρ}

theorem Scanner.feed_next (hg : S.guard s = none) (hb : S.byte s b = .next y) :
    S.feed s (b :: l) = S.feed y l := by
  simp [feed, hg, hb]

theorem Scanner.feed_done (hg : S.guard s = none) (hb : S.byte s b = .done r y) :
    S.feed s (b :: l) = some (r, y, l) := by
  simp [feed, hg, hb]

theorem Scanner.feed_back (hg : S.guard s = none) (hb : S.byte s b = .back r y) :
    S.feed s (b :: l) = some (r, y, b :: l) := by
  simp [feed, hg, hb]

end Feed

end Lib

theorem Mirror.foldl_put {m : Mirror} {u : Str} (h : m.text.length + u.length ≤ m.len) :
    u.foldl Mirror.put m = { m with text := m.text ++ u } := by
  induction u generalizing m with
  | nil => simp
  | cons c u ih =>
    rw [List.length_cons] at h
    have hput : m.put c = { m with text := m.text ++ [c] } := if_pos (by omega)
    rw [List.foldl_cons, hput, ih (by simpa using by omega)]
    simp

namespace Tape

/-- The tape holds `l`, its first character perhaps pushed back, and any limit lies behind it. -/
structure Holds (t : Tape) (l : Str) : Prop where
  erc : t.erc = .ok
  lim : (t.lim < 0 ∧ 0 ≤ t.ccnt) ∨ t.ccnt + t.toks.length ≤ t.lim
  text : if t.bc then ∃ b k, t.lch = .byte b ∧ l = b :: k ∧ t.toks = k.map .byte
    else t.toks = l.map .byte

namespace Holds

variable {t t' : Tape} {l m : Str} {b : UInt8}

theorem get (h : t.Holds (b :: l)) :
    ∃ t', t.get = (.byte b, t') ∧ t'.Holds l ∧ t'.unget.Holds (b :: l) ∧ t'.bc = false ∧
      (t.bc = false → t'.mir = t.mir.map (·.put b)) := by
  have htext := h.text
  cases hbc : t.bc with
  | true =>
    rw [hbc, if_pos rfl] at htext
    obtain ⟨c, k, hlch, hl, htoks⟩ := htext
    cases hl
    refine ⟨{ t with bc := false }, by rw [get_bc hbc, hlch], ⟨h.erc, h.lim, htoks⟩, ?_, rfl, nofun⟩
    exact ⟨by simp [unget, hlch, h.erc], by simpa [unget, hlch] using h.lim, by simp [unget,
      hlch, htoks]⟩
  | false =>
    rw [hbc] at htext
    have htoks : t.toks = .byte b :: l.map .byte := htext
    have hlim : t.lim ≠ t.ccnt := by
      obtain hu | hle := h.lim
      · omega
      · rw [htoks, List.length_cons] at hle
        omega
    have hlim' : (t.lim < 0 ∧ 0 ≤ t.ccnt + 1) ∨ t.ccnt + 1 + l.length ≤ t.lim := by
      refine h.lim.imp (fun hu => ⟨hu.1, by omega⟩) fun hle => ?_
      · rw [htoks, List.length_cons, List.length_map] at hle
        omega
    refine ⟨_, get_byte hbc hlim h.erc htoks, ?_, ?_, hbc, fun _ => rfl⟩
    · exact ⟨h.erc, by simpa [gotChar] using hlim', by simp [hbc]⟩
    · exact ⟨h.erc, by simpa [unget, gotChar] using hlim', by simp [unget]⟩

theorem get_nil (h : t.Holds []) : ∃ t', t.get = (.eof, t') := by
  have htext := h.text
  cases hbc : t.bc with
  | true =>
    rw [hbc, if_pos rfl] at htext
    obtain ⟨c, k, -, hl, -⟩ := htext
    cases hl
  | false =>
    rw [hbc] at htext
    by_cases hlim : t.lim = t.ccnt
    · exact ⟨_, get_lim hbc hlim⟩
    · exact ⟨_, Tape.get_nil hbc hlim h.erc htext⟩

variable {σ ρ : Type} {S : Scanner UInt8 σ ρ} {s y : σ} {r : ρ}

theorem scan (h : t.Holds l) (hf : S.feed s l = some (r, y, m)) :
    ∃ t', Lib.scan device S s t = (some r, y, t') ∧ t'.Holds m := by
  induction l generalizing s t with
  | nil =>
    obtain ⟨r', hg, hr⟩ := Option.map_eq_some_iff.mp hf
    cases hr
    exact ⟨t, scan_guard hg, h⟩
  | cons b l ih =>
    rw [Scanner.feed] at hf
    cases hg : S.guard s with
    | some r' =>
      rw [hg] at hf
      cases hf
      exact ⟨t, scan_guard hg, h⟩
    | none =>
      obtain ⟨t', hget, ht', hu, -⟩ := h.get
      rw [hg] at hf
      cases hb : S.byte s b with
      | next s₁ =>
        rw [hb] at hf
        rw [Lib.scan_next (D := device) hg hget hb]
        exact ih ht' hf
      | exit e =>
        rw [Lib.scan_exit (D := device) hg hget hb]
        rw [hb] at hf
        cases e with
        | done r' s₁ =>
          cases hf
          exact ⟨t', rfl, ht'⟩
        | back r' s₁ =>
          cases hf
          exact ⟨t'.unget, rfl, hu⟩

theorem scan_copy (hguard : ∀ s, S.guard s = none) (hback : ∀ s b r y, S.byte s b ≠ .back r y)
    (h : t.Holds l) (hbc : t.bc = false) (hf : S.feed s l = some (r, y, m)) :
    ∃ t' u, Lib.scan device S s t = (some r, y, t') ∧ t'.Holds m ∧ l = u ++ m ∧
      t'.mir = t.mir.map (u.foldl Mirror.put) := by
  induction l generalizing s t with
  | nil => simp [Scanner.feed, hguard] at hf
  | cons b l ih =>
    obtain ⟨t', hget, ht', -, hbc', hmir⟩ := h.get
    have hmir := hmir hbc
    cases hb : S.byte s b with
    | next s₁ =>
      rw [Scanner.feed_next (hguard s) hb] at hf
      rw [Lib.scan_next (D := device) (hguard s) hget hb]
      obtain ⟨t₁, u, hs, hh, hl, hm⟩ := ih ht' hbc' hf
      refine ⟨t₁, b :: u, hs, hh, by rw [hl, List.cons_append], ?_⟩
      rw [hm, hmir, Option.map_map]
      rfl
    | exit e =>
      rw [Lib.scan_exit (D := device) (hguard s) hget hb]
      cases e with
      | done r' s₁ =>
        rw [Scanner.feed_done (hguard s) hb] at hf
        cases hf
        exact ⟨t', [b], rfl, ht', rfl, hmir⟩
      | back r' s₁ => exact absurd hb (hback _ _ _ _)

theorem setMir (h : t.Holds l) (m : Option Mirror) : ({ t with mir := m } : Tape).Holds l :=
  ⟨h.erc, h.lim, h.text⟩

theorem canRead (h : t.Holds l) : t.canRead.Holds l := ⟨rfl, h.lim, h.text⟩

end Holds

end Tape

section Feeds

variable {l : Str} {c : UInt8}

theorem feed_delim {mark : UInt8 → Mark} {word g : Bool} {f : UInt8 → UInt8} {s : Scratch} {u : Str}
    (hu : ∀ b ∈ u, mark b = .put (f b)) (hc : mark c = .stop g)
    (hcap : s.text.length + u.length < s.cap) :
    (delimScanner mark word).feed s (u ++ c :: l) =
      some (.ok (s.text ++ u.map f), { s with text := [] }, if g then l else c :: l) := by
  induction u generalizing s with
  | nil =>
    have hg : (delimScanner mark word).guard s = none := if_neg (by simpa using hcap)
    cases g with
    | true =>
      have hb : (delimScanner mark word).byte s c = .done (.ok s.text) { s with text := [] } := by
        simp [delimScanner, hc]
      simp [Scanner.feed_done hg hb]
    | false =>
      have hb : (delimScanner mark word).byte s c = .back (.ok s.text) { s with text := [] } := by
        simp [delimScanner, hc]
      simp [Scanner.feed_back hg hb]
  | cons b u ih =>
    rw [List.length_cons] at hcap
    have hg : (delimScanner mark word).guard s = none := if_neg (by omega)
    have hb : (delimScanner mark word).byte s b = .next { s with text := s.text ++ [f b] } := by
      simp [delimScanner, hu b List.mem_cons_self]
    rw [List.cons_append, Scanner.feed_next hg hb,
      ih (fun b hb => hu b (List.mem_cons_of_mem _ hb)) (by simp; omega)]
    simp

theorem feed_hws {mn : Nat} (hmn : mn ≤ 1) (hc : Byte.isHws c = false) :
    (skipHwsScanner mn).feed 0 (Byte.sp :: c :: l) = some (.ok, 0, c :: l) := by
  rw [Scanner.feed_next (y := 1) rfl rfl]
  have hb : (skipHwsScanner mn).byte 1 c = .back .ok 0 := by
    simp [skipHwsScanner, hc, Nat.not_lt.mpr hmn]
  exact Scanner.feed_back rfl hb

theorem feed_gobble : gobbleCrlf.feed false (crlf ++ l) = some (.ok, false, l) := rfl

theorem feed_gobble_other (hc : Byte.isEol c = false) :
    gobbleCrlf.feed false (c :: l) = some (.nomatch, false, c :: l) := by
  simp only [Byte.isEol, Bool.or_eq_false_iff, beq_eq_false_iff_ne] at hc
  simp [Scanner.feed, gobbleCrlf, hc]

theorem feed_force {s : Str} (hs : s ≠ []) : forceScanner.feed s (s ++ l) = some (.ok, [], l) := by
  induction s with
  | nil => exact absurd rfl hs
  | cons b s ih =>
    cases s with
    | nil => simp [Scanner.feed, forceScanner]
    | cons b' s =>
      have hb : forceScanner.byte (b :: b' :: s) b = .next (b' :: s) := by simp [forceScanner]
      rw [List.cons_append, Scanner.feed_next rfl hb]
      exact ih (by simp)

theorem feed_kmp {P T u : Str} {q : Nat} (hP : P ≠ []) (hu : u ≠ [])
    (h : Kmp.Longest P T (P.length - 1) q) (hend : P <:+ T ++ u.map Byte.toLower)
    (hno : ∀ w, w <+: u → w ≠ [] → w ≠ u → ¬ P <:+ T ++ w.map Byte.toLower) :
    ∃ q', Kmp.scanner.feed ⟨P, q⟩ (u ++ l) = some (.ok, ⟨P, q'⟩, l) := by
  induction u generalizing T q with
  | nil => exact absurd rfl hu
  | cons b u ih =>
    obtain ⟨hfull, hlong⟩ := Kmp.advance_found hP h (Byte.toLower b)
    have hmove : (⟨P, q⟩ : Kmp).move b = Kmp.advance P (Kmp.prefixTable P) q (Byte.toLower b) := rfl
    by_cases hu' : u = []
    · subst hu'
      have hb : (⟨P, q⟩ : Kmp).move b = P.length := hmove.trans (hfull.2 (by simpa using hend))
      exact ⟨_, Scanner.feed_done rfl (if_pos hb)⟩
    · have hne : ¬ (⟨P, q⟩ : Kmp).move b = P.length := fun hb =>
        hno [b] ⟨u, rfl⟩ (by simp) (by simpa using Ne.symm hu')
          (by simpa using hfull.1 (hmove ▸ hb))
      rw [if_neg (hmove ▸ hne)] at hlong
      rw [List.cons_append, Scanner.feed_next rfl (if_neg hne)]
      refine ih hu' hlong (by simpa using hend) fun w hw hw₁ hw₂ => ?_
      have hpre : b :: w <+: b :: u := by simpa using hw
      simpa using hno (b :: w) hpre (by simp) (by simpa using hw₂)

end Feeds

theorem infix_append_cons {P A B : Str} {x : UInt8} (h : P <:+: A ++ x :: B) (hx : x ∉ P) :
    P <:+: A ∨ P <:+: B := by
  obtain ⟨s, t, h⟩ := h
  obtain ⟨a, hA, -⟩ | ⟨c, hs, ht⟩ := List.append_eq_append_iff.mp h
  · exact .inl ⟨s, a, hA.symm⟩
  · cases c with
    | nil => exact .inl ⟨s, [], by simpa using hs⟩
    | cons y c =>
      rw [List.cons_append, List.cons.injEq] at ht
      obtain ⟨rfl, hB⟩ := ht
      obtain ⟨a, -, hP⟩ | ⟨a, -, hc⟩ := List.append_eq_append_iff.mp hs
      · exact absurd (hP ▸ by simp) hx
      · cases a with
        | nil => exact absurd (by simp [← show x :: c = P from hc]) hx
        | cons z a =>
          rw [List.cons_append, List.cons.injEq] at hc
          exact .inr ⟨a, t, by rw [hB, hc.2]⟩

theorem feed_boundary {P data d l : Str} (hP : P ≠ []) (hcr : Byte.cr ∉ P) (hlf : Byte.lf ∉ P)
    (hd : d.map Byte.toLower = P) (hdata : ¬ P <:+: data.map Byte.toLower) :
    ∃ q, Kmp.scanner.feed ⟨P, 0⟩ ((data ++ crlf ++ d) ++ l) = some (.ok, ⟨P, q⟩, l) := by
  have hd' : d ≠ [] := fun h => hP (by rw [← hd, h]; rfl)
  refine feed_kmp hP (by simp [crlf]) (Kmp.longest_start P) ?_ fun w hw _ hne hsuf => ?_
  · rw [List.nil_append, List.map_append, hd]
    exact List.suffix_append _ _
  · -- a shorter text is in front of the last character of the boundary
    obtain ⟨r, hr⟩ := hw
    have hr' : r ≠ [] := fun h => hne (by simpa [h] using hr)
    have hlast : w ++ r.dropLast = data ++ Byte.cr :: Byte.lf :: d.dropLast := by
      have := congrArg List.dropLast hr
      rwa [List.dropLast_append_of_ne_nil hr', List.dropLast_append_of_ne_nil hd', crlf,
        List.append_assoc]
        at this
    have hinf : P <:+: data.map Byte.toLower ++
        Byte.cr :: Byte.lf :: (d.dropLast).map Byte.toLower := by
      have hmap := congrArg (List.map Byte.toLower) hlast
      rw [List.map_append, List.map_append] at hmap
      have : P <:+: w.map Byte.toLower ++ r.dropLast.map Byte.toLower :=
        (List.IsSuffix.isInfix hsuf).trans (List.prefix_append _ _).isInfix
      rw [hmap] at this
      exact this
    obtain h | h := infix_append_cons hinf hcr
    · exact hdata h
    · obtain h | h := infix_append_cons (A := []) h hlf
      · exact hP (List.infix_nil.mp h)
      · have hlen := h.length_le
        have hpos := List.length_pos_iff.mpr hP
        have hdP : d.length = P.length := by rw [← hd, List.length_map]
        rw [List.length_map, List.length_dropLast] at hlen
        omega

/-- What a form has under one name: a value or a file. -/
structure Part where
  name : Str
  data : Str
  filename : Option Str := none
  type : Option Str := none
  deriving DecidableEq

def dashes : Str := [45, 45]

namespace Part

def disposition : Str :=
  ascii ['C', 'o', 'n', 't', 'e', 'n', 't', '-', 'D', 'i', 's', 'p', 'o', 's', 'i', 't', 'i',
    'o', 'n']

def contentType : Str := ascii ['C', 'o', 'n', 't', 'e', 'n', 't', '-', 'T', 'y', 'p', 'e']

/-- The attribute for the name of a file, behind the name of the part. -/
def filenameText : Option Str → Str
  | some f => 59 :: Byte.sp :: filenameEq ++ f ++ [34]
  | none => []

def typeText : Option Str → Str
  | some t => contentType ++ 58 :: Byte.sp :: t ++ crlf
  | none => []

/-- The part from its header on, up to the line end in front of the next boundary. -/
def text (p : Part) : Str :=
  disposition ++ 58 :: Byte.sp :: formData ++ 59 :: Byte.sp :: nameEq ++ p.name ++
    34 :: filenameText p.filename ++ crlf ++ typeText p.type ++ crlf ++ p.data ++ crlf

def rest (b : Str) (ps : List Part) : Str :=
  ps.flatMap (fun p => crlf ++ p.text ++ dashes ++ b) ++ dashes ++ crlf

def body (b : Str) (ps : List Part) : Str := dashes ++ b ++ rest b ps

/-- What a form may consist of: names in quotes, types of single lines that are no forms themselves,
and data that does not contain the boundary. -/
structure Wf (cfg : MpfdConfig) (b : Str) (p : Part) : Prop where
  name : ∀ c ∈ p.name, c ≠ 34 ∧ Byte.isEol c = false
  filename : ∀ f, p.filename = some f → ∀ c ∈ f, c ≠ 34 ∧ Byte.isEol c = false
  line : ∀ t, p.type = some t → ∀ c ∈ t, Byte.isEol c = false
  blank : ∀ t, p.type = some t → ∀ c, t.head? = some c → Byte.isHws c = false
  single : ∀ t, p.type = some t → cfg.multipartRxx t = none
  data : ¬ (dashes ++ b).map Byte.toLower <:+: p.data.map Byte.toLower

end Part

/-- What the parser has got out of the parts it has read, and the last type it has seen. -/
structure Received where
  type : Option Str := none
  tab : PairTab := .empty
  files : List (Str × CgiFile) := []

def Received.add (s : Received) (p : Part) : Received :=
  match p.filename with
  | some f => ⟨p.type.or s.type, s.tab.addPair p.name,
      s.files ++ [(p.name, ⟨some f, p.type.or s.type, p.data⟩)]⟩
  | none => ⟨p.type.or s.type, s.tab.insert (some p.name) (some p.data) true true, s.files⟩

theorem Reader.ofScan_holds {V σ ρ : Type} {S : Scanner UInt8 σ ρ} {load : V → σ}
    {store : V → σ → V}
    {post : V → ρ → Stat × V} {v : V} {t : Tape} {l m : Str} {s : σ} {r : ρ} (h : t.Holds l)
    (hf : S.feed (load v) l = some (r, s, m)) :
    ∃ t', t'.Holds m ∧
      ofScan S load store post v t = (some (post (store v s) r).1, (post (store v s) r).2, t') := by
  obtain ⟨t', hs, ht'⟩ := h.scan hf
  exact ⟨t', ht', ofScan_some hs⟩

namespace Mpfd

variable {cfg : MpfdConfig} {v w : Mpfd} {l m : Str} {cap : Nat} {pat : Str}

/-- With `l` in front of it, the parser comes to the state `w` with `m` in front of it. -/
def Runs (cfg : MpfdConfig) (v : Mpfd) (l : Str) (w : Mpfd) (m : Str) : Prop :=
  ∀ t, t.Holds l → ∃ t', t'.Holds m ∧ (machine cfg).Reaches (v, t) (w, t')

theorem Runs.trans {v'' : Mpfd} {l'' : Str} (h : Runs cfg v l w m) (h' : Runs cfg w m v'' l'') :
    Runs cfg v l v'' l'' := by
  intro t ht
  obtain ⟨t', ht', hr⟩ := h t ht
  obtain ⟨t'', ht'', hr'⟩ := h' t' ht'
  exact ⟨t'', ht'', hr.trans hr'⟩

theorem Runs.outer (hext : v.ext = false) (hc : w.crashed = false)
    (h : ∀ t, t.Holds l → ∃ t', t'.Holds m ∧ act cfg v.state v t = (some .ok, w, t')) :
    Runs cfg v l w m := by
  intro t ht
  obtain ⟨t', ht', ha⟩ := h t ht
  have hs : (machine cfg).step (v, t) = .next (w, if w.ext then t'.canRead else t') := by
    rw [step_outer hext, ha, outcome_ok hc]
  refine ⟨_, ?_, Machine.Reaches.refl.next hs⟩
  split
  · exact ht'.canRead
  · exact ht'

/-- The inner parser does what its state asks for, with `l` in front of it. -/
def Round (v : Mpfd) (l : Str) (w : Mpfd) (m : Str) : Prop :=
  ∀ t, t.Holds l → ∃ t', t'.Holds m ∧ dispAct v.cdp.state v t = (some .ok, w, t')

theorem Runs.inner (hext : v.ext = true) (hc : w.crashed = false) (hf : w.cdp.flag = true)
    (h : Round v l w m) :
    Runs cfg v l { w with cdp := { w.cdp with state := w.cdp.state.inc } } m := by
  intro t ht
  obtain ⟨t', ht', ha⟩ := h t ht
  exact ⟨t', ht', Machine.Reaches.refl.next (by rw [step_inner hext, ha, dispOutcome_goes hc hf])⟩

theorem Runs.leave (hext : v.ext = true) (hc : w.crashed = false) (hf : w.cdp.flag = false)
    (h : Round v l w m) :
    Runs cfg v l { w with
      state := w.state.inc, ext := false
      cdp := { w.cdp with state := w.cdp.state.inc, flag := true } } m := by
  intro t ht
  obtain ⟨t', ht', ha⟩ := h t ht
  exact ⟨t'.canRead, ht'.canRead,
    Machine.Reaches.refl.next (by rw [step_inner hext, ha, dispOutcome_ends hc hf])⟩

section Calls

variable {t : Tape} {z : Str} {s : Scratch}

theorem word_holds {S : Scanner UInt8 Scratch (Except Stat Str)} {g : Mpfd → Str → Mpfd}
    (h : t.Holds l) (hf : S.feed v.scr l = some (.ok z, s, m)) :
    ∃ t', t'.Holds m ∧ word S g v t = (some .ok, g { v with scr := s } z, t') :=
  Reader.ofScan_holds h hf

theorem skipHws_holds {mn k : Nat} {r : Stat} (h : t.Holds l)
    (hf : (skipHwsScanner mn).feed v.spcs l = some (r, k, m)) :
    ∃ t', t'.Holds m ∧ skipHws mn v t = (some r, { v with spcs := k }, t') :=
  Reader.ofScan_holds h hf

theorem gobbleCrlf_holds {need : Bool} {r : Stat} (h : t.Holds l)
    (hf : Okws.gobbleCrlf.feed v.needLF l = some (r, need, m)) :
    ∃ t', t'.Holds m ∧ gobbleCrlf v t = (some r, { v with needLF := need }, t') :=
  Reader.ofScan_holds h hf

theorem requireCrlf_holds {need : Bool} {r : Stat} (h : t.Holds l)
    (hf : Okws.gobbleCrlf.feed v.needLF l = some (r, need, m)) :
    ∃ t', t'.Holds m ∧
      requireCrlf v t = (some (Okws.requireCrlf r), { v with needLF := need }, t') :=
  Reader.ofScan_holds h hf

theorem dispWord_holds {S : Scanner UInt8 Scratch (Except Stat Str)}
    {g : Contdisp → Str → Contdisp} (h : t.Holds l)
    (hf : S.feed v.cdp.scr l = some (.ok z, s, m)) :
    ∃ t', t'.Holds m ∧ dispWord S g v t =
      (some .ok, { v with cdp := g { v.cdp with scr := s } z }, t') := by
  obtain ⟨t', hs, ht'⟩ := h.scan hf
  exact ⟨t', ht', by simp [dispWord, Reader.ofScan, hs]⟩

theorem dispFilename_holds (h : t.Holds l)
    (hf : (delimit Byte.cr false false).feed v.cdp.scr l = some (.ok z, s, m)) :
    ∃ t', t'.Holds m ∧ dispFilename v t =
      (some .ok, setFilename { v with cdp := { v.cdp with scr := s, filenameScr := some z } },
        t') := by
  obtain ⟨t', hs, ht'⟩ := h.scan hf
  exact ⟨t', ht', by simp [dispFilename, Reader.ofScan, hs]⟩

theorem forceMatch_holds {s : Str} (h : t.Holds (s ++ l)) (hs : s ≠ [])
    (hm : v.cdp.currMatch = none) :
    ∃ t', t'.Holds l ∧ forceMatch s v t =
      (some .ok, { v with cdp := { v.cdp with currMatch := none } }, t') := by
  obtain ⟨t', hf, ht'⟩ := h.scan (feed_force hs)
  exact ⟨t', ht', Reader.ofScan_some (by rw [hm]; exact hf)⟩

end Calls

structure Idle (cap : Nat) (pat : Str) (v : Mpfd) : Prop where
  scr : v.scr = ⟨[], cap⟩
  needLF : v.needLF = false
  spcs : v.spcs = 0
  cdpCap : v.cdp.scr.cap = cap
  flag : v.cdp.flag = true
  boundaries : ∃ q, v.boundaries = [⟨pat, q⟩]
  ended : v.matchEnded = true
  ext : v.ext = false
  toStart : v.toStart = false
  crashed : v.crashed = false

section Rounds

variable {q : MpfdSt} (hv : v.Idle cap pat)

include hv

theorem Idle.lineEnd {g : Mpfd → Mpfd} (hact : act cfg v.state = requireCrlf.onOk g)
    (hc : (g { v with needLF := false }).crashed = false) :
    Runs cfg v (crlf ++ l) (g { v with needLF := false }) l := by
  refine .outer hv.ext hc fun t ht => ?_
  obtain ⟨t', ht', hs⟩ :=
    requireCrlf_holds (v := v) (m := l) ht (by rw [hv.needLF]; exact feed_gobble)
  exact ⟨t', ht', by rw [hact, Reader.onOk, Reader.map_some hs]; rfl⟩

theorem Idle.key {k : Str} {c : UInt8} (hst : v.state = .key)
    (hk : ∀ b ∈ k, b ≠ 58 ∧ Byte.isHws b = false ∧ Byte.isEol b = false) (hne : k ≠ [])
    (hcap : k.length < cap) (hc : Byte.isHws c = false) :
    Runs cfg v (k ++ 58 :: Byte.sp :: c :: l)
      { v with
        scr := ⟨[], cap⟩, needLF := false, spcs := 0, cdp := v.cdp.reset, state := .value
        kt := (mpfdKtmap.lookup (k.map Byte.toLower)).getD .other } (c :: l) := by
  have hkey : Runs cfg v (k ++ 58 :: Byte.sp :: c :: l)
      { v with
        scr := ⟨[], cap⟩, needLF := false, state := .spc
        kt := (mpfdKtmap.lookup (k.map Byte.toLower)).getD .other } (Byte.sp :: c :: l) := by
    refine .outer hv.ext hv.crashed fun t ht => ?_
    obtain ⟨b, k', rfl⟩ := List.exists_cons_of_ne_nil hne
    obtain ⟨t₁, ht₁, hg⟩ := gobbleCrlf_holds (v := v) ht
      (by rw [hv.needLF]; exact feed_gobble_other (hk b List.mem_cons_self).2.2)
    have hd : delimitKey.feed v.scr (b :: k' ++ 58 :: Byte.sp :: c :: l) =
        some (.ok ((b :: k').map Byte.toLower), ⟨[], cap⟩, Byte.sp :: c :: l) := by
      rw [hv.scr]
      refine (feed_delim (fun b hb => ?_) (if_pos rfl) (by simpa using hcap)).trans rfl
      simp [hk b hb]
    obtain ⟨t₂, ht₂, hw⟩ := word_holds (v := { v with needLF := false }) ht₁ hd
    refine ⟨t₂, ht₂, ?_⟩
    rw [hst, act, Reader.onStat, Reader.onOk, Reader.map_some hg]
    simp only [reduceCtorEq, if_false, if_true]
    rw [Reader.onOk, Reader.map_some hw]
    simp [setKt, inc, hst, MpfdSt.inc]
  refine hkey.trans (.outer hv.ext hv.crashed fun t ht => ?_)
  obtain ⟨t', ht', hs⟩ := skipHws_holds (m := c :: l)
    (v := { v with
      scr := ⟨[], cap⟩, needLF := false, state := .spc
      kt := (mpfdKtmap.lookup (k.map Byte.toLower)).getD .other })
    ht (by rw [hv.spcs]; exact feed_hws (Nat.le_refl 1) hc)
  refine ⟨t'.dropMirror, ht'.setMir none, ?_⟩
  simp only [act, hs, if_true]
  rfl

end Rounds

def nested (v : Mpfd) (c : Contdisp) : Mpfd := { v with ext := true, spcs := 0, cdp := c }

/-- The inner parser in the middle of nothing. -/
structure Waiting (cap : Nat) (c : Contdisp) : Prop where
  scr : c.scr = ⟨[], cap⟩
  currMatch : c.currMatch = none
  flag : c.flag = true

section Nested

variable {c : Contdisp}

section Rounds

variable (hc : Waiting cap c)

include hc

theorem Waiting.word_round (stopchar : UInt8) (tol : Bool) (set : Contdisp → Str → Contdisp)
    (z : Str) (hact : dispAct c.state = dispWord (delimit stopchar tol true) set)
    (hz : ∀ b ∈ z, b ≠ stopchar ∧ Byte.isEol b = false) (hcap : z.length < cap) :
    Round (nested v c) (z ++ stopchar :: l)
      (nested v (set c (if tol then z.map Byte.toLower else z))) l := by
  have hd : (delimit stopchar tol true).feed c.scr (z ++ stopchar :: l) =
      some (.ok (if tol then z.map Byte.toLower else z), c.scr, l) := by
    rw [hc.scr]
    refine (feed_delim (f := fun b => if tol then Byte.toLower b else b) (fun b hb => ?_)
      (if_pos rfl)
      (by simpa using hcap)).trans ?_
    · simp [hz b hb]
    · cases tol <;> simp
  intro t ht
  obtain ⟨t', ht', hs⟩ := dispWord_holds (v := nested v c) (g := set) ht hd
  exact ⟨t', ht', (congrFun (congrFun hact _) _).trans hs⟩

theorem Waiting.force_round {z : Str} (hact : dispAct c.state = forceMatch z) (hz : z ≠ []) :
    Round (nested v c) (z ++ l) (nested v { c with currMatch := none }) l := by
  intro t ht
  obtain ⟨t', ht', hs⟩ := forceMatch_holds (v := nested v c) ht hz hc.currMatch
  exact ⟨t', ht', (congrFun (congrFun hact _) _).trans hs⟩

omit hc in
theorem sep1_round {b : UInt8} (hst : c.state = .sep1) (hb : Byte.isHws b = false) :
    Round (nested v c) (Byte.sp :: b :: l) (nested v (setTyp c)) (b :: l) := by
  intro t ht
  obtain ⟨t', ht', hs⟩ := skipHws_holds (v := nested v c) ht (feed_hws (Nat.le_refl 1) hb)
  refine ⟨t', ht', ?_⟩
  rw [show (nested v c).cdp.state = .sep1 from hst]
  simp only [dispAct, hs]
  simp only [nested]

omit hc in
theorem sep2c_round {b : UInt8} (hst : c.state = .sep2c) (hb : Byte.isHws b = false) :
    Round (nested v c) (Byte.sp :: b :: l) (nested v c) (b :: l) := by
  intro t ht
  obtain ⟨t', ht', hs⟩ := skipHws_holds (v := nested v c) ht (feed_hws (Nat.zero_le 1) hb)
  exact ⟨t', ht', by rw [show (nested v c).cdp.state = .sep2c from hst, dispAct, hs]; rfl⟩

omit hc in
theorem sep2a_round (hst : c.state = .sep2a) :
    Round (nested v c) (59 :: l) (nested v c) (59 :: l) := by
  intro t ht
  obtain ⟨t', hs, ht'⟩ := ht.scan (S := eol) (s := ()) (r := .nomatch) (y := ()) (m := 59 :: l) rfl
  refine ⟨t', ht', ?_⟩
  rw [show (nested v c).cdp.state = .sep2a from hst]
  simp [dispAct, dispEol, Reader.ofScan, hs]

omit hc in
theorem sep2b_round (hst : c.state = .sep2b) : Round (nested v c) (59 :: l) (nested v c) l := by
  intro t ht
  obtain ⟨t', hs, ht'⟩ :=
    ht.scan (S := expectScanner 59) (s := ()) (r := .ok) (y := ()) (m := l) rfl
  refine ⟨t', ht', ?_⟩
  rw [show (nested v c).cdp.state = .sep2b from hst]
  simp [dispAct, requirechar, Reader.ofScan, hs]

theorem Waiting.file_round {f : Str} (hst : c.state = .filenameVal) {b : UInt8}
    (hf : ∀ a ∈ f, Byte.isEol a = false) (hb : Byte.isEol b = false) (hcap : f.length + 1 < cap) :
    Round (nested v c) (f ++ b :: crlf ++ l)
      (nested v { c with flag := false, filenameScr := some (f ++ [b]), filename := some f })
      (crlf ++ l) := by
  have hd : (delimit Byte.cr false false).feed c.scr ((f ++ [b]) ++ Byte.cr :: Byte.lf :: l) =
      some (.ok (f ++ [b]), ⟨[], cap⟩, crlf ++ l) := by
    rw [hc.scr]
    refine (feed_delim (f := id) (fun a ha => ?_) (if_pos rfl) (by simpa using hcap)).trans
      (by simp [crlf])
    have heol : Byte.isEol a = false := by
      rw [List.mem_append, List.mem_singleton] at ha
      obtain ha | rfl := ha
      · exact hf a ha
      · exact hb
    have hcr : a ≠ Byte.cr := fun h => by simp [h, Byte.isEol] at heol
    simp [hcr, heol]
  intro t ht
  obtain ⟨t', ht', hs⟩ := dispFilename_holds (v := nested v c) (by simpa [crlf] using ht) hd
  refine ⟨t', ht', ?_⟩
  rw [show (nested v c).cdp.state = .filenameVal from hst, dispAct, hs]
  obtain ⟨a, k, hak⟩ := List.exists_cons_of_ne_nil (show f ++ [b] ≠ [] by simp)
  have hlast : (a :: k).dropLast = f := by rw [← hak, List.dropLast_concat]
  simp only [setFilename, hak, hlast, nested, hc.scr]

end Rounds

variable (hv : v.crashed = false) (hc : Waiting cap c)

include hv hc

theorem Waiting.word (stopchar : UInt8) (tol : Bool) (set : Contdisp → Str → Contdisp) (z : Str)
    (hact : dispAct c.state = dispWord (delimit stopchar tol true) set)
    (hz : ∀ b ∈ z, b ≠ stopchar ∧ Byte.isEol b = false) (hcap : z.length < cap)
    (hset : ∀ c w, (set c w).flag = c.flag) :
    Runs cfg (nested v c) (z ++ stopchar :: l)
      (nested v { set c (if tol then z.map Byte.toLower else z) with
        state := (set c (if tol then z.map Byte.toLower else z)).state.inc }) l :=
  .inner (w := nested v (set c (if tol then z.map Byte.toLower else z))) rfl hv
    ((hset _ _).trans hc.flag) (hc.word_round stopchar tol set z hact hz hcap)

theorem Waiting.force {z : Str} (hact : dispAct c.state = forceMatch z) (hz : z ≠ []) :
    Runs cfg (nested v c) (z ++ l)
      (nested v { c with state := c.state.inc, currMatch := none }) l :=
  .inner (w := nested v { c with currMatch := none }) rfl hv hc.flag (hc.force_round hact hz)

theorem Waiting.sep1 {b : UInt8} (hst : c.state = .sep1) (htyp : c.typScr = some formData)
    (hb : Byte.isHws b = false) :
    Runs cfg (nested v c) (Byte.sp :: b :: l)
      (nested v { c with state := .nameKey, typ := .formdat }) (b :: l) := by
  have hset : setTyp c = { c with typ := .formdat } := by simp [setTyp, htyp, mystrcmp]
  have hinc : { c with state := .nameKey, typ := .formdat } =
      { ({ c with typ := .formdat } : Contdisp) with state := c.state.inc } := by rw [hst]; rfl
  have hround := sep1_round (v := v) (l := l) hst hb
  rw [hset] at hround
  rw [hinc]
  exact .inner (w := nested v { c with typ := .formdat }) rfl hv hc.flag hround

theorem Waiting.sep2c {b : UInt8} (hst : c.state = .sep2c) (hb : Byte.isHws b = false) :
    Runs cfg (nested v c) (Byte.sp :: b :: l) (nested v { c with state := .filenameKey })
      (b :: l) := by
  have hinc : { c with state := .filenameKey } = { c with state := c.state.inc } := by rw [hst]; rfl
  rw [hinc]
  exact .inner (w := nested v c) rfl hv hc.flag (sep2c_round hst hb)

theorem Waiting.more (hst : c.state = .sep2a) :
    Runs cfg (nested v c) (59 :: l) (nested v { c with state := .sep2c }) l := by
  have heol : Runs cfg (nested v c) (59 :: l) (nested v { c with state := .sep2b }) (59 :: l) := by
    have hinc : { c with state := .sep2b } = { c with state := c.state.inc } := by rw [hst]; rfl
    rw [hinc]
    exact .inner (w := nested v c) rfl hv hc.flag (sep2a_round hst)
  exact heol.trans
    (.inner (w := nested v { c with state := .sep2b }) rfl hv hc.flag (sep2b_round rfl))

theorem Waiting.ends (hst : c.state = .sep2a) (hq : v.state = .value) :
    Runs cfg (nested v c) (crlf ++ l)
      { v with ext := false, spcs := 0, state := .eol1a, cdp := { c with state := .sep2b } }
      (crlf ++ l) := by
  have hto :
      { v with ext := false, spcs := 0, state := .eol1a, cdp := { c with state := .sep2b } } =
      { nested v { c with flag := false } with
        state := v.state.inc, ext := false
        cdp := { c with state := c.state.inc, flag := true } } := by
    rw [hst, hq]
    simp [nested, ContdispSt.inc, MpfdSt.inc, hc.flag]
  rw [hto]
  refine .leave (w := nested v { c with flag := false }) rfl hv rfl fun t ht => ?_
  obtain ⟨t', hs, ht'⟩ := ht.scan (S := eol) (s := ()) (r := .ok) (y := ()) (m := crlf ++ l) rfl
  refine ⟨t', ht', ?_⟩
  rw [show (nested v c).cdp.state = .sep2a from hst]
  simp [dispAct, dispEol, Reader.ofScan, hs, nested]

theorem Waiting.file {f : Str} (hst : c.state = .filenameVal) (hq : v.state = .value)
    (hf : ∀ b ∈ f, Byte.isEol b = false) (hcap : f.length + 1 < cap) :
    Runs cfg (nested v c) (f ++ 34 :: crlf ++ l)
      { v with
        ext := false, spcs := 0, state := .eol1a
        cdp := { c with state := .beyond, filenameScr := some (f ++ [34]), filename := some f } }
      (crlf ++ l) := by
  have hto : { v with
        ext := false, spcs := 0, state := .eol1a
        cdp := { c with state := .beyond, filenameScr := some (f ++ [34]), filename := some f } } =
      { nested v { c with flag := false, filenameScr := some (f ++ [34]), filename := some f } with
        state := v.state.inc, ext := false
        cdp := { c with
          state := c.state.inc, flag := true, filenameScr := some (f ++ [34]),
            filename := some f } } := by
    rw [hst, hq]
    simp [nested, ContdispSt.inc, MpfdSt.inc, hc.flag]
  rw [hto]
  exact .leave
    (w := nested v { c with flag := false, filenameScr := some (f ++ [34]), filename := some f })
    rfl hv rfl (hc.file_round hst hf rfl hcap)

end Nested

section Disposition

/-- The inner parser behind the name, in the state `q`. -/
def named (c : Contdisp) (name : Str) (q : ContdispSt) : Contdisp :=
  { c with
    typScr := some formData, typ := .formdat, currMatch := none, name := some name, state := q }

theorem named_waiting {c : Contdisp} (hw : Waiting cap c) (name : Str) (q : ContdispSt) :
    Waiting cap (named c name q) := ⟨hw.scr, rfl, hw.flag⟩

variable {name : Str} (hc : v.crashed = false) (hst : v.state = .value) (hw : Waiting cap v.cdp)

include hc hst hw

theorem disposition_name (hext : v.ext = false) (hspcs : v.spcs = 0) (hkt : v.kt = .disposition)
    (hdst : v.cdp.state = .start) (hname : ∀ b ∈ name, b ≠ 34 ∧ Byte.isEol b = false)
    (hncap : name.length < cap) (hcap : formData.length < cap) :
    Runs cfg v (formData ++ 59 :: Byte.sp :: (nameEq ++ (name ++ 34 :: l)))
      (nested v (named v.cdp name .sep2a)) l := by
  have henter (k : Str) : Runs cfg v k (nested v v.cdp) k := by
    refine .outer hext hc fun t ht => ⟨t, ht, ?_⟩
    rw [hst]
    simp only [act, hkt, value, nested, ← hspcs]
  have htyp (k : Str) : Runs cfg (nested v v.cdp) (formData ++ 59 :: k)
      (nested v { v.cdp with typScr := some formData, state := .sep1 }) k := by
    rw [show ContdispSt.sep1 = v.cdp.state.inc by rw [hdst]; rfl]
    exact hw.word hc 59 true (fun c s => { c with typScr := some s }) formData (by rw [hdst]; rfl)
      (by decide +kernel) hcap fun _ _ => rfl
  have hsep (k : Str) : Runs cfg (nested v { v.cdp with typScr := some formData, state := .sep1 })
      (Byte.sp :: (nameEq ++ k))
      (nested v { v.cdp with typScr := some formData, state := .nameKey, typ := .formdat })
      (nameEq ++ k) :=
    Waiting.sep1 (b := 110) (c := { v.cdp with typScr := some formData, state := .sep1 }) hc
      ⟨hw.scr, hw.currMatch, hw.flag⟩ rfl rfl (by decide)
  have hkey (k : Str) : Runs cfg
      (nested v { v.cdp with typScr := some formData, state := .nameKey, typ := .formdat })
      (nameEq ++ k)
      (nested v { v.cdp with
        typScr := some formData, state := .nameVal, typ := .formdat, currMatch := none }) k :=
    Waiting.force (z := nameEq)
      (c := { v.cdp with typScr := some formData, state := .nameKey, typ := .formdat }) hc
      ⟨hw.scr, hw.currMatch, hw.flag⟩ rfl (by decide)
  have hval : Runs cfg
      (nested v { v.cdp with
        typScr := some formData, state := .nameVal, typ := .formdat, currMatch := none })
      (name ++ 34 :: l) (nested v (named v.cdp name .sep2a)) l :=
    Waiting.word
      (c := { v.cdp with
        typScr := some formData, state := .nameVal, typ := .formdat, currMatch := none })
      hc ⟨hw.scr, rfl, hw.flag⟩ 34 false (fun c s => { c with name := some s }) name rfl hname hncap
      fun _ _ => rfl
  exact (henter _).trans ((htyp _).trans ((hsep _).trans ((hkey _).trans hval)))

theorem disposition_runs (cfg : MpfdConfig) {f : Option Str} (hext : v.ext = false)
    (hspcs : v.spcs = 0)
    (hkt : v.kt = .disposition) (hdst : v.cdp.state = .start) (hfn : v.cdp.filename = none)
    (hname : ∀ b ∈ name, b ≠ 34 ∧ Byte.isEol b = false) (hncap : name.length < cap)
    (hcap : formData.length < cap)
    (hf : ∀ g, f = some g → (∀ b ∈ g, Byte.isEol b = false) ∧ g.length + 1 < cap) :
    ∃ c, Runs cfg v
        (formData ++ 59 :: Byte.sp ::
          (nameEq ++ (name ++ 34 :: (Part.filenameText f ++ (crlf ++ l)))))
        { v with ext := false, spcs := 0, state := .eol1a, cdp := c } (crlf ++ l) ∧
      c.name = some name ∧ c.filename = f ∧ c.typ = .formdat ∧ c.flag = true ∧ c.scr.cap = cap := by
  have hn (k : Str) : Runs cfg v (formData ++ 59 :: Byte.sp :: (nameEq ++ (name ++ 34 :: k)))
      (nested v (named v.cdp name .sep2a)) k :=
    disposition_name hc hst hw hext hspcs hkt hdst hname hncap hcap
  cases f with
  | none =>
    refine ⟨_, (hn _).trans (Waiting.ends hc (named_waiting hw name .sep2a) rfl hst), rfl, hfn, rfl,
      hw.flag, ?_⟩
    simp [named, hw.scr]
  | some g =>
    have hmore : Runs cfg (nested v (named v.cdp name .sep2a))
        (59 :: Byte.sp :: (filenameEq ++ (g ++ 34 :: crlf ++ l)))
        (nested v (named v.cdp name .sep2c)) (Byte.sp :: (filenameEq ++ (g ++ 34 :: crlf ++ l))) :=
      Waiting.more hc (named_waiting hw name .sep2a) rfl
    have hsep : Runs cfg (nested v (named v.cdp name .sep2c))
        (Byte.sp :: (filenameEq ++ (g ++ 34 :: crlf ++ l)))
        (nested v (named v.cdp name .filenameKey)) (filenameEq ++ (g ++ 34 :: crlf ++ l)) :=
      Waiting.sep2c hc (named_waiting hw name .sep2c) rfl (by decide)
    have hkey : Runs cfg (nested v (named v.cdp name .filenameKey))
        (filenameEq ++ (g ++ 34 :: crlf ++ l)) (nested v (named v.cdp name .filenameVal))
        (g ++ 34 :: crlf ++ l) :=
      Waiting.force hc (named_waiting hw name .filenameKey) rfl (by decide)
    have hval := hkey.trans
        (Waiting.file hc (named_waiting hw name .filenameVal) rfl hst (hf g rfl).1
      (hf g rfl).2)
    refine ⟨{ named v.cdp name .filenameVal with
      state := .beyond, filenameScr := some (g ++ [34]), filename := some g }, ?_, rfl, rfl, rfl,
      hw.flag, ?_⟩
    · have hrun := (hn _).trans (hmore.trans (hsep.trans hval))
      simpa [Part.filenameText] using hrun
    · simp [named, hw.scr]

end Disposition

section Lines

structure Stays (v w : Mpfd) : Prop where
  tab : w.tab = v.tab
  files : w.files = v.files

theorem mem_disposition : ∀ b ∈ Part.disposition,
    b ≠ 58 ∧ Byte.isHws b = false ∧ Byte.isEol b = false := by decide +kernel

theorem mem_contentType : ∀ b ∈ Part.contentType,
    b ≠ 58 ∧ Byte.isHws b = false ∧ Byte.isEol b = false := by decide +kernel

variable (hv : v.Idle cap pat) (hst : v.state = .key) (hcap : Part.disposition.length < cap)

include hv hst hcap

theorem Idle.dispositionLine (cfg : MpfdConfig) {name : Str} {f : Option Str}
    (hname : ∀ b ∈ name, b ≠ 34 ∧ Byte.isEol b = false) (hncap : name.length < cap)
    (hf : ∀ g, f = some g → (∀ b ∈ g, Byte.isEol b = false) ∧ g.length + 1 < cap) :
    ∃ w, Runs cfg v (Part.disposition ++ 58 :: Byte.sp :: (formData ++ 59 :: Byte.sp ::
        (nameEq ++ (name ++ 34 :: (Part.filenameText f ++ (crlf ++ l)))))) w l ∧
      w.Idle cap pat ∧ w.state = .key ∧ w.cgiKey = some name ∧ w.filename = f ∧
      w.attach = f.isSome ∧ w.contentTyp = v.contentTyp ∧ Stays v w := by
  have hkey : Runs cfg v (Part.disposition ++ 58 :: Byte.sp :: (formData ++ 59 :: Byte.sp ::
        (nameEq ++ (name ++ 34 :: (Part.filenameText f ++ (crlf ++ l))))))
      { v with
        scr := ⟨[], cap⟩, needLF := false, spcs := 0, cdp := v.cdp.reset, state := .value
        kt := .disposition }
      (formData ++ 59 :: Byte.sp ::
        (nameEq ++ (name ++ 34 :: (Part.filenameText f ++ (crlf ++ l))))) :=
    hv.key hst mem_disposition (by decide) hcap (c := 102) (by decide)
  have hfd : formData.length < cap := Nat.lt_trans (by decide) hcap
  have hw : Waiting cap v.cdp.reset := ⟨by simp [Contdisp.reset, hv.cdpCap], rfl, hv.flag⟩
  obtain ⟨c, hdisp, hcn, hcf, hct, hflag, hccap⟩ := disposition_runs (l := l) (f := f)
    (v := { v with
      scr := ⟨[], cap⟩, needLF := false, spcs := 0, cdp := v.cdp.reset, state := .value
      kt := .disposition }) hv.crashed rfl hw cfg hv.ext rfl rfl rfl rfl hname hncap hfd hf
  have hidle : Idle cap pat { v with
      scr := ⟨[], cap⟩, needLF := false, spcs := 0, cdp := c, state := .eol1a, ext := false
      kt := .disposition } :=
    ⟨rfl, rfl, rfl, hccap, hflag, hv.boundaries, hv.ended, rfl, hv.toStart, hv.crashed⟩
  have hend : Runs cfg { v with
      scr := ⟨[], cap⟩, needLF := false, spcs := 0, cdp := c, state := .eol1b, ext := false
      kt := .disposition } l
      { v with
        scr := ⟨[], cap⟩, needLF := false, spcs := 0, cdp := c, state := .key, ext := false
        kt := .disposition, cgiKey := some name, filename := f, attach := f.isSome } l := by
    refine .outer rfl hv.crashed fun t ht => ⟨t, ht, ?_⟩
    simp only [act, endLine, if_true, hct, hcn, hcf]
  refine ⟨_, hkey.trans (hdisp.trans ((hidle.lineEnd (g := inc) rfl hv.crashed).trans hend)), ?_,
    rfl, rfl, rfl, rfl, rfl, rfl, rfl⟩
  exact ⟨rfl, rfl, rfl, hccap, hflag, hv.boundaries, hv.ended, rfl, hv.toStart, hv.crashed⟩

theorem Idle.typeLine {T : Str} (hT : ∀ b ∈ T, Byte.isEol b = false)
    (hblank : ∀ b, T.head? = some b → Byte.isHws b = false) (hTcap : T.length < cap)
    (hrxx : cfg.multipartRxx T = none) :
    ∃ w, Runs cfg v (Part.contentType ++ 58 :: Byte.sp :: (T ++ (crlf ++ l))) w l ∧
      w.Idle cap pat ∧ w.state = .key ∧ w.cgiKey = v.cgiKey ∧ w.filename = v.filename ∧
      w.attach = v.attach ∧ w.contentTyp = some T ∧ Stays v w := by
  have hccap : Part.contentType.length < cap := Nat.lt_trans (by decide) hcap
  obtain ⟨b, k, hbk, hb⟩ : ∃ b k, T ++ (crlf ++ l) = b :: k ∧ Byte.isHws b = false := by
    cases T with
    | nil => exact ⟨Byte.cr, _, rfl, by decide⟩
    | cons b T => exact ⟨b, _, rfl, hblank b rfl⟩
  have hkey : Runs cfg v (Part.contentType ++ 58 :: Byte.sp :: (T ++ (crlf ++ l)))
      { v with
        scr := ⟨[], cap⟩, needLF := false, spcs := 0, cdp := v.cdp.reset, state := .value
        kt := .type } (T ++ (crlf ++ l)) := by
    rw [hbk]
    exact hv.key hst mem_contentType (by decide) hccap hb
  have hval : Runs cfg
      { v with
        scr := ⟨[], cap⟩, needLF := false, spcs := 0, cdp := v.cdp.reset, state := .value
        kt := .type } (T ++ (crlf ++ l))
      { v with
        scr := ⟨[], cap⟩, needLF := false, spcs := 0, cdp := v.cdp.reset, state := .eol1a
        kt := .type, contentTyp := some T } (crlf ++ l) := by
    refine .outer hv.ext hv.crashed fun t ht => ?_
    have hd : delimitVal.feed ⟨[], cap⟩ (T ++ Byte.cr :: Byte.lf :: l) =
        some (.ok T, ⟨[], cap⟩, crlf ++ l) := by
      refine (feed_delim (f := id) (fun b hb => ?_) (if_pos rfl) (by simpa using hTcap)).trans
        (by simp [crlf])
      simp [hT b hb]
    obtain ⟨t', ht', hs⟩ := word_holds (g := setContentTyp cfg)
      (v := { v with
        scr := ⟨[], cap⟩, needLF := false, spcs := 0, cdp := v.cdp.reset, state := .value
        kt := .type }) ht hd
    refine ⟨t', ht', ?_⟩
    simp only [act, value]
    rw [Reader.onOk, Reader.map_some hs]
    simp only [setContentTyp, hrxx, if_true]
    rfl
  have hidle : Idle cap pat { v with
      scr := ⟨[], cap⟩, needLF := false, spcs := 0, cdp := v.cdp.reset, state := .eol1a
      kt := .type, contentTyp := some T } :=
    ⟨rfl, rfl, rfl, hv.cdpCap, hv.flag, hv.boundaries, hv.ended, hv.ext, hv.toStart, hv.crashed⟩
  have hend : Runs cfg { v with
      scr := ⟨[], cap⟩, needLF := false, spcs := 0, cdp := v.cdp.reset, state := .eol1b
      kt := .type, contentTyp := some T } l
      { v with
        scr := ⟨[], cap⟩, needLF := false, spcs := 0, cdp := v.cdp.reset, state := .key
        kt := .type, contentTyp := some T } l := by
    refine .outer hv.ext hv.crashed fun t ht => ⟨t, ht, ?_⟩
    simp only [act, endLine, reduceCtorEq, if_false]
  refine ⟨_, hkey.trans (hval.trans ((hidle.lineEnd (g := inc) rfl hv.crashed).trans hend)), ?_,
    rfl, rfl, rfl, rfl, rfl, rfl, rfl⟩
  exact ⟨rfl, rfl, rfl, hv.cdpCap, hv.flag, hv.boundaries, hv.ended, hv.ext, hv.toStart, hv.crashed⟩

end Lines

section Search

theorem endMirror2_boundary {t : Tape} {data d : Str} (hm : t.mir = some ⟨data ++ crlf ++ d, cap⟩) :
    ∃ w, t.endMirror2 d.length = some (data, w) := by
  have hlen : ¬ (data ++ crlf ++ d).length < d.length := by
    rw [List.length_append]
    omega
  have htake : (data ++ crlf ++ d).take ((data ++ crlf ++ d).length - d.length) = data ++ crlf := by
    rw [List.length_append, Nat.add_sub_cancel, List.take_left]
  have hl : (data ++ crlf).length - 2 = data.length := by simp [crlf]
  refine ⟨(data ++ crlf ++ d).set (data ++ crlf).length 0, ?_⟩
  simp only [Tape.endMirror2, hm, hlen, if_false, htake, hl, List.drop_left, if_true,
    List.take_left]

/-- The parser when it has found the boundary behind `data`. -/
def found (v : Mpfd) (k : Kmp) (data : Str) : Mpfd :=
  { v with
    boundaries := [k], cbm := 1, matchEnded := true, dat := data, scr := { v.scr with text := [] } }

theorem matchBoundary_data {t : Tape} {data d : Str} {q : Nat} (hv : v.Idle cap pat)
    (hf : Kmp.scanner.feed ⟨pat, 0⟩ ((data ++ crlf ++ d) ++ l) = some (.ok, ⟨pat, q⟩, l))
    (hd : d.map Byte.toLower = pat) (hcap : (data ++ crlf ++ d).length ≤ cap)
    (ht : t.Holds ((data ++ crlf ++ d) ++ l)) (hbc : t.bc = false) :
    ∃ t', t'.Holds l ∧ matchBoundary true v t = (some .ok, v.found ⟨pat, q⟩ data, t') := by
  obtain ⟨q₀, hb⟩ := hv.boundaries
  have harmed : v.armed = false := by simp [armed, hv.ended]
  obtain ⟨t', u, hs, ht', hu, hmir⟩ := Tape.Holds.scan_copy (t := t.mirror cap) (fun _ => rfl)
    (fun k b r k' h => by simp only [Kmp.scanner] at h; split at h <;> cases h)
    (ht.setMir (some ⟨[], cap⟩)) hbc hf
  obtain rfl := List.append_cancel_right hu
  have hmir : t'.mir = some ⟨data ++ crlf ++ d, cap⟩ := by
    rw [hmir]
    exact congrArg some (Mirror.foldl_put (m := ⟨[], cap⟩) (by simpa using hcap))
  obtain ⟨w, hw⟩ := endMirror2_boundary hmir
  have hdlen : pat.length = d.length := by rw [← hd, List.length_map]
  refine ⟨t'.dropMirror, ht'.setMir none, ?_⟩
  have hseek : seek v.arm (mirrored true v t) = (some .ok,
      { v with boundaries := [⟨pat, q⟩], cbm := 1, matchEnded := true }, t') := by
    have harm : v.arm = { v with boundaries := [⟨pat, 0⟩], cbm := 1, matchEnded := false } := by
      simp [arm, harmed, setHead, head, hb]
    have hm : mirrored true v t = t.mirror cap := by simp [mirrored, harmed, hv.scr]
    rw [harm, hm]
    simp only [seek, Reader.ofScan, head, List.headD_cons, hs]
    rfl
  rw [matchBoundary_eq (by simp [hb]) hseek, if_pos ⟨rfl, rfl⟩]
  simp only [endMirror2, head, List.headD_cons, hdlen, hw, hv.scr, Scratch.overlay, List.length_nil,
    List.take_zero, found]

theorem Idle.data (cfg : MpfdConfig) {data d : Str} (hv : v.Idle cap pat) (hst : v.state = .key)
    (hP : pat ≠ []) (hcr : Byte.cr ∉ pat) (hlf : Byte.lf ∉ pat) (hd : d.map Byte.toLower = pat)
    (hdata : ¬ pat <:+: data.map Byte.toLower) (hcap : (data ++ crlf ++ d).length ≤ cap) :
    ∃ q, Runs cfg v (crlf ++ ((data ++ crlf ++ d) ++ l))
      (found { v with needLF := false, state := .search } ⟨pat, q⟩ data).insertPart.inc l := by
  obtain ⟨q, hf⟩ := feed_boundary (l := l) hP hcr hlf hd hdata
  refine ⟨q, fun t ht => ?_⟩
  obtain ⟨t₁, hs, ht₁⟩ := ht.scan (S := Okws.gobbleCrlf) feed_gobble
  have hidle : Idle cap pat { v with needLF := false, state := .search } :=
    ⟨hv.scr, rfl, hv.spcs, hv.cdpCap, hv.flag, hv.boundaries, hv.ended, hv.ext, hv.toStart,
      hv.crashed⟩
  obtain ⟨t₂, ht₂, hm⟩ := matchBoundary_data hidle hf hd hcap ht₁ (scan_gobble_bc hs)
  have hkey : (machine cfg).step (v, t) =
      .next ({ v with needLF := false, state := .search }, t₁) := by
    have hact : act cfg v.state v t =
        (some .ok, { v with needLF := false, state := .search }, t₁) := by
      rw [hst]
      simp [act, Reader.onStat, Reader.onOk, Reader.map, gobbleCrlf, Reader.ofScan, hv.needLF, hs,
        endHeader, hv.toStart]
    rw [step_outer hv.ext, hact, outcome_ok hidle.crashed, if_neg (by simp [hv.ext])]
  have hframe := insertPart_frame (found { v with needLF := false, state := .search } ⟨pat, q⟩ data)
  have hact : act cfg .search { v with needLF := false, state := .search } t₁ =
      (some .ok, (found { v with needLF := false, state := .search } ⟨pat, q⟩ data).insertPart.inc,
        t₂) := by
    rw [act, Reader.map_some hm]
  have hc : (found { v with needLF := false, state := .search } ⟨pat, q⟩
      data).insertPart.inc.crashed =
      false := hframe.crashed.trans hv.crashed
  have hext : (found { v with needLF := false, state := .search } ⟨pat, q⟩
      data).insertPart.inc.ext =
      false := hframe.ext.trans hv.ext
  refine ⟨t₂, ht₂, (Machine.Reaches.refl.next hkey).next ?_⟩
  rw [step_outer hidle.ext, hact, outcome_ok hc, if_neg (by simp [hext])]

def received (v : Mpfd) : Received := ⟨v.contentTyp, v.tab, v.files⟩

theorem received_insertPart {p : Part} (hk : v.cgiKey = some p.name) (hf : v.filename = p.filename)
    (ha : v.attach = p.filename.isSome) (hd : v.dat = p.data) (s : Received)
    (hs : s.tab = v.tab ∧ s.files = v.files) (ht : v.contentTyp = p.type.or s.type) :
    v.insertPart.inc.received = s.add p := by
  cases hfn : p.filename with
  | none => simp [insertPart, hk, ha, hfn, received, inc, Received.add, hd, hs.1, hs.2, ht]
  | some f =>
    simp [insertPart, hk, ha, hf, hfn, received, inc, Received.add, finsert, hd, hs.1, hs.2, ht]

theorem insertPart_idle (hv : v.Idle cap pat) : v.insertPart.inc.Idle cap pat := by
  unfold insertPart
  split
  · split <;>
      exact ⟨hv.scr, hv.needLF, hv.spcs, hv.cdpCap, hv.flag, hv.boundaries, hv.ended, hv.ext,
        hv.toStart, hv.crashed⟩
  · exact ⟨hv.scr, hv.needLF, hv.spcs, hv.cdpCap, hv.flag, hv.boundaries, hv.ended, hv.ext,
      hv.toStart, hv.crashed⟩

theorem Idle.part {p : Part} {b : Str} (hv : v.Idle cap ((dashes ++ b).map Byte.toLower))
    (hst : v.state = .key) (hcr : Byte.cr ∉ (dashes ++ b).map Byte.toLower)
    (hlf : Byte.lf ∉ (dashes ++ b).map Byte.toLower) (hp : p.Wf cfg b)
    (hcap : (p.text ++ dashes ++ b).length ≤ cap) :
    ∃ w, Runs cfg v (p.text ++ dashes ++ b ++ l) w l ∧
      w.Idle cap ((dashes ++ b).map Byte.toLower) ∧ w.state = .search2 ∧
      w.received = v.received.add p := by
  have hlen := hcap
  simp only [Part.text, List.length_append, List.length_cons] at hlen
  have hdcap : Part.disposition.length < cap := by omega
  have hfile (f : Str) (h : p.filename = some f) :
      (∀ b ∈ f, Byte.isEol b = false) ∧ f.length + 1 < cap := by
    simp only [h, Part.filenameText, List.length_append, List.length_cons] at hlen
    exact ⟨fun c hc => (hp.filename f h c hc).2, by omega⟩
  obtain ⟨v₁, hr₁, hi₁, hst₁, hk₁, hf₁, ha₁, ht₁, hs₁⟩ := hv.dispositionLine
    (l := Part.typeText p.type ++ (crlf ++ ((p.data ++ crlf ++ (dashes ++ b)) ++ l)))
    hst hdcap cfg hp.name (by omega) hfile
  obtain ⟨v₂, hr₂, hi₂, hst₂, hk₂, hf₂, ha₂, ht₂, hs₂⟩ : ∃ v₂, Runs cfg v₁
      (Part.typeText p.type ++ (crlf ++ ((p.data ++ crlf ++ (dashes ++ b)) ++ l))) v₂
      (crlf ++ ((p.data ++ crlf ++ (dashes ++ b)) ++ l)) ∧
      v₂.Idle cap ((dashes ++ b).map Byte.toLower) ∧ v₂.state = .key ∧ v₂.cgiKey = v₁.cgiKey ∧
      v₂.filename = v₁.filename ∧ v₂.attach = v₁.attach ∧ v₂.contentTyp = p.type.or v₁.contentTyp ∧
      Stays v₁ v₂ := by
    cases htyp : p.type with
    | none => exact ⟨v₁, fun t ht => ⟨t, ht, .refl⟩, hi₁, hst₁, rfl, rfl, rfl, rfl, rfl, rfl⟩
    | some T =>
      simp only [htyp, Part.typeText, List.length_append, List.length_cons] at hlen
      obtain ⟨v₂, hr₂, h⟩ := hi₁.typeLine hst₁ hdcap (hp.line T htyp) (hp.blank T htyp) (by omega)
        (hp.single T htyp)
      exact ⟨v₂, by simpa [Part.typeText] using hr₂, h⟩
  obtain ⟨q, hr₃⟩ := hi₂.data (l := l) cfg hst₂ (by simp [dashes]) hcr hlf rfl hp.data
    (by simp only [List.length_append]; omega)
  refine ⟨(found { v₂ with needLF := false, state := .search } ⟨_, q⟩ p.data).insertPart.inc, ?_,
    insertPart_idle ⟨?_, rfl, hi₂.spcs, hi₂.cdpCap, hi₂.flag, ⟨q, rfl⟩, rfl, hi₂.ext,
    hi₂.toStart, hi₂.crashed⟩, ?_, ?_⟩
  · have hrun := hr₁.trans (hr₂.trans hr₃)
    simpa [Part.text] using hrun
  · simp [found, hi₂.scr]
  · exact inc_state (insertPart_frame _).state
  · refine received_insertPart
      (v := found { v₂ with needLF := false, state := .search } ⟨_, q⟩ p.data)
      (hk₂.trans hk₁) (hf₂.trans hf₁) (ha₂.trans ha₁) rfl v.received ?_ ?_
    · exact ⟨(hs₂.tab.trans hs₁.tab).symm, (hs₂.files.trans hs₁.files).symm⟩
    · exact ht₂.trans (by rw [ht₁]; rfl)

theorem Idle.another (cfg : MpfdConfig) (hv : v.Idle cap pat) (hst : v.state = .search2) :
    Runs cfg v (crlf ++ l) { v with needLF := false, nxtState := .key, state := .key } l := by
  have hdash : Runs cfg v (crlf ++ l) { v with nxtState := .key, state := .search3 }
      (crlf ++ l) := by
    refine .outer hv.ext hv.crashed fun t ht => ?_
    obtain ⟨t', hs, ht'⟩ := ht.scan (S := dashScanner) (s := 0) (r := .nomatch) (y := 0)
      (m := crlf ++ l) rfl
    refine ⟨t', ht', ?_⟩
    rw [hst]
    simp [act, parse2dash, Reader.onOk, Reader.map, Reader.ofScan, hs, inc, hst, MpfdSt.inc]
  have hidle : Idle cap pat { v with nxtState := .key, state := .search3 } :=
    ⟨hv.scr, hv.needLF, hv.spcs, hv.cdpCap, hv.flag, hv.boundaries, hv.ended, hv.ext, hv.toStart,
      hv.crashed⟩
  exact hdash.trans (hidle.lineEnd (g := fun v => { v with state := v.nxtState }) rfl hv.crashed)

theorem Idle.last (cfg : MpfdConfig) (hv : v.Idle cap pat) (hst : v.state = .search2) {t : Tape}
    (ht : t.Holds (dashes ++ crlf)) :
    (machine cfg).Ends (v, t) (.finished ⟨Http.ok, v.tab, v.files⟩) := by
  obtain ⟨q, hb⟩ := hv.boundaries
  have hdash : Runs cfg v (dashes ++ crlf)
      { v with boundaries := [], cbm := 0, nxtState := .search, state := .search3 } crlf := by
    refine .outer hv.ext hv.crashed fun t ht => ?_
    obtain ⟨t', hs, ht'⟩ :=
      ht.scan (S := dashScanner) (s := 0) (r := .ok) (y := 2) (m := crlf) rfl
    refine ⟨t', ht', ?_⟩
    rw [hst]
    simp [act, parse2dash, Reader.onOk, Reader.map, Reader.ofScan, hs, inc, hst, MpfdSt.inc,
      removeBoundary, hb]
  have hline : Runs cfg
      { v with boundaries := [], cbm := 0, nxtState := .search, state := .search3 } crlf
      { v with
        boundaries := [], cbm := 0, nxtState := .search, needLF := false, state := .search } [] := by
    refine .outer hv.ext hv.crashed fun t ht => ?_
    obtain ⟨t', ht', hs⟩ := requireCrlf_holds (m := [])
      (v := { v with boundaries := [], cbm := 0, nxtState := .search, state := .search3 }) ht
      (by rw [hv.needLF]; exact feed_gobble)
    exact ⟨t', ht', by rw [act, Reader.onOk, Reader.map_some hs]; rfl⟩
  have hnone : Runs cfg
      { v with
        boundaries := [], cbm := 0, nxtState := .search, needLF := false, state := .search } []
      { v with
        boundaries := [], cbm := 0, nxtState := .search, needLF := false, state := .eof } [] :=
    .outer hv.ext hv.crashed fun t ht => ⟨t, ht, rfl⟩
  obtain ⟨t', ht', hr⟩ := (hdash.trans (hline.trans hnone)) t ht
  rw [hr.ends]
  obtain ⟨t'', hget⟩ := ht'.get_nil
  have hscan : scan Tape.device skipWsScanner () t' = (some .eof, (), t'') :=
    scan_eof (D := Tape.device) rfl hget
  refine (Machine.ends_stop ?_).mpr rfl
  rw [step_outer (by exact hv.ext)]
  simp [act, skipWs, Reader.onOk, Reader.map, Reader.ofScan, hscan, outcome, hv.crashed, finish]

theorem Idle.rest {ps : List Part} {b : Str} (hv : v.Idle cap ((dashes ++ b).map Byte.toLower))
    (hst : v.state = .search2) (hcr : Byte.cr ∉ (dashes ++ b).map Byte.toLower)
    (hlf : Byte.lf ∉ (dashes ++ b).map Byte.toLower) (hps : ∀ p ∈ ps, p.Wf cfg b)
    (hcap : (Part.rest b ps).length ≤ cap) {t : Tape} (ht : t.Holds (Part.rest b ps)) :
    (machine cfg).Ends (v, t) (.finished ⟨Http.ok, (ps.foldl Received.add v.received).tab,
      (ps.foldl Received.add v.received).files⟩) := by
  induction ps generalizing v t with
  | nil => exact hv.last cfg hst ht
  | cons p ps ih =>
    have htext : Part.rest b (p :: ps) = crlf ++ (p.text ++ dashes ++ b ++ Part.rest b ps) := by
      simp [Part.rest]
    rw [htext] at ht hcap
    have hlen : (p.text ++ dashes ++ b).length + (Part.rest b ps).length ≤ cap := by
      rw [List.length_append, List.length_append] at hcap
      omega
    have hidle : Idle cap ((dashes ++ b).map Byte.toLower)
        { v with needLF := false, nxtState := .key, state := .key } :=
      ⟨hv.scr, rfl, hv.spcs, hv.cdpCap, hv.flag, hv.boundaries, hv.ended, hv.ext, hv.toStart,
        hv.crashed⟩
    obtain ⟨w, hr, hi, hst', hrec⟩ := hidle.part (l := Part.rest b ps) rfl hcr hlf
      (hps p List.mem_cons_self) (by omega)
    obtain ⟨t', ht', hreach⟩ := ((hv.another cfg hst).trans hr) t ht
    rw [hreach.ends, List.foldl_cons, show v.received.add p = w.received from hrec.symm]
    exact ih hi hst' (fun p hp => hps p (List.mem_cons_of_mem _ hp)) (by omega) ht'

theorem first_boundary (cfg : MpfdConfig) {b : Str} {q : Nat} (hst : v.state = .start)
    (hb : v.boundaries = [⟨(dashes ++ b).map Byte.toLower, q⟩])
    (hcbm : v.cbm = 0) (hext : v.ext = false) (hc : v.crashed = false) :
    ∃ q', Runs cfg v (dashes ++ b ++ l)
      { v with
        boundaries := [⟨(dashes ++ b).map Byte.toLower, q'⟩], cbm := 1, matchEnded := true
        state := .eol0 } l := by
  have hne : (dashes ++ b).map Byte.toLower ≠ [] := by simp [dashes]
  obtain ⟨q', hf⟩ := feed_kmp (l := l) (u := dashes ++ b) hne (by simp [dashes])
    (Kmp.longest_start _) (List.suffix_refl _) fun w hw _ hwu hsuf => by
      have hlen := hsuf.length_le
      have hwlen := hw.length_le
      simp only [List.nil_append, List.length_map] at hlen
      exact hwu (hw.eq_of_length (Nat.le_antisymm hwlen hlen))
  refine ⟨q', .outer hext hc fun t ht => ?_⟩
  obtain ⟨t', hs, ht'⟩ := ht.scan hf
  refine ⟨t', ht', ?_⟩
  have harmed : v.armed = false := by simp [armed, hb, hcbm]
  have hseek : seek v.arm (mirrored false v t) = (some .ok,
      { v with
        boundaries := [⟨(dashes ++ b).map Byte.toLower, q'⟩], cbm := 1, matchEnded := true },
          t') := by
    have harm : v.arm = { v with
        boundaries := [⟨(dashes ++ b).map Byte.toLower, 0⟩], cbm := 1, matchEnded := false } := by
      simp [arm, harmed, setHead, head, hb]
    rw [harm, show mirrored false v t = t from rfl]
    simp only [seek, Reader.ofScan, head, List.headD_cons, hs]
    rfl
  have hm := matchBoundary_eq (by simp [hb]) hseek
  rw [if_neg (by simp)] at hm
  rw [hst, act, Reader.onOk, Reader.map_some hm]
  simp [inc, hst, MpfdSt.inc]

end Search

theorem body_ends {b : Str} {p : Part} {ps : List Part} {t : Tape}
    (hcr : Byte.cr ∉ (dashes ++ b).map Byte.toLower)
      (hlf : Byte.lf ∉ (dashes ++ b).map Byte.toLower)
    (hps : ∀ q ∈ p :: ps, q.Wf cfg b) (hcap : (Part.body b (p :: ps)).length ≤ cap)
    (ht : t.Holds (Part.body b (p :: ps))) :
    (machine cfg).Ends
      ({ scr := { cap := cap }, cdp := { scr := { cap := cap } }
         boundaries := [⟨(dashes ++ b).map Byte.toLower, 0⟩] }, t)
      (.finished ⟨Http.ok, ((p :: ps).foldl Received.add {}).tab,
        ((p :: ps).foldl Received.add {}).files⟩) := by
  have htext : Part.body b (p :: ps) =
      dashes ++ b ++ (crlf ++ (p.text ++ dashes ++ b ++ Part.rest b ps)) := by
    simp [Part.body, Part.rest]
  rw [htext] at ht hcap
  have hlen : (p.text ++ dashes ++ b).length + (Part.rest b ps).length ≤ cap := by
    simp only [List.length_append] at hcap ⊢
    omega
  obtain ⟨q, hfirst⟩ := first_boundary cfg
    (v := { scr := { cap := cap }, cdp := { scr := { cap := cap } }
            boundaries := [⟨(dashes ++ b).map Byte.toLower, 0⟩] })
    (l := crlf ++ (p.text ++ dashes ++ b ++ Part.rest b ps)) rfl rfl rfl rfl rfl
  have hidle (q' : MpfdSt) : Idle cap ((dashes ++ b).map Byte.toLower)
      { scr := { cap := cap }, cdp := { scr := { cap := cap } }
        boundaries := [⟨(dashes ++ b).map Byte.toLower, q⟩], cbm := 1, matchEnded := true
        state := q' } :=
    ⟨rfl, rfl, rfl, rfl, rfl, ⟨q, rfl⟩, rfl, rfl, rfl, rfl⟩
  obtain ⟨w, hr, hi, hst, hrec⟩ := (hidle .key).part (l := Part.rest b ps) rfl hcr hlf
    (hps p List.mem_cons_self) (by omega)
  obtain ⟨t', ht', hreach⟩ :=
    (hfirst.trans (((hidle .eol0).lineEnd (g := inc) rfl rfl).trans hr)) t ht
  rw [hreach.ends, List.foldl_cons, show Received.add {} p = w.received from hrec.symm]
  exact hi.rest hst hcr hlf (fun p hp => hps p (List.mem_cons_of_mem _ hp)) (by omega) ht'

theorem body_nil_ends {b : Str} {t : Tape} (cfg : MpfdConfig) (ht : t.Holds (Part.body b [])) :
    (machine cfg).Ends
      ({ scr := { cap := cap }, cdp := { scr := { cap := cap } }
         boundaries := [⟨(dashes ++ b).map Byte.toLower, 0⟩] }, t)
      (.finished ⟨Http.badRequest, .empty, []⟩) := by
  have htext : Part.body b [] = dashes ++ b ++
      45 :: 45 :: crlf := by simp [Part.body, Part.rest, dashes]
  rw [htext] at ht
  obtain ⟨q, hfirst⟩ := first_boundary cfg
    (v := { scr := { cap := cap }, cdp := { scr := { cap := cap } }
            boundaries := [⟨(dashes ++ b).map Byte.toLower, 0⟩] })
    (l := 45 :: 45 :: crlf) rfl rfl rfl rfl rfl
  obtain ⟨t₁, ht₁, hreach⟩ := hfirst t ht
  rw [hreach.ends]
  obtain ⟨t₂, -, hs⟩ := requireCrlf_holds (r := .nomatch) (m := 45 :: 45 :: crlf)
    (v := { scr := { cap := cap }, cdp := { scr := { cap := cap } }
            boundaries := [⟨(dashes ++ b).map Byte.toLower, q⟩], cbm := 1, matchEnded := true
            state := .eol0 }) ht₁ rfl
  refine (Machine.ends_stop ?_).mpr rfl
  rw [step_outer rfl, act, Reader.onOk, Reader.map_some hs]
  rfl

end Mpfd

namespace PairTab

variable {t : PairTab} {k k' v : Str}

def values (t : PairTab) (k : Str) : List Str := (t.lookup k).getD []

theorem values_insert (hk : k ≠ []) (e : Bool) :
    (t.insert (some k) (some v) true e).values k' = t.values k' ++ if k = k' then [v] else [] := by
  rw [values, lookup_insert hk, values]
  by_cases hk' : k = k' <;> simp [hk']

theorem values_addPair : (t.addPair k).values k' = t.values k' := by
  unfold addPair
  split
  · rfl
  · next h =>
    simp only [values, lookup, find_insertPair]
    cases hf : t.find k' with
    | some p => rfl
    | none =>
      by_cases hk' : k = k' <;> simp [hk']

end PairTab

namespace Part

def file (p : Part) : Option (Str × CgiFile) := p.filename.map fun f =>
    (p.name, ⟨some f, p.type, p.data⟩)

def values (ps : List Part) (k : Str) : List Str :=
  (ps.filter fun p => p.filename.isNone && p.name == k).map data

/-- The files as the parser gets them, when the last type it has seen is `typ`. -/
def files (typ : Option Str) : List Part → List (Str × CgiFile)
  | [] => []
  | p :: ps => (p.filename.map fun f => (p.name, ⟨some f, p.type.or typ, p.data⟩)).toList ++
      files (p.type.or typ) ps

theorem received_files (ps : List Part) (s : Received) :
    (ps.foldl Received.add s).files = s.files ++ files s.type ps := by
  induction ps generalizing s with
  | nil => simp [files]
  | cons p ps ih =>
    rw [List.foldl_cons, ih, files]
    cases hf : p.filename <;> simp [Received.add, hf]

theorem received_values (ps : List Part) (s : Received) (k : Str) :
    (ps.foldl Received.add s).tab.values k =
      s.tab.values k ++ if k = [] then [] else values ps k := by
  induction ps generalizing s with
  | nil => simp [values]
  | cons p ps ih =>
    rw [List.foldl_cons, ih]
    cases hf : p.filename with
    | some f => simp [Received.add, hf, PairTab.values_addPair, values]
    | none =>
      by_cases hn : p.name = []
      · by_cases hk : k = []
        · simp [Received.add, hf, hn, hk, PairTab.insert]
        · simp [Received.add, hf, hn, hk, PairTab.insert, values]
      · simp only [Received.add, hf, PairTab.values_insert hn, List.append_assoc]
        by_cases hk : k = []
        · subst hk
          simp [hn]
        · by_cases hkn : p.name = k <;> simp [hk, hkn, values, hf]

/-- No file without a type comes behind a part with one. -/
def Typed (ps : List Part) : Prop :=
  ps.Pairwise fun p q => p.type.isSome → q.filename.isSome → q.type.isSome

theorem files_eq_iff (typ : Option Str) (ps : List Part) :
    files typ ps = ps.filterMap file ↔
      (typ.isSome → ∀ p ∈ ps, p.filename.isSome → p.type.isSome) ∧ Typed ps := by
  induction ps generalizing typ with
  | nil => simp [files, Typed]
  | cons p ps ih =>
    have htail : files typ (p :: ps) = (p :: ps).filterMap file ↔
        (p.filename.isSome → typ.isSome → p.type.isSome) ∧
          files (p.type.or typ) ps = ps.filterMap file := by
      cases hf : p.filename with
      | none => simp [files, file, hf]
      | some f =>
        have htype : p.type.or typ = p.type ↔ (typ.isSome → p.type.isSome) := by
          cases p.type <;> cases typ <;> simp
        simp [files, file, hf, htype]
    rw [htail, ih, Typed, Typed, List.pairwise_cons, Option.isSome_or]
    simp only [Bool.or_eq_true, List.forall_mem_cons]
    constructor
    · rintro ⟨hp, hps, hpair⟩
      exact ⟨fun ht => ⟨fun hf => hp hf ht, hps (.inr ht)⟩, fun q hq ht =>
        hps (.inl ht) q hq, hpair⟩
    · rintro ⟨ht, hp, hpair⟩
      exact ⟨fun hf h => (ht h).1 hf, fun h => h.elim (fun h q hq => hp q hq h) fun h =>
        (ht h).2, hpair⟩

end Part

namespace Mpfd

/-- The parser ends well on the pieces `rs` and has got the parts: the values under each name and
the files, in order. -/
def Decodes (cfg : MpfdConfig) (cap : Nat) (b : Str) (lim : Int) (rs : List Str)
    (ps : List Part) : Prop :=
  ∃ r, (machine cfg).Ends (start cfg cap [b] lim rs) (.finished r) ∧ r.status = Http.ok ∧
    (∀ k, r.tab.values k = Part.values ps k) ∧ r.files = ps.filterMap Part.file

theorem toTape_holds {lim : Int} {rs : List Str} (hne : [] ∉ rs)
    (hlim : lim < 0 ∨ rs.flatten.length ≤ lim) :
    ({ src := rs, lim := lim } : Abuf).toTape.Holds rs.flatten := by
  have htoks : rs.flatMap Abuf.regionToks = rs.flatten.map .byte := by
    rw [List.map_flatten, List.flatMap_def]
    congr 1
    refine List.map_congr_left fun r hr => if_neg ?_
    rintro rfl
    exact hne hr
  refine ⟨rfl, ?_, ?_⟩
  · simp only [Abuf.toTape, List.map_nil, List.nil_append, htoks, List.length_map]
    omega
  · simpa [Abuf.toTape] using htoks

theorem values_iff (ps : List Part) :
    (∀ k, (ps.foldl Received.add {}).tab.values k = Part.values ps k) ↔
      ∀ p ∈ ps, p.filename = none → p.name ≠ [] := by
  have hempty (k : Str) : PairTab.empty.values k = [] := rfl
  constructor
  · intro h p hp hf hn
    have hnil := h []
    rw [Part.received_values, hempty, if_pos rfl] at hnil
    have hmem : p.data ∈ Part.values ps [] :=
      List.mem_map_of_mem (List.mem_filter.mpr ⟨hp, by simp [hf, hn]⟩)
    simp [← hnil] at hmem
  · intro h k
    rw [Part.received_values, hempty, List.nil_append]
    split
    · next hk =>
      subst hk
      refine Eq.symm (List.map_eq_nil_iff.mpr (List.filter_eq_nil_iff.mpr fun p hp => ?_))
      simp only [Bool.and_eq_true, Option.isNone_iff_eq_none, beq_iff_eq, not_and]
      exact h p hp
    · rfl

/-- The names of a form come back with their values and its files with their names, their data and
their types, if and only if there is a part, no value is sent without a name, and no file without a
type comes behind a part that has one. -/
theorem decodes_iff_typed (rxx : Str → Option Str) (mem : Nat → UInt8) (b : Str) (ps : List Part)
    (cap : Nat) (lim : Int) (rs : List Str) (hb : 0 ∉ b ∧ Byte.cr ∉ b ∧ Byte.lf ∉ b)
    (hps : ∀ p ∈ ps, p.Wf ⟨rxx, tolowerS mem⟩ b) (hcap : (Part.body b ps).length ≤ cap)
    (hlim : lim < 0 ∨ (Part.body b ps).length ≤ lim) (hrs : rs.flatten = Part.body b ps)
      (hne : [] ∉ rs) :
    Decodes ⟨rxx, tolowerS mem⟩ cap b lim rs ps ↔
      ps ≠ [] ∧ (∀ p ∈ ps, p.filename = none → p.name ≠ []) ∧ Part.Typed ps := by
  have ht := toTape_holds hne (hrs ▸ hlim)
  rw [hrs] at ht
  have hlow : tolowerS mem (dashes ++ b) = (dashes ++ b).map Byte.toLower :=
    Hdr.tolowerS_eq mem (by simpa [dashes] using hb.1)
  have hstart : start ⟨rxx, tolowerS mem⟩ cap [b] lim rs =
      ({ scr := { cap := cap }, cdp := { scr := { cap := cap } }
         boundaries := [⟨(dashes ++ b).map Byte.toLower, 0⟩] },
        ({ src := rs, lim := lim } : Abuf).toTape) := by
    simp only [start, List.foldl_cons, List.foldl_nil, addBoundary, ← hlow]
    rfl
  have hlower {c : UInt8} (hc : c ∉ b) (hd : c ∉ dashes) (hup : ∀ x, Byte.toLower x = c → x = c) :
      c ∉ (dashes ++ b).map Byte.toLower :=
    Hdr.not_mem_map_toLower hup fun h => (List.mem_append.mp h).elim hd hc
  have hcr := hlower hb.2.1 (by decide) Byte.toLower_cr
  have hlf := hlower hb.2.2 (by decide) Byte.toLower_lf
  cases ps with
  | nil =>
    refine ⟨?_, fun h => absurd rfl h.1⟩
    rintro ⟨r, hr, hok, _⟩
    rw [hstart] at hr
    cases hr.unique (body_nil_ends _ ht)
    cases hok
  | cons p ps =>
    have hends := body_ends hcr hlf hps hcap ht
    rw [← hstart] at hends
    have hfiles : ((p :: ps).foldl Received.add {}).files = Part.files none (p :: ps) := by
      rw [Part.received_files]
      rfl
    have hdec : Decodes ⟨rxx, tolowerS mem⟩ cap b lim rs (p :: ps) ↔
        (∀ k, ((p :: ps).foldl Received.add {}).tab.values k = Part.values (p :: ps) k) ∧
          Part.files none (p :: ps) = (p :: ps).filterMap Part.file := by
      rw [← hfiles]
      refine ⟨?_, fun h => ⟨_, hends, rfl, h.1, h.2⟩⟩
      rintro ⟨r, hr, _, hv, hf⟩
      cases hr.unique hends
      exact ⟨hv, hf⟩
    rw [hdec, values_iff, Part.files_eq_iff]
    simp

/-- A value, a file with a type, and a line end with dashes in the data. -/
theorem decodes_value_and_file :
    Decodes ⟨fun _ => none, tolowerS fun _ => 0⟩ 300 [98] (-1)
      [Part.body [98] [⟨[97], [13, 10, 45, 45, 0], none, none⟩,
        ⟨[102], [104], some [120], some [116]⟩]]
      [⟨[97], [13, 10, 45, 45, 0], none, none⟩, ⟨[102], [104], some [120], some [116]⟩] := by
  have hwf : ∀ p ∈ [(⟨[97], [13, 10, 45, 45, 0], none, none⟩ : Part),
      ⟨[102], [104], some [120], some [116]⟩], p.Wf ⟨fun _ => none, tolowerS fun _ => 0⟩ [98] := by
    simp only [List.forall_mem_cons, List.not_mem_nil, false_imp_iff, implies_true, and_true]
    refine ⟨⟨by decide +kernel, nofun, nofun, nofun, nofun, by decide +kernel⟩, ?_⟩
    refine ⟨by decide +kernel, ?_, ?_, ?_, fun _ _ => rfl, by decide +kernel⟩
    all_goals
      rintro _ ⟨⟩
      decide +kernel
  refine (decodes_iff_typed (fun _ => none) (fun _ => 0) [98] _ 300 (-1) _ (by decide +kernel) hwf
    (by decide +kernel) (.inl (by decide)) (by simp) (by decide +kernel)).mpr ?_
  exact ⟨by simp, by decide, by unfold Part.Typed; decide⟩

/-- Two files, the second without a type: the parser gives it the type of the first. -/
theorem not_decodes_untyped :
    (∀ p ∈ [(⟨[97], [104], some [120], some [116]⟩ : Part), ⟨[98], [105], some [121], none⟩],
      p.Wf ⟨fun _ => none, tolowerS fun _ => 0⟩ [98]) ∧
    ¬ Decodes ⟨fun _ => none, tolowerS fun _ => 0⟩ 300 [98] (-1)
      [Part.body [98] [⟨[97], [104], some [120], some [116]⟩, ⟨[98], [105], some [121], none⟩]]
      [⟨[97], [104], some [120], some [116]⟩, ⟨[98], [105], some [121], none⟩] := by
  refine ⟨?_, ?_⟩
  · simp only [List.forall_mem_cons, List.not_mem_nil, false_imp_iff, implies_true, and_true]
    refine ⟨⟨by decide +kernel, ?_, ?_, ?_, fun _ _ => rfl, by decide +kernel⟩,
      ⟨by decide +kernel, ?_, nofun, nofun, nofun, by decide +kernel⟩⟩
    all_goals
      rintro _ ⟨⟩
      decide +kernel
  · rintro ⟨r, hr, -, -, hfiles⟩
    have hrun : (machine ⟨fun _ => none, tolowerS fun _ => 0⟩).Ends
        (start ⟨fun _ => none, tolowerS fun _ => 0⟩ 300 [[98]] (-1)
          [Part.body [98] [⟨[97], [104], some [120], some [116]⟩, ⟨[98], [105], some [121], none⟩]])
        (.finished ⟨200, ⟨[⟨[97], [], true⟩, ⟨[98], [], true⟩], by decide⟩,
          [([97], ⟨some [120], some [116], [104]⟩), ([98], ⟨some [121], some [116], [105]⟩)]⟩) :=
      ⟨100, by decide +kernel⟩
    cases hr.unique hrun
    revert hfiles
    decide

end Mpfd

end Okws
