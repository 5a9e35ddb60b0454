import Mathlib.Data.List.TakeWhile
import Okws.Byte

/-! `html_filter_t`, which lets some tags through and escapes the others. -/

namespace Okws

/-- What `handle_tag` does: it goes to the end of the text, copies some characters, escapes the
angle bracket, or makes a string of a negative length. -/
inductive TagAct
  | drop
  | copy (n : Nat)
  | escape
  | crash
  deriving DecidableEq

inductive HtmlPiece
  | ch (c : UInt8)
  | tag (t : Str)
  | entity (t : Str)
  deriving DecidableEq

/-- `overrun`: the scan reads behind the end of the text; `endless`: it does not move on. -/
inductive Filtered
  | done (out : List HtmlPiece)
  | overrun
  | endless
  deriving DecidableEq

/-- An allow-list, and the tags that it accepts. -/
structure TagRule where
  handleTag : Str → TagAct
  Accepts : Str → Prop

namespace HtmlFilter

/-- The two loops of `match`, which leave one character. -/
def trimLeft : Str → Str
  | c :: d :: s => if Byte.isSpace c then trimLeft (d :: s) else c :: d :: s
  | s => s

def trim (s : Str) : Str := (trimLeft (trimLeft s).reverse).reverse

/-- What stands in front of the first `>`. -/
def body (l : Str) : Str := l.tail.takeWhile (· ≠ 62)

/-- The offsets of `inner` and `outter`, when the tests for slashes are made. -/
def inner (l : Str) : Nat := if l[2]? = some 47 then 2 else 1

def outter (l : Str) : Nat :=
  if l[(body l).length]? = some 47 then (body l).length + 1 else (body l).length

/-- The text `match` looks for. -/
def matched (l : Str) : Str := trim ((l.take (outter l + 1)).drop (inner l))

/-- `html_filter_bhash_t`, with a set of tags. -/
def bhash (tab : Str → Bool) : TagRule where
  handleTag l :=
    if (body l).length = l.tail.length then .drop
    else if outter l + 1 < inner l then .crash
    else if tab (matched l) then .copy ((body l).length + 2)
    else .escape
  Accepts t := ∃ b, t = 60 :: b ++ [62] ∧ 62 ∉ b ∧ tab (trim b) = true

/-- `html_filter_rxx_t`; `rx` gives the length of what a regular expression matches at the
beginning of a text. -/
def rxx (rx : Str → Option Nat) : TagRule where
  handleTag l := match rx l with
    | some n => .copy n
    | none => .escape
  Accepts t := ∃ r, rx (t ++ r) = some t.length

def safeEntityList : List Str :=
  [ascii ['l', 't'], ascii ['g', 't'], ascii ['a', 'm', 'p'], ascii ['#', '3', '5'],
    ascii ['q', 'u', 'o', 't']]

/-- The entity that follows an ampersand, if it is a safe one. -/
def entity (l : Str) : Option Str :=
  let e := l.takeWhile (· ≠ 59)
  if e.length < l.length ∧ e ∈ safeEntityList then some e else none

def lt : Str := ascii ['&', 'l', 't', ';']
def amp : Str := ascii ['&', 'a', 'm', 'p', ';']
def num35 : Str := ascii ['&', '#', '3', '5', ';']
def quot : Str := ascii ['&', 'q', 'u', 'o', 't', ';']

end HtmlFilter

namespace Filtered

def add (p : HtmlPiece) : Filtered → Filtered
  | .done ps => .done (p :: ps)
  | r => r

end Filtered

namespace HtmlFilter

variable (r : TagRule)

/-- `run` on a text without NUL; the number says how many characters the cursor has still to
skip. -/
def run : Nat → Str → Filtered
  | _, [] => .done []
  | k + 1, _ :: l => run k l
  | 0, c :: l =>
    if c = 60 then match r.handleTag (c :: l) with
      | .drop => .done []
      | .copy 0 => .endless
      | .copy (n + 1) => (run n l).add (.tag (c :: l.take n))
      | .escape => (run 0 l).add (.entity lt)
      | .crash => .overrun
    else if c = 38 then match entity l with
      | some e => (run (e.length + 1) l).add (.entity (38 :: e ++ [59]))
      | none => (run 0 l).add (.entity amp)
    else if c = 35 then (run 0 l).add (.entity num35)
    else if c = 34 then match l with
      | [] => .overrun
      -- there is no `break`
      | d :: l => ((run 0 l).add (.ch d)).add (.entity quot)
    else (run 0 l).add (.ch c)

/-- The places where the cursor comes to the switch, each as what is left of the text. -/
def visits : Nat → Str → List Str
  | _, [] => []
  | k + 1, _ :: l => visits k l
  | 0, c :: l => (c :: l) ::
    if c = 60 then match r.handleTag (c :: l) with
      | .copy (n + 1) => visits n l
      | .escape => visits 0 l
      | _ => []
    else if c = 38 then match entity l with
      | some e => visits (e.length + 1) l
      | none => visits 0 l
    else if c = 34 then match l with
      | [] => []
      | _ :: l => visits 0 l
    else visits 0 l

def special (c : UInt8) : Prop := c = 60 ∨ c = 38 ∨ c = 34

/-- An entity of the list, with its ampersand and its semicolon. -/
def Safe (t : Str) : Prop := ∃ e ∈ safeEntityList, t = 38 :: e ++ [59]

def Fine : HtmlPiece → Prop
  | .ch c => ¬ special c
  | .tag t => r.Accepts t
  | .entity t => Safe t

/-- Accepted tags, safe entities and other characters. -/
inductive Clean : Str → Prop
  | nil : Clean []
  | ch {c s} : ¬ special c → Clean s → Clean (c :: s)
  | tag {t s} : r.Accepts t → Clean s → Clean (t ++ s)
  | entity {t s} : Safe t → Clean s → Clean (t ++ s)

end HtmlFilter

def HtmlPiece.text : HtmlPiece → Str
  | .ch c => [c]
  | .tag t | .entity t => t

namespace HtmlFilter

/-- The text is filtered: nothing is added unexamined, and the output is clean. -/
def Sound (r : TagRule) (s : Str) : Prop :=
  ∃ ps, run r 0 s = .done ps ∧ (∀ p ∈ ps, Fine r p) ∧ Clean r (ps.flatMap HtmlPiece.text)

/-- A quote is followed by a character that may be copied. -/
def QuoteOk : Str → Prop
  | 34 :: d :: _ => ¬ special d
  | [34] => False
  | _ => True

/-- At a tag, the rule does not fail, and what it lets through is accepted. -/
def TagOk (r : TagRule) (l : Str) : Prop := l.head? = some 60 → match r.handleTag l with
  | .crash => False
  | .copy 0 => False
  | .copy n => r.Accepts (l.take n)
  | _ => True

section Sound

variable {r}

theorem clean_of_fine {ps : List HtmlPiece} (h : ∀ p ∈ ps, Fine r p) :
    Clean r (ps.flatMap HtmlPiece.text) := by
  induction ps with
  | nil => exact .nil
  | cons p ps ih =>
    have hp := h p List.mem_cons_self
    have hps := ih fun q hq => h q (List.mem_cons_of_mem p hq)
    cases p with
    | ch c => exact .ch hp hps
    | tag t => exact .tag hp hps
    | entity t => exact .entity hp hps

def Goes (r : TagRule) (x : Filtered) : Prop := ∃ ps, x = .done ps ∧ ∀ p ∈ ps, Fine r p

theorem goes_add {p : HtmlPiece} {x : Filtered} : Goes r (x.add p) ↔ Fine r p ∧ Goes r x := by
  cases x with
  | done ps =>
    constructor
    · rintro ⟨qs, hq, hall⟩
      cases hq
      exact ⟨hall p List.mem_cons_self, ps, rfl, fun q hq => hall q (List.mem_cons_of_mem p hq)⟩
    · rintro ⟨hp, qs, hq, hall⟩
      cases hq
      refine ⟨_, rfl, fun q hq => ?_⟩
      obtain rfl | hq := List.mem_cons.1 hq
      · exact hp
      · exact hall q hq
  | overrun => exact ⟨fun ⟨_, h, _⟩ => (by cases h), fun ⟨_, _, h, _⟩ => (by cases h)⟩
  | endless => exact ⟨fun ⟨_, h, _⟩ => (by cases h), fun ⟨_, _, h, _⟩ => (by cases h)⟩

theorem entity_safe {l e : Str} (h : entity l = some e) : Safe (38 :: e ++ [59]) := by
  unfold entity at h
  dsimp only at h
  split at h
  · next hs =>
    cases h
    exact ⟨_, hs.2, rfl⟩
  · cases h

theorem visits_cons (c : UInt8) (l : Str) : visits r 0 (c :: l) = (c :: l) ::
    if c = 60 then match r.handleTag (c :: l) with
      | .copy (n + 1) => visits r n l
      | .escape => visits r 0 l
      | _ => []
    else if c = 38 then match entity l with
      | some e => visits r (e.length + 1) l
      | none => visits r 0 l
    else if c = 34 then match l with
      | [] => []
      | _ :: l => visits r 0 l
    else visits r 0 l := by
  cases l <;> rfl

theorem goes_iff (k : Nat) (s : Str) :
    Goes r (run r k s) ↔ ∀ l ∈ visits r k s, QuoteOk l ∧ TagOk r l := by
  have hlt : Safe lt := ⟨ascii ['l', 't'], by decide, rfl⟩
  have hamp : Safe amp := ⟨ascii ['a', 'm', 'p'], by decide, rfl⟩
  have hnum : Safe num35 := ⟨ascii ['#', '3', '5'], by decide, rfl⟩
  have hquot : Safe quot := ⟨ascii ['q', 'u', 'o', 't'], by decide, rfl⟩
  have hother {c : UInt8} {l : Str} (h60 : c ≠ 60) :
      TagOk r (c :: l) := fun h => absurd (by simpa using h) h60
  have hquote {c : UInt8} {l : Str} (h34 : c ≠ 34) : QuoteOk (c :: l) := by
    unfold QuoteOk
    split
    · next h => exact absurd (List.cons.inj h).1 h34
    · next h => exact absurd (List.cons.inj h).1 h34
    · trivial
  fun_induction run r k s with
  | case1 k => exact ⟨fun _ => nofun, fun _ => ⟨[], rfl, nofun⟩⟩
  | case2 k b l ih => exact ih
  | case3 l h =>
    have htag : TagOk r (60 :: l) := fun _ => by simp [h]
    simp only [visits_cons, h, if_true, List.forall_mem_cons]
    exact ⟨fun _ => ⟨⟨hquote (by decide), htag⟩, nofun⟩, fun _ => ⟨[], rfl, nofun⟩⟩
  | case4 l h =>
    have htag : ¬ TagOk r (60 :: l) := fun ht => by simpa [h] using ht rfl
    simp only [visits_cons, h, if_true, List.forall_mem_cons]
    exact ⟨fun ⟨_, hd, _⟩ => (by cases hd), fun hv => absurd hv.1.2 htag⟩
  | case5 l n h ih =>
    have htag : TagOk r (60 :: l) ↔ r.Accepts (60 :: l.take n) :=
      ⟨fun ht => by simpa [h] using ht rfl, fun ha _ => by simpa [h] using ha⟩
    simp only [visits_cons, h, if_true, List.forall_mem_cons, goes_add, ih, Fine, htag,
      hquote (show (60 : UInt8) ≠ 34 by decide), true_and]
  | case6 l h ih =>
    have htag : TagOk r (60 :: l) := fun _ => by simp [h]
    simp only [visits_cons, h, if_true, List.forall_mem_cons, goes_add, ih, Fine, hlt, htag,
      hquote (show (60 : UInt8) ≠ 34 by decide), true_and]
  | case7 l h =>
    have htag : ¬ TagOk r (60 :: l) := fun ht => by simpa [h] using ht rfl
    simp only [visits_cons, h, if_true, List.forall_mem_cons]
    exact ⟨fun ⟨_, hd, _⟩ => (by cases hd), fun hv => absurd hv.1.2 htag⟩
  | case8 l e he h60 ih =>
    simp only [visits_cons, h60, if_true, if_false, he, List.forall_mem_cons, goes_add, ih, Fine,
      entity_safe he, hquote (show (38 : UInt8) ≠ 34 by decide), hother h60, true_and]
  | case9 l he h60 ih =>
    simp only [visits_cons, h60, if_true, if_false, he, List.forall_mem_cons, goes_add, ih,
      Fine, hamp, hquote (show (38 : UInt8) ≠ 34 by decide), hother h60, true_and]
  | case10 l h60 h38 ih =>
    simp only [visits_cons, h60, h38, if_false, show (35 : UInt8) ≠ 34 by decide,
      List.forall_mem_cons, goes_add,
      ih, Fine, hnum, hquote (show (35 : UInt8) ≠ 34 by decide), hother h60, true_and]
  | case11 h60 h38 h35 =>
    simp only [visits_cons, h60, h38, if_true, if_false, List.forall_mem_cons]
    exact ⟨fun ⟨_, hd, _⟩ => (by cases hd), fun hv => absurd hv.1.1 id⟩
  | case12 d l h60 h38 h35 ih =>
    have hq : QuoteOk (34 :: d :: l) ↔ ¬ special d := Iff.rfl
    simp only [visits_cons, h60, h38, if_true, if_false, List.forall_mem_cons, goes_add, ih, Fine,
      hquot, hq, hother h60, true_and, and_true]
  | case13 c l h60 h38 h35 h34 ih =>
    have hc : ¬ special c := by simp [special, h60, h38, h34]
    simp only [visits_cons, h60, h38, h34, if_false, List.forall_mem_cons, goes_add, ih, Fine, hc,
      not_false_eq_true, hquote h34, hother h60, true_and]

theorem sound_iff (s : Str) : Sound r s ↔ ∀ l ∈ visits r 0 s, QuoteOk l ∧ TagOk r l := by
  rw [← goes_iff]
  constructor
  · rintro ⟨ps, hps, hfine, -⟩
    exact ⟨ps, hps, hfine⟩
  · rintro ⟨ps, hps, hfine⟩
    exact ⟨ps, hps, hfine, clean_of_fine hfine⟩

end Sound

section Rules

/-- At a tag with a `>`, the tests for slashes do no harm: the tag is not `<>/`, and where one of
them fires the table has the whole name of the tag, if it has the rest. -/
def SlashOk (tab : Str → Bool) (l : Str) : Prop := l.head? = some 60 → 62 ∈ l →
  ¬ [60, 62, 47] <+: l ∧ (l[2]? = some 47 ∨ l[(body l).length]? = some 47 →
    tab (matched l) = true → tab (trim (body l)) = true)

theorem body_split {t : Str} (h : 62 ∈ t) : ∃ d, t = body (60 :: t) ++ 62 :: d := by
  induction t with
  | nil => cases h
  | cons c t ih =>
    by_cases hc : c = 62
    · exact ⟨t, by simp [body, hc]⟩
    · obtain ⟨d, hd⟩ := ih ((List.mem_cons.1 h).resolve_left (Ne.symm hc))
      exact ⟨d, by simpa [body, hc] using hd⟩

theorem body_full {t : Str} : (body (60 :: t)).length = t.length ↔ 62 ∉ t := by
  constructor
  · intro hlen hmem
    obtain ⟨d, hd⟩ := body_split hmem
    have := congrArg List.length hd
    simp only [List.length_append, List.length_cons] at this
    omega
  · intro hmem
    have : body (60 :: t) = t := List.takeWhile_eq_self_iff.2
      fun x hx => decide_eq_true fun he => hmem (he ▸ hx)
    rw [this]

theorem take_tag {t : Str} (h : 62 ∈ t) :
    (60 :: t).take ((body (60 :: t)).length + 2) = 60 :: body (60 :: t) ++ [62] := by
  obtain ⟨d, hd⟩ := body_split h
  rw [List.take_succ_cons]
  nth_rw 2 [hd]
  rw [List.take_length_add_append]
  rfl

theorem accepts_tag {tab : Str → Bool} {t : Str} :
    (bhash tab).Accepts (60 :: body (60 :: t) ++ [62]) ↔ tab (trim (body (60 :: t))) = true := by
  constructor
  · rintro ⟨b, hb, -, htab⟩
    rwa [List.append_cancel_right (List.cons.inj hb).2]
  · intro htab
    refine ⟨_, rfl, fun hm => ?_, htab⟩
    simpa using List.mem_takeWhile_imp hm

theorem inner_le {t : Str} (h : 62 ∈ t) :
    outter (60 :: t) + 1 < inner (60 :: t) ↔ [60, 62, 47] <+: 60 :: t := by
  obtain ⟨d, hd⟩ := body_split h
  cases hb : body (60 :: t) with
  | nil =>
    have ho : outter (60 :: t) = 0 := by simp [outter, hb]
    rw [ho]
    rw [hb] at hd
    subst hd
    cases d with
    | nil => simp [inner]
    | cons c d => by_cases hc : c = 47 <;> simp [inner, hc, Ne.symm]
  | cons c b =>
    have hc : c ≠ 62 := by
      have hm : c ∈ body (60 :: t) := hb ▸ List.mem_cons_self
      simpa using List.mem_takeWhile_imp hm
    have ho : b.length + 1 ≤ outter (60 :: t) := by
      unfold outter
      rw [hb]
      split <;> simp
    have hi : inner (60 :: t) ≤ 2 := by
      unfold inner
      split <;> simp
    refine iff_of_false (by omega) fun hp => hc ?_
    rw [hd, hb] at hp
    exact (List.cons_prefix_cons.1 (List.cons_prefix_cons.1 hp).2).1.symm

theorem matched_of_not {l : Str} (hi : l[2]? ≠ some 47) (ho : l[(body l).length]? ≠ some 47)
    {t : Str} (hl : l = 60 :: t) : matched l = trim (body l) := by
  have hp : (body l) <+: t := by
    subst hl
    exact List.takeWhile_prefix _
  have hin : inner l = 1 := if_neg hi
  have hout : outter l = (body l).length := if_neg ho
  rw [matched, hin, hout, hl, List.take_succ_cons, List.drop_succ_cons, List.drop_zero, ← hl,
    ← List.prefix_iff_eq_take.1 hp]

theorem bhash_tagOk_iff {tab : Str → Bool} {l : Str} : TagOk (bhash tab) l ↔ SlashOk tab l := by
  refine forall_congr' fun hl => ?_
  obtain ⟨t, rfl⟩ : ∃ t, l = 60 :: t := by
    cases l with
    | nil => cases hl
    | cons c t => exact ⟨t, by simpa using hl⟩
  have hmem : 62 ∈ 60 :: t ↔ 62 ∈ t := by simp
  by_cases h : 62 ∈ t
  · have hfull := mt body_full.1 (not_not_intro h)
    simp only [bhash, List.tail_cons, hfull, if_false, hmem, h, true_imp_iff, inner_le h]
    by_cases hcrash : [60, 62, 47] <+: 60 :: t
    · simp only [hcrash, if_true, not_true, false_and]
    · simp only [hcrash, if_false, not_false_eq_true, true_and]
      by_cases htab : tab (matched (60 :: t)) = true
      · simp only [htab, if_true, true_imp_iff, take_tag h]
        refine Iff.trans accepts_tag ⟨fun ha _ => ha, fun ha => ?_⟩
        by_cases hs : (60 :: t)[2]? = some 47 ∨ (60 :: t)[(body (60 :: t)).length]? = some 47
        · exact ha hs
        · obtain ⟨hi, ho⟩ := not_or.1 hs
          rwa [← matched_of_not hi ho rfl]
      · rw [if_neg htab]
        exact iff_of_true trivial fun _ h => absurd h htab
  · simp only [bhash, List.tail_cons, body_full.2 h, if_true, hmem, h, false_imp_iff]

theorem rxx_tagOk_iff {rx : Str → Option Nat} (hrx : ∀ l n, rx l = some n → n ≤ l.length)
    {l : Str} : TagOk (rxx rx) l ↔ (l.head? = some 60 → rx l ≠ some 0) := by
  refine forall_congr' fun _ => ?_
  cases h : rx l with
  | none => simp [rxx, h]
  | some n =>
    cases n with
    | zero => simp [rxx, h]
    | succ n =>
      have hacc : (rxx rx).Accepts (l.take (n + 1)) := by
        refine ⟨l.drop (n + 1), ?_⟩
        rw [List.take_append_drop, h, List.length_take_of_le (hrx l _ h)]
      simpa [rxx, h] using hacc

theorem sound_bhash_and_rxx_iff (tab : Str → Bool) {rx : Str → Option Nat}
    (hrx : ∀ l n, rx l = some n → n ≤ l.length) (s : Str) :
    (Sound (bhash tab) s ↔ ∀ l ∈ visits (bhash tab) 0 s, QuoteOk l ∧ SlashOk tab l) ∧
    (Sound (rxx rx) s ↔
      ∀ l ∈ visits (rxx rx) 0 s, QuoteOk l ∧ (l.head? = some 60 → rx l ≠ some 0)) := by
  constructor
  · rw [sound_iff]
    exact forall₂_congr fun l _ => and_congr_right fun _ => bhash_tagOk_iff
  · rw [sound_iff]
    exact forall₂_congr fun l _ => and_congr_right fun _ => rxx_tagOk_iff hrx

/-- With an expression that matches `<b>`. -/
theorem sound_bhash_and_rxx_iff_bold :
    (Sound (bhash (· == [98])) [60, 98, 62, 38, 34, 120] ↔
      ∀ l ∈ visits (bhash (· == [98])) 0 [60, 98, 62, 38, 34, 120],
        QuoteOk l ∧ SlashOk (· == [98]) l) ∧
    (Sound (rxx fun l => if [60, 98, 62] <+: l then some 3 else none) [60, 98, 62, 38, 34, 120] ↔
      ∀ l ∈ visits (rxx fun l => if [60, 98, 62] <+: l then some 3 else none) 0
          [60, 98, 62, 38, 34, 120],
        QuoteOk l ∧ (l.head? = some 60 →
          (if [60, 98, 62] <+: l then some 3 else none) ≠ some 0)) := by
  refine sound_bhash_and_rxx_iff _ (fun l n h => ?_) _
  split at h
  · next hp =>
    cases h
    exact hp.length_le
  · cases h

theorem lt_of_clean {r : TagRule} {s : Str} (h : Clean r s) (hs : 60 ∈ s) : ∃ t, r.Accepts t := by
  induction h with
  | nil => cases hs
  | ch hc _ ih =>
    exact ih ((List.mem_cons.1 hs).resolve_left fun he => hc (.inl he.symm))
  | tag ht _ _ => exact ⟨_, ht⟩
  | entity ht _ ih =>
    refine ih ((List.mem_append.1 hs).resolve_left fun hm => ?_)
    have hall : ∀ e ∈ safeEntityList, 60 ∉ 38 :: e ++ [59] := by decide
    obtain ⟨e, he, rfl⟩ := ht
    exact hall e he hm

/-- No tag is allowed, and a quote stands in front of one. -/
theorem not_sound_quoted : ¬ ∀ (tab : Str → Bool) (s : Str), 0 ∉ s →
    ∃ ps, run (bhash tab) 0 s = .done ps ∧ Clean (bhash tab) (ps.flatMap HtmlPiece.text) := by
  intro h
  obtain ⟨ps, hps, hclean⟩ :=
    h (fun _ => false) (34 :: ascii ['<', 's', 'c', 'r', 'i', 'p', 't', '>'])
    (by decide)
  have hrun : run (bhash fun _ => false) 0 (34 :: ascii ['<', 's', 'c', 'r', 'i', 'p', 't', '>']) =
      .done [.entity quot, .ch 60, .ch 115, .ch 99, .ch 114, .ch 105, .ch 112, .ch 116,
        .ch 62] := by
    rfl
  cases hrun.symm.trans hps
  obtain ⟨t, b, -, -, htab⟩ := lt_of_clean hclean (by decide)
  cases htab

end Rules

end HtmlFilter

end Okws
