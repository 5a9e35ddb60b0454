import Mathlib.Data.List.TakeWhile
import Okws.Lib.Json
import Okws.ScanStr

/-! String literals of JSON, as `json_parser_t` reads them. -/

namespace Okws.Scan

open Lib Lib.Flex

/-- Whether the scanner has no error to report where the input ends. -/
def Scanner.endsWell (s : Scanner) : Bool :=
  match s.cond with
  | .p3Str | .p3Regex | .jsonStr | .jsonSqStr => false
  | .h | .txlcom | .txlcom3 => s.dBracket ≤ 0
  | _ => true

def tokens (cfg : Config) : Nat → Lexer UInt8 → Option (List Tok)
  | 0, _ => none
  | n + 1, x =>
    if x.input = [] then if x.scanner.endsWell then some [] else none
    else match lex cfg yyP3StrChar x with
      | some (l, y) => (tokens cfg n y).map (l.tok.toList ++ ·)
      | none => none

/-- `json_parser_t::parse` of a text that is one string, and what is in the `expr_str_t`. -/
def jsonParse (cfg : Config) (text : Str) : Option Str :=
  match tokens cfg (text.length + 1) ⟨Scanner.push {} .json, 0, text⟩ with
  | some [.p3String s] => s
  | _ => none

/-- What a character behind a backslash stands for, in a literal with the mark `q`. -/
def escaped (q b : UInt8) : Option UInt8 := if b = q then some q else Json.unescape b

/-- What is behind the opening mark of a literal, and what it stands for. -/
inductive Body (q : UInt8) : Str → Str → Prop
  | close : Body q [q] []
  | raw {b : UInt8} {t s : Str} : 32 ≤ b → b ≠ q → b ≠ 92 → Body q t s → Body q (b :: t) (b :: s)
  | escape {b c : UInt8} {t s : Str} :
      escaped q b = some c → Body q t s → Body q (92 :: b :: t) (c :: s)
  | hex {a b c d : UInt8} {v : Nat} {t s : Str} :
      Json.hex4 a b c d = some v → ¬(0xd800 ≤ v ∧ v < 0xe000) → Body q t s →
      Body q (92 :: 117 :: a :: b :: c :: d :: t) (Json.codePoint v ++ s)
  | pair {a b c d a' b' c' d' : UInt8} {v w : Nat} {t s : Str} :
      Json.hex4 a b c d = some v → 0xd800 ≤ v ∧ v < 0xdc00 →
      Json.hex4 a' b' c' d' = some w → 0xdc00 ≤ w ∧ w < 0xe000 → Body q t s →
      Body q (92 :: 117 :: a :: b :: c :: d :: 92 :: 117 :: a' :: b' :: c' :: d' :: t)
        (Json.codePoint (0x10000 + (v - 0xd800) * 0x400 + (w - 0xdc00)) ++ s)

/-- A string literal in double or single quotation marks. -/
inductive StrLiteral : UInt8 → Str → Str → Prop
  | double {t s : Str} : Body 34 t s → StrLiteral 34 (34 :: t) s
  | single {t s : Str} : Body 39 t s → StrLiteral 39 (39 :: t) s

section Denotes

variable {t s : Str}

theorem body_of_json (h : Json.body t = some s) : Body 34 t s := by
  fun_induction Json.body t generalizing s with
  | case1 => cases h
  | case2 =>
    cases h
    exact .close
  | case3 => cases h
  | case4 a b c d t ih2 ih =>
    obtain ⟨v, hv, h⟩ := Option.bind_eq_some_iff.1 h
    by_cases hhigh : 0xd800 ≤ v ∧ v < 0xdc00
    · rw [if_pos hhigh] at h
      split at h
      · next a' b' c' d' t =>
        obtain ⟨w, hw, h⟩ := Option.bind_eq_some_iff.1 h
        by_cases hlow : 0xdc00 ≤ w ∧ w < 0xe000
        · rw [if_pos hlow] at h
          obtain ⟨s', hs', h⟩ := Option.bind_eq_some_iff.1 h
          obtain rfl := Option.some.inj h
          exact .pair hv hhigh hw hlow (ih2 hs')
        · rw [if_neg hlow] at h
          cases h
      · cases h
    · rw [if_neg hhigh] at h
      by_cases hlow : 0xdc00 ≤ v ∧ v < 0xe000
      · rw [if_pos hlow] at h
        cases h
      · rw [if_neg hlow] at h
        obtain ⟨s', hs', h⟩ := Option.bind_eq_some_iff.1 h
        obtain rfl := Option.some.inj h
        exact .hex hv (by omega) (ih hs')
  | case5 b t _ ih =>
    simp only [bind, Option.bind_eq_some_iff, pure] at h
    obtain ⟨c, hc, s', hs', h⟩ := h
    cases h
    refine .escape ?_ (ih hs')
    unfold escaped
    split_ifs with h34
    · rwa [h34] at hc
    · exact hc
  | case6 => cases h
  | case7 b t h34 _ h92 hlow ih =>
    simp only [bind, Option.bind_eq_some_iff, pure] at h
    obtain ⟨s', hs', h⟩ := h
    cases h
    refine .raw (UInt8.not_lt.1 hlow) h34 (fun hb => ?_) (ih hs')
    cases t with
    | nil => cases hs'
    | cons c t => exact h92 c t hb rfl

theorem strLiteral_of_denotes {text : Str} (h : Json.Denotes text s) : StrLiteral 34 text s := by
  obtain ⟨-, h⟩ := h
  unfold Json.string at h
  split at h
  · exact .double (body_of_json h)
  · cases h

end Denotes

section Bodies

def escapeOut (strict : Bool) (q b : UInt8) : Option UInt8 :=
  if b = q then some 34
  else if b = 92 then some 92
  else if b = 110 then some 10
  else if b = 114 then some 13
  else if b = 116 then some 9
  else if b = 98 then some 8
  else if b = 47 then some 47
  else if strict then none else some b

/-- What the scanner makes of what is behind an opening mark. -/
def scanned (strict : Bool) (q : UInt8) : Str → Option Str
  | [] => none
  | 92 :: 117 :: a :: b :: c :: d :: t =>
    (scanned strict q t).map ((unicodeToUtf8 [a, b, c, d]).getD [] ++ ·)
  | 92 :: b :: t => (escapeOut strict q b).bind fun c => (scanned strict q t).map (c :: ·)
  | b :: t => if b = q then some [] else (scanned strict q t).map (b :: ·)

/-- The escapes that are read for what they stand for. -/
def Kept (strict : Bool) (q : UInt8) : Str → Prop
  | [] => True
  | 92 :: 117 :: a :: b :: c :: d :: t =>
    (∃ v, Json.hex4 a b c d = some v ∧ 0 < v ∧ v < 0x800) ∧ Kept strict q t
  | 92 :: b :: t => b ≠ 102 ∧ (q = 39 → b ≠ 39 ∧ (strict → b ≠ 34)) ∧ Kept strict q t
  | _ :: t => Kept strict q t

attribute [local simp] scanned Kept

variable {strict : Bool} {q b c a' b' c' d : UInt8} {t s : Str} {v : Nat}

theorem scanned_raw (hq : b ≠ q) (h : b ≠ 92) :
    scanned strict q (b :: t) = (scanned strict q t).map (b :: ·) := by
  simp [hq, h]

theorem scanned_close : scanned strict q [q] = some [] := by
  simp

theorem scanned_escape (h : b ≠ 117) : scanned strict q (92 :: b :: t) =
    (escapeOut strict q b).bind fun c => (scanned strict q t).map (c :: ·) := by
  simp [h]

theorem kept_raw (h : b ≠ 92) : Kept strict q (b :: t) ↔ Kept strict q t := by
  simp [h]

theorem kept_escape (h : b ≠ 117) : Kept strict q (92 :: b :: t) ↔
    b ≠ 102 ∧ (q = 39 → b ≠ 39 ∧ (strict → b ≠ 34)) ∧ Kept strict q t := by
  simp [h]

theorem escaped_table (h : escaped q b = some c) :
    b = 34 ∧ c = 34 ∨ b = 92 ∧ c = 92 ∨ b = 47 ∧ c = 47 ∨ b = 98 ∧ c = 8 ∨ b = 102 ∧ c = 12 ∨
      b = 110 ∧ c = 10 ∨ b = 114 ∧ c = 13 ∨ b = 116 ∧ c = 9 ∨ b = q ∧ c = q := by
  unfold escaped Json.unescape at h
  split_ifs at h with h1 h2 h3 h4 h5 h6 h7
  all_goals cases h
  · simp [h1]
  · obtain rfl | rfl | rfl := h2 <;> simp
  · simp [h3]
  · simp [h4]
  · simp [h5]
  · simp [h6]
  · simp [h7]

theorem escaped_cases (strict : Bool) (hq : q = 34 ∨ q = 39) (h : escaped q b = some c) :
    b ≠ 117 ∧ (escapeOut strict q b = some c ∧
        b ≠ 102 ∧ (q = 39 → b ≠ 39 ∧ (strict → b ≠ 34)) ∨
      escapeOut strict q b ≠ some c ∧
        ¬(b ≠ 102 ∧ (q = 39 → b ≠ 39 ∧ (strict → b ≠ 34)))) := by
  rcases hq with rfl | rfl
  all_goals
    rcases escaped_table h with ⟨rfl, rfl⟩ | ⟨rfl, rfl⟩ | ⟨rfl, rfl⟩ | ⟨rfl, rfl⟩ | ⟨rfl, rfl⟩ |
      ⟨rfl, rfl⟩ | ⟨rfl, rfl⟩ | ⟨rfl, rfl⟩ | ⟨rfl, rfl⟩
    all_goals cases strict <;> decide

theorem escaped_ne (hq : q = 34 ∨ q = 39) (h : escaped q b = some c) :
    b ≠ 117 ∧ b ≠ 10 ∧ b ≠ 0 := by
  rcases hq with rfl | rfl
  all_goals
    rcases escaped_table h with ⟨rfl, -⟩ | ⟨rfl, -⟩ | ⟨rfl, -⟩ | ⟨rfl, -⟩ | ⟨rfl, -⟩ |
      ⟨rfl, -⟩ | ⟨rfl, -⟩ | ⟨rfl, -⟩ | ⟨rfl, -⟩ <;> decide

end Bodies

theorem cstr_of_ne_zero {s : Str} (h : ∀ x ∈ s, x ≠ 0) : cstr s = s :=
  List.takeWhile_eq_self_iff.2 fun x hx => decide_eq_true (h x hx)

section Unicode

variable {a b c d : UInt8} {v n : Nat}

theorem hexDigit_some (h : Json.hexDigit b = some v) :
    (if b ≤ 57 then b.toNat - 48 else if b ≤ 70 then b.toNat - 55 else b.toNat - 87) = v ∧
      v < 16 ∧ isHex b := by
  unfold Json.hexDigit at h
  simp only [UInt8.le_iff_toNat_le, UInt8.reduceToNat] at h ⊢
  simp only [isHex, isDigit, Bool.or_eq_true, Bool.and_eq_true, decide_eq_true_eq,
    UInt8.le_iff_toNat_le, UInt8.reduceToNat]
  split_ifs at h with h1 h2 h3
  all_goals cases h
  · exact ⟨by rw [if_pos (by omega)], by omega, by omega⟩
  · exact ⟨by rw [if_neg (by omega), if_pos (by omega)], by omega, by omega⟩
  · exact ⟨by rw [if_neg (by omega), if_neg (by omega)], by omega, by omega⟩

theorem hex4_some (h : Json.hex4 a b c d = some v) : strtol16 [a, b, c, d] = v ∧ v < 2 ^ 16 ∧
    isHex a ∧ isHex b ∧ isHex c ∧ isHex d := by
  simp only [Json.hex4, bind, Option.bind_eq_some_iff, pure, Option.some.injEq] at h
  obtain ⟨va, ha, vb, hb, vc, hc, vd, hd, rfl⟩ := h
  obtain ⟨ea, la, xa⟩ := hexDigit_some ha
  obtain ⟨eb, lb, xb⟩ := hexDigit_some hb
  obtain ⟨ec, lc, xc⟩ := hexDigit_some hc
  obtain ⟨ed, ld, xd⟩ := hexDigit_some hd
  refine ⟨?_, by omega, xa, xb, xc, xd⟩
  simp only [strtol16, List.foldl_cons, List.foldl_nil, ea, eb, ec, ed]
  omega

theorem length_utf8_le_two (h : v.isValidChar) :
    (String.utf8EncodeChar (Char.ofNat v)).length ≤ 2 ↔ v < 0x800 := by
  have hval : (Char.ofNat v).val.toNat = v := by
    rw [Char.ofNat, dif_pos h]
    rfl
  unfold String.utf8EncodeChar
  dsimp only
  rw [hval]
  split_ifs with h1 h2 h3
  · exact ⟨fun _ => by omega, fun _ => by simp⟩
  · exact ⟨fun _ => by omega, fun _ => by simp⟩
  · exact ⟨fun h => absurd h (by simp), fun _ => by omega⟩
  · exact ⟨fun h => absurd h (by simp), fun _ => by omega⟩

theorem unicodeToUtf8_hex4 (h : Json.hex4 a b c d = some v) :
    (unicodeToUtf8 [a, b, c, d]).getD [] = if 0 < v ∧ v < 0x800 then Json.codePoint v else [] := by
  obtain ⟨hv, hlt, -⟩ := hex4_some h
  rw [unicodeToUtf8, hv, wcsrtombs]
  by_cases h0 : v = 0
  · rw [if_pos h0, if_neg (by omega)]
    rfl
  · rw [if_neg h0]
    by_cases hvalid : v.isValidChar
    · rw [if_pos hvalid]
      dsimp only
      by_cases hsmall : v < 0x800
      · rw [if_pos ((length_utf8_le_two hvalid).2 hsmall), if_pos ⟨by omega, hsmall⟩]
        simp [wcsrtombs, Json.codePoint]
      · rw [if_neg (fun hle => hsmall ((length_utf8_le_two hvalid).1 hle)), if_neg (by omega)]
        rfl
    · rw [if_neg hvalid, if_neg (fun hsmall => hvalid (.inl (by omega)))]
      rfl

theorem wcsrtombs_ne_zero {ws : List Nat} {len : Nat} {u : Str} (h : wcsrtombs ws len = some u) :
    ∀ x ∈ u, x ≠ 0 := by
  induction ws generalizing len u with
  | nil =>
    cases h
    exact fun x hx => nomatch hx
  | cons w ws ih =>
    rw [wcsrtombs] at h
    split_ifs at h with h0 hvalid
    · cases h
      exact fun x hx => nomatch hx
    · dsimp only at h
      split_ifs at h with hle
      · obtain ⟨u', hu', rfl⟩ := Option.map_eq_some_iff.1 h
        have hval : (Char.ofNat w).toNat = w := by
          rw [Char.ofNat, dif_pos hvalid]
          rfl
        intro x hx
        obtain hx | hx := List.mem_append.1 hx
        · obtain ⟨hlt, henc⟩ | ⟨-, hhigh⟩ := Json.utf8EncodeChar_cases (Char.ofNat w)
          · rw [henc, hval] at hx
            obtain rfl := List.mem_singleton.1 hx
            intro hzero
            have hw : (UInt8.ofNat w).toNat = w := UInt8.toNat_ofNat_of_lt' (show w < 2 ^ 8 by omega)
            rw [hzero] at hw
            exact h0 hw.symm
          · rintro rfl
            exact absurd (hhigh 0 hx) (by decide)
        · exact ih hu' x hx
      · cases h
        exact fun x hx => nomatch hx

end Unicode

section Exact

/-- What has been read is no longer than what was meant, and is the same if and only if `K`. -/
structure Renders (r : Option Str) (s : Str) (K : Prop) : Prop where
  le : ∀ o, r = some o → o.length ≤ s.length
  iff : r = some s ↔ K

variable {r : Option Str} {s p f : Str} {K L : Prop}

theorem Renders.same (h : Renders r s K) (p : Str) : Renders (r.map (p ++ ·)) (p ++ s) K where
  le o ho := by
    obtain ⟨o', ho', rfl⟩ := Option.map_eq_some_iff.1 ho
    have hle := h.le o' ho'
    rw [List.length_append, List.length_append]
    omega
  iff := by
    rw [← h.iff, Option.map_eq_some_iff]
    exact ⟨fun ⟨o, ho, heq⟩ => List.append_cancel_left heq ▸ ho, fun h => ⟨s, h, rfl⟩⟩

theorem Renders.lost (h : Renders r s K) (hlt : p.length < f.length) (hL : ¬L) :
    Renders (r.map (p ++ ·)) (f ++ s) L := by
  have hlen (o : Str) (ho : r.map (p ++ ·) = some o) : o.length < (f ++ s).length := by
    obtain ⟨o', ho', rfl⟩ := Option.map_eq_some_iff.1 ho
    have hle := h.le o' ho'
    rw [List.length_append, List.length_append]
    omega
  exact ⟨fun o ho => Nat.le_of_lt (hlen o ho), fun ho => absurd (hlen _ ho) (Nat.lt_irrefl _),
    fun h => absurd h hL⟩

theorem Renders.escape {e : Option UInt8} {c : UInt8} (h : Renders r s K)
    (he : e = some c ∧ (L ↔ K) ∨ e ≠ some c ∧ ¬L) :
    Renders (e.bind fun c => r.map (c :: ·)) (c :: s) L where
  le o ho := by
    obtain ⟨c', -, ho⟩ := Option.bind_eq_some_iff.1 ho
    exact (h.same [c']).le o ho
  iff := by
    obtain ⟨rfl, hLK⟩ | ⟨hne, hL⟩ := he
    · rw [hLK]
      exact (h.same [c]).iff
    · refine ⟨fun ho => ?_, fun h => absurd h hL⟩
      obtain ⟨c', hc', ho⟩ := Option.bind_eq_some_iff.1 ho
      obtain ⟨o', -, heq⟩ := Option.map_eq_some_iff.1 ho
      cases heq
      exact absurd hc' hne

variable {strict : Bool} {q : UInt8} {t : Str}

theorem Body.renders (hq : q = 34 ∨ q = 39) (h : Body q t s) :
    Renders (scanned strict q t) s (Kept strict q t) := by
  have hq92 : q ≠ 92 := by
    rcases hq with rfl | rfl <;> decide
  induction h with
  | close =>
    rw [scanned_close]
    exact ⟨fun o ho => by cases ho; exact Nat.le_refl _, by simp [kept_raw hq92, Kept]⟩
  | raw _ hbq hb92 _ ih =>
    rw [scanned_raw hbq hb92, kept_raw hb92]
    exact ih.same [_]
  | escape hc _ ih =>
    obtain ⟨h117, hcases⟩ := escaped_cases strict hq hc
    rw [scanned_escape h117, kept_escape h117]
    refine ih.escape ?_
    obtain ⟨hout, hkept⟩ | ⟨hout, hkept⟩ := hcases
    · exact .inl ⟨hout, by rw [and_iff_right hkept.1, and_iff_right hkept.2]⟩
    · exact .inr ⟨hout, fun h => hkept ⟨h.1, h.2.1⟩⟩
  | @hex a b c d v t s hv hsur _ ih =>
    rw [scanned, unicodeToUtf8_hex4 hv, Kept]
    by_cases hsmall : 0 < v ∧ v < 0x800
    · rw [if_pos hsmall]
      have hiff : (∃ v, Json.hex4 a b c d = some v ∧ 0 < v ∧ v < 0x800) ∧ Kept strict q t ↔
          Kept strict q t := and_iff_right ⟨v, hv, hsmall⟩
      rw [hiff]
      exact ih.same _
    · rw [if_neg hsmall]
      refine ih.lost (List.length_pos_iff.2 String.utf8EncodeChar_ne_nil) ?_
      rintro ⟨⟨w, hw, hsmall'⟩, -⟩
      cases hv.symm.trans hw
      exact hsmall hsmall'
  | @pair a b c d a' b' c' d' v w t s hv hhi hw hlo _ ih =>
    rw [scanned, unicodeToUtf8_hex4 hv, scanned, unicodeToUtf8_hex4 hw, if_neg (by omega),
      if_neg (by omega), Kept, Option.map_map]
    refine ih.lost (p := []) (List.length_pos_iff.2 String.utf8EncodeChar_ne_nil) ?_
    rintro ⟨⟨u, hu, -, hsmall⟩, -⟩
    cases hv.symm.trans hu
    omega

end Exact

section Lexemes

variable {cfg : Config} {q m b c : UInt8} {t s buf : Str}

def inString (q : UInt8) (buf : Str) : Scanner where
  cond := if q = 39 then .jsonSqStr else .jsonStr
  stack := [.json, .initial]
  jsonBuf := buf

theorem rulesEscapes_eq : rulesEscapes cfg =
    [rule (.chr 10) fun _ s => jsonStrAddch s 10,
      rule (.str [92, 92]) fun _ s => jsonStrAddch s 92,
      rule (.str [92, 110]) fun _ s => jsonStrAddch s 10,
      rule (.str [92, 114]) fun _ s => jsonStrAddch s 13,
      rule (.str [92, 116]) fun _ s => jsonStrAddch s 9,
      rule (.seq (.chr 92) (.seq (.chr 117) (.rep (.cls isHex) 4)))
        fun t s => jsonStrAddUnicode (t.drop 2) s,
      rule (.str [92, 98]) fun _ s => jsonStrAddch s 8,
      rule (.str [92, 47]) fun _ s => jsonStrAddch s 47,
      rule (.seq (.chr 92) dot) (jsonOtherEscape cfg)] := rfl

theorem rules_inString (hq : q = 34 ∨ q = 39) :
    rules cfg (inString q buf).cond = rulesQuoted q ++ rulesEscapes cfg := by
  rcases hq with rfl | rfl <;> rfl

theorem lex_plain {M : Type} {D : Delims M} {x : Lexer M} {f : Str → Scanner → Result}
    {text rest : Str} (hin : x.input ≠ [])
    (hnext : next cfg x.scanner.cond x.input = (.plain f, text, rest)) :
    lex cfg D x = match f text x.scanner with
      | .ok (tok, s) => some (.plain text tok, { scanner := s, delims := x.delims, input := rest })
      | .error _ => none := by
  rw [lex, if_neg hin]
  generalize next cfg x.scanner.cond x.input = r at hnext ⊢
  subst hnext
  rfl

theorem pick_chr {x y : UInt8} {f : Str → Scanner → Result} {rs : List (Rule Act)} (h : y ≠ x) :
    pick (rule (.chr x) f :: rs) (y :: t) = pick rs (y :: t) :=
  pick_none (by simp [rule, Pat.chr, h])

theorem addch_eq {x : UInt8} (hx : x ≠ 0) (s : Scanner) : (jsonStrAddch s x).toOption =
    some (none, { s with jsonBuf := s.jsonBuf ++ [x] }) := by
  rw [jsonStrAddch, jsonStrAddstr, cstr_of_ne_zero (List.forall_mem_singleton.2 hx)]
  rfl

theorem pick_rulesEscapes (hb117 : b ≠ 117) (hb10 : b ≠ 10) :
    pick (rulesEscapes cfg) (92 :: b :: t) = some
      (if b = 92 then rule (.str [92, 92]) fun _ s => jsonStrAddch s 92
      else if b = 110 then rule (.str [92, 110]) fun _ s => jsonStrAddch s 10
      else if b = 114 then rule (.str [92, 114]) fun _ s => jsonStrAddch s 13
      else if b = 116 then rule (.str [92, 116]) fun _ s => jsonStrAddch s 9
      else if b = 98 then rule (.str [92, 98]) fun _ s => jsonStrAddch s 8
      else if b = 47 then rule (.str [92, 47]) fun _ s => jsonStrAddch s 47
      else rule (.seq (.chr 92) dot) (jsonOtherEscape cfg), 2) := by
  have hother : pick [rule (.seq (.chr 92) dot) (jsonOtherEscape cfg)] (92 :: b :: t) =
      some (rule (.seq (.chr 92) dot) (jsonOtherEscape cfg), 2) := by
    simp [pick, rule, Pat.chr, dot, Pat.noneOf, hb10]
  have hunicode {rs : List (Rule Act)} :
      pick (rule (.seq (.chr 92) (.seq (.chr 117) (.rep (.cls isHex) 4)))
        (fun t s => jsonStrAddUnicode (t.drop 2) s) :: rs) (92 :: b :: t) =
          pick rs (92 :: b :: t) :=
    pick_none (by simp [rule, Pat.chr, hb117])
  -- From the last rule to the first, none has a match of more than two bytes.
  obtain ⟨hlow, hle⟩ := pick_pairs
    [(98, .plain fun _ s => jsonStrAddch s 8), (47, .plain fun _ s => jsonStrAddch s 47)]
    (pick_le hother)
  rw [← hunicode] at hle
  obtain ⟨hhigh, -⟩ := pick_pairs
    [(92, .plain fun _ s => jsonStrAddch s 92), (110, .plain fun _ s => jsonStrAddch s 10),
      (114, .plain fun _ s => jsonStrAddch s 13), (116, .plain fun _ s => jsonStrAddch s 9)] hle
  rw [hunicode, hlow, hother] at hhigh
  rw [rulesEscapes_eq]
  refine (pick_chr (by decide)).trans (hhigh.trans ?_)
  simp only [or_find_cons, List.find?_nil]
  split_ifs <;> rfl

variable (hq : q = 34 ∨ q = 39)
include hq

theorem lex_close : lex cfg yyP3StrChar ⟨inString q buf, m, q :: t⟩ =
    some (.plain [q] (some (.p3String (some buf))),
      ⟨{ cond := .json, stack := [.initial] }, m, t⟩) := by
  rw [lex, if_neg (List.cons_ne_nil _ _), next, rules_inString hq]
  rcases hq with rfl | rfl
  all_goals
    simp [rulesQuoted, rulesEscapes_eq, pick, rule, Pat.chr, Pat.str, Pat.plus, Pat.noneOf,
      jsonStrEnd, Scanner.popTok, Scanner.pop, inString, Except.map]

theorem pick_escape (hb117 : b ≠ 117) (hb10 : b ≠ 10) :
    pick (rulesQuoted q ++ rulesEscapes cfg) (92 :: b :: t) = some
      (if b = q then rule (.str [92, q]) fun _ s => jsonStrAddch s 34
      else if b = 92 then rule (.str [92, 92]) fun _ s => jsonStrAddch s 92
      else if b = 110 then rule (.str [92, 110]) fun _ s => jsonStrAddch s 10
      else if b = 114 then rule (.str [92, 114]) fun _ s => jsonStrAddch s 13
      else if b = 116 then rule (.str [92, 116]) fun _ s => jsonStrAddch s 9
      else if b = 98 then rule (.str [92, 98]) fun _ s => jsonStrAddch s 8
      else if b = 47 then rule (.str [92, 47]) fun _ s => jsonStrAddch s 47
      else rule (.seq (.chr 92) dot) (jsonOtherEscape cfg), 2) := by
  have hq92 : (92 : UInt8) ≠ q := by
    rcases hq with rfl | rfl <;> decide
  have hraw : pick (rule (.plus (.noneOf [92, 10, q])) jsonStrAddstr :: rulesEscapes cfg)
      (92 :: b :: t) = pick (rulesEscapes cfg) (92 :: b :: t) :=
    pick_none (by simp [rule, Pat.plus, Pat.noneOf])
  rw [pick_rulesEscapes hb117 hb10] at hraw
  obtain ⟨hquote, -⟩ := pick_pairs [(q, .plain fun _ s => jsonStrAddch s 34)] (pick_le hraw)
  rw [hraw] at hquote
  refine (pick_chr hq92).trans (hquote.trans ?_)
  rw [or_find_cons, List.find?_nil]
  split_ifs <;> rfl

theorem next_escape (h : escaped q b = some c) : ∃ f,
    next cfg (inString q buf).cond (92 :: b :: t) = (.plain f, [92, b], t) ∧
      ∀ s : Scanner, (f [92, b] s).toOption = (escapeOut cfg.strictEscaping q b).map fun c =>
        (none, { s with jsonBuf := s.jsonBuf ++ [c] }) := by
  obtain ⟨h117, h10, h0⟩ := escaped_ne hq h
  rw [next, rules_inString hq, pick_escape hq h117 h10]
  dsimp only
  unfold escapeOut
  split_ifs with h1 h2 h3 h4 h5 h6 h7 hstrict
  · exact ⟨_, rfl, addch_eq (by decide)⟩
  · exact ⟨_, rfl, addch_eq (by decide)⟩
  · exact ⟨_, rfl, addch_eq (by decide)⟩
  · exact ⟨_, rfl, addch_eq (by decide)⟩
  · exact ⟨_, rfl, addch_eq (by decide)⟩
  · exact ⟨_, rfl, addch_eq (by decide)⟩
  · exact ⟨_, rfl, addch_eq (by decide)⟩
  · refine ⟨_, rfl, fun s => ?_⟩
    rw [jsonOtherEscape, if_pos hstrict]
    rfl
  · refine ⟨_, rfl, fun s => ?_⟩
    rw [jsonOtherEscape, if_neg hstrict]
    exact addch_eq h0 s

theorem lex_escape (h : escaped q b = some c) :
    lex cfg yyP3StrChar ⟨inString q buf, m, 92 :: b :: t⟩ =
      (escapeOut cfg.strictEscaping q b).map fun c =>
        (.plain [92, b] none, ⟨inString q (buf ++ [c]), m, t⟩) := by
  obtain ⟨f, hnext, hf⟩ := next_escape hq h
  rw [lex_plain (List.cons_ne_nil _ _) hnext]
  have hf := hf (inString q buf)
  cases hr : f [92, b] (inString q buf) with
  | error e =>
    rw [hr] at hf
    rw [Option.map_eq_none_iff.1 hf.symm]
    rfl
  | ok r =>
    rw [hr] at hf
    obtain ⟨c, hc, rfl⟩ := Option.map_eq_some_iff.1 hf.symm
    rw [hc]
    rfl

theorem next_raw {run : Str} (hrun : ∀ b ∈ c :: run, b ≠ 92 ∧ b ≠ 10 ∧ b ≠ q)
    (ht : t.head? = some q ∨ t.head? = some 92) :
    next cfg (inString q buf).cond (c :: (run ++ t)) = (.plain jsonStrAddstr, c :: run, t) := by
  obtain ⟨hc92, hc10, hcq⟩ := hrun c List.mem_cons_self
  have hstop : t.takeWhile (fun b => !decide (b = 92) && (!decide (b = 10) && !decide (b = q))) =
      [] := by
    cases t with
    | nil => rfl
    | cons b t =>
      refine List.takeWhile_cons_of_neg ?_
      obtain hb | hb := ht
      · cases hb
        simp
      · cases hb
        simp
  have htake : (run ++ t).takeWhile
      (fun b => !decide (b = 92) && (!decide (b = 10) && !decide (b = q))) = run := by
    rw [List.takeWhile_append_of_pos, hstop, List.append_nil]
    intro b hb
    obtain ⟨h92, h10, hbq⟩ := hrun b (List.mem_cons_of_mem _ hb)
    simp [h92, h10, hbq]
  rw [next, rules_inString hq]
  simp [rulesQuoted, rulesEscapes_eq, pick, rule, Pat.chr, Pat.str, Pat.plus, Pat.noneOf, dot,
    Pat.rep, hc92, hc10, hcq, htake]

theorem lex_raw {run : Str} (hrun : ∀ b ∈ c :: run, 32 ≤ b ∧ b ≠ q ∧ b ≠ 92)
    (ht : t.head? = some q ∨ t.head? = some 92) :
    lex cfg yyP3StrChar ⟨inString q buf, m, c :: (run ++ t)⟩ =
      some (.plain (c :: run) none, ⟨inString q (buf ++ c :: run), m, t⟩) := by
  have hlow (b : UInt8) (hb : b ∈ c :: run) (x : UInt8) (hx : x < 32) : b ≠ x := by
    rintro rfl
    exact absurd (hrun b hb).1 (UInt8.not_le.2 hx)
  have hcstr : cstr (c :: run) = c :: run :=
    cstr_of_ne_zero fun b hb => hlow b hb 0 (by decide)
  rw [lex_plain (List.cons_ne_nil _ _) (next_raw hq (fun b hb =>
    ⟨(hrun b hb).2.2, hlow b hb 10 (by decide), (hrun b hb).2.1⟩) ht)]
  simp only [jsonStrAddstr, hcstr, Scanner.skip, inString]

theorem next_unicode {a b c d : UInt8} (ha : isHex a) (hb : isHex b) (hc : isHex c)
    (hd : isHex d) : next cfg (inString q buf).cond (92 :: 117 :: a :: b :: c :: d :: t) =
      (.plain fun t s => jsonStrAddUnicode (t.drop 2) s, [92, 117, a, b, c, d], t) := by
  rw [next, rules_inString hq]
  rcases hq with rfl | rfl
  all_goals
    simp [rulesQuoted, rulesEscapes_eq, pick, rule, Pat.chr, Pat.str, Pat.plus, Pat.noneOf, dot,
      Pat.rep, ha, hb, hc, hd]

theorem lex_unicode {a b c d : UInt8} {v : Nat} (h : Json.hex4 a b c d = some v) :
    lex cfg yyP3StrChar ⟨inString q buf, m, 92 :: 117 :: a :: b :: c :: d :: t⟩ =
      some (.plain [92, 117, a, b, c, d] none,
        ⟨inString q (buf ++ (unicodeToUtf8 [a, b, c, d]).getD []), m, t⟩) := by
  obtain ⟨-, -, ha, hb, hc, hd⟩ := hex4_some h
  rw [lex_plain (List.cons_ne_nil _ _) (next_unicode hq ha hb hc hd)]
  dsimp only [jsonStrAddUnicode, List.drop_succ_cons, List.drop_zero]
  cases hu : unicodeToUtf8 [a, b, c, d] with
  | none => simp [hu, inString, Scanner.skip]
  | some u =>
    have hcstr : cstr u = u := cstr_of_ne_zero (wcsrtombs_ne_zero hu)
    simp [hu, inString, Scanner.skip, jsonStrAddstr, hcstr]

theorem next_open : next cfg .json (q :: t) =
    (.plain fun _ s => jsonStrBegin s (if q = 39 then .jsonSqStr else .jsonStr), [q], t) := by
  rw [next, rules, rulesJSON]
  rcases hq with rfl | rfl
  all_goals
    repeat rw [pick_skip rfl rfl]
    simp [pick, rule, Pat.chr, dot, Pat.noneOf]

end Lexemes

section Runs

/-- The same with each `\u` escape on its own. -/
inductive Shape (q : UInt8) : Str → Prop
  | close : Shape q [q]
  | raw {b : UInt8} {t : Str} : 32 ≤ b → b ≠ q → b ≠ 92 → Shape q t → Shape q (b :: t)
  | escape {b c : UInt8} {t : Str} : escaped q b = some c → Shape q t → Shape q (92 :: b :: t)
  | hex {a b c d : UInt8} {v : Nat} {t : Str} :
      Json.hex4 a b c d = some v → Shape q t → Shape q (92 :: 117 :: a :: b :: c :: d :: t)

variable {cfg : Config} {q m : UInt8} {t s buf : Str} {n : Nat}

theorem Body.shape (h : Body q t s) : Shape q t := by
  induction h with
  | close => exact .close
  | raw hb hbq hb92 _ ih => exact .raw hb hbq hb92 ih
  | escape hc _ ih => exact .escape hc ih
  | hex hv _ _ ih => exact .hex hv ih
  | pair hv _ hw _ _ ih => exact .hex hv (.hex hw ih)

theorem Shape.run (h : Shape q t) : ∃ run rest, t = run ++ rest ∧
    (∀ b ∈ run, 32 ≤ b ∧ b ≠ q ∧ b ≠ 92) ∧ Shape q rest ∧
    (rest.head? = some q ∨ rest.head? = some 92) := by
  induction h with
  | close => exact ⟨[], _, rfl, by simp, .close, .inl rfl⟩
  | @raw b t hb hbq hb92 _ ih =>
    obtain ⟨run, rest, rfl, hrun, hrest, hhead⟩ := ih
    exact ⟨b :: run, rest, rfl, List.forall_mem_cons.2 ⟨⟨hb, hbq, hb92⟩, hrun⟩, hrest, hhead⟩
  | escape hc hshape => exact ⟨[], _, rfl, by simp, .escape hc hshape, .inr rfl⟩
  | hex hv hshape => exact ⟨[], _, rfl, by simp, .hex hv hshape, .inr rfl⟩

theorem scanned_run {strict : Bool} {run : Str} (h : ∀ b ∈ run, 32 ≤ b ∧ b ≠ q ∧ b ≠ 92) :
    scanned strict q (run ++ t) = (scanned strict q t).map (run ++ ·) := by
  induction run with
  | nil =>
    rw [List.nil_append]
    cases scanned strict q t <;> rfl
  | cons b run ih =>
    obtain ⟨⟨-, hbq, hb92⟩, hrun⟩ := List.forall_mem_cons.1 h
    rw [List.cons_append, scanned_raw hbq hb92, ih hrun, Option.map_map]
    rfl

theorem tokens_step {x : Lexer UInt8} {l : Lexeme} {p : Str} (hin : x.input ≠ [])
    (hlex : lex cfg yyP3StrChar x = some (l, ⟨inString q (buf ++ p), m, t⟩)) (hl : l.tok = none)
    {r : Option Str} (ht : tokens cfg n ⟨inString q (buf ++ p), m, t⟩ =
      r.map fun o => [.p3String (some (buf ++ p ++ o))]) :
    tokens cfg (n + 1) x = (r.map (p ++ ·)).map fun o => [.p3String (some (buf ++ o))] := by
  rw [tokens, if_neg hin, hlex]
  dsimp only
  rw [ht, hl, Option.map_map, Option.map_map]
  refine congrArg (r.map ·) (funext fun o => ?_)
  simp

theorem Shape.tokens (hq : q = 34 ∨ q = 39) (hn : t.length < n) (h : Shape q t) :
    tokens cfg n ⟨inString q buf, m, t⟩ =
      (scanned cfg.strictEscaping q t).map fun o => [.p3String (some (buf ++ o))] := by
  induction n generalizing t buf with
  | zero => omega
  | succ n ih =>
    obtain ⟨run, rest, rfl, hrun, hrest, hhead⟩ := h.run
    cases run with
    | cons b run =>
      rw [scanned_run hrun]
      refine tokens_step (List.cons_ne_nil _ _) (lex_raw hq hrun hhead) rfl (ih ?_ hrest)
      rw [List.length_append, List.length_cons] at hn
      omega
    | nil =>
      rw [List.nil_append] at hn ⊢
      cases hrest with
      | close =>
        obtain ⟨k, rfl⟩ : ∃ k, n = k + 1 := ⟨n - 1, by rw [List.length_singleton] at hn; omega⟩
        rw [Scan.tokens, if_neg (List.cons_ne_nil _ _), lex_close hq, scanned_close]
        dsimp only
        rw [Scan.tokens, if_pos rfl]
        simp [Scanner.endsWell, Lexeme.tok]
      | raw _ hbq hb92 _ =>
        obtain hb | hb := hhead
        · exact absurd (Option.some.inj hb) hbq
        · exact absurd (Option.some.inj hb) hb92
      | @escape b _ t hc ht =>
        rw [List.length_cons, List.length_cons] at hn
        rw [scanned_escape (escaped_cases true hq hc).1]
        cases hout : escapeOut cfg.strictEscaping q b with
        | none =>
          rw [Scan.tokens, if_neg (List.cons_ne_nil _ _), lex_escape hq hc, hout]
          rfl
        | some c =>
          have hlex : lex cfg yyP3StrChar ⟨inString q buf, m, 92 :: b :: t⟩ =
              some (.plain [92, b] none, ⟨inString q (buf ++ [c]), m, t⟩) := by
            rw [lex_escape hq hc, hout]
            rfl
          exact tokens_step (List.cons_ne_nil _ _) hlex rfl (ih (by omega) ht)
      | hex hv ht =>
        simp only [List.length_cons] at hn
        rw [scanned]
        exact tokens_step (List.cons_ne_nil _ _) (lex_unicode hq hv) rfl (ih (by omega) ht)

theorem jsonParse_eq (hq : q = 34 ∨ q = 39) (h : Body q t s) :
    jsonParse cfg (q :: t) = scanned cfg.strictEscaping q t := by
  have hlex : lex cfg yyP3StrChar ⟨Scanner.push {} .json, 0, q :: t⟩ =
      some (.plain [q] none, ⟨inString q [], 0, t⟩) := by
    rw [lex_plain (List.cons_ne_nil _ _) (next_open hq)]
    rfl
  have htokens : tokens cfg ((q :: t).length + 1) ⟨Scanner.push {} .json, 0, q :: t⟩ =
      (scanned cfg.strictEscaping q t).map fun o => [.p3String (some o)] := by
    rw [tokens, if_neg (List.cons_ne_nil _ _), hlex]
    dsimp only
    rw [List.length_cons, h.shape.tokens hq (Nat.lt_succ_self _), Option.map_map]
    rfl
  rw [jsonParse, htokens]
  cases scanned cfg.strictEscaping q t <;> rfl

end Runs

/-- A literal is read for what it stands for exactly if it has no `\f`, no `\'` and, where
escapes are checked, no `\"` in single quotation marks, and of the `\u` escapes only those of
characters from U+0001 to U+07FF. -/
theorem jsonParse_exact_iff (cfg : Config) {q : UInt8} {text s : Str} (h : StrLiteral q text s) :
    jsonParse cfg text = some s ↔ Kept cfg.strictEscaping q (text.drop 1) := by
  cases h with
  | double h =>
    rw [jsonParse_eq (.inl rfl) h]
    exact (h.renders (.inl rfl)).iff
  | single h =>
    rw [jsonParse_eq (.inr rfl) h]
    exact (h.renders (.inr rfl)).iff

/-- `"\n\u00e9"`. -/
theorem jsonParse_exact_iff_accent :
    jsonParse {} (ascii "\"\\n\\u00e9\"".toList) = some [10, 195, 169] ↔
      Kept true 34 ((ascii "\"\\n\\u00e9\"".toList).drop 1) :=
  jsonParse_exact_iff {} (.double (.escape rfl (.hex (v := 0xe9) rfl (by decide) .close)))

/-- The euro sign in `"\u20ac"` is lost. -/
theorem not_exact_euro : ¬∀ cfg q text s, StrLiteral q text s → jsonParse cfg text = some s := by
  intro h
  have heuro : StrLiteral 34 (ascii "\"\\u20ac\"".toList) [226, 130, 172] :=
    .double (.hex (v := 0x20ac) rfl (by decide) .close)
  have hparse : jsonParse {} (ascii "\"\\u20ac\"".toList) = some [] := rfl
  cases hparse.symm.trans (h _ _ _ _ heuro)

end Okws.Scan
