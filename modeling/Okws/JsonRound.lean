import Okws.JsonEscape
import Okws.JsonScan

namespace Okws.JsonEscape

open Lib Scan

variable {strict : Bool} {s t : Str} {v : Nat}

theorem kept_stdChar (b : UInt8) :
    Kept strict 34 (stdChar b ++ t) ↔ Kept strict 34 t := by
  unfold stdChar
  by_cases hb : isSpecial b
  · rw [if_pos hb]
    have hmem : b ∈ [92, 34, 10, 9, 13] := of_decide_eq_true hb
    have hletter : letter b ≠ 117 ∧ letter b ≠ 102 := by
      simp only [List.mem_cons, List.not_mem_nil, or_false] at hmem
      obtain rfl | rfl | rfl | rfl | rfl := hmem <;> decide
    rw [List.cons_append, List.cons_append, kept_escape hletter.1]
    simp [hletter.2]
  · rw [if_neg hb]
    refine kept_raw ?_
    rintro rfl
    exact hb rfl

theorem kept_stdText (s : Str) : Kept strict 34 (stdText s ++ [34]) := by
  induction s with
  | nil => exact (kept_raw (by decide)).2 trivial
  | cons b s ih =>
    rw [stdText_cons, List.append_assoc, kept_stdChar]
    exact ih

theorem kept_u04x (h : v < 2 ^ 16) :
    Kept strict 34 (Buf.u04x v ++ t) ↔ (0 < v ∧ v < 0x800) ∧ Kept strict 34 t := by
  have hhex := hex4_u04x h
  simp only [Buf.u04x, List.cons_append, List.nil_append]
  rw [Kept, hhex]
  simp

theorem kept_heavyChar (c : Char) : Kept strict 34 (heavyChar c.toNat ++ t) ↔
    (0 < c.toNat ∧ c.toNat < 0x800) ∧ Kept strict 34 t := by
  have hrange := toNat_range c
  have hshort {b : UInt8} (hb : b ≠ 117 ∧ b ≠ 102) {n : Nat} (hn : c.toNat = n)
      (hsmall : 0 < n ∧ n < 0x800) : Kept strict 34 ([92, b] ++ t) ↔
        (0 < c.toNat ∧ c.toNat < 0x800) ∧ Kept strict 34 t := by
    rw [List.cons_append, List.cons_append, kept_escape hb.1, List.nil_append, hn]
    simp [hb.2, hsmall]
  unfold heavyChar
  split_ifs with hbig h10 h9 h13 h92 h34 hu
  · rw [List.append_assoc, kept_u04x (by omega)]
    exact iff_of_false (fun h => by omega) (fun h => by omega)
  · exact hshort (by decide) h10 (by decide)
  · exact hshort (by decide) h9 (by decide)
  · exact hshort (by decide) h13 (by decide)
  · exact hshort (by decide) h92 (by decide)
  · exact hshort (by decide) h34 (by decide)
  · exact kept_u04x (by omega)
  · have hne : UInt8.ofNat c.toNat ≠ 92 := by
      intro he
      have hval := congrArg UInt8.toNat he
      rw [UInt8.toNat_ofNat_of_lt' (Nat.lt_of_le_of_lt (m := 127) (by omega) (by decide))] at hval
      exact h92 hval
    rw [List.cons_append, kept_raw hne, List.nil_append, and_iff_right]
    exact ⟨by omega, by omega⟩

theorem kept_heavy (cs : List Char) :
    Kept strict 34 ((cs.flatMap fun c => heavyChar c.toNat) ++ [34]) ↔
      ∀ c ∈ cs, 0 < c.toNat ∧ c.toNat < 0x800 := by
  induction cs with
  | nil => exact iff_of_true ((kept_raw (by decide)).2 trivial) nofun
  | cons c cs ih => rw [List.flatMap_cons, List.append_assoc, kept_heavyChar, ih,
      List.forall_mem_cons]

theorem jsonParse_denoted (cfg : Config) {text : Str} (h : Json.Denotes text s) :
    jsonParse cfg text = some s ↔ Kept cfg.strictEscaping 34 (text.drop 1) := by
  cases strLiteral_of_denotes h with
  | double h =>
    rw [jsonParse_eq (.inl rfl) h]
    exact (h.renders (.inl rfl)).iff

theorem jsonEscapeStd_clean {cs : List Char} (hclean : Clean (Json.utf8 cs))
    (hlen : (lastRun (Json.utf8 cs)).length < 2 ^ 31) :
    jsonEscapeStd (Json.utf8 cs) true = some (34 :: stdText (Json.utf8 cs) ++ [34]) := by
  obtain ⟨q, hq, hstd⟩ := jsonEscapeStd_eq (Json.utf8 cs)
  rw [cstr_of_clean hclean] at hq hstd
  have hbmod : ((lastRun (Json.utf8 cs)).length : Int).bmod (2 ^ 32) =
      (lastRun (Json.utf8 cs)).length :=
    Int.bmod_eq_of_le (by omega) (by omega)
  rw [hstd, hbmod, if_neg (by omega), Int.toNat_natCast, List.take_length, ← hq]

theorem jsonEscapeHeavy_eq {wide : Str → List Nat} (hwide : Decodes wide) (cs : List Char) :
    jsonEscapeHeavy wide (Json.utf8 cs) true =
      34 :: ((cs.flatMap fun c => heavyChar c.toNat) ++ [34]) := by
  have hfold := foldl_wchar (b := Buf.put { room := 12 * (cs.map Char.toNat).length + 3 } 34) cs
    (by simp only [Buf.put, List.length_map]; omega)
  unfold jsonEscapeHeavy
  rw [hwide]
  exact congrArg (· ++ [34]) hfold

theorem small_of_std {cs : List Char} (h : findNonStdChar (Json.utf8 cs) = false) :
    ∀ c ∈ cs, 0 < c.toNat ∧ c.toNat < 0x800 := by
  intro c hc
  have hbyte (b : UInt8) (hb : b ∈ String.utf8EncodeChar c) : 0x1f < b ∧ b ≤ 0x7f := by
    have hmem : b ∈ Json.utf8 cs := List.mem_flatMap.2 ⟨c, hc, hb⟩
    simpa using List.any_eq_false.1 h b hmem
  obtain ⟨hlt, henc⟩ | ⟨-, hhigh⟩ := Json.utf8EncodeChar_cases c
  · refine ⟨Nat.pos_of_ne_zero fun h0 => ?_, by omega⟩
    rw [henc, h0] at hbyte
    exact absurd (hbyte 0 (List.mem_singleton.2 rfl)).1 (by decide)
  · obtain ⟨b, l, hbl⟩ := List.exists_cons_of_ne_nil (@String.utf8EncodeChar_ne_nil c)
    have hb : b ∈ String.utf8EncodeChar c := hbl ▸ List.mem_cons_self
    exact absurd (hbyte b hb).2 (UInt8.not_le.2 (UInt8.lt_of_lt_of_le (by decide) (hhigh b hb)))

/-- A text is read back as it was if and only if it is written in UTF-8 or has no character from
U+0800 on and no NUL. -/
theorem jsonRoundTrip_iff {wide : Str → List Nat} (hwide : Decodes wide) (cfg : Config)
    (cs : List Char) (utf8 : Bool) (hclean : utf8 = true → Clean (Json.utf8 cs))
    (hlen : (lastRun (Json.utf8 cs)).length < 2 ^ 31) :
    (jsonEscape wide (Json.utf8 cs) true utf8).bind (jsonParse cfg) = some (Json.utf8 cs) ↔
      utf8 = true ∨ ∀ c ∈ cs, 0 < c.toNat ∧ c.toNat < 0x800 := by
  unfold jsonEscape
  by_cases h : utf8 = true ∨ findNonStdChar (Json.utf8 cs) = false
  · have hstd : (!findNonStdChar (Json.utf8 cs) || utf8) = true := by
      obtain h | h := h <;> simp [h]
    have hclean' : Clean (Json.utf8 cs) := h.elim hclean clean_of_std
    have htext := jsonEscapeStd_clean hclean' hlen
    rw [if_pos hstd, htext, Option.bind_some, jsonParse_denoted]
    · exact iff_of_true (kept_stdText _) (h.imp_right small_of_std)
    · exact ⟨quoted_utf8 cs, (body_stdText _ _).2 ⟨rfl, hclean'⟩⟩
  · have hheavy : ¬ (!findNonStdChar (Json.utf8 cs) || utf8) = true := by
      simpa [and_comm] using h
    have hdenotes := heavy_denotes hwide cs
    rw [jsonEscapeHeavy_eq hwide] at hdenotes
    rw [if_neg hheavy, jsonEscapeHeavy_eq hwide, Option.bind_some, jsonParse_denoted _ hdenotes,
      List.drop_one, List.tail_cons, kept_heavy, or_iff_right fun hu => h (.inl hu)]

/-- A tab and the letter `é`, which the scanner reads back from `\t` and `\u00e9`. -/
theorem jsonRoundTrip_iff_accent :
    (jsonEscape wideStr (Json.utf8 [Char.ofNat 9, Char.ofNat 0xe9]) true false).bind
        (jsonParse {}) = some (Json.utf8 [Char.ofNat 9, Char.ofNat 0xe9]) ↔
      false = true ∨ ∀ c ∈ [Char.ofNat 9, Char.ofNat 0xe9], 0 < c.toNat ∧ c.toNat < 0x800 :=
  jsonRoundTrip_iff decodes_wideStr {} _ false nofun (by decide)

end Okws.JsonEscape
