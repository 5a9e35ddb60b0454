import Mathlib.Tactic.FinCases
import Okws.CgiFrag

/-! `cgi_encode`, and reading back with `cgi_t` what it has written. -/

namespace Okws

open Lib

/-- A character `REGCHARTAB` lets through. -/
def regChar (c : UInt8) : Bool :=
  c == 45 || c == 46 || (48 ≤ c && c ≤ 57) || (65 ≤ c && c ≤ 90) || c == 95 || (97 ≤ c && c ≤ 122)

def hexDigit (n : Nat) : UInt8 := if n < 10 then UInt8.ofNat (48 + n) else UInt8.ofNat (87 + n)

/-- `sprintf (op, "%%%02x", c)`. -/
def hexEscape (c : UInt8) : Str := [37, hexDigit (c.toNat / 16), hexDigit (c.toNat % 16)]

def cgiEncodeChar (e : Bool) (c : UInt8) : Str :=
  if e then
    if regChar c then [c] else if c = Byte.sp then [43] else hexEscape c
  else if c = 59 then hexEscape c
  else [c]

def cgiEncode (e : Bool) (s : Str) : Str := s.flatMap (cgiEncodeChar e)

/-- `cgi_pair_t::encode`, with the output so far and `e->first`. -/
def Pair.encode (sep : Str) (st : Str × Bool) (p : Pair) : Str × Bool :=
  if p.hasdata then
    let c := cgiEncode p.encflag p.key
    let item v := c ++ 61 :: cgiEncode p.encflag v
    (st.1 ++ (if st.2 then [] else sep) ++ sep.intercalate (p.vals.map item), false)
  else st

/-- A word that can still take `n` bytes, when the buffer grows as far as it can. -/
structure Word.Open (cfg : CgiConfig) (L n : Nat) (w : Word) : Prop where
  inhex : w.inhex = false
  hex : w.hex = {}
  full : w.full = false
  cap : 0 < w.cap
  limit : max w.cap cfg.limit = L
  fits : w.text.length + n < L

section

variable {cfg : CgiConfig} {L n : Nat} {w : Word}

theorem Word.Open.room (h : w.Open cfg L (n + 1)) (c : UInt8) :
    (cfg.room { w with text := w.text ++ [c] }).Open cfg L n ∧
      (cfg.room { w with text := w.text ++ [c] }).text = w.text ++ [c] := by
  obtain ⟨hi, hx, hf, hc, hL, hfits⟩ := h
  simp only [Word.full, decide_eq_false_iff_not] at hf
  refine ⟨?_, by simp⟩
  unfold CgiConfig.room CgiConfig.extendScratch
  simp only [List.length_append, List.length_cons, List.length_nil]
  split
  · split
    · refine ⟨hi, hx, ?_, ?_, ?_, ?_⟩
      · simp only [Word.full, List.length_append, List.length_cons, List.length_nil,
          decide_eq_false_iff_not]
        omega
      · simp only; omega
      · simp only; omega
      · simp only [List.length_append, List.length_cons, List.length_nil]; omega
    · omega
  · refine ⟨hi, hx, ?_, hc, hL, ?_⟩
    · simp only [Word.full, List.length_append, List.length_cons, List.length_nil,
        decide_eq_false_iff_not]
      omega
    · simp only [List.length_append, List.length_cons, List.length_nil]; omega

end

theorem charToHex_hexDigit : ∀ n < 16, charToHex (hexDigit n) = some n := by decide

theorem keyOrValByte_put {cfg : CgiConfig} {vt : CgiVar} {w : Word} {c : UInt8}
    (h : ∀ x ∈ [38, 61, 59, Byte.cr, Byte.lf, 37, 43], c ≠ x) :
    keyOrValByte cfg vt false w c = .next (cfg.put c w) := by
  simp only [List.mem_cons, List.not_mem_nil, or_false, forall_eq_or_imp, forall_eq] at h
  simp [keyOrValByte, h]

theorem regChar_plain {c : UInt8} (h : regChar c = true) :
    ∀ x ∈ [38, 61, 59, Byte.cr, Byte.lf, 37, 43], c ≠ x := by
  intro x hx hc
  subst hc
  revert h
  fin_cases hx <;> decide

section Scan

variable {cfg : CgiConfig} {vt : CgiVar} {L n : Nat} {w : Word} {t : Tape} {B : Str}

theorem scan_put {b c : UInt8} (hw : w.Open cfg L (n + 1)) (ht : t.Reads (b :: B))
    (hb : keyOrValByte cfg vt false w b = .next (cfg.put c w)) :
    ∃ w' t', w'.Open cfg L n ∧ w'.text = w.text ++ [c] ∧ t'.Reads B ∧
      scan Tape.device (keyOrValScanner cfg vt false) w t =
        scan Tape.device (keyOrValScanner cfg vt false) w' t' := by
  obtain ⟨hopen, htext⟩ := hw.room c
  obtain ⟨t', ht', hs⟩ := ht.scan_next (guard_of_not_full hw.full)
    ((byte_of_not_inhex hw.inhex b).trans hb)
  exact ⟨_, t', hopen, htext, ht', hs⟩

theorem scan_hexEscape {c : UInt8} (hw : w.Open cfg L (n + 1)) (ht : t.Reads (hexEscape c ++ B)) :
    ∃ w' t', w'.Open cfg L n ∧ w'.text = w.text ++ [c] ∧ t'.Reads B ∧
      scan Tape.device (keyOrValScanner cfg vt false) w t =
        scan Tape.device (keyOrValScanner cfg vt false) w' t' := by
  have hc := c.toNat_lt
  have hi := charToHex_hexDigit (c.toNat / 16) (by omega)
  have lo := charToHex_hexDigit (c.toNat % 16) (by omega)
  have hback : UInt8.ofNat (c.toNat / 16 * 16 + c.toNat % 16) = c := by
    rw [Nat.div_add_mod', UInt8.ofNat_toNat]
  obtain ⟨hopen, htext⟩ := hw.room c
  have step₁ : (keyOrValScanner cfg vt false).byte w 37 = .next { w with inhex := true } := by
    rw [byte_of_not_inhex hw.inhex]
    simp [keyOrValByte, Byte.cr, Byte.lf]
  have step₂ : (keyOrValScanner cfg vt false).byte { w with inhex := true }
      (hexDigit (c.toNat / 16)) =
      .next { w with inhex := true, hex := ⟨1, c.toNat / 16, hexDigit (c.toNat / 16)⟩ } := by
    simp [keyOrValScanner, hexScanner, Hex.digit, hi, hw.hex]
  have step₃ : (keyOrValScanner cfg vt false).byte
      { w with inhex := true, hex := ⟨1, c.toNat / 16, hexDigit (c.toNat / 16)⟩ }
      (hexDigit (c.toNat % 16)) = .next (cfg.room { w with text := w.text ++ [c] }) := by
    simp [keyOrValScanner, hexScanner, Hex.digit, lo, Word.endHex, Hex.text, hback, hw.hex,
      hw.inhex]
  obtain ⟨t₁, ht₁, h₁⟩ := ht.scan_next (guard_of_not_full hw.full) step₁
  obtain ⟨t₂, ht₂, h₂⟩ := ht₁.scan_next (guard_of_inhex rfl) step₂
  obtain ⟨t₃, ht₃, h₃⟩ := ht₂.scan_next (guard_of_inhex rfl) step₃
  exact ⟨_, t₃, hopen, htext, ht₃, h₁.trans (h₂.trans h₃)⟩

variable (vt) in
theorem scan_encodeChar {c : UInt8} (hw : w.Open cfg L (n + 1))
    (ht : t.Reads (cgiEncodeChar true c ++ B)) :
    ∃ w' t', w'.Open cfg L n ∧ w'.text = w.text ++ [c] ∧ t'.Reads B ∧
      scan Tape.device (keyOrValScanner cfg vt false) w t =
        scan Tape.device (keyOrValScanner cfg vt false) w' t' := by
  simp only [cgiEncodeChar, if_true] at ht
  split at ht
  · next hreg => exact scan_put hw ht (keyOrValByte_put (regChar_plain hreg))
  · split at ht
    · next hsp =>
      subst hsp
      exact scan_put hw ht (by simp [keyOrValByte, Byte.cr, Byte.lf])
    · exact scan_hexEscape hw ht

variable (vt) in
theorem scan_encode {s : Str} (hw : w.Open cfg L (n + s.length))
    (ht : t.Reads (cgiEncode true s ++ B)) :
    ∃ w' t', w'.Open cfg L n ∧ w'.text = w.text ++ s ∧ t'.Reads B ∧
      scan Tape.device (keyOrValScanner cfg vt false) w t =
        scan Tape.device (keyOrValScanner cfg vt false) w' t' := by
  induction s generalizing w t with
  | nil => exact ⟨w, t, hw, by simp, ht, rfl⟩
  | cons c s ih =>
    rw [cgiEncode, List.flatMap_cons, List.append_assoc] at ht
    obtain ⟨w₁, t₁, hw₁, htext₁, ht₁, h₁⟩ :=
      scan_encodeChar vt (n := n + s.length) (by rwa [Nat.add_assoc]) ht
    obtain ⟨w₂, t₂, hw₂, htext₂, ht₂, h₂⟩ := ih hw₁ ht₁
    exact ⟨w₂, t₂, hw₂, by rw [htext₂, htext₁, List.append_assoc]; rfl, ht₂, h₁.trans h₂⟩

end Scan

structure Word.Fresh (cfg : CgiConfig) (L : Nat) (w : Word) : Prop where
  text : w.text = []
  inhex : w.inhex = false
  hex : w.hex = {}
  cap : 0 < w.cap
  limit : max w.cap cfg.limit = L

section Item

variable {cfg : CgiConfig} {vt : CgiVar} {L : Nat} {w : Word} {t : Tape} {B s : Str}

theorem Word.Fresh.full (h : w.Fresh cfg L) : w.full = false := by
  have := h.cap
  simp only [Word.full, h.text, List.length_nil, decide_eq_false_iff_not]
  omega

theorem Word.Fresh.open (h : w.Fresh cfg L) {n : Nat} (hn : n < L) : w.Open cfg L n :=
  ⟨h.inhex, h.hex, h.full, h.cap, h.limit, by simpa [h.text] using hn⟩

theorem Word.Open.fresh {n : Nat} (h : w.Open cfg L n) : { w with text := [] }.Fresh cfg L :=
  ⟨rfl, h.inhex, h.hex, h.cap, h.limit⟩

variable (hfilter : ∀ s, cfg.filter s = s) (hs : s.length < L) (hw : w.Fresh cfg L)

include hfilter hs hw

variable (vt) in
theorem parseKeyOrVal_last (ht : t.Reads (cgiEncode true s)) :
    ∃ w' t', parseKeyOrVal cfg vt false w t = (.eof, some s, w', t') := by
  obtain ⟨w₁, t₁, hw₁, htext, ht₁, hscan⟩ := scan_encode vt (n := 0) (B := [])
    (hw.open (by simpa using hs)) (by simpa using ht)
  obtain ⟨t₂, hdone⟩ := ht₁.scan_eof (S := keyOrValScanner cfg vt false)
    (guard_of_not_full hw₁.full) rfl
  refine ⟨{ w₁ with text := [] }, t₂, ?_⟩
  rw [hw.text, List.nil_append] at htext
  rw [parseKeyOrVal, if_neg (by simp [hw.inhex]), room_of_not_full cfg hw.full, hscan, hdone,
    keyOrValEnd, if_neg (by simp [hw₁.full]), hfilter, htext]

end Item

namespace Cgi

section Steps

variable {cfg : CgiConfig} {L : Nat} {c : Cgi} {k v B : Str} (hfilter : ∀ s, cfg.filter s = s)

include hfilter

end Steps

end Cgi

/-- The pairs of key and value in the order they are written. -/
def items (order : List Pair) : List (Str × Str) :=
  order.flatMap fun p => p.vals.map fun v => (p.key, v)

end Okws
