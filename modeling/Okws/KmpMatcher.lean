import Okws.Mpfd
import Okws.Trust
import Mathlib.Data.List.Induction

/-! `kmp_matcher_t`: the table that `preproc` fills, and `match`, fed one character after the
other. -/

namespace Okws

open Lib

structure KmpMatcher where
  ci : Bool
  pattern : Str
  pi : List Nat
  q : Nat

namespace KmpMatcher

/-- `_PP[k]`, up to the NUL at the end of the string. -/
def charAt (P : Str) (k : Nat) : UInt8 := P.getD k 0

/-- `while (k > 0 && _PP[k] != c) k = _pi[k-1]`, for as many rounds as are given. -/
def fall (P : Str) (pi : List Nat) (c : UInt8) : Nat → Nat → Nat
  | 0, k => k
  | n + 1, k => if 0 < k ∧ charAt P k ≠ c then fall P pi c n (pi.getD (k - 1) 0) else k

def move (P : Str) (pi : List Nat) (k : Nat) (c : UInt8) : Nat :=
  let k := fall P pi c k k
  if charAt P k = c then k + 1 else k

/-- The loop of `preproc`, with the number of rounds that are left. -/
def preprocLoop (P : Str) : Nat → Nat → Nat → List Nat → List Nat
  | 0, _, _, pi => pi
  | n + 1, qTmp, k, pi =>
    let k := move P pi k (charAt P qTmp)
    preprocLoop P n (qTmp + 1) k (pi.set qTmp k)

def preproc (P : Str) : List Nat :=
  preprocLoop P (P.length - 1) 1 0 (List.replicate P.length 0)

def make (mem : Nat → UInt8) (s : Str) (ci : Bool) : KmpMatcher :=
  let pattern := if ci then tolowerS mem s else s
  ⟨ci, pattern, preproc pattern, 0⟩

def reset (m : KmpMatcher) : KmpMatcher := { m with q := 0 }

def fold (m : KmpMatcher) (c : UInt8) : UInt8 := if m.ci then Byte.toLower c else c

/-- `match`. -/
def matchChar (m : KmpMatcher) (c : UInt8) : Bool × KmpMatcher :=
  let q := move m.pattern m.pi m.q (m.fold c)
  if q = m.pattern.length then (true, { m with q := m.pi.getD (q - 1) 0 })
  else (false, { m with q := q })

def feed (m : KmpMatcher) (text : Str) : KmpMatcher := text.foldl (fun m c => (m.matchChar c).2) m

variable {P : Str} {pi : List Nat} {c : UInt8} {k : Nat}

theorem charAt_eq_iff (hk : k < P.length) : charAt P k = c ↔ P[k]? = some c := by
  simp [charAt, hk]

theorem fall_eq (hpi : Kmp.Table P pi k) (hk : k < P.length) {n : Nat} :
    fall P pi c n k = Kmp.fall P pi c n k := by
  induction n generalizing k with
  | zero => rfl
  | succ n ih =>
    simp only [fall, Kmp.fall, ne_eq, charAt_eq_iff hk]
    split
    · next h =>
      have hle := (hpi (k - 1) (by omega)).le
      exact ih (fun i hi => hpi i (by omega)) (by omega)
    · rfl

theorem move_eq (hpi : Kmp.Table P pi k) (hk : k < P.length) :
    move P pi k c = Kmp.advance P pi k c := by
  have hle := (Kmp.fall_spec (T := P.take k) (b := 0) (c := c) hpi (Nat.le_refl k)
    (List.suffix_refl _) (by omega)).1
  simp only [move, Kmp.advance, fall_eq hpi hk, charAt_eq_iff (Nat.lt_of_le_of_lt hle hk)]

theorem preprocLoop_spec {n qTmp : Nat} (hn : qTmp + n = P.length) (hq : 0 < qTmp)
    (hlen : pi.length = P.length) (hpi : Kmp.Table P pi qTmp)
    (hk : Kmp.Longest P (P.take qTmp) (qTmp - 1) k) :
    (preprocLoop P n qTmp k pi).length = P.length ∧
      Kmp.Table P (preprocLoop P n qTmp k pi) P.length := by
  induction n generalizing qTmp k pi with
  | zero => exact ⟨hlen, by rwa [← hn]⟩
  | succ n ih =>
    have hlt : qTmp < P.length := by omega
    have hkq := hk.le
    have htab : Kmp.Table P pi k := fun i hi => hpi i (by omega)
    have hadv : Kmp.Longest P (P.take (qTmp + 1)) qTmp (move P pi k (charAt P qTmp)) := by
      have h := Kmp.advance_longest (c := charAt P qTmp) htab (by omega) hk
      rw [move_eq htab (by omega), List.take_succ_eq_append_getElem hlt]
      simpa [charAt, hlt, Nat.sub_add_cancel hq] using h
    refine ih (by omega) (by omega) (by simpa using hlen) (fun i hi => ?_) hadv
    by_cases h : i = qTmp
    · simpa [h, List.getD, hlen, hlt] using hadv
    · simpa [List.getD, List.getElem?_set_ne (Ne.symm h)] using hpi i (by omega)

theorem preproc_spec (hP : P ≠ []) :
    (preproc P).length = P.length ∧ Kmp.Table P (preproc P) P.length := by
  have hpos := List.length_pos_iff.2 hP
  refine preprocLoop_spec (by omega) Nat.one_pos (by simp) (fun i hi => ?_) ?_
  · obtain rfl : i = 0 := by omega
    have hzero : (List.replicate P.length 0).getD 0 0 = 0 := by simp [List.getD, hpos]
    rw [hzero]
    exact ⟨Nat.le_refl _, by simp, fun hk _ => hk⟩
  · exact ⟨Nat.le_refl _, by simp, fun hk _ => hk⟩

theorem preproc_eq (hP : P ≠ []) : preproc P = Kmp.prefixTable P := by
  obtain ⟨hlen, htab⟩ := preproc_spec hP
  refine List.ext_getElem (by rw [hlen, Kmp.prefixTable_length hP]) fun i h₁ h₂ => ?_
  have := (htab i (by omega)).unique (Kmp.prefixTable_spec P i (by omega))
  simpa [List.getD, h₁, h₂] using this

def folded (ci : Bool) (s : Str) : Str := if ci then s.map Byte.toLower else s

/-- `m` was made for `s`. -/
structure Fits (s : Str) (ci : Bool) (m : KmpMatcher) : Prop where
  mode : m.ci = ci
  pattern : m.pattern = folded ci s
  pi : m.pi = Kmp.prefixTable m.pattern

/-- The state is that of the automaton that has read `text`. -/
structure Reads (s : Str) (ci : Bool) (text : Str) (m : KmpMatcher) : Prop
    extends Fits s ci m where
  longest : Kmp.Longest m.pattern (folded ci text) (m.pattern.length - 1) m.q

@[simp] theorem folded_length (ci : Bool) (s : Str) : (folded ci s).length = s.length := by
  cases ci <;> simp [folded]

theorem folded_concat (ci : Bool) (s : Str) (c : UInt8) :
    folded ci (s ++ [c]) = folded ci s ++ [if ci then Byte.toLower c else c] := by
  cases ci <;> simp [folded]

theorem folded_ne_nil {ci : Bool} {s : Str} (hs : s ≠ []) : folded ci s ≠ [] :=
  fun h => hs (List.length_eq_zero_iff.1 (by simpa using congrArg List.length h))

variable {s text : Str} {ci : Bool} {m : KmpMatcher}

theorem fits_make (mem : Nat → UInt8) (hs : s ≠ []) (h : 0 ∉ s) :
    (make mem s ci).Fits s ci := by
  have hpat : (make mem s ci).pattern = folded ci s := by
    cases ci
    · rfl
    · exact Hdr.tolowerS_eq mem h
  refine ⟨rfl, hpat, ?_⟩
  rw [hpat, ← preproc_eq (folded_ne_nil hs), ← hpat]
  rfl

theorem Fits.reset (h : m.Fits s ci) : m.reset.Reads s ci [] where
  toFits := ⟨h.mode, h.pattern, h.pi⟩
  longest := by
    have : folded ci [] = [] := by cases ci <;> rfl
    rw [this]
    exact Kmp.longest_start _

theorem Fits.matchChar (h : m.Fits s ci) (c : UInt8) : (m.matchChar c).2.Fits s ci := by
  unfold KmpMatcher.matchChar
  dsimp only
  split <;> exact ⟨h.mode, h.pattern, h.pi⟩

theorem Fits.feed (h : m.Fits s ci) (text : Str) : (m.feed text).Fits s ci := by
  induction text generalizing m with
  | nil => exact h
  | cons c text ih => exact ih (h.matchChar c)

theorem Reads.matchChar (hs : s ≠ []) (h : m.Reads s ci text) (c : UInt8) :
    (m.matchChar c).2.Reads s ci (text ++ [c]) ∧
      ((m.matchChar c).1 = true ↔ folded ci s <:+ folded ci (text ++ [c])) := by
  have hne : m.pattern ≠ [] := h.pattern ▸ folded_ne_nil hs
  have hpos := List.length_pos_iff.2 hne
  have hq := h.longest.le
  have hmove : move m.pattern m.pi m.q (m.fold c) =
      Kmp.advance m.pattern (Kmp.prefixTable m.pattern) m.q (m.fold c) := by
    rw [h.pi]
    exact move_eq (fun i hi => Kmp.prefixTable_spec _ i (by omega)) (by omega)
  have htext : folded ci (text ++ [c]) = folded ci text ++ [m.fold c] := by
    rw [folded_concat, KmpMatcher.fold, h.mode]
  obtain ⟨hfull, hnext⟩ := Kmp.advance_found hne h.longest (m.fold c)
  rw [← hmove] at hfull hnext
  rw [htext, ← h.pattern, ← hfull, KmpMatcher.matchChar]
  split
  · next heq =>
    rw [if_pos heq] at hnext
    refine ⟨⟨⟨h.mode, h.pattern, h.pi⟩, ?_⟩, by simp [heq]⟩
    rw [htext, heq, h.pi]
    exact hnext
  · next hlt =>
    rw [if_neg hlt] at hnext
    refine ⟨⟨⟨h.mode, h.pattern, h.pi⟩, ?_⟩, by simp [hlt]⟩
    rw [htext]
    exact hnext

theorem Reads.feed (hs : s ≠ []) (h : m.Reads s ci []) (text : Str) :
    (m.feed text).Reads s ci text := by
  induction text using List.reverseRecOn with
  | nil => exact h
  | append_singleton text c ih =>
    rw [KmpMatcher.feed, List.foldl_append]
    exact (ih.matchChar hs c).1

theorem Reads.lt (hs : s ≠ []) (h : m.Reads s ci text) : m.q < s.length := by
  have hpos := List.length_pos_iff.2 hs
  have hle := h.longest.le
  rw [h.pattern, folded_length] at hle
  omega

/-- The state is below the length of the pattern, and a match is reported exactly where the
pattern, up to the case of letters, is what was read last. -/
theorem match_found (mem : Nat → UInt8) (hs : s ≠ []) (hnul : 0 ∉ s) (before text : Str)
    (c : UInt8) :
    let m := ((make mem s true).feed before).reset.feed text
    ((m.matchChar c).1 = true ↔ ∃ pre last, text ++ [c] = pre ++ last ∧
      last.length = s.length ∧ last.map Byte.toLower = s.map Byte.toLower) ∧
    m.q < s.length ∧ (m.matchChar c).2.q < s.length := by
  have hmade : (make mem s true).Fits s true := fits_make mem hs hnul
  have hm := (hmade.feed before).reset.feed hs text
  obtain ⟨hnext, hfound⟩ := hm.matchChar hs c
  refine ⟨hfound.trans ⟨?_, ?_⟩, hm.lt hs, hnext.lt hs⟩
  · rintro ⟨l, hl⟩
    obtain ⟨pre, last, happ, rfl, hlast⟩ := List.append_eq_map_iff.1 hl
    exact ⟨pre, last, happ, by simpa using congrArg List.length hlast, hlast⟩
  · rintro ⟨pre, last, happ, -, hlast⟩
    exact ⟨pre.map Byte.toLower, by simp [folded, happ, hlast]⟩

/-- A pattern that overlaps itself is found again from within. -/
theorem match_found_overlap :
    ((((make (fun _ => 0) [45, 45] true).feed []).reset.feed [45, 45]).matchChar 45).1 = true :=
  (match_found (fun _ => 0) (s := [45, 45]) (by decide) (by decide) [] [45, 45] 45).1.2
    ⟨[45], [45, 45], rfl, rfl, rfl⟩

end KmpMatcher

end Okws
