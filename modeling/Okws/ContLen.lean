import Mathlib
import Okws.InHdr
import Okws.PairInts

/-! The length of a body: what `http_inhdr_t` reads it from, and what `prepare_post_parse` makes
of it. -/

namespace Okws

open Inet

def contentLength : Str :=
  ascii ['c', 'o', 'n', 't', 'e', 'n', 't', '-', 'l', 'e', 'n', 'g', 't', 'h']

/-- `contlen` behind `fixup`, which is called only if the header is in order. -/
def InHdrOut.contlen (o : InHdrOut) : Int :=
  if o.status = Http.ok then (o.tab.lookupInt contentLength).getD (-1) else -1

/-- `prepare_post_parse`: the limit that the buffer gets, or nothing if the request is rejected. -/
def preparePostParse (okReqsizeLimit : Nat) (contlen : Int) : Option Int :=
  if (okReqsizeLimit : Int).bmod (2 ^ 32) < contlen then none
  else if contlen < 0 then some (((okReqsizeLimit : Int) - 1).bmod (2 ^ 32))
  else some contlen

/-- The number that a string of digits denotes in base `base`. -/
def denotes (base : Nat) (ds : Str) : Nat := ds.foldl (fun n b => n * base + (b.toNat - 48)) 0

/-- A header that is in order, with one content length, which is a string of decimal digits. -/
structure Declares (o : InHdrOut) (ds : Str) : Prop where
  status : o.status = Http.ok
  lookup : o.tab.lookup contentLength = some [ds]
  ne : ds ≠ []
  digits : ∀ b ∈ ds, isDigit b = true

/-- The length is the number that the digits denote, or the request is rejected because that is
too large. -/
def Exact (okReqsizeLimit : Nat) (o : InHdrOut) (ds : Str) : Prop :=
  o.contlen = denotes 10 ds ∨
    preparePostParse okReqsizeLimit o.contlen = none ∧ okReqsizeLimit < denotes 10 ds

/-- What `strtoll` takes the digits for: with a zero in front of them they are octal. -/
def baseZero (ds : Str) : Option Nat :=
  if ds.head? = some 48 then if ∀ b ∈ ds, b < 56 then some (denotes 8 ds) else none
  else some (denotes 10 ds)

/-- The digits are read as the number they denote, which is an `int`; or they denote a number
beyond the limit, and what is left of the one they are read as is beyond it, too. -/
def ReadRight (okReqsizeLimit : Nat) (ds : Str) : Prop :=
  baseZero ds = some (denotes 10 ds) ∧ denotes 10 ds < 2 ^ 31 ∨
    okReqsizeLimit < denotes 10 ds ∧
      ∃ n, baseZero ds = some n ∧ n < 2 ^ 63 ∧ okReqsizeLimit < (n : Int).bmod (2 ^ 32)

section Digits

variable {ds : Str}

theorem digit_of_isDigit {b : UInt8} (h : isDigit b = true) : digit b = b.toNat - 48 := if_pos h

theorem digits_all {base n : Nat} (h : ∀ b ∈ ds, isDigit b = true ∧ b.toNat - 48 < base) :
    digits base n ds = (ds.foldl (fun n b => n * base + (b.toNat - 48)) n, []) := by
  induction ds generalizing n with
  | nil => rfl
  | cons b ds ih =>
    obtain ⟨hb, hlt⟩ := h b List.mem_cons_self
    rw [digits, digit_of_isDigit hb, if_pos hlt, ih fun x hx => h x (List.mem_cons_of_mem b hx)]
    rfl

theorem digits_stop {base n : Nat} (h : ∃ b ∈ ds, isDigit b = true ∧ base ≤ b.toNat - 48) :
    (digits base n ds).2 ≠ [] := by
  induction ds generalizing n with
  | nil =>
    obtain ⟨b, hb, -⟩ := h
    cases hb
  | cons b ds ih =>
    rw [digits]
    split
    · next hlt =>
      obtain ⟨x, hx, hd, hle⟩ := h
      cases hx with
      | head =>
        rw [digit_of_isDigit hd] at hlt
        omega
      | tail _ hx => exact ih ⟨x, hx, hd, hle⟩
    · exact List.cons_ne_nil b ds

theorem foldl_mono {m n : Nat} (hmn : m ≤ n) :
    ds.foldl (fun n b => n * 8 + (b.toNat - 48)) m ≤
      ds.foldl (fun n b => n * 10 + (b.toNat - 48)) n := by
  induction ds generalizing m n with
  | nil => exact hmn
  | cons b ds ih =>
    have hstep : m * 8 + (b.toNat - 48) ≤ n * 10 + (b.toNat - 48) := by omega
    exact ih hstep

theorem denotes_le (ds : Str) : denotes 8 ds ≤ denotes 10 ds := foldl_mono (Nat.le_refl 0)

variable (hne : ds ≠ []) (hds : ∀ b ∈ ds, isDigit b = true)

include hds in
theorem strtoul_octal (h : ds.head? = some 48) : strtoul ds = digits 8 0 ds := by
  match ds with
  | [] => cases h
  | [b] =>
    obtain rfl : b = 48 := by simpa using h
    rfl
  | [b, x] =>
    obtain rfl : b = 48 := by simpa using h
    rfl
  | b :: x :: c :: s =>
    obtain rfl : b = 48 := by simpa using h
    have hx : ¬ ((x = 120 ∨ x = 88) ∧ digit c < 16) := by
      rintro ⟨rfl | rfl, -⟩
      · exact absurd (hds 120 (by simp)) (by decide)
      · exact absurd (hds 88 (by simp)) (by decide)
    exact if_neg hx

include hne hds

theorem number_digits : Scalar.number (cstr ds) = some (false, strtoul ds) := by
  have hcstr : cstr ds = ds := by
    refine List.takeWhile_eq_self_iff.2 fun b hb => ?_
    simpa using (Scalar.isDigit_plain (hds b hb)).1
  obtain ⟨b, s, rfl⟩ := List.exists_cons_of_ne_nil hne
  rw [hcstr, Scalar.number_of_digit (hds b List.mem_cons_self)]

theorem strtoll_digits :
    strtoll ds = (baseZero ds).bind fun n => if n < 2 ^ 63 then some (n : Int) else none := by
  have hdigit : ∀ b ∈ ds, 48 ≤ b.toNat ∧ b.toNat ≤ 57 := by
    intro b hb
    have hb := hds b hb
    simp only [isDigit, Bool.and_eq_true, decide_eq_true_eq, UInt8.le_iff_toNat_le] at hb
    exact hb
  have hlt (b : UInt8) : b < 56 ↔ b.toNat < 56 := UInt8.lt_iff_toNat_lt
  -- what is left over is all that `strtoll` looks at besides the number
  have hwhole {n : Nat} (h : strtoul ds = (n, [])) :
      strtoll ds = (some n).bind fun n => if n < 2 ^ 63 then some (n : Int) else none := by
    rw [strtoll, number_digits hne hds, h, Option.bind_some]
    simp only [ne_eq, not_true_eq_false, false_or, Bool.false_eq_true, if_false]
    by_cases hn : n < 2 ^ 63
    · rw [if_neg (Nat.not_le.2 hn), if_pos hn]
    · rw [if_pos (Nat.not_lt.1 hn), if_neg hn]
  unfold baseZero
  by_cases hzero : ds.head? = some 48
  · rw [if_pos hzero]
    by_cases hoct : ∀ b ∈ ds, b < 56
    · rw [if_pos hoct]
      refine hwhole ?_
      rw [strtoul_octal hds hzero, digits_all fun b hb => ⟨hds b hb, ?_⟩]
      · rfl
      · have := (hlt b).1 (hoct b hb)
        omega
    · rw [if_neg hoct]
      push Not at hoct
      obtain ⟨b, hb, h8⟩ := hoct
      have hstop : (strtoul ds).2 ≠ [] := by
        rw [strtoul_octal hds hzero]
        refine digits_stop ⟨b, hb, hds b hb, ?_⟩
        rw [hlt] at h8
        omega
      rw [strtoll, number_digits hne hds]
      simp [hstop]
  · rw [if_neg hzero]
    refine hwhole ?_
    rw [strtoul_other hzero, digits_all fun b hb => ⟨hds b hb, ?_⟩]
    · rfl
    · have := hdigit b hb
      omega

end Digits

theorem baseZero_le {ds : Str} {n : Nat} (h : baseZero ds = some n) : n ≤ denotes 10 ds := by
  unfold baseZero at h
  split at h
  · split at h <;> cases h
    exact denotes_le ds
  · cases h
    exact Nat.le_refl _

section Accept

variable {okReqsizeLimit : Nat} {o : InHdrOut} {ds : Str}

theorem contlen_eq (h : Declares o ds) : o.contlen =
    (((baseZero ds).bind fun n => if n < 2 ^ 63 then some (n : Int) else none).map
      (·.bmod (2 ^ 32))).getD (-1) := by
  rw [InHdrOut.contlen, if_pos h.status, PairTab.lookupInt, h.lookup]
  simp only [Option.bind_some, List.mapM_cons, List.mapM_nil, strtoll_digits h.ne h.digits]
  cases (baseZero ds).bind fun n => if n < 2 ^ 63 then some (n : Int) else none <;> rfl

theorem contlen_of_lt (h : Declares o ds) {n : Nat} (hz : baseZero ds = some n) (hn : n < 2 ^ 63) :
    o.contlen = (n : Int).bmod (2 ^ 32) := by
  rw [contlen_eq h, hz, Option.bind_some, if_pos hn, Option.map_some, Option.getD_some]

theorem contlen_of_unread (h : Declares o ds) (hz : ∀ n, baseZero ds = some n → ¬ n < 2 ^ 63) :
    o.contlen = -1 := by
  rw [contlen_eq h]
  cases hn : baseZero ds with
  | none => rfl
  | some n =>
    rw [Option.bind_some, if_neg (hz n hn), Option.map_none, Option.getD_none]

theorem bmod_le (n : Nat) : (n : Int).bmod (2 ^ 32) ≤ n := by
  rw [Int.bmod_def]
  split <;> omega

theorem bmod_eq_self {n : Nat} : (n : Int).bmod (2 ^ 32) = n ↔ n < 2 ^ 31 := by
  rw [Int.bmod_def]
  split <;> omega

theorem preparePostParse_eq_none (hlim : okReqsizeLimit < 2 ^ 31) {c : Int} :
    preparePostParse okReqsizeLimit c = none ↔ okReqsizeLimit < c := by
  rw [preparePostParse, bmod_eq_self.2 hlim]
  split
  · simpa
  · next hle =>
    simp only [hle, iff_false]
    split <;> simp

theorem exact_iff (hlim : okReqsizeLimit < 2 ^ 31) (h : Declares o ds) :
    Exact okReqsizeLimit o ds ↔ ReadRight okReqsizeLimit ds := by
  rw [Exact, preparePostParse_eq_none hlim, ReadRight]
  by_cases hz : ∃ n, baseZero ds = some n ∧ n < 2 ^ 63
  · obtain ⟨n, hz, hn⟩ := hz
    have hle := baseZero_le hz
    have hmod := bmod_le n
    have hself := @bmod_eq_self n
    rw [contlen_of_lt h hz hn, hz]
    simp only [Option.some.injEq, exists_eq_left', hn, true_and]
    omega
  · have hread : ¬ (baseZero ds = some (denotes 10 ds) ∧ denotes 10 ds < 2 ^ 31) := by
      rintro ⟨hz', hlt⟩
      exact hz ⟨_, hz', by omega⟩
    have hlarge : ¬ ∃ n, baseZero ds = some n ∧ n < 2 ^ 63 ∧
        okReqsizeLimit < (n : Int).bmod (2 ^ 32) := by
      rintro ⟨n, hn, hlt, -⟩
      exact hz ⟨n, hn, hlt⟩
    rw [contlen_of_unread h fun n hn hlt => hz ⟨n, hn, hlt⟩]
    simp only [hread, hlarge, and_false, or_false, iff_false]
    omega

theorem accepted_ne {o' : InHdrOut} {ds' : Str} {n : Int}
    (h : Exact okReqsizeLimit o ds) (h' : Exact okReqsizeLimit o' ds')
    (hacc : preparePostParse okReqsizeLimit o.contlen = some n)
    (hacc' : preparePostParse okReqsizeLimit o'.contlen = some n) :
    denotes 10 ds = denotes 10 ds' := by
  have haccepted {o : InHdrOut} {ds : Str} (h : Exact okReqsizeLimit o ds)
      (hacc : preparePostParse okReqsizeLimit o.contlen = some n) : n = denotes 10 ds := by
    obtain hlen | ⟨hrej, -⟩ := h
    · rw [hlen, preparePostParse] at hacc
      split at hacc
      · cases hacc
      · rw [if_neg (by omega)] at hacc
        exact (Option.some.inj hacc).symm
    · rw [hrej] at hacc
      cases hacc
  have heq := (haccepted h hacc).symm.trans (haccepted h' hacc')
  exact_mod_cast heq

end Accept

/-- The lengths of two headers are read exactly, and cannot be confused, if and only if both
strings of digits are read as the numbers they denote, or denote numbers that are too large and
read as such. -/
theorem exact_and_distinct_iff {okReqsizeLimit : Nat} (hlim : okReqsizeLimit < 2 ^ 31)
    {o o' : InHdrOut} {ds ds' : Str} (h : Declares o ds) (h' : Declares o' ds') :
    (Exact okReqsizeLimit o ds ∧ Exact okReqsizeLimit o' ds' ∧
      (denotes 10 ds ≠ denotes 10 ds' → ∀ n,
        ¬ (preparePostParse okReqsizeLimit o.contlen = some n ∧
          preparePostParse okReqsizeLimit o'.contlen = some n))) ↔
      ReadRight okReqsizeLimit ds ∧ ReadRight okReqsizeLimit ds' := by
  constructor
  · rintro ⟨he, he', -⟩
    exact ⟨(exact_iff hlim h).1 he, (exact_iff hlim h').1 he'⟩
  · rintro ⟨hr, hr'⟩
    have he := (exact_iff hlim h).2 hr
    have he' := (exact_iff hlim h').2 hr'
    exact ⟨he, he', fun hne n hacc => hne (accepted_ne he he' hacc.1 hacc.2)⟩

/-- A header that is in order and has nothing but a content length. -/
def lengthOnly (ds : Str) : InHdrOut where
  status := Http.ok
  mthd := some .post
  tmthd := some (ascii ['P', 'O', 'S', 'T'])
  target := some (ascii ['/'])
  vers := some (ascii ['H', 'T', 'T', 'P', '/', '1', '.', '1'])
  nvers := 1
  line1 := none
  tab := PairTab.empty.insert (some contentLength) (some ds) true true

/-- `12` and `42`, with a limit of 2 MB. -/
theorem exact_and_distinct_iff_applied :
    (Exact 0x200000 (lengthOnly [49, 50]) [49, 50] ∧
      Exact 0x200000 (lengthOnly [52, 50]) [52, 50] ∧
      (denotes 10 [49, 50] ≠ denotes 10 [52, 50] → ∀ n,
        ¬ (preparePostParse 0x200000 (lengthOnly [49, 50]).contlen = some n ∧
          preparePostParse 0x200000 (lengthOnly [52, 50]).contlen = some n))) ↔
      ReadRight 0x200000 [49, 50] ∧ ReadRight 0x200000 [52, 50] :=
  exact_and_distinct_iff (by decide) ⟨rfl, by decide, by decide, by simp [isDigit]⟩
    ⟨rfl, by decide, by decide, by simp [isDigit]⟩

/-- `010` is read as eight, and so is `8`. -/
theorem not_exact_octal : ¬ (Exact 0x200000 (lengthOnly [48, 49, 48]) [48, 49, 48] ∧
    Exact 0x200000 (lengthOnly [56]) [56] ∧
    (denotes 10 [48, 49, 48] ≠ denotes 10 [56] → ∀ n,
      ¬ (preparePostParse 0x200000 (lengthOnly [48, 49, 48]).contlen = some n ∧
        preparePostParse 0x200000 (lengthOnly [56]).contlen = some n))) := by
  rintro ⟨h, -⟩
  revert h
  unfold Exact
  decide

end Okws
