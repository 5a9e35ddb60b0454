import Okws.ScalarObj

namespace Okws.Scalar

/-- An unsigned integer, from a signed one that is not negative. -/
def uintOfInt (i : Int64) : Option UInt64 := if 0 ≤ i.toInt then some i.toUInt64 else none

def intOfUint (u : UInt64) : Option Int64 := if u.toNat < 2 ^ 63 then some u.toInt64 else none

/-- A number with a minus sign that is zero, or that has blanks in front of it: `convertuint` looks
for the sign in the first place only. -/
def ambiguous (s : Str) : Bool := match number (cstr s) with
  | some (true, n, []) => n < 2 ^ 64 && (if s.head? = some 45 then n == 0 else n != 0)
  | _ => false

section Parsers

variable {s : Str} {n : Nat}

theorem cstr_ne {b : UInt8} {t : Str} (hs : s = b :: t) (hb : b ≠ 0) : cstr s ≠ [] := by
  subst hs
  simp [cstr, hb]

theorem convertuint_number {neg : Bool} (h : number (cstr s) = some (neg, n, [])) :
    convertuint s = if s.head? = some 45 ∨ 2 ^ 64 ≤ n then none
      else some (if neg then -.ofNat n else .ofNat n) := by
  have hne : s.head? ≠ none := by
    intro hnone
    rw [List.head?_eq_none_iff] at hnone
    subst hnone
    cases h
  unfold convertuint
  by_cases h45 : s.head? = some 45
  · rw [if_pos (.inr h45), if_pos (.inl h45)]
  · rw [if_neg (not_or.2 ⟨hne, h45⟩), h]
    dsimp only
    by_cases hn : 2 ^ 64 ≤ n
    · rw [if_pos hn, if_pos (.inr hn)]
    · rw [if_neg hn, if_neg (not_or.2 ⟨h45, hn⟩), if_pos rfl]

theorem myConvertint_number {neg : Bool} (h : number (cstr s) = some (neg, n, [])) :
    myConvertint s = if (if neg then 2 ^ 63 < n else 2 ^ 63 ≤ n) then none
      else some (.ofInt (if neg then -n else n)) := by
  have hne : s.head? ≠ none := by
    intro hnone
    rw [List.head?_eq_none_iff] at hnone
    subst hnone
    cases h
  unfold myConvertint
  rw [if_neg hne, h]
  dsimp only
  rw [if_pos rfl]

theorem convert_other (h : ∀ neg n, number (cstr s) ≠ some (neg, n, [])) :
    convertuint s = none ∧ myConvertint s = none ∨
      convertuint s = some 0 ∧ myConvertint s = some 0 := by
  cases hnum : number (cstr s) with
  | some r =>
    obtain ⟨neg, n, t⟩ := r
    have ht : t ≠ [] := fun ht => h neg n (ht ▸ hnum)
    left
    constructor
    · unfold convertuint
      rw [hnum]
      simp [ht]
    · unfold myConvertint
      rw [hnum]
      simp [ht]
  | none =>
    unfold convertuint myConvertint
    rw [hnum]
    dsimp only
    cases s with
    | nil => exact .inl ⟨rfl, rfl⟩
    | cons b t =>
      by_cases hc : cstr (b :: t) = []
      · have hb : b = 0 := by
          by_contra hb
          exact cstr_ne rfl hb hc
        subst hb
        exact .inr ⟨by simp [hc], by simp [hc]⟩
      · rw [if_neg hc, if_neg hc]
        exact .inl ⟨ite_self none, ite_self none⟩

theorem head_of_plain (h : number (cstr s) = some (false, n, [])) : s.head? ≠ some 45 := by
  intro h45
  obtain ⟨t, rfl⟩ : ∃ t, s = 45 :: t := by
    cases s with
    | nil => cases h45
    | cons b t => exact ⟨t, by rw [Option.some.inj h45]⟩
  have hc : cstr (45 :: t) = 45 :: cstr t := by simp [cstr]
  have hd : (45 :: cstr t).dropWhile Byte.isSpace = 45 :: cstr t :=
    List.dropWhile_cons_of_neg (by decide)
  rw [hc, number, hd] at h
  split at h
  next neg u hmatch =>
    split at hmatch
    · next t' h' =>
      cases hmatch
      split at h
      · cases h
      · cases h
    · next h' => cases h'
    · next h' _ => exact absurd rfl (h' _)

/-- How the two parsers can read a text, and whether it is ambiguous. -/
inductive Reading : Bool → Option UInt64 → Option Int64 → Prop
  | neither : Reading false none none
  | plain (u : UInt64) : Reading false (some u) (intOfUint u)
  | negative {i : Int64} : i.toInt < 0 → Reading false none (some i)
  | minusZero : Reading true none (some 0)
  | blankMinus {u : UInt64} {i : Int64} : i.toInt < 0 → (u.toNat : Int) = i.toInt + 2 ^ 64 →
    Reading true (some u) (some i)
  | wrapped {u : UInt64} : 0 < u.toNat → u.toNat < 2 ^ 63 → Reading true (some u) none

theorem toNat_neg {n : Nat} (h0 : n ≠ 0) (h : n < 2 ^ 64) :
    (-UInt64.ofNat n).toNat = 2 ^ 64 - n := by
  rw [UInt64.toNat_neg, UInt64.toNat_ofNat_of_lt' h]
  exact Nat.mod_eq_of_lt (by simp [UInt64.size]; omega)

theorem plain_reading (h : number (cstr s) = some (false, n, [])) :
    Reading (ambiguous s) (convertuint s) (myConvertint s) := by
  have hamb : ambiguous s = false := by
    unfold ambiguous
    rw [h]
  rw [hamb, convertuint_number h, myConvertint_number h]
  simp only [head_of_plain h, false_or, Bool.false_eq_true, if_false]
  by_cases hn : 2 ^ 64 ≤ n
  · rw [if_pos hn, if_pos (by omega)]
    exact .neither
  · have hu : (UInt64.ofNat n).toNat = n := UInt64.toNat_ofNat_of_lt' (Nat.not_le.1 hn)
    have hint : (if 2 ^ 63 ≤ n then none else some (Int64.ofInt n)) =
        intOfUint (UInt64.ofNat n) := by
      rw [intOfUint, hu, UInt64.toInt64_ofNat', ← Int64.ofInt_eq_ofNat]
      by_cases hn : n < 2 ^ 63
      · rw [if_neg (by omega), if_pos hn]
      · rw [if_pos (by omega), if_neg hn]
    rw [if_neg hn, hint]
    exact .plain _

theorem minus_reading (h : number (cstr s) = some (true, n, [])) :
    Reading (ambiguous s) (convertuint s) (myConvertint s) := by
  have htoInt (hn : n ≤ 2 ^ 63) : (Int64.ofInt (-n)).toInt = -n :=
    Int64.toInt_ofInt_of_le (by omega) (by omega)
  have hamb : ambiguous s =
      (n < 2 ^ 64 && (if s.head? = some 45 then n == 0 else n != 0)) := by
    unfold ambiguous
    rw [h]
  rw [hamb, convertuint_number h, myConvertint_number h]
  simp only [if_true]
  by_cases h45 : s.head? = some 45
  · rw [if_pos h45, if_pos (.inl h45)]
    by_cases h0 : n = 0
    · subst h0
      exact .minusZero
    · have hfalse : (decide (n < 2 ^ 64) && n == 0) = false := by simp [h0]
      rw [hfalse]
      by_cases hn : 2 ^ 63 < n
      · rw [if_pos hn]
        exact .neither
      · rw [if_neg hn]
        exact .negative (by rw [htoInt (by omega)]; omega)
  · rw [if_neg h45]
    by_cases hn : 2 ^ 64 ≤ n
    · rw [if_pos (.inr hn), if_pos (by omega), decide_eq_false (Nat.not_lt.2 hn)]
      exact .neither
    · rw [if_neg (not_or.2 ⟨h45, hn⟩), decide_eq_true (Nat.not_le.1 hn)]
      by_cases h0 : n = 0
      · subst h0
        exact .plain 0
      · have hu := toNat_neg h0 (Nat.not_le.1 hn)
        rw [Bool.true_and, bne_iff_ne.2 h0]
        by_cases hbig : 2 ^ 63 < n
        · rw [if_pos hbig]
          exact .wrapped (by omega) (by omega)
        · rw [if_neg hbig]
          exact .blankMinus (by rw [htoInt (by omega)]; omega)
            (by rw [htoInt (by omega), hu]; omega)

theorem reading (s : Str) : Reading (ambiguous s) (convertuint s) (myConvertint s) := by
  by_cases h : ∃ neg n, number (cstr s) = some (neg, n, [])
  · obtain ⟨neg, n, h⟩ := h
    cases neg with
    | false => exact plain_reading h
    | true => exact minus_reading h
  · have hother : ∀ neg n, number (cstr s) ≠ some (neg, n, []) := fun neg n hn => h ⟨neg, n, hn⟩
    have hamb : ambiguous s = false := by
      unfold ambiguous
      split
      · next n hn => exact absurd hn (hother true n)
      · rfl
    rw [hamb]
    obtain ⟨hu, hi⟩ | ⟨hu, hi⟩ := convert_other hother
    · rw [hu, hi]
      exact .neither
    · rw [hu, hi]
      exact .plain 0

theorem toInt_toInt64 {u : UInt64} (h : u.toNat < 2 ^ 63) : u.toInt64.toInt = u.toNat := by
  have hu : u.toInt64 = .ofInt u.toNat := by
    rw [Int64.ofInt_eq_ofNat, ← UInt64.toInt64_ofNat', UInt64.ofNat_toNat]
  rw [hu, Int64.toInt_ofInt_of_le (by omega) (by omega)]

theorem toInt_of_intOfUint {u : UInt64} {i : Int64} (h : intOfUint u = some i) :
    i.toInt = u.toNat := by
  unfold intOfUint at h
  split at h
  · next hlt =>
    cases h
    exact toInt_toInt64 hlt
  · cases h

theorem uintOfInt_toInt64 {u : UInt64} (h : u.toNat < 2 ^ 63) : uintOfInt u.toInt64 = some u := by
  rw [uintOfInt, toInt_toInt64 h, if_pos (by omega), UInt64.toUInt64_toInt64]

theorem uintOfInt_neg {i : Int64} (h : i.toInt < 0) : uintOfInt i = none := if_neg (by omega)

theorem not_ambiguous_iff (s : Str) : ambiguous s = false ↔
    (∀ u, convertuint s = some u → myConvertint s = intOfUint u) ∧
      ∀ i, myConvertint s = some i → convertuint s = uintOfInt i := by
  have h := reading s
  generalize ambiguous s = amb, convertuint s = o, myConvertint s = o' at h
  cases h with
  | neither => exact iff_of_true rfl ⟨nofun, nofun⟩
  | plain u =>
    refine iff_of_true rfl ⟨fun v hv => by cases hv; rfl, fun i hi => ?_⟩
    unfold intOfUint at hi
    split at hi
    · next h =>
      cases hi
      exact (uintOfInt_toInt64 h).symm
    · cases hi
  | negative hi =>
    refine iff_of_true rfl ⟨nofun, fun j hj => ?_⟩
    cases hj
    exact (uintOfInt_neg hi).symm
  | minusZero =>
    refine iff_of_false nofun fun h => ?_
    cases h.2 0 rfl
  | blankMinus hi _ =>
    refine iff_of_false nofun fun h => ?_
    cases (h.2 _ rfl).trans (uintOfInt_neg hi)
  | wrapped _ hlt =>
    refine iff_of_false nofun fun h => ?_
    cases (h.1 _ rfl).trans (if_pos hlt)

end Parsers

section Cached

variable {p : ScalarObj}

theorem int?_of_uint (hi : p.intCnv = .none) (hu : p.uintCnv = .ok) :
    p.toInt64.int? = intOfUint p.u := by
  unfold ScalarObj.toInt64 intOfUint
  rw [if_pos hi, if_pos hu]
  split <;> rfl

theorem uint?_of_int (hu : p.uintCnv = .none) (hi : p.intCnv = .ok) :
    p.toUint64.uint? = uintOfInt p.i := by
  unfold ScalarObj.toUint64 uintOfInt
  rw [if_pos hu, if_pos hi]
  split <;> rfl

end Cached

end Okws.Scalar
