import Okws.Lib.Stateful
import Okws.ScalarArith
import Okws.ScalarText

namespace Okws

open Lib Scalar Zbuf

/-- What an object answers when it is asked for an unsigned and for a signed integer.  If it has
never been asked, then the first question also settles the answer to the other one. -/
inductive Conv
  | fresh (x : Option UInt64) (y : Option Int64)
  | settled (x : Option UInt64) (y : Option Int64)

namespace Conv

def uint : Conv → Option UInt64
  | .fresh x _ | .settled x _ => x

def int : Conv → Option Int64
  | .fresh _ y | .settled _ y => y

def afterUint : Conv → Conv
  | .fresh (some u) _ => .settled (some u) (intOfUint u)
  | .fresh none y => .settled none y
  | .settled x y => .settled x y

def afterInt : Conv → Conv
  | .fresh _ (some i) => .settled (uintOfInt i) (some i)
  | .fresh x none => .settled x none
  | .settled x y => .settled x y

/-- The number that the object is taken for if it is asked for an unsigned integer first. -/
def number (c : Conv) : Option Int := match c.uint with
  | some u => some u.toNat
  | none => c.int.map (·.toInt)

/-- The number if it is asked for a signed integer first. -/
def signedNumber (c : Conv) : Option Int := match c.int with
  | some i => some i.toInt
  | none => c.uint.map (·.toNat)

inductive Valid : Conv → Prop
  | fresh {amb : Bool} {x : Option UInt64} {y : Option Int64} : Reading amb x y → Valid (.fresh x y)
  | neither : Valid (.settled none none)
  | plain (u : UInt64) : Valid (.settled (some u) (intOfUint u))
  | minus {i : Int64} : i.toInt ≤ 0 → Valid (.settled none (some i))
  | wrapped {u : UInt64} : 0 < u.toNat → Valid (.settled (some u) none)

def order (v w : Int) : Int := ScalarM.compare (· < ·) v w

/-- The number that `d` is taken for on the right of `c`. -/
def beside (c d : Conv) : Option Int := match c.uint with
  | some _ => d.number
  | none => d.signedNumber

/-- The comparison of two numbers, or of the texts `s` and `t`. -/
def byNumber (v w : Option Int) (s t : Str) : Int := match v, w with
  | some v, some w => order v w
  | _, _ => ScalarM.strCmp s t

/-- The comparison of two objects with the texts `s` and `t`. -/
def cmp (c d : Conv) (s t : Str) : Int := byNumber c.number (c.beside d) s t

theorem Valid.afterUint {c : Conv} (h : Valid c) : Valid c.afterUint := by
  cases h with
  | fresh h =>
    cases h with
    | neither => exact .neither
    | plain u => exact .plain u
    | negative hi => exact .minus (Int.le_of_lt hi)
    | minusZero => exact .minus (by decide)
    | blankMinus hi hu => exact .plain _
    | wrapped h0 hlt => exact .plain _
  | neither => exact .neither
  | plain u => exact .plain u
  | minus hi => exact .minus hi
  | wrapped h0 => exact .wrapped h0

theorem Valid.afterInt {c : Conv} (h : Valid c) : Valid c.afterInt := by
  cases h with
  | fresh h =>
    cases h with
    | neither => exact .neither
    | plain u =>
      unfold intOfUint
      split
      · next hlt =>
        have hp : Valid (.settled (some u) (intOfUint u)) := .plain u
        rw [intOfUint, if_pos hlt] at hp
        show Valid (.settled (uintOfInt u.toInt64) (some u.toInt64))
        rwa [uintOfInt_toInt64 hlt]
      · exact .wrapped (by omega)
    | negative hi =>
      show Valid (.settled (uintOfInt _) _)
      rw [uintOfInt_neg hi]
      exact .minus (Int.le_of_lt hi)
    | minusZero => exact .plain 0
    | blankMinus hi hu =>
      show Valid (.settled (uintOfInt _) _)
      rw [uintOfInt_neg hi]
      exact .minus (Int.le_of_lt hi)
    | wrapped h0 hlt => exact .wrapped h0
  | neither => exact .neither
  | plain u => exact .plain u
  | minus hi => exact .minus hi
  | wrapped h0 => exact .wrapped h0

section Order

theorem order_uint (u w : UInt64) : ScalarM.compare (· < ·) u w = order u.toNat w.toNat := by
  simp only [order, ScalarM.compare, UInt64.lt_iff_toNat_lt, Int.ofNat_lt]

theorem order_int (i j : Int64) : ScalarM.compare (· < ·) i j = order i.toInt j.toInt := by
  simp only [order, ScalarM.compare, Int64.lt_iff_toInt_lt]

theorem order_lt {v w : Int} : order v w < 0 ↔ v < w := by
  simp only [order, ScalarM.compare, decide_eq_true_eq]
  split_ifs with hgt hlt
  · exact iff_of_false (by decide) (by omega)
  · exact iff_of_true (by decide) hlt
  · exact iff_of_false (by decide) hlt

theorem order_gt {v w : Int} : 0 < order v w ↔ w < v := by
  simp only [order, ScalarM.compare, decide_eq_true_eq]
  split_ifs with hgt hlt
  · exact iff_of_true (by decide) hgt
  · exact iff_of_false (by decide) hgt
  · exact iff_of_false (by decide) hgt

theorem order_of_lt {v w : Int} (h : v < w) : order v w = -1 := by
  simp only [order, ScalarM.compare, decide_eq_true_eq]
  rw [if_neg (by omega), if_pos h]

theorem order_of_gt {v w : Int} (h : w < v) : order v w = 1 := by
  simp only [order, ScalarM.compare, decide_eq_true_eq]
  rw [if_pos h]

end Order

section Answers

variable {c : Conv} {u : UInt64} {i : Int64}

theorem afterUint_uint (c : Conv) : c.afterUint.uint = c.uint := by
  obtain ⟨_ | u, y⟩ | ⟨x, y⟩ := c <;> rfl

theorem afterInt_int (c : Conv) : c.afterInt.int = c.int := by
  obtain ⟨x, _ | i⟩ | ⟨x, y⟩ := c <;> rfl

theorem afterUint_int (h : c.uint = none) : c.afterUint.int = c.int := by
  obtain ⟨_ | u, y⟩ | ⟨x, y⟩ := c
  · rfl
  · cases h
  · rfl

theorem afterInt_uint (h : c.int = none) : c.afterInt.uint = c.uint := by
  obtain ⟨x, _ | i⟩ | ⟨x, y⟩ := c
  · rfl
  · cases h
  · rfl

theorem afterUint_settled (c : Conv) :
    c.afterUint.afterUint = c.afterUint ∧ c.afterUint.afterInt = c.afterUint := by
  obtain ⟨_ | u, y⟩ | ⟨x, y⟩ := c <;> exact ⟨rfl, rfl⟩

theorem afterInt_settled (c : Conv) :
    c.afterInt.afterUint = c.afterInt ∧ c.afterInt.afterInt = c.afterInt := by
  obtain ⟨x, _ | i⟩ | ⟨x, y⟩ := c <;> exact ⟨rfl, rfl⟩

theorem afterUint_isSome (c : Conv) : (c.afterUint.uint.isSome ∨ c.afterUint.int.isSome) ↔
    (c.uint.isSome ∨ c.int.isSome) := by
  rw [afterUint_uint]
  cases hu : c.uint with
  | none => rw [afterUint_int hu]
  | some u => exact iff_of_true (.inl rfl) (.inl rfl)

theorem afterInt_isSome (c : Conv) : (c.afterInt.uint.isSome ∨ c.afterInt.int.isSome) ↔
    (c.uint.isSome ∨ c.int.isSome) := by
  rw [afterInt_int]
  cases hi : c.int with
  | none => rw [afterInt_uint hi]
  | some i => exact iff_of_true (.inr rfl) (.inr rfl)

theorem Valid.same (h : c.Valid) (hu : c.uint = some u) (hi : c.afterUint.int = some i) :
    i.toInt = u.toNat := by
  cases h with
  | fresh h =>
    cases h with
    | plain u | blankMinus | wrapped =>
      cases hu
      exact toInt_of_intOfUint hi
    | neither | negative | minusZero => cases hu
  | plain u =>
    cases hu
    exact toInt_of_intOfUint hi
  | wrapped => cases hi
  | neither | minus => cases hu

theorem Valid.nonpos (h : c.Valid) (hu : c.uint = none) (hi : c.int = some i) : i.toInt ≤ 0 := by
  cases h with
  | fresh h =>
    cases h with
    | negative hneg =>
      cases hi
      exact Int.le_of_lt hneg
    | minusZero =>
      cases hi
      decide
    | neither => cases hi
    | plain | blankMinus | wrapped => cases hu
  | minus hle =>
    cases hi
    exact hle
  | neither => cases hi
  | plain | wrapped => cases hu

theorem Valid.pos (h : c.Valid) (hi : c.int = none) (hu : c.uint = some u) : 0 < u.toNat := by
  have hplain {u : UInt64} (hi : intOfUint u = none) : 0 < u.toNat := by
    unfold intOfUint at hi
    split at hi
    · cases hi
    · omega
  cases h with
  | fresh h =>
    cases h with
    | plain u =>
      cases hu
      exact hplain hi
    | wrapped hpos =>
      cases hu
      exact hpos
    | blankMinus => cases hi
    | neither | negative | minusZero => cases hu
  | plain u =>
    cases hu
    exact hplain hi
  | wrapped hpos =>
    cases hu
    exact hpos
  | neither | minus => cases hu

end Answers

end Conv

namespace ScalarObj

def conv (p : ScalarObj) : Conv :=
  if p.uintCnv = .none ∧ p.intCnv = .none then
    .fresh (p.s.bind convertuint) (p.s.bind myConvertint)
  else .settled p.toUint64.uint? p.toInt64.int?

variable (p : ScalarObj)

theorem toUint64_parse (hu : p.uintCnv = .none) (hi : p.intCnv = .none) :
    p.toUint64 = match p.s.bind convertuint with
      | some u => { p with u := u, uintCnv := .ok }
      | none => { p with u := 0, uintCnv := .bad } := by
  have hok : p.intCnv ≠ .ok := by rw [hi]; exact nofun
  unfold toUint64
  exact (if_pos hu).trans (if_neg hok)

theorem toInt64_parse (hu : p.uintCnv = .none) (hi : p.intCnv = .none) :
    p.toInt64 = match p.s.bind myConvertint with
      | some i => { p with i := i, intCnv := .ok }
      | none => { p with i := 0, intCnv := .bad } := by
  have hok : p.uintCnv ≠ .ok := by rw [hu]; exact nofun
  unfold toInt64
  exact (if_pos hi).trans (if_neg hok)

theorem uint?_toUint64 : p.toUint64.uint? = p.conv.uint := by
  unfold conv
  split
  · next h =>
    rw [toUint64_parse p h.1 h.2]
    cases p.s.bind convertuint <;> rfl
  · rfl

theorem int?_toInt64 : p.toInt64.int? = p.conv.int := by
  unfold conv
  split
  · next h =>
    rw [toInt64_parse p h.1 h.2]
    cases p.s.bind myConvertint <;> rfl
  · rfl

/-- What a conversion to an unsigned integer leaves alone, and what it sees to. -/
structure UintAsked (p q : ScalarObj) : Prop where
  s : q.s = p.s
  naturalType : q.naturalType = p.naturalType
  intCnv : q.intCnv = p.intCnv
  int? : q.int? = p.int?
  uintCnv : q.uintCnv ≠ .none

structure IntAsked (p q : ScalarObj) : Prop where
  s : q.s = p.s
  naturalType : q.naturalType = p.naturalType
  uintCnv : q.uintCnv = p.uintCnv
  uint? : q.uint? = p.uint?
  intCnv : q.intCnv ≠ .none

theorem toUint64_asked : UintAsked p p.toUint64 := by
  unfold toUint64
  split_ifs with hu
  · exact ⟨rfl, rfl, rfl, rfl, nofun⟩
  · exact ⟨rfl, rfl, rfl, rfl, nofun⟩
  · cases p.s.bind convertuint with
    | none => exact ⟨rfl, rfl, rfl, rfl, nofun⟩
    | some u => exact ⟨rfl, rfl, rfl, rfl, nofun⟩
  · exact ⟨rfl, rfl, rfl, rfl, hu⟩

theorem toInt64_asked : IntAsked p p.toInt64 := by
  unfold toInt64
  split_ifs with hi
  · exact ⟨rfl, rfl, rfl, rfl, nofun⟩
  · exact ⟨rfl, rfl, rfl, rfl, nofun⟩
  · cases p.s.bind myConvertint with
    | none => exact ⟨rfl, rfl, rfl, rfl, nofun⟩
    | some i => exact ⟨rfl, rfl, rfl, rfl, nofun⟩
  · exact ⟨rfl, rfl, rfl, rfl, hi⟩

theorem conv_toUint64 : p.toUint64.conv = p.conv.afterUint := by
  have hasked := p.toUint64_asked
  have hself : p.toUint64.toUint64 = p.toUint64 := if_neg hasked.uintCnv
  have hconv : p.toUint64.conv = .settled p.toUint64.uint? p.toUint64.toInt64.int? := by
    rw [conv, if_neg fun h => hasked.uintCnv h.1, hself]
  rw [hconv, conv]
  split
  · next h =>
    obtain ⟨hu, hi⟩ := h
    rw [toUint64_parse p hu hi]
    cases p.s.bind convertuint with
    | none =>
      refine congrArg (Conv.settled none) ?_
      rw [toInt64, if_pos hi, if_neg nofun]
      cases p.s.bind myConvertint <;> rfl
    | some u => exact congrArg (Conv.settled (some u)) (int?_of_uint hi rfl)
  · next h =>
    refine congrArg (Conv.settled _) ?_
    by_cases hu : p.uintCnv = .none
    · have hi : p.intCnv ≠ .none := fun hi => h ⟨hu, hi⟩
      have hp : p.toInt64 = p := if_neg hi
      have hp' : p.toUint64.toInt64 = p.toUint64 := if_neg (by rw [hasked.intCnv]; exact hi)
      rw [hp, hp', hasked.int?]
    · have hp : p.toUint64 = p := if_neg hu
      rw [hp]

theorem conv_toInt64 : p.toInt64.conv = p.conv.afterInt := by
  have hasked := p.toInt64_asked
  have hself : p.toInt64.toInt64 = p.toInt64 := if_neg hasked.intCnv
  have hconv : p.toInt64.conv = .settled p.toInt64.toUint64.uint? p.toInt64.int? := by
    rw [conv, if_neg fun h => hasked.intCnv h.2, hself]
  rw [hconv, conv]
  split
  · next h =>
    obtain ⟨hu, hi⟩ := h
    rw [toInt64_parse p hu hi]
    cases p.s.bind myConvertint with
    | none =>
      refine congrArg (Conv.settled · none) ?_
      rw [toUint64, if_pos hu, if_neg nofun]
      cases p.s.bind convertuint <;> rfl
    | some i => exact congrArg (Conv.settled · (some i)) (uint?_of_int hu rfl)
  · next h =>
    refine congrArg (Conv.settled · _) ?_
    by_cases hi : p.intCnv = .none
    · have hu : p.uintCnv ≠ .none := fun hu => h ⟨hu, hi⟩
      have hp : p.toUint64 = p := if_neg hu
      have hp' : p.toInt64.toUint64 = p.toInt64 := if_neg (by rw [hasked.uintCnv]; exact hu)
      rw [hp, hp', hasked.uint?]
    · have hp : p.toInt64 = p := if_neg hi
      rw [hp]

end ScalarObj

namespace ScalarM

open ScalarObj Conv

/-- Two objects, by what they will answer and by their texts. -/
structure At (a b : Nat) (c d : Conv) (s t : Str) (st : Scalars) : Prop where
  left : (st a).conv = c
  right : (st b).conv = d
  leftStr : (st a).toStr = s
  rightStr : (st b).toStr = t

variable {α β : Type}

theorem both_none {P Q : Scalars → Prop} {x : ScalarM (Option α)} {y : ScalarM (Option β)}
    (hx : Yields P x none Q) : Yields P (both x y) none Q :=
  hx.bind (.pure none)

theorem both_some {P Q R : Scalars → Prop} {x : ScalarM (Option α)} {y : ScalarM (Option β)}
    {i : α} {o : Option β} (hx : Yields P x (some i) Q) (hy : Yields Q y o R) :
    Yields P (both x y) (o.map fun j => (i, j)) R :=
  hx.bind (hy.bind (.pure _))

theorem both_keep {P : Scalars → Prop} {x : ScalarM (Option α)} {y : ScalarM (Option β)}
    {o : Option α} {o' : Option β} (hx : Yields P x o P) (hy : Yields P y o' P) :
    Yields P (both x y) (o.bind fun i => o'.map fun j => (i, j)) P := by
  cases o with
  | none => exact both_none hx
  | some i => exact both_some hx hy

variable {a b : Nat} {c d : Conv} {s t : Str}

theorem At.swap {st : Scalars} (h : At a b c d s t st) : At b a d c t s st :=
  ⟨h.right, h.left, h.rightStr, h.leftStr⟩

theorem strCmp_texts : Yields (At a b c d s t)
    (do return strCmp (← str a) (← str b) : ScalarM Int) (strCmp s t) fun _ => True := by
  intro st h
  refine ⟨?_, trivial⟩
  show strCmp (st a).toStr (st b).toStr = _
  rw [h.leftStr, h.rightStr]

variable (hab : a ≠ b)

include hab

theorem uint64_left :
    Yields (At a b c d s t) (uint64 a) c.uint (At a b c.afterUint d s t) := by
  intro st h
  have hasked := (st a).toUint64_asked
  refine ⟨by rw [← h.left]; exact (st a).uint?_toUint64, ?_, ?_, ?_, ?_⟩
  · simp only [uint64, on, Function.update_self, conv_toUint64, h.left]
  · simp only [uint64, on, Function.update_of_ne hab.symm, h.right]
  · simp only [uint64, on, Function.update_self, toStr, hasked.s]
    exact h.leftStr
  · simp only [uint64, on, Function.update_of_ne hab.symm, h.rightStr]

theorem int64_left : Yields (At a b c d s t) (int64 a) c.int (At a b c.afterInt d s t) := by
  intro st h
  have hasked := (st a).toInt64_asked
  refine ⟨by rw [← h.left]; exact (st a).int?_toInt64, ?_, ?_, ?_, ?_⟩
  · simp only [int64, on, Function.update_self, conv_toInt64, h.left]
  · simp only [int64, on, Function.update_of_ne hab.symm, h.right]
  · simp only [int64, on, Function.update_self, toStr, hasked.s]
    exact h.leftStr
  · simp only [int64, on, Function.update_of_ne hab.symm, h.rightStr]

theorem uint64_right :
    Yields (At a b c d s t) (uint64 b) d.uint (At a b c d.afterUint s t) := by
  intro st h
  obtain ⟨hval, hrest⟩ := uint64_left hab.symm st h.swap
  exact ⟨hval, hrest.swap⟩

theorem int64_right : Yields (At a b c d s t) (int64 b) d.int (At a b c d.afterInt s t) := by
  intro st h
  obtain ⟨hval, hrest⟩ := int64_left hab.symm st h.swap
  exact ⟨hval, hrest.swap⟩

theorem settled_left (hc : c.afterUint = c ∧ c.afterInt = c) :
    Yields (At a b c d s t) (uint64 a) c.uint (At a b c d s t) ∧
      Yields (At a b c d s t) (int64 a) c.int (At a b c d s t) := by
  have hu := uint64_left hab (c := c) (d := d) (s := s) (t := t)
  have hi := int64_left hab (c := c) (d := d) (s := s) (t := t)
  rw [hc.1] at hu
  rw [hc.2] at hi
  exact ⟨hu, hi⟩

theorem settled_right (hd : d.afterUint = d ∧ d.afterInt = d) :
    Yields (At a b c d s t) (uint64 b) d.uint (At a b c d s t) ∧
      Yields (At a b c d s t) (int64 b) d.int (At a b c d s t) := by
  have hu := uint64_right hab (c := c) (d := d) (s := s) (t := t)
  have hi := int64_right hab (c := c) (d := d) (s := s) (t := t)
  rw [hd.1] at hu
  rw [hd.2] at hi
  exact ⟨hu, hi⟩

theorem cmp_uints {u w : UInt64} (hcu : c.uint = some u) (hdu : d.uint = some w) :
    Yields (At a b c d s t) (cmpIntegers a b) (order u.toNat w.toNat)
      fun _ => True := by
  have hboth : Yields (At a b c d s t) (both (uint64 a) (uint64 b)) (some (u, w)) _ :=
    both_some (hcu ▸ uint64_left hab) (hdu ▸ uint64_right hab)
  refine hboth.bind fun st _ => ⟨?_, trivial⟩
  exact order_uint u w

theorem cmp_uint_left {u : UInt64} (hc : c.Valid) (hd : d.Valid) (hcu : c.uint = some u)
    (hdu : d.uint = none) :
    Yields (At a b c d s t) (cmpIntegers a b)
      (match d.int with
        | some j => order u.toNat j.toInt
        | none => strCmp s t) fun _ => True := by
  have hboth : Yields (At a b c d s t) (both (uint64 a) (uint64 b)) none
      (At a b c.afterUint d.afterUint s t) :=
    both_some (hcu ▸ uint64_left hab) (hdu ▸ uint64_right hab)
  obtain ⟨hau, hai⟩ := settled_left hab (d := d.afterUint) (s := s) (t := t) c.afterUint_settled
  obtain ⟨hbu, hbi⟩ := settled_right hab (c := c.afterUint) (s := s) (t := t) d.afterUint_settled
  rw [c.afterUint_uint, hcu] at hau
  rw [d.afterUint_uint, hdu] at hbu
  rw [d.afterUint_int hdu] at hbi
  refine hboth.bind ((both_keep hai hbi).bind ?_)
  cases hdi : d.int with
  | none =>
    rw [hdi] at hbi
    have hnone : (c.afterUint.int.bind fun i => (none : Option Int64).map fun j => (i, j)) = none := by
      cases c.afterUint.int <;> rfl
    rw [hnone]
    refine (both_keep hau hbi).bind ((both_keep hai hbu).bind ?_)
    cases c.afterUint.int <;> exact strCmp_texts
  | some j =>
    have hj := hd.nonpos hdu hdi
    cases hci : c.afterUint.int with
    | some i =>
      refine fun st _ => ⟨?_, trivial⟩
      rw [← hc.same hcu hci]
      exact order_int i j
    | none =>
      rw [hdi] at hbi
      refine (both_keep hau hbi).bind fun st _ => ⟨?_, trivial⟩
      have hu := hc.afterUint.pos hci (c.afterUint_uint.trans hcu)
      exact (order_of_gt (by omega)).symm

theorem cmp_int_left (hc : c.Valid) (hd : d.Valid) (hcu : c.uint = none) :
    Yields (At a b c d s t) (cmpIntegers a b)
      (match c.int, d.signedNumber with
        | some i, some w => order i.toInt w
        | _, _ => strCmp s t) fun _ => True := by
  have hboth : Yields (At a b c d s t) (both (uint64 a) (uint64 b)) none
      (At a b c.afterUint d s t) := both_none (hcu ▸ uint64_left hab)
  obtain ⟨hau, hai⟩ := settled_left hab (d := d) (s := s) (t := t) c.afterUint_settled
  rw [c.afterUint_uint, hcu] at hau
  rw [c.afterUint_int hcu] at hai
  refine hboth.bind ?_
  cases hci : c.int with
  | none =>
    rw [hci] at hai
    exact (both_none hai).bind ((both_none hau).bind ((both_none hai).bind strCmp_texts))
  | some i =>
    rw [hci] at hai
    refine (both_some hai (int64_right hab)).bind ?_
    unfold Conv.signedNumber
    cases hdi : d.int with
    | some j => exact fun st _ => ⟨order_int i j, trivial⟩
    | none =>
      obtain ⟨hau, hai⟩ := settled_left hab (d := d.afterInt) (s := s) (t := t) c.afterUint_settled
      obtain ⟨hbu, -⟩ := settled_right hab (c := c.afterUint) (s := s) (t := t) d.afterInt_settled
      rw [c.afterUint_uint, hcu] at hau
      rw [c.afterUint_int hcu, hci] at hai
      rw [d.afterInt_uint hdi] at hbu
      refine (both_none hau).bind ((both_some hai hbu).bind ?_)
      cases hdu : d.uint with
      | none => exact strCmp_texts
      | some w =>
        have hw := hd.pos hdi hdu
        have hi := hc.nonpos hcu hci
        have hlt : i.toInt < w.toNat := by omega
        exact fun st _ => ⟨(order_of_lt hlt).symm, trivial⟩

theorem cmpIntegers_answer (hc : c.Valid) (hd : d.Valid) :
    Yields (At a b c d s t) (cmpIntegers a b) (c.cmp d s t) fun _ => True := by
  unfold Conv.cmp byNumber Conv.beside Conv.number
  cases hcu : c.uint with
  | none =>
    have h := cmp_int_left hab (s := s) (t := t) hc hd hcu
    cases hci : c.int with
    | none =>
      rw [hci] at h
      exact h
    | some i =>
      rw [hci] at h
      cases hw : d.signedNumber with
      | none =>
        rw [hw] at h
        exact h
      | some w =>
        rw [hw] at h
        exact h
  | some u =>
    cases hdu : d.uint with
    | none =>
      have h := cmp_uint_left hab (s := s) (t := t) hc hd hcu hdu
      cases hdi : d.int with
      | none =>
        rw [hdi] at h
        exact h
      | some j =>
        rw [hdi] at h
        exact h
    | some w => exact cmp_uints hab hcu hdu

end ScalarM

end Okws
