import Okws.Datum
import Okws.JsonEscape
import Okws.ScalarEq

namespace Okws.Pub3

open Scalar ScalarObj Zbuf

/-- What values rest on besides: doubles, the texts that `wide_str_t` decodes, and the places of
functions. -/
structure Machine where
  fp : Fp
  wide : Str → List Nat
  decodes : JsonEscape.Decodes wide
  doubleToInt : UInt64 → Int64
  locationToStr : Nat → Str

theorem decimal_plain (z : Int) : JsonEscape.findNonStdChar (decimal z) = false ∧
    ∀ b ∈ decimal z, JsonEscape.isSpecial b = false := by
  have hchar : ∀ b ∈ decimal z, b = 45 ∨ Inet.isDigit b = true := by
    intro b hb
    by_cases h0 : z < 0
    · rw [decimal_neg h0, List.mem_cons] at hb
      exact hb.imp_right (natural_all _ b)
    · obtain ⟨n, rfl⟩ := Int.eq_ofNat_of_zero_le (Int.not_lt.1 h0)
      exact .inr (natural_all n b (decimal_nat n ▸ hb))
  have hplain (b : UInt8) (hb : b = 45 ∨ Inet.isDigit b = true) :
      ¬ (b ≤ 0x1f || 0x7f < b) = true ∧ JsonEscape.isSpecial b = false := by
    obtain rfl | hb := hb
    · decide
    simp only [Inet.isDigit, Bool.and_eq_true, decide_eq_true_eq, UInt8.le_iff_toNat_le,
      UInt8.reduceToNat] at hb
    constructor
    · simp only [Bool.or_eq_true, decide_eq_true_eq, UInt8.le_iff_toNat_le, UInt8.lt_iff_toNat_lt,
        UInt8.reduceToNat]
      omega
    · refine decide_eq_false fun hmem => ?_
      simp only [List.mem_cons, List.not_mem_nil, or_false] at hmem
      obtain rfl | rfl | rfl | rfl | rfl := hmem <;> exact absurd hb (by decide)
  exact ⟨List.any_eq_false.2 fun b hb => (hplain b (hchar b hb)).1,
    fun b hb => (hplain b (hchar b hb)).2⟩

namespace Machine

variable (M : Machine)

def alloc (so : ScalarObj) : Constant :=
  match so.toInt64.int?, so.toInt64.toUint64.uint?, (so.toDouble M.fp).doubleCnv with
  | some i, _, _ => .int i
  | none, some u, _ => .uint u
  | none, none, .ok => .double (so.toDouble M.fp).d
  | none, none, _ => .str so.toStr

/-- An operation on two objects; a result that C leaves undefined is null here. -/
def binary (op : Nat → Nat → ScalarM (Option ScalarObj)) (p q : ScalarObj) : ScalarObj :=
  ((op 0 1 fun n => if n = 0 then p else q).1).getD {}

def math : MathOp → ScalarObj → ScalarObj → ScalarObj
  | .add => binary (ScalarM.plus M.fp)
  | .sub => binary (ScalarM.minus M.fp)
  | .mult => binary (ScalarM.times M.fp)
  | .div => binary (ScalarM.divOrMod M.fp true)
  | .mod => binary (ScalarM.divOrMod M.fp false)

def relation (op : RelOp) (p q : ScalarObj) : Bool := match op with
  | .lt => cmpOf M.fp p q < 0
  | .gt => 0 < cmpOf M.fp p q
  | .lte => cmpOf M.fp p q ≤ 0
  | .gte => 0 ≤ cmpOf M.fp p q

/-- Nothing is said about a text that `json_escape` has no result for. -/
def prims : Prims where
  jsonEscape utf8 s := (JsonEscape.jsonEscape M.wide s true utf8).getD []
  doubleToStr := M.fp.print
  doubleToInt := M.doubleToInt
  locationToStr := M.locationToStr
  Scalar := ScalarObj
  ofInt := ({} : ScalarObj).setI M.fp
  ofUint := ({} : ScalarObj).setU M.fp
  ofDouble := ({} : ScalarObj).setDouble M.fp
  ofStr s := { s := s, naturalType := .str }
  isNull so := so.s.isNone
  isInf := ScalarObj.isInf
  toInt64 so := so.toInt64.int?
  toConstant := M.alloc
  math := M.math
  eq p q := cmpOf M.fp p q = 0
  relation := M.relation

theorem quotesNumbers : QuotesNumbers M.prims := by
  intro z hz
  have hlen := length_decimal z hz
  have hescape : JsonEscape.jsonEscape M.wide (decimal z) true false =
      some (34 :: decimal z ++ [34]) :=
    JsonEscape.jsonEscape_plain (decimal_plain z).1 (decimal_plain z).2 (by omega)
  exact congrArg (Option.getD · []) hescape

end Machine

end Okws.Pub3
