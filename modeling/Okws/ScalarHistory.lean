import Okws.Lib.Stateful
import Okws.ScalarText

namespace Okws

open Lib Scalar ScalarObj

inductive ScalarOp
  | toInt64 (a : Nat)
  | toUint64 (a : Nat)
  | toBool (a : Nat)
  | cmp (a b : Nat)
  deriving DecidableEq

/-- What they return: `to_int64` both the value and whether there is one, and `to_uint64` too. -/
inductive ScalarAnswer
  | int (o : Option Int64) (i : Int64)
  | uint (o : Option UInt64) (u : UInt64)
  | bool (b : Bool)
  | sign (z : Int)
  deriving DecidableEq

namespace ScalarOp

variable (F : Fp)

def run : ScalarOp → ScalarM ScalarAnswer
  | .toInt64 a => ScalarM.on ScalarObj.toInt64 (fun p => .int p.int? p.i) a
  | .toUint64 a => ScalarM.on ScalarObj.toUint64 (fun p => .uint p.uint? p.u) a
  | .toBool a => return .bool (← ScalarM.toBool a)
  | .cmp a b => return .sign (← ScalarM.cmp F a b)

def exec (ops : List ScalarOp) (st : Scalars) : Scalars :=
  (ops.map (run F)).foldl (fun st x => (x st).2) st

end ScalarOp

/-- Behind any calls, on it and on the others, an object built from `s` answers as a new one. -/
def HistoryFree (F : Fp) (s : Str) : Prop :=
  ∀ (st : Scalars) (a : Nat) (ops : List ScalarOp) (op : ScalarOp), st a = ofStr s →
    (op.run F (ScalarOp.exec F ops st)).1 =
      (op.run F (Function.update (ScalarOp.exec F ops st) a (ofStr s))).1

/-- What an object remembers is what it would find out now. -/
structure Remembers (F : Fp) (s : Str) (p : ScalarObj) : Prop where
  str : p.s = some s
  naturalType : p.naturalType = .str
  int : p.intCnv ≠ .none → p.int? = myConvertint s ∧ p.i = (myConvertint s).getD 0
  uint : p.uintCnv ≠ .none → p.uint? = convertuint s ∧ p.u = (convertuint s).getD 0
  double : p.doubleCnv ≠ .none → p.d = (F.convert s).getD 0

namespace Remembers

variable {F : Fp} {s : Str} {p : ScalarObj}

theorem ofStr (F : Fp) (s : Str) : Remembers F s (ofStr s) where
  str := rfl
  naturalType := rfl
  int h := absurd rfl h
  uint h := absurd rfl h
  double h := absurd rfl h

theorem toDouble (h : Remembers F s p) :
    Remembers F s (p.toDouble F) ∧ (p.toDouble F).d = (F.convert s).getD 0 := by
  by_cases hd : p.doubleCnv = .none
  · unfold ScalarObj.toDouble
    rw [if_pos hd, h.str, Option.bind_some]
    cases hc : F.convert s with
    | none => exact ⟨⟨rfl, h.naturalType, h.int, h.uint, fun _ => by rw [hc]; rfl⟩, rfl⟩
    | some d => exact ⟨⟨rfl, h.naturalType, h.int, h.uint, fun _ => by rw [hc]; rfl⟩, rfl⟩
  · have hp : p.toDouble F = p := if_neg hd
    rw [hp]
    exact ⟨h, h.double hd⟩

variable (hs : ambiguous s = false)

include hs

theorem toInt64_eq (h : Remembers F s p) (hi : p.intCnv = .none) :
    p.toInt64 = match myConvertint s with
      | some i => { p with i := i, intCnv := .ok }
      | none => { p with i := 0, intCnv := .bad } := by
  unfold ScalarObj.toInt64
  rw [if_pos hi]
  by_cases hu : p.uintCnv = .ok
  · have hsome : some p.u = convertuint s := by
      rw [← (h.uint (by rw [hu]; exact nofun)).1]
      exact (if_pos hu).symm
    rw [if_pos hu, ((not_ambiguous_iff s).1 hs).1 _ hsome.symm, intOfUint]
    by_cases hlt : p.u.toNat < 2 ^ 63
    · rw [if_pos hlt, if_pos hlt]
    · rw [if_neg hlt, if_neg hlt]
  · rw [if_neg hu, h.str]
    rfl

theorem toUint64_eq (h : Remembers F s p) (hu : p.uintCnv = .none) :
    p.toUint64 = match convertuint s with
      | some u => { p with u := u, uintCnv := .ok }
      | none => { p with u := 0, uintCnv := .bad } := by
  unfold ScalarObj.toUint64
  rw [if_pos hu]
  by_cases hi : p.intCnv = .ok
  · have hsome : some p.i = myConvertint s := by
      rw [← (h.int (by rw [hi]; exact nofun)).1]
      exact (if_pos hi).symm
    rw [if_pos hi, ((not_ambiguous_iff s).1 hs).2 _ hsome.symm, uintOfInt]
    by_cases h0 : 0 ≤ p.i.toInt
    · rw [if_pos h0, if_pos h0]
    · rw [if_neg h0, if_neg h0]
  · rw [if_neg hi, h.str]
    rfl

theorem toInt64 (h : Remembers F s p) :
    Remembers F s p.toInt64 ∧ p.toInt64.int? = myConvertint s ∧
      p.toInt64.i = (myConvertint s).getD 0 := by
  by_cases hi : p.intCnv = .none
  · rw [toInt64_eq hs h hi]
    cases hc : myConvertint s with
    | none =>
      exact ⟨⟨h.str, h.naturalType, fun _ => by rw [hc]; exact ⟨rfl, rfl⟩, h.uint, h.double⟩,
        rfl, rfl⟩
    | some i =>
      exact ⟨⟨h.str, h.naturalType, fun _ => by rw [hc]; exact ⟨rfl, rfl⟩, h.uint, h.double⟩,
        rfl, rfl⟩
  · have hp : p.toInt64 = p := if_neg hi
    rw [hp]
    exact ⟨h, h.int hi⟩

theorem toUint64 (h : Remembers F s p) :
    Remembers F s p.toUint64 ∧ p.toUint64.uint? = convertuint s ∧
      p.toUint64.u = (convertuint s).getD 0 := by
  by_cases hu : p.uintCnv = .none
  · rw [toUint64_eq hs h hu]
    cases hc : convertuint s with
    | none =>
      exact ⟨⟨h.str, h.naturalType, h.int, fun _ => by rw [hc]; exact ⟨rfl, rfl⟩, h.double⟩,
        rfl, rfl⟩
    | some u =>
      exact ⟨⟨h.str, h.naturalType, h.int, fun _ => by rw [hc]; exact ⟨rfl, rfl⟩, h.double⟩,
        rfl, rfl⟩
  · have hp : p.toUint64 = p := if_neg hu
    rw [hp]
    exact ⟨h, h.uint hu⟩

end Remembers

/-- Two states in which the object `a` was built from `s`, and the other objects are the same. -/
structure SameBut (F : Fp) (s : Str) (a : Nat) (st st' : Scalars) : Prop where
  others : ∀ b, b ≠ a → st b = st' b
  left : Remembers F s (st a)
  right : Remembers F s (st' a)

section Respects

variable {F : Fp} {s : Str} {a : Nat}

theorem respects_on {α : Type} {f : ScalarObj → ScalarObj} {get : ScalarObj → α} {x : α}
    (h : ∀ p, Remembers F s p → Remembers F s (f p) ∧ get (f p) = x) (b : Nat) :
    Respects (SameBut F s a) (ScalarM.on f get b) := by
  intro st st' hst
  obtain ⟨hl, hxl⟩ := h _ hst.left
  obtain ⟨hr, hxr⟩ := h _ hst.right
  by_cases hb : b = a
  · subst hb
    refine ⟨hxl.trans hxr.symm, fun c hc => ?_, ?_, ?_⟩
    · simpa only [ScalarM.on, Function.update_of_ne hc] using hst.others c hc
    · simpa only [ScalarM.on, Function.update_self] using hl
    · simpa only [ScalarM.on, Function.update_self] using hr
  · have hsame := hst.others b hb
    refine ⟨by simp only [ScalarM.on, hsame], fun c hc => ?_, ?_, ?_⟩
    · by_cases hcb : c = b
      · subst hcb
        simp only [ScalarM.on, Function.update_self, hsame]
      · simpa only [ScalarM.on, Function.update_of_ne hcb] using hst.others c hc
    · simpa only [ScalarM.on, Function.update_of_ne (Ne.symm hb)] using hst.left
    · simpa only [ScalarM.on, Function.update_of_ne (Ne.symm hb)] using hst.right

theorem respects_double (b : Nat) : Respects (SameBut F s a) (ScalarM.double F b) :=
  respects_on (fun _ h => h.toDouble) b

theorem respects_get {α : Type} {get : ScalarObj → α} {x : α}
    (h : ∀ p, Remembers F s p → get p = x) (b : Nat) :
    Respects (SameBut F s a) fun st => (get (st b), st) := by
  intro st st' hst
  refine ⟨?_, hst⟩
  by_cases hb : b = a
  · subst hb
    exact (h _ hst.left).trans (h _ hst.right).symm
  · exact congrArg get (hst.others b hb)

theorem respects_str (b : Nat) : Respects (SameBut F s a) (ScalarM.str b) :=
  respects_get (fun p h => by rw [ScalarObj.toStr, h.str]) b

theorem respects_naturalType (b : Nat) : Respects (SameBut F s a) (ScalarM.naturalType b) :=
  respects_get (fun _ h => h.naturalType) b

theorem respects_both {α β : Type} {x : ScalarM (Option α)} {y : ScalarM (Option β)}
    (hx : Respects (SameBut F s a) x) (hy : Respects (SameBut F s a) y) :
    Respects (SameBut F s a) (ScalarM.both x y) :=
  hx.bind fun | none => .pure none | some _ => hy.bind fun _ => .pure _

variable (hs : ambiguous s = false)

include hs

theorem respects_int64 (b : Nat) : Respects (SameBut F s a) (ScalarM.int64 b) :=
  respects_on (fun _ h => ⟨(h.toInt64 hs).1, (h.toInt64 hs).2.1⟩) b

theorem respects_uint64 (b : Nat) : Respects (SameBut F s a) (ScalarM.uint64 b) :=
  respects_on (fun _ h => ⟨(h.toUint64 hs).1, (h.toUint64 hs).2.1⟩) b

theorem respects_cmp (b c : Nat) : Respects (SameBut F s a) (ScalarM.cmp F b c) := by
  have hint := respects_int64 (F := F) (a := a) hs
  have huint := respects_uint64 (F := F) (a := a) hs
  refine (respects_naturalType b).bind fun me => (respects_naturalType c).bind fun him => .ite ?_ ?_
  · exact (respects_double b).bind fun _ => (respects_double c).bind fun _ => .pure _
  · refine (respects_both (huint b) (huint c)).bind fun | some _ => .pure _ | none => ?_
    refine (respects_both (hint b) (hint c)).bind fun | some _ => .pure _ | none => ?_
    refine (respects_both (huint b) (hint c)).bind fun | some _ => .pure _ | none => ?_
    refine (respects_both (hint b) (huint c)).bind fun | some _ => .pure _ | none => ?_
    exact (respects_str b).bind fun _ => (respects_str c).bind fun _ => .pure _

theorem respects_run (op : ScalarOp) : Respects (SameBut F s a) (op.run F) := by
  cases op with
  | toInt64 b =>
    refine respects_on (x := .int (myConvertint s) ((myConvertint s).getD 0)) (fun p h => ?_) b
    obtain ⟨hp, ho, hi⟩ := h.toInt64 hs
    exact ⟨hp, by rw [ho, hi]⟩
  | toUint64 b =>
    refine respects_on (x := .uint (convertuint s) ((convertuint s).getD 0)) (fun p h => ?_) b
    obtain ⟨hp, ho, hu⟩ := h.toUint64 hs
    exact ⟨hp, by rw [ho, hu]⟩
  | toBool b =>
    refine .bind ?_ fun _ => .pure _
    refine (respects_int64 hs b).bind fun | some _ => .pure _ | none => ?_
    exact (respects_str b).bind fun _ => .pure _
  | cmp b c => exact (respects_cmp hs b c).bind fun _ => .pure _

theorem historyFree_of_not_ambiguous : HistoryFree F s := by
  intro st a ops op hst
  have hrun : ∀ x ∈ ops.map (ScalarOp.run F), Respects (SameBut F s a) x := by
    intro x hx
    obtain ⟨op, -, rfl⟩ := List.mem_map.1 hx
    exact respects_run hs op
  have hst' : Remembers F s (st a) := hst ▸ .ofStr F s
  have hsame : SameBut F s a (ScalarOp.exec F ops st) (ScalarOp.exec F ops st) :=
    Respects.run hrun ⟨fun _ _ => rfl, hst', hst'⟩
  refine (respects_run hs op _ _ ⟨fun b hb => ?_, hsame.left, ?_⟩).1
  · rw [Function.update_of_ne hb]
  · rw [Function.update_self]
    exact .ofStr F s

end Respects

section Fresh

variable {F : Fp} {s : Str}

theorem fresh_toInt64 (s : Str) : (ofStr s).toInt64 = match myConvertint s with
    | some i => { ofStr s with i := i, intCnv := .ok }
    | none => { ofStr s with i := 0, intCnv := .bad } := rfl

theorem fresh_toUint64 (s : Str) : (ofStr s).toUint64 = match convertuint s with
    | some u => { ofStr s with u := u, uintCnv := .ok }
    | none => { ofStr s with u := 0, uintCnv := .bad } := rfl

theorem fresh_int? (s : Str) : (ofStr s).toInt64.int? = myConvertint s := by
  rw [fresh_toInt64]
  cases myConvertint s <;> rfl

theorem fresh_uint? (s : Str) : (ofStr s).toUint64.uint? = convertuint s := by
  rw [fresh_toUint64]
  cases convertuint s <;> rfl

theorem not_ambiguous_of_historyFree (h : HistoryFree F s) : ambiguous s = false := by
  refine (not_ambiguous_iff s).2 ⟨fun u hu => ?_, fun i hi => ?_⟩
  · have := h (fun _ => ofStr s) 0 [.toUint64 0] (.toInt64 0) rfl
    simp only [ScalarOp.exec, List.map, List.foldl, ScalarOp.run, ScalarM.on,
      Function.update_self, ScalarAnswer.int.injEq] at this
    rw [← fresh_int?, ← this.1, fresh_toUint64, hu]
    exact int?_of_uint rfl rfl
  · have := h (fun _ => ofStr s) 0 [.toInt64 0] (.toUint64 0) rfl
    simp only [ScalarOp.exec, List.map, List.foldl, ScalarOp.run, ScalarM.on,
      Function.update_self, ScalarAnswer.uint.injEq] at this
    rw [← fresh_uint?, ← this.1, fresh_toInt64, hi]
    exact uint?_of_int rfl rfl

/-- The calls before do not matter if and only if the text is not ambiguous. -/
theorem historyFree_iff (F : Fp) (s : Str) : HistoryFree F s ↔ ambiguous s = false :=
  ⟨not_ambiguous_of_historyFree, historyFree_of_not_ambiguous⟩

/-- `-0`: behind `to_int64` it is an unsigned zero, too. -/
theorem not_historyFree_minus_zero : ¬ ∀ (F : Fp) (s : Str), HistoryFree F s := by
  intro h
  have hamb := not_ambiguous_of_historyFree (h .small (ascii ['-', '0']))
  revert hamb
  decide

end Fresh

end Okws
