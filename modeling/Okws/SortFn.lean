import Mathlib.Algebra.Ring.Int.Defs
import Mathlib.Algebra.Ring.Nat
import Mathlib.Data.List.Perm.Basic
import Okws.Lib.Qsort

namespace Okws.Pub3.SortFn

open Lib

variable {α C σ : Type}

/-- What is called to compare: a function of the template, or the standard comparison. -/
inductive Callable (C : Type)
  | lambda (c : C)
  | std

/-- The lists on the heap, the globals `g_cmp` and `g_target`, and the rest of what an evaluation
can see and change. -/
structure World (α C σ : Type) where
  lists : List (List α)
  gCmp : Option (Callable C) := none
  gTarget : Nat := 0
  rest : σ

/-- What evaluates calls: `call` is `eval_to_val` of a function with two arguments, a result being
what `to_int` makes of it; `less` and `greater` are `expr_relation_t::eval_final`. -/
structure Evaluator (α C σ : Type) where
  call : C → α → α → World α C σ → Option Int64 × World α C σ
  less : α → α → Bool
  greater : α → α → Bool

variable (E : Evaluator α C σ)

/-- `cmp_t::v_eval_2`. -/
def cmpT (a b : α) : Int64 :=
  if E.less a b then -1 else if E.greater a b then 1 else 0

def evalToVal : Callable C → α → α → World α C σ → Option Int64 × World α C σ
  | .lambda c, a, b, w => E.call c a b w
  | .std, a, b, w => (some (cmpT E a b), w)

/-- The result of a comparison as the template sees it; nothing is -1. -/
def result (c : Callable C) (a b : α) (w : World α C σ) : Int :=
  ((evalToVal E c a b w).1.map Int64.toInt).getD (-1)

/-- `cmp_fn`, which puts the result into an `int`.  There is none if an index is not one of the
list that `g_target` is at. -/
def cmpFn (i j : Nat) (w : World α C σ) : Option (Int × World α C σ) := do
  let l ← w.lists[w.gTarget]?
  let a ← l[i]?
  let b ← l[j]?
  let c ← w.gCmp
  some ((result E c a b w).bmod (2 ^ 32), (evalToVal E c a b w).2)

/-- `sort_t::v_eval_2`, with the list at `l`; the sorted list is a new one. -/
def sort (q : Qsort Nat) (l : Nat) (cmp : Callable C) (w : World α C σ) :
    Option (Nat × World α C σ) := do
  let n ← (w.lists[l]?).map List.length
  let (v, w) ← (q.sorter (List.range n)).run (cmpFn E) { w with gTarget := l, gCmp := some cmp }
  let target ← w.lists[w.gTarget]?
  let ret ← v.mapM (target[·]?)
  some (w.lists.length, { w with lists := w.lists ++ [ret] })

/-- A comparison by which a list is to be sorted: its results are those of an order on the elements,
and it does not assign to the list. -/
structure Comparison (E : Evaluator α C σ) where
  cmp : Callable C
  list : Nat
  els : List α
  le : α → α → Prop
  order : TotalOn le els
  tells : ∀ a ∈ els, ∀ b ∈ els, ∀ w, w.lists[list]? = some els → Tells le a b (result E cmp a b w)
  keeps : ∀ a ∈ els, ∀ b ∈ els, ∀ w, w.lists[list]? = some els →
    (evalToVal E cmp a b w).2.lists[list]? = some els

namespace Comparison

variable {E} (S : Comparison E)

/-- The list is sorted into a new one, and stays what it is. -/
def Sorts : Prop := ∀ q w, w.lists[S.list]? = some S.els →
  ∃ r w' out, sort E q S.list S.cmp w = some (r, w') ∧ w'.lists[r]? = some out ∧
    out.Perm S.els ∧ out.Pairwise S.le ∧ w'.lists[S.list]? = some S.els

/-- The worlds in which the elements are compared. -/
structure Sorting (w : World α C σ) : Prop where
  kept : w.lists[S.list]? = some S.els
  target : w.gTarget = S.list
  cmp : w.gCmp = some S.cmp

/-- No comparison leaves another list or another comparison in the globals, as one would that
calls `sort`. -/
def Quiet : Prop := ∀ a ∈ S.els, ∀ b ∈ S.els, ∀ w, S.Sorting w →
  (evalToVal E S.cmp a b w).2.gTarget = S.list ∧ (evalToVal E S.cmp a b w).2.gCmp = some S.cmp

/-- As an `int` a result has the sign it had. -/
def Fits : Prop := ∀ a ∈ S.els, ∀ b ∈ S.els, ∀ w, S.Sorting w →
  ((result E S.cmp a b w).bmod (2 ^ 32)).sign = (result E S.cmp a b w).sign

variable {S} {w w' : World α C σ}

theorem cmpFn_eq (hw : S.Sorting w) {i j : Nat} {a b : α} (ha : S.els[i]? = some a)
    (hb : S.els[j]? = some b) : cmpFn E i j w =
      some ((result E S.cmp a b w).bmod (2 ^ 32), (evalToVal E S.cmp a b w).2) := by
  rw [cmpFn, hw.target, hw.kept, hw.cmp]
  dsimp only [Option.bind_eq_bind, Option.bind_some]
  rw [ha, hb]
  rfl

theorem sorting_step (hq : S.Quiet) (hw : S.Sorting w) {a b : α} (ha : a ∈ S.els)
    (hb : b ∈ S.els) : S.Sorting (evalToVal E S.cmp a b w).2 where
  kept := S.keeps a ha b hb w hw.kept
  target := (hq a ha b hb w hw).1
  cmp := (hq a ha b hb w hw).2

/-- The order of the elements, as one of their places. -/
def lePlace (S : Comparison E) (i j : Nat) : Prop :=
  ∀ a ∈ S.els[i]?, ∀ b ∈ S.els[j]?, S.le a b

theorem exists_place {i : Nat} (hi : i ∈ List.range S.els.length) :
    ∃ a, S.els[i]? = some a ∧ a ∈ S.els := by
  have hlt := List.mem_range.mp hi
  exact ⟨S.els[i], List.getElem?_eq_getElem hlt, List.getElem_mem hlt⟩

theorem lePlace_iff {i j : Nat} {a b : α} (ha : S.els[i]? = some a) (hb : S.els[j]? = some b) :
    S.lePlace i j ↔ S.le a b := by
  unfold lePlace
  rw [ha, hb]
  exact ⟨fun h => h a rfl b rfl, fun h _ ha _ hb => by cases ha; cases hb; exact h⟩

theorem totalOn_place (S : Comparison E) : TotalOn S.lePlace (List.range S.els.length) where
  trans i hi j hj k hk hij hjk := by
    obtain ⟨a, ha, ham⟩ := exists_place hi
    obtain ⟨b, hb, hbm⟩ := exists_place hj
    obtain ⟨c, hc, hcm⟩ := exists_place hk
    rw [lePlace_iff ha hb] at hij
    rw [lePlace_iff hb hc] at hjk
    rw [lePlace_iff ha hc]
    exact S.order.trans a ham b hbm c hcm hij hjk
  total i hi j hj := by
    obtain ⟨a, ha, ham⟩ := exists_place hi
    obtain ⟨b, hb, hbm⟩ := exists_place hj
    rw [lePlace_iff ha hb, lePlace_iff hb ha]
    exact S.order.total a ham b hbm

theorem run_sorting (hq : S.Quiet) (ok : Nat → Nat → Int → Prop) (q : Qsort Nat)
    (hok : ∀ i j a b, S.els[i]? = some a → S.els[j]? = some b → ∀ w, S.Sorting w →
      ok i j ((result E S.cmp a b w).bmod (2 ^ 32))) (hw : S.Sorting w) :
    ∃ v w', (q.sorter (List.range S.els.length)).run (cmpFn E) w = some (v, w') ∧
      (q.sorter (List.range S.els.length)).Result ok v ∧ S.Sorting w' := by
  refine Sorter.run_result (q.asks _) (fun i hi j hj w hw => ?_) hw
  obtain ⟨a, ha, ham⟩ := exists_place hi
  obtain ⟨b, hb, hbm⟩ := exists_place hj
  exact ⟨_, _, cmpFn_eq hw ha hb, hok i j a b ha hb w hw, sorting_step hq hw ham hbm⟩

theorem mapM_places {v : List Nat} (hv : ∀ i ∈ v, i ∈ List.range S.els.length) :
    ∃ out, v.mapM (S.els[·]?) = some out ∧ out.map some = v.map (S.els[·]?) := by
  induction v with
  | nil => exact ⟨[], rfl, rfl⟩
  | cons i v ih =>
    obtain ⟨a, ha, _⟩ := exists_place (hv i (.head _))
    obtain ⟨out, hout, heq⟩ := ih fun j hj => hv j (.tail _ hj)
    refine ⟨a :: out, ?_, ?_⟩
    · rw [List.mapM_cons, ha, hout]
      rfl
    · rw [List.map_cons, List.map_cons, heq, ha]

theorem sort_eq {q : Qsort Nat} (hl : w.lists[S.list]? = some S.els) {v : List Nat} {out : List α}
    (hrun : (q.sorter (List.range S.els.length)).run (cmpFn E)
      { w with gTarget := S.list, gCmp := some S.cmp } = some (v, w')) (hw' : S.Sorting w')
    (hout : v.mapM (S.els[·]?) = some out) : sort E q S.list S.cmp w =
      some (w'.lists.length, { w' with lists := w'.lists ++ [out] }) := by
  rw [sort, hl]
  dsimp only [Option.map_some, Option.bind_eq_bind, Option.bind_some]
  rw [hrun]
  dsimp only [Option.bind_some]
  rw [hw'.target, hw'.kept]
  dsimp only [Option.bind_some]
  rw [hout]
  rfl

theorem pairwise_places {v : List Nat} {out : List α} (h : out.map some = v.map (S.els[·]?)) :
    out.Pairwise S.le ↔ v.Pairwise S.lePlace := by
  have hout : out.Pairwise S.le ↔
      (out.map some).Pairwise fun x y => ∀ a ∈ x, ∀ b ∈ y, S.le a b := by
    rw [List.pairwise_map]
    refine List.Pairwise.iff fun a b => ?_
    exact ⟨fun hab _ ha _ hb => by cases ha; cases hb; exact hab, fun hab => hab a rfl b rfl⟩
  rw [hout, h, List.pairwise_map]
  rfl

theorem perm_places {v : List Nat} {out : List α} (h : out.map some = v.map (S.els[·]?))
    (hv : v.Perm (List.range S.els.length)) : out.Perm S.els := by
  have hrange : (List.range S.els.length).map (S.els[·]?) = S.els.map some := by
    refine List.ext_getElem (by simp) fun i hi _ => ?_
    have hlt : i < S.els.length := by simpa using hi
    simp [hlt]
  rw [← List.map_perm_map_iff (fun _ _ => Option.some_inj.1), h, ← hrange]
  exact hv.map _

theorem tells_of_sign {le : α → α → Prop} {a b : α} {r r' : Int} (h : Tells le a b r)
    (hr : r'.sign = r.sign) : Tells le a b r' := by
  constructor
  · rw [← h.1, ← Int.sign_nonpos_iff, hr, Int.sign_nonpos_iff]
  · rw [← h.2, ← Int.sign_nonneg_iff, hr, Int.sign_nonneg_iff]

theorem sorts_of_fits (hq : S.Quiet) (hf : S.Fits) : S.Sorts := by
  intro q w hl
  have hw : S.Sorting { w with gTarget := S.list, gCmp := some S.cmp } := ⟨hl, rfl, rfl⟩
  have htells (i j : Nat) (a b : α) (ha : S.els[i]? = some a) (hb : S.els[j]? = some b) (w)
      (hw : S.Sorting w) : Tells S.lePlace i j ((result E S.cmp a b w).bmod (2 ^ 32)) := by
    have ham := List.mem_of_getElem? ha
    have hbm := List.mem_of_getElem? hb
    unfold Tells
    rw [lePlace_iff ha hb, lePlace_iff hb ha]
    exact tells_of_sign (S.tells a ham b hbm w hw.kept) (hf a ham b hbm w hw)
  obtain ⟨v, w', hrun, hres, hw'⟩ := run_sorting hq (Tells S.lePlace) q htells hw
  obtain ⟨hperm, hsorted⟩ := q.sorts _ _ S.totalOn_place v hres
  obtain ⟨out, hout, heq⟩ := mapM_places fun i hi => hperm.subset hi
  refine ⟨_, _, out, sort_eq hl hrun hw' hout, ?_, perm_places heq hperm,
    (pairwise_places heq).2 hsorted, ?_⟩
  · rw [List.getElem?_append_right (Nat.le_refl _), Nat.sub_self]
    rfl
  · rw [List.getElem?_append_left (List.getElem?_eq_some_iff.mp hw'.kept).1]
    exact hw'.kept

theorem le_of_sorts (hq : S.Quiet) (hs : S.Sorts) (hw : S.Sorting w) {a b : α} (ha : a ∈ S.els)
    (hb : b ∈ S.els) (hne : a ≠ b) :
    ((result E S.cmp a b w).bmod (2 ^ 32) ≤ 0 → S.le a b) ∧
      (0 ≤ (result E S.cmp a b w).bmod (2 ^ 32) → S.le b a) := by
  obtain ⟨i, hi⟩ := List.mem_iff_getElem?.mp ha
  obtain ⟨j, hj⟩ := List.mem_iff_getElem?.mp hb
  have hij : i ≠ j := by
    rintro rfl
    exact hne (Option.some_inj.1 (hi.symm.trans hj))
  have hmem {i : Nat} {a : α} (hi : S.els[i]? = some a) : i ∈ List.range S.els.length :=
    List.mem_range.mpr (List.getElem?_eq_some_iff.mp hi).1
  have hww : { w with gTarget := S.list, gCmp := some S.cmp } = w := by
    rw [← hw.target, ← hw.cmp]
  have key (front : Option Nat) : ∃ v g, v = arrange (upFront front (List.range S.els.length)) g ∧
      g i j = (result E S.cmp a b w).bmod (2 ^ 32) ∧ v.Pairwise S.lePlace := by
    let q := Qsort.picking (some (i, j)) front
    obtain ⟨v, w', hrun, _, hw'⟩ := run_sorting hq (fun _ _ _ => True) q
      (fun _ _ _ _ _ _ _ _ => trivial) hw
    obtain ⟨g, hv, hg⟩ := Qsort.picking_run (hmem hi) (hmem hj) (cmpFn_eq hw hi hj) hrun
    have hperm : v.Perm (List.range S.els.length) :=
      hv ▸ (arrange_perm _ g).trans (upFront_perm front _)
    obtain ⟨out, hout, heq⟩ := mapM_places fun i hi => hperm.subset hi
    obtain ⟨r, w'', out', hsort, hr, _, hsorted, _⟩ := hs q w hw.kept
    rw [sort_eq hw.kept (hww.symm ▸ hrun) hw' hout] at hsort
    cases hsort
    rw [List.getElem?_append_right (Nat.le_refl _), Nat.sub_self] at hr
    cases hr
    exact ⟨v, g, hv, hg, (pairwise_places heq).1 hsorted⟩
  constructor
  · intro h
    obtain ⟨v, g, rfl, hg, hsorted⟩ := key (some i)
    have hsub := arrange_pair (upFront_pair (hmem hi) (hmem hj) hij.symm) (hg ▸ h)
    exact (lePlace_iff hi hj).1 (List.pairwise_pair.1 (hsorted.sublist hsub))
  · intro h
    obtain ⟨v, g, rfl, hg, hsorted⟩ := key (some j)
    have hsub := arrange_pair_of_nonneg (upFront_pair (hmem hj) (hmem hi) hij) (hg ▸ h)
    exact (lePlace_iff hj hi).1 (List.pairwise_pair.1 (hsorted.sublist hsub))

/-- Where no comparison calls `sort`, the list is sorted if and only if the results of the
comparisons have the same sign as an `int`. -/
theorem sorts_iff (hq : S.Quiet) : S.Sorts ↔ S.Fits := by
  refine ⟨fun hs a ha b hb w hw => ?_, sorts_of_fits hq⟩
  have htells := S.tells a ha b hb w hw.kept
  by_cases hr : result E S.cmp a b w = 0
  · rw [hr]
    rfl
  · have hne : a ≠ b := by
      rintro rfl
      have hle : S.le a a := (S.order.total a ha a ha).elim id id
      exact hr (Int.le_antisymm (htells.1.2 hle) (htells.2.2 hle))
    obtain ⟨hle, hge⟩ := le_of_sorts hq hs hw ha hb hne
    by_contra hsign
    rcases Int.lt_or_gt_of_ne hr with hneg | hpos
    · have hb' : 0 ≤ (result E S.cmp a b w).bmod (2 ^ 32) := by
        by_contra hlt
        refine hsign ?_
        rw [Int.sign_eq_neg_one_of_neg hneg, Int.sign_eq_neg_one_of_neg (Int.not_le.1 hlt)]
      exact absurd (htells.2.2 (hge hb')) (Int.not_le.2 hneg)
    · have hb' : (result E S.cmp a b w).bmod (2 ^ 32) ≤ 0 := by
        by_contra hlt
        refine hsign ?_
        rw [Int.sign_eq_one_of_pos hpos, Int.sign_eq_one_of_pos (Int.not_le.1 hlt)]
      exact absurd (htells.1.2 (hle hb')) (Int.not_le.2 hpos)

end Comparison

section Nested

def plain : Evaluator Int Unit Unit where
  call _ a b w := (some (if a < b then -1 else if b < a then 1 else 0), w)
  less a b := a < b
  greater a b := b < a

theorem tells_cmpT (a b : Int) : Tells (· ≤ ·) a b (cmpT plain a b).toInt := by
  unfold cmpT plain
  rcases Int.lt_trichotomy a b with h | rfl | h
  · rw [if_pos (decide_eq_true h)]
    exact ⟨iff_of_true (by decide) (Int.le_of_lt h), iff_of_false (by decide) (Int.not_le.2 h)⟩
  · rw [if_neg (by simp), if_neg (by simp)]
    exact ⟨iff_of_true (by decide) (Int.le_refl a), iff_of_true (by decide) (Int.le_refl a)⟩
  · rw [if_neg (by simpa using Int.le_of_lt h), if_pos (decide_eq_true h)]
    exact ⟨iff_of_false (by decide) (Int.not_le.2 h), iff_of_true (by decide) (Int.le_of_lt h)⟩

theorem totalOn_int (l : List Int) : TotalOn (· ≤ ·) l :=
  ⟨fun _ _ _ _ _ _ => Int.le_trans, fun a _ b _ => Int.le_total a b⟩

/-- `sort(l)`, of integers. -/
def standard (l : Nat) (els : List Int) : Comparison plain where
  cmp := .std
  list := l
  els := els
  le := (· ≤ ·)
  order := totalOn_int els
  tells a _ b _ _ _ := tells_cmpT a b
  keeps _ _ _ _ _ h := h

theorem standard_quiet (l : Nat) (els : List Int) : (standard l els).Quiet :=
  fun _ _ _ _ _ hw => ⟨hw.target, hw.cmp⟩

theorem cmpT_fits (a b : Int) :
    ((cmpT plain a b).toInt.bmod (2 ^ 32)).sign = (cmpT plain a b).toInt.sign := by
  unfold cmpT
  split_ifs <;> decide

theorem standard_fits (l : Nat) (els : List Int) : (standard l els).Fits :=
  fun a _ b _ _ _ => cmpT_fits a b

theorem sorts_iff_standard : (standard 0 [2, 1]).Sorts :=
  (Comparison.sorts_iff (standard_quiet 0 [2, 1])).2 (standard_fits 0 [2, 1])

theorem run_std {E : Evaluator α C σ} {s : Sorter Nat} {w w' : World α C σ} {v : List Nat}
    (hw : w.gCmp = some .std) (h : s.run (cmpFn E) w = some (v, w')) : w' = w := by
  induction s generalizing w with
  | done l =>
    cases h
    rfl
  | ask i j next ih =>
    obtain ⟨x, hx, hrest⟩ := Option.bind_eq_some_iff.mp h
    have hsame : x.2 = w := by
      simp only [cmpFn, hw, Option.bind_eq_bind, Option.bind_eq_some_iff] at hx
      obtain ⟨l, _, a, _, b, _, c, hc, hx⟩ := hx
      cases hc
      cases hx
      rfl
    rw [hsame] at hrest
    exact ih _ hw hrest

theorem sort_std {E : Evaluator α C σ} {q : Qsort Nat} {l r : Nat} {w w' : World α C σ}
    (h : sort E q l .std w = some (r, w')) : ∃ ret, w'.lists = w.lists ++ [ret] := by
  simp only [sort, Option.bind_eq_bind, Option.bind_eq_some_iff, Option.some_inj] at h
  obtain ⟨n, _, ⟨v, w₁⟩, hrun, t, _, ret, _, heq⟩ := h
  cases heq
  have hw₁ := run_std rfl hrun
  subst hw₁
  exact ⟨ret, rfl⟩

/-- The function sorts the list at 1, and then compares as the standard comparison does. -/
def nested (q : Qsort Nat) : Evaluator Int Unit Unit where
  call _ a b w := (some (cmpT plain a b), ((sort plain q 1 .std w).map Prod.snd).getD w)
  less a b := a < b
  greater a b := b < a

def bySorting (q : Qsort Nat) : Comparison (nested q) where
  cmp := .lambda ()
  list := 0
  els := [2, 1]
  le := (· ≤ ·)
  order := totalOn_int [2, 1]
  tells a _ b _ _ _ := tells_cmpT a b
  keeps a _ b _ w hw := by
    change ((((sort plain q 1 .std w).map Prod.snd).getD w).lists)[0]? = some [2, 1]
    cases h : sort plain q 1 .std w with
    | none => exact hw
    | some x =>
      obtain ⟨ret, hret⟩ := sort_std h
      rw [Option.map_some, Option.getD_some, hret,
        List.getElem?_append_left (List.getElem?_eq_some_iff.mp hw).1]
      exact hw

theorem sort_nil (q : Qsort Nat) (w : World Int Unit Unit) (h : w.lists[1]? = some []) :
    sort plain q 1 .std w = some (w.lists.length,
      { w with gTarget := 1, gCmp := some .std, lists := w.lists ++ [[]] }) := by
  have hw : (standard 1 []).Sorting { w with gTarget := 1, gCmp := some .std } := ⟨h, rfl, rfl⟩
  obtain ⟨v, w', hrun, hres, hw'⟩ := Comparison.run_sorting (standard_quiet 1 [])
    (Tells (standard 1 []).lePlace) q nofun hw
  obtain ⟨hperm, _⟩ := q.sorts _ _ (standard 1 []).totalOn_place v hres
  cases List.Perm.eq_nil hperm
  cases run_std rfl hrun
  exact Comparison.sort_eq (S := standard 1 []) h hrun hw' rfl

/-- The second comparison finds the list that the first one has sorted, and nothing in it. -/
theorem not_sorts : ¬ ∀ (q : Qsort Nat) (S : Comparison (nested q)), S.Sorts := by
  intro h
  let q : Qsort Nat := .picking none none
  let S := bySorting q
  let w : World Int Unit Unit :=
    { lists := [[2, 1], []], gTarget := 0, gCmp := some (.lambda ()), rest := () }
  obtain ⟨r, w', out, hsort, -⟩ := h q S q w rfl
  have hfirst : ∃ r, cmpFn (nested q) 0 0 w = some (r,
      { w with gTarget := 1, gCmp := some .std, lists := w.lists ++ [[]] }) := by
    refine ⟨(result (nested q) S.cmp 2 2 w).bmod (2 ^ 32),
      (Comparison.cmpFn_eq (S := S) ⟨rfl, rfl, rfl⟩ rfl rfl).trans ?_⟩
    have hsnd : (evalToVal (nested q) S.cmp 2 2 w).2 =
        ((sort plain q 1 .std w).map Prod.snd).getD w := rfl
    rw [hsnd, sort_nil q w rfl]
    rfl
  obtain ⟨x, hx⟩ := hfirst
  have hrun : (q.sorter (List.range 2)).run (cmpFn (nested q)) w = none := by
    change (gather _ (questions none [0, 1]) _).run _ w = none
    rw [show questions none [0, 1] = [(0, 0), (0, 1), (1, 0), (1, 1)] by decide, gather,
      Sorter.run, hx]
    rfl
  have hnone : sort (nested q) q 0 (.lambda ()) w = none := by
    change (((q.sorter (List.range 2)).run (cmpFn (nested q)) w).bind _) = none
    rw [hrun]
    rfl
  cases hnone.symm.trans hsort

end Nested

end Okws.Pub3.SortFn
