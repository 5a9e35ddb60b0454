import Okws.Convert
import Okws.Lib.Assoc
import Okws.Lib.Depth

namespace Okws.Pub3

open Zbuf Lib Filter

inductive Datum
  | null
  | bool (b : Bool)
  | int (i : Int64)
  | uint (u : UInt64)
  | str (s : Str)
  | list (ds : List Datum)
  | dict (bs : List (Str × Datum))

/-- What is to be seen of a datum in the text of a dictionary: numbers of either kind are the same,
those that are too large for JSON are strings, and the entries of a dictionary are sorted. -/
inductive Tree
  | null
  | bool (b : Bool)
  | num (z : Int)
  | str (s : Str)
  | list (ts : List Tree)
  | dict (bs : List (Str × Tree))

namespace Datum

def constant : Datum → Option Constant
  | .null => some .null
  | .bool b => some (.bool b)
  | .int i => some (.int i)
  | .uint u => some (.uint u)
  | .str s => some (.str s)
  | .list _ | .dict _ => none

theorem ind {motive : Datum → Prop} (leaf : ∀ d c, d.constant = some c → motive d)
    (list : ∀ ds, (∀ d ∈ ds, motive d) → motive (.list ds))
    (dict : ∀ bs, (∀ b ∈ bs, motive b.2) → motive (.dict bs)) (d : Datum) : motive d := by
  refine @Datum.rec motive (fun ds => ∀ d ∈ ds, motive d) (fun bs => ∀ b ∈ bs, motive b.2)
    (fun b => motive b.2) (leaf _ _ rfl) (fun _ => leaf _ _ rfl) (fun _ => leaf _ _ rfl)
    (fun _ => leaf _ _ rfl) (fun _ => leaf _ _ rfl) list dict nofun ?_ nofun ?_ (fun _ _ h => h) d
  · intro d ds hd hds
    exact List.forall_mem_cons.2 ⟨hd, hds⟩
  · intro b bs hb hbs
    exact List.forall_mem_cons.2 ⟨hb, hbs⟩

def number (z : Int) : Tree := if isBig z then .str (decimal z) else .num z

mutual

def tree : Datum → Tree
  | .null => .null
  | .bool b => .bool b
  | .int i => number i.toInt
  | .uint u => number u.toNat
  | .str s => .str s
  | .list ds => .list (trees ds)
  | .dict bs => .dict (sortBy cstr (entries bs))

def trees : List Datum → List Tree
  | [] => []
  | d :: ds => tree d :: trees ds

def entries : List (Str × Datum) → List (Str × Tree)
  | [] => []
  | (k, d) :: bs => (k, tree d) :: entries bs

end

theorem trees_eq (ds : List Datum) : trees ds = ds.map tree := by
  induction ds with
  | nil => rw [trees, List.map_nil]
  | cons d ds ih => rw [trees, ih, List.map_cons]

theorem entries_eq (bs : List (Str × Datum)) : entries bs = bs.map fun b => (b.1, tree b.2) := by
  induction bs with
  | nil => rw [entries, List.map_nil]
  | cons b bs ih => rw [entries, ih, List.map_cons]

end Datum

section Text

variable (P : Prims)

/-- The options with which `expr_dict_t::to_scalar` writes. -/
def strOpt : StrOpt := { quoted := true, sortFields := true }

def entryText (b : Str × Str) : Str :=
  cstr (P.quote strOpt b.1) ++ Pub3.text " : " ++ cstr b.2

namespace Tree

mutual

def text : Tree → Str
  | .null => Pub3.text "null"
  | .bool b => Pub3.text (if b then "true" else "false")
  | .num z => decimal z
  | .str s => P.quote strOpt s
  | .list ts => vec2str (texts ts) 91 93 false
  | .dict bs => vec2str (entryTexts bs) 123 125 false

def texts : List Tree → List Str
  | [] => []
  | t :: ts => text t :: texts ts

def entryTexts : List (Str × Tree) → List Str
  | [] => []
  | (k, t) :: bs => entryText P (k, text t) :: entryTexts bs

end

theorem texts_eq (ts : List Tree) : texts P ts = ts.map (text P) := by
  induction ts with
  | nil => rw [texts, List.map_nil]
  | cons t ts ih => rw [texts, ih, List.map_cons]

theorem entryTexts_eq (bs : List (Str × Tree)) :
    entryTexts P bs = bs.map fun b => entryText P (b.1, text P b.2) := by
  induction bs with
  | nil => rw [entryTexts, List.map_nil]
  | cons b bs ih => rw [entryTexts, ih, List.map_cons]

end Tree

def QuotesNumbers : Prop :=
  ∀ z : Int, z.natAbs < 2 ^ 64 → P.quote strOpt (decimal z) = 34 :: decimal z ++ [34]

variable {P}

theorem quoteInt_eq (hP : QuotesNumbers P) {z : Int} (h : z.natAbs < 2 ^ 64) :
    quoteInt strOpt z = (Datum.number z).text P := by
  unfold quoteInt Datum.number
  by_cases hz : isBig z = true
  · rw [if_pos hz, if_pos (by rw [hz]; rfl), Tree.text, hP z h]
  · rw [if_neg hz, if_neg (by simp [hz]), Tree.text]

theorem natAbs_int64 (i : Int64) : i.toInt.natAbs < 2 ^ 64 := by
  have := i.le_toInt
  have := i.toInt_lt
  omega

theorem natAbs_uint64 (u : UInt64) : (u.toNat : Int).natAbs < 2 ^ 64 := u.toNat_lt

theorem constantToStr_eq (hP : QuotesNumbers P) {d : Datum} {c : Constant}
    (hc : d.constant = some c) : P.constantToStr strOpt c = d.tree.text P := by
  cases d with
  | null | bool | str =>
    cases hc
    rfl
  | int i =>
    cases hc
    exact quoteInt_eq hP (natAbs_int64 i)
  | uint u =>
    cases hc
    exact quoteInt_eq hP (natAbs_uint64 u)
  | list | dict => cases hc

end Text

section Holds

inductive Holds (h : Heap) : Option Ptr → Datum → Prop
  | none : Holds h none .null
  | leaf {p d c} : d.constant = some c → h.view p = some (.const c) → Holds h (some p) d
  | list {p} (els : List (Option Ptr × Datum)) : h.view p = some (.list (els.map (·.1))) →
    (∀ b ∈ els, Holds h b.1 b.2) → Holds h (some p) (.list (els.map (·.2)))
  | dict {p} (tab : List (Str × Option Ptr × Datum)) :
    h.view p = some (.dict (tab.map fun b => (b.1, b.2.1))) → (∀ b ∈ tab, Holds h b.2.1 b.2.2) →
    Holds h (some p) (.dict (tab.map fun b => (b.1, b.2.2)))

variable {P : Prims} {h : Heap} {x : Option Ptr} {d : Datum}

theorem Holds.view_constant {c : Constant} (hx : Holds h x d) (hc : d.constant = some c) :
    h.view (x.getD .null) = some (.const c) := by
  cases hx with
  | none =>
    cases hc
    rfl
  | leaf hc' hv =>
    cases hc.symm.trans hc'
    exact hv
  | list | dict => cases hc

theorem mapM_some {α β : Type} {f : α → Option β} {g : α → β} {xs : List α}
    (h : ∀ x ∈ xs, f x = some (g x)) : xs.mapM f = some (xs.map g) := by
  induction xs with
  | nil => rfl
  | cons x xs ih =>
    rw [List.mapM_cons, h x List.mem_cons_self, ih fun y hy => h y (List.mem_cons_of_mem _ hy)]
    rfl

theorem toStr_holds (hP : QuotesNumbers P) (hx : Holds h x d) : ∀ᶠ n in atTop,
    P.toStr h n strOpt (x.getD .null) = some (some (d.tree.text P)) := by
  induction d using Datum.ind generalizing x with
  | leaf d c hc =>
    refine eventually_succ (.of_forall fun n => ?_)
    rw [Prims.toStr, hx.view_constant hc, ← constantToStr_eq hP hc]
    rfl
  | list ds ih =>
    cases hx with
    | leaf hc => cases hc
    | list els hv hels =>
      have hall := eventually_mem fun b hb => ih b.2 (List.mem_map_of_mem hb) (hels b hb)
      refine eventually_succ (hall.mono fun n hn => ?_)
      have hts : (els.map (·.1)).mapM (fun x => P.toStr h n strOpt (x.getD .null)) =
          some (els.map fun b => some (b.2.tree.text P)) := by
        rw [List.mapM_map]
        exact mapM_some hn
      have htext : (els.map fun b => some (b.2.tree.text P)).map (·.getD []) =
          Tree.texts P (Datum.trees (els.map (·.2))) := by
        rw [Tree.texts_eq, Datum.trees_eq, List.map_map, List.map_map, List.map_map]
        rfl
      rw [Prims.toStr, Option.getD_some, hv, Datum.tree, Tree.text, ← htext]
      exact (congrArg (Option.bind · _) hts).trans rfl
  | dict bs ih =>
    cases hx with
    | leaf hc => cases hc
    | dict tab hv htab =>
      have hall := eventually_mem fun b hb =>
        ih (b.1, b.2.2) (List.mem_map_of_mem hb) (htab b hb)
      refine eventually_succ (hall.mono fun n hn => ?_)
      have hsort : Prims.sortKeys strOpt (tab.map fun b => (b.1, b.2.1)) =
          (sortBy cstr tab).map fun b => (b.1, b.2.1) :=
        (map_sortBy cstr (fun d : Option Ptr × Datum => d.1) tab).symm
      have hts : ((sortBy cstr tab).map fun b => (b.1, b.2.1)).mapM (fun b => do
          let t ← P.toStr h n strOpt (b.2.getD .null)
          some (entryText P (b.1, t.getD []))) =
            some ((sortBy cstr tab).map fun b => entryText P (b.1, b.2.2.tree.text P)) := by
        rw [List.mapM_map]
        refine mapM_some fun b hb => ?_
        exact Option.bind_eq_some_iff.2 ⟨_, hn b (List.mem_mergeSort.1 hb), rfl⟩
      have htext : (sortBy cstr tab).map (fun b => entryText P (b.1, b.2.2.tree.text P)) =
          Tree.entryTexts P (sortBy cstr (Datum.entries (tab.map fun b => (b.1, b.2.2)))) := by
        have hmap := map_sortBy cstr (fun d : Option Ptr × Datum => d.2.tree) tab
        rw [Tree.entryTexts_eq, Datum.entries_eq, List.map_map]
        exact (List.map_map (f := fun b : Str × Option Ptr × Datum => (b.1, b.2.2.tree))
          (g := fun b : Str × Tree => entryText P (b.1, b.2.text P))).symm.trans (congrArg _ hmap)
      rw [Prims.toStr, Option.getD_some, hv, Datum.tree, Tree.text, ← htext]
      rw [← hsort] at hts
      exact (congrArg (Option.bind · _) hts).trans rfl

end Holds

end Okws.Pub3
