import Okws.DatumEq
import Okws.DatumText

namespace Okws.Pub3.Datum

open Zbuf Lib

/-- The keys of the dictionaries in a datum are told apart by `strcmp`. -/
inductive Distinct : Datum → Prop
  | leaf {d : Datum} : d.constant.isSome → Distinct d
  | list {ds : List Datum} : (∀ d ∈ ds, Distinct d) → Distinct (.list ds)
  | dict {bs : List (Str × Datum)} : Apart cstr bs → (∀ b ∈ bs, Distinct b.2) → Distinct (.dict bs)

/-- The same constants, where numbers are the same if they are written alike in JSON, lists of the
same data, and dictionaries with the same keys and the same data behind each of them. -/
inductive Same : Datum → Datum → Prop
  | leaf {d e : Datum} : d.constant.isSome → e.constant.isSome → d.tree = e.tree → Same d e
  | list (els : List (Datum × Datum)) : (∀ b ∈ els, Same b.1 b.2) →
    Same (.list (els.map (·.1))) (.list (els.map (·.2)))
  | dict {bs cs : List (Str × Datum)} : (∀ k, (bs.lookup k).isSome = (cs.lookup k).isSome) →
    (∀ k d e, bs.lookup k = some d → cs.lookup k = some e → Same d e) → Same (.dict bs) (.dict cs)

variable {d e : Datum}

theorem apart_entries {bs : List (Str × Datum)} (h : Apart cstr bs) : Apart cstr (entries bs) := by
  rw [entries_eq, Apart, List.map_map]
  exact h

theorem tree_dict_iff {bs cs : List (Str × Datum)} (hb : Apart cstr bs) (hc : Apart cstr cs) :
    (Datum.dict bs).tree = (Datum.dict cs).tree ↔
      ∀ k, (bs.lookup k).map tree = (cs.lookup k).map tree := by
  rw [tree, tree, Tree.dict.injEq, sortBy_eq_iff (apart_entries hb) (apart_entries hc), entries_eq,
    entries_eq]
  exact forall_congr' fun k => by rw [lookup_map, lookup_map]

theorem Same.tree_eq (h : Same d e) (hd : Distinct d) (he : Distinct e) : d.tree = e.tree := by
  induction h with
  | leaf _ _ h => exact h
  | list els _ ih =>
    cases hd with
    | leaf h => cases h
    | list hd => cases he with
      | leaf h => cases h
      | list he =>
        rw [tree, tree, trees_eq, trees_eq, List.map_map, List.map_map]
        refine congrArg Tree.list (List.map_congr_left fun b hb => ?_)
        exact ih b hb (hd _ (List.mem_map_of_mem hb)) (he _ (List.mem_map_of_mem hb))
  | @dict bs cs hkeys _ ih =>
    cases hd with
    | leaf h => cases h
    | dict hb hd => cases he with
      | leaf h => cases h
      | dict hc he =>
        refine (tree_dict_iff hb hc).2 fun k => ?_
        have hk := hkeys k
        cases hbk : bs.lookup k with
        | none => cases hck : cs.lookup k with
          | none => rfl
          | some e =>
            rw [hbk, hck] at hk
            cases hk
        | some d => cases hck : cs.lookup k with
          | none =>
            rw [hbk, hck] at hk
            cases hk
          | some e =>
            exact congrArg some (ih k d e hbk hck (hd _ (hb.lookup.1 hbk)) (he _ (hc.lookup.1 hck)))

theorem tree_constant (h : d.constant.isSome) :
    (∀ ts, d.tree ≠ .list ts) ∧ ∀ bs, d.tree ≠ .dict bs := by
  cases d with
  | null | bool | str => exact ⟨by rintro _ ⟨⟩, by rintro _ ⟨⟩⟩
  | int | uint =>
    rw [tree, number]
    split <;> exact ⟨by rintro _ ⟨⟩, by rintro _ ⟨⟩⟩
  | list | dict => cases h

theorem zip_of_map {X Y : Type} {f : X → Y} {xs ys : List X} (h : xs.map f = ys.map f) :
    ∀ b ∈ xs.zip ys, f b.1 = f b.2 := by
  induction xs generalizing ys with
  | nil => exact nofun
  | cons x xs ih => cases ys with
    | nil => exact nofun
    | cons y ys =>
      rw [List.map_cons, List.map_cons, List.cons.injEq] at h
      exact List.forall_mem_cons.2 ⟨h.1, ih h.2⟩

theorem Same.of_tree (h : d.tree = e.tree) (hd : Distinct d) (he : Distinct e) : Same d e := by
  induction d using ind generalizing e with
  | leaf d c hc =>
    have hleaf : d.constant.isSome := Option.isSome_iff_exists.2 ⟨c, hc⟩
    cases he with
    | leaf he => exact .leaf hleaf he h
    | list => exact absurd h ((tree_constant hleaf).1 _)
    | dict => exact absurd h ((tree_constant hleaf).2 _)
  | list ds ih => cases he with
    | leaf he => exact absurd h.symm ((tree_constant he).1 _)
    | @list es he =>
      cases hd with
      | leaf hd => cases hd
      | list hd =>
        rw [tree, tree, trees_eq, trees_eq, Tree.list.injEq] at h
        have hlen : ds.length = es.length := by simpa using congrArg List.length h
        have hall := Same.list (ds.zip es) fun b hb => ih b.1 (List.of_mem_zip hb).1
          (zip_of_map h b hb) (hd _ (List.of_mem_zip hb).1) (he _ (List.of_mem_zip hb).2)
        rwa [List.map_fst_zip (by omega), List.map_snd_zip (by omega)] at hall
    | dict => cases h
  | dict bs ih => cases he with
    | leaf he => exact absurd h.symm ((tree_constant he).2 _)
    | list => cases h
    | @dict cs hc he =>
      cases hd with
      | leaf hd => cases hd
      | dict hb hd =>
        have hk := (tree_dict_iff hb hc).1 h
        refine .dict (fun k => ?_) fun k d e hbk hck => ?_
        · rw [← Option.isSome_map (f := tree), hk, Option.isSome_map]
        · have hde := hk k
          rw [hbk, hck] at hde
          exact ih (k, d) (hb.lookup.1 hbk) (Option.some.inj hde) (hd _ (hb.lookup.1 hbk))
            (he _ (hc.lookup.1 hck))

end Okws.Pub3.Datum
