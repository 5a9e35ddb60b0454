import Okws.DatumSame
import Okws.ScalarPrims

namespace Okws.Pub3

open Zbuf Lib Filter Scalar ScalarObj

namespace Datum

/-- A negative number beside a text that is read as the same signed number, but also as an unsigned
one, since its minus sign is behind blanks. -/
def Clash (d e : Datum) : Prop := ∃ j : Int64, j.toInt < 0 ∧
  (d = .int j ∨ ∃ s, d = .str s ∧ convertuint s = none ∧ myConvertint s = some j) ∧
  ∃ t, e = .str t ∧ (convertuint t).isSome ∧ myConvertint t = some j

end Datum

section Scalars

variable {M : Machine} {d e : Datum} {p q : ScalarObj} {j : Int64}

theorem conv_ofStr (s : Str) :
    ScalarObj.conv (M.prims.ofStr s) = .fresh (convertuint s) (myConvertint s) := rfl

theorem convert_brace (s : Str) : convertuint (123 :: s) = none ∧ myConvertint (123 :: s) = none := by
  have hnum : Scalar.number (cstr (123 :: s)) = none := rfl
  have hne : cstr (123 :: s) ≠ [] := nofun
  constructor
  · rw [convertuint, hnum, if_neg (by simp)]
    exact if_neg hne
  · rw [myConvertint, hnum, if_neg (by simp)]
    exact if_neg hne

theorem dict_text (bs : List (Str × Datum)) :
    ∃ s, (Datum.dict bs).tree.text M.prims = 123 :: s := ⟨_, rfl⟩

theorem natural_int (i : Int64) : Natural M.fp (M.prims.ofInt i) i.toInt := .int {} i

theorem natural_uint (u : UInt64) : Natural M.fp (M.prims.ofUint u) u.toNat := .uint {} u

inductive Atom (M : Machine) : Datum → ScalarObj → Prop
  | bool (b : Bool) : Atom M (.bool b) (M.prims.ofInt (if b then 1 else 0))
  | int (i : Int64) : Atom M (.int i) (M.prims.ofInt i)
  | uint (u : UInt64) : Atom M (.uint u) (M.prims.ofUint u)
  | str (s : Str) : Atom M (.str s) (M.prims.ofStr s)
  | dict (bs : List (Str × Datum)) :
    Atom M (.dict bs) (M.prims.ofStr ((Datum.dict bs).tree.text M.prims))

theorem Atom.shape (h : Atom M d p) : d.shape M.prims = .scalar p := by
  cases h <;> rfl

theorem Atom.sound (h : Atom M d p) : Sound p := by
  cases h with
  | bool b => exact sound_natural (natural_int _)
  | int i => exact sound_natural (natural_int i)
  | uint u => exact sound_natural (natural_uint u)
  | str s => exact sound_set {} s
  | dict bs => exact sound_set {} _

theorem natural_left {v : Int} (h : Natural M.fp p v) (hj : j.toInt < 0) :
    (p.conv.uint = none ∧ p.conv.int = some j) ↔ v = j.toInt := by
  have hrange := h.range
  rw [conv_natural h]
  by_cases h0 : 0 ≤ v
  · rw [if_pos h0]
    exact iff_of_false (fun h => nomatch h.1) (by omega)
  · rw [if_neg h0, if_pos (by omega)]
    constructor
    · rintro ⟨-, hv⟩
      rw [← Option.some.inj hv, Int64.toInt_ofInt_of_le hrange.1 (by omega)]
    · rintro rfl
      exact ⟨rfl, congrArg some (Int64.ofInt_toInt j)⟩

theorem natural_right {v : Int} (h : Natural M.fp p v) (hj : j.toInt < 0) :
    ¬ (p.conv.uint.isSome ∧ p.conv.int = some j) := by
  rw [conv_natural h]
  rintro ⟨hu, hi⟩
  by_cases h0 : 0 ≤ v
  · obtain ⟨hlt, hi⟩ := Option.ite_none_right_eq_some.1 hi
    rw [← Option.some.inj hi, Int64.toInt_ofInt_of_le (by omega) hlt] at hj
    omega
  · rw [if_neg h0] at hu
    cases hu

theorem Atom.signed_iff (h : Atom M d p) (hj : j.toInt < 0) :
    (p.conv.uint = none ∧ p.conv.int = some j) ↔
      (d = .int j ∨ ∃ s, d = .str s ∧ convertuint s = none ∧ myConvertint s = some j) := by
  cases h with
  | bool b =>
    rw [natural_left (natural_int _) hj]
    exact iff_of_false (by cases b <;> simp <;> omega) (by simp)
  | int i =>
    rw [natural_left (natural_int i) hj, Int64.toInt_inj]
    simp
  | uint u =>
    rw [natural_left (natural_uint u) hj]
    exact iff_of_false (by omega) (by simp)
  | str s =>
    rw [conv_ofStr]
    simp [Conv.uint, Conv.int]
  | dict bs =>
    obtain ⟨s, hs⟩ := dict_text (M := M) bs
    rw [hs, conv_ofStr, (convert_brace s).1, (convert_brace s).2]
    exact iff_of_false (by rintro ⟨-, ⟨⟩⟩) (by simp)

theorem Atom.wrapped_iff (h : Atom M d p) (hj : j.toInt < 0) :
    (p.conv.uint.isSome ∧ p.conv.int = some j) ↔
      ∃ t, d = .str t ∧ (convertuint t).isSome ∧ myConvertint t = some j := by
  cases h with
  | bool b => exact iff_of_false (natural_right (natural_int _) hj) (by simp)
  | int i => exact iff_of_false (natural_right (natural_int i) hj) (by simp)
  | uint u => exact iff_of_false (natural_right (natural_uint u) hj) (by simp)
  | str s =>
    rw [conv_ofStr]
    simp [Conv.uint, Conv.int]
  | dict bs =>
    obtain ⟨s, hs⟩ := dict_text (M := M) bs
    rw [hs, conv_ofStr, (convert_brace s).1, (convert_brace s).2]
    exact iff_of_false (by rintro ⟨-, ⟨⟩⟩) (by simp)

theorem Atom.clash_iff (hd : Atom M d p) (he : Atom M e q) :
    Conv.Clash p.conv q.conv ↔ d.Clash e := by
  constructor
  · rintro ⟨hpu, hqu, j, hj, hpi, hqi⟩
    exact ⟨j, hj, (hd.signed_iff hj).1 ⟨hpu, hpi⟩, (he.wrapped_iff hj).1 ⟨hqu, hqi⟩⟩
  · rintro ⟨j, hj, hl, hr⟩
    obtain ⟨hpu, hpi⟩ := (hd.signed_iff hj).2 hl
    obtain ⟨hqu, hqi⟩ := (he.wrapped_iff hj).2 hr
    exact ⟨hpu, hqu, j, hj, hpi, hqi⟩

theorem Atom.eq_iff (hd : Atom M d p) (he : Atom M e q) (h : ¬ d.Clash e) :
    M.prims.eq p q = true ↔ p.ident = q.ident := by
  have hc : ¬ Conv.Clash p.conv q.conv := fun hc => h ((hd.clash_iff he).1 hc)
  exact decide_eq_true_iff.trans (cmpOf_eq_zero hd.sound he.sound hc)

theorem Atom.eq_self (hd : Atom M d p) : M.prims.eq p p = true := by
  refine (hd.eq_iff hd ?_).2 rfl
  rintro ⟨j, -, rfl | ⟨s, rfl, hs, -⟩, t, ht, hu, -⟩
  · cases ht
  · cases ht
    rw [hs] at hu
    cases hu

theorem ident_ofStr (s : Str) : ScalarObj.ident (M.prims.ofStr s) =
    match (Conv.fresh (convertuint s) (myConvertint s)).number with
    | some v => .inl v
    | none => .inr s := rfl

theorem ident_natural {v : Int} (h : Natural M.fp p v) : p.ident = .inl v := by
  rw [ScalarObj.ident, num_natural h]

theorem Atom.dict_iff (bs cs : List (Str × Datum)) :
    Shape.alike M.prims.eq ((Datum.dict bs).shape M.prims) ((Datum.dict cs).shape M.prims) = true ↔
      (Datum.dict bs).tree.text M.prims = (Datum.dict cs).tree.text M.prims := by
  have hclash : ¬ (Datum.dict bs).Clash (.dict cs) := by
    rintro ⟨j, -, -, t, ht, -⟩
    cases ht
  have hident (bs : List (Str × Datum)) :
      ScalarObj.ident (M.prims.ofStr ((Datum.dict bs).tree.text M.prims)) =
        .inr ((Datum.dict bs).tree.text M.prims) := by
    obtain ⟨s, hs⟩ := dict_text (M := M) bs
    rw [hs, ident_ofStr, (convert_brace s).1, (convert_brace s).2]
    rfl
  rw [(Atom.dict bs).shape, (Atom.dict cs).shape, Shape.alike]
  refine ((Atom.dict bs).eq_iff (Atom.dict cs) hclash).trans ?_
  rw [hident, hident, Sum.inr.injEq]

end Scalars

section Made

open Shape

/-- Values that are made of the constants in a class, and of any dictionaries. -/
inductive Made (A : Datum → Prop) : Datum → Prop
  | null : Made A .null
  | constant {d : Datum} : d.constant.isSome → A d → Made A d
  | list {ds : List Datum} : (∀ d ∈ ds, Made A d) → Made A (.list ds)
  | dict (bs : List (Str × Datum)) : Made A (.dict bs)

variable {M : Machine} {A : Datum → Prop} {d e : Datum} {p q : ScalarObj}

theorem made_all (d : Datum) : Made (fun _ => True) d := by
  induction d using Datum.ind with
  | leaf d c hc => exact .constant (Option.isSome_iff_exists.2 ⟨c, hc⟩) trivial
  | list ds ih => exact .list ih
  | dict bs => exact .dict bs

theorem Made.atom (h : Made A d) (hp : Shape.Mem p (d.shape M.prims)) :
    ∃ a, Atom M a p ∧ (A a ∨ ∃ bs, a = .dict bs) := by
  induction h with
  | null => cases hp
  | @constant d hc hA =>
    refine ⟨d, ?_, .inl hA⟩
    cases d with
    | null => cases hp
    | bool b =>
      cases hp
      exact .bool b
    | int i =>
      cases hp
      exact .int i
    | uint u =>
      cases hp
      exact .uint u
    | str s =>
      cases hp
      exact .str s
    | list | dict => cases hc
  | list _ ih =>
    rw [Datum.shape, Datum.shapes_eq] at hp
    obtain ⟨s, hs, hp⟩ := mem_collapse hp
    obtain ⟨d, hd, rfl⟩ := List.mem_map.1 hs
    exact ih d hd hp
  | dict bs =>
    cases hp
    exact ⟨.dict bs, .dict bs, .inr ⟨bs, rfl⟩⟩

theorem alike_self (d : Datum) : alike M.prims.eq (d.shape M.prims) (d.shape M.prims) = true :=
  alike_refl _ fun p hp => by
    obtain ⟨a, ha, -⟩ := (made_all d).atom hp
    exact ha.eq_self

theorem Made.alike_iff (hA : ∀ d e, A d → A e → ¬ d.Clash e) (hd : Made A d) (he : Made A e) :
    alike M.prims.eq (d.shape M.prims) (e.shape M.prims) = true ↔
      (d.shape M.prims).map ScalarObj.ident = (e.shape M.prims).map ScalarObj.ident := by
  refine Shape.alike_iff _ _ fun p q hp hq => ?_
  obtain ⟨a, ha, hAa⟩ := hd.atom hp
  obtain ⟨b, hb, hAb⟩ := he.atom hq
  refine ha.eq_iff hb fun hc => ?_
  obtain hAa | ⟨bs, rfl⟩ := hAa
  · obtain hAb | ⟨bs, rfl⟩ := hAb
    · exact hA a b hAa hAb hc
    · obtain ⟨j, -, -, t, ht, -⟩ := hc
      cases ht
  · obtain ⟨j, -, h | ⟨s, h, -⟩, -⟩ := hc
    · cases h
    · cases h

theorem ident_decimal {z : Int} (h : -2 ^ 63 ≤ z ∧ z < 2 ^ 64) :
    ScalarObj.ident (M.prims.ofStr (decimal z)) = .inl z := by
  rw [ident_ofStr]
  by_cases h0 : z < 0
  · have hv : (Int64.ofInt z).toInt = z := Int64.toInt_ofInt_of_le h.1 (by omega)
    have hi := myConvertint_decimal (i := .ofInt z) (by omega)
    rw [hv] at hi
    rw [hi, decimal_neg h0, convertuint_neg]
    exact congrArg Sum.inl hv
  · have hu := convertuint_decimal (.ofInt z)
    rw [toNat_ofInt (Int.not_lt.1 h0) h.2] at hu
    rw [hu]
    exact congrArg Sum.inl (toNat_ofInt (Int.not_lt.1 h0) h.2)

/-- What the object for a constant is equal to, from the text of the constant. -/
def Tree.ident (M : Machine) : Tree → Int ⊕ Str
  | .bool b => .inl (if b then 1 else 0)
  | .num z => .inl z
  | .str s => ScalarObj.ident (M.prims.ofStr s)
  | _ => .inr []

theorem ident_number {z : Int} (h : -2 ^ 63 ≤ z ∧ z < 2 ^ 64) :
    (Datum.number z).ident M = .inl z := by
  unfold Datum.number
  split
  · exact ident_decimal h
  · rfl

theorem Atom.ident_tree (hd : Atom M d p) (hc : d.constant.isSome) :
    p.ident = d.tree.ident M := by
  cases hd with
  | bool b => cases b <;> exact ident_natural (natural_int _)
  | int i =>
    rw [Datum.tree, ident_number (natural_int (M := M) i).range]
    exact ident_natural (natural_int i)
  | uint u =>
    rw [Datum.tree, ident_number (natural_uint (M := M) u).range]
    exact ident_natural (natural_uint u)
  | str s => rfl
  | dict => cases hc

theorem not_clash_of_tree (h : d.tree = e.tree) : ¬ d.Clash e := by
  rintro ⟨j, hj, rfl | ⟨s, rfl, hs, -⟩, t, rfl, ht, -⟩
  · rw [Datum.tree, Datum.tree, Datum.number] at h
    split at h
    · rw [← Tree.str.inj h, decimal_neg hj, convertuint_neg] at ht
      cases ht
    · cases h
  · rw [Datum.tree, Datum.tree, Tree.str.injEq] at h
    rw [← h, hs] at ht
    cases ht

theorem atom_of_constant (hc : d.constant.isSome) : d = .null ∨ ∃ p, Atom M d p := by
  cases d with
  | null => exact .inl rfl
  | bool b => exact .inr ⟨_, .bool b⟩
  | int i => exact .inr ⟨_, .int i⟩
  | uint u => exact .inr ⟨_, .uint u⟩
  | str s => exact .inr ⟨_, .str s⟩
  | list | dict => cases hc

theorem tree_null (hc : d.constant.isSome) (h : d.tree = .null) : d = .null := by
  cases d with
  | null => rfl
  | bool | str => cases h
  | int | uint =>
    rw [Datum.tree, Datum.number] at h
    split at h <;> cases h
  | list | dict => cases hc

theorem Datum.Same.alike (h : d.Same e) (hd : d.Distinct) (he : e.Distinct) :
    Shape.alike M.prims.eq (d.shape M.prims) (e.shape M.prims) = true := by
  induction h with
  | @leaf d e hcd hce htree =>
    obtain rfl | ⟨p, hp⟩ := atom_of_constant (M := M) hcd
    · obtain rfl := tree_null hce htree.symm
      rfl
    obtain rfl | ⟨q, hq⟩ := atom_of_constant (M := M) hce
    · obtain rfl := tree_null hcd htree
      rfl
    rw [hp.shape, hq.shape]
    refine (hp.eq_iff hq (not_clash_of_tree htree)).2 ?_
    rw [hp.ident_tree hcd, hq.ident_tree hce, htree]
  | list els _ ih =>
    cases hd with
    | leaf hd => cases hd
    | list hd => cases he with
      | leaf he => cases he
      | list he =>
        rw [Datum.shape, Datum.shape, Datum.shapes_eq, Datum.shapes_eq, alike_collapse]
        exact allAlike_pairs _ els fun b hb =>
          ih b hb (hd _ (List.mem_map_of_mem hb)) (he _ (List.mem_map_of_mem hb))
  | dict hkeys hsame =>
    exact (Atom.dict_iff _ _).2 (congrArg _ ((Datum.Same.dict hkeys hsame).tree_eq hd he))

end Made

section Legible

open JsonEscape

/-- The texts and the keys in a datum are as `Q` says. -/
inductive Datum.Texts (Q : Str → Prop) : Datum → Prop
  | constant {d : Datum} : d.constant.isSome → (∀ s, d = .str s → Q s) → Texts Q d
  | list {ds : List Datum} : (∀ d ∈ ds, Texts Q d) → Texts Q (.list ds)
  | dict {bs : List (Str × Datum)} : (∀ b ∈ bs, Q b.1) → (∀ b ∈ bs, Texts Q b.2) → Texts Q (.dict bs)

variable {M : Machine} {d e : Datum}

theorem literal_of_faithful {s : Str} (h : Faithful M.wide s false) : Literal M.prims s := by
  obtain ⟨t, ht, -, hs⟩ := h
  have hquote : M.prims.quote strOpt s = t := congrArg (Option.getD · []) ht
  rw [Literal, hquote, hs]

theorem literal_plain {s : Str} (hstd : findNonStdChar s = false)
    (hs : ∀ b ∈ s, isSpecial b = false) (hlen : s.length < 2 ^ 31) : Literal M.prims s := by
  have hquote : M.prims.quote strOpt s = 34 :: s ++ [34] :=
    congrArg (Option.getD · []) (jsonEscape_plain hstd hs hlen)
  rw [Literal, hquote]
  exact string_plain hstd hs

theorem number_legible {z : Int} (h : z.natAbs < 2 ^ 64) : (Datum.number z).Legible M.prims := by
  unfold Datum.number
  split
  · have hlen := length_decimal z h
    exact .str (literal_plain (decimal_plain z).1 (decimal_plain z).2 (by omega))
  · exact .num z

theorem Datum.Texts.legible (h : d.Texts (Faithful M.wide · false)) : d.tree.Legible M.prims := by
  induction h with
  | @constant d hc hs =>
    cases d with
    | null => exact .null
    | bool b => exact .bool b
    | int i => exact number_legible (natAbs_int64 i)
    | uint u => exact number_legible (natAbs_uint64 u)
    | str s => exact .str (literal_of_faithful (hs s rfl))
    | list | dict => cases hc
  | list _ ih =>
    rw [tree, trees_eq]
    exact .list (List.forall_mem_map.2 ih)
  | dict hkeys _ ih =>
    rw [tree, entries_eq]
    refine .dict (fun b hb => ?_) fun b hb => ?_
    all_goals
      obtain ⟨c, hc, rfl⟩ := List.mem_map.1 ((sortBy_perm _).mem_iff.1 hb)
    · exact literal_of_faithful (hkeys c hc)
    · exact ih c hc

end Legible

section Laws

variable (M : Machine) (A : Datum → Prop)

/-- What `eval_static` answers from some depth of calls on. -/
def Answers (h : Heap) (x y : Option Ptr) (b : Bool) : Prop :=
  ∀ᶠ n in atTop, ∀ pos, evalStatic M.prims h n x y pos = some (b == pos)

/-- The laws of equality: for all values there is an answer; it is reflexive, for values of the class
symmetric and transitive, finds data the same whatever the order of their entries, and tells
dictionaries apart that differ in a key or in a value. -/
structure Equality : Prop where
  answers : ∀ h x y d e, Holds h x d → Holds h y e → ∃ b, Answers M h x y b
  refl : ∀ h x y d, Holds h x d → Holds h y d → Answers M h x y true
  symm : ∀ h x y d e, Holds h x d → Holds h y e → Made A d → Made A e →
    Answers M h x y true → Answers M h y x true
  trans : ∀ h x y z d e f, Holds h x d → Holds h y e → Holds h z f → Made A d → Made A e →
    Made A f → Answers M h x y true → Answers M h y z true → Answers M h x z true
  same : ∀ h x y d e, Holds h x d → Holds h y e → d.Distinct → e.Distinct → d.Same e →
    Answers M h x y true
  differ : ∀ h x y bs cs, Holds h x (.dict bs) → Holds h y (.dict cs) →
    (Datum.dict bs).Distinct → (Datum.dict cs).Distinct →
    (Datum.dict bs).Texts (JsonEscape.Faithful M.wide · false) →
    (Datum.dict cs).Texts (JsonEscape.Faithful M.wide · false) →
    ¬ (Datum.dict bs).Same (.dict cs) → Answers M h x y false

variable {M A} {h : Heap} {x y : Option Ptr} {d e : Datum}

theorem answers_iff (hx : Holds h x d) (hy : Holds h y e) (b : Bool) :
    Answers M h x y b ↔ Shape.alike M.prims.eq (d.shape M.prims) (e.shape M.prims) = b := by
  have hall := evalStatic_holds M.quotesNumbers hx hy
  constructor
  · intro h
    obtain ⟨n, hn, hb⟩ := (hall.and h).exists
    simpa using (hn true).symm.trans (hb true)
  · rintro rfl
    exact hall

theorem holds_constant {c : Constant} (hc : d.constant = some c) :
    Holds [] (some (.const c)) d := .leaf hc rfl

theorem Datum.Clash.one_way (hc : d.Clash e) : d.constant.isSome ∧ e.constant.isSome ∧
    Shape.alike M.prims.eq (d.shape M.prims) (e.shape M.prims) = true ∧
    Shape.alike M.prims.eq (e.shape M.prims) (d.shape M.prims) = false := by
  have hatom : d.constant.isSome ∧ e.constant.isSome ∧ d ≠ .null ∧ e ≠ .null := by
    obtain ⟨j, -, rfl | ⟨s, rfl, -⟩, t, rfl, -⟩ := hc <;> exact ⟨rfl, rfl, nofun, nofun⟩
  obtain ⟨hd, he, hdn, hen⟩ := hatom
  obtain ⟨p, hp⟩ := (atom_of_constant (M := M) hd).resolve_left hdn
  obtain ⟨q, hq⟩ := (atom_of_constant (M := M) he).resolve_left hen
  obtain ⟨hzero, hne⟩ := cmpOf_clash (F := M.fp) hp.sound hq.sound ((hp.clash_iff hq).2 hc)
  refine ⟨hd, he, ?_, ?_⟩
  · rw [hp.shape, hq.shape]
    exact decide_eq_true hzero
  · rw [hp.shape, hq.shape]
    exact decide_eq_false hne

theorem equality_iff_no_clash (M : Machine) (A : Datum → Prop) :
    Equality M A ↔ ∀ d e, A d → A e → ¬ d.Clash e := by
  constructor
  · intro h d e hd he hc
    obtain ⟨hdc, hec, hde, hed⟩ := hc.one_way (M := M)
    obtain ⟨c, hdc'⟩ := Option.isSome_iff_exists.1 hdc
    obtain ⟨c', hec'⟩ := Option.isSome_iff_exists.1 hec
    have hx := holds_constant hdc'
    have hy := holds_constant hec'
    have hyx := h.symm [] _ _ d e hx hy (.constant hdc hd) (.constant hec he)
      ((answers_iff hx hy true).2 hde)
    rw [answers_iff hy hx, hed] at hyx
    cases hyx
  · intro hA
    constructor
    · intro h x y d e hx hy
      exact ⟨_, (answers_iff hx hy _).2 rfl⟩
    · intro h x y d hx hy
      exact (answers_iff hx hy true).2 (alike_self d)
    · intro h x y d e hx hy hd he hxy
      rw [answers_iff hx hy, hd.alike_iff hA he] at hxy
      exact (answers_iff hy hx true).2 ((he.alike_iff hA hd).2 hxy.symm)
    · intro h x y z d e f hx hy hz hd he hf hxy hyz
      rw [answers_iff hx hy, hd.alike_iff hA he] at hxy
      rw [answers_iff hy hz, he.alike_iff hA hf] at hyz
      exact (answers_iff hx hz true).2 ((hd.alike_iff hA hf).2 (hxy.trans hyz))
    · intro h x y d e hx hy hd he hsame
      exact (answers_iff hx hy true).2 (hsame.alike hd he)
    · intro h x y bs cs hx hy hb hc htb htc hne
      rw [answers_iff hx hy, Bool.eq_false_iff]
      intro heq
      exact hne (.of_tree (htb.legible.text_inj htc.legible ((Atom.dict_iff bs cs).1 heq)) hb hc)

def Machine.small : Machine where
  fp := .small
  wide := JsonEscape.wideStr
  decodes := JsonEscape.decodes_wideStr
  doubleToInt _ := 0
  locationToStr _ := []

/-- The number 1 and its text are equal, but not behind the key of a dictionary. -/
theorem not_equal_pairwise : ¬ ∀ (M : Machine) (h : Heap) (x y : Option Ptr)
    (bs cs : List (Str × Datum)), Holds h x (.dict bs) → Holds h y (.dict cs) →
    (∀ k, (bs.lookup k).isSome = (cs.lookup k).isSome) →
    (∀ k d e x' y', bs.lookup k = some d → cs.lookup k = some e → Holds h x' d → Holds h y' e →
      Answers M h x' y' true) → Answers M h x y true := by
  intro h
  have hx : Holds [] (some (.node (.dict 1 [([97], some (.constant (.int 1)))])))
      (.dict [([97], .int 1)]) :=
    .dict [([97], some (.const (.int 1)), .int 1)] rfl
      (List.forall_mem_singleton.2 (holds_constant rfl))
  have hy : Holds [] (some (.node (.dict 1 [([97], some (.constant (.str [49])))])))
      (.dict [([97], .str [49])]) :=
    .dict [([97], some (.const (.str [49])), .str [49])] rfl
      (List.forall_mem_singleton.2 (holds_constant rfl))
  have hkey : Literal Machine.small.prims [97] :=
    literal_plain rfl (List.forall_mem_singleton.2 rfl) (by decide)
  have hlegible (t : Tree) (ht : t.Legible Machine.small.prims) :
      (Tree.dict [([97], t)]).Legible Machine.small.prims :=
    .dict (List.forall_mem_singleton.2 hkey) (List.forall_mem_singleton.2 ht)
  have htree (d : Datum) : (Datum.dict [([97], d)]).tree = .dict [([97], d.tree)] := by
    rw [Datum.tree, Datum.entries_eq, List.map_singleton, sortBy, List.mergeSort_singleton]
  have heq := h .small [] _ _ _ _ hx hy (fun k => ?_) fun k d e x' y' hd he hx' hy' => ?_
  · rw [answers_iff hx hy, Atom.dict_iff, htree, htree] at heq
    have htrees := (hlegible _ (.num 1)).text_inj (hlegible _ (.str (literal_plain rfl
      (List.forall_mem_singleton.2 rfl) (by decide)))) heq
    cases htrees
  · rw [List.lookup_cons, List.lookup_cons]
    cases k == [97] <;> rfl
  · rw [List.lookup_cons] at hd he
    cases hk : k == [97] with
    | false =>
      rw [hk] at hd
      cases hd
    | true =>
      rw [hk] at hd he
      cases hd
      cases he
      exact (answers_iff hx' hy' true).2 rfl

end Laws

end Okws.Pub3
