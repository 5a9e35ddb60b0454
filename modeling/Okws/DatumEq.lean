import Okws.Datum

namespace Okws.Pub3

open Lib Filter

/-- A value as equality sees it: a list of one scalar is that scalar. -/
inductive Shape (S : Type)
  | null
  | scalar (s : S)
  | list (ss : List (Shape S))

namespace Shape

variable {S : Type}

def collapse : List (Shape S) → Shape S
  | [.scalar s] => .scalar s
  | ss => .list ss

section Alike

variable (eq : S → S → Bool)

mutual

def alike : Shape S → Shape S → Bool
  | .null, .null => true
  | .scalar s, .scalar t => eq s t
  | .list ss, .list ts => allAlike ss ts
  | _, _ => false

def allAlike : List (Shape S) → List (Shape S) → Bool
  | [], [] => true
  | s :: ss, t :: ts => alike s t && allAlike ss ts
  | _, _ => false

end

theorem alike_collapse (ss ts : List (Shape S)) :
    alike eq (collapse ss) (collapse ts) = allAlike eq ss ts := by
  rcases ss with _ | ⟨_ | s | _, _ | ⟨s', ss⟩⟩ <;> rcases ts with _ | ⟨_ | t | _, _ | ⟨t', ts⟩⟩ <;>
    simp [collapse, alike, allAlike]

theorem null_collapse (ss : List (Shape S)) :
    alike eq .null (collapse ss) = false ∧ alike eq (collapse ss) .null = false := by
  unfold collapse
  split <;> exact ⟨rfl, rfl⟩

theorem allAlike_length {ss ts : List (Shape S)} (h : allAlike eq ss ts = true) :
    ss.length = ts.length := by
  induction ss generalizing ts with
  | nil => cases ts with
    | nil => rfl
    | cons => cases h
  | cons s ss ih => cases ts with
    | nil => cases h
    | cons t ts =>
      rw [allAlike, Bool.and_eq_true] at h
      rw [List.length_cons, List.length_cons, ih h.2]

end Alike

inductive Mem (s : S) : Shape S → Prop
  | here : Mem s (.scalar s)
  | there {t : Shape S} {ts : List (Shape S)} : t ∈ ts → Mem s t → Mem s (.list ts)

variable {T : Type} {eq : S → S → Bool} {f : S → T}

theorem ind {motive : Shape S → Prop} (null : motive .null) (scalar : ∀ s, motive (.scalar s))
    (list : ∀ ss, (∀ s ∈ ss, motive s) → motive (.list ss)) (s : Shape S) : motive s := by
  refine @Shape.rec S motive (fun ss => ∀ s ∈ ss, motive s) null scalar list nofun ?_ s
  intro s ss hs hss
  exact List.forall_mem_cons.2 ⟨hs, hss⟩

mutual

def map (f : S → T) : Shape S → Shape T
  | .null => .null
  | .scalar s => .scalar (f s)
  | .list ss => .list (maps f ss)

def maps (f : S → T) : List (Shape S) → List (Shape T)
  | [] => []
  | s :: ss => map f s :: maps f ss

end

theorem allAlike_pairs {X : Type} (g : X → Shape S) (els : List (X × X))
    (h : ∀ b ∈ els, alike eq (g b.1) (g b.2) = true) :
    allAlike eq ((els.map (·.1)).map g) ((els.map (·.2)).map g) = true := by
  induction els with
  | nil => rfl
  | cons b els ih =>
    obtain ⟨hb, hels⟩ := List.forall_mem_cons.1 h
    exact Bool.and_eq_true_iff.2 ⟨hb, ih hels⟩

theorem alike_refl (s : Shape S) (h : ∀ p, Mem p s → eq p p = true) : alike eq s s = true := by
  induction s using ind with
  | null => rfl
  | scalar s => exact h s .here
  | list ss ih =>
    rw [alike]
    induction ss with
    | nil => rfl
    | cons s ss ihs =>
      rw [allAlike, Bool.and_eq_true]
      refine ⟨ih s List.mem_cons_self fun p hp => h p (.there List.mem_cons_self hp), ?_⟩
      refine ihs (fun s hs => ih s (.tail _ hs)) fun p hp => ?_
      cases hp with
      | there hs hp => exact h p (.there (.tail _ hs) hp)

theorem alike_iff (s t : Shape S) (h : ∀ p q, Mem p s → Mem q t → (eq p q = true ↔ f p = f q)) :
    alike eq s t = true ↔ s.map f = t.map f := by
  induction s using ind generalizing t with
  | null => cases t with
    | null => exact iff_of_true rfl rfl
    | scalar | list => exact iff_of_false nofun nofun
  | scalar s => cases t with
    | scalar t =>
      rw [alike, map, map, scalar.injEq]
      exact h s t .here .here
    | null | list => exact iff_of_false nofun nofun
  | list ss ih => cases t with
    | list ts =>
      rw [alike, map, map, list.injEq]
      induction ss generalizing ts with
      | nil => cases ts with
        | nil => exact iff_of_true rfl rfl
        | cons => exact iff_of_false nofun nofun
      | cons s ss ihs => cases ts with
        | nil => exact iff_of_false nofun nofun
        | cons t ts =>
          rw [allAlike, Bool.and_eq_true, maps, maps, List.cons.injEq]
          refine and_congr (ih s List.mem_cons_self t fun p q hp hq =>
            h p q (.there List.mem_cons_self hp) (.there List.mem_cons_self hq)) ?_
          refine ihs (fun s hs => ih s (.tail _ hs)) ts fun p q hp hq => ?_
          cases hp with
          | there hs hp => cases hq with
            | there ht hq => exact h p q (.there (.tail _ hs) hp) (.there (.tail _ ht) hq)
    | null | scalar => exact iff_of_false nofun nofun

theorem mem_collapse {p : S} {ss : List (Shape S)} (h : Mem p (collapse ss)) :
    ∃ s ∈ ss, Mem p s := by
  unfold collapse at h
  split at h
  · next s => exact ⟨_, List.mem_singleton_self _, h⟩
  · cases h with
    | there hs hp => exact ⟨_, hs, hp⟩

end Shape

namespace Datum

variable (P : Prims)

mutual

def shape : Datum → Shape P.Scalar
  | .null => .null
  | .bool b => .scalar (P.ofInt (if b then 1 else 0))
  | .int i => .scalar (P.ofInt i)
  | .uint u => .scalar (P.ofUint u)
  | .str s => .scalar (P.ofStr s)
  | .list ds => .collapse (shapes ds)
  | .dict bs => .scalar (P.ofStr ((Datum.dict bs).tree.text P))

def shapes : List Datum → List (Shape P.Scalar)
  | [] => []
  | d :: ds => shape d :: shapes ds

end

theorem shapes_eq (ds : List Datum) : shapes P ds = ds.map (shape P) := by
  induction ds with
  | nil => rw [shapes, List.map_nil]
  | cons d ds ih => rw [shapes, ih, List.map_cons]

end Datum

section Answer

open Shape

/-- What is looked at of a value that is compared. -/
inductive Seen (P : Prims) (h : Heap) (x : Option Ptr) : Datum → Prop
  | null : h.isNull x = some true → Seen P h x .null
  | scalar {p d s} : x = some p → d.shape P = .scalar s → h.isNull x = some false →
    h.asList x = some none → (∀ᶠ n in atTop, P.toScalar h n p = some s) → Seen P h x d
  | list (els : List (Option Ptr × Datum)) : h.isNull x = some false →
    h.asList x = some (some (els.map (·.1))) → (∀ b ∈ els, Holds h b.1 b.2) →
    Seen P h x (.list (els.map (·.2)))

variable {P : Prims} {h : Heap} {x y : Option Ptr} {d e : Datum}

theorem seen_of_holds (hP : QuotesNumbers P) (hx : Holds h x d) : Seen P h x d := by
  have hstr := toStr_holds hP hx
  cases hx with
  | none => exact .null rfl
  | @leaf p d c hc hv =>
    have hlist : h.asList (some p) = some none := by
      rw [Heap.asList, hv]
      rfl
    have hscalar (n : Nat) : P.toScalar h n p = (some (View.const c)).bind _ :=
      congrArg (Option.bind · _) hv
    cases d with
    | null =>
      cases hc
      exact .null (by rw [Heap.isNull, hv]; rfl)
    | bool | int | uint | str =>
      cases hc
      exact .scalar rfl rfl (by rw [Heap.isNull, hv]; rfl) hlist (.of_forall hscalar)
    | list | dict => cases hc
  | list els hv hels =>
    exact .list els (by rw [Heap.isNull, hv]; rfl) (by rw [Heap.asList, hv]; rfl) hels
  | dict tab hv htab =>
    refine .scalar rfl rfl (by rw [Heap.isNull, hv]; rfl) (by rw [Heap.asList, hv]; rfl) ?_
    refine hstr.mono fun n hn => ?_
    rw [Prims.toScalar, hv]
    exact congrArg (Option.map P.ofStr) hn

/-- The two values are compared at this depth as the data are. -/
def Compared (P : Prims) (h : Heap) (n : Nat) (a b : Option Ptr × Datum) : Prop :=
  ∀ pos, evalStatic P h n a.1 b.1 pos =
    some (alike P.eq (a.2.shape P) (b.2.shape P) == pos)

theorem allM_zip {n : Nat} {as bs : List (Option Ptr × Datum)}
    (hall : ∀ a ∈ as, ∀ b ∈ bs, Compared P h n a b) (hlen : as.length = bs.length) :
    ((as.map (·.1)).zip (bs.map (·.1))).allM (fun y => evalStatic P h n y.1 y.2 true) =
      some (allAlike P.eq (as.map (·.2.shape P)) (bs.map (·.2.shape P))) := by
  induction as generalizing bs with
  | nil => cases bs with
    | nil => rfl
    | cons => cases hlen
  | cons a as ih => cases bs with
    | nil => cases hlen
    | cons b bs =>
      have hab := hall a List.mem_cons_self b List.mem_cons_self true
      have hrest := ih (fun a ha b hb => hall a (.tail _ ha) b (.tail _ hb)) (Nat.succ.inj hlen)
      rw [List.map_cons, List.map_cons, List.zip_cons_cons, List.allM, hab, List.map_cons,
        List.map_cons, allAlike, beq_true]
      cases alike P.eq (a.2.shape P) (b.2.shape P) with
      | false => rfl
      | true => exact hrest

theorem compared_lists {n : Nat} {as bs : List (Option Ptr × Datum)}
    (hx : h.isNull x = some false) (hy : h.isNull y = some false)
    (hm : h.listMania x y = some (some (as.map (·.1), bs.map (·.1))))
    (hall : ∀ a ∈ as, ∀ b ∈ bs, Compared P h n a b)
    (hd : d.shape P = collapse (as.map (·.2.shape P)))
    (he : e.shape P = collapse (bs.map (·.2.shape P))) : Compared P h (n + 1) (x, d) (y, e) := by
  intro pos
  rw [hd, he, alike_collapse, evalStatic, hx, hy, hm]
  simp only [Option.bind_eq_bind, Option.bind_some, List.length_map]
  by_cases hlen : as.length = bs.length
  · rw [if_pos hlen, allM_zip hall hlen]
    rfl
  · have hne : allAlike P.eq (as.map (·.2.shape P)) (bs.map (·.2.shape P)) = false := by
      rw [Bool.eq_false_iff]
      exact fun h => hlen (by simpa using allAlike_length P.eq h)
    rw [if_neg hlen, hne]

theorem compared_null {n : Nat} {a b : Bool} (hx : h.isNull x = some a) (hy : h.isNull y = some b)
    (hab : (a || b) = true) (halike : alike P.eq (d.shape P) (e.shape P) = (a && b)) :
    Compared P h (n + 1) (x, d) (y, e) := by
  intro pos
  rw [halike, evalStatic, hx, hy]
  cases a <;> cases b
  · cases hab
  all_goals rfl

theorem compared_scalars {n : Nat} {p q : Ptr} {s t : P.Scalar} (hx : h.isNull (some p) = some false)
    (hy : h.isNull (some q) = some false) (hlx : h.asList (some p) = some none)
    (hly : h.asList (some q) = some none) (hs : P.toScalar h n p = some s)
    (ht : P.toScalar h n q = some t) (hd : d.shape P = .scalar s) (he : e.shape P = .scalar t) :
    Compared P h (n + 1) (some p, d) (some q, e) := by
  intro pos
  rw [hd, he, evalStatic, hx, hy, Heap.listMania, hlx, hly]
  simp only [Option.bind_eq_bind, Option.bind_some, hs, ht, alike]

theorem evalStatic_holds (hP : QuotesNumbers P) (hx : Holds h x d) (hy : Holds h y e) :
    ∀ᶠ n in atTop, Compared P h n (x, d) (y, e) := by
  induction hk : sizeOf d + sizeOf e using Nat.strong_induction_on generalizing x y d e with
  | _ k ih =>
  subst hk
  -- a value that is no list counts as a list of itself beside one
  have hlists (as bs : List (Option Ptr × Datum)) (hx : h.isNull x = some false)
      (hy : h.isNull y = some false)
      (hm : h.listMania x y = some (some (as.map (·.1), bs.map (·.1))))
      (has : ∀ a ∈ as, Holds h a.1 a.2) (hbs : ∀ b ∈ bs, Holds h b.1 b.2)
      (hlt : ∀ a ∈ as, ∀ b ∈ bs, sizeOf a.2 + sizeOf b.2 < sizeOf d + sizeOf e)
      (hd : d.shape P = collapse (as.map (·.2.shape P)))
      (he : e.shape P = collapse (bs.map (·.2.shape P))) :
      ∀ᶠ n in atTop, Compared P h (n + 1) (x, d) (y, e) := by
    have hall := eventually_mem fun a ha => eventually_mem fun b hb =>
      ih _ (hlt a ha b hb) (has a ha) (hbs b hb) rfl
    exact hall.mono fun n hn => compared_lists hx hy hm hn hd he
  have hsize {els : List (Option Ptr × Datum)} {a : Option Ptr × Datum} (ha : a ∈ els) :
      sizeOf a.2 < sizeOf (Datum.list (els.map (·.2))) := by
    have := List.sizeOf_lt_of_mem (List.mem_map_of_mem (f := fun a => a.2) ha)
    rw [Datum.list.sizeOf_spec]
    omega
  have hshape (els : List (Option Ptr × Datum)) :
      (Datum.list (els.map (·.2))).shape P = collapse (els.map (·.2.shape P)) := by
    rw [Datum.shape, Datum.shapes_eq, List.map_map]
    rfl
  refine eventually_succ ?_
  cases seen_of_holds hP hx with
  | null hnx => cases seen_of_holds hP hy with
    | null hny => exact .of_forall fun n => compared_null hnx hny rfl rfl
    | scalar _ he hny =>
      exact .of_forall fun n => compared_null hnx hny rfl (by rw [he]; rfl)
    | list bs hny =>
      exact .of_forall fun n => compared_null hnx hny rfl (by
        rw [hshape]
        exact (null_collapse P.eq _).1)
  | @scalar p _ s hpx hd hnx hlx hs => cases seen_of_holds hP hy with
    | null hny =>
      exact .of_forall fun n => compared_null hnx hny rfl (by rw [hd]; rfl)
    | @scalar q _ t hqy he hny hly ht =>
      subst hpx hqy
      exact (hs.and ht).mono fun n hn => compared_scalars hnx hny hlx hly hn.1 hn.2 hd he
    | list bs hny hly hbs =>
      refine hlists [(x, d)] bs hnx hny ?_ ?_ hbs ?_ ?_ (hshape bs)
      · rw [Heap.listMania, hlx, hly, hpx]
        rfl
      · exact List.forall_mem_singleton.2 hx
      · exact List.forall_mem_singleton.2 fun b hb => Nat.add_lt_add_left (hsize hb) _
      · rw [hd, List.map_singleton, hd]
        rfl
  | list as hnx hlx has => cases seen_of_holds hP hy with
    | null hny =>
      exact .of_forall fun n => compared_null hnx hny rfl (by
        rw [hshape]
        exact (null_collapse P.eq _).2)
    | @scalar q _ t hqy he hny hly ht =>
      refine hlists as [(y, e)] hnx hny ?_ has ?_ ?_ (hshape as) ?_
      · rw [Heap.listMania, hlx, hly, hqy]
        rfl
      · exact List.forall_mem_singleton.2 hy
      · exact fun a ha => List.forall_mem_singleton.2 (Nat.add_lt_add_right (hsize ha) _)
      · rw [he, List.map_singleton, he]
        rfl
    | list bs hny hly hbs =>
      refine hlists as bs hnx hny ?_ has hbs ?_ (hshape as) (hshape bs)
      · rw [Heap.listMania, hlx, hly]
        rfl
      · exact fun a ha b hb => Nat.add_lt_add (hsize ha) (hsize hb)

end Answer

end Okws.Pub3
