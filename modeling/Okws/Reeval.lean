import Okws.Later
import Okws.PubAgree

namespace Okws.Pub3

open Zbuf Lib Filter

namespace Reeval

/-- The two values are alike: copies of one object, constant or literal, lists and dictionaries of
the same form that hold what is alike, or the same function with the same closure. -/
inductive Like (h h' : Heap) : Ptr → Ptr → Prop
  | same {p q r} : h.constPtr p = some r → h'.constPtr q = some r → Like h h' p q
  | list {p q a b els els' st st'} : h.constPtr p = some (.obj a) → h'.constPtr q = some (.obj b) →
    h[a]? = some (.list els st) → h'[b]? = some (.list els' st') →
    List.Forall₂ (Option.Rel (Like h h')) els els' → Like h h' p q
  | dict {p q a b tab tab' st st'} : h.constPtr p = some (.obj a) → h'.constPtr q = some (.obj b) →
    h[a]? = some (.dict tab st) → h'[b]? = some (.dict tab' st') →
    tab.map (·.1) = tab'.map (·.1) →
    List.Forall₂ (Option.Rel (Like h h')) (tab.map (·.2)) (tab'.map (·.2)) → Like h h' p q
  | lambda {p q a b l md stack} : h.constPtr p = some (.obj a) → h'.constPtr q = some (.obj b) →
    h[a]? = some (.lambda l md stack) → h'[b]? = some (.lambda l md stack) → Like h h' p q

/-- Of the functions in the value, but for those in what is static, all were closed in this file
and with these layers, and nothing in it is empty. -/
inductive Settled (h : Heap) (md : Str) (layers : List Layer) : Ptr → Prop
  | static {p} : Static h p true → Settled h md layers p
  | compiled {a f} : h[a]? = some (.compiled f) → Settled h md layers (.obj a)
  | lambda {a l} : h[a]? = some (.lambda l md layers) → Settled h md layers (.obj a)
  | list {a els st} : h[a]? = some (.list els st) → none ∉ els →
    (∀ p, some p ∈ els → Settled h md layers p) → Settled h md layers (.obj a)
  | dict {a tab st} : h[a]? = some (.dict tab st) → none ∉ tab.map (·.2) →
    (∀ p, some p ∈ tab.map (·.2) → Settled h md layers p) → Settled h md layers (.obj a)
  | cow {a c o p} : h[a]? = some (.cow c o) → (c.orElse fun _ => o) = some p →
    Settled h md layers p → Settled h md layers (.obj a)

section Seeing

variable {h h₁ h₂ h₃ : Heap} {p p' q q' : Ptr} {md : Str} {layers : List Layer}

theorem Like.congr (hp : h.constPtr p = h.constPtr p') (hq : h₁.constPtr q = h₁.constPtr q')
    (hl : Like h h₁ p q) : Like h h₁ p' q' := by
  cases hl with
  | same hp' hq' => exact .same (hp ▸ hp') (hq ▸ hq')
  | list hp' hq' ha hb hels => exact .list (hp ▸ hp') (hq ▸ hq') ha hb hels
  | dict hp' hq' ha hb hkeys hvals => exact .dict (hp ▸ hp') (hq ▸ hq') ha hb hkeys hvals
  | lambda hp' hq' ha hb => exact .lambda (hp ▸ hp') (hq ▸ hq') ha hb

theorem Like.congr_iff (hp : h.constPtr p = h.constPtr p')
    (hq : h₁.constPtr q = h₁.constPtr q') : Like h h₁ p q ↔ Like h h₁ p' q' :=
  ⟨.congr hp hq, .congr hp.symm hq.symm⟩

theorem constPtr_obj {a : Nat} {o : Obj} (ha : h[a]? = some o) (ho : ∀ c x, o ≠ .cow c x) :
    h.constPtr (.obj a) = some (.obj a) := by
  rw [Heap.constPtr, ha]
  split
  · next c x hc => exact absurd (Option.some.inj hc) (ho c x)
  · rfl

theorem constPtr_cow {a : Nat} {c o : Option Ptr} (ha : h[a]? = some (.cow c o)) :
    h.constPtr (.obj a) = c.orElse fun _ => o := by
  rw [Heap.constPtr, ha]

theorem ask_cow {c o : Option Ptr} (hp : (c.orElse fun _ => o) = some p) :
    ask (.cow c o) = .target p := by
  unfold ask
  dsimp only
  rw [hp]

theorem ask_cow_none {c o : Option Ptr} (hn : (c.orElse fun _ => o) = none) :
    ask (.cow c o) = .known false := by
  unfold ask
  dsimp only
  rw [hn]

theorem Settled.cow_iff {a : Nat} {c o : Option Ptr} (ha : h[a]? = some (.cow c o))
    (hp : (c.orElse fun _ => o) = some p) :
    Settled h md layers (.obj a) ↔ Settled h md layers p := by
  have hask : h[a]?.map ask = some (.target p) := by rw [ha, Option.map_some, ask_cow hp]
  constructor
  · intro hs
    cases hs with
    | static hs =>
      cases hs with
      | known ha' => cases hask.symm.trans ha'
      | all ha' => cases hask.symm.trans ha'
      | target ha' hs =>
        cases hask.symm.trans ha'
        exact .static hs
    | compiled ha' => cases ha.symm.trans ha'
    | lambda ha' => cases ha.symm.trans ha'
    | list ha' => cases ha.symm.trans ha'
    | dict ha' => cases ha.symm.trans ha'
    | cow ha' hp' hs =>
      cases ha.symm.trans ha'
      cases hp.symm.trans hp'
      exact hs
  · exact .cow ha hp

def Plain : Obj → Prop
  | .cow c o => c = none ∧ o ≠ none
  | .cowTab _ _ => False
  | _ => True

def Stays (h h₁ : Heap) (x : Option Ptr) : Prop :=
  ∀ a, x = some (.obj a) → ∃ o, Plain o ∧ ∀ h₂, Onward h h₁ h₂ → h₂[a]? = some o

theorem Stays.alloc (hl : Later h h₁) {o : Obj} (ho : Plain o) :
    Stays h (h₁ ++ [o]) (some (.obj h₁.length)) := by
  rintro a ⟨⟩
  exact ⟨o, ho, fun h₂ ho' => ho'.made _ o hl.length_le (by simp)⟩

theorem Later.getElem? (hl : Later h h₁) {a : Nat} {o : Obj} (ha : h[a]? = some o)
    (ho : ∀ xs, ask o ≠ .parts xs) : h₁[a]? = some o := by
  obtain ⟨o', hm, rfl | ⟨xs, b, hx, -, -⟩⟩ := hl a o ha
  · exact hm
  · exact absurd hx (ho xs)

theorem constPtr_made (hl : Later h h₁) (ho : Onward h (h₁ ++ [.cow none (some p)]) h₂) :
    h₂.constPtr (.obj h₁.length) = some p := by
  rw [constPtr_cow (ho.made _ (.cow none (some p)) hl.length_le (by simp))]
  rfl

theorem copy_made {x y : Option Ptr} (hl : Later h h₁) (hst : Stays h h₁ x)
    (hx : copyOpt x h₁ = some (y, h₂)) : Onward h h₁ h₂ ∧ (y = none → x = none) ∧
      ∀ h₃, Onward h h₂ h₃ → h₃.constPtr (y.getD .null) = h₃.constPtr (x.getD .null) := by
  cases x with
  | none =>
    cases hx
    exact ⟨.refl hl, fun _ => rfl, fun _ _ => rfl⟩
  | some p =>
    obtain ⟨⟨q, h'⟩, hp, hx⟩ := Option.bind_eq_some_iff.mp hx
    cases hx
    cases p with
    | node e =>
      cases e with
      | constant | lambda =>
        cases hp
        exact ⟨.refl hl, nofun, fun _ _ => rfl⟩
      | _ =>
        cases hp
        exact ⟨.alloc hl _, nofun, fun h₃ ho => constPtr_made hl ho⟩
    | obj a =>
      obtain ⟨o, ho, ha⟩ := hst a rfl
      have hm := ha h₁ (.refl hl)
      obtain ⟨⟨o', h₁'⟩, hload, hp⟩ := Option.bind_eq_some_iff.mp hp
      obtain ⟨o', hm', hload⟩ := Option.map_eq_some_iff.mp hload
      cases hload
      cases hm.symm.trans hm'
      cases o with
      | cow c x =>
        obtain ⟨rfl, hx⟩ := ho
        obtain ⟨r, rfl⟩ := Option.ne_none_iff_exists'.mp hx
        cases hp
        refine ⟨.alloc hl _, nofun, fun h₃ ho => (constPtr_made hl ho).trans ?_⟩
        exact (constPtr_cow (ha h₃ ((Onward.alloc hl _).trans ho))).symm
      | lambda =>
        cases hp
        exact ⟨.refl hl, nofun, fun _ _ => rfl⟩
      | list | dict | compiled =>
        cases hp
        refine ⟨.alloc hl _, nofun, fun h₃ ho => (constPtr_made hl ho).trans ?_⟩
        exact (constPtr_obj (ha h₃ ((Onward.alloc hl _).trans ho)) nofun).symm
      | cowTab => exact ho.elim

theorem copy_halts {x : Option Ptr} (hl : Later h h₁) (hst : Stays h h₁ x) :
    (copyOpt x h₁).isSome := by
  cases x with
  | none => rfl
  | some p =>
    cases p with
    | node e => cases e <;> rfl
    | obj a =>
      obtain ⟨o, ho, ha⟩ := hst a rfl
      have hm := ha h₁ (.refl hl)
      have hload : Mem.load a h₁ = some (o, h₁) := congrArg (Option.map (·, h₁)) hm
      have hcopy : (copy (.obj a) h₁).isSome := by
        unfold copy
        dsimp only
        simp only [Bind.bind, StateT.bind, hload, Option.bind_some]
        cases o with
        | cow c x =>
          obtain ⟨rfl, hx⟩ := ho
          obtain ⟨r, rfl⟩ := Option.ne_none_iff_exists'.mp hx
          rfl
        | cowTab => exact ho.elim
        | _ => rfl
      obtain ⟨r, hr⟩ := Option.isSome_iff_exists.mp hcopy
      simp only [copyOpt, Functor.map, StateT.map, hr, Bind.bind, Option.bind_some]
      rfl

section Forms

variable {a b : Nat} {els els' : List (Option Ptr)} {tab tab' : Tab} {l l' : Lambda}
  {md' : Str} {layers' : List Layer} {st st' : Option Bool}

theorem Like.list_iff (ha : h[a]? = some (.list els st)) (hb : h₁[b]? = some (.list els' st'))
    (hab : a ≠ b) : Like h h₁ (.obj a) (.obj b) ↔
      List.Forall₂ (Option.Rel (Like h h₁)) els els' := by
  have hpa := constPtr_obj ha nofun
  have hpb := constPtr_obj hb nofun
  refine ⟨fun hl => ?_, .list hpa hpb ha hb⟩
  cases hl with
  | same hp hq =>
    cases hpa.symm.trans hp
    cases hpb.symm.trans hq
    exact absurd rfl hab
  | list hp hq ha' hb' hels =>
    cases hpa.symm.trans hp
    cases hpb.symm.trans hq
    cases ha.symm.trans ha'
    cases hb.symm.trans hb'
    exact hels
  | dict hp _ ha' =>
    cases hpa.symm.trans hp
    cases ha.symm.trans ha'
  | lambda hp _ ha' =>
    cases hpa.symm.trans hp
    cases ha.symm.trans ha'

theorem Like.dict_iff (ha : h[a]? = some (.dict tab st)) (hb : h₁[b]? = some (.dict tab' st'))
    (hab : a ≠ b) : Like h h₁ (.obj a) (.obj b) ↔ tab.map (·.1) = tab'.map (·.1) ∧
      List.Forall₂ (Option.Rel (Like h h₁)) (tab.map (·.2)) (tab'.map (·.2)) := by
  have hpa := constPtr_obj ha nofun
  have hpb := constPtr_obj hb nofun
  refine ⟨fun hl => ?_, fun hl => .dict hpa hpb ha hb hl.1 hl.2⟩
  cases hl with
  | same hp hq =>
    cases hpa.symm.trans hp
    cases hpb.symm.trans hq
    exact absurd rfl hab
  | list hp _ ha' =>
    cases hpa.symm.trans hp
    cases ha.symm.trans ha'
  | dict hp hq ha' hb' hkeys hvals =>
    cases hpa.symm.trans hp
    cases hpb.symm.trans hq
    cases ha.symm.trans ha'
    cases hb.symm.trans hb'
    exact ⟨hkeys, hvals⟩
  | lambda hp _ ha' =>
    cases hpa.symm.trans hp
    cases ha.symm.trans ha'

theorem Like.lambda_iff (ha : h[a]? = some (.lambda l md layers))
    (hb : h₁[b]? = some (.lambda l md' layers')) (hab : a ≠ b) :
    Like h h₁ (.obj a) (.obj b) ↔ md = md' ∧ layers = layers' := by
  have hpa := constPtr_obj ha nofun
  have hpb := constPtr_obj hb nofun
  constructor
  · intro hl
    cases hl with
    | same hp hq =>
      cases hpa.symm.trans hp
      cases hpb.symm.trans hq
      exact absurd rfl hab
    | list hp _ ha' =>
      cases hpa.symm.trans hp
      cases ha.symm.trans ha'
    | dict hp _ ha' =>
      cases hpa.symm.trans hp
      cases ha.symm.trans ha'
    | lambda hp hq ha' hb' =>
      cases hpa.symm.trans hp
      cases hpb.symm.trans hq
      cases ha.symm.trans ha'
      cases hb.symm.trans hb'
      exact ⟨rfl, rfl⟩
  · rintro ⟨rfl, rfl⟩
    exact .lambda hpa hpb ha hb

theorem Settled.list_iff (ha : h[a]? = some (.list els st)) (hs : Static h (.obj a) false) :
    Settled h md layers (.obj a) ↔ none ∉ els ∧ ∀ p, some p ∈ els → Settled h md layers p := by
  refine ⟨fun hset => ?_, fun hset => .list ha hset.1 hset.2⟩
  cases hset with
  | static hs' => cases hs.unique hs'
  | list ha' hnone hels =>
    cases ha.symm.trans ha'
    exact ⟨hnone, hels⟩
  | compiled ha' => cases ha.symm.trans ha'
  | lambda ha' => cases ha.symm.trans ha'
  | dict ha' => cases ha.symm.trans ha'
  | cow ha' => cases ha.symm.trans ha'

theorem Settled.dict_iff (ha : h[a]? = some (.dict tab st)) (hs : Static h (.obj a) false) :
    Settled h md layers (.obj a) ↔ none ∉ tab.map (·.2) ∧
      ∀ p, some p ∈ tab.map (·.2) → Settled h md layers p := by
  refine ⟨fun hset => ?_, fun hset => .dict ha hset.1 hset.2⟩
  cases hset with
  | static hs' => cases hs.unique hs'
  | dict ha' hnone hvals =>
    cases ha.symm.trans ha'
    exact ⟨hnone, hvals⟩
  | compiled ha' => cases ha.symm.trans ha'
  | lambda ha' => cases ha.symm.trans ha'
  | list ha' => cases ha.symm.trans ha'
  | cow ha' => cases ha.symm.trans ha'

theorem Settled.lambda_iff (ha : h[a]? = some (.lambda l md' layers')) :
    Settled h md layers (.obj a) ↔ md' = md ∧ layers' = layers := by
  constructor
  · intro hset
    cases hset with
    | static hs =>
      have hs' : Static h (.obj a) false := .known (by rw [ha]; rfl)
      cases hs.unique hs'
    | lambda ha' =>
      cases ha.symm.trans ha'
      exact ⟨rfl, rfl⟩
    | compiled ha' => cases ha.symm.trans ha'
    | list ha' => cases ha.symm.trans ha'
    | dict ha' => cases ha.symm.trans ha'
    | cow ha' => cases ha.symm.trans ha'
  · rintro ⟨rfl, rfl⟩
    exact .lambda ha

theorem Like.there (hl : Like h h₁ p q) : h.constPtr p ≠ none := by
  cases hl with
  | same hp | list hp | dict hp | lambda hp => exact hp ▸ nofun

end Forms

end Seeing

/-- The layers that a function closes over that is made now. -/
def captured (s : State) : List Layer := captureClosure s.stack.reverse []

/-- What is known of the value that is evaluated again. -/
structure Again (h : Heap) (s : State) (p : Ptr) (x : Option Ptr) (t : State) : Prop where
  md : t.md = s.md
  stack : t.stack = s.stack
  onward : Onward h s.heap t.heap
  value : x = none → h.constPtr p = none
  like : ∀ h', Onward h t.heap h' →
    (Like h h' p (x.getD .null) ↔ Settled h s.md (captured s) p)

/-- The same of the elements of a list, and of the bindings of a dictionary. -/
structure AgainAll (h : Heap) (s : State) (xs ys : List (Option Ptr)) (t : State) : Prop where
  md : t.md = s.md
  stack : t.stack = s.stack
  onward : Onward h s.heap t.heap
  like : ∀ h', Onward h t.heap h' → (List.Forall₂ (Option.Rel (Like h h')) xs ys ↔
    none ∉ xs ∧ ∀ p, some p ∈ xs → Settled h s.md (captured s) p)

abbrev always : Step → Prop := fun _ => True

def Reevaluates (h : Heap) (f : Ptr → Eval (Option Ptr)) : Prop :=
  ∀ p s, Ptr.Val h.length p → Later h s.heap → Ensures always (f p) s (Again h s p)

section Evaluating

variable {h h₁ : Heap} {s : State} {p : Ptr} {f : Ptr → Eval (Option Ptr)} {n : Nat}

theorem Again.copy {x y : Option Ptr} {t : State} {h₂ : Heap} (ha : Again h s p x t)
    (hst : Stays h t.heap x) (hx : copyOpt x t.heap = some (y, h₂)) :
    Again h s p y { t with heap := h₂ } := by
  obtain ⟨ho, hn, hsame⟩ := copy_made ha.onward.later hst hx
  refine ⟨ha.md, ha.stack, ha.onward.trans ho, fun hy => ha.value (hn hy), fun h' ho' => ?_⟩
  rw [← ha.like h' (ho.trans ho')]
  exact Like.congr_iff rfl (hsame h' ho')

theorem again_newCow (hl : Later h s.heap) (hp : h.constPtr p = some p)
    (hs : Static h p true) : Ensures always (mem (newCow p)) s fun x t =>
      Again h s p x t ∧ Stays h t.heap x := by
  refine ensures_mem fun x h' hx => ?_
  cases hx
  refine ⟨⟨rfl, rfl, .alloc hl _, nofun, fun h₂ ho => ?_⟩, .alloc hl ⟨rfl, nofun⟩⟩
  exact iff_of_true (.same hp (constPtr_made hl ho)) (.static hs)

theorem again_static {m : Eval (Option Ptr)} (hv : Valued h) (hl : Later h s.heap)
    (hin : p.In h.length) (hp : h.constPtr p = some p)
    (hm : ∀ h', Onward h s.heap h' → Static h p false →
      Ensures always m { s with heap := h' } fun x t => Again h s p x t ∧ Stays h t.heap x) :
    Ensures always (do if ← mem (isStatic n p) then mem (newCow p) else m) s fun x t =>
      Again h s p x t ∧ Stays h t.heap x := by
  refine .bind (ensures_mem fun b h' hb => ?_)
  obtain ⟨hs, ho⟩ := isStatic_static hv hin hl hb
  cases b with
  | true =>
    refine (again_newCow (s := { s with heap := h' }) ho.later hp hs).imp fun x t hx => ?_
    exact ⟨⟨hx.1.md, hx.1.stack, ho.trans hx.1.onward, hx.1.value, hx.1.like⟩, hx.2⟩
  | false => exact hm h' ho hs

theorem AgainAll.nil (hl : Later h s.heap) : AgainAll h s [] [] s :=
  ⟨rfl, rfl, .refl hl, fun _ _ => iff_of_true .nil ⟨nofun, nofun⟩⟩

theorem AgainAll.none {xs ys : List (Option Ptr)} {q : Ptr} {t : State}
    (hall : AgainAll h s xs ys t) : AgainAll h s (none :: xs) (some q :: ys) t := by
  refine ⟨hall.md, hall.stack, hall.onward, fun h' _ => iff_of_false ?_ ?_⟩
  · rintro (_ | ⟨⟨⟩, -⟩)
  · exact fun hn => hn.1 List.mem_cons_self

theorem AgainAll.cons {xs ys : List (Option Ptr)} {x : Option Ptr} {t u : State}
    (ha : Again h s p x t) (hall : AgainAll h t xs ys u) :
    AgainAll h s (some p :: xs) (some (x.getD .null) :: ys) u := by
  have hlayers : captured t = captured s := by rw [captured, ha.stack]; rfl
  refine ⟨hall.md.trans ha.md, hall.stack.trans ha.stack, ha.onward.trans hall.onward,
    fun h' ho => ?_⟩
  rw [List.forall₂_cons, Option.rel_some_some, ha.like h' (hall.onward.trans ho),
    hall.like h' ho, ha.md, hlayers]
  simp only [List.mem_cons, reduceCtorEq, false_or, Option.some.injEq, forall_eq_or_imp]
  exact ⟨fun hh => ⟨hh.2.1, hh.1, hh.2.2⟩, fun hh => ⟨hh.2.1, hh.1, hh.2.2⟩⟩

theorem mapEls_again (hf : Reevaluates h f) {xs : List (Option Ptr)}
    (hxs : ∀ p, some p ∈ xs → Ptr.Val h.length p) (hl : Later h s.heap) :
    Ensures always (mapEls f xs) s (AgainAll h s xs) := by
  induction xs generalizing s with
  | nil => exact .pure (.nil hl)
  | cons x xs ih =>
    have hxs' : ∀ p, some p ∈ xs → Ptr.Val h.length p := fun p hp =>
      hxs p (List.mem_cons_of_mem _ hp)
    cases x with
    | none => exact .bind ((ih hxs' hl).imp fun ys t hall => .pure hall.none)
    | some p =>
      refine .bind ((hf p s (hxs p List.mem_cons_self) hl).imp fun x t ha => ?_)
      exact .bind ((ih hxs' ha.onward.later).imp fun ys u hall => .pure (.cons ha hall))

/-- The bindings that have no value are left out. -/
structure AgainTab (h : Heap) (s : State) (tab bs : Tab) (t : State) : Prop where
  md : t.md = s.md
  stack : t.stack = s.stack
  onward : Onward h s.heap t.heap
  length : bs.length ≤ tab.length
  like : ∀ h', Onward h t.heap h' → (tab.map (·.1) = bs.map (·.1) ∧
    List.Forall₂ (Option.Rel (Like h h')) (tab.map (·.2)) (bs.map (·.2)) ↔
      none ∉ tab.map (·.2) ∧ ∀ p, some p ∈ tab.map (·.2) → Settled h s.md (captured s) p)

namespace AgainTab

variable {tab bs : Tab} {t u : State} {k : Str}

theorem nil (hl : Later h s.heap) : AgainTab h s [] [] s :=
  ⟨rfl, rfl, .refl hl, le_rfl, fun _ _ => iff_of_true ⟨rfl, .nil⟩ ⟨nofun, nofun⟩⟩

theorem skip {x : Option Ptr} (hall : AgainTab h s tab bs t)
    (hx : ∀ p, x = some p → ¬ Settled h s.md (captured s) p) :
    AgainTab h s ((k, x) :: tab) bs t := by
  refine ⟨hall.md, hall.stack, hall.onward, hall.length.trans (Nat.le_succ _), fun h' _ => ?_⟩
  refine iff_of_false (fun hl => ?_) fun hset => ?_
  · have hlen := congrArg List.length hl.1
    rw [List.length_map, List.length_map, List.length_cons] at hlen
    have := hall.length
    omega
  · cases x with
    | none => exact hset.1 List.mem_cons_self
    | some p => exact hx p rfl (hset.2 p List.mem_cons_self)

theorem before {x : Option Ptr} (ha : Again h s p x t) (hall : AgainTab h t tab bs u) :
    AgainTab h s tab bs u := by
  have hlayers : captured t = captured s := by rw [captured, ha.stack]; rfl
  refine ⟨hall.md.trans ha.md, hall.stack.trans ha.stack, ha.onward.trans hall.onward,
    hall.length, fun h' ho => ?_⟩
  rw [hall.like h' ho, ha.md, hlayers]

theorem cons {q : Ptr} (ha : Again h s p (some q) t) (hall : AgainTab h t tab bs u) :
    AgainTab h s ((k, some p) :: tab) ((k, some q) :: bs) u := by
  have hall' := before ha hall
  refine ⟨hall'.md, hall'.stack, hall'.onward, Nat.succ_le_succ hall.length, fun h' ho => ?_⟩
  have hp := ha.like h' (hall.onward.trans ho)
  have hrest := hall'.like h' ho
  rw [Option.getD_some] at hp
  simp only [List.map_cons, List.cons.injEq, true_and, List.forall₂_cons, Option.rel_some_some,
    List.mem_cons, reduceCtorEq, false_or, Option.some.injEq, forall_eq_or_imp, hp]
  exact ⟨fun hh => ⟨(hrest.mp ⟨hh.1, hh.2.2⟩).1, hh.2.1, (hrest.mp ⟨hh.1, hh.2.2⟩).2⟩,
    fun hh => ⟨(hrest.mpr ⟨hh.1, hh.2.2⟩).1, hh.2.1, (hrest.mpr ⟨hh.1, hh.2.2⟩).2⟩⟩

end AgainTab

theorem mapTab_again (hf : Reevaluates h f) {tab : Tab}
    (htab : ∀ p, some p ∈ tab.map (·.2) → Ptr.Val h.length p) (hl : Later h s.heap) :
    Ensures always (mapTab f tab) s (AgainTab h s tab) := by
  induction tab generalizing s with
  | nil => exact .pure (.nil hl)
  | cons b tab ih =>
    have htab' : ∀ p, some p ∈ tab.map (·.2) → Ptr.Val h.length p := fun p hp =>
      htab p (List.mem_cons_of_mem _ hp)
    obtain ⟨k, _ | p⟩ := b
    · exact (ih htab' hl).imp fun bs t hall => hall.skip nofun
    · refine .bind ((hf p s (htab p List.mem_cons_self) hl).imp fun x t ha => ?_)
      refine .bind ((ih htab' ha.onward.later).imp fun bs u hall => .pure ?_)
      cases x with
      | some q => exact .cons ha hall
      | none =>
        refine (AgainTab.before ha hall).skip ?_
        rintro q ⟨⟩ hset
        exact ((ha.like t.heap (.refl ha.onward.later)).mpr hset).there (ha.value rfl)

theorem ne_of_lt_length (hl : Later h h₁) {a : Nat} {o : Obj} (ha : h[a]? = some o) :
    a ≠ h₁.length :=
  ((List.getElem?_eq_some_iff.mp ha).1.trans_le hl.length_le).ne

theorem listToMval_again (hv : Valued h) (hf : Reevaluates h f) {a : Nat}
    {els : List (Option Ptr)} {st : Option Bool} (ha : h[a]? = some (.list els st))
    (hl : Later h s.heap) : Ensures always (listToMval n f (.obj a) els) s fun x t =>
      Again h s (.obj a) x t ∧ Stays h t.heap x := by
  have hin : (Ptr.obj a).In h.length := by
    rintro b ⟨⟩
    exact (List.getElem?_eq_some_iff.mp ha).1
  refine again_static hv hl hin (constPtr_obj ha nofun) fun h' ho hs => ?_
  refine .bind ((mapEls_again hf (fun p hp => hv.part a _ p ha hp) ho.later).imp
    fun ys t hall => ensures_mem fun x h₂ hx => ?_)
  cases hx
  have hl' := hall.onward.later
  refine ⟨⟨hall.md, hall.stack, (ho.trans hall.onward).trans (.alloc hl' _), nofun,
    fun h₃ ho' => ?_⟩, .alloc hl' trivial⟩
  have hnew := ho'.made t.heap.length (.list ys none) hl'.length_le (by simp)
  rw [Option.getD_some, Like.list_iff ha hnew (ne_of_lt_length hl' ha), Settled.list_iff ha hs]
  exact hall.like h₃ ((Onward.alloc hl' _).trans ho')

theorem dictToMval_again (hv : Valued h) (hf : Reevaluates h f) {a : Nat} {tab : Tab}
    {st : Option Bool} (ha : h[a]? = some (.dict tab st)) (hl : Later h s.heap) :
    Ensures always (dictToMval n f (.obj a) tab) s fun x t =>
      Again h s (.obj a) x t ∧ Stays h t.heap x := by
  have hin : (Ptr.obj a).In h.length := by
    rintro b ⟨⟩
    exact (List.getElem?_eq_some_iff.mp ha).1
  refine again_static hv hl hin (constPtr_obj ha nofun) fun h' ho hs => ?_
  refine .bind ((mapTab_again hf (fun p hp => hv.part a _ p ha hp) ho.later).imp
    fun bs t hall => ensures_mem fun x h₂ hx => ?_)
  cases hx
  have hl' := hall.onward.later
  refine ⟨⟨hall.md, hall.stack, (ho.trans hall.onward).trans (.alloc hl' _), nofun,
    fun h₃ ho' => ?_⟩, .alloc hl' trivial⟩
  have hnew := ho'.made t.heap.length (.dict bs none) hl'.length_le (by simp)
  rw [Option.getD_some, Like.dict_iff ha hnew (ne_of_lt_length hl' ha), Settled.dict_iff ha hs]
  exact hall.like h₃ ((Onward.alloc hl' _).trans ho')

theorem close_again {a : Nat} {l : Lambda} {md : Str} {layers : List Layer}
    (ha : h[a]? = some (.lambda l md layers)) (hl : Later h s.heap) :
    Ensures always (some <$> act (close l)) s fun x t =>
      Again h s (.obj a) x t ∧ Stays h t.heap x := by
  have hrun : close l s = some (.obj s.heap.length,
      { s with heap := s.heap ++ [.lambda l s.md (captured s)] }) := rfl
  change Ensures always (act (close l) >>= fun q => pure (some q)) s _
  refine .bind (.lift fun q t hq => .pure ?_)
  cases hrun.symm.trans hq
  refine ⟨⟨rfl, rfl, .alloc hl _, nofun, fun h₂ ho => ?_⟩, .alloc hl trivial⟩
  have hnew := ho.made s.heap.length (.lambda l s.md (captured s)) hl.length_le (by simp)
  rw [Option.getD_some, Like.lambda_iff ha hnew (ne_of_lt_length hl ha), Settled.lambda_iff ha]

theorem ensures_load {α : Type} {a : Nat} {o : Obj} {k : Obj → Eval α} {P : α → State → Prop}
    (hl : Later h s.heap) (ha : h[a]? = some o)
    (hk : ∀ o', (o' = o ∨ ∃ xs b, ask o = .parts xs ∧ o' = remember b o) →
      Ensures always (k o') s P) : Ensures always (mem (Mem.load a) >>= k) s P := by
  refine .bind (ensures_mem fun o' h' ho => ?_)
  obtain ⟨o'', hm, ho⟩ := Option.map_eq_some_iff.mp ho
  cases ho
  obtain ⟨o', hm', hor⟩ := hl a o ha
  cases hm.symm.trans hm'
  exact hk o' (hor.imp_right fun ⟨xs, b, hx, _, ho⟩ => ⟨xs, b, hx, ho⟩)

theorem again_self {x : Expr} (hx : x.isStatic = true) (hl : Later h s.heap) :
    Again h s (.node x) (some (.node x)) s ∧ Stays h s.heap (some (.node x)) := by
  have hs : Static h (.node x) true := hx ▸ .node x
  exact ⟨⟨rfl, rfl, .refl hl, nofun, fun _ _ => iff_of_true (.same rfl rfl) (.static hs)⟩, nofun⟩

theorem again_copy {m : Eval (Option Ptr)}
    (hm : Ensures always m s fun x t => Again h s p x t ∧ Stays h t.heap x) :
    Ensures always (m >>= fun v => mem (copyOpt v)) s (Again h s p) :=
  .bind (hm.imp fun _ _ hx => ensures_mem fun _ _ hy => hx.1.copy hx.2 hy)

/-- An object that is loaded later has the form that it had. -/
def Kept (o o' : Obj) : Prop := o' = o ∨ ∃ xs b, ask o = .parts xs ∧ o' = remember b o

theorem Kept.list {els : List (Option Ptr)} {st : Option Bool} {o : Obj}
    (hk : Kept (.list els st) o) : ∃ st', o = .list els st' := by
  obtain rfl | ⟨_, b, _, rfl⟩ := hk
  · exact ⟨st, rfl⟩
  · exact ⟨some b, rfl⟩

theorem Kept.dict {tab : Tab} {st : Option Bool} {o : Obj}
    (hk : Kept (.dict tab st) o) : ∃ st', o = .dict tab st' := by
  obtain rfl | ⟨_, b, _, rfl⟩ := hk
  · exact ⟨st, rfl⟩
  · exact ⟨some b, rfl⟩

theorem Kept.eq {o o' : Obj} (hk : Kept o o') (ho : ∀ xs, ask o ≠ .parts xs) : o' = o := by
  obtain rfl | ⟨xs, _, hx, _⟩ := hk
  · rfl
  · exact absurd hx (ho xs)

theorem ask_cow_ne (c o : Option Ptr) (xs : List (Option Ptr)) : ask (.cow c o) ≠ .parts xs := by
  unfold ask
  dsimp only
  split <;> nofun

theorem emptied_again {a : Nat} {c o : Option Ptr} (ha : h[a]? = some (.cow c o))
    (ho : (c.orElse fun _ => o) = none) (hl : Later h s.heap) : Again h s (.obj a) none s := by
  have hp : h.constPtr (.obj a) = none := (constPtr_cow ha).trans ho
  refine ⟨rfl, rfl, .refl hl, fun _ => hp, fun h' _ => iff_of_false (·.there hp) fun hs => ?_⟩
  have hs' : Static h (.obj a) false := .known (by rw [ha, Option.map_some, ask_cow_none ho])
  cases hs with
  | static hs => cases hs.unique hs'
  | cow ha' hp' =>
    cases ha.symm.trans ha'
    cases ho.symm.trans hp'
  | compiled ha' => cases ha.symm.trans ha'
  | lambda ha' => cases ha.symm.trans ha'
  | list ha' => cases ha.symm.trans ha'
  | dict ha' => cases ha.symm.trans ha'

theorem Again.cow {a : Nat} {c o x : Option Ptr} {t : State} (hv : Valued h)
    (ha : h[a]? = some (.cow c o)) (hp : (c.orElse fun _ => o) = some p)
    (hx : Again h s p x t) : Again h s (.obj a) x t := by
  have hself : h.constPtr p = some p :=
    hv.cow a p (by rw [ha, Option.map_some, ask_cow hp])
  have hcow : h.constPtr (.obj a) = h.constPtr p := ((constPtr_cow ha).trans hp).trans hself.symm
  refine ⟨hx.md, hx.stack, hx.onward, fun hn => hcow.trans (hx.value hn), fun h' ho => ?_⟩
  rw [Like.congr_iff hcow rfl, hx.like h' ho, Settled.cow_iff ha hp]

theorem compiled_again {a : Nat} {f : Compiled} (ha : h[a]? = some (.compiled f))
    (hl : Later h s.heap) :
    Again h s (.obj a) (some (.obj a)) s ∧ Stays h s.heap (some (.obj a)) := by
  have hstay : ∀ h', Onward h s.heap h' → h'[a]? = some (.compiled f) := fun h' ho =>
    ho.later.getElem? ha nofun
  refine ⟨⟨rfl, rfl, .refl hl, nofun, fun h' ho => ?_⟩, ?_⟩
  · refine iff_of_true (.same (constPtr_obj ha nofun) ?_) (.compiled ha)
    exact constPtr_obj (hstay h' ho) nofun
  · rintro b ⟨⟩
    exact ⟨.compiled f, trivial, hstay⟩

theorem ensures_cow {x : Option Ptr} {Q : Option Ptr → State → Prop} (hnone : x = none → Q none s)
    (hsome : ∀ q, x = some q → Ensures always (f q) s Q) :
    Ensures always (match x with | none => pure none | some p => f p) s Q := by
  cases x with
  | none => exact .pure (hnone rfl)
  | some q => exact hsome q rfl

theorem val_again (hv : Valued h) {H : Host} {E : Evals}
    (hE : ∀ p s, Ptr.Val h.length p → Later h s.heap →
      Ensures always (E.toVal p) s fun x t => Again h s p x t ∧ Stays h t.heap x)
    (hE' : Reevaluates h E.toMval) (hp : Ptr.Val h.length p) (hl : Later h s.heap) :
    Ensures always (Nonblock.evalToVal H n E p) s fun x t =>
      Again h s p x t ∧ Stays h t.heap x := by
  cases p with
  | node x =>
    have hs : Static h (.node x) true := hp.2 x rfl ▸ .node x
    cases x with
    | constant | regex => exact .pure (again_self rfl hl)
    | list | dict =>
      refine again_static hv hl (.node _ _) rfl fun h' _ hs' => ?_
      cases hs.unique hs'
    | _ => cases hp.2 _ rfl
  | obj a =>
    obtain ⟨o, ha⟩ : ∃ o, h[a]? = some o := ⟨_, List.getElem?_eq_getElem (hp.1 a rfl)⟩
    refine ensures_load hl ha fun o' (ho : Kept o o') => ?_
    cases o with
    | list els st =>
      obtain ⟨st', rfl⟩ := ho.list
      exact listToMval_again hv hE' ha hl
    | dict tab st =>
      obtain ⟨st', rfl⟩ := ho.dict
      exact dictToMval_again hv hE' ha hl
    | cow c o =>
      cases ho.eq (ask_cow_ne c o)
      refine ensures_cow (x := c.orElse fun _ => o) (f := E.toVal)
        (fun hq => ⟨emptied_again ha hq hl, by rintro _ ⟨⟩⟩) fun q hq => ?_
      have hval := hv.part a _ q ha (List.mem_singleton.mpr hq.symm)
      exact (hE q s hval hl).imp fun x t hx => ⟨hx.1.cow hv ha hq, hx.2⟩
    | lambda l md layers =>
      cases ho.eq (by rintro _ ⟨⟩)
      exact close_again ha hl
    | compiled f =>
      cases ho.eq (by rintro _ ⟨⟩)
      exact .pure (compiled_again ha hl)
    | cowTab b c =>
      cases ho.eq (by rintro _ ⟨⟩)
      exact .stuck

theorem mval_again (hv : Valued h) {H : Host} {E : Evals}
    (hE : ∀ p s, Ptr.Val h.length p → Later h s.heap →
      Ensures always (E.toVal p) s fun x t => Again h s p x t ∧ Stays h t.heap x)
    (hE' : Reevaluates h E.toMval) : Reevaluates h (Nonblock.evalToMval H n E) := by
  intro p s hp hl
  have hval := val_again (n := n) (H := H) hv hE hE' hp hl
  cases p with
  | node x =>
    cases x with
    | constant | regex => exact again_copy hval
    | list | dict => exact hval.imp fun _ _ hx => hx.1
    | _ => cases hp.2 _ rfl
  | obj a =>
    obtain ⟨o, ha⟩ : ∃ o, h[a]? = some o := ⟨_, List.getElem?_eq_getElem (hp.1 a rfl)⟩
    refine ensures_load hl ha fun o' (ho : Kept o o') => ?_
    cases o with
    | list els st =>
      obtain ⟨st', rfl⟩ := ho.list
      exact (listToMval_again hv hE' ha hl).imp fun _ _ hx => hx.1
    | dict tab st =>
      obtain ⟨st', rfl⟩ := ho.dict
      exact (dictToMval_again hv hE' ha hl).imp fun _ _ hx => hx.1
    | cow c o =>
      cases ho.eq (ask_cow_ne c o)
      exact again_copy hval
    | lambda | compiled | cowTab =>
      cases ho.eq nofun
      exact again_copy hval

theorem again (hv : Valued h) (H : Host) (n : Nat) :
    (∀ p s, Ptr.Val h.length p → Later h s.heap →
      Ensures always ((nonblock H n).toVal p) s fun x t => Again h s p x t ∧ Stays h t.heap x) ∧
    Reevaluates h (nonblock H n).toMval := by
  induction n with
  | zero => exact ⟨fun _ _ _ _ => .stuck, fun _ _ _ _ => .stuck⟩
  | succ n ih => exact ⟨fun _ _ hp hl => val_again hv ih.1 ih.2 hp hl, mval_again hv ih.1 ih.2⟩

end Evaluating

section Halting

variable {h h₁ : Heap} {s : State} {p : Ptr} {f : Ptr → Eval (Option Ptr)} {n : Nat}

theorem halts_mem {α : Type} {m : Mem α} (hm : (m s.heap).isSome) : Halts (mem m) s :=
  .lift (Option.isSome_map.trans hm)

theorem halts_load {α : Type} {a : Nat} {o : Obj} {k : Obj → Eval α} (hl : Later h s.heap)
    (ha : h[a]? = some o) (hk : ∀ o', Kept o o' → Halts (k o') s) :
    Halts (mem (Mem.load a) >>= k) s := by
  refine .bind (halts_mem ?_) (ensures_mem fun o' h' ho => ?_)
  · obtain ⟨o', hm, -⟩ := hl a o ha
    exact Option.isSome_map.trans (hm ▸ rfl)
  · obtain ⟨o'', hm, ho⟩ := Option.map_eq_some_iff.mp ho
    cases ho
    obtain ⟨o', hm', hor⟩ := hl a o ha
    cases hm.symm.trans hm'
    exact hk o' (hor.imp_right fun ⟨xs, b, hx, _, ho⟩ => ⟨xs, b, hx, ho⟩)

theorem halts_copy {m : Eval (Option Ptr)} (hm : Halts m s)
    (he : Ensures always m s fun x t => Again h s p x t ∧ Stays h t.heap x) :
    Halts (m >>= fun v => mem (copyOpt v)) s :=
  .bind hm (he.imp fun _ _ hx => halts_mem (copy_halts hx.1.onward.later hx.2))

theorem halts_static {m : Eval (Option Ptr)} (hv : Valued h) (hl : Later h s.heap)
    (hin : p.In h.length) (hans : Answers h n p)
    (hm : ∀ h', Onward h s.heap h' → Static h p false → Halts m { s with heap := h' }) :
    Halts (do if ← mem (isStatic n p) then mem (newCow p) else m) s := by
  refine .bind (halts_mem (hans _ hl)) (ensures_mem fun b h' hb => ?_)
  obtain ⟨hs, ho⟩ := isStatic_static hv hin hl hb
  cases b with
  | true =>
    refine halts_mem (m := newCow p) ?_
    rfl
  | false => exact hm h' ho hs

theorem mapEls_halts (hf : Reevaluates h f) {xs : List (Option Ptr)}
    (hxs : ∀ p, some p ∈ xs → Ptr.Val h.length p ∧ ∀ s, Later h s.heap → Halts (f p) s)
    (hl : Later h s.heap) : Halts (mapEls f xs) s := by
  induction xs generalizing s with
  | nil => exact .pure _
  | cons x xs ih =>
    have ih := fun t => @ih t fun p hp => hxs p (List.mem_cons_of_mem _ hp)
    cases x with
    | none => exact .bind (ih s hl) fun _ _ _ _ => .pure _
    | some p =>
      obtain ⟨hp, hhalt⟩ := hxs p List.mem_cons_self
      refine .bind (hhalt s hl) ((hf p s hp hl).imp fun x t ha => ?_)
      exact .bind (ih t ha.onward.later) fun _ _ _ _ => .pure _

theorem mapTab_halts (hf : Reevaluates h f) {tab : Tab}
    (htab : ∀ p, some p ∈ tab.map (·.2) →
      Ptr.Val h.length p ∧ ∀ s, Later h s.heap → Halts (f p) s)
    (hl : Later h s.heap) : Halts (mapTab f tab) s := by
  induction tab generalizing s with
  | nil => exact .pure _
  | cons b tab ih =>
    have ih := fun t => @ih t fun p hp => htab p (List.mem_cons_of_mem _ hp)
    obtain ⟨k, _ | p⟩ := b
    · exact ih s hl
    · obtain ⟨hp, hhalt⟩ := htab p List.mem_cons_self
      refine .bind (hhalt s hl) ((hf p s hp hl).imp fun x t ha => ?_)
      exact .bind (ih t ha.onward.later) fun _ _ _ _ => .pure _

theorem halts_cow {x : Option Ptr} (hx : x = some p) (hf : Halts (f p) s) :
    Halts (match x with | none => pure none | some p => f p) s := by
  subst hx
  exact hf

end Halting

structure Ends (H : Host) (h : Heap) (n : Nat) (p : Ptr) : Prop where
  toVal : ∀ s, Later h s.heap → Halts ((nonblock H n).toVal p) s
  toMval : ∀ s, Later h s.heap → Halts ((nonblock H n).toMval p) s

section Ending

variable {H : Host} {h : Heap} {n a : Nat} {p : Ptr} {b : Bool} {md : Str} {layers : List Layer}

theorem ends_node (hv : Valued h) {x : Expr} (hx : x.isStatic = true) :
    Ends H h (n + 1) (.node x) := by
  have hs : Static h (.node x) true := hx ▸ .node x
  have hans : Answers h n (.node x) := fun h₁ _ => by cases n <;> rfl
  have hval : ∀ s, Later h s.heap →
      Halts (Nonblock.evalToVal H n (nonblock H n) (.node x)) s := by
    intro s hl
    cases x with
    | constant | regex => exact .pure _
    | list | dict =>
      refine halts_static hv hl (.node _ _) hans fun h' _ hs' => ?_
      cases hs.unique hs'
    | _ => cases hx
  refine ⟨hval, fun s hl => ?_⟩
  cases x with
  | constant | regex =>
    have hp : Ptr.Val h.length (.node _) := ⟨.node _ _, fun x hx' => by cases hx'; exact hx⟩
    exact halts_copy (hval s hl) (val_again hv (again hv H n).1 (again hv H n).2 hp hl)
  | list | dict => exact hval s hl
  | _ => cases hx

theorem ends_list (hv : Valued h) {els : List (Option Ptr)} {st : Option Bool}
    (ha : h[a]? = some (.list els st)) (hans : Answers h n (.obj a))
    (hels : Static h (.obj a) false → ∀ p, some p ∈ els → Ends H h n p) :
    Ends H h (n + 1) (.obj a) := by
  have hin : (Ptr.obj a).In h.length := by
    rintro b ⟨⟩
    exact (List.getElem?_eq_some_iff.mp ha).1
  have hlist : ∀ s, Later h s.heap →
      Halts (listToMval n (nonblock H n).toMval (.obj a) els) s := by
    refine fun s hl => halts_static hv hl hin hans fun h' ho hs => .bind ?_ fun _ _ _ _ => ?_
    · exact mapEls_halts (again hv H n).2
        (fun p hp => ⟨hv.part a _ p ha hp, (hels hs p hp).toMval⟩) ho.later
    · exact halts_mem rfl
  constructor <;> refine fun s hl => halts_load hl ha fun o ho => ?_
  all_goals
    obtain ⟨st', rfl⟩ := ho.list
    exact hlist s hl

theorem ends_dict (hv : Valued h) {tab : Tab} {st : Option Bool}
    (ha : h[a]? = some (.dict tab st)) (hans : Answers h n (.obj a))
    (hvals : Static h (.obj a) false → ∀ p, some p ∈ tab.map (·.2) → Ends H h n p) :
    Ends H h (n + 1) (.obj a) := by
  have hin : (Ptr.obj a).In h.length := by
    rintro b ⟨⟩
    exact (List.getElem?_eq_some_iff.mp ha).1
  have hdict : ∀ s, Later h s.heap →
      Halts (dictToMval n (nonblock H n).toMval (.obj a) tab) s := by
    refine fun s hl => halts_static hv hl hin hans fun h' ho hs => .bind ?_ fun _ _ _ _ => ?_
    · exact mapTab_halts (again hv H n).2
        (fun p hp => ⟨hv.part a _ p ha hp, (hvals hs p hp).toMval⟩) ho.later
    · exact halts_mem rfl
  constructor <;> refine fun s hl => halts_load hl ha fun o ho => ?_
  all_goals
    obtain ⟨st', rfl⟩ := ho.dict
    exact hdict s hl

theorem ends_other (hv : Valued h) {o : Obj} (ha : h[a]? = some o)
    (hlist : ∀ els st, o ≠ .list els st) (hdict : ∀ tab st, o ≠ .dict tab st)
    (hval : ∀ s, Later h s.heap →
      Halts (Nonblock.evalToVal H n (nonblock H n) (.obj a)) s) : Ends H h (n + 1) (.obj a) := by
  have hp : Ptr.Val h.length (.obj a) := by
    refine ⟨?_, nofun⟩
    rintro b ⟨⟩
    exact (List.getElem?_eq_some_iff.mp ha).1
  refine ⟨hval, fun s hl => halts_load hl ha fun o' ho => ?_⟩
  have hcopy := halts_copy (hval s hl) (val_again hv (again hv H n).1 (again hv H n).2 hp hl)
  cases o with
  | list els st => exact absurd rfl (hlist els st)
  | dict tab st => exact absurd rfl (hdict tab st)
  | cow c o =>
    cases ho.eq (ask_cow_ne c o)
    exact hcopy
  | lambda | compiled | cowTab =>
    cases ho.eq nofun
    exact hcopy

theorem ends_cow (hv : Valued h) {c o : Option Ptr} (ha : h[a]? = some (.cow c o))
    (hp : (c.orElse fun _ => o) = some p) (hE : Ends H h n p) : Ends H h (n + 1) (.obj a) := by
  refine ends_other hv ha (by rintro _ _ ⟨⟩) (by rintro _ _ ⟨⟩) fun s hl =>
    halts_load hl ha fun o' ho => ?_
  cases ho.eq (ask_cow_ne c o)
  exact halts_cow (x := c.orElse fun _ => o) (f := (nonblock H n).toVal) hp (hE.toVal s hl)

theorem ends_lambda (hv : Valued h) {l : Lambda} (ha : h[a]? = some (.lambda l md layers)) :
    Ends H h (n + 1) (.obj a) := by
  refine ends_other hv ha nofun nofun fun s hl => halts_load hl ha fun o' ho => ?_
  cases ho.eq nofun
  exact fun _ => rfl

theorem ends_compiled (hv : Valued h) {f : Compiled} (ha : h[a]? = some (.compiled f)) :
    Ends H h (n + 1) (.obj a) := by
  refine ends_other hv ha nofun nofun fun s hl => halts_load hl ha fun o' ho => ?_
  cases ho.eq nofun
  exact .pure _

theorem Static.ends_container (hv : Valued h) {o : Obj} (ha : h[a]? = some o)
    (ho : ∀ p, ask o ≠ .target p) (hs : Static h (.obj a) true) :
    ∀ᶠ n in atTop, Ends H h n (.obj a) := by
  have hknown : ask o ≠ .known false := fun hk => by
    have hs' : Static h (.obj a) false := .known (by rw [ha, Option.map_some, hk])
    cases hs.unique hs'
  refine eventually_succ ?_
  filter_upwards [hs.eventually hv] with n hans
  cases o with
  | list els st => exact ends_list hv ha hans fun hs' => nomatch hs.unique hs'
  | dict tab st => exact ends_dict hv ha hans fun hs' => nomatch hs.unique hs'
  | cow c o =>
    cases hp : c.orElse fun _ => o with
    | none => exact absurd (ask_cow_none hp) hknown
    | some p => exact absurd (ask_cow hp) (ho p)
  | lambda | compiled | cowTab => exact absurd rfl hknown

theorem Static.ends (hv : Valued h) (hs : Static h p b) (hb : b = true) :
    ∀ᶠ n in atTop, Ends H h n p := by
  induction hs with
  | node x => exact eventually_succ (.of_forall fun n => ends_node hv hb)
  | known ha =>
    subst hb
    obtain ⟨o, ho, hk⟩ := Option.map_eq_some_iff.mp ha
    exact Static.ends_container hv ho (hk ▸ nofun) (.known ha)
  | all ha hall =>
    obtain ⟨o, ho, hk⟩ := Option.map_eq_some_iff.mp ha
    exact Static.ends_container hv ho (hk ▸ nofun) (.all ha hall)
  | first => cases hb
  | @target a p b ha hs ih =>
    obtain ⟨o, ho, hk⟩ := Option.map_eq_some_iff.mp ha
    refine eventually_succ ?_
    filter_upwards [ih hb] with n hn
    cases o with
    | list els st => cases st <;> cases hk
    | dict tab st => cases st <;> cases hk
    | cow c o =>
      unfold ask at hk
      dsimp only at hk
      split at hk
      · cases hk
      · next p hp =>
        cases hk
        exact ends_cow hv ho hp hn
    | lambda | compiled | cowTab => cases hk

theorem static_of_parts {xs : List (Option Ptr)} (ha : h[a]?.map ask = some (.parts xs))
    (hxs : ∀ p, some p ∈ xs → ∃ b, Static h p b) : ∃ b, Static h (.obj a) b := by
  suffices hsplit : (∀ p, some p ∈ xs → Static h p true) ∨ ∃ pre p post,
      xs = pre ++ some p :: post ∧ (∀ q, some q ∈ pre → Static h q true) ∧ Static h p false by
    obtain hall | ⟨pre, p, post, rfl, hpre, hp⟩ := hsplit
    · exact ⟨true, .all ha hall⟩
    · exact ⟨false, .first ha hpre hp⟩
  clear ha
  induction xs with
  | nil => exact .inl nofun
  | cons x xs ih =>
    have ih := ih fun p hp => hxs p (List.mem_cons_of_mem _ hp)
    cases x with
    | none =>
      obtain hall | ⟨pre, p, post, rfl, hpre, hp⟩ := ih
      · exact .inl fun p hp => hall p ((List.mem_cons.mp hp).resolve_left nofun)
      · refine .inr ⟨none :: pre, p, post, rfl, fun q hq => ?_, hp⟩
        exact hpre q ((List.mem_cons.mp hq).resolve_left nofun)
    | some q =>
      obtain ⟨b, hb⟩ := hxs q List.mem_cons_self
      cases b with
      | false => exact .inr ⟨[], q, xs, rfl, nofun, hb⟩
      | true =>
        obtain hall | ⟨pre, p, post, rfl, hpre, hp⟩ := ih
        · refine .inl fun p hp => ?_
          obtain hp | hp := List.mem_cons.mp hp
          · cases hp
            exact hb
          · exact hall p hp
        · refine .inr ⟨some q :: pre, p, post, rfl, fun r hr => ?_, hp⟩
          obtain hr | hr := List.mem_cons.mp hr
          · cases hr
            exact hb
          · exact hpre r hr

theorem Settled.static_or (hs : Settled h md layers p) : ∃ b, Static h p b := by
  induction hs with
  | static hs => exact ⟨true, hs⟩
  | compiled ha | lambda ha => exact ⟨false, .known (by rw [ha]; rfl)⟩
  | @list a els st ha _ _ ih =>
    cases st with
    | some b => exact ⟨b, .known (by rw [ha]; rfl)⟩
    | none => exact static_of_parts (by rw [ha]; rfl) ih
  | @dict a tab st ha _ _ ih =>
    cases st with
    | some b => exact ⟨b, .known (by rw [ha]; rfl)⟩
    | none => exact static_of_parts (by rw [ha]; rfl) ih
  | cow ha hp _ ih =>
    obtain ⟨b, hb⟩ := ih
    exact ⟨b, .target (by rw [ha, Option.map_some, ask_cow hp]) hb⟩

theorem Settled.ends (hv : Valued h) (hs : Settled h md layers p) :
    ∀ᶠ n in atTop, Ends H h n p := by
  induction hs with
  | static hs => exact hs.ends hv rfl
  | compiled ha => exact eventually_succ (.of_forall fun n => ends_compiled hv ha)
  | lambda ha => exact eventually_succ (.of_forall fun n => ends_lambda hv ha)
  | list ha hn hels ih =>
    obtain ⟨b, hb⟩ := (Settled.list ha hn hels).static_or
    refine eventually_succ ?_
    filter_upwards [eventually_parts ih, hb.eventually hv] with n hn hans
    exact ends_list hv ha hans fun _ => hn
  | dict ha hn hvals ih =>
    obtain ⟨b, hb⟩ := (Settled.dict ha hn hvals).static_or
    refine eventually_succ ?_
    filter_upwards [eventually_parts ih, hb.eventually hv] with n hn hans
    exact ends_dict hv ha hans fun _ => hn
  | cow ha hp _ ih =>
    refine eventually_succ ?_
    filter_upwards [ih] with n hn
    exact ends_cow hv ha hp hn

end Ending

structure Value (s : State) where
  ptr : Ptr
  valued : Valued s.heap
  val : Ptr.Val s.heap.length ptr

/-- All runs return a value, and it is like `p`. -/
def Yields (s : State) (p : Ptr) (m : Eval (Option Ptr)) : Prop :=
  ∀ l, ∃ q l' t, (m l s).out = some (some q, l', t) ∧ Like s.heap t.heap p q

/-- From some depth on the evaluations of `p` yield a value like it, and so does the one to a
reference, as of a row of a `for`. -/
structure Idempotent (H : Host) (s : State) (p : Ptr) : Prop where
  toVal : ∀ᶠ n in atTop, Yields s p ((nonblock H n).toVal p)
  toRef : ∀ᶠ n in atTop, Yields s p (rowValue (nonblock H n).toRef (some p))
  toMval : ∀ᶠ n in atTop, Yields s p ((nonblock H n).toMval p)

theorem yields_iff {s : State} {p : Ptr} {m : Eval (Option Ptr)}
    (hm : Ensures always m s (Again s.heap s p)) :
    Yields s p m ↔ Halts m s ∧ Settled s.heap s.md (captured s) p := by
  constructor
  · intro hy
    refine ⟨fun l => ?_, ?_⟩
    · obtain ⟨q, l', t, hr, -⟩ := hy l
      rw [hr]
      rfl
    · obtain ⟨q, l', t, hr, hq⟩ := hy 0
      have ha := hm 0 _ hr fun _ _ => trivial
      exact (ha.like t.heap (.refl ha.onward.later)).mp hq
  · rintro ⟨hhalt, hs⟩ l
    obtain ⟨⟨x, l', t⟩, hr⟩ := Option.isSome_iff_exists.mp (hhalt l)
    have ha := hm l _ hr fun _ _ => trivial
    have hlike := (ha.like t.heap (.refl ha.onward.later)).mpr hs
    cases x with
    | none => exact absurd (ha.value rfl) hlike.there
    | some q => exact ⟨q, l', t, hr, hlike⟩

theorem refToCopy_value (v : Option Ptr) :
    (mem (refToCopy v) >>= fun r => mem (getValueOpt r)) = mem (copyOpt v) := by
  have href (h : Heap) : refToCopy v h = (copyOpt v h).map fun r => (some (.const r.1), r.2) := by
    simp only [refToCopy, Bind.bind, StateT.bind]
    cases copyOpt v h <;> rfl
  funext l s
  simp only [Bind.bind, Prog.lift, onHeap, href, Option.map_map]
  cases copyOpt v s.heap <;> rfl

theorem rowValue_eq {H : Host} {n m : Nat} {p : Ptr} (hp : Ptr.Val m p) :
    rowValue (nonblock H (n + 1)).toRef (some p) =
      ((nonblock H (n + 1)).toVal p >>= fun v => mem (copyOpt v)) := by
  have href : (nonblock H (n + 1)).toRef p =
      ((nonblock H (n + 1)).toVal p >>= fun v => mem (refToCopy v)) := by
    cases p with
    | node x =>
      cases x with
      | constant | regex | list | dict => rfl
      | _ => cases hp.2 _ rfl
    | obj a => rfl
  change ((nonblock H (n + 1)).toRef p >>= fun r => mem (getValueOpt r)) = _
  rw [href, Prog.bind_assoc]
  exact congrArg _ (funext refToCopy_value)

theorem Idempotent.settled {H : Host} {s : State} {v : Value s} (hi : Idempotent H s v.ptr) :
    Settled s.heap s.md (captured s) v.ptr := by
  obtain ⟨n, hn⟩ := hi.toVal.exists
  have hval := (again v.valued H n).1 v.ptr s v.val (.refl _)
  exact ((yields_iff (hval.imp fun _ _ hx => hx.1)).mp hn).2

theorem Settled.idempotent {H : Host} {s : State} {v : Value s}
    (hs : Settled s.heap s.md (captured s) v.ptr) : Idempotent H s v.ptr := by
  have hl := Later.refl s.heap
  have hval := fun n => (again v.valued H n).1 v.ptr s v.val hl
  have hends := hs.ends (H := H) v.valued
  refine ⟨?_, eventually_succ ?_, ?_⟩
  · filter_upwards [hends] with n hn
    exact (yields_iff ((hval n).imp fun _ _ hx => hx.1)).mpr ⟨hn.toVal s hl, hs⟩
  · filter_upwards [(tendsto_add_atTop_nat 1).eventually hends] with n hn
    rw [rowValue_eq v.val]
    have hcopy := halts_copy (hn.toVal s hl) (hval (n + 1))
    exact (yields_iff (again_copy (hval (n + 1)))).mpr ⟨hcopy, hs⟩
  · filter_upwards [hends] with n hn
    have hmval := (again v.valued H n).2 v.ptr s v.val hl
    exact (yields_iff hmval).mpr ⟨hn.toMval s hl, hs⟩

/-- A value is evaluated to one that is like it as long as its functions were closed in the file
and over the layers of now, and it has no empty place. -/
theorem idempotent_iff_settled (H : Host) (s : State) (v : Value s) :
    Idempotent H s v.ptr ↔ Settled s.heap s.md (captured s) v.ptr :=
  ⟨Idempotent.settled, Settled.idempotent⟩

/-- A function that returns `a`. -/
def returnA : Lambda where
  line := 1
  name := text "f"
  params := []
  optParams := []
  body := some (.pub 1 [.return 1 (some (.varref 1 (text "a")))])

/-- The file `p` in which `a` is 1 where `f`, which returns it, was made, and is 2 by now. -/
def shadowed : State where
  heap := [.dict [(text "a", some (.const (.int 1)))] none,
    .lambda returnA (text "p") [⟨none, .localsBarrier⟩, ⟨some 0, .locals⟩],
    .dict [(text "a", some (.const (.int 2)))] none]
  universals := 0
  globals := 0
  stack := [⟨none, .localsBarrier⟩, ⟨some 0, .locals⟩, ⟨some 2, .locals⟩]
  globalFrames := 0
  md := text "p"

theorem valued_shadowed : Valued shadowed.heap := by
  constructor
  · intro a o p ha hp
    match a with
    | 0 | 2 =>
      cases ha
      cases List.mem_singleton.mp hp
      exact ⟨.node _ _, fun x hx => by cases hx; rfl⟩
    | 1 =>
      cases ha
      exact nomatch hp
    | a + 3 => cases ha
  · intro a p ha
    match a with
    | 0 | 1 | 2 | a + 3 => cases ha

/-- The function `f` comes back with `a` that is 2. -/
theorem not_idempotent_shadowed :
    ¬ ∀ (H : Host) (s : State) (v : Value s), Idempotent H s v.ptr := by
  intro hall
  have hin : Ptr.In 3 (.obj 1) := by
    rintro a ⟨⟩
    decide
  have hs := (hall .plain shadowed ⟨.obj 1, valued_shadowed, hin, nofun⟩).settled
  have hlayers := ((Settled.lambda_iff (a := 1) rfl).mp hs).2
  exact absurd (congrArg List.length hlayers) (by decide)

end Reeval

end Okws.Pub3
