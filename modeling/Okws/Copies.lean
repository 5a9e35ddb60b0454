import Mathlib.Data.List.Forall2
import Okws.Env

namespace Okws.Pub3

open Zbuf

/-- An object that the pointer points to is below `n`. -/
def Ptr.In (n : Nat) (p : Ptr) : Prop := ∀ a, p = .obj a → a < n

/-- The objects that the table holds are below `n`. -/
def Tab.Holds (n : Nat) (t : Tab) : Prop := ∀ k p, (k, some p) ∈ t → Ptr.In n p

/-- A table holds objects below `n`, and a copy on write is either in the original or in the copied
state. -/
def Obj.Fine (n : Nat) : Obj → Prop
  | .dict t _ | .cowTab (.tab t) _ => Tab.Holds n t
  | .cow c o => c = none ∨ o = none
  | _ => True

def Heap.Valid (h : Heap) : Prop := ∀ (a : Nat) o, h[a]? = some o → o.Fine h.length

/-- A value whose copy on write was asked for an object that cannot be changed, as a regular
expression; such a value has no copy. -/
def Heap.Emptied (h : Heap) (p : Ptr) : Prop := ∃ a, p = .obj a ∧ h[a]? = some (.cow none none)

def SameObject (h h' : Heap) (x y : Option Ptr) : Prop := x.map h.constPtr = y.map h'.constPtr

theorem Tab.Holds.mono {n m : Nat} (hnm : n ≤ m) {t : Tab} (ht : Tab.Holds n t) :
    Tab.Holds m t :=
  fun k p hp a ha => (ht k p hp a ha).trans_le hnm

theorem Tab.Holds.insert {n : Nat} {t : Tab} {k : Str} {x : Option Ptr} (ht : Tab.Holds n t)
    (hx : ∀ p, x = some p → p.In n) : Tab.Holds n (Bindtab.insert t (k, x)) := by
  intro k' p hp
  unfold Bindtab.insert at hp
  split at hp
  · obtain ⟨c, hc, hp⟩ := List.mem_map.mp hp
    split at hp
    · exact hx p (congrArg Prod.snd hp)
    · exact ht k' p (hp ▸ hc)
  · obtain hp | hp := List.mem_append.mp hp
    · exact ht k' p hp
    · exact hx p (congrArg Prod.snd (List.mem_singleton.mp hp)).symm

theorem Obj.Fine.mono {n m : Nat} (hnm : n ≤ m) {o : Obj} (ho : o.Fine n) : o.Fine m := by
  cases o with
  | dict t st => exact Tab.Holds.mono hnm ho
  | cowTab b c =>
    cases b with
    | tab t => exact Tab.Holds.mono hnm ho
    | dict d => trivial
  | cow | list | lambda | compiled => exact ho

theorem Ptr.In.node (n : Nat) (x : Expr) : Ptr.In n (.node x) := fun _ ha => nomatch ha

namespace Heap

variable {h : Heap}

theorem getElem?_append_of_some {o : Obj} {a : Nat} (ha : h[a]? = some o) (l : Heap) :
    (h ++ l)[a]? = some o := by
  rw [List.getElem?_append_left (List.getElem?_eq_some_iff.mp ha).1, ha]

theorem Valid.append (hv : h.Valid) {l : Heap} (hl : ∀ o ∈ l, o.Fine (h.length + l.length)) :
    Valid (h ++ l) := by
  intro a o ha
  rw [List.length_append]
  rw [List.getElem?_append] at ha
  split at ha
  · exact (hv a o ha).mono (Nat.le_add_right ..)
  · exact hl o (List.mem_of_getElem? ha)

theorem Valid.set (hv : h.Valid) {o : Obj} (ho : o.Fine h.length) (a : Nat) :
    Valid (h.set a o) := by
  intro b o' hb
  rw [List.length_set]
  rw [List.getElem?_set] at hb
  split at hb
  · split at hb
    · cases hb
      exact ho
    · cases hb
  · exact hv b o' hb

theorem dictTab_eq_some {d : Nat} {t : Tab} :
    h.dictTab d = some t ↔ ∃ st, h[d]? = some (.dict t st) := by
  unfold dictTab
  constructor
  · intro hd
    split at hd
    · next t' st hd' =>
      cases hd
      exact ⟨st, hd'⟩
    · cases hd
  · rintro ⟨st, hd⟩
    rw [hd]

theorem Valid.dictTab (hv : h.Valid) {d : Nat} {t : Tab} (hd : h.dictTab d = some t) :
    Tab.Holds h.length t := by
  obtain ⟨st, hd⟩ := dictTab_eq_some.mp hd
  exact hv d _ hd

theorem Valid.backing (hv : h.Valid) {b : Nat} {o : Backing} {c : Option Nat} {t : Tab}
    (hb : h[b]? = some (.cowTab o c)) (ho : h.backing o = some t) : Tab.Holds h.length t := by
  cases o with
  | tab t' =>
    cases ho
    exact hv b _ hb
  | dict d => exact hv.dictTab ho

end Heap

/-- What the copying of `x` does. -/
structure Copied (h h' : Heap) (x y : Option Ptr) : Prop where
  same : SameObject h h' x y
  inside : ∀ q, y = some q → q.In h'.length

def Heap.Grown (h h' : Heap) : Prop :=
  ∃ l, h' = h ++ l ∧ ∀ o ∈ l, ∃ p, o = Obj.cow none (some p)

namespace Heap.Grown

variable {h h' h'' : Heap}

theorem refl (h : Heap) : h.Grown h := ⟨[], (List.append_nil h).symm, nofun⟩

theorem trans (hg : h.Grown h') (hg' : h'.Grown h'') : h.Grown h'' := by
  obtain ⟨l, rfl, hl⟩ := hg
  obtain ⟨l', rfl, hl'⟩ := hg'
  refine ⟨l ++ l', List.append_assoc .., fun o ho => ?_⟩
  exact (List.mem_append.mp ho).elim (hl o) (hl' o)

theorem one (h : Heap) (p : Ptr) : h.Grown (h ++ [.cow none (some p)]) :=
  ⟨[_], rfl, fun _ ho => ⟨p, List.mem_singleton.mp ho⟩⟩

theorem length_le (hg : h.Grown h') : h.length ≤ h'.length := by
  obtain ⟨l, rfl, -⟩ := hg
  rw [List.length_append]
  exact Nat.le_add_right ..

theorem getElem? (hg : h.Grown h') {a : Nat} {o : Obj} (ha : h[a]? = some o) :
    h'[a]? = some o := by
  obtain ⟨l, rfl, -⟩ := hg
  exact getElem?_append_of_some ha l

theorem valid (hg : h.Grown h') (hv : h.Valid) : h'.Valid := by
  obtain ⟨l, rfl, hl⟩ := hg
  refine hv.append fun o ho => ?_
  obtain ⟨p, rfl⟩ := hl o ho
  exact .inl rfl

theorem emptied (hg : h.Grown h') {p : Ptr} (hp : p.In h.length) :
    h'.Emptied p ↔ h.Emptied p := by
  obtain ⟨l, rfl, -⟩ := hg
  refine exists_congr fun a => and_congr_right ?_
  rintro rfl
  rw [List.getElem?_append_left (hp a rfl)]

end Heap.Grown

namespace Heap

/-- The copies on write that there were are as they were. -/
def SameCows (h h' : Heap) : Prop :=
  ∀ a < h.length, ∀ c o, h'[a]? = some (.cow c o) ↔ h[a]? = some (.cow c o)

variable {h h' h'' : Heap}

theorem SameCows.refl (h : Heap) : h.SameCows h := fun _ _ _ _ => .rfl

theorem SameCows.trans (hc : h.SameCows h') (hl : h.length ≤ h'.length) (hc' : h'.SameCows h'') :
    h.SameCows h'' :=
  fun a ha c o => (hc' a (ha.trans_le hl) c o).trans (hc a ha c o)

theorem SameCows.constPtr (hc : h.SameCows h') {p : Ptr} (hp : p.In h.length) :
    h'.constPtr p = h.constPtr p := by
  cases p with
  | node x => rfl
  | obj a =>
    have hc := hc a (hp a rfl)
    rw [Heap.constPtr, Heap.constPtr]
    split
    · next c o ha => rw [(hc c o).mp ha]
    · next hn =>
      split
      · next c o ha => exact absurd ((hc c o).mpr ha) (hn c o)
      · rfl

theorem Grown.sameCows (hg : h.Grown h') : h.SameCows h' := by
  obtain ⟨l, rfl, -⟩ := hg
  intro a ha c o
  rw [List.getElem?_append_left ha]

theorem SameCows.append (h l : Heap) : h.SameCows (h ++ l) :=
  fun a ha c o => by rw [List.getElem?_append_left ha]

theorem SameCows.set {a : Nat} {o o' : Obj} (ha : h[a]? = some o) (ho : ∀ c p, o ≠ .cow c p)
    (ho' : ∀ c p, o' ≠ .cow c p) : h.SameCows (h.set a o') := by
  intro b hb c p
  rw [List.getElem?_set]
  split
  · next hab =>
    subst hab
    rw [if_pos hb, ha]
    exact iff_of_false (fun h => ho' c p (Option.some.inj h)) fun h => ho c p (Option.some.inj h)
  · exact .rfl

end Heap

theorem constPtr_new (h : Heap) (x : Ptr) :
    Heap.constPtr (h ++ [.cow none (some x)]) (.obj h.length) = some x := by
  simp [Heap.constPtr]

theorem copied_new {h : Heap} {p x : Ptr} (hx : h.constPtr p = some x) :
    h.Grown (h ++ [.cow none (some x)]) ∧
      Copied h (h ++ [.cow none (some x)]) (some p) (some (.obj h.length)) := by
  refine ⟨.one h x, ?_, ?_⟩
  · rw [SameObject, Option.map_some, Option.map_some, hx, constPtr_new]
  · rintro q ⟨⟩ a ⟨⟩
    simp

theorem copied_self {h : Heap} {p : Ptr} (hp : p.In h.length) :
    h.Grown h ∧ Copied h h (some p) (some p) := by
  refine ⟨.refl h, rfl, ?_⟩
  rintro q ⟨⟩
  exact hp

theorem copy_spec {h h' : Heap} {p q : Ptr} (hv : h.Valid) (hp : copy p h = some (q, h')) :
    h.Grown h' ∧ Copied h h' (some p) (some q) := by
  cases p with
  | node x =>
    cases x with
    | constant | lambda =>
      cases hp
      exact copied_self (.node _ _)
    | _ =>
      cases hp
      exact copied_new rfl
  | obj a =>
    obtain ⟨⟨o, h₁⟩, ho, hp⟩ := Option.bind_eq_some_iff.mp hp
    obtain ⟨o, ha, ho⟩ := Option.map_eq_some_iff.mp ho
    cases ho
    have hfine := hv a o ha
    have hin : (Ptr.obj a).In h.length := by
      rintro b ⟨⟩
      exact (List.getElem?_eq_some_iff.mp ha).1
    cases o with
    | cow c o =>
      obtain _ | o := o
      · obtain _ | c := c
        · cases hp
        · cases hp
          exact copied_new (by rw [Heap.constPtr, ha]; rfl)
      · obtain rfl | ho := hfine
        · cases hp
          exact copied_new (by rw [Heap.constPtr, ha]; rfl)
        · cases ho
    | lambda =>
      cases hp
      exact copied_self hin
    | list | dict | compiled | cowTab =>
      cases hp
      exact copied_new (by rw [Heap.constPtr, ha])

theorem copy_obj {h : Heap} {a : Nat} {o : Obj} (ha : h[a]? = some o) :
    copy (.obj a) h = (match o with
      | .cow _ (some p) => Ptr.obj <$> Mem.alloc (.cow none (some p))
      | .cow (some p) none => .obj <$> Mem.alloc (.cow none (some p))
      | .cow none none => Mem.stuck
      | .lambda _ _ _ => pure (.obj a)
      | _ => .obj <$> Mem.alloc (.cow none (some (.obj a)))) h := by
  show Option.bind (Option.map (·, h) h[a]?) _ = _
  rw [ha]
  rfl

theorem copy_isSome {h : Heap} {p : Ptr} (hp : p.In h.length) :
    (copy p h).isSome = true ↔ ¬ h.Emptied p := by
  cases p with
  | node x =>
    refine iff_of_true (by cases x <;> rfl) ?_
    rintro ⟨_, ⟨⟩, _⟩
  | obj a =>
    obtain ⟨o, ha⟩ : ∃ o, h[a]? = some o := ⟨_, List.getElem?_eq_getElem (hp a rfl)⟩
    have hemptied : h.Emptied (.obj a) ↔ o = .cow none none := by
      constructor
      · rintro ⟨b, ⟨⟩, hb⟩
        rw [ha] at hb
        exact Option.some.inj hb
      · rintro rfl
        exact ⟨a, rfl, ha⟩
    rw [copy_obj ha, hemptied]
    cases o with
    | cow c o =>
      obtain _ | o := o
      · obtain _ | c := c
        · exact iff_of_false (by rintro ⟨⟩) (not_not_intro rfl)
        · exact iff_of_true rfl (by rintro ⟨⟩)
      · exact iff_of_true rfl (by rintro ⟨⟩)
    | lambda | list | dict | compiled | cowTab => exact iff_of_true rfl (by rintro ⟨⟩)

namespace Copied

variable {h h₁ h₂ : Heap} {x y : Option Ptr}

theorem later (hc : Copied h h₁ x y) (hcows : h₁.SameCows h₂) (hl : h₁.length ≤ h₂.length) :
    Copied h h₂ x y where
  same := by
    cases y with
    | none => exact hc.same
    | some q =>
      rw [SameObject, Option.map_some, hcows.constPtr (hc.inside q rfl)]
      exact hc.same
  inside q hq := fun a ha => (hc.inside q hq a ha).trans_le hl

theorem before (hg : h.Grown h₁) (hx : ∀ p, x = some p → p.In h.length)
    (hc : Copied h₁ h₂ x y) : Copied h h₂ x y where
  same := by
    cases x with
    | none => exact hc.same
    | some p =>
      rw [SameObject, Option.map_some, ← hg.sameCows.constPtr (hx p rfl)]
      exact hc.same
  inside := hc.inside

end Copied

theorem copyOpt_spec {h h' : Heap} {x y : Option Ptr} (hv : h.Valid)
    (hx : copyOpt x h = some (y, h')) : h.Grown h' ∧ Copied h h' x y := by
  cases x with
  | none =>
    cases hx
    exact ⟨.refl h, rfl, nofun⟩
  | some p =>
    obtain ⟨⟨q, h₁⟩, hp, hx⟩ := Option.bind_eq_some_iff.mp hx
    cases hx
    exact copy_spec hv hp

def CopiedTab (h₁ h₂ : Heap) : Tab → Tab → Prop :=
  List.Forall₂ fun b c => c.1 = b.1 ∧ Copied h₁ h₂ b.2 c.2

theorem copyTab_spec {h h' : Heap} {t t' : Tab} (hv : h.Valid) (ht : Tab.Holds h.length t)
    (hc : copyTab t h = some (t', h')) : h.Grown h' ∧ CopiedTab h h' t t' := by
  induction t generalizing h t' with
  | nil =>
    cases hc
    exact ⟨.refl _, .nil⟩
  | cons b bs ih =>
    obtain ⟨k, x⟩ := b
    obtain ⟨⟨y, h₁⟩, hx, hc⟩ := Option.bind_eq_some_iff.mp hc
    obtain ⟨⟨cs, h₂⟩, hbs, hc⟩ := Option.bind_eq_some_iff.mp hc
    cases hc
    obtain ⟨hg, hy⟩ := copyOpt_spec hv hx
    have hrest : Tab.Holds h.length bs := fun k p hp => ht k p (List.mem_cons_of_mem _ hp)
    obtain ⟨hg', hcs⟩ := ih (hg.valid hv) (hrest.mono hg.length_le) hbs
    refine ⟨hg.trans hg', .cons ⟨rfl, hy.later hg'.sameCows hg'.length_le⟩ ?_⟩
    have hin : ∀ b ∈ bs, ∀ p, b.2 = some p → p.In h.length := by
      rintro ⟨k, x⟩ hb p rfl
      exact hrest k p hb
    refine ((List.forall₂_and_left _ _).mpr ⟨hin, hcs⟩).imp fun b c hbc => ?_
    exact ⟨hbc.2.1, hbc.2.2.before hg hbc.1⟩

namespace CopiedTab

variable {h h' : Heap} {t t' : Tab}

theorem holds (hc : CopiedTab h h' t t') : Tab.Holds h'.length t' := by
  induction hc with
  | nil => exact fun _ _ hp => nomatch hp
  | cons hbc _ ih =>
    intro k p hp
    obtain hp | hp := List.mem_cons.mp hp
    · exact hbc.2.inside p (congrArg Prod.snd hp).symm
    · exact ih k p hp

theorem lookup (hc : CopiedTab h h' t t') (nm : Str) :
    t.lookup nm = none ∧ t'.lookup nm = none ∨
      ∃ x y, t.lookup nm = some x ∧ t'.lookup nm = some y ∧ Copied h h' x y := by
  induction hc with
  | nil => exact .inl ⟨rfl, rfl⟩
  | @cons b c _ _ hbc _ ih =>
    obtain ⟨k, x⟩ := b
    obtain ⟨k', y⟩ := c
    obtain ⟨rfl, hxy⟩ := hbc
    rw [List.lookup_cons, List.lookup_cons]
    cases nm == k' with
    | true => exact .inr ⟨x, y, rfl, rfl, hxy⟩
    | false => exact ih

end CopiedTab

theorem copyTab_isSome {h : Heap} {t : Tab} (hv : h.Valid) (ht : Tab.Holds h.length t) :
    (copyTab t h).isSome = true ↔ ∀ k p, (k, some p) ∈ t → ¬ h.Emptied p := by
  induction t generalizing h with
  | nil => exact iff_of_true rfl fun _ _ hp => nomatch hp
  | cons b bs ih =>
    obtain ⟨k, x⟩ := b
    have hrest : Tab.Holds h.length bs := fun k p hp => ht k p (List.mem_cons_of_mem _ hp)
    have hbind : copyTab ((k, x) :: bs) h = (copyOpt x h).bind fun r =>
        (copyTab bs r.2).map fun r' => ((k, r.1) :: r'.1, r'.2) := by
      show Option.bind (copyOpt x h) _ = _
      refine congrArg _ (funext fun r => ?_)
      show Option.bind (copyTab bs r.2) _ = _
      cases copyTab bs r.2 <;> rfl
    have hx : (copyOpt x h).isSome = true ↔ ∀ p, x = some p → ¬ h.Emptied p := by
      cases x with
      | none => exact iff_of_true rfl nofun
      | some p =>
        have hp := copy_isSome (ht k p List.mem_cons_self)
        have hmap : (copyOpt (some p) h).isSome = (copy p h).isSome := by
          show (Option.bind (copy p h) _).isSome = _
          cases copy p h <;> rfl
        rw [hmap, hp]
        exact ⟨fun h q hq => Option.some.inj hq ▸ h, fun h => h p rfl⟩
    rw [hbind]
    cases hr : copyOpt x h with
    | none =>
      rw [hr] at hx
      refine iff_of_false nofun fun hall => nomatch hx.mpr fun p hp => ?_
      exact hall k p (hp ▸ List.mem_cons_self)
    | some r =>
      obtain ⟨hg, -⟩ := copyOpt_spec hv hr
      rw [hr] at hx
      have hx := hx.mp rfl
      rw [Option.bind_some, Option.isSome_map, ih (hg.valid hv) (hrest.mono hg.length_le)]
      constructor
      · intro hall k' p hp
        obtain hp | hp := List.mem_cons.mp hp
        · exact hx p (congrArg Prod.snd hp).symm
        · exact (hg.emptied (hrest k' p hp)).not.mp (hall k' p hp)
      · intro hall k' p hp
        exact (hg.emptied (hrest k' p hp)).not.mpr (hall k' p (List.mem_cons_of_mem _ hp))

namespace Heap

variable {h h' : Heap}

theorem dictTab_set {d : Nat} {t : Tab} {st : Option Bool} (hd : d < h.length) (x : Nat) :
    Heap.dictTab (h.set d (.dict t st)) x = if d = x then some t else h.dictTab x := by
  by_cases hx : d = x
  · subst hx
    rw [dictTab, List.getElem?_set_self hd, if_pos rfl]
  · rw [dictTab, List.getElem?_set_ne hx, if_neg hx]
    rfl

theorem tab_set {d : Nat} {t t' : Tab} {st st' : Option Bool} (hd : h[d]? = some (.dict t st))
    (b : Nat) : Heap.tab (h.set d (.dict t' st')) b = h.tab b ∨
      h.tab b = some t ∧ Heap.tab (h.set d (.dict t' st')) b = some t' := by
  have hlen := (List.getElem?_eq_some_iff.mp hd).1
  have hdict (x : Nat) : Heap.dictTab (h.set d (.dict t' st')) x = h.dictTab x ∨
      h.dictTab x = some t ∧ Heap.dictTab (h.set d (.dict t' st')) x = some t' := by
    rw [dictTab_set hlen]
    split
    · next hdx => exact .inr ⟨hdx ▸ dictTab_eq_some.mpr ⟨st, hd⟩, rfl⟩
    · exact .inl rfl
  by_cases hb : d = b
  · subst hb
    exact .inr ⟨by rw [tab, hd], by rw [tab, List.getElem?_set_self hlen]⟩
  · rw [tab, tab, List.getElem?_set_ne hb]
    obtain _ | o := h[b]?
    · exact .inl rfl
    cases o with
    | cowTab o c =>
      obtain _ | c := c
      · cases o with
        | tab t => exact .inl rfl
        | dict x => exact hdict x
      · exact hdict c
    | dict | list | cow | lambda | compiled => exact .inl rfl

end Heap

/-- What `mutate` of a table does, which gave the dictionary `d`. -/
structure Mutated (h h' : Heap) (b d : Nat) (t t' : Tab) : Prop where
  cows : h.SameCows h'
  length : h.length ≤ h'.length
  valid : h'.Valid
  frame : ∀ (a : Nat) o, h[a]? = some o → a ≠ b → h'[a]? = some o
  self : ∀ o, h[b]? = some o → h'[b]? = some o ∨
    ∃ b', o = .cowTab b' none ∧ h'[b]? = some (.cowTab b' (some d))
  dict : h'.dictTab d = some t'
  tab : h'.tab b = some t'
  copied : CopiedTab h h' t t'
  backed : ∀ t'' st, Heap.tab (h'.set d (.dict t'' st)) b = some t''

theorem CopiedTab.refl {h : Heap} {t : Tab} (ht : Tab.Holds h.length t) : CopiedTab h h t t := by
  induction t with
  | nil => exact .nil
  | cons b bs ih =>
    refine .cons ⟨rfl, rfl, fun q hq => ?_⟩ (ih fun k p hp => ht k p (List.mem_cons_of_mem _ hp))
    exact ht b.1 q (by rw [← hq]; exact List.mem_cons_self)

theorem mutated_copy {h h₁ : Heap} {b : Nat} {o : Backing} {t t' : Tab} (hv : h.Valid)
    (hb : h[b]? = some (.cowTab o none)) (hg : h.Grown h₁) (hc : CopiedTab h h₁ t t') :
    Mutated h ((h₁ ++ [Obj.dict t' none]).set b (Obj.cowTab o (some h₁.length))) b h₁.length
      t t' := by
  have hb₁ := hg.getElem? hb
  have hlt : b < h₁.length := (List.getElem?_eq_some_iff.mp hb₁).1
  have hb₂ := Heap.getElem?_append_of_some hb₁ [Obj.dict t' none]
  have hlen : (h₁ ++ [Obj.dict t' none]).length = h₁.length + 1 := by simp
  have hcows : h₁.SameCows ((h₁ ++ [Obj.dict t' none]).set b (Obj.cowTab o (some h₁.length))) :=
    (Heap.SameCows.append h₁ _).trans (by rw [hlen]; exact Nat.le_succ _)
      (.set hb₂ (fun _ _ h => nomatch h) fun _ _ h => nomatch h)
  have hdict : Heap.dictTab ((h₁ ++ [Obj.dict t' none]).set b (Obj.cowTab o (some h₁.length)))
      h₁.length = some t' := by
    rw [Heap.dictTab, List.getElem?_set_ne hlt.ne, List.getElem?_append_right le_rfl,
      Nat.sub_self]
    rfl
  refine ⟨hg.sameCows.trans hg.length_le hcows, ?_, ?_, ?_, ?_, hdict, ?_, ?_, fun t'' st => ?_⟩
  · rw [List.length_set, hlen]
    exact hg.length_le.trans (Nat.le_succ _)
  · refine ((hg.valid hv).append fun o ho => ?_).set ?_ b
    · cases List.mem_singleton.mp ho
      exact hc.holds.mono (Nat.le_add_right ..)
    · rw [hlen]
      have hfine : (Obj.cowTab o none).Fine h.length := hv b _ hb
      cases o with
      | tab t => exact hfine.mono (hg.length_le.trans (Nat.le_succ _))
      | dict d => trivial
  · intro a o' ha hab
    rw [List.getElem?_set_ne (Ne.symm hab)]
    exact Heap.getElem?_append_of_some (hg.getElem? ha) _
  · intro o' ho'
    rw [hb] at ho'
    cases ho'
    exact .inr ⟨o, rfl, List.getElem?_set_self (by rw [hlen]; exact hlt.trans (Nat.lt_succ_self _))⟩
  · rw [Heap.tab, List.getElem?_set_self (by rw [hlen]; exact hlt.trans (Nat.lt_succ_self _))]
    exact hdict
  · refine hc.imp fun b c hbc => ⟨hbc.1, hbc.2.later hcows ?_⟩
    rw [List.length_set, hlen]
    exact Nat.le_succ _
  · rw [Heap.tab, List.getElem?_set_ne hlt.ne', List.getElem?_set_self (by
      rw [hlen]; exact hlt.trans (Nat.lt_succ_self _))]
    show Heap.dictTab _ _ = _
    rw [Heap.dictTab_set (by rw [List.length_set, hlen]; exact Nat.lt_succ_self _), if_pos rfl]

theorem mutate_eq (b : Nat) (h : Heap) : mutate b h = (h[b]?).bind fun o => (match o with
    | .dict _ _ => pure b
    | .cowTab _ (some c) => pure c
    | .cowTab o none => do
      let h ← get
      match h.backing o with
      | none => Mem.stuck
      | some t => do
        let t' ← copyTab t
        let c ← Mem.alloc (.dict t' none)
        Mem.store b (.cowTab o (some c))
        pure c
    | _ => Mem.stuck : Mem Nat) h := by
  show Option.bind (Option.map (·, h) h[b]?) _ = _
  rw [Option.bind_map]
  rfl

theorem mutate_uncopied {h : Heap} {b : Nat} {o : Backing}
    (ha : h[b]? = some (.cowTab o none)) :
    mutate b h = (match h.backing o with
      | none => Mem.stuck
      | some t => do
        let t' ← copyTab t
        let c ← Mem.alloc (.dict t' none)
        Mem.store b (.cowTab o (some c))
        pure c : Mem Nat) h := by
  rw [mutate_eq, ha]
  rfl

theorem mutate_spec {h h' : Heap} {b d : Nat} {t : Tab} (hv : h.Valid) (hb : h.tab b = some t)
    (hm : mutate b h = some (d, h')) : ∃ t', Mutated h h' b d t t' := by
  have hmutate := hm
  obtain ⟨⟨o, h₁⟩, ho, hm⟩ := Option.bind_eq_some_iff.mp hm
  obtain ⟨o, ha, ho⟩ := Option.map_eq_some_iff.mp ho
  cases ho
  have hsame (hd : h.dictTab d = some t)
      (hback : ∀ t' st, Heap.tab (h.set d (.dict t' st)) b = some t') : Mutated h h b d t t :=
    ⟨.refl h, le_rfl, hv, fun _ _ ha _ => ha, fun _ ho => .inl ho, hd, hb, .refl (hv.dictTab hd),
      hback⟩
  cases o with
  | dict t' st =>
    cases hm
    rw [Heap.tab, ha] at hb
    cases hb
    refine ⟨t, hsame (Heap.dictTab_eq_some.mpr ⟨st, ha⟩) fun t' st' => ?_⟩
    rw [Heap.tab, List.getElem?_set_self (List.getElem?_eq_some_iff.mp ha).1]
  | cowTab o c =>
    obtain _ | c := c
    · rw [Heap.tab, ha] at hb
      replace hb : h.backing o = some t := hb
      rw [mutate_uncopied ha, hb] at hmutate
      obtain ⟨⟨t', h₁⟩, hc, hm⟩ := Option.bind_eq_some_iff.mp hmutate
      cases hm
      obtain ⟨hg, hcopied⟩ := copyTab_spec hv (hv.backing ha hb) hc
      exact ⟨t', mutated_copy hv ha hg hcopied⟩
    · cases hm
      rw [Heap.tab, ha] at hb
      obtain ⟨st, hc⟩ := Heap.dictTab_eq_some.mp hb
      refine ⟨t, hsame hb fun t' st' => ?_⟩
      rw [Heap.tab, List.getElem?_set_ne, ha]
      · show Heap.dictTab _ _ = _
        rw [Heap.dictTab_set (List.getElem?_eq_some_iff.mp hc).1, if_pos rfl]
      · rintro rfl
        rw [ha] at hc
        cases hc
  | list | cow | lambda | compiled => cases hm

theorem mutate_isSome {h : Heap} {b : Nat} {t : Tab} (hv : h.Valid) (hb : h.tab b = some t) :
    (mutate b h).isSome = true ↔
      ∀ o, h[b]? = some (.cowTab o none) → ∀ k p, (k, some p) ∈ t → ¬ h.Emptied p := by
  obtain ⟨o, ha⟩ : ∃ o, h[b]? = some o := by
    cases ha : h[b]? with
    | none =>
      rw [Heap.tab, ha] at hb
      cases hb
    | some o => exact ⟨o, rfl⟩
  rw [mutate_eq, ha, Option.bind_some]
  rw [Heap.tab, ha] at hb
  cases o with
  | cowTab o c =>
    obtain _ | c := c
    · replace hb : h.backing o = some t := hb
      have hcopy : (mutate b h).isSome = (copyTab t h).isSome := by
        rw [mutate_uncopied ha, hb]
        show (Option.bind (copyTab t h) _).isSome = _
        cases copyTab t h <;> rfl
      rw [mutate_eq, ha, Option.bind_some] at hcopy
      refine (iff_of_eq (congrArg (· = true) hcopy)).trans ?_
      rw [copyTab_isSome hv (hv.backing ha hb)]
      exact ⟨fun hall _ _ => hall, fun hall => hall o rfl⟩
    · exact iff_of_true rfl (by rintro _ ⟨⟩)
  | dict => exact iff_of_true rfl (by rintro _ ⟨⟩)
  | list | cow | lambda | compiled => cases hb

end Okws.Pub3
