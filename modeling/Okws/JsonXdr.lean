import Okws.ListSlots
import Okws.Lib.Assoc
import Okws.Lib.Qsort

namespace Okws.Pub3.JsonXdr

open Lib

/-- An object, with what its elements and its members point to: `none` is a `NULL`.  The members of
a dictionary stand in the order in which its iterator meets them.  `other` is an object of a class
that has no form in XDR, such as a function. -/
inductive Value
  | const (c : Constant)
  | list (els : List (Option Value))
  | dict (tab : List (Str × Option Value))
  | other

abbrev Table := List (Str × Option Value)

/-- `memcmp` of two keys over the length of the shorter one. -/
def memcmp : Str → Str → Int
  | a :: as, b :: bs => if a < b then -1 else if b < a then 1 else memcmp as bs
  | _, _ => 0

/-- The comparison of keys in `xjp_cmp`, with the difference of two lengths as an `int`. -/
def keyCmp (a b : Str) : Int :=
  let r := memcmp a b
  if r = 0 then ((a.length : Int) - b.length).bmod (2 ^ 32) else r

def xjpCmp (a b : Str × Option XJson) : Int := keyCmp a.1 b.1

section ToXdr

variable (q : Qsort (Str × Option XJson))

mutual

/-- `to_xdr`, with what it sets and what it returns.  A list and a dictionary do not look at what
`to_xdr` returns for their elements. -/
def toXdr : Value → XJson × Bool
  | .const c => (constantToXdr c, true)
  | .list els => (.list (elsToXdr els), true)
  | .dict tab => (.dict (q.sort xjpCmp (tabToXdr tab)), true)
  | .other => (.error, false)

def elsToXdr : List (Option Value) → List XJson
  | [] => []
  | none :: els => .null :: elsToXdr els
  | some x :: els => (toXdr x).1 :: elsToXdr els

def tabToXdr : Table → List (Str × Option XJson)
  | [] => []
  | (k, none) :: tab => (k, none) :: tabToXdr tab
  | (k, some x) :: tab => (k, some (toXdr x).1) :: tabToXdr tab

end

/-- What `to_xdr` of a list makes of an element. -/
def elToXdr (x : Option Value) : XJson := ((x.map (toXdr q)).map Prod.fst).getD .null

theorem elsToXdr_eq (els : List (Option Value)) : elsToXdr q els = els.map (elToXdr q) := by
  induction els with
  | nil => rw [elsToXdr, List.map_nil]
  | cons x els ih =>
    cases x with
    | none => rw [elsToXdr, ih]; rfl
    | some x => rw [elsToXdr, ih]; rfl

theorem tabToXdr_eq (tab : Table) :
    tabToXdr q tab = tab.map fun b => (b.1, (b.2.map (toXdr q)).map Prod.fst) := by
  induction tab with
  | nil => rw [tabToXdr, List.map_nil]
  | cons b tab ih =>
    obtain ⟨k, x⟩ := b
    cases x with
    | none => rw [tabToXdr, ih]; rfl
    | some x => rw [tabToXdr, ih]; rfl

end ToXdr

section Alloc

mutual

/-- `expr_t::alloc`, which makes nothing of an error. -/
def alloc : XJson → Option Value
  | .error => none
  | .null => some (.const .null)
  | .bool b => some (.const (.bool b))
  | .int32 i | .uint32 i | .int64 i => some (.const (.int (.ofInt i)))
  | .uint64 i => some (.const (.uint (.ofNat i.toNat)))
  | .double d => some (.const (.double d))
  | .string s => some (.const (.str s))
  | .list entries => some (.list (allocEls entries))
  | .dict entries => some (.dict (bindtab (allocTab entries)))

def allocEls : List XJson → List (Option Value)
  | [] => []
  | j :: js => alloc j :: allocEls js

def allocTab : List (Str × Option XJson) → Table
  | [] => []
  | (k, none) :: js => (k, none) :: allocTab js
  | (k, some j) :: js => (k, alloc j) :: allocTab js

end

theorem allocEls_eq (js : List XJson) : allocEls js = js.map alloc := by
  induction js with
  | nil => rw [allocEls, List.map_nil]
  | cons j js ih => rw [allocEls, ih, List.map_cons]

theorem allocTab_eq (js : List (Str × Option XJson)) :
    allocTab js = js.map fun b => (b.1, b.2.bind alloc) := by
  induction js with
  | nil => rw [allocTab, List.map_nil]
  | cons b js ih =>
    obtain ⟨k, j⟩ := b
    cases j with
    | none => rw [allocTab, ih]; rfl
    | some j => rw [allocTab, ih]; rfl

end Alloc

inductive Step
  | index (i : Nat)
  | key (k : Str)
  deriving DecidableEq

inductive Shape
  | missing
  | const (c : Constant)
  | list (n : Nat)
  | dict
  | other
  deriving DecidableEq

namespace Value

def shape : Option Value → Shape
  | none => .missing
  | some (.const c) => .const c
  | some (.list els) => .list els.length
  | some (.dict _) => .dict
  | some .other => .other

def child : Option Value → Step → Option (Option Value)
  | some (.list els), .index i => els[i]?
  | some (.dict tab), .key k => tab.lookup k
  | _, _ => none

def follow (x : Option Value) : List Step → Option (Option Value)
  | [] => some x
  | s :: p => (child x s).bind fun y => follow y p

def read (x : Option Value) (p : List Step) : Option Shape := (follow x p).map shape

/-- What is at the end of any path satisfies `P`. -/
def Deep (P : Option Value → Prop) (x : Option Value) : Prop := ∀ p y, follow x p = some y → P y

end Value

/-- A shape by value: an integer is a number, whatever its type, and what is missing is null. -/
def Shape.value : Shape → Int ⊕ Shape
  | .const (.int i) => .inl i.toInt
  | .const (.uint u) => .inl u.toNat
  | .missing => .inr (.const .null)
  | s => .inr s

def Distinct : Option Value → Prop
  | some (.dict tab) => (tab.map Prod.fst).Nodup
  | _ => True

/-- The comparison puts the keys in an order, and tells them apart. -/
structure Sortable (ks : List Str) : Prop where
  consistent : Consistent keyCmp ks
  apart : ∀ a ∈ ks, ∀ b ∈ ks, keyCmp a b = 0 → a = b

def Sorts : Option Value → Prop
  | some (.dict tab) => Sortable (tab.map Prod.fst)
  | _ => True

structure Object where
  val : Value
  distinct : Value.Deep Distinct (some val)

namespace Object

variable (x : Object)

def read (p : List Step) : Option Shape := Value.read (some x.val) p

/-- It is made of null, booleans, integers, strings, lists and dictionaries. -/
def Plain : Prop := ∀ p, x.read p ≠ some .other ∧ ∀ d, x.read p ≠ some (.const (.double d))

structure Canonical (x : Object) : Prop where
  roundTrip : x.Plain → ∀ q p,
    (Value.read (alloc (toXdr q x.val).1) p).map Shape.value = (x.read p).map Shape.value
  /-- The output depends on what is bound to which key alone. -/
  sameBindings : ∀ q (y : Object), (∀ p, x.read p = y.read p) → toXdr q x.val = toXdr q y.val
  failure : ∀ q, (∃ p, x.read p = some .other) → (toXdr q x.val).2 = false

end Object

namespace Value

theorem ind {motive : Option Value → Prop} (none : motive none)
    (const : ∀ c, motive (some (.const c))) (other : motive (some .other))
    (list : ∀ els, (∀ o ∈ els, motive o) → motive (some (.list els)))
    (dict : ∀ tab : Table, (∀ b ∈ tab, motive b.2) → motive (some (.dict tab)))
    (o : Option Value) : motive o := by
  cases o with
  | none => exact none
  | some x =>
    refine @Value.rec (fun x => motive (some x)) (fun els => ∀ o ∈ els, motive o)
      (fun tab => ∀ b ∈ tab, motive b.2) motive (fun b => motive b.2) const list dict other nofun ?_
      nofun ?_ none (fun _ h => h) (fun _ _ h => h) x
    · intro o els ho hels
      exact List.forall_mem_cons.2 ⟨ho, hels⟩
    · intro b tab hb htab
      exact List.forall_mem_cons.2 ⟨hb, htab⟩

variable {P : Option Value → Prop} {o o' : Option Value} {els : List (Option Value)} {tab : Table}

theorem Deep.self (h : Deep P o) : P o := h [] o rfl

theorem Deep.child {s : Step} (h : Deep P o) (hs : child o s = some o') : Deep P o' := by
  intro p y hy
  refine h (s :: p) y ?_
  rw [follow, hs]
  exact hy

theorem Deep.of_children (h : P o) (hs : ∀ s o', Value.child o s = some o' → Deep P o') :
    Deep P o := by
  intro p y hy
  cases p with
  | nil =>
    cases hy
    exact h
  | cons s p =>
    obtain ⟨o', ho', hy⟩ := Option.bind_eq_some_iff.mp hy
    exact hs s o' ho' p y hy

theorem Deep.el (h : Deep P (some (.list els))) (ho : o ∈ els) : Deep P o := by
  obtain ⟨i, hi⟩ := List.mem_iff_getElem?.mp ho
  exact h.child (s := .index i) hi

theorem lookup_mem (h : (tab.map Prod.fst).Nodup) {b : Str × Option Value} (hb : b ∈ tab) :
    tab.lookup b.1 = some b.2 := by
  have ha : Apart id tab := h
  exact ha.lookup.mpr hb

theorem mem_of_lookup (h : (tab.map Prod.fst).Nodup) {k : Str} (hk : tab.lookup k = some o) :
    (k, o) ∈ tab := by
  have ha : Apart id tab := h
  exact ha.lookup.mp hk

theorem Deep.member (h : Deep P (some (.dict tab))) (hd : (tab.map Prod.fst).Nodup)
    {b : Str × Option Value} (hb : b ∈ tab) : Deep P b.2 :=
  h.child (s := .key b.1) (lookup_mem hd hb)

theorem read_cons (o : Option Value) (s : Step) (p : List Step) :
    read o (s :: p) = (child o s).bind fun y => read y p := by
  rw [read, follow, Option.map_bind]
  rfl

end Value

open Value

section Agree

variable {β : Type} {f : Shape → β} {o o' : Option Value}

/-- Two values read alike, as far as `f` tells shapes apart. -/
def Agree (f : Shape → β) (o o' : Option Value) : Prop :=
  ∀ p, (read o p).map f = (read o' p).map f

theorem Agree.shape (h : Agree f o o') : f (shape o) = f (Value.shape o') :=
  Option.some_inj.1 (h [])

theorem Agree.child (h : Agree f o o') (s : Step) :
    Option.Rel (Agree f) (Value.child o s) (Value.child o' s) := by
  have hs (p) := h (s :: p)
  simp only [read_cons] at hs
  generalize Value.child o s = x at hs ⊢
  generalize Value.child o' s = y at hs ⊢
  cases x with
  | none =>
    cases y with
    | none => exact .none
    | some y => cases hs []
  | some x =>
    cases y with
    | none => cases hs []
    | some y => exact .some hs

theorem Agree.of_children (h : f (Value.shape o) = f (Value.shape o'))
    (hs : ∀ s, Option.Rel (Agree f) (Value.child o s) (Value.child o' s)) : Agree f o o' := by
  intro p
  cases p with
  | nil => exact congrArg some h
  | cons s p =>
    have hs := hs s
    rw [read_cons, read_cons]
    generalize Value.child o s = x at hs
    generalize Value.child o' s = y at hs
    cases hs with
    | some hsame => exact hsame p
    | none => rfl

theorem map_eq_of_rel {α γ : Type} {r : α → β → Prop} {x : Option α} {y : Option β} {f : α → γ}
    {g : β → γ} (h : Option.Rel r x y) (hfg : ∀ a ∈ x, ∀ b ∈ y, r a b → f a = g b) :
    x.map f = y.map g := by
  cases h with
  | some hab => exact congrArg some (hfg _ rfl _ rfl hab)
  | none => rfl

theorem Agree.null : Agree Shape.value (some (.const .null)) none :=
  .of_children rfl fun _ => .none

end Agree

theorem keyCmp_eq_zero_self (k : Str) : keyCmp k k = 0 := by
  have hself : memcmp k k = 0 := by
    induction k with
    | nil => rfl
    | cons a k ih => rw [memcmp, if_neg (UInt8.lt_irrefl a), if_neg (UInt8.lt_irrefl a), ih]
  rw [keyCmp, hself, if_pos rfl, Int.sub_self]
  rfl

theorem alloc_intToXdr (i : Int64) : alloc (intToXdr i.toInt) = some (.const (.int i)) := by
  unfold intToXdr
  split_ifs <;> rw [alloc, Int64.ofInt_toInt]

theorem alloc_uintToXdr (u : UInt64) :
    ∃ c, alloc (uintToXdr u.toNat) = some (.const c) ∧
      Shape.value (.const c) = Shape.value (.const (.uint u)) := by
  by_cases hlt : u.toNat < 2 ^ 32
  · rw [uintToXdr, if_pos hlt]
    refine ⟨.int (.ofInt u.toNat), rfl, ?_⟩
    have hu : (Int64.ofInt u.toNat).toInt = u.toNat := Int64.toInt_ofInt_of_le (by omega) (by omega)
    exact congrArg Sum.inl hu
  · refine ⟨.uint u, ?_, rfl⟩
    rw [uintToXdr, if_neg hlt, alloc, Int.toNat_natCast, UInt64.ofNat_toNat]

theorem foldl_insert (t tab : Table) (h : ((t ++ tab).map Prod.fst).Nodup) :
    tab.foldl Bindtab.insert t = t ++ tab := by
  induction tab generalizing t with
  | nil => rw [List.foldl_nil, List.append_nil]
  | cons b tab ih =>
    have hb : t.any (·.1 == b.1) = false := by
      rw [List.any_eq_false]
      intro c hc hcb
      rw [List.map_append, List.map_cons] at h
      exact (List.disjoint_of_nodup_append h) (List.mem_map_of_mem hc)
        (List.mem_cons.mpr (.inl (eq_of_beq hcb)))
    rw [List.foldl_cons, Bindtab.insert, hb, if_neg Bool.false_ne_true, ih, List.append_assoc,
      List.singleton_append]
    rw [List.append_assoc]
    exact h

theorem bindtab_eq {tab : Table} (h : (tab.map Prod.fst).Nodup) : bindtab tab = tab :=
  foldl_insert [] tab h

theorem memcmp_spec (a b : Str) :
    (memcmp a b < 0 ∧ a < b) ∨ (0 < memcmp a b ∧ b < a) ∨
      (memcmp a b = 0 ∧ (a.length < b.length ∧ a < b ∨ a = b ∨ b.length < a.length ∧ b < a)) := by
  induction a generalizing b with
  | nil =>
    cases b with
    | nil => exact .inr (.inr ⟨rfl, .inr (.inl rfl)⟩)
    | cons d b => exact .inr (.inr ⟨rfl, .inl ⟨Nat.succ_pos _, List.nil_lt_cons d b⟩⟩)
  | cons c a ih =>
    cases b with
    | nil => exact .inr (.inr ⟨rfl, .inr (.inr ⟨Nat.succ_pos _, List.nil_lt_cons c a⟩)⟩)
    | cons d b =>
      rw [memcmp]
      by_cases hcd : c < d
      · rw [if_pos hcd]
        exact .inl ⟨by decide, List.cons_lt_cons_iff.2 (.inl hcd)⟩
      · by_cases hdc : d < c
        · rw [if_neg hcd, if_pos hdc]
          exact .inr (.inl ⟨by decide, List.cons_lt_cons_iff.2 (.inl hdc)⟩)
        · cases UInt8.le_antisymm (UInt8.not_lt.1 hdc) (UInt8.not_lt.1 hcd)
          rw [if_neg hcd, if_neg hcd]
          have hcons {a b : Str} (h : a < b) : c :: a < c :: b :=
            List.cons_lt_cons_iff.2 (.inr ⟨rfl, h⟩)
          rcases ih b with ⟨h, hlt⟩ | ⟨h, hlt⟩ | ⟨h, ⟨hl, hlt⟩ | rfl | ⟨hl, hlt⟩⟩
          · exact .inl ⟨h, hcons hlt⟩
          · exact .inr (.inl ⟨h, hcons hlt⟩)
          · exact .inr (.inr ⟨h, .inl ⟨Nat.succ_lt_succ hl, hcons hlt⟩⟩)
          · exact .inr (.inr ⟨h, .inr (.inl rfl)⟩)
          · exact .inr (.inr ⟨h, .inr (.inr ⟨Nat.succ_lt_succ hl, hcons hlt⟩)⟩)

theorem keyCmp_spec {a b : Str} (ha : a.length < 2 ^ 31) (hb : b.length < 2 ^ 31) :
    (keyCmp a b < 0 ∧ a < b) ∨ (keyCmp a b = 0 ∧ a = b) ∨ (0 < keyCmp a b ∧ b < a) := by
  have hlen : ((a.length : Int) - b.length).bmod (2 ^ 32) = a.length - b.length :=
    Int.bmod_eq_of_le (by omega) (by omega)
  unfold keyCmp
  rcases memcmp_spec a b with ⟨h, hlt⟩ | ⟨h, hlt⟩ | ⟨h, ⟨hl, hlt⟩ | rfl | ⟨hl, hlt⟩⟩
  · exact .inl ⟨by rw [if_neg (Int.ne_of_lt h)]; exact h, hlt⟩
  · exact .inr (.inr ⟨by rw [if_neg (Int.ne_of_gt h)]; exact h, hlt⟩)
  · exact .inl ⟨by rw [if_pos h, hlen]; omega, hlt⟩
  · exact .inr (.inl ⟨by rw [if_pos h, hlen]; omega, rfl⟩)
  · exact .inr (.inr ⟨by rw [if_pos h, hlen]; omega, hlt⟩)

theorem sortable_of_short {ks : List Str} (h : ∀ k ∈ ks, k.length < 2 ^ 31) : Sortable ks where
  consistent := by
    have hle : TotalOn (fun a b : Str => a ≤ b) ks :=
      ⟨fun a _ b _ c _ => List.le_trans, fun a _ b _ => List.le_total a b⟩
    refine .of_tells hle fun a ha b hb => ?_
    rcases keyCmp_spec (h a ha) (h b hb) with ⟨hr, hlt⟩ | ⟨hr, rfl⟩ | ⟨hr, hlt⟩
    · have hle : ¬ b ≤ a := fun hba => hba hlt
      exact ⟨iff_of_true (Int.le_of_lt hr) (List.le_of_lt hlt), iff_of_false (Int.not_le.2 hr) hle⟩
    · exact ⟨iff_of_true (Int.le_of_eq hr) (List.le_refl a),
        iff_of_true (Int.le_of_eq hr.symm) (List.le_refl a)⟩
    · have hle : ¬ a ≤ b := fun hab => hab hlt
      exact ⟨iff_of_false (Int.not_le.2 hr) hle, iff_of_true (Int.le_of_lt hr) (List.le_of_lt hlt)⟩
  apart a ha b hb hab := by
    rcases keyCmp_spec (h a ha) (h b hb) with ⟨hr, _⟩ | ⟨_, heq⟩ | ⟨hr, _⟩
    · omega
    · exact heq
    · omega

theorem sorts_of_short {o : Option Value} (h : ∀ p tab,
    follow o p = some (some (.dict tab)) → ∀ b ∈ tab, b.1.length < 2 ^ 31) : Deep Sorts o := by
  intro p y hy
  match y with
  | some (.dict tab) => exact sortable_of_short (List.forall_mem_map.2 (h p tab hy))
  | none | some (.const _) | some (.list _) | some .other => trivial

section Trip

variable (q : Qsort (Str × Option XJson)) {tab : Table}

/-- The members as they are sent, before they are sorted. -/
def members (tab : Table) : List (Str × Option XJson) :=
  tab.map fun b => (b.1, (b.2.map (toXdr q)).map Prod.fst)

theorem members_keys (tab : Table) : (members q tab).map Prod.fst = tab.map Prod.fst := by
  rw [members, List.map_map]
  rfl

theorem consistent_members (h : Sortable (tab.map Prod.fst)) :
    Consistent xjpCmp (members q tab) := by
  refine (consistent_map Prod.fst).2 ?_
  rw [members_keys]
  exact h.consistent

theorem lookup_members (tab : Table) (k : Str) :
    (members q tab).lookup k = (tab.lookup k).map fun o => (o.map (toXdr q)).map Prod.fst :=
  lookup_map (fun o : Option Value => (o.map (toXdr q)).map Prod.fst) tab k

theorem apart_members (hd : (tab.map Prod.fst).Nodup) : Apart id (members q tab) := by
  rw [Apart]
  exact (members_keys q tab).symm ▸ hd

theorem toXdr_list (els : List (Option Value)) :
    toXdr q (.list els) = (.list (els.map (elToXdr q)), true) := by
  rw [toXdr, elsToXdr_eq]

theorem toXdr_dict (tab : Table) :
    toXdr q (.dict tab) = (.dict (q.sort xjpCmp (members q tab)), true) := by
  rw [toXdr, tabToXdr_eq]
  rfl

theorem alloc_dict (hd : (tab.map Prod.fst).Nodup) (hs : Sortable (tab.map Prod.fst)) :
    ∃ tab' : Table, alloc (toXdr q (.dict tab)).1 = some (.dict tab') ∧
      ∀ k, tab'.lookup k =
        (tab.lookup k).map fun o => ((o.map (toXdr q)).map Prod.fst).bind alloc := by
  have hp := q.sort_perm (consistent_members q hs)
  have hap := apart_members q hd
  have hap' : Apart id (q.sort xjpCmp (members q tab)) := (hp.map _).nodup_iff.2 hap
  have hkeys : ((allocTab (q.sort xjpCmp (members q tab))).map Prod.fst).Nodup := by
    rw [allocTab_eq, List.map_map]
    exact hap'
  refine ⟨allocTab (q.sort xjpCmp (members q tab)), ?_, fun k => ?_⟩
  · rw [toXdr_dict, alloc, bindtab_eq hkeys]
  · have hl : (q.sort xjpCmp (members q tab)).lookup k = (members q tab).lookup k := by
      refine Option.ext fun v => ?_
      rw [hap'.lookup, hap.lookup, hp.mem_iff]
    rw [allocTab_eq, lookup_map (fun j : Option XJson => j.bind alloc), hl, lookup_members,
      Option.map_map]
    rfl

theorem same_const {c : Constant} (h : ∀ d, c ≠ .double d) :
    Agree Shape.value (alloc (constantToXdr c)) (some (.const c)) := by
  have leaf {c c' : Constant} (h : Shape.value (.const c) = Shape.value (.const c')) :
      Agree Shape.value (some (.const c)) (some (.const c')) := .of_children h fun _ => .none
  cases c with
  | null => exact leaf rfl
  | bool b => exact leaf rfl
  | int i =>
    rw [constantToXdr, alloc_intToXdr]
    exact leaf rfl
  | uint u =>
    obtain ⟨c, hc, hval⟩ := alloc_uintToXdr u
    rw [constantToXdr, hc]
    exact leaf hval
  | double d => exact absurd rfl (h d)
  | str s => exact leaf rfl

theorem same_alloc (o : Option Value) (hd : Deep Distinct o) (hs : Deep Sorts o)
    (hp : Deep (fun o => shape o ≠ .other ∧ ∀ d, shape o ≠ .const (.double d)) o) :
    Agree Shape.value (((o.map (toXdr q)).map Prod.fst).bind alloc) o := by
  induction o using Value.ind with
  | none => exact fun _ => rfl
  | const c => exact same_const fun d hc => hp.self.2 d (congrArg Shape.const hc)
  | other => exact absurd rfl hp.self.1
  | list els ih =>
    have hel (o) (ho : o ∈ els) : Agree Shape.value (alloc (elToXdr q o)) o := by
      cases o with
      | none => exact Agree.null
      | some x => exact ih _ ho (hd.el ho) (hs.el ho) (hp.el ho)
    rw [Option.map_some, Option.map_some, Option.bind_some, toXdr_list, alloc, allocEls_eq,
      List.map_map]
    refine .of_children (congrArg (Sum.inr ∘ Shape.list) (List.length_map _)) fun s => ?_
    cases s with
    | key k => exact .none
    | index i =>
      simp only [child, List.getElem?_map]
      cases ho : els[i]? with
      | none => exact .none
      | some o => exact .some (hel o (List.mem_of_getElem? ho))
  | dict tab ih =>
    have hkeys : (tab.map Prod.fst).Nodup := hd.self
    obtain ⟨tab', htab', hlookup⟩ := alloc_dict q hkeys hs.self
    rw [Option.map_some, Option.map_some, Option.bind_some, htab']
    refine .of_children rfl fun s => ?_
    cases s with
    | index i => exact .none
    | key k =>
      simp only [child, hlookup]
      cases ho : tab.lookup k with
      | none => exact .none
      | some o =>
        have hmem : (k, o) ∈ tab := mem_of_lookup hkeys ho
        exact .some (ih _ hmem (hd.member hkeys hmem) (hs.member hkeys hmem)
          (hp.member hkeys hmem))

theorem sort_members_eq {tab' : Table} (hd : (tab.map Prod.fst).Nodup)
    (hd' : (tab'.map Prod.fst).Nodup) (hs : Sortable (tab.map Prod.fst))
    (h : ∀ k, (members q tab).lookup k = (members q tab').lookup k) :
    q.sort xjpCmp (members q tab) = q.sort xjpCmp (members q tab') := by
  have hap := apart_members q hd
  have hap' := apart_members q hd'
  have hperm : (members q tab').Perm (members q tab) := by
    refine (List.perm_ext_iff_of_nodup hap'.nodup hap.nodup).2 fun b => ?_
    rw [← hap.lookup, ← hap'.lookup, h]
  have hkey {b} (hb : b ∈ members q tab) : b.1 ∈ tab.map Prod.fst :=
    members_keys q tab ▸ List.mem_map_of_mem hb
  refine (q.sort_eq (consistent_members q hs) (fun a ha b hb hab => ?_) hperm).symm
  exact hap.unique ha hb (hs.apart a.1 (hkey ha) b.1 (hkey hb) hab)

theorem toXdr_eq {o o' : Option Value} (hd : Deep Distinct o) (hs : Deep Sorts o)
    (hd' : Deep Distinct o') (h : Agree id o o') : o.map (toXdr q) = o'.map (toXdr q) := by
  have hshape : shape o = shape o' := h.shape
  induction o using Value.ind generalizing o' with
  | none =>
    cases o' with
    | none => rfl
    | some x => cases x <;> cases hshape
  | const c =>
    cases o' with
    | none => cases hshape
    | some x =>
      cases x with
      | const c' =>
        cases hshape
        rfl
      | _ => cases hshape
  | other =>
    cases o' with
    | none => cases hshape
    | some x =>
      cases x with
      | other => rfl
      | _ => cases hshape
  | list els ih =>
    cases o' with
    | none => cases hshape
    | some x =>
      cases x with
      | list els' =>
        rw [Option.map_some, Option.map_some, toXdr_list, toXdr_list]
        congr 3
        apply List.ext_getElem?
        intro i
        rw [List.getElem?_map, List.getElem?_map]
        refine map_eq_of_rel (h.child (.index i)) fun o ho o' ho' hel => ?_
        have hmem := List.mem_of_getElem? ho
        rw [elToXdr, elToXdr, ih o hmem (hd.el hmem) (hs.el hmem)
          (hd'.el (List.mem_of_getElem? ho')) hel hel.shape]
      | _ => cases hshape
  | dict tab ih =>
    cases o' with
    | none => cases hshape
    | some x =>
      cases x with
      | dict tab' =>
        have hkeys : (tab.map Prod.fst).Nodup := hd.self
        have hkeys' : (tab'.map Prod.fst).Nodup := hd'.self
        have hlookup (k : Str) : (members q tab).lookup k = (members q tab').lookup k := by
          rw [lookup_members, lookup_members]
          refine map_eq_of_rel (h.child (.key k)) fun o ho o' ho' hval => ?_
          have hmem := mem_of_lookup hkeys ho
          rw [ih _ hmem (hd.member hkeys hmem) (hs.member hkeys hmem)
            (hd'.member hkeys' (mem_of_lookup hkeys' ho')) hval hval.shape]
        rw [Option.map_some, Option.map_some, toXdr_dict, toXdr_dict,
          sort_members_eq q hkeys hkeys' hs.self hlookup]
      | _ => cases hshape

end Trip

section Unlike

variable {o o' : Option Value} {els : List (Option Value)} {tab : Table}

theorem lookup_replace_member (tab : Table) (k j : Str) (o : Option Value) :
    List.lookup j (tab.map fun b => (b.1, if b.1 = k then o else b.2)) =
      (tab.lookup j).map fun v => if j = k then o else v := by
  induction tab with
  | nil => rfl
  | cons b tab ih =>
    rw [List.map_cons, List.lookup_cons, List.lookup_cons, ih]
    cases hj : j == b.1 with
    | true =>
      cases eq_of_beq hj
      rfl
    | false => rfl

theorem lookup_reverse (hd : (tab.map Prod.fst).Nodup) (k : Str) :
    tab.reverse.lookup k = tab.lookup k := by
  have ha : Apart id tab := hd
  have har : Apart id tab.reverse := (tab.reverse_perm.map _).nodup_iff.2 ha
  refine Option.ext fun v => ?_
  rw [ha.lookup, har.lookup, List.mem_reverse]

theorem Agree.refl {β : Type} (f : Shape → β) (o : Option Value) : Agree f o o := fun _ => rfl

/-- A pointer reads like another one, which is sent otherwise. -/
def Unlike (q : Qsort (Str × Option XJson)) (o : Option Value) : Prop :=
  ∃ o', Deep Distinct o' ∧ Agree id o o' ∧
    (o.map (toXdr q)).map Prod.fst ≠ (o'.map (toXdr q)).map Prod.fst

theorem Unlike.el {q : Qsort (Str × Option XJson)} (hd : Deep Distinct (some (.list els)))
    (ho : o ∈ els) (h : Unlike q o) : Unlike q (some (.list els)) := by
  obtain ⟨o', hd', hag, hne⟩ := h
  obtain ⟨i, hi⟩ := List.mem_iff_getElem?.mp ho
  have hlen : i < els.length := (List.getElem?_eq_some_iff.mp hi).1
  refine ⟨some (.list (els.set i o')), .of_children trivial fun s y hy => ?_,
    .of_children (congrArg Shape.list (List.length_set).symm) fun s => ?_, fun heq => hne ?_⟩
  · cases s with
    | key k => cases hy
    | index j =>
      rcases List.mem_or_eq_of_mem_set (List.mem_of_getElem? hy) with hy | rfl
      · exact hd.el hy
      · exact hd'
  · cases s with
    | key k => exact .none
    | index j =>
      simp only [child, List.getElem?_set]
      by_cases hij : i = j
      · subst hij
        rw [if_pos rfl, if_pos hlen, hi]
        exact .some hag
      · rw [if_neg hij]
        cases els[j]? with
        | none => exact .none
        | some y => exact .some (.refl id y)
  · simp only [Option.map_some, toXdr_list, Option.some_inj] at heq
    injection heq with heq
    have hi' := congrArg (·[i]?) heq
    simp only [List.getElem?_map, hi, List.getElem?_set_self hlen, Option.map_some] at hi'
    have hel : elToXdr q o = elToXdr q o' := Option.some_inj.1 hi'
    have hshape : shape o = shape o' := hag.shape
    cases o with
    | none =>
      cases o' with
      | none => rfl
      | some x' => cases x' <;> cases hshape
    | some x =>
      cases o' with
      | none => cases x <;> cases hshape
      | some x' => exact congrArg some hel

theorem Unlike.member {q : Qsort (Str × Option XJson)} (hd : Deep Distinct (some (.dict tab)))
    (hs : Sortable (tab.map Prod.fst)) {b : Str × Option Value} (hb : b ∈ tab) (h : Unlike q b.2) :
    Unlike q (some (.dict tab)) := by
  obtain ⟨o', hd', hag, hne⟩ := h
  obtain ⟨k, o⟩ := b
  have hkeys : (tab.map Prod.fst).Nodup := hd.self
  have hk : tab.lookup k = some o := lookup_mem hkeys hb
  let tab' : Table := tab.map fun b => (b.1, if b.1 = k then o' else b.2)
  have hfst : tab'.map Prod.fst = tab.map Prod.fst := by
    rw [List.map_map]
    rfl
  have hkeys' : (tab'.map Prod.fst).Nodup := hfst ▸ hkeys
  refine ⟨some (.dict tab'), .of_children hkeys' fun s y hy => ?_, .of_children rfl fun s => ?_,
    fun heq => hne ?_⟩
  · cases s with
    | index j => cases hy
    | key j =>
      rw [child, lookup_replace_member] at hy
      obtain ⟨v, hv, hy⟩ := Option.map_eq_some_iff.mp hy
      split at hy
      · exact hy ▸ hd'
      · exact hy ▸ hd.member hkeys (mem_of_lookup hkeys hv)
  · cases s with
    | index j => exact .none
    | key j =>
      simp only [child, tab', lookup_replace_member]
      by_cases hj : j = k
      · subst hj
        rw [hk, Option.map_some, if_pos rfl]
        exact .some hag
      · simp only [if_neg hj, Option.map_id']
        cases tab.lookup j with
        | none => exact .none
        | some y => exact .some (.refl id y)
  · simp only [Option.map_some, toXdr_dict, Option.some_inj] at heq
    injection heq with heq
    have hp := (q.sort_perm (consistent_members q hs)).symm.trans
      (heq ▸ q.sort_perm (consistent_members q (hfst.symm ▸ hs)))
    have hlk : (members q tab).lookup k = (members q tab').lookup k := by
      refine Option.ext fun v => ?_
      rw [(apart_members q hkeys).lookup, (apart_members q hkeys').lookup, hp.mem_iff]
    rw [lookup_members, lookup_members, lookup_replace_member, hk, Option.map_some, Option.map_some,
      Option.map_some, if_pos rfl] at hlk
    exact Option.some_inj.1 hlk

open Classical in
theorem Unlike.reverse (hd : Deep Distinct (some (.dict tab)))
    (hs : ¬ Sortable (tab.map Prod.fst)) : Unlike (.picking none none) (some (.dict tab)) := by
  have hkeys : (tab.map Prod.fst).Nodup := hd.self
  have hkeys' : (tab.reverse.map Prod.fst).Nodup := (tab.reverse_perm.map _).nodup_iff.2 hkeys
  refine ⟨some (.dict tab.reverse), .of_children hkeys' fun s y hy => ?_,
    .of_children rfl fun s => ?_, fun heq => ?_⟩
  · cases s with
    | index j => cases hy
    | key j =>
      rw [child, lookup_reverse hkeys] at hy
      exact hd.member hkeys (mem_of_lookup hkeys hy)
  · cases s with
    | index j => exact .none
    | key j =>
      simp only [child, lookup_reverse hkeys]
      cases tab.lookup j with
      | none => exact .none
      | some y => exact .some (.refl id y)
  · simp only [Option.map_some, toXdr_dict, Option.some_inj] at heq
    injection heq with heq
    have hrev (q) : members q tab.reverse = (members q tab).reverse := List.map_reverse
    rw [hrev] at heq
    refine Qsort.picking_reverse (apart_members _ hkeys).nodup
      (fun a _ => keyCmp_eq_zero_self a.1) (fun h => hs ⟨?_, ?_⟩) heq
    · rw [← members_keys (.picking none none) tab]
      exact (consistent_map Prod.fst).1 h.1
    · rw [← members_keys (.picking none none) tab]
      exact List.forall_mem_map.2 fun a ha => List.forall_mem_map.2 fun b hb hab =>
        congrArg Prod.fst (h.2 a ha b hb hab)

open Classical in
theorem unlike_of_not_sorts (o : Option Value) (hd : Deep Distinct o) (hs : ¬ Deep Sorts o) :
    Unlike (.picking none none) o := by
  induction o using Value.ind with
  | none => exact absurd (.of_children trivial nofun) hs
  | const c => exact absurd (.of_children trivial nofun) hs
  | other => exact absurd (.of_children trivial nofun) hs
  | list els ih =>
    by_cases hel : ∃ o ∈ els, ¬ Deep Sorts o
    · obtain ⟨o, ho, hns⟩ := hel
      exact .el hd ho (ih o ho (hd.el ho) hns)
    · refine absurd (.of_children trivial fun s y hy => ?_) hs
      cases s with
      | key k => cases hy
      | index i => exact by_contra fun hns => hel ⟨y, List.mem_of_getElem? hy, hns⟩
  | dict tab ih =>
    have hkeys : (tab.map Prod.fst).Nodup := hd.self
    by_cases hsort : Sortable (tab.map Prod.fst)
    · by_cases hmem : ∃ b ∈ tab, ¬ Deep Sorts b.2
      · obtain ⟨b, hb, hns⟩ := hmem
        exact .member hd hsort hb (ih b hb (hd.member hkeys hb) hns)
      · refine absurd (.of_children hsort fun s y hy => ?_) hs
        cases s with
        | index i => cases hy
        | key k => exact by_contra fun hns => hmem ⟨_, mem_of_lookup hkeys hy, hns⟩
    · exact .reverse hd hsort

end Unlike

namespace Object

theorem toXdr_snd {q : Qsort (Str × Option XJson)} {v : Value} :
    (toXdr q v).2 = false ↔ v = .other := by
  cases v with
  | const c => simp [toXdr]
  | list els => simp [toXdr]
  | dict tab => simp [toXdr]
  | other => simp [toXdr]

theorem agree_iff {x y : Object} :
    (∀ p, x.read p = y.read p) ↔ Agree id (some x.val) (some y.val) := by
  simp only [Agree, Option.map_id, id_eq]
  rfl

open Classical in
/-- Strings, integers, lists and dictionaries come back, a dictionary is sent in one way, and what
has no XDR form is refused, if and only if the keys of each dictionary can be sorted and no element
or member is without XDR form. -/
theorem canonical_iff (x : Object) :
    Canonical x ↔ Deep Sorts (some x.val) ∧ ∀ s p, x.read (s :: p) ≠ some .other := by
  constructor
  · intro h
    refine ⟨by_contra fun hs => ?_, fun s p hp => ?_⟩
    · obtain ⟨o', hd', hag, hne⟩ := unlike_of_not_sorts (some x.val) x.distinct hs
      cases o' with
      | none =>
        have hshape : shape (some x.val) = shape none := hag.shape
        cases hv : x.val <;> rw [hv] at hshape <;> cases hshape
      | some y =>
        have heq := h.sameBindings (.picking none none) ⟨y, hd'⟩ (agree_iff.2 hag)
        refine hne ?_
        rw [Option.map_some, Option.map_some, heq]
        rfl
    · have hx : x.val = .other := toXdr_snd.1 (h.failure (.picking none none) ⟨s :: p, hp⟩)
      rw [read, hx] at hp
      cases hp
  · intro ⟨hs, hother⟩
    exact {
      roundTrip := fun hp q p => by
        have hplain : Deep (fun o => shape o ≠ .other ∧ ∀ d, shape o ≠ .const (.double d))
            (some x.val) := by
          intro p y hy
          have hread : x.read p = some (shape y) := congrArg (Option.map shape) hy
          have := hp p
          simp only [hread, ne_eq, Option.some_inj] at this
          exact this
        exact same_alloc q (some x.val) x.distinct hs hplain p
      sameBindings := fun q y h =>
        Option.some_inj.1 (toXdr_eq q x.distinct hs y.distinct (agree_iff.1 h))
      failure := fun q ⟨p, hp⟩ => by
        cases p with
        | nil =>
          rw [toXdr_snd]
          have hshape : shape (some x.val) = .other := Option.some_inj.1 hp
          cases hv : x.val with
          | other => rfl
          | _ => rw [hv] at hshape; cases hshape
        | cons s p => exact absurd hp (hother s p) }

open Classical in
/-- A list with a function in it is sent with an error in its place, and `to_xdr` returns true. -/
theorem not_canonical : ¬ ∀ x : Object, Canonical x := by
  intro h
  let x : Object := {
    val := .list [some .other]
    distinct := by
      refine .of_children trivial fun s y hy => ?_
      cases s with
      | key k => cases hy
      | index i =>
        cases List.mem_singleton.mp (List.mem_of_getElem? hy)
        exact .of_children trivial nofun }
  have hf := (h x).failure (.picking none none) ⟨[.index 0], rfl⟩
  cases toXdr_snd.1 hf

end Object

end Okws.Pub3.JsonXdr
