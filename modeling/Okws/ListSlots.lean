import Okws.PubAgree

namespace Okws.Pub3

open Zbuf Lib

/-- `xpub3_expr_t`.  A tree is sent as it stands; `null` is one whose type was never set. -/
inductive XExpr
  | null
  | tree (x : Expr)
  | list (els : List XExpr)
  | dict (entries : List (Str × Option XExpr))
  | lambda (l : Lambda)

/-- `xpub3_json_t`. -/
inductive XJson
  | error
  | null
  | bool (b : Bool)
  | int32 (i : Int)
  | uint32 (i : Int)
  | int64 (i : Int)
  | uint64 (i : Int)
  | double (d : UInt64)
  | string (s : Str)
  | list (entries : List XJson)
  | dict (entries : List (Str × Option XJson))

section Xdr

def intToXdr (i : Int) : XJson :=
  if -2 ^ 31 ≤ i ∧ i < 2 ^ 31 then .int32 i
  else if 0 ≤ i ∧ i < 2 ^ 32 then .uint32 i
  else .int64 i

def uintToXdr (u : Nat) : XJson := if u < 2 ^ 32 then .uint32 u else .uint64 u

def constantToXdr : Constant → XJson
  | .null => .null
  | .bool b => .bool b
  | .int i => intToXdr i.toInt
  | .uint u => uintToXdr u.toNat
  | .double d => .double d
  | .str s => .string s

/-- `to_xdr` of an expression. -/
def toXdr (h : Heap) : Nat → Ptr → Option XExpr
  | _, .node x => some (.tree x)
  | 0, .obj _ => none
  | n + 1, .obj a => match h.constPtr (.obj a) with
    | none => some .null
    | some (.node x) => some (.tree x)
    | some (.obj a) => h[a]?.bind fun
      | .list els _ => .list <$> els.mapM fun
        | some x => toXdr h n x
        | none => some (.tree (.constant .null))
      | .dict tab _ => .dict <$> (tab.mergeSort fun a b => cstr a.1 ≤ cstr b.1).mapM fun b =>
        (b.1, ·) <$> b.2.mapM (toXdr h n)
      | .lambda l _ _ => some (.lambda l)
      | .compiled _ => some .null
      | .cow _ _ | .cowTab _ _ => none

/-- `to_xdr` as JSON. -/
def toJsonXdr (h : Heap) : Nat → Ptr → Option XJson
  | _, .node (.constant c) => some (constantToXdr c)
  | 0, _ => none
  | n + 1, p => (h.view p).bind fun
    | .const c => some (constantToXdr c)
    | .list els => .list <$> els.mapM fun
      | some x => toJsonXdr h n x
      | none => some .null
    | .dict tab => .dict <$> (tab.mergeSort fun a b => a.1 ≤ b.1).mapM fun b =>
      (b.1, ·) <$> b.2.mapM (toJsonXdr h n)
    | _ => some .error

end Xdr

def fillSlot (x : Option Ptr) : Option Ptr := some (x.getD .null)

def Obj.fill : Obj → Obj
  | .list els st => .list (els.map fillSlot) st
  | o => o

/-- The heap on which the list at `l` has null in its empty slots. -/
def Heap.fill (h : Heap) (l : Nat) : Heap := h.modify l Obj.fill

/-- The position that an index stands for, counted from the back if it is negative. -/
def place (size : Nat) (i : Int) : Option Nat :=
  if 0 ≤ i then some i.toNat else if 0 ≤ i + size then some (i + size).toNat else none

/-- There is something at the other end of a pointer, and it can be copied. -/
def Live (h : Heap) : Ptr → Prop
  | .node _ => True
  | .obj a => ∃ o, h[a]? = some o ∧ o ≠ .cow none none

/-- A list on the heap, with what is known of any: its elements are live. -/
structure ListObj (h : Heap) where
  addr : Nat
  els : List (Option Ptr)
  st : Option Bool
  stored : h[addr]? = some (.list els st)
  live : ∀ p, some p ∈ els → Live h p

abbrev LivePtr (h : Heap) := { p : Ptr // Live h p }

/-- The work does on the list at `l` what it does if null stands in the empty slots. -/
def Fills {α : Type} (l : Nat) (h : Heap) (m : Mem α) : Prop :=
  m (h.fill l) = (m h).map fun r => (r.1, Heap.fill r.2 l)

/-- The functions on lists take an empty slot of the list at `l` for null. -/
structure TreatsAsNull (H : Host) (h : Heap) (l : Nat) : Prop where
  copy : Fills l h (Pub3.copy (.obj l))
  /-- `deep_copy`, which is `cow_copy`. -/
  deepCopy : Fills l h (cowCopy (.obj l))
  evaluation : ∀ n els st, h[l]? = some (.list els st) →
    mapEls (nonblock H (n + 1)).toMval (els.map fillSlot) =
      mapEls (nonblock H (n + 1)).toMval els
  publication : ∀ n els st, h[l]? = some (.list els st) →
    mapEls (block H (n + 1)).toMval (els.map fillSlot) = mapEls (block H (n + 1)).toMval els
  equality : ∀ n x y pos,
    evalStatic H.toPrims (h.fill l) n x y pos = evalStatic H.toPrims h n x y pos
  relation : ∀ op n x y,
    relationFinal H.toPrims (h.fill l) op n x y = relationFinal H.toPrims h op n x y
  toStr : ∀ n o p, H.toStr (h.fill l) n o p = H.toStr h n o p
  toXdr : ∀ n p, Pub3.toXdr (h.fill l) n p = Pub3.toXdr h n p
  toJsonXdr : ∀ n p, Pub3.toJsonXdr (h.fill l) n p = Pub3.toJsonXdr h n p
  iteration : ∀ n els st (i : Nat), h[l]? = some (.list els st) →
    rowValue (nonblock H (n + 1)).toRef ((els.map fillSlot)[i]?).join =
      rowValue (nonblock H (n + 1)).toRef (els[i]?).join

/-- After `x` was assigned to the element `i`, it is read there, the other elements are what they
were, and where nothing was assigned there is null for all purposes. -/
def SetLaws (H : Host) {h : Heap} (L : ListObj h) (i : Int) (x : LivePtr h) : Prop :=
  ∃ els h', h' = h.set L.addr (.list els L.st) ∧
    (Ref.list L.addr i).setValue x.1 h = some (true, h') ∧
    (Ref.list L.addr i).getValue h' = some (some x.1, h') ∧
    (∀ j < L.els.length, place L.els.length i ≠ some j → els[j]? = L.els[j]?) ∧
    TreatsAsNull H h' L.addr

/-- The index is that of an element or of the place behind the last one, and no slot is empty but
perhaps the one that is assigned. -/
def Settable (els : List (Option Ptr)) (i : Int) : Prop :=
  (-els.length ≤ i ∧ i ≤ els.length ∨ els = [] ∧ i = -1) ∧
    ∀ j, els[j]? = some none → fixupIndex els.length i true = some j

section Fill

variable {h : Heap} {l : Nat}

theorem getElem?_fill (a : Nat) :
    (h.fill l)[a]? = if a = l then h[a]?.map Obj.fill else h[a]? := by
  rw [Heap.fill, List.getElem?_modify]
  split <;> split <;> simp_all [eq_comm]

theorem fillSlot_some (p : Ptr) : fillSlot (some p) = some p := rfl

theorem getD_fillSlot (x : Option Ptr) : (fillSlot x).getD .null = x.getD .null := rfl

theorem map_fillSlot {els : List (Option Ptr)} (hels : none ∉ els) : els.map fillSlot = els := by
  have hid : els.map fillSlot = els.map id := by
    apply List.map_congr_left
    intro x hx
    cases x with
    | none => exact absurd hx hels
    | some p => rfl
  rw [hid, List.map_id]

theorem fill_eq {els : List (Option Ptr)} {st : Option Bool} (hl : h[l]? = some (.list els st))
    (hels : none ∉ els) : h.fill l = h := by
  apply List.ext_getElem?
  intro a
  rw [getElem?_fill]
  split
  · next ha =>
    subst ha
    rw [hl]
    simp only [Option.map_some, Obj.fill, map_fillSlot hels]
  · rfl

theorem fill_eq_set {els : List (Option Ptr)} {st : Option Bool}
    (hl : h[l]? = some (.list els st)) :
    h.fill l = h.set l (.list (els.map fillSlot) st) := by
  apply List.ext_getElem?
  intro a
  rw [getElem?_fill, List.getElem?_set]
  by_cases ha : a = l
  · subst ha
    rw [if_pos rfl, if_pos rfl, if_pos (List.getElem?_eq_some_iff.mp hl).1, hl]
    rfl
  · rw [if_neg ha, if_neg fun h => ha h.symm]

theorem ofObj_fill (o : Obj) : View.ofObj o.fill = View.ofObj o ∨
    ∃ els, View.ofObj o = some (.list els) ∧
      View.ofObj o.fill = some (.list (els.map fillSlot)) := by
  cases o with
  | list els st => exact .inr ⟨els, rfl, rfl⟩
  | _ => exact .inl rfl

theorem pointee_fill (p : Ptr) : (h.fill l).pointee p = h.pointee p ∨
    ∃ els, h.pointee p = some (.list els) ∧
      (h.fill l).pointee p = some (.list (els.map fillSlot)) := by
  cases p with
  | node x => exact .inl rfl
  | obj a =>
    simp only [Heap.pointee, getElem?_fill]
    split
    · cases h[a]? with
      | none => exact .inl rfl
      | some o => exact ofObj_fill o
    · exact .inl rfl

theorem view_fill (p : Ptr) : (h.fill l).view p = h.view p ∨
    ∃ els, h.view p = some (.list els) ∧ (h.fill l).view p = some (.list (els.map fillSlot)) := by
  cases p with
  | node x => exact .inl rfl
  | obj a =>
    simp only [Heap.view, getElem?_fill]
    cases ha : h[a]? with
    | none => simp
    | some o =>
      cases o with
      | list els st =>
        split
        · exact .inr ⟨els, rfl, rfl⟩
        · exact .inl rfl
      | cow c o =>
        have hp : (if a = l then Option.map Obj.fill (some (.cow c o)) else some (.cow c o)) =
            some (Obj.cow c o) := by
          split <;> rfl
        rw [hp]
        simp only [Option.bind_some]
        cases c.orElse fun _ => o with
        | none => exact .inl rfl
        | some q => exact pointee_fill q
      | _ =>
        left
        split <;> rfl

end Fill

section Copying

variable {h h' : Heap}

theorem Live.mono {p : Ptr} (hp : Live h p) (hh : h <+: h') : Live h' p := by
  cases p with
  | node x => trivial
  | obj a =>
    obtain ⟨o, ha, ho⟩ := hp
    obtain ⟨t, rfl⟩ := hh
    exact ⟨o, List.getElem?_append_left (List.getElem?_eq_some_iff.mp ha).1 ▸ ha, ho⟩

theorem Live.set_list {p : Ptr} {l : Nat} {els : List (Option Ptr)} {st : Option Bool}
    (hp : Live h p) : Live (h.set l (.list els st)) p := by
  cases p with
  | node x => trivial
  | obj a =>
    obtain ⟨o, ha, ho⟩ := hp
    have hlt := (List.getElem?_eq_some_iff.mp ha).1
    by_cases hal : l = a
    · subst hal
      exact ⟨_, List.getElem?_set_self hlt, by simp⟩
    · exact ⟨o, (List.getElem?_set_ne hal).trans ha, ho⟩

theorem copy_live {p : Ptr} (hp : Live h p) : ∃ q h', copy p h = some (q, h') ∧ h <+: h' := by
  cases p with
  | node x =>
    cases x with
    | constant c => exact ⟨_, h, rfl, List.prefix_rfl⟩
    | lambda l n ps os b => exact ⟨_, h, rfl, List.prefix_rfl⟩
    | _ => exact ⟨_, _, rfl, List.prefix_append _ _⟩
  | obj a =>
    obtain ⟨o, ha, ho⟩ := hp
    have hload : Mem.load a h = some (o, h) := by
      simp only [Mem.load, ha, Option.map_some]
    simp only [copy, Bind.bind, StateT.bind, hload, Option.bind_some]
    cases o with
    | lambda l md stack => exact ⟨_, h, rfl, List.prefix_rfl⟩
    | cow c o =>
      cases o with
      | some p => exact ⟨_, _, rfl, List.prefix_append _ _⟩
      | none =>
        cases c with
        | some p => exact ⟨_, _, rfl, List.prefix_append _ _⟩
        | none => exact absurd rfl ho
    | _ => exact ⟨_, _, rfl, List.prefix_append _ _⟩

theorem copyEls_live {els : List (Option Ptr)} (hels : none ∉ els)
    (hlive : ∀ p, some p ∈ els → Live h p) :
    ∃ qs h', copyEls els h = some (qs, h') ∧ h <+: h' := by
  induction els generalizing h with
  | nil => exact ⟨[], h, rfl, List.prefix_rfl⟩
  | cons x els ih =>
    cases x with
    | none => exact absurd List.mem_cons_self hels
    | some p =>
      obtain ⟨q, h₁, hq, hh₁⟩ := copy_live (hlive p List.mem_cons_self)
      obtain ⟨qs, h₂, hqs, hh₂⟩ := ih (h := h₁) (fun hx => hels (List.mem_cons_of_mem _ hx))
        fun r hr => (hlive r (List.mem_cons_of_mem _ hr)).mono hh₁
      refine ⟨some q :: qs, h₂, ?_, hh₁.trans hh₂⟩
      simp only [copyEls, Bind.bind, StateT.bind, hq, Option.bind_some, hqs]
      rfl

theorem copyEls_none {els : List (Option Ptr)} (hels : none ∈ els) (h : Heap) :
    copyEls els h = none := by
  induction els generalizing h with
  | nil => cases hels
  | cons x els ih =>
    cases x with
    | none => rfl
    | some p =>
      have hels : none ∈ els := by simpa using hels
      simp only [copyEls, Bind.bind, StateT.bind]
      cases copy p h with
      | none => rfl
      | some r => simp only [Option.bind_some, ih hels r.2, Option.bind_none]

theorem get_bind {α : Type} (k : Heap → Mem α) : ((get : Mem Heap) >>= k) h = k h h := rfl

theorem cowCopy_list {l : Nat} {els : List (Option Ptr)} {st : Option Bool}
    (hl : h[l]? = some (.list els st)) :
    cowCopy (.obj l) h = (copyEls els h).map fun r =>
      (some (.obj r.2.length), r.2 ++ [.list r.1 none]) := by
  have hp : h.pointee (.obj l) = some (.list els) := by
    simp only [Heap.pointee, hl, Option.bind_some, View.ofObj]
  unfold cowCopy
  rw [get_bind, hp]
  simp only [Functor.map, StateT.map, Bind.bind, StateT.bind]
  cases copyEls els h with
  | none => rfl
  | some r => rfl

end Copying

section Assign

variable (els : List (Option Ptr)) (i : Int) (x : Ptr)

/-- The slot to which `set` goes. -/
def slot : Nat := (if i < 0 then i + els.length else i).toNat

theorem fixupIndex_lax : fixupIndex els.length i true = some (slot els i) := by
  unfold fixupIndex slot
  split <;> grind

theorem setList_eq :
    setList els i x = (els ++ List.replicate (slot els i + 1 - els.length) none).set
      (slot els i) (some x) := by
  rw [setList, fixupIndex_lax]

theorem getElem?_setList (j : Nat) : (setList els i x)[j]? =
    if j = slot els i then some (some x)
    else if j < els.length then els[j]?
    else if j < slot els i then some none else none := by
  rw [setList_eq, List.getElem?_set]
  have hlen : (els ++ List.replicate (slot els i + 1 - els.length) none).length =
      max els.length (slot els i + 1) := by
    rw [List.length_append, List.length_replicate]
    omega
  by_cases hj : slot els i = j
  · subst hj
    rw [if_pos rfl, if_pos rfl, if_pos]
    rw [hlen]
    omega
  · rw [if_neg hj, if_neg fun h => hj h.symm]
    by_cases hjl : j < els.length
    · rw [List.getElem?_append_left hjl, if_pos hjl]
    · rw [List.getElem?_append_right (Nat.not_lt.mp hjl), if_neg hjl, List.getElem?_replicate]
      have hiff : j - els.length < slot els i + 1 - els.length ↔ j < slot els i := by omega
      simp only [hiff]

theorem lookup_setList :
    lookupList (setList els i x) i = some x ↔
      -els.length ≤ i ∨ els = [] ∧ i = -1 := by
  have hlen : (setList els i x).length = max els.length (slot els i + 1) := by
    rw [setList_eq, List.length_set, List.length_append, List.length_replicate]
    omega
  have hnil : els = [] ↔ els.length = 0 := List.length_eq_zero_iff.symm
  unfold lookupList
  by_cases hi : -els.length ≤ i ∨ els = [] ∧ i = -1
  · have hfix : fixupIndex (setList els i x).length i false = some (slot els i) := by
      rw [hlen]
      unfold fixupIndex slot
      split <;> grind
    rw [hfix]
    simp only [Option.bind_some, getElem?_setList, if_true, Option.join_some, hi]
  · have hfix : fixupIndex (setList els i x).length i false = none := by
      rw [hlen]
      unfold fixupIndex slot
      split <;> grind
    rw [hfix]
    simp only [Option.bind_none, reduceCtorEq, hi]

theorem none_notMem_setList : none ∉ setList els i x ↔
    slot els i ≤ els.length ∧ ∀ j, els[j]? = some none → slot els i = j := by
  rw [List.mem_iff_getElem?]
  simp only [getElem?_setList]
  constructor
  · intro hn
    constructor
    · by_contra hlt
      refine hn ⟨els.length, ?_⟩
      rw [if_neg (by omega), if_neg (Nat.lt_irrefl _), if_pos (by omega)]
    · intro j hj
      by_contra hne
      refine hn ⟨j, ?_⟩
      rw [if_neg fun h => hne h.symm, if_pos (List.getElem?_eq_some_iff.mp hj).1, hj]
  · rintro ⟨hle, hslot⟩ ⟨j, hj⟩
    split at hj
    · cases hj
    · next hne =>
      split at hj
      · exact hne (hslot j hj).symm
      · split at hj
        · omega
        · cases hj

theorem setValue_list {h : Heap} {l : Nat} {st : Option Bool}
    (hl : h[l]? = some (.list els st)) :
    (Ref.list l i).setValue x h = some (true, h.set l (.list (setList els i x) st)) := by
  have hload : Mem.load l h = some (.list els st, h) := by
    simp only [Mem.load, hl, Option.map_some]
  simp only [Ref.setValue, Bind.bind, StateT.bind, hload, Option.bind_some]
  rfl

theorem getValue_list {h : Heap} {l : Nat} {st : Option Bool}
    (hl : h[l]? = some (.list els st)) :
    (Ref.list l i).getValue h = some (lookupList els i, h) := by
  have hload : Mem.load l h = some (.list els st, h) := by
    simp only [Mem.load, hl, Option.map_some]
  simp only [Ref.getValue, Bind.bind, StateT.bind, hload, Option.bind_some]
  rfl

end Assign

section Siblings

variable {h : Heap} {l : Nat}

theorem toStr_fill (P : Prims) (n : Nat) (o : StrOpt) (p : Ptr) :
    P.toStr (h.fill l) n o p = P.toStr h n o p := by
  induction n generalizing o p with
  | zero => rfl
  | succ n ih =>
    unfold Prims.toStr
    rcases view_fill (h := h) (l := l) p with hv | ⟨els, hv, hv'⟩
    · rw [hv]
      congr 1
      funext v
      cases v <;> simp only [ih]
    · rw [hv, hv']
      simp only [Option.bind_some, List.mapM_map, Function.comp_def, getD_fillSlot, ih]

theorem constPtr_fill (p : Ptr) : (h.fill l).constPtr p = h.constPtr p := by
  cases p with
  | node x => rfl
  | obj a =>
    simp only [Heap.constPtr, getElem?_fill]
    by_cases ha : a = l
    · simp only [if_pos ha]
      cases h[a]? with
      | none => rfl
      | some o => cases o <;> rfl
    · simp only [if_neg ha]

theorem toXdr_null (n : Nat) : toXdr h n .null = some (.tree (.constant .null)) := by
  cases n <;> rfl

theorem toXdr_fill (n : Nat) (p : Ptr) : toXdr (h.fill l) n p = toXdr h n p := by
  induction n generalizing p with
  | zero => cases p <;> rfl
  | succ n ih =>
    have hih : toXdr (h.fill l) n = toXdr h n := funext ih
    cases p with
    | node x => rfl
    | obj a =>
      simp only [toXdr, constPtr_fill, getElem?_fill, hih]
      cases h.constPtr (.obj a) with
      | none => rfl
      | some q =>
        cases q with
        | node x => rfl
        | obj a =>
          by_cases ha : a = l
          · simp only [if_pos ha]
            cases h[a]? with
            | none => rfl
            | some o =>
              cases o with
              | list els st =>
                simp only [Option.map_some, Obj.fill, Option.bind_some, List.mapM_map]
                congr 2
                funext x
                cases x with
                | none => exact toXdr_null n
                | some q => rfl
              | _ => rfl
          · simp only [if_neg ha]

theorem toJsonXdr_null (n : Nat) : toJsonXdr h n .null = some .null := by
  cases n <;> rfl

theorem toJsonXdr_fill (n : Nat) (p : Ptr) : toJsonXdr (h.fill l) n p = toJsonXdr h n p := by
  induction n generalizing p with
  | zero =>
    cases p with
    | node x => cases x <;> rfl
    | obj a => rfl
  | succ n ih =>
    have hih : toJsonXdr (h.fill l) n = toJsonXdr h n := funext ih
    cases p with
    | node x =>
      cases x with
      | constant c => rfl
      | _ => simp only [toJsonXdr, hih, Heap.view]
    | obj a =>
      simp only [toJsonXdr, hih]
      rcases view_fill (h := h) (l := l) (.obj a) with hv | ⟨els, hv, hv'⟩
      · rw [hv]
      · rw [hv, hv']
        simp only [Option.bind_some, List.mapM_map]
        congr 2
        funext x
        cases x with
        | none => exact toJsonXdr_null n
        | some q => rfl

theorem mapEls_fill {f : Ptr → Eval (Option Ptr)} (hf : f .null = pure (some .null))
    (els : List (Option Ptr)) : mapEls f (els.map fillSlot) = mapEls f els := by
  induction els with
  | nil => rfl
  | cons x els ih =>
    cases x with
    | none =>
      change (do
        let y ← f .null
        let ys ← mapEls f (els.map fillSlot)
        pure (some (y.getD .null) :: ys)) = _
      rw [hf, ih]
      rfl
    | some p => simp only [List.map_cons, fillSlot_some, mapEls, ih]

theorem nonblock_null (H : Host) (n : Nat) :
    (nonblock H (n + 1)).toMval .null = pure (some .null) := rfl

theorem block_null (H : Host) (n : Nat) :
    (block H (n + 1)).toMval .null = pure (some .null) := rfl

theorem isNull_fill (x : Option Ptr) : (h.fill l).isNull x = h.isNull x := by
  cases x with
  | none => rfl
  | some p =>
    rcases view_fill (h := h) (l := l) p with hv | ⟨els, hv, hv'⟩
    · simp only [Heap.isNull, hv]
    · simp only [Heap.isNull, hv, hv']
      rfl

theorem toScalar_fill (P : Prims) (n : Nat) (p : Ptr) :
    P.toScalar (h.fill l) n p = P.toScalar h n p := by
  unfold Prims.toScalar
  rcases view_fill (h := h) (l := l) p with hv | ⟨els, hv, hv'⟩
  · simp only [hv, toStr_fill]
  · simp only [hv, hv', Option.bind_some, toStr_fill]

theorem evalStatic_left (P : Prims) (n : Nat) (x y : Option Ptr) (pos : Bool) :
    evalStatic P h n (fillSlot x) y pos = evalStatic P h n x y pos := by
  cases x with
  | some p => rfl
  | none =>
    cases n with
    | zero => rfl
    | succ n =>
      have hnull : h.isNull (fillSlot none) = some true := rfl
      have hnone : h.isNull none = some true := rfl
      unfold evalStatic
      rw [hnull, hnone]
      cases h.isNull y with
      | none => rfl
      | some b => cases b <;> rfl

theorem evalStatic_right (P : Prims) (n : Nat) (x y : Option Ptr) (pos : Bool) :
    evalStatic P h n x (fillSlot y) pos = evalStatic P h n x y pos := by
  cases y with
  | some p => rfl
  | none =>
    cases n with
    | zero => rfl
    | succ n =>
      have hnull : h.isNull (fillSlot none) = some true := rfl
      have hnone : h.isNull none = some true := rfl
      unfold evalStatic
      rw [hnull, hnone]
      cases h.isNull x with
      | none => rfl
      | some b => cases b <;> rfl

theorem asList_fill (x : Option Ptr) : (h.fill l).asList x = h.asList x ∨
    ∃ els, h.asList x = some (some els) ∧ (h.fill l).asList x = some (some (els.map fillSlot)) := by
  cases x with
  | none => exact .inl rfl
  | some p =>
    rcases view_fill (h := h) (l := l) p with hv | ⟨els, hv, hv'⟩
    · left
      simp only [Heap.asList, hv]
    · right
      refine ⟨els, ?_, ?_⟩
      · simp only [Heap.asList, hv]
        rfl
      · simp only [Heap.asList, hv']
        rfl

theorem allM_zip_left (P : Prims) (n : Nat) (as bs : List (Option Ptr)) :
    ((as.map fillSlot).zip bs).allM (fun y => evalStatic P h n y.1 y.2 true) =
      (as.zip bs).allM fun y => evalStatic P h n y.1 y.2 true := by
  induction as generalizing bs with
  | nil => rfl
  | cons a as ih =>
    cases bs with
    | nil => rfl
    | cons b bs =>
      simp only [List.map_cons, List.zip_cons_cons, List.allM_cons, evalStatic_left, ih]

theorem allM_zip_right (P : Prims) (n : Nat) (as bs : List (Option Ptr)) :
    (as.zip (bs.map fillSlot)).allM (fun y => evalStatic P h n y.1 y.2 true) =
      (as.zip bs).allM fun y => evalStatic P h n y.1 y.2 true := by
  induction as generalizing bs with
  | nil => rfl
  | cons a as ih =>
    cases bs with
    | nil => rfl
    | cons b bs =>
      simp only [List.map_cons, List.zip_cons_cons, List.allM_cons, evalStatic_right, ih]

theorem evalStatic_fill (P : Prims) (n : Nat) (x y : Option Ptr) (pos : Bool) :
    evalStatic P (h.fill l) n x y pos = evalStatic P h n x y pos := by
  induction n generalizing x y pos with
  | zero => rfl
  | succ n ih =>
    unfold evalStatic
    simp only [isNull_fill, Heap.listMania, ih, toScalar_fill]
    rcases asList_fill (h := h) (l := l) x with hx | ⟨els, hx, hx'⟩
    · rcases asList_fill (h := h) (l := l) y with hy | ⟨els, hy, hy'⟩
      · rw [hx, hy]
      · rw [hx, hy, hy']
        rcases h.asList x with _ | _ | els' <;>
          simp only [Option.bind_eq_bind, Option.bind_none, Option.bind_some, List.length_map,
            allM_zip_right]
    · rcases asList_fill (h := h) (l := l) y with hy | ⟨els', hy, hy'⟩
      · rw [hx, hx', hy]
        rcases h.asList y with _ | _ | els' <;>
          simp only [Option.bind_eq_bind, Option.bind_none, Option.bind_some, List.length_map,
            allM_zip_left]
      · rw [hx, hx', hy, hy']
        simp only [Option.bind_eq_bind, Option.bind_some, List.length_map, allM_zip_left,
          allM_zip_right]

end Siblings

section Gaps

variable {h : Heap} {l : Nat} {els : List (Option Ptr)} {st : Option Bool}

theorem fill_grows {h' : Heap} (hl : h[l]? = some (.list els st)) (hels : none ∉ els)
    (hh : h <+: h') : h'.fill l = h' := by
  obtain ⟨t, rfl⟩ := hh
  have hl' : (h ++ t)[l]? = some (.list els st) := by
    rw [List.getElem?_append_left (List.getElem?_eq_some_iff.mp hl).1, hl]
  exact fill_eq hl' hels

theorem treatsAsNull_of_full (H : Host) (hl : h[l]? = some (.list els st)) (hels : none ∉ els)
    (hlive : ∀ p, some p ∈ els → Live h p) : TreatsAsNull H h l := by
  have hfill := fill_eq hl hels
  refine ⟨?_, ?_, ?_, ?_, evalStatic_fill _, ?_, toStr_fill _, toXdr_fill, toJsonXdr_fill, ?_⟩
  · obtain ⟨q, h', hq, hh'⟩ := copy_live (p := .obj l) ⟨_, hl, by simp⟩
    rw [Fills, hfill, hq, Option.map_some, fill_grows hl hels hh']
  · obtain ⟨qs, h', hq, hh'⟩ := copyEls_live hels hlive
    rw [Fills, hfill, cowCopy_list hl, hq]
    simp only [Option.map_some]
    rw [fill_grows hl hels (hh'.trans (List.prefix_append _ _))]
  · intro n els' st' _
    exact mapEls_fill (nonblock_null H n) els'
  · intro n els' st' _
    exact mapEls_fill (block_null H n) els'
  · intro op n x y
    rw [hfill]
  · intro n els' st' i hl'
    cases hl.symm.trans hl'
    rw [map_fillSlot hels]

theorem full_of_treatsAsNull {H : Host} (ht : TreatsAsNull H h l)
    (hl : h[l]? = some (.list els st)) (hlive : ∀ p, some p ∈ els → Live h p) :
    none ∉ els := by
  intro hels
  have hdeep := ht.deepCopy
  rw [Fills, cowCopy_list hl, copyEls_none hels] at hdeep
  have hfl : (h.fill l)[l]? = some (.list (els.map fillSlot) st) := by
    rw [getElem?_fill, if_pos rfl, hl]
    rfl
  have hmem : none ∉ els.map fillSlot := by
    simp [fillSlot]
  have hlive' : ∀ p, some p ∈ els.map fillSlot → Live (h.fill l) p := by
    intro p hp
    obtain ⟨x, hx, hxp⟩ := List.mem_map.mp hp
    cases hxp
    cases x with
    | none => trivial
    | some p =>
      rw [fill_eq_set hl]
      exact (hlive p hx).set_list
  obtain ⟨qs, h', hq, -⟩ := copyEls_live hmem hlive'
  rw [cowCopy_list hfl, hq] at hdeep
  cases hdeep

end Gaps

/-- An assignment to an element keeps the laws exactly where the index is that of an element or of
the place behind the last one, and leaves no empty slot. -/
theorem setLaws_iff_settable (H : Host) {h : Heap} (L : ListObj h) (i : Int64)
    (x : LivePtr h) : SetLaws H L i.toInt x ↔ Settable L.els i.toInt := by
  generalize i.toInt = i
  have hlt := (List.getElem?_eq_some_iff.mp L.stored).1
  have hset := setValue_list L.els i x.1 L.stored
  have hstored : ∀ els, (h.set L.addr (.list els L.st))[L.addr]? = some (.list els L.st) :=
    fun els => List.getElem?_set_self hlt
  have hnil : L.els = [] ↔ L.els.length = 0 := List.length_eq_zero_iff.symm
  have hlive : ∀ p, some p ∈ setList L.els i x.1 →
      Live (h.set L.addr (.list (setList L.els i x.1) L.st)) p := by
    intro p hp
    apply Live.set_list
    obtain ⟨j, hj⟩ := List.mem_iff_getElem?.mp hp
    rw [getElem?_setList] at hj
    split at hj
    · cases hj
      exact x.2
    · split at hj
      · exact L.live p (List.mem_of_getElem? hj)
      · split at hj <;> cases hj
  unfold Settable
  simp only [fixupIndex_lax, Option.some.injEq, hnil]
  constructor
  · rintro ⟨els, h', rfl, hs, hg, -, ht⟩
    have hels : setList L.els i x.1 = els := by
      have heq := (Option.some.inj (hset.symm.trans hs))
      have heq := congrArg (fun r : Bool × Heap => r.2[L.addr]?) heq
      simp only [hstored] at heq
      cases heq
      rfl
    subst hels
    rw [getValue_list _ _ (hstored _)] at hg
    have hback := (lookup_setList L.els i x.1).mp (congrArg Prod.fst (Option.some.inj hg))
    rw [hnil] at hback
    obtain ⟨hle, hgaps⟩ := (none_notMem_setList _ _ _).mp
      (full_of_treatsAsNull ht (hstored _) hlive)
    refine ⟨?_, hgaps⟩
    unfold slot at hle
    split at hle <;> omega
  · rintro ⟨hi, hgaps⟩
    have hfull : none ∉ setList L.els i x.1 := by
      refine (none_notMem_setList _ _ _).mpr ⟨?_, hgaps⟩
      unfold slot
      split <;> omega
    refine ⟨setList L.els i x.1, _, rfl, hset, ?_, ?_, ?_⟩
    · rw [getValue_list _ _ (hstored _), (lookup_setList _ _ _).mpr (by rw [hnil]; omega)]
    · intro j hj hne
      rw [getElem?_setList, if_neg, if_pos hj]
      intro hjs
      apply hne
      unfold slot at hjs
      unfold place
      split at hjs <;> grind
    · exact treatsAsNull_of_full H (hstored _) hfull hlive

/-- An empty list to which an element is assigned behind its end cannot be copied any more. -/
theorem not_setLaws_gap :
    ¬ ∀ (H : Host) (h : Heap) (L : ListObj h) (i : Int64) (x : LivePtr h),
      SetLaws H L i.toInt x := by
  intro hlaws
  let L : ListObj [.list [] none] := ⟨0, [], none, rfl, fun _ hp => nomatch hp⟩
  obtain ⟨els, h', rfl, hs, -, -, ht⟩ := hlaws .plain _ L 1 ⟨.null, trivial⟩
  have hels : [none, some .null] = els := by
    have heq := congrArg (fun r : Option (Bool × Heap) => r.bind fun r => r.2[0]?) hs
    cases heq
    rfl
  subst hels
  refine full_of_treatsAsNull ht rfl ?_ List.mem_cons_self
  intro p hp
  have hp : p = .null := by simpa using hp
  subst hp
  trivial

end Okws.Pub3
