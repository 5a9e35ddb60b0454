import Okws.MsgpackCodec

namespace Okws

namespace Pub3

/-- The values inside a value, and the value itself. -/
inductive Part : Pub3 → Pub3 → Prop
  | refl (x) : Part x x
  | list {y x xs} : x ∈ xs → Part y x → Part y (.list xs)
  | dict {y kv kvs} : kv ∈ kvs → Part y kv.2 → Part y (.dict kvs)

def All (p : Pub3 → Prop) (x : Pub3) : Prop := ∀ y, Part y x → p y

theorem All.here {p : Pub3 → Prop} {x : Pub3} (h : All p x) : p x := h x (.refl x)

theorem All.list {p : Pub3 → Prop} {xs : List Pub3} (h : All p (.list xs)) : ∀ x ∈ xs, All p x :=
  fun _ hx y hy => h y (.list hx hy)

theorem All.dict {p : Pub3 → Prop} {kvs : List (Str × Pub3)} (h : All p (.dict kvs)) :
    ∀ kv ∈ kvs, All p kv.2 :=
  fun _ hkv y hy => h y (.dict hkv hy)

theorem all_list {p : Pub3 → Prop} {xs : List Pub3} :
    All p (.list xs) ↔ p (.list xs) ∧ ∀ x ∈ xs, All p x := by
  refine ⟨fun h => ⟨h.here, h.list⟩, fun ⟨h, hxs⟩ y hy => ?_⟩
  cases hy with
  | refl => exact h
  | list hx hy => exact hxs _ hx y hy

theorem all_dict {p : Pub3 → Prop} {kvs : List (Str × Pub3)} :
    All p (.dict kvs) ↔ p (.dict kvs) ∧ ∀ kv ∈ kvs, All p kv.2 := by
  refine ⟨fun h => ⟨h.here, h.dict⟩, fun ⟨h, hkvs⟩ y hy => ?_⟩
  cases hy with
  | refl => exact h
  | dict hkv hy => exact hkvs _ hkv y hy

theorem all_scalar {p : Pub3 → Prop} {x : Pub3} (h : ∀ y, Part y x → y = x) : All p x ↔ p x :=
  ⟨All.here, fun hp y hy => h y hy ▸ hp⟩

theorem all_str {p : Pub3 → Prop} {s : Str} : All p (.str s) ↔ p (.str s) :=
  all_scalar fun y hy => by cases hy; rfl

theorem all_int {p : Pub3 → Prop} {i : Int64} : All p (.int i) ↔ p (.int i) :=
  all_scalar fun y hy => by cases hy; rfl

theorem all_uint {p : Pub3 → Prop} {u : UInt64} : All p (.uint u) ↔ p (.uint u) :=
  all_scalar fun y hy => by cases hy; rfl

/-- `y` comes back for `x`: an unsigned integer may come back as the signed one, and if `b` is
true the other way round too. -/
inductive Same (b : Bool) : Pub3 → Pub3 → Prop
  | null : Same b .null .null
  | bool (c) : Same b (.bool c) (.bool c)
  | int (i) : Same b (.int i) (.int i)
  | uint (u) : Same b (.uint u) (.uint u)
  | signed {i u} : i.toInt = u.toNat → Same b (.int i) (.uint u)
  | unsigned {i u} : b = true → i.toInt = u.toNat → Same b (.uint u) (.int i)
  | double (d) : Same b (.double d) (.double d)
  | str (s) : Same b (.str s) (.str s)
  | list {ys xs} : List.Forall₂ (Same b) ys xs → Same b (.list ys) (.list xs)
  | dict {ys xs} : (∀ k, Option.Rel (Same b) (ys.lookup k) (xs.lookup k)) →
      Same b (.dict ys) (.dict xs)

end Pub3

namespace Msgpack

open BigEndian Scalar Zbuf Pub3

/-- The strings are shorter than 2^32, and a dictionary has a key once. -/
def Plain : Pub3 → Prop
  | .str s => s.length < 2 ^ 32
  | .dict kvs => (kvs.map Prod.fst).Nodup ∧ ∀ kv ∈ kvs, kv.1.length < 2 ^ 32
  | _ => True

/-- Lists and dictionaries whose number of elements can be written. -/
def Sized : Pub3 → Prop
  | .list xs => xs.length < 2 ^ 32
  | .dict kvs => kvs.length < 2 ^ 32
  | _ => True

/-- A key that is not a number, or is one in the usual notation. -/
def KeyOk (k : Str) : Prop := match convertuint k with
  | some u => k = decimal u.toNat
  | none => match myConvertint k with
    | some i => i.toInt < 0 ∧ k = decimal i.toInt
    | none => True

/-- What is written tells all: a signed integer from 2^32 on comes back unsigned. -/
def Kept (b : Bool) : Pub3 → Prop
  | .int i => b = true ∨ i.toInt < 2 ^ 32
  | .dict kvs => ∀ kv ∈ kvs, KeyOk kv.1
  | _ => True

variable (e : Env)

/-- The value is encoded, and decoding takes all of it and gives the value back. -/
def RoundTrips (b : Bool) (x : Pub3) : Prop :=
  ∃ s y, toMsgpack x = some s ∧ decode e s = .ok (y, []) ∧ Pub3.Same b y x

def keyText (k : Str) : Str := match convertuint k with
  | some u => decimal u.toNat
  | none => match myConvertint k with
    | some i => decimal i.toInt
    | none => k

mutual

def norm : Pub3 → Pub3
  | .int i => if i.toInt < 0 then .int i else ofPos i.toUInt64
  | .uint u => ofPos u
  | .list xs => .list (normList xs)
  | .dict kvs => .dict (normDict [] kvs)
  | x => x

def normList : List Pub3 → List Pub3
  | [] => []
  | x :: xs => norm x :: normList xs

def normDict : List (Str × Pub3) → List (Str × Pub3) → List (Str × Pub3)
  | d, [] => d
  | d, (k, x) :: kvs => normDict (insert (keyText k) (norm x) d) kvs

end

section Sized

theorem kids_cons (t : Tok) (ts : List Tok) : kids (t :: ts) = t.kids + kids ts := rfl

theorem kids_append (as bs : List Tok) : kids (as ++ bs) = kids as + kids bs := by
  simp [kids]

theorem listToks_cons {x : Pub3} {xs : List Pub3} {ts : List Tok}
    (h : listToks (x :: xs) = some ts) :
    ∃ as bs, toks x = some as ∧ listToks xs = some bs ∧ ts = as ++ bs := by
  rw [listToks] at h
  obtain ⟨as, has, h⟩ := Option.bind_eq_some_iff.1 h
  obtain ⟨bs, hbs, rfl⟩ := Option.map_eq_some_iff.1 h
  exact ⟨as, bs, has, hbs, rfl⟩

theorem dictToks_cons {kv : Str × Pub3} {kvs : List (Str × Pub3)} {ts : List Tok}
    (h : dictToks (kv :: kvs) = some ts) : ∃ t as bs, keyTok kv.1 = some t ∧
      toks kv.2 = some as ∧ dictToks kvs = some bs ∧ ts = t :: (as ++ bs) := by
  rw [dictToks] at h
  obtain ⟨t, ht, h⟩ := Option.bind_eq_some_iff.1 h
  obtain ⟨as, has, h⟩ := Option.bind_eq_some_iff.1 h
  obtain ⟨bs, hbs, rfl⟩ := Option.map_eq_some_iff.1 h
  exact ⟨t, as, bs, ht, has, hbs, rfl⟩

theorem keyTok_kids {k : Str} {t : Tok} (h : keyTok k = some t) : t.kids = 0 := by
  unfold keyTok at h
  repeat' split at h
  all_goals cases h
  all_goals rfl

theorem sized_of_kids (x : Pub3) {ts : List Tok} (h : toks x = some ts) :
    kids ts + 1 ≤ ts.length ∧ (ts.length ≤ kids ts + 1 → All Sized x) := by
  induction x using Pub3.ind generalizing ts with
  | list xs ih =>
    have hxs : ∀ {ts}, listToks xs = some ts → kids ts + xs.length ≤ ts.length ∧
        (ts.length ≤ kids ts + xs.length → ∀ x ∈ xs, All Sized x) := by
      clear h
      induction xs with
      | nil =>
        intro ts h
        cases h
        exact ⟨Nat.le_refl _, fun _ => nofun⟩
      | cons x xs ihx =>
        intro ts h
        obtain ⟨as, bs, has, hbs, rfl⟩ := listToks_cons h
        obtain ⟨hle, hall⟩ := ih x List.mem_cons_self has
        obtain ⟨hle', hall'⟩ := ihx (fun y hy => ih y (List.mem_cons_of_mem x hy)) hbs
        simp only [kids_append, List.length_append, List.length_cons, List.forall_mem_cons]
        exact ⟨by omega, fun h => ⟨hall (by omega), hall' (by omega)⟩⟩
    obtain ⟨us, hus, rfl⟩ := Option.map_eq_some_iff.1 h
    obtain ⟨hle, hall⟩ := hxs hus
    have hmod := Nat.mod_le xs.length (2 ^ 32)
    have hlt := Nat.mod_lt xs.length (show 0 < 2 ^ 32 by decide)
    simp only [kids_cons, Tok.kids, List.length_cons]
    refine ⟨by omega, fun h => all_list.2 ⟨?_, hall (by omega)⟩⟩
    show xs.length < 2 ^ 32
    omega
  | dict kvs ih =>
    have hkvs : ∀ {ts}, dictToks kvs = some ts → kids ts + 2 * kvs.length ≤ ts.length ∧
        (ts.length ≤ kids ts + 2 * kvs.length → ∀ kv ∈ kvs, All Sized kv.2) := by
      clear h
      induction kvs with
      | nil =>
        intro ts h
        cases h
        exact ⟨Nat.le_refl _, fun _ => nofun⟩
      | cons kv kvs ihx =>
        intro ts h
        obtain ⟨t, as, bs, ht, has, hbs, rfl⟩ := dictToks_cons h
        obtain ⟨hle, hall⟩ := ih kv List.mem_cons_self has
        obtain ⟨hle', hall'⟩ := ihx (fun y hy => ih y (List.mem_cons_of_mem kv hy)) hbs
        simp only [kids_cons, keyTok_kids ht, kids_append, List.length_append, List.length_cons,
          List.forall_mem_cons]
        exact ⟨by omega, fun h => ⟨hall (by omega), hall' (by omega)⟩⟩
    obtain ⟨us, hus, rfl⟩ := Option.map_eq_some_iff.1 h
    obtain ⟨hle, hall⟩ := hkvs hus
    have hmod := Nat.mod_le kvs.length (2 ^ 32)
    have hlt := Nat.mod_lt kvs.length (show 0 < 2 ^ 32 by decide)
    simp only [kids_cons, Tok.kids, List.length_cons]
    refine ⟨by omega, fun h => all_dict.2 ⟨?_, hall (by omega)⟩⟩
    show kvs.length < 2 ^ 32
    omega
  | int i =>
    cases h
    refine ⟨?_, fun _ y hy => by cases hy; trivial⟩
    split <;> exact Nat.le_refl _
  | _ =>
    cases h
    exact ⟨Nat.le_refl _, fun _ y hy => by cases hy; trivial⟩

theorem keyTok_ok {k : Str} {t : Tok} (h : keyTok k = some t) (hk : k.length < 2 ^ 32) : t.Ok := by
  unfold keyTok at h
  split at h
  · cases h
    trivial
  · split at h
    · split at h
      · next hi =>
        cases h
        exact hi
      · cases h
    · cases h
      exact hk

theorem toks_ok (x : Pub3) (hx : All Plain x) {ts : List Tok} (h : toks x = some ts) :
    ∀ t ∈ ts, t.Ok := by
  induction x using Pub3.ind generalizing ts with
  | list xs ih =>
    have hxs : ∀ {ts}, listToks xs = some ts → ∀ t ∈ ts, t.Ok := by
      have hall := hx.list
      clear h hx
      induction xs with
      | nil =>
        intro ts h
        cases h
        exact nofun
      | cons x xs ihx =>
        intro ts h
        obtain ⟨as, bs, has, hbs, rfl⟩ := listToks_cons h
        obtain ⟨hx, hxs⟩ := List.forall_mem_cons.1 hall
        exact List.forall_mem_append.2 ⟨ih x List.mem_cons_self hx has,
          ihx (fun y hy => ih y (List.mem_cons_of_mem x hy)) hxs hbs⟩
    obtain ⟨us, hus, rfl⟩ := Option.map_eq_some_iff.1 h
    exact List.forall_mem_cons.2 ⟨trivial, hxs hus⟩
  | dict kvs ih =>
    have hkvs : ∀ {ts}, dictToks kvs = some ts → ∀ t ∈ ts, t.Ok := by
      have hall := hx.dict
      have hlen := hx.here.2
      clear h hx
      induction kvs with
      | nil =>
        intro ts h
        cases h
        exact nofun
      | cons kv kvs ihx =>
        intro ts h
        obtain ⟨t, as, bs, ht, has, hbs, rfl⟩ := dictToks_cons h
        obtain ⟨hx, hxs⟩ := List.forall_mem_cons.1 hall
        obtain ⟨hk, hks⟩ := List.forall_mem_cons.1 hlen
        exact List.forall_mem_cons.2 ⟨keyTok_ok ht hk, List.forall_mem_append.2
          ⟨ih kv List.mem_cons_self hx has,
            ihx (fun y hy => ih y (List.mem_cons_of_mem kv hy)) hxs hks hbs⟩⟩
    obtain ⟨us, hus, rfl⟩ := Option.map_eq_some_iff.1 h
    exact List.forall_mem_cons.2 ⟨trivial, hkvs hus⟩
  | int i =>
    cases h
    refine List.forall_mem_singleton.2 ?_
    split
    · next hi => exact hi
    · trivial
  | str s =>
    cases h
    exact List.forall_mem_singleton.2 hx.here
  | _ =>
    cases h
    exact List.forall_mem_singleton.2 trivial

end Sized

section Norm

variable {e}

theorem toInt_ofNat {n : Nat} (h : n < 2 ^ 63) : (Int64.ofNat n).toInt = n :=
  Int64.toInt_ofNat_of_lt h

theorem toStr_ofPos (u : UInt64) : e.toStr (ofPos u) = some (decimal u.toNat) := by
  unfold ofPos
  split
  · next h => exact congrArg (fun i => some (decimal i)) (toInt_ofNat (by omega))
  · rfl

theorem key_cases (k : Str) :
    (∃ u, convertuint k = some u ∧ keyTok k = some (.pos u) ∧ keyText k = decimal u.toNat ∧
      (KeyOk k ↔ keyText k = k)) ∨
    (∃ i, i.toInt < 0 ∧ keyTok k = some (.neg i) ∧ keyText k = decimal i.toInt ∧
      (KeyOk k ↔ keyText k = k)) ∨
    (keyTok k = some (.raw k) ∧ keyText k = k ∧ KeyOk k) ∨ (keyTok k = none ∧ ¬ KeyOk k) := by
  cases hu : convertuint k with
  | some u => exact .inl ⟨u, rfl, by simp [keyTok, hu], by simp [keyText, hu],
      by simp [KeyOk, keyText, hu, eq_comm]⟩
  | none =>
    cases hi : myConvertint k with
    | some i =>
      by_cases h : i.toInt < 0
      · exact .inr (.inl ⟨i, h, by simp [keyTok, hu, hi, h], by simp [keyText, hu, hi],
          by simp [KeyOk, keyText, hu, hi, h, eq_comm]⟩)
      · exact .inr (.inr (.inr ⟨by simp [keyTok, hu, hi, h], by simp [KeyOk, hu, hi, h]⟩))
    | none => exact .inr (.inr (.inl ⟨by simp [keyTok, hu, hi], by simp [keyText, hu, hi],
        by simp [KeyOk, hu, hi]⟩))

theorem read_key {k : Str} {t : Tok} (h : keyTok k = some t)
    (u : Str → Except Errno (Pub3 × Str)) (s : Str) :
    ∃ y, t.read e u s = .ok (y, s) ∧ e.toStr y = some (keyText k) := by
  obtain ⟨v, -, ht, hk, -⟩ | ⟨i, -, ht, hk, -⟩ | ⟨ht, hk, -⟩ | ⟨ht, -⟩ := key_cases k
  · cases ht.symm.trans h
    exact ⟨_, rfl, hk ▸ toStr_ofPos v⟩
  · cases ht.symm.trans h
    exact ⟨_, rfl, congrArg some hk.symm⟩
  · cases ht.symm.trans h
    exact ⟨_, rfl, congrArg some hk.symm⟩
  · cases ht.symm.trans h

theorem unpack_flat_cons {t : Tok} (ht : t.Ok) {ts : List Tok} {f : Nat}
    (hf : (flat (t :: ts)).length ≤ f) (s : Str) : ∃ g, f = g + 1 ∧ (flat ts).length ≤ g ∧
      unpack e f (flat (t :: ts) ++ s) = t.read e (unpack e g) (flat ts ++ s) := by
  have hpos := List.length_pos_of_ne_nil (bytes_ne_nil t)
  rw [flat, List.flatMap_cons, List.length_append] at hf
  obtain ⟨g, rfl⟩ : ∃ g, f = g + 1 := ⟨f - 1, by omega⟩
  refine ⟨g, rfl, by rw [flat]; omega, ?_⟩
  rw [flat, List.flatMap_cons, List.append_assoc, unpack_tok ht]
  rfl

variable (e) in
def Back (x : Pub3) : Prop := ∀ ts f s, toks x = some ts → (flat ts).length ≤ f →
  unpack e f (flat ts ++ s) = .ok (norm x, s)

theorem flat_append (as bs : List Tok) : flat (as ++ bs) = flat as ++ flat bs :=
  List.flatMap_append

/-- A change of the tokens, and how it changes what is read: keys stay as they are. -/
structure Via (e : Env) (j : Tok → Tok) (g : Pub3 → Pub3) : Prop where
  ok : ∀ t, t.Ok → (j t).Ok
  leaf : ∀ t u s y, t.Ok → t.kids = 0 → t.read e u s = .ok (y, s) →
    (j t).read e u s = .ok (g y, s)
  key : ∀ k t u s, keyTok k = some t →
    ∃ y, (j t).read e u s = .ok (y, s) ∧ e.toStr y = some (keyText k)
  arr : ∀ n, j (.arr n) = .arr n
  map : ∀ n, j (.map n) = .map n
  list : ∀ xs, g (.list xs) = .list (xs.map g)
  dict : ∀ d, g (.dict d) = .dict (d.map fun kv => (kv.1, g kv.2))

theorem via_id : Via e id id where
  ok _ h := h
  leaf _ _ _ _ _ _ h := h
  key _ _ u s h := read_key h u s
  arr _ := rfl
  map _ := rfl
  list xs := by rw [List.map_id, id]
  dict d := by simp

theorem insert_map (g : Pub3 → Pub3) (k : Str) (x : Pub3) (d : List (Str × Pub3)) :
    insert k (g x) (d.map fun kv => (kv.1, g kv.2)) =
      (insert k x d).map fun kv => (kv.1, g kv.2) := by
  induction d with
  | nil => rfl
  | cons kv d ih =>
    rw [List.map_cons, insert, insert]
    by_cases h : kv.1 = k
    · rw [if_pos h, if_pos h, List.map_cons]
    · rw [if_neg h, if_neg h, List.map_cons, ih]

variable {j : Tok → Tok} {g : Pub3 → Pub3}

variable (e j g) in
/-- The tokens of a value are taken as the value, both changed. -/
def BackVia (x : Pub3) : Prop := ∀ ts f s, toks x = some ts → (flat (ts.map j)).length ≤ f →
  unpack e f (flat (ts.map j) ++ s) = .ok (g (norm x), s)

theorem unpackArray_toks {xs : List Pub3} (ih : ∀ x ∈ xs, BackVia e j g x) {ts : List Tok} {f : Nat}
    (h : listToks xs = some ts) (hf : (flat (ts.map j)).length ≤ f) (s : Str) :
    unpackArray (unpack e f) xs.length (flat (ts.map j) ++ s) = .ok ((normList xs).map g, s) := by
  induction xs generalizing ts with
  | nil =>
    cases h
    rfl
  | cons x xs ihx =>
    obtain ⟨as, bs, has, hbs, rfl⟩ := listToks_cons h
    obtain ⟨hx, hxs⟩ := List.forall_mem_cons.1 ih
    rw [List.map_append, flat_append, List.length_append] at hf
    rw [List.map_append, flat_append, List.append_assoc, List.length_cons, unpackArray,
      hx as f _ has (by omega)]
    show (unpackArray _ _ _).map _ = _
    rw [ihx hxs hbs (by omega)]
    rfl

theorem unpackMap_toks (hj : Via e j g) {kvs : List (Str × Pub3)}
    (ih : ∀ kv ∈ kvs, BackVia e j g kv.2) (hlen : ∀ kv ∈ kvs, kv.1.length < 2 ^ 32) {ts : List Tok}
    {f : Nat} (h : dictToks kvs = some ts) (hf : (flat (ts.map j)).length ≤ f)
    (d : List (Str × Pub3)) (s : Str) :
    unpackMap e (unpack e f) kvs.length (d.map fun kv => (kv.1, g kv.2)) (flat (ts.map j) ++ s) =
      .ok ((normDict d kvs).map fun kv => (kv.1, g kv.2), s) := by
  induction kvs generalizing ts d with
  | nil =>
    cases h
    rfl
  | cons kv kvs ihx =>
    obtain ⟨t, as, bs, ht, has, hbs, rfl⟩ := dictToks_cons h
    obtain ⟨hx, hxs⟩ := List.forall_mem_cons.1 ih
    obtain ⟨hk, hks⟩ := List.forall_mem_cons.1 hlen
    rw [List.map_cons, List.map_append] at hf ⊢
    obtain ⟨f', rfl, hg, hu⟩ := unpack_flat_cons (e := e) (hj.ok t (keyTok_ok ht hk)) hf s
    obtain ⟨y, hy, hstr⟩ := hj.key _ t (unpack e f') (flat (as.map j ++ bs.map j) ++ s) ht
    rw [flat_append, List.length_append] at hg
    rw [List.length_cons, unpackMap, hu, hy]
    simp only [Except.bind, hstr]
    rw [flat_append, List.append_assoc, hx as _ _ has (by omega)]
    dsimp only
    rw [insert_map]
    exact ihx hxs hks hbs (by omega) _

theorem back_via (hj : Via e j g) (x : Pub3) (hp : All Plain x) (hs : All Sized x) :
    BackVia e j g x := by
  have hleaf {t : Tok} {y : Pub3} (ht : t.Ok) (hkids : t.kids = 0)
      (hread : ∀ u s, t.read e u s = .ok (y, s)) {f : Nat} {s : Str}
      (hf : (flat [j t]).length ≤ f) : unpack e f (flat [j t] ++ s) = .ok (g y, s) := by
    obtain ⟨f', rfl, -, hu⟩ := unpack_flat_cons (hj.ok t ht) hf s
    rw [hu]
    exact hj.leaf t _ s y ht hkids (hread _ _)
  induction x using Pub3.ind with
  | list xs ih =>
    intro ts f s h hf
    have hback : ∀ x ∈ xs, BackVia e j g x := fun x hx => ih x hx (hp.list x hx) (hs.list x hx)
    obtain ⟨us, hus, rfl⟩ := Option.map_eq_some_iff.1 h
    rw [List.map_cons, hj.arr] at hf ⊢
    obtain ⟨f', rfl, hg, hu⟩ := unpack_flat_cons (e := e) (t := .arr xs.length) trivial hf s
    have hmod : xs.length % 2 ^ 32 = xs.length := Nat.mod_eq_of_lt hs.here
    rw [hu, Tok.read, hmod, unpackArray_toks hback hus hg, norm, hj.list]
    rfl
  | dict kvs ih =>
    intro ts f s h hf
    have hback : ∀ kv ∈ kvs, BackVia e j g kv.2 := fun kv hkv =>
        ih kv hkv (hp.dict kv hkv) (hs.dict kv hkv)
    obtain ⟨us, hus, rfl⟩ := Option.map_eq_some_iff.1 h
    rw [List.map_cons, hj.map] at hf ⊢
    obtain ⟨f', rfl, hg, hu⟩ := unpack_flat_cons (e := e) (t := .map kvs.length) trivial hf s
    have hmod : kvs.length % 2 ^ 32 = kvs.length := Nat.mod_eq_of_lt hs.here
    have hmap := unpackMap_toks hj hback hp.here.2 hus hg [] s
    rw [List.map_nil] at hmap
    rw [hu, Tok.read, hmod, hmap, norm, hj.dict]
    rfl
  | int i =>
    intro ts f s h hf
    have hok := toks_ok _ hp h
    cases h
    rw [norm]
    by_cases hi : i.toInt < 0
    · rw [if_pos hi] at hf hok ⊢
      rw [if_pos hi]
      exact hleaf (List.forall_mem_singleton.1 hok) rfl (fun _ _ => rfl) hf
    · rw [if_neg hi] at hf hok ⊢
      rw [if_neg hi]
      exact hleaf (List.forall_mem_singleton.1 hok) rfl (fun _ _ => rfl) hf
  | _ =>
    intro ts f s h hf
    have hok := toks_ok _ hp h
    cases h
    exact hleaf (List.forall_mem_singleton.1 hok) rfl (fun _ _ => rfl) hf

theorem back_of_plain (x : Pub3) (hp : All Plain x) (hs : All Sized x) : Back e x := by
  intro ts f s h
  have hback := back_via (via_id (e := e)) x hp hs ts f s h
  rwa [List.map_id] at hback

end Norm

section Same

variable {b : Bool}

theorem lookup_cons_eq (l : Str) (kv : Str × Pub3) (d : List (Str × Pub3)) :
    (kv :: d).lookup l = if l = kv.1 then some kv.2 else d.lookup l := by
  obtain ⟨k, v⟩ := kv
  rw [List.lookup_cons]
  by_cases h : l = k
  · rw [if_pos h, beq_iff_eq.2 h]
  · rw [if_neg h, beq_eq_false_iff_ne.2 h]

theorem lookup_insert (k l : Str) (v : Pub3) (d : List (Str × Pub3)) :
    (insert k v d).lookup l = if l = k then some v else d.lookup l := by
  induction d with
  | nil => exact lookup_cons_eq l (k, v) []
  | cons kv d ih =>
    rw [insert]
    split
    · next h =>
      rw [lookup_cons_eq, lookup_cons_eq, h]
      by_cases hl : l = k <;> simp [hl]
    · next h =>
      rw [lookup_cons_eq, lookup_cons_eq, ih]
      by_cases hl : l = kv.1 <;> simp [hl, h]

theorem lookup_eq_none {l : Str} {kvs : List (Str × Pub3)} (h : l ∉ kvs.map Prod.fst) :
    kvs.lookup l = none := by
  refine List.lookup_eq_none_iff.2 fun kv hkv => bne_iff_ne.2 ?_
  rintro rfl
  exact h (List.mem_map_of_mem hkv)

theorem lookup_of_mem {kv : Str × Pub3} {kvs : List (Str × Pub3)} (hn : (kvs.map Prod.fst).Nodup)
    (h : kv ∈ kvs) : kvs.lookup kv.1 = some kv.2 := by
  induction kvs with
  | nil => cases h
  | cons kw kvs ih =>
    obtain ⟨hnm, hn⟩ := List.nodup_cons.1 hn
    obtain rfl | h := List.mem_cons.1 h
    · rw [lookup_cons_eq, if_pos rfl]
    · have hne : kv.1 ≠ kw.1 := fun he => hnm (he ▸ List.mem_map_of_mem h)
      rw [lookup_cons_eq, if_neg hne, ih hn h]

theorem mem_of_lookup {l : Str} {x : Pub3} {kvs : List (Str × Pub3)}
    (h : kvs.lookup l = some x) : (l, x) ∈ kvs := by
  obtain ⟨as, bs, rfl, -⟩ := List.lookup_eq_some_iff.1 h
  simp

theorem lookup_normDict {kvs : List (Str × Pub3)} (hk : ∀ kv ∈ kvs, keyText kv.1 = kv.1)
    (hn : (kvs.map Prod.fst).Nodup) (d : List (Str × Pub3)) (l : Str) :
    (normDict d kvs).lookup l = ((kvs.lookup l).map norm).or (d.lookup l) := by
  induction kvs generalizing d with
  | nil => rfl
  | cons kv kvs ih =>
    obtain ⟨hkv, hks⟩ := List.forall_mem_cons.1 hk
    obtain ⟨hnm, hn⟩ := List.nodup_cons.1 hn
    rw [normDict, ih hks hn, lookup_insert, hkv]
    by_cases hl : l = kv.1
    · rw [hl, lookup_eq_none hnm, lookup_cons_eq]
      simp
    · rw [lookup_cons_eq, if_neg hl, if_neg hl]

theorem key_of_lookup {kvs d : List (Str × Pub3)} {l : Str} (h : (normDict d kvs).lookup l ≠ none) :
    d.lookup l ≠ none ∨ ∃ kv ∈ kvs, keyText kv.1 = l := by
  induction kvs generalizing d with
  | nil => exact .inl h
  | cons kv kvs ih =>
    obtain hd | ⟨kw, hkw, hl⟩ := ih h
    · rw [lookup_insert] at hd
      by_cases hl : l = keyText kv.1
      · exact .inr ⟨kv, List.mem_cons_self, hl.symm⟩
      · rw [if_neg hl] at hd
        exact .inl hd
    · exact .inr ⟨kw, List.mem_cons_of_mem kv hkw, hl⟩

theorem keyOk_keyText {k : Str} {t : Tok} (h : keyTok k = some t) : KeyOk (keyText k) := by
  obtain ⟨u, -, -, hk, -⟩ | ⟨i, hi, -, hk, -⟩ | ⟨-, hk, hok⟩ | ⟨ht, -⟩ := key_cases k
  · rw [hk, KeyOk, convertuint_decimal]
  · have hu : convertuint (decimal i.toInt) = none := by rw [decimal_neg hi, convertuint_neg]
    rw [hk, KeyOk, hu, myConvertint_decimal hi]
    exact ⟨hi, rfl⟩
  · rwa [hk]
  · cases ht.symm.trans h

theorem keyText_of_keyOk {k : Str} (h : KeyOk k) : keyText k = k := by
  obtain ⟨u, -, -, -, hk⟩ | ⟨i, -, -, -, hk⟩ | ⟨-, hk, -⟩ | ⟨-, hk⟩ := key_cases k
  · exact hk.1 h
  · exact hk.1 h
  · exact hk
  · exact absurd h hk

theorem keyTok_of_keyOk {k : Str} (h : KeyOk k) : ∃ t, keyTok k = some t := by
  obtain ⟨u, -, ht, -⟩ | ⟨i, -, ht, -⟩ | ⟨ht, -⟩ | ⟨-, hk⟩ := key_cases k
  · exact ⟨_, ht⟩
  · exact ⟨_, ht⟩
  · exact ⟨_, ht⟩
  · exact absurd h hk

theorem same_ofPos (u : UInt64) : Pub3.Same b (ofPos u) (.uint u) := by
  unfold ofPos
  split
  · exact .signed (toInt_ofNat (by omega))
  · exact .uint u

theorem toNat_toUInt64 {i : Int64} (h : 0 ≤ i.toInt) : (i.toUInt64.toNat : Int) = i.toInt := by
  have hmod := toUInt64_mod i (Nat.le_refl 8)
  have := i.toUInt64.toNat_lt
  have := i.toInt_lt
  omega

theorem same_int (i : Int64) : Pub3.Same b (norm (.int i)) (.int i) ↔ Kept b (.int i) := by
  rw [norm, Kept]
  split
  · exact iff_of_true (.int i) (.inr (by omega))
  · next h =>
    have hu := toNat_toUInt64 (Int.not_lt.1 h)
    unfold ofPos
    split
    · next hlt =>
      have hi : Int64.ofNat i.toUInt64.toNat = i :=
        Int64.toInt.inj ((toInt_ofNat (by omega)).trans hu)
      rw [hi]
      exact iff_of_true (.int i) (.inr (by omega))
    · next hlt =>
      constructor
      · intro hs
        cases hs with
        | unsigned hb _ => exact .inl hb
      · rintro (hb | hlt')
        · exact .unsigned hb hu.symm
        · omega

theorem normList_forall₂ {xs : List Pub3} :
    List.Forall₂ (Pub3.Same b) (normList xs) xs ↔ ∀ x ∈ xs, Pub3.Same b (norm x) x := by
  induction xs with
  | nil => exact ⟨fun _ => nofun, fun _ => .nil⟩
  | cons x xs ih => rw [normList, List.forall₂_cons, ih, List.forall_mem_cons]

theorem keyTok_of_mem {kvs : List (Str × Pub3)} {ts : List Tok} (h : dictToks kvs = some ts) :
    ∀ kv ∈ kvs, (∃ t, keyTok kv.1 = some t) ∧ ∃ us, toks kv.2 = some us := by
  induction kvs generalizing ts with
  | nil => exact nofun
  | cons kv kvs ih =>
    obtain ⟨t, as, bs, ht, has, hbs, -⟩ := dictToks_cons h
    exact List.forall_mem_cons.2 ⟨⟨⟨t, ht⟩, as, has⟩, ih hbs⟩

theorem toks_of_mem {xs : List Pub3} {ts : List Tok} (h : listToks xs = some ts) :
    ∀ x ∈ xs, ∃ us, toks x = some us := by
  induction xs generalizing ts with
  | nil => exact nofun
  | cons x xs ih =>
    obtain ⟨as, bs, has, hbs, -⟩ := listToks_cons h
    exact List.forall_mem_cons.2 ⟨⟨as, has⟩, ih hbs⟩

theorem same_dict {kvs : List (Str × Pub3)} (hn : (kvs.map Prod.fst).Nodup)
    (htok : ∀ kv ∈ kvs, ∃ t, keyTok kv.1 = some t) :
    Pub3.Same b (norm (.dict kvs)) (.dict kvs) ↔
      (∀ kv ∈ kvs, KeyOk kv.1) ∧ ∀ kv ∈ kvs, Pub3.Same b (norm kv.2) kv.2 := by
  have hlook (hk : ∀ kv ∈ kvs, KeyOk kv.1) (l : Str) :
      (normDict [] kvs).lookup l = (kvs.lookup l).map norm := by
    rw [lookup_normDict (fun kv hkv => keyText_of_keyOk (hk kv hkv)) hn]
    exact Option.or_none
  constructor
  · intro hs
    obtain ⟨⟩ | ⟨⟩ | ⟨⟩ | ⟨⟩ | ⟨⟩ | ⟨⟩ | ⟨⟩ | ⟨⟩ | ⟨⟩ | ⟨hrel⟩ := hs
    have hk : ∀ kv ∈ kvs, KeyOk kv.1 := by
      intro kv hkv
      have hne : (normDict [] kvs).lookup kv.1 ≠ none := by
        have := hrel kv.1
        rw [lookup_of_mem hn hkv] at this
        intro hnone
        rw [hnone] at this
        cases this
      obtain hd | ⟨kw, hkw, hl⟩ := key_of_lookup hne
      · exact absurd rfl hd
      · obtain ⟨t, ht⟩ := htok kw hkw
        exact hl ▸ keyOk_keyText ht
    refine ⟨hk, fun kv hkv => ?_⟩
    have := hrel kv.1
    rw [hlook hk, lookup_of_mem hn hkv] at this
    cases this with
    | some h => exact h
  · rintro ⟨hk, hv⟩
    refine .dict fun l => ?_
    rw [hlook hk]
    cases hl : kvs.lookup l with
    | none => exact .none
    | some x =>
      exact .some (hv (l, x) (mem_of_lookup hl))

theorem same_norm (x : Pub3) (hp : All Plain x) {ts : List Tok} (h : toks x = some ts) :
    Pub3.Same b (norm x) x ↔ All (Kept b) x := by
  induction x using Pub3.ind generalizing ts with
  | list xs ih =>
    obtain ⟨us, hus, -⟩ := Option.map_eq_some_iff.1 h
    have hall : (∀ x ∈ xs, Pub3.Same b (norm x) x) ↔ ∀ x ∈ xs, All (Kept b) x :=
      forall₂_congr fun x hx => ih x hx (hp.list x hx) (toks_of_mem hus x hx).choose_spec
    rw [all_list, ← hall, norm]
    constructor
    · intro hs
      cases hs with
      | list h => exact ⟨trivial, normList_forall₂.1 h⟩
    · rintro ⟨-, hs⟩
      exact .list (normList_forall₂.2 hs)
  | dict kvs ih =>
    obtain ⟨us, hus, -⟩ := Option.map_eq_some_iff.1 h
    have hmem := keyTok_of_mem hus
    have hall : (∀ kv ∈ kvs, Pub3.Same b (norm kv.2) kv.2) ↔ ∀ kv ∈ kvs, All (Kept b) kv.2 :=
      forall₂_congr fun kv hkv => ih kv hkv (hp.dict kv hkv) (hmem kv hkv).2.choose_spec
    rw [all_dict, ← hall, same_dict hp.here.1 fun kv hkv => (hmem kv hkv).1]
    rfl
  | int i =>
    rw [same_int]
    exact ⟨fun hk y hy => by cases hy; exact hk, fun hk => hk.here⟩
  | uint u => exact iff_of_true (same_ofPos u) fun y hy => by cases hy; trivial
  | null => exact iff_of_true .null fun y hy => by cases hy; trivial
  | bool c => exact iff_of_true (.bool c) fun y hy => by cases hy; trivial
  | double d => exact iff_of_true (.double d) fun y hy => by cases hy; trivial
  | str s => exact iff_of_true (.str s) fun y hy => by cases hy; trivial

theorem listToks_of_mem {xs : List Pub3} (h : ∀ x ∈ xs, ∃ ts, toks x = some ts) :
    ∃ us, listToks xs = some us := by
  induction xs with
  | nil => exact ⟨[], rfl⟩
  | cons x xs ih =>
    obtain ⟨⟨as, has⟩, hxs⟩ := List.forall_mem_cons.1 h
    obtain ⟨bs, hbs⟩ := ih hxs
    exact ⟨as ++ bs, by simp [listToks, has, hbs]⟩

theorem dictToks_of_mem {kvs : List (Str × Pub3)} (hkey : ∀ kv ∈ kvs, ∃ t, keyTok kv.1 = some t)
    (h : ∀ kv ∈ kvs, ∃ ts, toks kv.2 = some ts) : ∃ us, dictToks kvs = some us := by
  induction kvs with
  | nil => exact ⟨[], rfl⟩
  | cons kv kvs ih =>
    obtain ⟨⟨as, has⟩, hxs⟩ := List.forall_mem_cons.1 h
    obtain ⟨⟨t, ht⟩, hks⟩ := List.forall_mem_cons.1 hkey
    obtain ⟨bs, hbs⟩ := ih hks hxs
    exact ⟨t :: (as ++ bs), by simp [dictToks, ht, has, hbs]⟩

theorem toks_of_kept (x : Pub3) (h : All (Kept b) x) : ∃ ts, toks x = some ts := by
  induction x using Pub3.ind with
  | list xs ih =>
    obtain ⟨us, hus⟩ := listToks_of_mem fun x hx => ih x hx (h.list x hx)
    exact ⟨.arr xs.length :: us, by simp [toks, hus]⟩
  | dict kvs ih =>
    obtain ⟨us, hus⟩ := dictToks_of_mem (fun kv hkv => keyTok_of_keyOk (h.here kv hkv))
      fun kv hkv => ih kv hkv (h.dict kv hkv)
    exact ⟨.map kvs.length :: us, by simp [toks, hus]⟩
  | _ => exact ⟨_, rfl⟩

end Same

variable {e}

theorem decode_toks {x : Pub3} (hp : All Plain x) (hs : All Sized x) {ts : List Tok}
    (h : toks x = some ts) : decode e (flat ts) = .ok (norm x, []) := by
  have := back_of_plain (e := e) x hp hs ts _ [] h (Nat.le_refl _)
  rwa [List.append_nil] at this

theorem flat_eq_nil {ts : List Tok} (h : flat ts = []) : ts = [] := by
  cases ts with
  | nil => rfl
  | cons t ts =>
    rw [flat, List.flatMap_cons] at h
    exact absurd (List.append_eq_nil_iff.1 h).1 (bytes_ne_nil t)

theorem sized_of_decode {x y : Pub3} (hp : All Plain x) {ts : List Tok} (h : toks x = some ts)
    (hd : decode e (flat ts) = .ok (y, [])) : All Sized x := by
  obtain ⟨as, bs, hts, hnil, hlen⟩ := single_unpack _ ts y [] (toks_ok x hp h) hd
  rw [flat_eq_nil hnil.symm, List.append_nil] at hts
  exact (sized_of_kids x h).2 (hts ▸ hlen)

theorem kept_of_roundTrips {b : Bool} {x : Pub3} (hp : All Plain x) (h : RoundTrips e b x) :
    All (fun y => Sized y ∧ Kept b y) x := by
  obtain ⟨s, y, henc, hdec, hsame⟩ := h
  rw [toMsgpack_eq] at henc
  obtain ⟨ts, hts, rfl⟩ := Option.map_eq_some_iff.1 henc
  have hsized := sized_of_decode hp hts hdec
  rw [decode_toks hp hsized hts] at hdec
  cases hdec
  exact fun z hz => ⟨hsized z hz, (same_norm x hp hts).1 hsame z hz⟩

theorem roundTrips_of_kept {b : Bool} {x : Pub3} (hp : All Plain x)
    (h : All (fun y => Sized y ∧ Kept b y) x) : RoundTrips e b x := by
  have hkept : All (Kept b) x := fun z hz => (h z hz).2
  obtain ⟨ts, hts⟩ := toks_of_kept x hkept
  refine ⟨flat ts, norm x, ?_, decode_toks hp (fun z hz => (h z hz).1) hts,
    (same_norm x hp hts).2 hkept⟩
  rw [toMsgpack_eq, hts]
  rfl

/-- What comes back as it was; with `b` false a signed integer must come back signed, with `b` true
the two kinds of integers are not told apart. -/
theorem roundTrips_iff (e : Env) (b : Bool) {x : Pub3} (hp : All Plain x) :
    RoundTrips e b x ↔ All (fun y => Sized y ∧ Kept b y) x :=
  ⟨kept_of_roundTrips hp, roundTrips_of_kept hp⟩

/-- A dictionary with the keys `a` and `-7`. -/
theorem roundTrips_iff_pair :
    RoundTrips ⟨fun _ => none, fun _ => 0⟩ false
        (.dict [(ascii ['a'], .list [.int (-129), .uint 5]), (ascii ['-', '7'], .double 1)]) ↔
      All (fun y => Sized y ∧ Kept false y)
        (.dict [(ascii ['a'], .list [.int (-129), .uint 5]), (ascii ['-', '7'], .double 1)]) := by
  refine roundTrips_iff _ _ (all_dict.2 ⟨⟨by decide, by decide⟩, ?_⟩)
  refine List.forall_mem_cons.2 ⟨all_list.2 ⟨trivial, ?_⟩, List.forall_mem_singleton.2 ?_⟩
  · refine List.forall_mem_cons.2 ⟨?_, List.forall_mem_singleton.2 ?_⟩
    · exact fun y hy => by cases hy; trivial
    · exact fun y hy => by cases hy; trivial
  · exact fun y hy => by cases hy; trivial

/-- The key `010` comes back as `8`. -/
theorem not_roundTrips_octal : ¬ ∀ (e : Env) (x : Pub3), All Plain x → RoundTrips e false x := by
  intro h
  have hp : All Plain (.dict [(ascii ['0', '1', '0'], .null)]) :=
    all_dict.2 ⟨⟨by decide, by decide⟩,
      List.forall_mem_singleton.2 fun y hy => by cases hy; trivial⟩
  have hkept := (kept_of_roundTrips hp (h ⟨fun _ => none, fun _ => 0⟩ _ hp)).here.2
  have hkey : KeyOk (ascii ['0', '1', '0']) := hkept _ (List.mem_singleton.2 rfl)
  have hnum : convertuint (ascii ['0', '1', '0']) = some 8 := by decide
  rw [KeyOk, hnum] at hkey
  exact absurd hkey (by decide)

end Msgpack

end Okws
