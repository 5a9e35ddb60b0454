import Okws.Msgpack

namespace Okws

theorem Pub3.ind {P : Pub3 → Prop} (null : P .null) (bool : ∀ b, P (.bool b))
    (int : ∀ i, P (.int i)) (uint : ∀ u, P (.uint u)) (double : ∀ d, P (.double d))
    (str : ∀ s, P (.str s)) (list : ∀ xs, (∀ x ∈ xs, P x) → P (.list xs))
    (dict : ∀ kvs, (∀ kv ∈ kvs, P kv.2) → P (.dict kvs)) (x : Pub3) : P x := by
  refine @Pub3.rec P (fun xs => ∀ x ∈ xs, P x) (fun kvs => ∀ kv ∈ kvs, P kv.2) (fun kv => P kv.2)
    null bool int uint double str list dict nofun ?_ nofun ?_ (fun _ _ h => h) x
  · intro x xs hx hxs
    exact List.forall_mem_cons.2 ⟨hx, hxs⟩
  · intro kv kvs hkv hkvs
    exact List.forall_mem_cons.2 ⟨hkv, hkvs⟩

namespace Msgpack

open BigEndian Scalar Zbuf

inductive Tok
  | null
  | bool (b : Bool)
  | neg (i : Int64)
  | pos (u : UInt64)
  | double (d : UInt64)
  | raw (s : Str)
  | arr (n : Nat)
  | map (n : Nat)

namespace Tok

def bytes : Tok → Str
  | .null => [0xc0]
  | .bool b => [if b then 0xc3 else 0xc2]
  | .neg i => encodeNegativeInt i
  | .pos u => encodePositiveInt u
  | .double d => 0xcb :: put 8 d.toNat
  | .raw s => encodeStr s
  | .arr n => encodeLen n 0x90 0xdc 0xdd
  | .map n => encodeLen n 0x80 0xde 0xdf

/-- The bytes in which the mode makes a difference are those of integers. -/
def bytesIn (jsmode : Bool) : Tok → Str
  | .neg i => Outbuf.encodeNegativeInt jsmode i
  | .pos u => Outbuf.encodePositiveInt jsmode u
  | t => t.bytes

/-- The number of values that the decoder takes behind a token. -/
def kids : Tok → Nat
  | .arr n => n % 2 ^ 32
  | .map n => 2 * (n % 2 ^ 32)
  | _ => 0

def Ok : Tok → Prop
  | .neg i => i.toInt < 0
  | .raw s => s.length < 2 ^ 32
  | _ => True

end Tok

def ofPos (u : UInt64) : Pub3 :=
  if u.toNat < 2 ^ 32 then .int (.ofNat u.toNat) else .uint u

variable (e : Env)

def Tok.read (unpack : Str → Except Errno (Pub3 × Str)) : Tok → Str → Except Errno (Pub3 × Str)
  | .null, s => .ok (.null, s)
  | .bool b, s => .ok (.bool b, s)
  | .neg i, s => .ok (.int i, s)
  | .pos u, s => .ok (ofPos u, s)
  | .double d, s => .ok (.double d, s)
  | .raw r, s => .ok (.str r, s)
  | .arr n, s => (unpackArray unpack (n % 2 ^ 32) s).map fun (xs, s) => (.list xs, s)
  | .map n, s => (unpackMap e unpack (n % 2 ^ 32) [] s).map fun (d, s) => (.dict d, s)

section Read

variable {e} {f : Nat} {s : Str}

theorem getBytes_append {n : Nat} {l : Str} (h : l.length = n) (s : Str) :
    getBytes n (l ++ s) = .ok (l, s) := by
  subst h
  simp [getBytes]

@[simp] theorem getBytes_put (n v : Nat) (s : Str) : getBytes n (put n v ++ s) = .ok (put n v, s) :=
  getBytes_append (length_put n v) s

theorem unpack_fixnum {v : Nat} (h : v ≤ 0x7f) :
    unpack e (f + 1) (put 1 v ++ s) = .ok (.int (.ofNat v), s) := by
  have hb : (UInt8.ofNat v).toNat = v := UInt8.toNat_ofNat_of_lt' (Nat.lt_of_le_of_lt h (by decide))
  have htab : unpackTab (UInt8.ofNat v) = some .positiveFixnum :=
    if_pos (UInt8.le_iff_toNat_le.2 (by rw [hb]; exact h))
  have hput : put 1 v = [UInt8.ofNat v] := by simp [put]
  rw [hput, List.singleton_append]
  simp only [unpack, htab, hb]

theorem unpack_uint {b : UInt8} {w v : Nat} (htab : unpackTab b = some (.uint w))
    (hv : v < 256 ^ w) : unpack e (f + 1) (b :: put w v ++ s) =
      .ok (if w = 8 then .uint (.ofNat v) else .int (.ofNat v), s) := by
  rw [List.cons_append]
  simp only [unpack, htab, getBytes_put, Except.map, get_put_lt hv]

theorem unpack_pos (u : UInt64) :
    unpack e (f + 1) (encodePositiveInt u ++ s) = .ok (ofPos u, s) := by
  have hlt := u.toNat_lt
  have hsmall (h : u.toNat ≤ 0xffffffff) : ofPos u = .int (.ofNat u.toNat) := if_pos (by omega)
  unfold encodePositiveInt Outbuf.encodePositiveInt
  simp only [Bool.false_eq_true, if_false]
  split
  · next h => rw [unpack_fixnum h, hsmall (by omega)]
  · split
    · rw [unpack_uint (w := 1) rfl (by omega), hsmall (by omega)]
      rfl
    · split
      · rw [unpack_uint (w := 2) rfl (by omega), hsmall (by omega)]
        rfl
      · split
        · next h => rw [unpack_uint (w := 4) rfl (by omega), hsmall h]; rfl
        · next h =>
          have hbig : ofPos u = .uint u := if_neg (by omega)
          rw [unpack_uint (w := 8) rfl (by omega), hbig]
          simp

theorem toUInt64_mod (i : Int64) {w : Nat} (hw : w ≤ 8) :
    ((i.toUInt64.toNat : Nat) : Int) % 256 ^ w = i.toInt % 256 ^ w := by
  have hb : i.toInt = Int.bmod i.toUInt64.toNat (2 ^ 64) := BitVec.toInt_eq_toNat_bmod _
  have hpow : ((2 ^ 64 : Nat) : Int) = 256 ^ w * 256 ^ (8 - w) := by
    rw [← pow_add, Nat.add_sub_of_le hw]
    rfl
  rw [hb, Int.bmod_eq_self_sub_mul_bdiv, hpow, mul_assoc, Int.sub_mul_emod_self_left]

theorem unpack_int {b : UInt8} {w : Nat} {i : Int64} (htab : unpackTab b = some (.int w))
    (hw : w ≤ 8) (hlo : -(256 ^ w) ≤ 2 * i.toInt) (hhi : 2 * i.toInt < 256 ^ w) :
    unpack e (f + 1) (b :: put w i.toUInt64.toNat ++ s) = .ok (.int i, s) := by
  have hget : getInt (put w i.toUInt64.toNat) = i.toInt := by
    exact getInt_put (by exact_mod_cast toUInt64_mod i hw) hlo hhi
  rw [List.cons_append]
  simp only [unpack, htab, getBytes_put, Except.map, hget, Int64.ofInt_toInt]

theorem unpack_negfix {i : Int64} (hlo : -32 ≤ i.toInt) (hhi : i.toInt < 0) :
    unpack e (f + 1) (put 1 i.toUInt64.toNat ++ s) = .ok (.int i, s) := by
  have hget : getInt (put 1 i.toUInt64.toNat) = i.toInt := by
    exact getInt_put (by exact_mod_cast toUInt64_mod i (show 1 ≤ 8 by decide)) (by omega) (by omega)
  have hput : put 1 i.toUInt64.toNat = [UInt8.ofNat i.toUInt64.toNat] := by simp [put]
  have htab : unpackTab (UInt8.ofNat i.toUInt64.toNat) = some .negativeFixnum := by
    have hmod := toUInt64_mod i (show 1 ≤ 8 by decide)
    have hb : 224 ≤ (UInt8.ofNat i.toUInt64.toNat).toNat := by
      rw [UInt8.toNat_ofNat']
      omega
    have hle (c : UInt8) (hc : c.toNat < 224) : ¬ UInt8.ofNat i.toUInt64.toNat ≤ c :=
      fun h => absurd (UInt8.le_iff_toNat_le.1 h) (by omega)
    have hge : 0xe0 ≤ UInt8.ofNat i.toUInt64.toNat := UInt8.le_iff_toNat_le.2 hb
    unfold unpackTab
    rw [if_neg (hle _ (by decide)), if_neg (hle _ (by decide)), if_neg (hle _ (by decide)),
      if_neg (hle _ (by decide)), if_pos hge]
  rw [hput] at hget ⊢
  rw [List.singleton_append]
  simp only [unpack, htab, hget, Int64.ofInt_toInt]

theorem unpack_neg {i : Int64} (h : i.toInt < 0) :
    unpack e (f + 1) (encodeNegativeInt i ++ s) = .ok (.int i, s) := by
  have hmin := i.le_toInt
  unfold encodeNegativeInt Outbuf.encodeNegativeInt
  simp only [Bool.false_eq_true, if_false]
  split
  · next hlo => exact unpack_negfix hlo h
  · split
    · exact unpack_int rfl (by decide) (by omega) (by omega)
    · split
      · exact unpack_int rfl (by decide) (by omega) (by omega)
      · split
        · exact unpack_int rfl (by decide) (by omega) (by omega)
        · exact unpack_int rfl (by decide) (by omega) (by omega)

theorem unpack_double (d : UInt64) :
    unpack e (f + 1) (0xcb :: put 8 d.toNat ++ s) = .ok (.double d, s) := by
  have hget := get_put_lt (n := 8) d.toNat_lt
  have htab : unpackTab 0xcb = some .double := rfl
  rw [List.cons_append]
  simp only [unpack, htab, getBytes_put, Except.map, hget, UInt64.ofNat_toNat]

theorem unpack_len (cont : Nat → Str → Except Errno (Pub3 × Str)) {fix len : Nat} {b s l : UInt8}
    {r : Str} (hlt : fix < 2 ^ 32)
    (hfix : ∀ n ≤ fix, unpack e (f + 1) ((b ||| .ofNat n) :: r) = cont n r)
    (hs : ∀ t, unpack e (f + 1) (s :: t) = (getBytes 2 t).bind fun (l, t) => cont (get 0 l) t)
    (hl : ∀ t, unpack e (f + 1) (l :: t) = (getBytes 4 t).bind fun (l, t) => cont (get 0 l) t) :
    unpack e (f + 1) (encodeLenWith fix len b s l ++ r) = cont (len % 2 ^ 32) r := by
  unfold encodeLenWith
  split
  · next h => rw [List.singleton_append, hfix len h, Nat.mod_eq_of_lt (by omega)]
  · split
    · next h =>
      rw [List.cons_append, hs, getBytes_put, Nat.mod_eq_of_lt (by omega)]
      exact congrArg (cont · r) (get_put_lt (n := 2) (by omega))
    · rw [List.cons_append, hl, getBytes_put]
      exact congrArg (cont · r) ((get_put 0 4 len).trans (by simp))

theorem unpack_raw {r : Str} (h : r.length < 2 ^ 32) :
    unpack e (f + 1) (encodeStr r ++ s) = .ok (.str r, s) := by
  have htab : ∀ n < 32, unpackTab (0xa0 ||| .ofNat n) = some .fixRaw ∧
      ((0xa0 ||| .ofNat n) ^^^ 0xa0 : UInt8).toNat = n := by decide
  rw [encodeStr, List.append_assoc]
  refine (unpack_len unpackRaw (by decide) (fun n hn => ?_) (fun _ => rfl)
    (fun _ => rfl)).trans ?_
  · obtain ⟨ht, hx⟩ := htab n (by omega)
    simp only [unpack, ht, hx]
  · rw [Nat.mod_eq_of_lt h, unpackRaw, getBytes_append rfl]
    rfl

theorem unpack_arr (n : Nat) : unpack e (f + 1) (encodeLen n 0x90 0xdc 0xdd ++ s) =
    (unpackArray (unpack e f) (n % 2 ^ 32) s).map fun (xs, s) => (.list xs, s) := by
  have htab : ∀ n < 16, unpackTab (0x90 ||| .ofNat n) = some .fixArray ∧
      ((0x90 ||| .ofNat n) ^^^ 0x90 : UInt8).toNat = n := by decide
  unfold encodeLen
  refine unpack_len (fun n s => (unpackArray (unpack e f) n s).map fun (xs, s) => (.list xs, s))
    ?_ (fun n hn => ?_) (fun _ => ?_) (fun _ => ?_)
  · decide
  · obtain ⟨ht, hx⟩ := htab n (by omega)
    simp only [unpack, ht, hx]
  · rfl
  · rfl

theorem unpack_map (n : Nat) : unpack e (f + 1) (encodeLen n 0x80 0xde 0xdf ++ s) =
    (unpackMap e (unpack e f) (n % 2 ^ 32) [] s).map fun (d, s) => (.dict d, s) := by
  have htab : ∀ n < 16, unpackTab (0x80 ||| .ofNat n) = some .fixMap ∧
      ((0x80 ||| .ofNat n) ^^^ 0x80 : UInt8).toNat = n := by decide
  unfold encodeLen
  refine unpack_len (fun n s => (unpackMap e (unpack e f) n [] s).map fun (d, s) => (.dict d, s))
    ?_ (fun n hn => ?_) (fun _ => ?_) (fun _ => ?_)
  · decide
  · obtain ⟨ht, hx⟩ := htab n (by omega)
    simp only [unpack, ht, hx]
  · rfl
  · rfl

theorem unpack_tok {t : Tok} (h : t.Ok) (s : Str) :
    unpack e (f + 1) (t.bytes ++ s) = t.read e (unpack e f) s := by
  cases t with
  | null => rfl
  | bool b => cases b <;> rfl
  | neg i => exact unpack_neg h
  | pos u => exact unpack_pos u
  | double d => exact unpack_double d
  | raw r => exact unpack_raw h
  | arr n => exact unpack_arr n
  | map n => exact unpack_map n

theorem encodeLenWith_ne_nil (fix len : Nat) (b s l : UInt8) :
    encodeLenWith fix len b s l ≠ [] := by
  unfold encodeLenWith
  split
  · simp
  · split <;> simp

theorem bytes_ne_nil (t : Tok) : t.bytes ≠ [] := by
  cases t with
  | null => simp [Tok.bytes]
  | bool b => simp [Tok.bytes]
  | neg i =>
    simp only [Tok.bytes, encodeNegativeInt, Outbuf.encodeNegativeInt, Bool.false_eq_true, if_false]
    repeat' split
    all_goals simp [put]
  | pos u =>
    simp only [Tok.bytes, encodePositiveInt, Outbuf.encodePositiveInt, Bool.false_eq_true, if_false]
    repeat' split
    all_goals simp [put]
  | double d => simp [Tok.bytes]
  | raw r => exact fun h => encodeLenWith_ne_nil _ _ _ _ _ (List.append_eq_nil_iff.1 h).1
  | arr n => exact encodeLenWith_ne_nil _ _ _ _ _
  | map n => exact encodeLenWith_ne_nil _ _ _ _ _

end Read

section Toks

def keyTok (k : Str) : Option Tok := match convertuint k with
  | some u => some (.pos u)
  | none => match myConvertint k with
    | some i => if i.toInt < 0 then some (.neg i) else none
    | none => some (.raw k)

mutual

def toks : Pub3 → Option (List Tok)
  | .null => some [.null]
  | .bool b => some [.bool b]
  | .int i => some [if i.toInt < 0 then .neg i else .pos i.toUInt64]
  | .uint u => some [.pos u]
  | .double d => some [.double d]
  | .str s => some [.raw s]
  | .list xs => (listToks xs).map (.arr xs.length :: ·)
  | .dict kvs => (dictToks kvs).map (.map kvs.length :: ·)

def listToks : List Pub3 → Option (List Tok)
  | [] => some []
  | x :: xs => (toks x).bind fun s => (listToks xs).map (s ++ ·)

def dictToks : List (Str × Pub3) → Option (List Tok)
  | [] => some []
  | (k, x) :: kvs => (keyTok k).bind fun t => (toks x).bind fun s =>
      (dictToks kvs).map (t :: s ++ ·)

end

def flat (ts : List Tok) : Str := ts.flatMap Tok.bytes

theorem toMsgpack_in (jsmode : Bool) (x : Pub3) :
    Outbuf.toMsgpack jsmode x = (toks x).map (·.flatMap (Tok.bytesIn jsmode)) := by
  have hkey (k : Str) : Outbuf.encodeKey jsmode k = (keyTok k).map (Tok.bytesIn jsmode) := by
    unfold Outbuf.encodeKey keyTok
    cases convertuint k with
    | some u => rfl
    | none =>
      cases myConvertint k with
      | some i =>
        dsimp only
        split <;> rfl
      | none => rfl
  induction x using Pub3.ind with
  | int i =>
    simp only [Outbuf.toMsgpack, toks, Option.map_some, List.flatMap_singleton]
    split <;> rfl
  | list xs ih =>
    have hlist : Outbuf.listToMsgpack jsmode xs =
        (listToks xs).map (·.flatMap (Tok.bytesIn jsmode)) := by
      induction xs with
      | nil => rfl
      | cons x xs ihx =>
        obtain ⟨hx, hxs⟩ := List.forall_mem_cons.1 ih
        rw [Outbuf.listToMsgpack, listToks, hx, ihx hxs]
        cases toks x <;> cases listToks xs <;> simp
    rw [Outbuf.toMsgpack, toks, hlist]
    cases listToks xs <;> simp [Tok.bytesIn, Tok.bytes]
  | dict kvs ih =>
    have hdict : Outbuf.dictToMsgpack jsmode kvs =
        (dictToks kvs).map (·.flatMap (Tok.bytesIn jsmode)) := by
      induction kvs with
      | nil => rfl
      | cons kv kvs ihx =>
        obtain ⟨hx, hxs⟩ := List.forall_mem_cons.1 ih
        rw [Outbuf.dictToMsgpack, dictToks, hx, ihx hxs, hkey]
        cases keyTok kv.1 <;> cases toks kv.2 <;> cases dictToks kvs <;> simp
    rw [Outbuf.toMsgpack, toks, hdict]
    cases dictToks kvs <;> simp [Tok.bytesIn, Tok.bytes]
  | _ => simp [Outbuf.toMsgpack, toks, Tok.bytesIn, Tok.bytes]

theorem bytesIn_false : Tok.bytesIn false = Tok.bytes := by
  funext t
  cases t <;> rfl

theorem toMsgpack_eq (x : Pub3) : toMsgpack x = (toks x).map flat := by
  rw [toMsgpack, toMsgpack_in, bytesIn_false]
  rfl

/-- The number of values that are taken behind the tokens. -/
def kids (ts : List Tok) : Nat := (ts.map Tok.kids).sum

/-- The tokens go down to `s`, and were taken as `w` values. -/
def Eats (w : Nat) (ts : List Tok) (s : Str) : Prop :=
  ∃ as bs, ts = as ++ bs ∧ s = flat bs ∧ as.length ≤ kids as + w

variable {e}

theorem Eats.trans {v w : Nat} {ts : List Tok} {r s : Str} (h : Eats v ts r)
    (hr : ∀ bs ⊆ ts, r = flat bs → Eats w bs s) : Eats (v + w) ts s := by
  obtain ⟨as, bs, rfl, hs, hlen⟩ := h
  obtain ⟨cs, ds, rfl, rfl, hlen'⟩ := hr bs (List.subset_append_right as bs) hs
  refine ⟨as ++ cs, ds, (List.append_assoc ..).symm, rfl, ?_⟩
  simp only [kids, List.length_append, List.map_append, List.sum_append] at *
  omega

theorem Eats.mono {v w : Nat} {ts : List Tok} {s : Str} (h : Eats v ts s) (hle : v ≤ w) :
    Eats w ts s := by
  obtain ⟨as, bs, hts, hs, hlen⟩ := h
  exact ⟨as, bs, hts, hs, by omega⟩

def Single (u : Str → Except Errno (Pub3 × Str)) : Prop :=
  ∀ ts x s, (∀ t ∈ ts, t.Ok) → u (flat ts) = .ok (x, s) → Eats 1 ts s

theorem bind_ok {ε α β : Type} {x : Except ε α} {g : α → Except ε β} {r : β}
    (h : x.bind g = .ok r) : ∃ a, x = .ok a ∧ g a = .ok r := by
  cases x with
  | error => cases h
  | ok a => exact ⟨a, rfl, h⟩

theorem map_ok {ε α β : Type} {x : Except ε α} {g : α → β} {r : β} (h : x.map g = .ok r) :
    ∃ a, x = .ok a ∧ g a = r := by
  cases x with
  | error => cases h
  | ok a => exact ⟨a, rfl, Except.ok.inj h⟩

theorem eats_array {u : Str → Except Errno (Pub3 × Str)} (hu : Single u) {n : Nat} {ts : List Tok}
    {xs : List Pub3} {s : Str} (hts : ∀ t ∈ ts, t.Ok) (h : unpackArray u n (flat ts) =
      .ok (xs, s)) :
    Eats n ts s := by
  induction n generalizing ts xs with
  | zero =>
    cases h
    exact ⟨[], ts, rfl, rfl, Nat.zero_le _⟩
  | succ n ih =>
    obtain ⟨⟨x, r⟩, hx, h⟩ := bind_ok h
    obtain ⟨⟨xs, s⟩, hxs, h⟩ := map_ok h
    cases h
    rw [Nat.add_comm]
    refine (hu ts x r hts hx).trans fun bs hbs hr => ?_
    rw [hr] at hxs
    exact ih (fun t ht => hts t (hbs ht)) hxs

theorem eats_map {u : Str → Except Errno (Pub3 × Str)} (hu : Single u) {n : Nat} {ts : List Tok}
    {d d' : List (Str × Pub3)} {s : Str} (hts : ∀ t ∈ ts, t.Ok)
    (h : unpackMap e u n d (flat ts) = .ok (d', s)) : Eats (2 * n) ts s := by
  induction n generalizing ts d with
  | zero =>
    cases h
    exact ⟨[], ts, rfl, rfl, Nat.zero_le _⟩
  | succ n ih =>
    obtain ⟨⟨k, r⟩, hk, h⟩ := bind_ok h
    rw [show 2 * (n + 1) = 1 + (1 + 2 * n) by omega]
    refine (hu ts k r hts hk).trans fun bs hbs hr => ?_
    subst hr
    have hbs' : ∀ t ∈ bs, t.Ok := fun t ht => hts t (hbs ht)
    dsimp only at h
    split at h
    · exact (ih hbs' h).mono (by omega)
    · obtain ⟨⟨v, q⟩, hv, h⟩ := bind_ok h
      refine (hu bs v q hbs' hv).trans fun cs hcs hq => ?_
      subst hq
      exact ih (fun t ht => hbs' t (hcs ht)) h

theorem single_unpack (f : Nat) : Single (unpack e f) := by
  induction f with
  | zero =>
    intro ts x s _ h
    cases hs : flat ts <;> rw [hs] at h <;> cases h
  | succ f ih =>
    intro ts x s hts h
    cases ts with
    | nil => cases h
    | cons t ts =>
      have hts' : ∀ t ∈ ts, t.Ok := fun t ht => hts t (List.mem_cons_of_mem _ ht)
      rw [flat, List.flatMap_cons, unpack_tok (hts t List.mem_cons_self)] at h
      have hmany {n : Nat} (hn : t.kids = n) (hs : Eats n ts s) : Eats 1 (t :: ts) s := by
        obtain ⟨as, bs, rfl, hs, hlen⟩ := hs
        refine ⟨t :: as, bs, rfl, hs, ?_⟩
        simp only [kids, List.length_cons, List.map_cons, List.sum_cons] at *
        omega
      cases t with
      | arr n =>
        obtain ⟨⟨xs, r⟩, ha, h⟩ := map_ok h
        cases h
        exact hmany rfl (eats_array ih hts' ha)
      | map n =>
        obtain ⟨⟨d, r⟩, ha, h⟩ := map_ok h
        cases h
        exact hmany rfl (eats_map ih hts' ha)
      | _ =>
        cases h
        exact hmany rfl ⟨[], ts, rfl, rfl, Nat.zero_le _⟩

end Toks

end Msgpack

end Okws
