import Okws.MsgpackRound

namespace Okws.Msgpack

open BigEndian Inet Scalar Zbuf Pub3

namespace Tok

/-- An integer that takes no more than 32 bits, if it is negative. -/
def Near : Tok → Prop
  | .neg i => -2 ^ 31 ≤ i.toInt
  | _ => True

/-- What JS mode makes of a token where it does it well. -/
def js : Tok → Tok
  | .neg i => if -2 ^ 31 ≤ i.toInt then .neg i else .raw (decimal i.toInt)
  | .pos u => if u.toNat < 2 ^ 32 then .pos u else .raw (decimal u.toNat)
  | t => t

/-- The type byte of an integer with a string behind it, as the decoder takes it: an integer of
eight bytes, and the other bytes of the string. -/
def stray (i : Int64) : List Tok :=
  let s := encodeStr (decimal i.toInt)
  .neg (UInt64.ofNat (get 0 (s.take 8))).toInt64 :: (s.drop 8).map fun b => .pos b.toUInt64

def jsToks : Tok → List Tok
  | .neg i => if -2 ^ 31 ≤ i.toInt then [.neg i] else stray i
  | t => [t.js]

end Tok

section Bytes

variable {i : Int64}

theorem encodeStr_far (h : i.toInt < -2 ^ 31) : ∃ b : UInt8, ∃ ds, 160 ≤ b.toNat ∧ b.toNat < 192 ∧
    8 ≤ ds.length ∧ (∀ d ∈ ds, isDigit d = true) ∧
    encodeStr (decimal i.toInt) = b :: 45 :: ds := by
  have hmin := i.le_toInt
  have hdec := decimal_neg (show i.toInt < 0 by omega)
  have hlong : ¬ (natural i.toInt.natAbs).length ≤ 7 := fun hle =>
    absurd ((length_natural_le_iff (by decide)).1 hle) (by omega)
  have hshort : (natural i.toInt.natAbs).length ≤ 19 :=
    (length_natural_le_iff (by decide)).2 (by omega)
  have hbyte : ∀ n < 32, 160 ≤ (0xa0 ||| UInt8.ofNat n).toNat ∧
      (0xa0 ||| UInt8.ofNat n).toNat < 192 := by decide
  obtain ⟨hlo, hhi⟩ := hbyte ((natural i.toInt.natAbs).length + 1) (by omega)
  refine ⟨_, natural i.toInt.natAbs, hlo, hhi, by omega, natural_all _, ?_⟩
  rw [hdec, encodeStr, encodeRawLen, encodeLenWith, List.length_cons, if_pos (by omega)]
  rfl

theorem toInt_stray {b : UInt8} {l : Str} (hlo : 160 ≤ b.toNat) (hhi : b.toNat < 192)
    (hl : l.length = 7) : (UInt64.ofNat (get 0 (b :: l))).toInt64.toInt < -2 ^ 62 ∧
      (UInt64.ofNat (get 0 (b :: l))).toInt64.toUInt64.toNat = get 0 (b :: l) := by
  have hget : get 0 (b :: l) = get b.toNat l := congrArg (get · l) (by simp)
  have hdiv : get 0 (b :: l) / 256 ^ 7 = b.toNat := by
    have h := get_div b.toNat l
    rwa [hl, ← hget] at h
  have hval : (UInt64.ofNat (get 0 (b :: l))).toInt64.toUInt64.toNat = get 0 (b :: l) := by
    rw [UInt64.toUInt64_toInt64, UInt64.toNat_ofNat_of_lt']
    exact (by omega : get 0 (b :: l) < 2 ^ 64)
  have hmod := toUInt64_mod (UInt64.ofNat (get 0 (b :: l))).toInt64 (Nat.le_refl 8)
  have hle := Int64.le_toInt (UInt64.ofNat (get 0 (b :: l))).toInt64
  have hlt := Int64.toInt_lt (UInt64.ofNat (get 0 (b :: l))).toInt64
  rw [hval] at hmod
  exact ⟨by omega, hval⟩

theorem flat_digits {ds : Str} (h : ∀ d ∈ ds, isDigit d = true) :
    flat (ds.map fun b => .pos b.toUInt64) = ds := by
  induction ds with
  | nil => rfl
  | cons d ds ih =>
    obtain ⟨hd, hds⟩ := List.forall_mem_cons.1 h
    have hle : d.toNat ≤ 0x7f := by
      have : d ≤ 57 := by
        simp only [isDigit, Bool.and_eq_true, decide_eq_true_eq] at hd
        exact hd.2
      exact Nat.le_trans (UInt8.le_iff_toNat_le.1 this) (by decide)
    have hbytes : (Tok.pos d.toUInt64).bytes = [d] := by
      simp [Tok.bytes, encodePositiveInt, Outbuf.encodePositiveInt, hle, put]
    rw [List.map_cons, flat, List.flatMap_cons, hbytes]
    exact congrArg (d :: ·) (ih hds)

theorem kids_digits (ds : Str) : kids (ds.map fun b => .pos b.toUInt64) = 0 := by
  induction ds with
  | nil => rfl
  | cons d ds ih =>
    rw [List.map_cons, kids_cons, ih]
    rfl

theorem stray_spec (h : i.toInt < -2 ^ 31) : flat (Tok.stray i) = Outbuf.encodeNegativeInt true i ∧
    (∀ t ∈ Tok.stray i, t.Ok) ∧ kids (Tok.stray i) = 0 ∧ 2 ≤ (Tok.stray i).length := by
  obtain ⟨b, ds, hlo, hhi, hlen, hds, hstr⟩ := encodeStr_far h
  have htake : (b :: 45 :: ds).take 8 = b :: 45 :: ds.take 6 := rfl
  have hdrop : (b :: 45 :: ds).drop 8 = ds.drop 6 := rfl
  obtain ⟨hneg, hval⟩ := toInt_stray (l := 45 :: ds.take 6) hlo hhi (by simp; omega)
  have hdigits : ∀ d ∈ ds.drop 6, isDigit d = true := fun d hd => hds d (List.mem_of_mem_drop hd)
  unfold Tok.stray
  dsimp only
  rw [hstr, htake, hdrop]
  refine ⟨?_, ?_, ?_, ?_⟩
  · have hjs : Outbuf.encodeNegativeInt true i = 0xd3 :: b :: 45 :: ds := by
      unfold Outbuf.encodeNegativeInt
      dsimp only
      rw [if_neg (by omega), if_neg (by omega), if_neg (by omega), if_neg (by omega), if_pos rfl,
        hstr]
    have hbytes : (Tok.neg (UInt64.ofNat (get 0 (b :: 45 :: ds.take 6))).toInt64).bytes =
        0xd3 :: b :: 45 :: ds.take 6 := by
      have hput := put_get 0 (b :: 45 :: ds.take 6)
      have hl : (b :: 45 :: ds.take 6).length = 8 := by simp; omega
      rw [hl] at hput
      unfold Tok.bytes encodeNegativeInt Outbuf.encodeNegativeInt
      dsimp only
      rw [if_neg (by omega), if_neg (by omega), if_neg (by omega), if_neg (by omega),
        if_neg Bool.false_ne_true, hval, hput]
    rw [flat, List.flatMap_cons, hbytes, hjs]
    have hflat := flat_digits hdigits
    rw [flat] at hflat
    rw [hflat]
    exact congrArg (fun l => 0xd3 :: b :: 45 :: l) (List.take_append_drop 6 ds)
  · refine List.forall_mem_cons.2 ⟨(by omega : _ < (0 : Int)), fun t ht => ?_⟩
    obtain ⟨d, -, rfl⟩ := List.mem_map.1 ht
    trivial
  · rw [kids_cons, kids_digits]
    rfl
  · rw [List.length_cons, List.length_map, List.length_drop]
    omega

end Bytes

section Stream

variable {t : Tok} {ts : List Tok}

theorem js_neg {i : Int64} : (Tok.neg i).js = .neg i ∧ -2 ^ 31 ≤ i.toInt ∨
    (Tok.neg i).js = .raw (decimal i.toInt) ∧ i.toInt < -2 ^ 31 := by
  by_cases h : -2 ^ 31 ≤ i.toInt
  · exact .inl ⟨if_pos h, h⟩
  · exact .inr ⟨if_neg h, Int.not_le.1 h⟩

theorem js_pos {u : UInt64} : (Tok.pos u).js = .pos u ∧ u.toNat < 2 ^ 32 ∨
    (Tok.pos u).js = .raw (decimal u.toNat) ∧ 2 ^ 32 ≤ u.toNat := by
  by_cases h : u.toNat < 2 ^ 32
  · exact .inl ⟨if_pos h, h⟩
  · exact .inr ⟨if_neg h, Nat.not_lt.1 h⟩

theorem js_ok (h : t.Ok) : t.js.Ok := by
  have hlen (z : Int) (hz : z.natAbs < 2 ^ 64) : (Tok.raw (decimal z)).Ok :=
    Nat.lt_of_le_of_lt (length_decimal z hz) (by decide)
  cases t with
  | neg i =>
    have := i.le_toInt
    have := i.toInt_lt
    obtain ⟨hjs, -⟩ | ⟨hjs, -⟩ := js_neg (i := i)
    · rwa [hjs]
    · rw [hjs]
      exact hlen _ (by omega)
  | pos u =>
    have := u.toNat_lt
    obtain ⟨hjs, -⟩ | ⟨hjs, -⟩ := js_pos (u := u)
    · rwa [hjs]
    · rw [hjs]
      exact hlen _ (by omega)
  | raw s => exact h
  | _ => trivial

theorem kids_js : kids [t.js] = t.kids := by
  have hsingle (t : Tok) : kids [t] = t.kids := Nat.add_zero _
  rw [hsingle]
  cases t with
  | neg i =>
    obtain ⟨hjs, -⟩ | ⟨hjs, -⟩ := js_neg (i := i)
    · rw [hjs]
    · rw [hjs]
      rfl
  | pos u =>
    obtain ⟨hjs, -⟩ | ⟨hjs, -⟩ := js_pos (u := u)
    · rw [hjs]
    · rw [hjs]
      rfl
  | _ => rfl

theorem jsToks_near (h : t.Near) : t.jsToks = [t.js] := by
  cases t with
  | neg i =>
    have hjs : (Tok.neg i).js = .neg i := if_pos h
    rw [hjs]
    exact if_pos h
  | _ => rfl

theorem bytes_js (h : t.Near) : t.js.bytes = t.bytesIn true := by
  cases t with
  | neg i =>
    have hle : -2147483648 ≤ i.toInt := h
    have hjs : (Tok.neg i).js = .neg i := if_pos h
    have hin : (Tok.neg i).bytesIn true = Outbuf.encodeNegativeInt true i := rfl
    rw [hjs, hin, Tok.bytes, encodeNegativeInt, Outbuf.encodeNegativeInt,
      Outbuf.encodeNegativeInt, if_pos hle, if_pos hle]
  | pos u =>
    have hin : (Tok.pos u).bytesIn true = Outbuf.encodePositiveInt true u := rfl
    obtain ⟨hjs, hlt⟩ | ⟨hjs, hle⟩ := js_pos (u := u)
    · have hle : u.toNat ≤ 0xffffffff := by omega
      rw [hjs, hin, Tok.bytes, encodePositiveInt, Outbuf.encodePositiveInt,
        Outbuf.encodePositiveInt, if_pos hle, if_pos hle]
    · rw [hjs, hin, Outbuf.encodePositiveInt, if_neg (by omega), if_neg (by omega),
        if_neg (by omega), if_neg (by omega), if_pos rfl]
      rfl
  | _ => rfl

/-- The bytes of JS mode are tokens again, of which nothing more is expected; there is more than one
only for an integer below `-2 ^ 31`. -/
theorem jsToks_spec (h : t.Ok) : flat t.jsToks = t.bytesIn true ∧ (∀ u ∈ t.jsToks, u.Ok) ∧
    kids t.jsToks = t.kids ∧ 1 ≤ t.jsToks.length ∧ (t.jsToks.length = 1 → t.Near) := by
  by_cases hnear : t.Near
  · rw [jsToks_near hnear, flat, List.flatMap_singleton, bytes_js hnear]
    exact ⟨rfl, List.forall_mem_singleton.2 (js_ok h), kids_js, Nat.le_refl 1, fun _ => hnear⟩
  · cases t with
    | neg i =>
      have hstray : (Tok.neg i).jsToks = Tok.stray i := if_neg hnear
      have hlt : i.toInt < -2 ^ 31 := Int.not_le.1 hnear
      obtain ⟨hflat, hok, hkids, hlen⟩ := stray_spec hlt
      rw [hstray]
      exact ⟨hflat, hok, hkids, by omega, fun hone => absurd hone (by omega)⟩
    | _ => exact absurd trivial hnear

def jsStream (ts : List Tok) : List Tok := ts.flatMap Tok.jsToks

theorem jsStream_spec (h : ∀ t ∈ ts, t.Ok) : flat (jsStream ts) = ts.flatMap (Tok.bytesIn true) ∧
    (∀ u ∈ jsStream ts, u.Ok) ∧ kids (jsStream ts) = kids ts ∧ ts.length ≤ (jsStream ts).length ∧
      ((jsStream ts).length ≤ ts.length → ∀ t ∈ ts, t.Near) := by
  induction ts with
  | nil => exact ⟨rfl, nofun, rfl, Nat.le_refl 0, fun _ => nofun⟩
  | cons t ts ih =>
    obtain ⟨ht, hts⟩ := List.forall_mem_cons.1 h
    obtain ⟨hflat, hok, hkids, hlen, hnear⟩ := jsToks_spec ht
    obtain ⟨hflat', hok', hkids', hlen', hnear'⟩ := ih hts
    have hcons : jsStream (t :: ts) = t.jsToks ++ jsStream ts := List.flatMap_cons
    rw [hcons, flat_append, hflat, hflat', kids_append, kids_cons, hkids, hkids',
      List.length_append, List.length_cons]
    exact ⟨rfl, List.forall_mem_append.2 ⟨hok, hok'⟩, rfl, by omega, fun hle =>
      List.forall_mem_cons.2 ⟨hnear (by omega), hnear' (by omega)⟩⟩

theorem jsStream_near (h : ∀ t ∈ ts, t.Near) : jsStream ts = ts.map Tok.js := by
  induction ts with
  | nil => rfl
  | cons t ts ih =>
    obtain ⟨ht, hts⟩ := List.forall_mem_cons.1 h
    rw [jsStream, List.flatMap_cons, jsToks_near ht, List.map_cons]
    exact congrArg (t.js :: ·) (ih hts)

end Stream

mutual

/-- The value with every integer that takes more than 32 bits replaced by its decimal string. -/
def jsValue : Pub3 → Pub3
  | .int i => if -2 ^ 31 ≤ i.toInt ∧ i.toInt < 2 ^ 32 then .int i else .str (decimal i.toInt)
  | .uint u => if u.toNat < 2 ^ 32 then .uint u else .str (decimal u.toNat)
  | .list xs => .list (jsList xs)
  | .dict kvs => .dict (jsDict kvs)
  | x => x

def jsList : List Pub3 → List Pub3
  | [] => []
  | x :: xs => jsValue x :: jsList xs

def jsDict : List (Str × Pub3) → List (Str × Pub3)
  | [] => []
  | (k, x) :: kvs => (k, jsValue x) :: jsDict kvs

end

/-- A key that is no integer below `-2 ^ 31`. -/
def KeyNear (k : Str) : Prop := match convertuint k with
  | some _ => True
  | none => match myConvertint k with
    | some i => -2 ^ 31 ≤ i.toInt
    | none => True

/-- An integer that is not below `-2 ^ 31`, and a dictionary with no such key. -/
def NearValue : Pub3 → Prop
  | .int i => -2 ^ 31 ≤ i.toInt
  | .dict kvs => ∀ kv ∈ kvs, KeyNear kv.1
  | _ => True

section Values

variable {e : Env}

theorem jsList_eq (xs : List Pub3) : jsList xs = xs.map jsValue := by
  induction xs with
  | nil => rfl
  | cons x xs ih => rw [jsList, ih, List.map_cons]

theorem jsDict_eq (kvs : List (Str × Pub3)) :
    jsDict kvs = kvs.map fun kv => (kv.1, jsValue kv.2) := by
  induction kvs with
  | nil => rfl
  | cons kv kvs ih => rw [jsDict, ih, List.map_cons]

theorem jsValue_ofPos (u : UInt64) :
    jsValue (ofPos u) = if u.toNat < 2 ^ 32 then ofPos u else .str (decimal u.toNat) := by
  unfold ofPos
  by_cases h : u.toNat < 2 ^ 32
  · have hi := toInt_ofNat (n := u.toNat) (by omega)
    rw [if_pos h, if_pos h]
    exact if_pos (by omega)
  · rw [if_neg h, if_neg h]
    exact if_neg h

theorem via_js : Via e Tok.js jsValue where
  ok _ := js_ok
  leaf t u s y hok hkids h := by
    cases t with
    | neg i =>
      have hneg : i.toInt < 0 := hok
      cases h
      rw [jsValue]
      obtain ⟨hjs, hge⟩ | ⟨hjs, hlt⟩ := js_neg (i := i)
      · rw [hjs, if_pos ⟨hge, by omega⟩]
        rfl
      · rw [hjs, if_neg (by omega)]
        rfl
    | pos u =>
      cases h
      rw [jsValue_ofPos]
      obtain ⟨hjs, hlt⟩ | ⟨hjs, hle⟩ := js_pos (u := u)
      · rw [hjs, if_pos hlt]
        rfl
      · rw [hjs, if_neg (by omega)]
        rfl
    | arr n =>
      have hn : n % 2 ^ 32 = 0 := hkids
      have hread : (Tok.arr n).read e u s = .ok (.list [], s) := by
        rw [Tok.read, hn]
        rfl
      cases hread.symm.trans h
      exact hread
    | map n =>
      have hn : n % 2 ^ 32 = 0 := by
        have : 2 * (n % 2 ^ 32) = 0 := hkids
        omega
      have hread : (Tok.map n).read e u s = .ok (.dict [], s) := by
        rw [Tok.read, hn]
        rfl
      cases hread.symm.trans h
      exact hread
    | _ =>
      cases h
      rfl
  key k t u s h := by
    obtain ⟨v, -, ht, hk, -⟩ | ⟨i, -, ht, hk, -⟩ | ⟨ht, hk, -⟩ | ⟨ht, -⟩ := key_cases k
    · cases ht.symm.trans h
      obtain ⟨hjs, -⟩ | ⟨hjs, -⟩ := js_pos (u := v)
      · rw [hjs]
        exact ⟨_, rfl, hk ▸ toStr_ofPos v⟩
      · rw [hjs]
        exact ⟨_, rfl, congrArg some hk.symm⟩
    · cases ht.symm.trans h
      obtain ⟨hjs, -⟩ | ⟨hjs, -⟩ := js_neg (i := i)
      · rw [hjs]
        exact ⟨_, rfl, congrArg some hk.symm⟩
      · rw [hjs]
        exact ⟨_, rfl, congrArg some hk.symm⟩
    · cases ht.symm.trans h
      exact ⟨_, rfl, congrArg some hk.symm⟩
    · cases ht.symm.trans h
  arr _ := rfl
  map _ := rfl
  list xs := by rw [jsValue, jsList_eq]
  dict d := by rw [jsValue, jsDict_eq]

theorem jsValue_normDict {kvs : List (Str × Pub3)}
    (ih : ∀ kv ∈ kvs, jsValue (norm kv.2) = norm (jsValue kv.2))
    (d : List (Str × Pub3)) : (normDict d kvs).map (fun kv => (kv.1, jsValue kv.2)) =
      normDict (d.map fun kv => (kv.1, jsValue kv.2)) (jsDict kvs) := by
  induction kvs generalizing d with
  | nil => rfl
  | cons kv kvs ihx =>
    obtain ⟨hx, hxs⟩ := List.forall_mem_cons.1 ih
    rw [normDict, ihx hxs, jsDict, normDict, ← insert_map, hx]

theorem jsValue_norm (x : Pub3) : jsValue (norm x) = norm (jsValue x) := by
  induction x using Pub3.ind with
  | int i =>
    rw [norm, jsValue]
    by_cases hi : i.toInt < 0
    · rw [if_pos hi, jsValue]
      split
      · exact (if_pos hi).symm
      · rfl
    · have hu := toNat_toUInt64 (Int.not_lt.1 hi)
      rw [if_neg hi, jsValue_ofPos]
      by_cases hlt : i.toUInt64.toNat < 2 ^ 32
      · rw [if_pos hlt, if_pos (by omega), norm, if_neg hi]
      · rw [if_neg hlt, if_neg (by omega), hu]
        rfl
  | uint u =>
    rw [norm, jsValue_ofPos, jsValue]
    split <;> rfl
  | list xs ih =>
    have hlist : jsList (normList xs) = normList (jsList xs) := by
      induction xs with
      | nil => rfl
      | cons x xs ihx =>
        obtain ⟨hx, hxs⟩ := List.forall_mem_cons.1 ih
        rw [normList, jsList, jsList, normList, hx, ihx hxs]
    rw [norm, jsValue, jsValue, norm, hlist]
  | dict kvs ih => rw [norm, jsValue, jsValue, norm, jsDict_eq, jsValue_normDict ih, List.map_nil]
  | _ => rfl

def KeysOk : Pub3 → Prop
  | .dict kvs => ∀ kv ∈ kvs, KeyOk kv.1
  | _ => True

theorem plain_decimal {z : Int} (h : z.natAbs < 2 ^ 64) : All Plain (.str (decimal z)) :=
  all_str.2 (Nat.lt_of_le_of_lt (length_decimal z h) (by decide))

theorem jsValue_spec {b : Bool} (x : Pub3) (hp : All Plain x) {ts : List Tok}
    (h : toks x = some ts) : All Plain (jsValue x) ∧ (∃ us, toks (jsValue x) = some us) ∧
      (All (Kept b) (jsValue x) ↔ All KeysOk x) := by
  induction x using Pub3.ind generalizing ts with
  | int i =>
    have := i.le_toInt
    have := i.toInt_lt
    rw [jsValue, all_int]
    split
    · next hi => exact ⟨hp, ⟨_, rfl⟩, iff_of_true (all_int.2 (.inr hi.2)) trivial⟩
    · exact ⟨plain_decimal (by omega), ⟨_, rfl⟩, iff_of_true (all_str.2 trivial) trivial⟩
  | uint u =>
    have := u.toNat_lt
    rw [jsValue, all_uint]
    split
    · exact ⟨hp, ⟨_, rfl⟩, iff_of_true (all_uint.2 trivial) trivial⟩
    · exact ⟨plain_decimal (by omega), ⟨_, rfl⟩, iff_of_true (all_str.2 trivial) trivial⟩
  | list xs ih =>
    obtain ⟨us, hus, -⟩ := Option.map_eq_some_iff.1 h
    have hspec : ∀ x ∈ xs, All Plain (jsValue x) ∧ (∃ us, toks (jsValue x) = some us) ∧
        (All (Kept b) (jsValue x) ↔ All KeysOk x) :=
      fun x hx => ih x hx (hp.list x hx) (toks_of_mem hus x hx).choose_spec
    rw [jsValue, jsList_eq, all_list, all_list, all_list]
    simp only [List.forall_mem_map]
    have hmem : ∀ y ∈ xs.map jsValue, ∃ ts, toks y = some ts :=
      List.forall_mem_map.2 fun x hx => (hspec x hx).2.1
    obtain ⟨vs, hvs⟩ := listToks_of_mem hmem
    refine ⟨⟨trivial, fun x hx => (hspec x hx).1⟩, ⟨_, by rw [toks, hvs]; rfl⟩, ?_⟩
    exact and_congr .rfl (forall₂_congr fun x hx => (hspec x hx).2.2)
  | dict kvs ih =>
    obtain ⟨us, hus, -⟩ := Option.map_eq_some_iff.1 h
    have hmem := keyTok_of_mem hus
    have hspec : ∀ kv ∈ kvs, All Plain (jsValue kv.2) ∧ (∃ us, toks (jsValue kv.2) = some us) ∧
        (All (Kept b) (jsValue kv.2) ↔ All KeysOk kv.2) :=
      fun kv hkv => ih kv hkv (hp.dict kv hkv) (hmem kv hkv).2.choose_spec
    have hkeys : (kvs.map fun kv => (kv.1, jsValue kv.2)).map Prod.fst = kvs.map Prod.fst := by
      rw [List.map_map]
      rfl
    rw [jsValue, jsDict_eq, all_dict, all_dict, all_dict, Plain, Kept, hkeys]
    simp only [List.forall_mem_map]
    have hkey : ∀ kw ∈ kvs.map fun kv => (kv.1, jsValue kv.2), ∃ t, keyTok kw.1 = some t :=
      List.forall_mem_map.2 fun kv hkv => (hmem kv hkv).1
    have hval : ∀ kw ∈ kvs.map fun kv => (kv.1, jsValue kv.2), ∃ ts, toks kw.2 = some ts :=
      List.forall_mem_map.2 fun kv hkv => (hspec kv hkv).2.1
    obtain ⟨vs, hvs⟩ := dictToks_of_mem hkey hval
    refine ⟨⟨hp.here, fun kv hkv => (hspec kv hkv).1⟩, ⟨_, by rw [toks, hvs]; rfl⟩, ?_⟩
    exact and_congr .rfl (forall₂_congr fun kv hkv => (hspec kv hkv).2.2)
  | _ => exact ⟨hp, ⟨_, rfl⟩, iff_of_true (fun y hy => by cases hy; trivial)
      fun y hy => by cases hy; trivial⟩

theorem near_key {k : Str} {t : Tok} (h : keyTok k = some t) : t.Near ↔ KeyNear k := by
  unfold keyTok at h
  unfold KeyNear
  cases hu : convertuint k with
  | some u =>
    rw [hu] at h
    cases h
    rfl
  | none =>
    rw [hu] at h
    cases hi : myConvertint k with
    | some i =>
      rw [hi] at h
      dsimp only at h
      split at h
      · cases h
        rfl
      · cases h
    | none =>
      rw [hi] at h
      cases h
      rfl

theorem near_iff (x : Pub3) {ts : List Tok} (h : toks x = some ts) :
    (∀ t ∈ ts, t.Near) ↔ All NearValue x := by
  induction x using Pub3.ind generalizing ts with
  | int i =>
    cases h
    rw [all_int, List.forall_mem_singleton]
    split
    · rfl
    · next hi => exact iff_of_true trivial (by show -2 ^ 31 ≤ i.toInt; omega)
  | list xs ih =>
    have hxs : ∀ {ts}, listToks xs = some ts →
        ((∀ t ∈ ts, t.Near) ↔ ∀ x ∈ xs, All NearValue x) := by
      clear h
      induction xs with
      | nil =>
        intro ts h
        cases h
        exact ⟨fun _ => nofun, fun _ => nofun⟩
      | cons x xs ihx =>
        intro ts h
        obtain ⟨as, bs, has, hbs, rfl⟩ := listToks_cons h
        rw [List.forall_mem_append, List.forall_mem_cons, ih x List.mem_cons_self has,
          ihx (fun y hy => ih y (List.mem_cons_of_mem x hy)) hbs]
    obtain ⟨us, hus, rfl⟩ := Option.map_eq_some_iff.1 h
    rw [List.forall_mem_cons, all_list, hxs hus]
    exact and_congr .rfl .rfl
  | dict kvs ih =>
    have hkvs : ∀ {ts}, dictToks kvs = some ts → ((∀ t ∈ ts, t.Near) ↔
        (∀ kv ∈ kvs, KeyNear kv.1) ∧ ∀ kv ∈ kvs, All NearValue kv.2) := by
      clear h
      induction kvs with
      | nil =>
        intro ts h
        cases h
        exact ⟨fun _ => ⟨nofun, nofun⟩, fun _ => nofun⟩
      | cons kv kvs ihx =>
        intro ts h
        obtain ⟨t, as, bs, ht, has, hbs, rfl⟩ := dictToks_cons h
        rw [List.forall_mem_cons, List.forall_mem_append, List.forall_mem_cons,
          List.forall_mem_cons, near_key ht, ih kv List.mem_cons_self has,
          ihx (fun y hy => ih y (List.mem_cons_of_mem kv hy)) hbs]
        exact ⟨fun ⟨hk, hv, hks, hvs⟩ => ⟨⟨hk, hks⟩, hv, hvs⟩,
          fun ⟨⟨hk, hks⟩, hv, hvs⟩ => ⟨hk, hv, hks, hvs⟩⟩
    obtain ⟨us, hus, rfl⟩ := Option.map_eq_some_iff.1 h
    rw [List.forall_mem_cons, all_dict, hkvs hus]
    exact ⟨fun hn => hn.2, fun hn => ⟨trivial, hn⟩⟩
  | _ =>
    cases h
    exact iff_of_true (List.forall_mem_singleton.2 trivial) fun y hy => by cases hy; trivial

end Values

section Round

variable {e : Env} {b : Bool} {x : Pub3}

/-- The message is decoded as a whole, and what comes back is the value with decimal strings for the
integers that take more than 32 bits. -/
def JsRoundTrips (e : Env) (b : Bool) (x : Pub3) : Prop :=
  ∃ s y, Outbuf.toMsgpack true x = some s ∧ decode e s = .ok (y, []) ∧ Pub3.Same b y (jsValue x)

def JsKept (x : Pub3) : Prop := Sized x ∧ NearValue x ∧ KeysOk x

theorem decode_jsStream (hp : All Plain x) (hs : All Sized x) {ts : List Tok}
    (h : toks x = some ts) (hnear : ∀ t ∈ ts, t.Near) :
    decode e (flat (jsStream ts)) = .ok (norm (jsValue x), []) := by
  have hback := back_via (via_js (e := e)) x hp hs ts _ [] h (Nat.le_refl _)
  rw [List.append_nil, jsValue_norm] at hback
  rwa [jsStream_near hnear]

theorem near_of_decode {y : Pub3} (hp : All Plain x) {ts : List Tok} (h : toks x = some ts)
    (hd : decode e (flat (jsStream ts)) = .ok (y, [])) : All Sized x ∧ ∀ t ∈ ts, t.Near := by
  obtain ⟨-, hok, hkids, hlen, hnear⟩ := jsStream_spec (toks_ok x hp h)
  obtain ⟨as, bs, hts, hnil, has⟩ := single_unpack _ (jsStream ts) y [] hok hd
  rw [flat_eq_nil hnil.symm, List.append_nil] at hts
  obtain ⟨hmin, hsized⟩ := sized_of_kids x h
  rw [← hts, hkids] at has
  exact ⟨hsized (by omega), hnear (by omega)⟩

theorem jsKept_of_jsRoundTrips (hp : All Plain x) (h : JsRoundTrips e b x) : All JsKept x := by
  obtain ⟨s, y, henc, hdec, hsame⟩ := h
  rw [toMsgpack_in] at henc
  obtain ⟨ts, hts, rfl⟩ := Option.map_eq_some_iff.1 henc
  rw [← (jsStream_spec (toks_ok x hp hts)).1] at hdec
  obtain ⟨hsized, hnear⟩ := near_of_decode hp hts hdec
  rw [decode_jsStream hp hsized hts hnear] at hdec
  cases hdec
  obtain ⟨hplain, ⟨us, hus⟩, hkept⟩ := jsValue_spec (b := b) x hp hts
  have hkeys := hkept.1 ((same_norm _ hplain hus).1 hsame)
  exact fun z hz => ⟨hsized z hz, (near_iff x hts).1 hnear z hz, hkeys z hz⟩

theorem toks_of_keysOk (x : Pub3) (h : All KeysOk x) : ∃ ts, toks x = some ts := by
  refine toks_of_kept (b := true) x fun y hy => ?_
  cases y with
  | int i => exact .inl rfl
  | dict kvs => exact h _ hy
  | _ => trivial

theorem jsRoundTrips_of_jsKept (hp : All Plain x) (h : All JsKept x) : JsRoundTrips e b x := by
  obtain ⟨ts, hts⟩ := toks_of_keysOk x fun z hz => (h z hz).2.2
  have hnear := (near_iff x hts).2 fun z hz => (h z hz).2.1
  obtain ⟨hplain, ⟨us, hus⟩, hkept⟩ := jsValue_spec (b := b) x hp hts
  refine ⟨flat (jsStream ts), norm (jsValue x), ?_,
    decode_jsStream hp (fun z hz => (h z hz).1) hts hnear,
    (same_norm _ hplain hus).2 (hkept.2 fun z hz => (h z hz).2.2)⟩
  rw [toMsgpack_in, hts, (jsStream_spec (toks_ok x hp hts)).1]
  rfl

/-- JS mode can be read back, with strings for the integers that take more than 32 bits, unless one
of these is negative: its string stands behind the type byte of eight bytes. -/
theorem jsRoundTrips_iff (e : Env) (b : Bool) (hp : All Plain x) :
    JsRoundTrips e b x ↔ All JsKept x :=
  ⟨jsKept_of_jsRoundTrips hp, jsRoundTrips_of_jsKept hp⟩

/-- A dictionary with `2 ^ 32` under the key `a`. -/
theorem jsRoundTrips_iff_wide :
    JsRoundTrips ⟨fun _ => none, fun _ => 0⟩ false (.dict [(ascii ['a'], .uint 4294967296)]) ↔
      All JsKept (.dict [(ascii ['a'], .uint 4294967296)]) :=
  jsRoundTrips_iff _ _ (all_dict.2 ⟨⟨by decide, by decide⟩,
    List.forall_mem_singleton.2 (all_uint.2 trivial)⟩)

/-- The integer `-2 ^ 31 - 1` is not written as one value. -/
theorem not_jsRoundTrips_far :
    ¬ ∀ (e : Env) (x : Pub3), All Plain x → JsRoundTrips e false x := by
  intro h
  have hp : All Plain (.int (-2147483649)) := all_int.2 trivial
  have hkept := (jsKept_of_jsRoundTrips hp (h ⟨fun _ => none, fun _ => 0⟩ _ hp)).here
  have hnear : -2 ^ 31 ≤ (-2147483649 : Int64).toInt := hkept.2.1
  exact absurd hnear (by decide)

end Round

end Okws.Msgpack
