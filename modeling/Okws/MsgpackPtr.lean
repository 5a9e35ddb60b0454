import Okws.MsgpackCursor
import Okws.MsgpackJs

/-! `msgpack::encode` on what it is really given: pointers, some of them `NULL`, and values that
MessagePack has no form for. -/

namespace Okws

/-- What a `ptr<expr_t>` leads to.  A copy-on-write value stands for the value it holds, and is an
`other` if it holds none, as functions and regular expressions are. -/
inductive PtrExpr
  | nil
  | null
  | bool (b : Bool)
  | int (i : Int64)
  | uint (u : UInt64)
  | double (d : UInt64)
  | str (val : Option Str)
  | list (xs : List PtrExpr)
  | dict (kvs : List (Str × PtrExpr))
  | other

theorem PtrExpr.ind {P : PtrExpr → Prop} (nil : P .nil) (null : P .null) (bool : ∀ b, P (.bool b))
    (int : ∀ i, P (.int i)) (uint : ∀ u, P (.uint u)) (double : ∀ d, P (.double d))
    (str : ∀ s, P (.str s)) (list : ∀ xs, (∀ x ∈ xs, P x) → P (.list xs))
    (dict : ∀ kvs, (∀ kv ∈ kvs, P kv.2) → P (.dict kvs)) (other : P .other) (x : PtrExpr) : P x := by
  refine @PtrExpr.rec P (fun xs => ∀ x ∈ xs, P x) (fun kvs => ∀ kv ∈ kvs, P kv.2) (fun kv => P kv.2)
    nil null bool int uint double str list dict other nofun ?_ nofun ?_ (fun _ _ h => h) x
  · intro x xs hx hxs
    exact List.forall_mem_cons.2 ⟨hx, hxs⟩
  · intro kv kvs hkv hkvs
    exact List.forall_mem_cons.2 ⟨hkv, hkvs⟩

namespace MsgpackPtr

open BigEndian Lib Msgpack Scalar Zbuf

inductive Crash
  | assertion
  | nullDeref
  deriving DecidableEq

variable (jsmode : Bool)

def encodeKey (k : Str) : Except Crash Str := match Outbuf.encodeKey jsmode k with
  | some s => .ok s
  | none => .error .assertion

mutual

/-- `to_msgpack`: what it returns, and what it has put into the buffer. -/
def toMsgpack : PtrExpr → Except Crash (Bool × Str)
  | .nil => .error .nullDeref
  | .null => .ok (true, [0xc0])
  | .bool b => .ok (true, [if b then 0xc3 else 0xc2])
  | .int i => .ok (true, if i.toInt < 0 then Outbuf.encodeNegativeInt jsmode i
      else Outbuf.encodePositiveInt jsmode i.toUInt64)
  | .uint u => .ok (true, Outbuf.encodePositiveInt jsmode u)
  | .double d => .ok (true, 0xcb :: put 8 d.toNat)
  | .str none => .ok (false, [])
  | .str (some s) => .ok (true, encodeStr s)
  | .list xs => (listToMsgpack xs).map fun s => (true, encodeLen xs.length 0x90 0xdc 0xdd ++ s)
  | .dict kvs => (dictToMsgpack kvs).map fun s => (true, encodeLen kvs.length 0x80 0xde 0xdf ++ s)
  | .other => .ok (false, [])

/-- The loop of `expr_list_t::to_msgpack`, which does not look at what the elements return. -/
def listToMsgpack : List PtrExpr → Except Crash Str
  | [] => .ok []
  | x :: xs => (toMsgpack x).bind fun (_, s) => (listToMsgpack xs).map (s ++ ·)

def dictToMsgpack : List (Str × PtrExpr) → Except Crash Str
  | [] => .ok []
  | (k, x) :: kvs => (encodeKey jsmode k).bind fun t => (toMsgpack x).bind fun (_, s) =>
      (dictToMsgpack kvs).map (t ++ s ++ ·)

end

def encode (x : PtrExpr) : Except Crash (Option Str) :=
  (toMsgpack jsmode x).map fun (ret, s) => if ret then some s else none

/-- What is written: a scalar or a key, or a header with what follows it. -/
inductive Piece
  | item (s : Str)
  | node (header : Str) (elems : List Piece)

namespace Piece

mutual

def bytes : Piece → Str
  | .item s => s
  | .node header elems => header ++ bytesList elems

def bytesList : List Piece → Str
  | [] => []
  | p :: ps => bytes p ++ bytesList ps

end

/-- The headers count the elements that follow them, and each element is one value. -/
inductive Sound : Piece → Prop
  | item {s} : OneValue s → Sound (.item s)
  | node {header elems} : Item header elems.length → (∀ p ∈ elems, Sound p) →
      Sound (.node header elems)

end Piece

mutual

/-- What `to_msgpack` writes, if it writes something. -/
def pieces : PtrExpr → Except Crash (List Piece)
  | .nil => .error .nullDeref
  | .null => .ok [.item [0xc0]]
  | .bool b => .ok [.item [if b then 0xc3 else 0xc2]]
  | .int i => .ok [.item (if i.toInt < 0 then Outbuf.encodeNegativeInt jsmode i
      else Outbuf.encodePositiveInt jsmode i.toUInt64)]
  | .uint u => .ok [.item (Outbuf.encodePositiveInt jsmode u)]
  | .double d => .ok [.item (0xcb :: put 8 d.toNat)]
  | .str none => .ok []
  | .str (some s) => .ok [.item (encodeStr s)]
  | .list xs => (listPieces xs).map fun ps => [.node (encodeLen xs.length 0x90 0xdc 0xdd) ps]
  | .dict kvs => (dictPieces kvs).map fun ps => [.node (encodeLen kvs.length 0x80 0xde 0xdf) ps]
  | .other => .ok []

def listPieces : List PtrExpr → Except Crash (List Piece)
  | [] => .ok []
  | x :: xs => (pieces x).bind fun ps => (listPieces xs).map (ps ++ ·)

def dictPieces : List (Str × PtrExpr) → Except Crash (List Piece)
  | [] => .ok []
  | (k, x) :: kvs => (encodeKey jsmode k).bind fun t => (pieces x).bind fun ps =>
      (dictPieces kvs).map (.item t :: ps ++ ·)

end

/-- The encoder returns `NULL`, or a message in which every header counts the elements that follow
it, and that is decoded completely. -/
def Clean (e : Env) (x : PtrExpr) : Prop := encode jsmode x = .ok none ∨
  ∃ p, encode jsmode x = .ok (some p.bytes) ∧ pieces jsmode x = .ok [p] ∧ p.Sound ∧
    ∃ y, decode e p.bytes = .ok (y, [])

def hasForm : PtrExpr → Bool
  | .str none | .other => false
  | _ => true

/-- A key that neither fails the assertion nor is written as what is not one value. -/
def KeyFits (k : Str) : Prop := match convertuint k with
  | some _ => True
  | none => match myConvertint k with
    | some i => i.toInt < 0 ∧ (jsmode = true → -2 ^ 31 ≤ i.toInt)
    | none => k.length < 2 ^ 32

/-- The values that are written as they should be. -/
inductive Fits : PtrExpr → Prop
  | null : Fits .null
  | bool {b} : Fits (.bool b)
  | int {i} : (jsmode = true → -2 ^ 31 ≤ i.toInt) → Fits (.int i)
  | uint {u} : Fits (.uint u)
  | double {d} : Fits (.double d)
  | str {s} : s.length < 2 ^ 32 → Fits (.str (some s))
  | list {xs} : xs.countP hasForm = xs.length % 2 ^ 32 →
      (∀ x ∈ xs, hasForm x = true → Fits x) → Fits (.list xs)
  | dict {kvs} : kvs.length < 2 ^ 32 → (∀ kv ∈ kvs, KeyFits jsmode kv.1) →
      (∀ kv ∈ kvs, Fits kv.2) → Fits (.dict kvs)

section Scalars

variable {jsmode} {s t : Str}

theorem one_append (hs : OneValue s) (h : OneValue (s ++ t)) : t = [] :=
  Except.ok.inj (((stops_one.2 hs).append_ok t).unique (stops_one.2 h))

theorem one_tok {t : Msgpack.Tok} (hok : t.Ok) (hkids : t.kids = 0) : OneValue t.bytes := by
  rw [← stops_one, ← decode_ok_iff (MsgpackT.toStr_env (fun _ => []) fun _ => 0)]
  obtain ⟨f, hf⟩ : ∃ f, t.bytes.length = f + 1 :=
    Nat.exists_eq_succ_of_ne_zero fun h => bytes_ne_nil t (List.eq_nil_of_length_eq_zero h)
  have hread := unpack_tok (e := MsgpackT.env (fun _ => []) fun _ => 0) (f := f) hok []
  rw [List.append_nil, ← hf] at hread
  unfold decode
  rw [hread]
  cases t with
  | arr n =>
    have hn : n % 2 ^ 32 = 0 := hkids
    rw [Tok.read, hn]
    exact ⟨_, rfl⟩
  | map n =>
    have hn : n % 2 ^ 32 = 0 := by
      have hkids : 2 * (n % 2 ^ 32) = 0 := hkids
      omega
    rw [Tok.read, hn]
    exact ⟨_, rfl⟩
  | _ => exact ⟨_, rfl⟩

theorem not_one_stray {i : Int64} (h : i.toInt < -2 ^ 31) :
    ¬OneValue (Outbuf.encodeNegativeInt true i) := by
  obtain ⟨hflat, hok, hkids, hlen⟩ := stray_spec h
  rw [← hflat]
  match hs : Tok.stray i with
  | [] | [_] => rw [hs] at hlen; exact absurd hlen (by simp)
  | t :: u :: ts =>
    rw [hs] at hok hkids
    have ht : OneValue t.bytes := one_tok (hok t (.head _)) (by rw [kids_cons] at hkids; omega)
    intro hone
    rw [flat, List.flatMap_cons] at hone
    have hnil := one_append ht hone
    rw [List.flatMap_cons] at hnil
    exact bytes_ne_nil u (List.append_eq_nil_iff.1 hnil).1

theorem one_bytesIn {t : Msgpack.Tok} (hok : t.Ok) (hkids : t.kids = 0)
    (hnear : jsmode = true → t.Near) : OneValue (t.bytesIn jsmode) := by
  cases jsmode with
  | false =>
    have hbytes : t.bytesIn false = t.bytes := by cases t <;> rfl
    rw [hbytes]
    exact one_tok hok hkids
  | true =>
    rw [← bytes_js (hnear rfl)]
    refine one_tok (js_ok hok) ?_
    have hjs := kids_js (t := t)
    rw [hkids] at hjs
    exact hjs

theorem one_neg {i : Int64} (h : i.toInt < 0) :
    OneValue (Outbuf.encodeNegativeInt jsmode i) ↔ (jsmode = true → -2 ^ 31 ≤ i.toInt) := by
  refine ⟨?_, one_bytesIn (t := .neg i) h rfl⟩
  rintro hone rfl
  by_contra hfar
  exact not_one_stray (Int.not_le.1 hfar) hone

theorem one_pos (u : UInt64) : OneValue (Outbuf.encodePositiveInt jsmode u) :=
  one_bytesIn (t := .pos u) trivial rfl fun _ => trivial

theorem one_encodeStr : OneValue (encodeStr s) ↔ s.length < 2 ^ 32 := by
  refine ⟨fun hone => ?_, fun h => one_tok (t := .raw s) h rfl⟩
  by_contra hlong
  have hhead : encodeStr s = 0xdb :: (put 4 s.length ++ s.take (s.length % 2 ^ 32)) ++
      s.drop (s.length % 2 ^ 32) := by
    rw [encodeStr, encodeRawLen, encodeLenWith, if_neg (by omega), if_neg (by omega),
      List.cons_append, List.cons_append, List.append_assoc, List.take_append_drop]
  have hitem : Item (0xdb :: (put 4 s.length ++ s.take (s.length % 2 ^ 32))) 0 := by
    refine .mk (h := .raw 4) rfl (length_put _ _) ?_
    have hget : get 0 (put 4 s.length) = s.length % 2 ^ 32 := by rw [get_put]; simp
    rw [Hook.extra, hget, List.length_take]
    exact Nat.min_eq_left (Nat.mod_le _ _)
  rw [hhead] at hone
  have hnil := congrArg List.length (one_append (Reads.one hitem) hone)
  rw [List.length_drop, List.length_nil] at hnil
  omega

end Scalars

section Headers

variable {n k : Nat}

theorem item_encodeLen {b s l : UInt8} (kids : Nat → Nat)
    (hfix : ∀ n < 16, Item [b ||| .ofNat n] (kids n))
    (hs : ∀ v, Item (s :: put 2 v) (kids (get 0 (put 2 v))))
    (hl : ∀ v, Item (l :: put 4 v) (kids (get 0 (put 4 v)))) :
    Item (encodeLen n b s l) k ↔ k = kids (n % 2 ^ 32) := by
  have hitem : Item (encodeLen n b s l) (kids (n % 2 ^ 32)) := by
    unfold encodeLen encodeLenWith
    split
    · rw [Nat.mod_eq_of_lt (by omega)]
      exact hfix n (by omega)
    · split
      · have hget : get 0 (put 2 n) = n := get_put_lt (by omega)
        have hi := hs n
        rw [hget] at hi
        rwa [Nat.mod_eq_of_lt (by omega)]
      · have hget : get 0 (put 4 n) = n % 2 ^ 32 := by rw [get_put]; simp
        exact hget ▸ hl n
  have hunique (h : Item (encodeLen n b s l) k) : k = kids (n % 2 ^ 32) := by
    have hsame : encodeLen n b s l ++ [] = encodeLen n b s l ++ [] := rfl
    exact (item_free h hitem hsame).2
  exact ⟨hunique, fun h => h ▸ hitem⟩

theorem item_arr : Item (encodeLen n 0x90 0xdc 0xdd) k ↔ k = n % 2 ^ 32 := by
  have htab : ∀ n < 16, unpackTab (0x90 ||| .ofNat n) = some .fixArray ∧
      ((0x90 ||| .ofNat n) ^^^ 0x90 : UInt8).toNat = n := by decide
  refine item_encodeLen id (fun n hn => ?_) (fun v => ?_) fun v => ?_
  · obtain ⟨ht, hx⟩ := htab n hn
    have hi : Item [0x90 ||| .ofNat n] _ := .mk (l := []) (r := []) ht rfl rfl
    rwa [Hook.kids, hx] at hi
  · exact (List.append_nil (put 2 v)) ▸ Item.mk (h := .array 2) rfl (length_put _ _) rfl
  · exact (List.append_nil (put 4 v)) ▸ Item.mk (h := .array 4) rfl (length_put _ _) rfl

theorem item_map : Item (encodeLen n 0x80 0xde 0xdf) k ↔ k = 2 * (n % 2 ^ 32) := by
  have htab : ∀ n < 16, unpackTab (0x80 ||| .ofNat n) = some .fixMap ∧
      ((0x80 ||| .ofNat n) ^^^ 0x80 : UInt8).toNat = n := by decide
  refine item_encodeLen (2 * ·) (fun n hn => ?_) (fun v => ?_) fun v => ?_
  · obtain ⟨ht, hx⟩ := htab n hn
    have hi : Item [0x80 ||| .ofNat n] _ := .mk (l := []) (r := []) ht rfl rfl
    rwa [Hook.kids, hx] at hi
  · exact (List.append_nil (put 2 v)) ▸ Item.mk (h := .map 2) rfl (length_put _ _) rfl
  · exact (List.append_nil (put 4 v)) ▸ Item.mk (h := .map 4) rfl (length_put _ _) rfl

end Headers

section Pieces

variable {jsmode} {p : Piece} {ps : List Piece} {x : PtrExpr}

theorem reads_list {ps : List Piece} (h : ∀ p ∈ ps, OneValue p.bytes) :
    Reads Item ps.length (Piece.bytesList ps) 0 := by
  induction ps with
  | nil => exact .nil
  | cons p ps ih =>
    obtain ⟨hp, hps⟩ := List.forall_mem_cons.1 h
    have hread := hp.add ps.length
    rw [Nat.zero_add, Nat.add_comm] at hread
    exact hread.trans (ih hps)

theorem Piece.Sound.one (h : p.Sound) : OneValue p.bytes := by
  induction h with
  | item h => exact h
  | node hi _ ih =>
    refine .tok hi ?_
    rw [Nat.add_zero]
    exact reads_list ih

theorem bytesList_append (ps qs : List Piece) :
    Piece.bytesList (ps ++ qs) = Piece.bytesList ps ++ Piece.bytesList qs := by
  induction ps with
  | nil => rfl
  | cons p ps ih => rw [List.cons_append, Piece.bytesList, ih, Piece.bytesList, List.append_assoc]

theorem toMsgpack_eq (x : PtrExpr) : toMsgpack jsmode x =
    (pieces jsmode x).map fun ps => (!ps.isEmpty, Piece.bytesList ps) := by
  induction x using PtrExpr.ind with
  | list xs ih =>
    have hlist : listToMsgpack jsmode xs = (listPieces jsmode xs).map Piece.bytesList := by
      induction xs with
      | nil => rfl
      | cons x xs ihx =>
        obtain ⟨hx, hxs⟩ := List.forall_mem_cons.1 ih
        rw [listToMsgpack, listPieces, hx, ihx hxs]
        cases pieces jsmode x <;> cases listPieces jsmode xs <;>
          simp [Except.map, Except.bind, bytesList_append]
    rw [toMsgpack, pieces, hlist]
    cases listPieces jsmode xs <;> simp [Except.map, Piece.bytesList, Piece.bytes]
  | dict kvs ih =>
    have hdict : dictToMsgpack jsmode kvs = (dictPieces jsmode kvs).map Piece.bytesList := by
      induction kvs with
      | nil => rfl
      | cons kv kvs ihx =>
        obtain ⟨hx, hxs⟩ := List.forall_mem_cons.1 ih
        rw [dictToMsgpack, dictPieces, hx, ihx hxs]
        cases encodeKey jsmode kv.1 <;> cases pieces jsmode kv.2 <;>
          cases dictPieces jsmode kvs <;>
            simp [Except.map, Except.bind, bytesList_append, Piece.bytesList, Piece.bytes]
    rw [toMsgpack, pieces, hdict]
    cases dictPieces jsmode kvs <;> simp [Except.map, Piece.bytesList, Piece.bytes]
  | str s => cases s <;> simp [toMsgpack, pieces, Except.map, Piece.bytesList, Piece.bytes]
  | _ => simp [toMsgpack, pieces, Except.map, Piece.bytesList, Piece.bytes]

theorem pieces_length {x : PtrExpr} (h : pieces jsmode x = .ok ps) :
    ps.length = (hasForm x).toNat := by
  cases x with
  | nil => cases h
  | list xs => obtain ⟨qs, -, rfl⟩ := map_ok h; rfl
  | dict kvs => obtain ⟨qs, -, rfl⟩ := map_ok h; rfl
  | str s => cases s <;> cases h <;> rfl
  | _ => cases h; rfl

theorem listPieces_length {xs : List PtrExpr} (h : listPieces jsmode xs = .ok ps) :
    ps.length = xs.countP hasForm := by
  induction xs generalizing ps with
  | nil => cases h; rfl
  | cons x xs ih =>
    obtain ⟨qs, hq, h⟩ := bind_ok h
    obtain ⟨rs, hr, rfl⟩ := map_ok h
    rw [List.length_append, pieces_length hq, ih hr, List.countP_cons, Nat.add_comm]
    cases hasForm x <;> rfl

theorem dictPieces_length {kvs : List (Str × PtrExpr)} (h : dictPieces jsmode kvs = .ok ps) :
    ps.length = kvs.length + kvs.countP fun kv => hasForm kv.2 := by
  induction kvs generalizing ps with
  | nil => cases h; rfl
  | cons kv kvs ih =>
    obtain ⟨t, ht, h⟩ := bind_ok h
    obtain ⟨qs, hq, h⟩ := bind_ok h
    obtain ⟨rs, hr, rfl⟩ := map_ok h
    have hqs := pieces_length hq
    have hrs := ih hr
    rw [List.length_append, List.length_cons, List.length_cons, List.countP_cons, hqs, hrs]
    cases hasForm kv.2 <;> simp <;> omega

/-- The element is written, and written well, if it is written. -/
def Written (jsmode : Bool) (x : PtrExpr) : Prop :=
  ∃ ps, pieces jsmode x = .ok ps ∧ ∀ p ∈ ps, p.Sound

theorem listPieces_iff {xs : List PtrExpr} :
    (∃ ps, listPieces jsmode xs = .ok ps ∧ ∀ p ∈ ps, p.Sound) ↔
      ∀ x ∈ xs, Written jsmode x := by
  induction xs with
  | nil => exact ⟨fun _ => nofun, fun _ => ⟨[], rfl, nofun⟩⟩
  | cons x xs ih =>
    rw [List.forall_mem_cons, ← ih]
    constructor
    · rintro ⟨ps, h, hps⟩
      obtain ⟨qs, hq, h⟩ := bind_ok h
      obtain ⟨rs, hr, rfl⟩ := map_ok h
      obtain ⟨hqs, hrs⟩ := List.forall_mem_append.1 hps
      exact ⟨⟨qs, hq, hqs⟩, rs, hr, hrs⟩
    · rintro ⟨⟨qs, hq, hqs⟩, rs, hr, hrs⟩
      refine ⟨qs ++ rs, ?_, List.forall_mem_append.2 ⟨hqs, hrs⟩⟩
      rw [listPieces, hq, hr]
      rfl

theorem dictPieces_iff {kvs : List (Str × PtrExpr)} :
    (∃ ps, dictPieces jsmode kvs = .ok ps ∧ ∀ p ∈ ps, p.Sound) ↔
      ∀ kv ∈ kvs, (∃ t, encodeKey jsmode kv.1 = .ok t ∧ OneValue t) ∧ Written jsmode kv.2 := by
  induction kvs with
  | nil => exact ⟨fun _ => nofun, fun _ => ⟨[], rfl, nofun⟩⟩
  | cons kv kvs ih =>
    rw [List.forall_mem_cons, ← ih]
    constructor
    · rintro ⟨ps, h, hps⟩
      obtain ⟨t, ht, h⟩ := bind_ok h
      obtain ⟨qs, hq, h⟩ := bind_ok h
      obtain ⟨rs, hr, rfl⟩ := map_ok h
      obtain ⟨hqs, hrs⟩ := List.forall_mem_append.1 hps
      obtain ⟨hkey, hqs⟩ := List.forall_mem_cons.1 hqs
      cases hkey with
      | item hkey => exact ⟨⟨⟨t, ht, hkey⟩, qs, hq, hqs⟩, rs, hr, hrs⟩
    · rintro ⟨⟨⟨t, ht, hkey⟩, qs, hq, hqs⟩, rs, hr, hrs⟩
      refine ⟨.item t :: qs ++ rs, ?_, List.forall_mem_append.2 ⟨?_, hrs⟩⟩
      · rw [dictPieces, ht, hq, hr]
        rfl
      · exact List.forall_mem_cons.2 ⟨.item hkey, hqs⟩

theorem key_iff {k : Str} :
    (∃ t, encodeKey jsmode k = .ok t ∧ OneValue t) ↔ KeyFits jsmode k := by
  unfold encodeKey Outbuf.encodeKey KeyFits
  cases convertuint k with
  | some u => exact ⟨fun _ => trivial, fun _ => ⟨_, rfl, one_pos u⟩⟩
  | none =>
    cases myConvertint k with
    | none =>
      rw [← one_encodeStr]
      constructor
      · rintro ⟨t, ht, hone⟩
        cases ht
        exact hone
      · exact fun hone => ⟨_, rfl, hone⟩
    | some i =>
      by_cases h : i.toInt < 0
      · simp only [if_pos h]
        rw [← one_neg h]
        constructor
        · rintro ⟨t, ht, hone⟩
          cases ht
          exact ⟨h, hone⟩
        · exact fun hone => ⟨_, rfl, hone.2⟩
      · simp only [if_neg h]
        exact ⟨fun ⟨_, ht, _⟩ => (nomatch ht), fun hk => absurd hk.1 h⟩

theorem hasForm_of_fits {x : PtrExpr} (h : Fits jsmode x) : hasForm x = true := by
  cases h <;> rfl

theorem node_iff {c : Except Crash (List Piece)} {header : Str} :
    (∃ p, c.map (fun ps => [Piece.node header ps]) = .ok [p] ∧ p.Sound) ↔
      ∃ ps, (c = .ok ps ∧ ∀ p ∈ ps, p.Sound) ∧ Item header ps.length := by
  constructor
  · rintro ⟨p, h, hp⟩
    obtain ⟨ps, hc, h⟩ := map_ok h
    cases h
    cases hp with
    | node hi hps => exact ⟨ps, ⟨hc, hps⟩, hi⟩
  · rintro ⟨ps, ⟨rfl, hps⟩, hi⟩
    exact ⟨_, rfl, .node hi hps⟩

theorem item_iff {s : Str} : (∃ p, Except.ok (ε := Crash) [Piece.item s] = .ok [p] ∧ p.Sound) ↔
    OneValue s := by
  constructor
  · rintro ⟨p, h, hp⟩
    cases h
    cases hp with
    | item hone => exact hone
  · exact fun hone => ⟨_, rfl, .item hone⟩

theorem written_iff (x : PtrExpr) : Written jsmode x ↔
    hasForm x = false ∨ ∃ p, pieces jsmode x = .ok [p] ∧ p.Sound := by
  constructor
  · rintro ⟨ps, h, hps⟩
    have hlen := pieces_length h
    cases hform : hasForm x with
    | false => exact .inl rfl
    | true =>
      rw [hform] at hlen
      obtain ⟨p, rfl⟩ := List.length_eq_one_iff.1 hlen
      exact .inr ⟨p, h, hps p (.head _)⟩
  · rintro (hform | ⟨p, h, hp⟩)
    · have hnone : pieces jsmode x = .ok [] := by
        cases x with
        | str s => cases s <;> first | rfl | cases hform
        | other => rfl
        | _ => cases hform
      exact ⟨[], hnone, nofun⟩
    · exact ⟨[p], h, fun q hq => List.mem_singleton.1 hq ▸ hp⟩

theorem fits_iff (x : PtrExpr) :
    (∃ p, pieces jsmode x = .ok [p] ∧ p.Sound) ↔ Fits jsmode x := by
  induction x using PtrExpr.ind with
  | nil => exact ⟨fun ⟨_, h, _⟩ => (nomatch h), nofun⟩
  | null => exact item_iff.trans ⟨fun _ => .null, fun _ => one_tok (t := .null) trivial rfl⟩
  | bool b => exact item_iff.trans ⟨fun _ => .bool, fun _ => one_tok (t := .bool b) trivial rfl⟩
  | uint u => exact item_iff.trans ⟨fun _ => .uint, fun _ => one_pos u⟩
  | double d =>
    exact item_iff.trans ⟨fun _ => .double, fun _ => one_tok (t := .double d) trivial rfl⟩
  | other => exact ⟨fun ⟨_, h, _⟩ => (nomatch h), nofun⟩
  | str s =>
    cases s with
    | none => exact ⟨fun ⟨_, h, _⟩ => (nomatch h), nofun⟩
    | some s =>
      refine item_iff.trans (one_encodeStr.trans ⟨.str, fun h => ?_⟩)
      cases h with
      | str h => exact h
  | int i =>
    rw [pieces, item_iff]
    have hint : OneValue (if i.toInt < 0 then Outbuf.encodeNegativeInt jsmode i
        else Outbuf.encodePositiveInt jsmode i.toUInt64) ↔ (jsmode = true → -2 ^ 31 ≤ i.toInt) := by
      split
      · next h => exact one_neg h
      · next h => exact ⟨fun _ _ => by omega, fun _ => one_pos _⟩
    refine hint.trans ⟨.int, fun h => ?_⟩
    cases h with
    | int h => exact h
  | list xs ih =>
    have hall : (∀ x ∈ xs, Written jsmode x) ↔ ∀ x ∈ xs, hasForm x = true → Fits jsmode x := by
      refine forall₂_congr fun x hx => ?_
      rw [written_iff, ih x hx, ← Bool.not_eq_true, imp_iff_not_or]
    rw [pieces, node_iff]
    constructor
    · rintro ⟨ps, hps, hi⟩
      rw [listPieces_length hps.1] at hi
      exact .list (item_arr.1 hi) (hall.1 (listPieces_iff.1 ⟨ps, hps⟩))
    · intro h
      cases h with
      | list hcount hfits =>
        obtain ⟨ps, hps⟩ := listPieces_iff.2 (hall.2 hfits)
        refine ⟨ps, hps, item_arr.2 ?_⟩
        rw [listPieces_length hps.1, hcount]
  | dict kvs ih =>
    have hall : (∀ kv ∈ kvs, Written jsmode kv.2) ↔
        ∀ kv ∈ kvs, hasForm kv.2 = false ∨ Fits jsmode kv.2 := by
      refine forall₂_congr fun kv hkv => ?_
      rw [written_iff, ih kv hkv]
    have hcount := List.countP_le_length (p := fun kv : Str × PtrExpr => hasForm kv.2) (l := kvs)
    rw [pieces, node_iff]
    constructor
    · rintro ⟨ps, hps, hi⟩
      have hkvs := dictPieces_iff.1 ⟨ps, hps⟩
      have hvals := hall.1 fun kv hkv => (hkvs kv hkv).2
      have hlen := item_map.1 hi
      -- a key has a form, so no value may be missing
      rw [dictPieces_length hps.1] at hlen
      have hforms : kvs.countP (fun kv => hasForm kv.2) = kvs.length := by omega
      rw [List.countP_eq_length] at hforms
      refine .dict (by omega) (fun kv hkv => key_iff.1 (hkvs kv hkv).1) fun kv hkv => ?_
      exact (hvals kv hkv).resolve_left (Bool.eq_false_iff.not_left.2 (hforms kv hkv))
    · intro h
      cases h with
      | dict hlt hkeys hfits =>
        obtain ⟨ps, hps⟩ := dictPieces_iff.2 fun kv hkv =>
          ⟨key_iff.2 (hkeys kv hkv), hall.2 (fun kv hkv => .inr (hfits kv hkv)) kv hkv⟩
        have hforms : kvs.countP (fun kv => hasForm kv.2) = kvs.length :=
          List.countP_eq_length.2 fun kv hkv => hasForm_of_fits (hfits kv hkv)
        refine ⟨ps, hps, item_map.2 ?_⟩
        rw [dictPieces_length hps.1, hforms, Nat.mod_eq_of_lt hlt, Nat.two_mul]

theorem encode_eq (x : PtrExpr) : encode jsmode x = (pieces jsmode x).map fun ps =>
    if ps.isEmpty then none else some (Piece.bytesList ps) := by
  rw [encode, toMsgpack_eq]
  cases pieces jsmode x with
  | error => rfl
  | ok ps => cases ps <;> rfl

theorem encode_none_iff (x : PtrExpr) : encode jsmode x = .ok none ↔ hasForm x = false := by
  rw [encode_eq]
  constructor
  · intro h
    obtain ⟨ps, hps, h⟩ := map_ok h
    have hlen := pieces_length hps
    cases ps with
    | nil => cases hform : hasForm x with
      | false => rfl
      | true => rw [hform] at hlen; cases hlen
    | cons p ps => cases h
  · intro hform
    obtain ⟨ps, hps, -⟩ := (written_iff x).2 (.inl hform)
    have hlen := pieces_length hps
    rw [hform] at hlen
    rw [hps, List.eq_nil_of_length_eq_zero hlen]
    rfl

/-- Encoding fails cleanly on exactly the values that fit, and on those that have no form
themselves. -/
theorem clean_iff_fits (text : Pub3 → Str) (widen : Str → UInt64) (jsmode : Bool) (x : PtrExpr) :
    Clean jsmode (MsgpackT.env text widen) x ↔ hasForm x = false ∨ Fits jsmode x := by
  unfold Clean
  rw [encode_none_iff, ← fits_iff]
  refine or_congr_right (exists_congr fun p => ?_)
  constructor
  · rintro ⟨-, hpiece, hsound, -⟩
    exact ⟨hpiece, hsound⟩
  · rintro ⟨hpiece, hsound⟩
    refine ⟨?_, hpiece, hsound, ?_⟩
    · rw [encode_eq, hpiece]
      exact congrArg (fun s => Except.ok (some s)) (List.append_nil p.bytes)
    · rw [decode_ok_iff (MsgpackT.toStr_env text widen), stops_one]
      exact hsound.one

/-- `x[1] = 1` on an empty list leaves a slot with nothing in it. -/
theorem not_clean_slot : ¬∀ text widen jsmode x, Clean jsmode (MsgpackT.env text widen) x := by
  intro h
  obtain h | ⟨p, h, -⟩ := h (fun _ => []) (fun _ => 0) false (.list [.nil, .int 1])
  · cases h
  · cases h

end Pieces

end MsgpackPtr

end Okws
