import Okws.Lib.Cursor
import Okws.MsgpackPrefix

namespace Okws

namespace MsgpackT

open BigEndian Lib Msgpack

abbrev Decoder := Lib.Reader UInt8 Errno

/-- Nothing sets `_my_errno` at the end. -/
def peekByte : Decoder UInt8 := Lib.Reader.peek

def getByte : Decoder UInt8 := Lib.Reader.item

def consumeByte : Decoder Unit := do
  let _ ← getByte
  pure ()

def getBytes (n : Nat) : Decoder Str := Lib.Reader.items .eagain n

variable (e : Env)

def unpackArray (unpack : Decoder Pub3) : Nat → Decoder (List Pub3)
  | 0 => pure []
  | n + 1 => do
    let x ← unpack
    let xs ← unpackArray unpack n
    pure (x :: xs)

def unpackMap (unpack : Decoder Pub3) :
    Nat → List (Str × Pub3) → Decoder (List (Str × Pub3))
  | 0, d => pure d
  | n + 1, d => do
    let k ← unpack
    match e.toStr k with
    | none => unpackMap unpack n d
    | some ks =>
      let v ← unpack
      unpackMap unpack n (insert ks v d)

def unpackRaw (n : Nat) : Decoder Pub3 := do
  let m ← getBytes n
  pure (.str m)

/-- The functions of the table; the type byte is still there. -/
def call (unpack : Decoder Pub3) : Hook → Decoder Pub3
  | .positiveFixnum => do
    let b ← getByte
    pure (.int (.ofNat b.toNat))
  | .negativeFixnum => do
    let l ← getBytes 1
    pure (.int (.ofInt (getInt l)))
  | .fixMap => do
    let b ← getByte
    let d ← unpackMap e unpack (b ^^^ 0x80).toNat []
    pure (.dict d)
  | .fixArray => do
    let b ← getByte
    let xs ← unpackArray unpack (b ^^^ 0x90).toNat
    pure (.list xs)
  | .fixRaw => do
    let b ← getByte
    unpackRaw (b ^^^ 0xa0).toNat
  | .nil => do
    consumeByte
    pure .null
  | .bool b => do
    consumeByte
    pure (.bool b)
  | .float => do
    consumeByte
    let l ← getBytes 4
    pure (.double (e.widen l))
  | .double => do
    consumeByte
    let l ← getBytes 8
    pure (.double (.ofNat (get 0 l)))
  | .uint w => do
    consumeByte
    let l ← getBytes w
    pure (if w = 8 then .uint (.ofNat (get 0 l)) else .int (.ofNat (get 0 l)))
  | .int w => do
    consumeByte
    let l ← getBytes w
    pure (.int (.ofInt (getInt l)))
  | .raw w => do
    consumeByte
    let l ← getBytes w
    unpackRaw (get 0 l)
  | .array w => do
    consumeByte
    let l ← getBytes w
    let xs ← unpackArray unpack (get 0 l)
    pure (.list xs)
  | .map w => do
    consumeByte
    let l ← getBytes w
    let d ← unpackMap e unpack (get 0 l) []
    pure (.dict d)

/-- `unpack`; the number bounds the nesting, and the length of the message is enough. -/
def unpack : Nat → Decoder Pub3
  | 0 => failure
  | f + 1 => do
    let b ← peekByte
    match unpackTab b with
    | some h => call e (unpack f) h
    | none => Lib.Reader.fail .einval

/-- The value, `*errno_p` and `*len_p`. -/
structure Decoded where
  val : Option Pub3
  errno : Errno
  len : Nat

def decode (msg : Str) : Decoded :=
  let (val, b) := (unpack e msg.length).run ⟨msg, 0, .none⟩
  ⟨val, b.err, b.pos⟩

section Tracks

variable {e} {u : Str → Except Errno (Pub3 × Str)} {m : Decoder Pub3} {buf s : Str} {pos : Nat}

/-- From every position on the two decoders take the same. -/
def Follows (m : Decoder Pub3) (u : Str → Except Errno (Pub3 × Str)) (buf : Str) : Prop :=
  ∀ pos ≤ buf.length, Tracks .none buf pos m (u (buf.drop pos))

theorem tracks_getBytes (h : pos ≤ buf.length) (n : Nat) :
    Tracks .none buf pos (getBytes n) (Msgpack.getBytes n (buf.drop pos)) :=
  tracks_items h n

theorem tracks_array (hm : Follows m u buf) (n : Nat) (h : pos ≤ buf.length) :
    Tracks .none buf pos (unpackArray m n) (Msgpack.unpackArray u n (buf.drop pos)) := by
  induction n generalizing pos with
  | zero => exact tracks_pure h []
  | succ n ih => exact (hm pos h).bind fun x p hp => (ih hp).map fun _ _ => rfl

theorem tracks_map (hm : Follows m u buf) (n : Nat) (d : List (Str × Pub3))
    (h : pos ≤ buf.length) :
    Tracks .none buf pos (unpackMap e m n d) (Msgpack.unpackMap e u n d (buf.drop pos)) := by
  induction n generalizing pos d with
  | zero => exact tracks_pure h d
  | succ n ih =>
    refine (hm pos h).bind fun k p hp => ?_
    dsimp only
    cases e.toStr k with
    | none => exact ih d hp
    | some ks => exact (hm p hp).bind fun v q hq => ih (insert ks v d) hq

theorem tracks_raw (n : Nat) (h : pos ≤ buf.length) :
    Tracks .none buf pos (unpackRaw n) (Msgpack.unpackRaw n (buf.drop pos)) :=
  (tracks_getBytes h n).map fun _ _ => rfl

theorem tracks_consumeByte {b : UInt8} (hs : buf.drop pos = b :: s) :
    Tracks .none buf pos consumeByte (.ok ((), s)) :=
  (tracks_item hs).bind_ok fun _ hp h => h ▸ tracks_pure hp ()

theorem tracks_unpack (f : Nat) (h : pos ≤ buf.length) :
    Tracks .none buf pos (unpack e f) (Msgpack.unpack e f (buf.drop pos)) := by
  induction f generalizing pos with
  | zero =>
    have hfail : Msgpack.unpack e 0 (buf.drop pos) = .error .none := by
      cases buf.drop pos <;> rfl
    rw [hfail]
    exact ⟨pos, Nat.le_refl pos, h, rfl⟩
  | succ f ih =>
    have hm : Follows (unpack e f) (Msgpack.unpack e f) buf := fun p hp => ih hp
    cases hs : buf.drop pos with
    | nil => exact (tracks_peek_end h hs).bind_error
    | cons b s =>
      refine (tracks_peek hs).bind_ok fun p hp hps => ?_
      cases htab : unpackTab b with
      | none =>
        simp only [Msgpack.unpack, htab]
        exact tracks_fail hp _
      | some hook =>
        cases hook <;> simp only [Msgpack.unpack, htab, call]
        case positiveFixnum =>
          refine (tracks_item hps.symm).bind_ok fun q hq hqs => ?_
          exact hqs ▸ tracks_pure hq _
        case negativeFixnum =>
          have hone : Msgpack.getBytes 1 (buf.drop p) = .ok ([b], s) := by
            rw [← hps]
            exact if_pos (by simp)
          refine (hone ▸ tracks_getBytes hp 1).bind_ok fun q hq hqs => ?_
          exact hqs ▸ tracks_pure hq _
        case fixMap =>
          refine (tracks_item hps.symm).bind_ok fun q hq hqs => ?_
          exact hqs ▸ (tracks_map hm _ [] hq).map fun _ _ => rfl
        case fixArray =>
          refine (tracks_item hps.symm).bind_ok fun q hq hqs => ?_
          exact hqs ▸ (tracks_array hm _ hq).map fun _ _ => rfl
        case fixRaw =>
          refine (tracks_item hps.symm).bind_ok fun q hq hqs => ?_
          exact hqs ▸ tracks_raw _ hq
        all_goals
          refine (tracks_consumeByte hps.symm).bind_ok fun q hq hqs => ?_
          subst hqs
        case nil | bool c => exact tracks_pure hq _
        case float | double | uint w | int w => exact (tracks_getBytes hq _).map fun _ _ => rfl
        case raw w => exact (tracks_getBytes hq w).bind fun l p' hp' => tracks_raw _ hp'
        case array w =>
          exact (tracks_getBytes hq w).bind fun l p' hp' =>
            (tracks_array hm _ hp').map fun _ _ => rfl
        case map w =>
          exact (tracks_getBytes hq w).bind fun l p' hp' =>
            (tracks_map hm _ [] hp').map fun _ _ => rfl

theorem decode_ok {x : Pub3} {r : Str} (h : Msgpack.decode e s = .ok (x, r)) :
    ∃ p, s = p ++ r ∧ decode e s = ⟨some x, .none, p.length⟩ := by
  obtain ⟨p, -, hlen, htracks⟩ := tracks_unpack (e := e) s.length (Nat.zero_le s.length)
  rw [List.drop_zero, show Msgpack.unpack e s.length s = _ from h] at htracks
  obtain ⟨rfl, hrun⟩ := htracks
  refine ⟨s.take p, (List.take_append_drop p s).symm, ?_⟩
  rw [decode, hrun, List.length_take_of_le hlen]

theorem decode_error {err : Errno} (h : Msgpack.decode e s = .error err) :
    ∃ n ≤ s.length, decode e s = ⟨none, err, n⟩ := by
  obtain ⟨p, -, hlen, htracks⟩ := tracks_unpack (e := e) s.length (Nat.zero_le s.length)
  rw [List.drop_zero, show Msgpack.unpack e s.length s = _ from h] at htracks
  refine ⟨p, hlen, ?_⟩
  rw [decode, htracks]

theorem len_decode (e : Env) (s : Str) : (decode e s).len ≤ s.length := by
  cases h : Msgpack.decode e s with
  | ok a =>
    obtain ⟨p, hs, hd⟩ := decode_ok (show Msgpack.decode e s = .ok (a.1, a.2) from h)
    rw [hd, hs, List.length_append]
    exact Nat.le_add_right _ _
  | error err =>
    obtain ⟨n, hn, hd⟩ := decode_error h
    rw [hd]
    exact hn

theorem decode_error_iff {err : Errno} : (decode e s).val = none ∧ (decode e s).errno = err ↔
    Msgpack.decode e s = .error err := by
  cases h : Msgpack.decode e s with
  | ok a =>
    obtain ⟨p, -, hd⟩ := decode_ok (show Msgpack.decode e s = .ok (a.1, a.2) from h)
    simp [hd]
  | error err =>
    obtain ⟨n, -, hd⟩ := decode_error h
    simp [hd]

theorem decode_some_iff {x : Pub3} : decode e s = ⟨some x, .none, s.length⟩ ↔
    Msgpack.decode e s = .ok (x, []) := by
  constructor
  · intro hd
    cases h : Msgpack.decode e s with
    | ok a =>
      obtain ⟨y, r⟩ := a
      obtain ⟨p, hs, hd'⟩ := decode_ok h
      obtain ⟨hx, -, hlen⟩ := Decoded.mk.inj (hd'.symm.trans hd)
      have hr : r = [] := by
        rw [hs, List.length_append] at hlen
        exact List.length_eq_zero_iff.1 (by omega)
      rw [hr, Option.some.inj hx]
    | error err =>
      obtain ⟨n, -, hd'⟩ := decode_error h
      exact nomatch (Decoded.mk.inj (hd'.symm.trans hd)).1
  · intro h
    obtain ⟨p, hs, hd⟩ := decode_ok h
    rw [hd, hs, List.append_nil]

end Tracks

section Prefix

variable (text : Pub3 → Str) (widen : Str → UInt64)

/-- `to_str` of a value that was decoded is never `NULL`. -/
def env : Env := ⟨fun x => some (text x), widen⟩

/-- The message is taken as a value, whatever follows. -/
def Gives (e : Env) (m t : Str) : Prop := ∃ x, decode e m = ⟨some x, .none, m.length⟩ ∧
  decode e (m ++ t) = ⟨some x, .none, m.length⟩

def Waits (e : Env) (s : Str) : Prop := (decode e s).val = none ∧ (decode e s).errno = .eagain

def Completable (e : Env) (s : Str) : Prop := ∃ t, (decode e (s ++ t)).val ≠ none

/-- If there is no value, the error number says whether more bytes can help. -/
def Told (e : Env) (s : Str) : Prop := (decode e s).val = none →
  (Completable e s → (decode e s).errno = .eagain) ∧
    (¬ Completable e s → (decode e s).errno = .einval)

variable {m p s t : Str}

theorem toStr_env (x : Pub3) : ∃ t, (env text widen).toStr x = some t := by
  cases x <;> exact ⟨_, rfl⟩

theorem gives_iff : Gives (env text widen) m t ↔ OneValue m := by
  rw [← stops_one, ← decode_ok_iff (toStr_env text widen)]
  constructor
  · rintro ⟨x, hx, -⟩
    exact ⟨x, decode_some_iff.1 hx⟩
  · rintro ⟨x, hx⟩
    refine ⟨x, decode_some_iff.2 hx, ?_⟩
    obtain ⟨p, hp, hd⟩ := decode_ok (decode_append hx t)
    rw [List.nil_append] at hp
    rw [hd, List.append_cancel_right hp]

theorem error_iff {err : Errno} : (decode (env text widen) s).val = none ∧
    (decode (env text widen) s).errno = err ↔ Stops 1 s (.error err) := by
  rw [decode_error_iff, Msgpack.decode_error_iff (toStr_env text widen)]

theorem waits_inside : Waits (env text widen) s ↔ Msgpack.Inside s :=
  (error_iff text widen).trans stops_inside

theorem one_iff_sized {x : Pub3} (hp : Pub3.All Msgpack.Plain x) (h : toMsgpack x = some m) :
    OneValue m ↔ Pub3.All Msgpack.Sized x := by
  rw [toMsgpack_eq] at h
  obtain ⟨ts, hts, rfl⟩ := Option.map_eq_some_iff.1 h
  rw [← stops_one, ← decode_ok_iff (toStr_env (fun _ => []) fun _ => 0)]
  constructor
  · rintro ⟨y, hy⟩
    exact sized_of_decode hp hts hy
  · exact fun hs => ⟨_, decode_toks hp hs hts⟩

theorem completable_of_one (h : ∃ t, OneValue (s ++ t)) : Completable (env text widen) s := by
  obtain ⟨t, ht⟩ := h
  obtain ⟨x, hx, -⟩ := (gives_iff (t := []) text widen).2 ht
  exact ⟨t, by simp [hx]⟩

theorem not_completable (h : Stops 1 s (.error .einval)) : ¬ Completable (env text widen) s := by
  rintro ⟨t, ht⟩
  exact ht ((error_iff text widen).2 (h.append_einval t)).1

theorem told_iff : Told (env text widen) s ↔ ¬ Boundary s := by
  cases h : Msgpack.decode (env text widen) s with
  | ok a =>
    have hstop : Stops 1 s (.ok a.2) := (decode_ok_iff (toStr_env text widen)).1 ⟨a.1, h⟩
    obtain ⟨p, -, hd⟩ := decode_ok (show Msgpack.decode _ s = .ok (a.1, a.2) from h)
    have htold : Told (env text widen) s := fun hnone => by simp [hd] at hnone
    exact iff_of_true htold fun hb => nomatch hstop.unique (stops_boundary.2 hb)
  | error err =>
    obtain ⟨hval, herr⟩ := decode_error_iff.2 h
    have hstop := (error_iff text widen).1 ⟨hval, herr⟩
    cases err with
    | none =>
      have hb := stops_boundary.1 hstop
      refine iff_of_false (fun htold => ?_) (not_not_intro hb)
      have hagain := (htold hval).1 (completable_of_one text widen (exists_one_of_boundary hb))
      exact nomatch herr.symm.trans hagain
    | eagain =>
      have hc := completable_of_one text widen (exists_one_of_inside (stops_inside.1 hstop))
      refine iff_of_true (fun _ => ⟨fun _ => herr, fun hn => absurd hc hn⟩) fun hb => ?_
      exact nomatch hstop.unique (stops_boundary.2 hb)
    | einval =>
      have hc := not_completable text widen hstop
      refine iff_of_true (fun _ => ⟨fun h => absurd h hc, fun _ => herr⟩) fun hb => ?_
      exact nomatch hstop.unique (stops_boundary.2 hb)

/-- A message is taken whole, whatever follows, if it is one value, as the encoded values are whose
sizes fit; its beginnings are waited for, and the error number is right, if the input does not end
where a type byte is expected. -/
theorem prefix_iff :
    (∀ m t, Gives (env text widen) m t ↔ OneValue m) ∧
      (∀ x m, Pub3.All Msgpack.Plain x → toMsgpack x = some m →
        (OneValue m ↔ Pub3.All Msgpack.Sized x)) ∧
      (∀ p, Waits (env text widen) p ↔ Msgpack.Inside p) ∧
      (∀ m p, OneValue m → p <+: m → p ≠ m → (Waits (env text widen) p ↔ ¬ Boundary p)) ∧
      ∀ s, (Told (env text widen) s ↔ ¬ Boundary s) ∧
        (decode (env text widen) s).len ≤ s.length :=
  ⟨fun _ _ => gives_iff text widen, fun _ _ => one_iff_sized, fun _ => waits_inside text widen,
    fun _ _ hm hp hne => (waits_inside text widen).trans (inside_iff_of_one hm hp hne),
    fun s => ⟨told_iff text widen, len_decode _ s⟩⟩

/-- A list of one text, cut behind its type byte, and the encoding of the list. -/
theorem prefix_iff_text :
    (OneValue [0x91, 0xa1, 0x61] ↔ Pub3.All Msgpack.Sized (.list [.str [0x61]])) ∧
      (Waits (env (fun _ => []) fun _ => 0) [0x91, 0xa1] ↔ ¬ Boundary [0x91, 0xa1]) := by
  have hplain : Pub3.All Msgpack.Plain (.list [.str [0x61]]) := Pub3.all_list.2
    ⟨trivial, List.forall_mem_singleton.2 (Pub3.all_str.2 (show [0x61].length < 2 ^ 32 by decide))⟩
  have hitem : Item [0x91] 1 := .mk (h := .fixArray) (l := []) (r := []) rfl rfl rfl
  have htext : Item [0xa1, 0x61] 0 := .mk (h := .fixRaw) (l := []) (r := [0x61]) rfl rfl rfl
  have hone : OneValue [0x91, 0xa1, 0x61] := .tok hitem (.tok htext .nil)
  exact ⟨(prefix_iff (fun _ => []) fun _ => 0).2.1 _ _ hplain rfl,
    (prefix_iff (fun _ => []) fun _ => 0).2.2.2.1 _ _ hone ⟨[0x61], rfl⟩ (by decide)⟩

/-- In front of the element of a list nothing sets the error number. -/
theorem not_waits_list : ¬ ∀ (text : Pub3 → Str) (widen : Str → UInt64) (x : Pub3) (m p : Str),
    toMsgpack x = some m → p <+: m → p ≠ m → Waits (env text widen) p := by
  intro h
  have hagain := (h (fun _ => []) (fun _ => 0) (.list [.null]) [0x91, 0xc0] [0x91] rfl
    ⟨[0xc0], rfl⟩ (by decide)).2
  cases hagain

end Prefix

end MsgpackT

end Okws
