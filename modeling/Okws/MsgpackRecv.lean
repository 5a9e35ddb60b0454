import Mathlib.Data.List.Induction
import Okws.MsgpackRound

/-! `axprt_inner` of MessagePack-RPC: how messages are framed and received. -/

namespace Okws

/-- What a read gives; data is at least one byte. -/
inductive ReadRes
  | data (b : UInt8) (l : Str)
  | eagain
  | eof
  | error

/-- Where `dispatch` is: in `recv_json`, for a length or for a message, or behind its loop. -/
inductive RecvAt
  | reading (body : Bool) (needed : Nat)
  | stopped
  | aborted

structure AxprtIn where
  inbuf : Str
  pc : RecvAt
  out : List Pub3

namespace Msgpack

open BigEndian Scalar Zbuf Pub3

/-- The bytes that `send` writes: the length of the message, and the message. -/
def frame (x : Pub3) : Option Str :=
  (toMsgpack x).bind fun dat => (toMsgpack (.int (.ofNat dat.length))).map (· ++ dat)

/-- `to_int`; `trunc` makes an integer of a double. -/
def toInt (trunc : UInt64 → Int64) : Pub3 → Option Int64
  | .int i => some i
  | .uint u => if u.toNat < 2 ^ 63 then some (.ofNat u.toNat) else none
  | .bool b => some (if b then 1 else 0)
  | .str s => myConvertint s
  | .double d => some (trunc d)
  | _ => none

end Msgpack

namespace AxprtIn

open Msgpack

variable (e : Env) (trunc : UInt64 → Int64)

def init : AxprtIn := ⟨[], .reading false 0, []⟩

def getStr (needed : Nat) (buf : Str) : Str := if needed = 0 then buf else buf.take needed

/-- `decode` of what is needed, and the buffer without the bytes that were taken. -/
def decodeBuf (needed : Nat) (buf : Str) : Except Errno (Pub3 × Str) :=
  (decode e (getStr needed buf)).map fun (x, r) =>
    (x, buf.drop ((getStr needed buf).length - r.length))

/-- Calls of `recv_json` as long as the buffer has what they need.  Each takes a byte at least, so
the length of the buffer bounds their number. -/
def advance : Nat → Bool → Nat → Str → List Pub3 → AxprtIn
  | 0, body, needed, buf, out => ⟨buf, .reading body needed, out⟩
  | f + 1, body, needed, buf, out =>
    if needed ≤ buf.length then match decodeBuf e needed buf with
      | .ok (x, buf) =>
        if body then advance f false 0 buf (out ++ [x])
        else match toInt trunc x with
          | some len => advance f true len.toUInt64.toNat buf out
          -- `dispatch` goes on and calls `recv` once more, which asserts that it is open
          | none => match decodeBuf e 0 buf with
            | .ok (_, buf) => ⟨buf, .aborted, out⟩
            | .error _ => ⟨buf, .stopped, out⟩
      | .error _ => ⟨buf, .reading body needed, out⟩
    else ⟨buf, .reading body needed, out⟩

/-- What `recv_json` does with a read. -/
def input (s : AxprtIn) (r : ReadRes) : AxprtIn := match s.pc with
  | .reading body needed => match r with
    | .data b l =>
      let buf := s.inbuf ++ b :: l
      if needed ≠ 0 ∧ buf.length < needed then { s with inbuf := buf }
      else match decodeBuf e needed buf with
        | .ok _ => advance e trunc buf.length body needed buf s.out
        | .error .eagain => { s with inbuf := buf }
        | .error _ => ⟨buf, .stopped, s.out⟩
    | .eagain => if s.inbuf = [] then s else { s with pc := .stopped }
    | .eof | .error => { s with pc := .stopped }
  | _ => s

def run (rs : List ReadRes) : AxprtIn := rs.foldl (input e trunc) init

def received (rs : List ReadRes) : Str := rs.flatMap fun
  | .data b l => b :: l
  | _ => []

def stream : List Pub3 → Option Str
  | [] => some []
  | x :: xs => (frame x).bind fun s => (stream xs).map (s ++ ·)

/-- The connection is open, and the messages whose bytes have come, and no others, are delivered
in order. -/
def Delivered (b : Bool) (xs : List Pub3) (s : Str) (a : AxprtIn) : Prop :=
  (∃ body needed, a.pc = .reading body needed) ∧
  ∃ k ≤ xs.length, List.Forall₂ (Pub3.Same b) a.out (xs.take k) ∧
    (∃ p, stream (xs.take k) = some p ∧ p <+: s) ∧
    (k < xs.length → ∀ p, stream (xs.take (k + 1)) = some p → ¬ p <+: s)

/-- A message that `encode` and `decode` leave as it is, and that fits into memory. -/
def Fits (b : Bool) (x : Pub3) : Prop :=
  x.All Msgpack.Plain ∧ x.All (fun y => Sized y ∧ Kept b y) ∧
    ∀ dat, toMsgpack x = some dat → dat.length < 2 ^ 63

/-- No read returns `EAGAIN` while something is in the buffer. -/
def Calm (rs : List ReadRes) : Prop :=
  ∀ as bs, rs = as ++ .eagain :: bs → (run e trunc as).inbuf = []

end AxprtIn

/-- A message whose bytes `decode` takes as one value, and that fits into memory. -/
structure Msg where
  val : Pub3
  dat : Str
  plain : val.All Msgpack.Plain
  sized : val.All Msgpack.Sized
  enc : Msgpack.toMsgpack val = some dat
  small : dat.length < 2 ^ 63

namespace Msg

open Msgpack

def len (m : Msg) : UInt64 := (Int64.ofNat m.dat.length).toUInt64

def bytes (m : Msg) : Str := encodePositiveInt m.len ++ m.dat

theorem len_toNat (m : Msg) : m.len.toNat = m.dat.length := by
  have hsmall := m.small
  have hint := toInt_ofNat m.small
  have hmod := toUInt64_mod (Int64.ofNat m.dat.length) (Nat.le_refl 8)
  have hlt := m.len.toNat_lt
  rw [hint] at hmod
  unfold len at *
  omega

theorem frame_eq (m : Msg) : frame m.val = some m.bytes := by
  have hint := toInt_ofNat m.small
  have hneg : ¬ (Int64.ofNat m.dat.length).toInt < 0 := by omega
  rw [frame, m.enc, Option.bind_some, toMsgpack, Outbuf.toMsgpack, if_neg hneg]
  rfl

variable {e : Env} {trunc : UInt64 → Int64}

theorem dat_pos (m : Msg) : 0 < m.dat.length := by
  have henc := m.enc
  rw [toMsgpack_eq] at henc
  obtain ⟨ts, hts, hdat⟩ := Option.map_eq_some_iff.1 henc
  refine Nat.pos_of_ne_zero fun h => ?_
  have hle := (sized_of_kids m.val hts).1
  rw [flat_eq_nil (hdat.trans (List.length_eq_zero_iff.1 h))] at hle
  exact absurd hle (by simp)

theorem decode_dat (m : Msg) : decode e m.dat = .ok (Msgpack.norm m.val, []) := by
  have henc := m.enc
  rw [toMsgpack_eq] at henc
  obtain ⟨ts, hts, hdat⟩ := Option.map_eq_some_iff.1 henc
  rw [← hdat]
  exact decode_toks m.plain m.sized hts

theorem toInt_ofPos (m : Msg) : toInt trunc (ofPos m.len) = some (Int64.ofNat m.dat.length) := by
  have hsmall := m.small
  unfold ofPos
  rw [m.len_toNat]
  split
  · rfl
  · rw [toInt, m.len_toNat, if_pos hsmall]

end Msg

namespace Msgpack

open BigEndian

variable {e : Env}

theorem encodePositiveInt_ne_nil (u : UInt64) : encodePositiveInt u ≠ [] := bytes_ne_nil (.pos u)

theorem decode_pos (u : UInt64) (s : Str) :
    decode e (encodePositiveInt u ++ s) = .ok (ofPos u, s) := by
  have hpos := List.length_pos_of_ne_nil (encodePositiveInt_ne_nil u)
  obtain ⟨f, hf⟩ : ∃ f, (encodePositiveInt u ++ s).length = f + 1 :=
    ⟨(encodePositiveInt u ++ s).length - 1, by rw [List.length_append]; omega⟩
  rw [decode, hf]
  exact unpack_pos u

theorem decode_cut {u : UInt64} {p q : Str} (hp : p ≠ []) (hq : q ≠ [])
    (h : p ++ q = encodePositiveInt u) : decode e p = .error .eagain := by
  obtain ⟨b, p, rfl⟩ := List.exists_cons_of_ne_nil hp
  have hcut {w v : Nat} {c : UInt8} (htab : unpackTab c = some (.uint w))
      (h : b :: p ++ q = c :: put w v) : decode e (b :: p) = .error .eagain := by
    obtain ⟨rfl, hpq⟩ := List.cons.inj h
    have hlen : (p ++ q).length = (put w v).length := congrArg List.length hpq
    have hq := List.length_pos_of_ne_nil hq
    rw [List.length_append, length_put] at hlen
    have hget : getBytes w p = .error .eagain := if_neg (by omega)
    simp only [decode, List.length_cons, unpack, htab, hget]
    rfl
  unfold encodePositiveInt Outbuf.encodePositiveInt at h
  simp only [Bool.false_eq_true, if_false] at h
  split at h
  · have hlen := congrArg List.length h
    have hq := List.length_pos_of_ne_nil hq
    rw [length_put, List.length_append, List.length_cons] at hlen
    omega
  · split at h
    · exact hcut rfl h
    · split at h
      · exact hcut rfl h
      · split at h
        · exact hcut rfl h
        · exact hcut rfl h

end Msgpack

namespace AxprtIn

open Msgpack

variable {e : Env} {trunc : UInt64 → Int64}

def frames (ms : List Msg) : Str := ms.flatMap Msg.bytes

theorem frames_cons (m : Msg) (ms : List Msg) :
    frames (m :: ms) = encodePositiveInt m.len ++ (m.dat ++ frames ms) :=
  List.append_assoc ..

/-- `recv_json` waits for the length of the next message, or for its rest. -/
inductive Waits : List Msg → Str → RecvAt → Str → Prop
  | start : Waits [] [] (.reading false 0) []
  | length {m ms buf} : buf.length < (encodePositiveInt m.len).length →
      Waits (m :: ms) buf (.reading false 0) buf
  | body {m ms buf} : buf.length < m.dat.length →
      Waits (m :: ms) (encodePositiveInt m.len ++ buf) (.reading true m.dat.length) buf

/-- The messages `ms` were behind `out`, and of their bytes `buf` has come. -/
def Got (ms : List Msg) (buf : Str) (out : List Pub3) (s : AxprtIn) : Prop :=
  ∃ as bs r, ms = as ++ bs ∧ buf = frames as ++ r ∧
    s.out = out ++ as.map (fun m => Msgpack.norm m.val) ∧ Waits bs r s.pc s.inbuf

theorem Got.cons {m : Msg} {ms : List Msg} {buf : Str} {out : List Pub3} {s : AxprtIn}
    (h : Got ms buf (out ++ [Msgpack.norm m.val]) s) : Got (m :: ms) (m.bytes ++ buf) out s := by
  obtain ⟨as, bs, r, rfl, rfl, hout, hw⟩ := h
  refine ⟨m :: as, bs, r, rfl, ?_, ?_, hw⟩
  · simp [frames]
  · simpa using hout

theorem decodeBuf_length (m : Msg) (buf : Str) :
    decodeBuf e 0 (encodePositiveInt m.len ++ buf) = .ok (ofPos m.len, buf) := by
  rw [decodeBuf, getStr, if_pos rfl, decode_pos]
  simp [Except.map]

theorem decodeBuf_body (m : Msg) (buf : Str) :
    decodeBuf e m.dat.length (m.dat ++ buf) = .ok (Msgpack.norm m.val, buf) := by
  have hpos := m.dat_pos
  have hget : getStr m.dat.length (m.dat ++ buf) = m.dat := by
    rw [getStr, if_neg (by omega), List.take_left]
  rw [decodeBuf, hget, m.decode_dat]
  simp [Except.map]

theorem prefix_cases {a b c d : Str} (h : a ++ b = c ++ d) :
    a.length < c.length ∧ (∃ q, q ≠ [] ∧ a ++ q = c) ∨ ∃ r, a = c ++ r ∧ r ++ b = d := by
  obtain ⟨q, hc, hb⟩ | ⟨r, ha, hd⟩ := List.append_eq_append_iff.1 h
  · cases q with
    | nil => exact .inr ⟨[], by simpa using hc.symm, by simpa using hb⟩
    | cons x q => exact .inl ⟨by simp [hc], _, List.cons_ne_nil x q, hc.symm⟩
  · exact .inr ⟨r, ha, hd.symm⟩

theorem decodeBuf_cut {m : Msg} {buf : Str}
    (hcut : ∃ q, q ≠ [] ∧ buf ++ q = encodePositiveInt m.len) :
    decodeBuf e 0 buf = .error (if buf = [] then .none else .eagain) := by
  obtain ⟨q, hq, heq⟩ := hcut
  rw [decodeBuf, getStr, if_pos rfl]
  split
  · next h => rw [h]; rfl
  · next h => rw [decode_cut h hq heq]; rfl

theorem advance_wait {f : Nat} {body : Bool} {needed : Nat} {buf : Str} {out : List Pub3}
    (h : buf.length < needed ∨ ∃ r, decodeBuf e needed buf = .error r) :
    advance e trunc f body needed buf out = ⟨buf, .reading body needed, out⟩ := by
  cases f with
  | zero => rfl
  | succ f =>
    rw [advance]
    obtain h | ⟨r, h⟩ := h
    · rw [if_neg (by omega)]
    · rw [h]
      split <;> rfl

theorem advance_length {m : Msg} {f : Nat} {buf : Str} {out : List Pub3} :
    advance e trunc (f + 1) false 0 (encodePositiveInt m.len ++ buf) out =
      advance e trunc f true m.dat.length buf out := by
  rw [advance, if_pos (Nat.zero_le _), decodeBuf_length]
  simp only [Bool.false_eq_true, if_false, m.toInt_ofPos]
  exact congrArg (advance e trunc f true · buf out) m.len_toNat

theorem advance_body {m : Msg} {f : Nat} {buf : Str} {out : List Pub3} :
    advance e trunc (f + 1) true m.dat.length (m.dat ++ buf) out =
      advance e trunc f false 0 buf (out ++ [Msgpack.norm m.val]) := by
  rw [advance, if_pos (by simp), decodeBuf_body]
  rfl

theorem got_of_body {m : Msg} {ms : List Msg} {f : Nat} {buf rest : Str} {out : List Pub3}
    (hf : buf.length ≤ f) (h : buf ++ rest = m.dat ++ frames ms)
    (ih : ∀ {f buf} out, buf.length ≤ f → buf ++ rest = frames ms →
      Got ms buf out (advance e trunc f false 0 buf out)) :
    Got (m :: ms) (encodePositiveInt m.len ++ buf) out
      (advance e trunc f true m.dat.length buf out) := by
  obtain ⟨hlt, -⟩ | ⟨r, rfl, hr⟩ := prefix_cases h
  · rw [advance_wait (.inl hlt)]
    exact ⟨[], m :: ms, _, rfl, rfl, by simp, .body hlt⟩
  · have hpos := m.dat_pos
    rw [List.length_append] at hf
    obtain ⟨g, rfl⟩ : ∃ g, f = g + 1 := ⟨f - 1, by omega⟩
    rw [advance_body, ← List.append_assoc]
    exact (ih _ (by omega) hr).cons

theorem got_of_advance {ms : List Msg} {f : Nat} {buf rest : Str} (out : List Pub3)
    (hf : buf.length ≤ f) (h : buf ++ rest = frames ms) :
    Got ms buf out (advance e trunc f false 0 buf out) := by
  induction ms generalizing f buf out with
  | nil =>
    obtain ⟨rfl, -⟩ := List.append_eq_nil_iff.1 h
    rw [advance_wait (.inr ⟨.none, rfl⟩)]
    exact ⟨[], [], [], rfl, rfl, by simp, .start⟩
  | cons m ms ih =>
    obtain ⟨hlt, hcut⟩ | ⟨r, rfl, hr⟩ := prefix_cases (h.trans (frames_cons m ms))
    · rw [advance_wait (.inr ⟨_, decodeBuf_cut hcut⟩)]
      exact ⟨[], m :: ms, buf, rfl, rfl, by simp, .length hlt⟩
    · have hpos := List.length_pos_of_ne_nil (encodePositiveInt_ne_nil m.len)
      rw [List.length_append] at hf
      obtain ⟨g, rfl⟩ : ∃ g, f = g + 1 := ⟨f - 1, by omega⟩
      rw [advance_length]
      exact got_of_body (by omega) hr ih

theorem got_of_data {ms : List Msg} {s : AxprtIn} {buf rest : Str} {b : UInt8} {l : Str}
    (hw : Waits ms buf s.pc s.inbuf) (h : buf ++ b :: l ++ rest = frames ms) :
    Got ms (buf ++ b :: l) s.out (s.input e trunc (.data b l)) := by
  obtain ⟨inbuf, pc, out⟩ := s
  cases hw with
  | start => exact absurd h (by simp [frames])
  | @length m ms _ hlt =>
    have hne : inbuf ++ b :: l ≠ [] := by simp
    obtain ⟨hlt, hcut⟩ | ⟨r, hr, -⟩ := prefix_cases (h.trans (frames_cons m ms))
    · have hdec := decodeBuf_cut (e := e) hcut
      rw [if_neg hne] at hdec
      have hin : input e trunc ⟨inbuf, .reading false 0, out⟩ (.data b l) =
          ⟨inbuf ++ b :: l, .reading false 0, out⟩ := by simp [input, hdec]
      rw [hin]
      exact ⟨[], m :: ms, _, rfl, rfl, by simp, .length hlt⟩
    · have hdec := decodeBuf_length (e := e) m r
      rw [← hr] at hdec
      have hin : input e trunc ⟨inbuf, .reading false 0, out⟩ (.data b l) =
          advance e trunc (inbuf ++ b :: l).length false 0 (inbuf ++ b :: l) out := by
        simp only [input, ne_eq, not_true, false_and, if_false, hdec]
      rw [hin]
      exact got_of_advance out (Nat.le_refl _) h
  | @body m ms _ hlt =>
    have hpos := m.dat_pos
    rw [frames_cons, List.append_assoc, List.append_assoc, List.append_cancel_left_eq,
      ← List.append_assoc] at h
    rw [List.append_assoc]
    obtain ⟨hlt, -⟩ | ⟨r, hr, -⟩ := prefix_cases h
    · have hin : input e trunc ⟨inbuf, .reading true m.dat.length, out⟩ (.data b l) =
          ⟨inbuf ++ b :: l, .reading true m.dat.length, out⟩ := by
        simp only [input]
        rw [if_pos ⟨by omega, hlt⟩]
      rw [hin]
      exact ⟨[], m :: ms, _, rfl, rfl, by simp, .body hlt⟩
    · have hdec := decodeBuf_body (e := e) m r
      rw [← hr] at hdec
      have hlen : ¬ (m.dat.length ≠ 0 ∧ (inbuf ++ b :: l).length < m.dat.length) := by
        rw [hr, List.length_append]
        omega
      have hin : input e trunc ⟨inbuf, .reading true m.dat.length, out⟩ (.data b l) =
          advance e trunc (inbuf ++ b :: l).length true m.dat.length (inbuf ++ b :: l) out := by
        simp only [input, hlen, if_false, hdec]
      rw [hin]
      exact got_of_body (Nat.le_refl _) h fun out hf h => got_of_advance out hf h

theorem Got.append {as bs : List Msg} {buf : Str} {out : List Pub3} {s : AxprtIn}
    (h : Got bs buf (out ++ as.map fun m => Msgpack.norm m.val) s) :
    Got (as ++ bs) (frames as ++ buf) out s := by
  induction as generalizing out with
  | nil => simpa [frames] using h
  | cons m as ih =>
    have h : Got bs buf (out ++ [Msgpack.norm m.val] ++ as.map fun m => Msgpack.norm m.val) s := by
      simpa using h
    have := (ih h).cons
    rwa [← List.append_assoc] at this

theorem run_append (rs : List ReadRes) (r : ReadRes) :
    run e trunc (rs ++ [r]) = (run e trunc rs).input e trunc r := by
  simp [run]

theorem got_of_run {ms : List Msg} {rs : List ReadRes} {rest : Str}
    (hpeer : ∀ r ∈ rs, r ≠ .eof ∧ r ≠ .error) (hcalm : Calm e trunc rs)
    (h : received rs ++ rest = frames ms) : Got ms (received rs) [] (run e trunc rs) := by
  induction rs using List.reverseRecOn generalizing rest with
  | nil =>
    refine ⟨[], ms, [], rfl, rfl, rfl, ?_⟩
    cases ms with
    | nil => exact .start
    | cons m ms => exact .length (List.length_pos_of_ne_nil (encodePositiveInt_ne_nil m.len))
  | append_singleton rs r ih =>
    have hpeer' : ∀ r ∈ rs, r ≠ .eof ∧ r ≠ .error :=
      fun r hr => hpeer r (List.mem_append_left _ hr)
    have hcalm' : Calm e trunc rs := by
      rintro as bs rfl
      exact hcalm as (bs ++ [r]) (by simp)
    have hrecv : received (rs ++ [r]) = received rs ++ received [r] := by simp [received]
    rw [hrecv, List.append_assoc] at h
    rw [run_append, hrecv]
    cases r with
    | data b l =>
      obtain ⟨as, bs, r, rfl, hr, hout, hw⟩ := ih hpeer' hcalm' h
      have hl : received [.data b l] = b :: l := by simp [received]
      rw [hr, hl] at h ⊢
      have hbs : r ++ b :: l ++ rest = frames bs := by
        have happ : frames (as ++ bs) = frames as ++ frames bs := List.flatMap_append
        rw [happ, List.append_assoc, List.append_cancel_left_eq] at h
        rw [List.append_assoc]
        exact h
      have hgot : Got bs (r ++ b :: l) (run e trunc rs).out
          ((run e trunc rs).input e trunc (.data b l)) := got_of_data hw hbs
      rw [List.append_assoc]
      rw [hout] at hgot
      exact hgot.append
    | eagain =>
      have hnil := hcalm rs [] rfl
      have hin : (run e trunc rs).input e trunc .eagain = run e trunc rs := by
        unfold input
        split
        · exact if_pos hnil
        · rfl
      have hl : received [.eagain] = [] := rfl
      rw [hl] at h ⊢
      rw [hin, List.append_nil]
      exact ih hpeer' hcalm' h
    | eof => exact absurd rfl (hpeer .eof (by simp)).1
    | error => exact absurd rfl (hpeer .error (by simp)).2

theorem stream_eq (ms : List Msg) : stream (ms.map Msg.val) = some (frames ms) := by
  induction ms with
  | nil => rfl
  | cons m ms ih => simp [stream, m.frame_eq, ih, frames]

theorem Waits.short {m : Msg} {ms : List Msg} {buf inbuf : Str} {pc : RecvAt}
    (h : Waits (m :: ms) buf pc inbuf) : buf.length < m.bytes.length := by
  rw [Msg.bytes, List.length_append]
  cases h with
  | length h => omega
  | body h =>
    rw [List.length_append]
    omega

theorem Waits.reading {ms : List Msg} {buf inbuf : Str} {pc : RecvAt} (h : Waits ms buf pc inbuf) :
    ∃ body needed, pc = .reading body needed := by
  cases h <;> exact ⟨_, _, rfl⟩

theorem delivered_of_got {b : Bool} {ms : List Msg} {s : Str} {a : AxprtIn}
    (hk : ∀ m ∈ ms, m.val.All (Kept b)) (h : Got ms s [] a) :
    Delivered b (ms.map Msg.val) s a := by
  obtain ⟨as, bs, r, rfl, rfl, hout, hw⟩ := h
  have htake (n : Nat) : (((as ++ bs).map Msg.val).take (as.length + n)) =
      (as ++ bs.take n).map Msg.val := by
    rw [← List.map_take, List.take_length_add_append]
  refine ⟨hw.reading, as.length, by simp, ?_, ⟨frames as, ?_, List.prefix_append _ _⟩, ?_⟩
  · have h0 := htake 0
    rw [Nat.add_zero, List.take_zero, List.append_nil] at h0
    rw [h0, hout, List.nil_append, List.forall₂_map_left_iff, List.forall₂_map_right_iff,
      List.forall₂_same]
    intro m hm
    obtain ⟨ts, hts⟩ := toks_of_kept m.val (hk m (List.mem_append_left _ hm))
    exact (same_norm m.val m.plain hts).2 (hk m (List.mem_append_left _ hm))
  · have h0 := htake 0
    rw [Nat.add_zero, List.take_zero, List.append_nil] at h0
    rw [h0, stream_eq]
  · intro hlt p hp hpre
    cases bs with
    | nil => simp at hlt
    | cons m bs =>
      rw [htake, stream_eq] at hp
      cases hp
      have hlen := hpre.length_le
      have := hw.short
      simp [frames] at hlen
      omega

theorem msgs_of_fits {b : Bool} {xs : List Pub3} (h : ∀ x ∈ xs, Fits b x) :
    ∃ ms : List Msg, ms.map Msg.val = xs := by
  induction xs with
  | nil => exact ⟨[], rfl⟩
  | cons x xs ih =>
    obtain ⟨⟨hplain, hok, hsmall⟩, hxs⟩ := List.forall_mem_cons.1 h
    obtain ⟨ms, hms⟩ := ih hxs
    obtain ⟨ts, hts⟩ := toks_of_kept x fun y hy => (hok y hy).2
    have henc : toMsgpack x = some (flat ts) := by rw [toMsgpack_eq, hts]; rfl
    exact ⟨⟨x, flat ts, hplain, fun y hy => (hok y hy).1, henc, hsmall _ henc⟩ :: ms, by simp [hms]⟩

theorem stopped_run {s : AxprtIn} (h : s.pc = .stopped ∨ s.pc = .aborted) (rs : List ReadRes) :
    (rs.foldl (input e trunc) s).pc = .stopped ∨ (rs.foldl (input e trunc) s).pc = .aborted := by
  induction rs generalizing s with
  | nil => exact h
  | cons r rs ih =>
    have hin : s.input e trunc r = s := by
      obtain h | h := h <;> simp [input, h]
    rw [List.foldl_cons, hin]
    exact ih h

theorem calm_of_delivered {b : Bool} {xs : List Pub3} {s : Str} {rs : List ReadRes}
    (h : Delivered b xs s (run e trunc rs)) : Calm e trunc rs := by
  rintro as bs rfl
  by_contra hne
  have hstop : (input e trunc (run e trunc as) .eagain).pc = .stopped ∨
      (input e trunc (run e trunc as) .eagain).pc = .aborted := by
    cases hpc : (run e trunc as).pc with
    | reading body needed => exact .inl (by simp [input, hpc, hne])
    | stopped => exact .inl (by simp [input, hpc])
    | aborted => exact .inr (by simp [input, hpc])
  have hrun : run e trunc (as ++ .eagain :: bs) =
      bs.foldl (input e trunc) (input e trunc (run e trunc as) .eagain) := by simp [run]
  obtain ⟨⟨body, needed, hpc⟩, -⟩ := h
  rw [hrun] at hpc
  obtain h | h := stopped_run hstop bs
  · rw [h] at hpc
    cases hpc
  · rw [h] at hpc
    cases hpc

/-- The messages are delivered if and only if no read returns `EAGAIN` at the wrong time. -/
theorem delivered_iff_calm (e : Env) (trunc : UInt64 → Int64) {b : Bool} {xs : List Pub3}
    {s : Str} {rs : List ReadRes} (hx : ∀ x ∈ xs, Fits b x) (hs : stream xs = some s)
    (hpeer : ∀ r ∈ rs, r ≠ .eof ∧ r ≠ .error) (hrecv : received rs <+: s) :
    Delivered b xs (received rs) (run e trunc rs) ↔ Calm e trunc rs := by
  refine ⟨calm_of_delivered, fun hcalm => ?_⟩
  obtain ⟨ms, rfl⟩ := msgs_of_fits hx
  obtain ⟨rest, hrest⟩ := hrecv
  cases (stream_eq ms).symm.trans hs
  refine delivered_of_got (fun m hm y hy => ?_) (got_of_run hpeer hcalm hrest)
  exact ((hx m.val (List.mem_map_of_mem hm)).2.1 y hy).2

theorem fits_int {b : Bool} {i : Int64} (hlo : 0 ≤ i.toInt) (hhi : i.toInt < 128) :
    Fits b (.int i) := by
  refine ⟨fun y hy => by cases hy; trivial, fun y hy => ?_, fun dat h => ?_⟩
  · cases hy
    exact ⟨trivial, .inr (by omega)⟩
  · cases h
    split
    · omega
    · unfold Outbuf.encodePositiveInt
      simp only [Bool.false_eq_true, if_false]
      repeat' split
      all_goals simp

theorem fits_str {b : Bool} {s : Str} (h : s.length < 32) : Fits b (.str s) := by
  refine ⟨fun y hy => ?_, fun y hy => ?_, fun dat hdat => ?_⟩
  · cases hy
    exact Nat.lt_trans h (by decide)
  · cases hy
    exact ⟨trivial, trivial⟩
  · cases hdat
    have hlen : encodeRawLen s.length 0xa0 0xda 0xdb = [0xa0 ||| .ofNat s.length] :=
      if_pos (by omega)
    rw [encodeStr, hlen, List.length_append, List.length_singleton]
    omega

/-- Two messages in three reads. -/
theorem delivered_iff_calm_two :
    Delivered false [.int 5, .str (ascii ['a', 'b'])]
        (received [.data 1 [5, 3], .data 0xa2 [97], .data 98 [], .eagain])
        (run ⟨fun _ => none, fun _ => 0⟩ (fun _ => 0)
          [.data 1 [5, 3], .data 0xa2 [97], .data 98 [], .eagain]) ↔
      Calm ⟨fun _ => none, fun _ => 0⟩ (fun _ => 0)
        [.data 1 [5, 3], .data 0xa2 [97], .data 98 [], .eagain] := by
  refine delivered_iff_calm (s := [1, 5, 3, 0xa2, 97, 98]) _ _ ?_ rfl (by simp) (by decide)
  exact List.forall_mem_cons.2 ⟨fits_int (by decide) (by decide),
    List.forall_mem_singleton.2 (fits_str (by decide))⟩

/-- The body of a message comes later than its length. -/
theorem not_delivered_split : ¬ ∀ (e : Env) (trunc : UInt64 → Int64) (xs : List Pub3) (s : Str)
    (rs : List ReadRes), (∀ x ∈ xs, Fits false x) → stream xs = some s →
    (∀ r ∈ rs, r ≠ .eof ∧ r ≠ .error) → received rs <+: s →
    Delivered false xs (received rs) (run e trunc rs) := by
  intro h
  have := calm_of_delivered (h ⟨fun _ => none, fun _ => 0⟩ (fun _ => 0) [.str (ascii ['a', 'b'])]
    [3, 0xa2, 97, 98] [.data 3 [0xa2, 97], .eagain]
    (List.forall_mem_singleton.2 (fits_str (by decide))) rfl (by simp) (by decide))
  exact absurd (this [.data 3 [0xa2, 97]] [] rfl) (by decide)

end AxprtIn

end Okws
