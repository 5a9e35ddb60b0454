import Okws.MsgpackRecv

/-! `axprt_inner` of MessagePack-RPC: what becomes of a message that was received. -/

namespace Okws

/-- The servers by program, the one for all others, and the calls that wait for a reply. -/
structure AxprtInner where
  dispatch : List (Str × Nat)
  dispatchDef : Option Nat
  calls : List (UInt32 × Nat)

/-- What a reply brings; `err_code` is the number of a `clnt_stat`. -/
structure CallRes where
  errCode : Int32
  errObj : Option (List (Str × Pub3))
  res : Option Pub3

inductive RpcAction
  | error (s : Str)
  | serve (v : Nat) (sid : Int64) (mthd : Str) (arg : Pub3)
  | send (x : Pub3)
  | trigger (ev : Nat) (res : CallRes)

namespace Msgpack

def request : Int64 := 0
def response : Int64 := 1
def notify : Int64 := 2

def rpcSuccess : Int32 := 0
def rpcProcunavail : Int32 := 10
def rpcCantdecodeargs : Int32 := 11
def rpcSystemerror : Int32 := 12

/-- Of `accept_stat`. -/
def procUnavail : Int64 := 3

/-- A call as its server sees it, with the answer that is to be sent. -/
structure Svccb where
  sid : Int64 := 0
  err : Option Pub3 := none
  res : Option Pub3 := none

def Svccb.toJson (b : Svccb) : Pub3 :=
  .list ([.int response, .int b.sid] ++ match b.err, b.res with
    | some err, _ => [err, .null]
    | none, some res => [.null, res]
    | none, none => [])

end Msgpack

namespace AxprtInner

open Msgpack Scalar

def dot : UInt8 := 46

/-- The longest part in front of a dot, if it is one line, and what is behind the dot. -/
def splitProg (s : Str) : Option (Str × Str) :=
  let mthd := (s.reverse.takeWhile (· ≠ dot)).reverse
  match s.reverse.dropWhile (· ≠ dot) with
  | [] => none
  | _ :: prog => if mthd ≠ [] ∧ Byte.lf ∉ prog then some (prog.reverse, mthd) else none

variable (e : Env) (trunc : UInt64 → Int64) (t : AxprtInner)

/-- The server of a method, and the method as that server knows it. -/
def server (mthd : Str) : Option (Nat × Str) :=
  match (splitProg mthd).bind fun (prog, split) => (t.dispatch.lookup prog).map (·, split) with
  | some v => some v
  | none => t.dispatchDef.map (·, mthd)

/-- The reply of `dispatch_call` to what it cannot hand over. -/
def refusal (stat : Int32) : Pub3 :=
  let b : Svccb := { err := some (.dict [(ascii "clnt_stat".toList, .int stat.toInt64)]) }
  b.toJson

/-- What is done where `ok` stays false. -/
def refuse (msg : Str) (stat : Int32) : List RpcAction := [.error msg, .send (refusal stat)]

/-- A slot that does not exist gives `none`, here and below. -/
def dispatchCall (l : List Pub3) (seqid : Int64) : Option (List RpcAction) :=
  l[2]?.bind fun m => match (e.toStr m).filter (· ≠ []) with
    | none => some (refuse (ascii "dispatch_call: method not found".toList) rpcCantdecodeargs)
    | some mthd => match t.server mthd with
      | some (v, mthd) => l[3]?.map fun arg => [.serve v seqid mthd arg]
      | none => some (refuse (ascii "dispatch_call: unknown method: ".toList ++ cstr mthd)
          rpcProcunavail)

def errCode : Pub3 → Int32
  | .dict kvs => match (kvs.lookup (ascii "clnt_stat".toList)).bind (toInt trunc) with
    | some i => i.toInt32
    | none => match (kvs.lookup (ascii "accept_stat".toList)).bind (toInt trunc) with
      | some i => if i = procUnavail then rpcProcunavail else rpcSystemerror
      | none => rpcSystemerror
  | _ => rpcSystemerror

def callRes (err : Pub3) (res : Option Pub3) : CallRes := match err with
  | .null => ⟨rpcSuccess, none, res⟩
  | .dict kvs => ⟨errCode trunc err, some kvs, res⟩
  | _ => ⟨errCode trunc err, none, res⟩

def dispatchReply (l : List Pub3) (seqid : Int64) : Option (AxprtInner × List RpcAction) :=
  let key := seqid.toUInt64.toUInt32
  match t.calls.lookup key with
  | none => some (t, [])
  | some ev => l[2]?.bind fun err =>
      (if l.length = 4 then l[3]?.map some else some none).map fun res =>
        ({ t with calls := t.calls.filter (·.1 ≠ key) }, [.trigger ev (callRes trunc err res)])

/-- The loop's body, behind a `recv` that succeeded. -/
def dispatchMsg (x : Option Pub3) : Option (AxprtInner × List RpcAction) :=
  let error (s : String) : Option (AxprtInner × List RpcAction) :=
    some (t, [.error (ascii s.toList)])
  match x with
  | none => error "dispatch: no incoming message"
  | some (.list l) =>
    if l.length < 3 ∨ 4 < l.length then
      error ("dispatch: incoming message unexpected size (" ++ toString l.length ++ ")")
    else l[0]?.bind fun x => match toInt trunc x with
      | none => error "dispatch: slot 0 wasn't an integer"
      | some typ => l[1]?.bind fun x => match toInt trunc x with
        | none => error "dispatch: slot 1 wasn't an integer"
        | some seqid =>
          if typ = request ∨ typ = notify then (t.dispatchCall e l seqid).map (t, ·)
          else if typ = response then t.dispatchReply trunc l seqid
          else error ("dispatch: msg type=" ++ toString typ.toInt ++ " is unknown")
  | some _ => error "dispatch: incoming message wasn't a list"

def IsRequest (x : Pub3) (s : Int64) : Prop :=
  ∃ a b m l, x = .list (a :: b :: m :: l) ∧ toInt trunc a = some request ∧ toInt trunc b = some s

def Handed (as : List RpcAction) : Prop := as.any (fun
  | .serve .. => true
  | _ => false) = true

def sends (as : List RpcAction) : List Pub3 := as.filterMap fun
  | .send x => some x
  | _ => none

def Refuses (x : Pub3) (s : Int64) : Prop :=
  ∃ err res, x = .list [.int response, .int s, err, res] ∧ err ≠ .null

/-- The message is dealt with, within its slots, and a call that no server gets is refused. -/
def Total (x : Pub3) : Prop := ∃ t' as, t.dispatchMsg e trunc (some x) = some (t', as) ∧
  ∀ s, IsRequest trunc x s → Handed as ∨ ∃ r, sends as = [r] ∧ Refuses r s

def Known (m : Pub3) : Prop := ∃ mthd, e.toStr m = some mthd ∧ mthd ≠ [] ∧
  (t.dispatchDef ≠ none ∨ ∃ prog split, mthd = prog ++ dot :: split ∧ split ≠ [] ∧ dot ∉ split ∧
    Byte.lf ∉ prog ∧ t.dispatch.lookup prog ≠ none)

/-- A call or a notification for which there is a server has four slots at least; a call has four
at most, and its id is `0` if there is no server. -/
def Fine (x : Pub3) : Prop := ∀ a b m l typ s, x = .list (a :: b :: m :: l) →
  toInt trunc a = some typ → toInt trunc b = some s → typ = request ∨ typ = notify →
    (t.Known e m → l ≠ []) ∧ (typ = request → l.length ≤ 1 ∧ (¬ t.Known e m → s = 0))

section

variable {e trunc t}

theorem splitProg_eq {s prog split : Str} : splitProg s = some (prog, split) ↔
    s = prog ++ dot :: split ∧ split ≠ [] ∧ dot ∉ split ∧ Byte.lf ∉ prog := by
  have happ := List.takeWhile_append_dropWhile (p := (· ≠ dot)) (l := s.reverse)
  unfold splitProg
  constructor
  · intro h
    have hdot : dot ∉ (s.reverse.takeWhile (· ≠ dot)).reverse := fun hd => by
      have := List.mem_takeWhile_imp (List.mem_reverse.1 hd)
      simp at this
    dsimp only at h
    split at h
    · cases h
    · next b p hp =>
      have hb : b = dot := by
        have := List.head?_dropWhile_not (· ≠ dot) s.reverse
        rw [hp] at this
        simpa using this
      split at h
      · next hcond =>
        cases h
        refine ⟨?_, hcond.1, hdot, fun hlf => hcond.2 (List.mem_reverse.1 hlf)⟩
        rw [hp, hb] at happ
        have := congrArg List.reverse happ
        rw [List.reverse_append, List.reverse_cons, List.reverse_reverse] at this
        simpa using this.symm
      · cases h
  · rintro ⟨rfl, hne, hdot, hlf⟩
    have hall : ∀ b ∈ split.reverse, decide (b ≠ dot) = true := fun b hb =>
      decide_eq_true fun h => hdot (h ▸ List.mem_reverse.1 hb)
    have hrev : (prog ++ dot :: split).reverse = split.reverse ++ dot :: prog.reverse := by simp
    have htake : (prog ++ dot :: split).reverse.takeWhile (· ≠ dot) = split.reverse := by
      rw [hrev, List.takeWhile_append_of_pos hall]
      simp
    have hdrop : (prog ++ dot :: split).reverse.dropWhile (· ≠ dot) = dot :: prog.reverse := by
      rw [hrev, List.dropWhile_append_of_pos hall]
      simp
    dsimp only
    rw [htake, hdrop]
    simp [hne, hlf]

theorem known_iff {m : Pub3} : t.Known e m ↔
    ∃ mthd v, e.toStr m = some mthd ∧ mthd ≠ [] ∧ t.server mthd = some v := by
  have hserver (mthd : Str) : (∃ v, t.server mthd = some v) ↔ t.dispatchDef ≠ none ∨
      ∃ prog split, splitProg mthd = some (prog, split) ∧ t.dispatch.lookup prog ≠ none := by
    have hdef (mthd : Str) :
        (∃ v, t.dispatchDef.map (·, mthd) = some v) ↔ t.dispatchDef ≠ none := by
      cases t.dispatchDef <;> simp
    unfold server
    cases splitProg mthd with
    | none =>
      rw [Option.bind_none]
      exact (hdef mthd).trans (or_iff_left fun ⟨_, _, h, _⟩ => nomatch h).symm
    | some ps =>
      obtain ⟨prog, split⟩ := ps
      rw [Option.bind_some]
      dsimp only
      cases hl : t.dispatch.lookup prog with
      | none =>
        refine (hdef mthd).trans (or_iff_left ?_).symm
        rintro ⟨_, _, ⟨⟩, h⟩
        exact h hl
      | some v =>
        exact iff_of_true ⟨_, rfl⟩ (.inr ⟨prog, split, rfl, fun h => nomatch hl.symm.trans h⟩)
  constructor
  · rintro ⟨mthd, hstr, hne, hs⟩
    obtain ⟨v, hv⟩ := (hserver mthd).2 (hs.imp_right fun ⟨prog, split, h, hsplit, hdot, hlf, hl⟩ =>
      ⟨prog, split, splitProg_eq.2 ⟨h, hsplit, hdot, hlf⟩, hl⟩)
    exact ⟨mthd, v, hstr, hne, hv⟩
  · rintro ⟨mthd, v, hstr, hne, hv⟩
    refine ⟨mthd, hstr, hne, ((hserver mthd).1 ⟨v, hv⟩).imp_right ?_⟩
    rintro ⟨prog, split, hsplit, hl⟩
    obtain ⟨h, hne, hdot, hlf⟩ := splitProg_eq.1 hsplit
    exact ⟨prog, split, h, hne, hdot, hlf, hl⟩

theorem dispatchCall_known {m : Pub3} (h : t.Known e m) (a b : Pub3) (l : List Pub3) (s : Int64) :
    ∃ v mthd, t.dispatchCall e (a :: b :: m :: l) s =
      l[0]?.map fun arg => [.serve v s mthd arg] := by
  obtain ⟨mthd, ⟨v, split⟩, hstr, hne, hv⟩ := known_iff.1 h
  have hfilter : (e.toStr m).filter (· ≠ []) = some mthd := by
    rw [hstr]
    exact Option.filter_some_pos (decide_eq_true hne)
  have hm : (a :: b :: m :: l)[2]? = some m := rfl
  refine ⟨v, split, ?_⟩
  rw [dispatchCall, hm, Option.bind_some, hfilter]
  dsimp only
  rw [hv]
  rfl

theorem dispatchCall_unknown {m : Pub3} (h : ¬ t.Known e m) (a b : Pub3) (l : List Pub3)
    (s : Int64) : ∃ msg stat, t.dispatchCall e (a :: b :: m :: l) s = some (refuse msg stat) := by
  have hm : (a :: b :: m :: l)[2]? = some m := rfl
  rw [dispatchCall, hm, Option.bind_some]
  cases hstr : (e.toStr m).filter (· ≠ []) with
  | none => exact ⟨_, _, rfl⟩
  | some mthd =>
    obtain ⟨hstr, hne⟩ := Option.filter_eq_some_iff.1 hstr
    have hserver : t.server mthd = none := by
      refine Option.eq_none_iff_forall_ne_some.2 fun v hv => h (known_iff.2 ?_)
      exact ⟨mthd, v, hstr, of_decide_eq_true hne, hv⟩
    dsimp only
    rw [hserver]
    exact ⟨_, _, rfl⟩

theorem refuses_refusal {stat : Int32} {s : Int64} : Refuses (refusal stat) s ↔ s = 0 := by
  constructor
  · rintro ⟨err, res, h, -⟩
    have hid := (List.cons.inj (List.cons.inj (Pub3.list.inj h)).2).1
    exact (Pub3.int.inj hid).symm
  · rintro rfl
    exact ⟨_, _, rfl, nofun⟩

theorem dispatchMsg_call {a b m : Pub3} {l : List Pub3} {typ s : Int64} (hl : l.length ≤ 1)
    (ha : toInt trunc a = some typ) (hb : toInt trunc b = some s)
    (htyp : typ = request ∨ typ = notify) :
    t.dispatchMsg e trunc (some (.list (a :: b :: m :: l))) =
      (t.dispatchCall e (a :: b :: m :: l) s).map (t, ·) := by
  have hlen : ¬ ((a :: b :: m :: l).length < 3 ∨ 4 < (a :: b :: m :: l).length) := by
    simp only [List.length_cons]
    omega
  have h₀ : (a :: b :: m :: l)[0]? = some a := rfl
  have h₁ : (a :: b :: m :: l)[1]? = some b := rfl
  unfold dispatchMsg
  dsimp only
  rw [if_neg hlen, h₀, Option.bind_some, ha]
  dsimp only
  rw [h₁, Option.bind_some, hb]
  dsimp only
  rw [if_pos htyp]

theorem dispatchReply_spec (a b m : Pub3) (l : List Pub3) (s : Int64) :
    ∃ t' as, t.dispatchReply trunc (a :: b :: m :: l) s = some (t', as) ∧ ¬ Handed as ∧
      sends as = [] := by
  have hm : (a :: b :: m :: l)[2]? = some m := rfl
  unfold dispatchReply
  dsimp only
  cases t.calls.lookup s.toUInt64.toUInt32 with
  | none => exact ⟨t, [], rfl, nofun, rfl⟩
  | some ev =>
    obtain ⟨res, hres⟩ : ∃ res, (if (a :: b :: m :: l).length = 4 then
        (a :: b :: m :: l)[3]?.map some else some none) = some res := by
      split
      · next hlen => exact ⟨_, by rw [List.getElem?_eq_getElem (by omega), Option.map_some]⟩
      · exact ⟨none, rfl⟩
    dsimp only
    rw [hm, Option.bind_some, hres]
    exact ⟨_, _, rfl, nofun, rfl⟩

variable (e trunc t) in
theorem dispatchMsg_other {x : Pub3} (h : ∀ a b m l typ s, x = .list (a :: b :: m :: l) →
    toInt trunc a = some typ → toInt trunc b = some s → l.length ≤ 1 →
      ¬ (typ = request ∨ typ = notify)) :
    ∃ t' as, t.dispatchMsg e trunc (some x) = some (t', as) ∧ ¬ Handed as ∧ sends as = [] := by
  have herror (s : Str) : ∃ t' as, some (t, [RpcAction.error s]) = some (t', as) ∧ ¬ Handed as ∧
      sends as = [] := ⟨t, _, rfl, nofun, rfl⟩
  cases x with
  | list l =>
    unfold dispatchMsg
    dsimp only
    by_cases hlen : l.length < 3 ∨ 4 < l.length
    · rw [if_pos hlen]
      exact herror _
    · rw [if_neg hlen]
      obtain _ | ⟨a, _ | ⟨b, _ | ⟨m, l⟩⟩⟩ := l
      · exact absurd (.inl (by decide)) hlen
      · exact absurd (.inl (by simp)) hlen
      · exact absurd (.inl (by simp)) hlen
      have h₀ : (a :: b :: m :: l)[0]? = some a := rfl
      have h₁ : (a :: b :: m :: l)[1]? = some b := rfl
      rw [h₀, Option.bind_some]
      cases ha : toInt trunc a with
      | none => exact herror _
      | some typ =>
        dsimp only
        rw [h₁, Option.bind_some]
        cases hb : toInt trunc b with
        | none => exact herror _
        | some s =>
          have htyp := h a b m l typ s rfl ha hb (by simp only [List.length_cons] at hlen; omega)
          dsimp only
          rw [if_neg htyp]
          split
          · exact dispatchReply_spec a b m l s
          · exact herror _
  | _ => exact herror _

variable {x : Pub3}

theorem fine_of_total (h : t.Total e trunc x) : t.Fine e trunc x := by
  obtain ⟨t', as, hd, hreq⟩ := h
  rintro a b m l typ s rfl ha hb htyp
  have hcall (hl : l.length ≤ 1) := (dispatchMsg_call (e := e) (m := m) hl ha hb htyp).symm.trans hd
  refine ⟨fun hk hl => ?_, ?_⟩
  · obtain ⟨v, mthd, hserve⟩ := dispatchCall_known hk a b l s
    have hnone := hcall (by simp [hl])
    rw [hserve, hl] at hnone
    cases hnone
  · rintro rfl
    have hans := hreq s ⟨a, b, m, l, rfl, ha, hb⟩
    by_cases hl : l.length ≤ 1
    · refine ⟨hl, fun hk => ?_⟩
      obtain ⟨msg, stat, hrefuse⟩ := dispatchCall_unknown hk a b l s
      have hsome := hcall hl
      rw [hrefuse] at hsome
      cases hsome
      obtain hh | ⟨r, hr, hs⟩ := hans
      · cases hh
      · cases hr
        exact refuses_refusal.1 hs
    · obtain ⟨t'', as', hd', hnot, hsends⟩ := dispatchMsg_other e trunc t
        (x := .list (a :: b :: m :: l)) fun _ _ _ _ _ _ h _ _ hle => by
          cases h
          exact absurd hle hl
      cases hd'.symm.trans hd
      obtain hh | ⟨r, hr, -⟩ := hans
      · exact absurd hh hnot
      · cases hsends.symm.trans hr

theorem total_of_fine (hf : t.Fine e trunc x) : t.Total e trunc x := by
  by_cases hc : ∃ a b m l typ s, x = .list (a :: b :: m :: l) ∧ toInt trunc a = some typ ∧
      toInt trunc b = some s ∧ l.length ≤ 1 ∧ (typ = request ∨ typ = notify)
  · obtain ⟨a, b, m, l, typ, s, rfl, ha, hb, hl, htyp⟩ := hc
    obtain ⟨hknown, hrequest⟩ := hf a b m l typ s rfl ha hb htyp
    have hcall := dispatchMsg_call (e := e) (t := t) (m := m) hl ha hb htyp
    by_cases hk : t.Known e m
    · obtain ⟨v, mthd, hserve⟩ := dispatchCall_known hk a b l s
      obtain ⟨arg, l, rfl⟩ := List.exists_cons_of_ne_nil (hknown hk)
      exact ⟨t, _, hcall.trans (congrArg _ hserve), fun _ _ => .inl rfl⟩
    · obtain ⟨msg, stat, hrefuse⟩ := dispatchCall_unknown hk a b l s
      refine ⟨t, _, hcall.trans (congrArg _ hrefuse), ?_⟩
      rintro s' ⟨a', b', m', l', heq, ha', hb'⟩
      cases heq
      cases hb.symm.trans hb'
      cases ha.symm.trans ha'
      exact .inr ⟨_, rfl, refuses_refusal.2 ((hrequest rfl).2 hk)⟩
  · obtain ⟨t', as, hd, -, -⟩ := dispatchMsg_other e trunc t (x := x)
      fun a b m l typ s hx ha hb hl htyp => hc ⟨a, b, m, l, typ, s, hx, ha, hb, hl, htyp⟩
    refine ⟨t', as, hd, ?_⟩
    rintro s ⟨a, b, m, l, rfl, ha, hb⟩
    have hl := ((hf a b m l request s rfl ha hb (.inl rfl)).2 rfl).1
    exact absurd ⟨a, b, m, l, request, s, rfl, ha, hb, hl, .inl rfl⟩ hc

/-- The answer to what no server gets has always the id `0`, and three slots are one too few for a
server. -/
theorem total_iff_fine (e : Env) (trunc : UInt64 → Int64) (t : AxprtInner) (x : Pub3) :
    t.Total e trunc x ↔ t.Fine e trunc x :=
  ⟨fine_of_total, total_of_fine⟩

/-- The call `[0, 5, "x"]` comes where there is no server. -/
theorem not_total_refused : ¬ ∀ (e : Env) (trunc : UInt64 → Int64) (t : AxprtInner) (s r : Str)
    (x : Pub3), decode e s = .ok (x, r) → t.Total e trunc x := by
  intro h
  have hdec : decode ⟨fun _ => none, fun _ => 0⟩ [0x93, 0, 5, 0xa1, 120] =
      .ok (.list [.int 0, .int 5, .str [120]], []) := by rfl
  have htotal := h _ (fun _ => 0) ⟨[], none, []⟩ _ _ _ hdec
  have hzero := ((fine_of_total htotal _ _ _ _ _ _ rfl rfl rfl (.inl rfl)).2 rfl).2
  have hknown : ¬ (⟨[], none, []⟩ : AxprtInner).Known ⟨fun _ => none, fun _ => 0⟩ (.str [120]) := by
    rintro ⟨_, -, -, h | ⟨_, _, -, -, -, -, h⟩⟩
    · exact h rfl
    · exact h rfl
  exact absurd (hzero hknown) (by decide)

end

end AxprtInner

end Okws
