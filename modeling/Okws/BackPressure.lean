import Okws.Cluster

/-! The control channel between `okd` and a service: `okd` sends connections, and the service
says when it wants no more and when it does again. -/

namespace Okws

open Lib

/-- The water marks as `okld` checks them. -/
structure SvcConfig where
  fdsLowWat : Nat
  fdsHighWat : Nat
  marks : fdsHighWat = 0 ∨ fdsLowWat ≤ fdsHighWat
  aggressiveSvcRestart : Bool

inductive ToSvc
  | sendCon (con : Nat)
  | kill
  deriving DecidableEq

/-- What `okd` reads from the channel; `eof` is what is left of one that was closed. -/
inductive ToOkd
  | reply (con : Nat) (res : SendRes)
  | reenableAccept
  | eof
  deriving DecidableEq

/-- `oksrvc_t`; `nullRpc` says that an RPC was issued on a `clnt` that is `NULL`. -/
structure Svc where
  nFdOut : Nat := 0
  acceptEnabled : Bool := true
  sdflag : Bool := false
  clnt : Bool := true
  ctlx : Bool := true
  nullRpc : Bool := false
  deriving DecidableEq

/-- The child as `okd` sees it, the service, and the messages on their way. -/
structure Channel where
  okd : Child := { state := .serve, ctlx := some false }
  svc : Svc := {}
  toSvc : List ToSvc := []
  toOkd : List ToOkd := []
  next : Nat := 0
  deriving DecidableEq

inductive ChannelEvent
  /-- `okd` sends a connection. -/
  | send
  /-- `okd` shuts the child down. -/
  | kill
  /-- The service handles a message.  A connection may come with a bad descriptor, and one that
  is good may be closed while it is being served. -/
  | svcRecv (fdOk closed : Bool)
  | okdRecv
  | closedFd
  | internalShutdown

namespace Svc

variable (cfg : SvcConfig)

def disableAccept (s : Svc) : Svc := { s with acceptEnabled := false }

/-- `enable_accept`, with the call in `enable_accept_guts`. -/
def enableAccept (s : Svc) : Svc × List ToOkd :=
  if s.acceptEnabled then (s, [])
  else ({ s with acceptEnabled := true, nullRpc := s.nullRpc || !s.clnt },
    if s.clnt then [.reenableAccept] else [])

def closedFd (s : Svc) : Svc × List ToOkd :=
  let s := { s with nFdOut := s.nFdOut - 1 }
  if s.nFdOut < cfg.fdsLowWat ∧ s.acceptEnabled = false then s.enableAccept else (s, [])

/-- A new connection is served, or told that the service is shutting down. -/
def serve (s : Svc) (closed : Bool) : Svc × List ToOkd :=
  let s := { s with nFdOut := s.nFdOut + 1 }
  if closed then s.closedFd cfg else (s, [])

/-- `handle_new_con2` and `newclnt`. -/
def handleNewCon2 (s : Svc) (con : Nat) (fdOk closed : Bool) : Svc × List ToOkd :=
  if fdOk then
    let r := s.serve cfg closed
    if cfg.fdsHighWat ≠ 0 ∧ cfg.fdsHighWat ≤ r.1.nFdOut then
      (r.1.disableAccept, r.2 ++ [.reply con .nomore])
    else (r.1, r.2 ++ [.reply con .ok])
  else (s, [.reply con .failed])

/-- `shutdown`, without the end of the program. -/
def shutdown (s : Svc) (endOfOkwsRun : Bool) : Svc × List ToOkd :=
  let s := { s with sdflag := true, clnt := false }
  -- `ctlclose`
  if cfg.aggressiveSvcRestart && !endOfOkwsRun then ({ s with ctlx := false },
    if s.ctlx then [.eof] else [])
  else (s, [])

end Svc

namespace Child

/-- What `okd` does with a message of the service. -/
def recv (ch : Child) : ToOkd → Child
  | .reply con res => ch.finished con res
  | .reenableAccept => if ch.state = .killing then ch else ch.reenabled
  | .eof => ch.chldEof

end Child

namespace Channel

variable (cfg : SvcConfig)

/-- The service has done something that makes it send `out`. -/
def put (c : Channel) (r : Svc × List ToOkd) : Channel :=
  { c with svc := r.1, toOkd := c.toOkd ++ r.2 }

/-- `okd` sends a message, which is lost when the other end is closed. -/
def post (c : Channel) (m : ToSvc) : Channel :=
  { c with toSvc := if c.svc.ctlx then c.toSvc ++ [m] else c.toSvc }

/-- `send_con_to_service`, for a child that is ready. -/
def send (c : Channel) : Option Channel :=
  if c.okd.state = .serve ∧ c.okd.ctlx = some false ∧ c.okd.tooBusy = false then
    some { c.post (.sendCon c.next) with
      okd := { c.okd with nfdInXit := c.okd.nfdInXit + 1 }
      next := c.next + 1 }
  else none

/-- `okch_t::shutdown` with OK_SIG_SOFTKILL. -/
def kill (c : Channel) : Option Channel :=
  if c.okd.ctlx.isSome then some { c.post .kill with okd := { c.okd with state := .killing } }
    else none

/-- Once the service has closed its end, nothing gets through to it. -/
def hangup (c : Channel) : Channel := if c.svc.ctlx then c else { c with toSvc := [] }

def step (c : Channel) : ChannelEvent → Option Channel
  | .send => c.send
  | .kill => c.kill
  | .svcRecv fdOk closed => match c.toSvc with
    | [] => none
    | .sendCon con :: toSvc =>
      some ({ c with toSvc := toSvc }.put (c.svc.handleNewCon2 cfg con fdOk closed))
    | .kill :: toSvc => some ({ c with toSvc := toSvc }.put (c.svc.shutdown cfg true)).hangup
  | .okdRecv => match c.toOkd with
    | [] => none
    | m :: toOkd => some { c with okd := c.okd.recv m, toOkd := toOkd }
  | .closedFd => if 0 < c.svc.nFdOut then some (c.put (c.svc.closedFd cfg)) else none
  | .internalShutdown => some (c.put (c.svc.shutdown cfg false)).hangup

def system : System Channel ChannelEvent where
  init c := c = {}
  step := step cfg

/-- The two ends agree, the service takes connections when it has few, and no RPC is issued on a
null handle. -/
structure Agrees (c : Channel) : Prop where
  inSync : c.toSvc = [] → c.toOkd = [] → c.okd.tooBusy = !c.svc.acceptEnabled
  below : c.svc.nFdOut < cfg.fdsLowWat → c.svc.acceptEnabled = true
  noNull : c.svc.nullRpc = false

/-- What a step must not do: close a descriptor when this enables accept after the shutdown has
begun, or let a re-enable reach a child that `okd` is killing. -/
def Orderly (c : Channel) : ChannelEvent → Prop
  | .closedFd => c.svc.clnt = true ∨ c.svc.acceptEnabled = true ∨ cfg.fdsLowWat < c.svc.nFdOut
  | .okdRecv => c.toOkd.head? = some .reenableAccept → c.okd.state ≠ .killing
  | _ => True

/-- `too_busy` when all that is on its way has arrived. -/
def busyAfter (tooBusy : Bool) : List ToOkd → Bool
  | [] => tooBusy
  | .reply _ res :: ms => busyAfter (tooBusy || res = .nomore) ms
  | .reenableAccept :: ms => busyAfter false ms
  | .eof :: ms => busyAfter tooBusy ms

structure Inv (c : Channel) : Prop where
  busy : busyAfter c.okd.tooBusy c.toOkd = !c.svc.acceptEnabled
  low : c.svc.acceptEnabled = false → cfg.fdsLowWat ≤ c.svc.nFdOut
  noNull : c.svc.nullRpc = false

section Inv

variable {cfg} {c c' : Channel}

theorem busyAfter_append (b : Bool) (ms ms' : List ToOkd) :
    busyAfter b (ms ++ ms') = busyAfter (busyAfter b ms) ms' := by
  induction ms generalizing b with
  | nil => rfl
  | cons m ms ih => cases m <;> exact ih _

structure Sound (cfg : SvcConfig) (s : Svc) (r : Svc × List ToOkd) : Prop where
  busy : busyAfter (!s.acceptEnabled) r.2 = !r.1.acceptEnabled
  low : r.1.acceptEnabled = false → cfg.fdsLowWat ≤ r.1.nFdOut
  noNull : r.1.nullRpc = false

theorem Inv.put {r : Svc × List ToOkd} (h : Inv cfg c) (hr : Sound cfg c.svc r) :
    Inv cfg (c.put r) where
  busy := by rw [Channel.put, busyAfter_append, h.busy, hr.busy]
  low := hr.low
  noNull := hr.noNull

theorem sound_closedFd {s : Svc} (hnull : s.nullRpc = false)
    (hs : s.clnt = true ∨ s.acceptEnabled = true ∨ cfg.fdsLowWat < s.nFdOut) :
    Sound cfg s (s.closedFd cfg) := by
  unfold Svc.closedFd Svc.enableAccept
  dsimp only
  split
  · next hlt =>
    -- accept is enabled again, and the handle is there
    have hclnt : s.clnt = true := by
      obtain h | h | h := hs
      · exact h
      · simp [h] at hlt
      · omega
    simp only [hlt.2, Bool.false_eq_true, if_false, hclnt, if_true]
    exact ⟨rfl, nofun, by simp [hnull]⟩
  · next hlt =>
    refine ⟨rfl, fun ha => ?_, hnull⟩
    exact Nat.not_lt.mp fun h => hlt ⟨h, ha⟩

theorem sound_serve {s : Svc} (hlow : s.acceptEnabled = false → cfg.fdsLowWat ≤ s.nFdOut)
    (hnull : s.nullRpc = false) (closed : Bool) : Sound cfg s (s.serve cfg closed) := by
  unfold Svc.serve
  cases closed with
  | false => exact ⟨rfl, fun ha => Nat.le_succ_of_le (hlow ha), hnull⟩
  | true =>
    have hs : Sound cfg { s with nFdOut := s.nFdOut + 1 }
        ({ s with nFdOut := s.nFdOut + 1 }.closedFd cfg) := by
      refine sound_closedFd hnull (.inr ?_)
      cases ha : s.acceptEnabled with
      | true => exact .inl rfl
      | false => exact .inr (Nat.lt_succ_of_le (hlow ha))
    exact ⟨hs.busy, hs.low, hs.noNull⟩

theorem sound_handleNewCon2 {s : Svc} (hlow : s.acceptEnabled = false → cfg.fdsLowWat ≤ s.nFdOut)
    (hnull : s.nullRpc = false) (con : Nat) (fdOk closed : Bool) :
    Sound cfg s (s.handleNewCon2 cfg con fdOk closed) := by
  have hr := sound_serve hlow hnull closed
  unfold Svc.handleNewCon2
  split
  · dsimp only
    split
    · next hhi =>
      refine ⟨by simp [busyAfter_append, busyAfter, Svc.disableAccept], fun _ => ?_, hr.noNull⟩
      have hmarks := cfg.marks
      simp only [Svc.disableAccept]
      omega
    · exact ⟨by simp [busyAfter_append, busyAfter, hr.busy], hr.low, hr.noNull⟩
  · exact ⟨by simp [busyAfter], hlow, hnull⟩

theorem sound_shutdown {s : Svc} (hlow : s.acceptEnabled = false → cfg.fdsLowWat ≤ s.nFdOut)
    (hnull : s.nullRpc = false) (endOfOkwsRun : Bool) :
      Sound cfg s (s.shutdown cfg endOfOkwsRun) := by
  unfold Svc.shutdown
  dsimp only
  split
  · refine ⟨?_, hlow, hnull⟩
    split <;> rfl
  · exact ⟨rfl, hlow, hnull⟩

theorem Inv.hangup (h : Inv cfg c) : Inv cfg c.hangup := by
  unfold Channel.hangup
  split
  · exact h
  · exact ⟨h.busy, h.low, h.noNull⟩

theorem step_inv {e : ChannelEvent} (h : Inv cfg c) (ho : Orderly cfg c e)
    (hs : c.step cfg e = some c') : Inv cfg c' := by
  cases e with
  | send =>
    simp only [step, Channel.send] at hs
    split at hs <;> cases hs
    exact ⟨h.busy, h.low, h.noNull⟩
  | kill =>
    simp only [step, Channel.kill] at hs
    split at hs <;> cases hs
    exact ⟨h.busy, h.low, h.noNull⟩
  | svcRecv fdOk closed =>
    simp only [step] at hs
    split at hs <;> cases hs
    · next con toSvc _ =>
      have h' : Inv cfg { c with toSvc := toSvc } := ⟨h.busy, h.low, h.noNull⟩
      exact h'.put (sound_handleNewCon2 h.low h.noNull con fdOk closed)
    · next toSvc _ =>
      have h' : Inv cfg { c with toSvc := toSvc } := ⟨h.busy, h.low, h.noNull⟩
      exact (h'.put (sound_shutdown h.low h.noNull true)).hangup
  | okdRecv =>
    simp only [step] at hs
    split at hs <;> cases hs
    next m toOkd htoOkd =>
    have hbusy := h.busy
    rw [htoOkd] at hbusy
    cases m with
    | reply con res => exact ⟨hbusy, h.low, h.noNull⟩
    | reenableAccept =>
      have hk : c.okd.state ≠ .killing := ho (by rw [htoOkd]; rfl)
      refine ⟨?_, h.low, h.noNull⟩
      rw [Child.recv, if_neg hk]
      exact hbusy
    | eof => exact ⟨hbusy, h.low, h.noNull⟩
  | closedFd =>
    simp only [step] at hs
    split at hs <;> cases hs
    exact h.put (sound_closedFd h.noNull ho)
  | internalShutdown =>
    cases hs
    exact (h.put (sound_shutdown h.low h.noNull false)).hangup

end Inv

theorem agrees_of_orderly {c : Channel} (h : (system cfg).Reach (Orderly cfg) c) :
    Agrees cfg c := by
  have hinv : Inv cfg c := by
    refine h.invariant ?_ fun _ _ _ _ hi ho hs => step_inv hi ho hs
    rintro _ rfl
    exact ⟨rfl, nofun, rfl⟩
  refine ⟨fun _ hempty => ?_, fun hlt => ?_, hinv.noNull⟩
  · simpa [hempty, busyAfter] using hinv.busy
  · by_contra ha
    have hlow := hinv.low (by simpa using ha)
    omega

def twoAtATime : SvcConfig := ⟨1, 2, .inr (Nat.le_succ 1), false⟩

/-- The service is full, and `okd` hears of it and of the end of it. -/
theorem agrees_full : ∃ c, (system twoAtATime).Reach (Orderly twoAtATime) c ∧ c.toOkd = [] ∧
    c.okd.tooBusy = false ∧ Agrees twoAtATime c := by
  have h₀ : (system twoAtATime).Reach (Orderly twoAtATime) {} := .init rfl
  have h₁ := h₀.step (show Orderly twoAtATime _ .send from trivial) rfl
  have h₂ := h₁.step (show Orderly twoAtATime _ .send from trivial) rfl
  have h₃ := h₂.step (show Orderly twoAtATime _ (.svcRecv true false) from trivial) rfl
  have h₄ := h₃.step (show Orderly twoAtATime _ (.svcRecv true false) from trivial) rfl
  have h₅ := h₄.step (show Orderly twoAtATime _ .okdRecv from nofun) rfl
  have h₆ := h₅.step (show Orderly twoAtATime _ .okdRecv from nofun) rfl
  have h₇ := h₆.step (show Orderly twoAtATime _ .closedFd from .inl rfl) rfl
  have h₈ := h₇.step (show Orderly twoAtATime _ .closedFd from .inl rfl) rfl
  have h₉ := h₈.step (show Orderly twoAtATime _ .okdRecv from fun _ => nofun) rfl
  exact ⟨_, h₉, rfl, rfl, agrees_of_orderly twoAtATime h₉⟩

/-- The last connection is closed after the shutdown has begun. -/
theorem not_agrees_shutdown : ∃ c, (system twoAtATime).Reachable c ∧ ¬ Agrees twoAtATime c := by
  have h : ∃ c, (system twoAtATime).exec {} [.send, .send, .svcRecv true false, .svcRecv true false,
      .internalShutdown, .closedFd, .closedFd] = some c ∧ c.svc.nullRpc = true := ⟨_, rfl, rfl⟩
  obtain ⟨c, hc, hnull⟩ := h
  refine ⟨c, System.reachable_exec _ rfl hc, fun ha => ?_⟩
  rw [ha.noNull] at hnull
  cases hnull

end Channel

end Okws
