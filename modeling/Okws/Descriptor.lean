import Okws.Child
import Okws.Lib.Transition

/-! The descriptors of the clients: who has them in `okd` and in the services, how they are passed
on and who closes them. -/

namespace Okws

/-- The message that goes with a descriptor: for which socket it is sent, and how long the address
in it is. -/
structure HandOver where
  sock : Nat
  sinSize : Nat := 16
  deriving DecidableEq

/-- One direction of a Unix-domain transport, with the descriptors and the calls under way. -/
structure Wire where
  fds : List Nat := []
  rpcs : List HandOver := []
  lost : Bool := false
  deriving DecidableEq

namespace Wire

def sendfd (w : Wire) (sock : Nat) : Wire :=
  if w.lost then w else { w with fds := w.fds ++ [sock] }

def call (w : Wire) (m : HandOver) : Wire :=
  if w.lost then w else { w with rpcs := w.rpcs ++ [m] }

/-- A descriptor and its call; the peer may go between the two. -/
def pass (w : Wire) (sock : Nat) (cut : Bool) : Wire :=
  let w := w.sendfd sock
  (if cut then { w with lost := true } else w).call ⟨sock, 16⟩

def recvfd (w : Wire) : Option Nat × Wire := (w.fds.head?, { w with fds := w.fds.tail })

/-- The peer goes away, now that the first of what was sent has arrived. -/
def cut (w : Wire) (fds rpcs : Nat) : Wire :=
  { fds := w.fds.take fds, rpcs := w.rpcs.take rpcs, lost := true }

/-- The descriptors and the calls are in the same order. -/
structure Aligned (w : Wire) : Prop where
  order : w.rpcs.map (·.sock) <+: w.fds
  whole : w.lost = false → w.fds = w.rpcs.map (·.sock)

variable {w : Wire}

theorem aligned_empty : Aligned {} := ⟨List.prefix_rfl, fun _ => rfl⟩

theorem Aligned.sendfd_lose (h : w.Aligned) (sock : Nat) :
    Aligned { w.sendfd sock with lost := true } where
  order := by
    unfold sendfd
    split
    · exact h.order
    · exact h.order.trans (List.prefix_append _ _)
  whole hl := by cases hl

theorem Aligned.sendfd_call (h : w.Aligned) (m : HandOver) :
    ((w.sendfd m.sock).call m).Aligned := by
  cases hw : w.lost with
  | true => simpa [sendfd, call, hw] using h
  | false =>
    have hfds : ((w.sendfd m.sock).call m).fds = ((w.sendfd m.sock).call m).rpcs.map (·.sock) := by
      simp [sendfd, call, hw, h.whole hw]
    exact ⟨hfds ▸ List.prefix_rfl, fun _ => hfds⟩

theorem Aligned.pass (h : w.Aligned) (sock : Nat) (cut : Bool) : (w.pass sock cut).Aligned := by
  cases cut with
  | true => exact h.sendfd_lose sock
  | false => exact h.sendfd_call ⟨sock, 16⟩

theorem Aligned.recv {m : HandOver} {ms : List HandOver} (h : w.Aligned) (hm : w.rpcs = m :: ms) :
    w.recvfd.1 = some m.sock ∧ Aligned { w.recvfd.2 with rpcs := ms } := by
  obtain ⟨rest, hr⟩ := h.order
  rw [hm, List.map_cons, List.cons_append] at hr
  refine ⟨by simp [recvfd, ← hr], ⟨rest, by simp [recvfd, ← hr]⟩, fun hl => ?_⟩
  change w.fds.tail = ms.map (·.sock)
  rw [h.whole hl, hm]
  rfl

theorem Aligned.cut (h : w.Aligned) {n m : Nat} (hm : m ≤ n) : (w.cut n m).Aligned where
  order := by
    change (w.rpcs.take m).map (·.sock) <+: w.fds.take n
    rw [List.prefix_take_iff, List.map_take, List.length_take]
    exact ⟨(List.take_prefix _ _).trans h.order, Nat.le_trans (Nat.min_le_left _ _) hm⟩
  whole hl := by cases hl

end Wire

/-- `okd` and the services, which are named by their control channels. -/
inductive Proc
  | okd
  | svc (k : Nat)
  deriving DecidableEq

/-- Who is to close a descriptor: an `ahttpcon`; nobody, since its `fail` has done it; the
function that has taken it and waits for its RPC; or nobody, since all that had to do with it has
ended. -/
inductive Owner
  | con
  | failed
  | taken
  | done
  deriving DecidableEq

/-- A descriptor that a process has got, and how often it has closed it.  A `close` that is
interrupted is made again and counts once; one that is put off counts when it is. -/
structure Desc where
  proc : Proc
  sock : Nat
  owner : Owner := .con
  closes : Nat := 0
  deriving DecidableEq

/-- A control channel, with what `okch_t` and `oksrvc_t` have of it.  `ctlx`, `clnt` and `srv` of
`okch_t` come and go together. -/
structure Ctl where
  down : Wire := {}
  up : Wire := {}
  okd : Bool := true
  state : OkcState := .launchSeq1
  ctlx : Bool := true
  clnt : Bool := true

def Ctl.chldEof (c : Ctl) (inShutdown : Bool) : Ctl :=
  { c with okd := false, state := if inShutdown then .none else .crash }

structure Fds where
  descs : List Desc := []
  ctls : List Ctl := []
  ssl : Wire := {}
  nextSock : Nat := 0
  /-- The hand-overs that came in: the socket of each, and that of the descriptor it got. -/
  received : List (Nat × Option Nat) := []

/-- `eof` says that `sendfd` finds the child gone, and whether `okd` is shutting down then; `cut`
that the peer goes between a descriptor and its call. -/
inductive FdEvent
  | accept (p : Proc)
  | sslSend (sinSize : Nat)
  | sslRecv
  | fail (i : Nat)
  | finish (i : Nat)
  | sendCon (i k : Nat) (eof : Option Bool) (cut : Bool)
  | keepalive (i : Nat) (cut : Bool)
  | reply (i : Nat)
  | svcRecv (k : Nat)
  | okdRecv (k : Nat)
  | launch
  | ready (k : Nat)
  | reserve (k : Nat) (lazy : Bool)
  | shutdown (k : Nat)
  | kill (k : Nat)
  | chldEof (k : Nat) (inShutdown : Bool)
  | svcShutdown (k : Nat) (eager : Bool)
  | cutDown (k fds rpcs : Nat)
  | cutUp (k fds rpcs : Nat)
  | cutSsl (fds rpcs : Nat)

namespace Desc

def close (d : Desc) (o : Owner) : Desc := { d with owner := o, closes := d.closes + 1 }

/-- The last reference to the `ahttpcon` goes. -/
def drop (d : Desc) : Desc := if d.owner = .con then d.close .done else { d with owner := .done }

end Desc

namespace Fds

def setDesc (s : Fds) (i : Nat) (d : Desc) : Fds := { s with descs := s.descs.set i d }

def setCtl (s : Fds) (k : Nat) (c : Ctl) : Fds := { s with ctls := s.ctls.set k c }

/-- What a process does with the descriptor that `recvfd` gives it for a call. -/
def got (s : Fds) (m : HandOver) (fd : Option Nat) (d : Nat → Desc) : Fds :=
  { s with
    received := (m.sock, fd) :: s.received
    descs := s.descs ++ (fd.map d).toList }

def sendConToService (s : Fds) (i k : Nat) (d : Desc) (c : Ctl) (eof : Option Bool) (cut : Bool) :
    Fds :=
  if d.owner = .failed then s.setDesc i d.drop
  else match eof with
    | some inShutdown =>
      let w := c.down.sendfd d.sock
      (s.setCtl k ({ c with down := { w with lost := true } }.chldEof inShutdown)).setDesc i
        (d.close .done)
    | none =>
      (s.setCtl k { c with down := c.down.pass d.sock cut }).setDesc i { d with owner := .taken }

def keepalive (s : Fds) (i k : Nat) (d : Desc) (c : Ctl) (cut : Bool) : Fds :=
  if d.owner = .failed then s.setDesc i d.drop
  else if c.ctlx && c.clnt then
    (s.setCtl k { c with up := c.up.pass d.sock cut }).setDesc i { d with owner := .taken }
  -- nobody has the descriptor any more
  else s.setDesc i { d with owner := .done }

def handleNewCon2 (s : Fds) (k : Nat) (c : Ctl) (m : HandOver) (ms : List HandOver) : Fds :=
  let (fd, w) := c.down.recvfd
  (s.setCtl k { c with down := { w with rpcs := ms } }).got m fd fun sock => ⟨.svc k, sock, .con, 0⟩

/-- `okch_t::dispatch` and `okd_t::handle_keepalive`. -/
def dispatchKeepalive (s : Fds) (k : Nat) (c : Ctl) (m : HandOver) (ms : List HandOver) : Fds :=
  if c.state = .killing then
    (s.setCtl k { c with up := { c.up with rpcs := ms } }).got m none fun sock =>
      ⟨.okd, sock, .con, 0⟩
  else
    let (fd, w) := c.up.recvfd
    (s.setCtl k { c with up := { w with rpcs := ms } }).got m fd fun sock => ⟨.okd, sock, .con, 0⟩

/-- `okd_ssl_t::dispatch`. -/
def dispatchSsl (s : Fds) (m : HandOver) (ms : List HandOver) : Fds :=
  let (fd, w) := s.ssl.recvfd
  { s with ssl := { w with rpcs := ms } }.got m fd fun sock =>
    ⟨.okd, sock, if m.sinSize < 16 then .done else .con, 0⟩

def step (s : Fds) : FdEvent → Option Fds
  | .accept p => some { s with
      descs := s.descs ++ [⟨p, s.nextSock, .con, 0⟩]
      nextSock := s.nextSock + 1 }
  | .sslSend sinSize => some { s with
      ssl := (s.ssl.sendfd s.nextSock).call ⟨s.nextSock, sinSize⟩
      nextSock := s.nextSock + 1 }
  | .sslRecv => match s.ssl.rpcs with
    | [] => none
    | m :: ms => some (s.dispatchSsl m ms)
  | .fail i => s.descs[i]?.bind fun d =>
    if d.owner = .con then some (s.setDesc i (d.close .failed)) else none
  | .finish i => s.descs[i]?.bind fun d =>
    if d.owner = .con ∨ d.owner = .failed then some (s.setDesc i d.drop) else none
  | .sendCon i k eof cut => s.descs[i]?.bind fun d => s.ctls[k]?.bind fun c =>
    if d.proc = .okd ∧ (d.owner = .con ∨ d.owner = .failed) ∧ c.okd = true then
      some (s.sendConToService i k d c eof cut)
    else none
  | .keepalive i cut => s.descs[i]?.bind fun d => match d.proc with
    | .okd => none
    | .svc k => s.ctls[k]?.bind fun c =>
      if d.owner = .con ∨ d.owner = .failed then some (s.keepalive i k d c cut) else none
  | .reply i => s.descs[i]?.bind fun d =>
    if d.owner = .taken then some (s.setDesc i (d.close .done)) else none
  | .svcRecv k => s.ctls[k]?.bind fun c => match c.down.rpcs with
    | [] => none
    | m :: ms => if c.ctlx then some (s.handleNewCon2 k c m ms) else none
  | .okdRecv k => s.ctls[k]?.bind fun c => match c.up.rpcs with
    | [] => none
    | m :: ms => if c.okd then some (s.dispatchKeepalive k c m ms) else none
  | .launch => some { s with ctls := s.ctls ++ [{}] }
  | .ready k => s.ctls[k]?.bind fun c =>
    if c.okd = true ∧ c.state = .launchSeq1 then some (s.setCtl k { c with state := .serve })
    else none
  | .reserve k lazy => s.ctls[k]?.bind fun c =>
    some (s.setCtl k { c with state := if lazy then .standby else .none })
  | .shutdown k => s.ctls[k]?.bind fun c =>
    if c.okd then some (s.setCtl k { c with state := .killing }) else none
  | .kill k => s.ctls[k]?.bind fun c =>
    some (s.setCtl k { c with okd := false, state := .none })
  | .chldEof k inShutdown => s.ctls[k]?.bind fun c =>
    some (s.setCtl k (c.chldEof inShutdown))
  | .svcShutdown k eager => s.ctls[k]?.bind fun c =>
    some (s.setCtl k { c with clnt := false, ctlx := c.ctlx && !eager })
  | .cutDown k n m => s.ctls[k]?.bind fun c =>
    if m ≤ n then some (s.setCtl k { c with down := c.down.cut n m }) else none
  | .cutUp k n m => s.ctls[k]?.bind fun c =>
    if m ≤ n then some (s.setCtl k { c with up := c.up.cut n m }) else none
  | .cutSsl n m => if m ≤ n then some { s with ssl := s.ssl.cut n m } else none

def system : Lib.System Fds FdEvent where
  init s := s = {}
  step := step

/-- No descriptor is closed twice, one that all handlers are done with is closed, and every call
finds the descriptor that was sent for it. -/
structure Sound (s : Fds) : Prop where
  once : ∀ d ∈ s.descs, d.closes ≤ 1
  closed : ∀ d ∈ s.descs, d.owner = .done → d.closes = 1
  paired : ∀ p ∈ s.received, p.2 = some p.1

/-- The addresses that come from `okssld` are whole, a connection is passed back only if there is a
channel and a client for it, and none is passed back by a child that is being killed. -/
def Calm (s : Fds) : FdEvent → Prop
  | .sslRecv => ∀ m ∈ s.ssl.rpcs.head?, 16 ≤ m.sinSize
  | .keepalive i _ => ∀ d ∈ s.descs[i]?, d.owner = .con →
      ∀ k, d.proc = .svc k → ∀ c ∈ s.ctls[k]?, c.ctlx = true ∧ c.clnt = true
  | .okdRecv k => ∀ c ∈ s.ctls[k]?, c.state ≠ .killing
  | _ => True

structure Good (d : Desc) : Prop where
  zero : d.owner = .con ∨ d.owner = .taken → d.closes = 0
  one : d.owner = .failed ∨ d.owner = .done → d.closes = 1

structure Inv (s : Fds) : Prop where
  descs : ∀ d ∈ s.descs, Good d
  down : ∀ c ∈ s.ctls, c.down.Aligned
  up : ∀ c ∈ s.ctls, c.up.Aligned
  ssl : s.ssl.Aligned
  paired : ∀ p ∈ s.received, p.2 = some p.1

theorem Inv.sound {s : Fds} (h : Inv s) : Sound s where
  once d hd := by
    have := h.descs d hd
    cases ho : d.owner with
    | con => simp [this.zero (.inl ho)]
    | failed => simp [this.one (.inl ho)]
    | taken => simp [this.zero (.inr ho)]
    | done => simp [this.one (.inr ho)]
  closed d hd ho := (h.descs d hd).one (.inr ho)
  paired := h.paired

theorem Good.close {d : Desc} (h : d.owner = .con ∨ d.owner = .taken) (hd : Good d) {o : Owner}
    (ho : o = .failed ∨ o = .done) : Good (d.close o) where
  zero hz := by rcases ho with rfl | rfl <;> simp [Desc.close] at hz
  one _ := by simp [Desc.close, hd.zero h]

theorem Good.drop {d : Desc} (h : d.owner = .con ∨ d.owner = .failed) (hd : Good d) :
    Good d.drop := by
  cases h with
  | inl h =>
    rw [Desc.drop, if_pos h]
    exact hd.close (.inl h) (.inr rfl)
  | inr h =>
    rw [Desc.drop, if_neg (by simp [h])]
    exact ⟨by simp, fun _ => hd.one (.inl h)⟩

theorem Good.take {d : Desc} (h : d.owner = .con) (hd : Good d) :
    Good { d with owner := .taken } :=
  ⟨fun _ => hd.zero (.inl h), by simp⟩

section Step

variable {s : Fds}

theorem Inv.setDesc (h : Inv s) {i : Nat} {d : Desc} (hd : Good d) : Inv (s.setDesc i d) where
  descs e he := by
    cases List.mem_or_eq_of_mem_set he with
    | inl he => exact h.descs e he
    | inr he => exact he ▸ hd
  down := h.down
  up := h.up
  ssl := h.ssl
  paired := h.paired

theorem Inv.setCtl (h : Inv s) {k : Nat} {c : Ctl} (hd : c.down.Aligned) (hu : c.up.Aligned) :
    Inv (s.setCtl k c) where
  descs := h.descs
  down e he := by
    cases List.mem_or_eq_of_mem_set he with
    | inl he => exact h.down e he
    | inr he => exact he ▸ hd
  up e he := by
    cases List.mem_or_eq_of_mem_set he with
    | inl he => exact h.up e he
    | inr he => exact he ▸ hu
  ssl := h.ssl
  paired := h.paired

theorem Inv.got (h : Inv s) {m : HandOver} {fd : Option Nat} {d : Nat → Desc}
    (hfd : fd = some m.sock) (hd : Good (d m.sock)) : Inv (s.got m fd d) where
  descs e he := by
    subst hfd
    cases List.mem_append.mp he with
    | inl he => exact h.descs e he
    | inr he => exact List.mem_singleton.mp he ▸ hd
  down := h.down
  up := h.up
  ssl := h.ssl
  paired p hp := by
    cases hp with
    | head => exact hfd
    | tail _ hp => exact h.paired p hp

theorem good_new (p : Proc) (sock : Nat) : Good ⟨p, sock, .con, 0⟩ := ⟨fun _ => rfl, by simp⟩

theorem Inv.sendCon (h : Inv s) {i k : Nat} {d : Desc} {c : Ctl} (hd : d ∈ s.descs)
    (hc : c ∈ s.ctls) (ho : d.owner = .con ∨ d.owner = .failed) (eof : Option Bool) (cut : Bool) :
    Inv (s.sendConToService i k d c eof cut) := by
  unfold sendConToService
  split
  · exact h.setDesc ((h.descs d hd).drop ho)
  case isFalse hf =>
    have ho : d.owner = .con := ho.resolve_right hf
    cases eof with
    | some b =>
      apply Inv.setDesc
      · exact h.setCtl ((h.down c hc).sendfd_lose d.sock) (h.up c hc)
      · exact (h.descs d hd).close (.inl ho) (.inr rfl)
    | none =>
      apply Inv.setDesc
      · exact h.setCtl ((h.down c hc).pass d.sock cut) (h.up c hc)
      · exact (h.descs d hd).take ho

theorem Inv.keepalive (h : Inv s) {i k : Nat} {d : Desc} {c : Ctl} (hd : d ∈ s.descs)
    (hc : c ∈ s.ctls) (ho : d.owner = .con ∨ d.owner = .failed)
    (hcalm : d.owner = .con → c.ctlx = true ∧ c.clnt = true) (cut : Bool) :
    Inv (s.keepalive i k d c cut) := by
  unfold Fds.keepalive
  split
  · exact h.setDesc ((h.descs d hd).drop ho)
  case isFalse hf =>
    have ho : d.owner = .con := ho.resolve_right hf
    rw [if_pos (by simp [hcalm ho])]
    apply Inv.setDesc
    · exact h.setCtl (h.down c hc) ((h.up c hc).pass d.sock cut)
    · exact (h.descs d hd).take ho

theorem Inv.step {s' : Fds} {e : FdEvent} (h : Inv s) (hc : Calm s e) (hs : s.step e = some s') :
    Inv s' := by
  cases e with
  | accept p =>
    cases hs
    refine ⟨fun d hd => ?_, h.down, h.up, h.ssl, h.paired⟩
    cases List.mem_append.mp hd with
    | inl hd => exact h.descs d hd
    | inr hd => exact List.mem_singleton.mp hd ▸ good_new p _
  | sslSend n =>
    cases hs
    exact ⟨h.descs, h.down, h.up, h.ssl.sendfd_call ⟨s.nextSock, n⟩, h.paired⟩
  | sslRecv =>
    simp only [Fds.step] at hs
    split at hs
    · cases hs
    case h_2 m ms hm =>
      cases hs
      have hsize : ¬ m.sinSize < 16 := Nat.not_lt.mpr (hc m (by simp [hm]))
      have hr := h.ssl.recv hm
      have hi : Inv { s with ssl := { s.ssl.recvfd.2 with rpcs := ms } } :=
        ⟨h.descs, h.down, h.up, hr.2, h.paired⟩
      exact hi.got hr.1 (by simpa [hsize] using good_new _ _)
  | fail i =>
    obtain ⟨d, hd, hs⟩ := Option.bind_eq_some_iff.mp hs
    split at hs
    case isTrue ho =>
      cases hs
      exact h.setDesc ((h.descs d (List.mem_of_getElem? hd)).close (.inl ho) (.inl rfl))
    · cases hs
  | finish i =>
    obtain ⟨d, hd, hs⟩ := Option.bind_eq_some_iff.mp hs
    split at hs
    case isTrue ho =>
      cases hs
      exact h.setDesc ((h.descs d (List.mem_of_getElem? hd)).drop ho)
    · cases hs
  | reply i =>
    obtain ⟨d, hd, hs⟩ := Option.bind_eq_some_iff.mp hs
    split at hs
    case isTrue ho =>
      cases hs
      exact h.setDesc ((h.descs d (List.mem_of_getElem? hd)).close (.inr ho) (.inr rfl))
    · cases hs
  | sendCon i k eof cut =>
    obtain ⟨d, hd, hs⟩ := Option.bind_eq_some_iff.mp hs
    obtain ⟨c, hk, hs⟩ := Option.bind_eq_some_iff.mp hs
    split at hs
    case isTrue ho =>
      cases hs
      exact h.sendCon (List.mem_of_getElem? hd) (List.mem_of_getElem? hk) ho.2.1 eof cut
    · cases hs
  | keepalive i cut =>
    obtain ⟨d, hd, hs⟩ := Option.bind_eq_some_iff.mp hs
    split at hs
    · cases hs
    case h_2 k hp =>
      obtain ⟨c, hk, hs⟩ := Option.bind_eq_some_iff.mp hs
      split at hs
      case isTrue ho =>
        cases hs
        exact h.keepalive (List.mem_of_getElem? hd) (List.mem_of_getElem? hk) ho
          (fun ho => hc d hd ho k hp c hk) cut
      · cases hs
  | svcRecv k =>
    obtain ⟨c, hk, hs⟩ := Option.bind_eq_some_iff.mp hs
    split at hs
    · cases hs
    case h_2 m ms hm =>
      split at hs
      · cases hs
        have hmem := List.mem_of_getElem? hk
        have hr := (h.down c hmem).recv hm
        apply Inv.got _ hr.1 (good_new _ _)
        exact h.setCtl hr.2 (h.up c hmem)
      · cases hs
  | okdRecv k =>
    obtain ⟨c, hk, hs⟩ := Option.bind_eq_some_iff.mp hs
    split at hs
    · cases hs
    case h_2 m ms hm =>
      split at hs
      · cases hs
        have hmem := List.mem_of_getElem? hk
        have hr := (h.up c hmem).recv hm
        rw [dispatchKeepalive, if_neg (hc c hk)]
        apply Inv.got _ hr.1 (good_new _ _)
        exact h.setCtl (h.down c hmem) hr.2
      · cases hs
  | launch =>
    cases hs
    refine ⟨h.descs, fun c hmem => ?_, fun c hmem => ?_, h.ssl, h.paired⟩ <;>
      cases List.mem_append.mp hmem with
      | inl hmem => first | exact h.down c hmem | exact h.up c hmem
      | inr hmem => exact List.mem_singleton.mp hmem ▸ Wire.aligned_empty
  | ready k =>
    obtain ⟨c, hk, hs⟩ := Option.bind_eq_some_iff.mp hs
    split at hs
    · cases hs
      exact h.setCtl (h.down c (List.mem_of_getElem? hk)) (h.up c (List.mem_of_getElem? hk))
    · cases hs
  | shutdown k =>
    obtain ⟨c, hk, hs⟩ := Option.bind_eq_some_iff.mp hs
    split at hs
    · cases hs
      exact h.setCtl (h.down c (List.mem_of_getElem? hk)) (h.up c (List.mem_of_getElem? hk))
    · cases hs
  | reserve k l | kill k | chldEof k l | svcShutdown k l =>
    obtain ⟨c, hk, hs⟩ := Option.bind_eq_some_iff.mp hs
    cases hs
    exact h.setCtl (h.down c (List.mem_of_getElem? hk)) (h.up c (List.mem_of_getElem? hk))
  | cutDown k n m =>
    obtain ⟨c, hk, hs⟩ := Option.bind_eq_some_iff.mp hs
    split at hs
    case isTrue hm =>
      cases hs
      exact h.setCtl ((h.down c (List.mem_of_getElem? hk)).cut hm)
        (h.up c (List.mem_of_getElem? hk))
    · cases hs
  | cutUp k n m =>
    obtain ⟨c, hk, hs⟩ := Option.bind_eq_some_iff.mp hs
    split at hs
    case isTrue hm =>
      cases hs
      exact h.setCtl (h.down c (List.mem_of_getElem? hk))
        ((h.up c (List.mem_of_getElem? hk)).cut hm)
    · cases hs
  | cutSsl n m =>
    simp only [Fds.step] at hs
    split at hs
    case isTrue hm =>
      cases hs
      exact ⟨h.descs, h.down, h.up, h.ssl.cut hm, h.paired⟩
    · cases hs

theorem inv_init : Inv {} := by
  constructor
  all_goals first | exact Wire.aligned_empty | simp

theorem sound_of_calm (h : system.Reach Calm s) : Sound s := by
  apply Inv.sound
  apply h.invariant
  · rintro s rfl
    exact inv_init
  · intro s e s' _ hi hc hs
    exact hi.step hc hs

end Step

/-- A connection goes to a service, back to `okd` and ends there. -/
theorem sound_of_calm_back : ∃ s, system.Reach Calm s ∧ Sound s ∧
    s.descs.map (·.closes) = [1, 1, 1] ∧ s.received = [(0, some 0), (0, some 0)] := by
  have h₀ : system.Reach Calm {} := .init rfl
  have h₁ := h₀.step (e := FdEvent.launch) trivial rfl
  have h₂ := h₁.step (e := FdEvent.ready 0) trivial rfl
  have h₃ := h₂.step (e := FdEvent.accept .okd) trivial rfl
  have h₄ := h₃.step (e := FdEvent.sendCon 0 0 none false) trivial rfl
  have h₅ := h₄.step (e := FdEvent.svcRecv 0) trivial rfl
  have h₆ := h₅.step (e := FdEvent.reply 0) trivial rfl
  have h₇ := h₆.step (e := FdEvent.keepalive 1 false) (by
    rintro d ⟨⟩ - k ⟨⟩ c ⟨⟩
    exact ⟨rfl, rfl⟩) rfl
  have h₈ := h₇.step (e := FdEvent.okdRecv 0) (by
    rintro c ⟨⟩
    decide) rfl
  have h₉ := h₈.step (e := FdEvent.reply 1) trivial rfl
  have h := h₉.step (e := FdEvent.finish 2) trivial rfl
  exact ⟨_, h, sound_of_calm h, rfl, rfl⟩

/-- The service is shutting down and has no client for its channel any more. -/
theorem not_sound_shutdown : ¬ ∀ s, system.Reachable s → Sound s := by
  intro h
  have hr := Lib.System.reachable_exec [.launch, .ready 0, .accept .okd, .sendCon 0 0 none false,
    .svcRecv 0, .reply 0, .svcShutdown 0 false, .keepalive 1 false] (M := system) (s := {}) rfl rfl
  have := (h _ hr).closed ⟨.svc 0, 0, .done, 0⟩ (by decide) rfl
  cases this

end Fds

end Okws
