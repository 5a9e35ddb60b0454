import Okws.Lib.Transition

/-! `okwc_req_t`: a request of the HTTP client, from its launch to the callback of the user. -/

namespace Okws

/-- The state of `okwc_http_t`, which sends the request and reads the response. -/
inductive OkwcHttp
  | req
  | hdr
  | body
  deriving DecidableEq

/-- The members of the request, and what may still call a handler of it: the queue of the DNS cache,
`tcpconnect`, the end of a `send`, with its cancel flag, and the input buffer.  `astray` is a
handler that runs on a request that is deleted, or by way of a null pointer. -/
structure OkwcReq where
  launched : Bool := false
  waitingForDns : Bool := false
  tcpcon : Bool := false
  http : Option OkwcHttp := none
  timer : Bool := false
  deleted : Bool := false
  dnsQueue : Bool := false
  connecting : Bool := false
  sending : Option Bool := none
  reading : Bool := false
  cancelled : Bool := false
  callbacks : Nat := 0
  astray : Bool := false
  deriving DecidableEq

namespace OkwcReq

variable (s : OkwcReq)

def finish : OkwcReq :=
  { s with callbacks := s.callbacks + 1, deleted := true, http := none, reading := false,
           timer := false }

def handler (f : OkwcReq → OkwcReq) : OkwcReq :=
  if s.deleted then { s with astray := true } else f s

def dnsCb (ok : Bool) : OkwcReq := s.handler fun s =>
  let s := { s with waitingForDns := false }
  if ok then { s with tcpcon := true, connecting := true } else s.finish

def tcpconCb (ok : Bool) : OkwcReq := s.handler fun s =>
  let s := { s with tcpcon := false }
  if ok then { s with http := some .req, sending := some false } else s.finish

/-- `okwc_http_t::cancel`. -/
def httpCancel : OkwcReq := match s.http with
  | none => { s with astray := true }
  | some .req => { s with sending := s.sending.map fun _ => true }
  | some .hdr | some .body => { s with reading := false }

def cancel (fromDcb : Bool) : OkwcReq := s.handler fun s =>
  let s := if fromDcb then { s with timer := false } else s
  let s :=
    if s.tcpcon then
      { s with connecting := false, tcpcon := false, astray := s.astray || s.http.isSome }
    else if !s.waitingForDns then s.httpCancel
    else s
  s.finish

/-- `hdrParsed` and `bodyParsed` are the ends of the exchange, the first one only if it failed. -/
inductive Event
  | launch (timeout : Bool) (answer : Option Bool)
  | dns (ok : Bool)
  | connected (ok : Bool)
  | sent
  | hdrParsed (ok : Bool)
  | bodyParsed
  | timeout
  | cancel

def step : Event → Option OkwcReq
  | .launch timeout answer =>
    if s.launched then none
    else
      let s := { s with launched := true, timer := timeout, waitingForDns := true }
      match answer with
      | none => some { s with dnsQueue := true }
      | some ok => some (s.dnsCb ok)
  | .dns ok => if s.dnsQueue then some (dnsCb { s with dnsQueue := false } ok) else none
  | .connected ok =>
    if s.connecting then some (tcpconCb { s with connecting := false } ok) else none
  | .sent => match s.sending with
    | none => none
    | some true => some { s with sending := none }
    | some false => match s.http with
      | none => some { s with sending := none, astray := true }
      | some _ => some { s with sending := none, http := some .hdr, reading := true }
  | .hdrParsed ok =>
    if s.reading ∧ s.http = some .hdr then
      some (if ok then { s with http := some .body } else s.handler finish)
    else none
  | .bodyParsed =>
    if s.reading ∧ s.http = some .body then some (s.handler finish) else none
  | .timeout => if s.timer then some (s.cancel true) else none
  | .cancel =>
    if s.launched ∧ s.callbacks = 0 ∧ s.cancelled = false then
      some (OkwcReq.cancel { s with cancelled := true } false)
    else none

def system : Lib.System OkwcReq Event where
  init s := s = {}
  step := step

/-- The callback is called once, when the request is deleted; until then something is under way that
leads there; and no handler goes astray. -/
structure Sound : Prop where
  once : s.callbacks = if s.deleted then 1 else 0
  pending : s.launched = true → s.deleted = false →
    s.dnsQueue = true ∨ s.connecting = true ∨ s.sending = some false ∨ s.reading = true
  straight : s.astray = false

/-- Nothing cancels the request while it waits for the DNS. -/
def Calm : Event → Prop
  | .timeout | .cancel => s.waitingForDns = false
  | _ => True

/-- Where a request is.  Once it is deleted, at most a `send` is left, whose flag is up. -/
inductive Phase : OkwcReq → Prop
  | fresh : Phase {}
  | dns {timer} : Phase { launched := true, timer, waitingForDns := true, dnsQueue := true }
  | tcp {timer} : Phase { launched := true, timer, tcpcon := true, connecting := true }
  | req {timer} : Phase { launched := true, timer, http := some .req, sending := some false }
  | hdr {timer} : Phase { launched := true, timer, http := some .hdr, reading := true }
  | body {timer} : Phase { launched := true, timer, http := some .body, reading := true }
  | done {cancelled sending} : sending ≠ some false →
      Phase { launched := true, deleted := true, callbacks := 1, cancelled, sending }

section Invariant

variable {s t : OkwcReq} {e : Event}

theorem Phase.sound (h : Phase s) : s.Sound := by
  cases h with
  | fresh => exact ⟨rfl, nofun, rfl⟩
  | dns => exact ⟨rfl, fun _ _ => .inl rfl, rfl⟩
  | tcp => exact ⟨rfl, fun _ _ => .inr (.inl rfl), rfl⟩
  | req => exact ⟨rfl, fun _ _ => .inr (.inr (.inl rfl)), rfl⟩
  | hdr | body => exact ⟨rfl, fun _ _ => .inr (.inr (.inr rfl)), rfl⟩
  | done => exact ⟨rfl, nofun, rfl⟩

theorem Phase.launch {timeout : Bool} {answer : Option Bool} (h : Phase s)
    (hs : s.step (.launch timeout answer) = some t) : Phase t := by
  cases h with
  | fresh =>
    cases answer with
    | none =>
      cases hs
      exact .dns
    | some ok => cases ok with
      | true =>
        cases hs
        exact .tcp
      | false =>
        cases hs
        exact .done nofun
  | dns | tcp | req | hdr | body | done => cases hs

theorem Phase.dnsCb {ok : Bool} (h : Phase s) (hs : s.step (.dns ok) = some t) : Phase t := by
  cases h with
  | dns => cases ok with
    | true =>
      cases hs
      exact .tcp
    | false =>
      cases hs
      exact .done nofun
  | fresh | tcp | req | hdr | body | done => cases hs

theorem Phase.tcpconCb {ok : Bool} (h : Phase s) (hs : s.step (.connected ok) = some t) :
    Phase t := by
  cases h with
  | tcp => cases ok with
    | true =>
      cases hs
      exact .req
    | false =>
      cases hs
      exact .done nofun
  | fresh | dns | req | hdr | body | done => cases hs

theorem Phase.parse (h : Phase s) (hs : s.step .sent = some t) : Phase t := by
  cases h with
  | req =>
    cases hs
    exact .hdr
  | @done cancelled sending hsending => cases sending with
    | none => cases hs
    | some flag => cases flag with
      | true =>
        cases hs
        exact .done nofun
      | false => exact absurd rfl hsending
  | fresh | dns | tcp | hdr | body => cases hs

theorem Phase.hdrParsed {ok : Bool} (h : Phase s) (hs : s.step (.hdrParsed ok) = some t) :
    Phase t := by
  cases h with
  | hdr => cases ok with
    | true =>
      cases hs
      exact .body
    | false =>
      cases hs
      exact .done nofun
  | fresh | dns | tcp | req | body | done => cases hs

theorem Phase.bodyParsed (h : Phase s) (hs : s.step .bodyParsed = some t) : Phase t := by
  cases h with
  | body =>
    cases hs
    exact .done nofun
  | fresh | dns | tcp | req | hdr | done => cases hs

theorem Phase.timeout (h : Phase s) (hcalm : s.Calm .timeout) (hs : s.step .timeout = some t) :
    Phase t := by
  cases h with
  | dns => cases hcalm
  | @tcp timer | @req timer | @hdr timer | @body timer => cases timer with
    | true =>
      cases hs
      exact .done nofun
    | false => cases hs
  | fresh | done => cases hs

theorem Phase.cancel (h : Phase s) (hcalm : s.Calm .cancel) (hs : s.step .cancel = some t) :
    Phase t := by
  cases h with
  | dns => cases hcalm
  | tcp | req | hdr | body =>
    cases hs
    exact .done nofun
  | fresh | done => cases hs

theorem Phase.step (h : Phase s) (hcalm : s.Calm e) (hs : s.step e = some t) : Phase t := by
  cases e with
  | launch timeout answer => exact h.launch hs
  | dns ok => exact h.dnsCb hs
  | connected ok => exact h.tcpconCb hs
  | sent => exact h.parse hs
  | hdrParsed ok => exact h.hdrParsed hs
  | bodyParsed => exact h.bodyParsed hs
  | timeout => exact h.timeout hcalm hs
  | cancel => exact h.cancel hcalm hs

theorem completes_once (h : system.Reach Calm s) : s.Sound := by
  have hphase : Phase s := by
    refine h.invariant ?_ fun s e t _ hi hc hs => hi.step hc hs
    rintro s rfl
    exact .fresh
  exact hphase.sound

/-- A request that is cancelled while the response is read. -/
theorem completes_once_cancelled :
    Sound { launched := true, deleted := true, cancelled := true, callbacks := 1 } := by
  have h₀ : system.Reach Calm {} := .init rfl
  have h₁ := h₀.step (e := Event.launch true none) trivial rfl
  have h₂ := h₁.step (e := Event.dns true) trivial rfl
  have h₃ := h₂.step (e := Event.connected true) trivial rfl
  have h₄ := h₃.step (e := Event.sent) trivial rfl
  have h₅ := h₄.step (e := Event.cancel) rfl rfl
  exact completes_once h₅

/-- The request is cancelled while it waits for the DNS, and the answer comes. -/
theorem dns_astray : ¬ ∀ s, system.Reachable s → s.Sound := by
  intro h
  have hstraight := (h _ (Lib.System.reachable_exec (M := system)
    [.launch false none, .cancel, .dns false] rfl rfl)).straight
  exact absurd hstraight (by decide)

end Invariant

end OkwcReq

end Okws
