import Okws.InHdr
import Okws.Pipeliner

/-! `agent_t::req_ka`: requests that are sent on one connection, one behind the other. -/

namespace Okws

/-- What the buffer of a connection holds: as many responses have been read to their ends, or the
connection has ended, or somebody stopped inside a response. -/
inductive ConnInput
  | at (i : Nat)
  | ended
  | lost
  deriving DecidableEq

/-- A connection with its buffer: the calls whose requests were written to it, `ateof`, and the call
that waits for data. -/
structure AgentConn where
  sent : List Nat := []
  input : ConnInput := .at 0
  eof : Bool := false
  rcb : Option Nat := none

/-- How `resp_t::get` ends, with the status and `connection () == HTTP_CONN_KEEPALIVE`: at the end
of the response, at the end of the connection, inside the response, or without one. -/
inductive RespEnd
  | whole (status : Int) (keep : Bool)
  | last (status : Int) (keep : Bool)
  | part (status : Int) (keep : Bool)
  | nothing

namespace RespEnd

def status : RespEnd → Int
  | whole st _ | last st _ | part st _ => st
  | nothing => Http.badRequest

def keep : RespEnd → Bool
  | whole _ b | last _ b | part _ b => b
  | nothing => false

end RespEnd

/-- Which of the responses on the connection was read, if it was one of them, and what is left. -/
def ConnInput.read : ConnInput → RespEnd → Option (Option Nat × ConnInput)
  | .at i, .whole _ _ => some (some i, .at (i + 1))
  | .at i, .last _ _ => some (some i, .ended)
  | .at i, .part _ _ => some (some i, .lost)
  | .lost, .whole _ _ | .lost, .last _ _ | .lost, .part _ _ => some (none, .lost)
  | .at _, .nothing | .ended, .nothing | .lost, .nothing => some (none, .ended)
  | .ended, _ => none

/-- Where a call of `req_ka` waits.  One that is `gone` has left before its `advance` was done. -/
inductive CallPhase
  | first | connecting | making | second | getting | gone | done
  deriving DecidableEq

def CallPhase.asked : CallPhase → Bool
  | first | connecting | making => false
  | second | getting | gone | done => true

/-- The variables of a call: while it is connecting, `x` is the argument of `get_x`.  Buffers are
named by their connections.  The rest is what the call has been given. -/
structure KaCall where
  phase : CallPhase := .first
  x : Option Nat := none
  abuf : Option Nat := none
  resp : Option Nat := none
  given : Option (Nat × Nat) := none
  status : Option Int := none

/-- `agent_t`; the calls are named by their handles. -/
structure KeepAlive where
  pipe : Pipeliner := {}
  x : Option Nat := none
  abuf : Option Nat := none
  conns : Nat → AgentConn := fun _ => {}
  opened : Nat := 0
  calls : Nat → KaCall := fun _ => {}
  crashed : Bool := false

namespace KeepAlive

open Function (update)

variable (s : KeepAlive)

/-- A cancellation leaves variables as they are: `newone`, `status`, and what the header says of the
connection. -/
inductive Event
  | call
  | getX (k : Nat)
  | connected (k : Nat) (ok : Bool)
  | close (c : Nat)
  | made (k : Nat)
  | proceed (k : Nat)
  | get (k : Nat)
  | got (k : Nat) (e : RespEnd)
  | cancel (k : Nat) (newone : Bool) (status : Int) (keep : Bool)
  | drop (k : Nat)

def setCall (k : Nat) (f : KaCall → KaCall) : KeepAlive :=
  { s with calls := update s.calls k (f (s.calls k)) }

def setConn (c : Nat) (f : AgentConn → AgentConn) : KeepAlive :=
  { s with conns := update s.conns c (f (s.conns c)) }

def pipeline (es : List Pipeliner.Event) : Option KeepAlive :=
  (Pipeliner.system.exec s.pipe es).map fun p => { s with pipe := p }

/-- `req_ka` behind `get_x`, with a new transport or what is left of the old one. -/
def renew (k : Nat) (x : Option Nat) : KeepAlive := match x with
  -- `_x->alloc_abuf_src ()`
  | none => { s with x := none, crashed := true }
  | some c => { s with x := some c, abuf := some c }.setCall k fun v =>
    { v with phase := .making, x := some c, abuf := some c }

def clear (keep : Bool) : KeepAlive := if keep then s else { s with x := none, abuf := none }

def finish (c : Nat) : KeepAlive := s.setConn c fun d => { d with rcb := none }

/-- `alloc_resp` and the second `advance`, up to where it has let go of the first stage. -/
def respond (k c : Nat) : Option KeepAlive := match (s.calls k).abuf with
  -- the assertion of `resp_t`
  | none => some { s with crashed := true }
  | some b => ((s.setConn c fun d => { d with sent := d.sent ++ [k] }).setCall k fun v =>
    { v with phase := .second, resp := some b }).pipeline [.advance k]

/-- The end of `req_ka`. -/
def leave (k : Nat) (f : KaCall → KaCall) : Option KeepAlive :=
  (s.setCall k fun v => { f v with phase := .done }).pipeline [.destroy k]

/-- `req_ka`, from the cancellation of `ev` to its end. -/
def cancel (k : Nat) (newone : Bool) (status : Int) (keep : Bool) : Option KeepAlive :=
  let v := s.calls k
  match v.phase with
  | .first => if (0, k) ∈ s.pipe.waiting then some (s.setCall k fun v => { v with phase := .gone })
    else none
  | .connecting => if newone then some (s.renew k none) else s.leave k id
  | .making => if status = Http.ok then match v.x with
      | none => none
      | some c => (s.respond k c).map fun s =>
        ((s.finish c).clear false).setCall k fun v => { v with phase := .gone }
    -- `resp->hdr ()`
    else some { s with crashed := true }
  | .second => v.resp.map fun b =>
      ((s.finish b).clear false).setCall k fun v => { v with phase := .gone }
  | .getting => v.resp.bind fun b =>
      (((s.finish b).setConn b fun d => { d with input := .lost }).clear keep).leave k id
  | .gone | .done => none

def step (e : Event) : Option KeepAlive :=
  if s.crashed then none else match e with
  | .call =>
    (s.setCall s.pipe.next fun _ => {}).pipeline
      [.init, .advance s.pipe.next, .proceed s.pipe.next]
  | .getX k =>
    if (s.calls k).phase = .first ∧ s.pipe.inside (0, k) = true then
      some (s.setCall k fun v => match s.x with
        | some c => if (s.conns c).eof then { v with phase := .connecting, x := some c }
          else { v with phase := .making, x := some c, abuf := s.abuf }
        | none => { v with phase := .connecting, x := none })
    else none
  | .connected k ok =>
    if (s.calls k).phase = .connecting then
      some (if ok then { s with opened := s.opened + 1 }.renew k (some s.opened)
        else s.renew k (s.calls k).x)
    else none
  | .close c => some (s.setConn c fun d => { d with eof := true })
  | .made k =>
    if (s.calls k).phase = .making then (s.calls k).x.bind (s.respond k) else none
  | .proceed k => if (s.calls k).phase = .second ∨ (s.calls k).phase = .gone then
      s.pipeline [.proceed k]
    else none
  | .get k =>
    if (s.calls k).phase = .second ∧ s.pipe.inside (1, k) = true then
      (s.calls k).resp.map fun b => (s.setConn b fun d => { d with rcb := some k }).setCall k
        fun v => { v with phase := .getting }
    else none
  | .got k e => (s.calls k).resp.bind fun b =>
    if (s.calls k).phase = .getting ∧ (s.conns b).rcb = some k then
      ((s.conns b).input.read e).bind fun (pos, input) =>
        (((s.finish b).setConn b fun d => { d with input := input }).clear e.keep).leave k
          fun v => { v with given := pos.map (b, ·), status := some e.status }
    else none
  | .cancel k newone status keep => s.cancel k newone status keep
  | .drop k => if (s.calls k).phase = .gone then s.leave k id else none

def system : Lib.System KeepAlive Event where
  init s := s = {}
  step := step

def Event.of : Event → Option Nat
  | .call | .close _ => none
  | .getX k | .connected k _ | .made k | .proceed k | .get k | .got k _ | .cancel k _ _ _
  | .drop k => some k

/-- What was triggered with `HTTP_OK` has the response in the place of its request, nothing that is
null was used, and a call can come to its end when those before it have, where one that is `gone`
may still have to let go of its handle. -/
structure Sound : Prop where
  own : ∀ k, (s.calls k).status = some Http.ok →
    ∃ c i, (s.calls k).given = some (c, i) ∧ (s.conns c).sent[i]? = some k
  intact : s.crashed = false
  enabled : ∀ k < s.pipe.next,
    (∀ j < k, (s.calls j).phase = .done ∨ (s.calls j).phase = .gone) →
    ∃ es t, (∀ e ∈ es, e.of = some k ∨ ∃ j < k, (s.calls j).phase = .gone ∧ e.of = some j) ∧
      system.exec s es = some t ∧ (t.calls k).phase = .done

def Left (k : Nat) : Prop :=
  ((s.calls k).phase = .gone ∨ (s.calls k).phase = .done) ∧ (s.calls k).status = none

/-- Connections are made where there is none, no call is cancelled before its request was written or
while another one reads from its connection, and nothing that was left of a response, or left by a
call that was cancelled, passes for the response to another one. -/
def Calm : Event → Prop
  | .connected k ok => ok = false → (s.calls k).x ≠ none
  | .got k e => ∀ b, (s.calls k).resp = some b → (s.conns b).input = .lost ∨
      (∃ j < k, (s.calls j).resp = some b ∧ s.Left j) → e.status ≠ Http.ok
  | .cancel k _ _ _ => (s.calls k).phase = .getting ∨ (s.calls k).phase = .second ∧
      ∀ b, (s.calls k).resp = some b → (s.conns b).rcb = none
  | _ => True

section Pipe

variable {p t : Pipeliner} {k : Nat}

theorem exec_one {e : Pipeliner.Event} : Pipeliner.system.exec p [e] = p.step e := by
  simp [Lib.System.exec, Pipeliner.system]

theorem pipe_start {n : Nat} (h : p.Inv none) (hn : p.next = n)
    (hdead : ∀ j, n = j + 1 → (p.handles j).alive = false → 0 < p.goal j)
    (hp : Pipeliner.system.exec p [.init, .advance n, .proceed n] = some t) :
    ∃ q, q = { p.setHandle n fun _ => { alive := true } with next := n + 1 } ∧
      t.Inv none ∧ Pipeliner.Frame q t (· ≠ n) ∧ (t.handles n).stage = 1 ∧
      (t.handles n).starting = 0 ∧ (t.handles n).alive = true ∧
      ((0, n) ∈ t.log → t.inside (0, n) = true) := by
  refine ⟨_, rfl, ?_⟩
  have hq := h.init
  rw [hn] at hq
  have hfresh := h.fresh n (Nat.le_of_eq hn)
  have hstep : p.step .init =
      some { p.setHandle n fun _ => { alive := true } with next := n + 1 } := by
    rw [Pipeliner.step, hn]
  have hlog (σ : Nat) : (σ, n) ∉ p.log := fun hmem => by
    have hlt := h.entered σ n hmem
    rw [hfresh] at hlt
    exact Nat.not_lt_zero _ hlt
  have hwaiting (σ : Nat) : (σ, n) ∉ p.waiting := fun hmem => by
    have halive := (h.waiting σ n hmem).2.2.2.1
    rw [hfresh] at halive
    cases halive
  generalize hqeq : { p.setHandle n fun _ => { alive := true } with next := n + 1 } = q
    at hq hstep ⊢
  have hself : q.handles n = { alive := true } := by
    rw [← hqeq]
    simp [Pipeliner.setHandle]
  have hrel : q.release n = q := by rw [Pipeliner.release, hself]
  have hcalm : q.Calm (.advance n) := by
    subst hqeq
    unfold Pipeliner.Calm Pipeliner.goal Pipeliner.pending Pipeliner.setHandle at *
    grind
  have hadv := hq.advance (k := n) (by rw [hself]) hcalm
  rw [hrel] at hadv
  have hstep₂ : q.step (.advance n) =
      some (q.setHandle n fun h => { h with starting := h.starting + 1 }) := by
    rw [Pipeliner.step, hself, hrel, if_pos rfl]
  generalize hreq : (q.setHandle n fun h => { h with starting := h.starting + 1 }) = r
    at hadv hstep₂
  have hself₂ : r.handles n = { alive := true, starting := 1 } := by
    rw [← hreq]
    simp [Pipeliner.setHandle, hself]
  have hproc := hadv.proceed (k := n) (by rw [hself₂]; simp)
  have hstep₃ : r.step (.proceed n) = some ((r.setHandle n fun h =>
      { h with starting := h.starting - 1, stage := h.stage + 1 }).getNext
        (r.handles n).stage n) := by
    rw [Pipeliner.step, if_pos (by rw [hself₂]; simp)]
  have hget := Pipeliner.frame_getNext (r.setHandle n fun h =>
      { h with starting := h.starting - 1, stage := h.stage + 1 }) (r.handles n).stage n
  have ht : t = (r.setHandle n fun h =>
      { h with starting := h.starting - 1, stage := h.stage + 1 }).getNext
        (r.handles n).stage n := by
    have hexec := hp
    simp only [Lib.System.exec, Pipeliner.system, hstep, hstep₂, hstep₃, Option.bind_some] at hexec
    exact (Option.some.inj hexec).symm
  rw [← ht] at hproc hget
  have hqlog : q.log = p.log := by rw [← hqeq]; rfl
  have hrlog : r.log = q.log := by rw [← hreq]; rfl
  have hstage := hget.stage n trivial
  have hstarting := hget.starting n trivial
  have halive := hget.alive n trivial
  refine ⟨hproc, ?_, ?_, ?_, ?_, ?_⟩
  · have hq' : Pipeliner.Frame q (r.setHandle n fun h =>
        { h with starting := h.starting - 1, stage := h.stage + 1 }) (· ≠ n) := by
      subst hreq
      unfold Pipeliner.setHandle
      exact ⟨rfl, by grind, by grind, by grind, by grind, by grind⟩
    exact hq'.trans (hget.weaken fun _ _ => trivial)
  · simpa [Pipeliner.setHandle, hself₂] using hstage
  · simpa [Pipeliner.setHandle, hself₂] using hstarting
  · simpa [Pipeliner.setHandle, hself₂] using halive
  · intro hmem
    refine (hget.log 0 n trivial hmem).resolve_left fun hmem => hlog 0 ?_
    rw [← hqlog, ← hrlog]
    exact hmem

theorem pipe_second (h : p.Inv none) (hstage : (p.handles k).stage = 1)
    (hinside : p.inside (0, k) = true)
    (hdead : ∀ j, k = j + 1 → (p.handles j).alive = false → 1 < p.goal j)
    (hp : Pipeliner.system.exec p [.advance k] = some t) :
    t.Inv none ∧ Pipeliner.Frame p t (· ≠ k) ∧ (t.handles k).stage = 1 ∧
      (t.handles k).starting = 1 ∧ (t.handles k).alive = true := by
  rw [exec_one, Pipeliner.step] at hp
  obtain ⟨-, -, hzero, halive, hwaiting⟩ := h.inside 0 k hinside
  rw [if_pos halive] at hp
  cases hp
  have hpending : p.pending k = false := Pipeliner.pending_eq_false.mpr ⟨hzero, hwaiting⟩
  have hgoal : p.goal k = 1 := by rw [Pipeliner.goal, hstage, hzero]
  have hcalm : p.Calm (.advance k) :=
    ⟨hpending, fun j hj hd => hgoal ▸ hdead j hj hd⟩
  have hrel := h.released k
  have hframe := Pipeliner.frame_release p k
  refine ⟨h.advance halive hcalm, ?_, ?_, ?_, ?_⟩
  · refine hframe.trans ?_
    unfold Pipeliner.setHandle
    exact ⟨rfl, by grind, by grind, by grind, by grind, by grind⟩
  · simp [Pipeliner.setHandle, hrel.stage, hstage]
  · simp [Pipeliner.setHandle, hrel.starting, hzero]
  · simp [Pipeliner.setHandle, hrel.alive, halive]

theorem pipe_proceed (h : p.Inv none) (hstage : (p.handles k).stage = 1)
    (hstarting : (p.handles k).starting = 1)
    (hp : Pipeliner.system.exec p [.proceed k] = some t) :
    t.Inv none ∧ Pipeliner.Frame p t (· ≠ k) ∧ (t.handles k).stage = 2 ∧
      (t.handles k).starting = 0 ∧ (t.handles k).alive = (p.handles k).alive ∧
      ((1, k) ∈ t.log → t.inside (1, k) = true) := by
  rw [exec_one, Pipeliner.step, if_pos (by rw [hstarting]; simp)] at hp
  have hproc := h.proceed (k := k) (by rw [hstarting]; simp)
  have hget := Pipeliner.frame_getNext (p.setHandle k fun h =>
      { h with starting := h.starting - 1, stage := h.stage + 1 }) (p.handles k).stage k
  cases hp
  have hnone : (1, k) ∉ p.log := fun hmem => by
    have hlt := h.entered 1 k hmem
    omega
  refine ⟨hproc, ?_, ?_, ?_, ?_, ?_⟩
  · refine Pipeliner.Frame.trans ?_ (hget.weaken fun _ _ => trivial)
    unfold Pipeliner.setHandle
    exact ⟨rfl, by grind, by grind, by grind, by grind, by grind⟩
  · simpa [Pipeliner.setHandle, hstage] using hget.stage k trivial
  · simpa [Pipeliner.setHandle, hstarting] using hget.starting k trivial
  · simpa [Pipeliner.setHandle] using hget.alive k trivial
  · exact fun hmem => (hget.log 1 k trivial hmem).resolve_left hnone

theorem pipe_destroy (h : p.Inv none) (hstage : (p.handles k).stage = 2)
    (hinside : p.inside (1, k) = true) (hnext : p.goal (k + 1) ≤ 2)
    (hp : Pipeliner.system.exec p [.destroy k] = some t) :
    t.Inv none ∧ Pipeliner.Frame p t (· ≠ k) ∧ (t.handles k).stage = 2 ∧
      (t.handles k).starting = 0 ∧ (t.handles k).alive = false := by
  rw [exec_one, Pipeliner.step] at hp
  obtain ⟨-, -, hzero, halive, hwaiting⟩ := h.inside 1 k hinside
  have hpending : p.pending k = false := Pipeliner.pending_eq_false.mpr ⟨hzero, hwaiting⟩
  rw [if_pos ⟨halive, hpending⟩] at hp
  cases hp
  have hgoal : p.goal k = 2 := by rw [Pipeliner.goal, hstage, hzero]
  have hrel := h.released k
  refine ⟨h.destroy hpending (by rw [Pipeliner.Calm, hgoal]; exact hnext), ?_, ?_, ?_, ?_⟩
  · refine (Pipeliner.frame_release p k).trans ?_
    unfold Pipeliner.setHandle
    exact ⟨rfl, by grind, by grind, by grind, by grind, by grind⟩
  · simp [Pipeliner.setHandle, hrel.stage, hstage]
  · simp [Pipeliner.setHandle, hrel.starting, hzero]
  · simp [Pipeliner.setHandle]

end Pipe

def Linked (k : Nat) : Prop :=
  let h := s.pipe.handles k
  match (s.calls k).phase with
  | .first => h.stage = 1 ∧ h.starting = 0 ∧ h.alive = true ∧
    ((0, k) ∈ s.pipe.log → s.pipe.inside (0, k) = true)
  | .connecting => h.stage = 1 ∧ h.starting = 0 ∧ h.alive = true ∧ s.pipe.inside (0, k) = true
  | .making => h.stage = 1 ∧ h.starting = 0 ∧ h.alive = true ∧ s.pipe.inside (0, k) = true ∧
    ∃ c, (s.calls k).x = some c ∧ (s.calls k).abuf = some c
  | .second | .gone =>
    (h.stage = 1 ∧ h.starting = 1 ∨ h.stage = 2 ∧ h.starting = 0) ∧ h.alive = true ∧
    ((1, k) ∈ s.pipe.log → s.pipe.inside (1, k) = true) ∧ ∃ b, (s.calls k).resp = some b
  | .getting => h.stage = 2 ∧ h.starting = 0 ∧ h.alive = true ∧ s.pipe.inside (1, k) = true ∧
    ∃ b, (s.calls k).resp = some b ∧ (s.conns b).rcb = some k
  | .done => h.stage = 2 ∧ h.starting = 0 ∧ h.alive = false

/-- On every connection the responses are read in the order of the requests. -/
structure Inv : Prop where
  pipe : s.pipe.Inv none
  intact : s.crashed = false
  buffer : s.abuf = s.x
  linked : ∀ k < s.pipe.next, s.Linked k
  fresh : ∀ k, s.pipe.next ≤ k → s.calls k = {}
  sorted : ∀ c, (s.conns c).sent.Pairwise (· < ·)
  sender : ∀ c k, k ∈ (s.conns c).sent ↔ (s.calls k).resp = some c
  asked : ∀ k c, (s.calls k).resp = some c → (s.calls k).phase.asked = true
  bound : ∀ c i, (s.conns c).input = .at i → (∀ l ∈ (s.conns c).sent, ¬ s.Left l) →
    i ≤ (s.conns c).sent.length
  order : ∀ c i, (s.conns c).input = .at i → ∀ j k, (s.conns c).sent[j]? = some k →
    (∀ l ∈ (s.conns c).sent, l ≤ k → ¬ s.Left l) → ((s.calls k).phase = .done ↔ j < i)
  own : ∀ k, (s.calls k).status = some Http.ok →
    ∃ c i, (s.calls k).given = some (c, i) ∧ (s.conns c).sent[i]? = some k
  status : ∀ k, (s.calls k).phase ≠ .done → (s.calls k).status = none

section Invariant

variable {s} {t : KeepAlive} {k : Nat}

theorem Linked.frame {j : Nat} (h : s.Linked j) (hf : Pipeliner.Frame s.pipe t.pipe (· ≠ k))
    (hj : j ≠ k) (hcall : t.calls j = s.calls j)
    (hrcb : ∀ b, (s.calls j).phase = .getting → (s.calls j).resp = some b →
      (t.conns b).rcb = (s.conns b).rcb) : t.Linked j := by
  have hstage := hf.stage j hj
  have hstarting := hf.starting j hj
  have halive := hf.alive j hj
  have hinside := fun σ => hf.inside σ j hj
  have hlog := fun σ => hf.log σ j hj
  unfold Linked at h ⊢
  dsimp only at h ⊢
  rw [hcall, hstage, hstarting, halive]
  cases hphase : (s.calls j).phase <;> simp only [hphase] at h ⊢
  case first =>
    exact ⟨h.1, h.2.1, h.2.2.1, fun hmem =>
      (hlog 0 hmem).elim (fun hs => hinside 0 (h.2.2.2 hs)) id⟩
  case connecting => exact ⟨h.1, h.2.1, h.2.2.1, hinside 0 h.2.2.2⟩
  case making => exact ⟨h.1, h.2.1, h.2.2.1, hinside 0 h.2.2.2.1, h.2.2.2.2⟩
  case second | gone =>
    exact ⟨h.1, h.2.1, fun hmem => (hlog 1 hmem).elim (fun hs => hinside 1 (h.2.2.1 hs)) id,
      h.2.2.2⟩
  case getting =>
    obtain ⟨b, hb, hr⟩ := h.2.2.2.2
    exact ⟨h.1, h.2.1, h.2.2.1, hinside 1 h.2.2.2.1, b, hb, (hrcb b hphase hb).trans hr⟩
  case done => exact h

theorem Inv.dead (h : s.Inv) (hdead : (s.pipe.handles k).alive = false) (hk : k < s.pipe.next) :
    s.pipe.goal k = 2 := by
  have hl := h.linked k hk
  unfold Linked at hl
  unfold Pipeliner.goal
  split at hl <;> grind

theorem Inv.goal_le (h : s.Inv) (k : Nat) : s.pipe.goal k ≤ 2 := by
  by_cases hk : k < s.pipe.next
  · have hl := h.linked k hk
    unfold Linked at hl
    unfold Pipeliner.goal
    split at hl <;> grind
  · have hfresh := h.pipe.fresh k (Nat.le_of_not_lt hk)
    simp [Pipeliner.goal, hfresh]

theorem Inv.before (h : s.Inv) {σ j : Nat} (hk : s.pipe.inside (σ, k) = true) (hj : j < k) :
    (σ, j) ∈ s.pipe.log ∧ s.pipe.inside (σ, j) = false :=
  h.pipe.follow σ j (h.pipe.down (h.pipe.inside σ k hk).1 hj)

theorem Inv.alone (h : s.Inv) {j : Nat} (hk : s.pipe.inside (1, k) = true)
    (hj : (s.calls j).phase = .getting) (hn : j < s.pipe.next) : j = k := by
  have hl := h.linked j hn
  unfold Linked at hl
  rw [hj] at hl
  exact h.pipe.exclusive hl.2.2.2.1 hk

theorem Inv.later (h : s.Inv) (hphase : (s.calls k).phase = .making)
    (hk : s.pipe.inside (0, k) = true) {c j : Nat} (hj : j ∈ (s.conns c).sent) : j < k := by
  have hresp := (h.sender c j).mp hj
  have hasked := h.asked j c hresp
  have hn : j < s.pipe.next := by
    by_contra hn
    rw [h.fresh j (Nat.le_of_not_lt hn)] at hresp
    cases hresp
  have hne : j ≠ k := by
    rintro rfl
    rw [hphase] at hasked
    cases hasked
  have hstage : 0 < (s.pipe.handles j).stage := by
    have hl := h.linked j hn
    unfold Linked at hl
    split at hl <;> grind
  by_contra hlt
  have hkj : k < j := by omega
  have hlog : (0, j) ∈ s.pipe.log := by
    obtain hlog | hwait | hx := h.pipe.stage 0 j hstage
    · exact hlog
    · have hwait := h.pipe.waiting 0 j hwait
      have hl := h.linked j hn
      unfold Linked at hl
      unfold CallPhase.asked at hasked
      split at hl <;> grind
    · cases hx
  have hin := (h.pipe.follow 0 k (h.pipe.down hlog hkj)).2
  rw [hk] at hin
  cases hin

theorem Inv.earlier (h : s.Inv) (hk : s.pipe.inside (1, k) = true) {l b : Nat} (hl : l < k)
    (hn : k < s.pipe.next) (hresp : (s.calls l).resp = some b) : (s.calls l).phase = .done := by
  have hasked := h.asked l b hresp
  obtain ⟨hlog, hout⟩ := h.before hk hl
  have hlinked := h.linked l (Nat.lt_trans hl hn)
  unfold Linked at hlinked
  unfold CallPhase.asked at hasked
  split at hlinked <;> grind

theorem sorted_index {l : List Nat} (h : l.Pairwise (· < ·)) {i j a b : Nat}
    (hi : l[i]? = some a) (hj : l[j]? = some b) (hij : i < j) : a < b := by
  obtain ⟨hi', rfl⟩ := List.getElem?_eq_some_iff.mp hi
  obtain ⟨hj', rfl⟩ := List.getElem?_eq_some_iff.mp hj
  exact List.pairwise_iff_getElem.mp h i j hi' hj' hij

theorem Inv.place (h : s.Inv) (hphase : (s.calls k).phase = .getting)
    (hin : s.pipe.inside (1, k) = true) (hk : k < s.pipe.next)
    {b i : Nat} (hb : (s.calls k).resp = some b) (hi : (s.conns b).input = .at i)
    (hleft : ∀ l < k, (s.calls l).resp = some b → ¬ s.Left l) :
    (s.conns b).sent[i]? = some k := by
  obtain ⟨j, hj⟩ := List.mem_iff_getElem?.mp ((h.sender b k).mpr hb)
  have hclean (m : Nat) (hm : m ≤ k) : ∀ l ∈ (s.conns b).sent, l ≤ m → ¬ s.Left l := by
    intro l hl hlm
    obtain rfl | hlt := Nat.eq_or_lt_of_le (Nat.le_trans hlm hm)
    · unfold Left
      rw [hphase]
      nofun
    · exact hleft l hlt ((h.sender b l).mp hl)
  have hle : i ≤ j := by
    by_contra hlt
    have hover := (h.order b i hi j k hj (hclean k (Nat.le_refl k))).mpr (Nat.lt_of_not_le hlt)
    rw [hphase] at hover
    cases hover
  obtain rfl | hlt := Nat.eq_or_lt_of_le hle
  · exact hj
  · exfalso
    obtain ⟨l, hl⟩ : ∃ l, (s.conns b).sent[i]? = some l :=
      ⟨_, List.getElem?_eq_getElem (Nat.lt_trans hlt (List.getElem?_eq_some_iff.mp hj).1)⟩
    have hlk := sorted_index (h.sorted b) hl hj hlt
    have hresp := (h.sender b l).mp (List.mem_of_getElem? hl)
    exact absurd ((h.order b i hi i l hl (hclean l (Nat.le_of_lt hlk))).mp
      (h.earlier hin hlk hk hresp)) (Nat.lt_irrefl i)

/-- What a step of the call `k` leaves to the others. -/
structure Moved (s t : KeepAlive) (k : Nat) : Prop where
  inv : t.Inv
  next : t.pipe.next = s.pipe.next
  calls : ∀ j ≠ k, t.calls j = s.calls j

theorem Inv.keep (h : s.Inv) (hk : k < s.pipe.next) (hpipe : t.pipe.Inv none)
    (hframe : Pipeliner.Frame s.pipe t.pipe (· ≠ k)) (hintact : t.crashed = false)
    (hbuffer : t.abuf = t.x) (hlinked : t.Linked k) (hcalls : ∀ j ≠ k, t.calls j = s.calls j)
    (hresp : (t.calls k).resp = (s.calls k).resp)
    (hasked : ∀ c, (t.calls k).resp = some c → (t.calls k).phase.asked = true)
    (hsent : ∀ c, (t.conns c).sent = (s.conns c).sent)
    (hrcb : ∀ j ≠ k, j < s.pipe.next → ∀ b, (s.calls j).phase = .getting →
      (s.calls j).resp = some b → (t.conns b).rcb = (s.conns b).rcb)
    (hbound : ∀ c i, (t.conns c).input = .at i → (∀ l ∈ (s.conns c).sent, ¬ t.Left l) →
      i ≤ (s.conns c).sent.length)
    (horder : ∀ c i, (t.conns c).input = .at i → ∀ j l, (s.conns c).sent[j]? = some l →
      (∀ m ∈ (s.conns c).sent, m ≤ l → ¬ t.Left m) → ((t.calls l).phase = .done ↔ j < i))
    (hown : (t.calls k).status = some Http.ok →
      ∃ c i, (t.calls k).given = some (c, i) ∧ (s.conns c).sent[i]? = some k)
    (hstatus : (t.calls k).phase ≠ .done → (t.calls k).status = none) : Moved s t k := by
  have hresp' (j : Nat) : (t.calls j).resp = (s.calls j).resp := by
    by_cases hj : j = k
    · rw [hj, hresp]
    · rw [hcalls j hj]
  refine ⟨⟨hpipe, hintact, hbuffer, fun j hj => ?_, fun j hj => ?_, fun c => ?_, fun c j => ?_,
    fun j c hj => ?_, fun c i hi hc => ?_, fun c i hi j l hl hc => ?_, fun j hj => ?_,
    fun j hj => ?_⟩, hframe.next, hcalls⟩
  · rw [hframe.next] at hj
    by_cases hjk : j = k
    · rw [hjk]
      exact hlinked
    · exact (h.linked j hj).frame hframe hjk (hcalls j hjk) (hrcb j hjk hj)
  · rw [hframe.next] at hj
    rw [hcalls j (by omega)]
    exact h.fresh j hj
  · rw [hsent]
    exact h.sorted c
  · rw [hsent, hresp']
    exact h.sender c j
  · by_cases hjk : j = k
    · subst hjk
      exact hasked c hj
    · rw [hcalls j hjk] at hj ⊢
      exact h.asked j c hj
  · rw [hsent] at hc ⊢
    exact hbound c i hi hc
  · rw [hsent] at hl hc
    exact horder c i hi j l hl hc
  · by_cases hjk : j = k
    · subst hjk
      obtain ⟨c, i, hg, hs⟩ := hown hj
      exact ⟨c, i, hg, by rw [hsent]; exact hs⟩
    · rw [hcalls j hjk] at hj ⊢
      obtain ⟨c, i, hg, hs⟩ := h.own j hj
      exact ⟨c, i, hg, by rw [hsent]; exact hs⟩
  · by_cases hjk : j = k
    · subst hjk
      exact hstatus hj
    · rw [hcalls j hjk] at hj ⊢
      exact h.status j hj

/-- A step of the call `k` that writes no request, reads no response and does not end the call. -/
theorem Inv.quiet (h : s.Inv) (hk : k < s.pipe.next) (hpipe : t.pipe.Inv none)
    (hframe : Pipeliner.Frame s.pipe t.pipe (· ≠ k)) (hintact : t.crashed = false)
    (hbuffer : t.abuf = t.x) (hlinked : t.Linked k) (hcalls : ∀ j ≠ k, t.calls j = s.calls j)
    (hsame : (t.calls k).resp = (s.calls k).resp ∧ (t.calls k).status = (s.calls k).status ∧
      (t.calls k).given = (s.calls k).given)
    (hasked : ∀ c, (t.calls k).resp = some c → (t.calls k).phase.asked = true)
    (hphase : (s.calls k).phase ≠ .done ∧ (t.calls k).phase ≠ .done)
    (hgone : (s.calls k).phase = .gone → (t.calls k).phase = .gone)
    (hconns : ∀ c, (t.conns c).sent = (s.conns c).sent ∧ (t.conns c).input = (s.conns c).input)
    (hrcb : ∀ j ≠ k, j < s.pipe.next → ∀ b, (s.calls j).phase = .getting →
      (s.calls j).resp = some b → (t.conns b).rcb = (s.conns b).rcb) : Moved s t k := by
  have hover (j : Nat) : (t.calls j).phase = .done ↔ (s.calls j).phase = .done := by
    by_cases hj : j = k
    · rw [hj]
      exact iff_of_false hphase.2 hphase.1
    · rw [hcalls j hj]
  have hleft (j : Nat) (hj : s.Left j) : t.Left j := by
    unfold Left at *
    by_cases hjk : j = k
    · subst hjk
      rw [hsame.2.1]
      exact ⟨.inl (hgone (hj.1.resolve_right hphase.1)), hj.2⟩
    · rw [hcalls j hjk]
      exact hj
  refine h.keep hk hpipe hframe hintact hbuffer hlinked hcalls hsame.1 hasked
    (fun c => (hconns c).1) hrcb (fun c i hi hc => ?_) (fun c i hi j l hl hc => ?_) (fun hst => ?_)
    fun _ => hsame.2.1.trans (h.status k hphase.1)
  · rw [(hconns c).2] at hi
    exact h.bound c i hi fun l hl hll => hc l hl (hleft l hll)
  · rw [(hconns c).2] at hi
    rw [hover]
    exact h.order c i hi j l hl fun m hm hml hmm => hc m hm hml (hleft m hmm)
  · rw [hsame.2.1] at hst
    rw [hsame.2.2]
    exact h.own k hst

theorem pipeline_some {es : List Pipeliner.Event} (h : s.pipeline es = some t) :
    ∃ p, Pipeliner.system.exec s.pipe es = some p ∧ t = { s with pipe := p } := by
  obtain ⟨p, hp, rfl⟩ := Option.map_eq_some_iff.mp h
  exact ⟨p, hp, rfl⟩

theorem pipeline_of {es : List Pipeliner.Event} {p : Pipeliner}
    (h : Pipeliner.system.exec s.pipe es = some p) : s.pipeline es = some { s with pipe := p } := by
  rw [pipeline, h, Option.map_some]

theorem Inv.active (h : s.Inv) (hphase : (s.calls k).phase ≠ .first) : k < s.pipe.next := by
  by_contra hk
  rw [h.fresh k (Nat.le_of_not_lt hk)] at hphase
  exact hphase rfl

theorem Inv.call (h : s.Inv) {p : Pipeliner} (hp : Pipeliner.system.exec s.pipe
    [.init, .advance s.pipe.next, .proceed s.pipe.next] = some p) :
    Inv { s.setCall s.pipe.next fun _ => {} with pipe := p } := by
  obtain ⟨q, rfl, hinv, hframe, hstage, hstarting, halive, hinside⟩ := pipe_start h.pipe rfl
    (fun j hj hd => by rw [h.dead hd (by omega)]; decide) hp
  have hfresh := h.fresh s.pipe.next (Nat.le_refl _)
  have hnext : p.next = s.pipe.next + 1 := hframe.next
  have hcalls : Function.update s.calls s.pipe.next {} = s.calls := by
    rw [← hfresh, Function.update_eq_self]
  unfold setCall
  dsimp only
  rw [hcalls]
  refine ⟨hinv, h.intact, h.buffer, fun j hj => ?_, fun j hj => ?_, h.sorted, h.sender, h.asked,
    h.bound, h.order, h.own, h.status⟩
  · by_cases hjk : j = s.pipe.next
    · subst hjk
      unfold Linked
      dsimp only
      rw [hfresh]
      exact ⟨hstage, hstarting, halive, hinside⟩
    · have hold : Linked { s with pipe := { s.pipe.setHandle s.pipe.next fun _ =>
          { alive := true } with next := s.pipe.next + 1 } } j := by
        have hl := h.linked j (by dsimp only at hj; omega)
        unfold Linked Pipeliner.setHandle at *
        dsimp only at hl ⊢
        rw [Function.update_of_ne hjk]
        exact hl
      exact hold.frame hframe hjk rfl fun _ _ _ => rfl
  · exact h.fresh j (by dsimp only at hj; omega)

theorem Inv.step_eq (h : s.Inv) {P : Prop} [Decidable P] {r : Option KeepAlive}
    (hs : (if s.crashed then none else if P then r else none) = some t) : P ∧ r = some t := by
  rw [h.intact, if_neg Bool.false_ne_true] at hs
  split at hs
  · next hP => exact ⟨hP, hs⟩
  · cases hs

theorem Inv.getX (h : s.Inv) (hs : s.step (.getX k) = some t) : Moved s t k := by
  obtain ⟨⟨hphase, hin⟩, hs⟩ := h.step_eq hs
  cases hs
  obtain ⟨hlog, -, hzero, halive, -⟩ := h.pipe.inside 0 k hin
  have hk : k < s.pipe.next := by
    by_contra hk
    rw [h.pipe.fresh k (Nat.le_of_not_lt hk)] at halive
    cases halive
  have hl := h.linked k hk
  have hasked := h.asked k
  unfold Linked at hl
  rw [hphase] at hl hasked
  refine h.quiet hk h.pipe .refl h.intact h.buffer ?_ ?_ ?_ ?_ ?_ ?_ (fun _ => ⟨rfl, rfl⟩)
    fun _ _ _ _ _ _ => rfl
  · have hbuffer := h.buffer
    unfold Linked setCall
    dsimp only
    rw [Function.update_self]
    cases hx : s.x with
    | none => exact ⟨hl.1, hl.2.1, hl.2.2.1, hin⟩
    | some c =>
      dsimp only
      cases (s.conns c).eof with
      | true => exact ⟨hl.1, hl.2.1, hl.2.2.1, hin⟩
      | false => exact ⟨hl.1, hl.2.1, hl.2.2.1, hin, c, rfl, hbuffer.trans hx⟩
  · intro j hj
    exact Function.update_of_ne hj _ _
  all_goals
    unfold setCall
    dsimp only
    rw [Function.update_self]
    grind [CallPhase.asked]

theorem Inv.renew (h : s.Inv) (hphase : (s.calls k).phase = .connecting) (c n : Nat) :
    Moved s ({ s with opened := n }.renew k (some c)) k := by
  have hk : k < s.pipe.next := h.active (by rw [hphase]; nofun)
  have hl := h.linked k hk
  have hasked := h.asked k
  unfold Linked at hl
  rw [hphase] at hl hasked
  refine h.quiet hk h.pipe .refl h.intact rfl ?_ ?_ ?_ ?_ ?_ ?_ (fun _ => ⟨rfl, rfl⟩)
    fun _ _ _ _ _ _ => rfl
  · unfold KeepAlive.renew Linked setCall
    dsimp only
    rw [Function.update_self]
    exact ⟨hl.1, hl.2.1, hl.2.2.1, hl.2.2.2, c, rfl, rfl⟩
  · intro j hj
    exact Function.update_of_ne hj _ _
  all_goals
    unfold KeepAlive.renew setCall
    dsimp only
    rw [Function.update_self]
    grind [CallPhase.asked]

theorem Inv.connected (h : s.Inv) {ok : Bool} (hcalm : s.Calm (.connected k ok))
    (hs : s.step (.connected k ok) = some t) : Moved s t k := by
  obtain ⟨hphase, hs⟩ := h.step_eq hs
  cases hs
  cases ok with
  | true => exact h.renew hphase s.opened (s.opened + 1)
  | false =>
    obtain ⟨c, hc⟩ := Option.ne_none_iff_exists'.mp (hcalm rfl)
    rw [hc]
    exact h.renew hphase c s.opened

theorem Inv.proceed (h : s.Inv) (hs : s.step (.proceed k) = some t) : Moved s t k := by
  obtain ⟨hphase, hs⟩ := h.step_eq hs
  obtain ⟨p, hp, rfl⟩ := pipeline_some hs
  have hk : k < s.pipe.next := h.active (by
    rintro h'
    rw [h'] at hphase
    cases hphase <;> contradiction)
  have hl := h.linked k hk
  have hstarting : (s.pipe.handles k).starting ≠ 0 := fun hzero => by
    rw [exec_one, Pipeliner.step, if_neg (not_not_intro hzero)] at hp
    cases hp
  have hl' : ((s.pipe.handles k).stage = 1 ∧ (s.pipe.handles k).starting = 1) ∧
      (s.pipe.handles k).alive = true ∧ ∃ b, (s.calls k).resp = some b := by
    unfold Linked at hl
    obtain hphase | hphase := hphase <;> rw [hphase] at hl <;>
      exact ⟨hl.1.resolve_right fun h' => hstarting h'.2, hl.2.1, hl.2.2.2⟩
  obtain ⟨⟨hstage, hone⟩, halive, hresp⟩ := hl'
  obtain ⟨hinv, hframe, hstage', hstarting', halive', hinside⟩ := pipe_proceed h.pipe hstage hone hp
  have hasked := h.asked k
  refine h.quiet hk hinv hframe h.intact h.buffer ?_ (fun _ _ => rfl) ⟨rfl, rfl, rfl⟩ hasked ?_ id
    (fun _ => ⟨rfl, rfl⟩) fun _ _ _ _ _ _ => rfl
  · unfold Linked
    dsimp only
    obtain hphase | hphase := hphase <;> rw [hphase] <;>
      exact ⟨.inr ⟨hstage', hstarting'⟩, halive'.trans halive, hinside, hresp⟩
  · obtain hphase | hphase := hphase <;> rw [hphase] <;> exact ⟨by rintro ⟨⟩, by rintro ⟨⟩⟩

theorem Inv.get (h : s.Inv) (hs : s.step (.get k) = some t) : Moved s t k := by
  obtain ⟨⟨hphase, hin⟩, hs⟩ := h.step_eq hs
  obtain ⟨b, hb, rfl⟩ := Option.map_eq_some_iff.mp hs
  have hk : k < s.pipe.next := h.active (by rw [hphase]; nofun)
  have hl := h.linked k hk
  unfold Linked at hl
  rw [hphase] at hl
  obtain ⟨-, -, hzero, halive, -⟩ := h.pipe.inside 1 k hin
  have hentered := h.pipe.entered 1 k (h.pipe.inside 1 k hin).1
  refine h.quiet hk h.pipe .refl h.intact h.buffer ?_ ?_ ?_ ?_ ?_ ?_ ?_ ?_
  · unfold Linked setCall setConn
    dsimp only
    rw [Function.update_self]
    exact ⟨by grind, hzero, halive, hin, b, hb, by rw [Function.update_self]⟩
  · intro j hj
    exact Function.update_of_ne hj _ _
  · unfold setCall setConn
    dsimp only
    rw [Function.update_self]
    exact ⟨rfl, rfl, rfl⟩
  · unfold setCall setConn
    dsimp only
    rw [Function.update_self]
    exact fun _ _ => rfl
  · unfold setCall setConn
    dsimp only
    rw [Function.update_self, hphase]
    exact ⟨nofun, nofun⟩
  · rw [hphase]
    nofun
  · intro c
    unfold setCall setConn
    grind
  · intro j hjk hj b' hreading _
    exact absurd (h.alone hin hreading hj) hjk

theorem Inv.close (h : s.Inv) {c : Nat} : (s.setConn c fun d => { d with eof := true }).Inv := by
  have hconns (b : Nat) : ((s.setConn c fun d => { d with eof := true }).conns b).sent =
      (s.conns b).sent ∧ ((s.setConn c fun d => { d with eof := true }).conns b).input =
      (s.conns b).input ∧ ((s.setConn c fun d => { d with eof := true }).conns b).rcb =
      (s.conns b).rcb := by
    unfold setConn
    grind
  refine ⟨h.pipe, h.intact, h.buffer, fun j hj => ?_, h.fresh, fun b => ?_, fun b j => ?_,
    h.asked, fun b i hi hb => ?_, fun b i hi j l hl hb => ?_, fun j hj => ?_, h.status⟩
  · have hl := h.linked j hj
    unfold Linked at *
    dsimp only at hl ⊢
    simp only [(hconns _).2.2]
    exact hl
  · rw [(hconns b).1]
    exact h.sorted b
  · rw [(hconns b).1]
    exact h.sender b j
  · rw [(hconns b).2.1] at hi
    rw [(hconns b).1] at hb ⊢
    exact h.bound b i hi hb
  · rw [(hconns b).2.1] at hi
    rw [(hconns b).1] at hl hb
    exact h.order b i hi j l hl hb
  · obtain ⟨b, i, hg, hs⟩ := h.own j hj
    exact ⟨b, i, hg, by rw [(hconns b).1]; exact hs⟩

/-- The call `k` has written its request on the connection `c`. -/
structure Wrote (s t : KeepAlive) (k c : Nat) : Prop where
  self : t.calls k = { s.calls k with phase := .second, resp := some c }
  calls : ∀ j ≠ k, t.calls j = s.calls j
  sent : ∀ b, (t.conns b).sent = (s.conns b).sent ++ if b = c then [k] else []
  input : ∀ b, (t.conns b).input = (s.conns b).input
  rcb : ∀ b, (t.conns b).rcb = (s.conns b).rcb
  rest : t.crashed = s.crashed ∧ t.abuf = s.abuf ∧ t.x = s.x

theorem wrote_of_respond {c : Nat} (habuf : (s.calls k).abuf = some c)
    (hs : s.respond k c = some t) :
    Pipeliner.system.exec s.pipe [.advance k] = some t.pipe ∧ Wrote s t k c := by
  rw [respond, habuf] at hs
  obtain ⟨p, hp, rfl⟩ := pipeline_some hs
  refine ⟨hp, Function.update_self _ _ _, fun j hj => Function.update_of_ne hj _ _, ?_, ?_, ?_,
    rfl, rfl, rfl⟩
  all_goals
    intro b
    unfold setCall setConn
    grind

namespace Wrote

variable {c : Nat}

theorem left (hw : Wrote s t k c) {j : Nat} (hj : j ≠ k) : t.Left j ↔ s.Left j := by
  unfold Left
  rw [hw.calls j hj]

theorem sorted (h : s.Inv) (hw : Wrote s t k c) (hlater : ∀ j ∈ (s.conns c).sent, j < k) (b : Nat) :
    (t.conns b).sent.Pairwise (· < ·) := by
  rw [hw.sent]
  by_cases hbc : b = c
  · subst hbc
    rw [if_pos rfl]
    exact List.pairwise_append.mpr ⟨h.sorted b, List.pairwise_singleton _ _,
      fun j hj l hl => by rw [List.mem_singleton.mp hl]; exact hlater j hj⟩
  · rw [if_neg hbc, List.append_nil]
    exact h.sorted b

theorem sender (h : s.Inv) (hw : Wrote s t k c) (hunsent : ∀ b, k ∉ (s.conns b).sent) (b j : Nat) :
    j ∈ (t.conns b).sent ↔ (t.calls j).resp = some b := by
  rw [hw.sent, List.mem_append, h.sender b j]
  by_cases hjk : j = k
  · subst hjk
    have hnone := fun hj => hunsent b ((h.sender b j).mpr hj)
    rw [hw.self]
    grind
  · rw [hw.calls j hjk]
    grind

theorem order (h : s.Inv) (hw : Wrote s t k c) (hlater : ∀ j ∈ (s.conns c).sent, j < k)
    (hne : ∀ b, ∀ j ∈ (s.conns b).sent, j ≠ k) {b i j l : Nat} (hi : (t.conns b).input = .at i)
    (hl : (t.conns b).sent[j]? = some l)
    (hb : ∀ m ∈ (t.conns b).sent, m ≤ l → ¬ t.Left m) : (t.calls l).phase = .done ↔ j < i := by
  rw [hw.input] at hi
  rw [hw.sent] at hl hb
  have hbefore : ∀ m ∈ (s.conns b).sent, m ≤ l → ¬ s.Left m := fun m hm hml hmm =>
    hb m (List.mem_append_left _ hm) hml ((hw.left (hne b m hm)).mpr hmm)
  rw [List.getElem?_append] at hl
  split at hl
  · rw [hw.calls l (hne b l (List.mem_of_getElem? hl))]
    exact h.order b i hi j l hl hbefore
  · next hlen =>
    split at hl
    · next hbc =>
      subst hbc
      obtain rfl := List.mem_singleton.mp (List.mem_of_getElem? hl)
      have hle := h.bound b i hi fun m hm => hbefore m hm (Nat.le_of_lt (hlater m hm))
      rw [hw.self]
      exact iff_of_false nofun fun hlt => hlen (Nat.lt_of_lt_of_le hlt hle)
    · rw [List.getElem?_nil] at hl
      cases hl

theorem own (h : s.Inv) (hw : Wrote s t k c) {j : Nat} (hj : (t.calls j).status = some Http.ok) :
    ∃ b i, (t.calls j).given = some (b, i) ∧ (t.conns b).sent[i]? = some j := by
  have hsame : (t.calls j).status = (s.calls j).status ∧ (t.calls j).given = (s.calls j).given := by
    by_cases hjk : j = k
    · subst hjk
      rw [hw.self]
      exact ⟨rfl, rfl⟩
    · rw [hw.calls j hjk]
      exact ⟨rfl, rfl⟩
  rw [hsame.1] at hj
  obtain ⟨b, i, hg, hi⟩ := h.own j hj
  refine ⟨b, i, hsame.2.trans hg, ?_⟩
  rw [hw.sent, List.getElem?_append_left (List.getElem?_eq_some_iff.mp hi).1]
  exact hi

end Wrote

theorem Inv.made (h : s.Inv) (hs : s.step (.made k) = some t) : Moved s t k := by
  obtain ⟨hphase, hs⟩ := h.step_eq hs
  have hk : k < s.pipe.next := h.active (by rw [hphase]; nofun)
  have hl := h.linked k hk
  unfold Linked at hl
  rw [hphase] at hl
  obtain ⟨hstage, -, -, hin, c, hx, habuf⟩ := hl
  rw [hx, Option.bind_some] at hs
  obtain ⟨hp, hw⟩ := wrote_of_respond habuf hs
  obtain ⟨hinv, hframe, hstage', hstarting', halive'⟩ := pipe_second h.pipe hstage hin
    (fun j hj hd => by rw [h.dead hd (by omega)]; decide) hp
  have hlater (j : Nat) (hj : j ∈ (s.conns c).sent) : j < k := h.later hphase hin hj
  have hne (b j : Nat) (hj : j ∈ (s.conns b).sent) : j ≠ k := by
    rintro rfl
    have hasked := h.asked j b ((h.sender b j).mp hj)
    rw [hphase] at hasked
    cases hasked
  refine ⟨⟨hinv, hw.rest.1.trans h.intact, hw.rest.2.1.trans (h.buffer.trans hw.rest.2.2.symm),
    fun j hj => ?_, fun j hj => ?_, hw.sorted h hlater,
    hw.sender h fun b hb => hne b k hb rfl, fun j b hj => ?_, fun b i hi hb => ?_,
    fun b i hi j l hl hb => hw.order h hlater hne hi hl hb, fun j hj => hw.own h hj,
    fun j hj => ?_⟩, hframe.next, hw.calls⟩
  · rw [hframe.next] at hj
    by_cases hjk : j = k
    · subst hjk
      unfold Linked
      rw [hw.self]
      refine ⟨.inl ⟨hstage', hstarting'⟩, halive', fun hmem => ?_, c, rfl⟩
      have hlt := hinv.entered 1 j hmem
      rw [hstage'] at hlt
      exact absurd hlt (Nat.lt_irrefl 1)
    · exact (h.linked j hj).frame hframe hjk (hw.calls j hjk) fun b _ _ => hw.rcb b
  · rw [hframe.next] at hj
    rw [hw.calls j (by omega)]
    exact h.fresh j hj
  · by_cases hjk : j = k
    · subst hjk
      rw [hw.self]
      rfl
    · rw [hw.calls j hjk] at hj ⊢
      exact h.asked j b hj
  · rw [hw.input] at hi
    rw [hw.sent] at hb ⊢
    refine Nat.le_trans (h.bound b i hi fun l hl hll => ?_) (by simp)
    exact hb l (List.mem_append_left _ hl) ((hw.left (hne b l hl)).mpr hll)
  · by_cases hjk : j = k
    · subst hjk
      rw [hw.self]
      exact h.status j (by rw [hphase]; nofun)
    · rw [hw.calls j hjk] at hj ⊢
      exact h.status j hj

/-- When `k` has read its response, that was the last one of those read. -/
theorem Inv.read_next (h : s.Inv) (hk : k < s.pipe.next) (hin : s.pipe.inside (1, k) = true)
    (hgetting : (s.calls k).phase = .getting) {c i j l : Nat} (hc : (s.calls k).resp = some c)
    (hi : (s.conns c).input = .at i) (hl : (s.conns c).sent[j]? = some l)
    (hbefore : ∀ m ∈ (s.conns c).sent, m ≤ l → ¬ s.Left m) :
    (s.calls l).phase = .done ∨ l = k ↔ j < i + 1 := by
  have hplace (hkl : k ≤ l) : (s.conns c).sent[i]? = some k :=
    h.place hgetting hin hk hc hi fun m hm hm' =>
      hbefore m ((h.sender c m).mpr hm') (Nat.le_trans (Nat.le_of_lt hm) hkl)
  have horder := h.order c i hi j l hl hbefore
  obtain hlk | rfl | hkl := Nat.lt_trichotomy l k
  · have hover := h.earlier hin hlk hk ((h.sender c l).mp (List.mem_of_getElem? hl))
    exact iff_of_true (.inl hover) (Nat.lt_succ_of_lt (horder.mp hover))
  · have hji : ¬ i < j := fun hij =>
      Nat.lt_irrefl l (sorted_index (h.sorted c) (hplace (Nat.le_refl l)) hl hij)
    exact iff_of_true (.inr rfl) (Nat.lt_succ_of_le (Nat.not_lt.mp hji))
  · have hji : ¬ j < i + 1 := fun hij => by
      have hplace := hplace (Nat.le_of_lt hkl)
      obtain hij | rfl := Nat.lt_or_eq_of_le (Nat.le_of_lt_succ hij)
      · exact Nat.lt_asymm hkl (sorted_index (h.sorted c) hl hplace hij)
      · exact Nat.ne_of_gt hkl (Option.some.inj (hl.symm.trans hplace))
    refine iff_of_false (fun hor => hji ?_) hji
    exact Nat.lt_succ_of_lt (horder.mp (hor.resolve_right (Nat.ne_of_gt hkl)))

theorem Inv.leave (h : s.Inv) (hk : k < s.pipe.next) (hin : s.pipe.inside (1, k) = true)
    (hstage : (s.pipe.handles k).stage = 2) {u : KeepAlive} {f : KaCall → KaCall}
    (hs : u.leave k f = some t) (hpipe : u.pipe = s.pipe) (hintact : u.crashed = false)
    (hbuffer : u.abuf = u.x) (hcalls : u.calls = s.calls)
    (hsent : ∀ c, (u.conns c).sent = (s.conns c).sent)
    (hrcb : ∀ j ≠ k, j < s.pipe.next → ∀ b, (s.calls j).phase = .getting →
      (s.calls j).resp = some b → (u.conns b).rcb = (s.conns b).rcb)
    (hresp : (f (s.calls k)).resp = (s.calls k).resp)
    (hown : (f (s.calls k)).status = some Http.ok →
      ∃ c i, (f (s.calls k)).given = some (c, i) ∧ (s.conns c).sent[i]? = some k)
    (hinput : ∀ c, (u.conns c).input = (s.conns c).input ∧
        ((s.calls k).resp = some c → (f (s.calls k)).status = none) ∨
      (∀ i, (u.conns c).input ≠ .at i) ∨
      (s.calls k).resp = some c ∧ (s.calls k).phase = .getting ∧
        (f (s.calls k)).status ≠ none ∧
        ∃ i, (s.conns c).input = .at i ∧ (u.conns c).input = .at (i + 1)) : Moved s t k := by
  obtain ⟨p, hp, ht⟩ := pipeline_some hs
  have hup : (u.setCall k fun v => { f v with phase := .done }).pipe = s.pipe := hpipe
  rw [hup] at hp
  obtain ⟨hinv, hframe, hstage', hstarting', halive'⟩ :=
    pipe_destroy h.pipe hstage hin (h.goal_le (k + 1)) hp
  have htp : t.pipe = p := by rw [ht]
  have hrest : t.crashed = u.crashed ∧ t.abuf = u.abuf ∧ t.x = u.x ∧ t.conns = u.conns := by
    rw [ht]
    exact ⟨rfl, rfl, rfl, rfl⟩
  have hself : t.calls k = { f (s.calls k) with phase := .done } := by
    rw [ht, ← hcalls]
    exact Function.update_self _ _ _
  have hcalls (j : Nat) (hj : j ≠ k) : t.calls j = s.calls j := by
    rw [ht, ← hcalls]
    exact Function.update_of_ne hj _ _
  have hleft (j : Nat) (hj : j ≠ k) : t.Left j ↔ s.Left j := by
    unfold Left
    rw [hcalls j hj]
  have hout {c l : Nat} (hnone : (s.calls k).resp = some c → (f (s.calls k)).status = none)
      (hl : l ∈ (s.conns c).sent) (hstay : ¬ t.Left l) : l ≠ k := by
    rintro rfl
    refine hstay ?_
    unfold Left
    rw [hself]
    exact ⟨.inr rfl, hnone ((h.sender c l).mp hl)⟩
  rw [← htp] at hinv hframe hstage' hstarting' halive'
  refine h.keep hk hinv hframe (hrest.1.trans hintact)
    (hrest.2.1.trans (hbuffer.trans hrest.2.2.1.symm)) ?_ hcalls ?_ ?_
    (fun c => by rw [hrest.2.2.2]; exact hsent c) ?_ ?_ ?_ ?_ fun hphase => ?_
  · unfold Linked
    rw [hself]
    exact ⟨hstage', hstarting', halive'⟩
  · rw [hself]
    exact hresp
  · rw [hself]
    exact fun _ _ => rfl
  · rw [hrest.2.2.2]
    exact hrcb
  · intro c i hi hc
    rw [hrest.2.2.2] at hi
    obtain ⟨hsame, hnone⟩ | hlost | ⟨hc', hgetting, -, i, hi', hnext⟩ := hinput c
    · rw [hsame] at hi
      exact h.bound c i hi fun l hl hll =>
        hc l hl ((hleft l (hout hnone hl (hc l hl))).mpr hll)
    · exact absurd hi (hlost i)
    · obtain rfl := ConnInput.at.inj (hnext.symm.trans hi)
      have hplace := h.place hgetting hin hk hc' hi' fun l hl hl' hll =>
        hc l ((h.sender c l).mpr hl') ((hleft l (Nat.ne_of_lt hl)).mpr hll)
      exact (List.getElem?_eq_some_iff.mp hplace).1
  · intro c i hi j l hl hc
    rw [hrest.2.2.2] at hi
    have hmem := List.mem_of_getElem? hl
    obtain ⟨hsame, hnone⟩ | hlost | ⟨hc', hgetting, hsome, i, hi', hnext⟩ := hinput c
    · rw [hsame] at hi
      rw [hcalls l (hout hnone hmem (hc l hmem (Nat.le_refl l)))]
      exact h.order c i hi j l hl fun m hm hml hmm =>
        hc m hm hml ((hleft m (hout hnone hm (hc m hm hml))).mpr hmm)
    · exact absurd hi (hlost i)
    · obtain rfl := ConnInput.at.inj (hnext.symm.trans hi)
      have hstay : ¬ s.Left k := by
        unfold Left
        rw [hgetting]
        nofun
      have hbefore : ∀ m ∈ (s.conns c).sent, m ≤ l → ¬ s.Left m := fun m hm hml hmm => by
        by_cases hmk : m = k
        · rw [hmk] at hmm
          exact hstay hmm
        · exact hc m hm hml ((hleft m hmk).mpr hmm)
      rw [← h.read_next hk hin hgetting hc' hi' hl hbefore]
      by_cases hlk : l = k
      · subst hlk
        rw [hself]
        exact iff_of_true rfl (.inr rfl)
      · rw [hcalls l hlk]
        exact (or_iff_left hlk).symm
  · rw [hself]
    exact hown
  · rw [hself] at hphase
    exact absurd rfl hphase

theorem clear_eq (s : KeepAlive) (keep : Bool) : ∃ x abuf, s.clear keep = { s with x, abuf } ∧
    (s.abuf = s.x → abuf = x) := by
  cases keep with
  | true => exact ⟨s.x, s.abuf, rfl, id⟩
  | false => exact ⟨none, none, rfl, fun _ => rfl⟩

theorem Inv.finish (h : s.Inv) (hphase : (s.calls k).phase = .getting) {b : Nat}
    (hb : (s.calls k).resp = some b) {input : ConnInput} {keep : Bool} {f : KaCall → KaCall}
    (hresp : (f (s.calls k)).resp = (s.calls k).resp)
    (hown : (f (s.calls k)).status = some Http.ok →
      ∃ c i, (f (s.calls k)).given = some (c, i) ∧ (s.conns c).sent[i]? = some k)
    (hinput : (∀ i, input ≠ .at i) ∨ (f (s.calls k)).status ≠ none ∧
      ∃ i, (s.conns b).input = .at i ∧ input = .at (i + 1))
    (hs : (((s.finish b).setConn b fun d => { d with input := input }).clear keep).leave k f =
      some t) : Moved s t k := by
  have hk : k < s.pipe.next := h.active (by rw [hphase]; nofun)
  have hl := h.linked k hk
  unfold Linked at hl
  rw [hphase] at hl
  obtain ⟨x, abuf, hclear, heq⟩ :=
    clear_eq ((s.finish b).setConn b fun d => { d with input := input }) keep
  rw [hclear] at hs
  have hother (c : Nat) (hc : c ≠ b) : (((s.finish b).setConn b fun d =>
      { d with input := input }).conns c) = s.conns c := by
    unfold KeepAlive.finish setConn
    grind
  have hself : (((s.finish b).setConn b fun d => { d with input := input }).conns b) =
      { s.conns b with input := input, rcb := none } := by
    unfold KeepAlive.finish setConn
    grind
  refine h.leave hk hl.2.2.2.1 hl.1 hs rfl h.intact (heq h.buffer) rfl ?_ ?_ hresp hown ?_
  · intro c
    dsimp only
    by_cases hc : c = b
    · rw [hc, hself]
    · rw [hother c hc]
  · intro j hjk hj c hreading _
    exact absurd (h.alone hl.2.2.2.1 hreading hj) hjk
  · intro c
    dsimp only
    by_cases hc : c = b
    · subst hc
      rw [hself]
      exact .inr (hinput.imp id fun ⟨hsome, hi⟩ => ⟨hb, hphase, hsome, hi⟩)
    · rw [hother c hc]
      exact .inl ⟨rfl, fun hc' => absurd (Option.some.inj (hc'.symm.trans hb)) hc⟩

theorem ConnInput.read_next {a b : ConnInput} {e : RespEnd} {pos : Option Nat}
    (h : a.read e = some (pos, b)) : (∀ i, b ≠ .at i) ∨ ∃ i, a = .at i ∧ b = .at (i + 1) := by
  cases a with
  | «at» i =>
    cases e with
    | whole st keep =>
      cases h
      exact .inr ⟨i, rfl, rfl⟩
    | last st keep | part st keep | nothing =>
      cases h
      exact .inl nofun
  | ended | lost =>
    cases e <;> cases h
    all_goals exact .inl nofun

theorem ConnInput.read_ok {a b : ConnInput} {e : RespEnd} {pos : Option Nat}
    (h : a.read e = some (pos, b)) (hok : e.status = Http.ok) (ha : a ≠ .lost) :
    ∃ i, a = .at i ∧ pos = some i := by
  cases a with
  | «at» i =>
    cases e with
    | whole st keep | last st keep | part st keep =>
      cases h
      exact ⟨i, rfl, rfl⟩
    | nothing => cases hok
  | ended =>
    cases e with
    | whole st keep | last st keep | part st keep => cases h
    | nothing => cases hok
  | lost => exact absurd rfl ha

theorem Inv.got (h : s.Inv) {e : RespEnd} (hcalm : s.Calm (.got k e))
    (hs : s.step (.got k e) = some t) : Moved s t k := by
  rw [step, h.intact, if_neg Bool.false_ne_true] at hs
  obtain ⟨b, hb, hs⟩ := Option.bind_eq_some_iff.mp hs
  split at hs
  case isFalse => cases hs
  case isTrue hcond =>
    obtain ⟨⟨pos, input⟩, hread, hs⟩ := Option.bind_eq_some_iff.mp hs
    have hphase := hcond.1
    have hk : k < s.pipe.next := h.active (by rw [hphase]; nofun)
    have hl := h.linked k hk
    unfold Linked at hl
    rw [hphase] at hl
    refine h.finish hphase hb (by exact rfl) (fun hok => ?_) ?_ hs
    · have hok : e.status = Http.ok := Option.some.inj hok
      have hcalm : (s.conns b).input = .lost ∨ (∃ j < k, (s.calls j).resp = some b ∧ s.Left j) →
        e.status ≠ Http.ok := hcalm b hb
      have hplace (i : Nat) (hi : (s.conns b).input = .at i) : (s.conns b).sent[i]? = some k :=
        h.place hphase hl.2.2.2.1 hk hb hi fun l hl hl' hll =>
          hcalm (.inr ⟨l, hl, hl', hll⟩) hok
      obtain ⟨i, hi, rfl⟩ := ConnInput.read_ok hread hok fun hlost => hcalm (.inl hlost) hok
      exact ⟨b, i, rfl, hplace i hi⟩
    · exact (ConnInput.read_next hread).imp_right fun hi => ⟨nofun, hi⟩

theorem Inv.drop (h : s.Inv) (hs : s.step (.drop k) = some t) : Moved s t k := by
  obtain ⟨hphase, hs⟩ := h.step_eq hs
  have hk : k < s.pipe.next := h.active (by rw [hphase]; rintro ⟨⟩)
  have hl := h.linked k hk
  unfold Linked at hl
  rw [hphase] at hl
  obtain ⟨hat, halive, hlog, b, hb⟩ := hl
  have hpending : s.pipe.pending k = false := by
    obtain ⟨p, hp, -⟩ := pipeline_some hs
    have hp : Pipeliner.system.exec s.pipe [.destroy k] = some p := hp
    rw [exec_one, Pipeliner.step] at hp
    split at hp
    · next hcond => exact hcond.2
    · cases hp
  obtain ⟨hzero, hwaiting⟩ := Pipeliner.pending_eq_false.mp hpending
  have hstage : (s.pipe.handles k).stage = 2 := by
    obtain hat | hat := hat
    · rw [hat.2] at hzero
      cases hzero
    · exact hat.1
  have hin : s.pipe.inside (1, k) = true := by
    obtain hmem | hmem | hmem := h.pipe.stage 1 k (by rw [hstage]; decide)
    · exact hlog hmem
    · exact absurd hmem (hwaiting 1)
    · cases hmem
  have hstatus := h.status k (by rw [hphase]; rintro ⟨⟩)
  refine h.leave hk hin hstage hs rfl h.intact h.buffer rfl (fun _ => rfl) (fun _ _ _ _ _ _ => rfl)
    rfl (h.own k) fun c => .inl ⟨rfl, fun _ => hstatus⟩

theorem Inv.cancel (h : s.Inv) {newone keep : Bool} {st : Int}
    (hcalm : s.Calm (.cancel k newone st keep))
    (hs : s.step (.cancel k newone st keep) = some t) : Moved s t k := by
  rw [step, h.intact, if_neg Bool.false_ne_true] at hs
  unfold KeepAlive.cancel at hs
  dsimp only at hs
  obtain hphase | ⟨hphase, hrcb⟩ := hcalm
  · rw [hphase] at hs
    obtain ⟨b, hb, hs⟩ := Option.bind_eq_some_iff.mp hs
    have hstatus := h.status k (by rw [hphase]; nofun)
    exact h.finish hphase hb rfl (h.own k) (.inl (by nofun)) hs
  · rw [hphase] at hs
    obtain ⟨b, hb, rfl⟩ := Option.map_eq_some_iff.mp hs
    have hk : k < s.pipe.next := h.active (by rw [hphase]; nofun)
    have hl := h.linked k hk
    unfold Linked at hl
    rw [hphase] at hl
    have hconns (c : Nat) : (s.finish b).conns c = s.conns c := by
      have hnone := hrcb b hb
      unfold KeepAlive.finish setConn
      dsimp only
      by_cases hc : c = b
      · subst hc
        rw [Function.update_self, ← hnone]
      · rw [Function.update_of_ne hc]
    have hcalls : (((s.finish b).clear false).setCall k fun v => { v with phase := .gone }).calls =
      update s.calls k { s.calls k with phase := .gone } := rfl
    have hconns' : (((s.finish b).clear false).setCall k fun v => { v with phase := .gone }).conns =
      s.conns := funext hconns
    refine h.quiet hk h.pipe .refl h.intact rfl ?_ ?_ ?_ ?_ ?_ ?_ ?_ ?_
    · unfold Linked
      rw [hcalls, Function.update_self]
      exact hl
    · rw [hcalls]
      exact fun j hj => Function.update_of_ne hj _ _
    · rw [hcalls, Function.update_self]
      exact ⟨rfl, rfl, rfl⟩
    · rw [hcalls, Function.update_self]
      exact fun _ _ => rfl
    · rw [hcalls, Function.update_self, hphase]
      exact ⟨nofun, nofun⟩
    · rw [hphase]
      nofun
    · rw [hconns']
      exact fun _ => ⟨rfl, rfl⟩
    · rw [hconns']
      exact fun _ _ _ _ _ _ => rfl

theorem Inv.step {e : Event} (h : s.Inv) (hcalm : s.Calm e) (hs : s.step e = some t) : t.Inv := by
  cases e with
  | call =>
    rw [KeepAlive.step, h.intact, if_neg Bool.false_ne_true] at hs
    obtain ⟨p, hp, rfl⟩ := pipeline_some hs
    exact h.call hp
  | close c =>
    rw [KeepAlive.step, h.intact, if_neg Bool.false_ne_true] at hs
    cases hs
    exact h.close
  | getX k => exact (h.getX hs).inv
  | connected k ok => exact (h.connected hcalm hs).inv
  | made k => exact (h.made hs).inv
  | proceed k => exact (h.proceed hs).inv
  | get k => exact (h.get hs).inv
  | got k e => exact (h.got hcalm hs).inv
  | cancel k newone st keep => exact (h.cancel hcalm hs).inv
  | drop k => exact (h.drop hs).inv

theorem inv_empty : Inv {} where
  pipe := Pipeliner.inv_empty
  intact := rfl
  buffer := rfl
  linked := nofun
  fresh _ _ := rfl
  sorted _ := .nil
  sender _ _ := ⟨nofun, nofun⟩
  asked := nofun
  bound _ _ h _ := by cases h; exact Nat.le_refl 0
  order _ _ _ _ _ h := by cases h
  own := nofun
  status _ _ := rfl

def Ends (s : KeepAlive) (k : Nat) : Prop :=
  ∃ es t, (∀ e ∈ es, e.of = some k) ∧ system.exec s es = some t ∧ Moved s t k ∧
    (t.calls k).phase = .done

theorem Moved.trans {u : KeepAlive} (h : Moved s t k) (h' : Moved t u k) : Moved s u k :=
  ⟨h'.inv, h'.next.trans h.next, fun j hj => (h'.calls j hj).trans (h.calls j hj)⟩

theorem Moved.ends (hm : Moved s t k) {e : Event} (hs : s.step e = some t) (he : e.of = some k)
    (h : t.Ends k) : s.Ends k := by
  obtain ⟨es, u, hes, hexec, hm', hover⟩ := h
  refine ⟨e :: es, u, List.forall_mem_cons.mpr ⟨he, hes⟩, ?_, hm.trans hm', hover⟩
  rw [Lib.System.exec]
  exact Option.bind_eq_some_iff.mpr ⟨t, hs, hexec⟩

theorem Moved.last (hm : Moved s t k) {e : Event} (hs : s.step e = some t) (he : e.of = some k)
    (hover : (t.calls k).phase = .done) : s.Ends k := by
  refine ⟨[e], t, List.forall_mem_singleton.mpr he, ?_, hm, hover⟩
  rw [Lib.System.exec]
  exact Option.bind_eq_some_iff.mpr ⟨t, hs, rfl⟩

theorem Inv.unblocked (h : s.Inv) (hk : k < s.pipe.next)
    (hprev : ∀ j < k, (s.calls j).phase = .done) (σ : Nat) : (σ, k) ∉ s.pipe.waiting := by
  intro hwait
  obtain ⟨j, hj, halive⟩ := h.pipe.woken hwait
  have hl := h.linked j (Nat.lt_trans hj hk)
  unfold Linked at hl
  rw [hprev j hj] at hl
  rw [hl.2.2] at halive
  cases halive

theorem Inv.enters (h : s.Inv) (hk : k < s.pipe.next)
    (hprev : ∀ j < k, (s.calls j).phase = .done) {σ : Nat}
    (hstage : (s.pipe.handles k).stage = σ + 1) : (σ, k) ∈ s.pipe.log := by
  obtain hlog | hwait | hx := h.pipe.stage σ k (by rw [hstage]; exact Nat.lt_succ_self σ)
  · exact hlog
  · exact absurd hwait (h.unblocked hk hprev σ)
  · cases hx

theorem Inv.leave_some (h : s.Inv) {σ : Nat} (hin : s.pipe.inside (σ, k) = true) {u : KeepAlive}
    (hu : u.pipe = s.pipe) (f : KaCall → KaCall) :
    ∃ t, u.leave k f = some t ∧ (t.calls k).phase = .done := by
  obtain ⟨-, -, hzero, halive, hwaiting⟩ := h.pipe.inside σ k hin
  have hpending : s.pipe.pending k = false := Pipeliner.pending_eq_false.mpr ⟨hzero, hwaiting⟩
  have hstep : Pipeliner.system.exec (u.setCall k fun v => { f v with phase := .done }).pipe
      [.destroy k] =
      some ((s.pipe.release k).setHandle k fun h => { h with alive := false }) := by
    have hpipe : (u.setCall k fun v => { f v with phase := .done }).pipe = s.pipe := hu
    rw [hpipe, exec_one, Pipeliner.step, if_pos ⟨halive, hpending⟩]
  refine ⟨_, pipeline_of hstep, ?_⟩
  dsimp only [setCall]
  rw [Function.update_self]

theorem Inv.getting_ends (h : s.Inv) (hphase : (s.calls k).phase = .getting) : s.Ends k := by
  have hk : k < s.pipe.next := h.active (by rw [hphase]; nofun)
  have hl := h.linked k hk
  unfold Linked at hl
  rw [hphase] at hl
  obtain ⟨-, -, -, hin, b, hb, hrcb⟩ := hl
  obtain ⟨pos, hread⟩ : ∃ pos, (s.conns b).input.read .nothing = some (pos, .ended) := by
    cases (s.conns b).input <;> exact ⟨none, rfl⟩
  obtain ⟨t, ht, hover⟩ := h.leave_some hin (u := ((s.finish b).setConn b fun d =>
    { d with input := .ended }).clear false) rfl
    fun v => { v with given := pos.map (b, ·), status := some RespEnd.nothing.status }
  have hs : s.step (.got k .nothing) = some t := by
    rw [KeepAlive.step, h.intact, if_neg Bool.false_ne_true]
    dsimp only
    rw [hb, Option.bind_some, if_pos ⟨hphase, hrcb⟩, hread]
    exact ht
  have hcalm : s.Calm (.got k .nothing) := fun _ _ _ => by decide
  exact (h.got hcalm hs).last hs rfl hover

theorem Inv.proceed_some (h : s.Inv)
    (hphase : (s.calls k).phase = .second ∨ (s.calls k).phase = .gone)
    (hstage : (s.pipe.handles k).stage = 1) (hstarting : (s.pipe.handles k).starting = 1) :
    ∃ t, s.step (.proceed k) = some t ∧ t.calls = s.calls ∧ (t.pipe.handles k).stage = 2 := by
  have hp : Pipeliner.system.exec s.pipe [.proceed k] = some ((s.pipe.setHandle k fun h =>
      { h with starting := h.starting - 1, stage := h.stage + 1 }).getNext
        (s.pipe.handles k).stage k) := by
    rw [exec_one, Pipeliner.step, if_pos (by rw [hstarting]; decide)]
  have hs : s.step (.proceed k) = s.pipeline [.proceed k] := by
    rw [KeepAlive.step, h.intact, if_neg Bool.false_ne_true]
    exact if_pos hphase
  exact ⟨_, hs.trans (pipeline_of hp), rfl, (pipe_proceed h.pipe hstage hstarting hp).2.2.1⟩

theorem Inv.admits (h : s.Inv)
    (hphase : (s.calls k).phase = .second ∨ (s.calls k).phase = .gone)
    (hprev : ∀ j < k, (s.calls j).phase = .done)
    (hin : ∀ t : KeepAlive, t.Inv → t.calls = s.calls → (t.pipe.handles k).stage = 2 →
      t.pipe.inside (1, k) = true → t.Ends k) : s.Ends k := by
  have hstaged {t : KeepAlive} (ht : t.Inv) (hcalls : t.calls = s.calls)
      (hstage : (t.pipe.handles k).stage = 2) : t.Ends k := by
    rw [← hcalls] at hphase hprev
    have hk : k < t.pipe.next := ht.active (by rintro h'; rw [h'] at hphase; simp at hphase)
    have hl := ht.linked k hk
    unfold Linked at hl
    refine hin t ht hcalls hstage ?_
    obtain hphase | hphase := hphase <;> rw [hphase] at hl <;>
      exact hl.2.2.1 (ht.enters hk hprev hstage)
  have hk : k < s.pipe.next := h.active (by rintro h'; rw [h'] at hphase; simp at hphase)
  have hat : (s.pipe.handles k).stage = 1 ∧ (s.pipe.handles k).starting = 1 ∨
      (s.pipe.handles k).stage = 2 ∧ (s.pipe.handles k).starting = 0 := by
    have hl := h.linked k hk
    unfold Linked at hl
    obtain hphase | hphase := hphase <;> rw [hphase] at hl <;> exact hl.1
  obtain ⟨hstage, hstarting⟩ | ⟨hstage, -⟩ := hat
  · obtain ⟨t, hs, hcalls, hstage⟩ := h.proceed_some hphase hstage hstarting
    have hm := h.proceed hs
    exact hm.ends hs rfl (hstaged hm.inv hcalls hstage)
  · exact hstaged h rfl hstage

theorem Inv.second_ends (h : s.Inv) (hphase : (s.calls k).phase = .second)
    (hprev : ∀ j < k, (s.calls j).phase = .done) : s.Ends k := by
  refine h.admits (.inl hphase) hprev fun u hu hcalls _ hin => ?_
  rw [← hcalls] at hphase
  have hl := hu.linked k (hu.active (by rw [hphase]; nofun))
  unfold Linked at hl
  rw [hphase] at hl
  obtain ⟨-, -, -, b, hb⟩ := hl
  have hs : u.step (.get k) = some ((u.setConn b fun d => { d with rcb := some k }).setCall k
      fun v => { v with phase := .getting }) := by
    rw [KeepAlive.step, hu.intact, if_neg Bool.false_ne_true]
    refine (if_pos ⟨hphase, hin⟩).trans ?_
    rw [hb, Option.map_some]
  have hm := hu.get hs
  refine hm.ends hs rfl (hm.inv.getting_ends ?_)
  dsimp only [setCall]
  rw [Function.update_self]

theorem Inv.gone_ends (h : s.Inv) (hphase : (s.calls k).phase = .gone)
    (hprev : ∀ j < k, (s.calls j).phase = .done) : s.Ends k := by
  refine h.admits (.inr hphase) hprev fun u hu hcalls _ hin => ?_
  rw [← hcalls] at hphase
  obtain ⟨t, ht, hover⟩ := hu.leave_some hin (u := u) rfl id
  have hs : u.step (.drop k) = some t := by
    rw [KeepAlive.step, hu.intact, if_neg Bool.false_ne_true]
    exact (if_pos hphase).trans ht
  exact (hu.drop hs).last hs rfl hover

theorem Inv.making_ends (h : s.Inv) (hphase : (s.calls k).phase = .making)
    (hprev : ∀ j < k, (s.calls j).phase = .done) : s.Ends k := by
  have hl := h.linked k (h.active (by rw [hphase]; nofun))
  unfold Linked at hl
  rw [hphase] at hl
  obtain ⟨-, -, halive, -, c, hx, habuf⟩ := hl
  obtain ⟨t, hs, hphase'⟩ : ∃ t, s.step (.made k) = some t ∧ (t.calls k).phase = .second := by
    rw [KeepAlive.step, h.intact, if_neg Bool.false_ne_true]
    rw [if_pos hphase, hx, Option.bind_some, respond, habuf]
    dsimp only
    obtain ⟨p, hp⟩ : ∃ p, Pipeliner.system.exec s.pipe [.advance k] = some p := by
      rw [exec_one, Pipeliner.step]
      exact ⟨_, if_pos halive⟩
    refine ⟨_, pipeline_of hp, ?_⟩
    dsimp only [setCall]
    rw [Function.update_self]
  have hm := h.made hs
  exact hm.ends hs rfl (hm.inv.second_ends hphase' fun j hj => by
    rw [hm.calls j (Nat.ne_of_lt hj)]
    exact hprev j hj)

theorem Inv.connecting_ends (h : s.Inv) (hphase : (s.calls k).phase = .connecting)
    (hprev : ∀ j < k, (s.calls j).phase = .done) : s.Ends k := by
  have hs : s.step (.connected k true) =
      some ({ s with opened := s.opened + 1 }.renew k (some s.opened)) := by
    rw [KeepAlive.step, h.intact, if_neg Bool.false_ne_true]
    exact if_pos hphase
  have hcalm : s.Calm (.connected k true) := nofun
  have hm := h.connected hcalm hs
  refine hm.ends hs rfl (hm.inv.making_ends ?_ fun j hj => ?_)
  · dsimp only [KeepAlive.renew, setCall]
    rw [Function.update_self]
  · rw [hm.calls j (Nat.ne_of_lt hj)]
    exact hprev j hj

theorem Inv.first_ends (h : s.Inv) (hk : k < s.pipe.next) (hphase : (s.calls k).phase = .first)
    (hprev : ∀ j < k, (s.calls j).phase = .done) : s.Ends k := by
  have hl := h.linked k hk
  unfold Linked at hl
  rw [hphase] at hl
  have hin := hl.2.2.2 (h.enters hk hprev hl.1)
  obtain ⟨t, hs, hphase'⟩ : ∃ t, s.step (.getX k) = some t ∧
      ((t.calls k).phase = .connecting ∨ (t.calls k).phase = .making) := by
    rw [KeepAlive.step, h.intact, if_neg Bool.false_ne_true]
    refine ⟨_, if_pos ⟨hphase, hin⟩, ?_⟩
    dsimp only [setCall]
    rw [Function.update_self]
    cases s.x with
    | none => exact .inl rfl
    | some c =>
      dsimp only
      cases (s.conns c).eof with
      | true => exact .inl rfl
      | false => exact .inr rfl
  have hm := h.getX hs
  have hprev' : ∀ j < k, (t.calls j).phase = .done := fun j hj => by
    rw [hm.calls j (Nat.ne_of_lt hj)]
    exact hprev j hj
  refine hm.ends hs rfl ?_
  obtain hphase' | hphase' := hphase'
  · exact hm.inv.connecting_ends hphase' hprev'
  · exact hm.inv.making_ends hphase' hprev'

theorem Inv.ends (h : s.Inv) (hk : k < s.pipe.next)
    (hprev : ∀ j < k, (s.calls j).phase = .done) : s.Ends k := by
  cases hphase : (s.calls k).phase with
  | first => exact h.first_ends hk hphase hprev
  | connecting => exact h.connecting_ends hphase hprev
  | making => exact h.making_ends hphase hprev
  | second => exact h.second_ends hphase hprev
  | getting => exact h.getting_ends hphase
  | gone => exact h.gone_ends hphase hprev
  | done => exact ⟨[], s, nofun, rfl, ⟨h, rfl, fun _ _ => rfl⟩, hphase⟩

theorem Inv.drains (h : s.Inv) (hk : k ≤ s.pipe.next)
    (hprev : ∀ j < k, (s.calls j).phase = .done ∨ (s.calls j).phase = .gone) :
    ∃ es t, (∀ e ∈ es, ∃ j < k, (s.calls j).phase = .gone ∧ e.of = some j) ∧
      system.exec s es = some t ∧ t.Inv ∧ t.pipe.next = s.pipe.next ∧
      (∀ j < k, (t.calls j).phase = .done) ∧ ∀ j, k ≤ j → t.calls j = s.calls j := by
  induction k with
  | zero => exact ⟨[], s, nofun, rfl, h, rfl, nofun, fun _ _ => rfl⟩
  | succ k ih =>
    obtain ⟨es, t, hes, hexec, ht, hnext, hover, hcalls⟩ :=
      ih (Nat.le_of_succ_le hk) fun j hj => hprev j (Nat.lt_succ_of_lt hj)
    have hes' : ∀ e ∈ es, ∃ j < k + 1, (s.calls j).phase = .gone ∧ e.of = some j := fun e he =>
      (hes e he).imp fun j hj => ⟨Nat.lt_succ_of_lt hj.1, hj.2⟩
    obtain hdone | hgone := hprev k (Nat.lt_succ_self k)
    · refine ⟨es, t, hes', hexec, ht, hnext, fun j hj => ?_, fun j hj =>
        hcalls j (Nat.le_of_succ_le hj)⟩
      obtain hj | rfl := Nat.lt_succ_iff_lt_or_eq.mp hj
      · exact hover j hj
      · rw [hcalls j (Nat.le_refl j)]
        exact hdone
    · obtain ⟨fs, u, hfs, hexec', hm, hover'⟩ := ht.ends (by rw [hnext]; exact hk) hover
      refine ⟨es ++ fs, u, List.forall_mem_append.mpr ⟨hes', fun e he =>
        ⟨k, Nat.lt_succ_self k, hgone, hfs e he⟩⟩, ?_, hm.inv, hm.next.trans hnext,
        fun j hj => ?_, fun j hj => ?_⟩
      · rw [Lib.System.exec_append, hexec]
        exact hexec'
      · obtain hj | rfl := Nat.lt_succ_iff_lt_or_eq.mp hj
        · rw [hm.calls j (Nat.ne_of_lt hj)]
          exact hover j hj
        · exact hover'
      · rw [hm.calls j (Nat.ne_of_gt hj)]
        exact hcalls j (Nat.le_of_succ_le hj)

theorem Inv.sound (h : s.Inv) : s.Sound := by
  refine ⟨h.own, h.intact, fun k hk hprev => ?_⟩
  obtain ⟨es, t, hes, hexec, ht, hnext, hover, -⟩ := h.drains (Nat.le_of_lt hk) hprev
  obtain ⟨fs, u, hfs, hexec', -, hover'⟩ := ht.ends (by rw [hnext]; exact hk) hover
  refine ⟨es ++ fs, u, List.forall_mem_append.mpr ⟨fun e he => .inr (hes e he), fun e he =>
    .inl (hfs e he)⟩, ?_, hover'⟩
  rw [Lib.System.exec_append, hexec]
  exact hexec'

theorem keepalive_sound (h : system.Reach Calm s) : s.Sound := by
  have hinv : s.Inv := by
    refine h.invariant ?_ fun s e t _ hi hc hs => hi.step hc hs
    rintro s rfl
    exact inv_empty
  exact hinv.sound

end Invariant

section Runs

/-- Two calls on one connection, the second of which reads what comes after the response to the
first. -/
def twoCalls : KeepAlive := (system.exec {} [.call, .getX 0, .connected 0 true, .made 0, .call,
  .getX 1, .made 1, .proceed 0, .get 0, .got 0 (.whole 200 true), .proceed 1, .get 1,
  .got 1 (.whole 200 true)]).getD {}

theorem keepalive_sound_two : (twoCalls.calls 1).given = some (0, 1) ∧ twoCalls.Sound := by
  have h₀ : system.Reach Calm {} := .init rfl
  have h₁ := h₀.step (e := Event.call) trivial rfl
  have h₂ := h₁.step (e := Event.getX 0) trivial rfl
  have h₃ := h₂.step (e := Event.connected 0 true) nofun rfl
  have h₄ := h₃.step (e := Event.made 0) trivial rfl
  have h₅ := h₄.step (e := Event.call) trivial rfl
  have h₆ := h₅.step (e := Event.getX 1) trivial rfl
  have h₇ := h₆.step (e := Event.made 1) trivial rfl
  have h₈ := h₇.step (e := Event.proceed 0) trivial rfl
  have h₉ := h₈.step (e := Event.get 0) trivial rfl
  have h₁₀ := h₉.step (e := Event.got 0 (.whole 200 true)) (by
    rintro b hb (hlost | ⟨j, hj, -⟩)
    · cases hb
      cases hlost
    · cases hj) rfl
  have h₁₁ := h₁₀.step (e := Event.proceed 1) trivial rfl
  have h₁₂ := h₁₁.step (e := Event.get 1) trivial rfl
  have h₁₃ := h₁₂.step (e := Event.got 1 (.whole 200 true)) (by
    rintro b hb (hlost | ⟨j, hj, -, hleft⟩)
    · cases hb
      cases hlost
    · obtain rfl : j = 0 := Nat.lt_one_iff.mp hj
      cases hleft.2) rfl
  exact ⟨rfl, keepalive_sound h₁₃⟩

/-- The connection fails, and there is no old one. -/
theorem keepalive_crashes : ¬ ∀ s, system.Reachable s → s.Sound := by
  intro h
  have hcrash := (h _ (Lib.System.reachable_exec [.call, .getX 0, .connected 0 false] rfl
    rfl)).intact
  cases hcrash

end Runs

end KeepAlive

end Okws
