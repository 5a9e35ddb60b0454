import Okws.Lib.Transition
import Okws.Child

/-! `okch_cluster_t`: the queue of connections that wait for a child of a service, between the
callbacks of `okd`. -/

namespace Okws

open Lib

namespace Http

def srvError : Nat := 500
def unavailable : Nat := 503

end Http

/-- What becomes of the descriptor in `send_con_to_service`: it is dead or has timed out, or the
child is found dead while it is sent, or the RPC goes out. -/
inductive SendOut
  | dead | lost | rpc
  deriving DecidableEq

inductive SendRes
  | ok | nomore | failed
  deriving DecidableEq

/-- A call of `send_con_to_service` that waits for its RPC; `byLoop` says that `is_ready` made it. -/
structure ClusterSend where
  con : Nat
  child : Nat
  byLoop : Bool
  deriving DecidableEq

/-- A call of `clone` that waits for `awaken`. -/
structure Waking where
  con : Nat
  acw : Acw
  child : Nat
  deriving DecidableEq

/-- Connections are named in the order of the calls of `clone`.  The last four fields are a
record of what has happened. -/
structure Cluster where
  children : List Child
  queue : List (Nat × Acw) := []
  looping : Bool := false
  sends : List ClusterSend := []
  waking : List Waking := []
  now : Nat := 0
  next : Nat := 0
  sent : List (Nat × Nat) := []
  pushed : List Nat := []
  popped : List Nat := []
  refused : List (Nat × Nat) := []
  deriving DecidableEq

/-- What `random` and `send_con_to_service` do for each connection. -/
structure LoopEnv where
  rand : Nat → Nat
  out : Nat → SendOut

inductive ClusterEvent
  | clone (acw : Acw) (dres : Option DelimitRes) (sib : Int) (rand : Nat) (out : SendOut)
  | awakened (con : Nat) (ok : Bool)
  | sendDone (con : Nat) (res : SendRes) (env : LoopEnv)
  | gotNewCtlxFd (i : Nat)
  | ready (i : Nat) (env : LoopEnv)
  | reenableAccept (i : Nat)
  | ateof (i : Nat)
  | chldEof (i : Nat)
  | reserve (isLazy : Bool)
  | tick

namespace Child

/-- The end of `send_con_to_service`, with the answer of the service. -/
def finished (con : Nat) (res : SendRes) (ch : Child) : Child :=
  { ch with
    dispatchTimes := ch.dispatchTimes.filter (·.1 ≠ con)
    tooBusy := ch.tooBusy || res = .nomore
    nfdInXit := ch.nfdInXit - 1 }

def reenabled (ch : Child) : Child := { ch with tooBusy := false }

end Child

namespace Cluster

variable (cfg : OkdConfig)

def modifyChild (st : Cluster) (i : Nat) (f : Child → Child) : Cluster :=
  { st with children := st.children.modify i f }

def refuse (st : Cluster) (con status : Nat) : Cluster :=
  { st with refused := st.refused ++ [(con, status)] }

/-- The end of `clone` with `do_queue`. -/
def enqueue (st : Cluster) (con : Nat) (acw : Acw) : Cluster :=
  if cfg.conQueueMax ≤ st.queue.length then st.refuse con Http.srvError
  else { st with queue := st.queue ++ [(con, acw)], pushed := st.pushed ++ [con] }

/-- `send_con_to_service`, up to its RPC. -/
def sendConToService (st : Cluster) (con i : Nat) (out : SendOut) (byLoop : Bool) : Cluster :=
  let st := { st with sent := st.sent ++ [(con, i)] }
  match out with
  -- `_per_svc_nfd_in_xit` goes up and down again
  | .dead => st
  | .lost => st.modifyChild i Child.chldEof
  | .rpc =>
    { st.modifyChild i fun ch =>
        { ch with
          nfdInXit := ch.nfdInXit + 1
          dispatchTimes := ch.dispatchTimes ++ [(con, st.now)] } with
      sends := st.sends ++ [⟨con, i, byLoop⟩] }

/-- The loop of `is_ready`, up to the next RPC.  Only the connection is passed on to
`find_best_fit_child`. -/
def isReadyLoop (env : LoopEnv) : List (Nat × Acw) → Cluster → Cluster
  | [], st => { st with queue := [], looping := false }
  | (con, acw) :: queue, st =>
    let (fit, children) := findBestFitChild cfg st.now (env.rand con) st.children ⟨acw.sin, none⟩
        (-1) none
    let st := { st with children := children, queue := (con, acw) :: queue }
    match fit.ret with
    | some i =>
      if fit.status = .ok then
        let st := { st with queue := queue, popped := st.popped ++ [con] }
        let st := st.sendConToService con i (env.out con) true
        if env.out con = .rpc then st else isReadyLoop env queue st
      else { st with looping := false }
    | none => { st with looping := false }

def isReady (env : LoopEnv) (st : Cluster) : Cluster :=
  if st.looping then st else isReadyLoop cfg env st.queue { st with looping := true }

/-- `start_chld`, of a child that has both its connection and its READY. -/
def startChld (env : LoopEnv) (st : Cluster) (i : Nat) : Cluster :=
  isReady cfg env (st.modifyChild i fun ch => { ch with state := .serve, tooBusy := false })

def clone (st : Cluster) (acw : Acw) (dres : Option DelimitRes) (sib : Int) (rand : Nat)
    (out : SendOut) : Cluster :=
  let con := st.next
  let (fit, children) := findBestFitChild cfg st.now rand st.children acw sib dres
  let st := { st with children := children, next := con + 1 }
  match fit.status with
  | .busyLoop => st.refuse con Http.unavailable
  | .crashed => st.refuse con Http.srvError
  | .standby => fit.ret.elim st fun i => { st with waking := st.waking ++ [⟨con, acw, i⟩] }
  | .ok => fit.ret.elim st fun i => st.sendConToService con i out false
  | .mightWork => st.enqueue cfg con acw

/-- What follows the answer of `okld`. -/
def awakened (st : Cluster) (w : Waking) (ok : Bool) : Cluster :=
  let st := { st with waking := st.waking.filter (·.con ≠ w.con) }
  if ok && st.children[w.child]?.any (·.ctlx.isSome) then st.enqueue cfg w.con w.acw
  else st.refuse w.con Http.srvError

def sendDone (env : LoopEnv) (st : Cluster) (s : ClusterSend) (res : SendRes) : Cluster :=
  let st := { st with sends := st.sends.erase s }
  let st := st.modifyChild s.child (Child.finished s.con res)
  if s.byLoop then isReadyLoop cfg env st.queue st else st

/-- An event that comes in over the `ctlx` of child `i`. -/
def onCtlx (st : Cluster) (i : Nat) (f : Child → Cluster) : Option Cluster :=
  st.children[i]?.bind fun ch => if ch.ctlx.isSome then some (f ch) else none

/-- `okch_t::dispatch` for OKCTL_READY. -/
def ready (env : LoopEnv) (st : Cluster) (i : Nat) : Option Cluster :=
  st.onCtlx i fun ch => if ch.state = .launchSeq1 then st.startChld cfg env i else st

/-- `okch_t::dispatch` for OKCTL_REENABLE_ACCEPT. -/
def reenableAccept (st : Cluster) (i : Nat) : Option Cluster :=
  st.onCtlx i fun ch => if ch.state = .killing then st else st.modifyChild i Child.reenabled

def step (st : Cluster) : ClusterEvent → Option Cluster
  | .clone acw dres sib rand out => some (st.clone cfg acw dres sib rand out)
  | .awakened con ok => (st.waking.find? (·.con = con)).map fun w => st.awakened cfg w ok
  | .sendDone con res env => (st.sends.find? (·.con = con)).map fun s => st.sendDone cfg env s res
  | .gotNewCtlxFd i =>
    some (st.modifyChild i fun ch => { ch with ctlx := some false, state := .launchSeq1 })
  | .ready i env => st.ready cfg env i
  | .reenableAccept i => st.reenableAccept i
  | .ateof i => some (st.modifyChild i fun ch => { ch with ctlx := ch.ctlx.map fun _ => true })
  | .chldEof i => st.onCtlx i fun _ => st.modifyChild i Child.chldEof
  | .reserve isLazy =>
    some { st with children := st.children.map fun ch =>
      { ch with state := if isLazy then .standby else .none } }
  | .tick => some { st with now := st.now + 1 }

/-- A new cluster; the number of its children is an `int` of the protocol. -/
def system : System Cluster ClusterEvent where
  init st := ∃ (n : Nat) (isLazy : Bool), n < 2 ^ 31 ∧
    st = { children := List.replicate n { state := if isLazy then .standby else .none } }
  step := step cfg

section Books

variable {cfg} {st st' : Cluster}

/-- The choice of `is_ready` for a connection. -/
def readyFit (cfg : OkdConfig) (env : LoopEnv) (st : Cluster) (x : Nat × Acw) : Fit × List Child :=
  findBestFitChild cfg st.now (env.rand x.1) st.children ⟨x.2.sin, none⟩ (-1) none

/-- `pop_front`, with the children as `find_best_fit_child` leaves them. -/
def popFront (cfg : OkdConfig) (env : LoopEnv) (st : Cluster) (x : Nat × Acw)
    (queue : List (Nat × Acw)) :
    Cluster :=
  { st with children := (readyFit cfg env st x).2, queue := queue, popped := st.popped ++ [x.1] }

variable (cfg) in
theorem isReadyLoop_cons (env : LoopEnv) (st : Cluster) (x : Nat × Acw) (queue : List (Nat × Acw)) :
    ((readyFit cfg env st x).1.status ≠ .ok ∧ isReadyLoop cfg env (x :: queue) st =
        { st with children := (readyFit cfg env st x).2, queue := x :: queue, looping := false }) ∨
      ∃ i, (env.out x.1 = .rpc ∧ isReadyLoop cfg env (x :: queue) st =
          (popFront cfg env st x queue).sendConToService x.1 i .rpc true) ∨
        (env.out x.1 ≠ .rpc ∧ isReadyLoop cfg env (x :: queue) st =
          isReadyLoop cfg env queue
            ((popFront cfg env st x queue).sendConToService x.1 i (env.out x.1) true)) := by
  obtain ⟨con, acw⟩ := x
  have hgood :=
    (findBestFitChild_good cfg st.now st.children (env.rand con) ⟨acw.sin, none⟩ (-1) none).2
  cases hret : (readyFit cfg env st (con, acw)).1.ret with
  | none =>
    refine .inl ⟨fun hst => ?_, ?_⟩
    · obtain ⟨i, hi, -⟩ := hgood.ret (hgood.status.mp hst)
      cases hret.symm.trans hi
    · simp only [readyFit] at hret
      simp only [isReadyLoop, hret, readyFit]
  | some i =>
    simp only [readyFit] at hret
    by_cases hst : (readyFit cfg env st (con, acw)).1.status = .ok
    · refine .inr ⟨i, ?_⟩
      by_cases hout : env.out con = .rpc
      · refine .inl ⟨hout, ?_⟩
        simp only [readyFit] at hst
        simp only [isReadyLoop, hret, hst, if_true, hout, popFront, readyFit]
      · refine .inr ⟨hout, ?_⟩
        simp only [readyFit] at hst
        simp only [isReadyLoop, hret, hst, if_true, hout, if_false, popFront, readyFit]
    · refine .inl ⟨hst, ?_⟩
      simp only [readyFit] at hst
      simp only [isReadyLoop, hret, hst, if_false, readyFit]

/-- How often a connection is waiting for `awaken`, in the queue, or has been sent. -/
def occurs (st : Cluster) (c : Nat) : Nat :=
  st.waking.countP (·.con = c) + st.queue.countP (·.1 = c) + st.sent.countP (·.1 = c)

/-- No connection is in two places, and the queue is first in, first out. -/
structure Books (st : Cluster) : Prop where
  once : ∀ c, st.occurs c ≤ if c < st.next then 1 else 0
  order : st.pushed = st.popped ++ st.queue.map Prod.fst

structure SameBooks (st st' : Cluster) : Prop where
  waking : st'.waking = st.waking
  queue : st'.queue = st.queue
  sent : st'.sent = st.sent
  next : st'.next = st.next
  pushed : st'.pushed = st.pushed
  popped : st'.popped = st.popped

theorem Books.same (hb : Books st) (h : SameBooks st st') : Books st' := by
  refine ⟨fun c => ?_, ?_⟩
  · simpa only [occurs, h.waking, h.queue, h.sent, h.next] using hb.once c
  · rw [h.pushed, h.popped, h.queue]
    exact hb.order

theorem Books.place {c : Nat} (hb : Books st) (hc : c < st.next) (hnot : st.occurs c = 0)
    (hnext : st'.next = st.next) (hocc : ∀ d, st'.occurs d = st.occurs d + if c = d then 1 else 0)
    (horder : st'.pushed = st'.popped ++ st'.queue.map Prod.fst) : Books st' := by
  refine ⟨fun d => ?_, horder⟩
  rw [hocc, hnext]
  by_cases hcd : c = d
  · subst hcd
    simp [hc, hnot]
  · rw [if_neg hcd]
    exact hb.once d

theorem Books.enqueue {c : Nat} (hb : Books st) (hc : c < st.next) (hnot : st.occurs c = 0)
    (acw : Acw) :
    Books (st.enqueue cfg c acw) := by
  unfold Cluster.enqueue
  split
  · exact hb.same ⟨rfl, rfl, rfl, rfl, rfl, rfl⟩
  · refine hb.place hc hnot rfl (fun d => ?_) (by simp [hb.order])
    simp only [occurs, List.countP_append, List.countP_singleton, decide_eq_true_eq]
    omega

theorem Books.wake {c : Nat} (hb : Books st) (hc : c < st.next) (hnot : st.occurs c = 0) (acw : Acw)
    (i : Nat) :
    Books { st with waking := st.waking ++ [⟨c, acw, i⟩] } := by
  refine hb.place hc hnot rfl (fun d => ?_) hb.order
  simp only [occurs, List.countP_append, List.countP_singleton, decide_eq_true_eq]
  omega

variable (st) in
theorem sendConToService_books (con i : Nat) (out : SendOut) (byLoop : Bool) :
    SameBooks { st with sent := st.sent ++ [(con, i)] } (st.sendConToService con i out byLoop) := by
  cases out <;> exact ⟨rfl, rfl, rfl, rfl, rfl, rfl⟩

theorem Books.send {c : Nat} (hb : Books st) (hc : c < st.next) (hnot : st.occurs c = 0) (i : Nat)
    (out : SendOut) (byLoop : Bool) : Books (st.sendConToService c i out byLoop) := by
  suffices h : Books { st with sent := st.sent ++ [(c, i)] } from
    h.same (sendConToService_books st c i out byLoop)
  refine hb.place hc hnot rfl (fun d => ?_) hb.order
  simp only [occurs, List.countP_append, List.countP_singleton, decide_eq_true_eq]
  omega

theorem isReadyLoop_books (env : LoopEnv) {queue : List (Nat × Acw)} (hq : st.queue = queue)
    (hb : Books st) : Books (isReadyLoop cfg env queue st) := by
  induction queue generalizing st with
  | nil => exact hb.same ⟨rfl, hq.symm, rfl, rfl, rfl, rfl⟩
  | cons x queue ih =>
    have hcon := hb.once x.1
    have hlt : x.1 < st.next := by
      by_contra hge
      simp [if_neg hge, occurs, hq] at hcon
    -- the connection leaves the queue
    have hpop : Books (popFront cfg env st x queue) := by
      refine ⟨fun d => ?_, by simp [popFront, hb.order, hq]⟩
      have hle : (popFront cfg env st x queue).occurs d ≤ st.occurs d := by
        simp only [occurs, popFront, hq, List.countP_cons]
        omega
      exact Nat.le_trans hle (hb.once d)
    have hnot : (popFront cfg env st x queue).occurs x.1 = 0 := by
      simp only [occurs, popFront, hq, List.countP_cons_of_pos, decide_true, if_pos hlt] at hcon ⊢
      omega
    obtain ⟨-, heq⟩ | ⟨i, ⟨-, heq⟩ | ⟨-, heq⟩⟩ := isReadyLoop_cons cfg env st x queue
    · rw [heq]
      exact hb.same ⟨rfl, hq.symm, rfl, rfl, rfl, rfl⟩
    · rw [heq]
      exact hpop.send hlt hnot _ _ _
    · rw [heq]
      exact ih (sendConToService_books _ _ _ _ _).queue (hpop.send hlt hnot _ _ _)

theorem isReady_books (env : LoopEnv) (hb : Books st) : Books (st.isReady cfg env) := by
  unfold isReady
  split
  · exact hb
  · exact isReadyLoop_books env rfl (hb.same ⟨rfl, rfl, rfl, rfl, rfl, rfl⟩)

theorem modifyChild_books (i : Nat) (f : Child → Child) (hb : Books st) :
    Books (st.modifyChild i f) :=
  hb.same ⟨rfl, rfl, rfl, rfl, rfl, rfl⟩

theorem refuse_books (con status : Nat) (hb : Books st) : Books (st.refuse con status) :=
  hb.same ⟨rfl, rfl, rfl, rfl, rfl, rfl⟩

theorem clone_books (acw : Acw) (dres : Option DelimitRes) (sib : Int) (rand : Nat) (out : SendOut)
    (hb : Books st) : Books (st.clone cfg acw dres sib rand out) := by
  unfold clone
  dsimp only
  generalize (findBestFitChild _ _ _ _ _ _ _).2 = children
  generalize (findBestFitChild _ _ _ _ _ _ _).1 = fit
  have hnot : occurs { st with children := children, next := st.next + 1 } st.next = 0 := by
    have hnext := hb.once st.next
    rw [if_neg (Nat.lt_irrefl _)] at hnext
    exact Nat.le_zero.mp hnext
  have hb' : Books { st with children := children, next := st.next + 1 } := by
    refine ⟨fun c => ?_, hb.order⟩
    have hc : st.occurs c ≤ if c < st.next + 1 then 1 else 0 := by
      have hc := hb.once c
      split_ifs at hc ⊢ <;> omega
    exact hc
  have hlt : st.next < st.next + 1 := Nat.lt_succ_self _
  split
  · exact refuse_books _ _ hb'
  · exact refuse_books _ _ hb'
  · cases fit.ret with
    | none => exact hb'
    | some i => exact hb'.wake hlt hnot acw i
  · cases fit.ret with
    | none => exact hb'
    | some i => exact hb'.send hlt hnot i out false
  · exact hb'.enqueue hlt hnot acw

theorem awakened_books {w : Waking} (hw : w ∈ st.waking) (ok : Bool) (hb : Books st) :
    Books (st.awakened cfg w ok) := by
  have hle (c : Nat) :
      (st.waking.filter (·.con ≠ w.con)).countP (·.con = c) ≤ st.waking.countP (·.con = c) :=
    List.filter_sublist.countP_le
  have hb' : Books { st with waking := st.waking.filter (·.con ≠ w.con) } := by
    refine ⟨fun c => ?_, hb.order⟩
    have hc := hb.once c
    have hlec := hle c
    simp only [occurs] at hc ⊢
    omega
  have hw₁ : 0 < st.waking.countP (·.con = w.con) := List.countP_pos_iff.mpr ⟨w, hw, by simp⟩
  have hw₀ : (st.waking.filter (·.con ≠ w.con)).countP (·.con = w.con) = 0 := by
    simp [List.countP_eq_zero]
  have hcon := hb.once w.con
  have hlt : w.con < st.next := by
    by_contra hge
    simp only [if_neg hge, occurs] at hcon
    omega
  rw [if_pos hlt] at hcon
  simp only [occurs] at hcon
  unfold awakened
  dsimp only
  split
  · refine hb'.enqueue hlt ?_ w.acw
    simp only [occurs]
    omega
  · exact refuse_books _ _ hb'

theorem onCtlx_eq_some {i : Nat} {f : Child → Cluster} (h : st.onCtlx i f = some st') :
    ∃ ch, st.children[i]? = some ch ∧ ch.ctlx.isSome = true ∧ st' = f ch := by
  obtain ⟨ch, hch, h⟩ := Option.bind_eq_some_iff.mp h
  split at h
  · next hx => exact ⟨ch, hch, hx, (Option.some.inj h).symm⟩
  · cases h

theorem step_books {e : ClusterEvent} (hb : Books st) (h : st.step cfg e = some st') :
    Books st' := by
  cases e with
  | clone acw dres sib rand out =>
    cases h
    exact clone_books acw dres sib rand out hb
  | awakened con ok =>
    obtain ⟨w, hw, rfl⟩ := Option.map_eq_some_iff.mp h
    exact awakened_books (List.mem_of_find?_eq_some hw) ok hb
  | sendDone con res env =>
    obtain ⟨s, -, rfl⟩ := Option.map_eq_some_iff.mp h
    have hb' : Books (modifyChild { st with sends := st.sends.erase s } s.child
      (Child.finished s.con res)) := hb.same ⟨rfl, rfl, rfl, rfl, rfl, rfl⟩
    unfold sendDone
    dsimp only
    split
    · exact isReadyLoop_books env rfl hb'
    · exact hb'
  | gotNewCtlxFd i =>
    cases h
    exact modifyChild_books _ _ hb
  | ready i env =>
    obtain ⟨ch, -, -, rfl⟩ := onCtlx_eq_some h
    split
    · exact isReady_books env (modifyChild_books _ _ hb)
    · exact hb
  | reenableAccept i =>
    obtain ⟨ch, -, -, rfl⟩ := onCtlx_eq_some h
    split
    · exact hb
    · exact modifyChild_books _ _ hb
  | ateof i =>
    cases h
    exact modifyChild_books _ _ hb
  | chldEof i =>
    obtain ⟨ch, -, -, rfl⟩ := onCtlx_eq_some h
    exact modifyChild_books _ _ hb
  | reserve isLazy =>
    cases h
    exact hb.same ⟨rfl, rfl, rfl, rfl, rfl, rfl⟩
  | tick =>
    cases h
    exact hb.same ⟨rfl, rfl, rfl, rfl, rfl, rfl⟩

theorem reachable_books (h : (system cfg).Reachable st) : Books st := by
  refine h.invariant ?_ fun _ _ _ _ hb _ hs => step_books hb hs
  rintro _ ⟨n, isLazy, -, rfl⟩
  exact ⟨fun c => by simp [occurs], rfl⟩

end Books

def NoneOk (st : Cluster) : Prop := ∀ ch ∈ st.children, ch.getStatus cfg st.now ≠ .ok

def Settled (st : Cluster) : Prop := st.queue = [] ∨ st.looping = true ∨ NoneOk cfg st

/-- `find_best_fit_child` knows what to do when it is called by `is_ready`. -/
def KnownMode (st : Cluster) : Prop := cfg.childMode ≠ .last ∨ st.children.length ≤ 1

section Settled

variable {cfg} {st st' : Cluster}

theorem noneOk_iff : NoneOk cfg st ↔ .ok ∉ statuses cfg st.now st.children := by
  simp [NoneOk, statuses]

theorem NoneOk.congr (hs : statuses cfg st'.now st'.children = statuses cfg st.now st.children)
    (h : NoneOk cfg st) : NoneOk cfg st' := by
  rw [noneOk_iff] at h ⊢
  rwa [hs]

theorem mem_modify {chs : List Child} {i : Nat} {f : Child → Child} {ch : Child}
    (h : ch ∈ chs.modify i f) :
    ch ∈ chs ∨ ∃ d, chs[i]? = some d ∧ ch = f d := by
  obtain ⟨j, hj⟩ := List.mem_iff_getElem?.mp h
  rw [List.getElem?_modify] at hj
  obtain ⟨d, hd, rfl⟩ := Option.map_eq_some_iff.mp hj
  split_ifs with hij
  · subst hij
    exact .inr ⟨d, hd, rfl⟩
  · exact .inl (List.mem_of_getElem? hd)

theorem NoneOk.modifyChild {i : Nat} {f : Child → Child} (h : NoneOk cfg st)
    (hf : ∀ ch, st.children[i]? = some ch → (f ch).getStatus cfg st.now ≠ .ok) :
    NoneOk cfg (st.modifyChild i f) := by
  intro ch hch
  obtain hmem | ⟨d, hd, rfl⟩ := mem_modify hch
  · exact h ch hmem
  · exact hf d hd

theorem Settled.modifyChild {i : Nat} {f : Child → Child} (h : Settled cfg st)
    (hf : st.queue = [] ∨ st.looping = true ∨
      ∀ ch, st.children[i]? = some ch → (f ch).getStatus cfg st.now ≠ .ok) :
    Settled cfg (st.modifyChild i f) := by
  obtain hq | hl | h := h
  · exact .inl hq
  · exact .inr (.inl hl)
  · obtain hq | hl | hf := hf
    · exact .inl hq
    · exact .inr (.inl hl)
    · exact .inr (.inr (h.modifyChild hf))

theorem firstId_isReady {n : Nat} (rand : Nat) (hn : 0 < n) (hmode : cfg.childMode ≠ .last ∨ n ≤ 1)
    (sin : Option UInt32) :
    ∃ id < n, firstId cfg n rand ⟨sin, none⟩ (-1) none = some id := by
  unfold firstId
  rw [if_neg (by omega)]
  split
  · exact ⟨0, hn, rfl⟩
  · next hne =>
    rw [if_pos (by omega)]
    split
    · exact ⟨_, Nat.mod_lt _ hn, rfl⟩
    · exact ⟨_, Nat.mod_lt _ hn, rfl⟩
    · exact ⟨_, Nat.mod_lt _ hn, rfl⟩
    · exact ⟨_, Nat.mod_lt _ hn, rfl⟩
    · next hlast =>
      obtain hmode | hmode := hmode
      · exact absurd hlast hmode
      · omega

theorem firstId_known {n rand id : Nat} {acw : Acw} {pref : Int} {dres : Option DelimitRes}
    (h : firstId cfg n rand acw pref dres = some id) (hpref : ¬ (0 ≤ pref ∧ pref.toNat < n)) :
    cfg.childMode ≠ .last ∨ n ≤ 1 := by
  unfold firstId at h
  rw [if_neg hpref] at h
  split at h
  · next hn => exact .inr (Nat.le_of_eq hn)
  · split at h
    · refine .inl fun hlast => ?_
      rw [hlast] at h
      cases h
    · next hn => exact .inr (Nat.not_lt.mp hn)

theorem sendConToService_looping (con i : Nat) (out : SendOut) (byLoop : Bool) :
    (st.sendConToService con i out byLoop).looping = st.looping := by
  cases out <;> rfl

theorem sendConToService_children (con i : Nat) (out : SendOut) (byLoop : Bool) :
    (st.sendConToService con i out byLoop).children.length = st.children.length := by
  cases out <;> simp [sendConToService, Cluster.modifyChild]

variable (cfg) in
theorem findBestFitChild_length (now rand : Nat) (chs : List Child) (acw : Acw) (pref : Int)
    (dres : Option DelimitRes) :
      (findBestFitChild cfg now rand chs acw pref dres).2.length = chs.length := by
  simpa [statuses] using congrArg List.length
    (findBestFitChild_good cfg now chs rand acw pref dres).1

theorem popFront_length (env : LoopEnv) (x : Nat × Acw) (queue : List (Nat × Acw)) :
    (popFront cfg env st x queue).children.length = st.children.length := findBestFitChild_length ..

theorem isReadyLoop_settled (env : LoopEnv) {queue : List (Nat × Acw)} (hl : st.looping = true)
    (hmode : KnownMode cfg st) (hn : st.children.length < 2 ^ 31) :
    Settled cfg (isReadyLoop cfg env queue st) := by
  induction queue generalizing st with
  | nil => exact .inl rfl
  | cons x queue ih =>
    obtain ⟨hst, heq⟩ | ⟨i, ⟨-, heq⟩ | ⟨-, heq⟩⟩ := isReadyLoop_cons cfg env st x queue
    · rw [heq]
      refine .inr (.inr (noneOk_iff.mpr ?_))
      have hss := (findBestFitChild_good cfg st.now st.children (env.rand x.1) ⟨x.2.sin, none⟩
          (-1) none).1
      dsimp only [readyFit]
      rw [hss]
      by_cases hz : st.children.length = 0
      · simp [statuses, List.eq_nil_of_length_eq_zero hz]
      · obtain ⟨id, hid, hfst⟩ := firstId_isReady (env.rand x.1) (by omega) hmode x.2.sin
        exact findBestFitChild_none hfst (by omega) hst
    · rw [heq]
      exact .inr (.inl hl)
    · rw [heq]
      refine ih ((sendConToService_looping _ _ _ _).trans hl) ?_ ?_
      · rwa [KnownMode, sendConToService_children, popFront_length]
      · rwa [sendConToService_children, popFront_length]

structure Inv (cfg : OkdConfig) (st : Cluster) : Prop where
  length : st.children.length < 2 ^ 31
  known : KnownMode cfg st ∨ (st.queue = [] ∧ st.waking = [])
  settled : Settled cfg st
  loop : st.sends.countP ClusterSend.byLoop = if st.looping then 1 else 0

theorem isReadyLoop_length (env : LoopEnv) (queue : List (Nat × Acw)) :
    (isReadyLoop cfg env queue st).children.length = st.children.length := by
  induction queue generalizing st with
  | nil => rfl
  | cons x queue ih =>
    obtain ⟨-, heq⟩ | ⟨i, ⟨-, heq⟩ | ⟨-, heq⟩⟩ := isReadyLoop_cons cfg env st x queue
    · rw [heq]
      exact findBestFitChild_length ..
    · rw [heq, sendConToService_children, popFront_length]
    · rw [heq, ih, sendConToService_children, popFront_length]

theorem isReadyLoop_loop (env : LoopEnv) (queue : List (Nat × Acw)) (hl : st.looping = true)
    (hs : st.sends.countP ClusterSend.byLoop = 0) :
    (isReadyLoop cfg env queue st).sends.countP ClusterSend.byLoop =
      if (isReadyLoop cfg env queue st).looping then 1 else 0 := by
  induction queue generalizing st with
  | nil => exact hs
  | cons x queue ih =>
    obtain ⟨-, heq⟩ | ⟨i, ⟨-, heq⟩ | ⟨hout, heq⟩⟩ := isReadyLoop_cons cfg env st x queue
    · rw [heq]
      exact hs
    · rw [heq]
      simp [sendConToService, Cluster.modifyChild, popFront, hl, hs]
    · rw [heq]
      refine ih ((sendConToService_looping _ _ _ _).trans hl) ?_
      cases ho : env.out x.1 with
      | dead => exact hs
      | lost => exact hs
      | rpc => exact absurd ho hout

/-- What a step needs in order not to leave a connection behind. -/
def Minds (cfg : OkdConfig) (st : Cluster) : ClusterEvent → Prop
  | .clone acw dres sib rand _ =>
    (KnownMode cfg st ∨ ¬ (0 ≤ sib ∧ sib.toNat < st.children.length)) ∧
      (NoneOk cfg st ∨ ∀ id, firstId cfg st.children.length rand acw sib dres = some id →
        id + st.children.length ≤ 2 ^ 64)
  | .awakened con ok => ok = true → ∀ w, st.waking.find? (·.con = con) = some w →
      st.children[w.child]?.any (·.ctlx.isSome) = true →
      cfg.conQueueMax ≤ st.queue.length ∨ st.looping = true ∨ NoneOk cfg st
  | .sendDone con res _ => st.queue = [] ∨ st.looping = true ∨
      ∀ s, st.sends.find? (·.con = con) = some s → ∀ ch, st.children[s.child]? = some ch →
        (ch.finished con res).getStatus cfg st.now ≠ .ok
  | .reenableAccept i => st.queue = [] ∨ st.looping = true ∨
      ∀ ch, st.children[i]? = some ch → ch.reenabled.getStatus cfg st.now ≠ .ok
  | _ => True

theorem getStatus_ne_ok {ch : Child} {now : Nat} (h : ch.ctlx ≠ some false ∨ ch.state ≠ .serve) :
    ch.getStatus cfg now ≠ .ok := by
  unfold Child.getStatus
  split_ifs <;> simp

theorem getStatus_tick {ch : Child} {now : Nat} (h : ch.getStatus cfg (now + 1) = .ok) :
    ch.getStatus cfg now = .ok := by
  have hold : ch.oldest now ≤ ch.oldest (now + 1) := by
    unfold Child.oldest
    split <;> omega
  have hto (h : ch.sendconTimeout cfg now = true) : ch.sendconTimeout cfg (now + 1) = true := by
    simp only [Child.sendconTimeout, Bool.and_eq_true, decide_eq_true_eq] at h ⊢
    exact ⟨h.1, by omega⟩
  unfold Child.getStatus at h ⊢
  split_ifs at h ⊢ <;> simp_all

theorem Inv.modifyChild {i : Nat} {f : Child → Child} (h : Inv cfg st)
    (hf : st.queue = [] ∨ st.looping = true ∨
      ∀ ch, st.children[i]? = some ch → (f ch).getStatus cfg st.now ≠ .ok) :
    Inv cfg (st.modifyChild i f) where
  length := by simpa [Cluster.modifyChild] using h.length
  known := h.known.imp_left fun hk => by simpa [KnownMode, Cluster.modifyChild] using hk
  settled := h.settled.modifyChild hf
  loop := h.loop

theorem Inv.send {con : Nat} (h : Inv cfg st) (i : Nat) (out : SendOut)
    (hq : st.queue = [] ∨ st.looping = true) : Inv cfg (st.sendConToService con i out false) := by
  have hs : Settled cfg (st.sendConToService con i out false) := by
    rw [Settled, sendConToService_looping, (sendConToService_books st con i out false).queue]
    exact hq.imp_right .inl
  refine ⟨by simpa only [sendConToService_children] using h.length, ?_, hs, ?_⟩
  · rw [KnownMode, sendConToService_children, (sendConToService_books st con i out false).queue,
      (sendConToService_books st con i out false).waking]
    exact h.known
  · rw [sendConToService_looping, ← h.loop]
    cases out <;> simp [sendConToService, Cluster.modifyChild]

theorem Inv.enqueue {con : Nat} {acw : Acw} (h : Inv cfg st) (hk : KnownMode cfg st)
    (hn : cfg.conQueueMax ≤ st.queue.length ∨ st.looping = true ∨ NoneOk cfg st) :
    Inv cfg (st.enqueue cfg con acw) := by
  unfold Cluster.enqueue
  split
  · exact ⟨h.length, h.known, h.settled, h.loop⟩
  · next hfull => exact ⟨h.length, .inl hk, .inr (hn.resolve_left hfull), h.loop⟩

theorem Inv.isReadyLoop (env : LoopEnv) {queue : List (Nat × Acw)}
    (hn : st.children.length < 2 ^ 31)
    (hmode : KnownMode cfg st) (hl : st.looping = true)
      (hs : st.sends.countP ClusterSend.byLoop = 0) :
    Inv cfg (isReadyLoop cfg env queue st) where
  length := by rwa [isReadyLoop_length]
  known := .inl (by rwa [KnownMode, isReadyLoop_length])
  settled := isReadyLoop_settled env hl hmode hn
  loop := isReadyLoop_loop env queue hl hs

theorem Inv.isReadyLoop_nil (env : LoopEnv) (h : st.children.length < 2 ^ 31)
    (hw : st.waking = []) (hs : st.sends.countP ClusterSend.byLoop = 0) :
    Inv cfg (Cluster.isReadyLoop cfg env [] st) :=
  ⟨h, .inr ⟨rfl, hw⟩, .inl rfl, hs⟩

variable (st) in
theorem Inv.resume (env : LoopEnv) (hn : st.children.length < 2 ^ 31)
    (hk : KnownMode cfg st ∨ (st.queue = [] ∧ st.waking = [])) (hl : st.looping = true)
    (hs : st.sends.countP ClusterSend.byLoop = 0) :
      Inv cfg (Cluster.isReadyLoop cfg env st.queue st) := by
  obtain hk | ⟨hq, hw⟩ := hk
  · exact .isReadyLoop env hn hk hl hs
  · rw [hq]
    exact .isReadyLoop_nil env hn hw hs

theorem Inv.clone {acw : Acw} {dres : Option DelimitRes} {sib : Int} {rand : Nat} {out : SendOut}
    (h : Inv cfg st) (hm : Minds cfg st (.clone acw dres sib rand out)) :
    Inv cfg (st.clone cfg acw dres sib rand out) := by
  obtain ⟨hss, hgood⟩ := findBestFitChild_good cfg st.now st.children rand acw sib dres
  have hlen := findBestFitChild_length cfg st.now rand st.children acw sib dres
  have hnone (hst : (findBestFitChild cfg st.now rand st.children acw sib dres).1.status ≠ .ok)
      (hc : (findBestFitChild cfg st.now rand st.children acw sib dres).1.status ≠ .crashed) :
      KnownMode cfg st ∧ NoneOk cfg st := by
    cases hid : firstId cfg st.children.length rand acw sib dres with
    | none => simp [findBestFitChild, hid] at hc
    | some id =>
      refine ⟨?_, ?_⟩
      · obtain hk | hsib := hm.1
        · exact hk
        · exact firstId_known hid hsib
      · obtain hno | hlt := hm.2
        · exact hno
        · exact noneOk_iff.mpr (findBestFitChild_none hid (hlt id hid) hst)
  unfold Cluster.clone
  dsimp only
  generalize findBestFitChild cfg st.now rand st.children acw sib dres = r at *
  have h' : Inv cfg { st with children := r.2, next := st.next + 1 } := by
    refine ⟨by simpa only [hlen] using h.length,
      h.known.imp_left fun hk => by rwa [KnownMode, hlen], ?_, h.loop⟩
    exact h.settled.imp_right fun hs => hs.imp_right fun hno => hno.congr hss
  split
  · exact ⟨h'.length, h'.known, h'.settled, h'.loop⟩
  · exact ⟨h'.length, h'.known, h'.settled, h'.loop⟩
  · next hst =>
    have hk : cfg.childMode ≠ .last ∨ r.2.length ≤ 1 := by
      rw [hlen]
      exact (hnone (by simp [hst]) (by simp [hst])).1
    cases r.1.ret with
    | none => exact h'
    | some i => exact ⟨h'.length, .inl hk, h'.settled, h'.loop⟩
  · next hst =>
    -- a child is ready, so the queue is empty or looked after
    have hbusy : st.queue = [] ∨ st.looping = true := by
      obtain ⟨i, -, hi⟩ := hgood.ret (hgood.status.mp hst)
      obtain hq | hl | hno := h.settled
      · exact .inl hq
      · exact .inr hl
      · exact absurd (List.mem_of_getElem? hi) (noneOk_iff.mp hno)
    cases r.1.ret with
    | none => exact h'
    | some i => exact h'.send i out hbusy
  · next hst =>
    obtain ⟨hk, hno⟩ := hnone (by simp [hst]) (by simp [hst])
    exact h'.enqueue (by rwa [KnownMode, hlen]) (.inr (.inr (hno.congr hss)))

theorem Inv.awakened {w : Waking} {ok : Bool} (h : Inv cfg st) (hw : w ∈ st.waking)
    (hm : ok = true → st.children[w.child]?.any (·.ctlx.isSome) = true →
      cfg.conQueueMax ≤ st.queue.length ∨ st.looping = true ∨ NoneOk cfg st) :
    Inv cfg (st.awakened cfg w ok) := by
  have hk : KnownMode cfg st := h.known.resolve_right fun hk => by simp [hk.2] at hw
  have h' : Inv cfg { st with waking := st.waking.filter (·.con ≠ w.con) } :=
    ⟨h.length, .inl hk, h.settled, h.loop⟩
  unfold Cluster.awakened
  dsimp only
  split
  · next hok =>
    rw [Bool.and_eq_true] at hok
    exact h'.enqueue hk (hm hok.1 hok.2)
  · exact ⟨h'.length, h'.known, h'.settled, h'.loop⟩

theorem Inv.sendDone {s : ClusterSend} {res : SendRes} (env : LoopEnv) (h : Inv cfg st)
    (hs : s ∈ st.sends)
    (hm : st.queue = [] ∨ st.looping = true ∨ ∀ ch, st.children[s.child]? = some ch →
      (ch.finished s.con res).getStatus cfg st.now ≠ .ok) :
    Inv cfg (st.sendDone cfg env s res) := by
  have hcount : (st.sends.erase s).countP ClusterSend.byLoop =
      st.sends.countP ClusterSend.byLoop - if s.byLoop then 1 else 0 := by
    rw [(List.perm_cons_erase hs).countP_eq, List.countP_cons, Nat.add_sub_cancel]
  have hlen : (st.children.modify s.child (Child.finished s.con res)).length = st.children.length :=
    List.length_modify ..
  unfold Cluster.sendDone
  dsimp only
  split
  · next hby =>
    have hpos : 0 < st.sends.countP ClusterSend.byLoop := List.countP_pos_iff.mpr ⟨s, hs, hby⟩
    rw [h.loop] at hpos
    have hl : st.looping = true := by
      by_contra hl
      simp [hl] at hpos
    refine .resume _ env (by simpa only [Cluster.modifyChild, hlen] using h.length) ?_ hl ?_
    · exact h.known.imp_left fun hk => by rwa [KnownMode, Cluster.modifyChild, hlen]
    · exact hcount.trans (by simp [h.loop, hl, hby])
  · next hby =>
    refine Inv.modifyChild ⟨h.length, h.known, h.settled, ?_⟩ hm
    rw [← h.loop]
    exact hcount.trans (by simp [hby])

theorem Inv.startChld (env : LoopEnv) (i : Nat) (h : Inv cfg st) :
    Inv cfg (st.startChld cfg env i) := by
  have hlen (f : Child → Child) : (st.children.modify i f).length = st.children.length :=
    List.length_modify ..
  unfold Cluster.startChld isReady
  split
  · next hl => exact h.modifyChild (.inr (.inl hl))
  · next hl =>
    refine .resume { st.modifyChild i _ with looping := true } env
      (by simpa only [Cluster.modifyChild, hlen] using h.length) ?_ rfl ?_
    · exact h.known.imp_left fun hk => by rwa [KnownMode, Cluster.modifyChild, hlen]
    · exact h.loop.trans (if_neg hl)

theorem step_inv {e : ClusterEvent} (h : Inv cfg st) (hm : Minds cfg st e)
    (hs : st.step cfg e = some st') : Inv cfg st' := by
  cases e with
  | clone acw dres sib rand out =>
    cases hs
    exact h.clone hm
  | awakened con ok =>
    obtain ⟨w, hw, rfl⟩ := Option.map_eq_some_iff.mp hs
    exact h.awakened (List.mem_of_find?_eq_some hw) fun hok => hm hok w hw
  | sendDone con res env =>
    obtain ⟨s, hf, rfl⟩ := Option.map_eq_some_iff.mp hs
    have hcon : s.con = con := by simpa using List.find?_some hf
    subst hcon
    exact h.sendDone env (List.mem_of_find?_eq_some hf)
      (hm.imp_right fun hm => hm.imp_right fun hm => hm s hf)
  | gotNewCtlxFd i =>
    cases hs
    exact h.modifyChild (.inr (.inr fun ch _ => getStatus_ne_ok (.inr (by simp))))
  | ready i env =>
    obtain ⟨ch, -, -, rfl⟩ := onCtlx_eq_some hs
    split
    · exact h.startChld env i
    · exact h
  | reenableAccept i =>
    obtain ⟨ch, -, -, rfl⟩ := onCtlx_eq_some hs
    split
    · exact h
    · exact h.modifyChild hm
  | ateof i =>
    cases hs
    refine h.modifyChild (.inr (.inr fun ch _ => getStatus_ne_ok (.inl ?_)))
    cases ch.ctlx <;> simp
  | chldEof i =>
    obtain ⟨ch, -, -, rfl⟩ := onCtlx_eq_some hs
    exact h.modifyChild (.inr (.inr fun ch _ => getStatus_ne_ok (.inl (by simp [Child.chldEof]))))
  | reserve isLazy =>
    cases hs
    refine ⟨by simpa using h.length, h.known.imp_left fun hk => by simpa [KnownMode] using hk,
      .inr (.inr fun ch hch => ?_), h.loop⟩
    obtain ⟨d, -, rfl⟩ := List.mem_map.mp hch
    refine getStatus_ne_ok (.inr ?_)
    cases isLazy <;> simp
  | tick =>
    cases hs
    refine ⟨h.length, h.known, ?_, h.loop⟩
    exact h.settled.imp_right fun hs => hs.imp_right fun hno ch hch hok =>
      hno ch hch (getStatus_tick hok)

end Settled

/-- Nothing is stranded, no connection is sent twice, and the queue is served in order. -/
structure Served (st : Cluster) : Prop where
  notStranded : st.queue ≠ [] → st.looping = false → ∀ ch ∈ st.children,
    ch.getStatus cfg st.now ≠ .ok
  sentOnce : ∀ c, st.sent.countP (·.1 = c) ≤ 1
  inOrder : st.pushed = st.popped ++ st.queue.map Prod.fst

theorem Books.sent_le {st : Cluster} (hb : Books st) (c : Nat) : st.sent.countP (·.1 = c) ≤ 1 := by
  have hc := hb.once c
  simp only [occurs] at hc
  split at hc <;> omega

theorem served_of_minds {st : Cluster} (h : (system cfg).Reach (Minds cfg) st) : Served cfg st := by
  have hb := reachable_books h.reachable
  have hinv : Inv cfg st := by
    refine h.invariant ?_ fun _ _ _ _ hi hm hs => step_inv hi hm hs
    rintro _ ⟨n, isLazy, hn, rfl⟩
    refine ⟨by simpa using hn, .inr ⟨rfl, rfl⟩, .inl rfl, rfl⟩
  refine ⟨fun hq hl => ?_, hb.sent_le, hb.order⟩
  obtain h | h | h := hinv.settled
  · exact absurd h hq
  · rw [hl] at h
    cases h
  · exact h

def plainConfig : OkdConfig where
  sendconTimeBudget := 0
  svcFdQuota := 0
  conQueueMax := 10
  emergKillEnabled := false
  emergKillWait := 0
  childMode := .sourceHash
  okAllowedProxy := []
  hash := fun _ => 0

/-- A connection is queued before the child is up, and sent when it is. -/
theorem served_queued : ∃ st, (system plainConfig).Reach (Minds plainConfig) st ∧ st.popped = [0] ∧
    st.sent = [(0, 0)] ∧ Served plainConfig st := by
  let env : LoopEnv := ⟨fun _ => 0, fun _ => .rpc⟩
  have h₀ : (system plainConfig).Reach (Minds plainConfig) { children := [{ state := .none }] } :=
    .init ⟨1, false, by decide, rfl⟩
  have hm : Minds plainConfig { children := [{ state := .none }] }
      (.clone ⟨none, none⟩ none (-1) 0 .rpc) :=
    ⟨.inl (.inr (by decide)), .inr fun id hid => by cases hid; decide⟩
  have h₁ := h₀.step hm rfl
  have h₂ := h₁.step (show Minds plainConfig _ (.gotNewCtlxFd 0) from trivial) rfl
  have h₃ := h₂.step (show Minds plainConfig _ (.ready 0 env) from trivial) rfl
  exact ⟨_, h₃, rfl, rfl, served_of_minds plainConfig h₃⟩

/-- The child is up before `okld` has answered: the connection that woke it stays in the queue. -/
theorem not_served_lazy : ∃ st, (system plainConfig).Reachable st ∧ ¬ Served plainConfig st := by
  let env : LoopEnv := ⟨fun _ => 0, fun _ => .rpc⟩
  have h : (system plainConfig).Reachable
      { children := [{ state := .serve, ctlx := some false }], queue := [(0, ⟨none, none⟩)],
        next := 1, pushed := [0] } := by
    refine System.reachable_exec [.clone ⟨none, none⟩ none (-1) 0 .rpc, .gotNewCtlxFd 0,
      .ready 0 env, .awakened 0 true] ⟨1, true, by decide, rfl⟩ ?_
    decide
  refine ⟨_, h, fun hs => ?_⟩
  exact hs.notStranded (by decide) rfl _ (List.mem_singleton_self _) (by decide)

end Cluster

end Okws
