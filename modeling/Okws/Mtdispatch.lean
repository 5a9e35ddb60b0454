import Mathlib.Data.List.Nodup
import Mathlib.Logic.Function.Basic
import Okws.Lib.Transition

/-! `mtdispatch_t`: calls are handed to threads, which talk with the dispatcher through a cell and
two pipes. -/

namespace Okws

inductive MtdStatus
  | startup
  | ready
  | working
  | shutdown
  | reply
  deriving DecidableEq

/-- `mtd_shmem_cell_t`.  The reply is known by the call that it is for. -/
structure MtdCell where
  status : MtdStatus := .startup
  sbp : Option Nat := none
  rsp : Option Nat := none

/-- Where a thread is in `run`: `taking` is before `take_svccb`, the first time or after a message,
and `reading` is in `msg_recv`. -/
inductive MtdPc
  | starting
  | announced
  | taking
  | running (b : Nat)
  | reading
  | dead
  deriving DecidableEq

structure MtdThread where
  pc : MtdPc := .starting
  continues : Nat := 0

/-- The calls are numbered.  `handed` tells which thread has run a call, and `answered` what a call
was answered with, and on behalf of which thread. -/
structure Mtdispatch where
  num : Nat
  maxq : Nat
  next : Nat := 0
  queue : List Nat := []
  readyq : List Nat := []
  cells : Nat → MtdCell := fun _ => {}
  threads : Nat → MtdThread := fun _ => {}
  pipe : List (Nat × MtdStatus) := []
  handed : List (Nat × Nat) := []
  answered : List (Nat × Nat × Option Nat) := []
  rejected : List Nat := []
  broken : Bool := false

namespace Mtdispatch

open Function (update)

variable (s : Mtdispatch)

/-- `send_svccb`, if a thread is ready. -/
def sendSvccb (b : Nat) : Option Mtdispatch := match s.readyq with
  | [] => none
  | i :: q => some { s with
      readyq := q
      broken := s.broken || (s.cells i).status ≠ .ready
      cells := update s.cells i { s.cells i with status := .working, sbp := some b }
      threads := update s.threads i
        { s.threads i with continues := (s.threads i).continues + 1 } }

/-- The loop of `chld_ready`.  Which calls have waited for too long is for the clock to say. -/
def serve (late : Nat → Bool) : List Nat → Mtdispatch → Mtdispatch
  | [], s => { s with queue := [] }
  | b :: q, s =>
    if s.readyq = [] then { s with queue := b :: q }
    else if late b then serve late q { s with rejected := b :: s.rejected }
    else match s.sendSvccb b with
      | none => s
      | some t => serve late q t

def chldReady (late : Nat → Bool) (i : Nat) : Mtdispatch :=
  serve late s.queue { s with readyq := s.readyq ++ [i] }

def chldReply (late : Nat → Bool) (i : Nat) : Mtdispatch := match (s.cells i).sbp with
  | none => { s with broken := true }
  | some b => chldReady { s with
      answered := (b, i, (s.cells i).rsp) :: s.answered
      cells := update s.cells i { status := .ready } } late i

/-- `fail` is the end of a thread that could not be set up; `reply` is any of the ways to reply. -/
inductive Event
  | dispatch
  | chldMsg (late : Nat → Bool)
  | becomeReady (i : Nat)
  | fail (i : Nat)
  | takeSvccb (i : Nat)
  | reply (i : Nat)
  | msgRecv (i : Nat)

def setPc (i : Nat) (pc : MtdPc) : Mtdispatch :=
  { s with threads := update s.threads i { s.threads i with pc := pc } }

def step : Event → Option Mtdispatch
  | .dispatch =>
    let b := s.next
    let s := { s with next := b + 1 }
    if s.maxq ≤ s.queue.length then some { s with rejected := b :: s.rejected }
    else if s.queue ≠ [] then some { s with queue := s.queue ++ [b] }
    else match s.sendSvccb b with
      | none => some { s with queue := s.queue ++ [b] }
      | some t => some t
  | .chldMsg late => match s.pipe with
    | [] => none
    | (i, m) :: p =>
      let s := { s with pipe := p }
      match m with
      | .ready => some (s.chldReady late i)
      | .reply => some (s.chldReply late i)
      | _ => some s
  | .becomeReady i =>
    if i < s.num ∧ (s.threads i).pc = .starting then
      some { s.setPc i .announced with
        cells := update s.cells i { s.cells i with status := .ready }
        pipe := s.pipe ++ [(i, .ready)] }
    else none
  | .fail i =>
    if i < s.num ∧ (s.threads i).pc = .starting then
      some { s.setPc i .dead with pipe := s.pipe ++ [(i, .shutdown)] }
    else none
  | .takeSvccb i =>
    if (s.threads i).pc = .announced ∨ (s.threads i).pc = .taking then
      match (s.cells i).sbp with
      | none => some (s.setPc i .reading)
      | some b => some { s.setPc i (.running b) with handed := (b, i) :: s.handed }
    else none
  | .reply i => match (s.threads i).pc with
    | .running b => some { s.setPc i .reading with
        cells := update s.cells i { s.cells i with status := .reply, rsp := some b }
        pipe := s.pipe ++ [(i, .reply)] }
    | _ => none
  | .msgRecv i =>
    if (s.threads i).pc = .reading ∧ (s.threads i).continues ≠ 0 then
      some { s with
        threads := update s.threads i ⟨.taking, (s.threads i).continues - 1⟩ }
    else none

def system : Lib.System Mtdispatch Event where
  init s := ∃ num maxq, s = { num := num, maxq := maxq }
  step := step

/-- The call is on its way through the cell of the thread. -/
def UnderWay (b i : Nat) : Prop :=
  (s.cells i).sbp = some b ∧ ((s.threads i).continues ≠ 0 ∨ (s.threads i).pc = .taking ∨
    (s.threads i).pc = .running b ∨ (i, .reply) ∈ s.pipe)

/-- A call is run by one thread and once, it is not run again once it has its answer, and it has one
answer, which is the reply of the thread that has run it; the assertion of `send_svccb` holds, and
no answer is sought in an empty cell.  A call that has no answer yet is not lost. -/
structure Sound : Prop where
  once : (s.handed.map Prod.fst).Nodup
  answeredOnce : (s.answered.map Prod.fst).Nodup
  own : ∀ b i r, (b, i, r) ∈ s.answered → r = some b ∧ (b, i) ∈ s.handed
  unanswered : ∀ b i r j, (b, i, r) ∈ s.answered → (s.threads j).pc ≠ .running b
  rejected : ∀ b ∈ s.rejected, b ∉ s.handed.map Prod.fst ∧ b ∉ s.answered.map Prod.fst
  kept : ∀ b < s.next, b ∈ s.rejected ∨ b ∈ s.queue ∨ b ∈ s.answered.map Prod.fst ∨
    ∃ i, s.UnderWay b i
  served : s.queue ≠ [] → s.readyq = []
  intact : s.broken = false

/-- A thread that looks at its cell for the first time finds it empty. -/
def Calm : Event → Prop
  | .takeSvccb i => (s.threads i).pc = .announced → (s.cells i).sbp = none
  | _ => True

def Idle (i : Nat) : Prop :=
  (s.cells i).sbp = none ∧ (s.cells i).status = .ready ∧ (s.threads i).continues = 0 ∧
    ((s.threads i).pc = .announced ∨ (s.threads i).pc = .reading)

/-- The calls in the cells. -/
def calls : Nat → Option Nat := MtdCell.sbp ∘ s.cells

/-- The dispatcher has nothing from the thread, neither in the pipe nor in its queue. -/
def Away (i : Nat) : Prop := (∀ m, (i, m) ∉ s.pipe) ∧ i ∉ s.readyq

/-- The call was not run yet. -/
def Fresh (b : Nat) : Prop := ∀ j, (b, j) ∉ s.handed

/-- The turn is in one place: with the dispatcher, in a pipe, or with the thread. -/
inductive Turn (i : Nat) : Prop
  | starting (pc : (s.threads i).pc = .starting) (call : s.calls i = none)
    (continues : (s.threads i).continues = 0) (away : s.Away i)
  | dead (pc : (s.threads i).pc = .dead) (call : s.calls i = none)
    (continues : (s.threads i).continues = 0)
    (pipe : ∀ m, (i, m) ∈ s.pipe → m = .shutdown) (ready : i ∉ s.readyq)
  | idle (idle : s.Idle i) (pipe : ∀ m, (i, m) ∈ s.pipe → m = .ready)
    (ready : i ∈ s.readyq → ∀ m, (i, m) ∉ s.pipe)
  | sent (b : Nat) (call : s.calls i = some b) (continues : (s.threads i).continues = 1)
    (pc : (s.threads i).pc = .announced ∨ (s.threads i).pc = .reading) (away : s.Away i)
    (fresh : s.Fresh b)
  | taking (b : Nat) (call : s.calls i = some b) (continues : (s.threads i).continues = 0)
    (pc : (s.threads i).pc = .taking) (away : s.Away i) (fresh : s.Fresh b)
  | running (b : Nat) (call : s.calls i = some b) (continues : (s.threads i).continues = 0)
    (pc : (s.threads i).pc = .running b) (away : s.Away i) (handed : (b, i) ∈ s.handed)
  | replied (b : Nat) (call : s.calls i = some b) (rsp : (s.cells i).rsp = some b)
    (continues : (s.threads i).continues = 0) (pc : (s.threads i).pc = .reading)
    (reply : (i, .reply) ∈ s.pipe) (pipe : ∀ m, (i, m) ∈ s.pipe → m = .reply)
    (ready : i ∉ s.readyq) (handed : (b, i) ∈ s.handed)

/-- Every call is in one place: it was turned away, it waits, it is in the cell of a thread, or it
has its answer. -/
structure Ledger (calls : Nat → Option Nat) (next : Nat) (waiting refused : List Nat)
    (runs : List (Nat × Nat)) (replies : List (Nat × Nat × Option Nat)) : Prop where
  cell : ∀ i b, calls i = some b → b < next ∧ b ∉ waiting ∧ b ∉ refused ∧
    ∀ j r, (b, j, r) ∉ replies
  cellOne : ∀ i j b, calls i = some b → calls j = some b → i = j
  handedOnce : (runs.map Prod.fst).Nodup
  handed : ∀ b i, (b, i) ∈ runs → b < next ∧ b ∉ waiting ∧ b ∉ refused ∧
    (calls i = some b ∨ ∃ r, (b, i, r) ∈ replies)
  answeredOnce : (replies.map Prod.fst).Nodup
  answered : ∀ b i r, (b, i, r) ∈ replies → r = some b ∧ (b, i) ∈ runs
  queueOnce : waiting.Nodup
  queue : ∀ b ∈ waiting, b < next ∧ b ∉ refused
  rejected : ∀ b ∈ refused, b < next
  place : ∀ b < next, b ∈ refused ∨ b ∈ waiting ∨ (∃ i r, (b, i, r) ∈ replies) ∨
    ∃ i, calls i = some b

structure Inv : Prop where
  intact : s.broken = false
  readyNodup : s.readyq.Nodup
  pipeNodup : (s.pipe.map Prod.fst).Nodup
  turn : ∀ i, s.Turn i
  ledger : Ledger s.calls s.next s.queue s.rejected s.handed s.answered

section Turns

variable {s t : Mtdispatch} {i b : Nat}

namespace Turn

/-- Another thread made a step. -/
theorem frame (h : s.Turn i) (hcell : t.cells i = s.cells i) (hthread : t.threads i = s.threads i)
    (hpipe : ∀ m, (i, m) ∈ t.pipe ↔ (i, m) ∈ s.pipe) (hready : i ∈ t.readyq ↔ i ∈ s.readyq)
    (hhanded : ∀ b, s.calls i = some b → ∀ j, (b, j) ∈ t.handed ↔ (b, j) ∈ s.handed) :
    t.Turn i := by
  have hcall : t.calls i = s.calls i := congrArg MtdCell.sbp hcell
  have haway (h : s.Away i) : t.Away i :=
    ⟨fun m hm => h.1 m ((hpipe m).1 hm), fun hr => h.2 (hready.1 hr)⟩
  have hfresh {b : Nat} (hc : s.calls i = some b) (h : s.Fresh b) : t.Fresh b :=
    fun j hj => h j ((hhanded b hc j).1 hj)
  have hpc : (t.threads i).pc = (s.threads i).pc := congrArg MtdThread.pc hthread
  have hn : (t.threads i).continues = (s.threads i).continues :=
    congrArg MtdThread.continues hthread
  cases h with
  | starting pc call continues away =>
    exact .starting (hpc.trans pc) (hcall.trans call) (hn.trans continues) (haway away)
  | dead pc call continues pipe ready =>
    exact .dead (hpc.trans pc) (hcall.trans call) (hn.trans continues)
      (fun m hm => pipe m ((hpipe m).1 hm)) fun hr => ready (hready.1 hr)
  | idle idle pipe ready =>
    refine .idle ?_ (fun m hm => pipe m ((hpipe m).1 hm))
      fun hr m hm => ready (hready.1 hr) m ((hpipe m).1 hm)
    rw [Idle, hcell, hthread]
    exact idle
  | sent b call continues pc away fresh =>
    exact .sent b (hcall.trans call) (hn.trans continues) (pc.imp hpc.trans hpc.trans)
      (haway away) (hfresh call fresh)
  | taking b call continues pc away fresh =>
    exact .taking b (hcall.trans call) (hn.trans continues) (hpc.trans pc) (haway away)
      (hfresh call fresh)
  | running b call continues pc away handed =>
    exact .running b (hcall.trans call) (hn.trans continues) (hpc.trans pc) (haway away)
      ((hhanded b call i).2 handed)
  | replied b call rsp continues pc reply pipe ready handed =>
    exact .replied b (hcall.trans call) ((congrArg MtdCell.rsp hcell).trans rsp)
      (hn.trans continues) (hpc.trans pc) ((hpipe _).2 reply)
      (fun m hm => pipe m ((hpipe m).1 hm)) (fun hr => ready (hready.1 hr))
      ((hhanded b call i).2 handed)

theorem of_ready (h : s.Turn i) (hr : i ∈ s.readyq) : s.Idle i ∧ ∀ m, (i, m) ∉ s.pipe := by
  cases h with
  | idle idle pipe ready => exact ⟨idle, ready hr⟩
  | starting pc call continues away => exact absurd hr away.2
  | dead pc call continues pipe ready => exact absurd hr ready
  | sent b call continues pc away fresh => exact absurd hr away.2
  | taking b call continues pc away fresh => exact absurd hr away.2
  | running b call continues pc away handed => exact absurd hr away.2
  | replied b call rsp continues pc reply pipe ready handed => exact absurd hr ready

theorem of_starting (h : s.Turn i) (hpc : (s.threads i).pc = .starting) :
    s.calls i = none ∧ (s.threads i).continues = 0 ∧ s.Away i := by
  cases h with
  | starting pc call continues away => exact ⟨call, continues, away⟩
  | idle idle => grind [Idle]
  | _ => grind

theorem of_none (h : s.Turn i) (hpc : (s.threads i).pc = .announced ∨ (s.threads i).pc = .taking)
    (hcall : s.calls i = none) : s.Idle i ∧ (∀ m, (i, m) ∈ s.pipe → m = .ready) ∧
      (i ∈ s.readyq → ∀ m, (i, m) ∉ s.pipe) := by
  cases h with
  | idle idle pipe ready => exact ⟨idle, pipe, ready⟩
  | _ => grind

theorem of_taking (h : s.Turn i) (hpc : (s.threads i).pc = .taking) :
    (s.threads i).continues = 0 ∧ s.Away i ∧ ∃ b, s.calls i = some b ∧ s.Fresh b := by
  cases h with
  | taking b call continues pc away fresh => exact ⟨continues, away, b, call, fresh⟩
  | idle idle => grind [Idle]
  | _ => grind

theorem of_running (h : s.Turn i) (hpc : (s.threads i).pc = .running b) :
    (s.threads i).continues = 0 ∧ s.Away i ∧ s.calls i = some b ∧ (b, i) ∈ s.handed := by
  cases h with
  | running b' call continues pc away handed =>
    cases hpc.symm.trans pc
    exact ⟨continues, away, call, handed⟩
  | idle idle => grind [Idle]
  | _ => grind

theorem of_continues (h : s.Turn i) (hn : (s.threads i).continues ≠ 0) :
    (s.threads i).continues = 1 ∧ s.Away i ∧ ∃ b, s.calls i = some b ∧ s.Fresh b := by
  cases h with
  | sent b call continues pc away fresh => exact ⟨continues, away, b, call, fresh⟩
  | idle idle => exact absurd idle.2.2.1 hn
  | _ => contradiction

theorem of_msg_ready (h : s.Turn i) (hm : (i, .ready) ∈ s.pipe) : s.Idle i ∧ i ∉ s.readyq := by
  cases h with
  | idle idle pipe ready => exact ⟨idle, fun hr => ready hr _ hm⟩
  | dead pc call continues pipe => cases pipe _ hm
  | replied b call rsp continues pc reply pipe => cases pipe _ hm
  | starting pc call continues away => exact absurd hm (away.1 _)
  | sent b call continues pc away => exact absurd hm (away.1 _)
  | taking b call continues pc away => exact absurd hm (away.1 _)
  | running b call continues pc away => exact absurd hm (away.1 _)

theorem of_msg_reply (h : s.Turn i) (hm : (i, .reply) ∈ s.pipe) :
    (s.threads i).continues = 0 ∧ (s.threads i).pc = .reading ∧ i ∉ s.readyq ∧
      ∃ b, s.calls i = some b ∧ (s.cells i).rsp = some b ∧ (b, i) ∈ s.handed := by
  cases h with
  | replied b call rsp continues pc reply pipe ready handed =>
    exact ⟨continues, pc, ready, b, call, rsp, handed⟩
  | idle idle pipe ready => cases pipe _ hm
  | dead pc call continues pipe => cases pipe _ hm
  | starting pc call continues away => exact absurd hm (away.1 _)
  | sent b call continues pc away => exact absurd hm (away.1 _)
  | taking b call continues pc away => exact absurd hm (away.1 _)
  | running b call continues pc away => exact absurd hm (away.1 _)

theorem underWay (h : s.Turn i) (hb : s.calls i = some b) : s.UnderWay b i := by
  have hsame {c : Nat} (hc : s.calls i = some c) : c = b := Option.some.inj (hc.symm.trans hb)
  refine ⟨hb, ?_⟩
  cases h with
  | sent c call continues => exact .inl (by omega)
  | taking c call continues pc => exact .inr (.inl pc)
  | running c call continues pc =>
    obtain rfl := hsame call
    exact .inr (.inr (.inl pc))
  | replied c call rsp continues pc reply => exact .inr (.inr (.inr reply))
  | starting pc call => cases hb.symm.trans call
  | dead pc call => cases hb.symm.trans call
  | idle idle => cases hb.symm.trans idle.1

end Turn

end Turns

section Ledger

variable {calls : Nat → Option Nat} {next i b : Nat} {q refused : List Nat}
  {runs : List (Nat × Nat)} {replies : List (Nat × Nat × Option Nat)}

namespace Ledger

theorem congr {calls' : Nat → Option Nat} (h : Ledger calls next q refused runs replies)
    (hc : calls' = calls) : Ledger calls' next q refused runs replies := hc ▸ h

theorem arrive (h : Ledger calls next q refused runs replies) :
    Ledger calls (next + 1) (q ++ [next]) refused runs replies where
  cell j c hj := by
    have := h.cell j c hj
    grind
  cellOne := h.cellOne
  handedOnce := h.handedOnce
  handed c j hc := by
    have := h.handed c j hc
    grind
  answeredOnce := h.answeredOnce
  answered := h.answered
  queueOnce := by
    have := h.queueOnce
    have := h.queue
    grind
  queue c hc := by
    have := h.queue c
    have := h.rejected c
    grind
  rejected c hc := Nat.lt_succ_of_lt (h.rejected c hc)
  place c hc := by
    obtain hc | rfl := Nat.lt_succ_iff_lt_or_eq.1 hc
    · exact (h.place c hc).imp_right (.imp_left (List.mem_append_left _))
    · exact .inr (.inl (List.mem_append_right _ List.mem_cons_self))

theorem turnAway (h : Ledger calls next q refused runs replies) :
    Ledger calls (next + 1) q (next :: refused) runs replies where
  cell j c hj := by
    have := h.cell j c hj
    grind
  cellOne := h.cellOne
  handedOnce := h.handedOnce
  handed c j hc := by
    have := h.handed c j hc
    grind
  answeredOnce := h.answeredOnce
  answered := h.answered
  queueOnce := h.queueOnce
  queue c hc := by
    have := h.queue c hc
    grind
  rejected c hc := by
    have := h.rejected c
    grind
  place c hc := by
    obtain hc | rfl := Nat.lt_succ_iff_lt_or_eq.1 hc
    · exact (h.place c hc).imp_left (List.mem_cons_of_mem _)
    · exact .inl List.mem_cons_self

theorem timeout (h : Ledger calls next (b :: q) refused runs replies) :
    Ledger calls next q (b :: refused) runs replies where
  cell j c hj := by
    have := h.cell j c hj
    grind
  cellOne := h.cellOne
  handedOnce := h.handedOnce
  handed c j hc := by
    have := h.handed c j hc
    grind
  answeredOnce := h.answeredOnce
  answered := h.answered
  queueOnce := h.queueOnce.of_cons
  queue c hc := by
    have := h.queue c
    have := h.queueOnce
    grind
  rejected c hc := by
    have := h.queue b
    have := h.rejected c
    grind
  place c hc := by
    have := h.place c hc
    grind

theorem send (h : Ledger calls next (b :: q) refused runs replies) (hi : calls i = none) :
    Ledger (update calls i (some b)) next q refused runs replies where
  cell j c hj := by
    have := h.cell j c
    have := h.queue b
    have := h.queueOnce
    have := h.handed b
    have := h.answered b
    grind
  cellOne j k c hj hk := by
    have := h.cellOne j k c
    have := h.cell j c
    have := h.cell k c
    grind
  handedOnce := h.handedOnce
  handed c j hc := by
    have := h.handed c j hc
    grind
  answeredOnce := h.answeredOnce
  answered := h.answered
  queueOnce := h.queueOnce.of_cons
  queue c hc := h.queue c (List.mem_cons_of_mem b hc)
  rejected := h.rejected
  place c hc := by
    obtain hr | hq | ha | ⟨j, hj⟩ := h.place c hc
    · exact .inl hr
    · obtain rfl | hq := List.mem_cons.1 hq
      · exact .inr (.inr (.inr ⟨i, Function.update_self ..⟩))
      · exact .inr (.inl hq)
    · exact .inr (.inr (.inl ha))
    · exact .inr (.inr (.inr ⟨j, by grind⟩))

theorem take (h : Ledger calls next q refused runs replies) (hi : calls i = some b)
    (hfresh : ∀ j, (b, j) ∉ runs) :
    Ledger calls next q refused ((b, i) :: runs) replies where
  cell := h.cell
  cellOne := h.cellOne
  handedOnce := by
    have := h.handedOnce
    grind
  handed c j hc := by
    have := h.handed c j
    have := h.cell i b hi
    grind
  answeredOnce := h.answeredOnce
  answered c j r hc := ⟨(h.answered c j r hc).1, List.mem_cons_of_mem _ (h.answered c j r hc).2⟩
  queueOnce := h.queueOnce
  queue := h.queue
  rejected := h.rejected
  place := h.place

theorem answer (h : Ledger calls next q refused runs replies) (hi : calls i = some b)
    (hhanded : (b, i) ∈ runs) : Ledger (update calls i none) next q refused runs
      ((b, i, some b) :: replies) where
  cell j c hj := by
    have := h.cell j c
    have := h.cellOne i j b
    grind
  cellOne j k c hj hk := by
    have := h.cellOne j k c
    grind
  handedOnce := h.handedOnce
  handed c j hc := by
    have := h.handed c j hc
    grind
  answeredOnce := by
    have := h.answeredOnce
    have := h.cell i b hi
    grind
  answered c j r hc := by
    have := h.answered c j r
    grind
  queueOnce := h.queueOnce
  queue := h.queue
  rejected := h.rejected
  place c hc := by
    obtain hr | hq | ⟨j, r, ha⟩ | ⟨j, hj⟩ := h.place c hc
    · exact .inl hr
    · exact .inr (.inl hq)
    · exact .inr (.inr (.inl ⟨j, r, List.mem_cons_of_mem _ ha⟩))
    · by_cases hji : j = i
      · subst hji
        obtain rfl := Option.some.inj (hi.symm.trans hj)
        exact .inr (.inr (.inl ⟨j, _, List.mem_cons_self⟩))
      · exact .inr (.inr (.inr ⟨j, (Function.update_of_ne hji ..).trans hj⟩))

end Ledger

end Ledger

section Invariant

variable {s t : Mtdispatch} {i b : Nat} {q : List Nat} {late : Nat → Bool} {m : MtdStatus}
  {p : List (Nat × MtdStatus)}

theorem calls_update {c : MtdCell} (hc : c.sbp = s.calls i) :
    MtdCell.sbp ∘ update s.cells i c = s.calls := by
  rw [Function.comp_update, hc]
  exact Function.update_eq_self i _

theorem Inv.send (h : Inv { s with queue := b :: q }) (hs : s.sendSvccb b = some t) :
    Inv { t with queue := q } := by
  unfold sendSvccb at hs
  cases hq : s.readyq with
  | nil =>
    rw [hq] at hs
    cases hs
  | cons i rq =>
    rw [hq] at hs
    cases hs
    obtain ⟨⟨hcall, hstatus, hn, hpc⟩, hpipe⟩ := (h.turn i).of_ready (by simp [hq])
    have hnodup : (i :: rq).Nodup := hq ▸ h.readyNodup
    have hnone : s.calls i = none := hcall
    constructor
    case intact =>
      have hbroken : s.broken = false := h.intact
      have hst : (s.cells i).status = .ready := hstatus
      simp [hbroken, hst]
    case readyNodup => exact hnodup.of_cons
    case pipeNodup => exact h.pipeNodup
    case turn =>
      intro j
      by_cases hj : j = i
      · subst hj
        refine .sent b ?_ ?_ ?_ ⟨hpipe, (List.nodup_cons.1 hnodup).1⟩
          fun k hk => (h.ledger.handed b k hk).2.1 List.mem_cons_self
        · simp [calls]
        · simpa using hn
        · simpa using hpc
      · exact (h.turn j).frame (Function.update_of_ne hj ..) (Function.update_of_ne hj ..)
          (fun _ => .rfl) (by simp [hq, hj]) fun _ _ _ => .rfl
    case ledger =>
      rw [calls, Function.comp_update]
      exact h.ledger.send hnone

theorem Inv.timeout (h : Inv { s with queue := b :: q }) :
    Inv { s with queue := q, rejected := b :: s.rejected } where
  intact := h.intact
  readyNodup := h.readyNodup
  pipeNodup := h.pipeNodup
  turn i := (h.turn i).frame rfl rfl (fun _ => .rfl) .rfl fun _ _ _ => .rfl
  ledger := h.ledger.timeout

theorem Inv.serve (h : Inv { s with queue := q }) :
    Inv (serve late q s) ∧ ((serve late q s).queue ≠ [] → (serve late q s).readyq = []) := by
  induction q generalizing s with
  | nil => exact ⟨h, fun hq => absurd rfl hq⟩
  | cons b q ih =>
    rw [Mtdispatch.serve]
    split
    · next hr => exact ⟨h, fun _ => hr⟩
    · next hr =>
      split
      · exact ih h.timeout
      · cases hs : s.sendSvccb b with
        | none =>
          unfold sendSvccb at hs
          cases hq : s.readyq with
          | nil => exact absurd hq hr
          | cons i rq =>
            rw [hq] at hs
            cases hs
        | some t => exact ih (h.send hs)

theorem Inv.chldReady (h : Inv s) (hidle : s.Idle i) (haway : s.Away i) :
    Inv (s.chldReady late i) ∧
      ((s.chldReady late i).queue ≠ [] → (s.chldReady late i).readyq = []) := by
  apply Inv.serve
  constructor
  case intact => exact h.intact
  case readyNodup =>
    exact List.nodup_append.2 ⟨h.readyNodup, List.nodup_singleton i, by
      rintro j hj _ hk rfl
      exact haway.2 (List.mem_singleton.1 hk ▸ hj)⟩
  case pipeNodup => exact h.pipeNodup
  case turn =>
    intro j
    by_cases hj : j = i
    · subst hj
      exact .idle hidle (fun m hm => absurd hm (haway.1 m)) fun _ => haway.1
    · exact (h.turn j).frame rfl rfl (fun _ => .rfl) (by simp [hj]) fun _ _ _ => .rfl
  case ledger => exact h.ledger

/-- The thread whose message is read has no other. -/
theorem Inv.alone (h : Inv s) (hp : s.pipe = (i, m) :: p) (m' : MtdStatus) : (i, m') ∉ p := by
  have hnodup := h.pipeNodup
  rw [hp, List.map_cons, List.nodup_cons] at hnodup
  exact fun hm => hnodup.1 (List.mem_map.2 ⟨_, hm, rfl⟩)

theorem Inv.readPipe (h : Inv s) (hp : s.pipe = (i, m) :: p) : (p.map Prod.fst).Nodup := by
  have hnodup := h.pipeNodup
  rw [hp] at hnodup
  exact hnodup.of_cons

theorem Inv.read (h : Inv s) (hp : s.pipe = (i, m) :: p) (hm : m ≠ .reply) :
    Inv { s with pipe := p } where
  intact := h.intact
  readyNodup := h.readyNodup
  pipeNodup := h.readPipe hp
  turn j := by
    have hmem (m' : MtdStatus) (hm' : (j, m') ∈ p) : (j, m') ∈ s.pipe := by
      rw [hp]
      exact List.mem_cons_of_mem _ hm'
    have hread : (i, m) ∈ s.pipe := by
      rw [hp]
      exact List.mem_cons_self
    by_cases hj : j = i
    · subst hj
      cases h.turn j with
      | idle idle => exact .idle idle (fun m' hm' => absurd hm' (h.alone hp m')) fun _ => h.alone hp
      | dead pc call continues pipe ready =>
        exact .dead pc call continues (fun m' hm' => pipe m' (hmem m' hm')) ready
      | replied b call rsp continues pc reply pipe => exact absurd (pipe m hread) hm
      | starting pc call continues away => exact absurd hread (away.1 m)
      | sent b call continues pc away => exact absurd hread (away.1 m)
      | taking b call continues pc away => exact absurd hread (away.1 m)
      | running b call continues pc away => exact absurd hread (away.1 m)
    · exact (h.turn j).frame rfl rfl (fun m' => by simp [hp, hj]) .rfl fun _ _ _ => .rfl
  ledger := h.ledger

theorem Inv.answer (h : Inv s) (hp : s.pipe = (i, .reply) :: p) (hb : s.calls i = some b) :
    Inv { s with
      pipe := p
      answered := (b, i, (s.cells i).rsp) :: s.answered
      cells := update s.cells i { status := .ready } } := by
  obtain ⟨hn, hpc, -, b', hcall, hrsp, hhanded⟩ :=
    (h.turn i).of_msg_reply (by rw [hp]; exact List.mem_cons_self)
  obtain rfl := Option.some.inj (hb.symm.trans hcall)
  constructor
  case intact => exact h.intact
  case readyNodup => exact h.readyNodup
  case pipeNodup => exact h.readPipe hp
  case turn =>
    intro j
    by_cases hj : j = i
    · subst hj
      refine .idle ?_ (fun m' hm' => absurd hm' (h.alone hp m')) fun _ => h.alone hp
      simp [Idle, hn, hpc]
    · exact (h.turn j).frame (Function.update_of_ne hj ..) rfl (fun m' => by simp [hp, hj]) .rfl
        fun _ _ _ => .rfl
  case ledger =>
    rw [calls, Function.comp_update, hrsp]
    exact h.ledger.answer hb hhanded

theorem Inv.becomeReady (h : Inv s) (hpc : (s.threads i).pc = .starting) :
    Inv { s.setPc i .announced with
      cells := update s.cells i { s.cells i with status := .ready }
      pipe := s.pipe ++ [(i, .ready)] } := by
  obtain ⟨hcall, hn, hpipe, hready⟩ := (h.turn i).of_starting hpc
  have hsbp : (s.cells i).sbp = none := hcall
  constructor
  case intact => exact h.intact
  case readyNodup => exact h.readyNodup
  case pipeNodup =>
    have := h.pipeNodup
    grind
  case turn =>
    intro j
    by_cases hj : j = i
    · subst hj
      refine .idle ?_ (fun m hm => ?_) fun hr => absurd hr hready
      · simp [Idle, setPc, hn, hsbp]
      · obtain hm | hm := List.mem_append.1 hm
        · exact absurd hm (hpipe m)
        · cases List.mem_singleton.1 hm
          rfl
    · exact (h.turn j).frame (Function.update_of_ne hj ..) (Function.update_of_ne hj ..)
        (fun m => by simp [hj]) .rfl fun _ _ _ => .rfl
  case ledger => exact h.ledger.congr (calls_update rfl)

theorem Inv.fail (h : Inv s) (hpc : (s.threads i).pc = .starting) :
    Inv { s.setPc i .dead with pipe := s.pipe ++ [(i, .shutdown)] } := by
  obtain ⟨hcall, hn, hpipe, hready⟩ := (h.turn i).of_starting hpc
  constructor
  case intact => exact h.intact
  case readyNodup => exact h.readyNodup
  case pipeNodup =>
    have := h.pipeNodup
    grind
  case turn =>
    intro j
    by_cases hj : j = i
    · subst hj
      refine .dead ?_ hcall ?_ (fun m hm => ?_) hready
      · simp [setPc]
      · simpa [setPc] using hn
      · obtain hm | hm := List.mem_append.1 hm
        · exact absurd hm (hpipe m)
        · cases List.mem_singleton.1 hm
          rfl
    · exact (h.turn j).frame rfl (Function.update_of_ne hj ..) (fun m => by simp [hj]) .rfl
        fun _ _ _ => .rfl
  case ledger => exact h.ledger

theorem Inv.takeNone (h : Inv s) (hpc : (s.threads i).pc = .announced ∨ (s.threads i).pc = .taking)
    (hcall : s.calls i = none) : Inv (s.setPc i .reading) where
  intact := h.intact
  readyNodup := h.readyNodup
  pipeNodup := h.pipeNodup
  turn j := by
    by_cases hj : j = i
    · subst hj
      obtain ⟨⟨hsbp, hstatus, hn, -⟩, hpipe, hready⟩ := (h.turn j).of_none hpc hcall
      refine .idle ⟨hsbp, hstatus, ?_, .inr ?_⟩ hpipe hready
      · simpa [setPc] using hn
      · simp [setPc]
    · exact (h.turn j).frame rfl (Function.update_of_ne hj ..) (fun _ => .rfl) .rfl
        fun _ _ _ => .rfl
  ledger := h.ledger

theorem Inv.takeSome (h : Inv s) (hpc : (s.threads i).pc = .taking) (hcall : s.calls i = some b) :
    Inv { s.setPc i (.running b) with handed := (b, i) :: s.handed } := by
  obtain ⟨hn, haway, b', hcall', hfresh⟩ := (h.turn i).of_taking hpc
  obtain rfl := Option.some.inj (hcall.symm.trans hcall')
  constructor
  case intact => exact h.intact
  case readyNodup => exact h.readyNodup
  case pipeNodup => exact h.pipeNodup
  case turn =>
    intro j
    by_cases hj : j = i
    · subst hj
      refine .running b hcall ?_ ?_ haway List.mem_cons_self
      · simpa [setPc] using hn
      · simp [setPc]
    · refine (h.turn j).frame rfl (Function.update_of_ne hj ..) (fun _ => .rfl) .rfl
        fun c hc k => ?_
      have hne : c ≠ b := by
        rintro rfl
        exact hj (h.ledger.cellOne j i c hc hcall)
      simp [hne]
  case ledger => exact h.ledger.take hcall hfresh

theorem Inv.reply (h : Inv s) (hpc : (s.threads i).pc = .running b) :
    Inv { s.setPc i .reading with
      cells := update s.cells i { s.cells i with status := .reply, rsp := some b }
      pipe := s.pipe ++ [(i, .reply)] } := by
  obtain ⟨hn, ⟨hpipe, hready⟩, hcall, hhanded⟩ := (h.turn i).of_running hpc
  have hsbp : (s.cells i).sbp = some b := hcall
  constructor
  case intact => exact h.intact
  case readyNodup => exact h.readyNodup
  case pipeNodup =>
    have := h.pipeNodup
    grind
  case turn =>
    intro j
    by_cases hj : j = i
    · subst hj
      refine .replied b ?_ ?_ ?_ ?_ (List.mem_append_right _ List.mem_cons_self) (fun m hm => ?_)
        hready hhanded
      · simp [calls, hsbp]
      · simp
      · simpa [setPc] using hn
      · simp [setPc]
      · obtain hm | hm := List.mem_append.1 hm
        · exact absurd hm (hpipe m)
        · cases List.mem_singleton.1 hm
          rfl
    · exact (h.turn j).frame (Function.update_of_ne hj ..) (Function.update_of_ne hj ..)
        (fun m => by simp [hj]) .rfl fun _ _ _ => .rfl
  case ledger => exact h.ledger.congr (calls_update rfl)

theorem Inv.msgRecv (h : Inv s) (hn : (s.threads i).continues ≠ 0) :
    Inv { s with threads := update s.threads i ⟨.taking, (s.threads i).continues - 1⟩ } where
  intact := h.intact
  readyNodup := h.readyNodup
  pipeNodup := h.pipeNodup
  turn j := by
    by_cases hj : j = i
    · subst hj
      obtain ⟨hone, haway, b, hcall, hfresh⟩ := (h.turn j).of_continues hn
      exact .taking b hcall (by simp [hone]) (by simp) haway hfresh
    · exact (h.turn j).frame rfl (Function.update_of_ne hj ..) (fun _ => .rfl) .rfl
        fun _ _ _ => .rfl
  ledger := h.ledger

theorem Inv.arrive (h : Inv s) :
    Inv { s with next := s.next + 1, queue := s.queue ++ [s.next] } where
  intact := h.intact
  readyNodup := h.readyNodup
  pipeNodup := h.pipeNodup
  turn i := (h.turn i).frame rfl rfl (fun _ => .rfl) .rfl fun _ _ _ => .rfl
  ledger := h.ledger.arrive

theorem Inv.turnAway (h : Inv s) :
    Inv { s with next := s.next + 1, rejected := s.next :: s.rejected } where
  intact := h.intact
  readyNodup := h.readyNodup
  pipeNodup := h.pipeNodup
  turn i := (h.turn i).frame rfl rfl (fun _ => .rfl) .rfl fun _ _ _ => .rfl
  ledger := h.ledger.turnAway

def Good (s : Mtdispatch) : Prop := s.Inv ∧ (s.queue ≠ [] → s.readyq = [])

theorem Good.dispatch (h : s.Good) (hs : s.step .dispatch = some t) : t.Good := by
  obtain ⟨hinv, hserved⟩ := h
  rw [step] at hs
  dsimp only at hs
  split at hs
  · cases hs
    exact ⟨hinv.turnAway, hserved⟩
  · split at hs
    · next hq =>
      cases hs
      exact ⟨hinv.arrive, fun _ => hserved hq⟩
    · next hq =>
      have hq : s.queue = [] := by simpa using hq
      cases hsend : Mtdispatch.sendSvccb { s with next := s.next + 1 } s.next with
      | none =>
        rw [hsend] at hs
        cases hs
        refine ⟨hinv.arrive, fun _ => ?_⟩
        unfold sendSvccb at hsend
        cases hr : s.readyq with
        | nil => rfl
        | cons i rq =>
          rw [show ({ s with next := s.next + 1 } : Mtdispatch).readyq = i :: rq from hr] at hsend
          cases hsend
      | some u =>
        rw [hsend] at hs
        cases hs
        have harrive := hinv.arrive
        rw [hq, List.nil_append] at harrive
        have hinv' : Inv { t with queue := [] } :=
          Inv.send (s := { s with next := s.next + 1 }) harrive hsend
        have htq : t.queue = [] := by
          unfold sendSvccb at hsend
          split at hsend
          · cases hsend
          · cases hsend
            exact hq
        rw [← htq] at hinv'
        exact ⟨hinv', fun hne => absurd htq hne⟩

theorem Good.chldMsg (h : s.Good) (hs : s.step (.chldMsg late) = some t) : t.Good := by
  obtain ⟨hinv, hserved⟩ := h
  rw [step] at hs
  cases hp : s.pipe with
  | nil =>
    rw [hp] at hs
    cases hs
  | cons x p =>
    obtain ⟨i, m⟩ := x
    rw [hp] at hs
    dsimp only at hs
    have hread : (i, m) ∈ s.pipe := by
      rw [hp]
      exact List.mem_cons_self
    cases m with
    | ready =>
      cases hs
      obtain ⟨hidle, hready⟩ := (hinv.turn i).of_msg_ready hread
      exact (hinv.read hp (by decide)).chldReady hidle ⟨hinv.alone hp, hready⟩
    | reply =>
      cases hs
      obtain ⟨hn, hpc, hready, b, hcall, -, -⟩ := (hinv.turn i).of_msg_reply hread
      have hsbp : (s.cells i).sbp = some b := hcall
      rw [chldReply]
      dsimp only
      rw [hsbp]
      exact (hinv.answer hp hcall).chldReady (by simp [Idle, hn, hpc]) ⟨hinv.alone hp, hready⟩
    | startup =>
      cases hs
      exact ⟨hinv.read hp (by decide), hserved⟩
    | working =>
      cases hs
      exact ⟨hinv.read hp (by decide), hserved⟩
    | shutdown =>
      cases hs
      exact ⟨hinv.read hp (by decide), hserved⟩

theorem Good.takeSvccb (h : s.Good) (hcalm : s.Calm (.takeSvccb i))
    (hs : s.step (.takeSvccb i) = some t) : t.Good := by
  obtain ⟨hinv, hserved⟩ := h
  rw [step] at hs
  split at hs
  · next hpc =>
    cases hsbp : (s.cells i).sbp with
    | none =>
      rw [hsbp] at hs
      cases hs
      exact ⟨hinv.takeNone hpc hsbp, hserved⟩
    | some b =>
      rw [hsbp] at hs
      cases hs
      obtain hpc | hpc := hpc
      · have hnone := hcalm hpc
        rw [hsbp] at hnone
        cases hnone
      · exact ⟨hinv.takeSome hpc hsbp, hserved⟩
  · cases hs

theorem Good.step {e : Event} (h : s.Good) (hcalm : s.Calm e) (hs : s.step e = some t) :
    t.Good := by
  cases e with
  | dispatch => exact h.dispatch hs
  | chldMsg late => exact h.chldMsg hs
  | takeSvccb i => exact h.takeSvccb hcalm hs
  | becomeReady i =>
    rw [Mtdispatch.step] at hs
    split at hs
    · next hi =>
      cases hs
      exact ⟨h.1.becomeReady hi.2, h.2⟩
    · cases hs
  | fail i =>
    rw [Mtdispatch.step] at hs
    split at hs
    · next hi =>
      cases hs
      exact ⟨h.1.fail hi.2, h.2⟩
    · cases hs
  | reply i =>
    rw [Mtdispatch.step] at hs
    split at hs
    · next hpc =>
      cases hs
      exact ⟨h.1.reply hpc, h.2⟩
    · cases hs
  | msgRecv i =>
    rw [Mtdispatch.step] at hs
    split at hs
    · next hi =>
      cases hs
      exact ⟨h.1.msgRecv hi.2, h.2⟩
    · cases hs

theorem good_init (num maxq : Nat) : Good { num := num, maxq := maxq } := by
  refine ⟨⟨rfl, .nil, .nil, fun i => ?_, ?_⟩, nofun⟩
  · exact .starting rfl rfl rfl ⟨fun _ => List.not_mem_nil, List.not_mem_nil⟩
  · constructor
    all_goals first | exact .nil | nofun

theorem Inv.sound (h : s.Inv) (hserved : s.queue ≠ [] → s.readyq = []) : s.Sound where
  once := h.ledger.handedOnce
  answeredOnce := h.ledger.answeredOnce
  own := h.ledger.answered
  unanswered b i r j hb hpc :=
    (h.ledger.cell j b ((h.turn j).of_running hpc).2.2.1).2.2.2 i r hb
  rejected b hb := by
    have hhanded (i : Nat) : (b, i) ∉ s.handed := fun hi => (h.ledger.handed b i hi).2.2.1 hb
    refine ⟨fun hmem => ?_, fun hmem => ?_⟩
    · obtain ⟨⟨_, i⟩, hi, rfl⟩ := List.mem_map.mp hmem
      exact hhanded i hi
    · obtain ⟨⟨_, i, r⟩, hi, rfl⟩ := List.mem_map.mp hmem
      exact hhanded i (h.ledger.answered _ i r hi).2
  kept b hb := by
    obtain hr | hq | ⟨i, r, ha⟩ | ⟨i, hi⟩ := h.ledger.place b hb
    · exact .inl hr
    · exact .inr (.inl hq)
    · exact .inr (.inr (.inl (List.mem_map.mpr ⟨_, ha, rfl⟩)))
    · exact .inr (.inr (.inr ⟨i, (h.turn i).underWay hi⟩))
  served := hserved
  intact := h.intact

theorem exactly_once (h : system.Reach Calm s) : s.Sound := by
  have hgood : s.Good := by
    refine h.invariant (I := Good) ?_ fun s e t _ hi hc hs => hi.step hc hs
    rintro s ⟨num, maxq, rfl⟩
    exact good_init num maxq
  exact hgood.1.sound hgood.2

end Invariant

section Runs

def oneCall : Mtdispatch := (system.exec { num := 1, maxq := 1000 } [.becomeReady 0, .takeSvccb 0,
  .chldMsg fun _ => false, .dispatch, .msgRecv 0, .takeSvccb 0, .reply 0,
  .chldMsg fun _ => false]).getD { num := 1, maxq := 1000 }

theorem exactly_once_one : oneCall.answered = [(0, 0, some 0)] ∧ oneCall.Sound := by
  have h₀ : system.Reach Calm { num := 1, maxq := 1000 } := .init ⟨1, 1000, rfl⟩
  have h₁ := h₀.step (e := Event.becomeReady 0) trivial rfl
  have h₂ := h₁.step (e := Event.takeSvccb 0) (fun _ => rfl) rfl
  have h₃ := h₂.step (e := Event.chldMsg fun _ => false) trivial rfl
  have h₄ := h₃.step (e := Event.dispatch) trivial rfl
  have h₅ := h₄.step (e := Event.msgRecv 0) trivial rfl
  have h₆ := h₅.step (e := Event.takeSvccb 0) nofun rfl
  have h₇ := h₆.step (e := Event.reply 0) trivial rfl
  have h₈ := h₇.step (e := Event.chldMsg fun _ => false) trivial rfl
  exact ⟨rfl, exactly_once h₈⟩

/-- The dispatcher hears that the thread is ready and hands it a call before the thread has looked
at its cell: the thread runs the call at once, and again for the message. -/
theorem handed_twice : ¬ ∀ s, system.Reachable s → s.Sound := by
  intro h
  have honce := (h _ (Lib.System.reachable_exec (M := system) [.becomeReady 0,
    .chldMsg fun _ => false, .dispatch, .takeSvccb 0, .reply 0, .msgRecv 0, .takeSvccb 0]
    ⟨1, 1000, rfl⟩ rfl)).once
  exact absurd honce (by decide)

end Runs

end Mtdispatch

end Okws
