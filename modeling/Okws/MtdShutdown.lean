import Okws.Mtdispatch

/-! The queue of `mtdispatch_t`, and its end: `shutdown` exits when nobody seems to have anything to
do. -/

namespace Okws

/-- The dispatcher with `sdflag`.  `left` tells which calls have left the queue, in the order in
which they did, and `exited` that `exit` was called. -/
structure MtdServer where
  disp : Mtdispatch
  sdflag : Bool := false
  exited : Bool := false
  left : List Nat := []

namespace Mtdispatch

/-- The calls that the loop of `chld_ready` takes out of the queue. -/
def popped (late : Nat → Bool) : List Nat → Mtdispatch → List Nat
  | [], _ => []
  | b :: q, s =>
    if s.readyq = [] then []
    else if late b then b :: popped late q { s with rejected := b :: s.rejected }
    else match s.sendSvccb b with
      | none => []
      | some t => b :: popped late q t

def Finished (s : Mtdispatch) : Prop :=
  s.queue = [] ∧ ∀ i < s.num, (s.cells i).status ≠ .working

instance (s : Mtdispatch) : Decidable s.Finished := inferInstanceAs (Decidable (_ ∧ ∀ i < _, _))

end Mtdispatch

namespace MtdServer

open Function (update)

def mtdMaxq : Nat := 1000

inductive Event
  | disp (e : Mtdispatch.Event)
  | setMaxQ (q : Nat)
  | shutdown

variable (s : MtdServer)

def shutdown : MtdServer := { s with sdflag := true, exited := s.exited || s.disp.Finished }

/-- The switch in `chld_msg`, for a message that is heard also during the shutdown. -/
def chldMsg (serve : Mtdispatch → Mtdispatch) (popped : Mtdispatch → List Nat) : MtdServer :=
  let s := if s.sdflag then s.shutdown else s
  if s.exited then s else { s with disp := serve s.disp, left := s.left ++ popped s.disp }

/-- What `chld_ready` takes out of the queue. -/
def readyLeft (late : Nat → Bool) (i : Nat) (d : Mtdispatch) : List Nat :=
  Mtdispatch.popped late d.queue { d with readyq := d.readyq ++ [i] }

/-- What `chld_reply` takes out of it. -/
def replyLeft (late : Nat → Bool) (i : Nat) (d : Mtdispatch) : List Nat :=
  match (d.cells i).sbp with
  | none => []
  | some b => readyLeft late i { d with
      answered := (b, i, (d.cells i).rsp) :: d.answered
      cells := update d.cells i { status := .ready } }

def step (s : MtdServer) (e : Event) : Option MtdServer :=
  if s.exited then none else match e with
  | .shutdown => some s.shutdown
  | .setMaxQ q => some { s with disp := { s.disp with maxq := min q mtdMaxq } }
  | .disp .dispatch =>
    if s.sdflag then some { s with disp := { s.disp with
      next := s.disp.next + 1, rejected := s.disp.next :: s.disp.rejected } }
    else (s.disp.step .dispatch).map fun d => { s with disp := d }
  | .disp (.chldMsg late) => match s.disp.pipe with
    | [] => none
    | (i, m) :: p =>
      let s := { s with disp := { s.disp with pipe := p } }
      match m with
      | .ready => some (s.chldMsg (·.chldReady late i) (readyLeft late i))
      | .reply => some (s.chldMsg (·.chldReply late i) (replyLeft late i))
      | _ => some s
  | .disp e => (s.disp.step e).map fun d => { s with disp := d }

def system : Lib.System MtdServer Event where
  init s := ∃ num maxq, s = { disp := { num := num, maxq := maxq } }
  step := step

/-- The queue: nobody waits while a thread is ready, it is not too long, and it is left in the order
of arrival. -/
structure Orderly : Prop where
  served : s.disp.queue ≠ [] → s.disp.readyq = []
  bounded : s.disp.queue.length ≤ s.disp.maxq
  order : (s.left ++ s.disp.queue).Pairwise (· < ·)
  arrived : ∀ b ∈ s.left ++ s.disp.queue, b < s.disp.next

/-- At the end, every call was answered or turned away. -/
def Drained : Prop :=
  s.exited = true → ∀ b < s.disp.next,
    b ∈ s.disp.rejected ∨ b ∈ s.disp.answered.map Prod.fst

def Roomy : Event → Prop
  | .setMaxQ q => s.disp.queue.length ≤ min q mtdMaxq
  | _ => True

def Tests : Event → Prop
  | .shutdown => True
  | .disp (.chldMsg _) => s.sdflag = true ∧ ∃ i, (i, .ready) ∈ s.disp.pipe.head? ∨
      (i, .reply) ∈ s.disp.pipe.head?
  | _ => False

/-- In addition to what the threads have to keep to, no reply is in the pipe when all seems to be
done. -/
def Calm (s : MtdServer) (e : Event) : Prop :=
  (∀ e', e = .disp e' → s.disp.Calm e') ∧
    (s.Tests e → s.disp.Finished → ∀ i, (i, .reply) ∉ s.disp.pipe)

/-- The calls that a step of the dispatcher takes out of the queue. -/
def leftBy (d : Mtdispatch) : Mtdispatch.Event → List Nat
  | .chldMsg late => match d.pipe with
    | (i, .ready) :: p => readyLeft late i { d with pipe := p }
    | (i, .reply) :: p => replyLeft late i { d with pipe := p }
    | _ => []
  | _ => []

section Steps

variable {s t : MtdServer} {d d' : Mtdispatch} {e : Event} {late : Nat → Bool} {i b : Nat}
  {q : List Nat}

theorem chldMsg_cases (hx : s.exited = false) (serve : Mtdispatch → Mtdispatch)
    (popped : Mtdispatch → List Nat) :
    s.chldMsg serve popped = { s with disp := serve s.disp, left := s.left ++ popped s.disp } ∨
    (s.sdflag = true ∧ s.disp.Finished ∧ s.chldMsg serve popped = { s with exited := true }) := by
  obtain ⟨disp, sdflag, exited, left⟩ := s
  subst hx
  cases sdflag with
  | false => exact .inl rfl
  | true =>
    by_cases hf : disp.Finished
    · exact .inr ⟨rfl, hf, by simp [chldMsg, shutdown, hf]⟩
    · exact .inl (by simp [chldMsg, shutdown, hf])

theorem step_cases (h : s.step e = some t) : s.exited = false ∧
    ((e = .shutdown ∧ t = s.shutdown) ∨
      (∃ q, e = .setMaxQ q ∧ t = { s with disp := { s.disp with maxq := min q mtdMaxq } }) ∨
      (e = .disp .dispatch ∧ t = { s with disp := { s.disp with
        next := s.disp.next + 1, rejected := s.disp.next :: s.disp.rejected } }) ∨
      (∃ e' d, e = .disp e' ∧ s.disp.step e' = some d ∧
        t = { s with disp := d, left := s.left ++ leftBy s.disp e' }) ∨
      (s.Tests e ∧ s.disp.Finished ∧
        t = { s with disp := { s.disp with pipe := s.disp.pipe.tail }, exited := true })) := by
  unfold step at h
  split at h
  · cases h
  next hx =>
  have hx : s.exited = false := by simpa using hx
  refine ⟨hx, ?_⟩
  have hplain {e' : Mtdispatch.Event} (hl : leftBy s.disp e' = [])
      (ht : (s.disp.step e').map (fun d => { s with disp := d }) = some t) :
      ∃ e'' d, Event.disp e' = .disp e'' ∧ s.disp.step e'' = some d ∧
        t = { s with disp := d, left := s.left ++ leftBy s.disp e'' } := by
    obtain ⟨d, hd, rfl⟩ := Option.map_eq_some_iff.1 ht
    exact ⟨e', d, rfl, hd, by rw [hl, List.append_nil]⟩
  cases e with
  | shutdown =>
    cases h
    exact .inl ⟨rfl, rfl⟩
  | setMaxQ q =>
    cases h
    exact .inr (.inl ⟨q, rfl, rfl⟩)
  | disp e =>
    cases e with
    | dispatch =>
      dsimp only at h
      split at h
      · cases h
        exact .inr (.inr (.inl ⟨rfl, rfl⟩))
      · exact .inr (.inr (.inr (.inl (hplain rfl h))))
    | chldMsg late =>
      dsimp only at h
      obtain hp | ⟨⟨i, m⟩, p, hp⟩ : s.disp.pipe = [] ∨ ∃ x p, s.disp.pipe = x :: p := by
        cases s.disp.pipe <;> simp
      · rw [hp] at h
        cases h
      · rw [hp] at h
        have hleft {u : MtdServer} {l : List Nat} {d : Mtdispatch}
            (hu : u = { s with disp := d, left := s.left ++ l })
            (hl : leftBy s.disp (.chldMsg late) = l)
            (hd : s.disp.step (.chldMsg late) = some d) :
            ∃ e'' d, Event.disp (.chldMsg late) = .disp e'' ∧ s.disp.step e'' = some d ∧
              u = { s with disp := d, left := s.left ++ leftBy s.disp e'' } :=
          ⟨_, d, rfl, hd, hl ▸ hu⟩
        have hexit {u : MtdServer} {m : MtdStatus} (hm : m = .ready ∨ m = .reply)
            (hp : s.disp.pipe = (i, m) :: p) (hs : s.sdflag = true)
            (hf : Mtdispatch.Finished { s.disp with pipe := p })
            (hu : u = { s with disp := { s.disp with pipe := p }, exited := true }) :
            s.Tests (.disp (.chldMsg late)) ∧ s.disp.Finished ∧
              u = { s with disp := { s.disp with pipe := s.disp.pipe.tail }, exited := true } := by
          refine ⟨⟨hs, i, ?_⟩, hf, by rw [hp]; exact hu⟩
          rw [hp]
          obtain rfl | rfl := hm
          · exact .inl rfl
          · exact .inr rfl
        cases m with
        | ready =>
          cases h
          obtain he | ⟨hs, hf, he⟩ := chldMsg_cases
            (s := { s with disp := { s.disp with pipe := p } }) hx (·.chldReady late i)
            (readyLeft late i)
          · exact .inr (.inr (.inr (.inl (hleft he (by simp [leftBy, hp])
              (by simp [Mtdispatch.step, hp])))))
          · exact .inr (.inr (.inr (.inr (hexit (.inl rfl) hp hs hf he))))
        | reply =>
          cases h
          obtain he | ⟨hs, hf, he⟩ := chldMsg_cases
            (s := { s with disp := { s.disp with pipe := p } }) hx (·.chldReply late i)
            (replyLeft late i)
          · exact .inr (.inr (.inr (.inl (hleft he (by simp [leftBy, hp])
              (by simp [Mtdispatch.step, hp])))))
          · exact .inr (.inr (.inr (.inr (hexit (.inr rfl) hp hs hf he))))
        | startup | working | shutdown =>
          cases h
          exact .inr (.inr (.inr (.inl (hleft (l := []) (d := { s.disp with pipe := p })
            (by simp) (by simp [leftBy, hp]) (by simp [Mtdispatch.step, hp])))))
    | becomeReady i | fail i | takeSvccb i | reply i | msgRecv i =>
      exact .inr (.inr (.inr (.inl (hplain rfl h))))

structure Same (d d' : Mtdispatch) : Prop where
  num : d'.num = d.num
  maxq : d'.maxq = d.maxq
  next : d'.next = d.next

theorem send_same (hs : d.sendSvccb b = some d') : Same d d' := by
  unfold Mtdispatch.sendSvccb at hs
  split at hs
  · cases hs
  · cases hs
    exact ⟨rfl, rfl, rfl⟩

theorem send_queue (hs : d.sendSvccb b = some d') : d'.queue = d.queue := by
  unfold Mtdispatch.sendSvccb at hs
  split at hs
  · cases hs
  · cases hs
    rfl

theorem send_isSome (hr : d.readyq ≠ []) : ∃ d', d.sendSvccb b = some d' := by
  obtain ⟨i, q, hq⟩ := List.exists_cons_of_ne_nil hr
  exact ⟨_, by rw [Mtdispatch.sendSvccb, hq]⟩

/-- The loop of `chld_ready` takes calls from the front of the queue, until there are none or no
thread is ready. -/
theorem serve_popped (late : Nat → Bool) (q : List Nat) (d : Mtdispatch) :
    Mtdispatch.popped late q d ++ (Mtdispatch.serve late q d).queue = q ∧
      Same d (Mtdispatch.serve late q d) ∧ ((Mtdispatch.serve late q d).queue ≠ [] →
        (Mtdispatch.serve late q d).readyq = []) := by
  induction q generalizing d with
  | nil => exact ⟨rfl, ⟨rfl, rfl, rfl⟩, fun h => absurd rfl h⟩
  | cons b q ih =>
    unfold Mtdispatch.popped Mtdispatch.serve
    split
    · next hr => exact ⟨rfl, ⟨rfl, rfl, rfl⟩, fun _ => hr⟩
    · next hr =>
      split
      · obtain ⟨hq, hsame, hserved⟩ := ih { d with rejected := b :: d.rejected }
        exact ⟨congrArg (b :: ·) hq, ⟨hsame.num, hsame.maxq, hsame.next⟩, hserved⟩
      · obtain ⟨u, hu⟩ := send_isSome (b := b) hr
        obtain ⟨hq, hsame, hserved⟩ := ih u
        have hsend := send_same hu
        simp only [hu]
        exact ⟨congrArg (b :: ·) hq, ⟨hsame.num.trans hsend.num, hsame.maxq.trans hsend.maxq,
          hsame.next.trans hsend.next⟩, hserved⟩

/-- The queue behind a step: some calls have left it at its front, or one has come to its end. -/
structure QueueStep (d : Mtdispatch) (gone : List Nat) (d' : Mtdispatch) : Prop where
  num : d'.num = d.num
  maxq : d'.maxq = d.maxq
  served : d'.queue ≠ [] → d'.readyq = []
  moved : (gone ++ d'.queue = d.queue ∧ d.next ≤ d'.next) ∨
    (gone = [] ∧ d'.queue = d.queue ++ [d.next] ∧ d'.next = d.next + 1 ∧ d.queue.length < d.maxq)

theorem ready_step (late : Nat → Bool) (i : Nat) (d : Mtdispatch) :
    QueueStep d (readyLeft late i d) (d.chldReady late i) := by
  obtain ⟨hpop, hsame, hs⟩ := serve_popped late d.queue { d with readyq := d.readyq ++ [i] }
  exact ⟨hsame.num, hsame.maxq, hs, .inl ⟨hpop, Nat.le_of_eq hsame.next.symm⟩⟩

theorem queue_step {e : Mtdispatch.Event} (hs : d.step e = some d')
    (hserved : d.queue ≠ [] → d.readyq = []) : QueueStep d (leftBy d e) d' := by
  cases e with
  | dispatch =>
    rw [Mtdispatch.step] at hs
    dsimp only at hs
    split at hs
    · cases hs
      exact ⟨rfl, rfl, hserved, .inl ⟨rfl, Nat.le_succ _⟩⟩
    · next hlt =>
      split at hs
      · next hq =>
        cases hs
        exact ⟨rfl, rfl, fun _ => hserved hq, .inr ⟨rfl, rfl, rfl, Nat.lt_of_not_le hlt⟩⟩
      · next hq =>
        have hq : d.queue = [] := by simpa using hq
        split at hs
        · next hnone =>
          cases hs
          refine ⟨rfl, rfl, fun _ => ?_, .inr ⟨rfl, rfl, rfl, Nat.lt_of_not_le hlt⟩⟩
          by_contra hr
          obtain ⟨u, hu⟩ := send_isSome (d := { d with next := d.next + 1 }) (b := d.next) hr
          rw [hnone] at hu
          cases hu
        · next u hu =>
          cases hs
          have hsame := send_same hu
          have hqueue := send_queue hu
          refine ⟨hsame.num, hsame.maxq, fun hne => absurd (hqueue.trans hq) hne, .inl ⟨hqueue, ?_⟩⟩
          rw [hsame.next]
          exact Nat.le_succ _
  | chldMsg late =>
    rw [Mtdispatch.step] at hs
    cases hp : d.pipe with
    | nil =>
      rw [hp] at hs
      cases hs
    | cons x p =>
      obtain ⟨i, m⟩ := x
      rw [hp] at hs
      cases m with
      | ready =>
        cases hs
        have h := ready_step late i { d with pipe := p }
        have hl : leftBy d (.chldMsg late) = readyLeft late i { d with pipe := p } := by
          simp [leftBy, hp]
        exact ⟨h.num, h.maxq, h.served, hl ▸ h.moved⟩
      | reply =>
        have hl : leftBy d (.chldMsg late) = replyLeft late i { d with pipe := p } := by
          simp [leftBy, hp]
        cases hs
        cases hsbp : (d.cells i).sbp with
        | none =>
          have hnone : replyLeft late i { d with pipe := p } = [] := by simp [replyLeft, hsbp]
          have he : Mtdispatch.chldReply { d with pipe := p } late i =
              { d with pipe := p, broken := true } := by simp [Mtdispatch.chldReply, hsbp]
          rw [he, hl, hnone]
          exact ⟨rfl, rfl, hserved, .inl ⟨rfl, Nat.le_refl _⟩⟩
        | some b =>
          have h := ready_step late i { d with
            pipe := p, answered := (b, i, (d.cells i).rsp) :: d.answered
            cells := update d.cells i { status := .ready } }
          rw [hl]
          simp only [replyLeft, Mtdispatch.chldReply, hsbp]
          exact ⟨h.num, h.maxq, h.served, h.moved⟩
      | startup | working | shutdown =>
        have hl : leftBy d (.chldMsg late) = [] := by simp [leftBy, hp]
        cases hs
        rw [hl]
        exact ⟨rfl, rfl, hserved, .inl ⟨rfl, Nat.le_refl _⟩⟩
  | becomeReady i | fail i | msgRecv i =>
    rw [Mtdispatch.step] at hs
    split at hs
    · cases hs
      exact ⟨rfl, rfl, hserved, .inl ⟨rfl, Nat.le_refl _⟩⟩
    · cases hs
  | takeSvccb i =>
    rw [Mtdispatch.step] at hs
    split at hs
    · split at hs <;> cases hs <;> exact ⟨rfl, rfl, hserved, .inl ⟨rfl, Nat.le_refl _⟩⟩
    · cases hs
  | reply i =>
    rw [Mtdispatch.step] at hs
    split at hs
    · cases hs
      exact ⟨rfl, rfl, hserved, .inl ⟨rfl, Nat.le_refl _⟩⟩
    · cases hs

theorem Orderly.goes (h : s.Orderly) {gone : List Nat} (hq : QueueStep s.disp gone d) :
    ({ s with disp := d, left := s.left ++ gone } : MtdServer).Orderly := by
  have hlen := h.bounded
  obtain ⟨hmove, hnext⟩ | ⟨rfl, hmove, hnext, hlt⟩ := hq.moved
  · have hall : s.left ++ gone ++ d.queue = s.left ++ s.disp.queue := by
      rw [List.append_assoc, hmove]
    refine ⟨hq.served, ?_, hall ▸ h.order, fun b hb => ?_⟩
    · rw [← hmove, List.length_append] at hlen
      simp only [hq.maxq]
      omega
    · exact Nat.lt_of_lt_of_le (h.arrived b (hall ▸ hb)) hnext
  · have hall : s.left ++ [] ++ d.queue = (s.left ++ s.disp.queue) ++ [s.disp.next] := by
      rw [hmove, List.append_nil, List.append_assoc]
    refine ⟨hq.served, ?_, ?_, fun b hb => ?_⟩
    · simp only [hmove, hq.maxq, List.length_append, List.length_singleton]
      omega
    · simp only [hall]
      refine List.pairwise_append.2 ⟨h.order, List.pairwise_singleton _ _, fun a ha c hc => ?_⟩
      obtain rfl := List.mem_singleton.1 hc
      exact h.arrived a ha
    · simp only [hall] at hb
      simp only [hnext]
      obtain hb | hb := List.mem_append.1 hb
      · exact Nat.lt_succ_of_lt (h.arrived b hb)
      · rw [List.mem_singleton.1 hb]
        exact Nat.lt_succ_self _

theorem Orderly.step (h : s.Orderly) (hroom : s.Roomy e) (hs : s.step e = some t) :
    t.Orderly := by
  obtain ⟨-, ⟨rfl, rfl⟩ | ⟨q, rfl, rfl⟩ | ⟨rfl, rfl⟩ | ⟨e', d, rfl, hd, rfl⟩ | ⟨-, -, rfl⟩⟩ :=
    step_cases hs
  · exact ⟨h.served, h.bounded, h.order, h.arrived⟩
  · exact ⟨h.served, hroom, h.order, h.arrived⟩
  · exact ⟨h.served, h.bounded, h.order, fun b hb => Nat.lt_succ_of_lt (h.arrived b hb)⟩
  · exact h.goes (queue_step hd h.served)
  · exact ⟨h.served, h.bounded, h.order, h.arrived⟩

theorem orderly (h : system.Reach Roomy s) : s.Orderly := by
  refine h.invariant (I := Orderly) ?_ fun _ _ _ _ hi hc hs => hi.step hc hs
  rintro s ⟨num, maxq, rfl⟩
  exact ⟨nofun, Nat.zero_le _, .nil, nofun⟩

/-- Where a call in a cell is: with a thread at work, or behind a reply in the pipe. -/
structure Placed (d : Mtdispatch) : Prop where
  ready : ∀ i ∈ d.readyq, i < d.num
  pipe : ∀ i m, (i, m) ∈ d.pipe → i < d.num
  cell : ∀ i b, (d.cells i).sbp = some b →
    i < d.num ∧ ((d.cells i).status = .working ∨ (i, .reply) ∈ d.pipe)

theorem Placed.send (h : Placed d) (hs : d.sendSvccb b = some d') : Placed d' := by
  unfold Mtdispatch.sendSvccb at hs
  cases hq : d.readyq with
  | nil =>
    rw [hq] at hs
    cases hs
  | cons i rq =>
    rw [hq] at hs
    cases hs
    have hready := h.ready
    have hcell := h.cell
    refine ⟨fun j hj => hready j (by rw [hq]; exact List.mem_cons_of_mem _ hj), h.pipe, ?_⟩
    intro j c hj
    by_cases hji : j = i
    · subst hji
      exact ⟨hready j (by rw [hq]; exact List.mem_cons_self), .inl (by simp)⟩
    · simp only [Function.update_of_ne hji] at hj ⊢
      exact hcell j c hj

theorem Placed.serve (late : Nat → Bool) (q : List Nat) {d : Mtdispatch} (h : Placed d) :
    Placed (Mtdispatch.serve late q d) := by
  induction q generalizing d with
  | nil => exact ⟨h.ready, h.pipe, h.cell⟩
  | cons b q ih =>
    unfold Mtdispatch.serve
    split
    · exact ⟨h.ready, h.pipe, h.cell⟩
    · split
      · exact ih ⟨h.ready, h.pipe, h.cell⟩
      · split
        · exact h
        · next u hu => exact ih (h.send hu)

theorem Placed.chldReady (h : Placed d) (hi : i < d.num) : Placed (d.chldReady late i) := by
  refine Placed.serve late d.queue ⟨fun j hj => ?_, h.pipe, h.cell⟩
  obtain hj | hj := List.mem_append.1 hj
  · exact h.ready j hj
  · rw [List.mem_singleton.1 hj]
    exact hi

theorem Placed.same (h : Placed d) (hr : d'.readyq = d.readyq) (hp : d'.pipe = d.pipe)
    (hc : d'.cells = d.cells) (hn : d'.num = d.num) : Placed d' where
  ready := by
    rw [hr, hn]
    exact h.ready
  pipe := by
    rw [hp, hn]
    exact h.pipe
  cell := by
    rw [hc, hp, hn]
    exact h.cell

/-- A thread writes into the pipe. -/
theorem Placed.push {i : Nat} {m : MtdStatus} (h : Placed d) (hi : i < d.num)
    (hr : d'.readyq = d.readyq) (hn : d'.num = d.num) (hp : d'.pipe = d.pipe ++ [(i, m)])
    (hc : ∀ j b, (d'.cells j).sbp = some b → d'.cells j = d.cells j ∨ j = i ∧ m = .reply) :
    Placed d' where
  ready := by
    rw [hr, hn]
    exact h.ready
  pipe j m' hj := by
    rw [hp] at hj
    rw [hn]
    obtain hj | hj := List.mem_append.1 hj
    · exact h.pipe j m' hj
    · cases List.mem_singleton.1 hj
      exact hi
  cell j b hj := by
    rw [hn, hp]
    obtain hcell | ⟨rfl, rfl⟩ := hc j b hj
    · rw [hcell] at hj ⊢
      exact ⟨(h.cell j b hj).1, (h.cell j b hj).2.imp_right (List.mem_append_left _)⟩
    · exact ⟨hi, .inr (List.mem_append_right _ List.mem_cons_self)⟩

theorem Placed.dispatch (h : Placed d) (hs : d.step .dispatch = some d') : Placed d' := by
  rw [Mtdispatch.step] at hs
  dsimp only at hs
  split at hs
  · cases hs
    exact h.same rfl rfl rfl rfl
  · split at hs
    · cases hs
      exact h.same rfl rfl rfl rfl
    · split at hs
      · cases hs
        exact h.same rfl rfl rfl rfl
      · next u hu =>
        cases hs
        exact Placed.send (d := { d with next := d.next + 1 }) (h.same rfl rfl rfl rfl) hu

theorem Placed.chldMsg (h : Placed d) (hs : d.step (.chldMsg late) = some d') : Placed d' := by
  rw [Mtdispatch.step] at hs
  obtain hp | ⟨⟨i, m⟩, p, hp⟩ : d.pipe = [] ∨ ∃ x p, d.pipe = x :: p := by
    cases d.pipe <;> simp
  · rw [hp] at hs
    cases hs
  rw [hp] at hs
  have hpipe (j : Nat) (m' : MtdStatus) (hj : (j, m') ∈ p) : j < d.num :=
    h.pipe j m' (by rw [hp]; exact List.mem_cons_of_mem _ hj)
  have hi : i < d.num := h.pipe i m (by rw [hp]; exact List.mem_cons_self)
  -- the message that is read is no reply for this cell
  have hother (j b : Nat) (hj : (d.cells j).sbp = some b) (hne : (j, .reply) ≠ (i, m)) :
      j < d.num ∧ ((d.cells j).status = .working ∨ (j, .reply) ∈ p) := by
    refine (h.cell j b hj).imp_right (.imp_right fun hmem => ?_)
    rw [hp] at hmem
    exact (List.mem_cons.1 hmem).resolve_left hne
  cases m with
  | ready =>
    cases hs
    exact Placed.chldReady ⟨h.ready, hpipe, fun j b hj => hother j b hj (by simp)⟩ hi
  | reply =>
    cases hs
    cases hsbp : (d.cells i).sbp with
    | none =>
      simp only [Mtdispatch.chldReply, hsbp]
      refine ⟨h.ready, hpipe, fun j b hj => hother j b hj ?_⟩
      rintro ⟨⟩
      cases hsbp.symm.trans hj
    | some b =>
      simp only [Mtdispatch.chldReply, hsbp]
      refine Placed.chldReady ⟨h.ready, hpipe, fun j c hj => ?_⟩ hi
      by_cases hji : j = i
      · subst hji
        simp at hj
      · simp only [Function.update_of_ne hji] at hj ⊢
        exact hother j c hj (by simpa using hji)
  | startup | working | shutdown =>
    cases hs
    exact ⟨h.ready, hpipe, fun j b hj => hother j b hj (by simp)⟩

theorem Placed.step {e : Mtdispatch.Event} (h : Placed d) (hg : d.Good)
    (hs : d.step e = some d') : Placed d' := by
  cases e with
  | dispatch => exact h.dispatch hs
  | chldMsg late => exact h.chldMsg hs
  | becomeReady i =>
    rw [Mtdispatch.step] at hs
    split at hs
    · next hi =>
      cases hs
      have hnone : (d.cells i).sbp = none := ((hg.1.turn i).of_starting hi.2).1
      refine h.push hi.1 rfl rfl rfl fun j b hj => .inl (Function.update_of_ne ?_ ..)
      rintro rfl
      simp [hnone] at hj
    · cases hs
  | fail i =>
    rw [Mtdispatch.step] at hs
    split at hs
    · next hi =>
      cases hs
      exact h.push hi.1 rfl rfl rfl fun _ _ _ => .inl rfl
    · cases hs
  | takeSvccb i =>
    rw [Mtdispatch.step] at hs
    split at hs
    · split at hs <;> cases hs <;> exact h.same rfl rfl rfl rfl
    · cases hs
  | reply i =>
    rw [Mtdispatch.step] at hs
    split at hs
    · next b hpc =>
      cases hs
      have hi := (h.cell i b ((hg.1.turn i).of_running hpc).2.2.1).1
      refine h.push hi rfl rfl rfl fun j c _ => ?_
      by_cases hji : j = i
      · exact .inr ⟨hji, rfl⟩
      · exact .inl (Function.update_of_ne hji ..)
    · cases hs
  | msgRecv i =>
    rw [Mtdispatch.step] at hs
    split at hs
    · cases hs
      exact h.same rfl rfl rfl rfl
    · cases hs

theorem answered_of_finished (hg : d.Good) (hp : Placed d) (hf : d.Finished)
    (hno : ∀ i, (i, .reply) ∉ d.pipe) : ∀ b < d.next,
      b ∈ d.rejected ∨ b ∈ d.answered.map Prod.fst := by
  intro b hb
  obtain hr | hq | ⟨i, r, ha⟩ | ⟨i, hi⟩ := hg.1.ledger.place b hb
  · exact .inl hr
  · rw [hf.1] at hq
    cases hq
  · exact .inr (List.mem_map.2 ⟨_, ha, rfl⟩)
  · obtain ⟨hlt, hw | hmem⟩ := hp.cell i b hi
    · exact absurd hw (hf.2 i hlt)
    · exact absurd hmem (hno i)

theorem unanswered_of_reply (hg : d.Good) {i : Nat} (hmem : (i, .reply) ∈ d.pipe) :
    ∃ b < d.next, b ∉ d.rejected ∧ b ∉ d.answered.map Prod.fst := by
  obtain ⟨-, -, -, b, hb, -, -⟩ := (hg.1.turn i).of_msg_reply hmem
  obtain ⟨hlt, -, hr, ha⟩ := hg.1.ledger.cell i b hb
  refine ⟨b, hlt, hr, fun hm => ?_⟩
  obtain ⟨⟨_, j, r⟩, hj, rfl⟩ := List.mem_map.1 hm
  exact ha j r hj

structure Inv (s : MtdServer) : Prop where
  live : s.exited = false → s.disp.Good ∧ Placed s.disp
  drained : s.Drained

theorem good_maxq (h : d.Good) (m : Nat) : Mtdispatch.Good { d with maxq := m } := by
  obtain ⟨⟨hintact, hready, hpipe, hturn, hledger⟩, hserved⟩ := h
  refine ⟨⟨hintact, hready, hpipe, fun i => ?_, hledger⟩, hserved⟩
  exact (hturn i).frame rfl rfl (fun _ => .rfl) .rfl fun _ _ _ => .rfl

theorem Inv.step (h : s.Inv) (hcalm : s.Calm e) (hs : s.step e = some t) : t.Inv := by
  obtain ⟨hx, hcases⟩ := step_cases hs
  obtain ⟨hg, hp⟩ := h.live hx
  have hnot {u : MtdServer} (hu : u.exited = s.exited) : u.Drained := fun he => by
    rw [hu, hx] at he
    cases he
  obtain ⟨rfl, rfl⟩ | ⟨q, rfl, rfl⟩ | ⟨rfl, rfl⟩ | ⟨e', d, rfl, hd, rfl⟩ | ⟨htest, hf, rfl⟩ :=
    hcases
  · refine ⟨fun _ => ⟨hg, hp⟩, fun he => ?_⟩
    have hf : s.disp.Finished := by simpa [shutdown, hx] using he
    exact answered_of_finished hg hp hf (hcalm.2 trivial hf)
  · exact ⟨fun _ => ⟨good_maxq hg _, ⟨hp.ready, hp.pipe, hp.cell⟩⟩, hnot rfl⟩
  · exact ⟨fun _ => ⟨⟨hg.1.turnAway, hg.2⟩, ⟨hp.ready, hp.pipe, hp.cell⟩⟩, hnot rfl⟩
  · exact ⟨fun _ => ⟨hg.step (hcalm.1 e' rfl) hd, hp.step hg hd⟩, hnot rfl⟩
  · have hall := answered_of_finished hg hp hf (hcalm.2 htest hf)
    exact ⟨nofun, fun _ => hall⟩

theorem inv (h : system.Reach Calm s) : s.Inv := by
  refine h.invariant (I := Inv) ?_ fun _ _ _ _ hi hc hs => hi.step hc hs
  rintro s ⟨num, maxq, rfl⟩
  exact ⟨fun _ => ⟨Mtdispatch.good_init num maxq, ⟨nofun, nofun, nofun⟩⟩, nofun⟩

theorem exits_of_tests (hs : s.step e = some t) (htest : s.Tests e) (hf : s.disp.Finished) :
    t.exited = true ∧ t.disp.next = s.disp.next ∧ t.disp.rejected = s.disp.rejected ∧
      t.disp.answered = s.disp.answered := by
  have hx := (step_cases hs).1
  obtain ⟨d, sdflag, exited, left⟩ := s
  subst hx
  cases e with
  | setMaxQ q => cases htest
  | shutdown =>
    cases hs
    exact ⟨by simp [shutdown, hf], rfl, rfl, rfl⟩
  | disp e =>
    cases e with
    | chldMsg late =>
      obtain ⟨rfl, i, hhead⟩ := htest
      obtain ⟨num, maxq, next, queue, readyq, cells, threads, pipe, handed, answered, rejected,
        broken⟩ := d
      cases pipe with
      | nil => simp at hhead
      | cons x p =>
        have hf' : Mtdispatch.Finished ⟨num, maxq, next, queue, readyq, cells, threads, p, handed,
          answered, rejected, broken⟩ := hf
        obtain rfl | rfl : x = (i, .ready) ∨ x = (i, .reply) := by simpa [eq_comm] using hhead
        all_goals
          simp only [step, chldMsg, shutdown, hf', Bool.false_eq_true, if_true, if_false,
            decide_true, Bool.or_true, Option.some.injEq] at hs
          subst hs
          exact ⟨rfl, rfl, rfl, rfl⟩
    | dispatch | becomeReady i | fail i | takeSvccb i | reply i | msgRecv i => cases htest

theorem not_drained_of_reply (h : system.Reach Calm s) (hs : s.step e = some t) (htest : s.Tests e)
    (hf : s.disp.Finished) {i : Nat} (hmem : (i, .reply) ∈ s.disp.pipe) : ¬ t.Drained := by
  obtain ⟨hx, hnext, hr, ha⟩ := exits_of_tests hs htest hf
  obtain ⟨b, hb, hnr, hna⟩ := unanswered_of_reply ((inv h).live (step_cases hs).1).1 hmem
  intro hd
  obtain hmem | hmem := hd hx b (hnext ▸ hb)
  · exact hnr (hr ▸ hmem)
  · exact hna (ha ▸ hmem)

/-- The queue is fair as long as it has the room, and the process ends with every call answered as
long as no reply is in the pipe then. -/
theorem fair_and_drained (s : MtdServer) : (system.Reach Roomy s → s.Orderly) ∧
    (system.Reach Calm s → s.Drained) :=
  ⟨fun h => orderly h, fun h => (inv h).drained⟩

end Steps

section Runs

def waiting : List Event :=
  [.disp (.becomeReady 0), .disp (.takeSvccb 0), .disp (.chldMsg fun _ => false)]

def answeredCall : List Event :=
  waiting ++ [.disp .dispatch, .disp (.msgRecv 0), .disp (.takeSvccb 0), .disp (.reply 0),
    .disp (.chldMsg fun _ => false), .shutdown]

def answeredRun : MtdServer := (system.exec { disp := { num := 1, maxq := 1000 } }
  answeredCall).getD { disp := { num := 1, maxq := 1000 } }

theorem fair_and_drained_one : answeredRun.exited = true ∧ answeredRun.left = [] ∧
    answeredRun.disp.answered = [(0, 0, some 0)] ∧ answeredRun.Orderly ∧ answeredRun.Drained := by
  have hr : system.Reach Roomy answeredRun := by
    have h₀ : system.Reach Roomy { disp := { num := 1, maxq := 1000 } } := .init ⟨1, 1000, rfl⟩
    refine Lib.System.Reach.exec h₀ (fun s e (he : e ∈ answeredCall) => ?_) rfl
    cases e with
    | setMaxQ q => simp [answeredCall, waiting] at he
    | disp e => trivial
    | shutdown => trivial
  have hc : system.Reach Calm answeredRun := by
    have plain {s : MtdServer} {e : Mtdispatch.Event} (hs : s.sdflag = false)
        (h : s.disp.Calm e) : s.Calm (.disp e) := by
      refine ⟨fun e' he => by cases he; exact h, fun ht => ?_⟩
      cases e with
      | chldMsg late => exact absurd (hs.symm.trans ht.1) nofun
      | dispatch | becomeReady i | fail i | takeSvccb i | reply i | msgRecv i => cases ht
    have h₀ : system.Reach Calm { disp := { num := 1, maxq := 1000 } } := .init ⟨1, 1000, rfl⟩
    have h₁ := h₀.step (e := Event.disp (.becomeReady 0)) (plain rfl trivial) rfl
    have h₂ := h₁.step (e := Event.disp (.takeSvccb 0)) (plain rfl fun _ => rfl) rfl
    have h₃ := h₂.step (e := Event.disp (.chldMsg fun _ => false)) (plain rfl trivial) rfl
    have h₄ := h₃.step (e := Event.disp .dispatch) (plain rfl trivial) rfl
    have h₅ := h₄.step (e := Event.disp (.msgRecv 0)) (plain rfl trivial) rfl
    have h₆ := h₅.step (e := Event.disp (.takeSvccb 0)) (plain rfl nofun) rfl
    have h₇ := h₆.step (e := Event.disp (.reply 0)) (plain rfl trivial) rfl
    have h₈ := h₇.step (e := Event.disp (.chldMsg fun _ => false)) (plain rfl trivial) rfl
    exact h₈.step (e := Event.shutdown) ⟨nofun, fun _ _ _ => nofun⟩ rfl
  exact ⟨rfl, rfl, rfl, (fair_and_drained answeredRun).1 hr, (fair_and_drained answeredRun).2 hc⟩

/-- The end is asked for while the thread is at work.  When its reply comes, `chld_msg` first looks
whether all is done; nobody is at work then, and the process ends with the reply unsent. -/
theorem exit_unanswered : ¬ ∀ s, system.Reachable s → s.Orderly ∧ s.Drained := by
  intro h
  have hd := (h _ (Lib.System.reachable_exec (M := system) (waiting ++ [.disp .dispatch,
    .disp (.msgRecv 0), .disp (.takeSvccb 0), .shutdown, .disp (.reply 0),
    .disp (.chldMsg fun _ => false)]) ⟨1, 1000, rfl⟩ rfl)).2
  exact absurd (hd rfl 0 (by decide)) (by decide)

end Runs

end MtdServer

end Okws
