import Mathlib.Algebra.Ring.Int.Defs
import Mathlib.Algebra.Ring.Nat
import Mathlib.Data.List.Nodup
import Mathlib.Data.List.TakeWhile
import Okws.Lib.Transition

/-! `ahttp_tab_t`: the connections that `okd` is demultiplexing, in order of arrival, and the
time-outs on them. -/

namespace Okws

open Lib

/-- `ok_demux_timeout` and `ok_ka_timeout`. -/
structure DemuxConfig where
  demuxTimeout : UInt32 := 30
  kaTimeout : UInt32 := 10

/-- An `ahttp_tab_node_t`, with what `run` asks its `ahttpcon` for. -/
structure AhttpTabNode where
  id : Nat
  start : Nat
  reqno : UInt32
  bytesRecv : Nat
  destroyed : Bool := false
  deriving DecidableEq

namespace AhttpTabNode

variable (cfg : DemuxConfig) (now : Nat) (n : AhttpTabNode)

/-- `sfs_get_timenow () - start`. -/
def age : Int := now - n.start

def Live : Prop := n.destroyed = false

instance : Decidable n.Live := inferInstanceAs (Decidable (_ = _))

def Idle : Prop := 0 < n.reqno ∧ n.bytesRecv = 0

instance : Decidable n.Idle := inferInstanceAs (Decidable (_ ∧ _))

/-- `run` kills the connection hard. -/
def KaDue : Prop := 0 < n.reqno ∧ n.bytesRecv = 0 ∧ cfg.kaTimeout.toNat < n.age now

instance : Decidable (n.KaDue cfg now) := inferInstanceAs (Decidable (_ ∧ _))

/-- `run` lets the connection hit its time-out.  Both sides are cut to an `int`. -/
def DemuxDue : Prop :=
  (n.reqno = 0 ∨ 0 < n.bytesRecv) ∧
    (cfg.demuxTimeout.toNat : Int).bmod (2 ^ 32) < (n.age now).bmod (2 ^ 32)

instance : Decidable (n.DemuxDue cfg now) := inferInstanceAs (Decidable (_ ∧ _))

def Due : Prop := n.KaDue cfg now ∨ n.DemuxDue cfg now

instance : Decidable (n.Due cfg now) := inferInstanceAs (Decidable (_ ∨ _))

def limit : Nat := if n.Idle then cfg.kaTimeout.toNat else cfg.demuxTimeout.toNat

def Past : Prop := n.limit cfg < n.age now

instance : Decidable (n.Past cfg now) := inferInstanceAs (Decidable (_ < _))

end AhttpTabNode

/-- `ahttp_tab_t` with the clock, the connections that `run` timed out and those that were
unregistered. -/
structure AhttpTab where
  q : List AhttpTabNode := []
  nent : Nat := 0
  dcb : Bool := true
  shutdown : Bool := false
  now : Nat := 0
  next : Nat := 0
  timedOut : List Nat := []
  unregd : List Nat := []

inductive AhttpTabEvent
  /-- `newserv2` takes a connection, with what came before on it if it is kept alive. -/
  | reg (reqno : UInt32) (bytes : Nat)
  | input (id bytes : Nat)
  | destroy (id : Nat)
  | clock (now : Nat)
  | run
  | shutdown

namespace AhttpTab

variable (cfg : DemuxConfig)

def reg (t : AhttpTab) (reqno : UInt32) (bytes : Nat) : AhttpTab :=
  { t with
    q := t.q ++ [{ id := t.next, start := t.now, reqno := reqno, bytesRecv := bytes }]
    nent := t.nent + 1
    next := t.next + 1 }

def unreg (t : AhttpTab) (n : AhttpTabNode) : AhttpTab :=
  { t with q := t.q.erase n, nent := t.nent - 1, unregd := t.unregd ++ [n.id] }

def sched (t : AhttpTab) : AhttpTab := if t.shutdown then t else { t with dcb := true }

/-- `cancel` or `hit_timeout` on the connection. -/
def timeOut (t : AhttpTab) (n : AhttpTabNode) : AhttpTab :=
  { t with timedOut := t.timedOut ++ [n.id] }

/-- The loop of `run`.  It goes on only after it has taken a connection from the queue. -/
def runLoop : Nat → AhttpTab → AhttpTab
  | 0, t => t
  | k + 1, t => match t.q with
    | [] => t
    | n :: _ =>
      if n.destroyed then runLoop k (t.unreg n)
      else if n.KaDue cfg t.now then runLoop k ((t.timeOut n).unreg n)
      else if n.DemuxDue cfg t.now then runLoop k ((t.timeOut n).unreg n)
      else t

def run (t : AhttpTab) : AhttpTab := (runLoop cfg t.q.length { t with dcb := false }).sched

def killAll : Nat → AhttpTab → AhttpTab
  | 0, t => t
  | k + 1, t => match t.q with
    | [] => t
    | n :: _ => killAll k (t.unreg n)

def stop (t : AhttpTab) : AhttpTab :=
  killAll t.q.length { t with dcb := false, shutdown := true }

/-- Something happens to the live connection `id`. -/
def onConn (t : AhttpTab) (id : Nat) (f : AhttpTabNode → AhttpTabNode) : AhttpTab :=
  { t with q := t.q.map fun n => if n.id = id ∧ n.Live then f n else n }

/-- `run` comes from the timer. -/
def step (t : AhttpTab) : AhttpTabEvent → Option AhttpTab
  | .reg reqno bytes => some (t.reg reqno bytes)
  | .input id bytes => some (t.onConn id fun n => { n with bytesRecv := n.bytesRecv + bytes })
  | .destroy id => some (t.onConn id fun n => { n with destroyed := true })
  | .clock now => some { t with now := now }
  | .run => if t.dcb then some (t.run cfg) else none
  | .shutdown => some t.stop

def system : System AhttpTab AhttpTabEvent where
  init t := t = {}
  step := step cfg

/-- The time-outs of a run are those that the limits ask for. -/
structure Enforced (t t' : AhttpTab) : Prop where
  past : ∀ n ∈ t.q, n.Live → n.Past cfg t.now →
    t'.timedOut.count n.id = 1 ∧ t'.unregd.count n.id = 1 ∧ n ∉ t'.q
  within : ∀ n ∈ t.q, n.Live → ¬n.Past cfg t.now →
    n.id ∉ t'.timedOut ∧ n.id ∉ t'.unregd ∧ n ∈ t'.q
  nent : t'.nent = t'.q.length

/-- Nobody past the limit stands behind somebody live that the tests of `run` let stay, and they
let nobody go early who is reached. -/
structure Calm (t : AhttpTab) : Prop where
  behind : ∀ pre n post, t.q = pre ++ n :: post → n.Live → ¬n.Due cfg t.now →
    ∀ m ∈ n :: post, m.Live → ¬m.Past cfg t.now
  early : ∀ pre n post, t.q = pre ++ n :: post → (∀ m ∈ pre, m.Live → m.Due cfg t.now) →
    n.Live → n.Due cfg t.now → n.Past cfg t.now

/-- Who is unregistered once does not come back. -/
structure Inv (t : AhttpTab) : Prop where
  nent : t.nent = t.q.length
  nodup : (t.unregd ++ t.q.map (·.id)).Nodup
  lt : ∀ i ∈ t.unregd ++ t.q.map (·.id), i < t.next
  timedOut : t.timedOut.Sublist t.unregd
  dcb : t.dcb = !t.shutdown

/-- `run` takes the connection from the front of the queue. -/
def Leaves (now : Nat) (n : AhttpTabNode) : Prop := n.Live → n.Due cfg now

instance (now : Nat) (n : AhttpTabNode) : Decidable (Leaves cfg now n) :=
  inferInstanceAs (Decidable (_ → _))

def leaving (t : AhttpTab) : List AhttpTabNode := t.q.takeWhile (Leaves cfg t.now ·)

def staying (t : AhttpTab) : List AhttpTabNode := t.q.dropWhile (Leaves cfg t.now ·)

section Run

variable {cfg} {t : AhttpTab} {n : AhttpTabNode} {q : List AhttpTabNode}

theorem leaving_append_staying (cfg : DemuxConfig) (t : AhttpTab) :
    t.leaving cfg ++ t.staying cfg = t.q :=
  List.takeWhile_append_dropWhile

theorem mem_q : n ∈ t.q ↔ n ∈ t.leaving cfg ∨ n ∈ t.staying cfg := by
  rw [← leaving_append_staying cfg t, List.mem_append]

/-- What one round of the loop does with the connection in front. -/
def leave (t : AhttpTab) (n : AhttpTabNode) : AhttpTab :=
  if n.Live then (t.timeOut n).unreg n else t.unreg n

theorem runLoop_stay (k : Nat) (hq : t.q = n :: q) (hn : ¬Leaves cfg t.now n) :
    runLoop cfg (k + 1) t = t := by
  obtain ⟨hlive, hdue⟩ := Classical.not_imp.mp hn
  obtain ⟨hka, hdemux⟩ := not_or.mp hdue
  have hdest : ¬n.destroyed = true := by rw [hlive]; exact Bool.false_ne_true
  simp only [runLoop, hq]
  rw [if_neg hdest, if_neg hka, if_neg hdemux]

theorem runLoop_leave (k : Nat) (hq : t.q = n :: q) (hn : Leaves cfg t.now n) :
    runLoop cfg (k + 1) t = runLoop cfg k (t.leave n) := by
  simp only [runLoop, hq]
  unfold leave
  by_cases hdest : n.destroyed = true
  · have hlive : ¬n.Live := fun h => Bool.false_ne_true (h.symm.trans hdest)
    rw [if_pos hdest, if_neg hlive]
  · have hlive : n.Live := Bool.eq_false_iff.mpr hdest
    rw [if_neg hdest, if_pos hlive]
    by_cases hka : n.KaDue cfg t.now
    · rw [if_pos hka]
    · rw [if_neg hka, if_pos ((hn hlive).resolve_left hka)]

theorem leave_eq (hq : t.q = n :: q) :
    t.leave n = { t with
      q := q
      nent := t.nent - 1
      timedOut := t.timedOut ++ ([n].filter (·.Live)).map (·.id)
      unregd := t.unregd ++ [n.id] } := by
  unfold leave unreg timeOut
  by_cases hlive : n.Live
  · simp [hlive, hq]
  · simp [hlive, hq]

theorem runLoop_eq (k : Nat) (hk : t.q.length ≤ k) :
    runLoop cfg k t = { t with
      q := t.staying cfg
      nent := t.nent - (t.leaving cfg).length
      timedOut := t.timedOut ++ ((t.leaving cfg).filter (·.Live)).map (·.id)
      unregd := t.unregd ++ (t.leaving cfg).map (·.id) } := by
  induction k generalizing t with
  | zero =>
    have hq : t.q = [] := List.eq_nil_of_length_eq_zero (Nat.le_zero.mp hk)
    simp [runLoop, leaving, staying, hq]
    rw [← hq]
  | succ k ih =>
    match hq : t.q with
    | [] =>
      simp [runLoop, leaving, staying, hq]
      rw [← hq]
    | n :: q =>
      by_cases hn : Leaves cfg t.now n
      · have hle : (t.leave n).q.length ≤ k := by
          rw [leave_eq hq]
          rw [hq] at hk
          exact Nat.le_of_succ_le_succ hk
        rw [runLoop_leave k hq hn, ih hle, leave_eq hq]
        simp [leaving, staying, hq, hn, Nat.sub_sub, Nat.add_comm, List.filter_cons]
        split <;> rfl
      · rw [runLoop_stay k hq hn]
        simp [leaving, staying, hq, hn]
        rw [← hq]

theorem killAll_eq (k : Nat) (hk : t.q.length ≤ k) :
    killAll k t = { t with
      q := []
      nent := t.nent - t.q.length
      unregd := t.unregd ++ t.q.map (·.id) } := by
  induction k generalizing t with
  | zero =>
    have hq : t.q = [] := List.eq_nil_of_length_eq_zero (Nat.le_zero.mp hk)
    simp [killAll, hq]
    rw [← hq]
  | succ k ih =>
    match hq : t.q with
    | [] =>
      simp [killAll, hq]
      rw [← hq]
    | n :: q =>
      have hle : (t.unreg n).q.length ≤ k := by
        simp only [unreg, hq, List.erase_cons_head]
        rw [hq] at hk
        exact Nat.le_of_succ_le_succ hk
      simp only [killAll, hq]
      rw [ih hle]
      simp [unreg, hq, Nat.sub_sub, Nat.add_comm]

theorem run_eq (h : Inv t) : t.run cfg = { t with
    q := t.staying cfg
    nent := (t.staying cfg).length
    timedOut := t.timedOut ++ ((t.leaving cfg).filter (·.Live)).map (·.id)
    unregd := t.unregd ++ (t.leaving cfg).map (·.id) } := by
  have hnent : t.nent - (t.leaving cfg).length = (t.staying cfg).length := by
    rw [h.nent, ← leaving_append_staying cfg t, List.length_append,
      Nat.add_sub_cancel_left]
  have hloop : runLoop cfg t.q.length { t with dcb := false } = _ :=
    runLoop_eq t.q.length (Nat.le_refl _)
  have hdcb := h.dcb
  unfold run
  rw [hloop, ← hnent]
  unfold sched
  cases hsh : t.shutdown with
  | true =>
    rw [hsh] at hdcb
    simp only [if_true, Bool.not_true] at hdcb ⊢
    rw [← hdcb]
    rfl
  | false =>
    rw [hsh] at hdcb
    simp only [Bool.false_eq_true, if_false, Bool.not_false] at hdcb ⊢
    rw [← hdcb]
    rfl

theorem stop_eq (h : Inv t) : t.stop = { t with
    q := []
    nent := 0
    dcb := false
    shutdown := true
    unregd := t.unregd ++ t.q.map (·.id) } := by
  unfold stop
  rw [killAll_eq (t := { t with dcb := false, shutdown := true }) t.q.length (Nat.le_refl _),
    h.nent, Nat.sub_self]

end Run

section Inv

variable {cfg} {t t' : AhttpTab}

theorem Inv.init : Inv {} where
  nent := rfl
  nodup := .nil
  lt := nofun
  timedOut := .slnil
  dcb := rfl

theorem Inv.reg (h : Inv t) (reqno : UInt32) (bytes : Nat) : Inv (t.reg reqno bytes) := by
  have hids : t.unregd ++ (t.reg reqno bytes).q.map (·.id) =
      (t.unregd ++ t.q.map (·.id)) ++ [t.next] := by
    simp [AhttpTab.reg]
  refine ⟨?_, ?_, ?_, h.timedOut, h.dcb⟩
  · simp [AhttpTab.reg, h.nent]
  · have hnew : ∀ i ∈ t.unregd ++ t.q.map (·.id), ∀ j ∈ [t.next], i ≠ j := by
      rintro i hi j hj rfl
      exact absurd (h.lt i hi) (by rw [List.mem_singleton.mp hj]; exact Nat.lt_irrefl _)
    exact hids ▸ List.nodup_append.mpr ⟨h.nodup, List.pairwise_singleton _ _, hnew⟩
  · intro i hi
    rw [show (t.reg reqno bytes).unregd = t.unregd from rfl, hids] at hi
    obtain hi | hi := List.mem_append.mp hi
    · exact Nat.lt_succ_of_lt (h.lt i hi)
    · exact Nat.lt_succ_of_le (Nat.le_of_eq (List.mem_singleton.mp hi))

theorem map_id_onConn (id : Nat) {f : AhttpTabNode → AhttpTabNode} (hf : ∀ n, (f n).id = n.id) :
    (t.onConn id f).q.map (·.id) = t.q.map (·.id) := by
  unfold onConn
  rw [List.map_map]
  refine List.map_congr_left fun n _ => ?_
  show (if n.id = id ∧ n.Live then f n else n).id = n.id
  split
  · exact hf n
  · rfl

theorem Inv.onConn (h : Inv t) (id : Nat) {f : AhttpTabNode → AhttpTabNode}
    (hf : ∀ n, (f n).id = n.id) : Inv (t.onConn id f) where
  nent := h.nent.trans (List.length_map _).symm
  nodup := by rw [map_id_onConn id hf]; exact h.nodup
  lt := by rw [map_id_onConn id hf]; exact h.lt
  timedOut := h.timedOut
  dcb := h.dcb

theorem ids_run (h : Inv t) :
    (t.run cfg).unregd ++ (t.run cfg).q.map (·.id) = t.unregd ++ t.q.map (·.id) := by
  rw [run_eq h, ← leaving_append_staying cfg t, List.map_append,
    List.append_assoc]

theorem Inv.run (h : Inv t) : Inv (t.run cfg) := by
  refine ⟨?_, ?_, ?_, ?_, ?_⟩
  · rw [run_eq h]
  · rw [ids_run h]
    exact h.nodup
  · rw [ids_run h, run_eq h]
    exact h.lt
  · rw [run_eq h]
    exact h.timedOut.append (List.filter_sublist.map _)
  · rw [run_eq h]
    exact h.dcb

theorem Inv.stop (h : Inv t) : Inv t.stop := by
  rw [stop_eq h]
  refine ⟨rfl, ?_, ?_, ?_, rfl⟩
  · simpa using h.nodup
  · simpa using h.lt
  · exact h.timedOut.trans (List.sublist_append_left _ _)

theorem inv_step {e : AhttpTabEvent} (h : Inv t) (hstep : (system cfg).step t e = some t') :
    Inv t' := by
  cases e with
  | reg reqno bytes => cases hstep; exact h.reg reqno bytes
  | input id bytes => cases hstep; exact h.onConn id fun _ => rfl
  | destroy id => cases hstep; exact h.onConn id fun _ => rfl
  | clock now => cases hstep; exact ⟨h.nent, h.nodup, h.lt, h.timedOut, h.dcb⟩
  | run =>
    obtain ⟨-, hrun⟩ := Option.ite_none_right_eq_some.mp hstep
    cases hrun
    exact h.run
  | shutdown => cases hstep; exact h.stop

theorem inv_reachable (h : (system cfg).Reachable t) : Inv t :=
  h.invariant (fun s (hs : s = {}) => hs ▸ Inv.init) fun _ _ _ _ hi _ => inv_step hi

end Inv

section Ordered

variable {cfg} {t : AhttpTab} {n : AhttpTabNode}

theorem bmod_of_lt {x : Int} (hx : 0 ≤ x) (hlt : x < 2 ^ 31) : x.bmod (2 ^ 32) = x := by
  rw [Int.bmod_def, Int.emod_eq_of_lt hx (by omega), if_pos (by omega)]

theorem due_iff_past {now : Nat} (hage : 0 ≤ n.age now) (hlt : n.age now < 2 ^ 31)
    (hcfg : cfg.demuxTimeout.toNat < 2 ^ 31) : n.Due cfg now ↔ n.Past cfg now := by
  unfold AhttpTabNode.Due AhttpTabNode.Past AhttpTabNode.limit AhttpTabNode.KaDue
    AhttpTabNode.DemuxDue
  rw [bmod_of_lt hage hlt, bmod_of_lt (Int.natCast_nonneg _) (by exact_mod_cast hcfg)]
  by_cases hidle : n.Idle
  · obtain ⟨hreqno, hbytes⟩ := hidle
    have hclass : ¬(n.reqno = 0 ∨ 0 < n.bytesRecv) := by
      rintro (h | h)
      · rw [h] at hreqno
        exact absurd hreqno (by decide)
      · exact absurd hbytes (Nat.ne_of_gt h)
    rw [if_pos ⟨hreqno, hbytes⟩]
    exact ⟨fun h => (h.resolve_right fun h => hclass h.1).2.2, fun h => .inl ⟨hreqno, hbytes, h⟩⟩
  · have hclass : n.reqno = 0 ∨ 0 < n.bytesRecv := by
      by_contra h
      obtain ⟨hreqno, hbytes⟩ := not_or.mp h
      exact hidle ⟨UInt32.pos_iff_ne_zero.mpr hreqno, Nat.eq_zero_of_not_pos hbytes⟩
    rw [if_neg hidle]
    exact ⟨fun h => (h.resolve_left fun h => hidle ⟨h.1, h.2.1⟩).2, fun h => .inr ⟨hclass, h⟩⟩

theorem Calm.of_ordered (hages : ∀ n ∈ t.q, n.start ≤ t.now ∧ t.now < n.start + 2 ^ 31)
    (hcfg : cfg.demuxTimeout.toNat < 2 ^ 31)
    (hord : t.q.Pairwise fun m n => m.start + m.limit cfg ≤ n.start + n.limit cfg) :
    Calm cfg t := by
  have hdue : ∀ n ∈ t.q, n.Due cfg t.now ↔ n.Past cfg t.now := fun n hn =>
    have := hages n hn
    due_iff_past (by unfold AhttpTabNode.age; omega) (by unfold AhttpTabNode.age; omega) hcfg
  constructor
  · intro pre n post hq hlive hn m hm _ hpast
    have hnq : n ∈ t.q := hq ▸ List.mem_append_right _ (.head _)
    rw [hdue n hnq] at hn
    obtain rfl | hm := List.mem_cons.mp hm
    · exact hn hpast
    · rw [hq] at hord
      have hle := (List.pairwise_cons.mp (List.pairwise_append.mp hord).2.1).1 m hm
      unfold AhttpTabNode.Past AhttpTabNode.age at hn hpast
      omega
  · intro pre n post hq _ _ hn
    exact (hdue n (hq ▸ List.mem_append_right _ (.head _))).mp hn

end Ordered

section Calm

variable {cfg} {t t' : AhttpTab} {n : AhttpTabNode}

theorem mem_leaving : n ∈ t.leaving cfg ↔ ∃ pre post, t.q = pre ++ n :: post ∧
    (∀ m ∈ pre, Leaves cfg t.now m) ∧ Leaves cfg t.now n := by
  constructor
  · intro hn
    obtain ⟨pre, post, hsplit⟩ := List.append_of_mem hn
    have hall : ∀ m ∈ t.leaving cfg, Leaves cfg t.now m := fun m hm =>
      of_decide_eq_true (List.mem_takeWhile_imp (p := (Leaves cfg t.now ·)) hm)
    refine ⟨pre, post ++ t.staying cfg, ?_, fun m hm => hall m ?_, hall n hn⟩
    · rw [← leaving_append_staying cfg t, hsplit, List.append_assoc]
      rfl
    · rw [hsplit]
      exact List.mem_append_left _ hm
  · rintro ⟨pre, post, hq, hpre, hn⟩
    have hsplit : t.leaving cfg = pre ++ n :: post.takeWhile (Leaves cfg t.now ·) := by
      unfold leaving
      rw [hq, List.takeWhile_append_of_pos fun m hm => decide_eq_true (hpre m hm),
        List.takeWhile_cons, if_pos (decide_eq_true hn)]
    rw [hsplit]
    exact List.mem_append_right _ (.head _)

theorem mem_staying : n ∈ t.staying cfg ↔ ∃ pre m post, t.q = pre ++ m :: post ∧
    ¬Leaves cfg t.now m ∧ n ∈ m :: post := by
  constructor
  · intro hn
    match hs : t.staying cfg with
    | [] => rw [hs] at hn; exact absurd hn List.not_mem_nil
    | m :: post =>
      refine ⟨t.leaving cfg, m, post, ?_, ?_, hs ▸ hn⟩
      · rw [← hs, leaving_append_staying]
      · have hne : t.staying cfg ≠ [] := hs ▸ List.cons_ne_nil _ _
        have hhead := List.head_dropWhile_not (Leaves cfg t.now ·) hne
        have hm : (t.staying cfg).head hne = m := by simp only [hs, List.head_cons]
        exact hm ▸ of_decide_eq_false hhead
  · rintro ⟨pre, m, post, hq, hm, hn⟩
    unfold staying
    rw [hq, List.dropWhile_append]
    split
    · rw [List.dropWhile_cons, if_neg (by simpa using hm)]
      exact hn
    · exact List.mem_append_right _ hn

theorem calm_iff : Calm cfg t ↔ (∀ n ∈ t.leaving cfg, n.Live → n.Past cfg t.now) ∧
    ∀ n ∈ t.staying cfg, n.Live → ¬n.Past cfg t.now := by
  constructor
  · refine fun h => ⟨fun n hn hlive => ?_, fun n hn => ?_⟩
    · obtain ⟨pre, post, hq, hpre, hleaves⟩ := mem_leaving.mp hn
      exact h.early pre n post hq hpre hlive (hleaves hlive)
    · obtain ⟨pre, m, post, hq, hm, hmem⟩ := mem_staying.mp hn
      obtain ⟨hlive, hdue⟩ := Classical.not_imp.mp hm
      exact h.behind pre m post hq hlive hdue n hmem
  · rintro ⟨hleaving, hstaying⟩
    refine ⟨fun pre n post hq hlive hdue m hm => ?_, fun pre n post hq hpre hlive hdue => ?_⟩
    · exact hstaying m (mem_staying.mpr ⟨pre, n, post, hq, fun h => hdue (h hlive), hm⟩)
    · exact hleaving n (mem_leaving.mpr ⟨pre, post, hq, hpre, fun _ => hdue⟩) hlive

theorem nodup_unregd_run (h : Inv t) : (t.unregd ++ (t.leaving cfg).map (·.id)).Nodup := by
  have hnodup := h.nodup
  rw [← leaving_append_staying cfg t, List.map_append,
    ← List.append_assoc] at hnodup
  exact (List.nodup_append.mp hnodup).1

theorem of_leaving (h : Inv t) (hn : n ∈ t.leaving cfg) (hlive : n.Live) :
    (t.run cfg).timedOut.count n.id = 1 ∧ (t.run cfg).unregd.count n.id = 1 := by
  have hunregd : (t.run cfg).unregd.Nodup := by
    rw [run_eq h]
    exact nodup_unregd_run h
  have htimedOut : (t.run cfg).timedOut.Nodup := hunregd.sublist h.run.timedOut
  have hmem : n.id ∈ ((t.leaving cfg).filter (·.Live)).map (·.id) :=
    List.mem_map_of_mem (List.mem_filter.mpr ⟨hn, decide_eq_true hlive⟩)
  constructor
  · refine List.count_eq_one_of_mem htimedOut ?_
    rw [run_eq h]
    exact List.mem_append_right _ hmem
  · refine List.count_eq_one_of_mem hunregd ?_
    rw [run_eq h]
    exact List.mem_append_right _ (List.mem_map_of_mem hn)

theorem not_mem_of_q (h : Inv t) (hn : n ∈ t.q) : n.id ∉ t.unregd ∧ n.id ∉ t.timedOut := by
  have hunregd : n.id ∉ t.unregd := fun hmem =>
    (List.nodup_append.mp h.nodup).2.2 _ hmem _ (List.mem_map_of_mem hn) rfl
  exact ⟨hunregd, fun hmem => hunregd (h.timedOut.mem hmem)⟩

/-- The time-outs are enforced in exactly those runs that find the queue calm. -/
theorem enforced_iff_calm (ht : (system cfg).Reachable t)
    (hrun : (system cfg).step t .run = some t') : Enforced cfg t t' ↔ Calm cfg t := by
  have h := inv_reachable ht
  obtain ⟨-, hrun⟩ := Option.ite_none_right_eq_some.mp hrun
  cases hrun
  have hq : (t.run cfg).q = t.staying cfg := by rw [run_eq h]
  rw [calm_iff]
  constructor
  · refine fun henf => ⟨fun n hn hlive => ?_, fun n hn hlive hpast => ?_⟩
    · by_contra hpast
      have hmem : n.id ∈ (t.run cfg).timedOut :=
        List.count_pos_iff.mp (by rw [(of_leaving h hn hlive).1]; exact Nat.one_pos)
      exact (henf.within n (mem_q.mpr (.inl hn)) hlive hpast).1 hmem
    · exact (henf.past n (mem_q.mpr (.inr hn)) hlive hpast).2.2 (hq ▸ hn)
  · rintro ⟨hleaving, hstaying⟩
    refine ⟨fun n hn hlive hpast => ?_, fun n hn hlive hpast => ?_, h.run.nent⟩
    · have hmem := (mem_q.mp hn).resolve_right fun hn => hstaying n hn hlive hpast
      obtain ⟨htimedOut, hunregd⟩ := of_leaving h hmem hlive
      refine ⟨htimedOut, hunregd, fun hn' => (not_mem_of_q h.run hn').1 ?_⟩
      exact List.count_pos_iff.mp (by rw [hunregd]; exact Nat.one_pos)
    · have hmem := (mem_q.mp hn).resolve_left fun hn => hpast (hleaving n hn hlive)
      rw [← hq] at hmem
      obtain ⟨hunregd, htimedOut⟩ := not_mem_of_q h.run hmem
      exact ⟨htimedOut, hunregd, hmem⟩

/-- A client that sends nothing is timed out, while the one after it stays. -/
theorem enforced_iff_calm_silent :
    let t : AhttpTab := {
      q := [⟨0, 0, 0, 0, false⟩, ⟨1, 25, 1, 0, false⟩]
      nent := 2
      now := 31
      next := 2 }
    Enforced {} t (t.run {}) :=
  (enforced_iff_calm (System.reachable_exec [.reg 0 0, .clock 25, .reg 1 0, .clock 31] rfl rfl)
    rfl).mpr (.of_ordered (by decide) (by decide) (by decide))

/-- With the settings that `okd` starts with, a connection that is kept alive for nothing stays
behind a young one. -/
theorem not_enforced_behind : ¬∀ cfg t t', (system cfg).Reachable t →
    (system cfg).step t .run = some t' → Enforced cfg t t' := by
  intro h
  let t : AhttpTab := {
    q := [⟨0, 0, 0, 0, false⟩, ⟨1, 1, 1, 0, false⟩]
    nent := 2
    now := 15
    next := 2 }
  have ht : (system {}).Reachable t :=
    System.reachable_exec [.reg 0 0, .clock 1, .reg 1 0, .clock 15] rfl rfl
  have henf := (h {} t (t.run {}) ht rfl).past ⟨1, 1, 1, 0, false⟩ (by decide) rfl (by decide)
  exact absurd henf.1 (by decide)

end Calm

end AhttpTab

end Okws
