import Mathlib.Data.List.Nodup
import Okws.Lib.Transition
import Okws.Child

/-! The shutdown of `okd`: it tells its services to stop, waits for them, and tells them again. -/

namespace Okws

open Lib

/-- A child during the shutdown.  It has closed its end of the control connection when `isOpen` is
false, `clnt` says whether `okd` still has its own end, and `eofcb` whether an event waits there.
`killed` counts the calls of `okch_t::killed`. -/
structure SdChild where
  isOpen : Bool
  clnt : Bool
  eofcb : Bool := false
  state : OkcState := .serve
  killed : Nat := 0
  deriving DecidableEq

structure SdCluster where
  children : List SdChild
  nKilled : Nat := 0
  deleted : Bool := false
  deriving DecidableEq

inductive SdPhase
  | running | soft | hard
  | exited (aborted : Bool)
  deriving DecidableEq

structure Sd where
  clusters : List SdCluster
  phase : SdPhase := .running
  deriving DecidableEq

inductive SdEvent
  | shutdown
  | timeout
  /-- Child `i` of cluster `c` closes its connection. -/
  | close (c i : Nat)
  /-- `okd` gets to know of it through `dispatch`. -/
  | chldEof (c i : Nat)

namespace SdChild

/-- `okch_t::shutdown` with a soft or a hard kill.  `seteofcb` puts one event in the place of
another, and calls back at once when the connection has been closed. -/
def shutdown (ch : SdChild) : SdChild :=
  if ch.clnt then { ch with state := .killing, eofcb := ch.isOpen } else ch

def answers (ch : SdChild) : Bool := !(ch.clnt && ch.isOpen)

/-- `okch_t::shutdown` with OK_SIG_ABORT. -/
def abort (ch : SdChild) : SdChild :=
  if ch.clnt then { ch with clnt := false, eofcb := false, state := .none } else ch

@[simp] theorem shutdown_isOpen (ch : SdChild) : ch.shutdown.isOpen = ch.isOpen := by
  unfold shutdown
  split <;> rfl

@[simp] theorem shutdown_killed (ch : SdChild) : ch.shutdown.killed = ch.killed := by
  unfold shutdown
  split <;> rfl

theorem shutdown_waits {ch : SdChild} (hc : ch.clnt = true) (ho : ch.isOpen = true) :
    ch.shutdown.eofcb = true ∧ ch.shutdown.clnt = true := by
  simp [shutdown, hc, ho]

@[simp] theorem abort_isOpen (ch : SdChild) : ch.abort.isOpen = ch.isOpen := by
  unfold abort
  split <;> rfl

@[simp] theorem abort_killed (ch : SdChild) : ch.abort.killed = ch.killed := by
  unfold abort
  split <;> rfl

end SdChild

namespace SdCluster

/-- `okch_t::killed` and `okch_cluster_t::killed`, unless the child has been destroyed. -/
def killed (cl : SdCluster) (i : Nat) : SdCluster :=
  if cl.deleted then cl
  else
    { children := cl.children.modify i fun ch =>
      { ch with state := .killed, killed := ch.killed + 1 }
      nKilled := cl.nKilled + 1
      deleted := cl.nKilled + 1 = cl.children.length }

def mapChildren (f : SdChild → SdChild) (cl : SdCluster) : SdCluster :=
  if cl.deleted then cl else { cl with children := cl.children.map f }

def answers (cl : SdCluster) : List Nat :=
  if cl.deleted then []
  else (List.range cl.children.length).filter fun i => cl.children[i]?.any SdChild.answers

end SdCluster

namespace Sd

/-- `servtab.size () == 0`. -/
def servtabEmpty (st : Sd) : Bool := st.clusters.all SdCluster.deleted

def modify (st : Sd) (c : Nat) (f : SdCluster → SdCluster) : Sd :=
  { st with clusters := st.clusters.modify c f }

/-- `shutdown_wait`, with the events that have been triggered. -/
def shutdownWait : List (Nat × Nat) → Sd → Sd
  | [], st => if st.servtabEmpty then { st with phase := .exited false } else st
  | (c, i) :: rv, st =>
    if st.servtabEmpty then { st with phase := .exited false }
    else shutdownWait rv (st.modify c (·.killed i))

/-- `kill_srvcs` on all children in `servtab`. -/
def killSrvcs (st : Sd) (f : SdChild → SdChild) : Sd :=
  { st with clusters := st.clusters.map (SdCluster.mapChildren f) }

def answers (st : Sd) : List (Nat × Nat) :=
  (List.range st.clusters.length).flatMap fun c =>
    (st.clusters[c]?.toList.flatMap SdCluster.answers).map (c, ·)

/-- A phase of `shutdown_T` begins. -/
def begin (st : Sd) (phase : SdPhase) : Sd :=
  shutdownWait st.answers { st.killSrvcs SdChild.shutdown with phase := phase }

def child? (st : Sd) (c i : Nat) : Option SdChild := st.clusters[c]?.bind (·.children[i]?)

def setChild (st : Sd) (c i : Nat) (ch : SdChild) : Sd :=
  st.modify c fun cl => { cl with children := cl.children.set i ch }

def step (st : Sd) : SdEvent → Option Sd
  | .shutdown => if st.phase = .running then some (st.begin .soft) else none
  | .timeout => match st.phase with
    | .soft => some (st.begin .hard)
    | .hard => some { st.killSrvcs SdChild.abort with phase := .exited true }
    | _ => none
  | .close c i => match st.phase with
    | .exited _ => none
    | _ => (st.child? c i).bind fun ch =>
      if ch.isOpen then
        let st := st.setChild c i { ch with isOpen := false, eofcb := false }
        some (if ch.eofcb then shutdownWait [(c, i)] st else st)
      else none
  | .chldEof c i => match st.phase with
    | .exited _ => none
    | phase => (st.child? c i).bind fun ch =>
      if !ch.isOpen && ch.clnt then
        some (st.setChild c i { ch with
          clnt := false
          state := if phase = .running then .crash else .none })
      else none

/-- Any clusters, with children that are connected or not. -/
def system : System Sd SdEvent where
  init st := st.phase = .running ∧ ∀ cl ∈ st.clusters, cl.nKilled = 0 ∧ cl.deleted = false ∧
    ∀ ch ∈ cl.children, ch.killed = 0 ∧ ch.eofcb = false ∧ (ch.isOpen = true → ch.clnt = true)
  step := step

structure Accounts (st : Sd) : Prop where
  once : ∀ cl ∈ st.clusters, ∀ ch ∈ cl.children, ch.killed ≤ 1
  deleted : ∀ cl ∈ st.clusters, cl.deleted = true → ∀ ch ∈ cl.children, ch.isOpen = false
  exited : st.phase = .exited false → ∀ cl ∈ st.clusters, ∀ ch ∈ cl.children, ch.isOpen = false

/-- When the time of the soft kill is up, all children of the clusters that are left are still
connected. -/
def Whole (st : Sd) : SdEvent → Prop
  | .timeout => st.phase = .soft → ∀ cl ∈ st.clusters, cl.deleted = false →
      ∀ ch ∈ cl.children, ch.isOpen = true
  | _ => True

/-- The children of a cluster have been counted, but for those in `todo`. -/
structure Counted (cl : SdCluster) (todo : Nat → Prop) : Prop where
  done : ∀ i ch, cl.children[i]? = some ch → ch.isOpen = false → ¬ todo i → ch.killed = 1
  fresh : ∀ i ch, cl.children[i]? = some ch → ch.isOpen = true ∨ todo i → ch.killed = 0
  nKilled : cl.nKilled = cl.children.countP (·.killed = 1)
  deleted : cl.deleted = true ↔ cl.nKilled = cl.children.length ∧ cl.children ≠ []
  waits : ∀ ch ∈ cl.children, ch.isOpen = true → ch.eofcb = true ∧ ch.clnt = true

section Counted

variable {cl : SdCluster} {st st' : Sd} {todo todo' : Nat → Prop}

theorem Counted.all_killed (h : Counted cl todo) (hd : cl.deleted = true) {ch : SdChild}
    (hch : ch ∈ cl.children) : ch.killed = 1 := by
  have hcount := h.nKilled
  rw [(h.deleted.mp hd).1] at hcount
  have := List.countP_eq_length.mp hcount.symm ch hch
  simpa using this

theorem Counted.closed (h : Counted cl todo) (hd : cl.deleted = true) {ch : SdChild}
    (hch : ch ∈ cl.children) : ch.isOpen = false := by
  obtain ⟨i, hi⟩ := List.mem_iff_getElem?.mp hch
  by_contra hopen
  have hfresh := h.fresh i ch hi (.inl (by simpa using hopen))
  rw [h.all_killed hd hch] at hfresh
  cases hfresh

theorem Counted.finish (h : Counted cl todo) (hd : cl.deleted = true) :
    Counted cl fun _ => False where
  done _ ch hi _ _ := h.all_killed hd (List.mem_of_getElem? hi)
  fresh i ch hi ho := by
    have hmem := List.mem_of_getElem? hi
    rw [h.closed hd hmem] at ho
    simp at ho
  nKilled := h.nKilled
  deleted := h.deleted
  waits := h.waits

theorem Counted.killed {i : Nat} {ch : SdChild} (h : Counted cl todo)
    (hi : cl.children[i]? = some ch)
    (hclosed : ch.isOpen = false) (htodo : todo i) (htodo' : ∀ j, todo' j ↔ todo j ∧ j ≠ i) :
    Counted (cl.killed i) todo' := by
  have hk : ch.killed = 0 := h.fresh i ch hi (.inr htodo)
  have hnd : cl.deleted = false := by
    by_contra hd
    have := h.all_killed (by simpa using hd) (List.mem_of_getElem? hi)
    omega
  obtain ⟨hlt, hch⟩ := List.getElem?_eq_some_iff.mp hi
  have hmod : (cl.children.modify i fun ch =>
      { ch with state := .killed, killed := ch.killed + 1 }) =
      cl.children.set i { ch with state := .killed, killed := 1 } := by
    refine List.ext_getElem? fun j => ?_
    rw [List.getElem?_modify, List.getElem?_set]
    split
    · next hij =>
      subst hij
      simp [hlt, hch, hk]
    · simp
  have hget (j : Nat) : (cl.children.set i { ch with state := .killed, killed := 1 })[j]? =
      if i = j then some { ch with state := .killed, killed := 1 } else cl.children[j]? := by
    rw [List.getElem?_set]
    split <;> rfl
  unfold SdCluster.killed
  simp only [hnd, Bool.false_eq_true, if_false, hmod]
  refine ⟨fun j d hj ho ht => ?_, fun j d hj ho => ?_, ?_, ?_, ?_⟩
  · rw [hget] at hj
    split at hj
    · cases hj; rfl
    · next hij =>
      refine h.done j d hj ho fun htj => ht ((htodo' j).mpr ⟨htj, Ne.symm hij⟩)
  · rw [hget] at hj
    split at hj
    · next hij =>
      subst hij
      cases hj
      obtain ho | ho := ho
      · cases hclosed.symm.trans ho
      · exact absurd rfl ((htodo' i).mp ho).2
    · exact h.fresh j d hj (ho.imp_right fun ht => ((htodo' j).mp ht).1)
  · rw [h.nKilled, List.countP_set hlt, hch]
    simp [hk]
  · have hne : cl.children ≠ [] := by
      rintro hnil
      simp [hnil] at hi
    simp [hne]
  · intro d hd ho
    obtain ⟨j, hj⟩ := List.mem_iff_getElem?.mp hd
    rw [hget] at hj
    split at hj
    · cases hj
      cases hclosed.symm.trans ho
    · exact h.waits d (List.mem_of_getElem? hj) ho

/-- All clusters, with the children in `rv` left to count. -/
def AllCounted (st : Sd) (rv : List (Nat × Nat)) : Prop :=
  ∀ c cl, st.clusters[c]? = some cl → Counted cl fun i => (c, i) ∈ rv

theorem AllCounted.nil_of_empty {rv : List (Nat × Nat)} (h : AllCounted st rv)
    (he : st.servtabEmpty = true) : AllCounted st [] := by
  intro c cl hc
  have hd : cl.deleted = true := List.all_eq_true.mp he cl (List.mem_of_getElem? hc)
  have hf := (h c cl hc).finish hd
  exact ⟨fun i ch hi ho _ => hf.done i ch hi ho id, fun i ch hi ho =>
    hf.fresh i ch hi (ho.imp_right nofun), hf.nKilled, hf.deleted, hf.waits⟩

theorem AllCounted.killed {c i : Nat} {ch : SdChild} {rv : List (Nat × Nat)}
    (h : AllCounted st ((c, i) :: rv)) (hnot : (c, i) ∉ rv) (hch : st.child? c i = some ch)
    (hclosed : ch.isOpen = false) : AllCounted (st.modify c (·.killed i)) rv := by
  intro d cl hd
  obtain ⟨cl₀, hc, hi⟩ := Option.bind_eq_some_iff.mp hch
  rw [Sd.modify, List.getElem?_modify] at hd
  obtain ⟨cl', hd', rfl⟩ := Option.map_eq_some_iff.mp hd
  have hcl := h d cl' hd'
  split
  · next hcd =>
    subst hcd
    cases hc.symm.trans hd'
    refine hcl.killed hi hclosed (.head _) fun j => ?_
    constructor
    · exact fun hj => ⟨.tail _ hj, fun hji => hnot (hji ▸ hj)⟩
    · rintro ⟨hj, hji⟩
      exact (List.mem_cons.mp hj).resolve_left fun he => hji (Prod.mk.inj he).2
  · next hcd =>
    have hiff (j : Nat) : (d, j) ∈ (c, i) :: rv ↔ (d, j) ∈ rv := by simp [Ne.symm hcd]
    simpa only [hiff] using hcl

theorem child?_killed {c i d j : Nat} (hne : (d, j) ≠ (c, i)) :
    (st.modify c (·.killed i)).child? d j = st.child? d j := by
  unfold child? Sd.modify
  rw [List.getElem?_modify]
  cases hd : st.clusters[d]? with
  | none => simp
  | some cl =>
    split
    · next hcd =>
      subst hcd
      have hij : i ≠ j := fun hij => hne (by rw [hij])
      cases hdel : cl.deleted <;> simp [SdCluster.killed, hdel, hij]
    · rfl

theorem shutdownWait_counted {rv : List (Nat × Nat)} (hrv : rv.Nodup)
    (hin : ∀ p ∈ rv, ∃ ch, st.child? p.1 p.2 = some ch ∧ ch.isOpen = false) (h : AllCounted st rv) :
    AllCounted (shutdownWait rv st) [] ∧ ((shutdownWait rv st).phase = st.phase ∨
      (shutdownWait rv st).phase = .exited false ∧ (shutdownWait rv st).servtabEmpty = true) := by
  induction rv generalizing st with
  | nil =>
    unfold shutdownWait
    split
    · next he => exact ⟨h, .inr ⟨rfl, he⟩⟩
    · exact ⟨h, .inl rfl⟩
  | cons p rv ih =>
    obtain ⟨c, i⟩ := p
    obtain ⟨hnot, hrv⟩ := List.nodup_cons.mp hrv
    obtain ⟨ch, hch, hclosed⟩ := hin (c, i) (.head _)
    unfold shutdownWait
    split
    · next he => exact ⟨h.nil_of_empty he, .inr ⟨rfl, he⟩⟩
    · refine ih hrv (fun q hq => ?_) (h.killed hnot hch hclosed)
      obtain ⟨d, hd, ho⟩ := hin q (.tail _ hq)
      have hne : q ≠ (c, i) := fun he => hnot (he ▸ hq)
      exact ⟨d, by rwa [child?_killed hne], ho⟩

theorem mem_answers {c i : Nat} : (c, i) ∈ st.answers ↔
    ∃ cl ch, st.clusters[c]? = some cl ∧ cl.deleted = false ∧ cl.children[i]? = some ch ∧
      ch.answers = true := by
  have hcl (cl : SdCluster) : i ∈ cl.answers ↔
      cl.deleted = false ∧ ∃ ch, cl.children[i]? = some ch ∧ ch.answers = true := by
    unfold SdCluster.answers
    split
    · next hd => simp [hd]
    · next hd =>
      simp only [List.mem_filter, List.mem_range, Option.any_eq_true]
      constructor
      · rintro ⟨-, h⟩
        exact ⟨by simpa using hd, h⟩
      · rintro ⟨-, ch, hi, h⟩
        exact ⟨(List.getElem?_eq_some_iff.mp hi).1, ch, hi, h⟩
  simp only [answers, List.mem_flatMap, List.mem_range, List.mem_map, Option.mem_toList]
  constructor
  · rintro ⟨d, -, j, ⟨cl, hd, hj⟩, he⟩
    cases he
    obtain ⟨hdel, ch, hi, ha⟩ := (hcl cl).mp hj
    exact ⟨cl, ch, hd, hdel, hi, ha⟩
  · rintro ⟨cl, ch, hc, hdel, hi, ha⟩
    exact ⟨c, (List.getElem?_eq_some_iff.mp hc).1, i,
      ⟨cl, hc, (hcl cl).mpr ⟨hdel, ch, hi, ha⟩⟩, rfl⟩

theorem nodup_answers (st : Sd) : st.answers.Nodup := by
  have hcl (cl : SdCluster) : cl.answers.Nodup := by
    unfold SdCluster.answers
    split
    · exact .nil
    · exact List.nodup_range.filter _
  refine List.nodup_flatMap.mpr ⟨fun c _ => ?_, ?_⟩
  · refine List.Nodup.map (fun _ _ h => (Prod.mk.inj h).2) ?_
    cases st.clusters[c]? with
    | none => exact .nil
    | some cl => simpa using hcl cl
  · refine List.nodup_range.imp fun {a b} hab => ?_
    intro p ha hb
    obtain ⟨i, -, rfl⟩ := List.mem_map.mp ha
    obtain ⟨j, -, hj⟩ := List.mem_map.mp hb
    exact hab (Prod.mk.inj hj).1.symm

structure Fresh (cl : SdCluster) : Prop where
  nKilled : cl.nKilled = 0
  deleted : cl.deleted = false
  children : ∀ ch ∈ cl.children, ch.killed = 0 ∧ ch.eofcb = false ∧
    (ch.isOpen = true → ch.clnt = true)

structure Inv (st : Sd) : Prop where
  fresh : st.phase = .running → ∀ cl ∈ st.clusters, Fresh cl
  counted : st.phase = .soft ∨ st.phase = .hard → AllCounted st []
  accounts : Accounts st

theorem AllCounted.accounts (h : AllCounted st [])
    (hph : st.phase = .exited false → st.servtabEmpty = true) : Accounts st := by
  have hget {cl : SdCluster} (hcl : cl ∈ st.clusters) :
      ∃ todo, Counted cl todo ∧ ∀ i, ¬ todo i := by
    obtain ⟨c, hc⟩ := List.mem_iff_getElem?.mp hcl
    exact ⟨_, h c cl hc, fun _ => List.not_mem_nil⟩
  refine ⟨fun cl hcl ch hch => ?_, fun cl hcl hd ch hch => ?_, fun hex cl hcl ch hch => ?_⟩
  · obtain ⟨todo, hc, hno⟩ := hget hcl
    obtain ⟨i, hi⟩ := List.mem_iff_getElem?.mp hch
    cases ho : ch.isOpen with
    | true => rw [hc.fresh i ch hi (.inl ho)]; exact Nat.zero_le 1
    | false => exact Nat.le_of_eq (hc.done i ch hi ho (hno i))
  · obtain ⟨todo, hc, -⟩ := hget hcl
    exact hc.closed hd hch
  · obtain ⟨todo, hc, -⟩ := hget hcl
    exact hc.closed (List.all_eq_true.mp (hph hex) cl hcl) hch

theorem Inv.wait {rv : List (Nat × Nat)} (hph : st.phase = .soft ∨ st.phase = .hard)
    (hrv : rv.Nodup)
    (hin : ∀ p ∈ rv, ∃ ch, st.child? p.1 p.2 = some ch ∧ ch.isOpen = false) (h : AllCounted st rv) :
    Inv (shutdownWait rv st) := by
  obtain ⟨hc, hphase⟩ := shutdownWait_counted hrv hin h
  refine ⟨fun hrun => ?_, fun _ => hc, hc.accounts fun hex => ?_⟩
  · obtain he | ⟨he, -⟩ := hphase
    · obtain hph | hph := hph <;> cases hrun.symm.trans (he.trans hph)
    · cases hrun.symm.trans he
  · obtain he | ⟨-, he⟩ := hphase
    · obtain hph | hph := hph <;> cases hex.symm.trans (he.trans hph)
    · exact he

theorem killSrvcs_get {f : SdChild → SdChild} {c : Nat} {cl' : SdCluster}
    (h : (st.killSrvcs f).clusters[c]? = some cl') :
      ∃ cl, st.clusters[c]? = some cl ∧ cl' = cl.mapChildren f := by
  simp only [killSrvcs, List.getElem?_map] at h
  obtain ⟨cl, hc, rfl⟩ := Option.map_eq_some_iff.mp h
  exact ⟨cl, hc, rfl⟩

theorem answers_closed
    (hopen : ∀ cl ∈ st.clusters, ∀ ch ∈ cl.children, ch.isOpen = true → ch.clnt = true)
    {p : Nat × Nat} (hp : p ∈ st.answers) :
    ∃ ch, (st.killSrvcs SdChild.shutdown).child? p.1 p.2 = some ch ∧ ch.isOpen = false := by
  obtain ⟨cl, ch, hc, hd, hi, ha⟩ := mem_answers.mp hp
  have hclosed : ch.isOpen = false := by
    by_contra ho
    have ho : ch.isOpen = true := by simpa using ho
    have hclnt := hopen cl (List.mem_of_getElem? hc) ch (List.mem_of_getElem? hi) ho
    simp [SdChild.answers, ho, hclnt] at ha
  refine ⟨ch.shutdown, ?_, ?_⟩
  · simp [child?, killSrvcs, hc, SdCluster.mapChildren, hd, hi]
  · unfold SdChild.shutdown
    split <;> exact hclosed

theorem Inv.begin_soft (hrun : ∀ cl ∈ st.clusters, Fresh cl) : Inv (st.begin .soft) := by
  refine Inv.wait (.inl rfl) (nodup_answers st)
    (fun p hp => answers_closed (fun cl hcl ch hch => ((hrun cl hcl).children ch hch).2.2) hp) ?_
  intro c cl' hc'
  obtain ⟨cl, hc, rfl⟩ := killSrvcs_get hc'
  have hf := hrun cl (List.mem_of_getElem? hc)
  have hmap : cl.mapChildren SdChild.shutdown =
      { cl with children := cl.children.map SdChild.shutdown } :=
    if_neg (by simp [hf.deleted])
  have hzero (ch : SdChild) (hch : ch ∈ cl.children) : ch.killed = 0 := (hf.children ch hch).1
  rw [hmap]
  refine ⟨fun i d hi ho ht => ?_, fun i d hi _ => ?_, ?_, ?_, fun d hd ho => ?_⟩
  · -- a child that has closed its connection is not forgotten
    obtain ⟨ch, hch, rfl⟩ := Option.map_eq_some_iff.mp ((List.getElem?_map ..).symm.trans hi)
    refine absurd (mem_answers.mpr ⟨cl, ch, hc, hf.deleted, hch, ?_⟩) ht
    rw [SdChild.shutdown_isOpen] at ho
    simp [SdChild.answers, ho]
  · obtain ⟨ch, hch, rfl⟩ := Option.map_eq_some_iff.mp ((List.getElem?_map ..).symm.trans hi)
    rw [SdChild.shutdown_killed]
    exact hzero ch (List.mem_of_getElem? hch)
  · rw [hf.nKilled]
    refine (List.countP_eq_zero.mpr fun d hd => ?_).symm
    obtain ⟨ch, hch, rfl⟩ := List.mem_map.mp hd
    simp [hzero ch hch]
  · simp only [hf.deleted, Bool.false_eq_true, false_iff, hf.nKilled, List.length_map, not_and,
      Decidable.not_not, List.map_eq_nil_iff]
    exact fun h => List.eq_nil_of_length_eq_zero h.symm
  · obtain ⟨ch, hch, rfl⟩ := List.mem_map.mp hd
    rw [SdChild.shutdown_isOpen] at ho
    exact SdChild.shutdown_waits ((hf.children ch hch).2.2 ho) ho

theorem Counted.mono (h : Counted cl todo) (hiff : ∀ i, todo' i ↔ todo i) : Counted cl todo' := by
  have : todo' = todo := funext fun i => propext (hiff i)
  rwa [this]

theorem Counted.map_shutdown (h : Counted cl todo) :
    Counted (cl.mapChildren SdChild.shutdown) todo := by
  unfold SdCluster.mapChildren
  split
  · exact h
  · refine ⟨fun i d hi ho ht => ?_, fun i d hi ho => ?_, ?_, ?_, fun d hd ho => ?_⟩
    · obtain ⟨ch, hch, rfl⟩ := Option.map_eq_some_iff.mp ((List.getElem?_map ..).symm.trans hi)
      rw [SdChild.shutdown_isOpen] at ho
      rw [SdChild.shutdown_killed]
      exact h.done i ch hch ho ht
    · obtain ⟨ch, hch, rfl⟩ := Option.map_eq_some_iff.mp ((List.getElem?_map ..).symm.trans hi)
      rw [SdChild.shutdown_isOpen] at ho
      rw [SdChild.shutdown_killed]
      exact h.fresh i ch hch ho
    · rw [List.countP_map, h.nKilled]
      simp [Function.comp_def]
    · simpa using h.deleted
    · obtain ⟨ch, hch, rfl⟩ := List.mem_map.mp hd
      rw [SdChild.shutdown_isOpen] at ho
      exact SdChild.shutdown_waits (h.waits ch hch ho).2 ho

theorem Inv.begin_hard (h : AllCounted st [])
    (hopen : ∀ cl ∈ st.clusters, cl.deleted = false → ∀ ch ∈ cl.children, ch.isOpen = true) :
    Inv (st.begin .hard) := by
  have hclnt (cl : SdCluster) (hcl : cl ∈ st.clusters) (ch : SdChild) (hch : ch ∈ cl.children)
      (ho : ch.isOpen = true) : ch.clnt = true := by
    obtain ⟨c, hc⟩ := List.mem_iff_getElem?.mp hcl
    exact ((h c cl hc).waits ch hch ho).2
  have hnone (p : Nat × Nat) : p ∉ st.answers := by
    intro hp
    obtain ⟨cl, ch, hc, hd, hi, ha⟩ := mem_answers.mp hp
    have hcl := List.mem_of_getElem? hc
    have hch := List.mem_of_getElem? hi
    have ho := hopen cl hcl hd ch hch
    simp [SdChild.answers, ho, hclnt cl hcl ch hch ho] at ha
  refine Inv.wait (.inr rfl) (nodup_answers st) (fun p hp => absurd hp (hnone p)) ?_
  intro c cl' hc'
  obtain ⟨cl, hc, rfl⟩ := killSrvcs_get hc'
  exact (h c cl hc).map_shutdown.mono fun i => by simp [hnone]

theorem Counted.set {i : Nat} {ch ch' : SdChild} (h : Counted cl todo)
    (hi : cl.children[i]? = some ch) (hk : ch'.killed = ch.killed) (hclosed : ch'.isOpen = false)
    (htodo' : ∀ j, todo' j ↔ todo j ∨ ch.isOpen = true ∧ j = i) :
    Counted { cl with children := cl.children.set i ch' } todo' := by
  obtain ⟨hlt, hch⟩ := List.getElem?_eq_some_iff.mp hi
  have hget (j : Nat) : (cl.children.set i ch')[j]? = if i = j then some ch'
      else cl.children[j]? := by
    rw [List.getElem?_set]
    split <;> simp_all
  refine ⟨fun j d hj ho ht => ?_, fun j d hj ho => ?_, ?_, ?_, fun d hd ho => ?_⟩
  · dsimp only at hj
    rw [hget] at hj
    rw [htodo', not_or] at ht
    split at hj
    · next hij =>
      subst hij
      cases hj
      rw [hk]
      exact h.done i ch hi (by simpa using ht.2) ht.1
    · exact h.done j d hj ho ht.1
  · dsimp only at hj
    rw [hget] at hj
    rw [htodo'] at ho
    split at hj
    · next hij =>
      subst hij
      cases hj
      rw [hk]
      refine h.fresh i ch hi ?_
      simpa [hclosed, or_comm] using ho
    · next hij =>
      refine h.fresh j d hj (ho.imp_right fun ho => ho.resolve_right fun ho => hij ho.2.symm)
  · rw [List.countP_set hlt, hch, hk, h.nKilled]
    split
    · next hone =>
      have hpos : 0 < cl.children.countP (·.killed = 1) :=
        List.countP_pos_iff.mpr ⟨ch, List.mem_of_getElem? hi, hone⟩
      omega
    · rfl
  · simpa using h.deleted
  · obtain ⟨j, hj⟩ := List.mem_iff_getElem?.mp hd
    dsimp only at hj
    rw [hget] at hj
    split at hj
    · cases hj
      cases hclosed.symm.trans ho
    · exact h.waits d (List.mem_of_getElem? hj) ho

variable {c i : Nat} {ch ch' : SdChild}

variable (ch') in
theorem AllCounted.setChild (h : AllCounted st []) (hch : st.child? c i = some ch)
    (hk : ch'.killed = ch.killed) (hclosed : ch'.isOpen = false) :
    AllCounted (st.setChild c i ch') (if ch.isOpen then [(c, i)] else []) := by
  intro d cl hd
  obtain ⟨cl₀, hc, hi⟩ := Option.bind_eq_some_iff.mp hch
  rw [Sd.setChild, Sd.modify, List.getElem?_modify] at hd
  obtain ⟨cl', hd', rfl⟩ := Option.map_eq_some_iff.mp hd
  split
  · next hcd =>
    subst hcd
    cases hc.symm.trans hd'
    refine (h c cl₀ hc).set hi hk hclosed fun j => ?_
    cases ch.isOpen <;> simp
  · next hcd =>
    refine (h d cl' hd').mono fun j => ?_
    cases ch.isOpen <;> simp [Ne.symm hcd]

theorem child?_setChild (hch : st.child? c i = some ch) :
    (st.setChild c i ch').child? c i = some ch' := by
  obtain ⟨cl, hc, hi⟩ := Option.bind_eq_some_iff.mp hch
  obtain ⟨hlt, -⟩ := List.getElem?_eq_some_iff.mp hi
  simp [child?, Sd.setChild, Sd.modify, hc, hlt]

theorem mem_setChild {cl : SdCluster} (hch : st.child? c i = some ch)
    (hcl : cl ∈ (st.setChild c i ch').clusters) :
    cl ∈ st.clusters ∨ ∃ cl₀ ∈ st.clusters, ch ∈ cl₀.children ∧ cl =
      { cl₀ with children := cl₀.children.set i ch' } := by
  obtain ⟨d, hd⟩ := List.mem_iff_getElem?.mp hcl
  obtain ⟨cl₀, hc, hi⟩ := Option.bind_eq_some_iff.mp hch
  rw [Sd.setChild, Sd.modify, List.getElem?_modify] at hd
  obtain ⟨cl', hd', rfl⟩ := Option.map_eq_some_iff.mp hd
  split
  · next hcd =>
    subst hcd
    cases hc.symm.trans hd'
    exact .inr ⟨cl₀, List.mem_of_getElem? hc, List.mem_of_getElem? hi, rfl⟩
  · exact .inl (List.mem_of_getElem? hd')

theorem Fresh.setChild (hrun : ∀ cl ∈ st.clusters, Fresh cl) (hch : st.child? c i = some ch)
    (hk : ch'.killed = ch.killed) (he : ch'.eofcb = false) (hclosed : ch'.isOpen = false) :
    ∀ cl ∈ (st.setChild c i ch').clusters, Fresh cl := by
  intro cl hcl
  obtain hcl | ⟨cl₀, hcl₀, hmem, rfl⟩ := mem_setChild hch hcl
  · exact hrun cl hcl
  · have hf := hrun cl₀ hcl₀
    refine ⟨hf.nKilled, hf.deleted, fun d hd => ?_⟩
    obtain hd | rfl := List.mem_or_eq_of_mem_set hd
    · exact hf.children d hd
    · exact ⟨hk.trans (hf.children ch hmem).1, he, fun ho => by cases hclosed.symm.trans ho⟩

theorem Fresh.accounts (hrun : ∀ cl ∈ st.clusters, Fresh cl) (hph : st.phase = .running) :
    Accounts st where
  once cl hcl ch hch := by
    rw [((hrun cl hcl).children ch hch).1]
    exact Nat.zero_le 1
  deleted cl hcl hd := by cases (hrun cl hcl).deleted.symm.trans hd
  exited hex := by cases hph.symm.trans hex

theorem Inv.of_fresh (hrun : ∀ cl ∈ st.clusters, Fresh cl) (hph : st.phase = .running) :
    Inv st where
  fresh _ := hrun
  counted h := by obtain h | h := h <;> cases hph.symm.trans h
  accounts := Fresh.accounts hrun hph

theorem Inv.close (h : Inv st) (hch : st.child? c i = some ch) (ho : ch.isOpen = true)
    (hph : ∀ b, st.phase ≠ .exited b) :
    Inv (if ch.eofcb then shutdownWait [(c, i)]
      (st.setChild c i { ch with isOpen := false, eofcb := false })
      else st.setChild c i { ch with isOpen := false, eofcb := false }) := by
  obtain ⟨cl, hc, hi⟩ := Option.bind_eq_some_iff.mp hch
  have hcl := List.mem_of_getElem? hc
  have hmem := List.mem_of_getElem? hi
  cases hphase : st.phase with
  | running =>
    have hrun := h.fresh hphase
    rw [if_neg (by simp [((hrun cl hcl).children ch hmem).2.1])]
    exact .of_fresh (Fresh.setChild hrun hch rfl rfl rfl) hphase
  | exited b => exact absurd hphase (hph b)
  | soft | hard =>
    have hall := h.counted (by simp [hphase])
    rw [if_pos ((hall c cl hc).waits ch hmem ho).1]
    have hset : AllCounted (st.setChild c i { ch with isOpen := false, eofcb := false })
        [(c, i)] := by
      have hset := hall.setChild { ch with isOpen := false, eofcb := false } hch rfl rfl
      rwa [if_pos ho] at hset
    refine .wait (by simp [Sd.setChild, Sd.modify, hphase]) (List.nodup_singleton _)
      (fun p hp => ?_) hset
    obtain rfl := List.mem_singleton.mp hp
    exact ⟨_, child?_setChild hch, rfl⟩

theorem Inv.chldEof (h : Inv st) (hch : st.child? c i = some ch) (ho : ch.isOpen = false)
    (hph : ∀ b, st.phase ≠ .exited b) (q : OkcState) :
    Inv (st.setChild c i { ch with clnt := false, state := q }) := by
  obtain ⟨cl, hc, hi⟩ := Option.bind_eq_some_iff.mp hch
  cases hphase : st.phase with
  | running =>
    have hrun := h.fresh hphase
    have hf := (hrun cl (List.mem_of_getElem? hc)).children ch (List.mem_of_getElem? hi)
    exact .of_fresh (Fresh.setChild hrun hch rfl hf.2.1 ho) hphase
  | exited b => exact absurd hphase (hph b)
  | soft | hard =>
    have hall := h.counted (by simp [hphase])
    have hset : AllCounted (st.setChild c i { ch with clnt := false, state := q }) [] := by
      have hset := hall.setChild { ch with clnt := false, state := q } hch rfl ho
      rwa [if_neg (by simp [ho])] at hset
    refine ⟨fun hrun => ?_, fun _ => hset, hset.accounts fun hex => ?_⟩
    · cases hphase.symm.trans hrun
    · cases hphase.symm.trans hex

theorem Accounts.abort (h : Accounts st) :
    Accounts { st.killSrvcs SdChild.abort with phase := .exited true } := by
  have hget {cl' : SdCluster} (hcl : cl' ∈ (st.killSrvcs SdChild.abort).clusters) :
      ∃ cl ∈ st.clusters, cl'.deleted = cl.deleted ∧
        ∀ ch' ∈ cl'.children, ∃ ch ∈ cl.children, ch'.killed = ch.killed ∧ ch'.isOpen =
          ch.isOpen := by
    obtain ⟨cl, hmem, rfl⟩ := List.mem_map.mp hcl
    refine ⟨cl, hmem, ?_⟩
    unfold SdCluster.mapChildren
    split
    · exact ⟨rfl, fun ch hch => ⟨ch, hch, rfl, rfl⟩⟩
    · refine ⟨rfl, fun ch' hch' => ?_⟩
      obtain ⟨ch, hch, rfl⟩ := List.mem_map.mp hch'
      exact ⟨ch, hch, SdChild.abort_killed ch, SdChild.abort_isOpen ch⟩
  refine ⟨fun cl' hcl' ch' hch' => ?_, fun cl' hcl' hd ch' hch' => ?_, nofun⟩
  · obtain ⟨cl, hcl, -, hget⟩ := hget hcl'
    obtain ⟨ch, hch, hk, -⟩ := hget ch' hch'
    rw [hk]
    exact h.once cl hcl ch hch
  · obtain ⟨cl, hcl, hdel, hget⟩ := hget hcl'
    obtain ⟨ch, hch, -, ho⟩ := hget ch' hch'
    rw [ho]
    exact h.deleted cl hcl (hdel ▸ hd) ch hch

theorem step_inv {e : SdEvent} (h : Inv st) (hw : Whole st e) (hs : st.step e = some st') :
    Inv st' := by
  cases e with
  | shutdown =>
    simp only [step] at hs
    split at hs <;> cases hs
    next hph => exact .begin_soft (h.fresh hph)
  | timeout =>
    simp only [step] at hs
    split at hs <;> cases hs
    · next hph => exact .begin_hard (h.counted (.inl hph)) (hw hph)
    · exact ⟨nofun, by simp, h.accounts.abort⟩
  | close c i =>
    simp only [step] at hs
    split at hs
    · cases hs
    · next hph =>
      obtain ⟨ch, hch, hs⟩ := Option.bind_eq_some_iff.mp hs
      split at hs <;> cases hs
      next ho => exact h.close hch ho hph
  | chldEof c i =>
    simp only [step] at hs
    split at hs
    · cases hs
    · next hph =>
      obtain ⟨ch, hch, hs⟩ := Option.bind_eq_some_iff.mp hs
      split at hs <;> cases hs
      next ho =>
        simp only [Bool.and_eq_true, Bool.not_eq_true'] at ho
        exact h.chldEof hch ho.1 hph _

end Counted

theorem accounts_of_whole {st : Sd} (h : system.Reach Whole st) : Accounts st := by
  refine (h.invariant (I := Inv) ?_ fun _ _ _ _ hi hw hs => step_inv hi hw hs).accounts
  rintro s ⟨hph, hcl⟩
  exact .of_fresh (fun cl h => ⟨(hcl cl h).1, (hcl cl h).2.1, (hcl cl h).2.2⟩) hph

/-- Two children in one cluster, of which one is dead from the beginning. -/
def oneDead : Sd where
  clusters := [{ children :=
    [{ isOpen := false, clnt := false }, { isOpen := true, clnt := true }] }]

theorem oneDead_init : system.init oneDead := by
  refine ⟨rfl, fun cl hcl => ?_⟩
  obtain rfl := List.mem_singleton.mp hcl
  decide

/-- The other one answers in time. -/
theorem accounts_in_time :
    ∃ st, system.Reach Whole st ∧ st.phase = .exited false ∧ Accounts st := by
  have h₀ : system.Reach Whole oneDead := .init oneDead_init
  have h₁ := h₀.step (show Whole _ .shutdown from trivial) rfl
  have h₂ := h₁.step (show Whole _ (.close 0 1) from trivial) rfl
  exact ⟨_, h₂, rfl, accounts_of_whole h₂⟩

/-- The other one hangs: the dead one is counted twice, and `okd` exits without aborting it. -/
theorem not_accounts_hung : ∃ st, system.Reachable st ∧ ¬ Accounts st := by
  have h : ∃ st, system.exec oneDead [.shutdown, .timeout] = some st ∧ st.phase = .exited false ∧
      ∃ cl ∈ st.clusters, ∃ ch ∈ cl.children, ch.isOpen = true := by
    refine ⟨_, rfl, rfl, ?_⟩
    decide
  obtain ⟨st, hst, hph, cl, hcl, ch, hch, ho⟩ := h
  refine ⟨st, System.reachable_exec _ oneDead_init hst, fun ha => ?_⟩
  cases (ha.exited hph cl hcl ch hch).symm.trans ho

end Sd

end Okws
