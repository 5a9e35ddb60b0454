import Okws.Clone
import Okws.Proxy

namespace Okws

/-- `okc_state_t`. -/
inductive OkcState
  | none | launch | serve | hosed | crash | delay | launchSeq1 | launchSeq2 | killing | tooBusy
  | standby | badports | killed
  deriving DecidableEq

/-- `okch_t::status_t`. -/
inductive ChildStatus
  | ok | mightWork | busyLoop | crashed | standby
  deriving DecidableEq

/-- `okd_chldmode_t`. -/
inductive ChildMode
  | sourceHash | rr | sourceHashHeader | sslOrdinal | last
  deriving DecidableEq

structure OkdConfig where
  sendconTimeBudget : Nat
  svcFdQuota : Nat
  conQueueMax : Nat
  emergKillEnabled : Bool
  emergKillWait : Nat
  childMode : ChildMode
  okAllowedProxy : CidrFilter
  /-- The hash of the text of an address. -/
  hash : UInt32 → Nat

/-- The members of `okch_t` that decide about its status.  `ctlx` comes and goes together with
`clnt`, and its value is that of `ateof`; the nodes of `dispatchTimes` are named by their
connections. -/
structure Child where
  state : OkcState
  ctlx : Option Bool := none
  tooBusy : Bool := false
  nfdInXit : Int := 0
  dispatchTimes : List (Nat × Nat) := []
  emergStart : Nat := 0
  emergKilled : Bool := false
  deriving DecidableEq

structure DemuxData where
  port : Nat
  ssl : Bool
  sslOrdinal : Int
  deriving DecidableEq

/-- `ahttpcon_wrapper_t`, with the address of the peer for the connection. -/
structure Acw where
  sin : Option UInt32
  demuxData : Option DemuxData
  deriving DecidableEq

/-- The results of `find_best_fit_child`, and its `ret_status`. -/
structure Fit where
  ret : Option Nat := none
  retStatus : ChildStatus := .crashed
  status : ChildStatus := .crashed
  deriving DecidableEq

namespace Child

variable (cfg : OkdConfig)

def oldest (now : Nat) (ch : Child) : Nat := match ch.dispatchTimes with
  | [] => 0
  | (_, time) :: _ => now - time

def sendconTimeout (now : Nat) (ch : Child) : Bool :=
  cfg.sendconTimeBudget ≠ 0 && cfg.sendconTimeBudget < oldest now ch

def getStatus (now : Nat) (ch : Child) : ChildStatus :=
  if ch.state = .standby then .standby
  else if ch.state = .hosed then .crashed
  else if ch.ctlx ≠ some false ∨ ch.state ≠ .serve then .mightWork
  else if ch.tooBusy then .busyLoop
  else if sendconTimeout cfg now ch then .busyLoop
  else if cfg.svcFdQuota ≠ 0 ∧ (cfg.svcFdQuota : Int) < ch.nfdInXit then .busyLoop
  else .ok

/-- `handle_overload`, of the child and of `okd`. -/
def handleOverload (now : Nat) (ch : Child) : Child :=
  if ch.emergStart = 0 then { ch with emergStart := now }
  else if ch.emergStart < now ∧ cfg.emergKillEnabled ∧ cfg.emergKillWait < now - ch.emergStart then
    { ch with emergStart := 0, emergKilled := true }
  else ch

def chldEof (ch : Child) : Child := { ch with ctlx := .none, state := .crash }

theorem getStatus_handleOverload (now : Nat) (ch : Child) :
    getStatus cfg now (handleOverload cfg now ch) = getStatus cfg now ch := by
  unfold handleOverload
  split_ifs <;> rfl

end Child

namespace Cluster

variable (cfg : OkdConfig)

def sourceHashIpOnly (acw : Acw) : Nat := cfg.hash (acw.sin.getD 0)

/-- The child `find_best_fit_child` tries first, as a `size_t`. -/
def firstId (n rand : Nat) (acw : Acw) (pref : Int) (dres : Option DelimitRes) : Option Nat :=
  if 0 ≤ pref ∧ pref.toNat < n then some pref.toNat
  else if n = 1 then some 0
  else if 1 < n then match cfg.childMode with
    | .rr => some (rand % n)
    | .sourceHash => some (sourceHashIpOnly cfg acw % n)
    | .sourceHashHeader =>
      match dres with
      | some d =>
        if isInternal cfg.okAllowedProxy acw.sin d.headers true ∧ getForwardedIp d.headers ≠ 0 then
          some ((getForwardedIp d.headers).toNat % n)
        else some (sourceHashIpOnly cfg acw % n)
      | none => some (sourceHashIpOnly cfg acw % n)
    | .sslOrdinal =>
      let id := ((acw.demuxData.map DemuxData.sslOrdinal).getD 0 % 2 ^ 64).toNat
      some (if id = 0 then sourceHashIpOnly cfg acw % n else id - 1)
    | .last => none
  else none

/-- The loop of `find_best_fit_child`, with the tries that are left. -/
def tryChildren (now : Nat) : Nat → Nat → Fit → List Child → Fit × List Child
  | 0, _, f, chs => (f, chs)
  | tries + 1, id, f, chs =>
    if f.retStatus = .ok then (f, chs)
    else
      let id' := (id + 1) % 2 ^ 64
      match chs[id % chs.length]? with
      | none => tryChildren now tries id' f chs
      | some ch =>
        let f := { f with status := ch.getStatus cfg now }
        if f.status = .crashed then tryChildren now tries id' f chs
        else if f.status = .busyLoop then
          tryChildren now tries id' f (chs.set (id % chs.length) (ch.handleOverload cfg now))
        else if f.ret = none ∨ (f.retStatus ≠ .ok ∧ f.status = .ok) then
          tryChildren now tries id'
            { f with ret := some (id % chs.length), retStatus := f.status } chs
        else tryChildren now tries id' f chs

def findBestFitChild (now rand : Nat) (chs : List Child) (acw : Acw) (pref : Int)
    (dres : Option DelimitRes) : Fit × List Child :=
  match firstId cfg chs.length rand acw pref dres with
  | some id => tryChildren cfg now chs.length id {} chs
  | none => ({}, chs)

def statuses (now : Nat) (chs : List Child) : List ChildStatus := chs.map (Child.getStatus cfg now)

section Fit

variable {cfg} {now tries id : Nat} {f : Fit} {chs : List Child}

theorem statuses_set {i : Nat} {ch : Child} (h : chs[i]? = some ch) :
    statuses cfg now (chs.set i (ch.handleOverload cfg now)) = statuses cfg now chs := by
  unfold statuses
  rw [List.map_set, Child.getStatus_handleOverload]
  refine List.ext_getElem? fun j => ?_
  rw [List.getElem?_set]
  split
  · next hij =>
    subst hij
    obtain ⟨hi, rfl⟩ := List.getElem?_eq_some_iff.mp h
    simp [hi]
  · rfl

variable (cfg now) in
theorem statuses_getElem? {i : Nat} {ch : Child} (h : chs[i]? = some ch) :
    (statuses cfg now chs)[i]? = some (ch.getStatus cfg now) := by
  simp [statuses, h]

/-- The loop has found a child if and only if the last one it tried is ready. -/
structure Fit.Good (ss : List ChildStatus) (f : Fit) : Prop where
  status : f.status = .ok ↔ f.retStatus = .ok
  ret : f.retStatus = .ok → ∃ i, f.ret = some i ∧ ss[i]? = some .ok

theorem Fit.good_start (ss : List ChildStatus) : Fit.Good ss {} := ⟨by simp, by simp⟩

variable (tries id) in
theorem tryChildren_succ (hf : Fit.Good (statuses cfg now chs) f) (hok : f.retStatus ≠ .ok) :
    ∃ f' chs', statuses cfg now chs' = statuses cfg now chs ∧ Fit.Good (statuses cfg now chs) f' ∧
      (f'.retStatus ≠ .ok → (statuses cfg now chs)[id % chs.length]? ≠ some .ok) ∧
      tryChildren cfg now (tries + 1) id f chs =
        tryChildren cfg now tries ((id + 1) % 2 ^ 64) f' chs' := by
  simp only [tryChildren, if_neg hok]
  cases hch : chs[id % chs.length]? with
  | none =>
    refine ⟨f, chs, rfl, hf, fun _ => ?_, rfl⟩
    simp [statuses, hch]
  | some ch =>
    have hss := statuses_getElem? cfg now hch
    dsimp only
    split_ifs with hc hb hr
    · refine ⟨{ f with status := ch.getStatus cfg now }, chs, rfl,
        ⟨by simp [hc, hok], hf.ret⟩, ?_, rfl⟩
      simp [hss, hc]
    · refine ⟨{ f with status := ch.getStatus cfg now }, _, statuses_set hch,
        ⟨by simp [hb, hok], hf.ret⟩, ?_, rfl⟩
      simp [hss, hb]
    · refine ⟨_, chs, rfl, ⟨Iff.rfl, fun h => ⟨_, rfl, ?_⟩⟩, fun h => ?_, rfl⟩
      · exact hss.trans (congrArg some h)
      · rw [hss]
        simpa using h
    · have hne : ch.getStatus cfg now ≠ .ok := fun h => hr (.inr ⟨hok, h⟩)
      refine ⟨{ f with status := ch.getStatus cfg now }, chs, rfl,
        ⟨by simp [hne, hok], hf.ret⟩, ?_, rfl⟩
      simp [hss, hne]

theorem tryChildren_ok (tries id : Nat) (chs : List Child) (h : f.retStatus = .ok) :
    tryChildren cfg now tries id f chs = (f, chs) := by
  cases tries with
  | zero => rfl
  | succ tries => exact if_pos h

theorem tryChildren_good (hf : Fit.Good (statuses cfg now chs) f) :
    statuses cfg now (tryChildren cfg now tries id f chs).2 = statuses cfg now chs ∧
      Fit.Good (statuses cfg now chs) (tryChildren cfg now tries id f chs).1 := by
  induction tries generalizing id f chs with
  | zero => exact ⟨rfl, hf⟩
  | succ tries ih =>
    by_cases hok : f.retStatus = .ok
    · rw [tryChildren_ok _ _ _ hok]
      exact ⟨rfl, hf⟩
    · obtain ⟨f', chs', hss, hf', -, heq⟩ := tryChildren_succ tries id hf hok
      rw [heq, ← hss]
      exact ih (hss ▸ hf')

theorem tryChildren_seen (hf : Fit.Good (statuses cfg now chs) f) (hid : id + tries ≤ 2 ^ 64)
    (h : (tryChildren cfg now tries id f chs).1.retStatus ≠ .ok) {j : Nat} (hj : j < tries) :
    (statuses cfg now chs)[(id + j) % chs.length]? ≠ some .ok := by
  induction tries generalizing id f chs j with
  | zero => omega
  | succ tries ih =>
    have hok : f.retStatus ≠ .ok := fun hok => by
      rw [tryChildren_ok _ _ _ hok] at h
      exact h hok
    obtain ⟨f', chs', hss, hf', hfst, heq⟩ := tryChildren_succ tries id hf hok
    have hlen : chs'.length = chs.length := by simpa [statuses] using congrArg List.length hss
    rw [heq] at h
    cases j with
    | zero =>
      refine hfst fun hok' => h ?_
      rw [tryChildren_ok _ _ _ hok']
      exact hok'
    | succ j =>
      have hlt : id + 1 < 2 ^ 64 := by omega
      rw [Nat.mod_eq_of_lt hlt] at h
      have hrec := ih (hss ▸ hf') (by omega) h (show j < tries by omega)
      rwa [hss, hlen, Nat.add_right_comm, Nat.add_assoc] at hrec

variable {rand : Nat} {acw : Acw} {pref : Int} {dres : Option DelimitRes}

variable (cfg now rand chs acw pref dres) in
theorem findBestFitChild_good :
    statuses cfg now (findBestFitChild cfg now rand chs acw pref dres).2 = statuses cfg now chs ∧
      Fit.Good (statuses cfg now chs) (findBestFitChild cfg now rand chs acw pref dres).1 := by
  unfold findBestFitChild
  split
  · exact tryChildren_good (Fit.good_start _)
  · exact ⟨rfl, Fit.good_start _⟩

theorem exists_try {n i : Nat} (id : Nat) (hi : i < n) : ∃ j < n, (id + j) % n = i := by
  refine ⟨(i + (n - id % n)) % n, Nat.mod_lt _ (by omega), ?_⟩
  have hr : id % n < n := Nat.mod_lt _ (by omega)
  have hsum : id + (i + (n - id % n)) = i + n * (id / n + 1) := by
    have hdiv := Nat.div_add_mod id n
    rw [Nat.mul_add]
    omega
  rw [Nat.add_mod_mod, hsum, Nat.add_mul_mod_self_left, Nat.mod_eq_of_lt hi]

theorem findBestFitChild_none {id : Nat} (hid : firstId cfg chs.length rand acw pref dres = some id)
    (hlt : id + chs.length ≤ 2 ^ 64)
    (h : (findBestFitChild cfg now rand chs acw pref dres).1.status ≠ .ok) :
    .ok ∉ statuses cfg now chs := by
  intro hmem
  obtain ⟨i, hi, hget⟩ := List.getElem_of_mem hmem
  have hin : i < chs.length := by simpa [statuses] using hi
  rw [Ne, (findBestFitChild_good cfg now chs rand acw pref dres).2.status] at h
  simp only [findBestFitChild, hid] at h
  obtain ⟨j, hj, hij⟩ := exists_try id hin
  have hseen := tryChildren_seen (Fit.good_start _) hlt h hj
  rw [hij, List.getElem?_eq_getElem hi, hget] at hseen
  exact hseen rfl

end Fit

end Cluster

end Okws
