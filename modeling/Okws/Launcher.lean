import Okws.Lib.Transition
import Okws.Child

/-! `okld_ch_t`, what the launcher knows of a child: its launch in four steps, its death, and its
resurrection. -/

namespace Okws

open Lib

structure LdConfig where
  safeStartup : Bool
  willJail : Bool
  chldStartupTime : Nat
  crashesMax : Nat
  /-- The crash sampling interval. -/
  csi : Nat

/-- Who waits for `launch`. -/
inductive LaunchCaller
  | startup | onDemand | resurrect
  deriving DecidableEq

/-- What `launch` waits for. -/
inductive LaunchStage
  | helperFds | bindPorts | register
  deriving DecidableEq

structure Launch where
  caller : LaunchCaller
  stage : LaunchStage
  deriving DecidableEq

/-- How `spawn_proc` ends, and whether `post_spawn` finds `okd` connected. -/
inductive SpawnRes
  | failed | noCli | sent
  deriving DecidableEq

/-- `procs` are the processes of the child whose death has not been reported, and `delays` the
callbacks of `chldcb_T` that wait.  The value of `lazyLock` is the number of calls that wait for
the lock.  Times are in nanoseconds. -/
structure LdChild where
  state : OkcState
  pid : Option Nat := none
  procs : List Nat := []
  launches : List Launch := []
  delays : Nat := 0
  lazyLock : Option Nat := none
  answers : List Bool := []
  timevals : List Nat := []
  startupTime : Nat := 0
  now : Nat := 0
  sdflag : Bool := false
  launched : Bool := false
  next : Nat := 0
  deriving DecidableEq

inductive LdEvent
  /-- `okld_ch_cluster_t::launch`, which is called once. -/
  | launch
  /-- `lazy_startup`. -/
  | lazyStartup
  | helperFds (k : Nat) (ok : Bool)
  | bound (k : Nat) (ok : Bool) (spawn : SpawnRes)
  | registered (k : Nat) (ok : Bool)
  | died (pid : Nat) (status fixExec : Bool)
  | delayOver (fixExec : Bool)
  | shutdown
  | tick (dt : Nat)

namespace LdChild

variable (cfg : LdConfig)

def timenow (c : LdChild) : Nat := c.now / 10 ^ 9

/-- The beginning of `launch`. -/
def launch (c : LdChild) (caller : LaunchCaller) : LdChild :=
  { c with
    state := .launch
    startupTime := if c.startupTime = 0 then c.timenow else c.startupTime
    launches := c.launches ++ [⟨caller, .helperFds⟩] }

/-- `lazy_startup` for those who get the lock, one after the other. -/
def lazyTurns : Nat → LdChild → LdChild
  | 0, c => { c with lazyLock := none }
  | k + 1, c =>
    if c.state = .serve then lazyTurns k { c with answers := c.answers ++ [true] }
    else if c.state = .standby then { c.launch .onDemand with lazyLock := some k }
    else lazyTurns k { c with answers := c.answers ++ [false] }

def lazyStartup (c : LdChild) : LdChild := match c.lazyLock with
  | some k => { c with lazyLock := some (k + 1) }
  | none => c.lazyTurns 1

/-- The end of a launch in state `q`, and of the `lazy_startup` that waits for it. -/
def launchDone (c : LdChild) (k : Nat) (l : Launch) (q : OkcState) : LdChild :=
  let c := { c with state := q, launches := c.launches.eraseIdx k }
  if l.caller = .onDemand then
    lazyTurns (c.lazyLock.getD 0) { c with answers := c.answers ++ [decide (q = .serve)] }
  else c

def toStage (c : LdChild) (k : Nat) (l : Launch) (stage : LaunchStage) : LdChild :=
  { c with launches := c.launches.set k { l with stage := stage } }

/-- `spawn_proc` makes a process. -/
def spawned (c : LdChild) : LdChild :=
  { c with pid := some c.next, procs := c.procs ++ [c.next], next := c.next + 1 }

/-- `launch`, when the ports are bound. -/
def spawnProc (c : LdChild) (k : Nat) (l : Launch) : SpawnRes → LdChild
  | .failed => { c with pid := none }.launchDone k l .hosed
  | .noCli => c.spawned.launchDone k l .hosed
  | .sent => c.spawned.toStage k l .register

/-- The seconds that are between the two times are an `int`. -/
def secdiff (tv0 tv1 : Nat) (diff : Nat) : Bool :=
  let sd := ((tv1 / 10 ^ 9 : Nat) - (tv0 / 10 ^ 9 : Nat) : Int).bmod (2 ^ 32)
  decide (diff < sd ∨ sd = diff ∧ tv0 % 10 ^ 9 < tv1 % 10 ^ 9)

def resurrect (c : LdChild) (fixExec : Bool) : LdChild :=
  if c.state = .launch then c
  else
    let c := { c with timevals := c.timevals.dropWhile (secdiff · c.now cfg.csi) ++ [c.now] }
    if cfg.crashesMax < c.timevals.length then { c with state := .hosed }
    else if cfg.willJail && !fixExec then { c with state := .hosed }
    else c.launch .resurrect

/-- `chldcb_T`, up to its delay. -/
def chldcb (c : LdChild) (status fixExec : Bool) : LdChild :=
  if c.sdflag then c
  else if c.state ≠ .serve then { c with state := .hosed }
  else if cfg.safeStartup ∧ c.timenow - c.startupTime < cfg.chldStartupTime then
    { c with state := .hosed }
  else if status ∨ cfg.crashesMax / 2 + 2 < c.timevals.length then
    { c with state := .delay, delays := c.delays + 1 }
  else c.resurrect cfg fixExec

/-- An answer to the launch `k`, which waits in `stage`. -/
def onLaunch (c : LdChild) (k : Nat) (stage : LaunchStage)
    (f : Launch → LdChild) : Option LdChild :=
  c.launches[k]?.bind fun l => if l.stage = stage then some (f l) else none

def step (c : LdChild) : LdEvent → Option LdChild
  | .launch => if c.launched then none else some ({ c with launched := true }.launch .startup)
  | .lazyStartup => if c.sdflag then none else some c.lazyStartup
  | .helperFds k ok => c.onLaunch k .helperFds fun l =>
    if ok then c.toStage k l .bindPorts else c.launchDone k l .hosed
  | .bound k ok spawn => c.onLaunch k .bindPorts fun l =>
    if ok then c.spawnProc k l spawn else c.launchDone k l .badports
  | .registered k ok =>
    c.onLaunch k .register fun l => c.launchDone k l (if ok then .serve else .hosed)
  | .died pid status fixExec =>
    if pid ∈ c.procs then some ({ c with procs := c.procs.erase pid }.chldcb cfg status fixExec)
      else none
  | .delayOver fixExec =>
    if c.delays = 0 then none
    else
      let c := { c with delays := c.delays - 1 }
      some (if c.sdflag then c else c.resurrect cfg fixExec)
  | .shutdown => some { c with sdflag := true }
  | .tick dt => some { c with now := c.now + dt }

/-- A child for which `okld` has reserved a place in `okd`, or has failed to. -/
def system : System LdChild LdEvent where
  init c := c = { state := .standby } ∨ c = { state := .hosed }
  step := step cfg

/-- What the launcher thinks of the child is true. -/
structure Accurate (c : LdChild) : Prop where
  serve : c.state = .serve → ∃ p, c.pid = some p ∧ p ∈ c.procs
  one : c.procs.length ≤ 1

/-- No death is reported while `okd` is being told of the child, or during the shutdown of a child
that serves; and at startup the child is not launched when it has been launched already. -/
def Timely (c : LdChild) : LdEvent → Prop
  | .launch => c.procs = [] ∧ c.launches = [] ∧ c.delays = 0
  | .died _ _ _ => (∀ l ∈ c.launches, l.stage ≠ .register) ∧ ¬ (c.sdflag = true ∧ c.state = .serve)
  | _ => True

inductive Phase (c : LdChild) : Prop
  | idle : c.launches = [] → c.delays = 0 → c.procs = [] → c.state ≠ .serve → Phase c
  | starting (l : Launch) : c.launches = [l] → c.delays = 0 → c.procs = [] → l.stage ≠ .register →
      c.state = .launch → Phase c
  | registering (l : Launch) (p : Nat) : c.launches = [l] → c.delays = 0 → c.procs = [p] →
      c.pid = some p → l.stage = .register → c.state = .launch → Phase c
  | up (p : Nat) : c.launches = [] → c.delays = 0 → c.procs = [p] → c.pid = some p →
      c.state ≠ .standby → Phase c
  | delayed : c.launches = [] → c.delays = 1 → c.procs = [] → c.state = .delay → Phase c

section Phase

variable {cfg} {c c' : LdChild}

theorem Phase.accurate (h : Phase c) : Accurate c := by
  cases h with
  | idle _ _ hp hq => exact ⟨fun h => absurd h hq, by simp [hp]⟩
  | starting _ _ _ hp _ hq => exact ⟨fun h => (by cases hq.symm.trans h), by simp [hp]⟩
  | registering _ p _ _ hp hpid _ _ => exact ⟨fun _ => ⟨p, hpid, by simp [hp]⟩, by simp [hp]⟩
  | up p _ _ hp hpid _ => exact ⟨fun _ => ⟨p, hpid, by simp [hp]⟩, by simp [hp]⟩
  | delayed _ _ hp hq => exact ⟨fun h => (by cases hq.symm.trans h), by simp [hp]⟩

theorem Phase.congr (h : Phase c) (hq : c'.state = c.state) (hl : c'.launches = c.launches)
    (hd : c'.delays = c.delays) (hp : c'.procs = c.procs) (hpid : c'.pid = c.pid) : Phase c' := by
  cases h with
  | idle h₁ h₂ h₃ h₄ => exact .idle (hl.trans h₁) (hd.trans h₂) (hp.trans h₃) (hq ▸ h₄)
  | starting l h₁ h₂ h₃ h₄ h₅ =>
    exact .starting l (hl.trans h₁) (hd.trans h₂) (hp.trans h₃) h₄ (hq.trans h₅)
  | registering l p h₁ h₂ h₃ h₄ h₅ h₆ =>
    exact .registering l p (hl.trans h₁) (hd.trans h₂) (hp.trans h₃) (hpid.trans h₄) h₅
      (hq.trans h₆)
  | up p h₁ h₂ h₃ h₄ h₅ =>
    exact .up p (hl.trans h₁) (hd.trans h₂) (hp.trans h₃) (hpid.trans h₄) (hq ▸ h₅)
  | delayed h₁ h₂ h₃ h₄ => exact .delayed (hl.trans h₁) (hd.trans h₂) (hp.trans h₃) (hq.trans h₄)

theorem launch_phase (caller : LaunchCaller) (hl : c.launches = []) (hd : c.delays = 0)
    (hp : c.procs = []) :
    Phase (c.launch caller) :=
  .starting ⟨caller, .helperFds⟩ (by simp [launch, hl]) hd hp nofun rfl

theorem Phase.lazyTurns (h : Phase c) (k : Nat) : Phase (c.lazyTurns k) := by
  induction k generalizing c with
  | zero => exact h.congr rfl rfl rfl rfl rfl
  | succ k ih =>
    unfold LdChild.lazyTurns
    split
    · exact ih (h.congr rfl rfl rfl rfl rfl)
    · split
      · next hq =>
        -- only an idle child is on standby
        have hstart : Phase (c.launch .onDemand) := by
          cases h with
          | idle hl hd hp _ => exact launch_phase .onDemand hl hd hp
          | starting _ _ _ _ _ h => cases h.symm.trans hq
          | registering _ _ _ _ _ _ _ h => cases h.symm.trans hq
          | up _ _ _ _ _ h => exact absurd hq h
          | delayed _ _ _ h => cases h.symm.trans hq
        exact hstart.congr rfl rfl rfl rfl rfl
      · exact ih (h.congr rfl rfl rfl rfl rfl)

theorem Phase.lazyStartup (h : Phase c) : Phase c.lazyStartup := by
  unfold LdChild.lazyStartup
  split
  · exact h.congr rfl rfl rfl rfl rfl
  · exact h.lazyTurns 1

theorem launchDone_phase {k : Nat} {l : Launch} {q : OkcState}
    (h : Phase { c with state := q, launches := c.launches.eraseIdx k }) :
    Phase (c.launchDone k l q) := by
  unfold launchDone
  dsimp only
  split
  · refine Phase.lazyTurns ?_ _
    exact h.congr rfl rfl rfl rfl rfl
  · exact h

theorem resurrect_phase (c : LdChild) (hl : c.launches = []) (hd : c.delays = 0)
    (hp : c.procs = []) (hq : c.state ≠ .launch) (fixExec : Bool) :
      Phase (c.resurrect cfg fixExec) := by
  unfold resurrect
  rw [if_neg hq]
  dsimp only
  split
  · exact .idle hl hd hp nofun
  · split
    · exact .idle hl hd hp nofun
    · exact launch_phase .resurrect hl hd hp

theorem onLaunch_eq_some {k : Nat} {stage : LaunchStage} {f : Launch → LdChild}
    (h : c.onLaunch k stage f = some c') :
      ∃ l, c.launches[k]? = some l ∧ l.stage = stage ∧ c' = f l := by
  obtain ⟨l, hl, h⟩ := Option.bind_eq_some_iff.mp h
  split at h
  · next hst => exact ⟨l, hl, hst, (Option.some.inj h).symm⟩
  · cases h

theorem Phase.launches_eq {k : Nat} {l : Launch} (h : Phase c) (hk : c.launches[k]? = some l) :
    k = 0 ∧ c.launches = [l] ∧ c.delays = 0 ∧ c.state = .launch ∧
      (l.stage ≠ .register → c.procs = []) ∧
      (l.stage = .register → ∃ p, c.procs = [p] ∧ c.pid = some p) := by
  have hone {l' : Launch} (hl : c.launches = [l']) : k = 0 ∧ l = l' := by
    rw [hl] at hk
    cases k with
    | zero => exact ⟨rfl, (Option.some.inj hk).symm⟩
    | succ k => cases hk
  cases h with
  | idle hl _ _ _ => simp [hl] at hk
  | starting l' hl hd hp hst hq =>
    obtain ⟨rfl, rfl⟩ := hone hl
    exact ⟨rfl, hl, hd, hq, fun _ => hp, fun h => absurd h hst⟩
  | registering l' p hl hd hp hpid hst hq =>
    obtain ⟨rfl, rfl⟩ := hone hl
    exact ⟨rfl, hl, hd, hq, fun h => absurd hst h, fun _ => ⟨p, hp, hpid⟩⟩
  | up _ hl _ _ _ _ => simp [hl] at hk
  | delayed hl _ _ _ => simp [hl] at hk

theorem Phase.died {p : Nat} (h : Phase c) (hp : p ∈ c.procs) (status fixExec : Bool)
    (ht : (∀ l ∈ c.launches, l.stage ≠ .register) ∧ ¬ (c.sdflag = true ∧ c.state = .serve)) :
    Phase ({ c with procs := c.procs.erase p }.chldcb cfg status fixExec) := by
  cases h with
  | idle _ _ hprocs _ => simp [hprocs] at hp
  | starting _ _ _ hprocs _ _ => simp [hprocs] at hp
  | registering l _ hl _ _ _ hst _ => exact absurd hst (ht.1 l (by simp [hl]))
  | delayed _ _ hprocs _ => simp [hprocs] at hp
  | up p' hl hd hprocs _ hsb =>
    have hnil : c.procs.erase p = [] := by
      rw [hprocs] at hp ⊢
      obtain rfl := List.mem_singleton.mp hp
      simp
    unfold chldcb
    dsimp only
    split
    · next hsd => exact .idle hl hd hnil fun h => ht.2 ⟨hsd, h⟩
    · split
      · exact .idle hl hd hnil nofun
      · next hq =>
        split
        · exact .idle hl hd hnil nofun
        · split
          · exact .delayed hl (congrArg (· + 1) hd) hnil rfl
          · rw [Decidable.not_not] at hq
            have hq' : ({ c with procs := c.procs.erase p } : LdChild).state ≠
                .launch := fun h => by
              cases hq.symm.trans h
            exact resurrect_phase { c with procs := c.procs.erase p } hl hd hnil hq' fixExec

theorem step_phase {e : LdEvent} (h : Phase c) (ht : Timely c e) (hs : c.step cfg e = some c') :
    Phase c' := by
  cases e with
  | launch =>
    simp only [step] at hs
    split at hs <;> cases hs
    exact launch_phase .startup ht.2.1 ht.2.2 ht.1
  | lazyStartup =>
    simp only [step] at hs
    split at hs <;> cases hs
    exact h.lazyStartup
  | helperFds k ok =>
    obtain ⟨l, hl, hst, rfl⟩ := onLaunch_eq_some hs
    obtain ⟨rfl, hls, hd, hq, hp, -⟩ := h.launches_eq hl
    have hp := hp (by simp [hst])
    split
    · exact .starting { l with stage := .bindPorts } (by simp [toStage, hls]) hd hp nofun hq
    · exact launchDone_phase (.idle (by simp [hls]) hd hp nofun)
  | bound k ok spawn =>
    obtain ⟨l, hl, hst, rfl⟩ := onLaunch_eq_some hs
    obtain ⟨rfl, hls, hd, hq, hp, -⟩ := h.launches_eq hl
    have hp := hp (by simp [hst])
    split
    · cases spawn with
      | failed => exact launchDone_phase (.idle (by simp [hls]) hd hp nofun)
      | noCli =>
        exact launchDone_phase
          (.up c.next (by simp [spawned, hls]) hd (by simp [spawned, hp]) rfl nofun)
      | sent =>
        have hps : (c.spawned.toStage 0 l .register).procs = [c.next] := congrArg (· ++ [c.next]) hp
        have hls' : (c.spawned.toStage 0 l .register).launches = [{ l with stage := .register }] :=
          congrArg (List.set · 0 _) hls
        exact .registering _ c.next hls' hd hps rfl rfl hq
    · exact launchDone_phase (.idle (by simp [hls]) hd hp nofun)
  | registered k ok =>
    obtain ⟨l, hl, hst, rfl⟩ := onLaunch_eq_some hs
    obtain ⟨rfl, hls, hd, hq, -, hp⟩ := h.launches_eq hl
    obtain ⟨p, hp, hpid⟩ := hp hst
    refine launchDone_phase (.up p (by simp [hls]) hd hp hpid ?_)
    cases ok <;> nofun
  | died p status fixExec =>
    simp only [step] at hs
    split at hs <;> cases hs
    next hp => exact h.died hp status fixExec ht
  | delayOver fixExec =>
    simp only [step] at hs
    split at hs <;> cases hs
    next hne =>
    cases h with
    | idle _ hd _ _ => exact absurd hd hne
    | starting _ _ hd _ _ _ => exact absurd hd hne
    | registering _ _ _ hd _ _ _ _ => exact absurd hd hne
    | up _ _ hd _ _ _ => exact absurd hd hne
    | delayed hl hd hp hq =>
      have hd' : c.delays - 1 = 0 := by omega
      split
      · exact .idle hl hd' hp (by simp [hq])
      · exact resurrect_phase { c with delays := c.delays - 1 } hl hd' hp (by simp [hq]) fixExec
  | shutdown =>
    cases hs
    exact h.congr rfl rfl rfl rfl rfl
  | tick dt =>
    cases hs
    exact h.congr rfl rfl rfl rfl rfl

end Phase

theorem accurate_of_timely {c : LdChild} (h : (system cfg).Reach Timely c) : Accurate c := by
  refine (h.invariant (I := Phase) ?_ fun _ _ _ _ hp ht hs => step_phase hp ht hs).accurate
  rintro _ (rfl | rfl)
  · exact .idle rfl rfl rfl nofun
  · exact .idle rfl rfl rfl nofun

def defaultConfig : LdConfig := ⟨true, false, 10, 30, 50⟩

/-- A child is launched, dies, and is launched again. -/
theorem accurate_resurrected : ∃ c, (system defaultConfig).Reach Timely c ∧ c.state = .serve ∧
    c.pid = some 1 ∧ Accurate c := by
  have h₀ : (system defaultConfig).Reach Timely { state := .standby } := .init (.inl rfl)
  have h₁ := h₀.step (show Timely _ .launch from ⟨rfl, rfl, rfl⟩) rfl
  have h₂ := h₁.step (show Timely _ (.helperFds 0 true) from trivial) rfl
  have h₃ := h₂.step (show Timely _ (.bound 0 true .sent) from trivial) rfl
  have h₄ := h₃.step (show Timely _ (.registered 0 true) from trivial) rfl
  have h₅ := h₄.step (show Timely _ (.tick (20 * 10 ^ 9)) from trivial) rfl
  have h₆ := h₅.step (show Timely _ (.died 0 true true) from ⟨nofun, nofun⟩) rfl
  have h₇ := h₆.step (show Timely _ (.delayOver true) from trivial) rfl
  have h₈ := h₇.step (show Timely _ (.helperFds 0 true) from trivial) rfl
  have h₉ := h₈.step (show Timely _ (.bound 0 true .sent) from trivial) rfl
  have h₁₀ := h₉.step (show Timely _ (.registered 0 true) from trivial) rfl
  exact ⟨_, h₁₀, rfl, rfl, accurate_of_timely defaultConfig h₁₀⟩

/-- The child dies before the answer of `okd`. -/
theorem not_accurate_registering : ∃ c, (system defaultConfig).Reachable c ∧ ¬ Accurate c := by
  have h : ∃ c, (system defaultConfig).exec { state := .standby } [.launch, .helperFds 0 true,
      .bound 0 true .sent, .died 0 true true, .registered 0 true] = some c ∧ c.state = .serve ∧
      c.procs = [] := ⟨_, rfl, rfl, rfl⟩
  obtain ⟨c, hc, hq, hp⟩ := h
  refine ⟨c, System.reachable_exec _ (.inl rfl) hc, fun ha => ?_⟩
  obtain ⟨p, -, hmem⟩ := ha.serve hq
  simp [hp] at hmem

end LdChild

end Okws
