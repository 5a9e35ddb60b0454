import Okws.Launcher
import Okws.Lib.Window

namespace Okws

open Lib

/-- The bounds of `MaxCrashedProcesses` and `CrashSamplingInterval`. -/
structure CrashConfig extends LdConfig where
  pos : 1 ≤ crashesMax
  csi_le : csi ≤ 60

namespace LdChild

variable (cfg : LdConfig)

/-- How `resurrect` goes. -/
inductive ResurrectRes
  | launching | limit | badExec | relaunched
  deriving DecidableEq

def resurrectRes (c : LdChild) (fixExec : Bool) : ResurrectRes :=
  if c.state = .launch then .launching
  else if cfg.crashesMax < (Window.push (secdiff · · cfg.csi) c.timevals c.now).length then .limit
  else if cfg.willJail && !fixExec then .badExec
  else .relaunched

/-- `chldcb_T` calls `resurrect` without a delay. -/
def AtOnce (c : LdChild) (status : Bool) : Prop :=
  ¬c.sdflag = true ∧ ¬c.state ≠ .serve ∧
    ¬(cfg.safeStartup ∧ c.timenow - c.startupTime < cfg.chldStartupTime) ∧
    ¬(status ∨ cfg.crashesMax / 2 + 2 < c.timevals.length)

instance (c : LdChild) (status : Bool) : Decidable (c.AtOnce cfg status) :=
  inferInstanceAs (Decidable (_ ∧ _))

/-- The child on which the event calls `resurrect`, if it does. -/
def calling (c : LdChild) : LdEvent → Option (LdChild × Bool)
  | .died pid status fixExec =>
    let c := { c with procs := c.procs.erase pid }
    if c.AtOnce cfg status then some (c, fixExec) else none
  | .delayOver fixExec => if c.sdflag then none else some ({ c with delays := c.delays - 1 }, fixExec)
  | _ => none

section Calling

variable {cfg} {c c' b : LdChild} {e : LdEvent} {fixExec : Bool}

theorem resurrect_eq (c : LdChild) (fixExec : Bool) : c.resurrect cfg fixExec =
    let d := { c with timevals := Window.push (secdiff · · cfg.csi) c.timevals c.now }
    match c.resurrectRes cfg fixExec with
    | .launching => c
    | .limit | .badExec => { d with state := .hosed }
    | .relaunched => d.launch .resurrect := by
  unfold resurrect resurrectRes Window.push
  dsimp only
  by_cases hq : c.state = .launch
  · rw [if_pos hq, if_pos hq]
  · rw [if_neg hq, if_neg hq]
    split
    · rfl
    · split <;> rfl

theorem secdiff_imp {s t diff : Nat} (hle : s ≤ t) (h : secdiff s t diff = true) :
    s + diff * 10 ^ 9 < t := by
  have hdiv : s / 10 ^ 9 ≤ t / 10 ^ 9 := Nat.div_le_div_right hle
  have hs := Nat.div_add_mod s (10 ^ 9)
  have ht := Nat.div_add_mod t (10 ^ 9)
  have hmod := Nat.mod_lt s (show 0 < 10 ^ 9 by decide)
  unfold secdiff at h
  dsimp only at h
  rw [decide_eq_true_eq, Int.bmod_def] at h
  generalize s / 10 ^ 9 = a at *
  generalize t / 10 ^ 9 = b at *
  -- cutting the difference to an `int` makes it no larger
  have hcut : ((b : Int) - a) % (2 ^ 32 : Nat) ≤ b - a := by omega
  split at h <;> omega

theorem secdiff_of_lt {s t diff : Nat} (hlt : t / 10 ^ 9 < s / 10 ^ 9 + 2 ^ 31)
    (h : s + diff * 10 ^ 9 < t) : secdiff s t diff = true := by
  have hs := Nat.div_add_mod s (10 ^ 9)
  have ht := Nat.div_add_mod t (10 ^ 9)
  have hmod := Nat.mod_lt t (show 0 < 10 ^ 9 by decide)
  unfold secdiff
  dsimp only
  rw [decide_eq_true_eq, Int.bmod_def]
  generalize s / 10 ^ 9 = a at *
  generalize t / 10 ^ 9 = b at *
  have hcut : ((b : Int) - a) % (2 ^ 32 : Nat) = b - a := Int.emod_eq_of_lt (by omega) (by omega)
  rw [hcut, if_pos (by omega)]
  omega

theorem lazyTurns_frame (k : Nat) (c : LdChild) : (c.lazyTurns k).timevals = c.timevals ∧
    (c.lazyTurns k).now = c.now ∧ (c.lazyTurns k).delays = c.delays := by
  induction k generalizing c with
  | zero => exact ⟨rfl, rfl, rfl⟩
  | succ k ih =>
    unfold lazyTurns
    split
    · exact ih _
    · split
      · exact ⟨rfl, rfl, rfl⟩
      · exact ih _

theorem launchDone_frame (c : LdChild) (k : Nat) (l : Launch) (q : OkcState) :
    (c.launchDone k l q).timevals = c.timevals ∧ (c.launchDone k l q).now = c.now ∧
      (c.launchDone k l q).delays = c.delays := by
  unfold launchDone
  dsimp only
  split
  · exact lazyTurns_frame _ _
  · exact ⟨rfl, rfl, rfl⟩

theorem chldcb_atOnce {status : Bool} (h : c.AtOnce cfg status) (fixExec : Bool) :
    c.chldcb cfg status fixExec = c.resurrect cfg fixExec := by
  obtain ⟨hsd, hq, hst, hdelay⟩ := h
  unfold chldcb
  rw [if_neg hsd, if_neg hq, if_neg hst, if_neg hdelay]

theorem chldcb_frame {status : Bool} (h : ¬c.AtOnce cfg status) (fixExec : Bool) :
    (c.chldcb cfg status fixExec).timevals = c.timevals ∧
      (c.chldcb cfg status fixExec).now = c.now := by
  unfold chldcb
  split
  · exact ⟨rfl, rfl⟩
  · split
    · exact ⟨rfl, rfl⟩
    · split
      · exact ⟨rfl, rfl⟩
      · split
        · exact ⟨rfl, rfl⟩
        · next hsd hq hst hdelay => exact absurd ⟨hsd, hq, hst, hdelay⟩ h

def IsDied : LdEvent → Prop
  | .died _ _ _ => True
  | _ => False

theorem step_quiet (h : c.calling cfg e = none) (hne : ¬IsDied e) (hs : c.step cfg e = some c') :
    c'.timevals = c.timevals ∧ c.now ≤ c'.now ∧ c'.delays ≤ c.delays := by
  have hsame {d : LdChild} (hd : d.timevals = c.timevals ∧ d.now = c.now ∧ d.delays = c.delays) :
      d.timevals = c.timevals ∧ c.now ≤ d.now ∧ d.delays ≤ c.delays :=
    ⟨hd.1, hd.2.1.ge, hd.2.2.le⟩
  cases e with
  | launch =>
    simp only [step] at hs
    split at hs <;> cases hs
    exact hsame ⟨rfl, rfl, rfl⟩
  | lazyStartup =>
    simp only [step] at hs
    split at hs <;> cases hs
    unfold lazyStartup
    split
    · exact hsame ⟨rfl, rfl, rfl⟩
    · exact hsame (lazyTurns_frame 1 c)
  | helperFds k ok =>
    obtain ⟨l, -, -, rfl⟩ := onLaunch_eq_some hs
    split
    · exact hsame ⟨rfl, rfl, rfl⟩
    · exact hsame (launchDone_frame c k l _)
  | bound k ok spawn =>
    obtain ⟨l, -, -, rfl⟩ := onLaunch_eq_some hs
    split
    · cases spawn with
      | failed => exact hsame (launchDone_frame _ k l _)
      | noCli => exact hsame (launchDone_frame c.spawned k l _)
      | sent => exact hsame ⟨rfl, rfl, rfl⟩
    · exact hsame (launchDone_frame c k l _)
  | registered k ok =>
    obtain ⟨l, -, -, rfl⟩ := onLaunch_eq_some hs
    exact hsame (launchDone_frame c k l _)
  | died pid status fixExec => exact absurd trivial hne
  | delayOver fixExec =>
    simp only [step] at hs
    split at hs <;> cases hs
    simp only [calling] at h
    split at h
    · next hsd =>
      rw [if_pos hsd]
      exact ⟨rfl, Nat.le_refl _, Nat.sub_le _ _⟩
    · cases h
  | shutdown =>
    cases hs
    exact hsame ⟨rfl, rfl, rfl⟩
  | tick dt =>
    cases hs
    exact ⟨rfl, Nat.le_add_right c.now dt, Nat.le_refl _⟩

theorem step_frame (h : c.calling cfg e = none) (hs : c.step cfg e = some c') :
    c'.timevals = c.timevals ∧ c.now ≤ c'.now := by
  cases e with
  | died pid status fixExec =>
    simp only [step] at hs
    split at hs <;> cases hs
    simp only [calling] at h
    split at h
    · cases h
    · next hnot =>
      obtain ⟨htimevals, hnow⟩ := chldcb_frame hnot fixExec
      exact ⟨htimevals, hnow.ge⟩
  | _ =>
    obtain ⟨htimevals, hnow, -⟩ := step_quiet h not_false hs
    exact ⟨htimevals, hnow⟩

theorem step_calling (h : c.calling cfg e = some (b, fixExec)) (hs : c.step cfg e = some c') :
    c' = b.resurrect cfg fixExec ∧ b.timevals = c.timevals ∧ b.now = c.now := by
  cases e with
  | died pid status fix =>
    simp only [step] at hs
    split at hs <;> cases hs
    simp only [calling] at h
    split at h <;> cases h
    next hnow => exact ⟨chldcb_atOnce hnow fixExec, rfl, rfl⟩
  | delayOver fix =>
    simp only [step] at hs
    split at hs <;> cases hs
    simp only [calling] at h
    split at h <;> cases h
    next hsd => exact ⟨if_neg hsd, rfl, rfl⟩
  | launch | lazyStartup | helperFds | bound | registered | shutdown | tick => cases h

end Calling

end LdChild

/-- A child with what has happened to it: the times of its deaths, of the calls of `resurrect` that
took the time and of those that launched it, whether the limit was exceeded, and whether it was
launched by `resurrect` after that. -/
structure LdHistory where
  child : LdChild
  deaths : List Nat := []
  calls : List Nat := []
  relaunches : List Nat := []
  limited : Bool := false
  afterLimit : Bool := false

namespace LdHistory

open LdChild

section

variable (cfg : LdConfig)

def deathsAfter (h : LdHistory) : LdEvent → List Nat
  | .died _ _ _ => h.deaths ++ [h.child.now]
  | _ => h.deaths

def note (h : LdHistory) (now : Nat) : ResurrectRes → LdHistory
  | .launching => h
  | .limit => { h with calls := h.calls ++ [now], limited := true }
  | .badExec => { h with calls := h.calls ++ [now] }
  | .relaunched => { h with
      calls := h.calls ++ [now]
      relaunches := h.relaunches ++ [now]
      afterLimit := h.afterLimit || h.limited }

def step (h : LdHistory) (e : LdEvent) : Option LdHistory :=
  (h.child.step cfg e).map fun c =>
    let h' := { h with child := c, deaths := h.deathsAfter e }
    match h.child.calling cfg e with
    | some (b, fixExec) => h'.note h.child.now (b.resurrectRes cfg fixExec)
    | none => h'

def system : System LdHistory LdEvent where
  init h := ∃ c, (LdChild.system cfg).init c ∧ h = { child := c }
  step := step cfg

def window : Nat := cfg.csi * 10 ^ 9

structure GivenUp (c : LdChild) : Prop where
  state : c.state = .hosed
  launches : c.launches = []
  delays : c.delays = 0
  procs : c.procs = []

/-- The promises of the limit: behind it there is no launch of any kind. -/
structure CrashLimit (h : LdHistory) : Prop where
  atMost : Window.AtMost (window cfg) cfg.crashesMax h.relaunches
  final : h.afterLimit = false
  givenUp : h.limited = true → GivenUp h.child
  apart : Window.Apart (window cfg) h.deaths → h.limited = false

/-- What the log is to the calls, and that the limit is kept. -/
structure Logged (h : LdHistory) : Prop where
  recent : Window.Recent (window cfg) h.calls h.child.timevals h.child.now
  sublist : h.relaunches.Sublist h.calls
  atMost : Window.AtMost (window cfg) cfg.crashesMax h.relaunches

end

section Logged

variable {cfg : LdConfig} {h h' : LdHistory} {e : LdEvent}

theorem step_eq_some (hs : h.step cfg e = some h') : ∃ c, h.child.step cfg e = some c ∧
    ((h.child.calling cfg e = none ∧ h' = { h with child := c, deaths := h.deathsAfter e }) ∨
      ∃ b fixExec, h.child.calling cfg e = some (b, fixExec) ∧
        h' = ({ h with child := c, deaths := h.deathsAfter e } : LdHistory).note h.child.now
          (b.resurrectRes cfg fixExec)) := by
  obtain ⟨c, hc, rfl⟩ := Option.map_eq_some_iff.1 hs
  refine ⟨c, hc, ?_⟩
  cases hcall : h.child.calling cfg e with
  | none => exact .inl ⟨rfl, rfl⟩
  | some p => exact .inr ⟨p.1, p.2, rfl, rfl⟩

theorem note_child (h : LdHistory) (now : Nat) (res : ResurrectRes) :
    (h.note now res).child = h.child ∧ (h.note now res).deaths = h.deaths := by
  cases res <;> exact ⟨rfl, rfl⟩

theorem now_resurrect (b : LdChild) (fixExec : Bool) : (b.resurrect cfg fixExec).now = b.now := by
  rw [resurrect_eq]
  cases b.resurrectRes cfg fixExec <;> rfl

theorem delays_resurrect (b : LdChild) (fixExec : Bool) :
    (b.resurrect cfg fixExec).delays = b.delays := by
  rw [resurrect_eq]
  cases b.resurrectRes cfg fixExec <;> rfl

theorem resurrect_of_launching {b : LdChild} {fixExec : Bool}
    (hres : b.resurrectRes cfg fixExec = .launching) : b.resurrect cfg fixExec = b := by
  rw [resurrect_eq, hres]

theorem timevals_resurrect {b : LdChild} {fixExec : Bool}
    (hres : b.resurrectRes cfg fixExec ≠ .launching) :
    (b.resurrect cfg fixExec).timevals = Window.push (secdiff · · cfg.csi) b.timevals b.now := by
  rw [resurrect_eq]
  cases h : b.resurrectRes cfg fixExec with
  | launching => exact absurd h hres
  | limit | badExec | relaunched => rfl

theorem length_of_relaunched {b : LdChild} {fixExec : Bool}
    (hres : b.resurrectRes cfg fixExec = .relaunched) :
    (b.resurrect cfg fixExec).timevals.length ≤ cfg.crashesMax := by
  rw [timevals_resurrect (by rw [hres]; nofun)]
  unfold resurrectRes at hres
  split at hres
  · cases hres
  · split at hres
    · cases hres
    · next hle => exact Nat.not_lt.1 hle

theorem logged_note {c : LdChild} {deaths : List Nat} {t : Nat} {res : ResurrectRes}
    (hl : Logged cfg h) (hres : res ≠ .launching) (ht : c.now = t)
    (hrecent : Window.Recent (window cfg) (h.calls ++ [t]) c.timevals t)
    (hlen : res = .relaunched → c.timevals.length ≤ cfg.crashesMax) :
    Logged cfg (({ h with child := c, deaths := deaths } : LdHistory).note t res) := by
  subst ht
  have hsub : h.relaunches.Sublist (h.calls ++ [c.now]) :=
    hl.sublist.trans (List.sublist_append_left _ _)
  cases res with
  | launching => exact absurd rfl hres
  | limit | badExec => exact ⟨hrecent, hsub, hl.atMost⟩
  | relaunched =>
    have hsub' : (h.relaunches ++ [c.now]).Sublist (h.calls ++ [c.now]) :=
      hl.sublist.append (List.Sublist.refl _)
    exact ⟨hrecent, hsub', hl.atMost.concat hsub' hrecent (hlen rfl)⟩

theorem logged_step (hl : Logged cfg h) (hs : h.step cfg e = some h') : Logged cfg h' := by
  obtain ⟨c, hc, ⟨hcall, rfl⟩ | ⟨b, fixExec, hcall, rfl⟩⟩ := step_eq_some hs
  · obtain ⟨htimevals, hnow⟩ := step_frame hcall hc
    exact ⟨htimevals ▸ hl.recent.mono hnow, hl.sublist, hl.atMost⟩
  · obtain ⟨rfl, htimevals, hnow⟩ := step_calling hcall hc
    by_cases hres : b.resurrectRes cfg fixExec = .launching
    · rw [hres, resurrect_of_launching hres]
      have hrecent := hl.recent
      rw [← htimevals, ← hnow] at hrecent
      exact ⟨hrecent, hl.sublist, hl.atMost⟩
    · have hpush : Window.Recent (window cfg) (h.calls ++ [h.child.now])
          (Window.push (secdiff · · cfg.csi) h.child.timevals h.child.now) h.child.now :=
        hl.recent.push fun s hle => secdiff_imp hle
      rw [← htimevals, ← hnow, ← timevals_resurrect hres] at hpush
      rw [← hnow]
      exact logged_note hl hres (now_resurrect b fixExec) hpush length_of_relaunched

theorem logged_init {c : LdChild} (hc : c.timevals = []) : Logged cfg { child := c } := by
  refine ⟨?_, .slnil, fun _ => Nat.zero_le _⟩
  show Window.Recent _ [] c.timevals c.now
  rw [hc]
  exact .nil

theorem timevals_of_init {c : LdChild} (hc : (LdChild.system cfg).init c) : c.timevals = [] := by
  obtain rfl | rfl := hc <;> rfl

theorem logged_reachable (h : (system cfg).Reachable h') : Logged cfg h' := by
  refine h.invariant (fun s hs => ?_) fun _ _ _ _ hl _ => logged_step hl
  obtain ⟨c, hc, rfl⟩ := hs
  exact logged_init (timevals_of_init hc)

end Logged

/-- What a step must not do, apart from what is not timely: launch a child at startup that has been
given up; call `resurrect` when a time in the log is `2 ^ 31` seconds old; or, when the limit is 1,
call it too soon after its last call for a child whose deaths are far apart. -/
structure Paced (cfg : LdConfig) (h : LdHistory) (e : LdEvent) : Prop where
  timely : Timely h.child e
  startup : e = .launch → h.limited = false
  close : (h.child.calling cfg e).isSome → ∀ t ∈ h.child.timevals,
    h.child.now / 10 ^ 9 < t / 10 ^ 9 + 2 ^ 31
  single : cfg.crashesMax = 1 → (h.child.calling cfg e).isSome →
    Window.Apart (window cfg) (h.deathsAfter e) → ∀ t ∈ h.child.timevals,
      t + window cfg < h.child.now

/-- Where a child can be whose deaths are far apart.  When its death has been reported, at most one
time in the log is still in the window. -/
structure Spread (cfg : LdConfig) (h : LdHistory) : Prop where
  limited : h.limited = false
  older : ∀ t ∈ h.child.timevals.dropLast, ∃ d ∈ h.deaths, t ≤ d
  waiting : h.child.delays ≠ 0 → (∀ t ∈ h.child.timevals.dropLast, t + window cfg < h.child.now) ∧
    ∀ t ∈ h.child.timevals, ∃ d ∈ h.deaths, t ≤ d

structure Inv (cfg : LdConfig) (h : LdHistory) : Prop where
  logged : Logged cfg h
  phase : Phase h.child
  final : h.afterLimit = false
  givenUp : h.limited = true → GivenUp h.child
  spread : Window.Apart (window cfg) h.deaths → Spread cfg h

section Paced

variable {cfg : CrashConfig} {h h' : LdHistory} {c b : LdChild} {e : LdEvent} {fixExec : Bool}

theorem calling_idle (hp : Phase c) (ht : Timely c e) {c' : LdChild}
    (hs : c.step cfg.toLdConfig e = some c') (hcall : c.calling cfg.toLdConfig e = some (b, fixExec)) :
    b.launches = [] ∧ b.delays = 0 ∧ b.procs = [] ∧ b.state ≠ .launch := by
  cases e with
  | died pid status fix =>
    simp only [LdChild.step] at hs
    split at hs <;> cases hs
    next hmem =>
    simp only [calling] at hcall
    split at hcall <;> cases hcall
    next hnow =>
    have hserve : c.state = .serve := Decidable.not_not.1 hnow.2.1
    cases hp with
    | idle _ _ hprocs _ | starting _ _ _ hprocs _ _ | delayed _ _ hprocs _ =>
      rw [hprocs] at hmem
      exact absurd hmem List.not_mem_nil
    | registering l _ hl _ _ _ hst _ => exact absurd hst (ht.1 l (hl ▸ .head _))
    | up p hl hd hprocs _ _ =>
      refine ⟨hl, hd, ?_, fun hq => by cases hserve.symm.trans hq⟩
      rw [hprocs] at hmem
      rw [List.mem_singleton.1 hmem, hprocs]
      exact List.erase_cons_head ..
  | delayOver fix =>
    simp only [LdChild.step] at hs
    split at hs <;> cases hs
    next hne =>
    simp only [calling] at hcall
    split at hcall <;> cases hcall
    cases hp with
    | idle _ hd _ _ | starting _ _ hd _ _ _ | registering _ _ _ hd _ _ _ _ | up _ _ hd _ _ _ =>
      exact absurd hd hne
    | delayed hl hd hprocs hq =>
      exact ⟨hl, by rw [hd], hprocs, fun hq' => by cases hq.symm.trans hq'⟩
  | launch | lazyStartup | helperFds | bound | registered | shutdown | tick => cases hcall

theorem not_limited_of_calling (hg : h.limited = true → GivenUp h.child) {c' : LdChild}
    (hs : h.child.step cfg.toLdConfig e = some c')
    (hcall : h.child.calling cfg.toLdConfig e = some (b, fixExec)) : h.limited = false := by
  refine Bool.eq_false_iff.2 fun hlim => ?_
  have hgone := hg hlim
  cases e with
  | died pid status fix =>
    simp only [LdChild.step, hgone.procs, List.not_mem_nil, if_false] at hs
    cases hs
  | delayOver fix =>
    simp only [LdChild.step, hgone.delays, if_true] at hs
    cases hs
  | launch | lazyStartup | helperFds | bound | registered | shutdown | tick => cases hcall

theorem lazyTurns_givenUp (hg : GivenUp c) (k : Nat) : GivenUp (c.lazyTurns k) := by
  induction k generalizing c with
  | zero => exact ⟨hg.state, hg.launches, hg.delays, hg.procs⟩
  | succ k ih =>
    unfold lazyTurns
    split
    · exact ih ⟨hg.state, hg.launches, hg.delays, hg.procs⟩
    · split
      · next hq => cases hg.state.symm.trans hq
      · exact ih ⟨hg.state, hg.launches, hg.delays, hg.procs⟩

theorem step_givenUp (hg : GivenUp c) (hne : e ≠ .launch) {c' : LdChild}
    (hs : c.step cfg.toLdConfig e = some c') : GivenUp c' := by
  have hnone {k : Nat} {stage : LaunchStage} {f : Launch → LdChild} :
      c.onLaunch k stage f ≠ some c' := by
    rw [onLaunch, hg.launches]
    nofun
  cases e with
  | launch => exact absurd rfl hne
  | lazyStartup =>
    simp only [LdChild.step] at hs
    split at hs <;> cases hs
    unfold lazyStartup
    split
    · exact ⟨hg.state, hg.launches, hg.delays, hg.procs⟩
    · exact lazyTurns_givenUp hg 1
  | helperFds | bound | registered => exact absurd hs hnone
  | died pid status fix =>
    simp only [LdChild.step, hg.procs, List.not_mem_nil, if_false] at hs
    cases hs
  | delayOver fix =>
    simp only [LdChild.step, hg.delays, if_true] at hs
    cases hs
  | shutdown | tick => cases hs; exact ⟨hg.state, hg.launches, hg.delays, hg.procs⟩

/-- Where the death is reported whose resurrection is called for, or waits. -/
def Reported (h : LdHistory) : LdEvent → Prop
  | .died _ _ _ => True
  | .delayOver _ => h.child.delays ≠ 0
  | _ => False

theorem reported_of_calling {c' : LdChild} (hs : h.child.step cfg.toLdConfig e = some c')
    (hcall : h.child.calling cfg.toLdConfig e = some (b, fixExec)) : Reported h e := by
  cases e with
  | died pid status fix => trivial
  | delayOver fix =>
    simp only [LdChild.step] at hs
    split at hs <;> cases hs
    next hne => exact hne
  | launch | lazyStartup | helperFds | bound | registered | shutdown | tick => cases hcall

theorem Spread.at_death (hl : Logged cfg.toLdConfig h)
    (hsp : Window.Apart (window cfg.toLdConfig) h.deaths → Spread cfg.toLdConfig h)
    (hr : Reported h e) (ha : Window.Apart (window cfg.toLdConfig) (h.deathsAfter e)) :
    (∀ t ∈ h.child.timevals.dropLast, t + window cfg.toLdConfig < h.child.now) ∧
      ∀ t ∈ h.child.timevals, ∃ d ∈ h.deathsAfter e, t ≤ d := by
  cases e with
  | died pid status fix =>
    obtain ⟨hdeaths, hlt⟩ := Window.Apart.of_concat ha
    refine ⟨fun t ht => ?_, fun t ht => ?_⟩
    · obtain ⟨d, hd, hle⟩ := (hsp hdeaths).older t ht
      exact Nat.lt_of_le_of_lt (Nat.add_le_add_right hle _) (hlt d hd)
    · exact ⟨h.child.now, List.mem_append_right _ (.head _), hl.recent.log_le t ht⟩
  | delayOver fix => exact (hsp ha).waiting hr
  | launch | lazyStartup | helperFds | bound | registered | shutdown | tick => cases hr

theorem apart_of_deathsAfter (ha : Window.Apart (window cfg.toLdConfig) (h.deathsAfter e)) :
    Window.Apart (window cfg.toLdConfig) h.deaths := by
  cases e with
  | died => exact (Window.Apart.of_concat ha).1
  | _ => exact ha

theorem not_limit (hw : Paced cfg.toLdConfig h e) {c' : LdChild}
    (hs : h.child.step cfg.toLdConfig e = some c')
    (hcall : h.child.calling cfg.toLdConfig e = some (b, fixExec))
    (ha : Window.Apart (window cfg.toLdConfig) (h.deathsAfter e))
    (hold : ∀ t ∈ h.child.timevals.dropLast, t + window cfg.toLdConfig < h.child.now) :
    b.resurrectRes cfg.toLdConfig fixExec ≠ .limit := by
  obtain ⟨-, htimevals, hnow⟩ := step_calling hcall hs
  have hsome : (h.child.calling cfg.toLdConfig e).isSome := by rw [hcall]; rfl
  have hsecdiff : ∀ t ∈ h.child.timevals, t + window cfg.toLdConfig < h.child.now →
      secdiff t h.child.now cfg.csi = true := fun t ht hlt =>
    secdiff_of_lt (hw.close hsome t ht) hlt
  have hlen : (Window.push (secdiff · · cfg.csi) b.timevals b.now).length ≤ cfg.crashesMax := by
    rw [htimevals, hnow]
    obtain hone | htwo : cfg.crashesMax = 1 ∨ 2 ≤ cfg.crashesMax := by
      have := cfg.pos
      omega
    · have hpush : (Window.push (secdiff · · cfg.csi) h.child.timevals h.child.now).length = 1 :=
        Window.length_push_of_old fun t ht => hsecdiff t ht (hw.single hone hsome ha t ht)
      rw [hpush]
      exact cfg.pos
    · have hpush : (Window.push (secdiff · · cfg.csi) h.child.timevals h.child.now).length ≤ 2 :=
        Window.length_push_le_two fun t ht =>
          hsecdiff t ((List.dropLast_sublist _).mem ht) (hold t ht)
      exact Nat.le_trans hpush htwo
  intro hres
  unfold resurrectRes at hres
  split at hres
  · cases hres
  · rw [if_neg (Nat.not_lt.2 hlen)] at hres
    split at hres <;> cases hres

theorem deathsAfter_of_not (hne : ¬IsDied e) : h.deathsAfter e = h.deaths := by
  cases e with
  | died => exact absurd trivial hne
  | _ => rfl

theorem inv_quiet (hi : Inv cfg.toLdConfig h) (hw : Paced cfg.toLdConfig h e)
    (hc : h.child.step cfg.toLdConfig e = some c)
    (hcall : h.child.calling cfg.toLdConfig e = none)
    (hlogged : Logged cfg.toLdConfig { h with child := c, deaths := h.deathsAfter e }) :
    Inv cfg.toLdConfig { h with child := c, deaths := h.deathsAfter e } := by
  obtain ⟨htimevals, hnow⟩ := step_frame hcall hc
  refine ⟨hlogged, step_phase hi.phase hw.timely hc, hi.final, fun hlim => ?_, fun ha => ?_⟩
  · refine step_givenUp (hi.givenUp hlim) (fun he => ?_) hc
    exact Bool.false_ne_true ((hw.startup he).symm.trans hlim)
  · have hsp := hi.spread (apart_of_deathsAfter ha)
    by_cases hdied : IsDied e
    · have hr : Reported h e := by cases e <;> trivial
      obtain ⟨hold, hle⟩ := Spread.at_death hi.logged hi.spread hr ha
      rw [← htimevals] at hold hle
      exact ⟨hsp.limited, fun t ht => hle t ((List.dropLast_sublist _).mem ht), fun _ =>
        ⟨fun t ht => Nat.lt_of_lt_of_le (hold t ht) hnow, hle⟩⟩
    · rw [deathsAfter_of_not hdied]
      obtain ⟨-, -, hdelays⟩ := step_quiet hcall hdied hc
      refine ⟨hsp.limited, htimevals ▸ hsp.older, fun hne => ?_⟩
      obtain ⟨hold, hle⟩ := hsp.waiting fun h0 => hne (Nat.le_zero.1 (h0 ▸ hdelays))
      rw [← htimevals] at hold hle
      exact ⟨fun t ht => Nat.lt_of_lt_of_le (hold t ht) hnow, hle⟩

theorem inv_calling (hi : Inv cfg.toLdConfig h) (hw : Paced cfg.toLdConfig h e)
    (hc : h.child.step cfg.toLdConfig e = some c)
    (hcall : h.child.calling cfg.toLdConfig e = some (b, fixExec))
    (hh : h' = ({ h with child := c, deaths := h.deathsAfter e } : LdHistory).note h.child.now
      (b.resurrectRes cfg.toLdConfig fixExec))
    (hlogged : Logged cfg.toLdConfig h') : Inv cfg.toLdConfig h' := by
  have hphase := step_phase hi.phase hw.timely hc
  have hlimited := not_limited_of_calling hi.givenUp hc hcall
  obtain ⟨hlaunches, hdelays, hprocs, hq⟩ := calling_idle hi.phase hw.timely hc hcall
  obtain ⟨hchild, hdeaths⟩ := note_child
    ({ h with child := c, deaths := h.deathsAfter e } : LdHistory) h.child.now
    (b.resurrectRes cfg.toLdConfig fixExec)
  obtain ⟨hb, htimevals, hnow⟩ := step_calling hcall hc
  rw [← hh] at hchild hdeaths
  have hlaunching : b.resurrectRes cfg.toLdConfig fixExec ≠ .launching := by
    unfold resurrectRes
    rw [if_neg hq]
    split
    · nofun
    · split <;> nofun
  have hlim_iff : h'.limited = true → b.resurrectRes cfg.toLdConfig fixExec = .limit := by
    intro hlim
    cases hres : b.resurrectRes cfg.toLdConfig fixExec with
    | limit => rfl
    | launching | badExec | relaunched =>
      rw [hh, hres] at hlim
      exact absurd (hlimited.symm.trans hlim) Bool.false_ne_true
  have hdelays' : c.delays = 0 := by rw [hb, delays_resurrect, hdelays]
  refine ⟨hlogged, hchild ▸ hphase, ?_, fun hlim => ?_, fun ha => ?_⟩
  · cases hres : b.resurrectRes cfg.toLdConfig fixExec with
    | launching | limit | badExec => rw [hh, hres]; exact hi.final
    | relaunched =>
      have hnote : h'.afterLimit = (h.afterLimit || h.limited) := by rw [hh, hres]; rfl
      rw [hnote, hi.final, hlimited]
      rfl
  · rw [hchild, hb, resurrect_eq, hlim_iff hlim]
    exact ⟨rfl, hlaunches, hdelays, hprocs⟩
  · rw [hdeaths] at ha
    obtain ⟨hold, hle⟩ := Spread.at_death hi.logged hi.spread (reported_of_calling hc hcall) ha
    have hnot := not_limit hw hc hcall ha hold
    refine ⟨Bool.eq_false_iff.2 fun hlim => hnot (hlim_iff hlim), ?_, fun hne => ?_⟩
    · rw [hchild, hb, timevals_resurrect hlaunching, hdeaths, Window.push, List.dropLast_concat,
        htimevals]
      exact fun t ht => hle t ((List.dropWhile_sublist _).mem ht)
    · rw [hchild] at hne
      exact absurd hdelays' hne

theorem inv_step (hi : Inv cfg.toLdConfig h) (hw : Paced cfg.toLdConfig h e)
    (hs : h.step cfg.toLdConfig e = some h') : Inv cfg.toLdConfig h' := by
  have hlogged := logged_step hi.logged hs
  obtain ⟨c, hc, ⟨hcall, rfl⟩ | ⟨b, fixExec, hcall, hh⟩⟩ := step_eq_some hs
  · exact inv_quiet hi hw hc hcall hlogged
  · exact inv_calling hi hw hc hcall hh hlogged

theorem inv_init {c : LdChild} (hc : (LdChild.system cfg.toLdConfig).init c) :
    Inv cfg.toLdConfig { child := c } := by
  have htimevals := timevals_of_init hc
  refine ⟨logged_init htimevals, ?_, rfl, nofun, fun _ => ⟨rfl, ?_, fun hne => ?_⟩⟩
  · obtain rfl | rfl := hc <;> exact .idle rfl rfl rfl nofun
  · show ∀ t ∈ c.timevals.dropLast, _
    rw [htimevals]
    nofun
  · obtain rfl | rfl := hc <;> exact absurd rfl hne

/-- Every run whose steps are paced keeps the promises of the limit. -/
theorem crashLimit_of_paced (hr : (system cfg.toLdConfig).Reach (Paced cfg.toLdConfig) h) :
    CrashLimit cfg.toLdConfig h := by
  have hi : Inv cfg.toLdConfig h := by
    refine hr.invariant (fun s hs => ?_) fun _ _ _ _ hi hw hs => inv_step hi hw hs
    obtain ⟨c, hc, rfl⟩ := hs
    exact inv_init hc
  exact ⟨hi.logged.atMost, hi.final, hi.givenUp, fun ha => (hi.spread ha).limited⟩

end Paced

def singleConfig : CrashConfig := ⟨⟨true, false, 10, 1, 50⟩, by decide, by decide⟩

theorem paced_of_nil {cfg : LdConfig} {h : LdHistory} {e : LdEvent} (ht : Timely h.child e)
    (hlim : h.limited = false) (hnil : h.child.timevals = []) : Paced cfg h e :=
  ⟨ht, fun _ => hlim, fun _ => by rw [hnil]; nofun, fun _ _ _ => by rw [hnil]; nofun⟩

/-- A child dies, and is launched again after the delay. -/
theorem crashLimit_once : ∃ h, (system singleConfig.toLdConfig).Reach
    (Paced singleConfig.toLdConfig) h ∧ h.relaunches = [235 * 10 ^ 8] ∧
      CrashLimit singleConfig.toLdConfig h := by
  have h₀ : (system singleConfig.toLdConfig).Reach (Paced singleConfig.toLdConfig)
      { child := { state := .standby } } := .init ⟨_, .inl rfl, rfl⟩
  have h₁ := h₀.step (paced_of_nil (e := .launch) ⟨rfl, rfl, rfl⟩ rfl rfl) rfl
  have h₂ := h₁.step (paced_of_nil (e := .helperFds 0 true) trivial rfl rfl) rfl
  have h₃ := h₂.step (paced_of_nil (e := .bound 0 true .sent) trivial rfl rfl) rfl
  have h₄ := h₃.step (paced_of_nil (e := .registered 0 true) trivial rfl rfl) rfl
  have h₅ := h₄.step (paced_of_nil (e := .tick (20 * 10 ^ 9)) trivial rfl rfl) rfl
  have h₆ := h₅.step (paced_of_nil (e := .died 0 true true) ⟨nofun, nofun⟩ rfl rfl) rfl
  have h₇ := h₆.step (paced_of_nil (e := .tick (35 * 10 ^ 8)) trivial rfl rfl) rfl
  have h₈ := h₇.step (paced_of_nil (e := .delayOver true) trivial rfl rfl) rfl
  exact ⟨_, h₈, rfl, crashLimit_of_paced h₈⟩

/-- The child dies 20 and 71 seconds after its launch.  The first death is followed by the delay, the
second is not, and there are less than 50 seconds between the calls of `resurrect`. -/
theorem not_crashLimit_delay : ∃ h, (system singleConfig.toLdConfig).Reachable h ∧
    ¬CrashLimit singleConfig.toLdConfig h := by
  have hrun : ∃ h, (system singleConfig.toLdConfig).exec { child := { state := .standby } }
      [.launch, .helperFds 0 true, .bound 0 true .sent, .registered 0 true, .tick (20 * 10 ^ 9),
        .died 0 true true, .tick (35 * 10 ^ 8), .delayOver true, .helperFds 0 true,
        .bound 0 true .sent, .registered 0 true, .tick (475 * 10 ^ 8), .died 1 false true] = some h ∧
      h.limited = true ∧ h.deaths = [20 * 10 ^ 9, 71 * 10 ^ 9] := ⟨_, rfl, rfl, rfl⟩
  obtain ⟨h, hexec, hlim, hdeaths⟩ := hrun
  refine ⟨h, System.reachable_exec _ ⟨_, .inl rfl, rfl⟩ hexec, fun hc => ?_⟩
  have hnot := hc.apart (by rw [hdeaths]; unfold Window.Apart; decide)
  exact Bool.false_ne_true (hnot.symm.trans hlim)

end LdHistory

end Okws
