import Mathlib.Logic.Function.Basic
import Okws.Lib.Transition

namespace Okws

/-- `cv_t`, and whether it was removed from the table of its stage.  The event is that of a handle
which waits. -/
structure Cv where
  go : Bool := false
  ev : Option Nat := none
  gone : Bool := false
  deriving DecidableEq

/-- A handle: the number of stages it has gone for, the stage of `_curr`, and how many calls of
`advance` have released the last stage and not yet asked for the next one. -/
structure PipeHandle where
  stage : Nat := 0
  curr : Option Nat := none
  alive : Bool := false
  starting : Nat := 0

/-- A condition variable is named by its stage and its handle.  What is `waiting` are calls of
`get_next`; `inside` and `log` tell who is in a stage and who came in, the last one first. -/
structure Pipeliner where
  next : Nat := 0
  handles : Nat → PipeHandle := fun _ => {}
  cv : Nat × Nat → Option Cv := fun _ => none
  waiting : List (Nat × Nat) := []
  inside : Nat × Nat → Bool := fun _ => false
  log : List (Nat × Nat) := []
  broken : Bool := false

namespace Pipeliner

open Function (update)

variable (s : Pipeliner)

/-- The entry of the table, which is made if it is not there.  One that was removed is never asked
for again. -/
def ask (x : Nat × Nat) : Pipeliner := match s.cv x with
  | none => { s with cv := update s.cv x (some {}) }
  | some c => { s with broken := s.broken || c.gone }

/-- The end of `get_next`. -/
def enter (σ k : Nat) : Pipeliner :=
  let s := s.ask (σ, k)
  { s with
    handles := update s.handles k { s.handles k with curr := some σ }
    inside := update s.inside (σ, k) true
    log := (σ, k) :: s.log }

/-- `get_next` after it has waited for the handle `p`. -/
def resume (σ p : Nat) (c : Cv) : Pipeliner :=
  Pipeliner.enter { s with
    cv := update s.cv (σ, p) (some { c with gone := true })
    waiting := s.waiting.filter (· ≠ (σ, p + 1)) } σ (p + 1)

def poke (σ k : Nat) : Pipeliner := match s.cv (σ, k) with
  | none => s
  | some c => match c.ev with
    | some _ => Pipeliner.resume { s with broken := s.broken || c.go } σ k { c with ev := none }
    | none => { s with cv := update s.cv (σ, k) (some { c with go := true }) }

def release (k : Nat) : Pipeliner := match (s.handles k).curr with
  | none => s
  | some σ => Pipeliner.poke { s with inside := update s.inside (σ, k) false } σ k

/-- `get_next`, with `cv_t::wait`. -/
def getNext (σ : Nat) : Nat → Pipeliner
  | 0 => s.enter σ 0
  | p + 1 =>
    let s := s.ask (σ, p)
    match s.cv (σ, p) with
    | none => s
    | some c =>
      if c.go then
        Pipeliner.resume { s with broken := s.broken || c.ev.isSome } σ p { c with go := false }
      else { s with
        cv := update s.cv (σ, p) (some { c with ev := some (p + 1) })
        waiting := (σ, p + 1) :: s.waiting }

inductive Event
  | init
  | release (k : Nat)
  | advance (k : Nat)
  | proceed (k : Nat)
  | destroy (k : Nat)

/-- Calls of `advance` by the handle that are under way. -/
def pending (k : Nat) : Bool := (s.handles k).starting ≠ 0 || s.waiting.any (·.2 = k)

def setHandle (k : Nat) (f : PipeHandle → PipeHandle) : Pipeliner :=
  { s with handles := update s.handles k (f (s.handles k)) }

/-- The first half of `advance` may wake another handle, which does what it likes before the second
half. -/
def step : Event → Option Pipeliner
  | .init => some { s.setHandle s.next fun _ => { alive := true } with next := s.next + 1 }
  | .release k => if (s.handles k).alive then some (s.release k) else none
  | .advance k =>
    if (s.handles k).alive then
      some ((s.release k).setHandle k fun h => { h with starting := h.starting + 1 })
    else none
  | .proceed k =>
    if (s.handles k).starting ≠ 0 then
      some ((s.setHandle k fun h =>
        { h with starting := h.starting - 1, stage := h.stage + 1 }).getNext
        (s.handles k).stage k)
    else none
  | .destroy k =>
    if (s.handles k).alive ∧ s.pending k = false then
      some ((s.release k).setHandle k fun h => { h with alive := false })
    else none

def system : Lib.System Pipeliner Event where
  init s := s = {}
  step := step

/-- One handle at most is in a stage, the handles come in the order of their ids, the assertions of
`cv_t` hold, and a handle that waits is not the first that is left. -/
structure Sound : Prop where
  exclusive : ∀ σ j k, s.inside (σ, j) = true → s.inside (σ, k) = true → j = k
  ordered : s.log.Pairwise fun a b => a.1 = b.1 → b.2 < a.2
  intact : s.broken = false
  woken : ∀ σ k, (σ, k) ∈ s.waiting → ∃ j < k, (s.handles j).alive = true

/-- The number of stages the handle will have gone for when its calls are done. -/
def goal (k : Nat) : Nat := (s.handles k).stage + (s.handles k).starting

/-- A handle is not destroyed before it has gone for all the stages that the next handle goes for,
and does not advance again while it still advances. -/
def Calm : Event → Prop
  | .advance k => s.pending k = false ∧ ∀ j, k = j + 1 → (s.handles j).alive = false →
      s.goal k < s.goal j
  | .destroy k => s.goal (k + 1) ≤ s.goal k
  | _ => True

/-- A handle that is about to enter a stage, behind all that came before it. -/
def About (x : Option (Nat × Nat)) (σ k : Nat) : Prop :=
  x = some (σ, k) ∧ (s.handles k).stage = σ + 1 ∧ (s.handles k).starting = 0 ∧
    (s.handles k).alive = true ∧ (σ, k) ∉ s.log ∧
    (∀ τ, s.inside (τ, k) = false) ∧ (∀ τ, (τ, k) ∉ s.waiting) ∧
    ∀ j, k = j + 1 → (σ, j) ∈ s.log ∧ s.inside (σ, j) = false

/-- What the log tells of the handles. -/
structure Core : Prop where
  ordered : s.log.Pairwise fun a b => a.1 = b.1 → b.2 < a.2
  entered : ∀ σ k, (σ, k) ∈ s.log → σ < (s.handles k).stage
  curr : ∀ σ k, (s.handles k).curr = some σ → (σ, k) ∈ s.log
  dead : ∀ k, (s.handles k).alive = false → s.goal (k + 1) ≤ s.goal k ∧
    (s.handles k).starting = 0
  one : ∀ k, (s.handles k).starting ≤ 1
  fresh : ∀ k, s.next ≤ k → s.handles k = {}

/-- What holds between the steps, and in them where the handle `x` is about to enter. -/
structure Inv (x : Option (Nat × Nat)) : Prop extends Core s where
  intact : s.broken = false
  about : ∀ σ k, x = some (σ, k) → s.About x σ k
  follow : ∀ σ k, (σ, k + 1) ∈ s.log → (σ, k) ∈ s.log ∧ s.inside (σ, k) = false
  stage : ∀ σ k, σ < (s.handles k).stage → (σ, k) ∈ s.log ∨ (σ, k) ∈ s.waiting ∨ x = some (σ, k)
  waiting : ∀ σ k, (σ, k) ∈ s.waiting → (s.handles k).stage = σ + 1 ∧ (σ, k) ∉ s.log ∧
    (s.handles k).starting = 0 ∧ (s.handles k).alive = true ∧
    ∃ j, k = j + 1 ∧ (s.inside (σ, j) = true ∨ (σ, j) ∉ s.log)
  inside : ∀ σ k, s.inside (σ, k) = true → (σ, k) ∈ s.log ∧ (s.handles k).curr = some σ ∧
    (s.handles k).starting = 0 ∧ (s.handles k).alive = true ∧ ∀ τ, (τ, k) ∉ s.waiting
  gone : ∀ σ k, s.cv (σ, k) = none ↔ (σ, k) ∉ s.log ∧ (σ, k + 1) ∉ s.log ∧
    (σ, k + 1) ∉ s.waiting ∧ x ≠ some (σ, k + 1)
  cv : ∀ σ k c, s.cv (σ, k) = some c →
    (c.gone = true ↔ (σ, k + 1) ∈ s.log ∨ x = some (σ, k + 1)) ∧
    (c.ev.isSome = true ↔ (σ, k + 1) ∈ s.waiting) ∧
    (c.gone = false → (c.go = true ↔ (σ, k) ∈ s.log ∧ s.inside (σ, k) = false))

section Invariant

variable {s : Pipeliner} {σ k : Nat}

namespace Core

theorem frame {t : Pipeliner} (h : s.Core) (hlog : t.log = s.log) (hhandles : t.handles = s.handles)
    (hnext : t.next = s.next) : t.Core where
  ordered := by
    rw [hlog]
    exact h.ordered
  entered := by
    rw [hlog, hhandles]
    exact h.entered
  curr := by
    rw [hlog, hhandles]
    exact h.curr
  dead := by
    unfold goal
    rw [hhandles]
    exact h.dead
  one := by
    rw [hhandles]
    exact h.one
  fresh := by
    rw [hhandles, hnext]
    exact h.fresh

theorem enter (h : s.Core) (hlt : ∀ j, (σ, j) ∈ s.log → j < k) (hstage : σ < (s.handles k).stage) :
    Core { s with
      handles := update s.handles k { s.handles k with curr := some σ }
      log := (σ, k) :: s.log } where
  ordered := List.pairwise_cons.mpr ⟨by grind, h.ordered⟩
  entered := by
    have := h.entered
    grind
  curr := by
    have := h.curr
    grind
  dead := by
    have := h.dead
    unfold goal at *
    grind
  one := by
    have := h.one
    grind
  fresh := by
    have := h.fresh
    grind

theorem advance (h : s.Core) (halive : (s.handles k).alive = true)
    (hzero : (s.handles k).starting = 0)
    (hprev : ∀ j, k = j + 1 → (s.handles j).alive = false → s.goal k < s.goal j) :
    Core (s.setHandle k fun h => { h with starting := h.starting + 1 }) where
  ordered := h.ordered
  entered := by
    have := h.entered
    unfold setHandle
    grind
  curr := by
    have := h.curr
    unfold setHandle
    grind
  dead := by
    have := h.dead
    unfold setHandle goal at *
    grind
  one := by
    have := h.one
    unfold setHandle
    grind
  fresh := by
    have := h.fresh
    unfold setHandle
    grind

theorem destroy (h : s.Core) (hzero : (s.handles k).starting = 0)
    (hlast : s.goal (k + 1) ≤ s.goal k) :
    Core (s.setHandle k fun h => { h with alive := false }) where
  ordered := h.ordered
  entered := by
    have := h.entered
    unfold setHandle
    grind
  curr := by
    have := h.curr
    unfold setHandle
    grind
  dead := by
    have := h.dead
    unfold setHandle goal at *
    grind
  one := by
    have := h.one
    unfold setHandle
    grind
  fresh := by
    have := h.fresh
    unfold setHandle
    grind

theorem init (h : s.Core) :
    Core { s.setHandle s.next fun _ => { alive := true } with next := s.next + 1 } where
  ordered := h.ordered
  entered := by
    have := h.entered
    have := h.fresh
    unfold setHandle
    grind
  curr := by
    have := h.curr
    unfold setHandle
    grind
  dead := by
    have := h.dead
    have := h.fresh
    unfold setHandle goal at *
    grind
  one := by
    have := h.one
    unfold setHandle
    grind
  fresh := by
    have := h.fresh
    unfold setHandle
    grind

theorem go (h : s.Core) (hk : (s.handles k).starting ≠ 0) : Core
    (s.setHandle k fun h => { h with starting := h.starting - 1, stage := h.stage + 1 }) where
  ordered := h.ordered
  entered := by
    have := h.entered
    unfold setHandle
    grind
  curr := by
    have := h.curr
    unfold setHandle
    grind
  dead := by
    have := h.dead
    unfold setHandle goal at *
    grind
  one := by
    have := h.one
    unfold setHandle
    grind
  fresh := by
    have := h.fresh
    unfold setHandle
    grind

end Core

theorem Inv.down {x : Option (Nat × Nat)} (h : s.Inv x) {j : Nat} (hk : (σ, k) ∈ s.log)
    (hj : j ≤ k) : (σ, j) ∈ s.log := by
  induction hj with
  | refl => exact hk
  | step _ ih => exact ih (h.follow _ _ hk).1

theorem Inv.ask {x : Option (Nat × Nat)} (h : s.Inv x) (hk : (σ, k + 1) ∉ s.log)
    (hx : x ≠ some (σ, k + 1)) : ∃ cv c, s.ask (σ, k) = { s with cv := cv } ∧
      (∀ y ≠ (σ, k), cv y = s.cv y) ∧ cv (σ, k) = some c ∧
      (s.cv (σ, k) = none ∧ c = {} ∨ s.cv (σ, k) = some c) := by
  have hgone := h.cv σ k
  unfold Pipeliner.ask
  cases hc : s.cv (σ, k) with
  | none => exact ⟨update s.cv (σ, k) (some {}), {}, rfl, by grind, by grind, .inl ⟨rfl, rfl⟩⟩
  | some c =>
    have hc' : c.gone = false := by grind
    exact ⟨s.cv, c, by simp [hc'], fun _ _ => rfl, hc, .inr rfl⟩

theorem Inv.enter (h : s.Inv (some (σ, k))) : (s.enter σ k).Inv none := by
  obtain ⟨-, hstage, hstarting, halive, hlog, hinside, hwaiting, hprev⟩ := h.about σ k rfl
  have hlt (j : Nat) (hj : (σ, j) ∈ s.log) : j < k :=
    Nat.lt_of_not_le fun hkj => hlog (h.down hj hkj)
  have hnext : (σ, k + 1) ∉ s.log := fun hk => absurd (hlt _ hk) (by omega)
  obtain ⟨cv, c, hask, hcv, hc, hold⟩ := h.ask hnext (by grind)
  rw [Pipeliner.enter, hask]
  constructor
  · exact (h.toCore.enter hlt (by omega)).frame rfl rfl rfl
  · exact h.intact
  · nofun
  · have := h.follow
    grind
  · have := h.stage
    grind
  · have := h.waiting
    grind
  · have := h.inside
    grind
  · have := h.gone
    grind
  · intro τ j d hd
    by_cases hj : (τ, j) = (σ, k)
    · have := h.gone σ k
      have := h.cv σ k
      grind
    · have := h.cv τ j
      grind

theorem Inv.release (h : s.Inv none) (k : Nat) : (s.release k).Inv none := by
  unfold Pipeliner.release
  cases hcurr : (s.handles k).curr with
  | none => exact h
  | some σ =>
    have hlog := h.curr σ k hcurr
    obtain ⟨c, hc⟩ : ∃ c, s.cv (σ, k) = some c :=
      Option.ne_none_iff_exists'.mp fun hnone => ((h.gone σ k).mp hnone).1 hlog
    obtain ⟨hgone, hev, hgo⟩ := h.cv σ k c hc
    dsimp only [poke]
    rw [hc]
    dsimp only
    cases hw : c.ev with
    | none =>
      dsimp only
      rw [hw] at hev
      constructor
      · exact h.toCore.frame rfl rfl rfl
      · exact h.intact
      · nofun
      · have := h.follow
        grind
      · exact h.stage
      · have := h.waiting
        grind
      · have := h.inside
        grind
      · have := h.gone
        grind
      · intro τ j d hd
        by_cases hj : (τ, j) = (σ, k)
        · grind
        · have := h.cv τ j
          grind
    | some w =>
      dsimp only [resume]
      apply Inv.enter
      have hwait : (σ, k + 1) ∈ s.waiting := hev.mp (by rw [hw]; rfl)
      obtain ⟨hstage, hlog', hstarting, halive, j, hj, hinside⟩ := h.waiting σ (k + 1) hwait
      cases hj
      constructor
      · exact h.toCore.frame rfl rfl rfl
      · have := h.intact
        grind
      · have := h.inside
        have := h.waiting
        unfold About
        grind
      · have := h.follow
        grind
      · have := h.stage
        grind
      · have := h.waiting
        grind
      · have := h.inside
        grind
      · have := h.gone
        grind
      · intro τ j d hd
        by_cases hj : (τ, j) = (σ, k)
        · grind
        · have := h.cv τ j
          grind

/-- What becomes of the handles when one lets go of its stage. -/
structure Released (s t : Pipeliner) (k : Nat) : Prop where
  inv : t.Inv none
  outside : ∀ σ, t.inside (σ, k) = false
  waiting : ∀ x ∈ t.waiting, x ∈ s.waiting
  next : t.next = s.next
  stage : ∀ j, (t.handles j).stage = (s.handles j).stage
  starting : ∀ j, (t.handles j).starting = (s.handles j).starting
  alive : ∀ j, (t.handles j).alive = (s.handles j).alive

theorem enter_eq (s : Pipeliner) (σ k : Nat) : ∃ cv b, s.enter σ k = { s with
    cv := cv
    broken := b
    handles := update s.handles k { s.handles k with curr := some σ }
    inside := update s.inside (σ, k) true
    log := (σ, k) :: s.log } := by
  unfold Pipeliner.enter Pipeliner.ask
  cases s.cv (σ, k) with
  | none => exact ⟨_, _, rfl⟩
  | some c => exact ⟨_, _, rfl⟩

/-- What a step leaves of the handles in `J`: they stay in their stages, and some come into one. -/
structure Frame (s t : Pipeliner) (J : Nat → Prop) : Prop where
  next : t.next = s.next
  stage : ∀ j, J j → (t.handles j).stage = (s.handles j).stage
  starting : ∀ j, J j → (t.handles j).starting = (s.handles j).starting
  alive : ∀ j, J j → (t.handles j).alive = (s.handles j).alive
  inside : ∀ σ j, J j → s.inside (σ, j) = true → t.inside (σ, j) = true
  log : ∀ σ j, J j → (σ, j) ∈ t.log → (σ, j) ∈ s.log ∨ t.inside (σ, j) = true

theorem Frame.refl {J : Nat → Prop} : Frame s s J :=
  ⟨rfl, fun _ _ => rfl, fun _ _ => rfl, fun _ _ => rfl, fun _ _ _ h => h, fun _ _ _ h => .inl h⟩

theorem Frame.trans {t u : Pipeliner} {J : Nat → Prop} (h : Frame s t J) (h' : Frame t u J) :
    Frame s u J where
  next := h'.next.trans h.next
  stage j hj := (h'.stage j hj).trans (h.stage j hj)
  starting j hj := (h'.starting j hj).trans (h.starting j hj)
  alive j hj := (h'.alive j hj).trans (h.alive j hj)
  inside σ j hj hs := h'.inside σ j hj (h.inside σ j hj hs)
  log σ j hj hu := by
    obtain ht | hu := h'.log σ j hj hu
    · exact (h.log σ j hj ht).imp_right (h'.inside σ j hj)
    · exact .inr hu

theorem Frame.weaken {t : Pipeliner} {J K : Nat → Prop} (h : Frame s t K) (hJ : ∀ j, J j → K j) :
    Frame s t J :=
  ⟨h.next, fun j hj => h.stage j (hJ j hj), fun j hj => h.starting j (hJ j hj),
    fun j hj => h.alive j (hJ j hj), fun σ j hj => h.inside σ j (hJ j hj),
    fun σ j hj => h.log σ j (hJ j hj)⟩

theorem frame_enter (s : Pipeliner) (σ k : Nat) : Frame s (s.enter σ k) fun _ => True := by
  obtain ⟨cv, b, heq⟩ := enter_eq s σ k
  rw [heq]
  exact ⟨rfl, by grind, by grind, by grind, by grind, by grind⟩

theorem frame_release (s : Pipeliner) (k : Nat) : Frame s (s.release k) (· ≠ k) := by
  unfold Pipeliner.release poke
  cases (s.handles k).curr with
  | none => exact ⟨rfl, by grind, by grind, by grind, by grind, by grind⟩
  | some σ =>
    dsimp only
    cases s.cv (σ, k) with
    | none => exact ⟨rfl, by grind, by grind, by grind, by grind, by grind⟩
    | some c =>
      dsimp only
      cases c.ev with
      | none => exact ⟨rfl, by grind, by grind, by grind, by grind, by grind⟩
      | some w =>
        refine Frame.trans ?_ ((frame_enter _ σ (k + 1)).weaken fun _ _ => trivial)
        exact ⟨rfl, by grind, by grind, by grind, by grind, by grind⟩

theorem frame_getNext (s : Pipeliner) (σ k : Nat) : Frame s (s.getNext σ k) fun _ => True := by
  cases k with
  | zero => exact frame_enter s σ 0
  | succ p =>
    obtain ⟨cv, b, hask⟩ : ∃ cv b, s.ask (σ, p) = { s with cv := cv, broken := b } := by
      unfold Pipeliner.ask
      cases s.cv (σ, p) with
      | none => exact ⟨_, _, rfl⟩
      | some c => exact ⟨_, _, rfl⟩
    dsimp only [getNext]
    rw [hask]
    dsimp only
    cases cv (σ, p) with
    | none => exact ⟨rfl, by grind, by grind, by grind, by grind, by grind⟩
    | some c =>
      dsimp only
      split
      · refine Frame.trans ?_ (frame_enter _ σ (p + 1))
        exact ⟨rfl, by grind, by grind, by grind, by grind, by grind⟩
      · exact ⟨rfl, by grind, by grind, by grind, by grind, by grind⟩

theorem Inv.released (h : s.Inv none) (k : Nat) : Released s (s.release k) k := by
  have hinside := h.inside
  have hself : (s.handles k).curr = none → Released s s k := fun hcurr =>
    ⟨h, by grind, fun _ hx => hx, rfl, fun _ => rfl, fun _ => rfl, fun _ => rfl⟩
  have hrel := h.release k
  unfold Pipeliner.release poke at hrel ⊢
  cases hcurr : (s.handles k).curr with
  | none => exact hself hcurr
  | some σ =>
    rw [hcurr] at hrel
    dsimp only at hrel ⊢
    cases hc : s.cv (σ, k) with
    | none =>
      rw [hc] at hrel
      exact ⟨hrel, by grind, fun _ hx => hx, rfl, fun _ => rfl, fun _ => rfl, fun _ => rfl⟩
    | some c =>
      rw [hc] at hrel
      dsimp only at hrel ⊢
      cases hw : c.ev with
      | none =>
        rw [hw] at hrel
        exact ⟨hrel, by grind, fun _ hx => hx, rfl, fun _ => rfl, fun _ => rfl, fun _ => rfl⟩
      | some w =>
        rw [hw] at hrel
        dsimp only at hrel ⊢
        generalize hu : Pipeliner.resume _ σ k _ = u at hrel ⊢
        obtain ⟨cv, b, heq⟩ := enter_eq { s with
          inside := update s.inside (σ, k) false
          broken := s.broken || c.go
          cv := update s.cv (σ, k) (some { c with ev := none, gone := true })
          waiting := s.waiting.filter (· ≠ (σ, k + 1)) } σ (k + 1)
        obtain rfl := heq.symm.trans hu
        exact ⟨hrel, by grind, by grind, rfl, by grind, by grind, by grind⟩

theorem pending_eq_false : s.pending k = false ↔
    (s.handles k).starting = 0 ∧ ∀ σ, (σ, k) ∉ s.waiting := by
  unfold pending
  grind

theorem Inv.advance (h : s.Inv none) (halive : (s.handles k).alive = true)
    (hcalm : s.Calm (.advance k)) :
    ((s.release k).setHandle k fun h => { h with starting := h.starting + 1 }).Inv none := by
  obtain ⟨hinv, houtside, hwaiting, hnext, hstage, hstarting, halive'⟩ := h.released k
  obtain ⟨hpending, hprev⟩ := hcalm
  obtain ⟨hzero, hnone⟩ := pending_eq_false.mp hpending
  have hcore := hinv.toCore.advance (k := k) (by rw [halive', halive]) (by rw [hstarting, hzero])
    fun j hj hdead => by
      simp only [goal, hstage, hstarting]
      exact hprev j hj (by rw [← halive', hdead])
  unfold setHandle at hcore ⊢
  generalize s.release k = t at *
  constructor
  · exact hcore
  · exact hinv.intact
  · nofun
  · exact hinv.follow
  · have := hinv.stage
    grind
  · have := hinv.waiting
    grind
  · have := hinv.inside
    grind
  · exact hinv.gone
  · exact hinv.cv

theorem Inv.destroy (h : s.Inv none) (hpending : s.pending k = false)
    (hcalm : s.Calm (.destroy k)) :
    ((s.release k).setHandle k fun h => { h with alive := false }).Inv none := by
  obtain ⟨hinv, houtside, hwaiting, hnext, hstage, hstarting, halive'⟩ := h.released k
  obtain ⟨hzero, hnone⟩ := pending_eq_false.mp hpending
  have hcore := hinv.toCore.destroy (k := k) (by rw [hstarting, hzero]) (by
    simp only [goal, hstage, hstarting]
    exact hcalm)
  unfold setHandle at hcore ⊢
  generalize s.release k = t at *
  constructor
  · exact hcore
  · exact hinv.intact
  · nofun
  · exact hinv.follow
  · have := hinv.stage
    grind
  · have := hinv.waiting
    grind
  · have := hinv.inside
    grind
  · exact hinv.gone
  · exact hinv.cv

theorem Inv.init (h : s.Inv none) : Pipeliner.Inv
    { s.setHandle s.next fun _ => { alive := true } with next := s.next + 1 } none := by
  have hfresh := h.fresh
  have hcore := h.toCore.init
  unfold setHandle at hcore ⊢
  constructor
  · exact hcore
  · exact h.intact
  · nofun
  · exact h.follow
  · have := h.stage
    grind
  · have := h.waiting
    grind
  · have := h.inside
    grind
  · exact h.gone
  · exact h.cv

/-- A handle is about to ask for its next stage. -/
structure Asks (s : Pipeliner) (σ k : Nat) : Prop where
  stage : (s.handles k).stage = σ
  starting : (s.handles k).starting = 1
  alive : (s.handles k).alive = true
  log : (σ, k) ∉ s.log
  waiting : ∀ τ, (τ, k) ∉ s.waiting
  inside : ∀ τ, s.inside (τ, k) = false

theorem Inv.asks (h : s.Inv none) (hk : (s.handles k).starting ≠ 0) :
    Asks s (s.handles k).stage k where
  stage := rfl
  starting := by
    have := h.one k
    omega
  alive := by
    have := h.dead k
    grind
  log hmem := absurd (h.entered _ _ hmem) (Nat.lt_irrefl _)
  waiting τ hmem := hk (h.waiting τ k hmem).2.2.1
  inside τ := by
    have := h.inside τ k
    grind

/-- Nobody is before the first handle. -/
theorem Inv.askFirst (h : s.Inv none) (ha : Asks s σ 0) : Pipeliner.Inv
    (s.setHandle 0 fun h => { h with starting := h.starting - 1, stage := h.stage + 1 })
    (some (σ, 0)) := by
  obtain ⟨hstage, hstarting, halive, hlog, hwaiting, hinside⟩ := ha
  have hcore := h.toCore.go (k := 0) (by omega)
  unfold setHandle at hcore ⊢
  constructor
  · exact hcore
  · exact h.intact
  · unfold About
    grind
  · exact h.follow
  · have := h.stage
    grind
  · have := h.waiting
    grind
  · have := h.inside
    grind
  · have := h.gone
    grind
  · have := h.cv
    grind

section Asked

variable {p : Nat} {cv : Nat × Nat → Option Cv} {c : Cv} {b : Bool}

/-- The handle before has been in the stage, and left it. -/
theorem Inv.askGo (h : s.Inv none) (ha : Asks s σ (p + 1)) (hcv : ∀ y ≠ (σ, p), cv y = s.cv y)
    (hold : s.cv (σ, p) = none ∧ c = {} ∨ s.cv (σ, p) = some c) (hgo : c.go = true)
    (hb : b = false) : Pipeliner.Inv { s.setHandle (p + 1) fun h =>
        { h with starting := h.starting - 1, stage := h.stage + 1 } with
      broken := b
      cv := update cv (σ, p) (some { c with go := false, gone := true })
      waiting := s.waiting.filter (· ≠ (σ, p + 1)) } (some (σ, p + 1)) := by
  obtain ⟨hstage, hstarting, halive, hlog, hwaiting, hinside⟩ := ha
  have hcore := h.toCore.go (k := p + 1) (by omega)
  have hgone := h.gone σ p
  have hcvs := h.cv σ p
  unfold setHandle at hcore ⊢
  constructor
  · exact hcore.frame rfl rfl rfl
  · exact hb
  · unfold About
    grind
  · exact h.follow
  · have := h.stage
    grind
  · have := h.waiting
    grind
  · have := h.inside
    grind
  · intro τ j
    have := h.gone τ j
    grind
  · intro τ j d hd
    by_cases hj : (τ, j) = (σ, p)
    · grind
    · have := h.cv τ j
      grind

/-- The handle before has yet to leave the stage. -/
theorem Inv.askWait (h : s.Inv none) (ha : Asks s σ (p + 1)) (hcv : ∀ y ≠ (σ, p), cv y = s.cv y)
    (hold : s.cv (σ, p) = none ∧ c = {} ∨ s.cv (σ, p) = some c) (hgo : c.go = false) :
    Pipeliner.Inv { s.setHandle (p + 1) fun h =>
        { h with starting := h.starting - 1, stage := h.stage + 1 } with
      cv := update cv (σ, p) (some { c with ev := some (p + 1) })
      waiting := (σ, p + 1) :: s.waiting } none := by
  obtain ⟨hstage, hstarting, halive, hlog, hwaiting, hinside⟩ := ha
  have hcore := h.toCore.go (k := p + 1) (by omega)
  have hgone := h.gone σ p
  have hcvs := h.cv σ p
  unfold setHandle at hcore ⊢
  constructor
  · exact hcore.frame rfl rfl rfl
  · exact h.intact
  · nofun
  · exact h.follow
  · have := h.stage
    grind
  · have := h.waiting
    grind
  · have := h.inside
    grind
  · intro τ j
    have := h.gone τ j
    grind
  · intro τ j d hd
    by_cases hj : (τ, j) = (σ, p)
    · grind
    · have := h.cv τ j
      grind

end Asked

theorem Inv.proceed (h : s.Inv none) (hk : (s.handles k).starting ≠ 0) : Pipeliner.Inv
    ((s.setHandle k fun h => { h with starting := h.starting - 1, stage := h.stage + 1 }).getNext
      (s.handles k).stage k) none := by
  have ha := h.asks hk
  generalize (s.handles k).stage = σ at ha ⊢
  cases k with
  | zero => exact (h.askFirst ha).enter
  | succ p =>
    obtain ⟨cv, c, hask, hcv, hc, hold⟩ := h.ask (σ := σ) (k := p) ha.log nofun
    have hask' : (s.setHandle (p + 1) fun h =>
        { h with starting := h.starting - 1, stage := h.stage + 1 }).ask (σ, p) =
        { s.setHandle (p + 1) fun h =>
          { h with starting := h.starting - 1, stage := h.stage + 1 } with cv := cv } := by
      unfold Pipeliner.ask setHandle at *
      grind
    dsimp only [getNext]
    rw [hask']
    dsimp only
    rw [hc]
    dsimp only
    have hcvs := h.cv σ p c
    by_cases hgo : c.go = true
    · rw [if_pos hgo]
      refine (h.askGo ha hcv hold hgo ?_).enter
      have := h.intact
      have := ha.waiting σ
      unfold setHandle
      grind
    · rw [if_neg hgo]
      exact h.askWait ha hcv hold (Bool.eq_false_iff.2 hgo)

theorem Inv.step {t : Pipeliner} {e : Event} (h : s.Inv none) (hcalm : s.Calm e)
    (hs : s.step e = some t) : t.Inv none := by
  cases e with
  | init =>
    cases hs
    exact h.init
  | release k =>
    rw [Pipeliner.step] at hs
    split at hs
    · cases hs
      exact h.release k
    · cases hs
  | advance k =>
    rw [Pipeliner.step] at hs
    split at hs
    · next halive =>
      cases hs
      exact h.advance halive hcalm
    · cases hs
  | proceed k =>
    rw [Pipeliner.step] at hs
    split at hs
    · next hk =>
      cases hs
      exact h.proceed hk
    · cases hs
  | destroy k =>
    rw [Pipeliner.step] at hs
    split at hs
    · next hk =>
      cases hs
      exact h.destroy hk.2 hcalm
    · cases hs

theorem inv_empty : Pipeliner.Inv {} none where
  intact := rfl
  about := nofun
  ordered := .nil
  follow := nofun
  entered := nofun
  stage := nofun
  waiting := nofun
  inside := nofun
  curr := nofun
  gone _ _ := ⟨fun _ => ⟨nofun, nofun, nofun, nofun⟩, fun _ => rfl⟩
  cv := nofun
  dead _ _ := ⟨Nat.le_refl 0, rfl⟩
  one _ := Nat.zero_le 1
  fresh _ _ := rfl

theorem Inv.exclusive (h : s.Inv none) {j : Nat} (hj : s.inside (σ, j) = true)
    (hk : s.inside (σ, k) = true) : j = k := by
  have hlt {i l : Nat} (hi : s.inside (σ, i) = true) (hl : s.inside (σ, l) = true) : ¬ i < l := by
    intro hil
    have hlog : (σ, i + 1) ∈ s.log := h.down (h.inside σ l hl).1 hil
    rw [(h.follow σ i hlog).2] at hi
    cases hi
  exact Nat.le_antisymm (Nat.not_lt.mp (hlt hk hj)) (Nat.not_lt.mp (hlt hj hk))

theorem Inv.woken (h : s.Inv none) (hk : (σ, k) ∈ s.waiting) :
    ∃ j < k, (s.handles j).alive = true := by
  obtain ⟨hstage, -, hstarting, -, j, rfl, hj⟩ := h.waiting σ k hk
  refine ⟨j, Nat.lt_succ_self j, ?_⟩
  cases hdead : (s.handles j).alive with
  | true => rfl
  | false =>
    obtain ⟨hgoal, hzero⟩ := h.dead j hdead
    rw [goal, goal, hstage, hstarting, hzero] at hgoal
    obtain hlog | hwait | hx := h.stage σ j (by omega)
    · obtain hinside | hlog' := hj
      · have halive := (h.inside σ j hinside).2.2.2.1
        rw [hdead] at halive
        cases halive
      · exact absurd hlog hlog'
    · have halive := (h.waiting σ j hwait).2.2.2.1
      rw [hdead] at halive
      cases halive
    · cases hx

theorem pipeline_sound (h : system.Reach Calm s) : s.Sound := by
  have hinv : s.Inv none := by
    refine h.invariant (I := fun s => s.Inv none) ?_ fun s e t _ hi hc hs => hi.step hc hs
    rintro s rfl
    exact inv_empty
  exact ⟨fun σ j k hj hk => hinv.exclusive hj hk, hinv.ordered, hinv.intact,
    fun σ k hk => hinv.woken hk⟩

end Invariant

section Runs

/-- Two handles, the second of which waits for the first, which is then destroyed. -/
def handOver : Pipeliner := (system.exec {} [.init, .init, .advance 0, .proceed 0, .advance 1,
  .proceed 1, .destroy 0]).getD {}

theorem pipeline_sound_two : handOver.log = [(0, 1), (0, 0)] ∧ handOver.Sound := by
  have h₀ : system.Reach Calm {} := .init rfl
  have h₁ := h₀.step (e := Event.init) trivial rfl
  have h₂ := h₁.step (e := Event.init) trivial rfl
  have h₃ := h₂.step (e := Event.advance 0) ⟨rfl, nofun⟩ rfl
  have h₄ := h₃.step (e := Event.proceed 0) trivial rfl
  have h₅ := h₄.step (e := Event.advance 1) ⟨rfl, fun j hj => by cases hj; nofun⟩ rfl
  have h₆ := h₅.step (e := Event.proceed 1) trivial rfl
  have h₇ := h₆.step (e := Event.destroy 0) (Nat.le_refl 1) rfl
  exact ⟨rfl, pipeline_sound h₇⟩

/-- The first handle is destroyed after one stage, and the second waits for it in the next stage. -/
theorem pipeline_stalls : ¬ ∀ s, system.Reachable s → s.Sound := by
  intro h
  obtain ⟨j, hj, halive⟩ := (h _ (Lib.System.reachable_exec
    [.init, .init, .advance 0, .proceed 0, .destroy 0, .advance 1, .proceed 1, .advance 1,
      .proceed 1] rfl rfl)).woken 1 1 (by decide)
  obtain rfl : j = 0 := by omega
  cases halive

end Runs

end Pipeliner

end Okws
