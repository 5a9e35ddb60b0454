import Mathlib.Tactic.Common

/-! Machines that stop in the middle of a run to wait for input.  A step either
goes on, suspends the machine in a saved state, or ends the run with an outcome;
a suspended machine is re-entered from its saved state.  The question treated
here is when the suspensions leave no trace in the outcome. -/

universe u v

namespace Okws.Lib

inductive Iter (W : Type u) (O : Type v)
  | next : W → Iter W O
  | wait : W → Iter W O
  | stop : O → Iter W O
  deriving DecidableEq

/-- Two steps with equal outcomes and related states. -/
inductive Iter.Rel {W : Type u} {O : Type v} (E : W → W → Prop) : Iter W O → Iter W O → Prop
  | next {w w'} : E w w' → Iter.Rel E (.next w) (.next w')
  | wait {w w'} : E w w' → Iter.Rel E (.wait w) (.wait w')
  | stop {o} : Iter.Rel E (.stop o) (.stop o)

theorem Iter.Rel.trans {W : Type u} {O : Type v} {E : W → W → Prop}
    (hE : ∀ x y z, E x y → E y z → E x z) {a b c : Iter W O}
    (h : Iter.Rel E a b) (h' : Iter.Rel E b c) : Iter.Rel E a c := by
  cases h with
  | next h => cases h' with | next h' => exact .next (hE _ _ _ h h')
  | wait h => cases h' with | wait h' => exact .wait (hE _ _ _ h h')
  | stop => cases h'; exact .stop

@[refl] theorem Iter.Rel.refl {W : Type u} {O : Type v} {E : W → W → Prop} (hE : ∀ x, E x x) :
    ∀ a : Iter W O, Iter.Rel E a a
  | .next w => .next (hE w)
  | .wait w => .wait (hE w)
  | .stop _ => .stop

structure Machine (W : Type u) (O : Type v) where
  step : W → Iter W O
  resume : W → W

namespace Machine

variable {W : Type u} {O : Type v} {M : Machine W O} {w w' : W} {o o' : O}

def run (M : Machine W O) : Nat → W → Option O
  | 0, _ => none
  | n + 1, w => match M.step w with
    | .next w' => M.run n w'
    | .wait w' => M.run n (M.resume w')
    | .stop o => some o

attribute [local simp] run

/-- The run from `w`, suspensions included, ends with `o`. -/
def Ends (M : Machine W O) (w : W) (o : O) : Prop := ∃ n, M.run n w = some o

inductive Reaches (M : Machine W O) (w : W) : W → Prop
  | refl : Reaches M w w
  | next {u u'} : Reaches M w u → M.step u = .next u' → Reaches M w u'
  | wait {u u'} : Reaches M w u → M.step u = .wait u' → Reaches M w (M.resume u')

theorem run_mono {n m : Nat} (h : M.run n w = some o) (hnm : n ≤ m) : M.run m w = some o := by
  induction n generalizing m w with
  | zero => cases h
  | succ n ih =>
    obtain ⟨m, rfl⟩ : ∃ k, m = k + 1 := ⟨m - 1, by omega⟩
    simp only [run] at h ⊢
    cases hs : M.step w with
    | next w' => rw [hs] at h; exact ih h (by omega)
    | wait w' => rw [hs] at h; exact ih h (by omega)
    | stop o' => rw [hs] at h; exact h

theorem Ends.unique (h : M.Ends w o) (h' : M.Ends w o') : o = o' := by
  obtain ⟨n, hn⟩ := h
  obtain ⟨m, hm⟩ := h'
  have hn' := run_mono hn (Nat.le_max_left n m)
  have hm' := run_mono hm (Nat.le_max_right n m)
  exact Option.some.inj (hn'.symm.trans hm')

theorem not_ends_of_runs {n : Nat} (h : (M.run n w).isSome) (h' : (M.run n w').isSome)
    (hne : M.run n w ≠ M.run n w') : ¬ ∃ o, M.Ends w o ∧ M.Ends w' o := by
  rintro ⟨o, e, e'⟩
  obtain ⟨x, hx⟩ := Option.isSome_iff_exists.1 h
  obtain ⟨x', hx'⟩ := Option.isSome_iff_exists.1 h'
  rw [hx, hx', e.unique ⟨n, hx⟩ |>.symm, e'.unique ⟨n, hx'⟩ |>.symm] at hne
  exact hne rfl

theorem ends_next (h : M.step w = .next w') : M.Ends w o ↔ M.Ends w' o := by
  constructor
  · rintro ⟨n, hn⟩
    cases n with
    | zero => cases hn
    | succ n => rw [run, h] at hn; exact ⟨n, hn⟩
  · rintro ⟨n, hn⟩
    exact ⟨n + 1, by rw [run, h]; exact hn⟩

theorem ends_wait (h : M.step w = .wait w') : M.Ends w o ↔ M.Ends (M.resume w') o := by
  constructor
  · rintro ⟨n, hn⟩
    cases n with
    | zero => cases hn
    | succ n => rw [run, h] at hn; exact ⟨n, hn⟩
  · rintro ⟨n, hn⟩
    exact ⟨n + 1, by rw [run, h]; exact hn⟩

theorem ends_stop (h : M.step w = .stop o') : M.Ends w o ↔ o' = o := by
  constructor
  · rintro ⟨n, hn⟩
    cases n with
    | zero => cases hn
    | succ n => rw [run, h] at hn; exact Option.some.inj hn
  · rintro rfl
    exact ⟨1, by rw [run, h]⟩

theorem Reaches.trans {u : W} (h : M.Reaches w w') (h' : M.Reaches w' u) : M.Reaches w u := by
  induction h' with
  | refl => exact h
  | next _ hs ih => exact ih.next hs
  | wait _ hs ih => exact ih.wait hs

theorem Reaches.ends (h : M.Reaches w w') : M.Ends w o ↔ M.Ends w' o := by
  induction h with
  | refl => exact Iff.rfl
  | next _ hs ih => exact ih.trans (ends_next hs)
  | wait _ hs ih => exact ih.trans (ends_wait hs)

def After (M : Machine W O) (o : O) : Iter W O → Prop
  | .next w => M.Ends w o
  | .wait w => M.Ends (M.resume w) o
  | .stop o' => o' = o

theorem ends_iff_after : M.Ends w o ↔ M.After o (M.step w) := by
  cases h : M.step w with
  | next w' => exact ends_next h
  | wait w' => exact ends_wait h
  | stop o' => exact ends_stop h

theorem Ends.last (h : M.Ends w o) : ∃ u, M.Reaches w u ∧ M.step u = .stop o := by
  obtain ⟨n, hn⟩ := h
  induction n generalizing w with
  | zero => cases hn
  | succ n ih =>
    rw [run] at hn
    cases hs : M.step w with
    | stop o' =>
      rw [hs] at hn
      cases hn
      exact ⟨w, .refl, hs⟩
    | next w' =>
      rw [hs] at hn
      obtain ⟨u, hu, hu'⟩ := ih hn
      exact ⟨u, (Reaches.refl.next hs).trans hu, hu'⟩
    | wait w' =>
      rw [hs] at hn
      obtain ⟨u, hu, hu'⟩ := ih hn
      exact ⟨u, (Reaches.refl.wait hs).trans hu, hu'⟩

/-- The state after `n` steps. -/
def stateAt (M : Machine W O) : Nat → W → Option W
  | 0, w => some w
  | n + 1, w => match M.step w with
    | .next w' => M.stateAt n w'
    | .wait w' => M.stateAt n (M.resume w')
    | .stop _ => none

theorem reaches_of_stateAt {n : Nat} (h : M.stateAt n w = some w') : M.Reaches w w' := by
  induction n generalizing w with
  | zero =>
    cases h
    exact .refl
  | succ n ih =>
    rw [stateAt] at h
    cases hs : M.step w with
    | stop o => rw [hs] at h; cases h
    | next u => rw [hs] at h; exact (Reaches.refl.next hs).trans (ih h)
    | wait u => rw [hs] at h; exact (Reaches.refl.wait hs).trans (ih h)

theorem Reaches.invariant {I : W → Prop} (hnext : ∀ {u u'}, I u → M.step u = .next u' → I u')
    (hwait : ∀ {u u'}, I u → M.step u = .wait u' → I (M.resume u'))
    (h : M.Reaches w w') (hw : I w) : I w' := by
  induction h with
  | refl => exact hw
  | next _ hs ih => exact hnext ih hs
  | wait _ hs ih => exact hwait ih hs

theorem ends_of_measure {I : W → Prop} (μ : W → Nat)
    (hnext : ∀ {u u'}, I u → M.step u = .next u' → I u' ∧ μ u' < μ u)
    (hwait : ∀ {u u'}, I u → M.step u = .wait u' → I (M.resume u') ∧ μ (M.resume u') < μ u)
    (hw : I w) : ∃ o, M.Ends w o := by
  induction hn : μ w using Nat.strongRecOn generalizing w with
  | _ n ih =>
  cases hs : M.step w with
  | stop o => exact ⟨o, (ends_stop hs).2 rfl⟩
  | next w' =>
    obtain ⟨hI, hlt⟩ := hnext hw hs
    obtain ⟨o, ho⟩ := ih _ (hn ▸ hlt) hI rfl
    exact ⟨o, (ends_next hs).2 ho⟩
  | wait w' =>
    obtain ⟨hI, hlt⟩ := hwait hw hs
    obtain ⟨o, ho⟩ := ih _ (hn ▸ hlt) hI rfl
    exact ⟨o, (ends_wait hs).2 ho⟩

/-- Every suspension of the run from `w` satisfies `P`, a predicate on the state
whose step suspends and on the state that is saved. -/
def Suspends (M : Machine W O) (P : W → W → Prop) (w : W) : Prop :=
  ∀ u u', M.Reaches w u → M.step u = .wait u' → P u u'

theorem Suspends.next {P : W → W → Prop} (h : M.Suspends P w) (hs : M.step w = .next w') :
    M.Suspends P w' :=
  fun u u' hu => h u u' ((Reaches.refl.next hs).trans hu)

theorem Suspends.wait {P : W → W → Prop} (h : M.Suspends P w) (hs : M.step w = .wait w') :
    M.Suspends P (M.resume w') :=
  fun u u' hu => h u u' ((Reaches.refl.wait hs).trans hu)

theorem Reaches.head {u : W} (h : M.Reaches w u) :
    u = w ∨ (∃ w', M.step w = .next w' ∧ M.Reaches w' u) ∨
      ∃ w', M.step w = .wait w' ∧ M.Reaches (M.resume w') u := by
  induction h with
  | refl => exact .inl rfl
  | next _ hs ih =>
    obtain rfl | ⟨w', hw, hr⟩ | ⟨w', hw, hr⟩ := ih
    · exact .inr (.inl ⟨_, hs, .refl⟩)
    · exact .inr (.inl ⟨w', hw, hr.next hs⟩)
    · exact .inr (.inr ⟨w', hw, hr.next hs⟩)
  | wait _ hs ih =>
    obtain rfl | ⟨w', hw, hr⟩ | ⟨w', hw, hr⟩ := ih
    · exact .inr (.inr ⟨_, hs, .refl⟩)
    · exact .inr (.inl ⟨w', hw, hr.wait hs⟩)
    · exact .inr (.inr ⟨w', hw, hr.wait hs⟩)

/-- Looks at all the suspensions of a run of at most `n` steps. -/
def checkSuspends (M : Machine W O) (P : W → W → Prop) [∀ u u', Decidable (P u u')] :
    Nat → W → Bool
  | 0, _ => false
  | n + 1, w => match M.step w with
    | .next w' => M.checkSuspends P n w'
    | .wait w' => decide (P w w') && M.checkSuspends P n (M.resume w')
    | .stop _ => true

theorem suspends_of_check {P : W → W → Prop} [∀ u u', Decidable (P u u')] {n : Nat}
    (h : M.checkSuspends P n w = true) : M.Suspends P w := by
  induction n generalizing w with
  | zero => cases h
  | succ n ih =>
    intro u u' hu hs
    rw [checkSuspends] at h
    obtain rfl | ⟨w', hw, hr⟩ | ⟨w', hw, hr⟩ := hu.head
    · simp only [hs, Bool.and_eq_true, decide_eq_true_eq] at h
      exact h.1
    · simp only [hw] at h
      exact ih h u u' hr hs
    · simp only [hw, Bool.and_eq_true] at h
      exact ih h.2 u u' hr hs

theorem Suspends.of_next {P : W → W → Prop} (h : M.Suspends P w') (hs : M.step w = .next w') :
    M.Suspends P w := by
  intro u u' hu hu'
  obtain rfl | ⟨x, hx, hr⟩ | ⟨x, hx, hr⟩ := hu.head
  · cases hs.symm.trans hu'
  · cases hs.symm.trans hx
    exact h u u' hr hu'
  · cases hs.symm.trans hx

theorem Suspends.of_wait {P : W → W → Prop} (h : M.Suspends P (M.resume w')) (hP : P w w')
    (hs : M.step w = .wait w') : M.Suspends P w := by
  intro u u' hu hu'
  obtain rfl | ⟨x, hx, hr⟩ | ⟨x, hx, hr⟩ := hu.head
  · cases hs.symm.trans hu'
    exact hP
  · cases hs.symm.trans hx
  · cases hs.symm.trans hx
    exact h u u' hr hu'

theorem suspends_of_stop {P : W → W → Prop} (hs : M.step w = .stop o) : M.Suspends P w := by
  intro u u' hu hu'
  obtain rfl | ⟨x, hx, hr⟩ | ⟨x, hx, hr⟩ := hu.head
  · cases hs.symm.trans hu'
  · cases hs.symm.trans hx
  · cases hs.symm.trans hx

/-- `A` does in one step what may take `M` several, and suspends where `M` does. -/
structure Stutters {X : Type u} (M : Machine W O) (A : Machine X O) (R : W → X → Prop)
    (P : W → W → Prop) (Q : X → X → Prop) : Prop where
  next : ∀ {w w' a}, R w a → M.step w = .next w' → R w' a ∨ ∃ a', A.step a = .next a' ∧ R w' a'
  wait : ∀ {w w' a}, R w a → M.step w = .wait w' →
    ∃ a', A.step a = .wait a' ∧ R (M.resume w') (A.resume a') ∧ (P w w' → Q a a')
  stop : ∀ {w a o}, R w a → M.step w = .stop o → A.step a = .stop o

theorem Stutters.ends {X : Type u} {A : Machine X O} {R : W → X → Prop} {P : W → W → Prop}
    {Q : X → X → Prop} (H : Stutters M A R P Q) {a : X} (ha : R w a) (h : M.Ends w o) :
    A.Ends a o ∧ (M.Suspends P w → A.Suspends Q a) := by
  obtain ⟨n, hn⟩ := h
  induction n generalizing w a with
  | zero => cases hn
  | succ n ih =>
    rw [run] at hn
    cases hs : M.step w with
    | stop o' =>
      rw [hs] at hn
      cases hn
      have hstop := H.stop ha hs
      exact ⟨(ends_stop hstop).2 rfl, fun _ => suspends_of_stop hstop⟩
    | next w' =>
      rw [hs] at hn
      obtain ha' | ⟨a', hs', ha'⟩ := H.next ha hs
      · obtain ⟨h₁, h₂⟩ := ih ha' hn
        exact ⟨h₁, fun hP => h₂ (hP.next hs)⟩
      · obtain ⟨h₁, h₂⟩ := ih ha' hn
        exact ⟨(ends_next hs').2 h₁, fun hP => (h₂ (hP.next hs)).of_next hs'⟩
    | wait w' =>
      rw [hs] at hn
      obtain ⟨a', hs', ha', hPQ⟩ := H.wait ha hs
      obtain ⟨h₁, h₂⟩ := ih ha' hn
      exact ⟨(ends_wait hs').2 h₁,
        fun hP => (h₂ (hP.wait hs)).of_wait (hPQ (hP _ _ .refl hs)) hs'⟩

/-- Two states that come together within `n` steps. -/
def Meets (M : Machine W O) : Nat → W → W → Prop
  | 0, w, w' => w = w'
  | n + 1, w, w' => w = w' ∨ Iter.Rel (M.Meets n) (M.step w) (M.step w')

/-- Two states that run side by side until they come together. -/
def Joins (M : Machine W O) (w w' : W) : Prop := ∃ n, M.Meets n w w'

theorem Joins.refl (w : W) : M.Joins w w := ⟨0, rfl⟩

theorem Joins.of_step (h : Iter.Rel M.Joins (M.step w) (M.step w')) : M.Joins w w' := by
  generalize hx : M.step w = x at h
  generalize hy : M.step w' = y at h
  cases h with
  | next h =>
    obtain ⟨n, hn⟩ := h
    refine ⟨n + 1, .inr ?_⟩
    rw [hx, hy]
    exact .next hn
  | wait h =>
    obtain ⟨n, hn⟩ := h
    refine ⟨n + 1, .inr ?_⟩
    rw [hx, hy]
    exact .wait hn
  | stop =>
    refine ⟨1, .inr ?_⟩
    rw [hx, hy]
    exact .stop

theorem Joins.congr (h : M.Joins w w') : Iter.Rel M.Joins (M.step w) (M.step w') := by
  obtain ⟨n, hn⟩ := h
  cases n with
  | zero =>
    cases hn
    exact Iter.Rel.refl Joins.refl _
  | succ n =>
    obtain rfl | hn := hn
    · exact Iter.Rel.refl Joins.refl _
    · generalize M.step w = x at hn
      generalize M.step w' = y at hn
      cases hn with
      | next h => exact .next ⟨n, h⟩
      | wait h => exact .wait ⟨n, h⟩
      | stop => exact .stop

theorem Joins.trans {u : W} (h : M.Joins w w') (h' : M.Joins w' u) : M.Joins w u := by
  obtain ⟨n, hn⟩ := h
  induction n generalizing w w' u with
  | zero =>
    cases hn
    exact h'
  | succ n ih =>
    obtain rfl | hn := hn
    · exact h'
    · have hu := h'.congr
      refine .of_step ?_
      generalize M.step w = x at hn
      generalize M.step w' = y at hn hu
      generalize M.step u = z at hu
      cases hn with
      | next hn => cases hu with | next hu => exact .next (ih hu hn)
      | wait hn => cases hu with | wait hu => exact .wait (ih hu hn)
      | stop => cases hu; exact .stop

/-- The data of an argument that suspensions leave no trace.  `unwait w` is the
state `w` with all its future suspensions taken out of the input; `E` relates
states that no later step can tell apart; `P` says which suspensions are harmless. -/
structure Merge (M : Machine W O) (unwait : W → W) (E : W → W → Prop) (Inv : W → Prop)
    (P : W → W → Prop) (waits : W → Nat) : Prop where
  trans : ∀ x y z, E x y → E y z → E x z
  congr : ∀ {m m'}, E m m' → Iter.Rel E (M.step m) (M.step m')
  inv_next : ∀ {w w'}, Inv w → M.step w = .next w' → Inv w'
  inv_wait : ∀ {w w'}, Inv w → M.step w = .wait w' → Inv (M.resume w')
  waits_next : ∀ {w w'}, Inv w → M.step w = .next w' → waits w' ≤ waits w
  waits_wait : ∀ {w w'}, Inv w → M.step w = .wait w' → waits (M.resume w') < waits w
  next : ∀ {w w'}, Inv w → M.step w = .next w' →
    Iter.Rel E (M.step (unwait w)) (.next (unwait w'))
  stop : ∀ {w o}, Inv w → M.step w = .stop o → M.step (unwait w) = .stop o
  wait : ∀ {w w'}, Inv w → M.step w = .wait w' → P w w' →
    Iter.Rel E (M.step (unwait w)) (M.step (unwait (M.resume w')))

variable {unwait : W → W} {E : W → W → Prop} {Inv : W → Prop} {P : W → W → Prop} {waits : W → Nat}

theorem Merge.ends_of_run (H : Merge M unwait E Inv P waits) {n : Nat} {m : W} (hw : Inv w)
    (hP : M.Suspends P w) (hm : Iter.Rel E (M.step m) (M.step (unwait w)))
    (h : M.run n w = some o) : M.Ends m o := by
  induction n generalizing w m with
  | zero => cases h
  | succ n ih =>
    rw [run] at h
    cases hs : M.step w with
    | stop o' =>
      rw [hs] at h
      cases h
      rw [H.stop hw hs] at hm
      generalize hm' : M.step m = x at hm
      cases hm
      exact (ends_stop hm').2 rfl
    | next w' =>
      rw [hs] at h
      generalize hm' : M.step m = x at hm
      cases hm.trans H.trans (H.next hw hs) with
      | next he =>
        exact (ends_next hm').2 (ih (H.inv_next hw hs) (hP.next hs) (H.congr he) h)
    | wait w' =>
      rw [hs] at h
      have he := H.wait hw hs (hP _ _ .refl hs)
      exact ih (H.inv_wait hw hs) (hP.wait hs) (hm.trans H.trans he) h

theorem Merge.run_of_ends (H : Merge M unwait E Inv P waits) {n : Nat} {m : W} (hw : Inv w)
    (hP : M.Suspends P w) (hm : Iter.Rel E (M.step m) (M.step (unwait w)))
    (h : M.run n m = some o) : M.Ends w o := by
  -- a suspension of `w` is no step of `m`: the number of suspensions to come goes down instead
  induction hk : waits w using Nat.strongRecOn generalizing n w m with
  | _ k ihk =>
  induction n generalizing w m k with
  | zero => cases h
  | succ n ih =>
    cases hs : M.step w with
    | stop o' =>
      rw [H.stop hw hs] at hm
      generalize hm' : M.step m = x at hm
      cases hm
      rw [run, hm'] at h
      exact (ends_stop hs).2 (Option.some.inj h)
    | next w' =>
      generalize hm' : M.step m = x at hm
      cases hm.trans H.trans (H.next hw hs) with
      | next he =>
        rw [run, hm'] at h
        refine (ends_next hs).2 ?_
        rcases Nat.lt_or_ge (waits w') k with hlt | hge
        · exact ihk _ hlt (H.inv_next hw hs) (hP.next hs) (H.congr he) h rfl
        · have heq : waits w' = k := Nat.le_antisymm (hk ▸ H.waits_next hw hs) hge
          exact ih k ihk (H.inv_next hw hs) (hP.next hs) (H.congr he) h heq
    | wait w' =>
      have he := H.wait hw hs (hP _ _ .refl hs)
      exact (ends_wait hs).2 (ihk _ (hk ▸ H.waits_wait hw hs) (H.inv_wait hw hs) (hP.wait hs)
        (hm.trans H.trans he) h rfl)

theorem Merge.ends_iff (H : Merge M unwait E Inv P waits) (hE : ∀ x, E x x) (hw : Inv w)
    (hP : M.Suspends P w) : M.Ends w o ↔ M.Ends (unwait w) o := by
  constructor
  · rintro ⟨n, h⟩
    exact H.ends_of_run hw hP (Iter.Rel.refl hE _) h
  · rintro ⟨n, h⟩
    exact H.run_of_ends hw hP (Iter.Rel.refl hE _) h

end Machine

end Okws.Lib
