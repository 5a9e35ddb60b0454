import Mathlib.Tactic.Common

/-! Systems that take one labelled step after another.  Which step comes next is not theirs to
choose: a label names an event, and the step says what the event does, or that it cannot happen
now. -/

universe u v

namespace Okws.Lib

structure System (S : Type u) (E : Type v) where
  init : S → Prop
  step : S → E → Option S

namespace System

variable {S : Type u} {E : Type v}

/-- The states of the runs in which every event satisfies `C` in the state it comes in. -/
inductive Reach (M : System S E) (C : S → E → Prop) : S → Prop
  | init {s} : M.init s → Reach M C s
  | step {s s' e} : Reach M C s → C s e → M.step s e = some s' → Reach M C s'

def Reachable (M : System S E) : S → Prop := M.Reach fun _ _ => True

variable {M : System S E} {s s' : S}

theorem Reach.mono {C D : S → E → Prop} (hCD : ∀ s e, C s e → D s e) (h : M.Reach C s) :
    M.Reach D s := by
  induction h with
  | init hs => exact .init hs
  | step _ hC hs ih => exact ih.step (hCD _ _ hC) hs

theorem Reach.reachable {C : S → E → Prop} (h : M.Reach C s) : M.Reachable s :=
  h.mono fun _ _ _ => trivial

theorem Reach.invariant {C : S → E → Prop} {I : S → Prop} (hinit : ∀ s, M.init s → I s)
    (hstep : ∀ s e s', M.Reach C s → I s → C s e → M.step s e = some s' → I s') (h : M.Reach C s) :
    I s := by
  induction h with
  | init hs => exact hinit _ hs
  | step hr hC hs ih => exact hstep _ _ _ hr ih hC hs

def exec (M : System S E) : S → List E → Option S
  | s, [] => some s
  | s, e :: es => (M.step s e).bind fun s' => M.exec s' es

theorem exec_append (s : S) (es fs : List E) :
    M.exec s (es ++ fs) = (M.exec s es).bind fun t => M.exec t fs := by
  induction es generalizing s with
  | nil => rfl
  | cons e es ih =>
    rw [List.cons_append, exec, exec, Option.bind_assoc]
    exact Option.bind_congr fun t _ => ih t

theorem Reach.exec {C : S → E → Prop} {es : List E} (h : M.Reach C s)
    (hC : ∀ s e, e ∈ es → C s e) (hes : M.exec s es = some s') : M.Reach C s' := by
  induction es generalizing s with
  | nil => cases hes; exact h
  | cons e es ih =>
    obtain ⟨t, ht, hes⟩ := Option.bind_eq_some_iff.mp hes
    exact ih (h.step (hC s e (.head _)) ht) (fun s e he => hC s e (.tail _ he)) hes

theorem reachable_exec (es : List E) (hs : M.init s) (hes : M.exec s es = some s') :
    M.Reachable s' :=
  Reach.exec (.init hs) (fun _ _ _ => trivial) hes

end System

end Okws.Lib
