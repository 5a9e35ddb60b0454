import Okws.Flow
import Okws.KeptFile

namespace Okws.Pub3

open Zbuf Lib

def Control.jump (c : Control) : Option Jump → Control
  | none => c
  | some .brk => { c with brk := true }
  | some .cont => { c with cont := true }
  | some (.leave (.rtrn x)) => { c with rtrn := some x }
  | some (.leave .exit) => { c with exit := true }

def State.jump (s : State) (j : Option Jump) : State := { s with control := s.control.jump j }

/-- No jump is under way, but the end of the file may have been asked for. -/
structure Settled (s : State) : Prop where
  brk : s.control.brk = false
  cont : s.control.cont = false
  rtrn : s.control.rtrn = none

namespace Step

/-- An `exit` goes on where it is not asked for, or a jump leaves a heredoc. -/
def stray : Step → Bool
  | .strayed | .jumped => true
  | _ => false

def Straight (e : Step) : Prop := e.stray = false

instance : DecidablePred Straight := fun e => inferInstanceAs (Decidable (e.stray = false))

theorem strayed_crooked : ¬ Straight .strayed := Bool.noConfusion

theorem jumped_crooked : ¬ Straight .jumped := Bool.noConfusion

theorem clean (H : Host) : Clean H Straight False True :=
  ⟨False.elim, False.elim, False.elim, fun _ => jumped_crooked⟩

end Step

theorem Settled.kept {p : Prop} {s t : State} (hs : Settled s) (h : Kept p True s t) :
    Settled t := by
  obtain hc | ⟨_, hc⟩ := h.control trivial
  · exact ⟨hc ▸ hs.brk, hc ▸ hs.cont, hc ▸ hs.rtrn⟩
  · exact ⟨by rw [hc]; exact hs.brk, by rw [hc]; exact hs.cont, by rw [hc]; exact hs.rtrn⟩

theorem Settled.of_calm {s : State} (h : s.control.jumps = false) : Settled s := by
  simp only [Control.jumps, Bool.or_eq_false_iff, Option.isSome_eq_false_iff,
    Option.isNone_iff_eq_none] at h
  exact ⟨h.1.1.1, h.1.2, h.1.1.2⟩

theorem Settled.cleared {s : State} (hs : Settled s) :
    ({ s with control := { s.control with brk := false, cont := false } } : State) = s := by
  obtain ⟨hb, hc, -⟩ := hs
  conv_rhs => rw [show s = { s with control := { s.control with
    brk := s.control.brk, cont := s.control.cont } } from rfl, hb, hc]

theorem jump_jumps (s : State) (j : Jump) : (s.jump (some j)).control.jumps = true := by
  obtain _ | _ | (x | _) := j <;> simp [State.jump, Control.jump, Control.jumps]

/-- The first run ends as the second one does, with the jump in its flags. -/
inductive Carry {α β : Type} (φ : β → α × Option Jump) (s : State) :
    Run Nat State Step α → Run Nat State Step β → Prop
  | none (l : List Step) : Carry φ s ⟨none, l⟩ ⟨none, l⟩
  | some (b : β) (x : Nat) (t : State) (l : List Step) (h : Settled s → Settled t) :
    Carry φ s ⟨some ((φ b).1, x, t.jump (φ b).2), l⟩ ⟨some (b, x, t), l⟩

/-- The first program, begun with the flags of `j`, carries on the second one. -/
def Carries (pre : State → Prop) (j : Option Jump) {α β : Type} (φ : β → α × Option Jump)
    (m : Eval α) (m' : Eval β) : Prop :=
  ∀ x s, pre s → (∀ e ∈ (m x (s.jump j)).log, e.Straight) → Carry φ s (m x (s.jump j)) (m' x s)

def stays {α : Type} (a : α) : α × Option Jump := (a, none)

def leaves {α : Type} (r : α × Option Leave) : α × Option Jump := (r.1, r.2.map .leave)

/-- The two programs do the same, and neither of them jumps. -/
structure Settles {α : Type} (m m' : Eval α) : Prop where
  agrees : Agrees Step.Straight True True m m'
  keeps : Keeps Step.Straight (Kept False True) m

/-- An action that knows nothing of the flags. -/
structure Inert {α : Type} (f : Act α) : Prop where
  jump : ∀ s j, f (s.jump j) = (f s).map fun r => (r.1, r.2.jump j)
  control : ∀ s r, f s = some r → r.2.control = s.control

namespace Inert

variable {α : Type}

theorem onHeap (m : Mem α) : Inert (onHeap m) where
  jump s j := by
    simp only [Pub3.onHeap, State.jump, Option.map_map]
    rfl
  control s r h := by
    obtain ⟨q, _, hq⟩ := Option.map_eq_some_iff.mp h
    cases hq
    rfl

theorem stackSize : Inert stackSize where
  jump _ _ := rfl
  control s r h := by
    cases h
    rfl

theorem popTo (i : Nat) : Inert (popTo i) where
  jump _ _ := rfl
  control s r h := by
    cases h
    rfl

end Inert

namespace Carries

variable {α β γ δ : Type} {pre pre' : State → Prop} {j : Option Jump} {φ : β → α × Option Jump}
  {ψ : δ → γ × Option Jump}

theorem weaken {m : Eval α} {m' : Eval β} (h : Carries pre j φ m m')
    (hpre : ∀ s, pre' s → pre s) : Carries pre' j φ m m' :=
  fun x s hs hl => h x s (hpre s hs) hl

theorem stuck : Carries pre j φ Prog.stuck Prog.stuck := fun _ _ _ _ => .none []

theorem pure {a : α} {b : β} (h : φ b = (a, j)) : Carries pre j φ (Pure.pure a) (Pure.pure b) := by
  intro x s _ _
  have hc := Carry.some (φ := φ) (s := s) b x s [] id
  rw [h] at hc
  exact hc

theorem bind {m : Eval α} {m' : Eval β} {k : α → Eval γ} {k' : β → Eval δ}
    (h : Carries Settled j φ m m')
    (hk : ∀ b, Carries Settled (φ b).2 ψ (k (φ b).1) (k' b)) :
    Carries Settled j ψ (m >>= k) (m' >>= k') := by
  intro x s hs hl
  have h := h x s hs
  generalize s.jump j = s₁ at h hl ⊢
  generalize hr : m x s₁ = r at h
  generalize hr' : m' x s = r' at h
  obtain ⟨_ | ⟨a, y, t⟩, l⟩ := r
  · rw [Prog.bind_none k hr] at hl ⊢
    cases h hl
    rw [Prog.bind_none k' hr']
    exact .none l
  · rw [Prog.bind_some k hr] at hl ⊢
    have h := h fun e he => hl e (List.mem_append_left _ he)
    generalize hq : (⟨some (a, y, t), l⟩ : Run Nat State Step α) = q at h
    cases h with
    | none => cases hq
    | some b y t' l hset =>
      cases hq
      rw [Prog.bind_some k' hr']
      have hk := hk b y t' (hset hs) fun e he => hl e (List.mem_append_right _ he)
      generalize k (φ b).1 y (t'.jump (φ b).2) = r₁ at hk
      generalize k' b y t' = r₂ at hk
      cases hk with
      | none l' => exact .none _
      | some c z u l' hu => exact .some c z u _ fun hs => hu (hset hs)

theorem ofSettles {m m' : Eval α} (h : Settles m m') : Carries pre none stays m m' := by
  intro x s _ hl
  change ∀ e ∈ (m x s).log, e.Straight at hl
  change Carry stays s (m x s) (m' x s)
  have ha := h.agrees x x s (fun _ => rfl) hl
  have hset : ∀ r, (m x s).out = some r → Settled s → Settled r.2.2 :=
    fun r hr hs => hs.kept (h.keeps s x r hr hl)
  generalize m x s = r₁ at ha hset
  generalize m' x s = r₂ at ha
  cases ha with
  | none l => exact .none l
  | some a t l hx =>
    cases hx trivial
    exact .some a _ t l (hset _ rfl)

theorem map {m : Eval α} {m' : Eval β} {f : β → δ} {χ : δ → α × Option Jump}
    (h : Carries pre j φ m m') (hf : ∀ b, χ (f b) = φ b) : Carries pre j χ m (f <$> m') := by
  intro x s hs hl
  have h := h x s hs hl
  change Carry χ s _ ((m' >>= fun b => Pure.pure (f b)) x s)
  generalize hr' : m' x s = r' at h
  generalize m x (s.jump j) = r at h
  cases h with
  | none l =>
    rw [Prog.bind_none _ hr']
    exact .none l
  | some b y t l hset =>
    rw [Prog.bind_some _ hr', Prog.pure_apply, List.append_nil]
    have hc := Carry.some (φ := χ) (s := s) (f b) y t l hset
    rw [hf] at hc
    exact hc

theorem ite {c : Prop} [Decidable c] {m₁ m₂ : Eval α} {m₁' m₂' : Eval β}
    (h : c → Carries pre j φ m₁ m₁') (h' : ¬ c → Carries pre j φ m₂ m₂') :
    Carries pre j φ (if c then m₁ else m₂) (if c then m₁' else m₂') := by
  split
  · exact h ‹_›
  · exact h' ‹_›

theorem jumps {f : State → State} (a : α) (k : Jump) (hf : ∀ s, f s = s.jump (some k)) :
    Carries pre none id (act (modify f) >>= fun _ => (Pure.pure a : Eval α))
      (Pure.pure (a, some k)) := by
  intro x s _ _
  have hm : (act (modify f) >>= fun _ => (Pure.pure a : Eval α)) x (s.jump none) =
      ⟨some (a, x, f s), []⟩ := rfl
  rw [hm, hf]
  exact .some (φ := id) (a, some k) x s [] id

theorem after {m m' : Eval α} {k : α → Eval γ} {k' : α → Eval δ} (h : Settles m m')
    (hk : ∀ a, Carries Settled none ψ (k a) (k' a)) :
    Carries Settled none ψ (m >>= k) (m' >>= k') :=
  .bind (ofSettles h) hk

theorem inert {f : Act α} (hf : Inert f) : Carries pre j (fun a => (a, j)) (act f) (act f) := by
  intro x s _ _
  change Carry _ s (Prog.lift f x (s.jump j)) (Prog.lift f x s)
  unfold Prog.lift
  rw [hf.jump]
  cases h : f s with
  | none => exact .none []
  | some r =>
    refine .some r.1 x r.2 [] fun hs => ?_
    have hc := hf.control s r h
    exact ⟨hc ▸ hs.brk, hc ▸ hs.cont, hc ▸ hs.rtrn⟩

theorem note (e : Step) : Carries pre none (fun a => (a, none)) (Prog.note fun _ => e)
    (Prog.note fun _ => e) :=
  fun x s _ _ => .some () x s _ id

end Carries

end Okws.Pub3
