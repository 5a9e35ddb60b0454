import Mathlib.Tactic.Common

/-! Programs over a state and a register.  Two programs that agree do the same to the state, and
whether the register matters on the way is said by what is assumed of it before and known of it
after. -/

namespace Okws.Lib

/-- What a run comes to: a value, the register and the state, or nothing if it does not return;
and what was noted on the way. -/
structure Run (R S E α : Type) where
  out : Option (α × R × S)
  log : List E

def Prog (R S E α : Type) : Type := R → S → Run R S E α

namespace Prog

variable {R S E α β : Type}

instance : Monad (Prog R S E) where
  pure a x s := ⟨some (a, x, s), []⟩
  bind m k x s := match (m x s).out with
    | none => ⟨none, (m x s).log⟩
    | some (a, y, t) => ⟨(k a y t).out, (m x s).log ++ (k a y t).log⟩

def stuck : Prog R S E α := fun _ _ => ⟨none, []⟩

def lift (f : StateT S Option α) : Prog R S E α := fun x s => match f s with
  | none => ⟨none, []⟩
  | some (a, t) => ⟨some (a, x, t), []⟩

def getReg : Prog R S E R := fun x s => ⟨some (x, x, s), []⟩

def setReg (x : R) : Prog R S E Unit := fun _ s => ⟨some ((), x, s), []⟩

def note (f : S → E) : Prog R S E Unit := fun x s => ⟨some ((), x, s), [f s]⟩

def noteIf (c : S → Bool) (e : E) : Prog R S E Unit := fun x s =>
  ⟨some ((), x, s), if c s then [e] else []⟩

def when (c : Bool) (m : Prog R S E Unit) : Prog R S E Unit := if c then m else pure ()

theorem pure_apply (a : α) (x : R) (s : S) :
    (pure a : Prog R S E α) x s = ⟨some (a, x, s), []⟩ := rfl

theorem bind_none {m : Prog R S E α} (k : α → Prog R S E β) {x : R} {s : S} {l : List E}
    (h : m x s = ⟨none, l⟩) : (m >>= k) x s = ⟨none, l⟩ := by
  simp only [Bind.bind, h]

theorem bind_some {m : Prog R S E α} (k : α → Prog R S E β) {x y : R} {s t : S} {a : α}
    {l : List E} (h : m x s = ⟨some (a, y, t), l⟩) :
    (m >>= k) x s = ⟨(k a y t).out, l ++ (k a y t).log⟩ := by
  simp only [Bind.bind, h]

theorem bind_assoc {γ : Type} (m : Prog R S E α) (k : α → Prog R S E β) (k' : β → Prog R S E γ) :
    (m >>= k) >>= k' = m >>= fun a => k a >>= k' := by
  funext x s
  generalize hm : m x s = r
  obtain ⟨_ | ⟨a, y, t⟩, l⟩ := r
  · rw [bind_none _ hm, bind_none _ (bind_none _ hm)]
  · have hmk := bind_some k hm
    rw [bind_some _ hm]
    generalize hk : k a y t = r at hmk
    obtain ⟨_ | ⟨b, z, u⟩, l'⟩ := r
    · rw [bind_none _ hmk, bind_none _ hk]
    · rw [bind_some _ hmk, bind_some _ hk, List.append_assoc]

/-- All that the program can return satisfies `P`. -/
def Returns (P : α → Prop) (m : Prog R S E α) : Prop :=
  ∀ x s r, (m x s).out = some r → P r.1

namespace Returns

variable {P : α → Prop} {Q : β → Prop}

theorem pure {a : α} (h : P a) : Returns P (Pure.pure a : Prog R S E α) := by
  intro x s r hr
  cases hr
  exact h

theorem stuck : Returns P (Prog.stuck : Prog R S E α) := fun _ _ _ hr => nomatch hr

theorem imp {P' : α → Prop} {m : Prog R S E α} (hm : Returns P m) (h : ∀ a, P a → P' a) :
    Returns P' m :=
  fun x s r hr => h _ (hm x s r hr)

theorem all (m : Prog R S E α) : Returns (fun _ => True) m := fun _ _ _ _ => trivial

theorem bind {m : Prog R S E α} {k : α → Prog R S E β} (hm : Returns P m)
    (hk : ∀ a, P a → Returns Q (k a)) : Returns Q (m >>= k) := by
  intro x s r hr
  have hm := hm x s
  generalize h : m x s = r₁ at hm
  obtain ⟨_ | ⟨a, y, t⟩, l⟩ := r₁
  · rw [bind_none k h] at hr
    cases hr
  · rw [bind_some k h] at hr
    exact hk a (hm _ rfl) y t r hr

theorem last {m : Prog R S E α} {k : α → Prog R S E β} (hk : ∀ a, Returns Q (k a)) :
    Returns Q (m >>= k) :=
  bind (all m) fun a _ => hk a

theorem ite {c : Prop} [Decidable c] {m m' : Prog R S E α} (h : Returns P m)
    (h' : Returns P m') : Returns P (if c then m else m') := by
  split
  · exact h
  · exact h'

end Returns

end Prog

variable {R S E α β : Type}

/-- The two runs end alike; if `q`, so do their registers. -/
inductive Run.Alike (q : Prop) : Run R S E α → Run R S E α → Prop
  | none (l : List E) : Alike q ⟨none, l⟩ ⟨none, l⟩
  | some (a : α) {x y : R} (s : S) (l : List E) (h : q → x = y) :
    Alike q ⟨some (a, x, s), l⟩ ⟨some (a, y, s), l⟩

theorem Run.Alike.refl {q : Prop} (r : Run R S E α) : r.Alike q r := by
  obtain ⟨_ | ⟨a, x, s⟩, l⟩ := r
  · exact .none l
  · exact .some a s l fun _ => rfl

theorem Run.Alike.of_eq {q : Prop} {r₁ r₂ : Run R S E α} (h : r₂ = r₁) (l : List E) :
    Run.Alike q ⟨r₁.out, l ++ r₁.log⟩ ⟨r₂.out, l ++ r₂.log⟩ := by
  rw [h]
  exact .refl _

/-- From the same state the two programs run alike, provided that all that the first one notes
satisfies `H`.  `p` says that the registers are the same before, `q` that they are the same
after. -/
def Agree (H : E → Prop) (p q : Prop) (m₁ m₂ : Prog R S E α) : Prop :=
  ∀ x y s, (p → x = y) → (∀ e ∈ (m₁ x s).log, H e) → (m₁ x s).Alike q (m₂ y s)

namespace Agree

variable {H : E → Prop} {p q r : Prop} {m m₁ m₂ m₃ : Prog R S E α}
  {k k₁ k₂ : α → Prog R S E β}

theorem refl (m : Prog R S E α) : Agree H True q m m := by
  intro x y s hxy _
  cases hxy trivial
  exact .refl _

theorem of_eq (h : m₁ = m₂) : Agree H True q m₁ m₂ := h ▸ refl m₁

theorem weaken {p' q' : Prop} (h : Agree H p q m₁ m₂) (hp : p → p') (hq : q' → q) :
    Agree H p' q' m₁ m₂ := by
  intro x y s hxy hl
  have h := h x y s (fun hp' => hxy (hp hp')) hl
  generalize m₁ x s = r₁ at h ⊢
  generalize m₂ y s = r₂ at h ⊢
  cases h with
  | none l => exact .none l
  | some a t l h => exact .some a t l fun hq' => h (hq hq')

theorem comp (h₁ : Agree H p q m₁ m₂) (h₂ : Agree H True True m₂ m₃) : Agree H p q m₁ m₃ := by
  intro x y s hxy hl
  have h₁ := h₁ x y s hxy hl
  have h₂ := h₂ y y s (fun _ => rfl)
  generalize m₁ x s = r₁ at h₁ hl ⊢
  generalize m₂ y s = r₂ at h₁ h₂
  generalize m₃ y s = r₃ at h₂ ⊢
  cases h₁ with
  | none l =>
    cases h₂ hl
    exact .none l
  | some a t l h =>
    cases h₂ hl with
    | some _ _ _ h' =>
      cases h' trivial
      exact .some a t l h

theorem pure (a : α) : Agree H p p (Pure.pure a : Prog R S E α) (Pure.pure a) :=
  fun _ _ s hxy _ => .some a s [] hxy

theorem stuck : Agree H p q (Prog.stuck : Prog R S E α) Prog.stuck := fun _ _ _ _ _ => .none []

theorem lift (f : StateT S Option α) : Agree H p p (Prog.lift f : Prog R S E α) (.lift f) := by
  intro x y s hxy _
  unfold Prog.lift
  cases f s with
  | none => exact .none []
  | some r => exact .some r.1 r.2 [] hxy

theorem note (f : S → E) : Agree H p p (Prog.note f : Prog R S E Unit) (.note f) :=
  fun _ _ s hxy _ => .some () s _ hxy

theorem noteIf (c : S → Bool) (e : E) :
    Agree H p p (Prog.noteIf c e : Prog R S E Unit) (.noteIf c e) :=
  fun _ _ s hxy _ => .some () s _ hxy

theorem setReg (x : R) : Agree H p q (Prog.setReg x : Prog R S E Unit) (.setReg x) :=
  fun _ _ s _ _ => .some () s [] fun _ => rfl

theorem bind (hm : Agree H p q m₁ m₂) (hk : ∀ a, Agree H q r (k₁ a) (k₂ a)) :
    Agree H p r (m₁ >>= k₁) (m₂ >>= k₂) := by
  intro x y s hxy hl
  have hm := hm x y s hxy
  generalize h₁ : m₁ x s = r₁ at hm
  generalize h₂ : m₂ y s = r₂ at hm
  obtain ⟨_ | ⟨a, z, t⟩, l⟩ := r₁
  · rw [Prog.bind_none k₁ h₁] at hl ⊢
    cases hm hl
    rw [Prog.bind_none k₂ h₂]
    exact .none l
  · rw [Prog.bind_some k₁ h₁] at hl ⊢
    cases hm fun e he => hl e (List.mem_append_left _ he) with
    | @some _ _ z' _ _ h =>
      rw [Prog.bind_some k₂ h₂]
      have hk := hk a z z' t h fun e he => hl e (List.mem_append_right _ he)
      generalize k₁ a z t = r₁ at hk ⊢
      generalize k₂ a z' t = r₂ at hk ⊢
      cases hk with
      | none l' => exact .none _
      | some b u l' h' => exact .some b u _ h'

theorem map {f : α → β} (h : Agree H p q m₁ m₂) : Agree H p q (f <$> m₁) (f <$> m₂) :=
  show Agree H p q (m₁ >>= fun a => Pure.pure (f a)) (m₂ >>= fun a => Pure.pure (f a)) from
    h.bind fun _ => pure _

theorem ite {c : Prop} [Decidable c] {m₁' m₂' : Prog R S E α} (h : c → Agree H p q m₁ m₂)
    (h' : ¬ c → Agree H p q m₁' m₂') :
    Agree H p q (if c then m₁ else m₁') (if c then m₂ else m₂') := by
  split
  · exact h ‹_›
  · exact h' ‹_›

theorem when {m₁ m₂ : Prog R S E Unit} (c : Bool) (h : Agree H p p m₁ m₂) :
    Agree H p p (Prog.when c m₁) (Prog.when c m₂) :=
  .ite (fun _ => h) fun _ => pure ()

theorem setReg_right (x : R) (h : Agree H False q m₁ m₂) :
    Agree H p q m₁ (Prog.setReg x >>= fun _ => m₂) :=
  fun y _ s _ hl => h y x s False.elim hl

theorem setReg_bind (x : R) (h : Agree H True q m₁ m₂) :
    Agree H p q (Prog.setReg x >>= fun _ => m₁) (Prog.setReg x >>= fun _ => m₂) :=
  .bind (setReg x) fun _ => h

theorem note_apply (f : S → E) (m : Prog R S E α) (x : R) (s : S) :
    (Prog.note f >>= fun _ => m) x s = ⟨(m x s).out, f s :: (m x s).log⟩ := rfl

theorem drop {a : α} (ha : m₁.Returns (· = a)) (h : Agree H p q m₁ m₂) :
    Agree H p q (m₁ >>= fun _ => Pure.pure a) m₂ := by
  have hm : (m₁ >>= fun _ => Pure.pure a) = m₁ := by
    funext x s
    have ha := ha x s
    generalize hr : m₁ x s = r at ha
    obtain ⟨_ | ⟨b, y, t⟩, l⟩ := r
    · rw [Prog.bind_none _ hr]
    · cases ha _ rfl
      rw [Prog.bind_some _ hr, Prog.pure_apply, List.append_nil]
  rwa [hm]

theorem note_lift (f : S → E) {g₁ g₂ : StateT S Option α} (h : ∀ s, H (f s) → g₁ s = g₂ s) :
    Agree H p p (Prog.note f >>= fun _ => (Prog.lift g₁ : Prog R S E α))
      (Prog.note f >>= fun _ => Prog.lift g₂) := by
  intro x y s hxy hl
  rw [note_apply, note_apply] at *
  have h := h s (hl _ List.mem_cons_self)
  unfold Prog.lift
  rw [h]
  cases g₂ s with
  | none => exact .none _
  | some r => exact .some r.1 r.2 _ hxy

theorem note_bad (f : S → E) (h : ∀ s, ¬ H (f s)) :
    Agree H p q (Prog.note f >>= fun _ => m₁) m₂ :=
  fun _ _ s _ hl => absurd (hl _ List.mem_cons_self) (h s)

end Agree

/-- What is returned by a run from `s` of which all notes satisfy `G` satisfies `P`. -/
def Ensures (G : E → Prop) (m : Prog R S E α) (s : S) (P : α → S → Prop) : Prop :=
  ∀ x r, (m x s).out = some r → (∀ e ∈ (m x s).log, G e) → P r.1 r.2.2

namespace Ensures

variable {G : E → Prop} {m : Prog R S E α} {k : α → Prog R S E β} {s : S} {P P' : α → S → Prop}
  {Q : β → S → Prop}

theorem pure {a : α} (h : P a s) : Ensures G (Pure.pure a : Prog R S E α) s P := by
  intro x r hr _
  cases hr
  exact h

theorem stuck : Ensures G (Prog.stuck : Prog R S E α) s P := fun _ _ hr _ => nomatch hr

theorem bind (hm : Ensures G m s fun a t => Ensures G (k a) t Q) : Ensures G (m >>= k) s Q := by
  intro x r hr hl
  have hm := hm x
  generalize h : m x s = r₁ at hm
  obtain ⟨_ | ⟨a, y, t⟩, l⟩ := r₁
  · rw [Prog.bind_none k h] at hr
    cases hr
  · rw [Prog.bind_some k h] at hr hl
    exact hm _ rfl (fun e he => hl e (List.mem_append_left _ he)) y r hr fun e he =>
      hl e (List.mem_append_right _ he)

theorem imp (hm : Ensures G m s P) (h : ∀ a t, P a t → P' a t) : Ensures G m s P' :=
  fun x r hr hl => h _ _ (hm x r hr hl)

theorem lift {f : StateT S Option α} (h : ∀ a t, f s = some (a, t) → P a t) :
    Ensures G (Prog.lift f : Prog R S E α) s P := by
  intro x r hr _
  unfold Prog.lift at hr
  split at hr
  · cases hr
  · next a t hf =>
    cases hr
    exact h a t hf

theorem getReg {P : R → S → Prop} (h : ∀ x, P x s) :
    Ensures G (Prog.getReg : Prog R S E R) s P := by
  intro x r hr _
  cases hr
  exact h x

theorem setReg {P : Unit → S → Prop} (x : R) (h : P () s) :
    Ensures G (Prog.setReg x : Prog R S E Unit) s P := by
  intro y r hr _
  cases hr
  exact h

theorem note {P : Unit → S → Prop} {f : S → E} (h : G (f s) → P () s) :
    Ensures G (Prog.note f : Prog R S E Unit) s P := by
  intro x r hr hl
  cases hr
  exact h (hl _ List.mem_cons_self)

theorem noteIf {P : Unit → S → Prop} {c : S → Bool} {e : E} (h : (c s = true → G e) → P () s) :
    Ensures G (Prog.noteIf c e : Prog R S E Unit) s P := by
  intro x r hr hl
  cases hr
  refine h fun hc => hl e ?_
  simp [Prog.noteIf, hc]

theorem ite {c : Prop} [Decidable c] {m' : Prog R S E α} (h : c → Ensures G m s P)
    (h' : ¬ c → Ensures G m' s P) : Ensures G (if c then m else m') s P := by
  split
  · exact h ‹_›
  · exact h' ‹_›

end Ensures

/-- Every run from `s` returns. -/
def Halts (m : Prog R S E α) (s : S) : Prop := ∀ x, (m x s).out.isSome

namespace Halts

variable {m : Prog R S E α} {k : α → Prog R S E β} {s : S}

theorem pure (a : α) : Halts (Pure.pure a : Prog R S E α) s := fun _ => rfl

theorem bind (hm : Halts m s) (hk : Ensures (fun _ => True) m s fun a t => Halts (k a) t) :
    Halts (m >>= k) s := by
  intro x
  have hm := hm x
  have hk := hk x
  generalize hr : m x s = r at hm hk
  obtain ⟨_ | ⟨a, y, t⟩, l⟩ := r
  · cases hm
  · rw [Prog.bind_some k hr]
    exact hk _ rfl (fun _ _ => trivial) y

theorem lift {f : StateT S Option α} (hf : (f s).isSome) :
    Halts (Prog.lift f : Prog R S E α) s := by
  intro x
  obtain ⟨r, hr⟩ := Option.isSome_iff_exists.mp hf
  simp only [Prog.lift, hr, Option.isSome_some]

end Halts

/-- What does not know of the register relates the state before to the one after. -/
def Steps (T : S → S → Prop) (f : StateT S Option α) : Prop := ∀ s a t, f s = some (a, t) → T s t

namespace Steps

variable {T : S → S → Prop} {f : StateT S Option α} {g : α → StateT S Option β}

theorem pure [Std.Refl T] (a : α) : Steps T (Pure.pure a : StateT S Option α) := by
  intro s b t h
  cases h
  exact refl_of T s

theorem bind [IsTrans S T] (hf : Steps T f) (hg : ∀ a, Steps T (g a)) : Steps T (f >>= g) := by
  intro s b u h
  obtain ⟨r, hr, hu⟩ := Option.bind_eq_some_iff.mp h
  exact trans_of T (hf s r.1 r.2 hr) (hg r.1 r.2 b u hu)

theorem map [Std.Refl T] [IsTrans S T] {h : α → β} (hf : Steps T f) : Steps T (h <$> f) := by
  intro s b u hu
  obtain ⟨r, hr, hu⟩ := Option.bind_eq_some_iff.mp hu
  cases hu
  exact hf s r.1 r.2 hr

theorem get [Std.Refl T] : Steps T (MonadState.get : StateT S Option S) := by
  intro s b t h
  cases h
  exact refl_of T s

theorem modify {h : S → S} (hT : ∀ s, T s (h s)) :
    Steps T (modify h : StateT S Option PUnit) := by
  intro s b t ht
  cases ht
  exact hT s

end Steps

/-- Every run of which all notes satisfy `G` relates the state before to the one after. -/
def Keeps (G : E → Prop) (T : S → S → Prop) (m : Prog R S E α) : Prop :=
  ∀ s, Ensures G m s fun _ t => T s t

namespace Keeps

variable {G : E → Prop} {T T' : S → S → Prop} {m : Prog R S E α} {k : α → Prog R S E β}

theorem imp (h : Keeps G T m) (hT : ∀ s t, T s t → T' s t) : Keeps G T' m :=
  fun s => (h s).imp fun _ _ => hT s _

theorem stuck : Keeps G T (Prog.stuck : Prog R S E α) := fun _ => .stuck

theorem lift {f : StateT S Option α} (h : Steps T f) :
    Keeps G T (Prog.lift f : Prog R S E α) :=
  fun s => .lift (h s)

theorem ite {c : Prop} [Decidable c] {m' : Prog R S E α} (h : c → Keeps G T m)
    (h' : ¬ c → Keeps G T m') : Keeps G T (if c then m else m') :=
  fun s => .ite (fun hc => h hc s) fun hc => h' hc s

theorem bind [IsTrans S T] (hm : Keeps G T m) (hk : ∀ a, Keeps G T (k a)) :
    Keeps G T (m >>= k) :=
  fun s => .bind ((hm s).imp fun a t ht => (hk a t).imp fun _ _ hu => trans_of T ht hu)

theorem bindReturns [IsTrans S T] {P : α → Prop} (hm : Keeps G T m) (hr : m.Returns P)
    (hk : ∀ a, P a → Keeps G T (k a)) : Keeps G T (m >>= k) :=
  fun s => .bind fun x r h hl =>
    (hk _ (hr x s r h) _).imp fun _ _ hu => trans_of T (hm s x r h hl) hu

variable [Std.Refl T]

theorem pure (a : α) : Keeps G T (Pure.pure a : Prog R S E α) := fun s => .pure (refl_of T s)

theorem map [IsTrans S T] {f : α → β} (hm : Keeps G T m) : Keeps G T (f <$> m) :=
  show Keeps G T (m >>= fun a => Pure.pure (f a)) from hm.bind fun _ => pure _

theorem setReg (x : R) : Keeps G T (Prog.setReg x : Prog R S E Unit) :=
  fun s => .setReg x (refl_of T s)

theorem getReg : Keeps G T (Prog.getReg : Prog R S E R) := fun s => .getReg fun _ => refl_of T s

theorem note (f : S → E) : Keeps G T (Prog.note f : Prog R S E Unit) :=
  fun s => .note fun _ => refl_of T s

theorem when {m : Prog R S E Unit} (c : Bool) (h : Keeps G T m) : Keeps G T (Prog.when c m) :=
  .ite (fun _ => h) fun _ => pure ()

end Keeps

end Okws.Lib
