import Mathlib.Tactic.Common

/-! Reading loops.  A device hands out one character at a time, or says that there
is none yet or none any more; a scanner is the body of a loop that reads from it.
A loop that the device makes wait keeps its variables and can be entered again. -/

universe u v w x

namespace Okws.Lib

inductive Ch (β : Type u) : Type u
  | byte : β → Ch β
  | eof : Ch β
  | wait : Ch β
  deriving DecidableEq

structure Device (β : Type u) (δ : Type v) where
  get : δ → Ch β × δ
  unget : δ → δ
  size : δ → Nat
  get_size : ∀ {d b d'}, get d = (.byte b, d') → size d' < size d

/-- How a loop ends: the last character is consumed, or pushed back. -/
inductive Exit (σ : Type w) (ρ : Type x)
  | done : ρ → σ → Exit σ ρ
  | back : ρ → σ → Exit σ ρ

inductive Act (σ : Type w) (ρ : Type x)
  | next : σ → Act σ ρ
  | exit : Exit σ ρ → Act σ ρ

@[match_pattern] abbrev Act.done {σ : Type w} {ρ : Type x} (r : ρ) (s : σ) : Act σ ρ :=
  .exit (.done r s)

@[match_pattern] abbrev Act.back {σ : Type w} {ρ : Type x} (r : ρ) (s : σ) : Act σ ρ :=
  .exit (.back r s)

/-- The loop variables have type `σ`.  `guard` is tested before each read; a
waiting device leaves the variables alone, so there is no case for it. -/
structure Scanner (β : Type u) (σ : Type w) (ρ : Type x) where
  guard : σ → Option ρ
  byte : σ → β → Act σ ρ
  eof : σ → Exit σ ρ

variable {β : Type u} {δ : Type v} {σ : Type w} {ρ : Type x}

def Exit.apply (D : Device β δ) (d : δ) : Exit σ ρ → Option ρ × σ × δ
  | .done r s => (some r, s, d)
  | .back r s => (some r, s, D.unget d)

/-- Runs the loop; `none` says that the device made it wait. -/
def scan (D : Device β δ) (S : Scanner β σ ρ) (s : σ) (d : δ) : Option ρ × σ × δ :=
  match S.guard s with
  | some r => (some r, s, d)
  | none => match _h : D.get d with
    | (.byte b, d') => match S.byte s b with
      | .next s' => scan D S s' d'
      | .exit e => e.apply D d'
    | (.eof, d') => (S.eof s).apply D d'
    | (.wait, d') => (none, s, d')
termination_by D.size d
decreasing_by exact D.get_size _h

section Equations

variable {D : Device β δ} {S : Scanner β σ ρ} {s s' : σ} {d d' : δ} {b : β} {r : ρ} {e : Exit σ ρ}

theorem scan_guard (h : S.guard s = some r) : scan D S s d = (some r, s, d) := by
  rw [scan, h]

theorem scan_next (hg : S.guard s = none) (h : D.get d = (.byte b, d'))
    (hb : S.byte s b = .next s') : scan D S s d = scan D S s' d' := by
  rw [scan, hg]
  simp only
  split <;> simp_all

theorem scan_exit (hg : S.guard s = none) (h : D.get d = (.byte b, d'))
    (hb : S.byte s b = .exit e) : scan D S s d = e.apply D d' := by
  rw [scan, hg]
  simp only
  split <;> simp_all

theorem scan_eof (hg : S.guard s = none) (h : D.get d = (.eof, d')) :
    scan D S s d = (S.eof s).apply D d' := by
  rw [scan, hg]
  simp only
  split <;> simp_all

theorem scan_wait (hg : S.guard s = none) (h : D.get d = (.wait, d')) :
    scan D S s d = (none, s, d') := by
  rw [scan, hg]
  simp only
  split <;> simp_all

end Equations

theorem scan_cases (D : Device β δ) (S : Scanner β σ ρ) (s : σ) (d : δ) :
    (∃ r, S.guard s = some r ∧ scan D S s d = (some r, s, d)) ∨
    (S.guard s = none ∧ ∃ b d' s', D.get d = (.byte b, d') ∧ S.byte s b = .next s' ∧
      scan D S s d = scan D S s' d') ∨
    (S.guard s = none ∧ ∃ b d' e, D.get d = (.byte b, d') ∧ S.byte s b = .exit e ∧
      scan D S s d = e.apply D d') ∨
    (S.guard s = none ∧ ∃ d', D.get d = (.eof, d') ∧ scan D S s d = (S.eof s).apply D d') ∨
    (S.guard s = none ∧ ∃ d', D.get d = (.wait, d') ∧ scan D S s d = (none, s, d')) := by
  cases hg : S.guard s with
  | some r => exact .inl ⟨r, rfl, scan_guard hg⟩
  | none =>
    rcases hd : D.get d with ⟨c, d'⟩
    cases c with
    | byte b =>
      cases hb : S.byte s b with
      | next s' => exact .inr (.inl ⟨rfl, b, d', s', rfl, hb, scan_next hg hd hb⟩)
      | exit e => exact .inr (.inr (.inl ⟨rfl, b, d', e, rfl, hb, scan_exit hg hd hb⟩))
    | eof => exact .inr (.inr (.inr (.inl ⟨rfl, d', rfl, scan_eof hg hd⟩)))
    | wait => exact .inr (.inr (.inr (.inr ⟨rfl, d', rfl, scan_wait hg hd⟩)))

theorem scan_induction {D : Device β δ} {motive : δ → Prop}
    (h : ∀ d, (∀ b d', D.get d = (.byte b, d') → motive d') → motive d) (d : δ) : motive d := by
  induction hn : D.size d using Nat.strongRecOn generalizing d with
  | _ n ih => exact h d fun b d' hd => ih _ (hn ▸ D.get_size hd) d' rfl

theorem scan_device_invariant {D : Device β δ} {S : Scanner β σ ρ} {I : δ → Prop} {s : σ} {d : δ}
    (hget : ∀ {d}, I d → I (D.get d).2) (hunget : ∀ {d}, I d → I (D.unget d)) (hd : I d) :
    I (scan D S s d).2.2 := by
  induction d using scan_induction (D := D) generalizing s with
  | _ d ih =>
  have hd' := hget hd
  obtain ⟨r, _, hr⟩ | ⟨_, b, e, t, hb, _, hr⟩ | ⟨_, b, e, t, hb, _, hr⟩ | ⟨_, e, hb, hr⟩ |
    ⟨_, e, hb, hr⟩ := scan_cases D S s d <;> rw [hr]
  · exact hd
  all_goals rw [hb] at hd'
  · exact ih b e hb hd'
  · cases t with
    | done => exact hd'
    | back => exact hunget hd'
  · cases S.eof s with
    | done => exact hd'
    | back => exact hunget hd'
  · exact hd'

/-- The device as it is when the loop makes its last read. -/
def lastRead (D : Device β δ) (S : Scanner β σ ρ) (s : σ) (d : δ) : δ :=
  match S.guard s with
  | some _ => d
  | none => match _h : D.get d with
    | (.byte b, d') => match S.byte s b with
      | .next s' => lastRead D S s' d'
      | .exit _ => d
    | _ => d
termination_by D.size d
decreasing_by exact D.get_size _h

theorem lastRead_next {D : Device β δ} {S : Scanner β σ ρ} {s s' : σ} {d d' : δ} {b : β}
    (hg : S.guard s = none) (h : D.get d = (.byte b, d')) (hb : S.byte s b = .next s') :
    lastRead D S s d = lastRead D S s' d' := by
  rw [lastRead, hg]
  simp only
  split <;> simp_all

theorem lastRead_eof {D : Device β δ} {S : Scanner β σ ρ} {s : σ} {d d' : δ}
    (hg : S.guard s = none) (h : D.get d = (.eof, d')) : lastRead D S s d = d := by
  rw [lastRead, hg]
  simp only
  split <;> simp_all

theorem scan_state_invariant {D : Device β δ} {S : Scanner β σ ρ} {I : σ → Prop} {s : σ} {d : δ}
    (hnext : ∀ {s b s'}, I s → S.byte s b = .next s' → I s')
    (hexit : ∀ {s b r s'}, I s → S.byte s b = .done r s' ∨ S.byte s b = .back r s' → I s')
    (heof : ∀ {s r s'}, I s → S.eof s = .done r s' ∨ S.eof s = .back r s' → I s') (hs : I s) :
    I (scan D S s d).2.1 := by
  induction d using scan_induction (D := D) generalizing s with
  | _ d ih =>
  obtain ⟨r, _, hr⟩ | ⟨_, b, e, t, hd, hb, hr⟩ | ⟨_, b, e, t, hd, hb, hr⟩ | ⟨_, e, hd, hr⟩ |
    ⟨_, e, hd, hr⟩ := scan_cases D S s d <;> rw [hr]
  · exact hs
  · exact ih b e hd (hnext hs hb)
  · cases t with
    | done => exact hexit hs (.inl hb)
    | back => exact hexit hs (.inr hb)
  · cases ht : S.eof s with
    | done => exact heof hs (.inl ht)
    | back => exact heof hs (.inr ht)
  · exact hs

theorem scan_wait_invariant {D : Device β δ} {S : Scanner β σ ρ} {I : σ → Prop} {s s' : σ}
    {d d' : δ} (hI : ∀ {s b s'}, I s → S.byte s b = .next s' → I s') (hs : I s)
    (h : scan D S s d = (none, s', d')) : I s' := by
  induction d using scan_induction (D := D) generalizing s with
  | _ d ih =>
  obtain ⟨r, _, hr⟩ | ⟨_, b, e, t, hd, hb, hr⟩ | ⟨_, b, e, t, hd, hb, hr⟩ | ⟨_, e, hd, hr⟩ |
    ⟨_, e, hd, hr⟩ := scan_cases D S s d
  · simp [hr] at h
  · exact ih b e hd (hI hs hb) (hr ▸ h)
  · cases t <;> simp [hr, Exit.apply] at h
  · cases ht : S.eof s <;> simp [hr, ht, Exit.apply] at h
  · simp only [hr, Prod.mk.injEq, true_and] at h
    exact h.1 ▸ hs

theorem scan_wait_guard {D : Device β δ} {S : Scanner β σ ρ} {s s' : σ} {d d' : δ}
    (h : scan D S s d = (none, s', d')) : S.guard s' = none := by
  induction d using scan_induction (D := D) generalizing s with
  | _ d ih =>
  obtain ⟨r, _, hr⟩ | ⟨_, b, e, t, hd, hb, hr⟩ | ⟨_, b, e, t, hd, hb, hr⟩ | ⟨_, e, hd, hr⟩ |
    ⟨hg, e, hd, hr⟩ := scan_cases D S s d
  · simp [hr] at h
  · exact ih b e hd (hr ▸ h)
  · cases t <;> simp [hr, Exit.apply] at h
  · cases ht : S.eof s <;> simp [hr, ht, Exit.apply] at h
  · simp only [hr, Prod.mk.injEq, true_and] at h
    exact h.1 ▸ hg

/-- If every round preserves `I` and every exit from `I` satisfies `R`, the result does. -/
theorem scan_result {D : Device β δ} {S : Scanner β σ ρ} {I : σ → Prop} {R : ρ → σ → Prop}
    {s s' : σ} {d d' : δ} {r : ρ}
    (hguard : ∀ {s r}, I s → S.guard s = some r → R r s)
    (hnext : ∀ {s b s'}, S.guard s = none → I s → S.byte s b = .next s' → I s')
    (hexit : ∀ {s b r s'}, S.guard s = none → I s →
      S.byte s b = .done r s' ∨ S.byte s b = .back r s' → R r s')
    (heof : ∀ {s r s'}, S.guard s = none → I s →
      S.eof s = .done r s' ∨ S.eof s = .back r s' → R r s')
    (hs : I s) (h : scan D S s d = (some r, s', d')) : R r s' := by
  induction d using scan_induction (D := D) generalizing s with
  | _ d ih =>
  obtain ⟨r₀, hg, hr⟩ | ⟨hg, b, e, t, hd, hb, hr⟩ | ⟨hg, b, e, t, hd, hb, hr⟩ | ⟨hg, e, hd, hr⟩ |
    ⟨_, e, hd, hr⟩ := scan_cases D S s d <;> rw [hr] at h
  · cases h
    exact hguard hs hg
  · exact ih b e hd (hnext hg hs hb) h
  · cases t <;> cases h
    · exact hexit hg hs (.inl hb)
    · exact hexit hg hs (.inr hb)
  · cases ht : S.eof s <;> rw [ht] at h <;> cases h
    · exact heof hg hs (.inl ht)
    · exact heof hg hs (.inr ht)
  · cases h

theorem scan_answer {D : Device β δ} {S : Scanner β σ ρ} {R : ρ → Prop} {s s' : σ}
    {d d' : δ} {r : ρ} (hguard : ∀ {s r}, S.guard s = some r → R r)
    (hexit : ∀ {s b r s'}, S.byte s b = .done r s' ∨ S.byte s b = .back r s' → R r)
    (heof : ∀ {s r s'}, S.eof s = .done r s' ∨ S.eof s = .back r s' → R r)
    (h : scan D S s d = (some r, s', d')) : R r :=
  scan_result (I := fun _ => True) (R := fun r _ => R r) (fun _ hg => hguard hg)
    (fun _ _ _ => trivial)
    (fun _ _ hb => hexit hb) (fun _ _ he => heof he) trivial h

/-- A map of devices that respects both operations on the states that satisfy `I`. -/
structure Device.Hom {δ' : Type v} (D : Device β δ) (D' : Device β δ') (I : δ → Prop) where
  map : δ → δ'
  get_map : ∀ {d}, I d → D'.get (map d) = ((D.get d).1, map (D.get d).2)
  get_inv : ∀ {d}, I d → I (D.get d).2
  unget_map : ∀ d, D'.unget (map d) = map (D.unget d)
  unget_inv : ∀ {d}, I d → I (D.unget d)

theorem Device.Hom.scan_map {δ' : Type v} {D : Device β δ} {D' : Device β δ'} {I : δ → Prop}
    (F : D.Hom D' I) {S : Scanner β σ ρ} {s s' : σ} {d d' : δ} {r : Option ρ} (hd : I d)
    (h : scan D S s d = (r, s', d')) : scan D' S s (F.map d) = (r, s', F.map d') ∧ I d' := by
  induction d using scan_induction (D := D) generalizing s with
  | _ d ih =>
  have hget := F.get_map hd
  have hinv := F.get_inv hd
  obtain ⟨_, hg, hr⟩ | ⟨hg, b, e, t, hb, hs, hr⟩ | ⟨hg, b, e, t, hb, hs, hr⟩ | ⟨hg, e, hb, hr⟩ |
    ⟨hg, e, hb, hr⟩ := scan_cases D S s d
  · simp only [hr, Prod.mk.injEq] at h
    obtain ⟨rfl, rfl, rfl⟩ := h
    exact ⟨scan_guard hg, hd⟩
  · rw [hb] at hget hinv
    rw [scan_next hg hget hs]
    exact ih b e hb hinv (hr ▸ h)
  · rw [hb] at hget hinv
    rw [hr] at h
    rw [scan_exit hg hget hs]
    cases t <;> simp only [Exit.apply, Prod.mk.injEq] at h ⊢ <;> obtain ⟨rfl, rfl, rfl⟩ := h
    · exact ⟨⟨rfl, rfl, rfl⟩, hinv⟩
    · exact ⟨⟨rfl, rfl, F.unget_map e⟩, F.unget_inv hinv⟩
  · rw [hb] at hget hinv
    rw [hr] at h
    rw [scan_eof hg hget]
    cases ht : S.eof s <;> simp only [ht, Exit.apply, Prod.mk.injEq] at h ⊢ <;>
      obtain ⟨rfl, rfl, rfl⟩ := h
    · exact ⟨⟨rfl, rfl, rfl⟩, hinv⟩
    · exact ⟨⟨rfl, rfl, F.unget_map e⟩, F.unget_inv hinv⟩
  · rw [hb] at hget hinv
    simp only [hr, Prod.mk.injEq] at h
    obtain ⟨rfl, rfl, rfl⟩ := h
    exact ⟨scan_wait hg hget, hinv⟩

/-- A device whose waits can be taken out of its input.  `unwait d` is `d` without
the waits still to come, `waits d` the number of them; `resume d` is the suspended
device `d` when it has data again. -/
structure Merging (D : Device β δ) where
  unwait : δ → δ
  resume : δ → δ
  Ready : δ → Prop
  waits : δ → Nat
  get_keep : ∀ {d c d'}, Ready d → D.get d = (c, d') → c ≠ .wait →
    D.get (unwait d) = (c, unwait d')
  ready_get : ∀ {d c d'}, Ready d → D.get d = (c, d') → c ≠ .wait → Ready d'
  get_wait : ∀ {d d'}, Ready d → D.get d = (.wait, d') → D.get (unwait d) =
    D.get (unwait (resume d'))
  ready_resume : ∀ {d d'}, Ready d → D.get d = (.wait, d') → Ready (resume d')
  unwait_unget : ∀ d, unwait (D.unget d) = D.unget (unwait d)
  ready_unget : ∀ {d}, Ready d → Ready (D.unget d)
  waits_get : ∀ {d c d'}, Ready d → D.get d = (c, d') → waits d' ≤ waits d
  waits_wait : ∀ {d d'}, Ready d → D.get d = (.wait, d') → waits (resume d') < waits d
  waits_unget : ∀ d, waits (D.unget d) = waits d

namespace Merging

variable {D : Device β δ} (Q : Merging D) {S : Scanner β σ ρ} {s s' : σ} {d d' : δ} {r : ρ}

theorem apply_keep {e : Exit σ ρ} (hd : Q.Ready d) (h : e.apply D d = (some r, s', d')) :
    e.apply D (Q.unwait d) = (some r, s', Q.unwait d') ∧ Q.Ready d' ∧ Q.waits d' ≤ Q.waits d := by
  cases e with
  | done r₀ s₀ =>
    simp only [Exit.apply, Prod.mk.injEq, Option.some.injEq] at h
    obtain ⟨rfl, rfl, rfl⟩ := h
    exact ⟨rfl, hd, Nat.le_refl _⟩
  | back r₀ s₀ =>
    simp only [Exit.apply, Prod.mk.injEq, Option.some.injEq] at h
    obtain ⟨rfl, rfl, rfl⟩ := h
    exact ⟨by rw [Exit.apply, Q.unwait_unget], Q.ready_unget hd, Nat.le_of_eq (Q.waits_unget d)⟩

theorem scan_keep (hd : Q.Ready d) (h : scan D S s d = (some r, s', d')) :
    scan D S s (Q.unwait d) = (some r, s', Q.unwait d') ∧ Q.Ready d' ∧ Q.waits d' ≤ Q.waits d := by
  induction d using scan_induction (D := D) generalizing s with
  | _ d ih =>
  obtain ⟨r₀, hg, hr⟩ | ⟨hg, b, e, t, hb, hs, hr⟩ | ⟨hg, b, e, t, hb, hs, hr⟩ | ⟨hg, e, hb, hr⟩ |
    ⟨_, e, _, hr⟩ := scan_cases D S s d
  · rw [hr] at h
    simp only [Prod.mk.injEq, Option.some.injEq] at h
    obtain ⟨rfl, rfl, rfl⟩ := h
    exact ⟨scan_guard hg, hd, Nat.le_refl _⟩
  · rw [scan_next hg (Q.get_keep hd hb (by simp)) hs]
    obtain ⟨h₁, h₂, h₃⟩ := ih b e hb (Q.ready_get hd hb (by simp)) (hr ▸ h)
    exact ⟨h₁, h₂, Nat.le_trans h₃ (Q.waits_get hd hb)⟩
  · rw [scan_exit hg (Q.get_keep hd hb (by simp)) hs]
    obtain ⟨h₁, h₂, h₃⟩ := Q.apply_keep (Q.ready_get hd hb (by simp)) (hr ▸ h)
    exact ⟨h₁, h₂, Nat.le_trans h₃ (Q.waits_get hd hb)⟩
  · rw [scan_eof hg (Q.get_keep hd hb (by simp))]
    obtain ⟨h₁, h₂, h₃⟩ := Q.apply_keep (Q.ready_get hd hb (by simp)) (hr ▸ h)
    exact ⟨h₁, h₂, Nat.le_trans h₃ (Q.waits_get hd hb)⟩
  · simp [hr] at h

theorem scan_congr (hg : S.guard s = none) (h : D.get d = D.get d') :
    scan D S s d = scan D S s d' := by
  rcases hd : D.get d with ⟨c, e⟩
  rw [hd] at h
  cases c with
  | byte b =>
    cases hb : S.byte s b with
    | next t => rw [scan_next hg hd hb, scan_next hg h.symm hb]
    | exit t => rw [scan_exit hg hd hb, scan_exit hg h.symm hb]
  | eof => rw [scan_eof hg hd, scan_eof hg h.symm]
  | wait => rw [Lib.scan_wait hg hd, Lib.scan_wait hg h.symm]

theorem scan_wait (hd : Q.Ready d) (h : scan D S s d = (none, s', d')) :
    scan D S s (Q.unwait d) = scan D S s' (Q.unwait (Q.resume d')) ∧ Q.Ready (Q.resume d') ∧
      Q.waits (Q.resume d') < Q.waits d := by
  induction d using scan_induction (D := D) generalizing s with
  | _ d ih =>
  obtain ⟨r₀, hg, hr⟩ | ⟨hg, b, e, t, hb, hs, hr⟩ | ⟨hg, b, e, t, hb, hs, hr⟩ | ⟨hg, e, hb, hr⟩ |
    ⟨hg, e, hb, hr⟩ := scan_cases D S s d
  · simp [hr] at h
  · rw [scan_next hg (Q.get_keep hd hb (by simp)) hs]
    obtain ⟨h₁, h₂, h₃⟩ := ih b e hb (Q.ready_get hd hb (by simp)) (hr ▸ h)
    exact ⟨h₁, h₂, Nat.lt_of_lt_of_le h₃ (Q.waits_get hd hb)⟩
  · cases t <;> simp [hr, Exit.apply] at h
  · cases ht : S.eof s <;> simp [hr, ht, Exit.apply] at h
  · simp only [hr, Prod.mk.injEq, true_and] at h
    obtain ⟨rfl, rfl⟩ := h
    exact ⟨scan_congr hg (Q.get_wait hd hb), Q.ready_resume hd hb, Q.waits_wait hd hb⟩

end Merging

end Okws.Lib
