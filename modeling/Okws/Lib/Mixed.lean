import Mathlib.Order.Lattice

/-! Comparisons, and an order of things that have a text, and some of them a number. -/

namespace Okws.Lib

/-- The comparison puts the things of `A` in a line. -/
structure TotalPreorder {α : Type} (cmp : α → α → Int) (A : α → Prop) : Prop where
  opposite : ∀ x y, A x → A y → (cmp x y).sign = -(cmp y x).sign
  trans : ∀ x y z, A x → A y → A z → cmp x y ≤ 0 → cmp y z ≤ 0 → cmp x z ≤ 0
  refl : ∀ x, A x → cmp x x = 0
  symm : ∀ x y, A x → A y → cmp x y = 0 → cmp y x = 0
  zero_trans : ∀ x y z, A x → A y → A z → cmp x y = 0 → cmp y z = 0 → cmp x z = 0

/-- The comparison says which of two things is less. -/
structure Compares {α : Type} (cmp : α → α → Int) (less : α → α → Prop) (A : α → Prop) : Prop where
  neg : ∀ x y, A x → A y → (cmp x y < 0 ↔ less x y)
  pos : ∀ x y, A x → A y → (0 < cmp x y ↔ less y x)

namespace Compares

variable {α : Type} {cmp : α → α → Int} {less : α → α → Prop} {A : α → Prop} {x y z : α}

theorem le_iff (h : Compares cmp less A) (hx : A x) (hy : A y) : cmp x y ≤ 0 ↔ ¬ less y x := by
  rw [← h.pos x y hx hy, Int.not_lt]

theorem zero_iff (h : Compares cmp less A) (hx : A x) (hy : A y) :
    cmp x y = 0 ↔ ¬ less x y ∧ ¬ less y x := by
  rw [← h.pos x y hx hy, ← h.neg x y hx hy]
  omega

theorem totalPreorder (h : Compares cmp less A)
    (hasymm : ∀ x y, A x → A y → less x y → ¬ less y x)
    (htrans : ∀ x y z, A x → A y → A z → ¬ less y x → ¬ less z y → ¬ less z x) :
    TotalPreorder cmp A where
  opposite x y hx hy := by
    have hneg := h.neg x y hx hy
    have hpos := h.pos y x hy hx
    have hneg' := h.neg y x hy hx
    have hpos' := h.pos x y hx hy
    rcases Int.lt_trichotomy (cmp x y) 0 with hlt | heq | hgt
    · have := hpos.2 (hneg.1 hlt)
      rw [Int.sign_eq_neg_one_of_neg hlt, Int.sign_eq_one_of_pos this]
    · have : cmp y x = 0 := by
        rw [h.zero_iff hx hy] at heq
        exact (h.zero_iff hy hx).2 heq.symm
      rw [heq, this]
      rfl
    · have := hneg'.2 (hpos'.1 hgt)
      rw [Int.sign_eq_one_of_pos hgt, Int.sign_eq_neg_one_of_neg this]
      rfl
  trans x y z hx hy hz := by
    rw [h.le_iff hx hy, h.le_iff hy hz, h.le_iff hx hz]
    exact htrans x y z hx hy hz
  refl x hx := by
    have hirrefl : ¬ less x x := fun hlt => hasymm x x hx hx hlt hlt
    exact (h.zero_iff hx hx).2 ⟨hirrefl, hirrefl⟩
  symm x y hx hy := by
    rw [h.zero_iff hx hy, h.zero_iff hy hx]
    exact And.symm
  zero_trans x y z hx hy hz := by
    rw [h.zero_iff hx hy, h.zero_iff hy hz, h.zero_iff hx hz]
    rintro ⟨hxy, hyx⟩ ⟨hyz, hzy⟩
    exact ⟨htrans z y x hz hy hx hyz hxy, htrans x y z hx hy hz hyx hzy⟩

end Compares

namespace Mixed

variable {α ν τ : Type} [LinearOrder ν] [LT τ] (number : α → Option ν) (text : α → τ)

/-- Two numbers are compared as such, anything else by the texts. -/
def Less (x y : α) : Prop := match number x, number y with
  | some v, some w => v < w
  | _, _ => text x < text y

/-- Between the texts of two numbers there is no text without a number, unless the numbers are in
the order of their texts. -/
def Agree (A : α → Prop) : Prop := ∀ x y z v w, A x → A y → A z →
  number x = some v → number y = none → number z = some w → text x < text y → text y < text z →
    v < w

def Determined (A : α → Prop) : Prop :=
  ∀ x y, A x → A y → text x = text y → (number x).isSome = (number y).isSome

variable {number : α → Option ν} {text : α → τ} {A : α → Prop} {x y z : α} {v w : ν}

theorem less_some (hx : number x = some v) (hy : number y = some w) :
    Less number text x y ↔ v < w := by
  rw [Less, hx, hy]

theorem less_left (hx : number x = none) : Less number text x y ↔ text x < text y := by
  rw [Less, hx]

theorem less_right (hy : number y = none) : Less number text x y ↔ text x < text y := by
  rw [Less, hy]
  cases number x <;> rfl

variable [LE τ] [Std.IsLinearOrder τ] [Std.LawfulOrderLT τ]

theorem less_asymm (h : Less number text x y) : ¬ Less number text y x := by
  cases hx : number x with
  | none =>
    rw [less_left hx] at h
    rw [less_right hx]
    exact fun hlt => Std.lt_irrefl (Std.lt_trans h hlt)
  | some v =>
    cases hy : number y with
    | none =>
      rw [less_right hy] at h
      rw [less_left hy]
      exact fun hlt => Std.lt_irrefl (Std.lt_trans h hlt)
    | some w =>
      rw [less_some hx hy] at h
      rw [less_some hy hx]
      exact not_lt_of_gt h

theorem lt_of_not_less (htext : Determined number text A) (hx : A x) (hy : A y)
    (hnum : (number x).isSome ≠ (number y).isSome) (h : ¬ Less number text y x) :
    text x < text y := by
  have hne : text x ≠ text y := fun heq => hnum (htext x y hx hy heq)
  have hlt : ¬ text y < text x := by
    cases hv : number x with
    | none => rwa [less_right hv] at h
    | some v =>
      have hw : number y = none := by simpa [hv] using hnum
      rwa [less_left hw] at h
  exact Std.lt_of_le_of_ne (Std.not_lt.1 hlt) hne

theorem not_less_trans (htext : Determined number text A) (hagree : Agree number text A) (hx : A x)
    (hy : A y) (hz : A z) (hyx : ¬ Less number text y x) (hzy : ¬ Less number text z y) :
    ¬ Less number text z x := by
  intro hzx
  have hxy := lt_of_not_less htext hx hy
  have hyz := lt_of_not_less htext hy hz
  cases hu : number x with
  | some u =>
    cases hv : number y with
    | some v =>
      rw [less_some hv hu, not_lt] at hyx
      cases hw : number z with
      | some w =>
        rw [less_some hw hv, not_lt] at hzy
        rw [less_some hw hu] at hzx
        exact absurd (hyx.trans hzy) (not_le_of_gt hzx)
      | none =>
        -- the text of `z` would be between the others
        rw [less_left hw] at hzx
        have hlt := hagree y z x v u hy hz hx hv hw hu (hyz (by simp [hv, hw]) hzy) hzx
        exact absurd hyx (not_le_of_gt hlt)
    | none =>
      have hxy := hxy (by simp [hu, hv]) hyx
      cases hw : number z with
      | some w =>
        have hlt := hagree x y z u w hx hy hz hu hv hw hxy (hyz (by simp [hv, hw]) hzy)
        rw [less_some hw hu] at hzx
        exact lt_asymm hlt hzx
      | none =>
        rw [less_right hv, Std.not_lt] at hzy
        rw [less_left hw] at hzx
        exact Std.lt_irrefl (Std.lt_trans (Std.lt_of_lt_of_le hxy hzy) hzx)
  | none =>
    rw [less_right hu] at hyx hzx
    rw [Std.not_lt] at hyx
    cases hv : number y with
    | some v =>
      cases hw : number z with
      | some w =>
        have hxy := hxy (by simp [hu, hv]) (by rwa [less_right hu, Std.not_lt])
        have hlt := hagree z x y w v hz hx hy hw hu hv hzx hxy
        exact hzy ((less_some hw hv).2 hlt)
      | none =>
        rw [less_left hw, Std.not_lt] at hzy
        exact Std.lt_irrefl (Std.lt_of_lt_of_le hzx (Std.le_trans hyx hzy))
    | none =>
      rw [less_right hv, Std.not_lt] at hzy
      exact Std.lt_irrefl (Std.lt_of_lt_of_le hzx (Std.le_trans hyx hzy))

theorem totalPreorder_iff {cmp : α → α → Int} (h : Compares cmp (Less number text) A)
    (htext : Determined number text A) : TotalPreorder cmp A ↔ Agree number text A := by
  constructor
  · intro hp x y z v w hx hy hz hv hn hw hxy hyz
    have hle : cmp x z ≤ 0 := hp.trans x y z hx hy hz
      ((h.le_iff hx hy).2 (less_asymm ((less_right hn).2 hxy)))
      ((h.le_iff hy hz).2 (less_asymm ((less_left hn).2 hyz)))
    rw [h.le_iff hx hz, less_some hw hv, not_lt] at hle
    refine lt_of_le_of_ne hle fun heq => ?_
    have hge : cmp z x ≤ 0 := by
      rw [h.le_iff hz hx, less_some hv hw, not_lt]
      exact heq.ge
    have hzy : cmp z y ≤ 0 := hp.trans z x y hz hx hy hge
      ((h.le_iff hx hy).2 (less_asymm ((less_right hn).2 hxy)))
    exact (h.le_iff hz hy).1 hzy ((less_left hn).2 hyz)
  · intro hagree
    exact h.totalPreorder (fun x y _ _ => less_asymm)
      fun x y z hx hy hz => not_less_trans htext hagree hx hy hz

end Mixed

end Okws.Lib
