import Okws.Lib.Scan
import Okws.Lib.Machine

/-! Loops that read from a device of which it is known what it is still going to hand out, however
often it makes them wait. -/

universe u v w x y z

namespace Okws.Lib

variable {β : Type u} {δ : Type v} {σ : Type w} {ρ : Type x}

/-- `H d l` says that `l` is what `d` still hands out, or the beginning of it. -/
structure Source (D : Device β δ) (resume : δ → δ) where
  Has : δ → List β → Prop
  waits : δ → Nat
  get : ∀ {d b l}, Has d (b :: l) →
    (∃ d', D.get d = (.byte b, d') ∧ Has d' l ∧ Has (D.unget d') (b :: l) ∧
      waits d' ≤ waits d ∧ waits (D.unget d') ≤ waits d) ∨
    ∃ d', D.get d = (.wait, d') ∧ Has (resume d') (b :: l) ∧ waits (resume d') < waits d

/-- The loop on a list: its result, its variables and what it leaves; nothing if the list ends
before the loop does. -/
def feed (S : Scanner β σ ρ) : σ → List β → Option (ρ × σ × List β)
  | s, [] => (S.guard s).map fun r => (r, s, [])
  | s, b :: l => match S.guard s with
    | some r => some (r, s, b :: l)
    | none => match S.byte s b with
      | .next s' => feed S s' l
      | .done r s' => some (r, s', l)
      | .back r s' => some (r, s', b :: l)

variable {D : Device β δ} {resume : δ → δ} {S : Scanner β σ ρ} {s s' : σ} {d : δ}
  {l l' : List β} {r : ρ}

theorem Source.scan (Q : Source D resume) (h : Q.Has d l) (hf : feed S s l = some (r, s', l')) :
    (∃ d', scan D S s d = (some r, s', d') ∧ Q.Has d' l' ∧ Q.waits d' ≤ Q.waits d) ∨
    ∃ s₁ d₁ l₁, Lib.scan D S s d = (none, s₁, d₁) ∧ Q.Has (resume d₁) l₁ ∧
      Q.waits (resume d₁) < Q.waits d ∧ feed S s₁ l₁ = some (r, s', l') := by
  induction l generalizing s d with
  | nil =>
    obtain ⟨r', hg, heq⟩ := Option.map_eq_some_iff.mp hf
    cases heq
    exact .inl ⟨d, scan_guard hg, h, Nat.le_refl _⟩
  | cons b l ih =>
    have hf' := hf
    rw [feed] at hf
    cases hg : S.guard s with
    | some r' =>
      rw [hg] at hf
      cases hf
      exact .inl ⟨d, scan_guard hg, h, Nat.le_refl _⟩
    | none =>
      rw [hg] at hf
      obtain ⟨d', hd, hl, hback, hle, hle'⟩ | ⟨d', hd, hres, hlt⟩ := Q.get h
      · cases hb : S.byte s b with
        | next s₁ =>
          rw [hb] at hf
          rw [scan_next hg hd hb]
          obtain ⟨d₁, hs, hl₁, hw⟩ | ⟨s₂, d₁, l₁, hs, hl₁, hw, hf₁⟩ := ih hl hf
          · exact .inl ⟨d₁, hs, hl₁, Nat.le_trans hw hle⟩
          · exact .inr ⟨s₂, d₁, l₁, hs, hl₁, Nat.lt_of_lt_of_le hw hle, hf₁⟩
        | exit e =>
          rw [hb] at hf
          rw [scan_exit hg hd hb]
          cases e with
          | done r' s₁ =>
            cases hf
            exact .inl ⟨d', rfl, hl, hle⟩
          | back r' s₁ =>
            cases hf
            exact .inl ⟨D.unget d', rfl, hback, hle'⟩
      · exact .inr ⟨s, d', b :: l, scan_wait hg hd, hres, hlt, hf'⟩

/-- A machine whose states `put s d` are those of the loop comes to the end of the loop. -/
theorem Source.reaches {W : Type y} {O : Type z} (Q : Source D resume) {M : Machine W O}
    (put : σ → δ → W)
    (hwait : ∀ {s s' d d'}, Lib.scan D S s d = (none, s', d') →
      M.step (put s d) = .wait (put s' d'))
    (hresume : ∀ s d, M.resume (put s d) = put s (resume d))
    (h : Q.Has d l) (hf : feed S s l = some (r, s', l')) :
    ∃ s₁ d₁ d₂, M.Reaches (put s d) (put s₁ d₁) ∧ Lib.scan D S s₁ d₁ = (some r, s', d₂) ∧
      Q.Has d₂ l' ∧ Q.waits d₂ ≤ Q.waits d := by
  induction hn : Q.waits d using Nat.strongRecOn generalizing s d l with
  | ind n ih =>
    obtain ⟨d', hs, hl, hw⟩ | ⟨s₁, d₁, l₁, hs, hl, hw, hf₁⟩ := Q.scan h hf
    · exact ⟨s, d, d', .refl, hs, hl, hn ▸ hw⟩
    · obtain ⟨s₂, d₂, d₃, hr, hs₂, hl₂, hw₂⟩ := ih _ (hn ▸ hw) hl hf₁ rfl
      refine ⟨s₂, d₂, d₃, ?_, hs₂, hl₂, Nat.le_trans hw₂ (hn ▸ Nat.le_of_lt hw)⟩
      have hstep := Machine.Reaches.wait (.refl (M := M)) (hwait hs)
      rw [hresume] at hstep
      exact hstep.trans hr

theorem feed_append (m : List β) (hf : feed S s l = some (r, s', l')) :
    feed S s (l ++ m) = some (r, s', l' ++ m) := by
  induction l generalizing s with
  | nil =>
    obtain ⟨r', hg, heq⟩ := Option.map_eq_some_iff.mp hf
    cases heq
    cases m with
    | nil => exact hf
    | cons b m => simp only [List.nil_append, feed, hg]
  | cons b l ih =>
    rw [feed] at hf
    rw [List.cons_append, feed]
    cases hg : S.guard s with
    | some r' =>
      rw [hg] at hf
      cases hf
      rfl
    | none =>
      rw [hg] at hf
      cases hb : S.byte s b with
      | next s₁ =>
        rw [hb] at hf
        exact ih hf
      | exit e =>
        rw [hb] at hf
        cases e <;> cases hf <;> rfl

theorem feed_cut {m : List β} (hf : feed S s (l ++ m) = some (r, s', l')) :
    feed S s l = none ∨ ∃ l₁, feed S s l = some (r, s', l₁) ∧ l' = l₁ ++ m := by
  rcases h : feed S s l with _ | ⟨r₁, s₁, l₁⟩
  · exact .inl rfl
  · cases (feed_append m h).symm.trans hf
    exact .inr ⟨l₁, rfl, rfl⟩

/-- `Dry d` says that `d` has nothing to hand out any more. -/
structure Source.Dries (Q : Source D resume) (Dry : δ → Prop) : Prop where
  get : ∀ {d}, Q.Has d [] →
    (∃ d', D.get d = (.eof, d') ∧ Dry d' ∧ Dry (D.unget d')) ∨
    ∃ d', D.get d = (.wait, d') ∧ Q.Has (resume d') [] ∧ Q.waits (resume d') < Q.waits d

def AtEof (S : Scanner β σ ρ) (r : ρ) (s' : σ) : Prop :=
  ∃ s, S.eof s = .done r s' ∨ S.eof s = .back r s'

theorem scan_dry {Dry : δ → Prop} {d' : δ} (hg : S.guard s = none) (hd : D.get d = (.eof, d'))
    (hdry : Dry d') (hback : Dry (D.unget d')) :
    ∃ r s' d₁, scan D S s d = (some r, s', d₁) ∧ Dry d₁ ∧ AtEof S r s' := by
  rw [scan_eof hg hd]
  cases he : S.eof s with
  | done r s' => exact ⟨r, s', d', rfl, hdry, s, .inl he⟩
  | back r s' => exact ⟨r, s', D.unget d', rfl, hback, s, .inr he⟩

theorem Source.Dries.scan {Q : Source D resume} {Dry : δ → Prop} (hQ : Q.Dries Dry)
    (h : Q.Has d l) (hf : feed S s l = none) :
    (∃ r s' d', Lib.scan D S s d = (some r, s', d') ∧ Dry d' ∧ AtEof S r s') ∨
    ∃ s₁ d₁ l₁, Lib.scan D S s d = (none, s₁, d₁) ∧ Q.Has (resume d₁) l₁ ∧
      Q.waits (resume d₁) < Q.waits d ∧ feed S s₁ l₁ = none := by
  induction l generalizing s d with
  | nil =>
    have hg : S.guard s = none := Option.map_eq_none_iff.mp hf
    obtain ⟨d', hd, hdry, hback⟩ | ⟨d', hd, hres, hlt⟩ := hQ.get h
    · exact .inl (scan_dry hg hd hdry hback)
    · exact .inr ⟨s, d', [], scan_wait hg hd, hres, hlt, hf⟩
  | cons b l ih =>
    have hf' := hf
    rw [feed] at hf
    cases hg : S.guard s with
    | some r' =>
      rw [hg] at hf
      cases hf
    | none =>
      rw [hg] at hf
      obtain ⟨d', hd, hl, -, hle, -⟩ | ⟨d', hd, hres, hlt⟩ := Q.get h
      · cases hb : S.byte s b with
        | next s₁ =>
          rw [hb] at hf
          rw [scan_next hg hd hb]
          refine (ih hl hf).imp_right ?_
          rintro ⟨s₂, d₁, l₁, hs, hl₁, hw, hf₁⟩
          exact ⟨s₂, d₁, l₁, hs, hl₁, Nat.lt_of_lt_of_le hw hle, hf₁⟩
        | exit e =>
          rw [hb] at hf
          cases e <;> cases hf
      · exact .inr ⟨s, d', b :: l, scan_wait hg hd, hres, hlt, hf'⟩

/-- A machine whose states `put s d` are those of the loop comes to the end of the input. -/
theorem Source.Dries.reaches {W : Type y} {O : Type z} {Q : Source D resume} {Dry : δ → Prop}
    (hQ : Q.Dries Dry) {M : Machine W O} (put : σ → δ → W)
    (hwait : ∀ {s s' d d'}, Lib.scan D S s d = (none, s', d') →
      M.step (put s d) = .wait (put s' d'))
    (hresume : ∀ s d, M.resume (put s d) = put s (resume d))
    (h : Q.Has d l) (hf : feed S s l = none) :
    ∃ s₁ d₁ r s' d₂, M.Reaches (put s d) (put s₁ d₁) ∧ Lib.scan D S s₁ d₁ = (some r, s', d₂) ∧
      Dry d₂ ∧ AtEof S r s' := by
  induction hn : Q.waits d using Nat.strongRecOn generalizing s d l with
  | ind n ih =>
    obtain ⟨r, s', d', hs, hdry, he⟩ | ⟨s₁, d₁, l₁, hs, hl, hw, hf₁⟩ := hQ.scan h hf
    · exact ⟨s, d, r, s', d', .refl, hs, hdry, he⟩
    · obtain ⟨s₂, d₂, r, s', d₃, hr, hs₂, hdry, he⟩ := ih _ (hn ▸ hw) hl hf₁ rfl
      have hstep := Machine.Reaches.wait (.refl (M := M)) (hwait hs)
      rw [hresume] at hstep
      exact ⟨s₂, d₂, r, s', d₃, hstep.trans hr, hs₂, hdry, he⟩

end Okws.Lib
