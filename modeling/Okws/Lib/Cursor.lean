import Mathlib.Tactic.Common

/-! Readers that go through a buffer by position, and readers of what is left of the input.  A
reader of the first kind keeps its position, and says why, also where it fails. -/

universe u

namespace Okws.Lib

/-- A buffer that is read, how far, and what went wrong. -/
structure Cursor (α ε : Type) where
  buf : List α
  pos : Nat
  err : ε

variable {α ε : Type}

abbrev Reader (α ε β : Type) := OptionT (StateM (Cursor α ε)) β

namespace Reader

def fail {β : Type} (err : ε) : Reader α ε β := do
  modify fun c => { c with err := err }
  failure

def peek : Reader α ε α := do
  let c ← get
  match c.buf[c.pos]? with
  | some a => pure a
  | none => failure

def item : Reader α ε α := do
  let a ← peek
  modify fun c => { c with pos := c.pos + 1 }
  pure a

/-- The next `n` items. -/
def items (short : ε) (n : Nat) : Reader α ε (List α) := do
  let c ← get
  if c.pos + n ≤ c.buf.length then
    set { c with pos := c.pos + n }
    pure ((c.buf.drop c.pos).take n)
  else fail short

end Reader

open Reader

variable {β γ : Type} {none : ε} {buf : List α} {pos : Nat}

/-- From this position, with no error yet, the reader does what a reader of the rest of the input
does; it never passes the end. -/
def Tracks (none : ε) (buf : List α) (pos : Nat) (m : Reader α ε β)
    (r : Except ε (β × List α)) : Prop :=
  ∃ p, pos ≤ p ∧ p ≤ buf.length ∧ match r with
    | .ok (x, s) => s = buf.drop p ∧ m.run ⟨buf, pos, none⟩ = (some x, ⟨buf, p, none⟩)
    | .error err => m.run ⟨buf, pos, none⟩ = (.none, ⟨buf, p, err⟩)

theorem tracks_pure (h : pos ≤ buf.length) (x : β) :
    Tracks none buf pos (pure x) (.ok (x, buf.drop pos)) :=
  ⟨pos, Nat.le_refl pos, h, rfl, rfl⟩

theorem tracks_fail (h : pos ≤ buf.length) (err : ε) :
    Tracks none buf pos (fail err : Reader α ε β) (.error err) :=
  ⟨pos, Nat.le_refl pos, h, rfl⟩

theorem run_bind (m : Reader α ε β) (k : β → Reader α ε γ) (c : Cursor α ε) :
    (m >>= k).run c = match m.run c with
      | (some x, c) => (k x).run c
      | (.none, c) => (.none, c) := by
  have hrun : (m >>= k).run c = match m.run c with
      | (a, c) => (match a with
        | some x => (k x).run
        | .none => pure .none : StateM (Cursor α ε) (Option γ)) c := rfl
  rw [hrun]
  rcases m.run c with ⟨_ | x, c'⟩ <;> rfl

theorem Tracks.bind_ok {m : Reader α ε β} {k : β → Reader α ε γ} {x : β} {s : List α}
    {r : Except ε (γ × List α)} (hm : Tracks none buf pos m (.ok (x, s)))
    (hk : ∀ p ≤ buf.length, s = buf.drop p → Tracks none buf p (k x) r) :
    Tracks none buf pos (m >>= k) r := by
  obtain ⟨p, hle, hlen, hs, hrun⟩ := hm
  obtain ⟨p', hle', hlen', hrun'⟩ := hk p hlen hs
  have hbind : (m >>= k).run ⟨buf, pos, none⟩ = (k x).run ⟨buf, p, none⟩ := by
    rw [run_bind, hrun]
  refine ⟨p', Nat.le_trans hle hle', hlen', ?_⟩
  rwa [hbind]

theorem Tracks.bind_error {m : Reader α ε β} {k : β → Reader α ε γ} {err : ε}
    (hm : Tracks none buf pos m (.error err)) : Tracks none buf pos (m >>= k) (.error err) := by
  obtain ⟨p, hle, hlen, hrun⟩ := hm
  refine ⟨p, hle, hlen, ?_⟩
  show (m >>= k).run _ = _
  rw [run_bind, hrun]

theorem Tracks.bind {m : Reader α ε β} {k : β → Reader α ε γ} {r : Except ε (β × List α)}
    {q : β × List α → Except ε (γ × List α)} (hm : Tracks none buf pos m r)
    (hk : ∀ x, ∀ p ≤ buf.length, Tracks none buf p (k x) (q (x, buf.drop p))) :
    Tracks none buf pos (m >>= k) (r.bind q) := by
  cases r with
  | error err => exact hm.bind_error
  | ok a =>
    obtain ⟨x, s⟩ := a
    refine hm.bind_ok fun p hp hs => ?_
    subst hs
    exact hk x p hp

theorem Tracks.map {m : Reader α ε β} {f : β → γ} {r : Except ε (β × List α)}
    {g : β × List α → γ × List α} (hm : Tracks none buf pos m r)
    (hg : ∀ x s, g (x, s) = (f x, s)) :
    Tracks none buf pos (do let x ← m; pure (f x)) (r.map g) := by
  have hbind : r.map g = r.bind fun a => .ok (g a) := by cases r <;> rfl
  rw [hbind]
  refine hm.bind fun x p hp => ?_
  rw [hg]
  exact tracks_pure hp (f x)

theorem run_peek (c : Cursor α ε) : (peek : Reader α ε α).run c = (c.buf[c.pos]?, c) := by
  have hrun : (peek : Reader α ε α).run c = (match c.buf[c.pos]? with
    | some a => pure a
    | .none => failure : Reader α ε α).run c := rfl
  rw [hrun]
  cases c.buf[c.pos]? <;> rfl

theorem getElem?_of_drop {a : α} {s : List α} (h : buf.drop pos = a :: s) :
    pos < buf.length ∧ buf[pos]? = some a ∧ s = buf.drop (pos + 1) := by
  have hlt : pos < buf.length := by
    by_contra hge
    rw [List.drop_eq_nil_of_le (Nat.le_of_not_lt hge)] at h
    cases h
  rw [List.drop_eq_getElem_cons hlt, List.cons.injEq] at h
  exact ⟨hlt, h.1 ▸ List.getElem?_eq_getElem hlt, h.2.symm⟩

theorem tracks_peek {a : α} {s : List α} (h : buf.drop pos = a :: s) :
    Tracks none buf pos peek (.ok (a, a :: s)) := by
  obtain ⟨hlt, ha, -⟩ := getElem?_of_drop h
  exact ⟨pos, Nat.le_refl pos, Nat.le_of_lt hlt, h.symm, (run_peek _).trans (by rw [ha])⟩

theorem tracks_peek_end (hle : pos ≤ buf.length) (h : buf.drop pos = []) :
    Tracks none buf pos (peek : Reader α ε α) (.error none) := by
  have hend : buf[pos]? = .none := List.getElem?_eq_none (List.drop_eq_nil_iff.1 h)
  refine ⟨pos, Nat.le_refl pos, hle, ?_⟩
  show peek.run _ = _
  rw [run_peek, hend]

theorem tracks_item {a : α} {s : List α} (h : buf.drop pos = a :: s) :
    Tracks none buf pos item (.ok (a, s)) := by
  obtain ⟨hlt, ha, hs⟩ := getElem?_of_drop h
  refine ⟨pos + 1, Nat.le_succ pos, hlt, hs, ?_⟩
  rw [item, run_bind, run_peek, ha]
  rfl

theorem tracks_items {err : ε} (h : pos ≤ buf.length) (n : Nat) :
    Tracks none buf pos (items err n)
      (if n ≤ (buf.drop pos).length then .ok ((buf.drop pos).take n, (buf.drop pos).drop n)
        else .error err) := by
  have hrun : (items err n : Reader α ε (List α)).run ⟨buf, pos, none⟩ =
      (if pos + n ≤ buf.length then (do
          set (⟨buf, pos + n, none⟩ : Cursor α ε)
          pure ((buf.drop pos).take n)) else fail err : Reader α ε (List α)).run
        ⟨buf, pos, none⟩ := rfl
  rw [List.length_drop]
  split
  · next hn =>
    rw [if_pos (by omega)] at hrun
    exact ⟨pos + n, Nat.le_add_right pos n, by omega, List.drop_drop, hrun⟩
  · next hn =>
    rw [if_neg (by omega)] at hrun
    exact ⟨pos, Nat.le_refl pos, h, hrun⟩

end Okws.Lib
