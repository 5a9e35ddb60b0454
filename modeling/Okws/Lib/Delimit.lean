import Mathlib.Data.List.Basic

/-! Texts that show where they end. -/

namespace Okws.Lib

variable {X α : Type} {f : X → List α} {Stop : List α → Prop} {A : X → Prop}

/-- The text of `x` and what may come behind a text can be told apart: no other text begins in the
same way. -/
def Delimited (f : X → List α) (Stop : List α → Prop) (A : X → Prop) (x : X) : Prop :=
  ∀ y r r', A y → Stop r → Stop r' → f x ++ r = f y ++ r' → x = y ∧ r = r'

/-- What is in brackets behind the first of some texts: each has a separator before it. -/
def rest (f : X → List α) (sep : List α) (c : α) (xs : List X) : List α :=
  xs.flatMap (fun x => sep ++ f x) ++ [c]

/-- What the texts in brackets are told apart by: a separator or the closing bracket may stand
behind each of them, a separator begins unlike a bracket, and so does a text. -/
structure Brackets (f : X → List α) (Stop : List α → Prop) (A : X → Prop) (sep : List α) (c : α) :
    Prop where
  stop_sep : ∀ r, Stop (sep ++ r)
  stop_close : ∀ r, Stop (c :: r)
  sep_ne : ∀ r r', sep ++ r ≠ c :: r'
  text_ne : ∀ x, A x → ∀ r r', f x ++ r ≠ c :: r'

variable {sep : List α} {c : α} {xs : List X}

theorem rest_cons (x : X) (xs : List X) (r : List α) :
    rest f sep c (x :: xs) ++ r = sep ++ (f x ++ (rest f sep c xs ++ r)) := by
  simp only [rest, List.flatMap_cons, List.append_assoc]

theorem intersperse_cons (x : X) (xs : List X) (r : List α) :
    (((x :: xs).map f).intersperse sep).flatten ++ [c] ++ r = f x ++ (rest f sep c xs ++ r) := by
  induction xs generalizing x with
  | nil => simp [rest]
  | cons y ys ih =>
    rw [rest_cons, ← ih y]
    simp

theorem mem_brackets {b : α} (h : b ∈ ((xs.map f).intersperse sep).flatten ++ [c]) :
    b = c ∨ b ∈ sep ∨ ∃ x ∈ xs, b ∈ f x := by
  cases xs with
  | nil => exact .inl (List.mem_singleton.1 h)
  | cons x xs =>
    rw [← List.append_nil (_ ++ [c]), intersperse_cons, List.append_nil, List.mem_append] at h
    obtain h | h := h
    · exact .inr (.inr ⟨x, List.mem_cons_self, h⟩)
    obtain h | h := List.mem_append.1 h
    · obtain ⟨y, hy, h⟩ := List.mem_flatMap.1 h
      obtain h | h := List.mem_append.1 h
      · exact .inr (.inl h)
      · exact .inr (.inr ⟨y, .tail _ hy, h⟩)
    · exact .inl (List.mem_singleton.1 h)

namespace Brackets

theorem stop_rest (hb : Brackets f Stop A sep c) (xs : List X) (r : List α) :
    Stop (rest f sep c xs ++ r) := by
  cases xs with
  | nil => exact hb.stop_close r
  | cons x xs =>
    rw [rest_cons]
    exact hb.stop_sep _

theorem delimited_rest (hb : Brackets f Stop A sep c) (hxs : ∀ x ∈ xs, Delimited f Stop A x) :
    Delimited (rest f sep c) (fun _ => True) (fun ys => ∀ y ∈ ys, A y) xs := by
  intro ys r r' hys _ _ h
  induction xs generalizing ys with
  | nil => cases ys with
    | nil => exact ⟨rfl, (List.cons.inj h).2⟩
    | cons y ys =>
      rw [rest_cons] at h
      exact absurd h.symm (hb.sep_ne _ _)
  | cons x xs ih => cases ys with
    | nil =>
      rw [rest_cons] at h
      exact absurd h (hb.sep_ne _ _)
    | cons y ys =>
      rw [rest_cons, rest_cons, List.append_cancel_left_eq] at h
      obtain ⟨rfl, hr⟩ := hxs x List.mem_cons_self y _ _ (hys y List.mem_cons_self)
        (hb.stop_rest _ _) (hb.stop_rest _ _) h
      obtain ⟨rfl, rfl⟩ := ih (fun z hz => hxs z (.tail _ hz)) ys (fun z hz => hys z (.tail _ hz))
        hr
      exact ⟨rfl, rfl⟩

theorem delimited (hb : Brackets f Stop A sep c) (hA : ∀ x ∈ xs, A x)
    (hxs : ∀ x ∈ xs, Delimited f Stop A x) :
    Delimited (fun xs => ((xs.map f).intersperse sep).flatten ++ [c]) (fun _ => True)
      (fun ys => ∀ y ∈ ys, A y) xs := by
  intro ys r r' hys _ _ h
  dsimp only at h
  cases xs with
  | nil => cases ys with
    | nil => exact ⟨rfl, (List.cons.inj h).2⟩
    | cons y ys =>
      rw [intersperse_cons] at h
      exact absurd h.symm (hb.text_ne y (hys y List.mem_cons_self) _ _)
  | cons x xs => cases ys with
    | nil =>
      rw [intersperse_cons] at h
      exact absurd h (hb.text_ne x (hA x List.mem_cons_self) _ _)
    | cons y ys =>
      rw [intersperse_cons, intersperse_cons] at h
      obtain ⟨rfl, hr⟩ := hxs x List.mem_cons_self y _ _ (hys y List.mem_cons_self)
        (hb.stop_rest _ _) (hb.stop_rest _ _) h
      obtain ⟨rfl, rfl⟩ := hb.delimited_rest (fun z hz => hxs z (.tail _ hz)) ys _ _
        (fun z hz => hys z (.tail _ hz)) trivial trivial hr
      exact ⟨rfl, rfl⟩

end Brackets

end Okws.Lib
