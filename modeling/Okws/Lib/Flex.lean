import Mathlib.Tactic.Common

/-! Scanners of the kind that flex makes: patterns over bytes, and the first of the rules with
the longest match. -/

namespace Okws.Lib.Flex

abbrev Bytes := List UInt8

inductive Pat : Type
  | none : Pat
  | eps : Pat
  | cls : (UInt8 → Bool) → Pat
  | seq : Pat → Pat → Pat
  | alt : Pat → Pat → Pat
  | star : Pat → Pat

namespace Pat

def chr (c : UInt8) : Pat := .cls (· == c)

def str : Bytes → Pat
  | [] => .eps
  | [c] => .chr c
  | c :: s => .seq (.chr c) (str s)

def oneOf (cs : Bytes) : Pat := .cls (· ∈ cs)

def noneOf (cs : Bytes) : Pat := .cls (· ∉ cs)

def plus (p : Pat) : Pat := .seq p (.star p)

def opt (p : Pat) : Pat := .alt p .eps

def rep (p : Pat) : Nat → Pat
  | 0 => .eps
  | 1 => p
  | n + 1 => .seq p (p.rep n)

def nullable : Pat → Bool
  | .none => false
  | .eps => true
  | .cls _ => false
  | .seq p q => p.nullable && q.nullable
  | .alt p q => p.nullable || q.nullable
  | .star _ => true

/-- `seq`, without the patterns that add nothing. -/
def andThen : Pat → Pat → Pat
  | .none, _ => .none
  | .eps, q => q
  | p, q => .seq p q

/-- `alt`, without the patterns that add nothing. -/
def orElse : Pat → Pat → Pat
  | .none, q => q
  | p, .none => p
  | p, q => .alt p q

def deriv (c : UInt8) : Pat → Pat
  | .none => .none
  | .eps => .none
  | .cls f => if f c then .eps else .none
  | .seq p q =>
    if p.nullable then ((p.deriv c).andThen q).orElse (q.deriv c) else (p.deriv c).andThen q
  | .alt p q => (p.deriv c).orElse (q.deriv c)
  | .star p => (p.deriv c).andThen (.star p)

def longest : Pat → Bytes → Option Nat
  | p, [] => if p.nullable then some 0 else Option.none
  | p, c :: s =>
    match (p.deriv c).longest s with
    | some n => some (n + 1)
    | Option.none => if p.nullable then some 0 else Option.none

section Longest

attribute [local simp] longest deriv nullable andThen

variable {f : UInt8 → Bool} {p : Pat} {b : UInt8} {s : Bytes}

@[simp] theorem longest_none : Pat.none.longest s = Option.none := by
  induction s with
  | nil => rfl
  | cons c s ih =>
    rw [longest, deriv, ih]
    rfl

@[simp] theorem longest_eps : eps.longest s = some 0 := by
  cases s with
  | nil => rfl
  | cons c s =>
    rw [longest, deriv, longest_none]
    rfl

theorem longest_of_deriv (h : p.deriv b = .none) (hp : p.nullable = false) :
    p.longest (b :: s) = Option.none := by
  rw [longest, h, longest_none, hp]
  rfl

@[simp] theorem longest_cls :
    (cls f).longest (b :: s) = if f b then some 1 else Option.none := by
  cases hf : f b with
  | true => simp [hf]
  | false => simp [hf]

@[simp] theorem longest_seq_cls : (seq (cls f) p).longest (b :: s) =
    if f b then (p.longest s).map (· + 1) else Option.none := by
  cases hf : f b with
  | true =>
    simp only [longest, deriv, nullable, hf, andThen, ↓reduceIte, Bool.false_eq_true]
    cases p.longest s <;> rfl
  | false => simp [hf]

@[simp] theorem longest_star_cls : (star (cls f)).longest s = some (s.takeWhile f).length := by
  induction s with
  | nil => rfl
  | cons b s ih =>
    cases hf : f b with
    | true => simp [hf, ih]
    | false => simp [hf]

theorem longest_pair {a x : UInt8} :
    (str [a, x]).longest (a :: b :: s) = if b = x then some 2 else Option.none := by
  have hpair : str [a, x] = .seq (.chr a) (.chr x) := rfl
  rw [hpair, chr, longest_seq_cls, chr, longest_cls]
  by_cases hx : b = x
  · simp [hx]
  · simp [hx]

end Longest

end Pat

structure Rule (α : Type) where
  pat : Pat
  /-- how much of the match is trailing context, and stays in the input -/
  back : Nat := 0
  act : α

/-- The first of the rules whose match is the longest, and the length of this match. -/
def pick {α : Type} : List (Rule α) → Bytes → Option (Rule α × Nat)
  | [], _ => none
  | r :: rs, s =>
    match r.pat.longest s, pick rs s with
    | none, best => best
    | some n, none => some (r, n)
    | some n, some (b, m) => if n < m then some (b, m) else some (r, n)

section Pick

attribute [local simp] pick

variable {α : Type} {r : Rule α} {rs : List (Rule α)} {a b : UInt8} {s : Bytes}

theorem pick_none (h : r.pat.longest s = none) : pick (r :: rs) s = pick rs s := by
  simp [h]

theorem pick_skip (h : r.pat.deriv b = .none) (hp : r.pat.nullable = false) :
    pick (r :: rs) (b :: s) = pick rs (b :: s) :=
  pick_none (Pat.longest_of_deriv h hp)

theorem pick_some {n : Nat} (hr : r.pat.longest s = some n) (h : ∀ y ∈ pick rs s, y.2 ≤ n) :
    pick (r :: rs) s = some (r, n) := by
  rw [pick, hr]
  cases hp : pick rs s with
  | none => rfl
  | some y => exact if_neg (Nat.not_lt.2 (h y hp))

theorem pick_le {n : Nat} (h : pick rs s = some (r, n)) : ∀ y ∈ pick rs s, y.2 ≤ n := by
  rw [h]
  rintro y ⟨⟩
  exact Nat.le_refl n

def pairRule (a : UInt8) (p : UInt8 × α) : Rule α := ⟨.str [a, p.1], 0, p.2⟩

theorem or_find_cons {β : Type} {f : UInt8 × α → β} {p : UInt8 × α} {ps : List (UInt8 × α)}
    {r : Option β} : (((p :: ps).find? (b = ·.1)).map f).or r =
      if b = p.1 then some (f p) else ((ps.find? (b = ·.1)).map f).or r := by
  rw [List.find?_cons]
  by_cases hp : b = p.1
  · rw [decide_eq_true hp, if_pos hp]
    rfl
  · rw [decide_eq_false hp, if_neg hp]

theorem pick_pairs (ps : List (UInt8 × α)) (h : ∀ y ∈ pick rs (a :: b :: s), y.2 ≤ 2) :
    pick (ps.map (pairRule a) ++ rs) (a :: b :: s) =
      ((ps.find? (b = ·.1)).map fun p => (pairRule a p, 2)).or (pick rs (a :: b :: s)) ∧
    ∀ y ∈ pick (ps.map (pairRule a) ++ rs) (a :: b :: s), y.2 ≤ 2 := by
  induction ps with
  | nil => exact ⟨rfl, h⟩
  | cons p ps ih =>
    have hlongest : (pairRule a p).pat.longest (a :: b :: s) = if b = p.1 then some 2 else none :=
      Pat.longest_pair
    rw [List.map_cons, List.cons_append, or_find_cons]
    by_cases hp : b = p.1
    · rw [if_pos hp] at hlongest
      rw [pick_some hlongest ih.2, if_pos hp]
      exact ⟨rfl, fun y hy => by cases hy; exact Nat.le_refl 2⟩
    · rw [if_neg hp] at hlongest
      rw [pick_none hlongest, if_neg hp]
      exact ih

end Pick

end Okws.Lib.Flex
