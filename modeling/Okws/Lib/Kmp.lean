import Mathlib.Data.List.Basic

/-! The matching automaton of Knuth, Morris and Pratt.  Its state is the length of the longest
prefix of the pattern that is a suffix of what has been read; the table says, for each prefix,
where to go on when the next character does not fit. -/

universe u

namespace Okws.Lib.Kmp

variable {α : Type u}

/-- The longest prefix of `P`, of length at most `b`, that is a suffix of `T`. -/
structure Longest (P T : List α) (b q : Nat) : Prop where
  le : q ≤ b
  suffix : P.take q <:+ T
  max : ∀ {k}, k ≤ b → P.take k <:+ T → k ≤ q

/-- The first `n` entries of a prefix table. -/
def Table (P : List α) (pi : List Nat) (n : Nat) : Prop :=
  ∀ i < n, Longest P (P.take (i + 1)) i (pi.getD i 0)

theorem take_suffix_concat {P T : List α} {c : α} {k : Nat} :
    P.take (k + 1) <:+ T ++ [c] ∧ k < P.length ↔ P.take k <:+ T ∧ P[k]? = some c := by
  constructor
  · rintro ⟨⟨l, hl⟩, hk⟩
    rw [List.take_succ_eq_append_getElem hk, ← List.append_assoc] at hl
    obtain ⟨h₁, h₂⟩ := List.append_inj' hl rfl
    exact ⟨⟨l, h₁⟩, by rw [List.getElem?_eq_getElem hk]; simpa using h₂⟩
  · rintro ⟨⟨l, rfl⟩, hc⟩
    obtain ⟨hk, rfl⟩ := List.getElem?_eq_some_iff.1 hc
    exact ⟨⟨l, by rw [List.take_succ_eq_append_getElem hk, ← List.append_assoc]⟩, hk⟩

theorem take_suffix_take {P T : List α} {k q : Nat} (hk : P.take k <:+ T) (hq : P.take q <:+ T)
    (h : k ≤ q) :
    P.take k <:+ P.take q :=
  List.suffix_of_suffix_length_le hk hq (by simp only [List.length_take]; omega)

theorem Longest.unique {P T : List α} {b k q : Nat} (hk : Longest P T b k)
    (hq : Longest P T b q) : k = q :=
  Nat.le_antisymm (hq.max hk.le hk.suffix) (hk.max hq.le hq.suffix)

theorem longest_start (P : List α) : Longest P [] (P.length - 1) 0 := by
  refine ⟨Nat.zero_le _, by simp, fun {k} hk hs => ?_⟩
  have := hs.length_le
  simp only [List.length_take, List.length_nil] at this
  omega

variable [DecidableEq α]

/-- The inner loop; a number of rounds that is at least the state is enough. -/
def fall (P : List α) (pi : List Nat) (c : α) : Nat → Nat → Nat
  | 0, q => q
  | n + 1, q => if 0 < q ∧ P[q]? ≠ some c then fall P pi c n (pi.getD (q - 1) 0) else q

def advance (P : List α) (pi : List Nat) (q : Nat) (c : α) : Nat :=
  let q := fall P pi c q q
  if P[q]? = some c then q + 1 else q

def prefixTable (P : List α) : List Nat :=
  (P.tail.foldl (fun s c => (s.1 ++ [advance P s.1 s.2 c], advance P s.1 s.2 c)) ([0], 0)).1

section

variable {P T : List α} {pi : List Nat} {b q : Nat} {c : α}

theorem fall_spec {n : Nat} (hpi : Table P pi q) (hn : q ≤ n) (hT : P.take q <:+ T)
    (hmax : ∀ k ≤ b, P.take k <:+ T → P[k]? = some c → k ≤ q) :
    fall P pi c n q ≤ q ∧ P.take (fall P pi c n q) <:+ T ∧
      (∀ k ≤ b, P.take k <:+ T → P[k]? = some c → k ≤ fall P pi c n q) ∧
      (fall P pi c n q = 0 ∨ P[fall P pi c n q]? = some c) := by
  induction n generalizing q with
  | zero => exact ⟨Nat.le_refl _, hT, hmax, .inl (by simpa [fall] using hn)⟩
  | succ n ih =>
    rw [fall]
    split
    · next hif =>
      obtain ⟨hpos, hne⟩ := hif
      -- the candidates are shorter than `q`, so they are borders of what is matched so far
      have hfail := hpi (q - 1) (by omega)
      rw [Nat.sub_add_cancel hpos] at hfail
      have hlt : pi.getD (q - 1) 0 < q := by
        have := hfail.le
        omega
      obtain ⟨h₁, h₂, h₃, h₄⟩ :=
        ih (q := pi.getD (q - 1) 0) (fun i hi => hpi i (by omega)) (by omega)
        (hfail.suffix.trans hT) fun k hk hs hc => by
          have hkq := hmax k hk hs hc
          have hne' : k ≠ q := fun h => hne (h ▸ hc)
          exact hfail.max (by omega) (take_suffix_take hs hT (by omega))
      exact ⟨by omega, h₂, h₃, h₄⟩
    · next hif =>
      refine ⟨Nat.le_refl _, hT, hmax, ?_⟩
      by_cases hpos : 0 < q
      · exact .inr (by simpa [hpos] using hif)
      · exact .inl (by omega)

theorem advance_longest (hpi : Table P pi q) (hb : b < P.length) (h : Longest P T b q) :
    Longest P (T ++ [c]) (b + 1) (advance P pi q c) := by
  obtain ⟨hle, hsuf, hmax, hend⟩ := fall_spec (c := c) (b := b) hpi (Nat.le_refl q) h.suffix
    fun k hk hs _ => h.max hk hs
  have hcand {k : Nat} (hk : k + 1 ≤ b + 1) (hs : P.take (k + 1) <:+ T ++ [c]) :
      k ≤ fall P pi c q q ∧ P[k]? = some c := by
    obtain ⟨h₁, h₂⟩ := take_suffix_concat.1 ⟨hs, by omega⟩
    exact ⟨hmax k (by omega) h₁ h₂, h₂⟩
  simp only [advance]
  split
  · next hc =>
    refine ⟨by have := h.le; omega, (take_suffix_concat.2 ⟨hsuf, hc⟩).1, ?_⟩
    intro k hk hs
    cases k with
    | zero => omega
    | succ k =>
      have := (hcand hk hs).1
      omega
  · next hc =>
    have hzero : fall P pi c q q = 0 := hend.resolve_right hc
    refine ⟨by omega, by simp [hzero], ?_⟩
    intro k hk hs
    cases k with
    | zero => omega
    | succ k =>
      obtain ⟨h₁, h₂⟩ := hcand hk hs
      rw [hzero] at hc h₁
      obtain rfl : k = 0 := by omega
      exact absurd h₂ hc

theorem prefixTable_spec (P : List α) : Table P (prefixTable P) P.length := by
  have loop (rest pre : List α) (s : List Nat) (k : Nat) (hP : P = pre ++ rest) (hpre : pre ≠ [])
      (hs : s.length = pre.length) (htab : Table P s pre.length)
      (hk : Longest P pre (pre.length - 1) k) :
      Table P (rest.foldl (fun s c => (s.1 ++ [advance P s.1 s.2 c], advance P s.1 s.2 c))
        (s, k)).1 P.length := by
    induction rest generalizing pre s k with
    | nil =>
      rw [List.append_nil] at hP
      subst hP
      exact htab
    | cons c rest ih =>
      have hpos := List.length_pos_iff.2 hpre
      have hlen : pre.length < P.length := by simp [hP]
      have hadv : Longest P (pre ++ [c]) pre.length (advance P s k c) := by
        have := advance_longest (c := c) (fun i hi => htab i (by have := hk.le; omega))
            (by omega) hk
        rwa [Nat.sub_add_cancel hpos] at this
      refine ih (pre ++ [c]) (s ++ [advance P s k c]) (advance P s k c) (by simp [hP]) (by simp)
        (by simp [hs]) ?_ (by simpa using hadv)
      intro i hi
      rw [List.length_append, List.length_singleton] at hi
      by_cases hlt : i < pre.length
      · have hget : (s ++ [advance P s k c]).getD i 0 = s.getD i 0 := by
          simp [List.getD, List.getElem?_append_left (hs ▸ hlt)]
        rw [hget]
        exact htab i hlt
      · obtain rfl : i = pre.length := by omega
        have hget : (s ++ [advance P s k c]).getD pre.length 0 = advance P s k c := by
          simp [List.getD, ← hs]
        have htake : P.take (pre.length + 1) = pre ++ [c] := by
          rw [hP, List.take_append, List.take_of_length_le (by omega)]
          simp
        rw [hget, htake]
        exact hadv
  cases P with
  | nil => exact fun i hi => absurd hi (by simp)
  | cons a l =>
    refine loop l [a] [0] 0 rfl (by simp) rfl (fun i hi => ?_)
      ⟨Nat.le_refl _, by simp, fun hk _ => by simpa using hk⟩
    obtain rfl : i = 0 := by simpa using hi
    exact ⟨Nat.le_refl _, by simp, fun hk _ => hk⟩

theorem prefixTable_length (hP : P ≠ []) : (prefixTable P).length = P.length := by
  have loop (rest : List α) (s : List Nat) (k : Nat) :
      (rest.foldl (fun s c => (s.1 ++ [advance P s.1 s.2 c], advance P s.1 s.2 c))
        (s, k)).1.length = s.length + rest.length := by
    induction rest generalizing s k with
    | nil => rfl
    | cons c rest ih => simp [ih, Nat.add_assoc, Nat.add_comm 1]
  have hpos := List.length_pos_iff.2 hP
  rw [prefixTable, loop, List.length_singleton, List.length_tail]
  omega

theorem advance_found (hP : P ≠ []) (h : Longest P T (P.length - 1) q) (c : α) :
    (advance P (prefixTable P) q c = P.length ↔ P <:+ T ++ [c]) ∧
    Longest P (T ++ [c]) (P.length - 1) (if advance P (prefixTable P) q c = P.length then
      (prefixTable P).getD (P.length - 1) 0 else advance P (prefixTable P) q c) := by
  have hpos := List.length_pos_iff.2 hP
  have htab := prefixTable_spec P
  have hq := h.le
  have hadv : Longest P (T ++ [c]) P.length (advance P (prefixTable P) q c) := by
    have := advance_longest (c := c) (fun i hi => htab i (by omega)) (by omega) h
    rwa [Nat.sub_add_cancel hpos] at this
  have hfull : advance P (prefixTable P) q c = P.length ↔ P <:+ T ++ [c] := by
    constructor
    · intro heq
      have := hadv.suffix
      rwa [heq, List.take_length] at this
    · intro hs
      exact Nat.le_antisymm hadv.le (hadv.max (Nat.le_refl _) (by rwa [List.take_length]))
  refine ⟨hfull, ?_⟩
  split
  · next heq =>
    have hs := hfull.1 heq
    have hlast := htab (P.length - 1) (by omega)
    rw [Nat.sub_add_cancel hpos, List.take_length] at hlast
    refine ⟨hlast.le, hlast.suffix.trans hs, fun {k} hk hks => hlast.max hk ?_⟩
    exact List.suffix_of_suffix_length_le hks hs (by simp only [List.length_take]; omega)
  · next hne =>
    have := hadv.le
    exact ⟨by omega, hadv.suffix, fun hk => hadv.max (by omega)⟩

end

end Okws.Lib.Kmp
