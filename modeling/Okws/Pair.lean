import Okws.Byte

/-! `pairtab_t`, the table of keys and values every parser fills. -/

namespace Okws

/-- The members of `pair_t` that the table and the encoder use. -/
structure Pair where
  key : Str
  vals : List Str
  encflag : Bool := true
  deriving DecidableEq

def Pair.hasdata (p : Pair) : Bool := 0 < p.vals.length

/-- The pairs in the order of `lst`; the hash table `tab` has one entry for each key. -/
structure PairTab where
  pairs : List Pair
  nodup : (pairs.map Pair.key).Nodup
  deriving DecidableEq

namespace PairTab

def empty : PairTab := ⟨[], .nil⟩

/-- `tab[key]`. -/
def find (t : PairTab) (key : Str) : Option Pair := t.pairs.find? (·.key = key)

def lookup (t : PairTab) (key : Str) : Option (List Str) := (t.find key).map (·.vals)

theorem find_eq_none {t : PairTab} {k : Str} : t.find k = none ↔ ∀ p ∈ t.pairs, p.key ≠ k := by
  simp [find]

/-- Replaces the values of the pair with key `k`. -/
def setVals (t : PairTab) (k : Str) (vals : List Str) : PairTab where
  pairs := t.pairs.map fun p => if p.key = k then { p with vals := vals } else p
  nodup := by
    have hkey : Pair.key ∘ (fun p => if p.key = k then { p with vals := vals } else p) =
        Pair.key := by
      funext p
      simp only [Function.comp_apply]
      split <;> rfl
    rw [List.map_map, hkey]
    exact t.nodup

/-- `insert (pair_t *)`, for a key that is not there. -/
def insertPair (t : PairTab) (p : Pair) (h : t.find p.key = none) : PairTab where
  pairs := t.pairs ++ [p]
  nodup := by
    rw [List.map_append, List.nodup_append]
    refine ⟨t.nodup, by simp, fun a ha b hb => ?_⟩
    obtain ⟨q, hq, rfl⟩ := List.mem_map.1 ha
    obtain rfl : b = p.key := by simpa using hb
    exact find_eq_none.1 h q hq

/-- `insert`; a `none` is a `NULL` string. -/
def insert (t : PairTab) (key val : Option Str) (append encode : Bool) : PairTab :=
  match key with
  | none => t
  | some k =>
    if k = [] then t
    else match h : t.find k with
      | some p => match val with
        | some v => t.setVals k (if append then p.vals ++ [v] else [v])
        | none => t
      | none => t.insertPair ⟨k, val.toList, encode⟩ h

variable {t : PairTab} {k k' v : Str} {p : Pair}

theorem find_key (h : t.find k = some p) : p.key = k := by
  simpa using List.find?_some h

end PairTab

end Okws
