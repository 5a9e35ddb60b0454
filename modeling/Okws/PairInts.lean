import Mathlib.Data.List.Induction
import Okws.OkwcHdr

namespace Okws

/-- `strtoull` on the whole of a C string; what is too large is read as the largest number. -/
def strtoull (s : Str) : Option Int :=
  match Scalar.number (cstr s) with
  | none => none
  | some (neg, n, rest) =>
    if rest ≠ [] then none
    else if 2 ^ 64 ≤ n then some (2 ^ 64 - 1)
    else some ((if neg then -(n : Int) else n) % 2 ^ 64)

/-- `to_int` or `to_uint64`. -/
inductive IntKind
  | int | uint
  deriving DecidableEq

def IntKind.parse : IntKind → Str → Option Int
  | .int => strtoll
  | .uint => strtoull

/-- `is` with `ivals`, or `uis` with `uivals`. -/
inductive IntCache
  | unset
  | fail
  | vals (l : List Int)
  deriving DecidableEq

/-- `to_int ()` and `to_uint64 ()`. -/
def IntCache.read (kind : IntKind) (vals : List Str) : IntCache → IntCache × Option (List Int)
  | .unset => match vals.mapM kind.parse with
    | some l => (.vals l, some l)
    | none => (.fail, none)
  | .vals l => (.vals l, some l)
  | .fail => (.fail, none)

structure IntTab where
  tab : PairTab := .empty
  cache : IntKind → Str → IntCache := fun _ _ => .unset

inductive TabOp
  /-- `insert`, to the values or in place of them. -/
  | insert (key val : Option Str) (append encode : Bool)
  /-- `lookup (const str &)` and `lookup (const str &, str *)`. -/
  | lookup (key : Str)
  /-- `lookup (const str &, vec<str> *)`. -/
  | vlookup (key : Str)
  /-- `lookup<T>`, before the value is converted, and `lookup (const str &, u_int64_t *)`. -/
  | ilookup (kind : IntKind) (key : Str)
  /-- `ivlookup` and `uivlookup`. -/
  | ivlookup (kind : IntKind) (key : Str)
  deriving DecidableEq

inductive TabAnswer
  | done
  | text (s : Option Str)
  | texts (l : Option (List Str))
  | int (i : Option Int)
  | ints (l : Option (List Int))
  deriving DecidableEq

namespace TabOp

/-- What the operation makes of the strings, and of the integers, of its key. -/
def reply (strs : Option (List Str)) (ints : IntKind → Option (List Int)) : TabOp → TabAnswer
  | .insert .. => .done
  | .lookup _ => .text (strs.bind (·.head?))
  | .vlookup _ => .texts strs
  | .ilookup kind _ => .int ((ints kind).bind (·.head?))
  | .ivlookup kind _ => .ints (ints kind)

def key : TabOp → Str
  | .insert key .. => key.getD []
  | .lookup key | .vlookup key | .ilookup _ key | .ivlookup _ key => key

def kind : TabOp → Option IntKind
  | .ilookup kind _ | .ivlookup kind _ => some kind
  | _ => none

def insertInto (t : PairTab) : TabOp → PairTab
  | .insert key val append encode => t.insert key val append encode
  | _ => t

def parsed (op : TabOp) (vals : Option (List Str)) : TabAnswer :=
  op.reply vals fun kind => vals.bind (·.mapM kind.parse)

end TabOp

namespace IntTab

/-- What the cache of a key says, if there is a pair for it. -/
def ints (s : IntTab) (key : Str) (kind : IntKind) : Option (List Int) :=
  (s.tab.lookup key).bind fun vals => ((s.cache kind key).read kind vals).2

def answer (s : IntTab) (op : TabOp) : TabAnswer :=
  op.reply (s.tab.lookup op.key) (s.ints op.key)

def remember (s : IntTab) (op : TabOp) (kind : IntKind) (key : Str) : IntCache :=
  if op.kind = some kind ∧ op.key = key then
    match s.tab.lookup key with
    | some vals => ((s.cache kind key).read kind vals).1
    | none => s.cache kind key
  else s.cache kind key

def step (s : IntTab) (op : TabOp) : IntTab := ⟨op.insertInto s.tab, s.remember op⟩

def run (ops : List TabOp) : IntTab := ops.foldl step {}

end IntTab

def tabOf (ops : List TabOp) : PairTab := ops.foldl (fun t op => op.insertInto t) .empty

/-- The values that the key has had when it was looked up for integers of this kind for the
first time. -/
def firstSeen (kind : IntKind) (key : Str) : PairTab → List TabOp → Option (List Str)
  | _, [] => none
  | t, op :: ops =>
    (if op.kind = some kind ∧ op.key = key then t.lookup key else none).or
      (firstSeen kind key (op.insertInto t) ops)

/-- Every answer is the one that parsing the values of the key gives at that time. -/
def Coherent (ops : List TabOp) : Prop :=
  ∀ pre op post, ops = pre ++ op :: post →
    (IntTab.run pre).answer op = op.parsed ((tabOf pre).lookup op.key)

/-- The values that an answer is taken from: for integers, those at the first lookup. -/
def basis (pre : List TabOp) (op : TabOp) : Option (List Str) :=
  (op.kind.bind fun kind => firstSeen kind op.key .empty pre).or ((tabOf pre).lookup op.key)

theorem tabOf_snoc (ops : List TabOp) (op : TabOp) :
    tabOf (ops ++ [op]) = op.insertInto (tabOf ops) := by
  simp [tabOf]

theorem run_snoc (ops : List TabOp) (op : TabOp) :
    IntTab.run (ops ++ [op]) = (IntTab.run ops).step op := by
  simp [IntTab.run]

theorem run_tab (ops : List TabOp) : (IntTab.run ops).tab = tabOf ops := by
  induction ops using List.reverseRecOn with
  | nil => rfl
  | append_singleton ops op ih => rw [run_snoc, tabOf_snoc, ← ih]; rfl

section Seen

variable {kind : IntKind} {key : Str}

theorem firstSeen_snoc (t : PairTab) (ops : List TabOp) (op : TabOp) :
    firstSeen kind key t (ops ++ [op]) = (firstSeen kind key t ops).or
      (if op.kind = some kind ∧ op.key = key then
        (ops.foldl (fun t op => op.insertInto t) t).lookup key else none) := by
  induction ops generalizing t with
  | nil => simp [firstSeen]
  | cons a ops ih => simp only [List.cons_append, firstSeen, ih, Option.or_assoc, List.foldl_cons]

/-- The cache of a pair that has been looked up when its values were these. -/
def IntCache.of (kind : IntKind) : Option (List Str) → IntCache
  | none => .unset
  | some strs => (IntCache.unset.read kind strs).1

theorem read_of (kind : IntKind) (seen : Option (List Str)) (strs : List Str) :
    (IntCache.of kind seen).read kind strs =
      (.of kind (seen.or (some strs)), (seen.getD strs).mapM kind.parse) := by
  cases seen with
  | none => cases h : strs.mapM kind.parse <;> simp [IntCache.of, IntCache.read, h]
  | some seen => cases h : seen.mapM kind.parse <;> simp [IntCache.of, IntCache.read, h]

theorem run_cache (ops : List TabOp) :
    (IntTab.run ops).cache kind key = .of kind (firstSeen kind key .empty ops) := by
  induction ops using List.reverseRecOn with
  | nil => rfl
  | append_singleton ops op ih =>
    have htab := run_tab ops
    rw [run_snoc, firstSeen_snoc]
    simp only [IntTab.step, IntTab.remember]
    split
    · rw [htab, ih, ← tabOf]
      cases (tabOf ops).lookup key with
      | none => rw [Option.or_none]
      | some vals => simp only [read_of]
    · rw [ih, Option.or_none]

theorem lookup_isSome {t : PairTab} :
    (t.lookup key).isSome = true ↔ ∃ p ∈ t.pairs, p.key = key := by
  simp [PairTab.lookup, PairTab.find]

theorem lookup_insertInto {t : PairTab} (op : TabOp) (h : (t.lookup key).isSome = true) :
    ((op.insertInto t).lookup key).isSome = true := by
  rw [lookup_isSome] at h ⊢
  obtain ⟨p, hp, hkey⟩ := h
  cases op with
  | insert k val append encode =>
    simp only [TabOp.insertInto, PairTab.insert]
    split
    · exact ⟨p, hp, hkey⟩
    · split
      · exact ⟨p, hp, hkey⟩
      · split
        · split
          · -- the values of one pair are replaced
            refine ⟨_, List.mem_map_of_mem hp, ?_⟩
            split <;> exact hkey
          · exact ⟨p, hp, hkey⟩
        · exact ⟨p, List.mem_append_left _ hp, hkey⟩
  | _ => exact ⟨p, hp, hkey⟩

theorem lookup_of_firstSeen {t : PairTab} {ops : List TabOp} {strs : List Str}
    (h : firstSeen kind key t ops = some strs) :
    ((ops.foldl (fun t op => op.insertInto t) t).lookup key).isSome = true := by
  induction ops using List.reverseRecOn generalizing strs with
  | nil => cases h
  | append_singleton ops op ih =>
    rw [firstSeen_snoc] at h
    rw [List.foldl_append]
    refine lookup_insertInto op ?_
    cases hseen : firstSeen kind key t ops with
    | some strs' => exact ih hseen
    | none =>
      rw [hseen, Option.none_or] at h
      split at h
      · exact Option.isSome_iff_exists.2 ⟨strs, h⟩
      · cases h

end Seen

theorem answer_run (pre : List TabOp) (op : TabOp) :
    (IntTab.run pre).answer op = op.parsed (basis pre op) := by
  have hints (kind : IntKind) (hkind : op.kind = some kind) :
      (IntTab.run pre).ints op.key kind = (basis pre op).bind (·.mapM kind.parse) := by
    have hseen := @lookup_of_firstSeen kind op.key .empty pre
    rw [IntTab.ints, run_tab, run_cache, basis, hkind, Option.bind_some]
    cases hfirst : firstSeen kind op.key .empty pre with
    | none =>
      cases (tabOf pre).lookup op.key with
      | none => rfl
      | some strs => simp only [Option.bind_some, read_of, Option.none_or, Option.getD_none]
    | some seen =>
      obtain ⟨strs, hstrs⟩ := Option.isSome_iff_exists.1 (hseen hfirst)
      rw [tabOf, hstrs]
      simp only [Option.bind_some, read_of, Option.some_or, Option.getD_some]
  have htab := run_tab pre
  cases op with
  | insert => rfl
  | lookup key =>
    simp [IntTab.answer, TabOp.parsed, TabOp.reply, basis, TabOp.kind, TabOp.key, htab]
  | vlookup key =>
    simp [IntTab.answer, TabOp.parsed, TabOp.reply, basis, TabOp.kind, TabOp.key, htab]
  | ilookup kind key => simp [IntTab.answer, TabOp.parsed, TabOp.reply, hints kind rfl]
  | ivlookup kind key => simp [IntTab.answer, TabOp.parsed, TabOp.reply, hints kind rfl]

/-- The answers are right exactly as long as the values at the first lookup of a key for integers
parse to what its present values parse to. -/
theorem coherent_iff (ops : List TabOp) :
    Coherent ops ↔ ∀ pre op post, ops = pre ++ op :: post →
      op.parsed (basis pre op) = op.parsed ((tabOf pre).lookup op.key) := by
  unfold Coherent
  simp only [answer_run]

/-- Inserting 1 under a key, looking it up, and inserting 2 in its place: it is still 1. -/
theorem not_coherent_replaced : ¬ Coherent [.insert (some [107]) (some [49]) true true,
    .ilookup .int [107], .insert (some [107]) (some [50]) false true, .ilookup .int [107]] := by
  intro h
  have hstale := h [.insert (some [107]) (some [49]) true true, .ilookup .int [107],
    .insert (some [107]) (some [50]) false true] (.ilookup .int [107]) [] rfl
  revert hstale
  decide

end Okws
