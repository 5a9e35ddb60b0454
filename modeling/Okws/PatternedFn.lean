import Mathlib.Data.List.Forall2
import Mathlib.Data.Option.Basic
import Okws.Heap

/-! `patterned_fn_base_t`: the arguments of a library function, checked against its pattern, and
what the bodies of the functions read of them. -/

namespace Okws.PatternedFn

open Zbuf Pub3

/-- The values, and the virtual functions of `expr_t` that a pattern calls.  `to_regex` may leave an
error; the numbers of `to_double` are the bits of a double.  `convertint` reads a number with a sign
for every integer type that it is used at. -/
structure Exprs where
  Expr : Type
  Rxx : Type
  Dict : Type
  Lst : Type
  Callable : Type
  null : Expr
  toCallable : Expr → Option Callable
  toInt : Expr → Option Int64
  toUint : Expr → Option UInt64
  toDouble : Expr → Option UInt64
  toStr : Expr → Option Str
  argToStr : Expr → Option Str
  toRegex : Expr → Option Rxx × Option Str
  toDict : Expr → Option Dict
  toBool : Expr → Bool
  toList : Expr → Option Lst
  convertint : Str → Option Int64
  doubleOfInt : Int64 → UInt64

variable (E : Exprs)

/-- `arg_t`. -/
structure ArgT where
  O : Option E.Expr := none
  r : Option E.Rxx := none
  s : Option Str := none
  d : Option E.Dict := none
  l : Option E.Lst := none
  i : Int64 := 0
  u : UInt64 := 0
  b : Bool := false
  n : Int16 := -1
  f : UInt64 := 0
  F : Option E.Callable := none

/-- The letter `O` apart, what a letter of a pattern makes of an argument. -/
def convert (c : Char) (x : E.Expr) : Option (ArgT E) :=
  match c with
  | 'F' => (E.toCallable x).map fun f => { F := some f }
  | 'i' => (E.toInt x <|> (E.toStr x).bind E.convertint).map fun i => { i := i }
  | 'u' => (E.toUint x <|> ((E.toStr x).bind E.convertint).map Int64.toUInt64).map
    fun u => { u := u }
  | 'f' => (E.toDouble x <|> (E.toInt x).map E.doubleOfInt).map fun f => { f := f }
  | 's' => (E.argToStr x).map fun s => { s := some s }
  | 'r' => (E.toRegex x).1.map fun r => { r := some r }
  | 'd' => (E.toDict x).map fun d => { d := some d }
  | 'b' => some { b := E.toBool x }
  | 'l' => (E.toList x).map fun l => { l := some l }
  | _ => none

def isLetter (c : Char) : Bool := ['F', 'i', 'u', 'f', 's', 'O', 'r', 'd', 'b', 'l'].contains c

def expected : Char → Str
  | 'F' => text "a lambda or built-in"
  | 'i' => text "an integer"
  | 'u' => text "an unsigned int"
  | 'f' => text "a double (or int)"
  | 's' => text "a string"
  | 'r' => text "a regex"
  | 'd' => text "a dict"
  | _ => text "a list"

/-- The variables of the loop of `check_args`. -/
structure Scan where
  i : Nat := 0
  pipe : Bool := false
  minArgs : Nat := 0
  maxArgs : Nat := 0
  e : Option Str := none
  err : List Str := []
  checked : List (ArgT E) := []

namespace Scan

variable {E}

def advance (st : Scan E) : Scan E :=
  { st with
    i := st.i + 1
    maxArgs := st.maxArgs + 1
    minArgs := if st.pipe then st.minArgs else st.minArgs + 1 }

def push (st : Scan E) (a : ArgT E) : Scan E := { st with checked := st.checked ++ [a] }

/-- The error that `to_regex (&e)` leaves, or one before it has left. -/
def regexError (st : Scan E) (c : Char) (x : E.Expr) : Scan E :=
  if c = 'r' then
    let e := (E.toRegex x).2 <|> st.e
    { st with e := e, err := st.err ++ e.toList }
  else st

/-- The arm of the switch for an argument in bounds.  An argument that does not convert is pushed
as well.  A null pointer is good for `O` only. -/
def arm (st : Scan E) (c : Char) (x : Option E.Expr) : Option (Scan E) :=
  if c = 'O' then some (st.push { O := x })
  else x.map fun x => match convert E c x with
    | some a => st.push a
    | none =>
      let st := st.regexError c x
      { st with
        err := st.err ++
          [text "argument " ++ decimal (st.i + 1 : Nat) ++ text ": expected " ++ expected c]
        checked := st.checked ++ [{}] }

/-- The `switch` on a character of the pattern. -/
def turn (args : List (Option E.Expr)) (st : Scan E) (c : Char) : Option (Scan E) :=
  if isLetter c then
    match args[st.i]? with
    | none => some st.advance
    | some x => (st.arm c x).map advance
  else if c = '|' then
    if st.pipe then
      some { st with
        err := st.err ++ [text "internal pattern error: '|' can only be specified once"] }
    else some { st with pipe := true }
  else
    some { st with err := st.err ++ [text "internal pattern error: bad character: " ++ ascii [c]] }

end Scan

/-- A turn of the loop of `check_args`, behind the assertion. -/
def step (safe : Bool) (args : List (Option E.Expr)) (st : Scan E) (c : Char) : Option (Scan E) :=
  match safe, args[st.i]? with
  | true, some none => none
  | _, _ => st.turn args c

def scan (safe : Bool) (args : List (Option E.Expr)) (st : Scan E) : List Char → Option (Scan E)
  | [] => some st
  | c :: pat => (step E safe args st c).bind fun st => scan safe args st pat

def wrongNumber (st : Scan E) (n : Nat) : List Str :=
  if n < st.minArgs ∨ st.maxArgs < n then
    let ex := if st.minArgs = st.maxArgs then decimal st.minArgs
      else decimal st.minArgs ++ text " to " ++ decimal st.maxArgs
    [text "wrong number of arguments: expected " ++ ex ++ text ", got " ++ decimal n]
  else []

/-- What `check_args` answers, with the vector that it fills and the errors that it reports. -/
def checkArgs (safe : Bool) (name pat : String) (args : List (Option E.Expr)) :
    Option (Bool × List (ArgT E) × List Str) :=
  (scan E safe args {} pat.toList).map fun st =>
    let err := st.err ++ wrongNumber E st args.length
    (err.isEmpty, st.checked, err.map fun e => text name ++ text ": " ++ e)

/-- A patterned function, with the entries `args[i]` that its body reads for so many arguments, and
the field of each. -/
structure Fn where
  name : String
  pat : String
  reads : Nat → List (Nat × Char)
  blocking : Bool := false
  safeArgs : Bool := true

inductive Mode
  | eval
  | pub

inductive Outcome
  | crash
  | refused (report : List Str)
  | async
  | entered (checked : List (ArgT E))

/-- `eval_args` and `pub_args`, on what the arguments evaluate to. -/
def evalArgs (safe : Bool) (ai : List (Option E.Expr)) : List (Option E.Expr) :=
  ai.map fun x => if x.isNone && safe then some E.null else x

/-- `eval_to_val` and `pub_to_val` up to `v_eval_2` or `v_pub_to_val_2`. -/
def call (f : Fn) (m : Mode) (ai : List (Option E.Expr)) : Outcome E :=
  match f.blocking, m with
  | true, .eval => .async
  | _, _ => match checkArgs E f.safeArgs f.name f.pat (evalArgs E f.safeArgs ai) with
    | none => .crash
    | some (true, checked, _) => .entered checked
    | some (false, _, report) => .refused report

def letters (pat : List Char) : List Char := pat.filter isLetter

def required (pat : List Char) : List Char := letters (pat.takeWhile (· ≠ '|'))

section

variable {E}

/-- The field of the letter, and no other, holds what the letter demands. -/
inductive Sets : Char → Option E.Expr → ArgT E → Prop
  | callable {x f} : E.toCallable x = some f → Sets 'F' (some x) { F := some f }
  | int {x i} : E.toInt x = some i → Sets 'i' (some x) { i := i }
  | intText {x t i} : E.toInt x = none → E.toStr x = some t → E.convertint t = some i →
    Sets 'i' (some x) { i := i }
  | uint {x u} : E.toUint x = some u → Sets 'u' (some x) { u := u }
  | uintText {x t i} : E.toUint x = none → E.toStr x = some t → E.convertint t = some i → 0 ≤ i →
    Sets 'u' (some x) { u := i.toUInt64 }
  | double {x f} : E.toDouble x = some f → Sets 'f' (some x) { f := f }
  | doubleInt {x i} : E.toDouble x = none → E.toInt x = some i →
    Sets 'f' (some x) { f := E.doubleOfInt i }
  | string {x s} : E.argToStr x = some s → Sets 's' (some x) { s := some s }
  | any {x} : Sets 'O' x { O := x }
  | regex {x r} : (E.toRegex x).1 = some r → Sets 'r' (some x) { r := some r }
  | dict {x d} : E.toDict x = some d → Sets 'd' (some x) { d := some d }
  | bool {x} : Sets 'b' (some x) { b := E.toBool x }
  | list {x l} : E.toList x = some l → Sets 'l' (some x) { l := some l }

def Loads (c : Char) (x : Option E.Expr) (a : ArgT E) : Prop :=
  if c = 'O' then a = { O := x } else ∃ y, x = some y ∧ convert E c y = some a

/-- A value that is no unsigned integer, and that reads like a negative one. -/
def Negative (x : E.Expr) : Prop :=
  E.toUint x = none ∧ ∃ t i, E.toStr x = some t ∧ E.convertint t = some i ∧ i < 0

theorem sets_of_convert {c : Char} {x : E.Expr} {a : ArgT E} (h : convert E c x = some a)
    (hneg : ¬ (c = 'u' ∧ Negative x)) : Sets c (some x) a := by
  unfold convert at h
  split at h
  · obtain ⟨f, hf, rfl⟩ := Option.map_eq_some_iff.1 h
    exact .callable hf
  · obtain ⟨i, hi, rfl⟩ := Option.map_eq_some_iff.1 h
    rcases (Option.orElse_eq_some _ _ _).1 hi with hi | ⟨hn, hi⟩
    · exact .int hi
    · obtain ⟨t, ht, hi⟩ := Option.bind_eq_some_iff.1 hi
      exact .intText hn ht hi
  · obtain ⟨u, hu, rfl⟩ := Option.map_eq_some_iff.1 h
    rcases (Option.orElse_eq_some _ _ _).1 hu with hu | ⟨hn, hu⟩
    · exact .uint hu
    · obtain ⟨i, hi, rfl⟩ := Option.map_eq_some_iff.1 hu
      obtain ⟨t, ht, hi⟩ := Option.bind_eq_some_iff.1 hi
      exact .uintText hn ht hi (Int64.not_lt.1 fun hlt => hneg ⟨rfl, hn, t, i, ht, hi, hlt⟩)
  · obtain ⟨f, hf, rfl⟩ := Option.map_eq_some_iff.1 h
    rcases (Option.orElse_eq_some _ _ _).1 hf with hf | ⟨hn, hf⟩
    · exact .double hf
    · obtain ⟨i, hi, rfl⟩ := Option.map_eq_some_iff.1 hf
      exact .doubleInt hn hi
  · obtain ⟨s, hs, rfl⟩ := Option.map_eq_some_iff.1 h
    exact .string hs
  · obtain ⟨r, hr, rfl⟩ := Option.map_eq_some_iff.1 h
    exact .regex hr
  · obtain ⟨d, hd, rfl⟩ := Option.map_eq_some_iff.1 h
    exact .dict hd
  · cases h
    exact .bool
  · obtain ⟨l, hl, rfl⟩ := Option.map_eq_some_iff.1 h
    exact .list hl
  · cases h

theorem sets_of_loads {c : Char} {x : Option E.Expr} {a : ArgT E} (h : Loads c x a)
    (hneg : ∀ y, x = some y → ¬ (c = 'u' ∧ Negative y)) : Sets c x a := by
  unfold Loads at h
  split at h
  · next hc =>
    rw [hc, h]
    exact .any
  · obtain ⟨y, rfl, hy⟩ := h
    exact sets_of_convert hy (hneg y rfl)

theorem not_sets_negative {x : E.Expr} {a : ArgT E} (h : Negative x) : ¬ Sets 'u' (some x) a := by
  obtain ⟨hn, t, i, ht, hi, hlt⟩ := h
  intro hs
  cases hs with
  | uint hu => exact absurd (hn.symm.trans hu) nofun
  | uintText _ ht' hi' hle =>
    cases ht.symm.trans ht'
    cases hi.symm.trans hi'
    exact absurd hlt (Int64.not_lt.2 hle)

theorem turn_of_step {safe : Bool} {args : List (Option E.Expr)} {st st' : Scan E} {c : Char}
    (h : step E safe args st c = some st') : st.turn args c = some st' := by
  unfold step at h
  split at h
  · cases h
  · exact h

theorem arm_err {st st' : Scan E} {c : Char} {x : Option E.Expr} (h : st.arm c x = some st') :
    st.err <+: st'.err := by
  unfold Scan.arm at h
  split at h
  · cases h
    exact List.prefix_rfl
  · obtain ⟨x, rfl, rfl⟩ := Option.map_eq_some_iff.1 h
    split
    · exact List.prefix_rfl
    · apply List.IsPrefix.trans _ (List.prefix_append _ _)
      unfold Scan.regexError
      split
      · exact List.prefix_append _ _
      · exact List.prefix_rfl

theorem step_err {safe : Bool} {args : List (Option E.Expr)} {st st' : Scan E} {c : Char}
    (h : step E safe args st c = some st') : st.err <+: st'.err := by
  have h := turn_of_step h
  unfold Scan.turn at h
  split at h
  · split at h
    · cases h
      exact List.prefix_rfl
    · obtain ⟨u, hu, rfl⟩ := Option.map_eq_some_iff.1 h
      exact (arm_err hu : st.err <+: u.err)
  · split at h
    · split at h
      · cases h
        exact List.prefix_append _ _
      · cases h
        exact List.prefix_rfl
    · cases h
      exact List.prefix_append _ _

theorem scan_err {safe : Bool} {args : List (Option E.Expr)} {st st' : Scan E} {pat : List Char}
    (h : scan E safe args st pat = some st') : st.err <+: st'.err := by
  induction pat generalizing st with
  | nil =>
    cases h
    exact List.prefix_rfl
  | cons c pat ih =>
    obtain ⟨u, hu, h⟩ := Option.bind_eq_some_iff.1 h
    exact (step_err hu).trans (ih h)

theorem arm_ok {st st' : Scan E} {c : Char} {x : Option E.Expr} (h : st.arm c x = some st')
    (he : st'.err = []) : ∃ a, Loads c x a ∧ st' = st.push a := by
  unfold Scan.arm at h
  split at h
  case isTrue hc =>
    cases h
    exact ⟨_, by rw [Loads, if_pos hc], rfl⟩
  case isFalse hc =>
    obtain ⟨x, rfl, rfl⟩ := Option.map_eq_some_iff.1 h
    split at he
    case h_1 a ha => exact ⟨a, by rw [Loads, if_neg hc]; exact ⟨x, rfl, ha⟩, rfl⟩
    case h_2 => exact absurd he (by simp)

theorem step_ok {safe : Bool} {args : List (Option E.Expr)} {st st' : Scan E} {c : Char}
    (h : step E safe args st c = some st') (he : st'.err = []) :
    isLetter c = true ∧ args.length ≤ st.i ∧ st' = st.advance ∨
      isLetter c = true ∧ (∃ x a, args[st.i]? = some x ∧ Loads c x a ∧ st' = (st.push a).advance) ∨
      c = '|' ∧ st.pipe = false ∧ st' = { st with pipe := true } := by
  have h := turn_of_step h
  unfold Scan.turn at h
  split at h
  case isTrue hc =>
    split at h
    case h_1 hi =>
      cases h
      exact .inl ⟨hc, List.getElem?_eq_none_iff.1 hi, rfl⟩
    case h_2 x hi =>
      obtain ⟨u, hu, rfl⟩ := Option.map_eq_some_iff.1 h
      obtain ⟨a, ha, rfl⟩ := arm_ok hu he
      exact .inr (.inl ⟨hc, x, a, hi, ha, rfl⟩)
  case isFalse =>
    split at h
    case isTrue hc =>
      split at h
      case isTrue =>
        cases h
        exact absurd he (by simp)
      case isFalse hp =>
        cases h
        exact .inr (.inr ⟨hc, by simpa using hp, rfl⟩)
    case isFalse =>
      cases h
      exact absurd he (by simp)

theorem letters_cons {c : Char} {pat : List Char} (h : isLetter c = true) :
    letters (c :: pat) = c :: letters pat := by simp [letters, h]

theorem required_cons {c : Char} {pat : List Char} (h : isLetter c = true) :
    required (c :: pat) = c :: required pat := by
  have hc : c ≠ '|' := by
    rintro rfl
    cases h
  simp [required, hc, letters_cons h]

theorem letters_pipe (pat : List Char) : letters ('|' :: pat) = letters pat :=
  List.filter_cons_of_neg (by decide)

theorem required_pipe (pat : List Char) : required ('|' :: pat) = [] := by
  simp [required, letters]

theorem scan_ok {safe : Bool} {args : List (Option E.Expr)} {st st' : Scan E} {pat : List Char}
    (h : scan E safe args st pat = some st') (he : st'.err = []) :
    st'.maxArgs = st.maxArgs + (letters pat).length ∧
      st'.minArgs = st.minArgs + (if st.pipe then 0 else (required pat).length) ∧
      ∃ new, st'.checked = st.checked ++ new ∧
        List.Forall₂ (fun p a => Loads p.1 p.2 a) ((letters pat).zip (args.drop st.i)) new := by
  induction pat generalizing st with
  | nil =>
    cases h
    exact ⟨rfl, by simp [required, letters], [], by simp, .nil⟩
  | cons c pat ih =>
    obtain ⟨u, hu, h⟩ := Option.bind_eq_some_iff.1 h
    obtain ⟨hmax, hmin, new, hnew, hs⟩ := ih h
    have hue : u.err = [] := List.prefix_nil.1 (he ▸ scan_err h)
    rcases step_ok hu hue with ⟨hc, hi, rfl⟩ | ⟨hc, x, a, hx, ha, rfl⟩ | ⟨rfl, hp, rfl⟩
    · refine ⟨?_, ?_, new, hnew, ?_⟩
      · simp only [hmax, Scan.advance, letters_cons hc, List.length_cons]
        omega
      · cases hp : st.pipe <;> simp [hmin, Scan.advance, required_cons hc, hp]; omega
      · have hd : args.drop st.i = [] := List.drop_eq_nil_of_le hi
        have hd' : args.drop (st.i + 1) = [] := List.drop_eq_nil_of_le (by omega)
        simpa [Scan.advance, hd, hd'] using hs
    · refine ⟨?_, ?_, a :: new, ?_, ?_⟩
      · simp only [hmax, Scan.advance, Scan.push, letters_cons hc, List.length_cons]
        omega
      · cases hp : st.pipe <;> simp [hmin, Scan.advance, Scan.push, required_cons hc, hp]; omega
      · simpa [Scan.advance, Scan.push] using hnew
      · obtain ⟨hi, rfl⟩ := List.getElem?_eq_some_iff.1 hx
        rw [letters_cons hc, List.drop_eq_getElem_cons hi]
        exact .cons ha hs
    · rw [letters_pipe, required_pipe]
      exact ⟨hmax, by simpa [hp] using hmin, new, hnew, hs⟩

theorem checkArgs_ok {safe : Bool} {name pat : String} {args : List (Option E.Expr)}
    {checked : List (ArgT E)} {report : List Str}
    (h : checkArgs E safe name pat args = some (true, checked, report)) :
    (required pat.toList).length ≤ args.length ∧ args.length ≤ (letters pat.toList).length ∧
      List.Forall₂ (fun p a => Loads p.1 p.2 a) ((letters pat.toList).zip args) checked := by
  obtain ⟨st, hst, hr⟩ := Option.map_eq_some_iff.1 h
  simp only [Prod.mk.injEq, List.isEmpty_iff, List.append_eq_nil_iff] at hr
  obtain ⟨⟨he, hw⟩, rfl, -⟩ := hr
  obtain ⟨hmax, hmin, new, hnew, hs⟩ := scan_ok hst he
  have hn : ¬ (args.length < st.minArgs ∨ st.maxArgs < args.length) := by
    intro hn
    simp [wrongNumber, hn] at hw
  simp only [Nat.zero_add, Bool.false_eq_true, if_false] at hmax hmin
  simp only [List.nil_append] at hnew
  rw [hmax, hmin] at hn
  rw [hnew]
  exact ⟨by omega, by omega, hs⟩

/-- Letters, and one `|` among them at most. -/
def wellFormed : Bool → List Char → Bool
  | _, [] => true
  | pipe, c :: pat =>
    if isLetter c then wellFormed pipe pat else c = '|' && !pipe && wellFormed true pat

theorem arm_of_loads {c : Char} {x : Option E.Expr} {a : ArgT E} (h : Loads c x a) (st : Scan E) :
    st.arm c x = some (st.push a) := by
  unfold Loads at h
  unfold Scan.arm
  split
  case isTrue hc =>
    rw [if_pos hc] at h
    rw [h]
  case isFalse hc =>
    rw [if_neg hc] at h
    obtain ⟨y, rfl, hy⟩ := h
    simp only [Option.map_some, hy]

theorem scan_good {safe : Bool} {args : List (Option E.Expr)} {st : Scan E} {pat : List Char}
    {new : List (ArgT E)} (hsafe : safe = true → none ∉ args)
    (hw : wellFormed st.pipe pat = true) (he : st.err = [])
    (hs : List.Forall₂ (fun p a => Loads p.1 p.2 a) ((letters pat).zip (args.drop st.i)) new) :
    ∃ st', scan E safe args st pat = some st' ∧ st'.err = [] ∧
      st'.checked = st.checked ++ new := by
  induction pat generalizing st new with
  | nil =>
    cases hs
    exact ⟨st, rfl, he, by simp⟩
  | cons c pat ih =>
    have hstep : step E safe args st c = st.turn args c := by
      unfold step
      split
      case h_1 hx => exact absurd (List.mem_of_getElem? hx) (hsafe rfl)
      case h_2 => rfl
    simp only [scan, hstep]
    unfold wellFormed at hw
    split at hw
    case isTrue hc =>
      rw [letters_cons hc] at hs
      rcases Nat.lt_or_ge st.i args.length with hi | hi
      · rw [List.drop_eq_getElem_cons hi] at hs
        obtain ⟨a, rest, ha, hrest, rfl⟩ := List.forall₂_cons_left_iff.1 hs
        obtain ⟨st', h, he', hn⟩ := @ih (st.push a).advance rest hw he hrest
        refine ⟨st', ?_, he', by simpa [Scan.push, Scan.advance] using hn⟩
        simpa [Scan.turn, hc, hi, arm_of_loads ha] using h
      · rw [List.drop_eq_nil_of_le hi, List.zip_nil_right] at hs
        have hd : args.drop st.advance.i = [] := List.drop_eq_nil_of_le (Nat.le_succ_of_le hi)
        obtain ⟨st', h, he', hn⟩ := @ih st.advance new hw he (by
          rwa [hd, List.zip_nil_right])
        refine ⟨st', ?_, he', hn⟩
        simpa [Scan.turn, hc, hi] using h
    case isFalse hc =>
      simp only [Bool.and_eq_true, decide_eq_true_eq, Bool.not_eq_true'] at hw
      obtain ⟨⟨rfl, hp⟩, hw⟩ := hw
      rw [letters_pipe] at hs
      simpa [Scan.turn, hp, hc] using @ih { st with pipe := true } new hw he hs

end

/-- `PUB3_FILTER`. -/
def filter (name : String) : Fn := { name, pat := "s", reads := fun _ => [(0, 's')] }

/-- A body that reads the same entries for all arguments. -/
def fn (name pat : String) (reads : List (Nat × Char)) : Fn :=
  { name, pat, reads := fun _ => reads }

def primitivesT : List Fn := [
  fn "len" "O" [(0, 'O')],
  { fn "type" "O" [(0, 'O')] with safeArgs := false },
  fn "version_str" "" [], fn "version_int" "" [],
  fn "okws_version_str" "" [], fn "okws_version_int" "" [],
  fn "dump_env" "" [],
  fn "int" "O" [(0, 'O')], fn "uint" "O" [(0, 'O')], fn "str" "O" [(0, 'O')],
  fn "documentation" "O" [(0, 'O')],
  { name := "logwarn", pat := "s|b",
    reads := fun n => (0, 's') :: if 1 < n then [(1, 'b')] else [] },
  fn "warn" "s" [(0, 's')], fn "warn_trace" "s" [(0, 's')],
  fn "internal_dump" "O" [(0, 'O')],
  fn "enable_wss" "b" [(0, 'b')],
  { name := "bind", pat := "sO|s",
    reads := fun n => (0, 's') :: (1, 'O') :: if n = 3 then [(2, 's')] else [] },
  { name := "unbind", pat := "s|s",
    reads := fun n => (0, 's') :: if 1 < n then [(1, 's')] else [] },
  fn "copy" "O" [(0, 'O')],
  fn "contains" "OO" [(0, 'O'), (1, 'O')],
  fn "eval_location" "" [], fn "breadcrumb" "" [], fn "stacktrace" "" []]

def atan2 : Fn := fn "atan2" "f" [(0, 'f'), (1, 'f')]

def pow : Fn := fn "pow" "ff" [(0, 'f'), (1, 'f')]

def rand : Fn where
  name := "rand"
  pat := "|uu"
  reads n := if n = 2 then [(0, 'u'), (1, 'u')] else if n = 1 then [(0, 'u')] else []

def mathC : List Fn := [
  rand,
  fn "cmp_float" "f" [(0, 'f')], fn "round" "f" [(0, 'f')], fn "exp" "f" [(0, 'f')],
  fn "log" "f" [(0, 'f')], fn "sqrt" "f" [(0, 'f')], fn "cos" "f" [(0, 'f')],
  fn "tan" "f" [(0, 'f')], fn "asin" "f" [(0, 'f')], fn "acos" "f" [(0, 'f')],
  fn "sin" "f" [(0, 'f')], fn "atan" "f" [(0, 'f')],
  atan2, pow,
  fn "ceil" "f" [(0, 'f')], fn "floor" "f" [(0, 'f')],
  fn "bitwise_xor" "uu" [(0, 'u'), (1, 'u')],
  fn "bitwise_leftshift" "uu" [(0, 'u'), (1, 'u')],
  fn "bitwise_rightshift" "uu" [(0, 'u'), (1, 'u')]]

def listT : List Fn := [
  fn "enumerate" "l" [(0, 'l')], fn "randsel" "l" [(0, 'l')], fn "decorate" "l" [(0, 'l')],
  { name := "range", pat := "i|ii",
    reads := fun n =>
      (if 3 ≤ n then [(2, 'i')] else []) ++ (if 2 ≤ n then [(0, 'i')] else []) ++
        if 2 ≤ n then [(1, 'i')] else [(0, 'i')] },
  fn "join" "sl" [(1, 'l'), (0, 's')],
  { name := "slice", pat := "l|ii",
    reads := fun n =>
      (0, 'l') :: if n = 3 then [(2, 'i'), (1, 'i')] else if n = 2 then [(1, 'i')] else [] },
  fn "reserve" "lu" [(0, 'l'), (1, 'u')],
  fn "map" "dO" [(0, 'd'), (1, 'O')],
  fn "split" "rs" [(0, 'r'), (1, 's')], fn "split2" "rs" [(0, 'r'), (1, 's')],
  fn "list" "O" [(0, 'O')],
  { name := "sort", pat := "l|F",
    reads := fun n => (0, 'l') :: if 1 < n then [(1, 'F')] else [] },
  fn "cmp" "OO" [(0, 'O'), (1, 'O')]]

def dictC : List Fn := [
  fn "values" "d" [(0, 'd')], fn "keys" "d" [(0, 'd')], fn "items" "d" [(0, 'd')],
  fn "remove" "ds" [(0, 'd'), (1, 's')],
  { name := "json2pub", pat := "s|b",
    reads := fun n => (0, 's') :: if 1 < n then [(1, 'b')] else [] },
  fn "cgi2pub" "s" [(0, 's')],
  fn "import" "d" [(0, 'd')]]

def filtersT : List Fn := [
  filter "utf8_fix", filter "strip", filter "url_escape", filter "url_unescape", filter "sha1",
  filter "tolower", filter "toupper", filter "html_escape", filter "hidden_escape",
  filter "wss_filter",
  { name := "tag_escape", pat := "s|r",
    reads := fun n => (if 2 ≤ n then [(1, 'r')] else []) ++ [(0, 's')] },
  { name := "substr", pat := "si|i",
    reads := fun n => (0, 's') :: (1, 'i') :: if 3 ≤ n then [(2, 'i')] else [] },
  fn "format_float" "sf" [(0, 's'), (1, 'f')], fn "format_int" "si" [(0, 's'), (1, 'i')],
  fn "json_escape" "s" [(0, 's')], fn "js_escape" "s" [(0, 's')],
  { name := "index_of", pat := "ss|i",
    reads := fun n => (0, 's') :: (1, 's') :: if n = 3 then [(2, 'i')] else [] }]

def regexFn (name : String) : Fn :=
  { name, pat := "ss|s",
    reads := fun n =>
      (0, 's') :: (if 1 < n then [(1, 's')] else []) ++ if 2 < n then [(2, 's')] else [] }

def regexC : List Fn := [
  regexFn "match", regexFn "search",
  { name := "replace", pat := "srO|b",
    reads := fun n => (0, 's') :: (1, 'r') :: (2, 'O') :: if n = 4 then [(3, 'b')] else [] }]

def syncT : List Fn := [
  { name := "sleep", pat := "i|i", blocking := true,
    reads := fun n => (0, 'i') :: if n = 2 then [(1, 'i')] else [] },
  fn "fork" "F" [(0, 'F')],
  { fn "shotgun" "l" [(0, 'l')] with blocking := true }]

def timeC : List Fn := [
  fn "now" "" [],
  fn "time_format" "us" [(1, 's'), (0, 'u')],
  { name := "localtime", pat := "|u", reads := fun n => if 0 < n then [(0, 'u')] else [] },
  { name := "localtime_raw", pat := "|u", reads := fun n => if 0 < n then [(0, 'u')] else [] },
  fn "mktime" "d" [(0, 'd')],
  fn "days_from_now" "i" [(0, 'i')],
  { name := "time_from_now", pat := "|iiii",
    reads := fun n => ((List.range 4).filter (· < n)).map (·, 'i') },
  { name := "strptime", pat := "s|s",
    reads := fun n => (0, 's') :: if 1 < n then [(1, 's')] else [] }]

/-- The `shotgun` and `fork` of the tracer, the `fork` of the replayer and the debugging library. -/
def tracerT : List Fn := [
  { fn "shotgun" "l" [(0, 'l')] with blocking := true },
  fn "fork" "l" [(0, 'F')],
  fn "fork" "F" [],
  fn "dump_env_stack" "" []]

def okclibC : List Fn := [
  fn "money" "i|s" [(0, 'i'), (0, 's')],
  fn "commafy" "i" [(0, 'i')],
  { name := "bit_set", pat := "u|u",
    reads := fun n => (0, 'u') :: if 1 < n then [(1, 'i')] else [] }]

def library : List Fn :=
  primitivesT ++ mathC ++ listT ++ dictC ++ filtersT ++ regexC ++ syncT ++ timeC ++ tracerT ++
    okclibC

theorem library_wellFormed : ∀ f ∈ library, wellFormed false f.pat.toList = true := by
  decide

/-- `atan2` apart, a body reads what is there, for every number of arguments that its pattern
allows. -/
theorem library_reads : ∀ f ∈ library, f.name ≠ "atan2" →
    ∀ n ≤ (letters f.pat.toList).length, (required f.pat.toList).length ≤ n →
      ∀ r ∈ f.reads n, r.1 < n := by
  decide

theorem library_atan2 : ∀ f ∈ library, f.name = "atan2" →
    f.blocking = false ∧ f.safeArgs = true ∧ f.pat.toList = ['f'] ∧ (1, 'f') ∈ f.reads 1 := by
  decide

structure Receives (f : Fn) (ai : List (Option E.Expr)) (checked : List (ArgT E)) : Prop where
  least : (required f.pat.toList).length ≤ ai.length
  most : ai.length ≤ (letters f.pat.toList).length
  length : checked.length = ai.length
  sets : List.Forall₂ (fun p a => Sets p.1 p.2 a)
    ((letters f.pat.toList).zip (evalArgs E f.safeArgs ai)) checked
  reads : ∀ r ∈ f.reads checked.length, r.1 < checked.length

section

variable {E}

@[simp] theorem length_evalArgs (safe : Bool) (ai : List (Option E.Expr)) :
    (evalArgs E safe ai).length = ai.length := List.length_map _

theorem evalArgs_safe (ai : List (Option E.Expr)) : none ∉ evalArgs E true ai := by
  intro h
  obtain ⟨x, -, hx⟩ := List.mem_map.1 h
  cases x <;> cases hx

theorem forall₂_length {pat : List Char} {args : List (Option E.Expr)} {checked : List (ArgT E)}
    (h : List.Forall₂ (fun p a => Loads p.1 p.2 a) ((letters pat).zip args) checked)
    (hl : args.length ≤ (letters pat).length) : checked.length = args.length := by
  rw [← h.length_eq, List.length_zip]
  exact min_eq_right hl

theorem checkArgs_complete {safe : Bool} {name pat : String} {args : List (Option E.Expr)}
    {checked : List (ArgT E)} (hsafe : safe = true → none ∉ args)
    (hw : wellFormed false pat.toList = true)
    (hmin : (required pat.toList).length ≤ args.length)
    (hmax : args.length ≤ (letters pat.toList).length)
    (hs : List.Forall₂ (fun p a => Loads p.1 p.2 a) ((letters pat.toList).zip args) checked) :
    checkArgs E safe name pat args = some (true, checked, []) := by
  obtain ⟨st, h, he, hc⟩ := @scan_good E safe args {} pat.toList checked hsafe hw rfl hs
  obtain ⟨hmax', hmin', -⟩ := scan_ok h he
  simp only [Nat.zero_add, Bool.false_eq_true, if_false] at hmax' hmin'
  have hn : wrongNumber E st args.length = [] := if_neg (by omega)
  simp [checkArgs, h, he, hn, hc]

theorem call_checked {f : Fn} {m : Mode} {ai : List (Option E.Expr)}
    (h : ¬ (f.blocking = true ∧ m = .eval)) :
    call E f m ai = match checkArgs E f.safeArgs f.name f.pat (evalArgs E f.safeArgs ai) with
      | none => .crash
      | some (true, checked, _) => .entered checked
      | some (false, _, report) => .refused report := by
  unfold call
  split
  case h_1 hb => exact absurd ⟨hb, rfl⟩ h
  case h_2 => rfl

theorem call_entered_iff {f : Fn} (hf : f ∈ library) (m : Mode) (ai : List (Option E.Expr))
    (checked : List (ArgT E)) :
    call E f m ai = .entered checked ↔
      ¬ (f.blocking = true ∧ m = .eval) ∧
        (required f.pat.toList).length ≤ ai.length ∧ ai.length ≤ (letters f.pat.toList).length ∧
        List.Forall₂ (fun p a => Loads p.1 p.2 a)
          ((letters f.pat.toList).zip (evalArgs E f.safeArgs ai)) checked := by
  by_cases hb : f.blocking = true ∧ m = .eval
  · obtain ⟨hb, rfl⟩ := hb
    simp [call, hb]
  · rw [call_checked hb]
    constructor
    · intro h
      split at h
      case h_2 c r hc =>
        cases h
        obtain ⟨hmin, hmax, hs⟩ := checkArgs_ok hc
        rw [length_evalArgs] at hmin hmax
        exact ⟨hb, hmin, hmax, hs⟩
      all_goals cases h
    · rintro ⟨-, hmin, hmax, hs⟩
      rw [checkArgs_complete (fun h => by rw [h]; exact evalArgs_safe ai) (library_wellFormed f hf)
        (by simpa using hmin) (by simpa using hmax) hs]

theorem scan_total {safe : Bool} {args : List (Option E.Expr)} {pat : List Char}
    (hsafe : safe = true → none ∉ args)
    (hp : ∀ c ∈ pat, isLetter c = true → c = 'O' ∨ none ∉ args) (st : Scan E) :
    ∃ st', scan E safe args st pat = some st' := by
  induction pat generalizing st with
  | nil => exact ⟨st, rfl⟩
  | cons c pat ih =>
    have hstep : ∃ u, step E safe args st c = some u := by
      unfold step
      split
      case h_1 hx => exact absurd (List.mem_of_getElem? hx) (hsafe rfl)
      case h_2 =>
        unfold Scan.turn
        split
        case isTrue hc =>
          split
          case h_1 => exact ⟨_, rfl⟩
          case h_2 x hx =>
            unfold Scan.arm
            split
            case isTrue => exact ⟨_, rfl⟩
            case isFalse ho => cases x with
              | some x => exact ⟨_, rfl⟩
              | none =>
                have hn := (hp c List.mem_cons_self hc).resolve_left ho
                exact absurd (List.mem_of_getElem? hx) hn
        case isFalse => split_ifs <;> exact ⟨_, rfl⟩
    obtain ⟨u, hu⟩ := hstep
    obtain ⟨st', h⟩ := ih (fun c hc => hp c (List.mem_cons_of_mem _ hc)) u
    exact ⟨st', by simpa [scan, hu] using h⟩

theorem library_lax : ∀ f ∈ library, f.safeArgs = false → f.pat.toList = ['O'] := by
  decide

theorem call_ne_crash {f : Fn} (hf : f ∈ library) (m : Mode) (ai : List (Option E.Expr)) :
    call E f m ai ≠ .crash := by
  by_cases hb : f.blocking = true ∧ m = .eval
  · obtain ⟨hb, rfl⟩ := hb
    simp [call, hb]
  · rw [call_checked hb]
    have hs : ∃ st, scan E f.safeArgs (evalArgs E f.safeArgs ai) {} f.pat.toList = some st := by
      cases hsafe : f.safeArgs with
      | true =>
        apply scan_total (fun _ => evalArgs_safe ai)
        intro c _ _
        exact .inr (evalArgs_safe ai)
      | false =>
        apply scan_total (fun h => absurd h (by decide))
        intro c hc _
        rw [library_lax f hf hsafe] at hc
        exact .inl (List.mem_singleton.1 hc)
    obtain ⟨st, hs⟩ := hs
    simp only [checkArgs, hs, Option.map_some]
    split <;> simp_all

theorem exists_forall₂ {α β : Type} {R : α → β → Prop} {l : List α} (h : ∀ x ∈ l, ∃ y, R x y) :
    ∃ ys, List.Forall₂ R l ys := by
  induction l with
  | nil => exact ⟨[], .nil⟩
  | cons x l ih =>
    obtain ⟨y, hy⟩ := h x List.mem_cons_self
    obtain ⟨ys, hys⟩ := ih fun z hz => h z (List.mem_cons_of_mem _ hz)
    exact ⟨y :: ys, .cons hy hys⟩

theorem forall₂_mem {α β : Type} {R : α → β → Prop} {l : List α} {ys : List β}
    (h : List.Forall₂ R l ys) {x : α} (hx : x ∈ l) : ∃ y, R x y := by
  induction h with
  | nil => cases hx
  | cons hy _ ih =>
    obtain rfl | hx := List.mem_cons.1 hx
    · exact ⟨_, hy⟩
    · exact ih hx

end

/-- The number of the arguments is right, and each of them converts. -/
def Accepts (f : Fn) (m : Mode) (ai : List (Option E.Expr)) : Prop :=
  ¬ (f.blocking = true ∧ m = .eval) ∧
    (required f.pat.toList).length ≤ ai.length ∧ ai.length ≤ (letters f.pat.toList).length ∧
    ∀ p ∈ (letters f.pat.toList).zip (evalArgs E f.safeArgs ai), ∃ a, Loads p.1 p.2 a

section

variable {E}

theorem entered_iff {f : Fn} (hf : f ∈ library) (m : Mode) (ai : List (Option E.Expr)) :
    (∃ checked, call E f m ai = .entered checked) ↔ Accepts E f m ai := by
  simp only [call_entered_iff hf]
  constructor
  · rintro ⟨checked, hasync, hmin, hmax, hs⟩
    exact ⟨hasync, hmin, hmax, fun p hp => forall₂_mem hs hp⟩
  · rintro ⟨hasync, hmin, hmax, hs⟩
    obtain ⟨checked, hs⟩ := exists_forall₂ hs
    exact ⟨checked, hasync, hmin, hmax, hs⟩

/-- `atan2` is entered with one number, and reads a second one; and a negative number passes for an
unsigned one when it is read as a text. -/
theorem receives_iff {f : Fn} (hf : f ∈ library) (m : Mode) (ai : List (Option E.Expr)) :
    (∀ checked, call E f m ai = .entered checked → Receives E f ai checked) ↔
      (Accepts E f m ai → f.name ≠ "atan2" ∧
        ∀ y, ('u', some y) ∈ (letters f.pat.toList).zip (evalArgs E f.safeArgs ai) →
          ¬ Negative y) := by
  constructor
  · intro h hacc
    obtain ⟨checked, hc⟩ := (entered_iff hf m ai).2 hacc
    have hr := h checked hc
    refine ⟨fun hn => ?_, fun y hy hneg => ?_⟩
    · obtain ⟨-, -, hpat, hread⟩ := library_atan2 f hf hn
      have hl : checked.length = 1 := by
        have hleast := hr.least
        have hmost := hr.most
        rw [hpat] at hleast hmost
        exact hr.length.trans (Nat.le_antisymm hmost hleast)
      exact absurd (hr.reads (1, 'f') (hl ▸ hread)) (by simp [hl])
    · obtain ⟨a, ha⟩ := forall₂_mem hr.sets hy
      exact not_sets_negative hneg ha
  · intro h checked hc
    obtain ⟨hn, hneg⟩ := h ((entered_iff hf m ai).1 ⟨checked, hc⟩)
    obtain ⟨-, hmin, hmax, hs⟩ := (call_entered_iff hf m ai checked).1 hc
    have hl : checked.length = ai.length := by
      rw [forall₂_length hs (by simpa using hmax), length_evalArgs]
    have hsets : List.Forall₂ (fun p a => Sets p.1 p.2 a)
        ((letters f.pat.toList).zip (evalArgs E f.safeArgs ai)) checked := by
      refine List.forall₂_iff_get.2 ⟨hs.length_eq, fun i hi hi' => ?_⟩
      refine sets_of_loads ((List.forall₂_iff_get.1 hs).2 i hi hi') fun y hy hu => ?_
      exact hneg y (hu.1 ▸ hy ▸ List.get_mem _ ⟨i, hi⟩) hu.2
    exact ⟨hmin, hmax, hl, hsets, hl ▸ library_reads f hf hn _ hmax hmin⟩

end

def decimalText (t : Str) : Option Int64 :=
  let digits (t : Str) : Option Nat :=
    if t ≠ [] ∧ t.all (fun c => 48 ≤ c && c ≤ 57) then
      some (t.foldl (fun n c => 10 * n + (c.toNat - 48)) 0)
    else none
  match t with
  | 45 :: t => (digits t).map fun n => -.ofNat n
  | t => (digits t).map .ofNat

def ints : Exprs where
  Expr := Option Int64
  Rxx := Unit
  Dict := Unit
  Lst := Unit
  Callable := Unit
  null := none
  toCallable _ := none
  toInt := id
  toUint x := x.bind fun i => if 0 ≤ i then some i.toUInt64 else none
  toDouble x := x.map fun i => if i = 1 then 0x3ff0000000000000 else 0
  toStr x := some (x.elim (text "null") fun i => decimal i.toInt)
  argToStr x := some (x.elim [] fun i => decimal i.toInt)
  toRegex _ := (none, none)
  toDict _ := none
  toBool x := x.getD 0 != 0
  toList _ := none
  convertint := decimalText
  doubleOfInt i := if i = 1 then 0x3ff0000000000000 else 0

theorem receives_iff_pow :
    pow ∈ library ∧
      ((∀ checked, call ints pow .eval [some (some 1), some (some 1)] = .entered checked →
          Receives ints pow [some (some 1), some (some 1)] checked) ↔
        (Accepts ints pow .eval [some (some 1), some (some 1)] → pow.name ≠ "atan2" ∧
          ∀ y : ints.Expr, ('u', some y) ∈ (letters pow.pat.toList).zip
            (evalArgs ints pow.safeArgs [some (some 1), some (some 1)]) → ¬ Negative y)) := by
  have h : pow ∈ library := by simp [library, mathC]
  exact ⟨h, receives_iff h _ _⟩

/-- `atan2 (1)`, and `rand (-5)`. -/
theorem not_receives :
    (atan2 ∈ library ∧
      call ints atan2 .eval [some (some 1)] = .entered [{ f := 0x3ff0000000000000 }] ∧
      ¬ Receives ints atan2 [some (some 1)] [{ f := 0x3ff0000000000000 }]) ∧
    rand ∈ library ∧
      call ints rand .eval [some (some (-5))] = .entered [{ u := 0xfffffffffffffffb }] ∧
      ¬ Receives ints rand [some (some (-5))] [{ u := 0xfffffffffffffffb }] := by
  refine ⟨⟨by simp [library, mathC], by rfl, fun h => ?_⟩, by simp [library, mathC], by rfl,
    fun h => ?_⟩
  · exact absurd (h.reads (1, 'f') (by simp [atan2, fn])) (by decide)
  · have hneg : @Negative ints (some (-5)) := ⟨by decide, _, -5, rfl, by decide, by decide⟩
    obtain ⟨a, ha⟩ := forall₂_mem h.sets (x := ('u', some (some (-5)))) (.head _)
    exact not_sets_negative hneg ha

end Okws.PatternedFn
