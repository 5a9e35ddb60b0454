import Okws.Byte
import Okws.Lib.Transition

namespace Okws

open Lib

/-- `oksvc_proc_t`; a negative brother stands for all of them. -/
structure SvcProc where
  name : Str
  brotherId : Int

/-- `oksvc_procs_t`. -/
inductive SvcProcs
  | none
  | some (procs : List SvcProc)
  | all

/-- The clusters of the table, by name, with their children. -/
abbrev Servtab (χ : Type) := List (Str × List χ)

variable {χ : Type}

namespace Servtab

def dump (t : Servtab χ) (out : List χ) : List χ := out ++ t.flatMap Prod.snd

/-- The children that an entry names go to the end of the vector; the value is their number. -/
def mget (t : Servtab χ) (p : SvcProc) (out : List χ) : List χ × Nat :=
  match t.lookup p.name with
  | none => (out, 0)
  | some children =>
    if p.brotherId < 0 then (out ++ children, children.length)
    else match children[p.brotherId.toNat]? with
      | some ch => (out ++ [ch], 1)
      | none => (out, 0)

end Servtab

inductive XStatus
  | ok
  | err (error : Str)

structure ChildApplicator where
  ok : Bool := true
  err : List Str := []

namespace ChildApplicator

def hitError (a : ChildApplicator) : Option Str → ChildApplicator
  | some e => { ok := false, err := a.err ++ [e] }
  | none => a

def fillStatus (a : ChildApplicator) : XStatus :=
  if a.ok then .ok else .err (List.intercalate (ascii ['\n']) a.err)

/-- The loop over the entries, which asks the table twice. -/
def collect (t : Servtab χ) : List SvcProc → List χ → ChildApplicator → List χ × ChildApplicator
  | [], chs, a => (chs, a)
  | p :: procs, chs, a =>
    let (chs, _) := t.mget p chs
    let (chs, n) := t.mget p chs
    if n = 0 then
      collect t procs chs { ok := false, err := a.err ++
        [ascii "cannot find program: ".toList ++ p.name] }
    else collect t procs chs a

end ChildApplicator

/-- A call of `run`: `apply` has been called for each of `chs`, and the answers are in `errors`, as
far as they have come. -/
structure ApplyRun (χ : Type) where
  app : ChildApplicator
  chs : List χ
  errors : List (Option (Option Str))
  done : Bool := false

inductive ApplyEvent
  /-- The call for a child answers, with an error or without. -/
  | answer (i : Nat) (e : Option Str)
  /-- `run` goes on behind the `twait`. -/
  | finish

namespace ApplyRun

open ChildApplicator

def start (t : Servtab χ) (x : SvcProcs) : ApplyRun χ :=
  let (chs, app) : List χ × ChildApplicator := match x with
    | .all => (t.dump [], {})
    | .some procs => collect t procs [] {}
    | .none => ([], {})
  { app, chs, errors := List.replicate chs.length none }

def step (r : ApplyRun χ) : ApplyEvent → Option (ApplyRun χ)
  | .answer i e =>
    if r.errors[i]? = some none then some { r with errors := r.errors.set i (some e) } else none
  | .finish =>
    if r.done then none
    else (r.errors.mapM id).map fun errors =>
      { r with app := errors.foldl hitError r.app, done := true }

def system (t : Servtab χ) (x : SvcProcs) : System (ApplyRun χ) ApplyEvent where
  init r := r = start t x
  step := step

end ApplyRun

section Designated

def designated (t : Servtab χ) (p : SvcProc) : List χ :=
  let children := (t.lookup p.name).getD []
  if p.brotherId < 0 then children else children[p.brotherId.toNat]?.toList

def SvcProcs.entries : SvcProcs → List SvcProc
  | .some procs => procs
  | _ => []

/-- The children of a command, each as often as it is named. -/
def SvcProcs.designated (t : Servtab χ) : SvcProcs → List χ
  | .all => t.flatMap Prod.snd
  | .some procs => procs.flatMap (Okws.designated t)
  | .none => []

/-- There is one call for each child that is named, all are waited for, and the answer is right. -/
structure ApplyRun.Exact (t : Servtab χ) (x : SvcProcs) (r : ApplyRun χ) : Prop where
  once : r.chs.Perm (x.designated t)
  waits : r.done = true → none ∉ r.errors
  status : r.done = true → (r.app.fillStatus = .ok ↔
    (∀ p ∈ x.entries, Okws.designated t p ≠ []) ∧ ∀ e ∈ r.errors, e = some none)

namespace ApplyRun

open ChildApplicator

variable {t : Servtab χ} {x : SvcProcs} {p : SvcProc} {r r' : ApplyRun χ}

theorem mget_eq (out : List χ) :
    t.mget p out = (out ++ Okws.designated t p, (Okws.designated t p).length) := by
  unfold Servtab.mget Okws.designated
  cases t.lookup p.name with
  | none => by_cases hp : p.brotherId < 0 <;> simp [hp]
  | some children =>
    by_cases hp : p.brotherId < 0
    · simp [hp]
    · cases hch : children[p.brotherId.toNat]? <;> simp [hp, hch]

theorem collect_spec (t : Servtab χ) (procs : List SvcProc) (chs : List χ) (a : ChildApplicator) :
    (collect t procs chs a).1 =
        chs ++ procs.flatMap (fun p => Okws.designated t p ++ Okws.designated t p) ∧
      ((collect t procs chs a).2.ok = true ↔
        a.ok = true ∧ ∀ p ∈ procs, Okws.designated t p ≠ []) := by
  induction procs generalizing chs a with
  | nil => simp [collect]
  | cons p procs ih =>
    simp only [collect, mget_eq]
    split
    · next h =>
      have hnil := List.eq_nil_of_length_eq_zero h
      obtain ⟨hchs, hok⟩ := ih (chs ++ Okws.designated t p ++ Okws.designated t p)
        ⟨false, a.err ++ [ascii "cannot find program: ".toList ++ p.name]⟩
      rw [hchs, hok]
      exact ⟨by simp, by simp [hnil]⟩
    · next h =>
      have hne : Okws.designated t p ≠ [] := fun hnil => h (congrArg List.length hnil)
      obtain ⟨hchs, hok⟩ := ih (chs ++ Okws.designated t p ++ Okws.designated t p) a
      rw [hchs, hok]
      exact ⟨by simp, by simp [hne]⟩

theorem start_ok : (start t x).app.ok = true ↔ ∀ p ∈ x.entries, Okws.designated t p ≠ [] := by
  cases x with
  | some procs =>
    show (collect t procs [] {}).2.ok = true ↔ ∀ p ∈ procs, _
    simpa using (collect_spec t procs [] {}).2
  | _ => simp [start, SvcProcs.entries]

theorem start_chs : (start t x).chs.Perm (x.designated t) ↔
    ∀ p ∈ x.entries, Okws.designated t p = [] := by
  cases x with
  | all => simp [start, Servtab.dump, SvcProcs.designated, SvcProcs.entries]
  | none => simp [start, SvcProcs.designated, SvcProcs.entries]
  | some procs =>
    have hchs : (start t (.some procs)).chs =
        procs.flatMap fun p => Okws.designated t p ++ Okws.designated t p :=
      (collect_spec t procs [] {}).1.trans (List.nil_append _)
    rw [hchs, SvcProcs.designated, SvcProcs.entries]
    constructor
    · intro h
      have hlen := h.length_eq
      have htwice (procs : List SvcProc) :
          (procs.flatMap fun p => Okws.designated t p ++ Okws.designated t p).length =
            2 * (procs.flatMap (Okws.designated t)).length := by
        induction procs with
        | nil => rfl
        | cons p procs ih =>
          simp only [List.flatMap_cons, List.length_append] at ih ⊢
          omega
      rw [htwice] at hlen
      have hnil := List.eq_nil_of_length_eq_zero (show
        (procs.flatMap (Okws.designated t)).length = 0 by omega)
      exact List.flatMap_eq_nil_iff.1 hnil
    · intro h
      have hnil : procs.flatMap (Okws.designated t) = [] := List.flatMap_eq_nil_iff.2 h
      have hnil' : procs.flatMap (fun p => Okws.designated t p ++ Okws.designated t p) = [] :=
        List.flatMap_eq_nil_iff.2 fun p hp => by rw [h p hp, List.nil_append]
      rw [hnil, hnil']

theorem foldl_hitError (errors : List (Option Str)) (a : ChildApplicator) :
    (errors.foldl hitError a).ok = true ↔ a.ok = true ∧ ∀ e ∈ errors, e = none := by
  induction errors generalizing a with
  | nil => simp
  | cons e errors ih =>
    rw [List.foldl_cons, ih, List.forall_mem_cons]
    cases e with
    | none => simp [hitError]
    | some s => simp [hitError]

theorem fillStatus_ok {a : ChildApplicator} : a.fillStatus = .ok ↔ a.ok = true := by
  unfold fillStatus
  split <;> simp [*]

/-- While the calls are under way, and when they have answered. -/
structure Inv (t : Servtab χ) (x : SvcProcs) (r : ApplyRun χ) : Prop where
  chs : r.chs = (start t x).chs
  slots : r.errors.length = r.chs.length
  under : r.done = false → r.app = (start t x).app
  after : r.done = true → ∃ errors : List (Option Str), r.errors = errors.map some ∧
    r.app = errors.foldl hitError (start t x).app

theorem mapM_id_eq_some {β : Type} {l : List (Option β)} {l' : List β} :
    l.mapM id = some l' ↔ l = l'.map some := by
  induction l generalizing l' with
  | nil => cases l' <;> simp
  | cons a l ih =>
    rw [List.mapM_cons]
    cases a with
    | none => cases l' <;> simp
    | some a =>
      cases l' with
      | nil => cases l.mapM id <;> simp
      | cons b l' =>
        have hcons : l.mapM id = some l' ↔ l = l'.map some := ih
        cases h : l.mapM id <;> simp [h, ← hcons]

theorem reachable_inv (h : (system t x).Reachable r) : Inv t x r := by
  refine h.invariant ?_ ?_
  · rintro _ rfl
    refine ⟨rfl, ?_, fun _ => rfl, fun h => ?_⟩
    · simp [start]
    · cases h
  · intro r e r' _ hr _ hs
    cases e with
    | answer i e =>
      simp only [system, step] at hs
      split at hs
      · next hi =>
        cases hs
        refine ⟨hr.chs, by simpa using hr.slots, hr.under, fun hdone => ?_⟩
        obtain ⟨errors, herr, -⟩ := hr.after hdone
        rw [herr, List.getElem?_map] at hi
        cases herr : errors[i]? <;> rw [herr] at hi <;> cases hi
      · cases hs
    | finish =>
      simp only [system, step] at hs
      split at hs
      · cases hs
      · next hdone =>
        obtain ⟨errors, herr, rfl⟩ := Option.map_eq_some_iff.1 hs
        exact ⟨hr.chs, hr.slots, nofun, fun _ =>
          ⟨errors, mapM_id_eq_some.1 herr, by rw [hr.under (by simpa using hdone)]⟩⟩

/-- Each child that is named is called once only if none is named by an entry; the rest is as it
should be. -/
theorem exact_iff_unnamed (h : (system t x).Reachable r) :
    r.Exact t x ↔ ∀ p ∈ x.entries, Okws.designated t p = [] := by
  have hinv := reachable_inv h
  rw [← start_chs, ← hinv.chs]
  refine ⟨fun hr => hr.once, fun hr => ⟨hr, fun hdone => ?_, fun hdone => ?_⟩⟩
  · obtain ⟨errors, herr, -⟩ := hinv.after hdone
    simp [herr]
  · obtain ⟨errors, herr, happ⟩ := hinv.after hdone
    rw [fillStatus_ok, happ, foldl_hitError, start_ok, herr]
    simp

/-- A command for all children, of which one answers with an error. -/
theorem exact_iff_unnamed_all : ∃ r, (system [(ascii ['a'], [0, 1])] .all).Reachable r ∧
    r.done = true ∧ (r.Exact [(ascii ['a'], [0, 1])] .all ↔
      ∀ p ∈ SvcProcs.all.entries, Okws.designated [(ascii ['a'], [0, 1])] p = []) := by
  have h : (system [(ascii ['a'], [0, 1])] .all).Reachable _ := System.reachable_exec
    [.answer 1 (some (ascii ['d'])), .answer 0 none, .finish] (rfl : _ = start _ _) rfl
  exact ⟨_, h, rfl, exact_iff_unnamed h⟩

/-- The only child of a service is called twice. -/
theorem not_exact_named : ¬ ∀ (t : Servtab Nat) (x : SvcProcs) (r : ApplyRun Nat),
    (system t x).Reachable r → r.Exact t x := by
  intro h
  have hexact := h [(ascii ['a'], [0])] (.some [⟨ascii ['a'], -1⟩]) _ (.init rfl)
  exact absurd hexact.once.length_eq (by decide)

end ApplyRun

end Designated

end Okws
