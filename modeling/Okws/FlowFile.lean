import Okws.FlowPub

namespace Okws.Pub3

open Zbuf Lib

variable {H : Host} {A : Evals} {S : Flows}

section Files

variable {P : Publisher}

theorem Sim.zone_fades (h : Sim A S) (z : Zone) : Fades Settled (A.zone z) (S.evals.zone z) := by
  intro x s hs hl
  have hz : (∀ e ∈ (A.zone z x s).log, e.Straight) → Carry id s (A.zone z x s) (S.zone z x s) :=
    h.zone z x s trivial
  have hz := hz hl
  rw [hs.settle]
  show Flow.ended (S.zone z) x s = _
  generalize A.zone z x s = r at hz
  generalize hr' : S.zone z x s = r' at hz
  cases hz with
  | none l => exact Prog.bind_none _ hr'
  | some b y t l hset =>
    rw [Flow.ended, Prog.bind_some _ hr']
    obtain ⟨_, _, _, _, _, _, _, _, ⟨_, _, _, _⟩, _, _, _, _, _, _⟩ := t
    obtain ⟨hb, hc, hr⟩ := hset hs
    cases hb
    cases hc
    cases hr
    obtain ⟨b, _ | _ | _ | (y | _)⟩ := b <;> exact congrArg _ (List.append_nil _)

theorem outputErrAt_settle (stack : List Frame) (msg : Str) (typ : ErrType) (s : State) :
    outputErrAt stack msg typ s.settle =
      (outputErrAt stack msg typ s).map fun r => (r.1, r.2.settle) := by
  obtain ⟨_, _, _, _, _, _, _, _, _, _, _, opts, _, _, _⟩ := s
  obtain ⟨_, _, _, _, _, _, exitOnError, _⟩ := opts
  cases exitOnError <;> rfl

theorem outputErr_fades {pre : State → Prop} (msg : Str) (typ : ErrType) :
    Fades pre (outputErr msg typ) (outputErr msg typ) :=
  .bind .getReg fun _ => .lift fun s => outputErrAt_settle _ msg typ s

theorem outputErrs_fades {pre : State → Prop} (typ : ErrType) (es : List Str) :
    Fades pre (outputErrs typ es) (outputErrs typ es) := by
  induction es generalizing pre with
  | nil => exact .pure ()
  | cons e es ih => exact .bind (outputErr_fades e typ) fun _ => ih

theorem publishData_fades (h : Sim A S) (md : Metadata) (z : Zone) :
    Fades Settled (publishData A md z) (publishData S.evals md z) := by
  refine .after (fun s hs => .getReg fun _ => hs) fun line => ?_
  refine .after (fun s hs => .lift fun size t ht => ?_) fun size => ?_
  · cases ht
    exact ⟨hs.brk, hs.cont, hs.rtrn⟩
  refine .after (fun s hs => .setReg 0 hs) fun _ => ?_
  refine .bind (h.zone_fades z) fun status => .bind (.lift fun s => ?_) fun back =>
    .bind (.setReg back) fun _ => .pure status
  obtain ⟨_, _, _, _, _, _, _, callers, ⟨_, _, _, _⟩, _, _, _, _, _, _⟩ := s
  cases callers <;> rfl

theorem publishFileData_fades (h : Sim A S) (file : File) :
    Fades Settled (publishFileData A file) (publishFileData S.evals file) := by
  refine .after (fun s hs => .getReg fun _ => hs) fun line => ?_
  refine .after (fun s hs => .lift fun a t ht => ?_) fun s => ?_
  · cases ht
    exact hs
  split
  · exact .bind (.lift fun s => outputErrAt_settle _ _ _ s) fun _ => .pure _
  · cases file.data with
    | none => exact .pure _
    | some z => exact publishData_fades h _ z

theorem publishPath_fades (h : Sim A S) (fn : Str) :
    Fades Settled (publishPath A P fn) (publishPath S.evals P fn) := by
  refine .after (fun s hs => .lift fun a t ht => ?_) fun s => ?_
  · cases ht
    exact hs
  generalize P.find s fn = found
  obtain ⟨rfn, file | code | _ | ⟨code, errs⟩ | ⟨code, err⟩⟩ := found
  · refine .after (fun s hs => .lift fun a t ht => ?_) fun prev => ?_
    · cases ht
      exact ⟨hs.brk, hs.cont, hs.rtrn⟩
    refine .bind (publishFileData_fades h _) fun status => .bind (.lift fun s => rfl) fun _ => ?_
    refine .bind (m := Prog.when _ _) ?_ fun _ => .pure status
    cases status != .ok with
    | false => exact .pure ()
    | true => exact outputErr_fades _ _
  · exact .bind (outputErr_fades _ _) fun _ => .pure _
  · exact .bind (outputErr_fades _ _) fun _ => .pure _
  · exact .bind (outputErrs_fades _ _) fun _ => .pure _
  · exact .bind (outputErr_fades _ _) fun _ => .pure _

theorem Host.Uniform.withFiles (hU : H.Uniform) (k : Nat) : (H.withFiles P k).Uniform := by
  cases k <;> exact ⟨hU.vEval1⟩

theorem files_fades (hT : H.Tidy) (hU : H.Uniform) (k : Nat) (fn : Str) :
    Fades Settled ((H.withFiles P k).publish fn) (Flow.files H P k fn) := by
  induction k generalizing fn with
  | zero => exact .stuck
  | succ k ih =>
    exact publishPath_fades (block_sim (hT.withFiles P k) (hU.withFiles k) ih k) fn

end Files

/-- In a run in which `exit` is never under way where a turn of a loop begins or a call ends, and
no jump leaves a heredoc, a file is published as the statements without flags are: what a jump ends
is ended, and nothing of it is left but what `settle` drops. -/
theorem publish_structured (H : Host) (hT : H.Tidy) (hU : H.Uniform) (P : Publisher) (k n : Nat)
    (fn : Str) (line : Nat) (s : State) (hs : Settled s)
    (hl : ∀ e ∈ (publishPath (block (H.withFiles P k) n) P fn line s).log, e.stray = false) :
    publishPath (Flow.block (H.withFiles P k) (Flow.files H P k) n).evals P fn line s =
      ⟨(publishPath (block (H.withFiles P k) n) P fn line s).out.map fun r =>
          (r.1, r.2.1, r.2.2.settle),
        (publishPath (block (H.withFiles P k) n) P fn line s).log⟩ := by
  have hsim : Sim (block (H.withFiles P k) n) (Flow.block (H.withFiles P k) (Flow.files H P k) n) :=
    block_sim (hT.withFiles P k) (hU.withFiles k) (files_fades hT hU k) n
  have h := publishPath_fades (P := P) hsim fn line s hs hl
  rwa [hs.settle] at h

theorem Host.plain_uniform : Host.plain.Uniform := ⟨fun _ _ _ _ _ _ => .pure _⟩

/-- Two files, of which the first one includes the second. -/
def Publisher.pair (m i : List Statement) : Publisher where
  isRemote := false
  localizer := Option.none
  getfile fn :=
    let file (ss : List Statement) : Fetched :=
      .ok ⟨⟨some fn, some fn, some fn, some fn, 0⟩, some (.pub 1 ss)⟩
    if fn = ascii ['/', 'm'] then file m else if fn = ascii ['/', 'i'] then file i else .noent

def pairRun (m i : List Statement) : Run Nat State Step Status :=
  publishPath (block (Host.plain.withFiles (.pair m i) 8) 8) (.pair m i) (ascii ['/', 'm']) 1
    (.withNumber 42)

def pairFlow (m i : List Statement) : Run Nat State Step Status :=
  publishPath (Flow.block (Host.plain.withFiles (.pair m i) 8)
    (Flow.files .plain (.pair m i) 8) 8).evals (.pair m i) (ascii ['/', 'm']) 1 (.withNumber 42)

def includeI : Statement := .include 1 false (.constant (.str (ascii ['/', 'i']))) none

def setVar (nm : List Char) (b : Bool) : Statement :=
  .expr 1 (.assignment 1 (.varref 1 (ascii nm)) (.constant (.bool b)))

def printVar (nm : List Char) : Statement := .print 1 [.varref 1 (ascii nm)]

/-- A loop in the loop breaks, and the file that is included exits. -/
def straightM : List Statement :=
  [setVar ['a'] true, .while 1 (.varref 1 (ascii ['a'])) (some (.pub 1
    [setVar ['a'] false, .while 1 (.constant (.bool true)) (some (.pub 1 [.break 1])),
      printVar ['a']])), includeI, printVar ['a']]

def straightI : List Statement := [setVar ['a'] true, .exit 1, setVar ['a'] false]

theorem publish_structured_pair :
    (pairRun straightM straightI).out.map (·.2.2.out) =
      some [.str (text "false"), .str (text "true")] ∧
    pairFlow straightM straightI = ⟨(pairRun straightM straightI).out.map fun r =>
      (r.1, r.2.1, r.2.2.settle), (pairRun straightM straightI).log⟩ :=
  ⟨by decide +kernel, publish_structured .plain Host.plain_tidy Host.plain_uniform
    (.pair straightM straightI) 8 8 (ascii ['/', 'm']) 1 (.withNumber 42) ⟨rfl, rfl, rfl⟩
    (by decide +kernel)⟩

def strayM : List Statement :=
  [setVar ['a'] true, setVar ['b'] true, includeI, printVar ['a']]

def strayI : List Statement :=
  [.while 1 (.assignment 1 (.varref 1 (ascii ['a'])) (.varref 1 (ascii ['b']))) (some (.pub 1
    [setVar ['b'] false, .exit 1]))]

/-- The condition of the loop is evaluated again after the `exit` in it. -/
theorem exit_goes_on :
    (pairRun strayM strayI).out.map (·.2.2.out) = some [.str (text "false")] ∧
    (pairFlow strayM strayI).out.map (·.2.2.out) = some [.str (text "true")] := by
  decide +kernel

end Okws.Pub3
