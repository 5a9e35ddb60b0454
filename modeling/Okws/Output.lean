import Okws.Byte
import Okws.Lib.Transition

namespace Okws

/-- The result of a `writev`: a number of bytes, less one, `EAGAIN`, or another error. -/
inductive WriteRes
  | wrote (n : Nat)
  | again
  | error

/-- The members of a connection that its output depends on; callbacks for draining have the number
of their registration.  `given` is all that was passed to `sendv`, `written` what the kernel took,
and `force` the callback that was registered last, unless it was withdrawn; `invoked` says of each
call whether the output was finished, and `owed` are the callbacks that a failed `sendv`, whose
`fail` is running, is going to invoke. -/
structure ConOut where
  isOpen : Bool := true
  out : Str := []
  drainedCb : Option Nat := none
  rcb : Bool := false
  eofcb : Bool := false
  wcbset : Bool := false
  next : Nat := 0
  given : Str := []
  written : Str := []
  force : Option Nat := none
  invoked : List (Nat × Bool) := []
  owed : List Nat := []

inductive OutEvent
  | sendv (buf : Str) (cnt : Nat) (drained : Bool) (ws : List WriteRes)
  | writable (ws : List WriteRes)
  | readable
  /-- End of file, or an error. -/
  | readFail
  | cancel
  | setDrainedCb (cb : Bool)
  | setrcb (cb : Bool)
  | seteofcb (cb : Bool)
  /-- `fail` returns to `sendv`. -/
  | unwind

namespace ConOut

/-- All bytes have been written, or the connection has failed. -/
def finished (s : ConOut) : Bool := s.out.isEmpty || !s.isOpen

def invoke (s : ConOut) (k : Nat) : ConOut := { s with invoked := (k, s.finished) :: s.invoked }

def callDrainedCb (s : ConOut) : ConOut := match s.drainedCb with
  | some k => { s with drainedCb := none }.invoke k
  | none => s

def fail (s : ConOut) : ConOut :=
  let s := { s with isOpen := false, wcbset := false }
  if s.rcb then s
  else if s.eofcb then s
  else s.callDrainedCb

/-- The loop around `dowritev`, which writes as long as it gets on: what is left, what was
written, and whether there was an error.  The first argument says whether the present call of
`dowritev` has written something. -/
def flush : Bool → Str → List WriteRes → Str × Str × Bool
  | _, [], _ => ([], [], false)
  | _, q, [] => (q, [], false)
  | _, q, .wrote n :: ws =>
    let r := flush true (q.drop (n + 1)) ws
    (r.1, q.take (n + 1) ++ r.2.1, r.2.2)
  | true, q, .again :: ws => flush false q ws
  | false, q, .again :: _ => (q, [], false)
  | _, q, .error :: _ => (q, [], true)

def output (s : ConOut) (ws : List WriteRes) : ConOut :=
  if !s.isOpen then s
  else
    let r := flush false s.out ws
    let s := { s with out := r.1, written := s.written ++ r.2.1 }
    let s := if r.2.2 then s.fail else { s with wcbset := !r.1.isEmpty }
    if s.out.isEmpty then s.callDrainedCb else s

/-- What `sendv` writes itself, what it puts into the queue, and the answers that are left; nothing
if the first write fails. -/
def direct (s : ConOut) (buf : Str) (cnt : Nat) (ws : List WriteRes) :
    Option (Str × Str × List WriteRes) :=
  if s.out.isEmpty && cnt < 16 then match ws with
    | .error :: _ => none
    | .wrote n :: ws => some (buf.take (n + 1), buf.drop (n + 1), ws)
    | .again :: ws => some ([], buf, ws)
    | [] => some ([], buf, [])
  else some ([], s.out ++ buf, ws)

def sendv (s : ConOut) (buf : Str) (cnt : Nat) (drained : Bool) (ws : List WriteRes) : ConOut :=
  let cb := if drained then some s.next else none
  let s := { s with given := s.given ++ buf, force := cb, next := s.next + 1 }
  if !s.isOpen then cb.elim s s.invoke
  else match s.direct buf cnt ws with
    | none => { s.fail with owed := cb.toList ++ s.owed }
    | some (w, q, ws) =>
      { s with out := q, written := s.written ++ w, drainedCb := cb }.output ws

def setDrainedCb (s : ConOut) (cb : Bool) : ConOut :=
  if !cb then { s with drainedCb := none, force := none }
  else
    let k := s.next
    let s := { s with force := some k, next := k + 1 }
    if s.finished then s.invoke k else { s with drainedCb := some k }

def step (s : ConOut) : OutEvent → Option ConOut
  | .sendv buf cnt drained ws => some (s.sendv buf cnt drained ws)
  | .writable ws => if s.wcbset then some (s.output ws) else none
  | .readable => some s
  | .readFail => if s.isOpen then some s.fail else none
  | .cancel => some s.fail
  | .setDrainedCb cb => some (s.setDrainedCb cb)
  | .setrcb cb => some { s with rcb := cb && s.isOpen }
  | .seteofcb cb => some { s with eofcb := cb }
  | .unwind => match s.owed with
    | [] => none
    | k :: ks => some ({ s with owed := ks }.invoke k)

def system : Lib.System ConOut OutEvent where
  init s := s = {}
  step := step

/-- The bytes are written in order, and the end of the output is reported once, to the callback in
force. -/
structure Sound (s : ConOut) : Prop where
  inOrder : s.written <+: s.given
  once : (s.invoked.map Prod.fst).Nodup
  timely : ∀ p ∈ s.invoked, p.2 = true
  reported : s.finished = true → s.owed = [] → ∀ k, s.force = some k → k ∈ s.invoked.map Prod.fst
  kept : ∀ k, s.force = some k → k ∈ s.invoked.map Prod.fst ∨ k ∈ s.owed ∨ s.drainedCb = some k
  withdrawn : ∀ k, s.drainedCb = some k → s.force = some k

def Alone (s : ConOut) : Prop := s.rcb = false ∧ s.eofcb = false

/-- If the connection fails while a callback for draining is pending, there is neither a callback
for reading nor one for the end of file. -/
def Heard (s : ConOut) : OutEvent → Prop
  | .sendv buf cnt drained ws => ∀ w q us, s.isOpen = true → drained = true →
      s.direct buf cnt ws = some (w, q, us) → (flush false q us).2.2 = true → s.Alone
  | .writable ws => s.drainedCb ≠ none → (flush false s.out ws).2.2 = true → s.Alone
  | .readFail | .cancel => s.drainedCb ≠ none → s.Alone
  | _ => True

def count (s : ConOut) (i : Nat) : Nat :=
  s.invoked.countP (·.1 = i) + s.owed.countP (· = i) + s.drainedCb.toList.countP (· = i)

structure Core (s : ConOut) : Prop where
  stream : s.isOpen = true → s.given = s.written ++ s.out
  inOrder : s.written <+: s.given
  count : ∀ i, s.count i ≤ 1
  fresh : ∀ i, s.next ≤ i → s.count i = 0
  timely : ∀ p ∈ s.invoked, p.2 = true
  kept : ∀ k, s.force = some k → k ∈ s.invoked.map Prod.fst ∨ k ∈ s.owed ∨ s.drainedCb = some k
  withdrawn : ∀ k, s.drainedCb = some k → s.force = some k
  debt : s.owed ≠ [] → s.isOpen = false

structure Inv (s : ConOut) : Prop extends Core s where
  idle : s.finished = true → s.drainedCb = none

section Core

variable {s : ConOut}

theorem Inv.sound (h : Inv s) : Sound s where
  inOrder := h.inOrder
  once := by
    refine List.nodup_iff_count.2 fun i => ?_
    have hcount : (s.invoked.map Prod.fst).count i = s.invoked.countP (·.1 = i) := by
      rw [List.count_eq_countP, List.countP_map]
      exact List.countP_congr fun x _ => by simp
    have := h.count i
    unfold ConOut.count at this
    omega
  timely := h.timely
  reported hf ho k hk := by
    obtain h' | h' | h' := h.kept k hk
    · exact h'
    · rw [ho] at h'
      cases h'
    · cases (h.idle hf).symm.trans h'
  kept := h.kept
  withdrawn := h.withdrawn

theorem Core.callDrainedCb (h : Core s) (hf : s.finished = true) : Inv s.callDrainedCb := by
  unfold ConOut.callDrainedCb
  split
  · next k hk =>
    have hcount (i : Nat) : ({ s with drainedCb := none }.invoke k).count i = s.count i := by
      simp only [ConOut.count, invoke, hk, Option.toList_some, Option.toList_none, List.countP_cons,
        List.countP_nil]
      omega
    refine ⟨⟨h.stream, h.inOrder, fun i => hcount i ▸ h.count i, fun i hi => ?_, ?_, ?_,
      by rintro _ ⟨⟩, h.debt⟩, fun _ => rfl⟩
    · exact (hcount i).trans (h.fresh i hi)
    · exact List.forall_mem_cons.2 ⟨hf, h.timely⟩
    · intro l hl
      obtain h' | h' | h' := h.kept l hl
      · exact .inl (List.mem_cons_of_mem k h')
      · exact .inr (.inl h')
      · cases h'.symm.trans hk
        exact .inl List.mem_cons_self
  · next hk => exact ⟨h, fun _ => hk⟩

theorem Core.fail (h : Core s) (ha : s.drainedCb ≠ none → s.Alone) : Inv s.fail := by
  have hcore : Core { s with isOpen := false, wcbset := false } :=
    ⟨nofun, h.inOrder, h.count, h.fresh, h.timely, h.kept, h.withdrawn, fun _ => rfl⟩
  have hf : finished { s with isOpen := false, wcbset := false } = true := by simp [finished]
  have hheard (hr : s.rcb = true ∨ s.eofcb = true) : s.drainedCb = none := by
    by_contra hne
    obtain ⟨h₁, h₂⟩ := ha hne
    obtain hr | hr := hr
    · cases h₁.symm.trans hr
    · cases h₂.symm.trans hr
  unfold ConOut.fail
  dsimp only
  split
  · next hr => exact ⟨hcore, fun _ => hheard (.inl hr)⟩
  · split
    · next hr => exact ⟨hcore, fun _ => hheard (.inr hr)⟩
    · exact hcore.callDrainedCb hf

theorem flush_append (b : Bool) (q : Str) (ws : List WriteRes) :
    (flush b q ws).2.1 ++ (flush b q ws).1 = q := by
  fun_induction flush b q ws with
  | case1 => rfl
  | case2 => rfl
  | case3 b q n ws hq r ih => rw [List.append_assoc, ih, List.take_append_drop]
  | case4 q ws hq ih => exact ih
  | case5 => rfl
  | case6 => rfl

theorem flush_error {b : Bool} {q : Str} {ws : List WriteRes} (h : (flush b q ws).2.2 = true) :
    (flush b q ws).1 ≠ [] := by
  fun_induction flush b q ws with
  | case1 => cases h
  | case2 => cases h
  | case3 b q n ws hq r ih => exact ih h
  | case4 q ws hq ih => exact ih h
  | case5 => cases h
  | case6 b q ws hq => exact hq

theorem Core.output (h : Core s) {ws : List WriteRes} (ho : s.isOpen = true)
    (ha : s.drainedCb ≠ none → (flush false s.out ws).2.2 = true → s.Alone) :
    Inv (s.output ws) := by
  have happ := flush_append false s.out ws
  have herror : (flush false s.out ws).2.2 = true → (flush false s.out ws).1 ≠ [] := flush_error
  unfold ConOut.output
  rw [if_neg (by simp [ho])]
  generalize flush false s.out ws = r at *
  have hstream := h.stream ho
  have hcore : Core { s with out := r.1, written := s.written ++ r.2.1 } := by
    refine ⟨fun _ => ?_, ?_, h.count, h.fresh, h.timely, h.kept, h.withdrawn, h.debt⟩
    · rw [List.append_assoc, happ, hstream]
    · show s.written ++ r.2.1 <+: s.given
      rw [hstream, ← happ, ← List.append_assoc]
      exact List.prefix_append _ _
  dsimp only
  by_cases herr : r.2.2 = true
  · have hout : ∀ t : ConOut, t.fail.out = t.out := fun t => by
      unfold ConOut.fail ConOut.callDrainedCb
      dsimp only
      repeat' split
      all_goals rfl
    have hne : r.1.isEmpty = false := by simpa using herror herr
    rw [if_pos herr, hout, if_neg (by simp [hne])]
    exact hcore.fail fun hd => ha hd herr
  · rw [if_neg herr]
    have hcore : Core { s with
        out := r.1, written := s.written ++ r.2.1, wcbset := !r.1.isEmpty } :=
      ⟨hcore.stream, hcore.inOrder, h.count, h.fresh, h.timely, h.kept, h.withdrawn, h.debt⟩
    split
    · next hemp => exact hcore.callDrainedCb (by simp only [finished, hemp, Bool.true_or])
    · next hemp =>
      refine ⟨hcore, fun hf => absurd hf ?_⟩
      simp [finished, hemp, ho]

theorem Inv.report (h : Inv s) (hf : s.finished = true) :
    Inv ({ s with force := some s.next, next := s.next + 1 }.invoke s.next) := by
  have hidle := h.idle hf
  have hcount (i : Nat) :
      ({ s with force := some s.next, next := s.next + 1 }.invoke s.next).count i =
      s.count i + if s.next = i then 1 else 0 := by
    simp only [ConOut.count, invoke, List.countP_cons, decide_eq_true_eq]
    omega
  refine ⟨⟨h.stream, h.inOrder, fun i => ?_, fun i hi => ?_, List.forall_mem_cons.2 ⟨hf, h.timely⟩,
    fun l hl => ?_, fun l hl => ?_, h.debt⟩, fun _ => hidle⟩
  · rw [hcount]
    by_cases hi : s.next = i
    · simp [hi, h.fresh i (by omega)]
    · rw [if_neg hi]
      exact h.count i
  · have hi : s.next < i := hi
    rw [hcount, if_neg (by omega), h.fresh i (by omega)]
  · cases hl
    exact .inl List.mem_cons_self
  · cases hidle.symm.trans hl

theorem Core.register (h : Core s) {cb : Option Nat} (hcb : ∀ k, cb = some k → k = s.next) :
    Core { s with force := cb, next := s.next + 1, drainedCb := cb } := by
  have hcount (i : Nat) :
      ConOut.count { s with force := cb, next := s.next + 1, drainedCb := cb } i ≤
      s.count i + if s.next = i then 1 else 0 := by
    have hle : cb.toList.countP (· = i) ≤ if s.next = i then 1 else 0 := by
      cases cb with
      | none => exact Nat.zero_le _
      | some k =>
        cases hcb k rfl
        simp [List.countP_cons]
    simp only [ConOut.count]
    omega
  refine ⟨h.stream, h.inOrder, fun i => ?_, fun i hi => ?_, h.timely, fun l hl => .inr (.inr hl),
    fun l hl => hl, h.debt⟩
  · refine Nat.le_trans (hcount i) ?_
    by_cases hi : s.next = i
    · simp [hi, h.fresh i (by omega)]
    · rw [if_neg hi]
      exact h.count i
  · have hi : s.next < i := hi
    refine Nat.eq_zero_of_le_zero (Nat.le_trans (hcount i) ?_)
    simp [h.fresh i (by omega), show s.next ≠ i by omega]

theorem Core.give (h : Core s) {buf w q : Str} (ho : s.isOpen = true)
    (hwq : s.out ++ buf = w ++ q) :
    Core { s with given := s.given ++ buf, out := q, written := s.written ++ w } := by
  have hstream := h.stream ho
  refine ⟨fun _ => ?_, ?_, h.count, h.fresh, h.timely, h.kept, h.withdrawn, h.debt⟩
  · show s.given ++ buf = s.written ++ w ++ q
    rw [hstream, List.append_assoc, hwq, List.append_assoc]
  · show s.written ++ w <+: s.given ++ buf
    rw [hstream, List.append_assoc, hwq, ← List.append_assoc]
    exact List.prefix_append _ _

theorem direct_append {buf w q : Str} {cnt : Nat} {ws us : List WriteRes}
    (h : s.direct buf cnt ws = some (w, q, us)) : s.out ++ buf = w ++ q := by
  unfold direct at h
  split at h
  · next hemp =>
    have hnil : s.out = [] := by simp_all
    rw [hnil, List.nil_append]
    split at h
    · cases h
    · cases h
      exact (List.take_append_drop _ _).symm
    · cases h
      rfl
    · cases h
      rfl
  · cases h
    rfl

theorem direct_none {buf : Str} {cnt : Nat} {ws : List WriteRes} (h : s.direct buf cnt ws = none) :
    s.out = [] := by
  unfold direct at h
  split at h
  · simp_all
  · cases h

theorem callDrainedCb_idle (h : s.drainedCb = none) : s.callDrainedCb = s := by
  unfold ConOut.callDrainedCb
  rw [h]

theorem fail_idle (h : s.drainedCb = none) :
    s.fail = { s with isOpen := false, wcbset := false } := by
  unfold ConOut.fail
  dsimp only
  split
  · rfl
  · split
    · rfl
    · exact callDrainedCb_idle h

theorem Inv.owe (h : Inv s) (hidle : s.drainedCb = none) {cb : Option Nat} {buf : Str}
    (hcb : ∀ k, cb = some k → k = s.next) : Inv { s with
      isOpen := false
      wcbset := false
      given := s.given ++ buf
      force := cb
      next := s.next + 1
      owed := cb.toList ++ s.owed } := by
  have hreg := h.toCore.register hcb
  have hcount (i : Nat) : ConOut.count { s with
      isOpen := false
      wcbset := false
      given := s.given ++ buf
      force := cb
      next := s.next + 1
      owed := cb.toList ++ s.owed } i =
      ConOut.count { s with force := cb, next := s.next + 1, drainedCb := cb } i := by
    simp only [ConOut.count, hidle, Option.toList_none, List.countP_nil, List.countP_append]
    omega
  refine ⟨⟨nofun, h.inOrder.trans (List.prefix_append _ _), fun i => hcount i ▸ hreg.count i,
    fun i hi => (hcount i).trans (hreg.fresh i hi), h.timely, fun l hl => .inr (.inl ?_),
    fun l hl => ?_, fun _ => rfl⟩, fun _ => hidle⟩
  · have hl : cb = some l := hl
    simp [hl]
  · cases hidle.symm.trans hl

theorem Inv.giveClosed (h : Inv s) (ho : s.isOpen = false) (buf : Str) :
    Inv { s with given := s.given ++ buf } where
  stream ho' := absurd (ho.symm.trans ho') nofun
  inOrder := h.inOrder.trans (List.prefix_append _ _)
  count := h.count
  fresh := h.fresh
  timely := h.timely
  kept := h.kept
  withdrawn := h.withdrawn
  debt := h.debt
  idle := h.idle

theorem Inv.sendv (h : Inv s) {buf : Str} {cnt : Nat} {drained : Bool} {ws : List WriteRes}
    (ha : Heard s (.sendv buf cnt drained ws)) : Inv (s.sendv buf cnt drained ws) := by
  have hcb (k : Nat) (hk : (if drained then some s.next else none) = some k) : k = s.next := by
    split at hk
    · exact (Option.some.inj hk).symm
    · cases hk
  unfold ConOut.sendv
  dsimp only
  by_cases ho : s.isOpen = true
  · rw [if_neg (by simp [ho])]
    have hdir : ConOut.direct { s with
        given := s.given ++ buf
        force := if drained then some s.next else none
        next := s.next + 1 } buf cnt ws = s.direct buf cnt ws := rfl
    cases hd : s.direct buf cnt ws with
    | none =>
      have hidle := h.idle (by simp [finished, direct_none hd])
      have hfail := fail_idle (s := { s with
        given := s.given ++ buf
        force := if drained then some s.next else none
        next := s.next + 1 }) hidle
      rw [hdir, hd, hfail]
      exact h.owe hidle hcb
    | some r =>
      obtain ⟨w, q, us⟩ := r
      rw [hdir, hd]
      refine ((h.toCore.register hcb).give ho (direct_append hd)).output ho fun hne herr => ?_
      cases drained with
      | true => exact ha w q us ho rfl hd herr
      | false => exact absurd rfl hne
  · rw [if_pos (by simp [ho])]
    have hclosed : s.isOpen = false := by simpa using ho
    have hf : s.finished = true := by simp [finished, hclosed]
    have hidle := h.idle hf
    have hgive := h.giveClosed hclosed buf
    cases drained with
    | true => exact hgive.report hf
    | false =>
      exact ⟨⟨hgive.stream, hgive.inOrder, h.count, fun i hi => h.fresh i (Nat.le_of_succ_le hi),
        h.timely, nofun, fun k hk => absurd (hidle.symm.trans hk) nofun, h.debt⟩, fun _ => hidle⟩

theorem Inv.setDrainedCb (h : Inv s) (cb : Bool) : Inv (s.setDrainedCb cb) := by
  unfold ConOut.setDrainedCb
  cases cb with
  | false =>
    have hcount (i : Nat) :
        ConOut.count { s with drainedCb := none, force := none } i ≤ s.count i :=
      Nat.le_add_right _ _
    exact ⟨⟨h.stream, h.inOrder, fun i => Nat.le_trans (hcount i) (h.count i),
      fun i hi => Nat.eq_zero_of_le_zero (h.fresh i hi ▸ hcount i), h.timely, nofun, nofun, h.debt⟩,
      fun _ => rfl⟩
  | true =>
    simp only [Bool.not_true, Bool.false_eq_true, if_false]
    split
    · next hf => exact h.report hf
    · next hf => exact ⟨h.toCore.register (by simp), fun hf' => absurd hf' hf⟩

theorem Inv.unwind (h : Inv s) {k : Nat} {ks : List Nat} (hk : s.owed = k :: ks) :
    Inv ({ s with owed := ks }.invoke k) := by
  have ho : s.isOpen = false := h.debt (by simp [hk])
  have hf : s.finished = true := by simp [finished, ho]
  have hcount (i : Nat) : ({ s with owed := ks }.invoke k).count i = s.count i := by
    simp only [ConOut.count, invoke, hk, List.countP_cons]
    omega
  refine ⟨⟨h.stream,
    h.inOrder, fun i => hcount i ▸ h.count i, fun i hi => (hcount i).trans (h.fresh i hi),
    List.forall_mem_cons.2 ⟨hf, h.timely⟩, fun l hl => ?_, h.withdrawn, fun _ => ho⟩, fun _ =>
      h.idle hf⟩
  obtain h' | h' | h' := h.kept l hl
  · exact .inl (List.mem_cons_of_mem k h')
  · rw [hk] at h'
    obtain rfl | h' := List.mem_cons.1 h'
    · exact .inl List.mem_cons_self
    · exact .inr (.inl h')
  · exact .inr (.inr h')

theorem Inv.step {s' : ConOut} {e : OutEvent} (h : Inv s) (ha : Heard s e)
    (hs : s.step e = some s') : Inv s' := by
  cases e with
  | sendv buf cnt drained ws =>
    cases hs
    exact h.sendv ha
  | writable ws =>
    obtain ⟨-, hs⟩ := Option.ite_none_right_eq_some.1 hs
    cases hs
    cases ho : s.isOpen with
    | true => exact h.toCore.output ho ha
    | false =>
      have hout : s.output ws = s := by simp [output, ho]
      rwa [hout]
  | readable =>
    cases hs
    exact h
  | readFail =>
    obtain ⟨-, hs⟩ := Option.ite_none_right_eq_some.1 hs
    cases hs
    exact h.toCore.fail ha
  | cancel =>
    cases hs
    exact h.toCore.fail ha
  | setDrainedCb cb =>
    cases hs
    exact h.setDrainedCb cb
  | setrcb cb =>
    cases hs
    exact ⟨⟨h.stream, h.inOrder, h.count, h.fresh, h.timely, h.kept, h.withdrawn, h.debt⟩, h.idle⟩
  | seteofcb cb =>
    cases hs
    exact ⟨⟨h.stream, h.inOrder, h.count, h.fresh, h.timely, h.kept, h.withdrawn, h.debt⟩, h.idle⟩
  | unwind =>
    simp only [ConOut.step] at hs
    split at hs
    · cases hs
    · next k ks hk =>
      cases hs
      exact h.unwind hk

theorem inv_init : Inv {} where
  stream _ := rfl
  inOrder := List.nil_prefix
  count _ := Nat.zero_le 1
  fresh _ _ := rfl
  timely := nofun
  kept := nofun
  withdrawn := nofun
  debt := nofun
  idle _ := rfl

theorem sound_of_heard (h : system.Reach Heard s) : Sound s := by
  refine Inv.sound (h.invariant ?_ fun s e s' _ hi ha hs => hi.step ha hs)
  rintro s rfl
  exact inv_init

/-- Two bytes of three are written, then the connection breaks. -/
theorem sound_of_heard_broken : Sound
    { isOpen := false
      out := [3]
      next := 1
      given := [1, 2, 3]
      written := [1, 2]
      force := some 0
      invoked := [(0, true)] } := by
  have h₀ : system.Reach Heard {} := .init rfl
  have h₁ := h₀.step (e := OutEvent.sendv [1, 2, 3] 1 true [.wrote 1])
      (fun _ _ _ _ _ _ _ => ⟨rfl, rfl⟩) rfl
  have h₂ := h₁.step (e := OutEvent.writable [.error]) (fun _ _ => ⟨rfl, rfl⟩) rfl
  exact sound_of_heard h₂

/-- A callback for reading is registered when the peer closes the connection. -/
theorem not_sound_reading : ¬ ∀ s, system.Reachable s → Sound s := by
  intro h
  have hreach : system.Reachable
      { isOpen := false
        out := [2]
        drainedCb := some 0
        rcb := true
        next := 1
        given := [1, 2]
        written := [1]
        force := some 0 } :=
    Lib.System.reachable_exec [.setrcb true, .sendv [1, 2] 1 true [.wrote 0], .readFail] rfl rfl
  exact absurd ((h _ hreach).reported rfl rfl 0 rfl) (by decide)

end Core

end ConOut

end Okws
