import Mathlib.Data.List.Nodup
import Okws.Lib.Transition

/-! `dnscache_entry_t`: one lookup resolves a host, and the others wait for it. -/

namespace Okws

inductive DnsErr
  | noError
  | timeout
  | other
  deriving DecidableEq

structure DnsAnswer where
  he : Option Nat
  err : DnsErr
  deriving DecidableEq

/-- How far `do_resolution` is with the waiters: it has triggered its own lookup, or it has saved
the waiter that comes next. -/
inductive DnsWalk
  | idle
  | committed
  | at (next : Option Nat)
  deriving DecidableEq

/-- The lookups are numbered, and so are the `do_resolution`s.  The query is the `do_resolution`
that waits for the answer, with its own lookup, unless that was cancelled.  `armed` is the
`do_resolution` in whose rendezvous `_waiter_remove_cb` is an event, and `walker` the one that
triggers the waiters.  `astray` is a waiter that is called after it was deleted, or a second query;
`failed` is an assertion that does not hold. -/
structure DnsEntry where
  next : Nat := 0
  init : Bool := false
  answer : DnsAnswer := ⟨none, .noError⟩
  resolving : Bool := false
  waiters : List Nat := []
  resolutions : Nat := 0
  armed : Option Nat := none
  query : Option (Option Nat) := none
  walker : Nat := 0
  walk : DnsWalk := .idle
  log : List (Nat × DnsAnswer) := []
  cancelled : List Nat := []
  commits : List DnsAnswer := []
  astray : Bool := false
  failed : Bool := false

namespace DnsEntry

variable (s : DnsEntry)

/-- `commit_lookup`. -/
def commit (a : DnsAnswer) : DnsEntry :=
  { s with init := true, answer := a, resolving := false, commits := a :: s.commits }

/-- The end of a `do_resolution` that is cancelled: `dnsreq_cancel` takes the event of the answer
out of the rendezvous, and both assertions are checked. -/
def giveUp : DnsEntry :=
  { s.commit ⟨none, .timeout⟩ with
    query := none
    failed := s.failed || decide (s.waiters ≠ []) || decide (s.armed = some s.resolutions) }

/-- The loop of `do_resolution` after its lookup was cancelled: it goes on for those who wait, or
gives up. -/
def goOn : DnsEntry :=
  if s.waiters = [] then s.giveUp else { s with armed := some s.resolutions }

def nextOf (p : Nat) (l : List Nat) : Option Nat := ((l.dropWhile (· ≠ p)).drop 1).head?

/-- `walk` is one turn of the loop that triggers the waiters; the user runs between the turns. -/
inductive Event
  | lookup (expired : Bool)
  | cancel (i : Nat)
  | answer (a : DnsAnswer)
  | walk

def step : Event → Option DnsEntry
  | .lookup expired =>
    let i := s.next
    let s := { s with next := i + 1 }
    if s.resolving then some { s with waiters := s.waiters ++ [i] }
    else if !s.init || expired || s.answer.err ≠ .noError then some { s with
      resolving := true
      resolutions := s.resolutions + 1
      query := some (some i)
      astray := s.astray || s.query.isSome }
    else some { s with log := (i, s.answer) :: s.log }
  | .cancel i =>
    if i ∈ s.waiters then
      let s := { s with waiters := s.waiters.erase i, cancelled := i :: s.cancelled }
      -- the event is used up; one that was used up before does nothing
      some (if s.armed.isSome then goOn { s with armed := none } else s)
    else if s.query = some (some i) then
      some (goOn { s with query := some none, cancelled := i :: s.cancelled })
    else none
  | .answer a => match s.walk, s.query with
    -- the answer comes from the event loop, not while the waiters are triggered
    | .idle, some (some i) => some { s.commit a with
        query := none
        walker := s.resolutions
        walk := .committed
        log := (i, a) :: s.log }
    | .idle, some none => some { s.commit a with
        query := none
        armed := none
        walker := s.resolutions
        walk := .at s.waiters.head? }
    | _, _ => none
  | .walk => match s.walk with
    | .idle => none
    | .committed => some { s with armed := none, walk := .at s.waiters.head? }
    | .at none => some { s with
        walk := .idle
        failed := s.failed || decide (s.armed = some s.walker) }
    | .at (some p) =>
      if p ∈ s.waiters then some { s with
        waiters := s.waiters.erase p
        log := (p, s.answer) :: s.log
        walk := .at (nextOf p s.waiters) }
      else some { s with astray := true, walk := .idle }

def system : Lib.System DnsEntry Event where
  init s := s = {}
  step := step

/-- A lookup is triggered once, with what was committed, unless it is cancelled; until then it waits
for something that comes.  Nobody waits where nothing is resolved, but those that are triggered
next.  No event is left in the rendezvous of a `do_resolution` that has ended. -/
structure Sound : Prop where
  once : (s.log.map Prod.fst).Nodup
  committed : ∀ i a, (i, a) ∈ s.log → a ∈ s.commits
  uncancelled : ∀ i a, (i, a) ∈ s.log → i ∉ s.cancelled
  kept : ∀ i < s.next, i ∈ s.cancelled ∨ i ∈ s.log.map Prod.fst ∨ i ∈ s.waiters ∨
    s.query = some (some i)
  served : s.waiters ≠ [] → s.query.isSome = true ∨ s.walk = .committed ∨
    ∃ p, s.walk = .at (some p)
  next : ∀ p, s.walk = .at (some p) → s.waiters.head? = some p
  quiet : s.resolving = false → s.walk = .idle → s.waiters = []
  left : s.query = none → s.armed = none
  straight : s.astray = false
  asserted : s.failed = false

/-- The waiter that comes next is not cancelled by those that are triggered before it. -/
def Calm : Event → Prop
  | .cancel i => s.walk ≠ .at (some i)
  | _ => True

def own : List Nat := match s.query with
  | some (some i) => [i]
  | _ => []

def places : List Nat := s.waiters ++ s.own ++ s.log.map Prod.fst ++ s.cancelled

structure Inv : Prop where
  straight : s.astray = false
  asserted : s.failed = false
  resolving : s.resolving = s.query.isSome
  armed : ∀ r, s.armed = some r → r = s.resolutions ∧ s.query = some none
  walker : s.walker ≤ s.resolutions ∧ (s.query.isSome = true → s.walker < s.resolutions)
  ledger : s.places.Perm (List.range s.next)
  committed : ∀ x ∈ s.log, x.2 ∈ s.commits
  answer : s.init = true → s.answer ∈ s.commits
  walked : s.walk ≠ .idle → s.init = true
  head : ∀ p, s.walk = .at (some p) → s.waiters.head? = some p
  idle : s.query = none → s.walk = .idle ∨ s.walk = .at none → s.waiters = []

section Places

variable {s t : DnsEntry} {i : Nat} {a : DnsAnswer}

theorem own_query (h : s.query = some (some i)) : s.own = [i] := by rw [own, h]

theorem own_none (h : s.query = some none ∨ s.query = none) : s.own = [] := by
  obtain h | h := h <;> rw [own, h]

theorem count_places (j : Nat) : s.places.count j =
    s.waiters.count j + s.own.count j + (s.log.map Prod.fst).count j + s.cancelled.count j := by
  simp only [places, List.count_append]

theorem places_new (h : s.places.Perm (List.range s.next)) (hnext : t.next = s.next + 1)
    (hnew : ∀ j, t.places.count j = s.places.count j + [s.next].count j) :
    t.places.Perm (List.range t.next) := by
  rw [hnext, List.range_succ, List.perm_iff_count]
  intro j
  rw [hnew, List.count_append, h.count_eq]

theorem places_moved (h : s.places.Perm (List.range s.next)) (hnext : t.next = s.next)
    (hmoved : ∀ j, t.places.count j = s.places.count j) :
    t.places.Perm (List.range t.next) := by
  rw [hnext]
  exact (List.perm_iff_count.2 hmoved).trans h

end Places

section Invariant

variable {s t : DnsEntry} {i p : Nat} {a : DnsAnswer}

theorem Inv.unqueried (h : s.Inv) (hr : s.resolving ≠ true) : s.query = none := by
  have hresolving := h.resolving
  cases hq : s.query with
  | none => rfl
  | some q =>
    rw [hq] at hresolving
    exact absurd hresolving hr

theorem Inv.unarmed (h : s.Inv) (hq : s.query ≠ some none) : s.armed = none := by
  cases ha : s.armed with
  | none => rfl
  | some r => exact absurd (h.armed r ha).2 hq

theorem Inv.lookup {expired : Bool} (h : s.Inv) (hs : s.step (.lookup expired) = some t) :
    t.Inv := by
  rw [step] at hs
  dsimp only at hs
  split at hs
  · next hr =>
    -- it waits
    cases hs
    exact { h with
      ledger := places_new h.ledger rfl fun j => by
        simp only [count_places, own, List.count_append]
        omega
      head := fun p hp => by rw [List.head?_append, h.head p hp]; rfl
      idle := fun hq => by
        have hresolving := h.resolving
        rw [hr, show s.query = none from hq] at hresolving
        cases hresolving }
  · next hr =>
    have hq := h.unqueried hr
    split at hs
    · -- it begins a query
      cases hs
      exact { h with
        straight := by simp [h.straight, hq]
        resolving := rfl
        armed := fun r hr => by
          rw [h.unarmed (by rw [hq]; nofun)] at hr
          cases hr
        walker := ⟨Nat.le_succ_of_le h.walker.1, fun _ => Nat.lt_succ_of_le h.walker.1⟩
        ledger := places_new h.ledger rfl fun j => by
          rw [count_places, count_places, own_query rfl, own_none (.inr hq), List.count_nil]
          dsimp only
          omega
        idle := nofun }
    · -- it is answered at once
      next hinit =>
      cases hs
      simp only [Bool.or_eq_true, Bool.not_eq_true', not_or, Bool.not_eq_false] at hinit
      exact { h with
        ledger := places_new h.ledger rfl fun j => by
          simp only [count_places, own, List.map_cons, List.count_cons, List.count_nil]
          omega
        committed := fun x hx => by
          obtain rfl | hx := List.mem_cons.1 hx
          · exact h.answer hinit.1.1
          · exact h.committed x hx }

theorem Inv.goOn (h : s.Inv) (hq : s.query = some none) (ha : s.armed = none) : s.goOn.Inv := by
  unfold DnsEntry.goOn
  split
  · next hnil =>
    exact { h with
      asserted := by simp [giveUp, h.asserted, hnil, ha]
      resolving := rfl
      armed := fun r hr => by
        rw [show s.giveUp.armed = none from ha] at hr
        cases hr
      walker := ⟨h.walker.1, nofun⟩
      ledger := places_moved h.ledger rfl fun j => by
        rw [count_places, count_places, own_none (.inl hq), own_none (.inr rfl)]
        rfl
      committed := fun x hx => List.mem_cons_of_mem _ (h.committed x hx)
      answer := fun _ => List.mem_cons_self
      walked := fun _ => rfl
      idle := fun _ _ => hnil }
  · exact { h with armed := fun r hr => ⟨(Option.some.inj hr).symm, hq⟩ }

theorem count_erase_cons {l : List Nat} (hi : i ∈ l) (j : Nat) :
    (l.erase i).count j + [i].count j = l.count j := by
  rw [← List.count_append, (List.perm_append_comm.trans (List.perm_cons_erase hi).symm).count_eq]

theorem Inv.cancel (h : s.Inv) (hcalm : s.Calm (.cancel i)) (hs : s.step (.cancel i) = some t) :
    t.Inv := by
  rw [step] at hs
  dsimp only at hs
  split at hs
  · next hi =>
    -- a waiter leaves
    have hleft : Inv { s with waiters := s.waiters.erase i, cancelled := i :: s.cancelled } :=
      { h with
        ledger := places_moved h.ledger rfl fun j => by
          have hcount := count_erase_cons hi j
          simp only [count_places, own, List.count_cons, List.count_nil] at hcount ⊢
          omega
        head := fun p hp => by
          have hhead := h.head p hp
          cases hw : s.waiters with
          | nil => rw [hw] at hi; cases hi
          | cons q l =>
            rw [hw] at hhead
            cases hhead
            rw [List.erase_cons_tail (by simpa using fun hpi => hcalm (hp.trans (by rw [hpi])))]
            rfl
        idle := fun hq hw => by
          rw [h.idle hq hw] at hi
          cases hi }
    cases hs
    split
    · next ha =>
      obtain ⟨r, hr⟩ := Option.isSome_iff_exists.1 ha
      exact Inv.goOn { hleft with armed := nofun } (h.armed r hr).2 rfl
    · exact hleft
  · split at hs
    · next hq =>
      -- the resolver leaves
      cases hs
      have hnone : s.armed = none := h.unarmed (by rw [hq]; nofun)
      refine Inv.goOn (s := { s with query := some none, cancelled := i :: s.cancelled }) ?_ rfl
        hnone
      exact { h with
        resolving := by rw [h.resolving, hq]; rfl
        armed := fun r hr => by
          rw [show s.armed = some r from hr] at hnone
          cases hnone
        walker := ⟨h.walker.1, fun _ => h.walker.2 (by rw [hq]; rfl)⟩
        ledger := places_moved h.ledger rfl fun j => by
          rw [count_places, count_places, own_query hq, own_none (.inl rfl)]
          simp only [List.count_cons, List.count_nil]
          omega
        idle := nofun }
    · cases hs

theorem eq_nil_of_walk {l : List Nat}
    (hw : DnsWalk.at l.head? = .idle ∨ DnsWalk.at l.head? = .at none) : l = [] := by
  obtain hw | hw := hw
  · cases hw
  · exact List.head?_eq_none_iff.mp (DnsWalk.at.inj hw)

theorem Inv.commit (h : s.Inv) (hs : s.step (.answer a) = some t) : t.Inv := by
  rw [step] at hs
  split at hs
  · next i hwalk hq =>
    cases hs
    have hnone : s.armed = none := h.unarmed (by rw [hq]; nofun)
    exact { h with
      resolving := rfl
      armed := fun r hr => by
        rw [show s.armed = some r from hr] at hnone
        cases hnone
      walker := ⟨Nat.le_refl _, nofun⟩
      ledger := places_moved h.ledger rfl fun j => by
        rw [count_places, count_places, own_query hq, own_none (.inr rfl)]
        simp only [DnsEntry.commit, List.map_cons, List.count_cons, List.count_nil]
        omega
      committed := fun x hx => by
        obtain rfl | hx := List.mem_cons.1 hx
        · exact List.mem_cons_self
        · exact List.mem_cons_of_mem _ (h.committed x hx)
      answer := fun _ => List.mem_cons_self
      walked := fun _ => rfl
      head := nofun
      idle := fun _ hw => by
        obtain hw | hw := hw <;> cases hw }
  · next hwalk hq =>
    cases hs
    exact { h with
      resolving := rfl
      armed := nofun
      walker := ⟨Nat.le_refl _, nofun⟩
      ledger := places_moved h.ledger rfl fun j => by
        rw [count_places, count_places, own_none (.inl hq), own_none (.inr rfl)]
        rfl
      committed := fun x hx => List.mem_cons_of_mem _ (h.committed x hx)
      answer := fun _ => List.mem_cons_self
      walked := fun _ => rfl
      head := fun p hp => DnsWalk.at.inj hp
      idle := fun _ hw => eq_nil_of_walk hw }
  · cases hs

theorem Inv.walk (h : s.Inv) (hs : s.step .walk = some t) : t.Inv := by
  rw [step] at hs
  split at hs
  · cases hs
  · next hwalk =>
    cases hs
    exact { h with
      armed := nofun
      walked := fun _ => h.walked (by rw [hwalk]; nofun)
      head := fun p hp => DnsWalk.at.inj hp
      idle := fun _ hw => eq_nil_of_walk hw }
  · next hwalk =>
    -- the event that may be there is another one's
    cases hs
    have hother : s.armed ≠ some s.walker := fun ha => by
      obtain ⟨hr, hq⟩ := h.armed _ ha
      have hlt := h.walker.2 (by rw [hq]; rfl)
      omega
    exact { h with
      asserted := by simp [h.asserted, hother]
      walked := fun hidle => absurd rfl hidle
      head := nofun
      idle := fun hq _ => h.idle hq (.inr hwalk) }
  · next p hwalk =>
    have hhead := h.head p hwalk
    obtain ⟨l, hl⟩ : ∃ l, s.waiters = p :: l := List.head?_eq_some_iff.1 hhead
    have hnext : nextOf p s.waiters = l.head? := by
      rw [hl, nextOf]
      simp
    have herase : s.waiters.erase p = l := by
      rw [hl, List.erase_cons_head]
    rw [if_pos (by rw [hl]; exact List.mem_cons_self), hnext, herase] at hs
    cases hs
    have hinit := h.walked (by rw [hwalk]; nofun)
    exact { h with
      ledger := places_moved h.ledger rfl fun j => by
        simp only [count_places, own, hl, List.map_cons, List.count_cons]
        omega
      committed := fun x hx => by
        obtain rfl | hx := List.mem_cons.1 hx
        · exact h.answer hinit
        · exact h.committed x hx
      walked := fun _ => hinit
      head := fun q hq => DnsWalk.at.inj hq
      idle := fun _ hw => eq_nil_of_walk hw }

theorem Inv.step {e : Event} (h : s.Inv) (hcalm : s.Calm e) (hs : s.step e = some t) : t.Inv := by
  cases e with
  | lookup expired => exact h.lookup hs
  | cancel i => exact h.cancel hcalm hs
  | answer a => exact h.commit hs
  | walk => exact h.walk hs

theorem inv_empty : Inv {} where
  straight := rfl
  asserted := rfl
  resolving := rfl
  armed := nofun
  walker := ⟨Nat.le_refl _, nofun⟩
  ledger := .nil
  committed := nofun
  answer := nofun
  walked h := absurd rfl h
  head := nofun
  idle _ _ := rfl

theorem Inv.nodup (h : s.Inv) : s.places.Nodup := h.ledger.nodup_iff.2 List.nodup_range

theorem Inv.kept (h : s.Inv) (hi : i < s.next) : i ∈ s.cancelled ∨ i ∈ s.log.map Prod.fst ∨
    i ∈ s.waiters ∨ s.query = some (some i) := by
  have hmem := h.ledger.mem_iff.2 (List.mem_range.2 hi)
  simp only [places, List.mem_append] at hmem
  obtain ((hw | ho) | hl) | hc := hmem
  · exact .inr (.inr (.inl hw))
  · refine .inr (.inr (.inr ?_))
    unfold own at ho
    split at ho
    · next j hq => rw [hq, List.mem_singleton.1 ho]
    · cases ho
  · exact .inr (.inl hl)
  · exact .inl hc

theorem Inv.sound (h : s.Inv) : s.Sound where
  once := (List.nodup_append'.1 (List.nodup_append'.1 h.nodup).1).2.1
  committed i a hi := h.committed _ hi
  uncancelled i a hi hc := List.disjoint_of_nodup_append h.nodup
    (List.mem_append_right _ (List.mem_map_of_mem hi)) hc
  kept i hi := h.kept hi
  served hne := by
    cases hq : s.query with
    | some q => exact .inl rfl
    | none => cases hw : s.walk with
      | idle => exact absurd (h.idle hq (.inl hw)) hne
      | committed => exact .inr (.inl rfl)
      | «at» next => cases next with
        | none => exact absurd (h.idle hq (.inr hw)) hne
        | some p => exact .inr (.inr ⟨p, rfl⟩)
  next := h.head
  quiet hr hw := h.idle (h.unqueried (by rw [hr]; nofun)) (.inl hw)
  left hq := h.unarmed (by rw [hq]; nofun)
  straight := h.straight
  asserted := h.asserted

theorem no_waiter_lost (h : system.Reach Calm s) : s.Sound := by
  refine Inv.sound (h.invariant (I := Inv) ?_ fun s e t _ hi hc hs => hi.step hc hs)
  rintro s rfl
  exact inv_empty

/-- The resolver is cancelled, and the answer still comes for the two that wait. -/
theorem no_waiter_lost_two : ∃ s : DnsEntry, s.Sound ∧
    s.log = [(2, ⟨some 7, .noError⟩), (1, ⟨some 7, .noError⟩)] := by
  have h₀ : system.Reach Calm {} := .init rfl
  have h₁ := h₀.step (e := Event.lookup false) trivial rfl
  have h₂ := h₁.step (e := Event.lookup false) trivial rfl
  have h₃ := h₂.step (e := Event.lookup false) trivial rfl
  have h₄ := h₃.step (e := Event.cancel 0) nofun rfl
  have h₅ := h₄.step (e := Event.answer ⟨some 7, .noError⟩) trivial rfl
  have h₆ := h₅.step (e := Event.walk) trivial rfl
  have h₇ := h₆.step (e := Event.walk) trivial rfl
  exact ⟨_, no_waiter_lost h₇, rfl⟩

/-- The first waiter that is triggered cancels the second one, which the resolver has saved. -/
theorem waiter_astray : ¬ ∀ s, system.Reachable s → s.Sound := by
  intro h
  have hstraight := (h _ (Lib.System.reachable_exec (M := system)
    [.lookup false, .lookup false, .lookup false, .answer ⟨some 7, .noError⟩, .walk, .walk,
      .cancel 2, .walk] rfl rfl)).straight
  exact absurd hstraight (by decide)

end Invariant

end DnsEntry

end Okws
