import Okws.Byte
import Okws.Lib.Transition

/-! `srv_cache_t::refresh_delta_set` and the pushes: how the services that have asked for it are
told which files have changed. -/

namespace Okws

/-- `xpub3_delta_set_t`. -/
structure Deltas where
  serial : Int
  files : List Str
  deriving DecidableEq

/-- A service: its `slave_srv_t` in `pubd`, what is on the way to it, and its `_delta_id`.  `asked`
is the serial that was next when it asked for pushes, and the lock has the serial that is in flight.
Of the rest the code keeps no record: what has come, in order, each with the `_delta_id` it met; and
what was dropped at the lock, and what failed. -/
structure DeltaClient where
  registered : Bool := false
  asked : Option Int := none
  pushDeltasLock : Option Int := none
  wire : List Deltas := []
  deltaId : Int := -1
  received : List (Deltas × Int) := []
  dropped : List Int := []
  failed : List Int := []

namespace DeltaClient

variable (c : DeltaClient)

/-- `slave_srv_t::push_deltas`, up to the reply. -/
def pushDeltas (d : Deltas) : DeltaClient :=
  if c.registered = false ∨ c.asked = none then c
  else if c.pushDeltasLock ≠ none then { c with dropped := d.serial :: c.dropped }
  else { c with
    pushDeltasLock := some d.serial
    wire := c.wire ++ [d] }

/-- `handle_new_deltas`: `_delta_id` stays after a gap. -/
def handleNewDeltas (d : Deltas) : DeltaClient := { c with
  deltaId := if 0 ≤ c.deltaId ∧ d.serial ≠ c.deltaId + 1 then c.deltaId else d.serial
  received := c.received ++ [(d, c.deltaId)] }

end DeltaClient

/-- `puts` are the names that were put into the delta set, with the serial that was next. -/
structure DeltaPush where
  deltaSet : List Str := []
  deltaId : Int := 0
  clients : Nat → DeltaClient := fun _ => {}
  issued : List Deltas := []
  puts : List (Str × Int) := []

namespace DeltaPush

variable (s : DeltaPush)

def update (n : Nat) (c : DeltaClient) : DeltaPush := { s with
  clients := fun m => if m = n then c else s.clients m }

def addDelta (nm : Str) : DeltaPush := { s with
  deltaSet := s.deltaSet.insert nm
  puts := (nm, s.deltaId) :: s.puts }

/-- `refresh_delta_set`, after the traversals. -/
def refreshDeltaSet : DeltaPush :=
  if s.deltaSet = [] then s
  else
    let d : Deltas := { serial := s.deltaId, files := s.deltaSet }
    { s with
      deltaSet := []
      deltaId := s.deltaId + 1
      clients := fun n => (s.clients n).pushDeltas d
      issued := d :: s.issued }

/-- A call may fail before or after the service gets it, and `lost` says that it never will. -/
inductive Event
  | register (n : Nat)
  | getPushes (n : Nat)
  | addDelta (nm : Str)
  | refresh
  | deliver (n : Nat)
  | complete (n : Nat)
  | fail (n : Nat) (lost : Bool)
  | eof (n : Nat)

def step : Event → Option DeltaPush
  | .register n =>
    if (s.clients n).registered then none else some (s.update n { registered := true })
  | .getPushes n =>
    if (s.clients n).registered then some (s.update n { s.clients n with
      asked := some ((s.clients n).asked.getD s.deltaId) })
    else none
  | .addDelta nm => some (s.addDelta nm)
  | .refresh => some s.refreshDeltaSet
  | .deliver n => match (s.clients n).wire with
    | [] => none
    | d :: rest => some (s.update n { (s.clients n).handleNewDeltas d with wire := rest })
  | .complete n =>
    -- the reply comes after the service has handled the call
    if (s.clients n).pushDeltasLock ≠ none ∧ (s.clients n).wire = [] then
      some (s.update n { s.clients n with pushDeltasLock := none })
    else none
  | .fail n lost => match (s.clients n).pushDeltasLock with
    | none => none
    | some serial => some (s.update n { s.clients n with
      pushDeltasLock := none
      wire := if lost then [] else (s.clients n).wire
      failed := serial :: (s.clients n).failed })
  | .eof n => some (s.update n { s.clients n with registered := false, wire := [] })

def system : Lib.System DeltaPush Event where
  init s := s = {}
  step := step

end DeltaPush

namespace DeltaClient

variable (c : DeltaClient)

/-- The set has come, is on the way, or the first one that comes with a higher serial is not the
successor of the last one that was processed. -/
def Accounts (d : Deltas) : Prop := d ∈ c.received.map Prod.fst ∨ d ∈ c.wire ∨
  ∀ r before, c.received.find? (fun r => d.serial < r.1.serial) = some (r, before) →
    0 ≤ before → r.serial ≠ before + 1

def Has (d : Deltas) : Prop := d ∈ c.received.map Prod.fst

structure Inv (issued : List Deltas) (next : Int) : Prop where
  known : ∀ d, c.Has d ∨ d ∈ c.wire → d ∈ issued
  ordered : c.wire.Pairwise (fun d d' => d.serial < d'.serial)
  before : ∀ d d', c.Has d → d' ∈ c.wire → d.serial < d'.serial
  met : c.deltaId = -1 ∨ c.deltaId ∈ (c.received.map Prod.fst).map Deltas.serial
  accounts : ∀ d ∈ issued, c.Accounts d
  locked : ∀ d ∈ c.wire, c.pushDeltasLock = some d.serial ∨ d.serial ∈ c.failed
  kept : ∀ d ∈ issued, c.registered → ∀ k, c.asked = some k → k ≤ d.serial →
    c.Has d ∨ d ∈ c.wire ∨ d.serial ∈ c.dropped ∨ d.serial ∈ c.failed

end DeltaClient

namespace DeltaPush

variable (s : DeltaPush)

/-- What was put into the delta set is still there, or in a set that every service that asked for
pushes accounts for. -/
def Accounted : Prop := ∀ nm serial, (nm, serial) ∈ s.puts →
  (serial = s.deltaId ∧ nm ∈ s.deltaSet) ∨
  ∃ d ∈ s.issued, d.serial = serial ∧ nm ∈ d.files ∧
    ∀ n, (s.clients n).asked ≠ none → (s.clients n).Accounts d

def Quiet : Prop := ∀ n, (s.clients n).registered → (s.clients n).pushDeltasLock = none ∧
  (s.clients n).wire = []

def Current : Prop := s.Quiet → ∀ d ∈ s.issued, (∀ d' ∈ s.issued, d'.serial ≤ d.serial) →
  ∀ n serial, (s.clients n).registered → (s.clients n).asked = some serial → serial ≤ d.serial →
    (s.clients n).Has d

/-- It is there where it was neither dropped at the lock nor failed. -/
def CurrentUnlessLost : Prop := s.Quiet → ∀ d ∈ s.issued,
  (∀ d' ∈ s.issued, d'.serial ≤ d.serial) → ∀ n serial, (s.clients n).registered →
    (s.clients n).asked = some serial → serial ≤ d.serial →
      (s.clients n).Has d ∨ d.serial ∈ (s.clients n).dropped ∨ d.serial ∈ (s.clients n).failed

structure Inv : Prop where
  serials : ∀ d ∈ s.issued, d.serial < s.deltaId
  unique : ∀ d ∈ s.issued, ∀ d' ∈ s.issued, d.serial = d'.serial → d = d'
  puts : ∀ nm serial, (nm, serial) ∈ s.puts → (serial = s.deltaId ∧ nm ∈ s.deltaSet) ∨
    ∃ d ∈ s.issued, d.serial = serial ∧ nm ∈ d.files
  clients : ∀ n, (s.clients n).Inv s.issued s.deltaId

end DeltaPush

namespace DeltaClient

variable {c : DeltaClient} {issued : List Deltas} {next : Int} {d : Deltas}

theorem Inv.register (issued : List Deltas) (next : Int) :
    Inv { registered := true } issued next := by
  constructor
  · simp [Has]
  · simp
  · simp [Has]
  · simp
  · simp [Accounts]
  · simp
  · simp

theorem Inv.getPushes (h : c.Inv issued next) (hlt : ∀ d ∈ issued, d.serial < next) :
    Inv { c with asked := some (c.asked.getD next) } issued next := by
  constructor
  · exact h.known
  · exact h.ordered
  · exact h.before
  · exact h.met
  · exact h.accounts
  · exact h.locked
  · intro d hd hreg k hk hle
    cases hasked : c.asked with
    | none =>
      -- what has been issued has a smaller serial
      have := hlt d hd
      grind
    | some k' =>
      have hkept := h.kept d hd hreg k' hasked (by grind)
      exact hkept

theorem Inv.pushDeltas (h : c.Inv issued next) (hlt : ∀ d ∈ issued, d.serial < next)
    (hd : d.serial = next) : (c.pushDeltas d).Inv (d :: issued) (next + 1) := by
  -- nothing that has come has a higher serial
  have hnone : c.received.find? (fun r => d.serial < r.1.serial) = none := by
    rw [List.find?_eq_none]
    intro r hr
    have := hlt r.1 (h.known r.1 (.inl (List.mem_map_of_mem hr)))
    grind
  unfold DeltaClient.pushDeltas
  split
  · next hasked =>
    constructor
    · intro d' hd'
      exact List.mem_cons_of_mem _ (h.known d' hd')
    · exact h.ordered
    · exact h.before
    · exact h.met
    · have := h.accounts
      unfold Accounts at *
      grind
    · exact h.locked
    · have := h.kept
      grind
  · split
    · constructor
      · intro d' hd'
        exact List.mem_cons_of_mem _ (h.known d' hd')
      · exact h.ordered
      · exact h.before
      · exact h.met
      · have := h.accounts
        unfold Accounts at *
        grind
      · exact h.locked
      · have := h.kept
        unfold Has at *
        grind
    · constructor
      · have := h.known
        unfold Has at *
        grind
      · rw [List.pairwise_append]
        refine ⟨h.ordered, List.pairwise_singleton _ _, ?_⟩
        have := h.known
        grind
      · have := h.before
        have := h.known
        unfold Has at *
        grind
      · exact h.met
      · have := h.accounts
        unfold Accounts at *
        grind
      · have := h.locked
        grind
      · have := h.kept
        unfold Has at *
        grind

theorem Inv.successor {d' : Deltas} (h : c.Inv issued next)
    (huniq : ∀ d ∈ issued, ∀ d' ∈ issued, d.serial = d'.serial → d = d') (hd' : d' ∈ issued)
    (hnone : c.received.find? (fun r => d'.serial < r.1.serial) = none)
    (hlt : d'.serial < d.serial) (hpos : 0 ≤ c.deltaId) (hsucc : d.serial = c.deltaId + 1) :
    c.Has d' := by
  rw [List.find?_eq_none] at hnone
  have hmet : c.deltaId ∈ (c.received.map Prod.fst).map Deltas.serial :=
    h.met.resolve_left (by omega)
  obtain ⟨x, hx, hserial⟩ := List.mem_map.mp hmet
  obtain ⟨r, hr, rfl⟩ := List.mem_map.mp hx
  have hle := hnone r hr
  have heq : d'.serial = r.1.serial := by grind
  rw [huniq d' hd' r.1 (h.known r.1 (.inl hx)) heq]
  exact hx

theorem Inv.deliver {rest : List Deltas} (h : c.Inv issued next)
    (huniq : ∀ d ∈ issued, ∀ d' ∈ issued, d.serial = d'.serial → d = d')
    (hwire : c.wire = d :: rest) :
    Inv { c.handleNewDeltas d with wire := rest } issued next := by
  have hord := h.ordered
  have hbefore := h.before
  have hknown := h.known
  rw [hwire] at hord hbefore hknown
  rw [List.pairwise_cons] at hord
  have hhas : ∀ d', Has { c.handleNewDeltas d with wire := rest } d' ↔ c.Has d' ∨ d' = d := by
    simp [Has, DeltaClient.handleNewDeltas]
  constructor
  · grind
  · exact hord.2
  · grind
  · have := h.met
    grind [DeltaClient.handleNewDeltas]
  · intro d' hd'
    by_cases hc : c.Has d' ∨ d' = d
    · exact .inl ((hhas d').mpr hc)
    · obtain hc' | hw | hgap := h.accounts d' hd'
      · exact absurd (.inl hc') hc
      · rw [hwire] at hw
        exact .inr (.inl (by grind))
      · right; right
        intro r before hr hpos
        change (c.received ++ [(d, c.deltaId)]).find? _ = _ at hr
        rw [List.find?_append] at hr
        cases hfind : c.received.find? (fun r => d'.serial < r.1.serial) with
        | some r' => exact hgap r before (by grind) hpos
        | none =>
          rw [hfind, Option.none_or, List.find?_singleton] at hr
          split at hr
          · next hlt =>
            cases hr
            intro hsucc
            exact hc (.inl (h.successor huniq hd' hfind (of_decide_eq_true hlt) hpos hsucc))
          · cases hr
  · have := h.locked
    grind [DeltaClient.handleNewDeltas]
  · intro d' hd' hreg k hk hle
    have := h.kept d' hd' hreg k hk hle
    grind [DeltaClient.handleNewDeltas]

theorem Inv.complete (h : c.Inv issued next) (hwire : c.wire = []) :
    Inv { c with pushDeltasLock := none } issued next := by
  constructor
  · exact h.known
  · exact h.ordered
  · exact h.before
  · exact h.met
  · exact h.accounts
  · rw [hwire]
    nofun
  · exact h.kept

theorem Inv.lose (h : c.Inv issued next) : ∀ d ∈ issued, Accounts { c with wire := [] } d := by
  intro d hd
  obtain hhas | hw | hgap := h.accounts d hd
  · exact .inl hhas
  · right; right
    intro r before hr
    have hmem := List.mem_of_find?_eq_some hr
    have hlt := List.find?_some hr
    have := h.before r d (List.mem_map_of_mem hmem) hw
    grind
  · exact .inr (.inr hgap)

theorem Inv.fail {serial : Int} (lost : Bool) (h : c.Inv issued next)
    (hlock : c.pushDeltasLock = some serial) :
    Inv { c with
      pushDeltasLock := none
      wire := if lost then [] else c.wire
      failed := serial :: c.failed } issued next := by
  have hlocked := h.locked
  constructor
  · have := h.known
    grind [Has]
  · cases lost with
    | true => exact List.Pairwise.nil
    | false => exact h.ordered
  · have := h.before
    grind [Has]
  · exact h.met
  · cases lost with
    | true => exact h.lose
    | false => exact h.accounts
  · grind
  · intro d hd hreg k hk hle
    have := h.kept d hd hreg k hk hle
    grind [Has]

theorem Inv.eof (h : c.Inv issued next) :
    Inv { c with registered := false, wire := [] } issued next := by
  constructor
  · intro d hd
    exact h.known d (.inl (hd.resolve_right nofun))
  · exact List.Pairwise.nil
  · nofun
  · exact h.met
  · exact h.lose
  · nofun
  · nofun

end DeltaClient

namespace DeltaPush

variable {s t : DeltaPush} {n : Nat} {c : DeltaClient}

theorem Inv.update (h : s.Inv) (hc : c.Inv s.issued s.deltaId) : (s.update n c).Inv := by
  constructor
  · exact h.serials
  · exact h.unique
  · exact h.puts
  · intro m
    change DeltaClient.Inv (if m = n then c else s.clients m) _ _
    split
    · exact hc
    · exact h.clients m

theorem Inv.addDelta (nm : Str) (h : s.Inv) : (s.addDelta nm).Inv := by
  constructor
  · exact h.serials
  · exact h.unique
  · intro nm' serial hmem
    have hputs := h.puts nm' serial
    change (serial = s.deltaId ∧ nm' ∈ s.deltaSet.insert nm) ∨ _
    obtain heq | hmem := List.mem_cons.mp hmem
    · cases heq
      exact .inl ⟨rfl, List.mem_insert_self⟩
    · obtain ⟨hserial, hin⟩ | hissued := hputs hmem
      · exact .inl ⟨hserial, List.mem_insert_of_mem hin⟩
      · exact .inr hissued
  · exact h.clients

theorem Inv.refreshDeltaSet (h : s.Inv) : s.refreshDeltaSet.Inv := by
  unfold DeltaPush.refreshDeltaSet
  split
  · exact h
  · have hserials := h.serials
    have hunique := h.unique
    constructor
    · grind
    · grind
    · intro nm serial hmem
      obtain ⟨hserial, hin⟩ | ⟨d, hd, hissued⟩ := h.puts nm serial hmem
      · exact .inr ⟨_, List.mem_cons_self, hserial.symm, hin⟩
      · exact .inr ⟨d, List.mem_cons_of_mem _ hd, hissued⟩
    · intro n
      exact (h.clients n).pushDeltas hserials rfl

theorem Inv.step {e : Event} (h : s.Inv) (hs : s.step e = some t) : t.Inv := by
  cases e with
  | register n =>
    rw [DeltaPush.step] at hs
    split at hs
    · cases hs
    · cases hs
      exact h.update (.register _ _)
  | getPushes n =>
    rw [DeltaPush.step] at hs
    split at hs
    · cases hs
      exact h.update ((h.clients n).getPushes h.serials)
    · cases hs
  | addDelta nm =>
    cases hs
    exact h.addDelta nm
  | refresh =>
    cases hs
    exact h.refreshDeltaSet
  | deliver n =>
    rw [DeltaPush.step] at hs
    split at hs
    · cases hs
    · next d rest hwire =>
      cases hs
      exact h.update ((h.clients n).deliver h.unique hwire)
  | complete n =>
    rw [DeltaPush.step] at hs
    split at hs
    · next hcond =>
      cases hs
      exact h.update ((h.clients n).complete hcond.2)
    · cases hs
  | fail n lost =>
    rw [DeltaPush.step] at hs
    split at hs
    · cases hs
    · next serial hlock =>
      cases hs
      exact h.update ((h.clients n).fail lost hlock)
  | eof n =>
    cases hs
    exact h.update (h.clients n).eof

theorem Inv.reach (h : system.Reachable s) : s.Inv := by
  refine Lib.System.Reach.invariant (I := Inv) ?_ (fun s e t _ hi _ hs => hi.step hs) h
  rintro s rfl
  exact ⟨nofun, nofun, nofun, fun _ => by constructor <;> simp [DeltaClient.Has]⟩

/-- Nothing that was put into the delta set is lost without a gap, and where no push is
outstanding, a service that asked for it lacks the last set only if an earlier push was in flight
when it was issued, or the push of it has failed. -/
theorem deltas_accounted (h : system.Reachable s) : s.Accounted ∧ s.CurrentUnlessLost := by
  have hinv := Inv.reach h
  constructor
  · intro nm serial hmem
    obtain hin | ⟨d, hd, hserial, hfile⟩ := hinv.puts nm serial hmem
    · exact .inl hin
    · exact .inr ⟨d, hd, hserial, hfile, fun n _ => (hinv.clients n).accounts d hd⟩
  · intro hquiet d hd _ n serial hreg hasked hle
    have hkept := (hinv.clients n).kept d hd hreg serial hasked hle
    rw [(hquiet n hreg).2] at hkept
    simpa using hkept

def file : Str := ascii ['/', 'a']

/-- A change is put into the set, pushed and received. -/
theorem deltas_accounted_one : ∃ s : DeltaPush, (s.Accounted ∧ s.CurrentUnlessLost) ∧
    (s.clients 0).received = [(⟨0, [file]⟩, -1)] ∧ (s.clients 0).pushDeltasLock = none := by
  have hreach := Lib.System.reachable_exec (M := system) [.register 0, .getPushes 0,
    .addDelta file, .refresh, .deliver 0, .complete 0] rfl rfl
  exact ⟨_, deltas_accounted hreach, rfl, rfl⟩

/-- The second set is issued while the first is in flight. -/
theorem last_dropped :
    ¬ ∀ s : DeltaPush, system.Reachable s → s.Accounted ∧ s.Current := by
  intro h
  have hcurrent := (h _ (Lib.System.reachable_exec (M := system) [.register 0, .getPushes 0,
    .addDelta file, .refresh, .addDelta file, .refresh, .deliver 0, .complete 0] rfl rfl)).2
  have hhas := hcurrent ?_ ⟨1, [file]⟩ List.mem_cons_self (by decide) 0 0 rfl rfl (by decide)
  · have hnot : (⟨1, [file]⟩ : Deltas) ∉ [⟨0, [file]⟩] := by decide
    exact hnot hhas
  · intro n hreg
    cases n with
    | zero => exact ⟨rfl, rfl⟩
    | succ n =>
      cases hreg

end DeltaPush

end Okws
