import Mathlib.Data.List.Perm.Basic
import Mathlib.Data.List.Sublists
import Mathlib.Logic.Function.Basic
import Okws.Byte
import Okws.Lib.Transition

/-! The access logs: `fast_log_t` in the services, and `oklogd`, which writes the files. -/

namespace Okws.Oklog

open Lib

/-- `oklog_file_t`. -/
inductive LogFile
  | none | access | error | ssl
  deriving DecidableEq

/-- `oklog_entry_t`. -/
structure Entry where
  file : LogFile
  data : Str
  deriving DecidableEq

structure Config where
  hiWat : Nat
  period : Nat
  hiWat_pos : 0 < hiWat
  period_pos : 0 < period

/-- The members of `fast_log_t`; an `oklog_arg_t` is a place in `args`.  `calls` are those of the
`flush`es that wait for their reply, and `waiting` is the one that `flush_loop` waits for. -/
structure FastLog where
  args : List (List Entry) := []
  curr : Option Nat := none
  spares : List Nat := []
  calls : List Nat := []
  connected : Bool := false
  count : Nat := 0
  waiting : Option Nat := none

/-- What a `flush` has to do with the entries: nothing, or they are on the way, or the helper does
not take the call. -/
inductive Flushed
  | idle
  | sent (es : List Entry)
  | refused (es : List Entry)

namespace FastLog

variable (cfg : Config) (s : FastLog)

def entries (k : Nat) : List Entry := (s.args[k]?).getD []

/-- The entries in `_curr`. -/
def buffer : List Entry := match s.curr with
  | some k => s.entries k
  | none => []

def getArg : Nat × FastLog := match s.curr with
  | some k => (k, s)
  | none => match s.spares.getLast? with
    | some k => (k, { s with spares := s.spares.dropLast, curr := some k })
    | none => (s.args.length, { s with args := s.args ++ [[]], curr := some s.args.length })

/-- What `flush` does behind the call, whatever came of it. -/
def recycle (k : Nat) : FastLog := { s with args := s.args.set k [], spares := s.spares ++ [k] }

/-- `ok` says whether the helper takes the call; the entries are encoded with it. -/
def flush (ok : Bool) : Flushed × FastLog := match s.curr with
  | none => (.idle, s)
  | some k =>
    if s.entries k = [] then (.idle, s)
    else if ok then (.sent (s.entries k), { s with curr := none, calls := s.calls ++ [k] })
    else (.refused (s.entries k), { s with curr := none }.recycle k)

def pastHighWater : Bool := cfg.hiWat ≤ s.buffer.length

def maybeFlush (ok : Bool) : Flushed × FastLog :=
  if s.pastHighWater cfg then s.flush ok else (.idle, s)

def addEntry (e : Entry) (ok : Bool) : Flushed × FastLog :=
  let (k, s) := s.getArg
  { s with args := s.args.set k (s.entries k ++ [e]) }.maybeFlush cfg ok

/-- A round of `flush_loop`, which does not begin another while it waits. -/
def tick (ok : Bool) : Option (Flushed × FastLog) :=
  if s.waiting.isSome then none
  else
    let s := { s with count := (s.count + 1) % cfg.period }
    if s.connected ∧ s.count = 0 then
      let (r, s') := s.flush ok
      some (r, match r with
        | .sent _ => { s' with waiting := s.curr }
        | _ => s')
    else some (.idle, s)

def answer (k : Nat) : Option FastLog :=
  if k ∈ s.calls then some ({ s with
    calls := s.calls.erase k
    waiting := if s.waiting = some k then none else s.waiting }.recycle k)
  else none

end FastLog

universe u

variable {ι : Type u} [DecidableEq ι]

/-- A line of a log; `fd` is the open file that it went to. -/
structure Line (ι : Type u) where
  svc : ι
  file : LogFile
  fd : Nat
  data : Str

/-- `logd_t`; the files are counted in the order in which they are opened.  `handled` are the
entries that `log` has been called with, and `failed` counts the writes that went wrong. -/
structure Logd (ι : Type u) where
  access : Nat := 0
  error : Nat := 1
  ssl : Nat := 2
  opened : List Nat := [0, 1, 2]
  next : Nat := 3
  lines : List (Line ι) := []
  handled : List (ι × Entry) := []
  failed : ι → Nat := fun _ => 0

namespace Logd

variable (d : Logd ι)

/-- The file in the `switch` of `log`. -/
def fd : LogFile → Option Nat
  | .access => some d.access
  | .error => some d.error
  | .ssl => some d.ssl
  | .none => none

/-- `logfile_t::open`. -/
def openFile (ok : Bool) : Option Nat × Logd ι :=
  if ok then (some d.next, { d with opened := d.opened ++ [d.next], next := d.next + 1 })
  else (none, d)

def close (fd : Nat) : Logd ι := { d with opened := d.opened.erase fd }

/-- `turn`: the new files, or the old ones if one of the new cannot be opened. -/
def turn (ok₁ ok₂ ok₃ : Bool) : Logd ι :=
  match d.openFile ok₁ with
  | (none, d) => d
  | (some access2, d) => match d.openFile ok₂ with
    | (none, d) => d.close access2
    | (some error2, d) => match d.openFile ok₃ with
      | (none, d) => (d.close access2).close error2
      | (some ssl2, d) => { ((d.close d.access).close d.error).close d.ssl with
          access := access2
          error := error2
          ssl := ssl2 }

/-- `log` with one entry; `ok` says whether the line is written. -/
def log (i : ι) (ok : Bool) (e : Entry) : Logd ι :=
  let d := { d with handled := d.handled ++ [(i, e)] }
  match d.fd e.file with
  | none => d
  | some fd =>
    if e.data = [] then d
    else if ok then { d with lines := d.lines ++ [⟨i, e.file, fd, e.data⟩] }
    else { d with failed := Function.update d.failed i (d.failed i + 1) }

/-- `log` with the entries of a call. -/
def logAll (i : ι) : (Nat → Bool) → List Entry → Logd ι → Logd ι
  | _, [], d => d
  | ok, e :: es, d => logAll i (fun n => ok (n + 1)) es (d.log i (ok 0) e)

end Logd

/-- A service: its log, the calls on their way to `oklogd`, all entries that it has logged, and how
many of them have been lost. -/
structure Client where
  log : FastLog := {}
  wire : List (List Entry) := []
  added : List Entry := []
  lost : Nat := 0

namespace Client

def flushed (c : Client) : Flushed × FastLog → Client
  | (.idle, s) => { c with log := s }
  | (.sent es, s) => { c with log := s, wire := c.wire ++ [es] }
  | (.refused es, s) => { c with log := s, lost := c.lost + es.length }

def pending (c : Client) : List Entry := c.wire.flatten ++ c.log.buffer

end Client

structure Net (ι : Type u) where
  clients : ι → Client := fun _ => {}
  logd : Logd ι := {}

/-- `hangup` is the end of a connection, with what is on it. -/
inductive Event (ι : Type u)
  | log (i : ι) (e : Entry) (ok : Bool)
  | tick (i : ι) (ok : Bool)
  | connected (i : ι) (ok : Bool)
  | deliver (i : ι) (ok : Nat → Bool)
  | answer (i : ι) (k : Nat)
  | hangup (i : ι)
  | turn (ok₁ ok₂ ok₃ : Bool)

namespace Net

variable (cfg : Config)

def set (w : Net ι) (i : ι) (c : Client) : Net ι :=
  { w with clients := Function.update w.clients i c }

def step (w : Net ι) : Event ι → Option (Net ι)
  | .log i e ok =>
    let c := w.clients i
    some (w.set i ({ c with added := c.added ++ [e] }.flushed (c.log.addEntry cfg e ok)))
  | .tick i ok =>
    ((w.clients i).log.tick cfg ok).map fun r => w.set i ((w.clients i).flushed r)
  | .connected i ok =>
    let c := w.clients i
    some (w.set i { c with log := { c.log with connected := ok } })
  | .deliver i ok => match (w.clients i).wire with
    | [] => none
    | es :: wire => some { w.set i { w.clients i with wire := wire } with
        logd := w.logd.logAll i ok es }
  | .answer i k =>
    ((w.clients i).log.answer k).map fun s => w.set i { w.clients i with log := s }
  | .hangup i =>
    let c := w.clients i
    some (w.set i { c with wire := [], lost := c.lost + c.wire.flatten.length })
  | .turn ok₁ ok₂ ok₃ => some { w with logd := w.logd.turn ok₁ ok₂ ok₃ }

def system : System (Net ι) (Event ι) where
  init w := w = {}
  step := step cfg

end Net

section Buffers

variable {cfg : Config} {s s' : FastLog} {r : Flushed} {es : List Entry} {k j : Nat}

/-- What a `flush` makes of the entries `es` in the buffer. -/
def Flushed.Takes (es : List Entry) : Flushed → List Entry → Prop
  | .idle, es' => es' = es
  | .sent fs, es' | .refused fs, es' => fs = es ∧ es' = []

namespace FastLog

/-- Each `oklog_arg_t` is `_curr`, a spare one, which is empty, or in a call. -/
structure Owned (s : FastLog) : Prop where
  perm : (s.curr.toList ++ s.spares ++ s.calls).Perm (List.range s.args.length)
  empty : ∀ k ∈ s.spares, s.entries k = []
  waiting : ∀ k, s.waiting = some k → k ∈ s.calls

theorem Owned.count (h : s.Owned) (k : Nat) :
    s.curr.toList.count k + s.spares.count k + s.calls.count k =
      (List.range s.args.length).count k := by
  rw [← List.count_append, ← List.count_append]
  exact h.perm.count_eq k

theorem Owned.lt (h : s.Owned) (hk : k ∈ s.curr.toList ++ s.spares ++ s.calls) :
    k < s.args.length := List.mem_range.1 (h.perm.mem_iff.1 hk)

theorem entries_set (hk : k < s.args.length) :
    ({ s with args := s.args.set k es } : FastLog).entries j = if j = k then es else s.entries j := by
  unfold entries
  by_cases h : j = k
  · simp [h, hk]
  · simp [h, List.getElem?_set_ne (Ne.symm h)]

theorem Owned.getArg (h : s.Owned) :
    s.getArg.2.Owned ∧ s.getArg.2.curr = some s.getArg.1 ∧
      s.getArg.2.entries s.getArg.1 = s.buffer := by
  unfold FastLog.getArg buffer
  cases hc : s.curr with
  | some k => exact ⟨h, hc, rfl⟩
  | none =>
    have hcount := h.count
    simp only [hc, Option.toList_none, List.count_nil, Nat.zero_add] at hcount
    cases hl : s.spares.getLast? with
    | some k =>
      obtain ⟨l, hl⟩ := List.getLast?_eq_some_iff.1 hl
      have hdrop : s.spares.dropLast = l := by rw [hl, List.dropLast_concat]
      refine ⟨⟨List.perm_iff_count.2 fun j => ?_, fun j hj => ?_, h.waiting⟩, rfl,
        h.empty k (by rw [hl]; simp)⟩
      · have hj := hcount j
        rw [hl, List.count_append] at hj
        simp only [hdrop, Option.toList_some, List.count_append]
        omega
      · exact h.empty j (by rw [hl]; exact List.mem_append_left _ (hdrop ▸ hj))
    | none =>
      have hnil : s.spares = [] := List.getLast?_eq_none_iff.1 hl
      refine ⟨⟨List.perm_iff_count.2 fun j => ?_, fun j hj => ?_, h.waiting⟩, rfl, by
        simp [entries]⟩
      · have hj := hcount j
        simp only [hnil, List.count_nil, Nat.zero_add] at hj
        simp only [hnil, Option.toList_some, List.count_append, List.length_append,
          List.length_singleton, List.range_succ, List.append_nil]
        omega
      · rw [hnil] at hj
        cases hj

theorem Owned.put (h : s.Owned) (hc : s.curr = some k) (es : List Entry) :
    ({ s with args := s.args.set k es } : FastLog).Owned where
  perm := by simpa using h.perm
  empty j hj := by
    have hk : k < s.args.length := h.lt (by simp [hc])
    have hne : j ≠ k := by
      rintro rfl
      have hcount := h.count j
      have hone := List.nodup_iff_count_le_one.1 (List.nodup_range (n := s.args.length)) j
      have hpos := List.count_pos_iff.2 (show j ∈ s.spares from hj)
      rw [hc, Option.toList_some, List.count_singleton_self] at hcount
      omega
    rw [entries_set hk, if_neg hne]
    exact h.empty j hj
  waiting := h.waiting

theorem Owned.recycle (hk : k < s.args.length)
    (hperm : (s.curr.toList ++ (s.spares ++ [k]) ++ s.calls).Perm (List.range s.args.length))
    (hempty : ∀ j ∈ s.spares, s.entries j = []) (hwait : ∀ j, s.waiting = some j → j ∈ s.calls) :
    (s.recycle k).Owned where
  perm := by simpa [FastLog.recycle] using hperm
  empty j hj := by
    have hset : (s.recycle k).entries j = if j = k then [] else s.entries j := entries_set hk
    rw [hset]
    split
    · rfl
    · next hne =>
      obtain hj | hj := List.mem_append.1 hj
      · exact hempty j hj
      · exact absurd (List.mem_singleton.1 hj) hne
  waiting := hwait

theorem Owned.flush (h : s.Owned) (ok : Bool) : (s.flush ok).2.Owned ∧
    (s.flush ok).1.Takes s.buffer (s.flush ok).2.buffer ∧
    (s.flush ok).2.waiting = s.waiting ∧
    ∀ es, (s.flush ok).1 = .sent es → ∀ k, s.curr = some k → k ∈ (s.flush ok).2.calls := by
  unfold FastLog.flush buffer
  cases hc : s.curr with
  | none => exact ⟨h, by simp [Flushed.Takes, hc], rfl, nofun⟩
  | some k =>
    have hk : k < s.args.length := h.lt (by simp [hc])
    have hcount := h.count
    simp only [hc, Option.toList_some] at hcount
    dsimp only
    split_ifs with hnil hok
    · exact ⟨h, by simp [Flushed.Takes, hc, hnil], rfl, nofun⟩
    · refine ⟨⟨List.perm_iff_count.2 fun j => ?_, h.empty,
        fun j hj => List.mem_append_left _ (h.waiting j hj)⟩, ⟨rfl, rfl⟩, rfl, fun _ _ j hj => ?_⟩
      · have hj := hcount j
        simp only [Option.toList_none, List.nil_append, List.count_append]
        omega
      · cases hj
        simp
    · refine ⟨.recycle hk (List.perm_iff_count.2 fun j => ?_) h.empty h.waiting, ⟨rfl, rfl⟩, rfl,
        nofun⟩
      have hj := hcount j
      simp only [Option.toList_none, List.nil_append, List.count_append]
      omega

theorem flush_buffer (hne : s.buffer ≠ []) {ok : Bool} : (s.flush ok).2.buffer = [] := by
  unfold buffer at hne
  unfold FastLog.flush
  cases hc : s.curr with
  | none => exact absurd (by rw [hc]) hne
  | some k =>
    rw [hc] at hne
    dsimp only
    rw [if_neg hne]
    split <;> rfl

variable (cfg) in
theorem Owned.addEntry (h : s.Owned) (e : Entry) (ok : Bool) :
    (s.addEntry cfg e ok).2.Owned ∧
    (s.addEntry cfg e ok).1.Takes (s.buffer ++ [e]) (s.addEntry cfg e ok).2.buffer ∧
    (s.addEntry cfg e ok).2.buffer.length < cfg.hiWat := by
  obtain ⟨hown, hcurr, hbuf⟩ := h.getArg
  unfold FastLog.addEntry
  generalize s.getArg = g at hown hcurr hbuf ⊢
  obtain ⟨k, t⟩ := g
  dsimp only at hown hcurr hbuf ⊢
  have hk : k < t.args.length := hown.lt (by simp [hcurr])
  have hput := hown.put hcurr (t.entries k ++ [e])
  have hbuf' : ({ t with args := t.args.set k (t.entries k ++ [e]) } : FastLog).buffer =
      s.buffer ++ [e] := by
    rw [buffer, hcurr]
    exact (entries_set hk).trans (by rw [if_pos rfl, hbuf])
  obtain ⟨hown', htakes, -, -⟩ := hput.flush ok
  rw [hbuf'] at htakes
  unfold maybeFlush pastHighWater
  rw [hbuf']
  split_ifs with hhigh
  · refine ⟨hown', htakes, ?_⟩
    rw [flush_buffer (by rw [hbuf']; simp)]
    exact cfg.hiWat_pos
  · exact ⟨hput, hbuf', by rw [hbuf']; simpa using hhigh⟩

theorem Owned.tick (h : s.Owned) {ok : Bool} (ht : s.tick cfg ok = some (r, s')) :
    s'.Owned ∧ r.Takes s.buffer s'.buffer := by
  unfold FastLog.tick at ht
  split at ht
  · cases ht
  · dsimp only at ht
    generalize hn : (s.count + 1) % cfg.period = n at ht
    have hcount : ({ s with count := n } : FastLog).Owned := ⟨h.perm, h.empty, h.waiting⟩
    obtain ⟨hown, htakes, hwait, hsent⟩ := hcount.flush ok
    split at ht
    · cases ht
      refine ⟨?_, ?_⟩
      · split
        · next es hr =>
          exact ⟨hown.perm, hown.empty, fun k hk => hsent es hr k hk⟩
        · exact hown
      · have hbuf : ∀ t : FastLog, (match (FastLog.flush { s with count := n } ok).1 with
            | .sent _ => { t with waiting := s.curr }
            | _ => t).buffer = t.buffer := by
          intro t
          split <;> rfl
        rw [hbuf]
        exact htakes
    · cases ht
      exact ⟨hcount, rfl⟩

theorem Owned.answer (h : s.Owned) (ha : s.answer k = some s') :
    s'.Owned ∧ s'.buffer = s.buffer := by
  unfold FastLog.answer at ha
  split at ha
  · next hk =>
    cases ha
    have hlt : k < s.args.length := h.lt (by simp [hk])
    have hcount := h.count
    refine ⟨.recycle hlt (List.perm_iff_count.2 fun j => ?_) h.empty fun j hj => ?_, ?_⟩
    · have hj := hcount j
      have hpos := List.count_pos_iff.2 hk
      rw [← hj]
      simp only [List.count_append, List.count_erase, List.count_singleton]
      by_cases hjk : k = j
      · subst hjk
        simp only [beq_self_eq_true, if_true]
        omega
      · simp only [beq_eq_false_iff_ne.2 hjk, Bool.false_eq_true, if_false]
        omega
    · dsimp only at hj
      split at hj
      · cases hj
      · next hne =>
        have hjk : j ≠ k := fun he => hne (he ▸ hj)
        exact (List.mem_erase_of_ne hjk).2 (h.waiting j hj)
    · unfold buffer
      cases hc : s.curr with
      | none => rfl
      | some c =>
        have hne : c ≠ k := by
          rintro rfl
          have hone := List.nodup_iff_count_le_one.1 (List.nodup_range (n := s.args.length)) c
          have hpos := List.count_pos_iff.2 hk
          have hcc := hcount c
          rw [hc, Option.toList_some, List.count_singleton_self] at hcc
          omega
        simp only [FastLog.recycle]
        exact (entries_set hlt).trans (if_neg hne)
  · cases ha

end FastLog

end Buffers

section Clients

variable {cfg : Config} {c : Client} {r : Flushed × FastLog} {es hs : List Entry}

namespace Client

/-- `hs` are the entries of the service that `oklogd` has been given. -/
structure Inv (cfg : Config) (c : Client) (hs : List Entry) : Prop where
  owned : c.log.Owned
  small : c.log.buffer.length < cfg.hiWat
  order : (hs ++ c.pending).Sublist c.added
  total : (hs ++ c.pending).length + c.lost = c.added.length

theorem flushed_log : (c.flushed r).log = r.2 := by
  obtain ⟨_ | _ | _, s⟩ := r <;> rfl

theorem flushed_added : (c.flushed r).added = c.added := by
  obtain ⟨_ | _ | _, s⟩ := r <;> rfl

theorem flushed_order (ht : r.1.Takes es r.2.buffer) :
    (c.flushed r).pending.Sublist (c.wire.flatten ++ es) := by
  obtain ⟨r, s⟩ := r
  cases r with
  | idle =>
    rw [← show s.buffer = es from ht]
    exact .refl _
  | sent fs =>
    obtain ⟨rfl, hnil⟩ := ht
    simp only [flushed, pending, show s.buffer = [] from hnil, List.append_nil,
      List.flatten_append, List.flatten_singleton]
    exact .refl _
  | refused fs =>
    obtain ⟨rfl, hnil⟩ := ht
    simp only [flushed, pending, show s.buffer = [] from hnil, List.append_nil]
    exact List.sublist_append_left _ _

theorem flushed_total (ht : r.1.Takes es r.2.buffer) :
    (c.flushed r).pending.length + (c.flushed r).lost =
      (c.wire.flatten ++ es).length + c.lost := by
  obtain ⟨r, s⟩ := r
  cases r with
  | idle =>
    rw [← show s.buffer = es from ht]
    rfl
  | sent fs =>
    obtain ⟨rfl, hnil⟩ := ht
    simp only [flushed, pending, show s.buffer = [] from hnil, List.append_nil,
      List.flatten_append, List.flatten_singleton]
  | refused fs =>
    obtain ⟨rfl, hnil⟩ := ht
    simp only [flushed, pending, show s.buffer = [] from hnil, List.append_nil,
      List.length_append]
    omega

theorem Inv.init : ({} : Client).Inv cfg [] where
  owned := ⟨.refl _, nofun, nofun⟩
  small := cfg.hiWat_pos
  order := .refl _
  total := rfl

theorem Inv.addEntry (h : c.Inv cfg hs) (e : Entry) (ok : Bool) :
    ({ c with added := c.added ++ [e] }.flushed (c.log.addEntry cfg e ok)).Inv cfg hs := by
  obtain ⟨hown, htakes, hsmall⟩ := h.owned.addEntry cfg e ok
  have horder := flushed_order (c := { c with added := c.added ++ [e] }) htakes
  have htotal := flushed_total (c := { c with added := c.added ++ [e] }) htakes
  refine ⟨flushed_log ▸ hown, flushed_log ▸ hsmall, ?_, ?_⟩
  · rw [flushed_added]
    refine (horder.append_left hs).trans ?_
    rw [← List.append_assoc, ← List.append_assoc, List.append_assoc hs]
    exact h.order.append_right [e]
  · have hc := h.total
    rw [flushed_added]
    simp only [pending, List.length_append, List.length_singleton] at hc htotal ⊢
    omega

theorem Inv.tick (h : c.Inv cfg hs) {ok : Bool} (ht : c.log.tick cfg ok = some r) :
    (c.flushed r).Inv cfg hs := by
  obtain ⟨hown, htakes⟩ := h.owned.tick ht
  have horder := flushed_order (c := c) htakes
  have htotal := flushed_total (c := c) htakes
  have hle : r.2.buffer.length ≤ c.log.buffer.length := by
    rcases hr : r.1 with _ | fs | fs <;> rw [hr] at htakes
    · exact (congrArg List.length htakes).le
    · simp [htakes.2]
    · simp [htakes.2]
  refine ⟨flushed_log ▸ hown, flushed_log ▸ hle.trans_lt h.small, ?_, ?_⟩
  · rw [flushed_added]
    exact (horder.append_left hs).trans h.order
  · have hc := h.total
    rw [flushed_added]
    simp only [pending, List.length_append] at hc htotal ⊢
    omega

theorem Inv.hangup (h : c.Inv cfg hs) :
    ({ c with wire := [], lost := c.lost + c.wire.flatten.length } : Client).Inv cfg hs where
  owned := h.owned
  small := h.small
  order := ((List.sublist_append_right _ _).append_left hs).trans h.order
  total := by
    have hc := h.total
    simp only [pending, List.flatten_nil, List.nil_append, List.length_append] at hc ⊢
    omega

theorem Inv.deliver (h : c.Inv cfg hs) {wire : List (List Entry)} (hw : c.wire = es :: wire) :
    ({ c with wire := wire } : Client).Inv cfg (hs ++ es) := by
  have hp : hs ++ es ++ ({ c with wire := wire } : Client).pending = hs ++ c.pending := by
    simp [pending, hw]
  exact ⟨h.owned, h.small, hp ▸ h.order, hp ▸ h.total⟩

end Client

end Clients

section Files

variable {d : Logd ι} {i j : ι} {e : Entry}

/-- `log` has a file for the entry, and `flush` something to write. -/
def Entry.loggable (e : Entry) : Bool := e.file ≠ .none ∧ e.data ≠ []

namespace Line

def entry (l : Line ι) : Entry := ⟨l.file, l.data⟩

end Line

namespace Logd

def handledOf (d : Logd ι) (i : ι) : List Entry :=
  (d.handled.filter fun h => h.1 = i).map Prod.snd

/-- The lines of service `i`. -/
def linesOf (d : Logd ι) (i : ι) : List Entry :=
  (d.lines.filter fun l => l.svc = i).map Line.entry

/-- Either a line is written or a failure counted, but for an entry without a file or without
data. -/
structure Wrote (d : Logd ι) : Prop where
  order : ∀ i, (d.linesOf i).Sublist ((d.handledOf i).filter Entry.loggable)
  total : ∀ i, (d.linesOf i).length + d.failed i = ((d.handledOf i).filter Entry.loggable).length

/-- The files that are open are those that `log` writes to.  Those of before a `turn` come before
those of after it. -/
structure Turned (d : Logd ι) : Prop where
  opened : d.opened.Perm [d.access, d.error, d.ssl]
  access_lt : d.access < d.error
  error_lt : d.error < d.ssl
  ssl_lt : d.ssl < d.next
  lines : ∀ l ∈ d.lines, d.fd l.file = some l.fd ∨ l.fd < d.access
  files : d.lines.Pairwise fun l l' =>
    (l.file = l'.file → l.fd ≤ l'.fd) ∧ (l.file ≠ l'.file → l.fd ≠ l'.fd)

theorem log_cases (d : Logd ι) (i : ι) (ok : Bool) (e : Entry) :
    (e.loggable = false ∧ d.log i ok e = { d with handled := d.handled ++ [(i, e)] }) ∨
    (e.loggable = true ∧ ∃ fd, d.fd e.file = some fd ∧ d.log i ok e = { d with
      handled := d.handled ++ [(i, e)]
      lines := d.lines ++ [⟨i, e.file, fd, e.data⟩] }) ∨
    (e.loggable = true ∧ d.log i ok e = { d with
      handled := d.handled ++ [(i, e)]
      failed := Function.update d.failed i (d.failed i + 1) }) := by
  have hfd : ({ d with handled := d.handled ++ [(i, e)] } : Logd ι).fd e.file = d.fd e.file := by
    cases e.file <;> rfl
  unfold log Entry.loggable
  dsimp only
  rw [hfd]
  cases hf : d.fd e.file with
  | none =>
    have hnone : e.file = .none := by
      cases he : e.file <;> rw [he] at hf <;> first | rfl | cases hf
    exact .inl ⟨by simp [hnone], rfl⟩
  | some fd =>
    have hsome : e.file ≠ .none := by
      intro he
      rw [he] at hf
      cases hf
    by_cases hd : e.data = []
    · exact .inl ⟨by simp [hd], by simp only [hd, if_true]⟩
    · cases ok with
      | true => exact .inr (.inl ⟨by simp [hd, hsome], fd, rfl, by simp only [if_neg hd, if_true]⟩)
      | false => exact .inr (.inr ⟨by simp [hd, hsome], by simp [hd]⟩)

theorem handledOf_log (d : Logd ι) (i j : ι) (e : Entry) (ok : Bool) :
    (d.log i ok e).handledOf j = d.handledOf j ++ if i = j then [e] else [] := by
  have hh : (d.log i ok e).handled = d.handled ++ [(i, e)] := by
    obtain ⟨-, he⟩ | ⟨-, fd, -, he⟩ | ⟨-, he⟩ := d.log_cases i ok e <;> rw [he]
  unfold handledOf
  rw [hh, List.filter_append, List.map_append, List.filter_singleton]
  by_cases hij : i = j <;> simp [hij]

theorem Wrote.log (h : d.Wrote) (ok : Bool) : (d.log i ok e).Wrote := by
  have hand := fun j => d.handledOf_log i j e ok
  obtain ⟨hl, he⟩ | ⟨hl, fd, -, he⟩ | ⟨hl, he⟩ := d.log_cases i ok e
  · have hsame : ∀ j, (if i = j then [e] else []).filter Entry.loggable = [] := by
      intro j
      split_ifs <;> simp [hl]
    refine ⟨fun j => ?_, fun j => ?_⟩ <;> rw [hand, List.filter_append, hsame, List.append_nil, he]
    · exact h.order j
    · exact h.total j
  · have hlines : ∀ j, (d.log i ok e).linesOf j = d.linesOf j ++ if i = j then [e] else [] := by
      intro j
      unfold linesOf
      rw [he, List.filter_append, List.map_append, List.filter_singleton]
      split_ifs <;> simp_all [Line.entry]
    have hkeep : ∀ j, (if i = j then [e] else []).filter Entry.loggable =
        if i = j then [e] else [] := by
      intro j
      split_ifs <;> simp [hl]
    refine ⟨fun j => ?_, fun j => ?_⟩ <;> rw [hand, List.filter_append, hkeep, hlines]
    · exact (h.order j).append_right _
    · have hj := h.total j
      have hfailed : (d.log i ok e).failed = d.failed := by rw [he]
      rw [hfailed, List.length_append, List.length_append]
      omega
  · refine ⟨fun j => ?_, fun j => ?_⟩ <;> rw [hand, List.filter_append]
    · rw [he]
      exact (h.order j).trans (List.sublist_append_left _ _)
    · have hj := h.total j
      rw [he]
      show (d.linesOf j).length + Function.update d.failed i (d.failed i + 1) j = _
      by_cases hij : i = j
      · subst hij
        have hone : [e].filter Entry.loggable = [e] := by simp [hl]
        rw [Function.update_self, if_pos rfl, hone, List.length_append, List.length_singleton]
        omega
      · rw [Function.update_of_ne (Ne.symm hij), if_neg hij]
        simpa using hj

theorem Wrote.logAll (h : d.Wrote) (es : List Entry) (ok : Nat → Bool) :
    (d.logAll i ok es).Wrote := by
  induction es generalizing d ok with
  | nil => exact h
  | cons e es ih => exact ih (h.log (ok 0)) _

theorem handledOf_logAll (d : Logd ι) (i j : ι) (es : List Entry) (ok : Nat → Bool) :
    (d.logAll i ok es).handledOf j = d.handledOf j ++ if i = j then es else [] := by
  induction es generalizing d ok with
  | nil => simp [logAll]
  | cons e es ih =>
    rw [logAll, ih, handledOf_log]
    split_ifs <;> simp

omit [DecidableEq ι] in
theorem Turned.access_le (h : d.Turned) {f : LogFile} {n : Nat} (hf : d.fd f = some n) :
    d.access ≤ n := by
  have hlt := h.access_lt
  have hlt' := h.error_lt
  cases f with
  | none => cases hf
  | access | error | ssl =>
    have hn := Option.some.inj hf
    omega

omit [DecidableEq ι] in
theorem Turned.fd_ne (h : d.Turned) {f f' : LogFile} {n n' : Nat} (hf : d.fd f = some n)
    (hf' : d.fd f' = some n') (hne : f ≠ f') : n ≠ n' := by
  have hlt := h.access_lt
  have hlt' := h.error_lt
  cases f <;> cases f' <;> simp only [fd, Option.some.injEq, reduceCtorEq] at hf hf' <;>
    first | exact absurd rfl hne | omega

theorem Turned.log (h : d.Turned) (ok : Bool) : (d.log i ok e).Turned := by
  obtain ⟨-, he⟩ | ⟨-, fd, hfd, he⟩ | ⟨-, he⟩ := d.log_cases i ok e
  · rw [he]
    exact ⟨h.opened, h.access_lt, h.error_lt, h.ssl_lt, h.lines, h.files⟩
  · rw [he]
    refine ⟨h.opened, h.access_lt, h.error_lt, h.ssl_lt, fun l hl => ?_, ?_⟩
    · obtain hl | hl := List.mem_append.1 hl
      · exact h.lines l hl
      · obtain rfl := List.mem_singleton.1 hl
        exact .inl hfd
    · refine List.pairwise_append.2 ⟨h.files, List.pairwise_singleton _ _, fun l hl l' hl' => ?_⟩
      obtain rfl := List.mem_singleton.1 hl'
      have hle := h.access_le hfd
      obtain hlf | hlf := h.lines l hl
      · refine ⟨fun heq => ?_, fun hne => h.fd_ne hlf hfd hne⟩
        rw [show l.file = e.file from heq, hfd] at hlf
        exact (Option.some.inj hlf).ge
      · exact ⟨fun _ => by dsimp only; omega, fun _ => by dsimp only; omega⟩
  · rw [he]
    exact ⟨h.opened, h.access_lt, h.error_lt, h.ssl_lt, h.lines, h.files⟩

theorem Turned.logAll (h : d.Turned) (es : List Entry) (ok : Nat → Bool) :
    (d.logAll i ok es).Turned := by
  induction es generalizing d ok with
  | nil => exact h
  | cons e es ih => exact ih (h.log (ok 0)) _

omit [DecidableEq ι] in
theorem Turned.lt_next (h : d.Turned) {l : Line ι} (hl : l ∈ d.lines) : l.fd < d.next := by
  have hlt := h.access_lt
  have hlt' := h.error_lt
  have hlt'' := h.ssl_lt
  obtain hf | hf := h.lines l hl
  · cases hfile : l.file <;> rw [hfile] at hf <;>
      simp only [fd, Option.some.injEq, reduceCtorEq] at hf <;> omega
  · omega

theorem opened_close (opened : List Nat) (n : Nat) : ((opened ++ [n]).erase n).Perm opened := by
  have h := (List.perm_append_singleton n opened).erase n
  rwa [List.erase_cons_head] at h

omit [DecidableEq ι] in
theorem turn_cases (d : Logd ι) (ok₁ ok₂ ok₃ : Bool) :
    (ok₁ = true ∧ ok₂ = true ∧ ok₃ = true ∧ d.turn ok₁ ok₂ ok₃ = { d with
      access := d.next
      error := d.next + 1
      ssl := d.next + 2
      opened := (((d.opened ++ [d.next] ++ [d.next + 1] ++ [d.next + 2]).erase d.access).erase
        d.error).erase d.ssl
      next := d.next + 3 }) ∨
    ((ok₁ && ok₂ && ok₃) = false ∧ ∃ opened next, opened.Perm d.opened ∧ d.next ≤ next ∧
      d.turn ok₁ ok₂ ok₃ = { d with opened := opened, next := next }) := by
  cases ok₁ with
  | false => exact .inr ⟨rfl, d.opened, d.next, .refl _, le_rfl, rfl⟩
  | true => cases ok₂ with
    | false => exact .inr ⟨rfl, _, d.next + 1, opened_close _ _, by omega, rfl⟩
    | true => cases ok₃ with
      | true => exact .inl ⟨rfl, rfl, rfl, rfl⟩
      | false =>
        refine .inr ⟨rfl, _, d.next + 2, ?_, by omega, rfl⟩
        -- the first file goes out of the middle
        have h := (opened_close (d.opened ++ [d.next]) (d.next + 1)).erase d.next
        rw [List.erase_comm] at h
        exact h.trans (opened_close _ _)

omit [DecidableEq ι] in
theorem Turned.turn (h : d.Turned) (ok₁ ok₂ ok₃ : Bool) : (d.turn ok₁ ok₂ ok₃).Turned := by
  obtain ⟨-, -, -, he⟩ | ⟨-, opened, next, hperm, hnext, he⟩ := d.turn_cases ok₁ ok₂ ok₃
  · rw [he]
    refine ⟨?_, Nat.lt_succ_self _, Nat.lt_succ_self _, Nat.lt_succ_self _,
      fun l hl => .inr (h.lt_next hl), h.files⟩
    have hopen : (d.opened ++ [d.next] ++ [d.next + 1] ++ [d.next + 2]).Perm
        (d.access :: d.error :: d.ssl :: [d.next, d.next + 1, d.next + 2]) := by
      simpa using h.opened.append_right [d.next, d.next + 1, d.next + 2]
    have herase := ((hopen.erase d.access).erase d.error).erase d.ssl
    simpa only [List.erase_cons_head] using herase
  · rw [he]
    exact ⟨hperm.trans h.opened, h.access_lt, h.error_lt, h.ssl_lt.trans_le hnext, h.lines, h.files⟩

theorem Wrote.turn (h : d.Wrote) (ok₁ ok₂ ok₃ : Bool) : (d.turn ok₁ ok₂ ok₃).Wrote := by
  obtain ⟨-, -, -, he⟩ | ⟨-, opened, next, -, -, he⟩ := d.turn_cases ok₁ ok₂ ok₃ <;> rw [he] <;>
    exact ⟨h.order, h.total⟩

omit [DecidableEq ι] in
theorem handled_turn (d : Logd ι) (ok₁ ok₂ ok₃ : Bool) :
    (d.turn ok₁ ok₂ ok₃).handled = d.handled := by
  obtain ⟨-, -, -, he⟩ | ⟨-, opened, next, -, -, he⟩ := d.turn_cases ok₁ ok₂ ok₃ <;> rw [he]

end Logd

end Files

namespace Net

variable {cfg : Config} {w w' : Net ι}

structure Inv (cfg : Config) (w : Net ι) : Prop where
  clients : ∀ i, (w.clients i).Inv cfg (w.logd.handledOf i)
  wrote : w.logd.Wrote
  turned : w.logd.Turned

theorem Inv.set (h : w.Inv cfg) {i : ι} {c : Client} (hc : c.Inv cfg (w.logd.handledOf i)) :
    (w.set i c).Inv cfg := by
  refine ⟨fun j => ?_, h.wrote, h.turned⟩
  show (Function.update w.clients i c j).Inv cfg (w.logd.handledOf j)
  by_cases hj : j = i
  · subst hj
    rwa [Function.update_self]
  · rw [Function.update_of_ne hj]
    exact h.clients j

theorem Inv.init : ({} : Net ι).Inv cfg where
  clients _ := .init
  wrote := ⟨fun _ => .refl _, fun _ => rfl⟩
  turned := ⟨.refl _, Nat.zero_lt_one, Nat.one_lt_two, Nat.lt_succ_self 2, nofun, .nil⟩

theorem Inv.deliver (h : w.Inv cfg) {i : ι} {es : List Entry} {wire : List (List Entry)}
    (hw : (w.clients i).wire = es :: wire) (ok : Nat → Bool) :
    ({ w.set i { w.clients i with wire := wire } with
      logd := w.logd.logAll i ok es } : Net ι).Inv cfg := by
  refine ⟨fun j => ?_, h.wrote.logAll es ok, h.turned.logAll es ok⟩
  show (Function.update w.clients i _ j).Inv cfg ((w.logd.logAll i ok es).handledOf j)
  rw [Logd.handledOf_logAll]
  by_cases hj : i = j
  · subst hj
    rw [Function.update_self, if_pos rfl]
    exact (h.clients i).deliver hw
  · rw [Function.update_of_ne (Ne.symm hj), if_neg hj, List.append_nil]
    exact h.clients j

theorem Inv.step (h : w.Inv cfg) {e : Event ι} (hs : w.step cfg e = some w') : w'.Inv cfg := by
  cases e with
  | log i e ok =>
    cases hs
    exact h.set ((h.clients i).addEntry e ok)
  | tick i ok =>
    obtain ⟨r, hr, rfl⟩ := Option.map_eq_some_iff.1 hs
    exact h.set ((h.clients i).tick hr)
  | connected i ok =>
    cases hs
    have hc := h.clients i
    exact h.set ⟨⟨hc.owned.perm, hc.owned.empty, hc.owned.waiting⟩, hc.small, hc.order, hc.total⟩
  | deliver i ok =>
    unfold Net.step at hs
    dsimp only at hs
    split at hs
    · cases hs
    · next es wire hw =>
      cases hs
      exact h.deliver hw ok
  | answer i k =>
    obtain ⟨s, hr, rfl⟩ := Option.map_eq_some_iff.1 hs
    have hc := h.clients i
    obtain ⟨hown, hbuf⟩ := hc.owned.answer hr
    have hp : ({ w.clients i with log := s } : Client).pending = (w.clients i).pending := by
      unfold Client.pending
      rw [hbuf]
    refine h.set ⟨hown, ?_, ?_, ?_⟩
    · exact (congrArg List.length hbuf).trans_lt hc.small
    · rw [hp]
      exact hc.order
    · rw [hp]
      exact hc.total
  | hangup i =>
    cases hs
    exact h.set (h.clients i).hangup
  | turn ok₁ ok₂ ok₃ =>
    cases hs
    refine ⟨fun i => ?_, h.wrote.turn ok₁ ok₂ ok₃, h.turned.turn ok₁ ok₂ ok₃⟩
    have hh : (w.logd.turn ok₁ ok₂ ok₃).handledOf i = w.logd.handledOf i := by
      unfold Logd.handledOf
      rw [Logd.handled_turn]
    show (w.clients i).Inv cfg _
    rw [hh]
    exact h.clients i

theorem reachable_inv (h : (Net.system (ι := ι) cfg).Reachable w) : w.Inv cfg :=
  h.invariant (fun w hw => by rw [show w = {} from hw]; exact .init) fun _ _ _ _ hi _ hs => hi.step hs

end Net

/-- What a service logs comes into the logs in its order and once.  What is not there yet is under
way, but for the calls that the helper has refused or the connection has lost and for the writes
that have failed.  The buffer never reaches the high water mark, and an `oklog_arg_t` is in one
place at a time. -/
theorem Net.lines_sublist_added {cfg : Config} {w : Net ι}
    (h : (Net.system (ι := ι) cfg).Reachable w) (i : ι) :
    (w.logd.linesOf i).Sublist ((w.clients i).added.filter Entry.loggable) ∧
    ((w.clients i).lost = 0 → w.logd.failed i = 0 →
      w.logd.linesOf i ++ (w.clients i).pending.filter Entry.loggable =
        (w.clients i).added.filter Entry.loggable) ∧
    (w.logd.handledOf i ++ (w.clients i).pending).length + (w.clients i).lost =
      (w.clients i).added.length ∧
    (w.clients i).log.buffer.length < cfg.hiWat ∧
    (w.clients i).log.Owned := by
  have hw := Net.reachable_inv h
  have hc := hw.clients i
  refine ⟨?_, fun hlost hfailed => ?_, hc.total, hc.small, hc.owned⟩
  · have hadded := (List.sublist_append_left _ _).trans hc.order
    exact (hw.wrote.order i).trans (hadded.filter _)
  · have hlines : w.logd.linesOf i = (w.logd.handledOf i).filter Entry.loggable := by
      refine (hw.wrote.order i).eq_of_length ?_
      have htotal := hw.wrote.total i
      rwa [hfailed] at htotal
    have hadded : w.logd.handledOf i ++ (w.clients i).pending = (w.clients i).added := by
      refine hc.order.eq_of_length ?_
      have htotal := hc.total
      rwa [hlost] at htotal
    rw [hlines, ← List.filter_append, hadded]

/-- The files that are open are those of the last `turn` that worked.  What went to others is in
files that came before, each with the lines of one log. -/
theorem Net.files_turned {cfg : Config} {w : Net ι} (h : (Net.system (ι := ι) cfg).Reachable w) :
    w.logd.opened.Perm [w.logd.access, w.logd.error, w.logd.ssl] ∧
    w.logd.opened.Nodup ∧
    (∀ l ∈ w.logd.lines, l.fd ∈ w.logd.opened → w.logd.fd l.file = some l.fd) ∧
    w.logd.lines.Pairwise fun l l' =>
      (l.file = l'.file → l.fd ≤ l'.fd) ∧ (l.file ≠ l'.file → l.fd ≠ l'.fd) := by
  have ht := (Net.reachable_inv h).turned
  have hlt := ht.access_lt
  have hlt' := ht.error_lt
  refine ⟨ht.opened, ht.opened.nodup_iff.2 ?_, fun l hl hopen => ?_, ht.files⟩
  · simp only [List.nodup_cons, List.mem_cons, List.not_mem_nil, or_false, not_or,
      not_false_eq_true, List.nodup_nil, and_true]
    omega
  · refine (ht.lines l hl).resolve_right fun hold => ?_
    have hmem := ht.opened.mem_iff.1 hopen
    simp only [List.mem_cons, List.not_mem_nil, or_false] at hmem
    omega

/-- Two entries make a call; the logs are turned behind it. -/
def turnedRun : List (Event Unit) :=
  [.log () ⟨.access, [97]⟩ true, .log () ⟨.error, [98]⟩ true, .deliver () fun _ => true,
    .turn true true false, .turn true true true, .log () ⟨.access, [99]⟩ true]

def turned : Net Unit :=
  ((Net.system ⟨2, 4, by decide, by decide⟩).exec {} turnedRun).getD {}

theorem turned_reachable : (Net.system ⟨2, 4, by decide, by decide⟩).Reachable turned :=
  System.reachable_exec turnedRun rfl rfl

theorem Net.lines_sublist_added_turned :
    turned.logd.linesOf () = [⟨.access, [97]⟩, ⟨.error, [98]⟩] ∧
    turned.logd.linesOf () ++ (turned.clients ()).pending.filter Entry.loggable =
      (turned.clients ()).added.filter Entry.loggable :=
  ⟨rfl, (Net.lines_sublist_added turned_reachable ()).2.1 rfl rfl⟩

theorem Net.files_turned_turned :
    turned.logd.lines.map Line.fd = [0, 1] ∧ turned.logd.opened.Perm [5, 6, 7] :=
  ⟨rfl, (Net.files_turned turned_reachable).1⟩

end Okws.Oklog
