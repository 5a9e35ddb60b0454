import Mathlib.Algebra.Ring.Int.Defs
import Mathlib.Algebra.Ring.Nat
import Okws.Lib.Transition

/-! `axprt_inner` of MessagePack-RPC: the calls that wait for a reply. -/

namespace Okws

/-- A call that has an event, by its number, and its sequence id. -/
structure RpcCall where
  id : Nat
  seq : UInt32
  deriving DecidableEq

/-- What triggers an event: a response with this id on the wire, or an error. -/
inductive RpcCause
  | reply (w : Int64)
  | error
  deriving DecidableEq

/-- Where `axprt_close` runs code of others: in `_eofcb`, or in `kill_clients`, which has still to
go through these calls.  The number says which table the iterator belongs to. -/
inductive RpcFrame
  | eofcb
  | killing (gen : Nat) (cs : List RpcCall)
  deriving DecidableEq

structure RpcState where
  isOpen : Bool := true
  seqid : UInt32
  calls : List RpcCall := []
  sending : List RpcCall := []
  log : List (RpcCall × RpcCause) := []
  frames : List RpcFrame := []
  gen : Nat := 0
  next : Nat := 0
  broken : Bool := false

/-- `sent` and `sendFailed` are the two ends of a `send`, `resume` is the end of what a callback
does inside `axprt_close`. -/
inductive RpcEvent
  | call (ev : Bool)
  | sent (c : RpcCall)
  | sendFailed (c : RpcCall)
  | reply (w : Int64)
  | close
  | resume

namespace RpcState

def step (s : RpcState) : RpcEvent → Option RpcState
  | .call ev => some { s with
      seqid := s.seqid + 1
      next := s.next + 1
      sending := if ev then ⟨s.next, s.seqid⟩ :: s.sending else s.sending }
  | .sent c =>
    -- also if the loop ended because the transport is closed
    if c ∈ s.sending then some { s with
      sending := s.sending.erase c
      calls := c :: s.calls.filter (·.seq ≠ c.seq) }
    else none
  | .sendFailed c =>
    if c ∈ s.sending ∧ s.isOpen then some { s with
      sending := s.sending.erase c
      log := (c, .error) :: s.log }
    else none
  | .reply w =>
    if s.isOpen then match s.calls.find? (·.seq = w.toUInt64.toUInt32) with
      | some c => some { s with
          calls := s.calls.filter (·.seq ≠ c.seq)
          log := (c, .reply w) :: s.log }
      | none => some s
    else none
  | .close =>
    if s.isOpen then some { s with isOpen := false, frames := .eofcb :: s.frames }
    else some { s with frames := .killing s.gen s.calls :: s.frames }
  | .resume => match s.frames with
    | [] => none
    | .eofcb :: fs => some { s with frames := .killing s.gen s.calls :: fs }
    | .killing _ [] :: fs => some { s with calls := [], gen := s.gen + 1, frames := fs }
    | .killing g (c :: cs) :: fs =>
      if g = s.gen then some { s with
        log := (c, .error) :: s.log
        frames := .killing g cs :: fs }
      -- the iterator is at a call that has been freed
      else some { s with broken := true }

def system : Lib.System RpcState RpcEvent where
  init s := ∃ seqid, s = { seqid := seqid }
  step := step

/-- Every event is triggered at most once, by a response with its own id or by an error, and no
call is left behind when the transport is closed. -/
structure Sound (s : RpcState) : Prop where
  once : (s.log.map (·.1.id)).Nodup
  own : ∀ c w, (c, .reply w) ∈ s.log → w.toInt = (c.seq.toNat : Int)
  noneLeft : s.isOpen = false → s.frames = [] → ∀ c ∈ s.calls, c.id ∈ s.log.map (·.1.id)
  intact : s.broken = false

/-- No send ends on a closed transport, no id of a response is cut to that of a call, and
`kill_clients` is not called from a callback that it runs. -/
def Quiet (s : RpcState) : RpcEvent → Prop
  | .sent _ => s.isOpen = true
  | .reply w => (∃ c ∈ s.calls, c.seq = w.toUInt64.toUInt32) → 0 ≤ w.toInt ∧ w.toInt < 2 ^ 32
  | .close => ∀ g cs, .killing g cs ∉ s.frames
  | _ => True

/-- The calls that are to be triggered when the transport closes. -/
def waiting (s : RpcState) : List RpcCall := match s.frames with
  | .killing _ cs :: _ => cs
  | _ => s.calls

def count (s : RpcState) (i : Nat) : Nat :=
  s.sending.countP (·.id = i) + s.waiting.countP (·.id = i) + s.log.countP (·.1.id = i)

/-- How far `axprt_close` is. -/
inductive Phase : RpcState → Prop
  | live {s} : s.isOpen = true → s.frames = [] → Phase s
  | closed {s} : s.isOpen = false → s.frames = [] → s.calls = [] → Phase s
  | eofcb {s} : s.isOpen = false → s.frames = [.eofcb] → Phase s
  | killing {s cs fs} : s.isOpen = false → s.frames = .killing s.gen cs :: fs →
      fs = [] ∨ fs = [.eofcb] → Phase s

structure Inv (s : RpcState) : Prop where
  count : ∀ i, s.count i ≤ 1
  fresh : ∀ i, s.next ≤ i → s.count i = 0
  own : ∀ c w, (c, .reply w) ∈ s.log → w.toInt = (c.seq.toNat : Int)
  phase : Phase s
  intact : s.broken = false

section Step

variable {s s' : RpcState} {c : RpcCall} {i : Nat}

theorem countP_erase_add {l : List RpcCall} (h : c ∈ l) (i : Nat) :
    (l.erase c).countP (·.id = i) + (if c.id = i then 1 else 0) = l.countP (·.id = i) := by
  rw [(List.perm_cons_erase h).countP_eq, List.countP_cons]
  simp

theorem countP_filter_add {l : List RpcCall} (h : c ∈ l) (i : Nat) :
    (l.filter (·.seq ≠ c.seq)).countP (·.id = i) + (if c.id = i then 1 else 0) ≤
      l.countP (·.id = i) := by
  have hperm := (List.perm_cons_erase h).filter (·.seq ≠ c.seq)
  rw [List.filter_cons_of_neg (by simp)] at hperm
  rw [hperm.countP_eq, ← countP_erase_add h i]
  exact Nat.add_le_add_right (List.filter_sublist.countP_le) _

theorem Phase.congr (h : Phase s) (ho : s'.isOpen = s.isOpen) (hf : s'.frames = s.frames)
    (hc : s'.calls = s.calls) (hg : s'.gen = s.gen) : Phase s' := by
  cases h with
  | live h₁ h₂ => exact .live (ho.trans h₁) (hf.trans h₂)
  | closed h₁ h₂ h₃ => exact .closed (ho.trans h₁) (hf.trans h₂) (hc.trans h₃)
  | eofcb h₁ h₂ => exact .eofcb (ho.trans h₁) (hf.trans h₂)
  | killing h₁ h₂ h₃ => exact .killing (ho.trans h₁) (by rw [hf, h₂, hg]) h₃

theorem Phase.frames (h : Phase s) (ho : s.isOpen = true) : s.frames = [] := by
  cases h with
  | live _ hf => exact hf
  | closed h' => cases h'.symm.trans ho
  | eofcb h' => cases h'.symm.trans ho
  | killing h' => cases h'.symm.trans ho

theorem Inv.mono (h : Inv s) (hcount : ∀ i, s'.count i ≤ s.count i) (hnext : s'.next = s.next)
    (hown : ∀ c w, (c, .reply w) ∈ s'.log → w.toInt = (c.seq.toNat : Int)) (hphase : Phase s')
    (hintact : s'.broken = s.broken) : Inv s' where
  count i := Nat.le_trans (hcount i) (h.count i)
  fresh i hi := Nat.eq_zero_of_le_zero (h.fresh i (hnext ▸ hi) ▸ hcount i)
  own := hown
  phase := hphase
  intact := hintact.trans h.intact

theorem Inv.call {ev : Bool} (h : Inv s) (hs : s.step (.call ev) = some s') : Inv s' := by
  cases hs
  have hcount (i : Nat) : RpcState.count { s with
      seqid := s.seqid + 1
      next := s.next + 1
      sending := if ev then ⟨s.next, s.seqid⟩ :: s.sending else s.sending } i ≤
      s.count i + (if s.next = i then 1 else 0) := by
    cases ev with
    | true =>
      simp only [RpcState.count, waiting, if_true, List.countP_cons, decide_eq_true_eq]
      omega
    | false => exact Nat.le_add_right _ _
  refine ⟨fun i => ?_, fun i hi => ?_, h.own, h.phase.congr rfl rfl rfl rfl, h.intact⟩
  · refine Nat.le_trans (hcount i) ?_
    by_cases hi : s.next = i
    · simp [hi, h.fresh i (by omega)]
    · rw [if_neg hi]
      exact h.count i
  · have hi : s.next < i := hi
    refine Nat.eq_zero_of_le_zero (Nat.le_trans (hcount i) ?_)
    simp [h.fresh i (by omega), show s.next ≠ i by omega]

theorem Inv.sent (h : Inv s) (ho : s.isOpen = true) (hs : s.step (.sent c) = some s') : Inv s' := by
  have hf := h.phase.frames ho
  simp only [step] at hs
  split at hs
  · next hmem =>
    cases hs
    refine h.mono (fun i => ?_) rfl h.own (.live ho hf) rfl
    have herase := countP_erase_add hmem i
    have hfilter : (s.calls.filter (·.seq ≠ c.seq)).countP (·.id = i) ≤ s.calls.countP (·.id = i) :=
      List.filter_sublist.countP_le
    simp only [RpcState.count, waiting, hf, List.countP_cons, decide_eq_true_eq]
    omega
  · cases hs

theorem Inv.sendFailed (h : Inv s) (hs : s.step (.sendFailed c) = some s') : Inv s' := by
  simp only [step] at hs
  split at hs
  · next hmem =>
    cases hs
    refine h.mono (fun i => ?_) rfl (fun d w hd => ?_) (h.phase.congr rfl rfl rfl rfl) rfl
    · have herase := countP_erase_add hmem.1 i
      simp only [RpcState.count, waiting, List.countP_cons, decide_eq_true_eq]
      omega
    · obtain hd | hd := List.mem_cons.1 hd
      · cases hd
      · exact h.own d w hd
  · cases hs

theorem toInt_toUInt32 {w : Int64} (hlo : 0 ≤ w.toInt) (hhi : w.toInt < 2 ^ 32) :
    (w.toUInt64.toUInt32.toNat : Int) = w.toInt := by
  have hb : w.toInt = Int.bmod w.toUInt64.toNat (2 ^ 64) := BitVec.toInt_eq_toNat_bmod _
  have hlt := w.toUInt64.toNat_lt
  have hmod : w.toUInt64.toUInt32.toNat = w.toUInt64.toNat % 2 ^ 32 := UInt64.toNat_toUInt32 _
  dsimp only [Int.bmod] at hb
  split at hb <;> omega

theorem Inv.reply {w : Int64} (h : Inv s) (hq : Quiet s (.reply w))
    (hs : s.step (.reply w) = some s') : Inv s' := by
  simp only [step] at hs
  split at hs
  · next ho =>
    have hf := h.phase.frames ho
    split at hs
    · next c hc =>
      cases hs
      have hmem := List.mem_of_find?_eq_some hc
      have hseq : c.seq = w.toUInt64.toUInt32 := by simpa using List.find?_some hc
      refine h.mono (fun i => ?_) rfl (fun d v hd => ?_) (.live ho hf) rfl
      · have hfilter := countP_filter_add hmem i
        simp only [RpcState.count, waiting, hf, List.countP_cons, decide_eq_true_eq]
        omega
      · obtain hd | hd := List.mem_cons.1 hd
        · cases hd
          obtain ⟨hlo, hhi⟩ := hq ⟨c, hmem, hseq⟩
          have hmod := toInt_toUInt32 hlo hhi
          rw [hseq, hmod]
        · exact h.own d v hd
    · cases hs
      exact h
  · cases hs

theorem Inv.close (h : Inv s) (hq : Quiet s .close) (hs : s.step .close = some s') : Inv s' := by
  simp only [step] at hs
  split at hs
  · next ho =>
    cases hs
    have hf := h.phase.frames ho
    refine h.mono (fun i => ?_) rfl h.own (.eofcb rfl (by simp [hf])) rfl
    simp [RpcState.count, waiting, hf]
  · next ho =>
    cases hs
    have ho : s.isOpen = false := by simpa using ho
    have hfs : (s.frames = [] ∨ s.frames = [.eofcb]) := by
      cases h.phase with
      | live h' => cases h'.symm.trans ho
      | closed _ hf => exact .inl hf
      | eofcb _ hf => exact .inr hf
      | killing _ hf => exact absurd (hf ▸ List.mem_cons_self) (hq _ _)
    refine h.mono (fun i => ?_) rfl h.own (.killing ho rfl hfs) rfl
    obtain hf | hf := hfs <;> simp [RpcState.count, waiting, hf]

theorem Inv.resume (h : Inv s) (hs : s.step .resume = some s') : Inv s' := by
  simp only [step] at hs
  cases h.phase with
  | live _ hf => simp [hf] at hs
  | closed _ hf => simp [hf] at hs
  | eofcb ho hf =>
    simp only [hf] at hs
    cases hs
    refine h.mono (fun i => ?_) rfl h.own (.killing ho rfl (.inl rfl)) rfl
    simp [RpcState.count, waiting, hf]
  | @killing cs fs ho hf hfs =>
    cases cs with
    | nil =>
      simp only [hf] at hs
      cases hs
      have hphase : Phase { s with calls := [], gen := s.gen + 1, frames := fs } := by
        obtain rfl | rfl := hfs
        · exact .closed ho rfl rfl
        · exact .eofcb ho rfl
      refine h.mono (fun i => ?_) rfl h.own hphase rfl
      obtain rfl | rfl := hfs <;> simp [RpcState.count, waiting, hf]
    | cons c cs =>
      simp only [hf, if_true] at hs
      cases hs
      refine h.mono (fun i => ?_) rfl (fun d w hd => ?_) (.killing ho rfl hfs) rfl
      · simp only [RpcState.count, waiting, hf, List.countP_cons]
        omega
      · obtain hd | hd := List.mem_cons.1 hd
        · cases hd
        · exact h.own d w hd

theorem Inv.step {e : RpcEvent} (h : Inv s) (hq : Quiet s e) (hs : s.step e = some s') :
    Inv s' := by
  cases e with
  | call ev => exact h.call hs
  | sent c => exact h.sent hq hs
  | sendFailed c => exact h.sendFailed hs
  | reply w => exact h.reply hq hs
  | close => exact h.close hq hs
  | resume => exact h.resume hs

theorem inv_init (seqid : UInt32) : Inv { seqid := seqid } :=
  ⟨fun _ => Nat.zero_le 1, fun _ _ => rfl, nofun, .live rfl rfl, rfl⟩

theorem Inv.sound (h : Inv s) : Sound s where
  once := by
    refine List.nodup_iff_count.2 fun i => ?_
    have hle := h.count i
    have hlog : (s.log.map (·.1.id)).count i = s.log.countP (·.1.id = i) := by
      rw [List.count_eq_countP, List.countP_map]
      exact List.countP_congr fun x _ => by simp
    rw [hlog]
    exact Nat.le_trans (Nat.le_add_left _ _) hle
  own := h.own
  noneLeft ho hf := by
    cases h.phase with
    | live h' => cases h'.symm.trans ho
    | closed _ _ hc => simp [hc]
    | eofcb _ h' => cases h'.symm.trans hf
    | killing _ h' => cases h'.symm.trans hf
  intact := h.intact

theorem sound_of_quiet (h : system.Reach Quiet s) : Sound s := by
  refine Inv.sound (h.invariant ?_ fun s e s' _ hi hq hs => hi.step hq hs)
  rintro s ⟨seqid, rfl⟩
  exact inv_init seqid

/-- Two calls, a reply for the first, and the transport is closed. -/
theorem sound_of_quiet_two : Sound
    { isOpen := false
      seqid := 9
      log := [(⟨1, 8⟩, .error), (⟨0, 7⟩, .reply 7)]
      gen := 1
      next := 2 } := by
  have h₀ : system.Reach Quiet { seqid := 7 } := .init ⟨7, rfl⟩
  have h₁ := h₀.step (e := RpcEvent.call true) trivial rfl
  have h₂ := h₁.step (e := RpcEvent.call true) trivial rfl
  have h₃ := h₂.step (e := RpcEvent.sent ⟨0, 7⟩) rfl rfl
  have h₄ := h₃.step (e := RpcEvent.sent ⟨1, 8⟩) rfl rfl
  have h₅ := h₄.step (e := RpcEvent.reply 7) (fun _ => by decide) rfl
  have h₆ := h₅.step (e := RpcEvent.close) nofun rfl
  have h₇ := h₆.step (e := RpcEvent.resume) trivial rfl
  have h₈ := h₇.step (e := RpcEvent.resume) trivial rfl
  have h₉ := h₈.step (e := RpcEvent.resume) trivial rfl
  exact sound_of_quiet h₉

/-- The transport is closed while the call is sent. -/
theorem not_sound_closed : ¬ ∀ s, system.Reachable s → Sound s := by
  intro h
  have hreach : system.Reachable
      { isOpen := false, seqid := 1, calls := [⟨0, 0⟩], gen := 1, next := 1 } :=
    Lib.System.reachable_exec [.call true, .close, .resume, .resume, .sent ⟨0, 0⟩] ⟨0, rfl⟩ rfl
  exact absurd ((h _ hreach).noneLeft rfl rfl ⟨0, 0⟩ List.mem_cons_self) (by decide)

end Step

end RpcState

end Okws
