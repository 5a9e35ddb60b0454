import Okws.Byte
import Okws.Lib.Memory

namespace Okws

open Lib

structure Iov where
  base : Nat
  len : Nat
  deriving DecidableEq

/-- The members of `suiolite`; pointers are offsets from `buf`. -/
structure Suiolite where
  len : Nat
  mem : Str
  bep : Nat
  rp : Nat
  dep0 : Nat
  dep1 : Nat
  iov0 : Iov
  iov1 : Iov
  scb : Bool
  bytesRead : UInt32
  deriving DecidableEq

namespace Suiolite

/-- `SUIOLITE_MAX_BUFLEN`. -/
def maxBuflen : Nat := 0x40000

/-- The constructor.  What `xmalloc` leaves in the block is never read. -/
def alloc (l : Nat) (scb : Bool) : Suiolite where
  len := min l maxBuflen
  mem := List.replicate (min l maxBuflen) 0
  bep := min l maxBuflen
  rp := 0
  dep0 := 0
  dep1 := 0
  iov0 := ⟨0, 0⟩
  iov1 := ⟨0, 0⟩
  scb := scb
  bytesRead := 0

def resid (s : Suiolite) : Nat := (s.dep1 - s.rp) + s.dep0

def full (s : Suiolite) : Bool := s.resid == s.len

/-- `capacity`; `none` is the failed assertion, here and below. -/
def capacity (s : Suiolite) : Option Nat := if s.resid ≤ s.len then some (s.len - s.resid) else none

/-- The region `getdata` returns. -/
def getdata (s : Suiolite) : Str := slice s.mem s.rp s.dep1

def loadIov (s : Suiolite) : Suiolite :=
  { s with iov0 := ⟨s.dep1, s.bep - s.dep1⟩, iov1 := ⟨s.dep0, s.rp - s.dep0⟩ }

/-- What `readv` does with the two vectors when it gets the bytes `bs`. -/
def readv (bs : Str) (s : Suiolite) : Suiolite :=
  let mem := poke s.mem s.iov0.base (bs.take s.iov0.len)
  { s with mem := poke mem s.iov1.base ((bs.drop s.iov0.len).take s.iov1.len) }

def accountForNewBytes (n : Nat) (s : Suiolite) : Suiolite :=
  let len0 := min n s.iov0.len
  let len1 := min (n - len0) s.iov1.len
  { s with dep1 := s.dep1 + len0, dep0 := s.dep0 + len1, bytesRead := s.bytesRead + UInt32.ofNat n }

def grow (ns : Nat) (s : Suiolite) : Option Suiolite :=
  if s.resid = 0 ∧ s.bytesRead = 0 then
    some { alloc ns false with iov0 := s.iov0, iov1 := s.iov1 }
  else none

/-- `load_from_buffer`, with the number of bytes it took. -/
def loadFromBuffer (input : Str) (s : Suiolite) : Option (Nat × Suiolite) := do
  let cap ← s.capacity
  let s ← if cap < input.length then s.grow (input.length + 10) else some s
  let nb := min input.length (s.bep - s.dep1)
  let nb' := min (input.length - nb) (s.rp - s.dep0)
  let mem := poke s.mem s.dep1 (input.take nb)
  some (nb + nb', { s with
    mem := poke mem s.dep0 ((input.drop nb).take nb'), dep1 := s.dep1 + nb, dep0 := s.dep0 + nb',
    bytesRead := s.bytesRead + UInt32.ofNat (nb + nb') })

/-- `rembytes`, with whether it calls the space callback. -/
def rembytes (nbytes : Nat) (s : Suiolite) : Option (Bool × Suiolite) :=
  if nbytes ≤ s.resid then
    let docall := s.full && 0 < nbytes && s.scb
    let len2 := s.bep - s.rp
    some (docall, if len2 ≤ nbytes then
      { s with rp := nbytes - len2, dep1 := s.dep0, dep0 := 0 }
    else { s with rp := s.rp + nbytes })
  else none

/-- The bytes that are waiting to be read, in the order they will be. -/
def contents (s : Suiolite) : Str := slice s.mem s.rp s.dep1 ++ slice s.mem 0 s.dep0

/-- The two configurations: `dep1 = bep` in the first, `dep0 = buf` in the second. -/
structure Inv (s : Suiolite) : Prop where
  mem : s.mem.length = s.len
  bep : s.bep = s.len
  rp : s.rp < s.bep
  dep0 : s.dep0 ≤ s.rp
  dep1 : s.rp ≤ s.dep1 ∧ s.dep1 ≤ s.bep
  config : s.dep1 = s.bep ∨ s.dep0 = 0

theorem Inv.alloc {l : Nat} (hl : 0 < l) (scb : Bool) : (alloc l scb).Inv where
  mem := by simp [Suiolite.alloc]
  bep := rfl
  rp := by simp only [Suiolite.alloc, maxBuflen]; omega
  dep0 := Nat.le_refl 0
  dep1 := ⟨Nat.le_refl 0, Nat.zero_le _⟩
  config := .inr rfl

theorem Inv.resid_eq {s : Suiolite} (h : s.Inv) : s.contents.length = s.resid := by
  have := h.mem
  have := h.bep
  have := h.rp
  have := h.dep0
  have := h.dep1
  simp only [contents, List.length_append, resid]
  rw [slice_length (by omega), slice_length (by omega)]
  omega

theorem Inv.resid_le {s : Suiolite} (h : s.Inv) : s.resid ≤ s.len := by
  have := h.bep
  have := h.rp
  have := h.dep0
  have := h.dep1
  simp only [resid]
  omega

theorem Inv.getdata_ne_nil {s : Suiolite} (h : s.Inv) (hr : 0 < s.resid) : s.getdata ≠ [] := by
  have := h.mem
  have := h.bep
  have := h.rp
  have := h.dep1
  have hlen : s.getdata.length = s.dep1 - s.rp := slice_length (by omega)
  intro hnil
  rw [hnil] at hlen
  simp only [List.length_nil, resid] at hlen hr
  obtain hc | hc := h.config <;> omega

/-- `s'` is `s` with `bs` written behind the data, region 2 first. -/
structure Filled (s : Suiolite) (bs : Str) (s' : Suiolite) : Prop where
  mem : s'.mem =
    poke (poke s.mem s.dep1 (bs.take (s.bep - s.dep1))) s.dep0 (bs.drop (s.bep - s.dep1))
  dep1 : s'.dep1 = s.dep1 + (bs.take (s.bep - s.dep1)).length
  dep0 : s'.dep0 = s.dep0 + (bs.drop (s.bep - s.dep1)).length
  rp : s'.rp = s.rp
  bep : s'.bep = s.bep
  len : s'.len = s.len

theorem Inv.filled {s s' : Suiolite} (h : s.Inv) {bs : Str} (hbs : bs.length ≤ s.len - s.resid)
    (hf : Filled s bs s') : s'.Inv ∧ s'.contents = s.contents ++ bs := by
  obtain ⟨hmem, hbep, hrp, hdep0, ⟨hrd, hdb⟩, hcfg⟩ := h
  obtain ⟨fmem, fdep1, fdep0, frp, fbep, flen⟩ := hf
  have hsplit := List.take_append_drop (s.bep - s.dep1) bs
  have hl1 : (bs.take (s.bep - s.dep1)).length = min (s.bep - s.dep1) bs.length := List.length_take
  have hl2 : (bs.drop (s.bep - s.dep1)).length = bs.length - (s.bep - s.dep1) := List.length_drop
  generalize bs.take (s.bep - s.dep1) = b1 at *
  generalize bs.drop (s.bep - s.dep1) = b2 at *
  rw [resid, ← hbep] at hbs
  -- both regions have room, and the second is only written when the first is full
  obtain ⟨hfirst, hsecond, hturn, hempty⟩ : s.dep1 + b1.length ≤ s.bep ∧
      s.dep0 + b2.length ≤ s.rp ∧ (s.dep1 + b1.length = s.bep ∨ s.dep0 + b2.length = 0) ∧
      (s.dep1 = s.bep → b1.length = 0) := by
    clear fmem fdep1 fdep0 frp fbep flen hmem
    omega
  clear hl1 hl2 hbs
  have hmem' : s.mem.length = s.bep := hmem.trans hbep.symm
  have hm1 : (poke s.mem s.dep1 b1).length = s.bep :=
    (poke_length (hmem' ▸ hfirst)).trans hmem'
  have hrb : s.rp ≤ s.bep := Nat.le_of_lt hrp
  have hdep0' : s.dep0 ≤ s.bep := Nat.le_trans hdep0 hrb
  refine ⟨⟨?_, by rw [fbep, flen, hbep], by rwa [frp, fbep], by rwa [fdep0, frp], ?_, ?_⟩, ?_⟩
  · rw [fmem, poke_length (hm1 ▸ Nat.le_trans hsecond hrb), hm1, flen, hbep]
  · rw [frp, fdep1, fbep]
    exact ⟨Nat.le_add_right_of_le hrd, hfirst⟩
  · rwa [fdep1, fbep, fdep0]
  · have hhi : slice s'.mem s'.rp s'.dep1 = slice s.mem s.rp s.dep1 ++ b1 := by
      rw [fmem, frp, fdep1, slice_poke_after hsecond (hm1 ▸ hdep0'),
        slice_poke hrd (hmem' ▸ hfirst)]
    have hlo : slice s'.mem 0 s'.dep0 = slice s.mem 0 s.dep0 ++ b2 := by
      rw [fmem, fdep0, slice_poke (Nat.zero_le _) (hm1 ▸ Nat.le_trans hsecond hrb),
        slice_poke_before (Nat.le_trans hdep0 hrd) (hmem' ▸ hdb)]
    rw [contents, hhi, hlo, contents, ← hsplit]
    obtain hc | hc := hcfg
    · have : b1 = [] := List.length_eq_zero_iff.1 (hempty hc)
      simp [this]
    · simp [hc]

/-- The bytes between `dep1` and `bep` and between `dep0` and `rp`. -/
def free (s : Suiolite) : Nat := s.loadIov.iov0.len + s.loadIov.iov1.len

theorem Inv.free_eq {s : Suiolite} (h : s.Inv) : s.free = s.len - s.resid := by
  have := h.bep
  have := h.rp
  have := h.dep0
  have := h.dep1
  simp only [free, loadIov, resid]
  omega

theorem readv_filled {s : Suiolite} {bs : Str} (hbs : bs.length ≤ s.free) :
    Filled s bs ((s.loadIov.readv bs).accountForNewBytes bs.length) := by
  have hdrop : (bs.drop (s.bep - s.dep1)).take (s.rp - s.dep0) = bs.drop (s.bep - s.dep1) := by
    refine List.take_of_length_le ?_
    simp only [free, loadIov] at hbs
    simp only [List.length_drop]
    omega
  constructor
  · simp only [accountForNewBytes, readv, loadIov, hdrop]
  · simp only [accountForNewBytes, readv, loadIov, List.length_take]
    omega
  · simp only [free, loadIov] at hbs
    simp only [accountForNewBytes, readv, loadIov, List.length_drop]
    omega
  all_goals rfl

theorem Inv.load_filled {s : Suiolite} (h : s.Inv) {bs : Str} (hbs : bs.length ≤ s.free) :
    ∃ s', s.loadFromBuffer bs = some (bs.length, s') ∧ Filled s bs s' := by
  have hcap : s.capacity = some (s.len - s.resid) := if_pos h.resid_le
  have hfit : ¬ s.len - s.resid < bs.length := by rw [← h.free_eq]; omega
  have htake : bs.take (min bs.length (s.bep - s.dep1)) = bs.take (s.bep - s.dep1) := by
    rw [Nat.min_comm, ← List.take_eq_take_min]
  have hdrop : bs.drop (min bs.length (s.bep - s.dep1)) = bs.drop (s.bep - s.dep1) := by
    rw [Nat.min_comm, ← List.drop_eq_drop_min]
  simp only [free, loadIov] at hbs
  have hrest : min (bs.length - min bs.length (s.bep - s.dep1)) (s.rp - s.dep0) =
      bs.length - min bs.length (s.bep - s.dep1) := by omega
  have hall : (bs.drop (s.bep - s.dep1)).take (bs.length - min bs.length (s.bep - s.dep1)) =
      bs.drop (s.bep - s.dep1) := by
    refine List.take_of_length_le ?_
    simp only [List.length_drop]
    omega
  have hsum : min bs.length (s.bep - s.dep1) + (bs.length - min bs.length (s.bep - s.dep1)) =
      bs.length := by omega
  simp only [loadFromBuffer, hcap, hfit, if_false, Option.bind_eq_bind, Option.bind_some, htake,
    hdrop, hrest, hall, hsum]
  refine ⟨_, rfl, ?_⟩
  constructor
  · rfl
  · simp only [List.length_take]
    omega
  · simp only [List.length_drop]
    omega
  all_goals rfl

theorem Inv.rembytes {s : Suiolite} (h : s.Inv) {n : Nat} (hn : n ≤ s.resid) :
    ∃ docall s', s.rembytes n = some (docall, s') ∧ s'.Inv ∧ s'.len = s.len ∧
      s'.contents = s.contents.drop n := by
  obtain ⟨hmem, hbep, hrp, hdep0, ⟨hrd, hdb⟩, hcfg⟩ := h
  have hlen : (slice s.mem s.rp s.dep1).length = s.dep1 - s.rp := slice_length (by omega)
  simp only [resid] at hn
  refine ⟨_, _, if_pos (by simpa only [resid] using hn), ?_⟩
  split
  · next hge =>
    -- the read pointer passes `bep`: region 1 becomes region 2
    have hfull : s.dep1 = s.bep := by omega
    refine ⟨⟨hmem, hbep, ?_, Nat.zero_le _, ⟨?_, ?_⟩, .inr rfl⟩, rfl, ?_⟩
    · simp only; omega
    · simp only; omega
    · simp only; omega
    · simp only [contents, List.drop_append, hlen, slice_self, List.append_nil]
      rw [List.drop_of_length_le (by omega), List.nil_append, slice_drop, hfull, Nat.zero_add]
  · next hlt =>
    have hle : n ≤ s.dep1 - s.rp := by omega
    refine ⟨⟨hmem, hbep, ?_, ?_, ⟨?_, hdb⟩, hcfg⟩, rfl, ?_⟩
    · simp only; omega
    · simp only; omega
    · simp only; omega
    · simp only [contents]
      rw [List.drop_append_of_le_length (by omega), slice_drop]

theorem grow_filled {s s₁ : Suiolite} {bs : Str} (hfit : s.len - s.resid < bs.length)
    (hres : s.resid ≤ s.len) (hg : s.grow (bs.length + 10) = some s₁) :
    ∃ n s', s.loadFromBuffer bs = some (n, s') ∧ Filled s₁ (bs.take s₁.len) s' := by
  have hcap : s.capacity = some (s.len - s.resid) := if_pos hres
  rw [loadFromBuffer]
  simp only [hcap, hfit, if_true, hg, Option.bind_eq_bind, Option.bind_some]
  refine ⟨_, _, rfl, ?_⟩
  rw [grow] at hg
  split at hg
  · cases hg
    constructor
    · simp only [alloc, List.take_take, Nat.sub_zero, Nat.min_zero, List.take_zero, poke_nil,
        Nat.min_self, List.drop_take, Nat.sub_self]
      rw [Nat.min_comm bs.length, ← List.take_eq_take_min]
    · simp only [alloc, List.length_take, Nat.sub_zero]
      omega
    all_goals simp [alloc]
  · cases hg

theorem grow_inv {s s₁ : Suiolite} {n : Nat} (hn : 0 < n) (hg : s.grow n = some s₁) :
    s₁.Inv ∧ s.resid = 0 ∧ s₁.resid = 0 := by
  rw [grow] at hg
  split at hg
  · next h =>
    cases hg
    have hi := Inv.alloc hn false
    exact ⟨⟨hi.mem, hi.bep, hi.rp, hi.dep0, hi.dep1, hi.config⟩, h.1, rfl⟩
  · cases hg

theorem Inv.load {s s' : Suiolite} {bs : Str} {n : Nat} (h : s.Inv)
    (hl : s.loadFromBuffer bs = some (n, s')) : s'.Inv := by
  by_cases hfit : bs.length ≤ s.len - s.resid
  · obtain ⟨s₂, hs, hf⟩ := h.load_filled (h.free_eq ▸ hfit)
    cases hs.symm.trans hl
    exact (h.filled hfit hf).1
  · rw [Nat.not_le] at hfit
    cases hg : s.grow (bs.length + 10) with
    | none =>
      have hcap : s.capacity = some (s.len - s.resid) := if_pos h.resid_le
      simp [loadFromBuffer, hcap, hfit, hg] at hl
    | some s₁ =>
      obtain ⟨hi, -, hz⟩ := grow_inv (Nat.succ_pos _) hg
      obtain ⟨_, s₂, hs, hf⟩ := grow_filled hfit h.resid_le hg
      cases hs.symm.trans hl
      refine (hi.filled ?_ hf).1
      rw [hz, Nat.sub_zero, List.length_take]
      exact Nat.min_le_left _ _

theorem Inv.load_full {s : Suiolite} {bs : Str} (h : s.Inv) (hfull : s.full = true)
    (hbs : bs ≠ []) :
    s.loadFromBuffer bs = none := by
  have hfull : s.resid = s.len := by simpa [full] using hfull
  have hlen : 0 < bs.length := List.length_pos_iff.mpr hbs
  have hcap : s.capacity = some (s.len - s.resid) := if_pos h.resid_le
  have hfit : s.len - s.resid < bs.length := by omega
  have hpos : s.resid ≠ 0 := by
    have := h.rp
    have := h.bep
    omega
  simp [loadFromBuffer, hcap, hfit, grow, hpos]

/-- What is done to a buffer: `load_iov`, a `readv` of `bs` and `account_for_new_bytes`;
`load_from_buffer`; `rembytes`. -/
inductive Op
  | input (bs : Str)
  | load (bs : Str)
  | rem (n : Nat)

def Op.bytes : Op → Str
  | .input bs => bs
  | .load bs => bs
  | .rem _ => []

/-- One operation, with the bytes that leave the buffer. -/
def exec (s : Suiolite) : Op → Option (Str × Suiolite)
  | .input bs => some ([], (s.loadIov.readv bs).accountForNewBytes bs.length)
  | .load bs => (s.loadFromBuffer bs).map fun r => ([], r.2)
  | .rem n => (s.rembytes n).map fun r => (s.contents.take n, r.2)

def Legal (s : Suiolite) : Op → Prop
  | .input bs => bs.length ≤ s.free
  | .load bs => ∀ cap ∈ s.capacity, bs.length ≤ cap
  | .rem n => n ≤ s.resid

end Suiolite

/-- A queue of at most `len` bytes. -/
def fifo (len : Nat) (q : Str) : Suiolite.Op → Option (Str × Str)
  | .input bs => if q.length + bs.length ≤ len then some ([], q ++ bs) else none
  | .load bs => if q.length + bs.length ≤ len then some ([], q ++ bs) else none
  | .rem n => if n ≤ q.length then some (q.take n, q.drop n) else none

/-- A sequence of operations, with all the bytes that leave. -/
def runOps {σ : Type} (f : σ → Suiolite.Op → Option (Str × σ)) :
    List Suiolite.Op → σ → Option (Str × σ)
  | [], s => some ([], s)
  | op :: ops, s => do
    let (out, s') ← f s op
    let (outs, s'') ← runOps f ops s'
    some (out ++ outs, s'')

namespace Suiolite

/-- Every operation of the sequence is legal where it is made. -/
def LegalRun : List Op → Suiolite → Prop
  | [], _ => True
  | op :: ops, s => s.Legal op ∧ ∀ r ∈ s.exec op, LegalRun ops r.2

instance (s : Suiolite) : DecidablePred s.Legal
  | .input _ => inferInstanceAs (Decidable (_ ≤ _))
  | .load _ => inferInstanceAs (Decidable (∀ _ ∈ _, _ ≤ _))
  | .rem _ => inferInstanceAs (Decidable (_ ≤ _))

def LegalRun.dec : (ops : List Op) → (s : Suiolite) → Decidable (LegalRun ops s)
  | [], _ => instDecidableTrue
  | op :: ops, s =>
    have := dec ops
    inferInstanceAs (Decidable (s.Legal op ∧ ∀ r ∈ s.exec op, LegalRun ops r.2))

instance (ops : List Op) (s : Suiolite) : Decidable (LegalRun ops s) := LegalRun.dec ops s

theorem Inv.exec {s : Suiolite} (h : s.Inv) {op : Op} (hop : s.Legal op) :
    ∃ out s', s.exec op = some (out, s') ∧ s'.Inv ∧ s'.len = s.len ∧
      fifo s.len s.contents op = some (out, s'.contents) := by
  have hle := h.resid_le
  have hres := h.resid_eq
  have hfree := h.free_eq
  cases op with
  | input bs =>
    have hbs : bs.length ≤ s.free := hop
    have hf := readv_filled hbs
    obtain ⟨hi, hc⟩ := h.filled (by omega) hf
    refine ⟨_, _, rfl, hi, hf.len, ?_⟩
    rw [hc]
    exact if_pos (by omega)
  | load bs =>
    have hbs : bs.length ≤ s.free := hfree ▸ hop (s.len - s.resid) (if_pos hle)
    obtain ⟨s', hl, hf⟩ := h.load_filled hbs
    obtain ⟨hi, hc⟩ := h.filled (by omega) hf
    refine ⟨[], s', by simp [Suiolite.exec, hl], hi, hf.len, ?_⟩
    rw [hc]
    exact if_pos (by omega)
  | rem n =>
    obtain ⟨docall, s', hr, hi, hlen, hc⟩ := h.rembytes hop
    refine ⟨s.contents.take n, s', by simp [Suiolite.exec, hr], hi, hlen, ?_⟩
    rw [hc]
    exact if_pos (by rw [hres]; exact hop)

theorem Inv.runOps {ops : List Op} {s : Suiolite} (h : s.Inv) (hops : LegalRun ops s) :
    ∃ out s', runOps Suiolite.exec ops s = some (out, s') ∧ s'.Inv ∧ s'.len = s.len ∧
      Okws.runOps (fifo s.len) ops s.contents = some (out, s'.contents) := by
  induction ops generalizing s with
  | nil => exact ⟨[], s, rfl, h, rfl, rfl⟩
  | cons op ops ih =>
    obtain ⟨out, s', he, hi, hl, hf⟩ := h.exec hops.1
    obtain ⟨outs, s'', he', hi', hl', hf'⟩ := ih hi (hops.2 _ he)
    rw [hl] at hf'
    refine ⟨out ++ outs, s'', ?_, hi', hl'.trans hl, ?_⟩
    · simp [Okws.runOps, he, he']
    · simp [Okws.runOps, hf, hf']

end Suiolite

theorem fifo_bytes {len : Nat} {q q' out : Str} {op : Suiolite.Op}
    (h : fifo len q op = some (out, q')) : out ++ q' = q ++ op.bytes := by
  cases op with
  | input bs =>
    simp only [fifo, Option.ite_none_right_eq_some, Option.some.injEq, Prod.mk.injEq] at h
    simp [← h.2.1, ← h.2.2, Suiolite.Op.bytes]
  | load bs =>
    simp only [fifo, Option.ite_none_right_eq_some, Option.some.injEq, Prod.mk.injEq] at h
    simp [← h.2.1, ← h.2.2, Suiolite.Op.bytes]
  | rem n =>
    simp only [fifo, Option.ite_none_right_eq_some, Option.some.injEq, Prod.mk.injEq] at h
    simp [← h.2.1, ← h.2.2, Suiolite.Op.bytes]

theorem runOps_fifo_bytes {len : Nat} {ops : List Suiolite.Op} {q q' out : Str}
    (h : runOps (fifo len) ops q = some (out, q')) :
    out ++ q' = q ++ ops.flatMap Suiolite.Op.bytes := by
  induction ops generalizing q out with
  | nil =>
    simp only [runOps, Option.some.injEq, Prod.mk.injEq] at h
    simp [← h.1, ← h.2]
  | cons op ops ih =>
    simp only [runOps, Option.bind_eq_bind, Option.bind_eq_some_iff, Prod.exists, Option.some.injEq,
      Prod.mk.injEq] at h
    obtain ⟨o, q₁, h₁, os, q₂, h₂, rfl, rfl⟩ := h
    rw [List.append_assoc, ih h₂, ← List.append_assoc, fifo_bytes h₁, List.flatMap_cons,
      List.append_assoc]

/-- A run of legal operations on a fresh buffer is a run of the bounded queue. -/
theorem Suiolite.run_fifo (l : Nat) (hl : 0 < l) (scb : Bool) (ops : List Op)
    (h : LegalRun ops (alloc l scb)) :
    ∃ out s, runOps exec ops (alloc l scb) = some (out, s) ∧ s.Inv ∧
      runOps (fifo s.len) ops [] = some (out, s.contents) ∧
      s.resid = s.contents.length ∧ s.resid ≤ s.len ∧ s.len = min l maxBuflen ∧
      s.getdata <+: s.contents ∧ (0 < s.resid → s.getdata ≠ []) ∧
      out ++ s.contents = ops.flatMap Op.bytes := by
  obtain ⟨out, s, hrun, hi, hlen, hf⟩ := (Inv.alloc hl scb).runOps h
  have hnil : (alloc l scb).contents = [] := by simp [contents, alloc]
  rw [hnil, ← hlen] at hf
  exact ⟨out, s, hrun, hi, hf, hi.resid_eq.symm, hi.resid_le, hlen, List.prefix_append _ _,
    hi.getdata_ne_nil, runOps_fifo_bytes hf⟩

/-- Four bytes of buffer: the second input wraps, and the last removal leaves region 2. -/
theorem Suiolite.run_fifo_wrap :
    ∃ s, runOps exec [.input [1, 2, 3], .rem 2, .load [4, 5, 6], .rem 3] (alloc 4 true) =
      some ([1, 2, 3, 4, 5], s) ∧ s.contents = [6] := by
  obtain ⟨out, s, hrun, -, -, -, -, -, -, -, hbytes⟩ :=
    run_fifo 4 (by decide) true [.input [1, 2, 3], .rem 2, .load [4, 5, 6], .rem 3] (by decide)
  obtain ⟨rfl, rfl⟩ : _ = out ∧ _ = s := Prod.mk.inj (Option.some.inj hrun)
  exact ⟨_, rfl, List.append_cancel_left hbytes⟩

end Okws
