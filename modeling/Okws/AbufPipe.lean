import Okws.Abuf
import Okws.Lib.Transition

/-! `abuf_pipe_t`, the source that queues what is read from a pipe, and the `abuf_t` that reads
from it. -/

namespace Okws.AbufPipe

open Lib

/-- A number as a `size_t`. -/
def sizeT (z : Int) : Nat := (z % 2 ^ 64).toNat

/-- A number as an `int`. -/
def toInt (z : Int) : Int := z.bmod (2 ^ 32)

/-- `abuf_indata_t`, with the bytes at `bp`. -/
structure Indata where
  erc : Stat := .eof
  bp : Str := []
  len : Int := 0
  deriving DecidableEq

/-- `abuf_pipe_t` once `init` has scheduled the first read.  `pending` says that `aios` still has
the callback of that read. -/
structure Pipe where
  bufs : List Str := []
  eof : Bool := false
  readOutstanding : Bool := true
  bufPos : Nat := 0
  nextBuf : Nat := 0
  pending : Bool := true
  deriving DecidableEq

namespace Pipe

def scheduleRead (p : Pipe) : Pipe :=
  if p.eof then p else { p with readOutstanding := true, pending := true }

def finish (p : Pipe) : Pipe := if p.readOutstanding then { p with pending := false } else p

/-- `readcb`, up to the call of `_cb`. -/
def readcb (p : Pipe) (s : Option Str) : Pipe :=
  let p := { p with readOutstanding := false, pending := false }
  match s with
  | none => { p with eof := true }
  | some s => { p with bufs := p.bufs ++ [s] }

def getdata (p : Pipe) : Indata × Pipe :=
  if p.eof then ({}, p)
  else match p.bufs[p.nextBuf]? with
    | some b =>
      ({ erc := .ok, bp := b, len := toInt b.length }, { p with nextBuf := p.nextBuf + 1 })
    | none => ({ erc := .wait }, p)

/-- The loop of `rembytes`, over `_bufs`, `_buf_pos`, `_next_buf` and `nbytes`. -/
def popFront : List Str → Nat → Nat → Int → Option (List Str × Nat × Nat × Int)
  | [], pos, next, n => some ([], pos, next, n)
  | b :: bs, pos, next, n =>
    if b.length ≤ sizeT (pos + n) then
      if pos < b.length then popFront bs 0 (sizeT (next - 1)) (toInt (n - (b.length - pos)))
      else none
    else some (b :: bs, pos, next, n)

/-- `rembytes`; `none` is a failed assertion. -/
def rembytes (p : Pipe) (nbytes : Int) : Option Pipe := do
  let (bufs, pos, next, n) ← popFront p.bufs p.bufPos p.nextBuf nbytes
  if n ≤ toInt pos ∧ ∀ b ∈ bufs.head?, pos < b.length then
    some { p with
      bufs, nextBuf := next
      bufPos := if n = 0 then pos else sizeT (pos - n) }
  else none

end Pipe

/-- The pipe and the `abuf_t` over it: `base` lies between `_basep` and `_cp`, `avail` between
`_cp` and `_endp`.  `sent` is what has been read from the pipe so far, and `got` what the callers
of `abuf_t` have been given of it. -/
structure Tied where
  pipe : Pipe := {}
  base : Str := []
  avail : Str := []
  len : Int := 0
  erc : Stat := .ok
  sent : Str := []
  got : Str := []
  deriving DecidableEq

inductive Event
  /-- `aios` calls `readcb`, at the end of the file with no string. -/
  | readcb (s : Option Str)
  /-- `readcb` schedules the next read. -/
  | scheduleRead
  /-- `get`, `flush`, `dump` or `stream` moves `_cp` over `k` bytes. -/
  | consume (k : Nat)
  /-- One of them has used the region up, and calls `moredata`. -/
  | moredata
  | canRead
  | finish

namespace Tied

def consume (t : Tied) (k : Nat) : Tied :=
  { t with
    base := t.base ++ t.avail.take k, avail := t.avail.drop k, got := t.got ++ t.avail.take k }

def moredata (t : Tied) : Option Tied := do
  let p ← if 0 < t.len then t.pipe.rembytes (toInt t.len) else some t.pipe
  let (i, p) := p.getdata
  some { t with
    pipe := p, base := [], avail := i.bp.take i.len.toNat, len := i.len, erc := i.erc }

def finish (t : Tied) : Option Tied :=
  if t.base.length ≤ t.len then
    (t.pipe.rembytes (toInt t.base.length)).map fun p =>
      { t with pipe := p.finish, len := t.len - t.base.length, base := [] }
  else none

/-- The events that can come.  A string that `aios` hands over is not empty, and the functions
that read call `moredata` at the end of a region, in `ABUF_OK`. -/
def Enabled (t : Tied) : Event → Prop
  | .readcb s => t.pipe.pending = true ∧ s ≠ some []
  | .scheduleRead => t.pipe.readOutstanding = false
  | .consume k => k ≤ t.avail.length
  | .moredata => t.avail = [] ∧ t.erc = .ok
  | .canRead | .finish => True

instance (t : Tied) (e : Event) : Decidable (t.Enabled e) := by
  cases e <;> unfold Enabled <;> infer_instance

/-- What an event does; `none` is a failed assertion. -/
def act (t : Tied) : Event → Option Tied
  | .readcb s => some { t with pipe := t.pipe.readcb s, sent := t.sent ++ s.getD [] }
  | .scheduleRead => some { t with pipe := t.pipe.scheduleRead }
  | .consume k => some (t.consume k)
  | .moredata => t.moredata
  | .canRead => some { t with erc := .ok }
  | .finish => t.finish

end Tied

def system : System Tied Event where
  init t := t = {}
  step t e := if t.Enabled e then t.act e else none

/-- The pipe is delivered as far as it has come: what was read from it lies in order in what the
reader has got, in its region and in the strings behind `_next_buf`, so that all of it was got
when the reader sees `ABUF_EOF`; the two indices are inside the queue; and none of the events in
`C` that can come trips an assertion. -/
structure Delivers (C : Tied → Event → Prop) (t : Tied) : Prop where
  whole : t.got ++ t.avail ++ (t.pipe.bufs.drop t.pipe.nextBuf).flatten = t.sent
  atEof : t.erc = .eof → t.pipe.eof = true ∧ t.got = t.sent
  nextBuf : t.pipe.nextBuf ≤ t.pipe.bufs.length
  bufPos : ∀ b ∈ t.pipe.bufs.head?, t.pipe.bufPos < b.length
  asserts : ∀ e, C t e → t.Enabled e → (t.act e).isSome

/-- The events that go well: a string has a length that an `int` holds, `moredata` does not come
after the end of the file while a string waits to be handed out, and `finish` finds its region
untouched or used up. -/
def Meets (t : Tied) : Event → Prop
  | .readcb s => ∀ b ∈ s, b.length < 2 ^ 31
  | .moredata => t.pipe.eof = true → t.pipe.nextBuf = t.pipe.bufs.length
  | .finish => t.base = [] ∨ t.avail = []
  | _ => True

theorem toInt_length {b : Str} (h : b.length < 2 ^ 31) : toInt b.length = b.length :=
  Int.bmod_eq_of_le (by omega) (by omega)

theorem toInt_zero : toInt 0 = 0 := rfl

namespace Pipe

variable {p : Pipe} {b : Str} {bs : List Str}

theorem popFront_zero (h : ∀ b ∈ bs, b ≠ []) (next : Nat) :
    popFront bs 0 next 0 = some (bs, 0, next, 0) := by
  cases bs with
  | nil => rfl
  | cons b bs =>
    have hb : ¬ b.length ≤ sizeT (((0 : Nat) : Int) + 0) := by
      have hpos := List.length_pos_iff.mpr (h b (.head _))
      exact Nat.not_le.mpr hpos
    rw [popFront, if_neg hb]

theorem rembytes_zero (h : ∀ b ∈ p.bufs, b ≠ []) (hp : p.bufPos = 0) : p.rembytes 0 = some p := by
  have hhead (b) (hb : b ∈ p.bufs.head?) : 0 < b.length :=
    List.length_pos_iff.mpr (h b (List.mem_of_mem_head? hb))
  obtain ⟨bufs, eof, ro, pos, next, pd⟩ := p
  subst hp
  rw [rembytes, popFront_zero h]
  exact if_pos ⟨Int.le_refl _, hhead⟩

theorem rembytes_front (hp : p.bufs = b :: bs) (h : ∀ c ∈ p.bufs, c ≠ []) (hb : b.length < 2 ^ 31)
    (hpos : p.bufPos = 0) (hnext : p.nextBuf = 1) :
    p.rembytes b.length = some { p with bufs := bs, nextBuf := 0 } := by
  obtain ⟨bufs, eof, ro, pos, next, pd⟩ := p
  subst hp hpos hnext
  have hlen : b.length ≤ sizeT (((0 : Nat) : Int) + b.length) := by
    unfold sizeT
    omega
  have hrest : toInt ((b.length : Int) - (b.length - ((0 : Nat) : Int))) = 0 := by
    rw [show (b.length : Int) - (b.length - ((0 : Nat) : Int)) = 0 by omega, toInt_zero]
  have hbs (c) (hc : c ∈ bs) : c ≠ [] := h c (.tail _ hc)
  have hhead (c) (hc : c ∈ bs.head?) : 0 < c.length :=
    List.length_pos_iff.mpr (hbs c (List.mem_of_mem_head? hc))
  rw [rembytes, popFront, if_pos hlen, if_pos (List.length_pos_iff.mpr (h b (.head _))), hrest,
    popFront_zero hbs]
  exact if_pos ⟨Int.le_refl _, hhead⟩

end Pipe

/-- The region the reader holds is the first string of the queue, of which nothing has been given
back; or it holds none. -/
inductive Region (bufs : List Str) (next : Nat) (base avail : Str) (len : Int) : Prop
  | none : next = 0 → base = [] → avail = [] → len = 0 → Region bufs next base avail len
  | front (bs : List Str) : next = 1 → bufs = (base ++ avail) :: bs → len = (base ++ avail).length →
      Region bufs next base avail len

structure Inv (t : Tied) : Prop where
  region : Region t.pipe.bufs t.pipe.nextBuf t.base t.avail t.len
  bufPos : t.pipe.bufPos = 0
  strings : ∀ b ∈ t.pipe.bufs, b ≠ [] ∧ b.length < 2 ^ 31
  whole : t.got ++ t.avail ++ (t.pipe.bufs.drop t.pipe.nextBuf).flatten = t.sent
  atEof : t.erc = .eof → t.pipe.eof = true ∧ t.pipe.nextBuf = t.pipe.bufs.length ∧ t.avail = []
  stopped : t.pipe.eof = true → t.pipe.pending = false

namespace Inv

variable {t t' : Tied}

theorem nextBuf_le (h : Inv t) : t.pipe.nextBuf ≤ t.pipe.bufs.length := by
  cases h.region with
  | none hn => omega
  | front bs hn hbs =>
    rw [hn, hbs]
    exact Nat.le_add_left _ _

theorem head (h : Inv t) (b : Str) (hb : b ∈ t.pipe.bufs.head?) : t.pipe.bufPos < b.length := by
  rw [h.bufPos]
  exact List.length_pos_iff.mpr (h.strings b (List.mem_of_mem_head? hb)).1

theorem rembytes_len (h : Inv t) (hlen : 0 < t.len) :
    t.pipe.rembytes (toInt t.len) =
      some { t.pipe with bufs := t.pipe.bufs.drop t.pipe.nextBuf, nextBuf := 0 } := by
  cases h.region with
  | none _ _ _ hl => omega
  | front bs hn hbs hl =>
    have hb := (h.strings (t.base ++ t.avail) (hbs ▸ .head _)).2
    rw [hl, toInt_length hb,
      Pipe.rembytes_front hbs (fun c hc => (h.strings c hc).1) hb h.bufPos hn, hn, hbs]
    rfl

theorem readcb {s : Option Str} (h : Inv t) (hs : t.pipe.pending = true ∧ s ≠ some [])
    (hC : ∀ b ∈ s, b.length < 2 ^ 31) :
    Inv { t with pipe := t.pipe.readcb s, sent := t.sent ++ s.getD [] } := by
  have hne : t.pipe.eof ≠ true := fun he => by
    rw [h.stopped he] at hs
    cases hs.1
  cases s with
  | none =>
    exact {
      region := h.region
      bufPos := h.bufPos
      strings := h.strings
      whole := by rw [Option.getD_none, List.append_nil]; exact h.whole
      atEof := fun he => ⟨rfl, (h.atEof he).2⟩
      stopped := fun _ => rfl }
  | some s =>
    exact {
      region := by
        cases h.region with
        | none hn hb ha hl => exact .none hn hb ha hl
        | front bs hn hbs hl => exact .front (bs ++ [s]) hn (by simp [Pipe.readcb, hbs]) hl
      bufPos := h.bufPos
      strings := by
        intro b hb
        rcases List.mem_append.mp hb with hb | hb
        · exact h.strings b hb
        · cases List.mem_singleton.mp hb
          exact ⟨fun h0 => hs.2 (congrArg some h0), hC s rfl⟩
      whole := by
        change t.got ++ t.avail ++ ((t.pipe.bufs ++ [s]).drop t.pipe.nextBuf).flatten = t.sent ++ s
        rw [List.drop_append_of_le_length h.nextBuf_le, List.flatten_append, ← List.append_assoc,
          h.whole, List.flatten_singleton]
      atEof := fun he => absurd (h.atEof he).1 hne
      stopped := fun he => absurd he hne }

theorem scheduleRead (h : Inv t) : Inv { t with pipe := t.pipe.scheduleRead } := by
  unfold Pipe.scheduleRead
  split
  · exact h
  · next hne => exact { h with stopped := fun he => absurd he hne }

theorem consume (h : Inv t) (k : Nat) : Inv (t.consume k) where
  region := by
    have hsame : t.base ++ t.avail.take k ++ t.avail.drop k = t.base ++ t.avail := by
      rw [List.append_assoc, List.take_append_drop]
    cases h.region with
    | none hn hb ha hl =>
      exact .none hn (by simp [Tied.consume, hb, ha]) (by simp [Tied.consume, ha]) hl
    | front bs hn hbs hl => exact .front bs hn (hsame.symm ▸ hbs) (hsame.symm ▸ hl)
  bufPos := h.bufPos
  strings := h.strings
  whole := by
    have hw := h.whole
    rw [← List.take_append_drop k t.avail, ← List.append_assoc] at hw
    exact hw
  atEof := fun he => by
    obtain ⟨he, hn, ha⟩ := h.atEof he
    exact ⟨he, hn, by simp [Tied.consume, ha]⟩
  stopped := h.stopped

theorem canRead (h : Inv t) : Inv { t with erc := .ok } := { h with atEof := nofun }

theorem release (h : Inv t) (ha : t.avail = []) : Inv { t with
    pipe := { t.pipe with bufs := t.pipe.bufs.drop t.pipe.nextBuf, nextBuf := 0 }
    base := [], len := 0 } where
  region := .none rfl rfl ha rfl
  bufPos := h.bufPos
  strings := fun b hb => h.strings b (List.mem_of_mem_drop hb)
  whole := h.whole
  atEof := fun he => by
    obtain ⟨he, hn, ha⟩ := h.atEof he
    exact ⟨he, by simp [hn], ha⟩
  stopped := h.stopped

theorem refill (h : Inv t) (hn : t.pipe.nextBuf = 0) (ha : t.avail = [])
    (hC : t.pipe.eof = true → t.pipe.bufs = []) : Inv { t with
      pipe := t.pipe.getdata.2, base := []
      avail := t.pipe.getdata.1.bp.take t.pipe.getdata.1.len.toNat
      len := t.pipe.getdata.1.len, erc := t.pipe.getdata.1.erc } := by
  have hwhole := h.whole
  rw [ha, List.append_nil, hn, List.drop_zero] at hwhole
  unfold Pipe.getdata
  split
  · next he =>
    exact { h with
      region := .none hn rfl rfl rfl
      whole := by simpa [hn] using hwhole
      atEof := fun _ => ⟨he, by rw [hn, hC he]; rfl, rfl⟩ }
  · next he =>
    rw [hn]
    split
    · next b hb =>
      obtain ⟨bs, hbs⟩ : ∃ bs, t.pipe.bufs = b :: bs := by
        cases hp : t.pipe.bufs with
        | nil => simp [hp] at hb
        | cons c bs => exact ⟨bs, by simpa [hp] using hb⟩
      have hlen := toInt_length (h.strings b (hbs ▸ .head _)).2
      have htake : b.take (toInt b.length).toNat = b := by
        rw [hlen, Int.toNat_natCast, List.take_length]
      exact { h with
        region := .front bs rfl (by simp [htake, hbs]) (by simp [hlen])
        whole := by simpa [htake, hbs] using hwhole
        atEof := nofun }
    · exact { h with
        region := .none hn rfl rfl rfl
        whole := by simpa [hn] using hwhole
        atEof := nofun }

theorem moredata (h : Inv t) (ha : t.avail = [])
    (hC : t.pipe.eof = true → t.pipe.nextBuf = t.pipe.bufs.length) :
    ∃ t', t.moredata = some t' ∧ Inv t' := by
  have hrel := h.release ha
  have hdrop (he : t.pipe.eof = true) : t.pipe.bufs.drop t.pipe.nextBuf = [] := by
    rw [hC he, List.drop_length]
  by_cases hlen : 0 < t.len
  · refine ⟨_, ?_, hrel.refill rfl ha hdrop⟩
    rw [Tied.moredata, if_pos hlen, h.rembytes_len hlen]
    rfl
  · have hn : t.pipe.nextBuf = 0 := by
      cases h.region with
      | none hn => exact hn
      | front bs _ hbs hl =>
        have hpos := List.length_pos_iff.mpr (h.strings (t.base ++ t.avail) (hbs ▸ .head _)).1
        omega
    refine ⟨_, ?_, h.refill hn ha fun he => ?_⟩
    · rw [Tied.moredata, if_neg hlen]
      rfl
    · rw [← hdrop he, hn, List.drop_zero]

theorem finish (h : Inv t) (hC : t.base = [] ∨ t.avail = []) :
    ∃ t', t.finish = some t' ∧ Inv t' := by
  have hstop {t : Tied} (h : Inv t) : Inv { t with pipe := t.pipe.finish } := by
    unfold Pipe.finish
    split
    · exact { h with stopped := fun _ => rfl }
    · exact h
  by_cases hb : t.base = []
  · have hlen : (0 : Int) ≤ t.len := by
      cases h.region with
      | none _ _ _ hl => omega
      | front _ _ _ hl => omega
    refine ⟨{ t with pipe := t.pipe.finish }, ?_, hstop h⟩
    rw [Tied.finish, hb, List.length_nil, Int.ofNat_zero, if_pos hlen, toInt_zero,
      Pipe.rembytes_zero (fun b hb => (h.strings b hb).1) h.bufPos, Int.sub_zero]
    obtain ⟨p, base, avail, len, erc, sent, got⟩ := t
    subst hb
    rfl
  · have ha := hC.resolve_left hb
    obtain hl : t.len = t.base.length := by
      cases h.region with
      | none _ hb' => exact absurd hb' hb
      | front _ _ _ hl => rw [hl, ha, List.append_nil]
    have hpos : 0 < t.len := by
      have := List.length_pos_iff.mpr hb
      omega
    refine ⟨_, ?_, hstop (h.release ha)⟩
    rw [Tied.finish, ← hl, if_pos (Int.le_refl _), h.rembytes_len hpos, Int.sub_self]
    rfl

theorem act (h : Inv t) {e : Event} (hC : Meets t e) (he : t.Enabled e) :
    ∃ t', t.act e = some t' ∧ Inv t' := by
  cases e with
  | readcb s => exact ⟨_, rfl, h.readcb he hC⟩
  | scheduleRead => exact ⟨_, rfl, h.scheduleRead⟩
  | consume k => exact ⟨_, rfl, h.consume k⟩
  | moredata => exact h.moredata he.1 hC
  | canRead => exact ⟨_, rfl, h.canRead⟩
  | finish => exact h.finish hC

theorem of_reach (h : system.Reach Meets t) : Inv t := by
  refine h.invariant (fun t ht => ?_) fun t e t' _ hI hC hs => ?_
  · subst ht
    exact {
      region := .none rfl rfl rfl rfl
      bufPos := rfl
      strings := nofun
      whole := rfl
      atEof := nofun
      stopped := nofun }
  · change (if t.Enabled e then t.act e else none) = some t' at hs
    by_cases he : t.Enabled e
    · obtain ⟨u, hu, hI'⟩ := hI.act hC he
      rw [if_pos he, hu] at hs
      cases hs
      exact hI'
    · rw [if_neg he] at hs
      cases hs

end Inv

/-- The pipe is delivered in every run whose events go well. -/
theorem delivers_of_meets (t : Tied) (h : system.Reach Meets t) : Delivers Meets t := by
  have hI := Inv.of_reach h
  exact {
    whole := hI.whole
    atEof := fun he => by
      obtain ⟨he, hn, ha⟩ := hI.atEof he
      refine ⟨he, ?_⟩
      rw [← hI.whole, ha, hn, List.drop_length, List.append_nil, List.flatten_nil, List.append_nil]
    nextBuf := hI.nextBuf_le
    bufPos := hI.head
    asserts := fun e hC he => by
      obtain ⟨u, hu, _⟩ := hI.act hC he
      rw [hu]
      rfl }

theorem delivers_of_meets_run : Delivers Meets
    { pipe := { bufs := [[97]], readOutstanding := false, pending := false, nextBuf := 1 },
      avail := [97], len := 1, sent := [97] } := by
  let t : Tied := {
    pipe := { bufs := [[97]], readOutstanding := false, pending := false }
    sent := [97] }
  have hread : system.Reach Meets t :=
    .step (e := Event.readcb (some [97])) (.init rfl) (fun b hb => by cases hb; decide) rfl
  exact delivers_of_meets _ (hread.step (e := Event.moredata) nofun rfl)

/-- The pipe ends before the string read from it is asked for: the reader sees `ABUF_EOF`, and never
gets the string. -/
theorem not_delivers : ¬ ∀ t, system.Reachable t → Delivers (fun _ _ => True) t := by
  intro h
  have hr : system.Reachable
      { pipe := { bufs := [[97]], eof := true, readOutstanding := false, pending := false },
        erc := .eof, sent := [97] } :=
    System.reachable_exec [.readcb (some [97]), .scheduleRead, .readcb none, .moredata] rfl
      (by decide)
  cases ((h _ hr).atEof rfl).2

/-- A reader that has used a part of its region trips an assertion of `rembytes` when it is done. -/
example : let t : Tied := { pipe := { bufs := [[97, 98]], nextBuf := 1 }, base := [97],
                            avail := [98], len := 2, sent := [97, 98], got := [97] }
    system.Reachable t ∧ t.act .finish = none :=
  ⟨System.reachable_exec [.readcb (some [97, 98]), .scheduleRead, .moredata, .consume 1] rfl
    (by decide), by decide⟩

end Okws.AbufPipe
