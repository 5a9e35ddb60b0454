import Mathlib.Data.List.TakeWhile
import Okws.AbufBulk
import Okws.Hdr
import Okws.Lib.Feed
import Okws.Proxy

universe u v

namespace Okws

open Lib Inet

/-- What `strtoi64` takes for a sign. -/
def sign : Str → Bool × Str
  | 45 :: t => (true, t)
  | 43 :: t => (false, t)
  | t => (false, t)

def skipHexPrefix : Str → Str
  | 48 :: x :: b :: t => if (x = 120 ∨ x = 88) ∧ digit b < 16 then b :: t else 48 :: x :: b :: t
  | t => t

/-- `strtoi64` with base 16, cut to a `u_int`; nothing if something is left. -/
def convertint16 (s : Str) : Option Nat :=
  let (neg, t) := sign ((cstr s).dropWhile Byte.isSpace)
  let t := skipHexPrefix t
  if t.head?.any fun b => digit b < 16 then
    let (n, r) := digits 16 0 t
    let i : Int := if neg then max (-(n : Int)) (-2 ^ 63) else min (n : Int) (2 ^ 63 - 1)
    if r = [] then some (i % 2 ^ 32).toNat else none
  -- the end pointer is at the beginning
  else if cstr s = [] then some 0 else none

inductive ChunkerSt
  | finishPrev | start | spc1 | eol1 | eol2 | done
  deriving DecidableEq

namespace ChunkerSt

def inc : ChunkerSt → ChunkerSt
  | finishPrev => start
  | start => spc1
  | spc1 => eol1
  | eol1 => eol2
  | eol2 | done => done

end ChunkerSt

/-- The counter `spcs` is a member of the buffer. -/
structure Chunker where
  state : ChunkerSt := .start
  scr : Scratch
  needLF : Bool := false
  spcs : Nat := 0
  sz : Nat := 0
  deriving DecidableEq

namespace Chunker

def nextChunk (c : Chunker) : Chunker := { c with sz := 0, state := .finishPrev }

def gobbleCrlf (c : Chunker) (a : Abuf) : Option Stat × Chunker × Abuf :=
  let (r, needLF, a) := scan Abuf.device Okws.gobbleCrlf c.needLF a
  (r, { c with needLF := needLF }, a)

def requireCrlf (c : Chunker) (a : Abuf) : Option Stat × Chunker × Abuf :=
  let (r, c, a) := c.gobbleCrlf a
  (r.map Okws.requireCrlf, c, a)

/-- The switch in `parse_guts`. -/
def act (c : Chunker) (a : Abuf) : Option Stat × Chunker × Abuf := match c.state with
  | .finishPrev => c.requireCrlf a
  | .start =>
    let (r, scr, a) := scan Abuf.device (delimitWord false) c.scr a
    let c := { c with scr := scr }
    match r with
    | none => (none, { c with sz := 0 }, a)
    | some (.error r) => (some r, { c with sz := 0 }, a)
    | some (.ok szStr) => match if szStr = [] then none else convertint16 szStr with
      | none => (some .parseErr, { c with sz := 0 }, a)
      | some tmp => (some .ok, { c with sz := tmp }, a)
  | .spc1 =>
    let (r, spcs, a) := scan Abuf.device (skipHwsScanner 0) c.spcs a
    (r, { c with spcs := spcs }, a)
  | .eol1 => c.requireCrlf a
  | .eol2 =>
    let (r, c, a) := c.gobbleCrlf a
    (r.map fun r => if r = .nomatch then .ok else r, c, a)
  | .done => (some .complete, c, a)

end Chunker

/-- What `run_chunker` is waiting for: the chunker, or the dumper with what it still has to read
and what it has. -/
inductive Meal
  | parse
  | dump (left : Nat) (buf : Str)
  deriving DecidableEq

structure RunChunker where
  meal : Meal := .parse
  chunker : Chunker
  abuf : Abuf
  chunks : List Str := []
  deriving DecidableEq

/-- The status and `_body`. -/
structure Meals where
  status : Nat
  body : Option Str
  deriving DecidableEq

namespace RunChunker

def httpOk : Nat := 200
def httpSrvError : Nat := 500

def finishedMeal (w : RunChunker) (status : Nat) : Meals :=
  ⟨status, if status = httpOk then some w.chunks.flatten else none⟩

/-- `eat_chunk` is done. -/
def eaten (w : RunChunker) (chnk : Str) : RunChunker := { w with
  meal := .parse
  chunks := w.chunks ++ [chnk]
  chunker := w.chunker.nextChunk
  abuf := w.abuf.canRead }

/-- A round of a loop: of `parse_guts` of the chunker, or of the dumper. -/
def step (w : RunChunker) : Iter RunChunker Meals := match w.meal with
  | .parse => match w.chunker.act w.abuf with
    | (none, c, a) => .wait { w with chunker := c, abuf := a }
    | (some .ok, c, a) => .next { w with chunker := { c with state := c.state.inc }, abuf := a }
    | (some .complete, c, a) =>
      if c.sz = 0 then .stop (w.finishedMeal httpOk)
      else .next { w with meal := .dump c.sz [], chunker := c, abuf := a.canRead }
    | (some _, _, _) => .stop (w.finishedMeal httpSrvError)
  | .dump left buf =>
    if left = 0 then .next (w.eaten buf)
    else match w.abuf.dump left with
      | (.data s, a) => .next { w with meal := .dump (left - s.length) (buf ++ s), abuf := a }
      | (.eof, a) => .next (eaten { w with abuf := a } buf)
      | (_, a) => .wait { w with abuf := a }

def machine : Machine RunChunker Meals where
  step := step
  resume w := { w with abuf := w.abuf.canRead }

/-- With the size of the scratch buffer and the reads of the network. -/
def start (cap : Nat) (rs : List Str) : RunChunker where
  chunker := { scr := { cap := cap } }
  abuf := { src := rs }

end RunChunker

structure Chunk where
  size : Str
  data : Str
  nonempty : data ≠ []
  value : size ≠ [] ∧ digits 16 0 size = (data.length, [])
  small : data.length < 2 ^ 31

def Chunk.encode (c : Chunk) : Str := c.size ++ crlf ++ c.data ++ crlf

/-- The encoding of a body, with the zeros of its last line. -/
def encodeChunks (cs : List Chunk) (zeros : Str) : Str :=
  cs.flatMap Chunk.encode ++ zeros ++ crlf ++ crlf

structure Abuf.Holds (a : Abuf) (l : Str) : Prop where
  sound : a.Sound
  ok : a.erc = .ok
  lim : a.lim < 0
  bytes : a.pushed ++ a.ahead = l

namespace Abuf.Holds

variable {a : Abuf} {l : Str} {b : UInt8}

theorem canRead (h : a.Holds l) : a.canRead.Holds l := ⟨h.sound.canRead, rfl, h.lim, h.bytes⟩

theorem ahead_eq (h : a.lim < 0) : a.ahead = a.avail ++ a.src.flatten := if_pos h

theorem unget (h : a.Holds l) (hbc : a.bc = false) (hlch : a.lch = .byte b) :
    a.unget.Holds (b :: l) := by
  have hbytes := h.bytes
  rw [pushed_of_bc hbc, List.nil_append] at hbytes
  have hunget : a.unget = { a with bc := true } := if_pos (by rw [hlch]; nofun)
  rw [hunget]
  refine ⟨⟨h.sound.erc, fun _ => by simp [hlch], h.sound.eof, h.sound.ccnt, h.sound.lim⟩, h.ok,
    h.lim, ?_⟩
  rw [← hbytes, pushed]
  simp only [hlch]
  rfl

theorem gotChar (b : UInt8) (cs : Str) (h : a.Sound) (ho : a.erc = .ok) (hbc : a.bc = false)
    (hlim : a.lim < 0) :
    (a.gotChar b cs).2.Holds (cs ++ a.src.flatten) := by
  refine ⟨⟨.inl ho, by simp [Abuf.gotChar], by simp [Abuf.gotChar], ?_, .inl hlim⟩, ho, hlim, ?_⟩
  · have := h.ccnt
    change 0 ≤ a.ccnt + 1
    omega
  · rw [pushed_of_bc (a := (a.gotChar b cs).2) hbc, ahead_eq (a := (a.gotChar b cs).2) hlim]
    rfl

theorem get (h : a.Holds (b :: l)) :
    (∃ a', a.get = (.byte b, a') ∧ a'.Holds l ∧ a'.unget.Holds (b :: l) ∧
      a'.src.length ≤ a.src.length ∧ a'.unget.src.length ≤ a.src.length) ∨
    ∃ a', a.get = (.wait, a') ∧ a'.canRead.Holds (b :: l) ∧
      a'.canRead.src.length < a.src.length := by
  obtain ⟨hsound, hok, hlim, hbytes⟩ := h
  have hsrc (a : Abuf) : a.unget.src = a.src := by
    unfold Abuf.unget
    split <;> rfl
  have hccnt := hsound.ccnt
  obtain ⟨hbc, hg⟩ | ⟨hbc, hl, hg⟩ | ⟨hbc, hl, ⟨c, cs, hav, hg⟩ | ⟨c, cs, rs, hav, he, hs, hg⟩ |
    ⟨rs, hav, he, hs, hg⟩ | ⟨hav, he, hs, hg⟩ | ⟨hav, he, hg⟩ | ⟨hav, he, hw, hg⟩⟩ :=
    get_cases a
  · cases hlch : a.lch with
    | byte c =>
      have hp : a.pushed = [c] := by simp [pushed, hbc, hlch]
      rw [hp, List.singleton_append, List.cons.injEq] at hbytes
      obtain ⟨rfl, hahead⟩ := hbytes
      have hHolds : ({ a with bc := false } : Abuf).Holds l :=
        ⟨⟨hsound.erc, by simp, hsound.eof, hsound.ccnt, hsound.lim⟩, hok, hlim, hahead⟩
      exact .inl ⟨_, by rw [hg, hlch], hHolds, hHolds.unget rfl hlch, Nat.le_refl _,
        Nat.le_of_eq (congrArg _ (hsrc _))⟩
    | eof =>
      have := hsound.eof hlch
      simp [pushed, hbc, hlch, ahead, this] at hbytes
    | wait => exact absurd hlch (hsound.bc hbc)
  · omega
  · rw [pushed_of_bc hbc, ahead_eq hlim, hav] at hbytes
    cases hbytes
    have hHolds := gotChar b cs hsound hok hbc hlim
    exact .inl ⟨_, hg, hHolds, hHolds.unget hbc rfl, Nat.le_refl _,
      Nat.le_of_eq (congrArg _ (hsrc _))⟩
  · rw [pushed_of_bc hbc, ahead_eq hlim, hav, hs] at hbytes
    cases hbytes
    have hsound' : ({ a with src := rs } : Abuf).Sound :=
      ⟨.inl hok, hsound.bc, fun heof => by simpa [hs] using (hsound.eof heof).2, hsound.ccnt,
        hsound.lim⟩
    have hHolds := gotChar b cs hsound' hok hbc hlim
    have hlen : rs.length ≤ a.src.length := by simp [hs]
    exact .inl ⟨_, hg, hHolds, hHolds.unget hbc rfl, hlen,
      Nat.le_trans (Nat.le_of_eq (congrArg _ (hsrc _))) hlen⟩
  · rw [pushed_of_bc hbc, ahead_eq hlim, hav, hs] at hbytes
    let a' : Abuf := { a with src := rs, erc := .wait, lch := .wait }
    have hsound' : a'.canRead.Sound :=
      ⟨.inl rfl, by simp [a', Abuf.canRead, hbc], by simp [a', Abuf.canRead], hccnt, hsound.lim⟩
    refine .inr ⟨a', hg, ⟨hsound', rfl, hlim, ?_⟩, by simp [a', Abuf.canRead, hs]⟩
    rw [pushed_of_bc (a := a'.canRead) hbc, ahead_eq (a := a'.canRead) hlim, ← hbytes]
    simp [a', Abuf.canRead, hav]
  · simp [pushed, ahead, hbc, hav, hs] at hbytes
  · simp [hok] at he
  · simp [hok] at he

theorem moredata_src (a : Abuf) : a.moredata.src.length ≤ a.src.length ∧
    (a.moredata.erc = .wait → a.moredata.src.length < a.src.length) ∧ a.moredata.lim = a.lim := by
  unfold moredata
  split
  · next hs => simp [hs]
  · next r rs hs => simp [hs]

theorem flush_lim (n : Nat) (a : Abuf) : (a.flush n).2.lim = a.lim := by
  unfold flush
  split <;> rfl

theorem dumpLoop_src (n : Nat) (a : Abuf) : (a.dumpLoop n).2.src.length ≤ a.src.length ∧
    (a.erc = .ok → (a.dumpLoop n).2.erc = .wait → (a.dumpLoop n).2.src.length < a.src.length) ∧
    (a.dumpLoop n).2.lim = a.lim := by
  fun_induction Abuf.dumpLoop n a with
  | case1 n a hn out a' hleft r ih =>
    obtain ⟨hle, hlt, hlim⟩ := ih
    obtain ⟨hle', hlt', hlim'⟩ := moredata_src a'
    have hsrc : a'.src = a.src := flush_src n a
    have hflim : a'.lim = a.lim := flush_lim n a
    rw [hsrc] at hle' hlt'
    refine ⟨Nat.le_trans hle hle', fun _ hw => ?_, hlim.trans (hlim'.trans hflim)⟩
    by_cases hok : a'.moredata.erc = .ok
    · exact Nat.lt_of_lt_of_le (hlt hok hw) hle'
    · -- the loop ends at once
      have hr : r = ([], a'.moredata) := by
        simp only [r]
        rw [Abuf.dumpLoop, dif_neg fun h => hok h.2]
      rw [hr] at hw ⊢
      exact hlt' hw
  | case2 n a hn out a' hleft =>
    refine ⟨Nat.le_of_eq (congrArg _ (flush_src n a)), fun _ hw => ?_, flush_lim n a⟩
    have herc : a'.erc = a.erc := flush_erc n a
    rw [herc, hn.2] at hw
    cases hw
  | case3 n a hn =>
    refine ⟨Nat.le_refl _, fun hok hw => ?_, rfl⟩
    rw [hok] at hw
    cases hw

theorem dumpLoop_length_le (n : Nat) (a : Abuf) : (a.dumpLoop n).1.length ≤ n := by
  fun_induction Abuf.dumpLoop n a with
  | case1 n a hn out a' hleft r ih =>
    have hle : out.length ≤ n := flush_length_le n a
    have hr : r.1.length ≤ n - out.length := ih
    rw [List.length_append]
    omega
  | case2 n a hn out a' hleft => exact flush_length_le n a
  | case3 n a hn => exact Nat.zero_le n

theorem flush_bc (n : Nat) (h : a.bc = false) : (a.flush n).2.bc = false := by
  unfold flush
  split
  · exact h
  · rfl

theorem moredata_bc (a : Abuf) : a.moredata.bc = a.bc := by
  unfold moredata
  split <;> rfl

theorem dumpLoop_bc (n : Nat) (a : Abuf) (h : a.bc = false) : (a.dumpLoop n).2.bc = false := by
  fun_induction Abuf.dumpLoop n a with
  | case1 n a hn out a' hleft r ih => exact ih ((moredata_bc a').trans (flush_bc n h))
  | case2 n a hn out a' hleft => exact flush_bc n h
  | case3 n a hn => exact h

theorem dump_bc {n : Nat} {a a' : Abuf} {b : Bulk} (h : a.dump n = (b, a')) (hbc : a.bc = false) :
    a'.bc = false := by
  unfold Abuf.dump at h
  split at h <;> cases h
  · exact hbc
  · exact dumpLoop_bc n a hbc

/-- `dump` gets what is asked for, or less of it before a wait or before the end, where only a
character that was pushed back can be left. -/
theorem dump_cases (n : Nat) (h : a.Holds l) :
    ∃ s a' l', a.dump n = (.data s, a') ∧ l = s ++ l' ∧ s.length ≤ n ∧ a'.canRead.Holds l' ∧
      (s.length = n ∨ (a'.getErrchar = some .wait ∧ a'.src.length < a.src.length) ∨
        (a'.getErrchar = some .eof ∧ l'.length ≤ 1 ∧ (a.bc = false → l' = []))) := by
  obtain ⟨hsound, hok, hlim, hbytes⟩ := h
  have herr : a.getErrchar = none := by
    unfold getErrchar
    rw [if_neg (by omega), hok]
  obtain ⟨hd, hd'⟩ := hsound.dumpLoop (n := n) fun _ => .inl hlim
  obtain ⟨-, hlt, hlim'⟩ := dumpLoop_src n a
  have hle := dumpLoop_length_le n a
  have hneg : (a.dumpLoop n).2.lim < 0 := by rw [hlim']; exact hlim
  have hlimit : ¬ (0 ≤ (a.dumpLoop n).2.lim ∧ (a.dumpLoop n).2.lim ≤ (a.dumpLoop n).2.ccnt) := by
    omega
  refine ⟨(a.dumpLoop n).1, (a.dumpLoop n).2, (a.dumpLoop n).2.pushed ++ (a.dumpLoop n).2.ahead,
    by simp [Abuf.dump, herr], hbytes ▸ hd', hle, ⟨hd.canRead, rfl, hneg, rfl⟩, ?_⟩
  obtain hfull | hne := dumpLoop_length n a
  · exact .inl hfull
  · obtain hok' | ⟨hav, hw | ⟨he, hsrc⟩⟩ := hd.erc
    · exact absurd hok' hne
    · refine .inr (.inl ⟨?_, hlt hok hw⟩)
      unfold getErrchar
      rw [if_neg hlimit, hw]
    · have hahead : (a.dumpLoop n).2.ahead = [] := by simp [ahead, hav, hsrc]
      have hpushed : (a.dumpLoop n).2.pushed.length ≤ 1 := by
        unfold pushed
        split <;> simp
      refine .inr (.inr ⟨?_, ?_, fun hbc => ?_⟩)
      · unfold getErrchar
        rw [if_neg hlimit, he]
      · rw [hahead, List.append_nil]
        exact hpushed
      · rw [hahead, pushed_of_bc (dumpLoop_bc n a hbc)]
        rfl

end Abuf.Holds

def Abuf.source : Source Abuf.device Abuf.canRead where
  Has := Abuf.Holds
  waits a := a.src.length
  get := Abuf.Holds.get

section Dumper

/-- A machine in which the dumper works: `put` are its states then, and `fin` is what comes next. -/
structure Dumps {W : Type u} {O : Type v} (M : Machine W O) (put : Nat → Str → Abuf → W)
    (fin : Str → Abuf → Iter W O) : Prop where
  step : ∀ left buf a, M.step (put left buf a) =
    if left = 0 then fin buf a
    else match a.dump left with
      | (.data s, a) => .next (put (left - s.length) (buf ++ s) a)
      | (.eof, a) => fin buf a
      | (_, a) => .wait (put left buf a)
  resume : ∀ left buf a, M.resume (put left buf a) = put left buf a.canRead

variable {W : Type u} {O : Type v} {M : Machine W O} {put : Nat → Str → Abuf → W}
  {fin : Str → Abuf → Iter W O} {a : Abuf} {l : Str}

theorem Dumps.reaches (hM : Dumps M put fin) (n : Nat) (buf : Str) (h : a.Holds l) :
    ∃ u s l' a', M.Reaches (put n buf a) u ∧ M.step u = fin (buf ++ s) a' ∧ l = s ++ l' ∧
      s.length ≤ n ∧ a'.canRead.Holds l' ∧
      (s.length = n ∨ (l'.length ≤ 1 ∧ (a.bc = false → l' = []))) := by
  induction hsrc : a.src.length using Nat.strongRecOn generalizing n buf a l with
  | ind k ih =>
    obtain rfl | hpos := Nat.eq_zero_or_pos n
    · refine ⟨_, [], l, a, .refl, ?_, rfl, Nat.le_refl _, h.canRead, .inl rfl⟩
      rw [hM.step, if_pos rfl, List.append_nil]
    obtain ⟨s, a', l', hdump, rfl, hle, hh, hcase⟩ := h.dump_cases n
    have hnext : M.Reaches (put n buf a) (put (n - s.length) (buf ++ s) a') :=
      .next .refl (by rw [hM.step, if_neg (Nat.ne_of_gt hpos), hdump])
    by_cases hfull : s.length = n
    · refine ⟨_, s, l', a', hnext, ?_, rfl, hle, hh, .inl hfull⟩
      rw [hM.step, if_pos (by omega)]
    have hne : n - s.length ≠ 0 := by omega
    obtain hfull' | ⟨hwait, hlt⟩ | ⟨heof, hshort, hnil⟩ := hcase
    · exact absurd hfull' hfull
    · have hresume : M.Reaches (put (n - s.length) (buf ++ s) a')
          (put (n - s.length) (buf ++ s) a'.canRead) := by
        rw [← hM.resume]
        refine .wait .refl ?_
        rw [hM.step, if_neg hne]
        simp only [Abuf.dump, hwait]
      obtain ⟨u, s', l₁, a₁, hr, hstep, rfl, hle', hh', hcase'⟩ :=
        ih a'.canRead.src.length (hsrc ▸ hlt) (n - s.length) (buf ++ s) hh rfl
      refine ⟨u, s ++ s', l₁, a₁, (hnext.trans hresume).trans hr, ?_, ?_, ?_, hh', ?_⟩
      · rw [hstep, List.append_assoc]
      · rw [List.append_assoc]
      · rw [List.length_append]
        omega
      · rw [List.length_append]
        refine hcase'.imp (fun hs' => by omega) fun ⟨hshort, hnil⟩ => ⟨hshort, fun hbc => ?_⟩
        exact hnil (show a'.bc = false from Abuf.Holds.dump_bc hdump hbc)
    · refine ⟨_, s, l', a', hnext, ?_, rfl, hle, hh, .inr ⟨hshort, hnil⟩⟩
      rw [hM.step, if_neg hne]
      simp only [Abuf.dump, heof]

end Dumper

namespace Chunker

section Feed

variable {l : Str} {b : UInt8}

theorem feed_crlf : feed Okws.gobbleCrlf false (crlf ++ l) = some (.ok, false, l) := rfl

theorem feed_lf : feed Okws.gobbleCrlf false (Byte.lf :: l) = some (.ok, false, l) := rfl

theorem feed_plain (hb : Byte.isEol b = false) :
    feed Okws.gobbleCrlf false (b :: l) = some (.nomatch, false, b :: l) := by
  simp only [Byte.isEol, Bool.or_eq_false_iff, beq_eq_false_iff_ne] at hb
  simp [feed, Okws.gobbleCrlf, hb]

theorem feed_cr (hb : b ≠ Byte.lf) :
    ∃ l', feed Okws.gobbleCrlf false (Byte.cr :: b :: l) = some (.parseErr, false, l') := by
  change b ≠ 10 at hb
  by_cases hcr : b = 13
  · exact ⟨l, by simp [feed, Okws.gobbleCrlf, hcr, Byte.cr, Byte.lf]⟩
  · exact ⟨b :: l, by simp [feed, Okws.gobbleCrlf, hcr, hb, Byte.cr, Byte.lf]⟩

theorem feed_hws : feed (skipHwsScanner 0) 0 (crlf ++ l) = some (.ok, 0, crlf ++ l) := rfl

def Plain (w : Str) : Prop := ∀ b ∈ w, (Byte.isHws b || Byte.isEol b) = false

theorem word_byte {s : Scratch} (hb : (Byte.isHws b || Byte.isEol b) = false) :
    (delimitWord false).byte s b = .next { s with text := s.text ++ [b] } := by
  simp only [Bool.or_eq_false_iff] at hb
  by_cases hq : b = 63 <;> simp [delimitWord, delimScanner, hq, hb.1, hb.2]

theorem word_guard {s : Scratch} :
    (delimitWord false).guard s = if s.cap ≤ s.text.length then some (.error .overflow) else none :=
  rfl

theorem feed_word {w : Str} {cap : Nat} (text : Str) (hw : Plain w)
    (hcap : text.length + w.length < cap) :
    feed (delimitWord false) { text := text, cap := cap } (w ++ crlf ++ l) =
      some (.ok (text ++ w), { cap := cap }, crlf ++ l) := by
  induction w generalizing text with
  | nil =>
    have hlt : ¬ cap ≤ text.length := by simpa using hcap
    simp [feed, delimitWord, delimScanner, crlf, hlt, Byte.isHws, Byte.isEol, Byte.cr, Byte.sp,
      Byte.ht]
  | cons b w ih =>
    obtain ⟨hb, hw⟩ := List.forall_mem_cons.mp hw
    rw [List.length_cons] at hcap
    have hlt : ¬ cap ≤ text.length := by omega
    have hih := ih (text ++ [b]) hw
      (by rw [List.length_append, List.length_singleton]; omega)
    rw [List.append_assoc text, List.singleton_append] at hih
    rw [List.cons_append, List.cons_append, feed, word_guard, if_neg hlt, word_byte hb]
    exact hih

theorem feed_overflow {w : Str} {cap : Nat} (text : Str) (hw : Plain w)
    (hcap : cap ≤ text.length + w.length) :
    ∃ s' l', feed (delimitWord false) { text := text, cap := cap } (w ++ l) =
      some (.error .overflow, s', l') := by
  have hguard {text : Str} (h : cap ≤ text.length) (l : Str) :
      feed (delimitWord false) { text := text, cap := cap } l =
        some (.error .overflow, { text := text, cap := cap }, l) := by
    cases l <;> simp [feed, word_guard, h]
  induction w generalizing text with
  | nil => exact ⟨_, _, hguard hcap _⟩
  | cons b w ih =>
    by_cases hle : cap ≤ text.length
    · exact ⟨_, _, hguard hle _⟩
    · obtain ⟨hb, hw⟩ := List.forall_mem_cons.mp hw
      rw [List.length_cons] at hcap
      obtain ⟨s', l', hih⟩ := ih (text ++ [b]) hw
        (by rw [List.length_append, List.length_singleton]; omega)
      refine ⟨s', l', ?_⟩
      rw [List.cons_append, feed, word_guard, if_neg hle, word_byte hb]
      exact hih

structure Writes (w : Str) (n : Nat) : Prop where
  nonempty : w ≠ []
  digits : digits 16 0 w = (n, [])
  small : n < 2 ^ 31

theorem digit_lt_of_digits {w : Str} {m n : Nat} (h : digits 16 m w = (n, [])) :
    ∀ b ∈ w, digit b < 16 := by
  induction w generalizing m with
  | nil => nofun
  | cons b w ih =>
    rw [Inet.digits] at h
    split at h
    · next hb => exact List.forall_mem_cons.mpr ⟨hb, ih h⟩
    · cases h

theorem hex_plain (h : digit b < 16) : (Byte.isHws b || Byte.isEol b) = false ∧
    Byte.isSpace b = false ∧ b ≠ 0 ∧ b ≠ 43 ∧ b ≠ 45 ∧ b ≠ 88 ∧ b ≠ 120 := by
  unfold digit isDigit at h
  refine ⟨?_, ?_, ?_, ?_, ?_, ?_, ?_⟩
  · grind [Byte.isHws, Byte.isEol, Byte.sp, Byte.ht, Byte.cr, Byte.lf]
  · grind [Byte.isSpace, Byte.sp]
  all_goals grind

variable {w : Str} {n : Nat}

theorem Writes.plain (h : Writes w n) : Plain w :=
  fun b hb => (hex_plain (digit_lt_of_digits h.digits b hb)).1

theorem Writes.head (h : Writes w n) : ∃ b t, w = b :: t ∧ Byte.isEol b = false := by
  obtain ⟨b, t, rfl⟩ := List.exists_cons_of_ne_nil h.nonempty
  exact ⟨b, t, rfl, (Bool.or_eq_false_iff.mp (h.plain b List.mem_cons_self)).2⟩

theorem convertint16_digits {w : Str} {n : Nat} (hne : w ≠ []) (hd : Inet.digits 16 0 w = (n, [])) :
    convertint16 w = some (min n (2 ^ 63 - 1) % 2 ^ 32) := by
  have hhex := digit_lt_of_digits hd
  have hcstr : cstr w = w :=
    List.takeWhile_eq_self_iff.mpr fun b hb => decide_eq_true (hex_plain (hhex b hb)).2.2.1
  obtain ⟨b, t, rfl⟩ := List.exists_cons_of_ne_nil hne
  have hb : digit b < 16 := hhex b List.mem_cons_self
  obtain ⟨-, hspace, -, hplus, hminus, -, -⟩ := hex_plain hb
  have hdrop : (b :: t).dropWhile Byte.isSpace = b :: t :=
    List.dropWhile_cons_of_neg (by simp [hspace])
  have hsign : sign (b :: t) = (false, b :: t) := by
    unfold sign
    split <;> simp_all
  have hpre : skipHexPrefix (b :: t) = b :: t := by
    unfold skipHexPrefix
    split
    · next x c u heq =>
      obtain ⟨-, -, -, -, -, h88, h120⟩ := hex_plain (hhex x (by rw [heq]; simp))
      rw [heq, if_neg fun hx => hx.1.elim h120 h88]
    · rfl
  unfold Okws.convertint16
  rw [hcstr, hdrop, hsign]
  dsimp only
  rw [hpre, List.head?_cons, Option.any_some, if_pos (decide_eq_true hb), hd]
  simp only [if_true, Bool.false_eq_true, if_false, Option.some.injEq]
  omega

theorem Writes.convertint16 (h : Writes w n) : Okws.convertint16 w = some n := by
  have hsmall := h.small
  rw [convertint16_digits h.nonempty h.digits, Option.some.injEq]
  omega

end Feed

end Chunker

namespace RunChunker

open Chunker

variable {a : Abuf} {l : Str} {st : ChunkerSt} (cap : Nat) (done : List Str) (sz : Nat)

def between (cap : Nat) (done : List Str) (st : ChunkerSt) (sz : Nat) (a : Abuf) :
    RunChunker where
  chunker := { state := st, scr := { cap := cap }, sz := sz }
  abuf := a
  chunks := done

def inLine (cap : Nat) (done : List Str) (st : ChunkerSt) (sz : Nat) (needLF : Bool)
    (a : Abuf) : RunChunker where
  chunker := { state := st, scr := { cap := cap }, needLF := needLF, sz := sz }
  abuf := a
  chunks := done

theorem reaches_line {r : Stat} {l' : Str} (hst : st = .finishPrev ∨ st = .eol1 ∨ st = .eol2)
    (h : a.Holds l) (hf : feed Okws.gobbleCrlf false l = some (r, false, l')) :
    ∃ needLF a₁ a₂, machine.Reaches (between cap done st sz a) (inLine cap done st sz needLF a₁) ∧
      scan Abuf.device Okws.gobbleCrlf needLF a₁ = (some r, false, a₂) ∧ a₂.Holds l' := by
  obtain ⟨s₁, d₁, d₂, hr, hs, hh, -⟩ := Abuf.source.reaches (M := machine)
    (inLine cap done st sz) (fun {s s' d d'} hscan => by
      obtain rfl | rfl | rfl := hst <;>
        simp [machine, step, inLine, act, Chunker.requireCrlf, Chunker.gobbleCrlf, hscan])
    (fun _ _ => rfl) h hf
  exact ⟨s₁, d₁, d₂, hr, hs, hh⟩

theorem reaches_crlf {l' : Str} (hst : st = .finishPrev ∨ st = .eol1 ∨ st = .eol2)
    (h : a.Holds l) (hf : feed Okws.gobbleCrlf false l = some (.ok, false, l')) :
    ∃ a', machine.Reaches (between cap done st sz a) (between cap done st.inc sz a') ∧
      a'.Holds l' := by
  obtain ⟨needLF, a₁, a₂, hr, hs, hh⟩ := reaches_line cap done sz hst h hf
  refine ⟨a₂, hr.next ?_, hh⟩
  obtain rfl | rfl | rfl := hst <;>
    simp [machine, step, inLine, between, act, Chunker.requireCrlf, Chunker.gobbleCrlf, hs,
      Okws.requireCrlf]

theorem ends_line {r : Stat} {l' : Str} (hst : st = .finishPrev ∨ st = .eol1 ∨ st = .eol2)
    (h : a.Holds l) (hf : feed Okws.gobbleCrlf false l = some (r, false, l'))
    (hr : r = .parseErr ∨ r = .nomatch ∧ st = .finishPrev) :
    machine.Ends (between cap done st sz a) ⟨httpSrvError, none⟩ := by
  obtain ⟨needLF, a₁, a₂, hreach, hs, -⟩ :=
    reaches_line cap done sz hst h hf
  refine hreach.ends.mpr ((Machine.ends_stop ?_).mpr rfl)
  obtain rfl | ⟨rfl, rfl⟩ := hr
  · obtain rfl | rfl | rfl := hst <;>
      simp [machine, step, inLine, act, Chunker.requireCrlf, Chunker.gobbleCrlf, hs,
        Okws.requireCrlf, finishedMeal, httpSrvError, httpOk]
  · simp [machine, step, inLine, act, Chunker.requireCrlf, Chunker.gobbleCrlf, hs,
      Okws.requireCrlf, finishedMeal, httpSrvError, httpOk]

theorem reaches_plain {b : UInt8} (h : a.Holds (b :: l)) (hb : Byte.isEol b = false) :
    ∃ a', machine.Reaches (between cap done .eol2 sz a) (between cap done .done sz a') ∧
      a'.Holds (b :: l) := by
  obtain ⟨needLF, a₁, a₂, hr, hs, hh⟩ := reaches_line cap done sz
    (.inr (.inr (Eq.refl ChunkerSt.eol2))) h (feed_plain hb)
  refine ⟨a₂, hr.next ?_, hh⟩
  simp [machine, step, inLine, between, act, Chunker.gobbleCrlf, hs, ChunkerSt.inc]

theorem reaches_size {w : Str} {n : Nat} (hw : Writes w n) (hcap : w.length < cap)
    (h : a.Holds (w ++ crlf ++ l)) :
    ∃ a', machine.Reaches (between cap done .start 0 a) (between cap done .eol2 n a') ∧
      a'.Holds l := by
  have hword := feed_word (l := l) [] hw.plain (by simpa using hcap)
  obtain ⟨s₁, d₁, a₁, hr, hs, hh, -⟩ := Abuf.source.reaches (M := machine)
    (fun scr a => ({ chunker := { scr := scr }, abuf := a, chunks := done } : RunChunker))
    (fun hscan => by simp [machine, step, act, hscan]) (fun _ _ => rfl) h hword
  have hstart : machine.Reaches (between cap done .start 0 a) (between cap done .spc1 n a₁) := by
    refine Machine.Reaches.next hr ?_
    simp [machine, step, between, act, hs, hw.nonempty, hw.convertint16, ChunkerSt.inc]
  obtain ⟨s₂, d₂, a₂, hr₂, hs₂, hh₂, -⟩ := Abuf.source.reaches (M := machine)
    (fun spcs a => ({
      chunker := { state := .spc1, scr := { cap := cap }, spcs := spcs, sz := n }
      abuf := a
      chunks := done } : RunChunker))
    (fun hscan => by simp [machine, step, act, hscan]) (fun _ _ => rfl) hh feed_hws
  have hspc : machine.Reaches (between cap done .spc1 n a₁) (between cap done .eol1 n a₂) := by
    refine Machine.Reaches.next hr₂ ?_
    simp [machine, step, between, act, hs₂, ChunkerSt.inc]
  obtain ⟨a₃, hr₃, hh₃⟩ := reaches_crlf cap done n (.inr (.inl rfl)) hh₂ feed_crlf
  exact ⟨a₃, (hstart.trans hspc).trans hr₃, hh₃⟩

theorem ends_overflow {w : Str} (hw : Chunker.Plain w) (hcap : cap ≤ w.length)
    (h : a.Holds (w ++ l)) :
    machine.Ends (between cap done .start 0 a) ⟨httpSrvError, none⟩ := by
  obtain ⟨s', l', hword⟩ := feed_overflow (l := l) [] hw (by simpa using hcap)
  obtain ⟨s₁, d₁, a₁, hr, hs, -, -⟩ := Abuf.source.reaches (M := machine)
    (fun scr a => ({ chunker := { scr := scr }, abuf := a, chunks := done } : RunChunker))
    (fun hscan => by simp [machine, step, act, hscan]) (fun _ _ => rfl) h hword
  refine (Machine.Reaches.ends hr).mpr ((Machine.ends_stop ?_).mpr rfl)
  simp [machine, step, act, hs, finishedMeal, httpSrvError, httpOk]

def dumping (c : Chunker) (done : List Str) (left : Nat) (buf : Str) (a : Abuf) : RunChunker where
  meal := .dump left buf
  chunker := c
  abuf := a
  chunks := done

theorem dumps (c : Chunker) (done : List Str) :
    Dumps machine (dumping c done) fun buf a => .next
      { chunker := c.nextChunk, abuf := a.canRead, chunks := done ++ [buf] } where
  step left buf a := by
    by_cases hleft : left = 0
    · exact (if_pos hleft).trans (if_pos hleft).symm
    · rcases hdump : a.dump left with ⟨_ | _ | _ | _, a'⟩ <;>
        simp [machine, step, dumping, eaten, hleft, hdump]
  resume _ _ _ := rfl

theorem reaches_dump (n : Nat) (buf : Str) {c : Chunker} (h : a.Holds l) (hn : n + 2 ≤ l.length) :
    ∃ a', machine.Reaches (dumping c done n buf a)
        { chunker := c.nextChunk, abuf := a', chunks := done ++ [buf ++ l.take n] } ∧
      a'.Holds (l.drop n) := by
  obtain ⟨u, s, l', a', hr, hstep, rfl, hle, hh, hcase⟩ := (dumps c done).reaches n buf h
  have hfull : s.length = n := hcase.resolve_right fun ⟨hshort, _⟩ => by
    rw [List.length_append] at hn
    omega
  subst hfull
  rw [List.take_left, List.drop_left]
  exact ⟨a'.canRead, hr.next hstep, hh⟩

theorem step_next {w w' : RunChunker} (h : machine.step w = .next w') : w.chunks <+: w'.chunks := by
  change step w = _ at h
  unfold step at h
  repeat' split at h
  all_goals first
    | cases h; exact List.prefix_refl _
    | cases h; exact List.prefix_append _ _
    | cases h

theorem step_wait {w w' : RunChunker} (h : machine.step w = .wait w') : w'.chunks = w.chunks := by
  change step w = _ at h
  unfold step at h
  repeat' split at h
  all_goals first
    | cases h; rfl
    | cases h

theorem step_stop {w : RunChunker} {status : Nat} {body : Str}
    (h : machine.step w = .stop ⟨status, some body⟩) : body = w.chunks.flatten := by
  change step w = _ at h
  unfold step at h
  repeat' split at h
  all_goals first
    | cases h; done
    | cases h; rfl

theorem ends_body {w : RunChunker} {status : Nat} {body : Str}
    (h : machine.Ends w ⟨status, some body⟩) : w.chunks.flatten <+: body := by
  obtain ⟨u, hr, hstop⟩ := h.last
  have hinv : w.chunks <+: u.chunks :=
    hr.invariant (I := fun u => w.chunks <+: u.chunks) (fun h hs => h.trans (step_next hs))
      (fun h hs => h.trans (by rw [← step_wait hs]; exact List.prefix_refl _)) (List.prefix_refl _)
  obtain ⟨more, hmore⟩ := hinv
  rw [step_stop hstop, ← hmore, List.flatten_append]
  exact List.prefix_append _ _

end RunChunker

theorem Chunk.writes (c : Chunk) : Chunker.Writes c.size c.data.length :=
  ⟨c.value.1, c.value.2, c.small⟩

/-- The size fits into the scratch buffer, and the chunk does not begin as an end of a line does. -/
def Chunk.Clear (cap : Nat) (c : Chunk) : Prop :=
  c.size.length < cap ∧ ∀ b ∈ c.data.head?, Byte.isEol b = false

namespace RunChunker

variable {cap : Nat} {a : Abuf} {rest zeros : Str} (done : List Str)

theorem reaches_data {data tail : Str} (hpos : data ≠ []) (htail : 2 ≤ tail.length)
    (h : a.Holds (data ++ tail)) :
    ∃ a', machine.Reaches (between cap done .done data.length a)
        (between cap (done ++ [data]) .finishPrev 0 a') ∧ a'.Holds tail := by
  have hstep : machine.step (between cap done .done data.length a) =
      .next (dumping { state := .done, scr := { cap := cap }, sz := data.length } done data.length
        [] a.canRead) := by
    simp [machine, step, between, dumping, Chunker.act, hpos]
  obtain ⟨a₁, hr₁, hh₁⟩ := reaches_dump done data.length []
    (c := { state := .done, scr := { cap := cap }, sz := data.length }) h.canRead
    (by rw [List.length_append]; omega)
  rw [List.nil_append, List.take_left] at hr₁
  rw [List.drop_left] at hh₁
  exact ⟨a₁, (Machine.Reaches.next .refl hstep).trans hr₁, hh₁⟩

theorem reaches_chunk {c : Chunk} {l : Str} (hc : c.Clear cap) (h : a.Holds (c.encode ++ l)) :
    ∃ a', machine.Reaches (between cap done .start 0 a)
        (between cap (done ++ [c.data]) .start 0 a') ∧ a'.Holds l := by
  obtain ⟨hcap, hclear⟩ := hc
  obtain ⟨b, d, hdata⟩ := List.exists_cons_of_ne_nil c.nonempty
  have hb : Byte.isEol b = false := hclear b (by simp [hdata])
  have henc : c.encode ++ l = c.size ++ crlf ++ (b :: (d ++ (crlf ++ l))) := by
    simp [Chunk.encode, hdata]
  obtain ⟨a₁, hr₁, hh₁⟩ := reaches_size cap done c.writes hcap (henc ▸ h)
  obtain ⟨a₂, hr₂, hh₂⟩ := reaches_plain cap done c.data.length hh₁ hb
  rw [← List.cons_append, ← hdata] at hh₂
  obtain ⟨a₃, hr₃, hh₃⟩ := reaches_data done c.nonempty (by simp [crlf]) hh₂
  obtain ⟨a₄, hr₄, hh₄⟩ := reaches_crlf cap (done ++ [c.data]) 0
    (.inl (Eq.refl ChunkerSt.finishPrev)) hh₃ Chunker.feed_crlf
  exact ⟨a₄, ((hr₁.trans hr₂).trans hr₃).trans hr₄, hh₄⟩

theorem not_ends_chunk {c : Chunk} {l body : Str} {b x y : UInt8} {d : Str}
    (hcap : c.size.length < cap) (hdata : c.data = b :: d) (hb : Byte.isEol b = true)
    (hx : Byte.isEol x = false) (h : a.Holds (c.encode ++ x :: y :: l)) :
    ¬ machine.Ends (between cap done .start 0 a)
      ⟨httpOk, some (done.flatten ++ (c.data ++ body))⟩ := by
  have henc : c.encode ++ x :: y :: l = c.size ++ crlf ++ (b :: (d ++ (crlf ++ x :: y :: l))) := by
    simp [Chunk.encode, hdata]
  obtain ⟨a₁, hr₁, hh₁⟩ := reaches_size cap done c.writes hcap (henc ▸ h)
  rw [hr₁.ends, hdata]
  have herror {w : RunChunker} (hend : machine.Ends w ⟨httpSrvError, none⟩) :
      ¬ machine.Ends w ⟨httpOk, some (done.flatten ++ (b :: d ++ body))⟩ := by
    intro hend'
    cases hend.unique hend'
  simp only [Byte.isEol, Bool.or_eq_true, beq_iff_eq] at hb
  obtain rfl | rfl := hb
  · by_cases hlf : ∃ d', d = Byte.lf :: d'
    · -- the end of the line is eaten, and that of the chunk is taken for its last bytes
      obtain ⟨d, rfl⟩ := hlf
      obtain ⟨a₂, hr₂, hh₂⟩ := reaches_crlf cap done (Byte.cr :: Byte.lf :: d).length
        (.inr (.inr (Eq.refl ChunkerSt.eol2))) hh₁ Chunker.feed_crlf
      have hh₂ : a₂.Holds ((d ++ crlf) ++ x :: y :: l) := by simpa using hh₂
      have hlen : (Byte.cr :: Byte.lf :: d).length = (d ++ crlf).length := by simp [crlf]
      rw [hlen] at hr₂ ⊢
      obtain ⟨a₃, hr₃, hh₃⟩ := reaches_data done (by simp [crlf]) (by simp) hh₂
      rw [hr₂.ends, ChunkerSt.inc, hr₃.ends]
      exact herror (ends_line cap _ 0 (.inl rfl) hh₃ (Chunker.feed_plain hx) (.inr ⟨rfl, rfl⟩))
    · refine herror ?_
      obtain ⟨u, v, hu, huv⟩ : ∃ u v, u ≠ Byte.lf ∧ d ++ (crlf ++ x :: y :: l) = u :: v := by
        cases d with
        | nil => exact ⟨_, _, by decide, rfl⟩
        | cons u d => exact ⟨u, _, fun heq => hlf ⟨d, by rw [heq]⟩, rfl⟩
      rw [huv] at hh₁
      obtain ⟨l', hfeed⟩ := Chunker.feed_cr (l := v) hu
      exact ends_line cap _ _ (.inr (.inr rfl)) hh₁ hfeed (.inl rfl)
  · -- the chunk's last byte is taken from the end of its line
    obtain ⟨a₂, hr₂, hh₂⟩ := reaches_crlf cap done (Byte.lf :: d).length
      (.inr (.inr (Eq.refl ChunkerSt.eol2))) hh₁ Chunker.feed_lf
    have hh₂ : a₂.Holds ((d ++ [Byte.cr]) ++ Byte.lf :: x :: y :: l) := by simpa [crlf] using hh₂
    have hlen : (Byte.lf :: d).length = (d ++ [Byte.cr]).length := by simp
    rw [hlen] at hr₂ ⊢
    obtain ⟨a₃, hr₃, -⟩ := reaches_data done (by simp) (by simp) hh₂
    rw [hr₂.ends, ChunkerSt.inc, hr₃.ends]
    intro hend
    have hpre := ends_body hend
    change (done ++ [d ++ [Byte.cr]]).flatten <+: _ at hpre
    rw [List.flatten_append, List.flatten_singleton, List.prefix_append_right_inj] at hpre
    have heq : d ++ [Byte.cr] = Byte.lf :: d :=
      (List.prefix_of_prefix_length_le hpre (List.prefix_append _ _) (by simp)).eq_of_length
        (by simp)
    have hcount := congrArg (List.count Byte.lf) heq
    simp [Byte.cr, Byte.lf] at hcount

theorem ends_last (hz : Chunker.Writes zeros 0) (h : a.Holds (zeros ++ crlf ++ (crlf ++ rest))) :
    machine.Ends (between cap done .start 0 a) ⟨httpOk, some done.flatten⟩ ↔
      zeros.length < cap := by
  constructor
  · intro hend
    by_contra hcap
    rw [List.append_assoc] at h
    cases hend.unique (ends_overflow cap done hz.plain (Nat.not_lt.mp hcap) h)
  · intro hcap
    obtain ⟨a₁, hr₁, hh₁⟩ := reaches_size cap done hz hcap h
    obtain ⟨a₂, hr₂, -⟩ := reaches_crlf cap done 0 (.inr (.inr (Eq.refl ChunkerSt.eol2))) hh₁
      Chunker.feed_crlf
    refine (hr₁.trans hr₂).ends.mpr ((Machine.ends_stop ?_).mpr rfl)
    simp [machine, step, between, Chunker.act, ChunkerSt.inc, finishedMeal]

theorem encodeChunks_head (cs : List Chunk) (hz : Chunker.Writes zeros 0) :
    ∃ x y l, encodeChunks cs zeros ++ rest = x :: y :: l ∧ Byte.isEol x = false := by
  cases cs with
  | nil =>
    obtain ⟨x, t, rfl, hx⟩ := hz.head
    cases t with
    | nil => exact ⟨x, Byte.cr, _, rfl, hx⟩
    | cons y t => exact ⟨x, y, _, rfl, hx⟩
  | cons c cs =>
    obtain ⟨x, t, hsize, hx⟩ := c.writes.head
    have henc : encodeChunks (c :: cs) zeros ++ rest =
        x :: (t ++ crlf ++ c.data ++ crlf ++ (encodeChunks cs zeros ++ rest)) := by
      simp [encodeChunks, Chunk.encode, hsize]
    rw [henc]
    cases t with
    | nil => exact ⟨x, Byte.cr, _, rfl, hx⟩
    | cons y t => exact ⟨x, y, _, rfl, hx⟩

theorem ends_iff {cs : List Chunk} (hz : Chunker.Writes zeros 0)
    (h : a.Holds (encodeChunks cs zeros ++ rest)) :
    machine.Ends (between cap done .start 0 a)
        ⟨httpOk, some (done.flatten ++ cs.flatMap Chunk.data)⟩ ↔
      (∀ c ∈ cs, c.Clear cap) ∧ zeros.length < cap := by
  induction cs generalizing done a with
  | nil =>
    have h : a.Holds (zeros ++ crlf ++ (crlf ++ rest)) := by simpa [encodeChunks] using h
    simpa using ends_last done hz h
  | cons c cs ih =>
    have henc : encodeChunks (c :: cs) zeros ++ rest =
        c.encode ++ (encodeChunks cs zeros ++ rest) := by
      simp [encodeChunks]
    rw [henc] at h
    rw [List.forall_mem_cons, List.flatMap_cons]
    by_cases hc : c.Clear cap
    · obtain ⟨a', hr, hh⟩ := reaches_chunk done hc h
      have hih := ih (done ++ [c.data]) hh
      rw [List.flatten_append, List.flatten_singleton, List.append_assoc] at hih
      rw [hr.ends, hih]
      simp [hc]
    · refine iff_of_false ?_ fun hall => hc hall.1.1
      by_cases hcap : c.size.length < cap
      · obtain ⟨b, d, hdata⟩ := List.exists_cons_of_ne_nil c.nonempty
        have hb : Byte.isEol b = true := by
          by_contra hb
          exact hc ⟨hcap, by simpa [hdata] using hb⟩
        obtain ⟨x, y, l, hl, hx⟩ := encodeChunks_head cs hz
        rw [hl] at h
        exact not_ends_chunk done hcap hdata hb hx h
      · intro hend
        rw [Chunk.encode, List.append_assoc, List.append_assoc, List.append_assoc] at h
        cases hend.unique (ends_overflow cap done c.writes.plain (Nat.not_lt.mp hcap) h)

/-- The body is decoded, however it comes, exactly where no chunk begins as an end of a line does
and no size fills the scratch buffer. -/
theorem decodes_iff {cs : List Chunk} {rs : List Str} (hz : Chunker.Writes zeros 0)
    (hrs : rs.flatten = encodeChunks cs zeros ++ rest) :
    machine.Ends (start cap rs) ⟨httpOk, some (cs.flatMap Chunk.data)⟩ ↔
      (∀ c ∈ cs, c.Clear cap) ∧ zeros.length < cap := by
  have h : ({ src := rs } : Abuf).Holds (encodeChunks cs zeros ++ rest) :=
    ⟨Abuf.Reachable.start.sound, rfl, by simp, hrs ▸ rfl⟩
  exact ends_iff [] hz h

section Runs

def abc : Chunk where
  size := ascii ['3']
  data := ascii ['a', 'b', 'c']
  nonempty := by decide
  value := by decide
  small := by decide

/-- A body of one chunk, cut in the middle of the ends of its lines. -/
theorem decodes_abc : machine.Ends
    (start 0x1000 [ascii ['3', '\r'], [], ascii ['\n', 'a', 'b'], [],
      ascii ['c', '\r', '\n', '0', '\r', '\n', '\r'], [], ascii ['\n']])
    ⟨httpOk, some (ascii ['a', 'b', 'c'])⟩ := by
  have hz : Chunker.Writes (ascii ['0']) 0 := ⟨by decide, by decide, by decide⟩
  have hrs : [ascii ['3', '\r'], [], ascii ['\n', 'a', 'b'], [],
      ascii ['c', '\r', '\n', '0', '\r', '\n', '\r'], [], ascii ['\n']].flatten =
      encodeChunks [abc] (ascii ['0']) ++ [] := rfl
  have hclear : abc.Clear 0x1000 :=
    ⟨Nat.le_of_ble_eq_true rfl, fun _ hb => Option.mem_some.mp hb ▸ rfl⟩
  exact (decodes_iff hz hrs).mpr
    ⟨List.forall_mem_singleton.mpr hclear, Nat.le_of_ble_eq_true rfl⟩

def blank : Chunk where
  size := ascii ['3']
  data := ascii ['\r', '\n', 'a']
  nonempty := by decide
  value := by decide
  small := by decide

/-- A chunk that begins with an empty line. -/
theorem blank_lost : ¬ ∀ (cs : List Chunk) (zeros : Str) (rs : List Str), Chunker.Writes zeros 0 →
    (∀ c ∈ cs, c.size.length < 0x1000) → zeros.length < 0x1000 →
    rs.flatten = encodeChunks cs zeros →
    machine.Ends (start 0x1000 rs) ⟨httpOk, some (cs.flatMap Chunk.data)⟩ := by
  intro h
  have hz : Chunker.Writes (ascii ['0']) 0 := ⟨by decide, by decide, by decide⟩
  have hend := h [blank] (ascii ['0']) [encodeChunks [blank] (ascii ['0'])] hz (by decide)
    (by decide) List.flatten_singleton
  have hholds : ({ src := [encodeChunks [blank] (ascii ['0'])] } : Abuf).Holds
      (encodeChunks [blank] (ascii ['0']) ++ []) :=
    ⟨Abuf.Reachable.start.sound, rfl, by decide, rfl⟩
  exact absurd (((ends_iff [] hz hholds).mp hend).1 blank List.mem_cons_self).2 (by decide)

end Runs

end RunChunker

end Okws
