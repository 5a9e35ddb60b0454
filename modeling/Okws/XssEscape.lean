import Mathlib.Data.Nat.Log
import Okws.Byte
import Okws.Lib.Memory

namespace Okws.Xss

open Lib

/-- `xss_buf` and `xss_buflen`. -/
structure Buf where
  buf : Option Str := none
  buflen : Nat := 0x1000
  deriving DecidableEq

/-- The buffer during a call: `outlen` is `op - xss_buf`, and `reach` the end of what has been
written. -/
structure Out where
  mem : Str
  outlen : Nat := 0
  reach : Nat := 0
  deriving DecidableEq

namespace Out

/-- Bytes that are written at `op`, of which `op` then passes `inc`. -/
def write (st : Out) (bs : Str) (inc : Nat) : Out where
  mem := poke st.mem st.outlen bs
  outlen := st.outlen + inc
  reach := max st.reach (st.outlen + bs.length)

def sprintf (st : Out) (text : Str) : Out := st.write (text ++ [0]) text.length

/-- The `switch` on a character. -/
def put (st : Out) (c : UInt8) : Out :=
  if c = 60 then st.sprintf (ascii "&lt;".toList)
  else if c = 62 then st.sprintf (ascii "&gt;".toList)
  else if c = 38 then st.sprintf (ascii "&#38;".toList)
  else if c = 34 then st.sprintf (ascii "&quot;".toList)
  else if c = 39 then st.sprintf (ascii "&#39;".toList)
  else st.write [c] 1

def ret (st : Out) : Str := st.mem.take st.outlen

end Out

namespace Buf

def maxseqlen : Nat := 5

/-- `xss_max_buflen`. -/
def maxBuflen : Nat := 0x1000000

/-- The loop that doubles `xss_buflen`; `xss_max_buflen` ends it after 24 rounds. -/
def double (biggest : Nat) : Nat → Nat → Nat
  | 0, l => l
  | fuel + 1, l => if l < biggest ∧ l < maxBuflen then double biggest fuel (l <<< 1) else l

/-- The buffer in which a text of that length is escaped. -/
def resize (st : Buf) (inlen : Nat) : Buf :=
  let biggest := maxseqlen * inlen % 2 ^ 64
  let st := if st.buflen < biggest ∧ st.buflen ≠ maxBuflen ∧ st.buf.isSome then
      { st with buf := none } else st
  match st.buf with
  | some _ => st
  | none =>
    let buflen := min (double biggest 24 st.buflen) maxBuflen
    -- what `New` leaves in the block is never read
    { buf := some (List.replicate buflen 0), buflen }

def loop (buflen : Nat) : Str → Out → Out
  | [], st => st
  | c :: s, st => if maxseqlen + st.outlen < buflen then loop buflen s (st.put c) else st

/-- The call: what is kept for the next one, and the buffer that the result is taken from. -/
def escape (st : Buf) (s : Str) : Buf × Out :=
  let st := st.resize s.length
  let out := loop st.buflen s { mem := st.buf.getD [] }
  ({ st with buf := some out.mem }, out)

inductive Reached : Buf → Prop
  | start : Reached {}
  | call {st : Buf} (s : Str) : Reached st → Reached (st.escape s).1

end Buf

def xssText (c : UInt8) : Str :=
  if c = 60 then ascii "&lt;".toList
  else if c = 62 then ascii "&gt;".toList
  else if c = 38 then ascii "&#38;".toList
  else if c = 34 then ascii "&quot;".toList
  else if c = 39 then ascii "&#39;".toList
  else [c]

def xssTexts (s : Str) : Str := s.flatMap xssText

section Resize

open Buf

variable {k b : Nat}

theorem double_pow (fuel : Nat) (hk : k ≤ 24) (hfuel : 24 ≤ k + fuel) :
    double b fuel (2 ^ k) = max (2 ^ k) (min maxBuflen (2 ^ Nat.clog 2 b)) := by
  have hmax : maxBuflen = 2 ^ 24 := rfl
  rw [hmax]
  induction fuel generalizing k with
  | zero =>
    obtain rfl : k = 24 := by omega
    exact (max_eq_left (min_le_left _ _)).symm
  | succ fuel ih =>
    rw [double, hmax]
    split
    · next h =>
      have hclog : k + 1 ≤ Nat.clog 2 b := by
        by_contra hle
        exact absurd ((Nat.clog_le_iff_le_pow (by decide)).1 (by omega)) (Nat.not_le.2 h.1)
      have hk : k + 1 ≤ 24 := (Nat.pow_lt_pow_iff_right (by decide)).1 h.2
      have hmin : 2 ^ (k + 1) ≤ min (2 ^ 24) (2 ^ Nat.clog 2 b) :=
        le_min (Nat.pow_le_pow_right (by decide) hk) (Nat.pow_le_pow_right (by decide) hclog)
      have hle : 2 ^ k ≤ 2 ^ (k + 1) := Nat.pow_le_pow_right (by decide) (by omega)
      rw [Nat.shiftLeft_eq, Nat.pow_one, ← Nat.pow_succ, ih hk (by omega), max_eq_right hmin,
        max_eq_right (hle.trans hmin)]
    · next h =>
      refine (max_eq_left ?_).symm
      by_cases hb : b ≤ 2 ^ k
      · have hclog : Nat.clog 2 b ≤ k := (Nat.clog_le_iff_le_pow (by decide)).2 hb
        exact (min_le_right _ _).trans (Nat.pow_le_pow_right (by decide) hclog)
      · exact (min_le_left _ _).trans (by omega)

def Sized (st : Buf) : Prop := ∃ k, 12 ≤ k ∧ k ≤ 24 ∧ st.buflen = 2 ^ k

theorem resize_buflen {st : Buf} (h : Sized st) (n : Nat) : (st.resize n).buflen =
    max st.buflen (min maxBuflen (2 ^ Nat.clog 2 (maxseqlen * n % 2 ^ 64))) := by
  obtain ⟨k, hlo, hhi, hk⟩ := h
  have hle : st.buflen ≤ maxBuflen := hk ▸ Nat.pow_le_pow_right (by decide) hhi
  have hdouble := double_pow (b := maxseqlen * n % 2 ^ 64) 24 hhi (by omega)
  rw [← hk] at hdouble
  have hfresh : (min (double (maxseqlen * n % 2 ^ 64) 24 st.buflen) maxBuflen) =
      max st.buflen (min maxBuflen (2 ^ Nat.clog 2 (maxseqlen * n % 2 ^ 64))) := by
    rw [hdouble]
    exact min_eq_left (max_le hle (min_le_left _ _))
  unfold resize
  dsimp only
  by_cases h : st.buflen < maxseqlen * n % 2 ^ 64 ∧ st.buflen ≠ maxBuflen ∧ st.buf.isSome
  · rw [if_pos h]
    exact hfresh
  · rw [if_neg h]
    cases hbuf : st.buf with
    | none => exact hfresh
    | some m =>
      -- the block is kept, as it is large enough or as large as can be
      refine (max_eq_left ?_).symm
      rw [hbuf] at h
      by_cases hb : maxseqlen * n % 2 ^ 64 ≤ st.buflen
      · rw [hk] at hb ⊢
        have hclog := (Nat.clog_le_iff_le_pow (by decide)).2 hb
        exact (min_le_right _ _).trans (Nat.pow_le_pow_right (by decide) hclog)
      · have : st.buflen = maxBuflen := by
          by_contra hne
          exact h ⟨Nat.not_le.1 hb, hne, rfl⟩
        exact (min_le_left _ _).trans this.ge

theorem pow_max (k c : Nat) : 2 ^ max k (min 24 c) = max (2 ^ k) (min maxBuflen (2 ^ c)) := by
  have hmono {i j : Nat} (h : i ≤ j) : 2 ^ i ≤ 2 ^ j := Nat.pow_le_pow_right (by decide) h
  have hmin : 2 ^ min 24 c = min maxBuflen (2 ^ c) := by
    rcases Nat.le_total 24 c with h | h
    · rw [Nat.min_eq_left h]
      exact (Nat.min_eq_left (hmono h)).symm
    · rw [Nat.min_eq_right h]
      exact (Nat.min_eq_right (hmono h)).symm
  rw [← hmin]
  rcases Nat.le_total k (min 24 c) with h | h
  · rw [Nat.max_eq_right h, Nat.max_eq_right (hmono h)]
  · rw [Nat.max_eq_left h, Nat.max_eq_left (hmono h)]

theorem Sized.resize {st : Buf} (h : Sized st) (n : Nat) : Sized (st.resize n) := by
  rw [Sized, resize_buflen h]
  obtain ⟨k, hlo, hhi, hk⟩ := h
  generalize Nat.clog 2 (maxseqlen * n % 2 ^ 64) = c
  refine ⟨max k (min 24 c), by omega, by omega, ?_⟩
  rw [hk]
  exact (pow_max k c).symm

theorem Reached.sized {st : Buf} (h : Reached st) : Sized st := by
  induction h with
  | start => exact ⟨12, by decide, by decide, rfl⟩
  | call s _ ih => exact ih.resize s.length

end Resize

section Loop

open Buf

variable {B : Nat} {c : UInt8} {s : Str} {st : Out}

/-- How far behind the escape of a character the buffer must reach. -/
def slack (c : UInt8) : Nat := maxseqlen - (xssText c).length

/-- The room that the escapes need from `n` on. -/
def Fits (B n : Nat) (s : Str) : Prop :=
  ∀ c, s.getLast? = some c → n + (xssTexts s).length + slack c < B

theorem xssText_length (c : UInt8) :
    1 ≤ (xssText c).length ∧ (xssText c).length ≤ 6 ∧ ((xssText c).length = 6 ↔ c = 34) := by
  unfold xssText
  split_ifs with h60 h62 h38 h34 h39
  · subst h60
    decide
  · subst h62
    decide
  · subst h38
    decide
  · subst h34
    decide
  · subst h39
    decide
  · exact ⟨Nat.le_refl 1, (by decide : 1 ≤ 6), iff_of_false nofun h34⟩

/-- The NUL that `sprintf` puts behind an escape. -/
def nul (c : UInt8) : Str := if c ∈ [60, 62, 38, 34, 39] then [0] else []

theorem nul_length (c : UInt8) : (nul c).length ≤ 1 := by
  unfold nul
  split <;> decide

theorem put_eq (st : Out) (c : UInt8) :
    st.put c = st.write (xssText c ++ nul c) (xssText c).length := by
  unfold Out.put xssText nul
  split_ifs with h60 h62 h38 h34 h39
  all_goals first | rfl | simp_all

theorem put_ret (hlen : st.outlen ≤ st.mem.length) : (st.put c).ret = st.ret ++ xssText c := by
  rw [put_eq]
  exact (take_poke hlen (by simp)).trans (by simp [Out.ret])

theorem put_outlen : (st.put c).outlen = st.outlen + (xssText c).length := by
  rw [put_eq]
  rfl

theorem put_mem (hlen : st.outlen ≤ st.mem.length) : (st.put c).outlen ≤ (st.put c).mem.length := by
  have hle := le_poke_length (s := xssText c ++ nul c) hlen
  rw [List.length_append] at hle
  rw [put_eq]
  exact le_trans (Nat.add_le_add_left (Nat.le_add_right _ _) _) hle

theorem put_reach : (st.put c).reach =
    max st.reach (st.outlen + (xssText c).length + (nul c).length) := by
  rw [put_eq]
  simp [Out.write, Nat.add_assoc]

theorem reach_le_loop (B : Nat) (s : Str) (st : Out) : st.reach ≤ (loop B s st).reach := by
  induction s generalizing st with
  | nil => exact Nat.le_refl _
  | cons c s ih =>
    rw [loop]
    split
    · exact (put_reach ▸ Nat.le_max_left _ _ : st.reach ≤ (st.put c).reach).trans (ih _)
    · exact Nat.le_refl _

theorem xssTexts_cons (c : UInt8) (s : Str) : xssTexts (c :: s) = xssText c ++ xssTexts s := rfl

theorem le_room (h : s.getLast? = some c) : maxseqlen ≤ (xssTexts s).length + slack c := by
  obtain ⟨t, rfl⟩ := List.getLast?_eq_some_iff.1 h
  rw [xssTexts, List.flatMap_append, List.length_append, slack]
  simp only [List.flatMap_singleton]
  omega

theorem loop_safe_iff (hlen : st.outlen ≤ st.mem.length) (hreach : st.reach ≤ B) :
    ((loop B s st).ret = st.ret ++ xssTexts s ∧ (loop B s st).reach ≤ B) ↔
      Fits B st.outlen s := by
  induction s generalizing st with
  | nil => exact iff_of_true ⟨(List.append_nil _).symm, hreach⟩ nofun
  | cons c s ih =>
    obtain ⟨hpos, hle, hquot⟩ := xssText_length c
    have hnul := nul_length c
    have hseq : maxseqlen = 5 := rfl
    have hlast := Option.isSome_iff_exists.1 (List.getLast?_isSome.2 (List.cons_ne_nil c s))
    rw [loop]
    by_cases hguard : maxseqlen + st.outlen < B
    · rw [if_pos hguard]
      have hput : (st.put c).reach =
          max st.reach (st.outlen + (xssText c).length + (nul c).length) := put_reach
      by_cases hin : (st.put c).reach ≤ B
      · have hnext := ih (put_mem hlen) hin
        rw [put_ret hlen, put_outlen, List.append_assoc, ← xssTexts_cons] at hnext
        rw [hnext]
        cases s with
        | nil =>
          refine iff_of_true nofun fun d hd => ?_
          obtain rfl : c = d := Option.some.inj hd
          have hend : st.outlen + (xssText c).length + (nul c).length ≤ B :=
            (Nat.le_max_right _ _).trans (hput ▸ hin)
          have hnul : (xssText c).length = 6 → (nul c).length = 1 := by
            intro h
            rw [hquot.1 h]
            rfl
          simp only [xssTexts, List.flatMap_singleton, slack]
          omega
        | cons d s =>
          unfold Fits
          rw [List.getLast?_cons_cons, xssTexts_cons c, List.length_append]
          simp only [Nat.add_assoc]
      · -- the NUL behind a quotation mark
        refine iff_of_false (fun h => hin ((reach_le_loop B s _).trans h.2)) fun h => ?_
        obtain ⟨d, hd⟩ := hlast
        have := h d hd
        rw [xssTexts_cons, List.length_append] at this
        omega
    · rw [if_neg hguard]
      refine iff_of_false (fun h => ?_) fun h => ?_
      · have := congrArg List.length h.1
        rw [xssTexts_cons, List.length_append, List.length_append] at this
        omega
      · obtain ⟨d, hd⟩ := hlast
        have := le_room hd
        have := h d hd
        omega

theorem loop_prefix (hlen : st.outlen ≤ st.mem.length) (B : Nat) (s : Str) :
    ∃ p, p <+: s ∧ (loop B s st).ret = st.ret ++ xssTexts p := by
  induction s generalizing st with
  | nil => exact ⟨[], List.prefix_rfl, (List.append_nil _).symm⟩
  | cons c s ih =>
    rw [loop]
    split
    · obtain ⟨p, hp, hret⟩ := ih (put_mem hlen)
      refine ⟨c :: p, List.cons_prefix_cons.2 ⟨rfl, hp⟩, ?_⟩
      rw [hret, put_ret hlen, List.append_assoc, ← xssTexts_cons]
    · exact ⟨[], List.nil_prefix, (List.append_nil _).symm⟩

theorem xssText_cancel {d : UInt8} {x y : Str} (h : xssText c ++ x = xssText d ++ y) :
    c = d ∧ x = y := by
  have hlt : ascii "&lt;".toList = [38, 108, 116, 59] := by decide
  have hgt : ascii "&gt;".toList = [38, 103, 116, 59] := by decide
  have hamp : ascii "&#38;".toList = [38, 35, 51, 56, 59] := by decide
  have hquot : ascii "&quot;".toList = [38, 113, 117, 111, 116, 59] := by decide
  have hapos : ascii "&#39;".toList = [38, 35, 51, 57, 59] := by decide
  unfold xssText at h
  rw [hlt, hgt, hamp, hquot, hapos] at h
  split_ifs at h <;> simp_all

theorem xssTexts_injective : Function.Injective xssTexts := by
  have hne (c : UInt8) (s : Str) : xssTexts (c :: s) ≠ [] := by
    rw [xssTexts_cons]
    exact List.append_ne_nil_of_left_ne_nil (List.ne_nil_of_length_pos (xssText_length c).1) _
  intro s t h
  induction s generalizing t with
  | nil => cases t with
    | nil => rfl
    | cons d t => exact absurd h.symm (hne d t)
  | cons c s ih => cases t with
    | nil => exact absurd h (hne c s)
    | cons d t =>
      obtain ⟨rfl, hst⟩ := xssText_cancel h
      rw [ih hst]

end Loop

/-- The result is complete, and nothing is written behind the buffer. -/
def XssSafe (st : Buf) (s : Str) : Prop :=
  (st.escape s).2.ret = xssTexts s ∧ (st.escape s).2.reach ≤ (st.escape s).1.buflen

/-- The length of the buffer for a text of `n` characters. -/
def roomFor (st : Buf) (n : Nat) : Nat :=
  max st.buflen (min Buf.maxBuflen (2 ^ Nat.clog 2 (Buf.maxseqlen * n)))

theorem length_le_xssTexts (s : Str) : s.length ≤ (xssTexts s).length := by
  induction s with
  | nil => exact Nat.le_refl 0
  | cons c s ih =>
    have := (xssText_length c).1
    rw [xssTexts_cons, List.length_append, List.length_cons]
    omega

theorem safe_iff_fits {st : Buf} (h : Sized st) {s : Str}
    (hlen : (xssTexts s).length < Buf.maxBuflen) :
    XssSafe st s ↔ Fits (roomFor st s.length) 0 s := by
  have hle := length_le_xssTexts s
  have hwrap : Buf.maxseqlen * s.length % 2 ^ 64 = Buf.maxseqlen * s.length :=
    Nat.mod_eq_of_lt (by simp only [Buf.maxBuflen, Buf.maxseqlen] at *; omega)
  have hroom : (st.resize s.length).buflen = roomFor st s.length := by
    rw [resize_buflen h, hwrap, roomFor]
  rw [← hroom]
  let out : Out := { mem := (st.resize s.length).buf.getD [] }
  have hlen' : out.outlen ≤ out.mem.length := Nat.zero_le _
  exact loop_safe_iff hlen' (Nat.zero_le _)

/-- The last character needs its escape, and at least five cells and one more. -/
theorem xssSafe_iff {st : Buf} (h : st.Reached) {s : Str}
    (hlen : (xssTexts s).length < Buf.maxBuflen) :
    XssSafe st s ↔ ∀ c, s.getLast? = some c →
      (xssTexts s).length + slack c < roomFor st s.length := by
  have hfits := safe_iff_fits (Reached.sized h) hlen
  rwa [Fits, Nat.zero_add] at hfits

theorem xssSafe_iff_quoted : XssSafe {} [34, 97, 34] ↔
    ∀ c, [34, 97, 34].getLast? = some c → (xssTexts [34, 97, 34]).length + slack c < roomFor {} 3 :=
  xssSafe_iff .start (by decide)

/-- 683 quotation marks, for which the buffer is not enlarged. -/
theorem not_xssSafe_quotes : ¬ ∀ st : Buf, st.Reached → ∀ s : Str,
    (xssTexts s).length < Buf.maxBuflen → XssSafe st s := by
  intro h
  have hlen : (xssTexts (List.replicate 683 34)).length = 4098 := by
    rw [xssTexts, List.flatMap_replicate, List.length_flatten, List.map_replicate,
      List.sum_replicate_nat]
    rfl
  have hmax : 4098 < Buf.maxBuflen := by decide
  have hsafe := h {} .start (List.replicate 683 34) (hlen ▸ hmax)
  have hlast : (List.replicate 683 (34 : UInt8)).getLast? = some 34 := List.getLast?_replicate
  have hfits := (safe_iff_fits (Reached.sized .start) (hlen ▸ hmax)).1 hsafe 34 hlast
  have hclog : 2 ^ Nat.clog 2 (Buf.maxseqlen * 683) ≤ 2 ^ 12 :=
    Nat.pow_le_pow_right (by decide) ((Nat.clog_le_iff_le_pow (by decide)).2 (by decide))
  have hroom : roomFor {} 683 ≤ 4096 :=
    max_le (Nat.le_refl _) ((min_le_right _ _).trans hclog)
  rw [hlen, List.length_replicate] at hfits
  omega

end Okws.Xss
