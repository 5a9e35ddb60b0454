import Okws.CgiCodec
import Okws.Lib.Memory

namespace Okws

open Lib

/-- What an allocator hands out: an area of the length asked for, with whatever is in it. -/
structure ScratchMgr where
  alloc : Nat → Str
  length_alloc : ∀ n, (alloc n).length = n

/-- The loop of `cgi_encode`: `op` counts from the start of the area, and `wrote` is where the
furthest write has ended. -/
structure EncState where
  mem : Str
  op : Nat := 0
  wrote : Nat := 0

namespace EncState

/-- Writes `w` at `op`, and moves `op` on by `n`. -/
def write (w : Str) (n : Nat) (b : EncState) : EncState :=
  { mem := poke b.mem b.op w, op := b.op + n, wrote := max b.wrote (b.op + w.length) }

/-- `sprintf` ends what it writes with a NUL. -/
def sprintf (c : UInt8) (b : EncState) : EncState := b.write (hexEscape c ++ [0]) 3

def encodeChar (e : Bool) (b : EncState) (c : UInt8) : EncState :=
  if e then
    if regChar c then b.write [c] 1 else if c = Byte.sp then b.write [43] 1 else b.sprintf c
  else if c = 59 then b.sprintf c
  else b.write [c] 1

end EncState

section Encode

variable (mgr : ScratchMgr) (dflt : Nat)

/-- The scratch area that `cgi_encode` settles for: the one it has been given, if that takes
`needlen` bytes. -/
def scratchFor (needlen : Nat) : Option Str → Str
  | none => mgr.alloc (max needlen dflt)
  | some scr => if scr.length < needlen then mgr.alloc needlen else scr

/-- `cgi_encode`, up to the copy into `out`. -/
def cgiEncodeRun (e : Bool) (scr : Option Str) (s : Str) : EncState :=
  s.foldl (EncState.encodeChar e) { mem := scratchFor mgr dflt (s.length * 3) scr }

/-- What `cgi_encode` copies into `out`. -/
def EncState.text (b : EncState) : Str := b.mem.take b.op

/-- `cgi_encode (in)`: in a scratch area of the default length. -/
def cgiEncodeStr (s : Str) : EncState := cgiEncodeRun mgr dflt true (some (mgr.alloc dflt)) s

/-- The length of the scratch area that `cgi_encode (in)` writes into. -/
def cgiEncodeArea (s : Str) : Nat :=
  (scratchFor mgr dflt (s.length * 3) (some (mgr.alloc dflt))).length

end Encode

/-- `cgi_decode`, without `ok_filter_cgi`. -/
def cgiDecode (limit dflt : Nat) (s : Str) : Option Str :=
  match parseKeyOrVal ⟨limit, id⟩ .none false { cap := dflt }
    ({ src := Abuf.whole s } : Abuf).toTape with
  | (.eof, r, _, _) => r
  | _ => none

namespace EncState

variable {b : EncState} {c : UInt8} {s w : Str} {n : Nat} {e : Bool}

/-- `op` stands inside the area, and not more than a NUL has been written behind it. -/
structure Sound (b : EncState) : Prop where
  op : b.op ≤ b.mem.length
  wrote : b.wrote ≤ b.op + 1

theorem Sound.write (h : b.Sound) (hn : n ≤ w.length) (hw : w.length ≤ n + 1) :
    (b.write w n).Sound ∧ (b.write w n).text = b.text ++ w.take n := by
  have hlen := le_poke_length (s := w) h.op
  have hwrote := h.wrote
  refine ⟨⟨?_, ?_⟩, take_poke h.op hn⟩
  · simp only [EncState.write]
    omega
  · simp only [EncState.write]
    omega

theorem Sound.encodeChar (h : b.Sound) :
    (b.encodeChar e c).Sound ∧ (b.encodeChar e c).text = b.text ++ cgiEncodeChar e c := by
  have escape : (b.sprintf c).Sound ∧ (b.sprintf c).text = b.text ++ hexEscape c :=
    h.write (by simp [hexEscape]) (by simp [hexEscape])
  have plain (x : UInt8) : (b.write [x] 1).Sound ∧ (b.write [x] 1).text = b.text ++ [x] :=
    h.write (by simp) (by simp)
  unfold EncState.encodeChar cgiEncodeChar
  split
  · split
    · exact plain c
    · split
      · exact plain 43
      · exact escape
  · split
    · exact escape
    · exact plain c

theorem Sound.foldl (h : b.Sound) :
    (s.foldl (EncState.encodeChar e) b).Sound ∧
      (s.foldl (EncState.encodeChar e) b).text = b.text ++ cgiEncode e s := by
  induction s generalizing b with
  | nil => exact ⟨h, by simp [cgiEncode]⟩
  | cons c s ih =>
    obtain ⟨hc, htext⟩ := h.encodeChar (e := e) (c := c)
    obtain ⟨hs, htext'⟩ := ih hc
    exact ⟨hs, by rw [List.foldl_cons, htext', htext, List.append_assoc]; rfl⟩

theorem Sound.length_text (h : b.Sound) : b.text.length = b.op :=
  List.length_take_of_le h.op

end EncState

/-- The loop writes three bytes for `c`, and a NUL. -/
def escapes (c : UInt8) : Bool := !regChar c && c != Byte.sp

theorem length_cgiEncodeChar_le (e : Bool) (c : UInt8) : (cgiEncodeChar e c).length ≤ 3 := by
  unfold cgiEncodeChar
  split
  · split
    · simp
    · split <;> simp [hexEscape]
  · split <;> simp [hexEscape]

theorem length_cgiEncode_le (e : Bool) (s : Str) : (cgiEncode e s).length ≤ s.length * 3 := by
  induction s with
  | nil => simp [cgiEncode]
  | cons c s ih =>
    have hc := length_cgiEncodeChar_le e c
    have happ : cgiEncode e (c :: s) = cgiEncodeChar e c ++ cgiEncode e s := rfl
    rw [happ, List.length_append, List.length_cons]
    omega

theorem cgiEncodeChar_of_escapes {c : UInt8} (h : escapes c = true) :
    cgiEncodeChar true c = hexEscape c := by
  simp only [escapes, Bool.and_eq_true, Bool.not_eq_true', bne_iff_ne] at h
  simp [cgiEncodeChar, h]

theorem length_cgiEncodeChar_of_not_escapes {c : UInt8} (h : escapes c = false) :
    (cgiEncodeChar true c).length = 1 := by
  unfold cgiEncodeChar
  by_cases hr : regChar c
  · simp [hr]
  · have hsp : c = Byte.sp := by simpa [escapes, hr] using h
    simp [hsp, show regChar Byte.sp = false from rfl]

theorem length_cgiEncode_of_escapes {s : Str} (h : ∀ c ∈ s, escapes c = true) :
    (cgiEncode true s).length = s.length * 3 := by
  induction s with
  | nil => rfl
  | cons c s ih =>
    have happ : cgiEncode true (c :: s) = cgiEncodeChar true c ++ cgiEncode true s := rfl
    rw [happ, List.length_append, ih fun x hx => h x (List.mem_cons_of_mem c hx),
      cgiEncodeChar_of_escapes (h c List.mem_cons_self), List.length_cons]
    simp only [hexEscape, List.length_cons, List.length_nil]
    omega

theorem length_cgiEncode_of_not_escapes {s : Str} {c : UInt8} (hc : c ∈ s)
    (h : escapes c = false) : (cgiEncode true s).length + 2 ≤ s.length * 3 := by
  induction s with
  | nil => cases hc
  | cons d s ih =>
    have happ : cgiEncode true (d :: s) = cgiEncodeChar true d ++ cgiEncode true s := rfl
    rw [happ, List.length_append, List.length_cons]
    cases hc with
    | head =>
      have hone := length_cgiEncodeChar_of_not_escapes h
      have hle := length_cgiEncode_le true s
      omega
    | tail _ hc =>
      have hle := length_cgiEncodeChar_le true d
      have := ih hc
      omega

section Area

variable {mgr : ScratchMgr} {dflt limit : Nat} {s : Str}

theorem cgiEncodeArea_eq : cgiEncodeArea mgr dflt s = max dflt (s.length * 3) := by
  unfold cgiEncodeArea scratchFor
  simp only [mgr.length_alloc]
  split
  · rw [mgr.length_alloc]
    omega
  · rw [mgr.length_alloc]
    omega

variable (mgr dflt s) in
theorem cgiEncodeRun_spec (e : Bool) (scr : Option Str) :
    (cgiEncodeRun mgr dflt e scr s).Sound ∧
      (cgiEncodeRun mgr dflt e scr s).text = cgiEncode e s := by
  have hstart (mem : Str) : EncState.Sound { mem := mem } := ⟨Nat.zero_le _, Nat.zero_le _⟩
  simpa [cgiEncodeRun, EncState.text] using (hstart _).foldl (e := e) (s := s)

theorem text_cgiEncodeStr : (cgiEncodeStr mgr dflt s).text = cgiEncode true s :=
  (cgiEncodeRun_spec mgr dflt s true _).2

variable (mgr dflt s) in
theorem op_cgiEncodeStr : (cgiEncodeStr mgr dflt s).op = (cgiEncode true s).length := by
  have h := cgiEncodeRun_spec mgr dflt s true (some (mgr.alloc dflt))
  rw [← h.2, h.1.length_text]
  rfl

variable (mgr dflt s) in
theorem wrote_cgiEncodeStr_le :
    (cgiEncodeStr mgr dflt s).wrote ≤ (cgiEncode true s).length + 1 := by
  rw [← op_cgiEncodeStr mgr dflt]
  exact (cgiEncodeRun_spec mgr dflt s true (some (mgr.alloc dflt))).1.wrote

theorem wrote_cgiEncodeStr {c : UInt8} (hc : escapes c = true) :
    (cgiEncodeStr mgr dflt (s ++ [c])).wrote = (cgiEncode true (s ++ [c])).length + 1 := by
  have hop := op_cgiEncodeStr mgr dflt (s ++ [c])
  have hstep (b : EncState) : (b.encodeChar true c).op + 1 ≤ (b.encodeChar true c).wrote := by
    simp only [escapes, Bool.and_eq_true, Bool.not_eq_true', bne_iff_ne] at hc
    simp [EncState.encodeChar, hc, EncState.sprintf, EncState.write, hexEscape]
  have hlast : (cgiEncodeStr mgr dflt (s ++ [c])).op + 1 ≤
      (cgiEncodeStr mgr dflt (s ++ [c])).wrote := by
    unfold cgiEncodeStr cgiEncodeRun
    rw [List.foldl_append]
    exact hstep _
  exact Nat.le_antisymm (wrote_cgiEncodeStr_le mgr dflt _) (hop ▸ hlast)

end Area

/-- The characters of an encoding that stand for themselves, and `+`. -/
def cgiTextChar (c : UInt8) : Prop :=
  48 ≤ c ∧ c ≤ 57 ∨ 65 ≤ c ∧ c ≤ 90 ∨ 97 ≤ c ∧ c ≤ 122 ∨ c ∈ [45, 46, 95, 43]

/-- A string of letters, digits, `-`, `.`, `_`, `+` and `%xx`. -/
inductive CgiText : Str → Prop
  | nil : CgiText []
  | char {c : UInt8} {s : Str} : cgiTextChar c → CgiText s → CgiText (c :: s)
  | escape {a b : UInt8} {s : Str} :
    (charToHex a).isSome → (charToHex b).isSome → CgiText s → CgiText (37 :: a :: b :: s)

theorem cgiTextChar_of_regChar {c : UInt8} (h : regChar c = true) : cgiTextChar c := by
  simp only [regChar, Bool.or_eq_true, Bool.and_eq_true, beq_iff_eq, decide_eq_true_eq] at h
  simp only [cgiTextChar, List.mem_cons, List.not_mem_nil, or_false]
  tauto

theorem CgiText.encodeChar {s : Str} (h : CgiText s) (c : UInt8) :
    CgiText (cgiEncodeChar true c ++ s) := by
  have hc := c.toNat_lt
  simp only [cgiEncodeChar, if_true]
  split
  · next hreg => exact .char (cgiTextChar_of_regChar hreg) h
  · split
    · exact .char (by simp [cgiTextChar]) h
    · refine .escape ?_ ?_ h
      · rw [charToHex_hexDigit _ (by omega)]
        rfl
      · rw [charToHex_hexDigit _ (by omega)]
        rfl

theorem cgiText_cgiEncode (s : Str) : CgiText (cgiEncode true s) := by
  induction s with
  | nil => exact .nil
  | cons c s ih => exact ih.encodeChar c

theorem cgiDecode_cgiEncode {limit dflt : Nat} {s : Str} (hd : 0 < dflt) (hs : s.length < limit) :
    cgiDecode limit dflt (cgiEncode true s) = some s := by
  have hreads : Tape.Reads ({ src := Abuf.whole (cgiEncode true s) } : Abuf).toTape
      (cgiEncode true s) :=
    ⟨by simp [Abuf.toTape, Abuf.regionToks_whole], rfl, rfl, by simp [Abuf.toTape, Tape.Unlimited]⟩
  have hfresh : Word.Fresh ⟨limit, id⟩ (max dflt limit) { cap := dflt } := ⟨rfl, rfl, rfl, hd, rfl⟩
  obtain ⟨w, t, hp⟩ := parseKeyOrVal_last .none (fun _ => rfl) (by omega) hfresh hreads
  simp [cgiDecode, hp]

/-- What is asked of `cgi_encode (s)`: reading its result gives `s` back, the result is made of
the characters it should be made of, it is not longer than what is reserved for it, and nothing
is written outside of the scratch area. -/
structure StringRoundTrip (mgr : ScratchMgr) (limit dflt : Nat) (s : Str) : Prop where
  decode : cgiDecode limit dflt (cgiEncodeStr mgr dflt s).text = some s
  text : CgiText (cgiEncodeStr mgr dflt s).text
  length : (cgiEncodeStr mgr dflt s).text.length ≤ s.length * 3
  area : (cgiEncodeStr mgr dflt s).wrote ≤ cgiEncodeArea mgr dflt s

section RoundTrip

variable (mgr : ScratchMgr) {dflt : Nat} {s : Str}

/-- The NUL of the last `sprintf` fits if some byte is not escaped, or if the area is the
default one and longer than what is needed. -/
theorem wrote_le_area (h : s = [] ∨ (∃ c ∈ s, escapes c = false) ∨ s.length * 3 < dflt) :
    (cgiEncodeStr mgr dflt s).wrote ≤ cgiEncodeArea mgr dflt s := by
  have hwrote := wrote_cgiEncodeStr_le mgr dflt s
  have hle := length_cgiEncode_le true s
  rw [cgiEncodeArea_eq]
  rcases h with rfl | ⟨c, hc, hesc⟩ | hlt
  · exact Nat.zero_le _
  · have := length_cgiEncode_of_not_escapes hc hesc
    omega
  · omega

theorem area_lt_wrote (hs : s ≠ []) (hesc : ∀ c ∈ s, escapes c = true)
    (hd : dflt ≤ s.length * 3) : cgiEncodeArea mgr dflt s < (cgiEncodeStr mgr dflt s).wrote := by
  obtain ⟨s, c, rfl⟩ := List.eq_nil_or_concat s |>.resolve_left hs
  rw [List.concat_eq_append] at hesc hd ⊢
  rw [wrote_cgiEncodeStr (hesc c (by simp)), length_cgiEncode_of_escapes hesc, cgiEncodeArea_eq]
  omega

end RoundTrip

/-- Everything holds of every string, except that the NUL behind the last of nothing but escapes
is written past an area of exactly the length they need. -/
theorem stringRoundTrip_iff (mgr : ScratchMgr) (limit dflt : Nat) (s : Str) (hd : 0 < dflt)
    (hs : s.length < limit) :
    StringRoundTrip mgr limit dflt s ↔
      s = [] ∨ (∃ c ∈ s, escapes c = false) ∨ s.length * 3 < dflt := by
  constructor
  · intro h
    by_contra hn
    push Not at hn
    obtain ⟨hne, hesc, hlen⟩ := hn
    have := area_lt_wrote mgr hne (fun c hc => by simpa using hesc c hc) hlen
    exact absurd h.area (by omega)
  · intro h
    refine ⟨?_, ?_, ?_, wrote_le_area mgr h⟩
    · rw [text_cgiEncodeStr]
      exact cgiDecode_cgiEncode hd hs
    · rw [text_cgiEncodeStr]
      exact cgiText_cgiEncode s
    · rw [text_cgiEncodeStr]
      exact length_cgiEncode_le true s

theorem not_stringRoundTrip_replicate (mgr : ScratchMgr) (limit : Nat) {dflt n : Nat} (hn : 0 < n)
    (hd : dflt ≤ n * 3) : ¬ StringRoundTrip mgr limit dflt (List.replicate n 255) := by
  intro h
  have hne : List.replicate n (255 : UInt8) ≠ [] := List.ne_nil_of_length_pos (by simpa using hn)
  have hesc : ∀ c ∈ List.replicate n (255 : UInt8), escapes c = true := by
    intro c hc
    rw [List.eq_of_mem_replicate hc]
    rfl
  have hlt := area_lt_wrote mgr hne hesc (by simpa using hd)
  exact absurd h.area (by omega)

def ScratchMgr.zeros : ScratchMgr := ⟨fun n => List.replicate n 0, fun _ => List.length_replicate⟩

theorem stringRoundTrip_iff_applied : StringRoundTrip .zeros 8 4 [255] ↔
    [255] = ([] : Str) ∨ (∃ c ∈ [255], escapes c = false) ∨ 1 * 3 < 4 :=
  stringRoundTrip_iff .zeros 8 4 [255] (by decide) (by decide)

/-- 21846 bytes that are all escaped need two bytes more than the default area has. -/
theorem not_stringRoundTrip_65536 :
    ¬ StringRoundTrip .zeros 524288 65536 (List.replicate 21846 255) :=
  not_stringRoundTrip_replicate .zeros 524288 (by decide) (by decide)

end Okws
