import Okws.Proxy
import Okws.Zbuf

/-! `zbuf::compress`: the strings of a buffer as one gzip file, whole or in chunks. -/

namespace Okws

open Inet

/-- A byte of the CRC-32 with the reflected polynomial. -/
def crcByte (crc : UInt32) (b : UInt8) : UInt32 :=
  (List.range 8).foldl (fun c _ => if c &&& 1 = 1 then (c >>> 1) ^^^ 0xEDB88320 else c >>> 1)
    (crc ^^^ b.toUInt32)

/-- `crc32`, which goes on from the sum of what comes before. -/
def crc32 (crc : UInt32) (s : Str) : UInt32 := ~~~ s.foldl crcByte (~~~ crc)

theorem crc32_append (crc : UInt32) (s t : Str) : crc32 crc (s ++ t) = crc32 (crc32 crc s) t := by
  simp only [crc32, List.foldl_append, UInt32.not_not]

theorem crc32_nil (crc : UInt32) : crc32 crc [] = crc := UInt32.not_not

/-- `%x`. -/
def hex (n : Nat) : Str := (Nat.toDigits 16 n).map Char.toUInt8

theorem digits_snoc {base m k : Nat} {s : Str} {b : UInt8} (h : digits base m s = (k, []))
    (hb : digit b < base) : digits base m (s ++ [b]) = (k * base + digit b, []) := by
  induction s generalizing m with
  | nil =>
    cases h
    simp [digits, hb]
  | cons c s ih =>
    rw [digits] at h
    split at h
    · next hc =>
      rw [List.cons_append, digits, if_pos hc]
      exact ih h
    · cases h

theorem digit_hex (n : Nat) (h : n < 16) : digit (Nat.digitChar n).toUInt8 = n := by
  have hall : ∀ m < 16, digit (Nat.digitChar m).toUInt8 = m := by decide
  exact hall n h

theorem hex_of_lt {n : Nat} (h : n < 16) : hex n = [(Nat.digitChar n).toUInt8] := by
  rw [hex, Nat.toDigits_of_lt_base h]
  rfl

theorem hex_of_le {n : Nat} (h : 16 ≤ n) :
    hex n = hex (n / 16) ++ [(Nat.digitChar (n % 16)).toUInt8] := by
  rw [hex, Nat.toDigits_of_base_le (by decide) h, List.map_append]
  rfl

theorem digits_hex (n : Nat) : digits 16 0 (hex n) = (n, []) := by
  induction n using Nat.strongRecOn with
  | ind n ih =>
    by_cases hn : n < 16
    · rw [hex_of_lt hn, digits, digit_hex n hn, if_pos hn, digits, Nat.zero_mul, Nat.zero_add]
    · have hmod : n % 16 < 16 := Nat.mod_lt _ (by decide)
      have hsnoc := digits_snoc (ih (n / 16) (by omega))
        (b := (Nat.digitChar (n % 16)).toUInt8) (by rw [digit_hex _ hmod]; exact hmod)
      rw [hex_of_le (by omega), hsnoc, digit_hex _ hmod, Nat.div_add_mod']

theorem hex_ne_nil (n : Nat) : hex n ≠ [] := by
  unfold hex
  simp [Nat.toDigits_ne_nil]

/-- A text in chunks, none of them empty before the last, and the body that they make up. -/
inductive Dechunked : Str → Str → Prop
  | last : Dechunked (hex 0 ++ crlf ++ crlf) []
  | chunk {size c t b : Str} : c ≠ [] → digits 16 0 size = (c.length, []) → size ≠ [] →
      Dechunked t b → Dechunked (size ++ crlf ++ c ++ crlf ++ t) (c ++ b)

theorem Dechunked.length_le {t b : Str} (h : Dechunked t b) :
    b.length + 5 ≤ t.length ∧ (b ≠ [] → b.length + 10 ≤ t.length) := by
  induction h with
  | last => exact ⟨by decide, fun h => absurd rfl h⟩
  | @chunk size c t b hc _ hsize _ ih =>
    have hpos := List.length_pos_of_ne_nil hsize
    simp only [List.length_append, crlf, List.length_cons, List.length_nil]
    omega

/-- The functions of zlib on a stream without header: `flush` is `deflate` with `Z_FULL_FLUSH` and
tells whether it returned `Z_OK`, `finish` is `deflate` with `Z_FINISH` and tells whether it
returned `Z_STREAM_END`; both are given the room for the output. -/
structure Zlib where
  Stream : Type
  init : Int → Stream
  bound : Stream → Nat → Nat
  params : Stream → Int → Stream
  flush : Stream → Str → Nat → Bool × Str × Stream
  finish : Stream → Nat → Bool × Str × Stream
  reset : Stream → Stream

/-- What is relied on: a full flush that leaves room is complete, so that nothing of it stays in the
stream; the segments that such flushes write, and a final block, which takes two bytes or at level 0
five, are inflated to what was deflated. -/
structure Zlib.Sound (zl : Zlib) where
  Clean : zl.Stream → Prop
  Segment : Str → Str → Prop
  Final : Str → Prop
  inflate : Str → Option Str
  init : ∀ lev, Clean (zl.init lev)
  params : ∀ z lev, Clean z → Clean (zl.params z lev)
  reset : ∀ z, Clean (zl.reset z)
  flush : ∀ z s n out z', Clean z → zl.flush z s n = (true, out, z') → out.length < n →
    Clean z' ∧ Segment s out
  flushFail : ∀ z s n out z', Clean z → zl.flush z s n = (false, out, z') → Clean z'
  finish : ∀ z n out z', Clean z → zl.finish z n = (true, out, z') →
    Final out ∧ out.length ≤ 5
  segment_ne : ∀ s out, Segment s out → out ≠ []
  inflate_eq : ∀ texts segs e, List.Forall₂ Segment texts segs → Final e →
    inflate (segs.flatten ++ e) = some texts.flatten

/-- `zs` is the compressed form, if there is one, and `clev` is not set with it. -/
structure Zstrobj where
  s : Str
  zs : Option Str := none
  clev : Int

/-- The compressed form is there and is of the level or above. -/
def Zstrobj.Stored (o : Zstrobj) (lev : Int) : Prop := o.zs.isSome ∧ lev ≤ o.clev

instance (o : Zstrobj) (lev : Int) : Decidable (o.Stored lev) := inferInstanceAs (Decidable (_ ∧ _))

/-- The stream, once `zinit` has been called, and the strings, which are shared. -/
structure Gzip (zl : Zlib) where
  zm : Option zl.Stream := none
  zlev : Int := 0
  objs : List Zstrobj := []

/-- `compressible_t::opts_t`. -/
structure Gzip.Opts where
  chunked : Bool
  lev : Int

structure Gzip.Buf where
  zs : List Nat := []
  f : Str := []

namespace Gzip

def zhdr : Str := [0x1f, 0x8b, 8, 0, 0, 0, 0, 0, 0, 0xff]

def endbufSize : Nat := 16

def zDisable : Int := -2

def uLongToBuf (l : Nat) : Str :=
  [UInt8.ofNat l, UInt8.ofNat (l >>> 8), UInt8.ofNat (l >>> 16), UInt8.ofNat (l >>> 24)]

variable {zl : Zlib}

section Model

variable (level : Int) (mem : Nat → UInt8)

/-- `level` is `ok_gzip_compress_level`. -/
def zinit (lev : Int) (w : Gzip zl) : Gzip zl :=
  { w with zm := some (zl.init lev), zlev := if lev = -1 then level else lev }

/-- The stream that `zcompress` gives to `deflate`, and its level. -/
def stream (lev : Int) (w : Gzip zl) : zl.Stream × Int :=
  let p := match w.zm with
    | some zm => (zm, w.zlev)
    | none => (zl.init (-1), level)
  let lev := if lev = -1 then level else lev
  (if lev = p.2 then p.1 else zl.params p.1 lev, lev)

/-- The lengths are cut to 32 bits for zlib, but the length of the result is not: it ends with what
was in memory.  Whether there is room left behind the flush is not looked at. -/
def zcompress (s : Str) (lev : Int) (w : Gzip zl) : Option Str × Gzip zl :=
  let z := stream level lev w
  let n := zl.bound z.1 s.length
  let r := zl.flush z.1 (s.take (s.length % 2 ^ 32)) (n % 2 ^ 32)
  (if r.1 then some (r.2.1 ++ (List.range (n - n % 2 ^ 32)).map mem) else none,
    { w with zm := some r.2.2, zlev := z.2 })

def text (w : Gzip zl) (i : Nat) : Str := ((w.objs[i]?).map Zstrobj.s).getD []

def toZstr (i : Nat) (lev : Int) (w : Gzip zl) : Option Str × Gzip zl := match w.objs[i]? with
  | none => (none, w)
  | some o =>
    if o.Stored lev then (o.zs, w)
    else
      let r := zcompress level mem o.s lev w
      (r.1, { r.2 with objs := r.2.objs.set i { o with zs := r.1 } })

/-- `strbuf2zstr`: the cache may know a string with that text. -/
def strbuf2zstr (look : Str → Option Nat) (clev : Int) (b : Buf) (w : Gzip zl) :
    Buf × Gzip zl :=
  if b.f = [] then (b, w)
  else match (look b.f).filter fun i => (w.objs[i]?).any fun o => o.s = b.f with
    | some i => (⟨b.zs ++ [i], []⟩, w)
    | none => (⟨b.zs ++ [w.objs.length], []⟩, { w with objs := w.objs ++ [{ s := b.f, clev }] })

structure Acc where
  out : Str := []
  crc : UInt32 := crc32 0 []
  ilen : Nat := 0

def piece (o : Opts) (s : Str) : Str :=
  if o.chunked then hex (s.length % 2 ^ 32) ++ crlf ++ s ++ crlf else s

/-- The loop, and whether it came to its end.  Without `zinit` the header is a null string. -/
def compressLoop (o : Opts) : Bool → List Nat → Acc → Gzip zl → Option (Option Acc × Gzip zl)
  | _, [], a, w => some (some a, w)
  | first, i :: ids, a, w =>
    let z := toZstr level mem i o.lev w
    match z.1 with
    | none => some (none, z.2)
    | some s =>
      if first ∧ z.2.zm.isNone then none
      else compressLoop o false ids
        { out := a.out ++ piece o (if first then zhdr ++ s else s)
          crc := crc32 a.crc (z.2.text i)
          ilen := a.ilen + (z.2.text i).length } z.2

/-- `zfinish`, without a stream the failure of `deflate`. -/
def zfinish (w : Gzip zl) : Option Str × Gzip zl := match w.zm with
  | none => (none, w)
  | some zm =>
    let r := zl.finish zm endbufSize
    (if r.1 then some r.2.1 else none, { w with zm := some (zl.reset r.2.2) })

/-- `compress`, and whether it came to its end; `none` is the end of the process. -/
def compress (look : Str → Option Nat) (clev : Int) (b : Buf) (o : Opts) (w : Gzip zl) :
    Option (Bool × Str × Gzip zl) :=
  let p := strbuf2zstr look clev b w
  match compressLoop level mem o true p.1.zs {} p.2 with
  | none => none
  | some (none, w) => some (false, [], w)
  | some (some a, w) =>
    let e := zfinish w
    match e.1 with
    | none => some (false, [], e.2)
    | some dat =>
      let s := dat ++ uLongToBuf a.crc.toNat ++ uLongToBuf a.ilen
      if endbufSize < s.length then none
      else some (true, a.out ++ piece o s ++ if o.chunked then hex 0 ++ crlf ++ crlf else [], e.2)

/-- `receive` is `xdr_to_zstr`, for a string that another process has compressed or tried to. -/
inductive Event
  | zinit (lev : Int)
  | alloc (s : Str) (clev : Int)
  | receive (s zs : Str) (clev : Int)
  | compress (look : Str → Option Nat) (clev : Int) (b : Buf) (o : Opts)

def step (w : Gzip zl) : Event → Option (Gzip zl)
  | .zinit lev => some (zinit level lev w)
  | .alloc s clev => some { w with objs := w.objs ++ [{ s, clev }] }
  | .receive s zs clev => some { w with objs := w.objs ++ [{ s, zs := some zs, clev }] }
  | .compress look clev b o => (compress level mem look clev b o w).map fun r => r.2.2

def system : Lib.System (Gzip zl) Event where
  init w := w = {}
  step := step level mem

end Model

/-- The strings of a buffer, the last of them not yet shared. -/
def Buf.texts (b : Buf) (w : Gzip zl) : List Str :=
  b.zs.map w.text ++ if b.f = [] then [] else [b.f]

/-- The lengths are below 32 bits, with the room for the header. -/
def Short (zl : Zlib) (s : Str) : Prop :=
  s.length < 2 ^ 32 ∧ ∀ zm, zl.bound zm s.length + 10 < 2 ^ 32

/-- A compressed form of the string, or one that is not looked at. -/
def Compressed (S : zl.Sound) (s zs : Str) (clev : Int) : Prop :=
  clev = zDisable ∨ S.Segment s zs ∧ zs.length + 10 < 2 ^ 32

section Conditions

variable (level : Int) (mem : Nat → UInt8)

/-- Where `deflate` flushes the whole string, it leaves room in the buffer, which is how zlib tells
that the flush is complete. -/
def Flushed (s : Str) (lev : Int) (w : Gzip zl) : Prop :=
  let zm := (stream level lev w).1
  let n := zl.bound zm s.length
  (zl.flush zm s n).1 = true → (zl.flush zm s n).2.1.length < n

/-- The strings which the loop comes to and of which there is no compressed form. -/
def AllFlushed (lev : Int) : List Nat → Gzip zl → Prop
  | [], _ => True
  | i :: ids, w => (∀ o ∈ w.objs[i]?, o.Stored lev ∨ Flushed level o.s lev w) ∧
    ((toZstr level mem i lev w).1.isSome → AllFlushed lev ids (toZstr level mem i lev w).2)

structure Buf.Fits (look : Str → Option Nat) (clev : Int) (b : Buf) (o : Opts) (w : Gzip zl) :
    Prop where
  live : ∀ i ∈ b.zs, i < w.objs.length
  short : ∀ s ∈ b.texts w, Short zl s
  lev : zDisable < o.lev
  flushed : AllFlushed level mem o.lev (strbuf2zstr look clev b w).1.zs
    (strbuf2zstr look clev b w).2

def Genuine (S : zl.Sound) (w : Gzip zl) : Event → Prop
  | .receive s zs clev => w.zm.isSome ∧ Compressed S s zs clev
  | .compress look clev b o => Buf.Fits level mem look clev b o w
  | _ => True

end Conditions

/-- A header of ten bytes, segments for the texts, a final block, the sum of the texts, and their
length; what stands between is inflated to the texts. -/
def IsGzip (S : zl.Sound) (texts : List Str) (out : Str) : Prop := ∃ segs e,
  List.Forall₂ S.Segment texts segs ∧ S.Final e ∧
  S.inflate (segs.flatten ++ e) = some texts.flatten ∧
  out = zhdr ++ (segs.flatten ++ e) ++ uLongToBuf (crc32 0 texts.flatten).toNat ++
    uLongToBuf (texts.flatten.length % 2 ^ 32)

/-- The output is empty behind an error, and otherwise a gzip file, perhaps in chunks. -/
def Valid (S : zl.Sound) (o : Opts) (texts : List Str) (ok : Bool) (out : Str) : Prop :=
  ok = false ∧ out = [] ∨ ok = true ∧ ∃ body, IsGzip S texts body ∧
    if o.chunked then Dechunked out body else out = body

section Proofs

variable {level : Int} {mem : Nat → UInt8} {S : zl.Sound} {w w' : Gzip zl} {o : Opts} {s : Str}
  {lev : Int} {i : Nat}

structure Good (S : zl.Sound) (w : Gzip zl) : Prop where
  clean : ∀ zm, w.zm = some zm → S.Clean zm
  objs : ∀ o ∈ w.objs, ∀ z, o.zs = some z → w.zm.isSome ∧ Compressed S o.s z o.clev

theorem Good.stream (h : Good S w) : S.Clean (stream level lev w).1 := by
  have hclean : S.Clean (match w.zm with
      | some zm => (zm, w.zlev)
      | none => (zl.init (-1), level)).1 := by
    cases hzm : w.zm with
    | none => exact S.init _
    | some zm => exact h.clean zm hzm
  exact iteInduction (motive := S.Clean) (fun _ => hclean) fun _ => S.params _ _ hclean

variable (mem) in
theorem zcompress_spec (h : Good S w) (hs : Short zl s) (hf : Flushed level s lev w) :
    (zcompress level mem s lev w).2.objs = w.objs ∧
    (∃ zm, (zcompress level mem s lev w).2.zm = some zm ∧ S.Clean zm) ∧
    ∀ z, (zcompress level mem s lev w).1 = some z → S.Segment s z ∧ z.length + 10 < 2 ^ 32 := by
  have hclean : S.Clean (stream level lev w).1 := h.stream
  unfold Flushed at hf
  unfold zcompress
  dsimp only at hf ⊢
  generalize (stream level lev w).1 = zm at hf hclean ⊢
  have hbound := hs.2 zm
  have hlen : s.length % 2 ^ 32 = s.length := Nat.mod_eq_of_lt hs.1
  have hn : zl.bound zm s.length % 2 ^ 32 = zl.bound zm s.length := Nat.mod_eq_of_lt (by omega)
  rw [hlen, hn, List.take_length, Nat.sub_self, List.range_zero, List.map_nil]
  rcases hr : zl.flush zm s (zl.bound zm s.length) with ⟨ok, out, z'⟩
  rw [hr] at hf
  cases ok with
  | false => exact ⟨rfl, ⟨z', rfl, S.flushFail _ _ _ _ _ hclean hr⟩, nofun⟩
  | true =>
    have hroom := hf rfl
    obtain ⟨hz', hseg⟩ := S.flush _ _ _ _ _ hclean hr hroom
    refine ⟨rfl, ⟨z', rfl, hz'⟩, fun z hz => ?_⟩
    simp only [if_true, List.append_nil, Option.some.injEq] at hz
    subst hz
    exact ⟨hseg, by dsimp only at hroom; omega⟩

theorem text_eq {ob : Zstrobj} (hi : w.objs[i]? = some ob) : w.text i = ob.s := by
  rw [text, hi, Option.map_some, Option.getD_some]

/-- The texts of the strings are what they were. -/
structure Kept (w w' : Gzip zl) : Prop where
  text : w'.text = w.text
  length : w'.objs.length = w.objs.length

variable (level mem) in
theorem toZstr_spec (h : Good S w) (hi : i < w.objs.length) (hs : Short zl (w.text i))
    (hlev : zDisable < lev) (hf : ∀ o ∈ w.objs[i]?, o.Stored lev ∨ Flushed level o.s lev w) :
    Good S (toZstr level mem i lev w).2 ∧ Kept w (toZstr level mem i lev w).2 ∧
    ∀ z, (toZstr level mem i lev w).1 = some z → (toZstr level mem i lev w).2.zm.isSome ∧
      S.Segment (w.text i) z ∧ z.length + 10 < 2 ^ 32 := by
  obtain ⟨ob, hob⟩ : ∃ ob, w.objs[i]? = some ob := ⟨_, List.getElem?_eq_getElem hi⟩
  have htext := text_eq hob
  have hmem := List.mem_of_getElem? hob
  unfold toZstr
  rw [hob]
  dsimp only
  split
  · next hstored =>
    refine ⟨h, ⟨rfl, rfl⟩, fun z hz => ?_⟩
    obtain ⟨hzm, hdis | hseg⟩ := h.objs ob hmem z hz
    · exact absurd hstored.2 (by omega)
    · exact ⟨hzm, htext ▸ hseg⟩
  · next hstored =>
    have hroom := (hf ob hob).resolve_left hstored
    obtain ⟨hobjs, ⟨zm, hzm, hclean⟩, hz⟩ := zcompress_spec mem h (htext ▸ hs) hroom
    have hsome : (zcompress level mem ob.s lev w).2.zm.isSome := by rw [hzm]; rfl
    refine ⟨⟨fun zm' hzm' => ?_, fun o ho z hoz => ⟨hsome, ?_⟩⟩, ⟨?_, ?_⟩, fun z hz' => ?_⟩
    · cases hzm.symm.trans hzm'
      exact hclean
    · rw [hobjs] at ho
      obtain ho | rfl := List.mem_or_eq_of_mem_set ho
      · exact (h.objs o ho z hoz).2
      · exact .inr (hz z hoz)
    · funext j
      simp only [text, hobjs, List.getElem?_set]
      split
      · next hij =>
        subst hij
        rw [hob]
        rfl
      · rfl
    · simp [hobjs]
    · exact ⟨hsome, htext ▸ hz z hz'⟩

/-- The segments with the header in front of the first. -/
def withHeader : Bool → List Str → List Str
  | true, z :: zs => (zhdr ++ z) :: zs
  | _, zs => zs

/-- A part of the output is not empty and its length fits 32 bits. -/
def Part (c : Str) : Prop := c ≠ [] ∧ c.length < 2 ^ 32

variable (level mem) in
theorem compressLoop_spec (first : Bool) (ids : List Nat) (a : Acc) (h : Good S w)
    (hlive : ∀ i ∈ ids, i < w.objs.length) (hshort : ∀ i ∈ ids, Short zl (w.text i))
    (hlev : zDisable < o.lev) (hf : AllFlushed level mem o.lev ids w) :
    ∃ r w', compressLoop level mem o first ids a w = some (r, w') ∧ Good S w' ∧ Kept w w' ∧
      ∀ a', r = some a' → ∃ segs, List.Forall₂ S.Segment (ids.map w.text) segs ∧
        a'.out = a.out ++ (withHeader first segs).flatMap (piece o) ∧
        (∀ c ∈ withHeader first segs, Part c) ∧
        a'.crc = crc32 a.crc (ids.map w.text).flatten ∧
        a'.ilen = a.ilen + (ids.map w.text).flatten.length := by
  induction ids generalizing first a w with
  | nil =>
    refine ⟨some a, w, by cases first <;> rfl, h, ⟨rfl, rfl⟩, fun a' ha' => ?_⟩
    cases ha'
    cases first <;> exact ⟨[], .nil, by simp [withHeader], nofun, by simp [crc32_nil], rfl⟩
  | cons i ids ih =>
    obtain ⟨hg, hk, hseg⟩ := toZstr_spec level mem h
      (hlive i List.mem_cons_self) (hshort i List.mem_cons_self) hlev hf.1
    have hrest := hf.2
    unfold compressLoop
    dsimp only
    generalize toZstr level mem i o.lev w = z at hg hk hseg hrest ⊢
    obtain ⟨z, w₁⟩ := z
    cases z with
    | none => exact ⟨none, w₁, rfl, hg, hk, nofun⟩
    | some s =>
      obtain ⟨hzm, hs, hlen⟩ := hseg s rfl
      obtain ⟨zm, hzm⟩ := Option.isSome_iff_exists.1 hzm
      dsimp only at hk hzm ⊢
      rw [hzm, Option.isNone_some, if_neg (by simp)]
      obtain ⟨r, w', hloop, hg', hk', hr⟩ := ih false
        { out := a.out ++ piece o (if first then zhdr ++ s else s)
          crc := crc32 a.crc (w₁.text i)
          ilen := a.ilen + (w₁.text i).length } hg
        (fun j hj => hk.length ▸ hlive j (List.mem_cons_of_mem _ hj))
        (fun j hj => hk.text ▸ hshort j (List.mem_cons_of_mem _ hj)) (hrest rfl)
      refine ⟨r, w', hloop, hg', ⟨hk'.text.trans hk.text, hk'.length.trans hk.length⟩,
        fun a' ha' => ?_⟩
      obtain ⟨segs, hsegs, hout, hparts, hcrc, hilen⟩ := hr a' ha'
      rw [hk.text] at hsegs hcrc hilen
      have hrest : withHeader false segs = segs := by cases segs <;> rfl
      have hhead : withHeader first (s :: segs) =
          (if first then zhdr ++ s else s) :: segs := by cases first <;> rfl
      refine ⟨s :: segs, .cons hs hsegs, ?_, fun c hc => ?_, ?_, ?_⟩
      · rw [hout, hhead, hrest, List.flatMap_cons, List.append_assoc]
      · rw [hhead] at hc
        obtain rfl | hc := List.mem_cons.1 hc
        · have hne := S.segment_ne _ _ hs
          have hhdr : zhdr.length = 10 := rfl
          cases first with
          | true => exact ⟨by simp [zhdr], by simp only [if_true, List.length_append]; omega⟩
          | false => exact ⟨hne, by simp only [Bool.false_eq_true, if_false]; omega⟩
        · exact hparts c (hrest.symm ▸ hc)
      · rw [hcrc, List.map_cons, List.flatten_cons, crc32_append]
      · rw [hilen, List.map_cons, List.flatten_cons, List.length_append, Nat.add_assoc]

theorem uLongToBuf_length (l : Nat) : (uLongToBuf l).length = 4 := rfl

theorem uLongToBuf_mod (l : Nat) : uLongToBuf (l % 2 ^ 32) = uLongToBuf l := by
  have hbyte {m n : Nat} (h : m % 2 ^ 8 = n % 2 ^ 8) : UInt8.ofNat m = UInt8.ofNat n :=
    UInt8.toNat.inj (by rw [UInt8.toNat_ofNat', UInt8.toNat_ofNat', h])
  have hshift (k : Nat) : (l % 2 ^ 32) >>> k = (l % 2 ^ 32) / 2 ^ k ∧ l >>> k = l / 2 ^ k :=
    ⟨Nat.shiftRight_eq_div_pow _ _, Nat.shiftRight_eq_div_pow _ _⟩
  rw [uLongToBuf, uLongToBuf, (hshift 8).1, (hshift 8).2, (hshift 16).1, (hshift 16).2,
    (hshift 24).1, (hshift 24).2, hbyte (m := l % 2 ^ 32) (n := l) (by omega),
    hbyte (m := l % 2 ^ 32 / 2 ^ 8) (n := l / 2 ^ 8) (by omega),
    hbyte (m := l % 2 ^ 32 / 2 ^ 16) (n := l / 2 ^ 16) (by omega),
    hbyte (m := l % 2 ^ 32 / 2 ^ 24) (n := l / 2 ^ 24) (by omega)]

theorem strbuf2zstr_spec (look : Str → Option Nat) (clev : Int) (b : Buf) (h : Good S w)
    (hlive : ∀ i ∈ b.zs, i < w.objs.length) :
    Good S (strbuf2zstr look clev b w).2 ∧
    (∀ i ∈ (strbuf2zstr look clev b w).1.zs, i < (strbuf2zstr look clev b w).2.objs.length) ∧
    (strbuf2zstr look clev b w).1.zs.map (strbuf2zstr look clev b w).2.text = b.texts w := by
  unfold strbuf2zstr Buf.texts
  split
  · exact ⟨h, hlive, (List.append_nil _).symm⟩
  · split
    · next i hi =>
      obtain ⟨-, hany⟩ := Option.filter_eq_some_iff.1 hi
      obtain ⟨ob, hob, hs⟩ := (Option.any_eq_true _ _).1 hany
      have hs : ob.s = b.f := of_decide_eq_true hs
      refine ⟨h, fun j hj => ?_, ?_⟩
      · obtain hj | hj := List.mem_append.1 hj
        · exact hlive j hj
        · rw [List.mem_singleton.1 hj]
          exact (List.getElem?_eq_some_iff.1 hob).1
      · rw [List.map_append, List.map_singleton, text_eq hob, hs]
    · have hold (j : Nat) (hj : j < w.objs.length) :
          text { w with objs := w.objs ++ [{ s := b.f, clev }] } j = w.text j := by
        rw [text, text, List.getElem?_append_left hj]
      refine ⟨⟨h.clean, fun ob hob z hz => ?_⟩, fun j hj => ?_, ?_⟩
      · obtain hob | hob := List.mem_append.1 hob
        · exact h.objs ob hob z hz
        · rw [List.mem_singleton.1 hob] at hz
          cases hz
      · rw [List.length_append, List.length_singleton]
        obtain hj | hj := List.mem_append.1 hj
        · exact Nat.lt_succ_of_lt (hlive j hj)
        · rw [List.mem_singleton.1 hj]
          exact Nat.lt_succ_self _
      · rw [List.map_append, List.map_singleton]
        congr 1
        · exact List.map_congr_left fun j hj => hold j (hlive j hj)
        · simp [text]

theorem zfinish_spec (h : Good S w) : Good S (zfinish w).2 ∧
    ∀ e, (zfinish w).1 = some e → S.Final e ∧ e.length ≤ 5 := by
  unfold zfinish
  cases hzm : w.zm with
  | none => exact ⟨h, nofun⟩
  | some zm =>
    dsimp only
    refine ⟨⟨fun zm' hzm' => ?_, fun ob hob z hz => ⟨rfl, (h.objs ob hob z hz).2⟩⟩, fun e he => ?_⟩
    · cases hzm'
      exact S.reset _
    · rcases hr : zl.finish zm endbufSize with ⟨ok, out, z'⟩
      rw [hr] at he
      cases ok with
      | false => cases he
      | true =>
        cases he
        exact S.finish _ _ _ _ (h.clean zm hzm) hr

variable (level mem) in
theorem compress_spec (look : Str → Option Nat) (clev : Int) (b : Buf) (h : Good S w)
    (hb : Buf.Fits level mem look clev b o w) :
    ∃ ok out w', compress level mem look clev b o w = some (ok, out, w') ∧
      Good S w' ∧ (ok = false ∧ out = [] ∨ ok = true ∧ ∃ segs e,
        List.Forall₂ S.Segment (b.texts w) segs ∧ S.Final e ∧ e.length ≤ 5 ∧
        (∀ c ∈ withHeader true segs, Part c) ∧
        out = (withHeader true segs).flatMap (piece o) ++
          piece o (e ++ uLongToBuf (crc32 0 (b.texts w).flatten).toNat ++
            uLongToBuf ((b.texts w).flatten.length % 2 ^ 32)) ++
          if o.chunked then hex 0 ++ crlf ++ crlf else []) := by
  obtain ⟨hg, hlive, htexts⟩ := strbuf2zstr_spec look clev b h hb.live
  have hflushed := hb.flushed
  unfold compress
  dsimp only
  generalize strbuf2zstr look clev b w = p at hg hlive htexts hflushed ⊢
  have hshort (i : Nat) (hi : i ∈ p.1.zs) : Short zl (p.2.text i) :=
    hb.short _ (htexts ▸ List.mem_map_of_mem hi)
  obtain ⟨r, w₁, hloop, hg₁, -, hr⟩ := compressLoop_spec level mem true p.1.zs
    {} hg hlive hshort hb.lev hflushed
  rw [hloop]
  cases r with
  | none => exact ⟨false, [], w₁, rfl, hg₁, .inl ⟨rfl, rfl⟩⟩
  | some a =>
    obtain ⟨segs, hsegs, hout, hparts, hcrc, hilen⟩ := hr a rfl
    obtain ⟨hg₂, he⟩ := zfinish_spec hg₁
    dsimp only
    cases hfin : (zfinish w₁).1 with
    | none => exact ⟨false, [], _, rfl, hg₂, .inl ⟨rfl, rfl⟩⟩
    | some e =>
      obtain ⟨hfinal, hlen⟩ := he e hfin
      have hroom : ¬ endbufSize < (e ++ uLongToBuf a.crc.toNat ++ uLongToBuf a.ilen).length := by
        simp only [List.length_append, uLongToBuf_length, endbufSize]
        omega
      dsimp only
      rw [if_neg hroom]
      refine ⟨true, _, _, rfl, hg₂, .inr ⟨rfl, segs, e, htexts ▸ hsegs, hfinal, hlen, hparts, ?_⟩⟩
      rw [hout, hcrc, hilen, htexts, uLongToBuf_mod, Nat.zero_add, crc32_nil, List.nil_append]

theorem good_init : Good S ({} : Gzip zl) := ⟨nofun, nofun⟩

theorem Good.push (h : Good S w) {ob : Zstrobj}
    (hob : ∀ z, ob.zs = some z → w.zm.isSome ∧ Compressed S ob.s z ob.clev) :
    Good S { w with objs := w.objs ++ [ob] } := by
  refine ⟨h.clean, fun o ho z hz => ?_⟩
  obtain ho | ho := List.mem_append.1 ho
  · exact h.objs o ho z hz
  · rw [List.mem_singleton.1 ho] at hz ⊢
    exact hob z hz

theorem Good.step {e : Event} (h : Good S w) (he : Genuine level mem S w e)
    (hs : w.step level mem e = some w') : Good S w' := by
  cases e with
  | zinit lev =>
    cases hs
    refine ⟨fun zm hzm => ?_, fun o ho z hz => ⟨rfl, (h.objs o ho z hz).2⟩⟩
    cases hzm
    exact S.init lev
  | alloc s clev =>
    cases hs
    exact h.push nofun
  | receive s zs clev =>
    cases hs
    refine h.push fun z hz => ?_
    cases hz
    exact he
  | compress look clev b o =>
    obtain ⟨r, hr, rfl⟩ := Option.map_eq_some_iff.1 hs
    obtain ⟨ok, out, w₁, hc, hg, -⟩ := compress_spec level mem look clev b h he
    cases hc.symm.trans hr
    exact hg

theorem good (h : (@system zl level mem).Reach (Genuine level mem S) w) : Good S w := by
  refine h.invariant (I := Good S) ?_ fun _ _ _ _ hi hc hs => hi.step hc hs
  rintro w rfl
  exact good_init

theorem IsGzip.length_le {texts : List Str} {body : Str} (h : IsGzip S texts body) :
    18 ≤ body.length := by
  obtain ⟨segs, e, -, -, -, rfl⟩ := h
  have hhdr : zhdr.length = 10 := rfl
  simp only [List.length_append, uLongToBuf_length]
  omega

end Proofs

section Runs

/-- What zlib makes of the letter a; it does not take anything else. -/
def letterZlib : Zlib where
  Stream := Unit
  init _ := ()
  bound _ n := n + (n + 7) / 8 + (n + 63) / 64 + 5
  params _ _ := ()
  flush _ s _ :=
    if s = [97] then (true, [0x4a, 0x04, 0, 0, 0, 0xff, 0xff], ()) else (false, [], ())
  finish _ _ := (true, [3, 0], ())
  reset _ := ()

def letterSegment : Str := [0x4a, 0x04, 0, 0, 0, 0xff, 0xff]

theorem letters_flatten {texts segs : List Str}
    (h : List.Forall₂ (fun s z => s = [97] ∧ z = letterSegment) texts segs) :
    segs.flatten.length = 7 * texts.length ∧ texts.flatten = List.replicate texts.length 97 := by
  induction h with
  | nil => exact ⟨rfl, rfl⟩
  | cons h _ ih =>
    obtain ⟨rfl, rfl⟩ := h
    simp only [List.flatten_cons, List.length_append, List.length_cons, ih.1, ih.2]
    exact ⟨by simp only [letterSegment, List.length_cons, List.length_nil]; omega, rfl⟩

def letterSound : letterZlib.Sound where
  Clean _ := True
  Segment s z := s = [97] ∧ z = letterSegment
  Final e := e = [3, 0]
  inflate l := some (List.replicate ((l.length - 2) / 7) 97)
  init _ := trivial
  params _ _ _ := trivial
  reset _ := trivial
  flush z s n out z' _ h _ := by
    simp only [letterZlib] at h
    split at h
    · next hs =>
      cases h
      exact ⟨trivial, hs, rfl⟩
    · cases h
  flushFail _ _ _ _ _ _ _ := trivial
  finish z n out z' _ h := by
    cases h
    exact ⟨rfl, by decide⟩
  segment_ne s out h := by
    rw [h.2]
    exact List.cons_ne_nil _ _
  inflate_eq texts segs e h he := by
    obtain ⟨hlen, htexts⟩ := letters_flatten h
    rw [htexts, List.length_append, hlen, he]
    congr 2
    simp

def letter : Buf := { f := [97] }

theorem letter_fits : Buf.Fits 2 (fun _ => 0) (fun _ => none) 0 letter ⟨true, -1⟩
    (zinit 2 (-1) ({} : Gzip letterZlib)) where
  live _ h := absurd h List.not_mem_nil
  short s hs := by
    rw [List.mem_singleton.1 hs]
    exact ⟨by decide, fun _ => (by decide : letterZlib.bound () 1 + 10 < 2 ^ 32)⟩
  lev := by decide
  flushed := by
    refine ⟨fun o ho => .inr ?_, fun _ => trivial⟩
    cases ho
    exact fun _ => (by decide : 7 < 8)

end Runs

end Gzip

end Okws
