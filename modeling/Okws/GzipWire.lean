import Okws.Chunker
import Okws.Gzip

namespace Okws

namespace Gzip

theorem hex_length {k : Nat} (n : Nat) (h : n < 16 ^ (k + 1)) : (hex n).length ≤ k + 1 := by
  induction k generalizing n with
  | zero => rw [hex_of_lt h, List.length_singleton]
  | succ k ih =>
    by_cases hn : n < 16
    · rw [hex_of_lt hn, List.length_singleton]
      omega
    · have hdiv : n / 16 < 16 ^ (k + 1) := by
        rw [Nat.div_lt_iff_lt_mul (by decide), ← Nat.pow_succ]
        exact h
      rw [hex_of_le (by omega), List.length_append, List.length_singleton]
      have hih := ih _ hdiv
      omega

theorem exists_chunks {o : Opts} (ho : o.chunked = true) (parts : List Str)
    (hparts : ∀ p ∈ parts, p ≠ [] ∧ p.length < 2 ^ 31) :
    ∃ cs : List Chunk, cs.map Chunk.data = parts ∧ (∀ c ∈ cs, c.size = hex c.data.length) ∧
      cs.flatMap Chunk.encode = parts.flatMap (piece o) := by
  induction parts with
  | nil => exact ⟨[], rfl, nofun, rfl⟩
  | cons p parts ih =>
    obtain ⟨cs, hdata, hsize, henc⟩ := ih fun q hq => hparts q (List.mem_cons_of_mem _ hq)
    obtain ⟨hne, hlen⟩ := hparts p List.mem_cons_self
    let c : Chunk := ⟨hex p.length, p, hne, ⟨hex_ne_nil _, digits_hex _⟩, hlen⟩
    have hmod : p.length % 2 ^ 32 = p.length := Nat.mod_eq_of_lt (by omega)
    refine ⟨c :: cs, by rw [List.map_cons, hdata], List.forall_mem_cons.2 ⟨rfl, hsize⟩, ?_⟩
    rw [List.flatMap_cons, List.flatMap_cons, henc, piece, if_pos ho, hmod]
    rfl

theorem clear_iff {cap : Nat} (hcap : 8 < cap) {c : Chunk} (h : c.size = hex c.data.length) :
    c.Clear cap ↔ ∀ b ∈ c.data.head?, Byte.isEol b = false := by
  have hsmall := c.small
  have hle := hex_length (k := 7) c.data.length (by omega)
  rw [Chunk.Clear, h, and_iff_right (by omega)]

variable {zl : Zlib} {level : Int} {mem : Nat → UInt8} {S : zl.Sound} {w w' : Gzip zl} {o : Opts}

theorem compress_parts (look : Str → Option Nat) (clev : Int) (b : Buf) (h : Good S w)
    (hb : Buf.Fits level mem look clev b o w) (ho : o.chunked = true) (hne : b.texts w ≠ [])
    {out : Str} (hc : compress level mem look clev b o w = some (true, out, w')) :
    ∃ parts : List Str, IsGzip S (b.texts w) parts.flatten ∧ (∀ p ∈ parts, p ≠ []) ∧
      out = parts.flatMap (piece o) ++ hex 0 ++ crlf ++ crlf := by
  obtain ⟨ok, out', w₁, hc', -, ⟨rfl, -⟩ | ⟨rfl, segs, e, hsegs, hfinal, hlen, hparts, rfl⟩⟩ :=
    compress_spec level mem look clev b h hb
  · cases hc.symm.trans hc'
  · cases hc.symm.trans hc'
    obtain ⟨text, texts, htexts⟩ := List.exists_cons_of_ne_nil hne
    obtain ⟨z, segs', hz⟩ : ∃ z segs', segs = z :: segs' := by
      rw [htexts] at hsegs
      cases hsegs with
      | @cons _ z _ segs' _ _ => exact ⟨z, segs', rfl⟩
    generalize htail : e ++ uLongToBuf (crc32 0 (b.texts w).flatten).toNat ++
      uLongToBuf ((b.texts w).flatten.length % 2 ^ 32) = tail at *
    refine ⟨withHeader true segs ++ [tail], ⟨segs, e, hsegs, hfinal,
      S.inflate_eq _ _ _ hsegs hfinal, ?_⟩, fun p hp => ?_, ?_⟩
    · rw [← htail, hz]
      simp [withHeader]
    · obtain hp | hp := List.mem_append.1 hp
      · exact (hparts p hp).1
      · rw [List.mem_singleton.1 hp, ← htail]
        simp [uLongToBuf]
    · rw [if_pos ho]
      simp

/-- `okwc` has the gzip file for the body if and only if none of the compressed strings begins as
an end of a line does. -/
theorem decoded_iff (look : Str → Option Nat) (clev : Int) (b : Buf)
    (h : (@system zl level mem).Reach (Genuine level mem S) w)
    (hb : Buf.Fits level mem look clev b o w) (ho : o.chunked = true) (hne : b.texts w ≠ [])
    {out : Str} (hc : compress level mem look clev b o w = some (true, out, w')) :
    ∃ parts : List Str, IsGzip S (b.texts w) parts.flatten ∧
      out = parts.flatMap (piece o) ++ hex 0 ++ crlf ++ crlf ∧
      ((∀ p ∈ parts, p.length < 2 ^ 31) → ∀ cap, 8 < cap →
        ∀ (rs : List Str) (rest : Str), rs.flatten = out ++ rest →
        (RunChunker.machine.Ends (RunChunker.start cap rs)
            ⟨RunChunker.httpOk, some parts.flatten⟩ ↔
          ∀ p ∈ parts, ∀ b ∈ p.head?, Byte.isEol b = false)) := by
  obtain ⟨parts, hgz, hparts, hout⟩ := compress_parts look clev b (good h) hb ho hne hc
  refine ⟨parts, hgz, hout, fun hsmall cap hcap rs rest hrs => ?_⟩
  obtain ⟨cs, hdata, hsize, henc⟩ := exists_chunks ho parts fun p hp => ⟨hparts p hp, hsmall p hp⟩
  have hbody : parts.flatten = [].flatten ++ cs.flatMap Chunk.data := by
    rw [← hdata, List.flatMap_def]
    rfl
  have hzero : Chunker.Writes (hex 0) 0 := ⟨hex_ne_nil 0, digits_hex 0, by decide⟩
  have hholds : ({ src := rs } : Abuf).Holds (encodeChunks cs (hex 0) ++ rest) := by
    refine ⟨Abuf.Reachable.start.sound, rfl, by simp, ?_⟩
    rw [encodeChunks, henc, ← hout, ← hrs]
    rfl
  have hlast : (hex 0).length < cap := by
    have hle := hex_length (k := 0) 0 (by decide)
    omega
  have hends : RunChunker.machine.Ends (RunChunker.start cap rs)
      ⟨RunChunker.httpOk, some ([].flatten ++ cs.flatMap Chunk.data)⟩ ↔
      (∀ c ∈ cs, c.Clear cap) ∧ (hex 0).length < cap := RunChunker.ends_iff [] hzero hholds
  rw [← hbody, and_iff_left hlast] at hends
  refine hends.trans ?_
  rw [← hdata, List.forall_mem_map]
  exact forall₂_congr fun c hc => clear_iff hcap (hsize c hc)

/-- The letter a, in two chunks and the last. -/
theorem decoded_iff_letter : ∃ out w',
    compress 2 (fun _ => 0) (fun _ => none) 0 letter ⟨true, -1⟩
      (zinit 2 (-1) ({} : Gzip letterZlib)) = some (true, out, w') ∧
    ∃ parts : List Str, IsGzip letterSound [[97]] parts.flatten ∧
      out = parts.flatMap (piece ⟨true, -1⟩) ++ hex 0 ++ crlf ++ crlf ∧
      ((∀ p ∈ parts, p.length < 2 ^ 31) → ∀ cap, 8 < cap →
        ∀ (rs : List Str) (rest : Str), rs.flatten = out ++ rest →
        (RunChunker.machine.Ends (RunChunker.start cap rs)
            ⟨RunChunker.httpOk, some parts.flatten⟩ ↔
          ∀ p ∈ parts, ∀ b ∈ p.head?, Byte.isEol b = false)) := by
  have h₀ : (@system letterZlib 2 fun _ => 0).Reach (Genuine 2 (fun _ => 0) letterSound) {} :=
    .init rfl
  have h₁ := h₀.step (e := Event.zinit (-1)) trivial rfl
  exact ⟨_, _, rfl, decoded_iff (fun _ => none) 0 letter h₁ letter_fits rfl (by decide) rfl⟩

end Gzip

end Okws
