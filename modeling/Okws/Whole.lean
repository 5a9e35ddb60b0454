import Okws.InHdrFrag

namespace Okws

open Lib

namespace Lib

universe u w x

variable {β : Type u} {σ : Type w} {ρ : Type x}

/-- The loop on a list: its result, its variables, and what it leaves. -/
def Scanner.read (S : Scanner β σ ρ) : σ → List β → ρ × σ × List β
  | s, [] => match S.guard s with
    | some r => (r, s, [])
    | none => match S.eof s with
      | .done r s' => (r, s', [])
      | .back r s' => (r, s', [])
  | s, b :: l => match S.guard s with
    | some r => (r, s, b :: l)
    | none => match S.byte s b with
      | .next s' => S.read s' l
      | .done r s' => (r, s', l)
      | .back r s' => (r, s', b :: l)

end Lib

namespace Tape

/-- The tape holds `l`, its first character perhaps pushed back. -/
structure Whole (t : Tape) (l : Str) : Prop where
  unlimited : t.Unlimited
  ready : t.Ready
  text : if t.bc then
      (∃ b k, t.lch = .byte b ∧ l = b :: k ∧ t.toks = k.map .byte) ∨
        (t.lch = .eof ∧ l = [] ∧ t.toks = [])
    else t.toks = l.map .byte

namespace Whole

variable {t : Tape} {l : Str} {b : UInt8}

theorem get (h : t.Whole (b :: l)) :
    ∃ t', t.get = (.byte b, t') ∧ t'.Whole l ∧ t'.unget.Whole (b :: l) := by
  have htext := h.text
  cases hbc : t.bc with
  | true =>
    rw [hbc, if_pos rfl] at htext
    obtain ⟨c, k, hlch, hl, htoks⟩ | ⟨-, hl, -⟩ := htext
    · cases hl
      refine ⟨{ t with bc := false }, by rw [get_bc hbc, hlch], ?_, ?_⟩
      · exact ⟨h.unlimited, ⟨h.ready.erc, nofun⟩, htoks⟩
      · refine ⟨Unlimited.unget h.unlimited, ready_unget ⟨h.ready.erc, nofun⟩, ?_⟩
        simp [unget, hlch, htoks]
    · cases hl
  | false =>
    rw [hbc] at htext
    have herc : t.erc = .ok := h.ready.erc.resolve_right fun he => by simp [he.2] at htext
    have hlim := h.unlimited
    have hgot := Unlimited.get hlim
    have hget := get_byte hbc hlim.ne herc htext
    rw [hget] at hgot
    have hready : (t.gotChar b (l.map .byte)).2.Ready := ⟨.inl herc, by simp [gotChar, hbc]⟩
    refine ⟨_, hget, ⟨hgot, hready, by simp [hbc]⟩, ?_⟩
    refine ⟨Unlimited.unget hgot, ready_unget hready, ?_⟩
    simp [unget]

theorem get_nil (h : t.Whole []) :
    ∃ t', t.get = (.eof, t') ∧ t'.Whole [] ∧ t'.unget.Whole [] := by
  have htext := h.text
  cases hbc : t.bc with
  | true =>
    rw [hbc, if_pos rfl] at htext
    obtain ⟨c, k, -, hl, -⟩ | ⟨hlch, -, htoks⟩ := htext
    · cases hl
    · refine ⟨{ t with bc := false }, by rw [get_bc hbc, hlch], ?_, ?_⟩
      · exact ⟨h.unlimited, ⟨h.ready.erc, nofun⟩, htoks⟩
      · refine ⟨Unlimited.unget h.unlimited, ready_unget ⟨h.ready.erc, nofun⟩, ?_⟩
        simp [unget, hlch, htoks]
  | false =>
    rw [hbc] at htext
    have htoks : t.toks = [] := htext
    have hlim := h.unlimited
    have hgot := Unlimited.get hlim
    have hget : t.get = (.eof, { t with erc := .eof, lch := .eof }) := by
      obtain he | ⟨he, -⟩ := h.ready.erc
      · exact Tape.get_nil hbc hlim.ne he htoks
      · rw [get_ended hbc hlim.ne (by simp [he]) (by simp [he]), ← he]
    rw [hget] at hgot
    have hready :
        ({ t with erc := .eof, lch := .eof } : Tape).Ready := ⟨.inr ⟨rfl, htoks⟩, by simp [hbc]⟩
    refine ⟨_, hget, ⟨hgot, hready, by simp [hbc, htoks]⟩, ?_⟩
    refine ⟨Unlimited.unget hgot, ready_unget hready, ?_⟩
    simp [unget, htoks]

theorem scan {σ ρ : Type} (S : Scanner UInt8 σ ρ) (s : σ) (h : t.Whole l) :
    ∃ t', Lib.scan device S s t = (some (S.read s l).1, (S.read s l).2.1, t') ∧
      t'.Whole (S.read s l).2.2 := by
  induction l generalizing s t with
  | nil =>
    cases hg : S.guard s with
    | some r =>
      exact ⟨t, by simp [scan_guard hg, Scanner.read, hg], by simpa [Scanner.read, hg] using h⟩
    | none =>
      obtain ⟨t', hget, ht', hu⟩ := h.get_nil
      simp only [Scanner.read, hg, Lib.scan_eof (D := device) hg hget]
      cases S.eof s with
      | done r s' => exact ⟨t', rfl, ht'⟩
      | back r s' => exact ⟨t'.unget, rfl, hu⟩
  | cons b l ih =>
    cases hg : S.guard s with
    | some r =>
      exact ⟨t, by simp [scan_guard hg, Scanner.read, hg], by simpa [Scanner.read, hg] using h⟩
    | none =>
      obtain ⟨t', hget, ht', hu⟩ := h.get
      simp only [Scanner.read, hg]
      cases hb : S.byte s b with
      | next s' =>
        rw [Lib.scan_next (D := device) hg hget hb]
        exact ih s' ht'
      | exit e =>
        rw [Lib.scan_exit (D := device) hg hget hb]
        cases e with
        | done r s' => exact ⟨t', rfl, ht'⟩
        | back r s' => exact ⟨t'.unget, rfl, hu⟩

theorem setMir (h : t.Whole l) (m : Option Mirror) : ({ t with mir := m } : Tape).Whole l :=
  ⟨h.unlimited, ⟨h.ready.erc, h.ready.bc⟩, h.text⟩

theorem canRead (h : t.Whole l) : t.canRead.Whole l := ⟨h.unlimited, ⟨.inl rfl, h.ready.bc⟩, h.text⟩

end Whole

theorem whole_start (B : Str) : ({ src := Abuf.whole B } : Abuf).toTape.Whole B :=
  ⟨by simp [Abuf.toTape, Unlimited], ⟨.inl rfl, nofun⟩, Abuf.regionToks_whole B⟩

end Tape

namespace Reader

variable {V σ ρ : Type} {t : Tape} {l : Str}

theorem ofScan_whole (S : Scanner UInt8 σ ρ) (load : V → σ) (store : V → σ → V)
    (post : V → ρ → Stat × V) (v : V) (h : t.Whole l) :
    ∃ t', ofScan S load store post v t =
      (some (post (store v (S.read (load v) l).2.1) (S.read (load v) l).1).1,
      (post (store v (S.read (load v) l).2.1) (S.read (load v) l).1).2, t') ∧
      t'.Whole (S.read (load v) l).2.2 := by
  obtain ⟨t', hs, ht'⟩ := h.scan S (load v)
  exact ⟨t', ofScan_some hs, ht'⟩

end Reader

end Okws
