import Okws.Tape

/-! `abuf_t` against what it is for: a stream of bytes with one character of push-back
and a limit on how many bytes are handed out. -/

namespace Okws

open Lib

/-- A cursor in the bytes of a source.  `seen` are the bytes handed out and not pushed
back, `toks` what is still to come, `stop` the length `seen` may grow to. -/
structure Cursor where
  seen : Str := []
  toks : List Tok
  asleep : Bool := false
  stop : Option Nat := none
  last : Ch UInt8 := .eof

namespace Cursor

def get (c : Cursor) : Ch UInt8 × Cursor :=
  if c.stop = some c.seen.length then (.eof, { c with last := .eof })
  else if c.asleep then (.wait, { c with last := .wait })
  else match c.toks with
    | [] => (.eof, { c with last := .eof })
    | .wait :: l => (.wait, { c with toks := l, asleep := true, last := .wait })
    | .byte b :: l => (.byte b, { c with seen := c.seen ++ [b], toks := l, last := .byte b })

/-- Moves back over the byte the last `get` returned, if it did return one. -/
def unget (c : Cursor) : Cursor :=
  match c.last with
  | .byte b => { c with seen := c.seen.dropLast, toks := .byte b :: c.toks, last := .eof }
  | _ => c

def size (c : Cursor) : Nat := c.toks.length

theorem size_get {c c' : Cursor} {b : UInt8} (h : c.get = (.byte b, c')) : c'.size < c.size := by
  unfold get at h
  split at h
  · simp at h
  · split at h
    · simp at h
    · split at h <;> simp_all [size, Prod.mk.injEq]
      simp [← h.2]

def device : Device UInt8 Cursor where
  get := get
  unget := unget
  size := size
  get_size := size_get

end Cursor

/-- A device together with the two calls that change it without reading. -/
structure Buffer (δ : Type) where
  dev : Device UInt8 δ
  canRead : δ → δ
  setlim : δ → Nat → δ

def Abuf.buffer : Buffer Abuf where
  dev := Abuf.device
  canRead := Abuf.canRead
  setlim a n := a.setlim n

def Tape.buffer : Buffer Tape where
  dev := Tape.device
  canRead := Tape.canRead
  setlim t n := t.setlim n

def Cursor.buffer : Buffer Cursor where
  dev := Cursor.device
  canRead c := { c with asleep := false }
  setlim c n := { c with stop := some (c.seen.length + n) }

/-- The calls a reader makes.  An `unget` belongs to the `get` it comes after. -/
inductive Call
  | get (back : Bool)
  | peek
  | expectchar (c : UInt8)
  | skipWs
  | skipHws (mn : Nat)
  | setlim (n : Nat)
  | canRead

inductive Out
  | ch (c : Ch UInt8)
  | stat (s : Stat)
  | unit
  deriving DecidableEq

namespace Buffer

variable {δ : Type} (B : Buffer δ)

/-- One call; the number is `spcs`. -/
def exec : Call → Nat × δ → Out × Nat × δ
  | .get back, (k, d) =>
    let (c, d') := B.dev.get d
    (.ch c, k, if back then B.dev.unget d' else d')
  | .peek, (k, d) =>
    let (c, d') := Okws.peek B.dev d
    (.ch c, k, d')
  | .expectchar c, (k, d) =>
    let (r, d') := Okws.expectchar B.dev c d
    (.stat r, k, d')
  | .skipWs, (k, d) =>
    let (r, d') := Okws.skipWs B.dev d
    (.stat r, k, d')
  | .skipHws mn, (k, d) =>
    let (r, k', d') := Okws.skipHws B.dev mn k d
    (.stat r, k', d')
  | .setlim n, (k, d) => (.unit, k, B.setlim d n)
  | .canRead, (k, d) => (.unit, k, B.canRead d)

def calls : List Call → Nat × δ → List Out × Nat × δ
  | [], s => ([], s)
  | q :: qs, s =>
    let (o, s') := B.exec q s
    let (os, s'') := calls qs s'
    (o :: os, s'')

end Buffer

namespace Abuf

theorem toTape_exec (q : Call) {k : Nat} {a : Abuf} (h : a.Wf) :
    Tape.buffer.exec q (k, a.toTape) =
      ((buffer.exec q (k, a)).1, (buffer.exec q (k, a)).2.1, (buffer.exec q (k, a)).2.2.toTape) ∧
    (buffer.exec q (k, a)).2.2.Wf := by
  have hget : Tape.device.get a.toTape = ((device.get a).1, (device.get a).2.toTape) :=
    toTapeHom.get_map h
  have hwf : (device.get a).2.Wf := toTapeHom.get_inv h
  have hun : ∀ e : Abuf, Tape.device.unget e.toTape = (device.unget e).toTape := toTape_unget
  cases q with
  | get back =>
    simp only [Buffer.exec, buffer, Tape.buffer, hget]
    cases back
    · exact ⟨rfl, hwf⟩
    · exact ⟨by simp [hun], hwf.unget⟩
  | peek =>
    simp only [Buffer.exec, buffer, Tape.buffer, Okws.peek, hget, hun]
    exact ⟨trivial, hwf.unget⟩
  | expectchar c =>
    simp only [Buffer.exec, buffer, Tape.buffer, Okws.expectchar, hget]
    rcases hg : device.get a with ⟨ch, a'⟩
    rw [hg] at hwf
    cases ch with
    | byte b =>
      simp only
      split
      · exact ⟨rfl, hwf⟩
      · exact ⟨by simp [hun], hwf.unget⟩
    | eof => exact ⟨by simp [hun], hwf.unget⟩
    | wait => exact ⟨by simp [hun], hwf.unget⟩
  | skipWs =>
    rcases hs : scan device skipWsScanner () a with ⟨r, s, a'⟩
    obtain ⟨ht, hwf'⟩ := toTapeHom.scan_map h hs
    have ht : scan Tape.device skipWsScanner () a.toTape = (r, s, a'.toTape) := ht
    simp only [Buffer.exec, buffer, Tape.buffer, Okws.skipWs, hs, ht]
    exact ⟨trivial, hwf'⟩
  | skipHws mn =>
    rcases hs : scan device (skipHwsScanner mn) k a with ⟨r, s, a'⟩
    obtain ⟨ht, hwf'⟩ := toTapeHom.scan_map h hs
    have ht : scan Tape.device (skipHwsScanner mn) k a.toTape = (r, s, a'.toTape) := ht
    simp only [Buffer.exec, buffer, Tape.buffer, Okws.skipHws, hs, ht]
    exact ⟨trivial, hwf'⟩
  | setlim n => exact ⟨rfl, h⟩
  | canRead => exact ⟨rfl, fun _ => rfl⟩

end Abuf

/-- `ccnt` and `lim` count the same bytes as `seen` and `stop`, of which `p` are pushed back. -/
def LimRel (t : Tape) (c : Cursor) (p : Nat) : Prop :=
  match c.stop with
  | none => t.lim < 0
  | some s => t.ccnt ≤ t.lim ∧ t.lim - t.ccnt = (s : Int) - (c.seen.length + p : Nat)

/-- What is pushed back: nothing, the byte before the cursor, or the end of the stream. -/
inductive Pushed (t : Tape) (c : Cursor) : Prop
  | none : t.bc = false → c.toks = t.toks → LimRel t c 0 → Pushed t c
  | byte (b : UInt8) : t.bc = true → t.lch = .byte b → t.erc = .ok →
      c.toks = .byte b :: t.toks → LimRel t c 1 → Pushed t c
  | eof : t.bc = true → t.lch = .eof → c.toks = t.toks → LimRel t c 0 →
      (c.stop = some c.seen.length ∨ (t.erc ≠ .wait ∧ t.toks = [])) → Pushed t c

structure Sim (t : Tape) (c : Cursor) : Prop where
  erc : t.erc = .ok ∨ t.erc = .wait ∨ (t.erc = .eof ∧ t.toks = [])
  asleep : c.asleep = true ↔ t.erc = .wait
  ccnt : 0 ≤ t.ccnt
  pushed : Pushed t c

/-- The next `get` reports the limit without touching `lch`, and `lch` holds a byte that an
`unget` would hand out again. -/
def Tape.Stale (t : Tape) : Prop :=
  t.bc = false ∧ t.lim = t.ccnt ∧ t.lch ≠ .eof ∧ t.lch ≠ .wait

instance (t : Tape) : Decidable t.Stale := inferInstanceAs (Decidable (_ ∧ _))

theorem LimRel.stop_iff {t : Tape} {c : Cursor} (hc : 0 ≤ t.ccnt) (h : LimRel t c 0) :
    c.stop = some c.seen.length ↔ t.lim = t.ccnt := by
  unfold LimRel at h
  cases hs : c.stop with
  | none => simp only [hs] at h; simp; omega
  | some s => simp only [hs] at h; simp; omega

theorem LimRel.stop_ne {t : Tape} {c : Cursor} (h : LimRel t c 1) :
    c.stop ≠ some c.seen.length := by
  unfold LimRel at h
  cases hs : c.stop with
  | none => simp
  | some s => simp only [hs] at h; simp; omega

theorem LimRel.succ {t t' : Tape} {c c' : Cursor} {p : Nat} (h : LimRel t c 0)
    (hs : c.stop ≠ some c.seen.length) (hl : t'.lim = t.lim) (hn : t'.ccnt = t.ccnt + 1)
    (hc : c'.stop = c.stop) (hp : c'.seen.length + p = c.seen.length + 1) : LimRel t' c' p := by
  unfold LimRel at h ⊢
  rw [hc]
  cases hstop : c.stop with
  | none => simp only [hstop] at h ⊢; omega
  | some s =>
    have hne : s ≠ c.seen.length := fun he => hs (by rw [hstop, he])
    simp only [hstop] at h ⊢
    omega

theorem Tape.unget_of_ne {t : Tape} (h : t.lch ≠ .wait) : t.unget = { t with bc := true } := by
  simp [unget, h]

/-- `get` agrees with the cursor; so does an `unget` after it, unless the tape was stale. -/
def GetAgrees (t : Tape) (c : Cursor) : Prop :=
  t.get.1 = c.get.1 ∧ Sim t.get.2 c.get.2 ∧ (¬ t.Stale → Sim t.get.2.unget c.get.2.unget)

section Agree

variable {t : Tape} {c : Cursor} (herc : t.erc = .ok ∨ t.erc = .wait ∨ (t.erc = .eof ∧ t.toks = []))
  (hsleep : c.asleep = true ↔ t.erc = .wait) (hcc : 0 ≤ t.ccnt)

include herc hsleep hcc

theorem getAgrees_byte {b : UInt8} (hbc : t.bc = true) (hlch : t.lch = .byte b) (hok : t.erc = .ok)
    (htoks : c.toks = .byte b :: t.toks) (hlim : LimRel t c 1) : GetAgrees t c := by
  have hawake : c.asleep = false := by simpa [hok] using hsleep
  have hc : c.get =
      (.byte b, { c with seen := c.seen ++ [b], toks := t.toks, last := .byte b }) := by
    simp [Cursor.get, hlim.stop_ne, hawake, htoks]
  have hlim' : LimRel t { c with seen := c.seen ++ [b] } 0 := by simpa [LimRel] using hlim
  rw [GetAgrees, Tape.get_bc hbc, hc, Tape.unget_of_ne (by simp [hlch])]
  refine ⟨hlch, ⟨herc, hsleep, hcc, .none rfl rfl hlim'⟩, fun _ => ?_⟩
  have hu : ({ c with seen := c.seen ++ [b], toks := t.toks, last := .byte b } : Cursor).unget =
      { c with toks := .byte b :: t.toks, last := .eof } := by simp [Cursor.unget]
  rw [hu]
  exact ⟨herc, hsleep, hcc, .byte b rfl hlch hok rfl hlim⟩

theorem getAgrees_eof (hbc : t.bc = true) (hlch : t.lch = .eof) (htoks : c.toks = t.toks)
    (hlim : LimRel t c 0) (hend : c.stop = some c.seen.length ∨ (t.erc ≠ .wait ∧ t.toks = [])) :
    GetAgrees t c := by
  have hc : c.get = (.eof, { c with last := .eof }) := by
    obtain hs | ⟨hw, hnil⟩ := hend
    · simp [Cursor.get, hs]
    · have hawake : c.asleep = false := by simpa [hw] using hsleep
      simp [Cursor.get, hawake, htoks, hnil]
  rw [GetAgrees, Tape.get_bc hbc, hc, Tape.unget_of_ne (by simp [hlch])]
  exact ⟨hlch, ⟨herc, hsleep, hcc, .none rfl htoks hlim⟩,
    fun _ => ⟨herc, hsleep, hcc, .eof rfl hlch htoks hlim hend⟩⟩

theorem getAgrees_limit (hbc : t.bc = false) (htoks : c.toks = t.toks) (hlim : LimRel t c 0)
    (hl : t.lim = t.ccnt) : GetAgrees t c := by
  have hstop := (hlim.stop_iff hcc).2 hl
  have hc : c.get = (.eof, { c with last := .eof }) := by simp [Cursor.get, hstop]
  rw [GetAgrees, Tape.get_lim hbc hl, hc]
  refine ⟨rfl, ⟨herc, hsleep, hcc, .none hbc htoks hlim⟩, fun hst => ?_⟩
  change Sim t.unget { c with last := .eof }
  cases hlch : t.lch with
  | byte b => exact absurd ⟨hbc, hl, by simp [hlch], by simp [hlch]⟩ hst
  | wait =>
    rw [show t.unget = t by simp [Tape.unget, hlch]]
    exact ⟨herc, hsleep, hcc, .none hbc htoks hlim⟩
  | eof =>
    rw [Tape.unget_of_ne (by simp [hlch])]
    exact ⟨herc, hsleep, hcc, .eof rfl hlch htoks hlim (.inl hstop)⟩

theorem getAgrees_read (hbc : t.bc = false) (htoks : c.toks = t.toks) (hlim : LimRel t c 0)
    (hl : t.lim ≠ t.ccnt) : GetAgrees t c := by
  have hstop : c.stop ≠ some c.seen.length := fun hs => hl ((hlim.stop_iff hcc).1 hs)
  have ended (hawake : c.asleep = false) (hnil : t.toks = []) :
      c.get = (.eof, { c with last := .eof }) := by simp [Cursor.get, hstop, hawake, htoks, hnil]
  obtain hok | hw | ⟨heof, hnil⟩ := herc
  · have hawake : c.asleep = false := by simpa [hok] using hsleep
    match ht : t.toks with
    | [] =>
      rw [GetAgrees, Tape.get_nil hbc hl hok ht, ended hawake ht, Tape.unget_of_ne (by simp)]
      have hs : c.asleep = true ↔ Stat.eof = .wait := by simp [hawake]
      exact ⟨rfl, ⟨.inr (.inr ⟨rfl, ht⟩), hs, hcc, .none hbc htoks hlim⟩,
        fun _ => ⟨.inr (.inr ⟨rfl, ht⟩), hs, hcc, .eof rfl rfl htoks hlim (.inr ⟨by simp, ht⟩)⟩⟩
    | .wait :: l =>
      have hc : c.get = (.wait, { c with toks := l, asleep := true, last := .wait }) := by
        simp [Cursor.get, hstop, hawake, htoks, ht]
      rw [GetAgrees, Tape.get_wait hbc hl hok ht, hc]
      have hs : Sim { t with toks := l, erc := .wait, lch := .wait }
          { c with toks := l, asleep := true, last := .wait } :=
        ⟨.inr (.inl rfl), by simp, hcc, .none hbc rfl hlim⟩
      exact ⟨rfl, hs, fun _ => hs⟩
    | .byte b :: l =>
      have hc : c.get =
          (.byte b, { c with seen := c.seen ++ [b], toks := l, last := .byte b }) := by
        simp [Cursor.get, hstop, hawake, htoks, ht]
      have hu : ({ c with seen := c.seen ++ [b], toks := l, last := .byte b } : Cursor).unget =
          { c with toks := .byte b :: l, last := .eof } := by simp [Cursor.unget]
      rw [GetAgrees, Tape.get_byte hbc hl hok ht, hc, Tape.gotChar, Tape.unget_of_ne (by simp), hu]
      have hcc' : 0 ≤ t.ccnt + 1 := by omega
      exact ⟨rfl, ⟨.inl hok, hsleep, hcc', .none hbc rfl (hlim.succ hstop rfl rfl rfl (by simp))⟩,
        fun _ => ⟨.inl hok, hsleep, hcc',
          .byte b rfl rfl hok rfl (hlim.succ hstop rfl rfl rfl rfl)⟩⟩
  · have hc : c.get = (.wait, { c with last := .wait }) := by
      simp [Cursor.get, hstop, hsleep.2 hw]
    rw [GetAgrees, Tape.get_waiting hbc hl hw, hc]
    have hs : Sim { t with lch := .wait } { c with last := .wait } :=
      ⟨.inr (.inl hw), hsleep, hcc, .none hbc htoks hlim⟩
    exact ⟨rfl, hs, fun _ => hs⟩
  · have hawake : c.asleep = false := by simpa [heof] using hsleep
    rw [GetAgrees, Tape.get_ended hbc hl (by simp [heof]) (by simp [heof]), ended hawake hnil,
      Tape.unget_of_ne (by simp)]
    exact ⟨rfl, ⟨.inr (.inr ⟨heof, hnil⟩), hsleep, hcc, .none hbc htoks hlim⟩,
      fun _ => ⟨.inr (.inr ⟨heof, hnil⟩), hsleep, hcc,
        .eof rfl rfl htoks hlim (.inr ⟨by simp [heof], hnil⟩)⟩⟩

end Agree

theorem Sim.get {t : Tape} {c : Cursor} (h : Sim t c) : GetAgrees t c := by
  obtain ⟨herc, hsleep, hcc, hp⟩ := h
  cases hp with
  | byte b hbc hlch hok htoks hlim => exact getAgrees_byte herc hsleep hcc hbc hlch hok htoks hlim
  | eof hbc hlch htoks hlim hend => exact getAgrees_eof herc hsleep hcc hbc hlch htoks hlim hend
  | none hbc htoks hlim =>
    by_cases hl : t.lim = t.ccnt
    · exact getAgrees_limit herc hsleep hcc hbc htoks hlim hl
    · exact getAgrees_read herc hsleep hcc hbc htoks hlim hl

theorem Tape.Stale.get {t : Tape} (h : t.Stale) : t.get.1 = .eof := by
  rw [Tape.get_lim h.1 h.2.1]

theorem Sim.scan {σ ρ : Type} {S : Scanner UInt8 σ ρ} {s : σ} {t : Tape} {c : Cursor} (h : Sim t c)
    (hlast : (∀ s, ∃ r s', S.eof s = .done r s') ∨ ¬ (lastRead Tape.device S s t).Stale) :
    (Lib.scan Tape.device S s t).1 = (Lib.scan Cursor.device S s c).1 ∧
    (Lib.scan Tape.device S s t).2.1 = (Lib.scan Cursor.device S s c).2.1 ∧
    Sim (Lib.scan Tape.device S s t).2.2 (Lib.scan Cursor.device S s c).2.2 := by
  induction t using scan_induction (D := Tape.device) generalizing s c with
  | _ t ih =>
  obtain ⟨hch, hsim, hback⟩ := h.get
  rcases hc : c.get with ⟨ch, c'⟩
  rw [hc] at hch hsim hback
  obtain ⟨r, hg, hr⟩ | ⟨hg, b, e, s', hb, hs, hr⟩ | ⟨hg, b, e, x, hb, hs, hr⟩ | ⟨hg, e, hb, hr⟩ |
    ⟨hg, e, hb, hr⟩ := scan_cases Tape.device S s t <;> rw [hr]
  · rw [scan_guard hg]
    exact ⟨rfl, rfl, h⟩
  all_goals
    have hb' : t.get = _ := hb
    rw [hb'] at hch hsim hback
    subst hch
  · rw [scan_next (D := Cursor.device) hg hc hs]
    refine ih b e hb hsim (hlast.imp_right fun hl => ?_)
    rwa [lastRead_next hg hb hs] at hl
  · rw [scan_exit (D := Cursor.device) hg hc hs]
    cases x with
    | done r s' => exact ⟨rfl, rfl, hsim⟩
    | back r s' =>
      refine ⟨rfl, rfl, hback fun hst => ?_⟩
      have := hst.get
      rw [hb'] at this
      cases this
  · rw [scan_eof (D := Cursor.device) hg hc]
    cases hx : S.eof s with
    | done r s' => exact ⟨rfl, rfl, hsim⟩
    | back r s' =>
      refine ⟨rfl, rfl, hback ?_⟩
      obtain hd | hl := hlast
      · obtain ⟨r', s'', hd⟩ := hd s
        rw [hx] at hd
        cases hd
      · rwa [lastRead_eof hg hb] at hl
  · rw [scan_wait (D := Cursor.device) hg hc]
    exact ⟨rfl, rfl, hsim⟩

/-- A call that pushes nothing back at the limit and does not move the limit under a
pushed-back character. -/
def Call.Safe (k : Nat) (t : Tape) : Call → Prop
  | .get back => back = true → ¬ t.Stale
  | .peek => ¬ t.Stale
  | .expectchar _ => ¬ t.Stale
  | .skipHws mn => ¬ (lastRead Tape.device (skipHwsScanner mn) k t).Stale
  | .setlim _ => t.bc = false
  | .skipWs => True
  | .canRead => True

theorem Sim.setlim {t : Tape} {c : Cursor} (h : Sim t c) (hbc : t.bc = false) (n : Nat) :
    Sim (t.setlim n) { c with stop := some (c.seen.length + n) } := by
  cases h.pushed with
  | none _ htoks _ =>
    refine ⟨h.erc, h.asleep, Int.le_refl 0, .none hbc htoks ?_⟩
    simp only [LimRel, Tape.setlim]
    omega
  | byte b hbc' => exact absurd (hbc.symm.trans hbc') (by simp)
  | eof hbc' => exact absurd (hbc.symm.trans hbc') (by simp)

theorem Sim.canRead {t : Tape} {c : Cursor} (h : Sim t c) :
    Sim t.canRead { c with asleep := false } := by
  refine ⟨.inl rfl, by simp [Tape.canRead], h.ccnt, ?_⟩
  cases h.pushed with
  | none hbc htoks hlim => exact .none hbc htoks hlim
  | byte b hbc hlch hok htoks hlim => exact .byte b hbc hlch rfl htoks hlim
  | eof hbc hlch htoks hlim hend =>
    exact .eof hbc hlch htoks hlim (hend.imp_right fun h => ⟨by simp [Tape.canRead], h.2⟩)

theorem Sim.exec {k : Nat} {t : Tape} {c : Cursor} (h : Sim t c) {q : Call} (hq : q.Safe k t) :
    (Tape.buffer.exec q (k, t)).1 = (Cursor.buffer.exec q (k, c)).1 ∧
    (Tape.buffer.exec q (k, t)).2.1 = (Cursor.buffer.exec q (k, c)).2.1 ∧
    Sim (Tape.buffer.exec q (k, t)).2.2 (Cursor.buffer.exec q (k, c)).2.2 := by
  obtain ⟨hch, hsim, hback⟩ := h.get
  cases q with
  | get back =>
    refine ⟨congrArg Out.ch hch, rfl, ?_⟩
    cases back
    · exact hsim
    · exact hback (hq rfl)
  | peek => exact ⟨congrArg Out.ch hch, rfl, hback hq⟩
  | expectchar x =>
    rcases hg : t.get with ⟨ch, t'⟩
    rcases hc : c.get with ⟨ch', c'⟩
    have hg' : Tape.device.get t = (ch, t') := hg
    have hc' : Cursor.device.get c = (ch', c') := hc
    simp only [hg, hc] at hch hsim hback
    subst hch
    simp only [Buffer.exec, Tape.buffer, Cursor.buffer, expectchar, hg', hc']
    cases ch with
    | byte b =>
      simp only
      split
      · exact ⟨rfl, trivial, hsim⟩
      · exact ⟨rfl, trivial, hback hq⟩
    | eof => exact ⟨rfl, trivial, hback hq⟩
    | wait => exact ⟨rfl, trivial, hback hq⟩
  | skipWs =>
    obtain ⟨h1, _, h3⟩ := h.scan (S := skipWsScanner) (s := ()) (.inl fun _ => ⟨_, _, rfl⟩)
    refine ⟨?_, rfl, h3⟩
    exact congrArg (fun r : Option Stat => Out.stat (r.getD .wait)) h1
  | skipHws mn =>
    obtain ⟨h1, h2, h3⟩ := h.scan (S := skipHwsScanner mn) (s := k) (.inr hq)
    refine ⟨?_, h2, h3⟩
    exact congrArg (fun r : Option Stat => Out.stat (r.getD .wait)) h1
  | setlim n => exact ⟨rfl, rfl, h.setlim hq n⟩
  | canRead => exact ⟨rfl, rfl, h.canRead⟩

instance (k : Nat) (t : Tape) : DecidablePred (Call.Safe k t)
  | .get _ => inferInstanceAs (Decidable (_ → ¬ _))
  | .peek => inferInstanceAs (Decidable (¬ _))
  | .expectchar _ => inferInstanceAs (Decidable (¬ _))
  | .skipHws _ => inferInstanceAs (Decidable (¬ _))
  | .setlim _ => inferInstanceAs (Decidable (_ = _))
  | .skipWs => instDecidableTrue
  | .canRead => instDecidableTrue

/-- Every call of the sequence is safe where it is made. -/
def SafeCalls : List Call → Nat × Abuf → Prop
  | [], _ => True
  | q :: qs, s => q.Safe s.1 s.2.toTape ∧ SafeCalls qs (Abuf.buffer.exec q s).2

def SafeCalls.dec : (qs : List Call) → (s : Nat × Abuf) → Decidable (SafeCalls qs s)
  | [], _ => instDecidableTrue
  | q :: qs, s =>
    have := dec qs (Abuf.buffer.exec q s).2
    inferInstanceAs (Decidable (q.Safe s.1 s.2.toTape ∧ SafeCalls qs (Abuf.buffer.exec q s).2))

instance (qs : List Call) (s : Nat × Abuf) : Decidable (SafeCalls qs s) := SafeCalls.dec qs s

theorem SafeCalls.append {ps qs : List Call} {s : Nat × Abuf} (h : SafeCalls (ps ++ qs) s) :
    SafeCalls ps s ∧ SafeCalls qs (Abuf.buffer.calls ps s).2 := by
  induction ps generalizing s with
  | nil => exact ⟨trivial, h⟩
  | cons p ps ih => exact ⟨⟨h.1, (ih h.2).1⟩, (ih h.2).2⟩

/-- The buffer and the cursor agree, on `spcs` too. -/
structure Agree (s : Nat × Abuf) (x : Nat × Cursor) : Prop where
  spcs : s.1 = x.1
  wf : s.2.Wf
  sim : Sim s.2.toTape x.2

theorem Agree.exec {s : Nat × Abuf} {x : Nat × Cursor} (h : Agree s x) {q : Call}
    (hq : q.Safe s.1 s.2.toTape) :
    (Abuf.buffer.exec q s).1 = (Cursor.buffer.exec q x).1 ∧
    Agree (Abuf.buffer.exec q s).2 (Cursor.buffer.exec q x).2 := by
  obtain ⟨k, a⟩ := s
  obtain ⟨k', c⟩ := x
  obtain rfl : k = k' := h.spcs
  obtain ⟨ht, hwf⟩ := Abuf.toTape_exec q (k := k) h.wf
  obtain ⟨h1, h2, h3⟩ := h.sim.exec hq
  rw [ht] at h1 h2 h3
  exact ⟨h1, h2, hwf, h3⟩

theorem Agree.calls {qs : List Call} {s : Nat × Abuf} {x : Nat × Cursor} (h : Agree s x)
    (hq : SafeCalls qs s) :
    (Abuf.buffer.calls qs s).1 = (Cursor.buffer.calls qs x).1 ∧
    Agree (Abuf.buffer.calls qs s).2 (Cursor.buffer.calls qs x).2 := by
  induction qs generalizing s x with
  | nil => exact ⟨rfl, h⟩
  | cons q qs ih =>
    obtain ⟨ho, hnext⟩ := h.exec hq.1
    obtain ⟨hos, hlast⟩ := ih hnext hq.2
    exact ⟨congrArg₂ _ ho hos, hlast⟩

namespace Cursor

def bytesOf (l : List Tok) : Str :=
  l.filterMap fun | .byte b => some b | .wait => none

/-- What holds of a cursor in the bytes `B`. -/
structure In (B : Str) (c : Cursor) : Prop where
  split : c.seen ++ bytesOf c.toks = B
  last : ∀ b, c.last = .byte b → ∃ l, c.seen = l ++ [b]
  stop : ∀ s, c.stop = some s → c.seen.length ≤ s

theorem In.get {B : Str} {c : Cursor} (h : c.In B) : c.get.2.In B := by
  unfold Cursor.get
  split
  · exact ⟨h.split, by simp, h.stop⟩
  · next hs =>
    split
    · exact ⟨h.split, by simp, h.stop⟩
    · split
      · exact ⟨h.split, by simp, h.stop⟩
      · next l hl => exact ⟨by simpa [bytesOf, hl] using h.split, by simp, h.stop⟩
      · next b l hl =>
        refine ⟨by simpa [bytesOf, hl] using h.split, by simp, fun s hst => ?_⟩
        have hle := h.stop s hst
        have hne : s ≠ c.seen.length := fun he => hs (he ▸ hst)
        simp only [List.length_append, List.length_cons, List.length_nil]
        omega

theorem In.unget {B : Str} {c : Cursor} (h : c.In B) : c.unget.In B := by
  unfold Cursor.unget
  split
  · next b hb =>
    obtain ⟨l, hl⟩ := h.last b hb
    refine ⟨?_, by simp, fun s hs => ?_⟩
    · simpa [hl, bytesOf] using h.split
    · have := h.stop s hs
      simp only [List.length_dropLast]
      omega
  · exact h

def Ended (c : Cursor) : Prop :=
  (c.stop = some c.seen.length ∨ (c.asleep = false ∧ c.toks = [])) ∧ ∀ b, c.last ≠ .byte b

theorem Ended.get_eq {c : Cursor} (h : c.Ended) : c.get = (.eof, { c with last := .eof }) := by
  obtain ⟨hs | ⟨ha, ht⟩, _⟩ := h
  · simp [Cursor.get, hs]
  · simp [Cursor.get, ha, ht]

theorem Ended.get {c : Cursor} (h : c.Ended) : c.get.2.Ended := by
  rw [h.get_eq]
  exact ⟨h.1, by simp⟩

theorem Ended.unget {c : Cursor} (h : c.Ended) : c.unget.Ended := by
  unfold Cursor.unget
  split
  · next b hb => exact absurd hb (h.2 b)
  · exact h

theorem ended_of_get {c : Cursor} (h : c.get.1 = .eof) : c.get.2.Ended := by
  unfold Cursor.get at h ⊢
  split at h
  · next hs => simp [hs, Ended]
  · next hs =>
    split at h
    · simp at h
    · next ha =>
      split at h <;> simp_all [Ended]

end Cursor

namespace Buffer

variable {δ : Type} {B : Buffer δ} {I : δ → Prop} (hget : ∀ {d}, I d → I (B.dev.get d).2)
  (hunget : ∀ {d}, I d → I (B.dev.unget d)) (hcan : ∀ {d}, I d → I (B.canRead d))

include hget hunget hcan

theorem exec_invariant {q : Call} (hlim : ∀ n, q = .setlim n → ∀ d, I d → I (B.setlim d n))
    {s : Nat × δ} (h : I s.2) : I (B.exec q s).2.2 := by
  obtain ⟨k, d⟩ := s
  cases q with
  | get back =>
    cases back
    · exact hget h
    · exact hunget (hget h)
  | peek => exact hunget (hget h)
  | expectchar c =>
    simp only [exec, Okws.expectchar]
    have hd := hget h
    rcases hg : B.dev.get d with ⟨ch, d'⟩
    rw [hg] at hd
    cases ch with
    | byte b =>
      simp only
      split
      · exact hd
      · exact hunget hd
    | eof => exact hunget hd
    | wait => exact hunget hd
  | skipWs => exact scan_device_invariant (I := I) (S := skipWsScanner) (s := ()) hget hunget h
  | skipHws mn => exact scan_device_invariant (I := I) hget hunget h
  | setlim n => exact hlim n rfl d h
  | canRead => exact hcan h

theorem calls_invariant {qs : List Call}
    (hlim : ∀ n, .setlim n ∈ qs → ∀ d, I d → I (B.setlim d n)) {s : Nat × δ} (h : I s.2) :
    I (B.calls qs s).2.2 := by
  induction qs generalizing s with
  | nil => exact h
  | cons q qs ih =>
    refine ih (fun n hn => hlim n (List.mem_cons_of_mem q hn)) ?_
    exact exec_invariant (I := I) hget hunget hcan (fun n hn => hlim n (hn ▸ List.mem_cons_self)) h

end Buffer

theorem Buffer.calls_append {δ : Type} (B : Buffer δ) (ps qs : List Call) (s : Nat × δ) :
    B.calls (ps ++ qs) s =
      ((B.calls ps s).1 ++ (B.calls qs (B.calls ps s).2).1, (B.calls qs (B.calls ps s).2).2) := by
  induction ps generalizing s with
  | nil => rfl
  | cons p ps ih => simp only [List.cons_append, calls, ih]

namespace Cursor

theorem In.calls {B : Str} (qs : List Call) {k : Nat} {c : Cursor} (h : c.In B) :
    (buffer.calls qs (k, c)).2.2.In B := by
  refine Buffer.calls_invariant (B := buffer) (I := In B) In.get In.unget ?_ ?_ h
  · exact fun h => ⟨h.split, h.last, h.stop⟩
  · intro n _ d h
    refine ⟨h.split, h.last, fun s hs => ?_⟩
    cases hs
    exact Nat.le_add_right _ n

theorem Ended.canRead {c : Cursor} (h : c.Ended) : (buffer.canRead c).Ended :=
  ⟨h.1.imp_right fun ht => ⟨rfl, ht.2⟩, h.2⟩

theorem Ended.exec_get {k : Nat} {c : Cursor} (h : c.get.1 = .eof) (back : Bool) :
    (buffer.exec (.get back) (k, c)).2.2.Ended := by
  cases back
  · exact ended_of_get h
  · exact (ended_of_get h).unget

theorem Ended.calls {qs : List Call} {k : Nat} {c : Cursor} (h : c.Ended)
    (hq : ∀ n, .setlim n ∉ qs) {ch : Ch UInt8} (hch : .ch ch ∈ (buffer.calls qs (k, c)).1) :
    ch = .eof := by
  induction qs generalizing k c with
  | nil => simp [Buffer.calls] at hch
  | cons q qs ih =>
    have hq' : ∀ n, .setlim n ∉ qs := fun n hn => hq n (List.mem_cons_of_mem q hn)
    have hnext : (buffer.exec q (k, c)).2.2.Ended :=
      Buffer.exec_invariant (B := buffer) (I := Ended) Ended.get Ended.unget Ended.canRead
        (fun n hn => absurd (hn ▸ List.mem_cons_self) (hq n)) h
    simp only [Buffer.calls, List.mem_cons] at hch
    obtain hch | hch := hch
    · have hg : device.get c = (.eof, { c with last := .eof }) := h.get_eq
      cases q with
      | get back => simpa [Buffer.exec, buffer, hg] using hch
      | peek => simpa [Buffer.exec, buffer, peek, hg] using hch
      | _ => simp [Buffer.exec] at hch
    · exact ih hnext hq' hch

end Cursor

theorem bytesOf_regions (rs : List Str) :
    Cursor.bytesOf (rs.flatMap Abuf.regionToks) = rs.flatten := by
  induction rs with
  | nil => rfl
  | cons r rs ih =>
    have hr : Cursor.bytesOf (Abuf.regionToks r) = r := by
      unfold Abuf.regionToks Cursor.bytesOf
      split
      · simp [*]
      · exact List.filterMap_map.trans List.filterMap_some
    rw [List.flatMap_cons, List.flatten_cons, ← ih]
    exact (List.filterMap_append ..).trans (congrArg (· ++ _) hr)

/-- The buffer over the regions `rs`, and the stream it should be. -/
def Abuf.start (rs : List Str) : Nat × Abuf := (0, { src := rs })

def Cursor.start (rs : List Str) : Nat × Cursor := (0, { toks := rs.flatMap Abuf.regionToks })

theorem agree_start (rs : List Str) : Agree (Abuf.start rs) (Cursor.start rs) where
  spcs := rfl
  wf _ := rfl
  sim := by
    refine ⟨.inl rfl, by simp [Cursor.start, Abuf.start, Abuf.toTape], Int.le_refl 0, ?_⟩
    exact .none rfl rfl (by simp [LimRel, Cursor.start, Abuf.start, Abuf.toTape])

/-- In a sequence of safe calls the answers are those of a cursor moving over the bytes of
the source, never past the limit, and after an end of the stream there is nothing else. -/
theorem Abuf.calls_stream (rs : List Str) (qs : List Call) (h : SafeCalls qs (start rs)) :
    (buffer.calls qs (start rs)).1 = (Cursor.buffer.calls qs (Cursor.start rs)).1 ∧
    (∀ c, c = (Cursor.buffer.calls qs (Cursor.start rs)).2.2 →
      c.seen <+: rs.flatten ∧ ∀ s, c.stop = some s → c.seen.length ≤ s) ∧
    ∀ ps back ps', qs = ps ++ .get back :: ps' → (∀ n, .setlim n ∉ ps') →
      (buffer.exec (.get back) (buffer.calls ps (start rs)).2).1 = .ch .eof →
      ∀ ch, .ch ch ∈ (buffer.calls ps' (buffer.calls (ps ++ [.get back]) (start rs)).2).1 →
        ch = .eof := by
  have hin : (Cursor.start rs).2.In rs.flatten :=
    ⟨bytesOf_regions rs, by simp [Cursor.start], by simp [Cursor.start]⟩
  refine ⟨((agree_start rs).calls h).1, ?_, ?_⟩
  · rintro c rfl
    have hc := hin.calls qs (k := 0)
    exact ⟨⟨_, hc.split⟩, hc.stop⟩
  · rintro ps back ps' rfl hps' heof ch hch
    rw [List.append_cons] at h
    obtain ⟨hp, hsafe⟩ := h.append
    obtain ⟨-, hagree⟩ := (agree_start rs).calls hp
    have hended : (Cursor.buffer.calls (ps ++ [.get back]) (Cursor.start rs)).2.2.Ended := by
      obtain ⟨-, hs⟩ := (agree_start rs).calls hp.append.1
      rw [Buffer.calls_append]
      refine Cursor.Ended.exec_get ?_ back
      rw [← hs.sim.get.1, (toTape_get hs.wf).1]
      exact Out.ch.inj heof
    rw [(hagree.calls hsafe).1] at hch
    exact hended.calls hps' hch

/-- Blanks, a wait, a byte read twice and a limit that is reached. -/
theorem Abuf.calls_stream_blanks :
    SafeCalls [.peek, .skipHws 1, .get false, .setlim 1, .get false, .canRead, .get true,
      .get false, .get false] (start [[32, 9], [97], [], [98, 99]]) ∧
    (buffer.calls [.peek, .skipHws 1, .get false, .setlim 1, .get false, .canRead, .get true,
      .get false, .get false] (start [[32, 9], [97], [], [98, 99]])).1 =
    (Cursor.buffer.calls [.peek, .skipHws 1, .get false, .setlim 1, .get false, .canRead, .get true,
      .get false, .get false] (Cursor.start [[32, 9], [97], [], [98, 99]])).1 := by
  have h : SafeCalls [.peek, .skipHws 1, .get false, .setlim 1, .get false, .canRead, .get true,
      .get false, .get false] (start [[32, 9], [97], [], [98, 99]]) := by decide +kernel
  exact ⟨h, (calls_stream _ _ h).1⟩

/-- A `peek` at the limit pushes the byte before the limit back a second time. -/
theorem Abuf.calls_replay :
    (buffer.calls [.setlim 1, .get false, .peek, .get false] (start [[97, 98]])).1 =
      [.unit, .ch (.byte 97), .ch .eof, .ch (.byte 97)] ∧
    (Cursor.buffer.calls [.setlim 1, .get false, .peek, .get false] (Cursor.start [[97, 98]])).1 =
      [.unit, .ch (.byte 97), .ch .eof, .ch .eof] := by decide

end Okws
