import Okws.Chunker

namespace Okws

open Lib Inet

/-- The connection has ended, and all was read. -/
structure Abuf.Dry (a : Abuf) : Prop where
  lim : a.lim < 0
  ccnt : 0 ≤ a.ccnt
  avail : a.avail = []
  src : a.src = []
  erc : a.erc = .ok ∨ a.erc = .eof
  back : a.bc = true → a.lch = .eof

namespace Abuf

variable {a : Abuf} {l : Str}

theorem Dry.unget (h : a.Dry) (hlch : a.lch = .eof) : a.unget.Dry := by
  have hunget : a.unget = { a with bc := true } := if_pos (by rw [hlch]; nofun)
  rw [hunget]
  exact ⟨h.lim, h.ccnt, h.avail, h.src, h.erc, fun _ => hlch⟩

theorem Dry.get (h : a.Dry) : ∃ a', a.get = (.eof, a') ∧ a'.Dry ∧ a'.unget.Dry := by
  have hlim := h.lim
  have hccnt := h.ccnt
  have done (a' : Abuf) (hg : a.get = (.eof, a')) (hdry : a'.Dry) (hlch : a'.lch = .eof) :
      ∃ a', a.get = (.eof, a') ∧ a'.Dry ∧ a'.unget.Dry := ⟨a', hg, hdry, hdry.unget hlch⟩
  obtain ⟨hbc, hg⟩ | ⟨hbc, hl, hg⟩ | ⟨hbc, hl, ⟨c, cs, hav, hg⟩ | ⟨c, cs, rs, -, he, hs, hg⟩ |
    ⟨rs, -, he, hs, hg⟩ | ⟨-, he, hs, hg⟩ | ⟨-, he, hg⟩ | ⟨-, he, hw, hg⟩⟩ := get_cases a
  · have hlch := h.back hbc
    rw [hlch] at hg
    exact done _ hg ⟨hlim, hccnt, h.avail, h.src, h.erc, nofun⟩ rfl
  · omega
  · cases h.avail.symm.trans hav
  · cases h.src.symm.trans hs
  · cases h.src.symm.trans hs
  · exact done _ hg ⟨hlim, hccnt, h.avail, h.src, .inr rfl, fun _ => rfl⟩ rfl
  · obtain hok | heof := h.erc
    · cases hok.symm.trans he
    · cases heof.symm.trans he
  · exact done _ hg ⟨hlim, hccnt, h.avail, h.src, h.erc, fun _ => rfl⟩ rfl

theorem Holds.get_nil (h : a.Holds []) :
    (∃ a', a.get = (.eof, a') ∧ a'.Dry ∧ a'.unget.Dry) ∨
    ∃ a', a.get = (.wait, a') ∧ a'.canRead.Holds [] ∧ a'.canRead.src.length < a.src.length := by
  obtain ⟨hsound, hok, hlim, hbytes⟩ := h
  obtain ⟨hpushed, hahead⟩ := List.append_eq_nil_iff.mp hbytes
  rw [ahead_eq hlim] at hahead
  obtain ⟨hav, hflat⟩ := List.append_eq_nil_iff.mp hahead
  cases hsrc : a.src with
  | nil =>
    refine .inl (Dry.get ⟨hlim, hsound.ccnt, hav, hsrc, .inl hok, fun hbc => ?_⟩)
    cases hlch : a.lch with
    | byte b => simp [pushed, hbc, hlch] at hpushed
    | eof => rfl
    | wait => exact absurd hlch (hsound.bc hbc)
  | cons r rs =>
    obtain rfl : r = [] := List.flatten_eq_nil_iff.mp hflat r (by rw [hsrc]; exact .head _)
    have hbc : a.bc = false := by
      cases hbc : a.bc with
      | false => rfl
      | true =>
        cases hlch : a.lch with
        | byte b => simp [pushed, hbc, hlch] at hpushed
        | eof => cases hsrc.symm.trans (hsound.eof hlch).2
        | wait => exact absurd hlch (hsound.bc hbc)
    have hne : a.lim ≠ a.ccnt := by
      have := hsound.ccnt
      omega
    have hg : a.get = (.wait, { a with src := rs, erc := .wait, lch := .wait }) := by
      simp [Abuf.get, hbc, hne, hav, hok, moredata, hsrc]
    refine .inr ⟨_, hg, ⟨⟨.inl rfl, by simp [Abuf.canRead, hbc], by simp [Abuf.canRead],
      hsound.ccnt, .inl hlim⟩, rfl, hlim, ?_⟩, by simp [Abuf.canRead]⟩
    rw [pushed_of_bc (by exact hbc), ahead_eq (by exact hlim)]
    rw [hsrc] at hflat
    simpa [Abuf.canRead, hav] using hflat

theorem dries : source.Dries Dry where
  get := Holds.get_nil

end Abuf

namespace RunChunker

section Dry

variable {a : Abuf} {done : List Str} {c : Chunker}

theorem step_line_dry (hst : c.state = .finishPrev ∨ c.state = .eol1 ∨ c.state = .eol2)
    {need : Bool} {a' : Abuf}
    (hs : scan Abuf.device Okws.gobbleCrlf c.needLF a = (some .eof, need, a')) :
    machine.step { chunker := c, abuf := a, chunks := done } = .stop ⟨httpSrvError, none⟩ := by
  obtain hst | hst | hst := hst <;>
    simp [machine, step, Chunker.act, hst, Chunker.requireCrlf, Chunker.gobbleCrlf, hs,
      Okws.requireCrlf, finishedMeal, httpSrvError, httpOk]

theorem atEof_line {r : Stat} {need : Bool} (h : AtEof Okws.gobbleCrlf r need) : r = .eof := by
  obtain ⟨_, h | h⟩ := h <;> cases h
  rfl

theorem atEof_hws {r : Stat} {k : Nat} (h : AtEof (skipHwsScanner 0) r k) : r = .ok := by
  obtain ⟨_, h | h⟩ := h <;> cases h
  rfl

theorem atEof_word {r : Except Stat Str} {s : Scratch} (h : AtEof (delimitWord false) r s) :
    (∃ x, r = .ok x) ∨ r = .error .eof := by
  obtain ⟨s, h | h⟩ := h <;> simp only [delimitWord, delimScanner] at h <;> split at h <;> cases h
  · exact .inr rfl
  · exact .inl ⟨_, rfl⟩

theorem ends_line_dry (hst : c.state = .finishPrev ∨ c.state = .eol1 ∨ c.state = .eol2)
    (h : a.Dry) :
    machine.Ends { chunker := c, abuf := a, chunks := done } ⟨httpSrvError, none⟩ := by
  obtain ⟨a₁, hg, hdry, hback⟩ := h.get
  obtain ⟨r, need, a₂, hs, -, he⟩ :=
    scan_dry (S := Okws.gobbleCrlf) (s := c.needLF) rfl (D := Abuf.device) hg hdry hback
  cases atEof_line he
  exact (Machine.ends_stop (step_line_dry hst hs)).mpr rfl

theorem ends_spc_dry (hst : c.state = .spc1) (h : a.Dry) :
    machine.Ends { chunker := c, abuf := a, chunks := done } ⟨httpSrvError, none⟩ := by
  obtain ⟨a₁, hg, hdry, hback⟩ := h.get
  obtain ⟨r, k, a₂, hs, hdry₂, he⟩ :=
    scan_dry (S := skipHwsScanner 0) (s := c.spcs) rfl (D := Abuf.device) hg hdry hback
  cases atEof_hws he
  have hstep : machine.step { chunker := c, abuf := a, chunks := done } =
      .next { chunker := { c with spcs := k, state := .eol1 }, abuf := a₂, chunks := done } := by
    simp [machine, step, Chunker.act, hst, hs, ChunkerSt.inc]
  exact (Machine.ends_next hstep).mpr (ends_line_dry (.inr (.inl rfl)) hdry₂)

theorem ends_word {x : Except Stat Str} {s : Scratch} {a' : Abuf}
    (hst : c.state = .start) (hs : scan Abuf.device (delimitWord false) c.scr a = (some x, s, a'))
    (hdry : a'.Dry) (hx : (∃ w, x = .ok w) ∨ x = .error .eof) :
    machine.Ends { chunker := c, abuf := a, chunks := done } ⟨httpSrvError, none⟩ := by
  obtain ⟨w, rfl⟩ | rfl := hx
  · cases hw : if w = [] then none else convertint16 w with
    | none =>
      refine (Machine.ends_stop ?_).mpr rfl
      simp only [machine, step, Chunker.act, hst, hs, hw]
      rfl
    | some n =>
      have hstep : machine.step { chunker := c, abuf := a, chunks := done } = .next {
          chunker := { c with scr := s, sz := n, state := .spc1 }
          abuf := a'
          chunks := done } := by
        simp only [machine, step, Chunker.act, hst, hs, hw]
        rfl
      exact (Machine.ends_next hstep).mpr (ends_spc_dry rfl hdry)
  · refine (Machine.ends_stop ?_).mpr rfl
    simp only [machine, step, Chunker.act, hst, hs]
    rfl

end Dry

section Cut

open Chunker

variable {a : Abuf} {l m : Str} {st : ChunkerSt} {cap : Nat} {done : List Str} {sz : Nat} {b : Str}

theorem ends_line_cut (hst : st = .finishPrev ∨ st = .eol1 ∨ st = .eol2) (h : a.Holds l)
    (hf : feed Okws.gobbleCrlf false l = none) :
    machine.Ends (between cap done st sz a) ⟨httpSrvError, none⟩ := by
  obtain ⟨need, a₁, r, need', a₂, hr, hs, -, he⟩ := Abuf.dries.reaches (M := machine)
    (inLine cap done st sz) (fun {s s' d d'} hscan => by
      obtain rfl | rfl | rfl := hst <;>
        simp [machine, step, inLine, act, Chunker.requireCrlf, Chunker.gobbleCrlf, hscan])
    (fun _ _ => rfl) h hf
  cases atEof_line he
  exact (Machine.Reaches.ends hr).mpr ((Machine.ends_stop (step_line_dry hst hs)).mpr rfl)

theorem ends_start_cut (h : a.Holds l) (hf : feed (delimitWord false) { cap := cap } l = none) :
    machine.Ends (between cap done .start 0 a) ⟨httpSrvError, none⟩ := by
  obtain ⟨s₁, a₁, r, s₂, a₂, hr, hs, hdry, he⟩ := Abuf.dries.reaches (M := machine)
    (fun scr a => ({ chunker := { scr := scr }, abuf := a, chunks := done } : RunChunker))
    (fun hscan => by simp [machine, step, act, hscan]) (fun _ _ => rfl) h hf
  exact (Machine.Reaches.ends hr).mpr (ends_word rfl hs hdry (atEof_word he))

theorem ends_spc_cut (h : a.Holds l) (hf : feed (skipHwsScanner 0) 0 l = none) :
    machine.Ends (between cap done .spc1 sz a) ⟨httpSrvError, none⟩ := by
  obtain ⟨k, a₁, r, k', a₂, hr, hs, hdry, he⟩ := Abuf.dries.reaches (M := machine)
    (fun spcs a => ({
      chunker := { state := .spc1, scr := { cap := cap }, spcs := spcs, sz := sz }
      abuf := a
      chunks := done } : RunChunker))
    (fun hscan => by simp [machine, step, act, hscan]) (fun _ _ => rfl) h hf
  cases atEof_hws he
  let c : Chunker := { state := .eol1, scr := { cap := cap }, spcs := k', sz := sz }
  have hend : machine.Ends { chunker := c, abuf := a₂, chunks := done } ⟨httpSrvError, none⟩ :=
    ends_line_dry (.inr (.inl rfl)) hdry
  refine (Machine.Reaches.ends hr).mpr ((Machine.ends_next ?_).mpr hend)
  simp [machine, step, act, hs, c, ChunkerSt.inc]

theorem not_ends_ok {w : RunChunker} (h : machine.Ends w ⟨httpSrvError, none⟩) :
    ¬ machine.Ends w ⟨httpOk, some b⟩ := fun hend => by cases h.unique hend

theorem feed_line {r : Stat} {need : Bool} {l' : Str}
    (hst : st = .finishPrev ∨ st = .eol1 ∨ st = .eol2) (h : a.Holds l)
    (hend : machine.Ends (between cap done st sz a) ⟨httpOk, some b⟩)
    (hf : feed Okws.gobbleCrlf false (l ++ m) = some (r, need, l')) :
    ∃ l₁, feed Okws.gobbleCrlf false l = some (r, need, l₁) ∧ l' = l₁ ++ m :=
  (feed_cut hf).resolve_left fun hnone => not_ends_ok (ends_line_cut hst h hnone) hend

theorem ends_crlf {l' : Str} (hst : st = .finishPrev ∨ st = .eol1 ∨ st = .eol2) (h : a.Holds l)
    (hend : machine.Ends (between cap done st sz a) ⟨httpOk, some b⟩)
    (hf : feed Okws.gobbleCrlf false (l ++ m) = some (.ok, false, l')) :
    ∃ l₁ a₁, l' = l₁ ++ m ∧ a₁.Holds l₁ ∧
      machine.Ends (between cap done st.inc sz a₁) ⟨httpOk, some b⟩ := by
  obtain ⟨l₁, hf₁, hl₁⟩ := feed_line hst h hend hf
  obtain ⟨a₁, hr, hh⟩ := reaches_crlf cap done sz hst h hf₁
  exact ⟨l₁, a₁, hl₁, hh, hr.ends.mp hend⟩

theorem ends_size {w rest : Str} {k : Nat} (hne : w ≠ []) (hw : Plain w)
    (hk : convertint16 w = some k) (h : a.Holds l) (hl : l ++ m = w ++ crlf ++ rest)
    (hend : machine.Ends (between cap done .start 0 a) ⟨httpOk, some b⟩) :
    ∃ l₁ a₁, rest = l₁ ++ m ∧ a₁.Holds l₁ ∧
      machine.Ends (between cap done .eol2 k a₁) ⟨httpOk, some b⟩ := by
  by_cases hcap : w.length < cap
  · have hword := feed_word (l := rest) [] hw (by simpa using hcap)
    rw [← hl] at hword
    obtain hnone | ⟨l₁, hf₁, hl₁⟩ := feed_cut hword
    · exact absurd hend (not_ends_ok (ends_start_cut h hnone))
    obtain ⟨s₁, d₁, a₁, hr, hs, hh, -⟩ := Abuf.source.reaches (M := machine)
      (fun scr a => ({ chunker := { scr := scr }, abuf := a, chunks := done } : RunChunker))
      (fun hscan => by simp [machine, step, act, hscan]) (fun _ _ => rfl) h hf₁
    have hstart : machine.Reaches (between cap done .start 0 a) (between cap done .spc1 k a₁) := by
      refine Machine.Reaches.next hr ?_
      simp [machine, step, between, act, hs, hne, hk, ChunkerSt.inc]
    have hend₁ := hstart.ends.mp hend
    have hspc := feed_hws (l := rest)
    rw [hl₁] at hspc
    obtain hnone | ⟨l₂, hf₂, hl₂⟩ := feed_cut hspc
    · exact absurd hend₁ (not_ends_ok (ends_spc_cut hh hnone))
    obtain ⟨s₂, d₂, a₂, hr₂, hs₂, hh₂, -⟩ := Abuf.source.reaches (M := machine)
      (fun spcs a => ({
        chunker := { state := .spc1, scr := { cap := cap }, spcs := spcs, sz := k }
        abuf := a
        chunks := done } : RunChunker))
      (fun hscan => by simp [machine, step, act, hscan]) (fun _ _ => rfl) hh hf₂
    have hspc : machine.Reaches (between cap done .spc1 k a₁) (between cap done .eol1 k a₂) := by
      refine Machine.Reaches.next hr₂ ?_
      simp [machine, step, between, act, hs₂, ChunkerSt.inc]
    have hline := feed_crlf (l := rest)
    rw [hl₁, hl₂] at hline
    exact ends_crlf (.inr (.inl rfl)) hh₂ (hspc.ends.mp hend₁) hline
  · obtain ⟨s', l', hword⟩ := feed_overflow (l := crlf ++ rest) [] hw (by simpa using hcap)
    rw [← List.append_assoc, ← hl] at hword
    obtain hnone | ⟨l₁, hf₁, -⟩ := feed_cut hword
    · exact absurd hend (not_ends_ok (ends_start_cut h hnone))
    obtain ⟨s₁, d₁, a₁, hr, hs, -, -⟩ := Abuf.source.reaches (M := machine)
      (fun scr a => ({ chunker := { scr := scr }, abuf := a, chunks := done } : RunChunker))
      (fun hscan => by simp [machine, step, act, hscan]) (fun _ _ => rfl) h hf₁
    refine absurd hend (not_ends_ok (hr.ends.mpr ((Machine.ends_stop ?_).mpr rfl)))
    simp [machine, step, act, hs, finishedMeal, httpSrvError, httpOk]

theorem not_ends_short (h : a.Holds l) (hl : l.length ≤ 1) :
    ¬ machine.Ends (between cap done .finishPrev 0 a) ⟨httpOk, some b⟩ := by
  match l, hl with
  | [], _ => exact not_ends_ok (ends_line_cut (.inl rfl) h rfl)
  | [x], _ =>
    by_cases hlf : x = Byte.lf
    · subst hlf
      obtain ⟨a₁, hr, hh⟩ := reaches_crlf cap done 0 (.inl rfl) h feed_lf
      rw [hr.ends]
      by_cases hcap : cap = 0
      · exact not_ends_ok (ends_overflow (w := []) cap done (l := []) nofun (Nat.le_of_eq hcap) hh)
      · refine not_ends_ok (ends_start_cut hh ?_)
        simp [feed, word_guard, hcap]
    · by_cases hcr : x = Byte.cr
      · subst hcr
        exact not_ends_ok (ends_line_cut (.inl rfl) h rfl)
      · have hx : Byte.isEol x = false := by simp [Byte.isEol, hlf, hcr]
        exact not_ends_ok (ends_line cap done 0 (.inl rfl) h (feed_plain hx) (.inr ⟨rfl, rfl⟩))

theorem ends_dump {n : Nat} (hn : n ≠ 0) (h : a.Holds l)
    (hend : machine.Ends (between cap done .done n a) ⟨httpOk, some b⟩) :
    ∃ s l₁ a₁, l = s ++ l₁ ∧ s.length = n ∧ a₁.Holds l₁ ∧
      machine.Ends (between cap (done ++ [s]) .finishPrev 0 a₁) ⟨httpOk, some b⟩ := by
  have hstep : machine.step (between cap done .done n a) =
      .next (dumping { state := .done, scr := { cap := cap }, sz := n } done n [] a.canRead) := by
    simp [machine, step, between, dumping, Chunker.act, hn]
  obtain ⟨u, s, l₁, a₁, hr, hnext, rfl, hle, hh, hcase⟩ :=
    (dumps { state := .done, scr := { cap := cap }, sz := n } done).reaches n [] h.canRead
  have hend₁ : machine.Ends (between cap (done ++ [s]) .finishPrev 0 a₁.canRead)
      ⟨httpOk, some b⟩ :=
    (Machine.ends_next hnext).mp (hr.ends.mp ((Machine.ends_next hstep).mp hend))
  refine ⟨s, l₁, a₁.canRead, rfl, hcase.resolve_right ?_, hh, hend₁⟩
  rintro ⟨hshort, _⟩
  exact not_ends_short hh hshort hend₁

end Cut

end RunChunker

/-- `l` begins with a body in chunks, and this is what is in them. -/
inductive Chunked : Str → List Str → Prop
  | last {w l} : w ≠ [] → digits 16 0 w = (0, []) → Chunked (w ++ crlf ++ l) []
  | chunk {w d l ds} : w ≠ [] → digits 16 0 w = (d.length, []) → d ≠ [] → Chunked l ds →
    Chunked (w ++ crlf ++ (d ++ crlf ++ l)) (d :: ds)

/-- A line feed at the beginning of a chunk is taken for an empty line, and the byte behind the
chunk for its last one. -/
def shifted : Str → Str
  | [] => []
  | b :: d => if b = Byte.lf then d ++ [Byte.cr] else b :: d

namespace RunChunker

section Chunks

open Chunker

variable {a : Abuf} {l m : Str} {cap : Nat} {done : List Str} {sz : Nat} {b d rest : Str}

theorem ends_plain {x : UInt8} (hx : Byte.isEol x = false) (h : a.Holds l)
    (hl : l ++ m = x :: rest)
    (hend : machine.Ends (between cap done .eol2 sz a) ⟨httpOk, some b⟩) :
    ∃ a₁, a₁.Holds l ∧ machine.Ends (between cap done .done sz a₁) ⟨httpOk, some b⟩ := by
  have hf := feed_plain (l := rest) hx
  rw [← hl] at hf
  obtain ⟨l₁, hf₁, -⟩ := feed_line (.inr (.inr rfl)) h hend hf
  cases l with
  | nil => cases hf₁
  | cons y t =>
    obtain rfl : y = x := (List.cons.inj hl).1
    obtain ⟨a₁, hr, hh⟩ := reaches_plain cap done sz h hx
    exact ⟨a₁, hh, hr.ends.mp hend⟩

theorem not_ends_parseErr {st : ChunkerSt} {l' : Str}
    (hst : st = .finishPrev ∨ st = .eol1 ∨ st = .eol2) (h : a.Holds l)
    (hf : feed Okws.gobbleCrlf false (l ++ m) = some (.parseErr, false, l')) :
    ¬ machine.Ends (between cap done st sz a) ⟨httpOk, some b⟩ := by
  intro hend
  obtain ⟨l₁, hf₁, -⟩ := feed_line hst h hend hf
  exact not_ends_ok (ends_line cap done sz hst h hf₁ (.inl rfl)) hend

theorem not_ends_plain {x : UInt8} (hx : Byte.isEol x = false) (h : a.Holds l)
    (hl : l ++ m = x :: rest) :
    ¬ machine.Ends (between cap done .finishPrev sz a) ⟨httpOk, some b⟩ := by
  intro hend
  have hf := feed_plain (l := rest) hx
  rw [← hl] at hf
  obtain ⟨l₁, hf₁, -⟩ := feed_line (.inl rfl) h hend hf
  exact not_ends_ok (ends_line cap done sz (.inl rfl) h hf₁ (.inr ⟨rfl, rfl⟩)) hend

theorem not_ends_cr (hrest : ∃ x t, rest = x :: t ∧ Byte.isEol x = false) (h : a.Holds l)
    (hl : l ++ m = Byte.cr :: (d ++ crlf ++ rest)) :
    ¬ machine.Ends (between cap done .eol2 (d.length + 1) a) ⟨httpOk, some b⟩ := by
  have hlone {y : UInt8} {u : Str} (hy : y ≠ Byte.lf) (hyu : d ++ crlf ++ rest = y :: u) :
      ¬ machine.Ends (between cap done .eol2 (d.length + 1) a) ⟨httpOk, some b⟩ := by
    obtain ⟨l', hf⟩ := feed_cr (l := u) hy
    rw [← hyu, ← hl] at hf
    exact not_ends_parseErr (.inr (.inr rfl)) h hf
  cases d with
  | nil => exact hlone (by decide) rfl
  | cons y t =>
    by_cases hy : y = Byte.lf
    · subst hy
      intro hend
      have hf := feed_crlf (l := t ++ crlf ++ rest)
      have hl : l ++ m = crlf ++ (t ++ crlf ++ rest) := hl
      rw [← hl] at hf
      obtain ⟨l₁, a₁, hl₁, hh₁, hend₁⟩ := ends_crlf (.inr (.inr rfl)) h hend hf
      obtain ⟨s, l₂, a₂, rfl, hs, hh₂, hend₂⟩ := ends_dump (by simp) hh₁ hend₁
      rw [List.append_assoc s] at hl₁
      obtain ⟨-, hl₂⟩ := List.append_inj hl₁ (by rw [hs, List.length_append]; rfl)
      obtain ⟨x, u, rfl, hx⟩ := hrest
      exact not_ends_plain hx hh₂ hl₂.symm hend₂
    · exact hlone hy rfl

theorem ends_data (hd : d ≠ []) (hrest : ∃ x t, rest = x :: t ∧ Byte.isEol x = false)
    (h : a.Holds l) (hl : l ++ m = d ++ crlf ++ rest)
    (hend : machine.Ends (between cap done .eol2 d.length a) ⟨httpOk, some b⟩) :
    ∃ l₁ a₁, rest = l₁ ++ m ∧ a₁.Holds l₁ ∧
      machine.Ends (between cap (done ++ [shifted d]) .start 0 a₁) ⟨httpOk, some b⟩ := by
  obtain ⟨x, t, rfl⟩ := List.exists_cons_of_ne_nil hd
  by_cases hlf : x = Byte.lf
  · subst hlf
    have hl : l ++ m = Byte.lf :: (t ++ crlf ++ rest) := hl
    have hf := feed_lf (l := t ++ crlf ++ rest)
    rw [← hl] at hf
    obtain ⟨l₁, a₁, hl₁, hh₁, hend₁⟩ := ends_crlf (.inr (.inr rfl)) h hend hf
    obtain ⟨s, l₂, a₂, rfl, hs, hh₂, hend₂⟩ := ends_dump (by simp) hh₁ hend₁
    have hsplit : t ++ crlf ++ rest = t ++ [Byte.cr] ++ (Byte.lf :: rest) := by simp [crlf]
    rw [hsplit, List.append_assoc s] at hl₁
    obtain ⟨hdata, hl₂⟩ := List.append_inj hl₁ (by rw [hs, List.length_append]; rfl)
    have hf₂ := feed_lf (l := rest)
    rw [hl₂] at hf₂
    have hshift : shifted (Byte.lf :: t) = t ++ [Byte.cr] := by rw [shifted, if_pos rfl]
    rw [hshift, hdata]
    exact ends_crlf (.inl rfl) hh₂ hend₂ hf₂
  by_cases hcr : x = Byte.cr
  · subst hcr
    exact absurd hend (not_ends_cr hrest h hl)
  have hx : Byte.isEol x = false := by simp [Byte.isEol, hlf, hcr]
  obtain ⟨a₁, hh₁, hend₁⟩ := ends_plain hx h (by rw [hl]; rfl) hend
  obtain ⟨s, l₂, a₂, rfl, hs, hh₂, hend₂⟩ := ends_dump (by simp) hh₁ hend₁
  rw [List.append_assoc, List.append_assoc] at hl
  obtain ⟨hdata, hl₂⟩ := List.append_inj hl hs
  have hf := feed_crlf (l := rest)
  rw [← hl₂] at hf
  have hshift : shifted (x :: t) = x :: t := if_neg hlf
  rw [hshift, ← hdata]
  exact ends_crlf (.inl rfl) hh₂ hend₂ hf

theorem ends_zero (h : a.Holds l)
    (hend : machine.Ends (between cap done .eol2 0 a) ⟨httpOk, some b⟩) : b = done.flatten := by
  have hdone {a' : Abuf} (hr : machine.Reaches (between cap done .eol2 0 a)
      (between cap done .done 0 a')) : b = done.flatten := by
    have hstop : machine.step (between cap done .done 0 a') =
        .stop ⟨httpOk, some done.flatten⟩ := by
      simp [machine, step, between, Chunker.act, finishedMeal]
    cases (Machine.ends_stop hstop).mp (hr.ends.mp hend)
    rfl
  have hline {l' : Str} (hf : feed Okws.gobbleCrlf false l = some (.ok, false, l')) :
      b = done.flatten := by
    obtain ⟨a', hr, -⟩ := reaches_crlf cap done 0 (.inr (.inr rfl)) h hf
    exact hdone hr
  have hcut (hf : feed Okws.gobbleCrlf false l = none) : b = done.flatten :=
    absurd hend (not_ends_ok (ends_line_cut (.inr (.inr rfl)) h hf))
  cases l with
  | nil => exact hcut rfl
  | cons x t =>
    by_cases hlf : x = Byte.lf
    · subst hlf
      exact hline feed_lf
    by_cases hcr : x = Byte.cr
    · subst hcr
      cases t with
      | nil => exact hcut rfl
      | cons y u =>
        by_cases hy : y = Byte.lf
        · subst hy
          exact hline feed_crlf
        · obtain ⟨l', hf⟩ := feed_cr (l := u) hy
          exact absurd hend (not_ends_ok (ends_line cap done 0 (.inr (.inr rfl)) h hf (.inl rfl)))
    have hx : Byte.isEol x = false := by simp [Byte.isEol, hlf, hcr]
    obtain ⟨a', hr, -⟩ := reaches_plain cap done 0 h hx
    exact hdone hr

end Chunks

end RunChunker

theorem plain_of_digits {w : Str} {n : Nat} (h : digits 16 0 w = (n, [])) : Chunker.Plain w :=
  fun b hb => (Chunker.hex_plain (Chunker.digit_lt_of_digits h b hb)).1

theorem Chunked.head {l : Str} {ds : List Str} (h : Chunked l ds) :
    ∃ x t, l = x :: t ∧ Byte.isEol x = false := by
  have key {w : Str} {n : Nat} (l : Str) (hne : w ≠ []) (hd : digits 16 0 w = (n, [])) :
      ∃ x t, w ++ crlf ++ l = x :: t ∧ Byte.isEol x = false := by
    obtain ⟨x, t, rfl⟩ := List.exists_cons_of_ne_nil hne
    exact ⟨x, _, rfl, (Bool.or_eq_false_iff.mp (plain_of_digits hd x (.head _))).2⟩
  cases h with
  | last hne hd => exact key _ hne hd
  | chunk hne hd _ _ => exact key _ hne hd

namespace RunChunker

theorem ends_chunked {a : Abuf} {l m b : Str} {cap : Nat} {done ds : List Str}
    (hc : Chunked (l ++ m) ds) (hsmall : ∀ d ∈ ds, d.length < 2 ^ 32) (h : a.Holds l)
    (hend : machine.Ends (between cap done .start 0 a) ⟨httpOk, some b⟩) :
    Chunked l ds ∧ b = (done ++ ds.map shifted).flatten := by
  generalize hL : l ++ m = L at hc
  induction hc generalizing l a done with
  | @last w t hne hd =>
    obtain ⟨l₁, a₁, rfl, hh, hend₁⟩ := ends_size hne (plain_of_digits hd)
      (Chunker.convertint16_digits hne hd) h hL hend
    rw [← List.append_assoc] at hL
    rw [List.append_cancel_right hL]
    refine ⟨.last hne hd, ?_⟩
    rw [List.map_nil, List.append_nil]
    exact ends_zero hh hend₁
  | @chunk w d t ds hne hd hdata hrest ih =>
    have hlt := hsmall d (.head _)
    have hk : convertint16 w = some d.length := by
      rw [Chunker.convertint16_digits hne hd, Option.some.injEq]
      omega
    obtain ⟨l₁, a₁, hl₁, hh₁, hend₁⟩ := ends_size hne (plain_of_digits hd) hk h hL hend
    obtain ⟨l₂, a₂, rfl, hh₂, hend₂⟩ := ends_data hdata hrest.head hh₁ hl₁.symm hend₁
    obtain ⟨hc, rfl⟩ := ih (fun d hd => hsmall d (.tail _ hd)) hh₂ hend₂ rfl
    simp only [← List.append_assoc] at hL
    rw [List.append_cancel_right hL]
    refine ⟨?_, by rw [List.map_cons, List.append_assoc]; rfl⟩
    rw [List.append_assoc (w ++ crlf), List.append_assoc (w ++ crlf)]
    exact .chunk hne hd hdata hc

end RunChunker

end Okws
