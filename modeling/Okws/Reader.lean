import Okws.Tape

namespace Okws

open Lib

namespace Tape

/-- A tape without a limit that is not asleep. -/
structure Live (t : Tape) : Prop where
  ready : t.Ready
  unlimited : t.Unlimited

theorem Live.unwait {t : Tape} (h : t.Live) : t.unwait.Live := ⟨h.ready.unwait, h.unlimited⟩

/-- What a call that returns leaves on any tape. -/
structure Passed (t t' : Tape) : Prop where
  ready : t'.Ready
  waits : t'.waits ≤ t.waits

theorem Passed.trans {t u v : Tape} (h : t.Passed u) (h' : u.Passed v) : t.Passed v :=
  ⟨h'.ready, Nat.le_trans h'.waits h.waits⟩

theorem Ready.passed {t : Tape} (h : t.Ready) : t.Passed t := ⟨h, Nat.le_refl _⟩

/-- What a call that waits leaves on any tape. -/
structure Paused (t t' : Tape) : Prop where
  ready : t'.canRead.Ready
  waits : t'.canRead.waits < t.waits

theorem Passed.paused {t u v : Tape} (h : t.Passed u) (h' : u.Paused v) : t.Paused v :=
  ⟨h'.ready, Nat.lt_of_lt_of_le h'.waits h.waits⟩

structure Kept (t t' : Tape) : Prop where
  live : t'.Live
  waits : t'.waits ≤ t.waits
  left : t'.left ≤ t.left

theorem Kept.trans {t u v : Tape} (h : t.Kept u) (h' : u.Kept v) : t.Kept v :=
  ⟨h'.live, Nat.le_trans h'.waits h.waits, Nat.le_trans h'.left h.left⟩

theorem Live.kept {t : Tape} (h : t.Live) : t.Kept t := ⟨h, Nat.le_refl _, Nat.le_refl _⟩

structure Waited (t t' : Tape) : Prop where
  slept : t.Slept t'
  live : t'.canRead.Live

theorem Kept.waited {t u v : Tape} (h : t.Kept u) (h' : u.Waited v) : t.Waited v :=
  ⟨h'.slept.of_le h.waits h.left, h'.live⟩

theorem Live.canRead {t : Tape} (h : t.Live) : t.canRead.Live :=
  ⟨⟨.inl rfl, h.ready.bc⟩, h.unlimited⟩

theorem Kept.canRead {t t' : Tape} (h : t.Kept t') : t.Kept t'.canRead :=
  ⟨h.live.canRead, h.waits, h.left⟩

theorem Live.setMir {t : Tape} (h : t.Live) (m : Option Mirror) :
    ({ t with mir := m } : Tape).Live :=
  ⟨⟨h.ready.erc, h.ready.bc⟩, h.unlimited⟩

theorem Kept.ofMir {t t' : Tape} {m : Option Mirror} (h : ({ t with mir := m } : Tape).Kept t') :
    t.Kept t' := ⟨h.live, h.waits, h.left⟩

theorem Waited.ofMir {t t' : Tape} {m : Option Mirror}
    (h : ({ t with mir := m } : Tape).Waited t') : t.Waited t' :=
  ⟨⟨h.slept.ready, h.slept.waits, h.slept.left, h.slept.bc, h.slept.lim⟩, h.live⟩

section

variable {σ ρ : Type} {S : Scanner UInt8 σ ρ} {s s' : σ} {t t' : Tape} {r : ρ}

theorem Live.scan_keep (ht : t.Live) (h : scan device S s t = (some r, s', t')) :
    scan device S s t.unwait = (some r, s', t'.unwait) ∧ t.Kept t' := by
  obtain ⟨hs, hready, hwaits⟩ := merging.scan_keep ht.ready h
  have hu := ht.unlimited.scan (S := S) (s := s)
  rw [h] at hu
  exact ⟨hs, ⟨hready, hu⟩, hwaits, scan_left (.inr ht.unlimited) h⟩

theorem Live.scan_wait (ht : t.Live) (h : scan device S s t = (none, s', t')) :
    scan device S s t.unwait = scan device S s' t'.canRead.unwait ∧ t.Waited t' := by
  have hu := ht.unlimited.scan (S := S) (s := s)
  rw [h] at hu
  have hslept := scan_slept ht.ready h
  exact ⟨(merging.scan_wait ht.ready h).1, hslept, hslept.ready, hu⟩

theorem Live.get_unget {c : Ch UInt8} (ht : t.Live) (h : t.get = (c, t')) (hc : c ≠ .wait) :
    t'.unget.get = t.get := by
  rw [Tape.get_unget h hc (.inr ht.unlimited.ne), h]

theorem Live.get_unwait (ht : t.Live) :
    ∃ c u, t.unwait.get = (c, u) ∧ c ≠ .wait ∧ u.unget.get = t.unwait.get :=
  ⟨_, _, rfl, get_unwait_ne_wait ht.ready, ht.unwait.get_unget rfl (get_unwait_ne_wait ht.ready)⟩

/-- Where the loop `K` is when another one has read part of its input: made to wait, at its end
(`true`), or still on its way. -/
def Follows (K : Scanner UInt8 Unit Unit) (t : Tape) : Option Bool → Tape → Prop
  | none, t' => scan device K () t = (none, (), t')
  | some true, t' => scan device K () t = (some (), (), t')
  | some false, t' => scan device K () t = scan device K () t'

theorem Follows.trans {K : Scanner UInt8 Unit Unit} {u : Tape} {x : Option Bool}
    (h : Follows K t (some false) u) (h' : Follows K u x t') : Follows K t x t' := by
  match x, h' with
  | none, h' => exact Eq.trans h h'
  | some true, h' => exact Eq.trans h h'
  | some false, h' => exact Eq.trans h h'

/-- `S` reads the characters that `K` reads, and the results that satisfy `fin` are its ends. -/
structure Leads (S : Scanner UInt8 σ ρ) (K : Scanner UInt8 Unit Unit) (fin : ρ → Bool) : Prop where
  guard : ∀ {s r}, S.guard s = some r → fin r = false
  guard' : K.guard () = none
  next : ∀ {s b s'}, S.byte s b = .next s' → K.byte () b = .next ()
  done : ∀ {s b r s'}, S.byte s b = .done r s' →
    K.byte () b = if fin r then .done () () else .next ()
  back : ∀ {s b r s'}, S.byte s b = .back r s' → fin r = true → K.byte () b = .back () ()
  eof : ∀ {s}, (∃ r s', S.eof s = .done r s' ∧ fin r = true ∧ K.eof () = .done () ()) ∨
    ∃ r s', S.eof s = .back r s' ∧ fin r = false

theorem Leads.follows {K : Scanner UInt8 Unit Unit} {fin : ρ → Bool} (H : Leads S K fin)
    (ht : t.Live) {o : Option ρ} (h : scan device S s t = (o, s', t')) :
    Follows K t (o.map fin) t' := by
  induction t using scan_induction (D := device) generalizing s with
  | _ t ih =>
  obtain ⟨r, hg, hr⟩ | ⟨hg, b, u, x, hb, hx, hr⟩ | ⟨hg, b, u, x, hb, hx, hr⟩ | ⟨hg, u, hb, hr⟩ |
    ⟨hg, u, hb, hr⟩ := scan_cases device S s t <;> rw [hr] at h
  · cases h
    simp [H.guard hg, Follows]
  · have hu : u.Live := by
      have := ht.unlimited.get
      rw [show t.get = _ from hb] at this
      exact ⟨(get_keep ht.ready hb (by simp)).2, this⟩
    have hstep : Follows K t (some false) u := Lib.scan_next H.guard' hb (H.next hx)
    exact hstep.trans (ih b u hb hu h)
  · cases x with
    | done r s₁ =>
      cases h
      have hKb := H.done hx
      cases hf : fin r <;> rw [hf] at hKb <;> simp only [Option.map_some, hf]
      · exact Lib.scan_next H.guard' hb hKb
      · exact scan_exit H.guard' hb hKb
    | back r s₁ =>
      cases h
      cases hf : fin r <;> simp only [Option.map_some, hf]
      · exact Merging.scan_congr H.guard' (ht.get_unget hb (by simp)).symm
      · exact scan_exit H.guard' hb (H.back hx hf)
  · obtain ⟨r, s₁, he, hf, hKe⟩ | ⟨r, s₁, he, hf⟩ := H.eof (s := s) <;> rw [he] at h <;> cases h <;>
      simp only [Option.map_some, hf]
    · rw [Follows, Lib.scan_eof H.guard' hb, hKe]
      rfl
    · exact Merging.scan_congr H.guard' (ht.get_unget hb (by simp)).symm
  · cases h
    exact Lib.scan_wait H.guard' hb

end

end Tape

/-- `none` is `ABUF_WAIT`. -/
abbrev Reader (V : Type) := V → Tape → Option Stat × V × Tape

namespace Reader

variable {V : Type}

/-- Suspended, the call goes on where it stopped when it is made again. -/
structure Merges (f : Reader V) : Prop where
  passed : ∀ {v v' : V} {t t' : Tape} {r : Stat}, t.Ready → f v t = (some r, v', t') →
    f v t.unwait = (some r, v', t'.unwait) ∧ t.Passed t'
  paused : ∀ {v v' : V} {t t' : Tape}, t.Ready → f v t = (none, v', t') →
    f v t.unwait = f v' t'.canRead.unwait ∧ t.Paused t'
  kept : ∀ {v v' : V} {t t' : Tape} {r : Stat}, t.Live → f v t = (some r, v', t') → t.Kept t'
  waited : ∀ {v v' : V} {t t' : Tape}, t.Live → f v t = (none, v', t') → t.Waited t'

section Merges

variable {f : Reader V} {v v' : V} {t t' : Tape} {r : Stat}

theorem Merges.keep (hf : f.Merges) (ht : t.Live) (h : f v t = (some r, v', t')) :
    f v t.unwait = (some r, v', t'.unwait) ∧ t.Kept t' :=
  ⟨(hf.passed ht.ready h).1, hf.kept ht h⟩

theorem Merges.wait (hf : f.Merges) (ht : t.Live) (h : f v t = (none, v', t')) :
    f v t.unwait = f v' t'.canRead.unwait ∧ t.Waited t' :=
  ⟨(hf.paused ht.ready h).1, hf.waited ht h⟩

end Merges

section Scan

variable {σ ρ : Type}

/-- A reading loop as a call: `load` and `store` say where its variables are kept, `post` what
happens to its result. -/
def ofScan (S : Scanner UInt8 σ ρ) (load : V → σ) (store : V → σ → V) (post : V → ρ → Stat × V) :
    Reader V := fun v t =>
  match scan Tape.device S (load v) t with
  | (none, s, t') => (none, store v s, t')
  | (some r, s, t') => (some (post (store v s) r).1, (post (store v s) r).2, t')

variable {S : Scanner UInt8 σ ρ} {load : V → σ} {store : V → σ → V} {post : V → ρ → Stat × V}
  {v v' : V} {t t' : Tape}

theorem ofScan_none {s : σ} (h : scan Tape.device S (load v) t = (none, s, t')) :
    ofScan S load store post v t = (none, store v s, t') := by
  simp [ofScan, h]

theorem ofScan_some {s : σ} {r : ρ} (h : scan Tape.device S (load v) t = (some r, s, t')) :
    ofScan S load store post v t =
      (some (post (store v s) r).1, (post (store v s) r).2, t') := by
  simp [ofScan, h]

theorem ofScan_wait_inv (h : ofScan S load store post v t = (none, v', t')) :
    ∃ s, scan Tape.device S (load v) t = (none, s, t') ∧ v' = store v s := by
  rcases hs : scan Tape.device S (load v) t with ⟨_ | r, s, u⟩
  · rw [ofScan_none hs] at h
    cases h
    exact ⟨s, rfl, rfl⟩
  · rw [ofScan_some hs] at h
    cases h

theorem ofScan_keep_inv {r : Stat} (h : ofScan S load store post v t = (some r, v', t')) :
    ∃ x s, scan Tape.device S (load v) t = (some x, s, t') ∧ post (store v s) x = (r, v') := by
  rcases hs : scan Tape.device S (load v) t with ⟨_ | x, s, u⟩
  · rw [ofScan_none hs] at h
    cases h
  · rw [ofScan_some hs] at h
    cases h
    exact ⟨x, s, rfl, rfl⟩

theorem ofScan_congr (hg : S.guard (load v) = none) (h : t.get = t'.get) :
    ofScan S load store post v t = ofScan S load store post v t' := by
  simp only [ofScan, Merging.scan_congr (D := Tape.device) hg h]

theorem ofScan_passed {r : Stat} (ht : t.Ready)
    (h : ofScan S load store post v t = (some r, v', t')) :
    ofScan S load store post v t.unwait = (some r, v', t'.unwait) ∧ t.Passed t' := by
  obtain ⟨x, s, hs, hpost⟩ := ofScan_keep_inv h
  obtain ⟨hm, hready, hwaits⟩ := Tape.merging.scan_keep ht hs
  refine ⟨?_, hready, hwaits⟩
  have hm : scan Tape.device S (load v) t.unwait = (some x, s, t'.unwait) := hm
  rw [ofScan_some hm, hpost]

theorem ofScan_kept {r : Stat} (ht : t.Live) (h : ofScan S load store post v t = (some r, v', t')) :
    t.Kept t' := by
  obtain ⟨x, s, hs, -⟩ := ofScan_keep_inv h
  exact (ht.scan_keep hs).2

theorem ofScan_waited (ht : t.Live) (h : ofScan S load store post v t = (none, v', t')) :
    t.Waited t' := by
  obtain ⟨s, hs, -⟩ := ofScan_wait_inv h
  exact (ht.scan_wait hs).2

theorem ofScan_paused (ht : t.Ready) (h : ofScan S load store post v t = (none, v', t')) :
    t.Paused t' := by
  obtain ⟨s, hs, -⟩ := ofScan_wait_inv h
  have hslept := Tape.scan_slept ht hs
  exact ⟨hslept.ready, hslept.waits⟩

theorem merges_ofScan (hload : ∀ v s, load (store v s) = s)
    (hstore : ∀ v s s', store (store v s) s' = store v s') :
    Merges (ofScan S load store post) where
  passed := ofScan_passed
  paused {v v' t t'} ht h := by
    refine ⟨?_, ofScan_paused ht h⟩
    obtain ⟨s, hs, rfl⟩ := ofScan_wait_inv h
    have hm : scan Tape.device S (load v) t.unwait = scan Tape.device S s t'.canRead.unwait :=
      (Tape.merging.scan_wait ht hs).1
    simp only [ofScan, hm, hload, hstore]
  kept := ofScan_kept
  waited := ofScan_waited

end Scan

/-- Makes a second call if the first one answers `c`. -/
def onStat (f : Reader V) (c : Stat) (g : Reader V) : Reader V := fun v t =>
  match f v t with
  | (some r, v', t') => if r = c then g v' t' else (some r, v', t')
  | x => x

section OnStat

variable {f g : Reader V} {c : Stat} {v v' : V} {t t' : Tape}

theorem onStat_some {r : Stat} (h : f v t = (some r, v', t')) :
    f.onStat c g v t = if r = c then g v' t' else (some r, v', t') := by
  simp [onStat, h]

theorem onStat_none (h : f v t = (none, v', t')) : f.onStat c g v t = (none, v', t') := by
  simp [onStat, h]

theorem onStat_passed (hf : f.Merges) (hg : g.Merges) {r : Stat} (ht : t.Ready)
    (h : f.onStat c g v t = (some r, v', t')) :
    f.onStat c g v t.unwait = (some r, v', t'.unwait) ∧ t.Passed t' := by
  rcases hs : f v t with ⟨_ | x, v₁, t₁⟩
  · rw [onStat_none hs] at h
    cases h
  · obtain ⟨hm, hpassed⟩ := hf.passed ht hs
    rw [onStat_some hs] at h
    rw [onStat_some hm]
    split at h
    · next hx =>
      obtain ⟨hm₂, hpassed₂⟩ := hg.passed hpassed.ready h
      exact ⟨(if_pos hx).trans hm₂, hpassed.trans hpassed₂⟩
    · next hx =>
      cases h
      exact ⟨if_neg hx, hpassed⟩

theorem onStat_keep (hf : f.Merges) (hg : g.Merges) {r : Stat} (ht : t.Live)
    (h : f.onStat c g v t = (some r, v', t')) :
    f.onStat c g v t.unwait = (some r, v', t'.unwait) ∧ t.Kept t' := by
  refine ⟨(onStat_passed hf hg ht.ready h).1, ?_⟩
  rcases hs : f v t with ⟨_ | x, v₁, t₁⟩
  · rw [onStat_none hs] at h
    cases h
  · have hkept := hf.kept ht hs
    rw [onStat_some hs] at h
    split at h
    · exact hkept.trans (hg.kept hkept.live h)
    · cases h
      exact hkept

theorem onStat_wait (h : f.onStat c g v t = (none, v', t')) :
    f v t = (none, v', t') ∨ ∃ v₁ t₁, f v t = (some c, v₁, t₁) ∧ g v₁ t₁ = (none, v', t') := by
  rcases hs : f v t with ⟨_ | x, v₁, t₁⟩
  · rw [onStat_none hs] at h
    exact .inl h
  · rw [onStat_some hs] at h
    split at h
    · next hx => exact .inr ⟨v₁, t₁, by rw [hx], h⟩
    · cases h

theorem onStat_paused (hf : f.Merges) (hg : g.Merges) (ht : t.Ready)
    (h : f.onStat c g v t = (none, v', t')) : t.Paused t' := by
  obtain h | ⟨v₁, t₁, h₁, h₂⟩ := onStat_wait h
  · exact (hf.paused ht h).2
  · have hpassed := (hf.passed ht h₁).2
    exact hpassed.paused (hg.paused hpassed.ready h₂).2

theorem onStat_waited (hf : f.Merges) (hg : g.Merges) (ht : t.Live)
    (h : f.onStat c g v t = (none, v', t')) : t.Waited t' := by
  obtain h | ⟨v₁, t₁, h₁, h₂⟩ := onStat_wait h
  · exact hf.waited ht h
  · have hkept := hf.kept ht h₁
    exact hkept.waited (hg.waited hkept.live h₂)

theorem onStat_reenter (hf : f.Merges) (hg : g.Merges) (ht : t.Ready)
    (h : f.onStat c g v t = (none, v', t'))
    (hback : ∀ v₁ t₁, f v t = (some c, v₁, t₁) → g v₁ t₁ = (none, v', t') →
      f.onStat c g v' t'.canRead.unwait = g v' t'.canRead.unwait) :
    f.onStat c g v t.unwait = f.onStat c g v' t'.canRead.unwait := by
  obtain h | ⟨v₁, t₁, h₁, h₂⟩ := onStat_wait h
  · simp only [onStat, (hf.paused ht h).1]
  · obtain ⟨hm, hpassed⟩ := hf.passed ht h₁
    rw [onStat_some hm, if_pos rfl, hback v₁ t₁ h₁ h₂]
    exact (hg.paused hpassed.ready h₂).1

end OnStat

def map (f : Reader V) (g : Stat → V → Stat × V) : Reader V := fun v t =>
  match f v t with
  | (some r, v', t') => (some (g r v').1, (g r v').2, t')
  | x => x

/-- Changes the variables when the call answers `ABUF_OK`. -/
def onOk (f : Reader V) (g : V → V) : Reader V := f.map fun r v => (r, if r = .ok then g v else v)

section Map

variable {f : Reader V} {g : Stat → V → Stat × V} {v v' : V} {t t' : Tape} {r : Stat}

theorem map_some (h : f v t = (some r, v', t')) :
    f.map g v t = (some (g r v').1, (g r v').2, t') := by
  simp [map, h]

theorem map_none (h : f v t = (none, v', t')) : f.map g v t = (none, v', t') := by
  simp [map, h]

theorem map_wait_inv (h : f.map g v t = (none, v', t')) : f v t = (none, v', t') := by
  rcases hf : f v t with ⟨_ | r, v₁, t₁⟩
  · rwa [map_none hf] at h
  · rw [map_some hf] at h
    cases h

theorem map_keep_inv (h : f.map g v t = (some r, v', t')) :
    ∃ r₁ v₁, f v t = (some r₁, v₁, t') ∧ g r₁ v₁ = (r, v') := by
  rcases hf : f v t with ⟨_ | r₁, v₁, t₁⟩
  · rw [map_none hf] at h
    cases h
  · rw [map_some hf] at h
    cases h
    exact ⟨r₁, v₁, rfl, rfl⟩

theorem merges_map (hf : f.Merges) : (f.map g).Merges where
  passed ht h := by
    obtain ⟨r₁, v₁, h₁, hg⟩ := map_keep_inv h
    obtain ⟨hm, hpassed⟩ := hf.passed ht h₁
    exact ⟨by rw [map_some hm, hg], hpassed⟩
  paused ht h := by
    obtain ⟨hm, hpaused⟩ := hf.paused ht (map_wait_inv h)
    exact ⟨by simp only [map, hm], hpaused⟩
  kept ht h := by
    obtain ⟨r₁, v₁, h₁, -⟩ := map_keep_inv h
    exact hf.kept ht h₁
  waited ht h := hf.waited ht (map_wait_inv h)

theorem merges_onOk {g : V → V} (hf : f.Merges) : (f.onOk g).Merges := merges_map hf

theorem onOk_inv {g : V → V} {x : Option Stat} (h : f.onOk g v t = (x, v', t')) :
    ∃ v₁, f v t = (x, v₁, t') ∧ v' = if x = some .ok then g v₁ else v₁ := by
  rcases x with _ | r
  · exact ⟨v', map_wait_inv h, by simp⟩
  · obtain ⟨r₁, v₁, h₁, hg⟩ := map_keep_inv h
    cases hg
    exact ⟨v₁, h₁, by simp⟩

end Map

theorem merges_pure {f : V → Stat × V} : Merges fun v t => (some (f v).1, (f v).2, t) where
  passed ht h := by
    cases h
    exact ⟨rfl, ht.passed⟩
  paused _ h := by cases h
  kept ht h := by
    cases h
    exact ht.kept
  waited _ h := by cases h

theorem merges_choose {ι : Type} (sel : V → ι) {f : ι → Reader V} (hf : ∀ i, (f i).Merges)
    (hsel : ∀ {i v v' t t'}, f i v t = (none, v', t') → sel v' = sel v) :
    Merges fun v t => f (sel v) v t where
  passed ht h := (hf _).passed ht h
  paused ht h := by
    obtain ⟨hm, hpaused⟩ := (hf _).paused ht h
    exact ⟨by rw [hm, hsel h], hpaused⟩
  kept ht h := (hf _).kept ht h
  waited ht h := (hf _).waited ht h

section Frame

variable {f g : Reader V} {c : Stat}

/-- The call leaves `π` alone. -/
def Keeps {α : Type} (π : V → α) (f : Reader V) : Prop := ∀ v t, π (f v t).2.1 = π v

theorem keeps_ofScan {α σ ρ : Type} {π : V → α} {S : Scanner UInt8 σ ρ} {load : V → σ}
    {store : V → σ → V} {post : V → ρ → Stat × V} (hstore : ∀ v s, π (store v s) = π v)
    (hpost : ∀ v r, π (post v r).2 = π v) : Keeps π (ofScan S load store post) := by
  intro v t
  rcases hs : scan Tape.device S (load v) t with ⟨_ | r, s, t'⟩
  · rw [ofScan_none hs]
    exact hstore v s
  · rw [ofScan_some hs]
    exact (hpost _ r).trans (hstore v s)

theorem keeps_onStat {α : Type} {π : V → α} (hf : Keeps π f) (hg : Keeps π g) :
    Keeps π (f.onStat c g) := by
  intro v t
  have hfv := hf v t
  rcases hs : f v t with ⟨_ | r, v', t'⟩ <;> rw [hs] at hfv
  · rw [onStat_none hs]
    exact hfv
  · rw [onStat_some hs]
    split
    · exact (hg v' t').trans hfv
    · exact hfv

/-- The call does not look at what `u` changes. -/
def Commutes (u : V → V) (f : Reader V) : Prop :=
  ∀ v t, f (u v) t = ((f v t).1, u (f v t).2.1, (f v t).2.2)

theorem commutes_ofScan {σ ρ : Type} {u : V → V} {S : Scanner UInt8 σ ρ} {load : V → σ}
    {store : V → σ → V} {post : V → ρ → Stat × V} (hload : ∀ v, load (u v) = load v)
    (hstore : ∀ v s, store (u v) s = u (store v s))
    (hpost : ∀ v r, post (u v) r = ((post v r).1, u (post v r).2)) :
    Commutes u (ofScan S load store post) := by
  intro v t
  rcases hs : scan Tape.device S (load v) t with ⟨_ | r, s, t'⟩
  · rw [ofScan_none hs, ofScan_none (by rw [hload, hs]), hstore]
  · rw [ofScan_some hs, ofScan_some (by rw [hload, hs]), hstore, hpost]

theorem commutes_onStat {u : V → V} (hf : Commutes u f) (hg : Commutes u g) :
    Commutes u (f.onStat c g) := by
  intro v t
  have hfv := hf v t
  rcases hs : f v t with ⟨_ | r, v', t'⟩ <;> rw [hs] at hfv
  · rw [onStat_none hs, onStat_none hfv]
  · rw [onStat_some hs, onStat_some hfv]
    split
    · exact hg v' t'
    · rfl

end Frame

end Reader

end Okws
