import Okws.Abuf

namespace Okws

open Lib

inductive Tok
  | byte : UInt8 → Tok
  | wait : Tok
  deriving DecidableEq

structure Tape where
  toks : List Tok
  bc : Bool := false
  lch : Ch UInt8 := .byte 0
  erc : Stat := .ok
  lim : Int := -1
  ccnt : Int := 0
  mir : Option Mirror := none
  deriving DecidableEq

namespace Tape

def gotChar (t : Tape) (c : UInt8) (ts : List Tok) : Ch UInt8 × Tape :=
  (.byte c, { t with ccnt := t.ccnt + 1, mir := t.mir.map (·.put c), toks := ts, lch := .byte c })

def get (t : Tape) : Ch UInt8 × Tape :=
  if t.bc then (t.lch, { t with bc := false })
  else if t.lim = t.ccnt then (.eof, t)
  else match t.erc, t.toks with
    | .ok, .byte c :: ts => t.gotChar c ts
    | .ok, .wait :: ts => (.wait, { t with toks := ts, erc := .wait, lch := .wait })
    | .ok, [] => (.eof, { t with erc := .eof, lch := .eof })
    | .wait, _ => (.wait, { t with lch := .wait })
    | _, _ => (.eof, { t with lch := .eof })

def unget (t : Tape) : Tape := if t.lch ≠ .wait then { t with bc := true } else t

def canRead (t : Tape) : Tape := { t with erc := .ok }

def setlim (t : Tape) (l : Int) : Tape := { t with lim := l, ccnt := 0 }

def size (t : Tape) : Nat := t.bc.toNat + t.toks.length

theorem get_bc {t : Tape} (h : t.bc = true) : t.get = (t.lch, { t with bc := false }) := by
  simp [get, h]

theorem get_lim {t : Tape} (h : t.bc = false) (hl : t.lim = t.ccnt) : t.get = (.eof, t) := by
  simp [get, h, hl]

section

variable {t : Tape} (h : t.bc = false) (hl : t.lim ≠ t.ccnt)

include h hl

theorem get_byte {c : UInt8} {l : List Tok} (he : t.erc = .ok) (ht : t.toks = .byte c :: l) :
    t.get = t.gotChar c l := by simp [get, h, hl, he, ht]

theorem get_wait {l : List Tok} (he : t.erc = .ok) (ht : t.toks = .wait :: l) :
    t.get = (.wait, { t with toks := l, erc := .wait, lch := .wait }) := by
  simp [get, h, hl, he, ht]

theorem get_nil (he : t.erc = .ok) (ht : t.toks = []) :
    t.get = (.eof, { t with erc := .eof, lch := .eof }) := by simp [get, h, hl, he, ht]

theorem get_waiting (he : t.erc = .wait) : t.get = (.wait, { t with lch := .wait }) := by
  simp [get, h, hl, he]

theorem get_ended (he : t.erc ≠ .ok) (hw : t.erc ≠ .wait) : t.get =
    (.eof, { t with lch := .eof }) := by
  cases hs : t.erc <;> simp_all [get]

end

theorem size_get {t t' : Tape} {b : UInt8} (h : t.get = (.byte b, t')) : t'.size < t.size := by
  unfold get at h
  split at h
  · next hbc =>
    simp only [Prod.mk.injEq] at h
    simp [← h.2, size, hbc]
  · split at h
    · simp at h
    · split at h <;> simp only [gotChar, Prod.mk.injEq, reduceCtorEq, false_and] at h
      simp_all [← h.2, size]

/-- The bytes that `get` returns before it returns something else. -/
def ahead (t : Tape) : Str :=
  match _h : t.get with
  | (.byte b, t') => b :: t'.ahead
  | _ => []
termination_by t.size
decreasing_by exact size_get _h

theorem ahead_byte {t t' : Tape} {b : UInt8} (h : t.get = (.byte b, t')) :
    t.ahead = b :: t'.ahead := by
  rw [ahead]
  split
  · next h' => cases h.symm.trans h'; rfl
  · next h' => exact absurd h (h' _ _)

theorem ahead_nil {t t' : Tape} {c : Ch UInt8} (h : t.get = (c, t')) (hc : ∀ b, c ≠ .byte b) :
    t.ahead = [] := by
  rw [ahead]
  split
  · next h' =>
    cases h.symm.trans h'
    exact absurd rfl (hc _)
  · rfl

theorem ahead_congr {t t' : Tape} (h : t.get = t'.get) : t.ahead = t'.ahead := by
  rcases hg : t.get with ⟨_ | _ | _, u⟩ <;> rw [hg] at h
  · rw [ahead_byte hg, ahead_byte h.symm]
  · rw [ahead_nil hg nofun, ahead_nil h.symm nofun]
  · rw [ahead_nil hg nofun, ahead_nil h.symm nofun]

def device : Device UInt8 Tape where
  get := get
  unget := unget
  size := size
  get_size := size_get

def dropMirror (t : Tape) : Tape := { t with mir := none }

def dropMirrorHom : device.Hom device fun _ => True where
  map := dropMirror
  get_map {t} _ := by
    simp only [device, get, dropMirror]
    split
    · rfl
    · split
      · rfl
      · split <;> rfl
  get_inv _ := trivial
  unget_map t := by
    simp only [device, unget, dropMirror]
    split <;> rfl
  unget_inv _ := trivial

theorem ahead_dropMirror (t : Tape) : t.dropMirror.ahead = t.ahead := by
  induction t using scan_induction (D := device) with
  | _ t ih =>
  have hg : t.dropMirror.get = ((device.get t).1, (device.get t).2.dropMirror) :=
    dropMirrorHom.get_map (d := t) trivial
  rcases hd : device.get t with ⟨_ | _ | _, u⟩ <;> rw [hd] at hg
  · rw [ahead_byte hg, ahead_byte hd, ih _ u hd]
  · rw [ahead_nil hg nofun, ahead_nil hd nofun]
  · rw [ahead_nil hg nofun, ahead_nil hd nofun]

/-- What a suspended or fresh tape satisfies before it is read: `erc` is one of the
three codes a source returns, and `unget` has not pushed a wait back. -/
structure Ready (t : Tape) : Prop where
  erc : t.erc = .ok ∨ (t.erc = .eof ∧ t.toks = [])
  bc : t.bc = true → t.lch ≠ .wait

def unwait (t : Tape) : Tape := { t with toks := t.toks.filter (· ≠ .wait) }

theorem get_keep {t t' : Tape} {c : Ch UInt8} (ht : t.Ready) (h : t.get = (c, t'))
    (hc : c ≠ .wait) :
    t.unwait.get = (c, t'.unwait) ∧ t'.Ready := by
  cases hbc : t.bc with
  | true =>
    rw [get_bc hbc, Prod.mk.injEq] at h
    obtain ⟨rfl, rfl⟩ := h
    exact ⟨get_bc hbc, ht.erc, by simp⟩
  | false =>
    by_cases hl : t.lim = t.ccnt
    · rw [get_lim hbc hl, Prod.mk.injEq] at h
      obtain ⟨rfl, rfl⟩ := h
      exact ⟨get_lim hbc hl, ht⟩
    · obtain he | ⟨he, htoks⟩ := ht.erc
      · match htoks : t.toks with
        | [] =>
          rw [get_nil hbc hl he htoks, Prod.mk.injEq] at h
          obtain ⟨rfl, rfl⟩ := h
          exact ⟨get_nil hbc hl he (by simp [unwait, htoks]), .inr ⟨rfl, htoks⟩, by simp [hbc]⟩
        | .wait :: ts =>
          rw [get_wait hbc hl he htoks, Prod.mk.injEq] at h
          exact absurd h.1.symm hc
        | .byte b :: ts =>
          rw [get_byte hbc hl he htoks, gotChar, Prod.mk.injEq] at h
          obtain ⟨rfl, rfl⟩ := h
          have hu : t.unwait.toks = .byte b :: ts.filter (· ≠ .wait) := by simp [unwait, htoks]
          exact ⟨get_byte (t := t.unwait) hbc hl he hu, .inl he, by simp [hbc]⟩
      · rw [get_ended hbc hl (by simp [he]) (by simp [he]), Prod.mk.injEq] at h
        obtain ⟨rfl, rfl⟩ := h
        exact ⟨get_ended hbc hl (by simp [unwait, he]) (by simp [unwait, he]),
          .inr ⟨he, htoks⟩, by simp [hbc]⟩

theorem wait_inv {t t' : Tape} (ht : t.Ready) (h : t.get = (.wait, t')) :
    t.bc = false ∧ t.lim ≠ t.ccnt ∧ t.erc = .ok ∧
      ∃ ts, t.toks = .wait :: ts ∧ t' = { t with toks := ts, erc := .wait, lch := .wait } := by
  rcases Bool.eq_false_or_eq_true t.bc with hbc | hbc
  · rw [get_bc hbc, Prod.mk.injEq] at h
    exact absurd h.1 (ht.bc hbc)
  · by_cases hl : t.lim = t.ccnt
    · simp [get_lim hbc hl] at h
    · obtain he | ⟨he, _⟩ := ht.erc
      · match htoks : t.toks with
        | [] => simp [get_nil hbc hl he htoks] at h
        | .byte b :: ts => simp [get_byte hbc hl he htoks, gotChar] at h
        | .wait :: ts =>
          rw [get_wait hbc hl he htoks, Prod.mk.injEq] at h
          exact ⟨hbc, hl, he, ts, rfl, h.2.symm⟩
      · simp [get_ended hbc hl (by simp [he]) (by simp [he])] at h

theorem get_lch {t : Tape} (h : t.bc = false) (hl : t.lim ≠ t.ccnt) (c : Ch UInt8) :
    ({ t with lch := c } : Tape).get = t.get := by
  cases he : t.erc <;> simp only [get, h, hl, he, Bool.false_eq_true, if_false, gotChar]

theorem get_resume {t t' : Tape} (ht : t.Ready) (h : t.get = (.wait, t')) :
    t.unwait.get = t'.canRead.unwait.get ∧ t'.canRead.Ready := by
  obtain ⟨hbc, hl, he, ts, htoks, rfl⟩ := wait_inv ht h
  refine ⟨?_, .inl rfl, by simp [canRead, hbc]⟩
  have := get_lch (t := t.unwait) hbc hl .wait
  rw [← this]
  simp [unwait, canRead, htoks, he]

theorem Ready.unwait {t : Tape} (h : t.Ready) : t.unwait.Ready :=
  ⟨h.erc.imp_right fun he => ⟨he.1, by simp [Tape.unwait, he.2]⟩, h.bc⟩

theorem get_unwait_ne_wait {t : Tape} (h : t.Ready) : t.unwait.get.1 ≠ .wait := by
  intro hw
  obtain ⟨-, -, -, l, hl, -⟩ :=
    wait_inv h.unwait (show t.unwait.get = (.wait, t.unwait.get.2) by rw [← hw])
  have : Tok.wait ∈ t.unwait.toks := by simp [hl]
  simp [unwait] at this

theorem unwait_unget (t : Tape) : t.unget.unwait = t.unwait.unget := by
  unfold unget unwait
  split <;> rfl

theorem ready_unget {t : Tape} (h : t.Ready) : t.unget.Ready := by
  unfold unget
  split
  · next hl => exact ⟨h.erc, fun _ => hl⟩
  · exact h

theorem get_unget {t t' : Tape} {c : Ch UInt8} (h : t.get = (c, t')) (hc : c ≠ .wait)
    (hl : c ≠ .eof ∨ t.lim ≠ t.ccnt) : t'.unget.get = (c, t') := by
  have key (hlch : t'.lch = c) (hbc : t'.bc = false) : t'.unget.get = (c, t') := by
    rw [unget, if_pos (hlch ▸ hc), get_bc rfl]
    obtain ⟨toks, bc, lch, erc, lim, ccnt, mir⟩ := t'
    cases hlch
    cases hbc
    rfl
  unfold get at h
  split at h
  · cases h
    exact key rfl rfl
  · next hbc =>
    have hbc : t.bc = false := by simpa using hbc
    split at h
    · cases h
      exact absurd ‹_› (hl.resolve_left fun h => h rfl)
    · split at h <;> cases h <;> exact key rfl hbc

def waits (t : Tape) : Nat := t.toks.count .wait

theorem waits_unwait (t : Tape) : t.unwait.waits = 0 := by
  rw [waits, List.count_eq_zero]
  intro h
  simp [unwait] at h

theorem unwait_eq {t : Tape} (h : t.waits = 0) : t.unwait = t := by
  rw [waits, List.count_eq_zero] at h
  have hall : ∀ x ∈ t.toks, decide (x ≠ .wait) = true := fun x hx =>
    decide_eq_true fun hwait => h (hwait ▸ hx)
  rw [unwait, List.filter_eq_self.mpr hall]

theorem waits_unget (t : Tape) : t.unget.waits = t.waits := by
  unfold unget
  split <;> rfl

theorem waits_get {t t' : Tape} {c : Ch UInt8} (h : t.get = (c, t')) : t'.waits ≤ t.waits := by
  unfold get at h
  split at h
  · cases h; exact Nat.le_refl _
  · split at h
    · cases h; exact Nat.le_refl _
    · split at h <;> cases h <;> simp_all [waits]

theorem waits_wait {t t' : Tape} (ht : t.Ready) (h : t.get = (.wait, t')) :
    t'.canRead.waits < t.waits := by
  obtain ⟨-, -, -, l, hl, rfl⟩ := wait_inv ht h
  simp [waits, canRead, hl]

def merging : Merging device where
  unwait := unwait
  resume := canRead
  Ready := Ready
  waits := waits
  get_keep h hg hc := (get_keep h hg hc).1
  ready_get h hg hc := (get_keep h hg hc).2
  get_wait h hg := (get_resume h hg).1
  ready_resume h hg := (get_resume h hg).2
  unwait_unget := unwait_unget
  ready_unget := ready_unget
  waits_get _ := waits_get
  waits_wait := waits_wait
  waits_unget := waits_unget

def left (t : Tape) : Nat :=
  t.toks.length + match t.bc, t.lch with
    | true, .byte _ => 1
    | _, _ => 0

theorem left_byte {t t' : Tape} {b : UInt8} (h : t.get = (.byte b, t')) :
    t'.left < t.left ∧ t'.unget.left ≤ t.left := by
  unfold get at h
  split at h
  · next hbc =>
    simp only [Prod.mk.injEq] at h
    obtain ⟨hl, rfl⟩ := h
    simp [left, unget, hl, hbc]
  · next hbc =>
    split at h
    · simp at h
    · split at h <;> cases h
      simp_all [left, unget]

theorem left_eof {t t' : Tape} (h : t.get = (.eof, t')) :
    t'.left ≤ t.left ∧ (t.lim ≠ t.ccnt → t'.unget.left ≤ t.left) := by
  unfold get at h
  split at h
  · next hbc =>
    simp only [Prod.mk.injEq] at h
    obtain ⟨hl, rfl⟩ := h
    simp [left, unget, hl, hbc]
  · next hbc =>
    split at h
    · cases h
      exact ⟨Nat.le_refl _, fun hl => absurd ‹_› hl⟩
    · split at h <;> cases h <;> simp_all [left, unget]

theorem left_wait {t t' : Tape} (ht : t.Ready) (h : t.get = (.wait, t')) :
    t'.canRead.left < t.left := by
  obtain ⟨hbc, -, -, l, hl, rfl⟩ := wait_inv ht h
  simp [left, canRead, hl, hbc]

def Unlimited (t : Tape) : Prop := t.lim < 0 ∧ 0 ≤ t.ccnt

theorem Unlimited.ne {t : Tape} (h : t.Unlimited) : t.lim ≠ t.ccnt := by
  have := h.1
  have := h.2
  omega

theorem Unlimited.get {t : Tape} (h : t.Unlimited) : t.get.2.Unlimited := by
  unfold Tape.get
  split
  · exact h
  · split
    · exact h
    · split
      · exact ⟨h.1, by have := h.2; simp only [gotChar]; omega⟩
      all_goals exact h

theorem Unlimited.unget {t : Tape} (h : t.Unlimited) : t.unget.Unlimited := by
  unfold Tape.unget
  split <;> exact h

section Scan

variable {σ ρ : Type} {S : Scanner UInt8 σ ρ} {s s' : σ} {t t' : Tape}

theorem Unlimited.scan (h : t.Unlimited) : (scan device S s t).2.2.Unlimited :=
  scan_device_invariant (I := Unlimited) Unlimited.get Unlimited.unget h

theorem scan_left {r : ρ} (hS : (∀ s, ∃ r s', S.eof s = .done r s') ∨ t.Unlimited)
    (h : scan device S s t = (some r, s', t')) : t'.left ≤ t.left := by
  induction t using scan_induction (D := device) generalizing s with
  | _ t ih =>
  obtain ⟨r₀, _, hr⟩ | ⟨_, b, e, x, hb, _, hr⟩ | ⟨_, b, e, x, hb, _, hr⟩ | ⟨_, e, hb, hr⟩ |
    ⟨_, e, hb, hr⟩ := scan_cases device S s t <;> rw [hr] at h
  · cases h
    exact Nat.le_refl _
  · have hlt := (left_byte hb).1
    have hle := ih b e hb (hS.imp_right fun hu => by
      have := hu.get
      rwa [show t.get = _ from hb] at this) h
    omega
  · obtain ⟨h₁, h₂⟩ := left_byte hb
    cases x <;> cases h
    · exact Nat.le_of_lt h₁
    · exact h₂
  · obtain ⟨h₁, h₂⟩ := left_eof hb
    cases hx : S.eof s <;> rw [hx] at h <;> cases h
    · exact h₁
    · refine h₂ ?_
      obtain hd | hu := hS
      · obtain ⟨r', s'', hd⟩ := hd s
        rw [hx] at hd
        cases hd
      · exact hu.ne
  · cases h

theorem left_unget (t : Tape) : t.unget.left ≤ t.left + 1 := by
  unfold unget
  split
  · unfold left
    split <;> simp only <;> omega
  · exact Nat.le_succ _

theorem scan_left_succ {r : ρ} (h : scan device S s t = (some r, s', t')) :
    t'.left ≤ t.left + 1 := by
  induction t using scan_induction (D := device) generalizing s with
  | _ t ih =>
  obtain ⟨r₀, _, hr⟩ | ⟨_, b, e, x, hb, _, hr⟩ | ⟨_, b, e, x, hb, _, hr⟩ | ⟨_, e, hb, hr⟩ |
    ⟨_, e, hb, hr⟩ := scan_cases device S s t <;> rw [hr] at h
  · cases h
    exact Nat.le_succ _
  · have hlt := (left_byte hb).1
    have hle := ih b e hb h
    omega
  · obtain ⟨h₁, h₂⟩ := left_byte hb
    cases x <;> cases h
    · omega
    · exact Nat.le_succ_of_le h₂
  · have h₁ := (left_eof hb).1
    have h₂ := left_unget e
    cases hx : S.eof s <;> rw [hx] at h <;> cases h
    · omega
    · exact Nat.le_trans h₂ (Nat.succ_le_succ h₁)
  · cases h

theorem scan_left_le {r : ρ} (hS : ∀ s s', S.eof s ≠ .back r s')
    (h : scan device S s t = (some r, s', t')) : t'.left ≤ t.left := by
  induction t using scan_induction (D := device) generalizing s with
  | _ t ih =>
  obtain ⟨r₀, _, hr⟩ | ⟨_, b, e, x, hb, _, hr⟩ | ⟨_, b, e, x, hb, _, hr⟩ | ⟨_, e, hb, hr⟩ |
    ⟨_, e, hb, hr⟩ := scan_cases device S s t <;> rw [hr] at h
  · cases h
    exact Nat.le_refl _
  · have hlt := (left_byte hb).1
    have hle := ih b e hb h
    omega
  · obtain ⟨h₁, h₂⟩ := left_byte hb
    cases x <;> cases h
    · exact Nat.le_of_lt h₁
    · exact h₂
  · cases hx : S.eof s <;> rw [hx] at h <;> cases h
    · exact (left_eof hb).1
    · exact absurd hx (hS _ _)
  · cases h

theorem scan_left_lt {r : ρ} (hg : ∀ s, S.guard s ≠ some r) (hb : ∀ s b s', S.byte s b ≠ .back r s')
    (he : ∀ s s', S.eof s ≠ .done r s' ∧ S.eof s ≠ .back r s')
    (h : scan device S s t = (some r, s', t')) : t'.left < t.left := by
  induction t using scan_induction (D := device) generalizing s with
  | _ t ih =>
  obtain ⟨r₀, hr₀, hr⟩ | ⟨_, b, e, x, hd, _, hr⟩ | ⟨_, b, e, x, hd, hx, hr⟩ | ⟨_, e, hd, hr⟩ |
    ⟨_, e, hd, hr⟩ := scan_cases device S s t <;> rw [hr] at h
  · cases h
    exact absurd hr₀ (hg _)
  · exact Nat.lt_trans (ih b e hd h) (left_byte hd).1
  · cases x <;> cases h
    · exact (left_byte hd).1
    · exact absurd hx (hb _ _ _)
  · cases hx : S.eof s <;> rw [hx] at h <;> cases h
    · exact absurd hx (he _ _).1
    · exact absurd hx (he _ _).2
  · cases h

/-- What a loop that was made to wait leaves: a tape with less on it, and nothing pushed back. -/
structure Slept (t t' : Tape) : Prop where
  ready : t'.canRead.Ready
  waits : t'.canRead.waits < t.waits
  left : t'.canRead.left < t.left
  bc : t'.bc = false
  lim : t'.lim ≠ t'.ccnt

theorem Slept.of_le {u : Tape} (h : Slept u t') (hw : u.waits ≤ t.waits) (hl : u.left ≤ t.left) :
    Slept t t' :=
  ⟨h.ready, Nat.lt_of_lt_of_le h.waits hw, Nat.lt_of_lt_of_le h.left hl, h.bc, h.lim⟩

theorem slept_of_get (ht : t.Ready) (h : t.get = (.wait, t')) : Slept t t' := by
  obtain ⟨hbc, hl, -, l, -, rfl⟩ := wait_inv ht h
  exact ⟨(get_resume ht h).2, waits_wait ht h, left_wait ht h, hbc, hl⟩

theorem scan_slept (ht : t.Ready) (h : scan device S s t = (none, s', t')) : Slept t t' := by
  induction t using scan_induction (D := device) generalizing s with
  | _ t ih =>
  obtain ⟨r, _, hr⟩ | ⟨_, b, e, x, hb, _, hr⟩ | ⟨_, b, e, x, hb, _, hr⟩ | ⟨_, e, hb, hr⟩ |
    ⟨_, e, hb, hr⟩ := scan_cases device S s t
  · simp [hr] at h
  · have hs := ih b e hb (get_keep ht hb (by simp)).2 (hr ▸ h)
    exact hs.of_le (waits_get hb) (Nat.le_of_lt (left_byte hb).1)
  · cases x <;> simp [hr, Exit.apply] at h
  · cases hx : S.eof s <;> simp [hr, hx, Exit.apply] at h
  · simp only [hr, Prod.mk.injEq, true_and] at h
    obtain ⟨-, rfl⟩ := h
    exact slept_of_get ht hb

end Scan

section SkipHws

variable {mn k k' : Nat} {r : Stat} {t t' : Tape}

theorem skipHws_scan (h : skipHws device mn k t = (r, k', t')) :
    (r = .wait ∧ scan device (skipHwsScanner mn) k t = (none, k', t')) ∨
    (r ≠ .wait ∧ scan device (skipHwsScanner mn) k t = (some r, k', t') ∧ k' = 0) := by
  unfold skipHws at h
  rcases hs : scan device (skipHwsScanner mn) k t with ⟨o, k₁, t₁⟩
  rw [hs] at h
  cases o with
  | none =>
    cases h
    exact .inl ⟨rfl, rfl⟩
  | some r₁ =>
    simp only [Option.getD_some, Prod.mk.injEq] at h
    obtain ⟨rfl, rfl, rfl⟩ := h
    have hR : r₁ ≠ .wait ∧ k₁ = 0 := by
      refine scan_result (I := fun _ => True) (R := fun r k => r ≠ .wait ∧ k = 0) ?_ (by simp) ?_ ?_
        trivial hs
      · intro s r _ hg
        simp [skipHwsScanner] at hg
      · intro s b r s' _ _ hb
        simp only [skipHwsScanner] at hb
        split at hb <;> simp only [reduceCtorEq, Act.exit.injEq, Exit.back.injEq, false_or,
          or_self] at hb
        split at hb <;> simp [← hb.1, ← hb.2]
      · intro s r s' _ _ he
        simp only [skipHwsScanner, reduceCtorEq, Exit.back.injEq, false_or] at he
        split at he <;> simp [← he.1, ← he.2]
    exact .inr ⟨hR.1, rfl, hR.2⟩

theorem skipHws_keep (ht : t.Ready) (hr : r ≠ .wait) (h : skipHws device mn k t = (r, k', t')) :
    skipHws device mn k t.unwait = (r, k', t'.unwait) ∧ t'.Ready ∧ t'.waits ≤ t.waits ∧ k' = 0 := by
  obtain ⟨hw, -⟩ | ⟨-, hs, hk⟩ := skipHws_scan h
  · exact absurd hw hr
  · obtain ⟨hs', hready, hwaits⟩ := merging.scan_keep ht hs
    have hs' : scan device (skipHwsScanner mn) k t.unwait = (some r, k', t'.unwait) := hs'
    exact ⟨by simp [skipHws, hs'], hready, hwaits, hk⟩

theorem skipHws_unlimited (hu : t.Unlimited) (h : skipHws device mn k t = (r, k', t')) :
    t'.Unlimited := by
  have hs := hu.scan (S := skipHwsScanner mn) (s := k)
  obtain ⟨-, h⟩ | ⟨-, h, -⟩ := skipHws_scan h <;> rwa [h] at hs

theorem skipHws_left (hu : t.Unlimited) (hr : r ≠ .wait) (h : skipHws device mn k t = (r, k', t')) :
    t'.left ≤ t.left ∧ t'.Unlimited := by
  refine ⟨?_, skipHws_unlimited hu h⟩
  obtain ⟨hw, -⟩ | ⟨-, hs, -⟩ := skipHws_scan h
  · exact absurd hw hr
  · exact scan_left (.inr hu) hs

theorem skipHws_wait (ht : t.Ready) (h : skipHws device mn k t = (.wait, k', t')) :
    skipHws device mn k t.unwait = skipHws device mn k' t'.canRead.unwait ∧ Slept t t' := by
  obtain ⟨-, hs⟩ | ⟨hw, -⟩ := skipHws_scan h
  · have hm : scan device (skipHwsScanner mn) k t.unwait =
        scan device (skipHwsScanner mn) k' t'.canRead.unwait := (merging.scan_wait ht hs).1
    exact ⟨by simp [skipHws, hm], scan_slept ht hs⟩
  · exact absurd rfl hw

theorem skipHws_nothing {c : Ch UInt8} (hg : t.get = (c, t')) (hc : c ≠ .wait)
    (hl : t.lim ≠ t.ccnt) (hb : ∀ b, c = .byte b → Byte.isHws b = false) :
    skipHws device 0 k t = (.ok, 0, t'.unget) ∧ t'.unget.get = t.get := by
  refine ⟨?_, by rw [get_unget hg hc (.inr hl), hg]⟩
  have hguard : (skipHwsScanner 0).guard k = none := rfl
  cases c with
  | byte b =>
    have hbyte : (skipHwsScanner 0).byte k b = .back .ok 0 := by simp [skipHwsScanner, hb b rfl]
    rw [skipHws, scan_exit (D := device) hguard hg hbyte]
    rfl
  | eof =>
    rw [skipHws, scan_eof (D := device) hguard hg]
    rfl
  | wait => exact absurd rfl hc

end SkipHws

/-- The tape is about to give the bytes `B`, and then the end. -/
structure Reads (t : Tape) (B : Str) : Prop where
  toks : t.toks = B.map .byte
  bc : t.bc = false
  erc : t.erc = .ok
  unlimited : t.Unlimited

namespace Reads

variable {t : Tape} {B : Str} {b : UInt8}

theorem get (h : t.Reads (b :: B)) : t.get.1 = .byte b ∧ t.get.2.Reads B := by
  have hl := h.unlimited
  rw [get_byte h.bc hl.ne h.erc h.toks]
  exact ⟨rfl, rfl, h.bc, h.erc, hl.1, by have := hl.2; simp only [gotChar]; omega⟩

theorem get_eof (h : t.Reads []) : t.get = (.eof, { t with erc := .eof, lch := .eof }) :=
  get_nil h.bc h.unlimited.ne h.erc h.toks

variable {σ ρ : Type} {S : Scanner UInt8 σ ρ} {s s' : σ}

theorem scan_next (h : t.Reads (b :: B)) (hg : S.guard s = none) (hb : S.byte s b = .next s') :
    ∃ t', t'.Reads B ∧ scan device S s t = scan device S s' t' :=
  ⟨t.get.2, h.get.2, Lib.scan_next hg (Prod.ext h.get.1 rfl) hb⟩

theorem scan_eof (h : t.Reads []) (hg : S.guard s = none) {r : ρ} (hb : S.eof s = .done r s') :
    ∃ t', scan device S s t = (some r, s', t') := by
  refine ⟨t.get.2, ?_⟩
  rw [Lib.scan_eof (D := device) hg (Prod.ext (by simp [device, h.get_eof]) rfl), hb]
  rfl

end Reads

end Tape

namespace Abuf

def regionToks (r : Str) : List Tok := if r = [] then [.wait] else r.map .byte

def toTape (a : Abuf) : Tape where
  toks := a.avail.map .byte ++ a.src.flatMap regionToks
  bc := a.bc
  lch := a.lch
  erc := a.erc
  lim := a.lim
  ccnt := a.ccnt
  mir := a.mir

/-- A region is only unread while the source has not said anything else. -/
def Wf (a : Abuf) : Prop := a.avail ≠ [] → a.erc = .ok

theorem toTape_get {a : Abuf} (h : a.Wf) :
    a.toTape.get = (a.get.1, a.get.2.toTape) ∧ a.get.2.Wf := by
  obtain ⟨hbc, hg⟩ | ⟨hbc, hl, hg⟩ | ⟨hbc, hl, ⟨c, cs, hav, hg⟩ | ⟨c, cs, rs, hav, he, hsrc, hg⟩ |
    ⟨rs, hav, he, hsrc, hg⟩ | ⟨hav, he, hsrc, hg⟩ | ⟨hav, he, hg⟩ | ⟨hav, he, hw, hg⟩⟩ :=
      get_cases a
  · exact ⟨by rw [hg, Tape.get_bc hbc]; rfl, by rw [hg]; exact h⟩
  · exact ⟨by rw [hg, Tape.get_lim hbc hl], by rw [hg]; exact h⟩
  · have he : a.erc = .ok := h (by simp [hav])
    rw [hg, Tape.get_byte (c := c) (l := cs.map .byte ++ a.src.flatMap regionToks) hbc hl he
      (by simp [toTape, hav])]
    exact ⟨rfl, fun _ => he⟩
  · rw [hg, Tape.get_byte (c := c) (l := cs.map .byte ++ rs.flatMap regionToks) hbc hl he
      (by simp [toTape, hav, hsrc, regionToks])]
    exact ⟨rfl, fun _ => he⟩
  · rw [hg, Tape.get_wait (l := rs.flatMap regionToks) hbc hl he
      (by simp [toTape, hav, hsrc, regionToks])]
    exact ⟨by simp [toTape, hav], by simp [Wf, hav]⟩
  · rw [hg, Tape.get_nil hbc hl he (by simp [toTape, hav, hsrc])]
    exact ⟨by simp [toTape], by simp [Wf, hav]⟩
  · rw [hg, Tape.get_waiting hbc hl he]
    exact ⟨rfl, by simp [Wf, hav]⟩
  · rw [hg, Tape.get_ended hbc hl he hw]
    exact ⟨rfl, by simp [Wf, hav]⟩

theorem toTape_unget (a : Abuf) : a.toTape.unget = a.unget.toTape := by
  unfold unget Tape.unget toTape
  split <;> rfl

theorem Wf.unget {a : Abuf} (h : a.Wf) : a.unget.Wf := by
  unfold Abuf.unget
  split <;> exact h

theorem regionToks_bytes (rs : List Str) :
    (rs.flatMap regionToks).filter (· ≠ .wait) = rs.flatten.map .byte := by
  induction rs with
  | nil => rfl
  | cons r rs ih =>
    have hr : (regionToks r).filter (· ≠ .wait) = r.map .byte := by
      unfold regionToks
      split
      · simp [*]
      · rw [List.filter_eq_self]
        simp
    rw [List.flatMap_cons, List.filter_append, hr, ih, List.flatten_cons, List.map_append]

/-- A source that has all of `B` at once. -/
def whole (B : Str) : List Str := if B = [] then [] else [B]

theorem regionToks_whole (B : Str) : (whole B).flatMap regionToks = B.map .byte := by
  unfold whole
  split <;> simp_all [regionToks]

theorem toTape_unwait (rs : List Str) (lim : Int) :
    ({ src := rs, lim := lim } : Abuf).toTape.unwait =
      ({ src := whole rs.flatten, lim := lim } : Abuf).toTape := by
  simp only [toTape, Tape.unwait, List.map_nil, List.nil_append, regionToks_bytes, regionToks_whole]

/-- Reading from the regions is reading from the tape. -/
def toTapeHom : device.Hom Tape.device Wf where
  map := toTape
  get_map h := (toTape_get h).1
  get_inv h := (toTape_get h).2
  unget_map := toTape_unget
  unget_inv := Wf.unget

end Abuf

end Okws
