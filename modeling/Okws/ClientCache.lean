import Okws.SrvCache

/-! `caching_remote_publisher_t`: the files that a service has from `pubd`, and how it hears that
they have changed. -/

namespace Okws

/-- What `pubd` makes of a request. -/
inductive GetfileRes
  | ok
  | noent
  | error
  deriving DecidableEq

/-- A call of `getfile` that has gone to `pubd`, with the result and the time it was made at. -/
structure Getfile where
  fn : Str
  opts : UInt32
  res : Option (GetfileRes × Nat) := none
  deriving DecidableEq

/-- `xpub3_delta_set_t`, with the times of the changes it reports, and its own. -/
structure DeltaSet where
  serial : Int
  files : List (Str × Nat)
  issued : Nat

/-- The files in the caches are known by the time they were made at in `pubd`.  `since` is what the
service was told of a file of `pubd`: it has changed then; and the hits are the answers from the
caches, with what was known of the file. -/
structure ClientCache where
  now : Nat := 0
  getfileCache : Str × UInt32 → Option Nat := fun _ => none
  optsMap : Str → Option (List UInt32) := fun _ => none
  noentCache : Str → Option Nat := fun _ => none
  deltaId : Int := -1
  pending : List Getfile := []
  since : Str → Nat := fun _ => 0
  hits : List (Nat × Nat) := []

namespace ClientCache

variable (s : ClientCache)

def invalidateCache (n : Str) : ClientCache := match s.optsMap n with
  | none => s
  | some l => { s with
      getfileCache := fun k => if k.1 = n ∧ k.2 ∈ l then none else s.getfileCache k
      optsMap := fun m => if m = n then none else s.optsMap m }

def cacheNoent (n : Str) (made : Nat) : ClientCache :=
  invalidateCache { s with
    noentCache := fun m => if m = n then some made else s.noentCache m } n

def cacheGetfile (n : Str) (o : UInt32) (made : Nat) : ClientCache := { s with
  optsMap := fun m => if m = n then some (o :: (s.optsMap n).getD []) else s.optsMap m
  noentCache := fun m => if m = n then none else s.noentCache m
  getfileCache := fun k => if k = (n, o) then some made else s.getfileCache k }

def changed (f : Str × Nat) : ClientCache := { s.invalidateCache f.1 with
  since := fun n => if n = f.1 then max (s.since n) f.2 else s.since n }

def gap (serial : Int) : Bool := 0 ≤ s.deltaId && serial ≠ s.deltaId + 1

def handleNewDeltas (d : DeltaSet) : ClientCache :=
  if s.gap d.serial then { s with
    optsMap := fun _ => none
    getfileCache := fun _ => none
    since := fun n => max (s.since n) d.issued }
  else d.files.foldl changed { s with deltaId := d.serial }

/-- `produce` is what `pubd` makes of a request, which `finish` brings to the service, as a whole or
in chunks; entries of the caches may expire at any time. -/
inductive Event
  | getfile (fn : Str) (opts : UInt32)
  | produce (q : Getfile) (res : GetfileRes)
  | finish (q : Getfile)
  | deltas (d : DeltaSet)
  | expire (n : Str)

def step : Event → Option ClientCache
  | .getfile fn opts =>
    let o := opMask opts
    match s.getfileCache (fn, o) with
    | some made => some { s with hits := (made, s.since (cstr fn)) :: s.hits }
    | none => match s.noentCache fn with
      | some made => some { s with hits := (made, s.since (cstr fn)) :: s.hits }
      -- the name that is sent ends at the first NUL
      | none => some { s with pending := { fn := fn, opts := o } :: s.pending }
  | .produce q res =>
    if q ∈ s.pending ∧ q.res = none then some { s with
      now := s.now + 1
      pending := { q with res := some (res, s.now) } :: s.pending.erase q }
    else none
  | .finish q =>
    if q ∈ s.pending then
      let s := { s with pending := s.pending.erase q }
      match q.res with
      | none => none
      | some (.ok, made) => some (s.cacheGetfile q.fn q.opts made)
      | some (.noent, made) => some (s.cacheNoent q.fn made)
      | some (.error, _) => some s
    else none
  | .deltas d => some (s.handleNewDeltas d)
  | .expire n => some { s with noentCache := fun m => if m = n then none else s.noentCache m }

def system : Lib.System ClientCache Event where
  init s := s = {}
  step := step

/-- No answer from a cache was made before the file has changed, as far as the service was told. -/
def Sound : Prop := ∀ made since, (made, since) ∈ s.hits → since ≤ made

/-- The names have no NUL; no result comes that was made before a change that was reported
meanwhile; and no failure is in the cache that is older than a change that is reported. -/
def Calm : Event → Prop
  | .getfile fn _ => cstr fn = fn
  | .finish q => ∀ res made, q.res = some (res, made) → res ≠ .error → s.since q.fn ≤ made
  | .deltas d =>
    if s.gap d.serial then ∀ n made, s.noentCache n = some made → d.issued ≤ made
    else ∀ n made time, s.noentCache n = some made → (n, time) ∈ d.files → time ≤ made
  | _ => True

structure Inv : Prop where
  sound : s.Sound
  pending : ∀ q ∈ s.pending, cstr q.fn = q.fn
  files : ∀ n o made, s.getfileCache (n, o) = some made → cstr n = n ∧ s.since n ≤ made ∧
    o ∈ (s.optsMap n).getD []
  noents : ∀ n made, s.noentCache n = some made → cstr n = n ∧ s.since n ≤ made

section Invariant

variable {s t : ClientCache} {n : Str} {o : UInt32} {made : Nat}

theorem Inv.invalidateCache (h : s.Inv) (n : Str) : (s.invalidateCache n).Inv := by
  have hfiles := h.files
  unfold ClientCache.invalidateCache
  split
  · exact h
  · constructor
    · exact h.sound
    · exact h.pending
    · grind
    · exact h.noents

theorem Inv.invalidated (h : s.Inv) (n : Str) (o : UInt32) :
    (s.invalidateCache n).getfileCache (n, o) = none := by
  cases hc : s.getfileCache (n, o) with
  | none =>
    unfold ClientCache.invalidateCache
    split <;> grind
  | some made =>
    obtain ⟨-, -, ho⟩ := h.files n o made hc
    unfold ClientCache.invalidateCache
    split <;> grind

@[simp] theorem invalidateCache_noentCache :
    (s.invalidateCache n).noentCache = s.noentCache := by
  unfold invalidateCache
  split <;> rfl

@[simp] theorem invalidateCache_since : (s.invalidateCache n).since = s.since := by
  unfold invalidateCache
  split <;> rfl

theorem Inv.cacheNoent (h : s.Inv) (hn : cstr n = n) (hmade : s.since n ≤ made) :
    (s.cacheNoent n made).Inv := by
  apply Inv.invalidateCache
  constructor
  · exact h.sound
  · exact h.pending
  · exact h.files
  · have := h.noents
    grind

theorem Inv.cacheGetfile (h : s.Inv) (hn : cstr n = n) (hmade : s.since n ≤ made) :
    (s.cacheGetfile n o made).Inv := by
  unfold ClientCache.cacheGetfile
  have hfiles := h.files
  constructor
  · exact h.sound
  · exact h.pending
  · grind
  · have := h.noents
    grind

theorem Inv.changed {f : Str × Nat} (h : s.Inv)
    (hnoent : ∀ made, s.noentCache f.1 = some made → f.2 ≤ made) : (s.changed f).Inv := by
  have hinv := h.invalidateCache f.1
  have hnone := h.invalidated f.1
  have hsince : (s.invalidateCache f.1).since = s.since := invalidateCache_since
  unfold ClientCache.changed
  constructor
  · exact hinv.sound
  · exact hinv.pending
  · have := hinv.files
    grind
  · have := h.noents
    have hnoents : (s.invalidateCache f.1).noentCache = s.noentCache := invalidateCache_noentCache
    grind

theorem Inv.changes {files : List (Str × Nat)} (h : s.Inv) (hnoent : ∀ n made time,
      s.noentCache n = some made → (n, time) ∈ files → time ≤ made) :
    (files.foldl ClientCache.changed s).Inv := by
  induction files generalizing s with
  | nil => exact h
  | cons f files ih =>
    rw [List.foldl_cons]
    refine ih (h.changed fun made hmade => hnoent f.1 made f.2 hmade List.mem_cons_self) ?_
    intro n made time hmade hmem
    rw [ClientCache.changed, invalidateCache_noentCache] at hmade
    exact hnoent n made time hmade (List.mem_cons_of_mem _ hmem)

theorem Inv.handleNewDeltas {d : DeltaSet} (h : s.Inv) (hcalm : s.Calm (.deltas d)) :
    (s.handleNewDeltas d).Inv := by
  unfold ClientCache.handleNewDeltas
  change if s.gap d.serial then _ else _ at hcalm
  split
  · next hgap =>
    rw [if_pos hgap] at hcalm
    constructor
    · exact h.sound
    · exact h.pending
    · nofun
    · have := h.noents
      grind
  · next hgap =>
    rw [if_neg hgap] at hcalm
    exact Inv.changes ⟨h.sound, h.pending, h.files, h.noents⟩ hcalm

theorem Inv.step {e : Event} (h : s.Inv) (hcalm : s.Calm e) (hs : s.step e = some t) : t.Inv := by
  cases e with
  | getfile fn opts =>
    have hfn : cstr fn = fn := hcalm
    rw [ClientCache.step] at hs
    rw [hfn] at hs
    split at hs
    · next made hmade =>
      cases hs
      refine ⟨?_, h.pending, h.files, h.noents⟩
      have := h.sound
      have := h.files fn _ made hmade
      unfold Sound at *
      grind
    · split at hs
      · next made hmade =>
        cases hs
        refine ⟨?_, h.pending, h.files, h.noents⟩
        have := h.sound
        have := h.noents fn made hmade
        unfold Sound at *
        grind
      · cases hs
        exact ⟨h.sound, List.forall_mem_cons.mpr ⟨hfn, h.pending⟩, h.files, h.noents⟩
  | produce q res =>
    rw [ClientCache.step] at hs
    split at hs
    · next hq =>
      cases hs
      refine ⟨h.sound, ?_, h.files, h.noents⟩
      have := h.pending
      grind
    · cases hs
  | finish q =>
    rw [ClientCache.step] at hs
    split at hs
    · next hq =>
      have hfn := h.pending q hq
      have hcalm : ∀ res made, q.res = some (res, made) → res ≠ .error → s.since q.fn ≤ made :=
        hcalm
      have hrest : Inv { s with pending := s.pending.erase q } :=
        ⟨h.sound, fun q' hq' => h.pending q' (List.mem_of_mem_erase hq'), h.files, h.noents⟩
      dsimp only at hs
      split at hs
      · cases hs
      · next made hmade =>
        cases hs
        exact hrest.cacheGetfile hfn (hcalm _ _ hmade (by rintro ⟨⟩))
      · next made hmade =>
        cases hs
        exact hrest.cacheNoent hfn (hcalm _ _ hmade (by rintro ⟨⟩))
      · cases hs
        exact hrest
    · cases hs
  | deltas d =>
    cases hs
    exact h.handleNewDeltas hcalm
  | expire n =>
    cases hs
    refine ⟨h.sound, h.pending, h.files, ?_⟩
    have := h.noents
    grind

theorem cache_coherent (h : system.Reach Calm s) : s.Sound := by
  have hinv : s.Inv := by
    refine h.invariant (I := Inv) ?_ fun s e t _ hi hc hs => hi.step hc hs
    rintro s rfl
    exact ⟨nofun, nofun, nofun, nofun⟩
  exact hinv.sound

end Invariant

section Runs

def page : Str := ascii ['/', 'a']

/-- A file is asked for, comes, and is in the cache until it changes. -/
theorem cache_coherent_page : ∃ s : ClientCache, s.Sound ∧ s.hits = [(0, 0)] ∧ s.since page = 1 ∧
    s.getfileCache (page, 0) = none := by
  have h₀ : system.Reach Calm {} := .init rfl
  have h₁ := h₀.step (e := Event.getfile page 0) rfl rfl
  have h₂ := h₁.step (e := Event.produce ⟨page, 0, none⟩ .ok) trivial rfl
  have h₃ := h₂.step (e := Event.finish ⟨page, 0, some (.ok, 0)⟩)
    (fun _ _ _ _ => Nat.zero_le _) rfl
  have h₄ := h₃.step (e := Event.getfile page 0) rfl rfl
  have hnone : ∀ (n : Str) (made time : Nat), (if n = page then none else none) = some made →
      (n, time) ∈ [(page, 1)] → time ≤ made := by
    intro n made time hmade
    split at hmade <;> cases hmade
  have h₅ := h₄.step (e := Event.deltas ⟨0, [(page, 1)], 1⟩) hnone rfl
  exact ⟨_, cache_coherent h₅, rfl, rfl, rfl⟩

/-- A file comes in chunks, and its change is reported before the last one. -/
theorem cache_stale : ¬ ∀ s, system.Reachable s → s.Sound := by
  intro h
  have hsound := h _ (Lib.System.reachable_exec (M := system)
    [.getfile page 0, .produce ⟨page, 0, none⟩ .ok, .deltas ⟨0, [(page, 1)], 1⟩,
      .finish ⟨page, 0, some (.ok, 0)⟩, .getfile page 0] rfl rfl)
  exact absurd (hsound 0 1 List.mem_cons_self) (by decide)

end Runs

end ClientCache

end Okws
