import Okws.Byte
import Okws.Timehash
import Okws.Lib.Transition

/-! `srv_cache_t`: which files `pubd` has looked for, and how it sees that they have changed. -/

universe u

namespace Okws

def pNoparse : UInt32 := 0x20

/-- `cache_key_t::op_mask`. -/
def opMask (o : UInt32) : UInt32 := o &&& pNoparse

/-- A file and its `st_ctime`; its `st_size` is the length. -/
structure PubFile where
  content : Str
  regular : Bool
  ctime : Nat

structure CachedLookup (H : Type u) where
  jfn : Str
  rfn : Str
  hash : H
  ctime : Nat
  size : Nat

structure JailedFile where
  jfn : Str
  rfn : Str

instance (H : Type u) : Keyfn (CachedLookup H) Str := ⟨CachedLookup.jfn⟩

instance : Keyfn JailedFile Str := ⟨JailedFile.jfn⟩

def CachedLookup.incCtime {H : Type u} (o : CachedLookup H) : CachedLookup H :=
  { o with ctime := o.ctime + 1 }

theorem key_incCtime {H : Type u} (o : CachedLookup H) : key o.incCtime = key o := rfl

/-- The files are known by their real names.  `since` is not in the code: the time since when the
content of the file that is looked up differs from the cached hash. -/
structure SrvCache (H : Type u) where
  now : Nat
  files : Str → Option PubFile
  lookupCache : Timehash (CachedLookup H)
  noentCache : Timehash JailedFile
  deltaSet : List Str
  since : Str → Option Nat

namespace SrvCache

variable {H : Type u} [DecidableEq H] (sha1 : Str → H) (jail2real : Str → Str) (s : SrvCache H)

def file2hash (rfn : Str) : Option H := match s.files rfn with
  | some f => if f.regular then some (sha1 f.content) else none
  | none => none

def addDelta (nm : Str) : SrvCache H := { s with deltaSet := s.deltaSet.insert nm }

/-- The answer is the hash and the time, none for a file that is known not to be there. -/
def lookup (nm : Str) : Option (Option (H × Nat)) × SrvCache H :=
  let (o, lookupCache) := s.lookupCache.get s.now nm
  match o with
  | some o => (some (some (o.hash, o.ctime)), { s with lookupCache := lookupCache })
  | none =>
    let (found, noentCache) := s.noentCache.rejuvenate s.now nm
    (if found then some none else none,
      { s with lookupCache := lookupCache, noentCache := noentCache })

def cacheLookup (jfn rfn : Str) (hsh : Option H) (ctime sz : Nat) : SrvCache H :=
  let (op, lookupCache) := s.lookupCache.get s.now jfn
  let s := { s with lookupCache := lookupCache }
  match hsh with
  | some hsh =>
    if op.all fun o => o.ctime < ctime ∨ sz ≠ o.size ∨ hsh ≠ o.hash then
      let s := { s with lookupCache := s.lookupCache.insert s.now ⟨jfn, rfn, hsh, ctime, sz⟩ }
      if op.isSome then s.addDelta jfn else s
    else s
  | none =>
    let (o, noentCache) := s.noentCache.get s.now jfn
    let s := { s with
      noentCache := if o.isSome then noentCache else noentCache.insert s.now ⟨jfn, rfn⟩ }
    if op.isSome then
      { s with lookupCache := s.lookupCache.remove s.now jfn }.addDelta jfn
    else s

/-- `local_publisher_t::getfile`, as far as the two caches are concerned. -/
def getfile (jfn : Str) : SrvCache H :=
  let rfn := jail2real jfn
  match s.lookup jfn with
  | (some _, s) => s
  | (none, s) =>
    s.cacheLookup jfn rfn (s.file2hash sha1 rfn) s.now
      ((s.files rfn).elim 0 fun f => f.content.length)

def travKey (k : Str) : Option (SrvCache H) :=
  let (o, lookupCache) := s.lookupCache.get s.now k
  let s := { s with lookupCache := lookupCache }
  match o with
  | none => none
  | some o => match s.files o.rfn with
    | none => some ({ s with
      lookupCache := s.lookupCache.remove s.now k
      noentCache := s.noentCache.insert s.now ⟨k, o.rfn⟩ }.addDelta k)
    | some f =>
      if o.ctime < f.ctime ∨ o.size ≠ f.content.length then
        some ({ s with lookupCache := s.lookupCache.remove s.now k }.addDelta k)
      else if o.ctime = f.ctime ∧ f.ctime < s.now then
        if s.file2hash sha1 o.rfn ≠ some o.hash then
          some ({ s with lookupCache := s.lookupCache.remove s.now k }.addDelta k)
        else some { s with
          lookupCache := s.lookupCache.modify k CachedLookup.incCtime key_incCtime }
      else some s

def travNkey (k : Str) : Option (SrvCache H) :=
  let (o, noentCache) := s.noentCache.get s.now k
  let s := { s with noentCache := noentCache }
  match o with
  | none => none
  | some o =>
    if (s.files o.rfn).isSome then
      some { s with noentCache := s.noentCache.remove s.now k }
    else some s

/-- The two traversals of `refresh_delta_set`. -/
def traverse : Option (SrvCache H) := do
  let s := { s with lookupCache := s.lookupCache.expire s.now }
  let s ← s.lookupCache.keys.foldlM (travKey sha1) s
  let s := { s with noentCache := s.noentCache.expire s.now }
  s.noentCache.keys.foldlM travNkey s

/-- The files differ since now, if they did not before. -/
def observe : SrvCache H := { s with
  since := fun k => match s.lookupCache.find k with
    | none => none
    | some o =>
      if s.file2hash sha1 o.rfn = some o.hash then none else some ((s.since k).getD s.now) }

inductive Event
  | getfile (jfn : Str)
  | modify (rfn : Str) (content : Str) (regular : Bool)
  | delete (rfn : Str)
  | advance (secs : Nat)
  | refresh

def act : Event → Option (SrvCache H)
  | .getfile jfn => some (s.getfile sha1 jail2real jfn)
  | .modify rfn content regular => some { s with
    files := fun f => if f = rfn then some ⟨content, regular, s.now⟩ else s.files f }
  | .delete rfn => some { s with files := fun f => if f = rfn then none else s.files f }
  | .advance secs => some { s with now := s.now + secs }
  | .refresh => do
    let s ← s.traverse sha1
    -- the set gets its serial and goes to the services
    return { s with deltaSet := [] }

def step (e : Event) : Option (SrvCache H) := (s.act sha1 jail2real e).map (observe sha1)

def system : Lib.System (SrvCache H) Event where
  init s := s.lookupCache = .empty 0 false ∧ (∃ timeout, s.noentCache = .empty timeout false) ∧
    s.deltaSet = [] ∧ ∀ k, s.since k = none
  step := step sha1 jail2real

def Exclusive : Prop := ∀ k ∈ s.lookupCache.keys, k ∉ s.noentCache.keys

/-- The file differs from what is cached, and has done so since before this second. -/
def Overdue (o : CachedLookup H) : Prop :=
  s.file2hash sha1 o.rfn ≠ some o.hash ∧ ∃ time ∈ s.since o.jfn, time < s.now

/-- What holds before the differences are noted, and `Inv` after. -/
structure Good : Prop where
  lookupTimeout : s.lookupCache.timeout = 0
  lookupRejuvenates : s.lookupCache.rejuvenates = false
  noentRejuvenates : s.noentCache.rejuvenates = false
  ordered : s.noentCache.Ordered s.now
  exclusive : s.Exclusive
  ctime : ∀ o ∈ s.lookupCache.vals, o.ctime ≤ s.now
  stale : ∀ o ∈ s.lookupCache.vals, s.file2hash sha1 o.rfn ≠ some o.hash →
    o.ctime ≤ (s.since o.jfn).getD s.now ∧
    ∀ f, s.files o.rfn = some f → (s.since o.jfn).getD s.now ≤ f.ctime
  since : ∀ k time, s.since k = some time → time ≤ s.now

structure Inv : Prop extends Good sha1 s where
  told : ∀ o ∈ s.lookupCache.vals, s.since o.jfn = none ↔ s.file2hash sha1 o.rfn = some o.hash

section Invariant

variable {sha1 : Str → H} {jail2real : Str → Str} {s t : SrvCache H} {k : Str}
  {o : CachedLookup H}

omit [DecidableEq H]

theorem mem_keys_of_mem (h : o ∈ s.lookupCache.vals) : o.jfn ∈ s.lookupCache.keys :=
  Timehash.mem_keys.mpr ⟨o, h, rfl⟩

structure Frame (s t : SrvCache H) : Prop where
  now : t.now = s.now
  files : t.files = s.files
  since : t.since = s.since
  deltaSet : s.deltaSet ⊆ t.deltaSet
  keys : t.lookupCache.keys ⊆ s.lookupCache.keys

theorem Frame.refl (s : SrvCache H) : s.Frame s :=
  ⟨rfl, rfl, rfl, List.Subset.refl _, List.Subset.refl _⟩

theorem Frame.trans {u : SrvCache H} (h : s.Frame t) (h' : t.Frame u) : s.Frame u :=
  ⟨h'.now.trans h.now, h'.files.trans h.files, h'.since.trans h.since,
    List.Subset.trans h.deltaSet h'.deltaSet, List.Subset.trans h'.keys h.keys⟩

theorem Frame.file2hash (h : s.Frame t) (rfn : Str) :
    t.file2hash sha1 rfn = s.file2hash sha1 rfn := by
  rw [SrvCache.file2hash, h.files]
  rfl

theorem Frame.overdue (h : s.Frame t) : t.Overdue sha1 o ↔ s.Overdue sha1 o := by
  rw [Overdue, Overdue, h.file2hash, h.since, h.now]

theorem Inv.shrink {c : Timehash (CachedLookup H)} {n : Timehash JailedFile} (h : s.Inv sha1)
    (d : List Str) (htimeout : c.timeout = 0) (hc : c.rejuvenates = false)
    (hvals : c.vals ⊆ s.lookupCache.vals) (hn : n.rejuvenates = false) (hord : n.Ordered s.now)
    (hex : ∀ k ∈ c.keys, k ∉ n.keys) :
    Inv sha1 { s with lookupCache := c, noentCache := n, deltaSet := d } := by
  refine ⟨⟨htimeout, hc, hn, hord, hex, ?_, ?_, h.since⟩, ?_⟩
  · intro o ho
    exact h.ctime o (hvals ho)
  · intro o ho
    exact h.stale o (hvals ho)
  · intro o ho
    exact h.told o (hvals ho)

theorem Inv.incCtime (h : s.Inv sha1) (hfind : s.lookupCache.find k = some o)
    (hlt : o.ctime < s.now) (hhash : s.file2hash sha1 o.rfn = some o.hash) :
    Inv sha1 { s with
      lookupCache := s.lookupCache.modify k CachedLookup.incCtime key_incCtime } := by
  obtain ⟨ho, hk⟩ := Timehash.find_eq_some.mp hfind
  -- an entry is as it was, or is this one with the next second
  have hvals : ∀ w ∈ (s.lookupCache.modify k CachedLookup.incCtime key_incCtime).vals,
      w = o.incCtime ∨ w ∈ s.lookupCache.vals := by
    intro w hw
    obtain ⟨v, hv, rfl⟩ := Timehash.mem_vals_modify.mp hw
    split
    · next hkey => exact .inl (by rw [Timehash.eq_of_key_eq hv ho (hkey.trans hk.symm)])
    · exact .inr hv
  have hex : ∀ k' ∈ (s.lookupCache.modify k CachedLookup.incCtime key_incCtime).keys,
      k' ∉ s.noentCache.keys := by
    rw [Timehash.keys_modify]
    exact h.exclusive
  refine ⟨⟨h.lookupTimeout, h.lookupRejuvenates, h.noentRejuvenates, h.ordered, hex, ?_, ?_,
    h.since⟩, ?_⟩
  · intro w hw
    obtain rfl | hw := hvals w hw
    · exact hlt
    · exact h.ctime w hw
  · intro w hw hne
    obtain rfl | hw := hvals w hw
    · exact absurd hhash hne
    · exact h.stale w hw hne
  · intro w hw
    obtain rfl | hw := hvals w hw
    · exact h.told o ho
    · exact h.told w hw

structure Visited (sha1 : Str → H) (s t : SrvCache H) (k : Str) : Prop where
  inv : t.Inv sha1
  frame : s.Frame t
  others : ∀ k' ≠ k, t.lookupCache.find k' = s.lookupCache.find k'
  overdue : ∀ o, s.lookupCache.find k = some o → s.Overdue sha1 o →
    k ∉ t.lookupCache.keys ∧ k ∈ t.deltaSet

theorem Inv.forget {n : Timehash JailedFile} (h : s.Inv sha1) (k : Str)
    (hn : n.rejuvenates = false) (hord : n.Ordered s.now)
    (hex : ∀ k' ∈ n.keys, k' = k ∨ k' ∈ s.noentCache.keys) :
    Visited sha1 s ({ s with
      lookupCache := s.lookupCache.remove s.now k, noentCache := n }.addDelta k) k := by
  have hnot : k ∉ (s.lookupCache.remove s.now k).keys := Timehash.not_mem_keys_remove _ _ _
  have hkeys : (s.lookupCache.remove s.now k).keys ⊆ s.lookupCache.keys :=
    Timehash.keys_remove_subset
  constructor
  · refine h.shrink _ ?_ ?_ ?_ hn hord ?_
    · rw [Timehash.remove_timeout]
      exact h.lookupTimeout
    · rw [Timehash.remove_rejuvenates]
      exact h.lookupRejuvenates
    · intro o ho
      exact ((Timehash.mem_vals_remove h.lookupTimeout).mp ho).1
    · intro k' hk' hmem
      obtain rfl | hmem := hex k' hmem
      · exact hnot hk'
      · exact h.exclusive k' (hkeys hk') hmem
  · exact ⟨rfl, rfl, rfl, fun _ hd => List.mem_insert_of_mem hd, hkeys⟩
  · intro k' hne
    exact Timehash.find_remove_of_ne h.lookupTimeout hne
  · intro o _ _
    exact ⟨hnot, List.mem_insert_self⟩

structure NVisited (sha1 : Str → H) (s t : SrvCache H) (k : Str) : Prop where
  inv : t.Inv sha1
  lookupCache : t.lookupCache = s.lookupCache
  deltaSet : t.deltaSet = s.deltaSet
  unexpired : t.noentCache.Unexpired t.now
  others : ∀ k' ≠ k, k' ∈ s.noentCache.keys → k' ∈ t.noentCache.keys

theorem Inv.nvisit (h : s.Inv sha1) (hun : s.noentCache.Unexpired s.now)
    (hk : k ∈ s.noentCache.keys) : ∃ t, s.travNkey k = some t ∧ NVisited sha1 s t k := by
  unfold travNkey
  rw [hun.get_eq h.noentRejuvenates]
  cases hfind : s.noentCache.find k with
  | none => exact absurd hk (Timehash.find_eq_none.mp hfind)
  | some o =>
    dsimp only
    split
    · refine ⟨_, rfl, ?_, rfl, rfl, hun.remove, ?_⟩
      · refine h.shrink _ h.lookupTimeout h.lookupRejuvenates (List.Subset.refl _) ?_
          h.ordered.remove fun k' hk' hmem => h.exclusive k' hk' (Timehash.keys_remove_subset hmem)
        rw [Timehash.remove_rejuvenates]
        exact h.noentRejuvenates
      · intro k' hne hmem
        obtain ⟨v, hv, rfl⟩ := Timehash.mem_keys.mp hmem
        refine Timehash.mem_keys.mpr ⟨v, ?_, rfl⟩
        rw [Timehash.remove, hun.expire_eq]
        exact Timehash.mem_vals_removeNode.mpr ⟨hv, hne⟩
    · exact ⟨_, rfl, h, rfl, rfl, hun, fun _ _ hmem => hmem⟩

theorem Inv.nvisitAll {ks : List Str} (h : s.Inv sha1) (hun : s.noentCache.Unexpired s.now)
    (hks : ks ⊆ s.noentCache.keys) (hnodup : ks.Nodup) :
    ∃ t, ks.foldlM travNkey s = some t ∧ t.Inv sha1 ∧ t.lookupCache = s.lookupCache ∧
      t.deltaSet = s.deltaSet := by
  induction ks generalizing s with
  | nil => exact ⟨s, rfl, h, rfl, rfl⟩
  | cons k ks ih =>
    obtain ⟨hk, hks⟩ := List.cons_subset.mp hks
    obtain ⟨hnot, hnodup⟩ := List.nodup_cons.mp hnodup
    obtain ⟨u, hu, hv⟩ := h.nvisit hun hk
    have hks' : ks ⊆ u.noentCache.keys := by
      intro k' hk'
      exact hv.others k' (fun heq => hnot (heq ▸ hk')) (hks hk')
    obtain ⟨t, ht, hinv, hlookup, hdelta⟩ := ih hv.inv hv.unexpired hks' hnodup
    refine ⟨t, ?_, hinv, hlookup.trans hv.lookupCache, hdelta.trans hv.deltaSet⟩
    rw [List.foldlM_cons, hu]
    exact ht

theorem Inv.lookup (h : s.Inv sha1) (k : Str) : (s.lookup k).2.Inv sha1 ∧
    ((s.lookup k).1 = none → k ∉ (s.lookup k).2.noentCache.keys ∧
      k ∉ (s.lookup k).2.lookupCache.keys) := by
  unfold SrvCache.lookup
  rw [Timehash.get_of_timeout h.lookupTimeout h.lookupRejuvenates]
  cases hfind : s.lookupCache.find k with
  | some o => exact ⟨h, nofun⟩
  | none =>
    have hsub : (s.noentCache.rejuvenate s.now k).2.keys ⊆ s.noentCache.keys :=
      Timehash.keys_subset Timehash.vals_rejuvenate_subset
    constructor
    · refine h.shrink _ h.lookupTimeout h.lookupRejuvenates (List.Subset.refl _) ?_
        h.ordered.rejuvenate fun k' hk' hmem => h.exclusive k' hk' (hsub hmem)
      rw [Timehash.rejuvenate_rejuvenates]
      exact h.noentRejuvenates
    · intro hnone
      refine ⟨fun hmem => ?_, Timehash.find_eq_none.mp hfind⟩
      have hfound : (s.noentCache.rejuvenate s.now k).1 = true :=
        Timehash.rejuvenate_fst.mpr (hsub hmem)
      dsimp only at hnone
      rw [hfound] at hnone
      cases hnone

theorem Inv.modify (h : s.Inv sha1) {files : Str → Option PubFile} (hfiles : ∀ rfn f,
      files rfn = some f → s.files rfn = some f ∨ f.ctime = s.now) :
    Good sha1 { s with files := files } := by
  refine ⟨h.lookupTimeout, h.lookupRejuvenates, h.noentRejuvenates, h.ordered, h.exclusive,
    h.ctime, ?_, h.since⟩
  intro o ho hdiff
  have htold := h.told o ho
  cases hsince : s.since o.jfn with
  | none =>
    -- the file is as it was, or changes now
    refine ⟨h.ctime o ho, fun f hf => ?_⟩
    obtain hold | hnow := hfiles o.rfn f hf
    · refine absurd ?_ hdiff
      change files o.rfn = some f at hf
      rw [← htold.mp hsince]
      simp only [SrvCache.file2hash, hold, hf]
    · exact Nat.le_of_eq hnow.symm
  | some time =>
    have hne : s.file2hash sha1 o.rfn ≠ some o.hash := by
      intro heq
      rw [htold.mpr heq] at hsince
      cases hsince
    obtain ⟨hle, hold⟩ := h.stale o ho hne
    rw [hsince] at hle hold
    refine ⟨hle, fun f hf => ?_⟩
    obtain hf | hf := hfiles o.rfn f hf
    · exact hold f hf
    · rw [hf]
      exact h.since o.jfn time hsince

theorem Inv.advance (h : s.Inv sha1) (secs : Nat) :
    Good sha1 { s with now := s.now + secs } := by
  refine ⟨h.lookupTimeout, h.lookupRejuvenates, h.noentRejuvenates,
    h.ordered.mono (Nat.le_add_right _ _), h.exclusive, ?_, ?_, ?_⟩
  · intro o ho
    exact Nat.le_trans (h.ctime o ho) (Nat.le_add_right _ _)
  · intro o ho hne
    have htold := h.told o ho
    have hstale := h.stale o ho hne
    cases hsince : s.since o.jfn with
    | none => exact absurd (htold.mp hsince) hne
    | some time =>
      rw [hsince] at hstale
      exact hstale
  · intro k time htime
    exact Nat.le_trans (h.since k time htime) (Nat.le_add_right _ _)

theorem Inv.overdue {f : PubFile} (h : s.Inv sha1) (ho : o ∈ s.lookupCache.vals)
    (hf : s.files o.rfn = some f) (hne : s.file2hash sha1 o.rfn ≠ some o.hash)
    (hlt : f.ctime < s.now) : s.Overdue sha1 o := by
  obtain ⟨-, hfile⟩ := h.stale o ho hne
  cases hsince : s.since o.jfn with
  | none => exact absurd ((h.told o ho).mp hsince) hne
  | some time =>
    rw [hsince] at hfile
    exact ⟨hne, time, hsince, Nat.lt_of_le_of_lt (hfile f hf) hlt⟩

variable [DecidableEq H]

theorem observe_since (ho : o ∈ s.lookupCache.vals) : (s.observe sha1).since o.jfn =
    if s.file2hash sha1 o.rfn = some o.hash then none else some ((s.since o.jfn).getD s.now) := by
  have hfind : s.lookupCache.find o.jfn = some o := Timehash.find_eq_some.mpr ⟨ho, rfl⟩
  simp only [SrvCache.observe, hfind]

theorem Good.observe (h : s.Good sha1) : (s.observe sha1).Inv sha1 := by
  refine ⟨⟨h.lookupTimeout, h.lookupRejuvenates, h.noentRejuvenates, h.ordered, h.exclusive,
    h.ctime, ?_, ?_⟩, ?_⟩
  · intro o ho hne
    change o ∈ s.lookupCache.vals at ho
    change s.file2hash sha1 o.rfn ≠ some o.hash at hne
    rw [observe_since ho, if_neg hne]
    exact h.stale o ho hne
  · intro k time htime
    have hsince := h.since k
    simp only [SrvCache.observe] at htime ⊢
    split at htime
    · cases htime
    · split at htime
      · cases htime
      · cases htime
        cases hk : s.since k with
        | none => exact Nat.le_refl _
        | some time => exact hsince time hk
  · intro o ho
    change o ∈ s.lookupCache.vals at ho
    rw [observe_since ho]
    change _ ↔ s.file2hash sha1 o.rfn = some o.hash
    split <;> simp [*]

theorem Inv.visit (h : s.Inv sha1) (hk : k ∈ s.lookupCache.keys) :
    ∃ t, s.travKey sha1 k = some t ∧ Visited sha1 s t k := by
  cases hfind : s.lookupCache.find k with
  | none => exact absurd hk (Timehash.find_eq_none.mp hfind)
  | some o =>
    obtain ⟨ho, hkey⟩ := Timehash.find_eq_some.mp hfind
    unfold travKey
    rw [Timehash.get_of_timeout h.lookupTimeout h.lookupRejuvenates, hfind]
    dsimp only
    cases hf : s.files o.rfn with
    | none =>
      refine ⟨_, rfl, h.forget k ?_ h.ordered.insert ?_⟩
      · rw [Timehash.insert_rejuvenates]
        exact h.noentRejuvenates
      · intro k' hk'
        exact List.mem_cons.mp (Timehash.keys_insert_subset hk')
    | some f =>
      dsimp only
      split
      · exact ⟨_, rfl, h.forget k h.noentRejuvenates h.ordered fun _ hk' => .inr hk'⟩
      · next hnot =>
        have hover : s.Overdue sha1 o → o.ctime = f.ctime ∧ f.ctime < s.now := by
          rintro ⟨hne, time, htime, hlt⟩
          obtain ⟨hle, hfile⟩ := h.stale o ho hne
          rw [htime] at hle hfile
          have := hfile f hf
          grind
        split
        · next heq =>
          split
          · exact ⟨_, rfl, h.forget k h.noentRejuvenates h.ordered fun _ hk' => .inr hk'⟩
          · next hhash =>
            have hhash : s.file2hash sha1 o.rfn = some o.hash := by simpa using hhash
            refine ⟨_, rfl, h.incCtime hfind (by grind) hhash, ?_, ?_, ?_⟩
            · exact ⟨rfl, rfl, rfl, List.Subset.refl _, by simp⟩
            · intro k' hne
              exact Timehash.find_modify_of_ne key_incCtime hne
            · intro o' ho' hover
              cases hfind.symm.trans ho'
              exact absurd hhash hover.1
        · next hne =>
          refine ⟨_, rfl, h, .refl _, fun _ _ => rfl, ?_⟩
          intro o' ho' ho
          cases hfind.symm.trans ho'
          exact absurd (hover ho) hne

theorem Inv.visitAll {ks : List Str} (h : s.Inv sha1) (hks : ks ⊆ s.lookupCache.keys)
    (hnodup : ks.Nodup) : ∃ t, ks.foldlM (SrvCache.travKey sha1) s = some t ∧ t.Inv sha1 ∧
      s.Frame t ∧ ∀ k ∈ ks, ∀ o, s.lookupCache.find k = some o → s.Overdue sha1 o →
        k ∉ t.lookupCache.keys ∧ k ∈ t.deltaSet := by
  induction ks generalizing s with
  | nil => exact ⟨s, rfl, h, .refl s, nofun⟩
  | cons k ks ih =>
    obtain ⟨hk, hks⟩ := List.cons_subset.mp hks
    obtain ⟨hnot, hnodup⟩ := List.nodup_cons.mp hnodup
    obtain ⟨u, hu, hv⟩ := h.visit hk
    have hks' : ks ⊆ u.lookupCache.keys := by
      intro k' hk'
      have hne : k' ≠ k := fun heq => hnot (heq ▸ hk')
      by_contra hmem
      have hnone := Timehash.find_eq_none.mpr hmem
      rw [hv.others k' hne] at hnone
      exact Timehash.find_eq_none.mp hnone (hks hk')
    obtain ⟨t, ht, hinv, hframe, hover⟩ := ih hv.inv hks' hnodup
    refine ⟨t, ?_, hinv, hv.frame.trans hframe, ?_⟩
    · rw [List.foldlM_cons, hu]
      exact ht
    · intro k' hk' o ho hoverdue
      obtain rfl | hk' := List.mem_cons.mp hk'
      · obtain ⟨hgone, hdelta⟩ := hv.overdue o ho hoverdue
        exact ⟨fun hmem => hgone (hframe.keys hmem), hframe.deltaSet hdelta⟩
      · have hne : k' ≠ k := fun heq => hnot (heq ▸ hk')
        rw [← hv.others k' hne] at ho
        exact hover k' hk' o ho (hv.frame.overdue.mpr hoverdue)

theorem Inv.traverse (h : s.Inv sha1) : ∃ t, s.traverse sha1 = some t ∧ t.Inv sha1 ∧
    ∀ o ∈ s.lookupCache.vals, s.Overdue sha1 o →
      o.jfn ∉ t.lookupCache.keys ∧ o.jfn ∈ t.deltaSet := by
  have hexpire : s.lookupCache.expire s.now = s.lookupCache :=
    Timehash.expire_of_timeout h.lookupTimeout
  obtain ⟨u, hu, hinv, hframe, hover⟩ := h.visitAll (List.Subset.refl _) s.lookupCache.nodup
  have hn : Inv sha1 { u with noentCache := u.noentCache.expire u.now } := by
    refine hinv.shrink _ hinv.lookupTimeout hinv.lookupRejuvenates (List.Subset.refl _) ?_
      hinv.ordered.expire ?_
    · rw [Timehash.expire_rejuvenates]
      exact hinv.noentRejuvenates
    · intro k hk hmem
      exact hinv.exclusive k hk (Timehash.keys_subset Timehash.vals_expire_subset hmem)
  obtain ⟨t, ht, hinv', hlookup, hdelta⟩ := hn.nvisitAll hinv.ordered.unexpired_expire
    (List.Subset.refl _) (u.noentCache.expire u.now).nodup
  refine ⟨t, ?_, hinv', ?_⟩
  · unfold SrvCache.traverse
    dsimp only
    rw [hexpire]
    rw [show s.lookupCache.keys.foldlM (SrvCache.travKey sha1) s = some u from hu]
    exact ht
  · intro o ho hoverdue
    have := hover o.jfn (mem_keys_of_mem ho) o (Timehash.find_eq_some.mpr ⟨ho, rfl⟩) hoverdue
    rw [hlookup, hdelta]
    exact this

theorem Inv.cacheLookup {rfn : Str} (h : s.Inv sha1) (hnoent : k ∉ s.noentCache.keys)
    (hlookup : k ∉ s.lookupCache.keys) (sz : Nat) :
    (s.cacheLookup k rfn (s.file2hash sha1 rfn) s.now sz).Good sha1 := by
  unfold SrvCache.cacheLookup
  rw [Timehash.get_of_timeout h.lookupTimeout h.lookupRejuvenates,
    Timehash.find_eq_none.mpr hlookup]
  cases hhash : s.file2hash sha1 rfn with
  | some hsh =>
    let o : CachedLookup H := ⟨k, rfn, hsh, s.now, sz⟩
    have hvals : ∀ w ∈ (s.lookupCache.insert s.now o).vals, w = o ∨ w ∈ s.lookupCache.vals :=
      fun w hw => Timehash.vals_insert_subset hw
    refine ⟨?_, ?_, h.noentRejuvenates, h.ordered, ?_, ?_, ?_, h.since⟩
    · exact Timehash.insert_timeout.trans h.lookupTimeout
    · exact Timehash.insert_rejuvenates.trans h.lookupRejuvenates
    · intro k' hk'
      obtain rfl | hk' := List.mem_cons.mp (Timehash.keys_insert_subset hk')
      · exact hnoent
      · exact h.exclusive k' hk'
    · intro w hw
      obtain rfl | hw := hvals w hw
      · exact Nat.le_refl s.now
      · exact h.ctime w hw
    · intro w hw hne
      obtain rfl | hw := hvals w hw
      · exact absurd hhash hne
      · exact h.stale w hw hne
  | none =>
    dsimp only
    have hget : (s.noentCache.get s.now k).2 = s.noentCache.expire s.now :=
      Timehash.get_snd h.noentRejuvenates
    rw [hget]
    have hexpire : ∀ k' ∈ (s.noentCache.expire s.now).keys, k' ∈ s.noentCache.keys :=
      fun k' hk' => Timehash.keys_subset Timehash.vals_expire_subset hk'
    refine (h.shrink s.deltaSet h.lookupTimeout h.lookupRejuvenates (List.Subset.refl _)
      ?_ ?_ ?_).toGood
    · split
      · rw [Timehash.expire_rejuvenates]
        exact h.noentRejuvenates
      · rw [Timehash.insert_rejuvenates, Timehash.expire_rejuvenates]
        exact h.noentRejuvenates
    · split
      · exact h.ordered.expire
      · exact h.ordered.expire.insert
    · intro k' hk' hmem
      split at hmem
      · exact h.exclusive k' hk' (hexpire k' hmem)
      · obtain rfl | hmem := List.mem_cons.mp (Timehash.keys_insert_subset hmem)
        · exact hlookup hk'
        · exact h.exclusive k' hk' (hexpire k' hmem)

theorem Inv.getfile (h : s.Inv sha1) (jfn : Str) : (s.getfile sha1 jail2real jfn).Good sha1 := by
  obtain ⟨hinv, hnone⟩ := h.lookup jfn
  unfold SrvCache.getfile
  dsimp only
  split
  · next t heq =>
    rw [heq] at hinv
    exact hinv.toGood
  · next t heq =>
    rw [heq] at hinv hnone
    exact hinv.cacheLookup (hnone rfl).1 (hnone rfl).2 _

theorem Inv.act {e : Event} (h : s.Inv sha1) (hs : s.act sha1 jail2real e = some t) :
    t.Good sha1 := by
  cases e with
  | getfile jfn =>
    cases hs
    exact h.getfile jfn
  | modify rfn content regular =>
    cases hs
    refine h.modify fun rfn' f hf => ?_
    split at hf
    · cases hf
      exact .inr rfl
    · exact .inl hf
  | delete rfn =>
    cases hs
    refine h.modify fun rfn' f hf => ?_
    split at hf
    · cases hf
    · exact .inl hf
  | advance secs =>
    cases hs
    exact h.advance secs
  | refresh =>
    obtain ⟨u, hu, hinv, -⟩ := h.traverse
    rw [SrvCache.act, hu] at hs
    cases hs
    exact (hinv.shrink [] hinv.lookupTimeout hinv.lookupRejuvenates (List.Subset.refl _)
      hinv.noentRejuvenates hinv.ordered hinv.exclusive).toGood

theorem Inv.reach (h : (system sha1 jail2real).Reachable s) : s.Inv sha1 := by
  refine Lib.System.Reach.invariant (I := Inv sha1) ?_ ?_ h
  · rintro s ⟨hlookup, ⟨timeout, hnoent⟩, -, hsince⟩
    have hvals : ∀ o, o ∉ s.lookupCache.vals := by simp [hlookup, Timehash.empty, Timehash.vals]
    refine ⟨⟨?_, ?_, ?_, ?_, ?_, ?_, ?_, ?_⟩, ?_⟩
    · rw [hlookup]
      rfl
    · rw [hlookup]
      rfl
    · rw [hnoent]
      rfl
    · rw [hnoent]
      exact ⟨.nil, by rintro _ ⟨⟩⟩
    · rw [Exclusive, hlookup]
      rintro _ ⟨⟩
    · exact fun o ho => absurd ho (hvals o)
    · exact fun o ho => absurd ho (hvals o)
    · intro k time htime
      rw [hsince] at htime
      cases htime
    · exact fun o ho => absurd ho (hvals o)
  · intro s e t _ hi _ hs
    obtain ⟨u, hu, rfl⟩ := Option.map_eq_some_iff.mp hs
    exact (hi.act hu).observe

/-- No name is in both caches; and the traversals end, and after them the entries whose files have
differed since before this second have gone, with their names in the delta set. -/
theorem changes_noticed (h : (system sha1 jail2real).Reachable s) : s.Exclusive ∧
    ∃ t, s.traverse sha1 = some t ∧ t.Exclusive ∧ ∀ o ∈ s.lookupCache.vals,
      s.Overdue sha1 o ∨ (s.file2hash sha1 o.rfn ≠ some o.hash ∧
        ∃ f, s.files o.rfn = some f ∧ f.ctime < s.now) →
      o.jfn ∉ t.lookupCache.keys ∧ o.jfn ∈ t.deltaSet := by
  have hinv := Inv.reach h
  obtain ⟨t, ht, hinv', hgone⟩ := hinv.traverse
  refine ⟨hinv.exclusive, t, ht, hinv'.exclusive, fun o ho hover => hgone o ho ?_⟩
  obtain hover | ⟨hne, f, hf, hlt⟩ := hover
  · exact hover
  · exact hinv.overdue ho hf hne hlt

end Invariant

section Run

def page : Str := ascii ['/', 'a']

def fresh : SrvCache Str where
  now := 5
  files := fun rfn => if rfn = page then some ⟨ascii ['x'], true, 5⟩ else none
  lookupCache := .empty 0 false
  noentCache := .empty 10 false
  deltaSet := []
  since := fun _ => none

/-- A file is changed, in the second in which it was looked up, to one of the same size. -/
theorem changes_noticed_page : ∃ s t : SrvCache Str, s.lookupCache.keys = [page] ∧
    s.traverse id = some t ∧ page ∉ t.lookupCache.keys ∧ page ∈ t.deltaSet := by
  have hreach := Lib.System.reachable_exec (M := system id id) (s := fresh)
    [.getfile page, .modify page (ascii ['y']) true, .advance 1]
    ⟨rfl, ⟨10, rfl⟩, rfl, fun _ => rfl⟩ rfl
  obtain ⟨-, t, ht, -, hgone⟩ := changes_noticed hreach
  have hpage := hgone ⟨page, page, ascii ['x'], 5, 1⟩ List.mem_cons_self
    (.inr ⟨by decide, ⟨ascii ['y'], true, 5⟩, rfl, by decide⟩)
  exact ⟨_, t, rfl, ht, hpage⟩

end Run

end SrvCache

end Okws
