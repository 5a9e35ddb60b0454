import Mathlib.Data.List.Nodup
import Mathlib.Data.List.Perm.Basic
import Mathlib.Logic.Function.Basic
import Mathlib.Algebra.BigOperators.Group.List.Basic
import Okws.Byte
import Okws.Lib.Transition

namespace Okws

/-- A `zstr` on the heap; `sccP` is `_scc_p`. -/
structure Zstr where
  text : Str
  sccP : Nat := 0
  deriving DecidableEq

structure ZtabConfig where
  minz : Nat
  maxz : Nat
  maxtot : Nat

/-- The objects are named by numbers, and `heap` holds those that have not been deleted.  `tab` is
a set whose elements are found by their text; `q` begins with the one to go next. -/
structure ZtabCache where
  tot : Nat := 0
  tab : List Nat := []
  q : List Nat := []
  cptab : Nat → Option Nat := fun _ => none
  heap : Nat → Option Zstr := fun _ => none
  fresh : Nat := 0

namespace ZtabCache

variable (cfg : ZtabConfig)

def text (c : ZtabCache) (z : Nat) : Str := ((c.heap z).map Zstr.text).getD []

def sccP (c : ZtabCache) (z : Nat) : Nat := ((c.heap z).map Zstr.sccP).getD 0

/-- `tab[s]`. -/
def find (c : ZtabCache) (s : Str) : Option Nat := c.tab.find? fun z => c.text z = s

/-- `lookup`, and what it returns. -/
def lookup (c : ZtabCache) (s : Str) : Option Nat × ZtabCache := match c.find s with
  | some z => (some z, { c with q := c.q.erase z ++ [z] })
  | none => (none, c)

/-- `remove`; `none` is a failed assertion, or the use of an object that is not there. -/
def remove (c : ZtabCache) (z : Nat) : Option ZtabCache := match c.heap z with
  | none => none
  | some o =>
    let c := { c with
      tot := c.tot - o.text.length, q := c.q.erase z, tab := c.tab.erase z
      heap := Function.update c.heap z none }
    if o.sccP = 0 then some c
    else match c.cptab o.sccP with
      | some _ => some { c with cptab := Function.update c.cptab o.sccP none }
      | none => none

/-- The loop of `make_room`; `zs` is the queue, which gets shorter from its head. -/
def evict (l : Nat) : List Nat → ZtabCache → Option ZtabCache
  | [], c => if c.tot + l > cfg.maxtot then none else some c
  | z :: zs, c => if c.tot + l > cfg.maxtot then (c.remove z).bind (evict l zs) else some c

def makeRoom (c : ZtabCache) (l : Nat) : Option ZtabCache := evict cfg l c.q c

/-- `New zstr`. -/
def new (c : ZtabCache) (o : Zstr) : ZtabCache :=
  { c with heap := Function.update c.heap c.fresh (some o), fresh := c.fresh + 1 }

def insert (c : ZtabCache) (z : Nat) : Option ZtabCache :=
  let tot := c.tot + (c.text z).length
  if tot > cfg.maxtot then none
  else some (if (c.find (c.text z)).isSome then { c with tot }
    else { c with tot, tab := c.tab ++ [z], q := c.q ++ [z] })

/-- `alloc` of a string, and the text of what it returns. -/
def alloc (c : ZtabCache) (s : Str) (lkp : Bool) : Option (Str × ZtabCache) :=
  match (if lkp then c.lookup s else (none, c)) with
  | (some z, c) => some (c.text z, c)
  | (none, c) =>
    if s.length ≥ cfg.minz ∧ s.length ≤ cfg.maxz ∧ cfg.maxtot ≠ 0 then
      (c.makeRoom cfg s.length).bind fun c =>
        ((c.new ⟨s, 0⟩).insert cfg c.fresh).map fun c' => (c'.text c.fresh, c')
    else some (s, c)

/-- Replaces `_scc_p`. -/
def setSccP (c : ZtabCache) (z p : Nat) : ZtabCache :=
  { c with heap := Function.update c.heap z ((c.heap z).map fun o => { o with sccP := p }) }

/-- `lookup` by a pointer, at which there is the text `s` now. -/
def lookupPtr (c : ZtabCache) (p : Nat) (s : Str) : Option Nat × ZtabCache := match c.cptab p with
  | none => (none, c)
  | some z =>
    if c.text z = s then (some z, c)
    else (none, { c.setSccP z 0 with cptab := Function.update c.cptab p none })

def allocPtr (c : ZtabCache) (p : Nat) (s : Str) (lkp : Bool) : Option (Str × ZtabCache) :=
  match (if lkp then c.lookupPtr p s else (none, c)) with
  | (some z, c) => some (c.text z, c)
  | (none, c) =>
    if s.length ≥ cfg.minz ∧ s.length ≤ cfg.maxz then
      (c.makeRoom cfg s.length).bind fun c =>
        ((c.new ⟨s, 0⟩).insert cfg c.fresh).map fun c' =>
          (c'.text c.fresh,
            { c'.setSccP c.fresh p with cptab := Function.update c'.cptab p (some c.fresh) })
    else some (s, c)

inductive Call
  | lookup (s : Str)
  | alloc (s : Str) (lkp : Bool)
  | lookupPtr (p : Nat) (s : Str)
  | allocPtr (p : Nat) (s : Str) (lkp : Bool)
  deriving DecidableEq

def call (c : ZtabCache) : Call → Option ZtabCache
  | .lookup s => some (c.lookup s).2
  | .alloc s lkp => (c.alloc cfg s lkp).map Prod.snd
  | .lookupPtr p s => some (c.lookupPtr p s).2
  | .allocPtr p s lkp => (c.allocPtr cfg p s lkp).map Prod.snd

def system : Lib.System ZtabCache Call where
  init c := c = {}
  step c e := c.call cfg e

/-- What is cached is in the table and in the queue, once, and counted. -/
structure Inv (c : ZtabCache) : Prop where
  same : c.tab.Perm c.q
  live : ∀ z ∈ c.q, (c.heap z).isSome = true
  distinct : (c.q.map c.text).Nodup
  tot : c.tot = (c.q.map fun z => (c.text z).length).sum
  bound : c.tot ≤ cfg.maxtot
  pointer : ∀ p z, c.cptab p = some z → z ∈ c.q ∧ c.sccP z = p

/-- The pointer of an object leads back to it. -/
structure Linked (c : ZtabCache) : Prop where
  back : ∀ z ∈ c.q, c.sccP z ≠ 0 → c.cptab (c.sccP z) = some z
  null : c.cptab 0 = none
  fresh : ∀ z, c.fresh ≤ z → c.heap z = none

structure Good (c : ZtabCache) : Prop where
  inv : Inv cfg c
  linked : Linked c

section Good

variable {cfg} {c : ZtabCache} {z : Nat} {s : Str}

theorem find_none : c.find s = none ↔ ∀ z ∈ c.tab, c.text z ≠ s := by
  simp [find]

theorem good_empty : Good cfg {} where
  inv := ⟨.nil, nofun, .nil, rfl, Nat.zero_le _, nofun⟩
  linked := ⟨nofun, rfl, fun _ _ => rfl⟩

theorem Good.perm {q : List Nat} (h : Good cfg c) (hq : q.Perm c.q) :
    Good cfg { c with q := q } where
  inv :=
    { same := h.inv.same.trans hq.symm
      live := fun z hz => h.inv.live z (hq.mem_iff.1 hz)
      distinct := (hq.map c.text).nodup_iff.2 h.inv.distinct
      tot := h.inv.tot.trans ((hq.map fun z => (c.text z).length).sum_eq).symm
      bound := h.inv.bound
      pointer := fun p z hp => ⟨hq.mem_iff.2 (h.inv.pointer p z hp).1, (h.inv.pointer p z hp).2⟩ }
  linked := ⟨fun z hz => h.linked.back z (hq.mem_iff.1 hz), h.linked.null, h.linked.fresh⟩

theorem Good.lookup (h : Good cfg c) (s : Str) : Good cfg (c.lookup s).2 := by
  unfold ZtabCache.lookup
  split
  · next z hz =>
    have hmem : z ∈ c.q := h.inv.same.mem_iff.1 (List.mem_of_find?_eq_some hz)
    exact h.perm ((List.perm_append_singleton z (c.q.erase z)).trans
      (List.perm_cons_erase hmem).symm)
  · exact h

/-- What is left of a cache when some of its objects are gone. -/
structure Less (c c' : ZtabCache) : Prop where
  fresh : c'.fresh = c.fresh
  tab : ∀ z ∈ c'.tab, z ∈ c.tab ∧ c'.text z = c.text z
  cptab : ∀ p, c.cptab p = none → c'.cptab p = none

theorem Less.refl (c : ZtabCache) : Less c c := ⟨rfl, fun _ hz => ⟨hz, rfl⟩, fun _ h => h⟩

theorem Less.trans {c c' c'' : ZtabCache} (h : Less c c') (h' : Less c' c'') : Less c c'' where
  fresh := h'.fresh.trans h.fresh
  tab z hz := ⟨(h.tab z (h'.tab z hz).1).1, (h'.tab z hz).2.trans (h.tab z (h'.tab z hz).1).2⟩
  cptab p hp := h'.cptab p (h.cptab p hp)

theorem Less.find {c c' : ZtabCache} (h : Less c c') (hs : c.find s = none) : c'.find s = none := by
  rw [find_none] at hs ⊢
  intro z hz
  rw [(h.tab z hz).2]
  exact hs z (h.tab z hz).1

theorem text_of_heap {c c' : ZtabCache} (h : c'.heap z = c.heap z) :
    c'.text z = c.text z ∧ c'.sccP z = c.sccP z := by
  simp [text, sccP, h]

theorem Good.nodup (h : Good cfg c) : c.q.Nodup := List.Nodup.of_map _ h.inv.distinct

/-- `c'` is `c` without `z`, the head of its queue. -/
structure Dropped (c c' : ZtabCache) (z : Nat) (zs : List Nat) : Prop where
  before : c.q = z :: zs
  q : c'.q = zs
  tab : c'.tab = c.tab.erase z
  tot : c'.tot = c.tot - (c.text z).length
  heap : c'.heap = Function.update c.heap z none
  cptab : ∀ p, c'.cptab p = if p = c.sccP z then none else c.cptab p
  fresh : c'.fresh = c.fresh

section Dropped

variable {c' : ZtabCache} {zs : List Nat}

theorem Dropped.other {z' : Nat} (h : Dropped c c' z zs) (hz : z' ≠ z) :
    c'.text z' = c.text z' ∧ c'.sccP z' = c.sccP z' :=
  text_of_heap (by rw [h.heap, Function.update_of_ne hz])

theorem Dropped.ne {z' : Nat} (h : Dropped c c' z zs) (hg : Good cfg c) (hz : z' ∈ zs) :
    z' ≠ z := by
  rintro rfl
  have hnodup := hg.nodup
  rw [h.before, List.nodup_cons] at hnodup
  exact hnodup.1 hz

theorem Dropped.inv (h : Dropped c c' z zs) (hg : Good cfg c) : Inv cfg c' where
  same := by
    rw [h.tab, h.q]
    have hperm := hg.inv.same.erase z
    rwa [h.before, List.erase_cons_head] at hperm
  live := by
    intro z' hz'
    rw [h.q] at hz'
    rw [h.heap, Function.update_of_ne (h.ne hg hz')]
    exact hg.inv.live z' (by rw [h.before]; exact List.mem_cons_of_mem z hz')
  distinct := by
    have hmap : zs.map c'.text = zs.map c.text :=
      List.map_congr_left fun z' hz' => (h.other (h.ne hg hz')).1
    have hdist := hg.inv.distinct
    rw [h.before, List.map_cons, List.nodup_cons] at hdist
    rw [h.q, hmap]
    exact hdist.2
  tot := by
    have hmap : (zs.map fun z' => (c'.text z').length) = zs.map fun z' => (c.text z').length :=
      List.map_congr_left fun z' hz' => by rw [(h.other (h.ne hg hz')).1]
    have htot := hg.inv.tot
    rw [h.before, List.map_cons, List.sum_cons] at htot
    rw [h.tot, h.q, hmap, htot, Nat.add_sub_cancel_left]
  bound := by
    rw [h.tot]
    exact Nat.le_trans (Nat.sub_le _ _) hg.inv.bound
  pointer := by
    intro p z' hp
    rw [h.cptab] at hp
    split at hp
    · cases hp
    · next hne =>
      obtain ⟨hmem, hptr⟩ := hg.inv.pointer p z' hp
      have hz' : z' ≠ z := fun he => hne (by rw [← he, hptr])
      rw [h.before] at hmem
      rw [h.q, (h.other hz').2]
      exact ⟨List.mem_of_ne_of_mem hz' hmem, hptr⟩

theorem Dropped.linked (h : Dropped c c' z zs) (hg : Good cfg c) : Linked c' where
  back := by
    intro z' hz' hne
    rw [h.q] at hz'
    have hz'z := h.ne hg hz'
    rw [(h.other hz'z).2] at hne ⊢
    have hback := hg.linked.back z' (by rw [h.before]; exact List.mem_cons_of_mem z hz') hne
    rw [h.cptab, if_neg, hback]
    -- two objects do not share a pointer
    intro heq
    have hbz := hg.linked.back z (by rw [h.before]; exact List.mem_cons_self) (heq ▸ hne)
    rw [← heq, hback] at hbz
    exact hz'z (Option.some.inj hbz)
  null := by
    rw [h.cptab, hg.linked.null, ite_self]
  fresh := by
    intro z' hz'
    rw [h.fresh] at hz'
    rw [h.heap, Function.update_apply]
    split
    · rfl
    · exact hg.linked.fresh z' hz'

theorem Dropped.less (h : Dropped c c' z zs) (hg : Good cfg c) : Less c c' where
  fresh := h.fresh
  tab := by
    intro z' hz'
    rw [h.tab] at hz'
    have htab : c.tab.Nodup := hg.inv.same.nodup_iff.2 hg.nodup
    have hne : z' ≠ z := by
      rintro rfl
      exact htab.not_mem_erase hz'
    exact ⟨List.mem_of_mem_erase hz', (h.other hne).1⟩
  cptab := by
    intro p hp
    rw [h.cptab, hp, ite_self]

end Dropped

theorem Good.remove {zs : List Nat} (h : Good cfg c) (hq : c.q = z :: zs) :
    ∃ c', c.remove z = some c' ∧ Good cfg c' ∧ c'.q = zs ∧ Less c c' := by
  have hz : z ∈ c.q := by simp [hq]
  obtain ⟨o, ho⟩ := Option.isSome_iff_exists.1 (h.inv.live z hz)
  have htext : c.text z = o.text := by simp [text, ho]
  have hscc : c.sccP z = o.sccP := by simp [sccP, ho]
  suffices hex : ∃ c', c.remove z = some c' ∧ Dropped c c' z zs by
    obtain ⟨c', hc', hd⟩ := hex
    exact ⟨c', hc', ⟨hd.inv h, hd.linked h⟩, hd.q, hd.less h⟩
  have herase : c.q.erase z = zs := by simp [hq]
  simp only [ZtabCache.remove, ho]
  by_cases h0 : o.sccP = 0
  · rw [if_pos h0]
    refine ⟨_, rfl, hq, herase, rfl, by rw [htext], rfl, fun p => ?_, rfl⟩
    split
    · next hp => rw [hp, hscc, h0, h.linked.null]
    · rfl
  · have hback := h.linked.back z hz (by rw [hscc]; exact h0)
    rw [hscc] at hback
    rw [if_neg h0, hback]
    refine ⟨_, rfl, hq, herase, rfl, by rw [htext], rfl, fun p => ?_, rfl⟩
    rw [hscc]
    exact Function.update_apply ..

theorem Good.makeRoom {l : Nat} (h : Good cfg c) (hl : l ≤ cfg.maxtot) :
    ∃ c', c.makeRoom cfg l = some c' ∧ Good cfg c' ∧ c'.tot + l ≤ cfg.maxtot ∧ Less c c' := by
  unfold ZtabCache.makeRoom
  suffices hev : ∀ zs c, Good cfg c → c.q = zs →
      ∃ c', evict cfg l zs c = some c' ∧ Good cfg c' ∧ c'.tot + l ≤ cfg.maxtot ∧
        Less c c' from hev _ c h rfl
  intro zs
  induction zs with
  | nil =>
    intro c h hq
    have htot : c.tot = 0 := by rw [h.inv.tot, hq]; rfl
    refine ⟨c, ?_, h, by omega, .refl c⟩
    rw [evict, if_neg (by omega)]
  | cons z zs ih =>
    intro c h hq
    unfold evict
    split
    · obtain ⟨c₁, hc₁, hg₁, hq₁, hless₁⟩ := h.remove hq
      obtain ⟨c₂, hc₂, hg₂, hroom, hless₂⟩ := ih c₁ hg₁ hq₁
      exact ⟨c₂, by rw [hc₁]; exact hc₂, hg₂, hroom, hless₁.trans hless₂⟩
    · exact ⟨c, rfl, h, by omega, .refl c⟩

theorem Good.insert (h : Good cfg c) (hroom : c.tot + s.length ≤ cfg.maxtot)
    (hs : c.find s = none) :
    ∃ c', (c.new ⟨s, 0⟩).insert cfg c.fresh = some c' ∧ Good cfg c' ∧ c'.text c.fresh = s ∧
      c.fresh ∈ c'.q ∧ c'.cptab = c.cptab := by
  have hnew : (c.new ⟨s, 0⟩).text c.fresh = s ∧ (c.new ⟨s, 0⟩).sccP c.fresh = 0 := by
    simp [new, text, sccP]
  have hdead : c.heap c.fresh = none := h.linked.fresh _ (Nat.le_refl _)
  have hold {z : Nat} (hz : z ∈ c.q) : z ≠ c.fresh := by
    rintro rfl
    have hlive := h.inv.live _ hz
    rw [hdead] at hlive
    cases hlive
  have hother {z : Nat} (hz : z ∈ c.q) :
      (c.new ⟨s, 0⟩).text z = c.text z ∧ (c.new ⟨s, 0⟩).sccP z = c.sccP z :=
    text_of_heap (by simp [new, Function.update_of_ne (hold hz)])
  have hfind : (c.new ⟨s, 0⟩).find s = none := by
    rw [find_none] at hs ⊢
    intro z hz
    rw [(hother (h.inv.same.mem_iff.1 hz)).1]
    exact hs z hz
  have hfresh : s ∉ c.q.map c.text := by
    rintro hmem
    obtain ⟨z, hz, he⟩ := List.mem_map.1 hmem
    exact find_none.1 hs z (h.inv.same.mem_iff.2 hz) he
  have hins : (c.new ⟨s, 0⟩).insert cfg c.fresh = some { c.new ⟨s, 0⟩ with
      tot := c.tot + s.length, tab := c.tab ++ [c.fresh], q := c.q ++ [c.fresh] } := by
    have hnot : ¬ c.tot + s.length > cfg.maxtot := by omega
    simp only [ZtabCache.insert, hnew.1, hfind]
    exact if_neg hnot
  refine ⟨_, hins, ⟨⟨?_, ?_, ?_, ?_, hroom, ?_⟩, ⟨?_, h.linked.null, ?_⟩⟩, hnew.1, by simp, rfl⟩
  · exact h.inv.same.append_right _
  · intro z hz
    obtain hz | hz := List.mem_append.1 hz
    · simpa [new, Function.update_of_ne (hold hz)] using h.inv.live z hz
    · rw [List.mem_singleton.1 hz]
      simp [new]
  · have hmap : c.q.map (c.new ⟨s, 0⟩).text = c.q.map c.text :=
      List.map_congr_left fun z hz => (hother hz).1
    have hall : ((c.q ++ [c.fresh]).map (c.new ⟨s, 0⟩).text).Nodup := by
      rw [List.map_append, hmap, List.map_singleton, hnew.1]
      rw [← List.concat_eq_append]
      exact h.inv.distinct.concat hfresh
    exact hall
  · have hmap : (c.q.map fun z => ((c.new ⟨s, 0⟩).text z).length) = c.q.map fun z =>
        (c.text z).length :=
      List.map_congr_left fun z hz => by rw [(hother hz).1]
    have hall : c.tot + s.length =
        ((c.q ++ [c.fresh]).map fun z => ((c.new ⟨s, 0⟩).text z).length).sum := by
      rw [List.map_append, hmap, List.sum_append, ← h.inv.tot]
      simp [hnew.1]
    exact hall
  · intro p z hp
    obtain ⟨hmem, hptr⟩ := h.inv.pointer p z hp
    exact ⟨List.mem_append_left _ hmem, (hother hmem).2.trans hptr⟩
  · intro z hz hne
    have hne : (c.new ⟨s, 0⟩).sccP z ≠ 0 := hne
    obtain hz | hz := List.mem_append.1 hz
    · rw [(hother hz).2] at hne
      have hback := h.linked.back z hz hne
      rwa [← (hother hz).2] at hback
    · rw [List.mem_singleton.1 hz] at hne
      exact absurd hnew.2 hne
  · intro z hz
    have hz : c.fresh + 1 ≤ z := hz
    have hne : z ≠ c.fresh := by omega
    simpa [new, Function.update_of_ne hne] using h.linked.fresh z (by omega)

theorem setSccP_text (c : ZtabCache) (z p : Nat) (z' : Nat) :
    (c.setSccP z p).text z' = c.text z' := by
  unfold text setSccP
  by_cases hz : z' = z
  · subst hz
    cases c.heap z' <;> simp
  · simp [Function.update_of_ne hz]

theorem setSccP_sccP {o : Zstr} (ho : c.heap z = some o) (p z' : Nat) :
    (c.setSccP z p).sccP z' = if z' = z then p else c.sccP z' := by
  unfold sccP setSccP
  split
  · next hz => simp [hz, ho]
  · next hz => simp [Function.update_of_ne hz]

theorem Good.setSccP {o : Zstr} {p : Nat} {cptab : Nat → Option Nat} (h : Good cfg c)
    (ho : c.heap z = some o)
    (hptr : ∀ p' z', cptab p' = some z' → z' ∈ c.q ∧ (c.setSccP z p).sccP z' = p')
    (hback : ∀ z' ∈ c.q, (c.setSccP z p).sccP z' ≠ 0 → cptab ((c.setSccP z p).sccP z') = some z')
    (h0 : cptab 0 = none) : Good cfg { c.setSccP z p with cptab := cptab } where
  inv :=
    { same := h.inv.same
      live := by
        intro z' hz'
        have hlive := h.inv.live z' hz'
        by_cases hz : z' = z
        · simp [ZtabCache.setSccP, hz, ho]
        · simpa [ZtabCache.setSccP, Function.update_of_ne hz] using hlive
      distinct := by
        have hmap : c.q.map (c.setSccP z p).text = c.q.map c.text :=
          List.map_congr_left fun z' _ => setSccP_text c z p z'
        exact (show (c.q.map (c.setSccP z p).text).Nodup from hmap ▸ h.inv.distinct)
      tot := by
        have hmap : (c.q.map fun z' => ((c.setSccP z p).text z').length) = c.q.map fun z' =>
            (c.text z').length :=
          List.map_congr_left fun z' _ => by rw [setSccP_text]
        exact (show c.tot =
          (c.q.map fun z' => ((c.setSccP z p).text z').length).sum from hmap ▸ h.inv.tot)
      bound := h.inv.bound
      pointer := hptr }
  linked :=
    { back := hback
      null := h0
      fresh := by
        intro z' hz'
        have hdead := h.linked.fresh z' hz'
        have hne : z' ≠ z := by
          rintro rfl
          cases ho.symm.trans hdead
        simpa [ZtabCache.setSccP, Function.update_of_ne hne] using hdead }

theorem Good.link {p : Nat} (h : Good cfg c) (hz : z ∈ c.q) (hp : p ≠ 0) (hfree : c.cptab p = none)
    (hnone : ∀ p', c.cptab p' ≠ some z) :
    Good cfg { c.setSccP z p with cptab := Function.update c.cptab p (some z) } := by
  obtain ⟨o, ho⟩ := Option.isSome_iff_exists.1 (h.inv.live z hz)
  refine h.setSccP ho (fun p' z' hp' => ?_) (fun z' hz' hne => ?_) ?_
  · rw [setSccP_sccP ho]
    rw [Function.update_apply] at hp'
    split at hp'
    · next hpp =>
      cases hp'
      exact ⟨hz, by rw [if_pos rfl, hpp]⟩
    · obtain ⟨hmem, hscc⟩ := h.inv.pointer p' z' hp'
      have hzz : z' ≠ z := by
        rintro rfl
        exact hnone p' hp'
      exact ⟨hmem, by rw [if_neg hzz, hscc]⟩
  · rw [setSccP_sccP ho] at hne ⊢
    by_cases hzz : z' = z
    · rw [if_pos hzz, hzz, Function.update_self]
    · rw [if_neg hzz] at hne ⊢
      have hback := h.linked.back z' hz' hne
      rw [Function.update_of_ne, hback]
      rintro heq
      rw [heq, hfree] at hback
      cases hback
  · rw [Function.update_of_ne hp.symm]
    exact h.linked.null

theorem Good.lookupPtr (h : Good cfg c) (p : Nat) (s : Str) : Good cfg (c.lookupPtr p s).2 ∧
    ((c.lookupPtr p s).1 = none → (c.lookupPtr p s).2.cptab p = none) := by
  unfold ZtabCache.lookupPtr
  cases hp : c.cptab p with
  | none => exact ⟨h, fun _ => hp⟩
  | some z =>
    dsimp only
    split
    · exact ⟨h, nofun⟩
    · refine ⟨?_, fun _ => Function.update_self ..⟩
      obtain ⟨hmem, hscc⟩ := h.inv.pointer p z hp
      obtain ⟨o, ho⟩ := Option.isSome_iff_exists.1 (h.inv.live z hmem)
      refine h.setSccP ho (fun p' z' hp' => ?_) (fun z' hz' hne => ?_) ?_
      · rw [Function.update_apply] at hp'
        split at hp'
        · cases hp'
        · next hpp =>
          obtain ⟨hmem', hscc'⟩ := h.inv.pointer p' z' hp'
          have hzz : z' ≠ z := by
            rintro rfl
            exact hpp (hscc'.symm.trans hscc)
          rw [setSccP_sccP ho, if_neg hzz]
          exact ⟨hmem', hscc'⟩
      · rw [setSccP_sccP ho] at hne ⊢
        split at hne
        · exact absurd rfl hne
        · next hzz =>
          rw [if_neg hzz]
          have hback := h.linked.back z' hz' hne
          rw [Function.update_of_ne, hback]
          rintro heq
          rw [heq, hp] at hback
          exact hzz (Option.some.inj hback).symm
      · rw [Function.update_apply, h.linked.null, ite_self]

end Good

def Cacheable (s : Str) : Prop := cfg.minz ≤ s.length ∧ s.length ≤ cfg.maxz

/-- The call does not cache a text that is cached already, nor bind a pointer that is bound. -/
def Once (c : ZtabCache) : Call → Prop
  | .lookup _ | .lookupPtr _ _ => True
  | .alloc s lkp => lkp = true ∨
    (Cacheable cfg s → ∀ c', c.makeRoom cfg s.length = some c' → c'.find s = none)
  | .allocPtr p s true => (c.lookupPtr p s).1.isSome = true ∨
    (Cacheable cfg s → p ≠ 0 ∧ ∀ c', (c.lookupPtr p s).2.makeRoom cfg s.length = some c' →
      c'.find s = none)
  | .allocPtr p s false => Cacheable cfg s →
    p ≠ 0 ∧ ∀ c', c.makeRoom cfg s.length = some c' → c'.find s = none ∧ c'.cptab p = none

section Calls

variable {cfg} {c : ZtabCache} {s : Str} {lkp : Bool}

theorem lookup_text {z : Nat} {c' : ZtabCache} (h : c.lookup s = (some z, c')) : c'.text z = s := by
  unfold ZtabCache.lookup at h
  split at h
  · next z' hz' =>
    cases h
    have htext := List.find?_some hz'
    exact of_decide_eq_true htext
  · cases h

theorem lookup_none {c' : ZtabCache} (h : c.lookup s = (none, c')) : c' = c ∧ c.find s = none := by
  unfold ZtabCache.lookup at h
  split at h
  · cases h
  · next hf =>
    cases h
    exact ⟨rfl, hf⟩

theorem lookupPtr_text {p z : Nat} {c' : ZtabCache} (h : c.lookupPtr p s = (some z, c')) :
    c'.text z = s := by
  unfold ZtabCache.lookupPtr at h
  split at h
  · cases h
  · split at h
    · next ht =>
      cases h
      exact ht
    · cases h

theorem Good.alloc (hmax : cfg.maxz ≤ cfg.maxtot) (h : Good cfg c)
    (ho : Once cfg c (.alloc s lkp)) :
    ∃ c', c.alloc cfg s lkp = some (s, c') ∧ Good cfg c' := by
  unfold ZtabCache.alloc
  rcases hl : (if lkp then c.lookup s else (none, c)) with ⟨_ | z, c₁⟩
  · -- not found, or not looked for
    have hc₁ : c₁ = c ∧ (Cacheable cfg s → ∀ c', c.makeRoom cfg s.length = some c' → Less c c' →
        c'.find s = none) := by
      cases lkp with
      | true =>
        obtain ⟨rfl, hf⟩ := lookup_none hl
        exact ⟨rfl, fun _ c' _ hless => hless.find hf⟩
      | false =>
        cases hl
        exact ⟨rfl, fun hs c' hc' _ => ho.resolve_left nofun hs c' hc'⟩
    obtain ⟨rfl, hfind⟩ := hc₁
    dsimp only
    split
    · next hsize =>
      obtain ⟨c₂, hc₂, hg₂, hroom, hless⟩ := h.makeRoom (Nat.le_trans hsize.2.1 hmax)
      obtain ⟨c₃, hc₃, hg₃, htext, -, -⟩ :=
        hg₂.insert hroom (hfind ⟨hsize.1, hsize.2.1⟩ c₂ hc₂ hless)
      exact ⟨c₃, by simp [hc₂, hc₃, htext], hg₃⟩
    · exact ⟨c₁, rfl, h⟩
  · cases lkp with
    | false => cases hl
    | true =>
      have hg := h.lookup s
      rw [if_pos rfl] at hl
      rw [hl] at hg
      exact ⟨c₁, by simp [lookup_text hl], hg⟩

theorem Good.allocPtr {p : Nat} (hmax : cfg.maxz ≤ cfg.maxtot) (h : Good cfg c)
    (ho : Once cfg c (.allocPtr p s lkp)) :
    ∃ c', c.allocPtr cfg p s lkp = some (s, c') ∧ Good cfg c' := by
  unfold ZtabCache.allocPtr
  rcases hl : (if lkp then c.lookupPtr p s else (none, c)) with ⟨_ | z, c₁⟩
  · have hc₁ : Good cfg c₁ ∧
        (Cacheable cfg s → p ≠ 0 ∧ ∀ c', c₁.makeRoom cfg s.length = some c' → Less c₁ c' →
        c'.find s = none ∧ c'.cptab p = none) := by
      cases lkp with
      | true =>
        rw [if_pos rfl] at hl
        obtain ⟨hg, hfree⟩ := h.lookupPtr p s
        simp only [Once, hl] at ho
        rw [hl] at hg hfree
        refine ⟨hg, fun hs => ?_⟩
        obtain ⟨hp, hfind⟩ := ho.resolve_left nofun hs
        exact ⟨hp, fun c' hc' hless => ⟨hfind c' hc', hless.cptab p (hfree rfl)⟩⟩
      | false =>
        cases hl
        exact ⟨h, fun hs => ⟨(ho hs).1, fun c' hc' _ => (ho hs).2 c' hc'⟩⟩
    obtain ⟨hg₁, hcond⟩ := hc₁
    dsimp only
    split
    · next hsize =>
      obtain ⟨c₂, hc₂, hg₂, hroom, hless⟩ := hg₁.makeRoom (Nat.le_trans hsize.2 hmax)
      obtain ⟨hp, hfind⟩ := hcond hsize
      obtain ⟨hnone, hfree⟩ := hfind c₂ hc₂ hless
      obtain ⟨c₃, hc₃, hg₃, htext, hmem, hcp⟩ := hg₂.insert hroom hnone
      have hunbound (p' : Nat) : c₃.cptab p' ≠ some c₂.fresh := by
        intro hp'
        rw [hcp] at hp'
        have hlive := hg₂.inv.live _ (hg₂.inv.pointer p' _ hp').1
        rw [hg₂.linked.fresh _ (Nat.le_refl _)] at hlive
        cases hlive
      refine ⟨_, ?_, hg₃.link hmem hp (hcp ▸ hfree) hunbound⟩
      simp [hc₂, hc₃, htext]
    · exact ⟨c₁, rfl, hg₁⟩
  · cases lkp with
    | false => cases hl
    | true =>
      rw [if_pos rfl] at hl
      obtain ⟨hg, -⟩ := h.lookupPtr p s
      rw [hl] at hg
      exact ⟨c₁, by simp [lookupPtr_text hl], hg⟩

theorem Good.call {e : Call} (hmax : cfg.maxz ≤ cfg.maxtot) (h : Good cfg c) (ho : Once cfg c e) :
    ∃ c', c.call cfg e = some c' ∧ Good cfg c' := by
  cases e with
  | lookup s => exact ⟨_, rfl, h.lookup s⟩
  | alloc s lkp =>
    obtain ⟨c', hc', hg⟩ := h.alloc hmax ho
    exact ⟨c', by simp [ZtabCache.call, hc'], hg⟩
  | lookupPtr p s => exact ⟨_, rfl, (h.lookupPtr p s).1⟩
  | allocPtr p s lkp =>
    obtain ⟨c', hc', hg⟩ := h.allocPtr hmax ho
    exact ⟨c', by simp [ZtabCache.call, hc'], hg⟩

theorem reach_good (hmax : cfg.maxz ≤ cfg.maxtot) (h : (system cfg).Reach (Once cfg) c) :
    Good cfg c := by
  refine h.invariant (I := Good cfg) (fun c hc => ?_) (fun c e c' _ hg ho hs => ?_)
  · rw [hc]
    exact good_empty
  · obtain ⟨c₁, hc₁, hg₁⟩ := hg.call hmax ho
    cases hc₁.symm.trans hs
    exact hg₁

end Calls

/-- Objects are deleted, but they do not change. -/
structure Stable (c c' : ZtabCache) : Prop where
  fresh : c.fresh ≤ c'.fresh
  heap : ∀ z < c.fresh, c'.heap z = c.heap z ∨ c'.heap z = none

section Stable

variable {cfg} {c c' : ZtabCache}

theorem Stable.refl (c : ZtabCache) : Stable c c := ⟨Nat.le_refl _, fun _ _ => .inl rfl⟩

theorem Stable.trans {c'' : ZtabCache} (h : Stable c c') (h' : Stable c' c'') : Stable c c'' where
  fresh := Nat.le_trans h.fresh h'.fresh
  heap := by
    intro z hz
    obtain hz' | hz' := h'.heap z (Nat.lt_of_lt_of_le hz h.fresh)
    · rw [hz']
      exact h.heap z hz
    · exact .inr hz'

theorem stable_remove {z : Nat} (h : c.remove z = some c') : Stable c c' := by
  have hstable (z' : Nat) :
      Function.update c.heap z none z' = c.heap z' ∨ Function.update c.heap z none z' = none := by
    rw [Function.update_apply]
    split
    · exact .inr rfl
    · exact .inl rfl
  unfold remove at h
  split at h
  · cases h
  · dsimp only at h
    split at h
    · cases h
      exact ⟨Nat.le_refl _, fun z' _ => hstable z'⟩
    · split at h
      · cases h
        exact ⟨Nat.le_refl _, fun z' _ => hstable z'⟩
      · cases h

theorem stable_makeRoom {l : Nat} (h : c.makeRoom cfg l = some c') : Stable c c' := by
  unfold makeRoom at h
  generalize c.q = zs at h
  induction zs generalizing c with
  | nil =>
    unfold evict at h
    split at h <;> cases h
    exact .refl _
  | cons z zs ih =>
    unfold evict at h
    split at h
    · obtain ⟨c₁, hc₁, h⟩ := Option.bind_eq_some_iff.1 h
      exact (stable_remove hc₁).trans (ih h)
    · cases h
      exact .refl _

theorem stable_insert {s : Str} (h : (c.new ⟨s, 0⟩).insert cfg c.fresh = some c') :
    Stable c c' := by
  have hnew : Stable c (c.new ⟨s, 0⟩) := by
    refine ⟨Nat.le_succ _, fun z hz => .inl ?_⟩
    exact Function.update_of_ne (Nat.ne_of_lt hz) _ _
  unfold insert at h
  dsimp only at h
  split at h
  · cases h
  · cases h
    refine hnew.trans ?_
    split <;> exact ⟨Nat.le_refl _, fun _ _ => .inl rfl⟩

theorem stable_alloc {s x : Str} {lkp : Bool} (h : c.alloc cfg s lkp = some (x, c')) :
    Stable c c' := by
  have hlookup : Stable c (if lkp then c.lookup s else (none, c)).2 := by
    cases lkp with
    | false => exact .refl c
    | true =>
      simp only [if_true, lookup]
      split <;> exact ⟨Nat.le_refl _, fun _ _ => .inl rfl⟩
  unfold alloc at h
  refine hlookup.trans ?_
  generalize (if lkp then c.lookup s else (none, c)) = y at h
  obtain ⟨_ | z, c₁⟩ := y
  · dsimp only at h
    split at h
    · obtain ⟨c₂, hc₂, h⟩ := Option.bind_eq_some_iff.1 h
      obtain ⟨c₃, hc₃, h⟩ := Option.map_eq_some_iff.1 h
      cases h
      exact (stable_makeRoom hc₂).trans (stable_insert hc₃)
    · cases h
      exact .refl _
  · cases h
    exact .refl _

end Stable

/-- In a run in which every call caches a new text the cache is sound, and no call fails. -/
theorem inv_of_once (cfg : ZtabConfig) (hmax : cfg.maxz ≤ cfg.maxtot) (c : ZtabCache)
    (h : (system cfg).Reach (Once cfg) c) :
    Inv cfg c ∧ ∀ e, Once cfg c e → (c.call cfg e).isSome = true := by
  have hg := reach_good hmax h
  refine ⟨hg.inv, fun e he => ?_⟩
  obtain ⟨c', hc', -⟩ := hg.call hmax he
  rw [hc']
  rfl

/-- Two texts that do not fit in together, one of them with a pointer. -/
theorem inv_of_once_pointer : ∃ c,
    (system ⟨1, 4, 6⟩).exec {} [.allocPtr 7 [97, 97, 97] true, .alloc [98, 98, 98, 98] false,
    .lookupPtr 7 [97, 97, 97]] = some c ∧ Inv ⟨1, 4, 6⟩ c ∧ c.q.length = 1 := by
  refine ⟨_, rfl, (inv_of_once ⟨1, 4, 6⟩ (by decide) _ ?_).1, rfl⟩
  refine .step (e := .lookupPtr 7 [97, 97, 97]) (.step (e := .alloc [98, 98, 98, 98] false)
    (.step (e := .allocPtr 7 [97, 97, 97] true) (.init rfl) ?_ rfl) ?_ rfl) trivial rfl
  · refine .inr fun _ => ⟨by decide, fun c' hc' => ?_⟩
    cases hc'
    rfl
  · refine .inr fun _ c' hc' => ?_
    cases hc'
    rfl

/-- The same text again and again, not looked for: it is counted each time, until `make_room`
empties the queue and goes on. -/
theorem not_inv_counted : ∃ c, (system ⟨1, 4, 8⟩).Reachable c ∧ ¬ Inv ⟨1, 4, 8⟩ c ∧
    c.call ⟨1, 4, 8⟩ (.alloc [98, 98, 98, 98] true) = none := by
  refine ⟨_, Lib.System.reachable_exec [.alloc [97, 97] false, .alloc [97, 97] false,
    .alloc [97, 97] false, .alloc [97, 97] false] rfl rfl, fun h => ?_, rfl⟩
  have htot := h.tot
  revert htot
  decide

end ZtabCache

end Okws
