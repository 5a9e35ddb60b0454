import Okws.Ztab

namespace Okws

/-- `ztab`: with or without a cache. -/
abbrev Ztab := Option ZtabCache

namespace Ztab

variable (cfg : ZtabConfig)

def alloc (t : Ztab) (s : Str) (lkp : Bool) : Option (Str × Ztab) := match t with
  | none => some (s, none)
  | some c => (c.alloc cfg s lkp).map fun x => (x.1, some x.2)

def allocPtr (t : Ztab) (p : Nat) (s : Str) (lkp : Bool) : Option (Str × Ztab) := match t with
  | none => some (s, none)
  | some c => (c.allocPtr cfg p s lkp).map fun x => (x.1, some x.2)

def lookup (t : Ztab) (s : Str) : Option Nat × Ztab := match t with
  | none => (none, none)
  | some c => ((c.lookup s).1, some (c.lookup s).2)

def lookupPtr (t : Ztab) (p : Nat) (s : Str) : Option Nat × Ztab := match t with
  | none => (none, none)
  | some c => ((c.lookupPtr p s).1, some (c.lookupPtr p s).2)

/-- The text of an object in the cache, if it is still there. -/
def text? (t : Ztab) (z : Nat) : Option Str := t.bind fun c => (c.heap z).map Zstr.text

end Ztab

/-- A `const zstr &`: a string of the caller, or an object in the cache. -/
inductive ZRef
  | val (s : Str)
  | cached (z : Nat)

structure Zbuf where
  zs : List Str := []
  f : Str := []
  deriving DecidableEq

/-- What is appended; at `p` there are the characters `s`. -/
inductive Piece
  | str (s : Str)
  | zstr (s : Str)
  | chars (p : Nat) (s : Str)
  | strbuf (s : Str)
  | zbuf (b : Zbuf)
  | int (i : Int)
  deriving DecidableEq

namespace Zbuf

variable (cfg : ZtabConfig) (minstrsize : Nat)

/-- `strbuf2zstr`; `none` is the failure of the cache. -/
def strbuf2zstr (b : Zbuf) (t : Ztab) : Option (Zbuf × Ztab) :=
  if b.f = [] then some (b, t)
  else (t.alloc cfg b.f true).map fun x => (⟨b.zs ++ [x.1], []⟩, x.2)

/-- `push_zstr`: the reference is used behind `strbuf2zstr`. -/
def pushZstr (b : Zbuf) (t : Ztab) (z : ZRef) : Option (Zbuf × Ztab) :=
  (b.strbuf2zstr cfg t).bind fun (b, t) => match z with
    | .val s => some ({ b with zs := b.zs ++ [s] }, t)
    | .cached z => (t.text? z).map fun s => ({ b with zs := b.zs ++ [s] }, t)

def pushStr2zstr (b : Zbuf) (t : Ztab) (s : Str) (lkp : Bool) : Option (Zbuf × Ztab) :=
  (t.alloc cfg s lkp).bind fun x => b.pushZstr cfg x.2 (.val x.1)

def decimal (i : Int) : Str :=
  (if i < 0 then [45] else []) ++ (Nat.toDigits 10 i.natAbs).map Char.toUInt8

def cat (b : Zbuf) (t : Ztab) : Piece → Option (Zbuf × Ztab)
  | .str s =>
    if s.length ≤ minstrsize then some ({ b with f := b.f ++ s }, t)
    else match t.lookup s with
      | (some z, t) => b.pushZstr cfg t (.cached z)
      | (none, t) => b.pushStr2zstr cfg t s false
  | .zstr s =>
    if s.length ≤ minstrsize then some ({ b with f := b.f ++ s }, t)
    else match t.lookup s with
      | (some z, t) => b.pushZstr cfg t (.cached z)
      | (none, t) => b.pushZstr cfg t (.val s)
  | .chars p s =>
    if s.length ≤ minstrsize then some ({ b with f := b.f ++ s }, t)
    else match t.lookupPtr p s with
      | (some z, t) => (t.text? z).map fun x => ({ b with zs := b.zs ++ [x] }, t)
      | (none, t) => (t.allocPtr cfg p s false).map fun x => ({ b with zs := b.zs ++ [x.1] }, x.2)
  | .strbuf s => some ({ b with f := b.f ++ s }, t)
  | .zbuf b' =>
    (if b'.zs ≠ [] then (b.strbuf2zstr cfg t).map fun x => ({ x.1 with zs := x.1.zs ++ b'.zs }, x.2)
      else some (b, t)).map fun x => ({ x.1 with f := x.1.f ++ b'.f }, x.2)
  | .int i => some ({ b with f := b.f ++ decimal i }, t)

/-- `output`, and what it writes. -/
def output (b : Zbuf) (t : Ztab) : Option (Str × Zbuf × Ztab) :=
  (b.strbuf2zstr cfg t).map fun x => (x.1.zs.flatten, x)

def inflatedLen (b : Zbuf) : Nat := (b.zs.map List.length).sum + b.f.length

def content (b : Zbuf) : Str := b.zs.flatten ++ b.f

end Zbuf

namespace Piece

def text : Piece → Str
  | .str s | .zstr s | .chars _ s | .strbuf s => s
  | .zbuf b => b.content
  | .int i => Zbuf.decimal i

end Piece

/-- A buffer, the cache it shares with others, and all that has been appended to it. -/
structure ZbufState where
  buf : Zbuf
  tab : Ztab
  appended : Str

/-- Something is appended, the buffer is written out, or the cache is used by another one. -/
inductive ZbufEvent
  | cat (p : Piece)
  | output
  | other (e : ZtabCache.Call)

namespace ZbufState

variable (cfg : ZtabConfig) (minstrsize : Nat)

def step (s : ZbufState) : ZbufEvent → Option ZbufState
  | .cat p => (s.buf.cat cfg minstrsize s.tab p).map fun x => ⟨x.1, x.2, s.appended ++ p.text⟩
  | .output => (s.buf.output cfg s.tab).map fun x => ⟨x.2.1, x.2.2, s.appended⟩
  | .other e => match s.tab with
    | none => some s
    | some c => (c.call cfg e).map fun c => { s with tab := some c }

def system : Lib.System ZbufState ZbufEvent where
  init s := s.buf = {} ∧ s.appended = [] ∧
    ∀ c, s.tab = some c → (ZtabCache.system cfg).Reach (ZtabCache.Once cfg) c
  step := step cfg minstrsize

/-- A string that is found in the cache is still there when `f` has been flushed. -/
def Survives (s : ZbufState) (x : Str) : Prop :=
  s.buf.f = [] ∨ ∀ z, (s.tab.lookup x).1 = some z →
    ∀ b t, s.buf.strbuf2zstr cfg (s.tab.lookup x).2 = some (b, t) → (t.text? z).isSome = true

/-- The event does not meet the paths that lose the order, or an object in the cache. -/
def Ordered (s : ZbufState) : ZbufEvent → Prop
  | .cat (.str x) | .cat (.zstr x) => x.length ≤ minstrsize ∨ Survives cfg s x
  | .cat (.chars p x) => x.length ≤ minstrsize ∨
    s.buf.f = [] ∧ ∀ c, s.tab = some c → ZtabCache.Once cfg c (.allocPtr p x true)
  | .other e => ∀ c, s.tab = some c → ZtabCache.Once cfg c e
  | _ => True

end ZbufState

namespace Ztab

variable {cfg : ZtabConfig} {t t' : Ztab} {s : Str}

/-- The cache, if there is one, is sound, and has room for every string that it takes. -/
def Good (cfg : ZtabConfig) (t : Ztab) : Prop :=
  ∀ c, t = some c → c.Good cfg ∧ cfg.maxz ≤ cfg.maxtot

theorem good_some {c : ZtabCache} (hmax : cfg.maxz ≤ cfg.maxtot) (h : c.Good cfg) :
    Good cfg (some c) := by
  intro c' hc'
  cases hc'
  exact ⟨h, hmax⟩

theorem alloc_isSome {lkp : Bool} {x : Str × Ztab} (h : t.alloc cfg s lkp = some x) :
    x.2.isSome = t.isSome := by
  cases t with
  | none =>
    cases h
    rfl
  | some c =>
    obtain ⟨y, -, rfl⟩ := Option.map_eq_some_iff.1 h
    rfl

theorem allocPtr_isSome {p : Nat} {lkp : Bool} {x : Str × Ztab}
    (h : t.allocPtr cfg p s lkp = some x) : x.2.isSome = t.isSome := by
  cases t with
  | none =>
    cases h
    rfl
  | some c =>
    obtain ⟨y, -, rfl⟩ := Option.map_eq_some_iff.1 h
    rfl

theorem lookup_isSome {x : Option Nat × Ztab} (h : t.lookup s = x) : x.2.isSome = t.isSome := by
  subst h
  cases t <;> rfl

theorem lookupPtr_isSome {p : Nat} {x : Option Nat × Ztab} (h : t.lookupPtr p s = x) :
    x.2.isSome = t.isSome := by
  subst h
  cases t <;> rfl

theorem Good.alloc (h : Good cfg t) (s : Str) (lkp : Bool)
    (hs : lkp = true ∨ ∀ c, t = some c → c.find s = none) :
    ∃ t', t.alloc cfg s lkp = some (s, t') ∧ Good cfg t' := by
  cases t with
  | none => exact ⟨none, rfl, nofun⟩
  | some c =>
    obtain ⟨hg, hmax⟩ := h c rfl
    have ho : ZtabCache.Once cfg c (.alloc s lkp) := by
      refine hs.imp id fun hf hsize c' hc' => ?_
      obtain ⟨c₁, hc₁, -, -, hless⟩ := hg.makeRoom (Nat.le_trans hsize.2 hmax)
      cases hc₁.symm.trans hc'
      exact hless.find (hf c rfl)
    obtain ⟨c', hc', hg'⟩ := hg.alloc hmax ho
    exact ⟨some c', by simp [Ztab.alloc, hc'], good_some hmax hg'⟩

theorem Good.lookup (h : Good cfg t) (s : Str) : Good cfg (t.lookup s).2 := by
  cases t with
  | none => exact nofun
  | some c => exact good_some (h c rfl).2 ((h c rfl).1.lookup s)

theorem lookup_none (h : (t.lookup s).1 = none) : ∀ c,
    (t.lookup s).2 = some c → c.find s = none := by
  cases t with
  | none => exact nofun
  | some c =>
    intro c' hc'
    cases hc'
    obtain ⟨hc, hf⟩ := ZtabCache.lookup_none (c := c) (s := s) (Prod.ext h rfl)
    rw [show (c.lookup s).snd = c from hc]
    exact hf

theorem Good.lookup_text {z : Nat} (h : Good cfg t) (hz : (t.lookup s).1 = some z) :
    ∃ c o, (t.lookup s).2 = some c ∧ c.heap z = some o ∧ o.text = s ∧ z < c.fresh := by
  cases t with
  | none => cases hz
  | some c =>
    have htext := ZtabCache.lookup_text (c := c) (s := s) (Prod.ext hz rfl)
    have hg := (h c rfl).1.lookup s
    have hmem : z ∈ (c.lookup s).2.q := by
      revert hz
      simp only [Ztab.lookup, ZtabCache.lookup]
      split
      · intro hz
        cases hz
        simp
      · rintro ⟨⟩
    obtain ⟨o, ho⟩ := Option.isSome_iff_exists.1 (hg.inv.live z hmem)
    refine ⟨_, o, rfl, ho, ?_, ?_⟩
    · simpa [ZtabCache.text, ho] using htext
    · by_contra hge
      rw [hg.linked.fresh z (by omega)] at ho
      cases ho

theorem Good.allocPtr {p : Nat} (h : Good cfg t)
    (ho : ∀ c, t = some c → ZtabCache.Once cfg c (.allocPtr p s true)) :
    (∃ z, (t.lookupPtr p s).1 = some z ∧ (t.lookupPtr p s).2.text? z = some s ∧
      Good cfg (t.lookupPtr p s).2) ∨
      (t.lookupPtr p s).1 = none ∧
        ∃ t', (t.lookupPtr p s).2.allocPtr cfg p s false = some (s, t') ∧ Good cfg t' := by
  cases t with
  | none => exact .inr ⟨rfl, none, rfl, by rintro _ ⟨⟩⟩
  | some c =>
    obtain ⟨hgood, hmax⟩ := h c rfl
    obtain ⟨hg, hfree⟩ := hgood.lookupPtr p s
    have honce := ho c rfl
    cases hz : (c.lookupPtr p s).1 with
    | some z =>
      refine .inl ⟨z, hz, ?_, good_some hmax hg⟩
      have htext := ZtabCache.lookupPtr_text (c := c) (s := s) (p := p) (Prod.ext hz rfl)
      have hmem : z ∈ (c.lookupPtr p s).2.q := by
        revert hz
        simp only [ZtabCache.lookupPtr]
        split
        · rintro ⟨⟩
        · next z' hz' =>
          split
          · intro hz
            cases hz
            exact (hgood.inv.pointer p z hz').1
          · rintro ⟨⟩
      obtain ⟨o, ho⟩ := Option.isSome_iff_exists.1 (hg.inv.live z hmem)
      simpa [Ztab.lookupPtr, Ztab.text?, ZtabCache.text, ho] using htext
    | none =>
      refine .inr ⟨hz, ?_⟩
      have hfalse : ZtabCache.Once cfg (c.lookupPtr p s).2 (.allocPtr p s false) := by
        intro hsize
        simp only [ZtabCache.Once, hz] at honce
        obtain ⟨hp, hfind⟩ := honce.resolve_left (by rintro ⟨⟩) hsize
        refine ⟨hp, fun c' hc' => ⟨hfind c' hc', ?_⟩⟩
        obtain ⟨c₁, hc₁, -, -, hless⟩ := hg.makeRoom (Nat.le_trans hsize.2 hmax)
        cases hc₁.symm.trans hc'
        exact hless.cptab p (hfree hz)
      obtain ⟨c', hc', hg'⟩ := hg.allocPtr hmax hfalse
      exact ⟨some c', by simp [Ztab.allocPtr, Ztab.lookupPtr, hc'], good_some hmax hg'⟩

end Ztab

namespace Zbuf

variable {cfg : ZtabConfig} {minstrsize : Nat} {b : Zbuf} {t : Ztab} {s : Str}

/-- The buffer holds `s` more than `b`, and the cache is sound. -/
def Adds (cfg : ZtabConfig) (b : Zbuf) (s : Str) (x : Option (Zbuf × Ztab)) : Prop :=
  ∃ b' t', x = some (b', t') ∧ b'.content = b.content ++ s ∧ Ztab.Good cfg t'

theorem strbuf2zstr_adds (b : Zbuf) (h : Ztab.Good cfg t) :
    ∃ b' t', b.strbuf2zstr cfg t = some (b', t') ∧ b'.f = [] ∧ b'.zs.flatten = b.content ∧
      Ztab.Good cfg t' := by
  unfold strbuf2zstr
  split
  · next hf => exact ⟨b, t, rfl, hf, by simp [content, hf], h⟩
  · obtain ⟨t', ht', hg⟩ := h.alloc b.f true (.inl rfl)
    exact ⟨_, t', by rw [ht']; rfl, rfl, by simp [content], hg⟩

theorem pushZstr_adds (b : Zbuf) (h : Ztab.Good cfg t) (s : Str) :
    Adds cfg b s (b.pushZstr cfg t (.val s)) := by
  obtain ⟨b', t', hs, hf, hzs, hg⟩ := strbuf2zstr_adds b h
  refine ⟨{ b' with zs := b'.zs ++ [s] }, t', by simp [pushZstr, hs], ?_, hg⟩
  rw [← hzs]
  simp [content, hf]

theorem pushCached_adds {z : Nat} (h : Ztab.Good cfg t)
    (hz : (t.lookup s).1 = some z)
    (hlive : b.f = [] ∨ ∀ b' t', b.strbuf2zstr cfg (t.lookup s).2 = some (b', t') →
      (t'.text? z).isSome = true) :
    Adds cfg b s (b.pushZstr cfg (t.lookup s).2 (.cached z)) := by
  obtain ⟨c, o, hc, ho, htext, hlt⟩ := h.lookup_text hz
  obtain ⟨b', t', hs, hf, hzs, hg⟩ := strbuf2zstr_adds b (h.lookup s)
  have hkept : t'.text? z = some s := by
    by_cases hnil : b.f = []
    · rw [strbuf2zstr, if_pos hnil] at hs
      cases hs
      simp [hc, Ztab.text?, ho, htext]
    · have hsome := hlive.resolve_left hnil b' t' hs
      rw [strbuf2zstr, if_neg hnil, hc] at hs
      obtain ⟨⟨x, t₁⟩, hx, hs⟩ := Option.map_eq_some_iff.1 hs
      obtain ⟨⟨x, c'⟩, hc', hxt⟩ := Option.map_eq_some_iff.1 hx
      cases hxt
      cases hs
      obtain hheap | hheap := (ZtabCache.stable_alloc hc').heap z hlt
      · simp [Ztab.text?, hheap, ho, htext]
      · simp [Ztab.text?, hheap] at hsome
  refine ⟨{ b' with zs := b'.zs ++ [s] }, t', by simp [pushZstr, hs, hkept], ?_, hg⟩
  rw [← hzs]
  simp [content, hf]

theorem strbuf2zstr_tab {x : Zbuf × Ztab} (h : b.strbuf2zstr cfg t = some x) :
    x.2.isSome = t.isSome := by
  unfold strbuf2zstr at h
  split at h
  · cases h
    rfl
  · obtain ⟨y, hy, rfl⟩ := Option.map_eq_some_iff.1 h
    exact Ztab.alloc_isSome hy

theorem pushZstr_tab {z : ZRef} {x : Zbuf × Ztab} (h : b.pushZstr cfg t z = some x) :
    x.2.isSome = t.isSome := by
  obtain ⟨⟨b', t'⟩, hb, h⟩ := Option.bind_eq_some_iff.1 h
  have htab : t'.isSome = t.isSome := strbuf2zstr_tab hb
  cases z with
  | val s =>
    cases h
    exact htab
  | cached z =>
    obtain ⟨y, -, rfl⟩ := Option.map_eq_some_iff.1 h
    exact htab

theorem cat_tab {p : Piece} {x : Zbuf × Ztab} (h : b.cat cfg minstrsize t p = some x) :
    x.2.isSome = t.isSome := by
  cases p with
  | str s =>
    simp only [cat] at h
    split at h
    · cases h
      rfl
    · split at h
      · next hl => exact (pushZstr_tab h).trans (Ztab.lookup_isSome hl)
      · next hl =>
        obtain ⟨y, hy, h⟩ := Option.bind_eq_some_iff.1 h
        exact (pushZstr_tab h).trans ((Ztab.alloc_isSome hy).trans (Ztab.lookup_isSome hl))
  | zstr s =>
    simp only [cat] at h
    split at h
    · cases h
      rfl
    · split at h
      all_goals next hl => exact (pushZstr_tab h).trans (Ztab.lookup_isSome hl)
  | chars p s =>
    simp only [cat] at h
    split at h
    · cases h
      rfl
    · split at h
      · next hl =>
        obtain ⟨y, -, rfl⟩ := Option.map_eq_some_iff.1 h
        exact Ztab.lookupPtr_isSome hl
      · next hl =>
        obtain ⟨y, hy, rfl⟩ := Option.map_eq_some_iff.1 h
        exact (Ztab.allocPtr_isSome hy).trans (Ztab.lookupPtr_isSome hl)
  | zbuf b' =>
    obtain ⟨y, hy, rfl⟩ := Option.map_eq_some_iff.1 h
    split at hy
    · obtain ⟨w, hw, rfl⟩ := Option.map_eq_some_iff.1 hy
      exact strbuf2zstr_tab (x := w) hw
    · cases hy
      rfl
  | strbuf s | int i =>
    cases h
    rfl

theorem inflatedLen_eq (b : Zbuf) : b.inflatedLen = b.content.length := by
  simp [inflatedLen, content, List.length_flatten]

end Zbuf

namespace ZbufState

variable {cfg : ZtabConfig} {minstrsize : Nat} {s : ZbufState}

structure Inv (cfg : ZtabConfig) (s : ZbufState) : Prop where
  content : s.buf.content = s.appended
  tab : Ztab.Good cfg s.tab

theorem Inv.large (h : Inv cfg s) {x : Str} (hx : Survives cfg s x)
    {f : Ztab → Option (Zbuf × Ztab)}
    (hf : ∀ t, Ztab.Good cfg t → (∀ c, t = some c → c.find x = none) →
      Zbuf.Adds cfg s.buf x (f t)) :
    Zbuf.Adds cfg s.buf x (match s.tab.lookup x with
      | (some z, t) => s.buf.pushZstr cfg t (.cached z)
      | (none, t) => f t) := by
  cases hl : (s.tab.lookup x).1 with
  | none =>
    have hnone := Ztab.lookup_none hl
    have hpair : s.tab.lookup x = (none, (s.tab.lookup x).2) := Prod.ext hl rfl
    rw [hpair]
    exact hf _ (h.tab.lookup x) hnone
  | some z =>
    have hpair : s.tab.lookup x = (some z, (s.tab.lookup x).2) := Prod.ext hl rfl
    have hadds := Zbuf.pushCached_adds h.tab hl (b := s.buf) (hx.imp id fun hs => hs z hl)
    rw [hpair]
    exact hadds

theorem Inv.cat (h : Inv cfg s) {p : Piece}
    (ho : Ordered cfg minstrsize s (.cat p)) :
    Zbuf.Adds cfg s.buf p.text (s.buf.cat cfg minstrsize s.tab p) := by
  have hsmall (x : Str) : Zbuf.Adds cfg s.buf x (some ({ s.buf with f := s.buf.f ++ x }, s.tab)) :=
    ⟨_, s.tab, rfl, by simp [Zbuf.content], h.tab⟩
  cases p with
  | str x =>
    simp only [Zbuf.cat]
    split
    · exact hsmall x
    · next hlen =>
      refine h.large (ho.resolve_left hlen) fun t ht hnone => ?_
      obtain ⟨t', ht', hg⟩ := ht.alloc x false (.inr hnone)
      rw [Zbuf.pushStr2zstr, ht']
      exact Zbuf.pushZstr_adds s.buf hg x
  | zstr x =>
    simp only [Zbuf.cat]
    split
    · exact hsmall x
    · next hlen =>
      exact h.large (ho.resolve_left hlen) fun t ht _ => Zbuf.pushZstr_adds s.buf ht x
  | chars p x =>
    simp only [Zbuf.cat]
    split
    · exact hsmall x
    · next hlen =>
      obtain ⟨hf, honce⟩ := ho.resolve_left hlen
      have hcontent :
          ({ s.buf with zs := s.buf.zs ++ [x] } : Zbuf).content = s.buf.content ++ x := by
        simp [Zbuf.content, hf]
      obtain ⟨z, hz, htext, hg⟩ | ⟨hz, t', ht', hg⟩ := h.tab.allocPtr honce
      · have hpair : s.tab.lookupPtr p x = (some z, (s.tab.lookupPtr p x).2) := Prod.ext hz rfl
        rw [hpair]
        exact ⟨_, _, by simp only [htext]; rfl, hcontent, hg⟩
      · have hpair : s.tab.lookupPtr p x = (none, (s.tab.lookupPtr p x).2) := Prod.ext hz rfl
        rw [hpair]
        exact ⟨_, t', by simp only [ht']; rfl, hcontent, hg⟩
  | strbuf x => exact hsmall x
  | zbuf b =>
    simp only [Zbuf.cat]
    split
    · obtain ⟨b', t', hs, hf, hzs, hg⟩ := Zbuf.strbuf2zstr_adds s.buf h.tab
      refine ⟨⟨b'.zs ++ b.zs, b'.f ++ b.f⟩, t', by simp [hs], ?_, hg⟩
      simp [Zbuf.content, Piece.text, hf, hzs]
    · next hnil =>
      refine ⟨⟨s.buf.zs, s.buf.f ++ b.f⟩, s.tab, rfl, ?_, h.tab⟩
      simp only [ne_eq, Decidable.not_not] at hnil
      simp [Zbuf.content, Piece.text, hnil]
  | int i => exact hsmall _

theorem Inv.step (h : Inv cfg s) {e : ZbufEvent}
    (ho : Ordered cfg minstrsize s e) :
    ∃ s', s.step cfg minstrsize e = some s' ∧ Inv cfg s' := by
  cases e with
  | cat p =>
    obtain ⟨b', t', hc, hcontent, hg⟩ := h.cat ho
    exact ⟨⟨b', t', s.appended ++ p.text⟩, by simp [ZbufState.step, hc], by rw [hcontent,
      h.content], hg⟩
  | output =>
    obtain ⟨b', t', hs, hf, hzs, hg⟩ := Zbuf.strbuf2zstr_adds s.buf h.tab
    refine ⟨⟨b', t', s.appended⟩, by simp [ZbufState.step, Zbuf.output, hs], ?_, hg⟩
    rw [← h.content, ← hzs]
    simp [Zbuf.content, hf]
  | other e =>
    cases ht : s.tab with
    | none => exact ⟨s, by simp [ZbufState.step, ht], h⟩
    | some c =>
      obtain ⟨hgood, hmax⟩ := h.tab c ht
      obtain ⟨c', hc', hg⟩ := hgood.call hmax (ho c ht)
      exact ⟨{ s with tab := some c' }, by simp [ZbufState.step, ht, hc'], h.content,
        Ztab.good_some hmax hg⟩

theorem step_tab {s' : ZbufState} {e : ZbufEvent} (h : s.step cfg minstrsize e = some s') :
    s'.tab.isSome = s.tab.isSome := by
  cases e with
  | cat p =>
    obtain ⟨x, hx, rfl⟩ := Option.map_eq_some_iff.1 h
    exact Zbuf.cat_tab hx
  | output =>
    obtain ⟨x, hx, rfl⟩ := Option.map_eq_some_iff.1 h
    obtain ⟨y, hy, rfl⟩ := Option.map_eq_some_iff.1 hx
    exact Zbuf.strbuf2zstr_tab hy
  | other e =>
    simp only [ZbufState.step] at h
    split at h
    · cases h
      rfl
    · next ht =>
      obtain ⟨c', -, rfl⟩ := Option.map_eq_some_iff.1 h
      simp [ht]

theorem reach_inv (h : (system cfg minstrsize).Reach (Ordered cfg minstrsize) s)
    (hmax : s.tab.isSome = true → cfg.maxz ≤ cfg.maxtot) : Inv cfg s := by
  refine h.invariant (I := fun s => (s.tab.isSome = true → cfg.maxz ≤ cfg.maxtot) → Inv cfg s)
    (fun s hs hmax => ?_) (fun s e s' _ hi ho hs hmax => ?_) hmax
  · refine ⟨by rw [hs.1, hs.2.1]; rfl, fun c hc => ?_⟩
    have hroom : cfg.maxz ≤ cfg.maxtot := hmax (by rw [hc]; rfl)
    exact ⟨ZtabCache.reach_good hroom (hs.2.2 c hc), hroom⟩
  · obtain ⟨s₁, hs₁, hi₁⟩ := (hi (step_tab hs ▸ hmax)).step ho
    cases hs₁.symm.trans hs
    exact hi₁

/-- Where a cache has room for every string that it takes and no event meets the paths that lose
the order, the output is what has been appended. -/
theorem output_of_ordered (cfg : ZtabConfig) (minstrsize : Nat) (s : ZbufState)
    (hmax : s.tab.isSome = true → cfg.maxz ≤ cfg.maxtot)
    (h : (system cfg minstrsize).Reach (Ordered cfg minstrsize) s) :
    (s.buf.output cfg s.tab).map Prod.fst = some s.appended ∧ s.buf.inflatedLen =
      s.appended.length ∧
      ∀ e, Ordered cfg minstrsize s e → (s.step cfg minstrsize e).isSome = true := by
  have hi := reach_inv h hmax
  refine ⟨?_, by rw [Zbuf.inflatedLen_eq, hi.content], fun e he => ?_⟩
  · obtain ⟨b', t', hs, -, hzs, -⟩ := Zbuf.strbuf2zstr_adds s.buf hi.tab
    simp [Zbuf.output, hs, hzs, hi.content]
  · obtain ⟨s', hs', -⟩ := hi.step he
    rw [hs']
    rfl

/-- A short string, a long one, and the long one again, now from the cache. -/
theorem output_of_ordered_cached : ∃ s, (system ⟨1, 8, 64⟩ 1).exec ⟨{}, some {}, []⟩
      [.cat (.str [97]), .cat (.str [98, 98]), .cat (.int (-7)), .cat (.str [98, 98])] = some s ∧
    (s.buf.output ⟨1, 8, 64⟩ s.tab).map Prod.fst = some [97, 98, 98, 45, 55, 98, 98] := by
  have h₀ : (system ⟨1, 8, 64⟩ 1).Reach (Ordered ⟨1, 8, 64⟩ 1) ⟨{}, some {}, []⟩ := by
    refine .init ⟨rfl, rfl, fun c hc => ?_⟩
    cases hc
    exact .init rfl
  have h₁ := h₀.step (e := ZbufEvent.cat (.str [97])) (Or.inl (by decide)) rfl
  have h₂ := h₁.step (e := ZbufEvent.cat (.str [98, 98]))
      (Or.inr (Or.inr fun z hz => by cases hz)) rfl
  have h₃ := h₂.step (e := ZbufEvent.cat (.int (-7))) trivial rfl
  have h₄ := h₃.step (e := ZbufEvent.cat (.str [98, 98]))
      (Or.inr (Or.inr fun z hz b t hb => by cases hz; cases hb; rfl)) rfl
  exact ⟨_, rfl, (output_of_ordered ⟨1, 8, 64⟩ 1 _ (fun _ => by decide) h₄).1⟩

/-- Two characters behind a short string come out in front of it; and a string from the cache is
used after the short string in front of it has driven it out. -/
theorem not_output_in_order :
    (∃ s, (system ⟨1, 8, 64⟩ 1).exec ⟨{}, none, []⟩ [.cat (.str [97]), .cat (.chars 7 [98, 98])] =
      some s ∧
      (s.buf.output ⟨1, 8, 64⟩ s.tab).map Prod.fst ≠ some s.appended) ∧
    (system ⟨1, 2, 2⟩ 1).exec ⟨{}, some {}, []⟩
      [.cat (.str [98, 98]), .cat (.str [97]), .cat (.str [98, 98])] = none := by
  exact ⟨⟨_, rfl, by decide⟩, rfl⟩

end ZbufState

end Okws
