import Okws.Copies
import Okws.Lib.Transition

namespace Okws.Pub3

open Zbuf Lib

namespace Heap

def IsDict (h : Heap) (d : Nat) : Prop := (h.dictTab d).isSome = true

def IsTable (h : Heap) (b : Nat) : Prop := (h.tab b).isSome = true

/-- What may become of the tables: a dictionary may change, and a table that is copied on write may
be copied. -/
structure Evolves (h h' : Heap) : Prop where
  dict : ∀ d, h.IsDict d → h'.IsDict d
  cowTab : ∀ (b : Nat) o c, h[b]? = some (.cowTab o c) → ∃ c', h'[b]? = some (.cowTab o c') ∧
    (c' = c ∨ c = none ∧ ∃ d, c' = some d ∧ h'.IsDict d)

variable {h h' : Heap}

theorem isDict_iff {d : Nat} : h.IsDict d ↔ ∃ t st, h[d]? = some (.dict t st) := by
  rw [IsDict, Option.isSome_iff_exists]
  exact exists_congr fun t => dictTab_eq_some

theorem IsDict.isTable {d : Nat} (hd : h.IsDict d) : h.IsTable d := by
  obtain ⟨t, st, hd⟩ := isDict_iff.mp hd
  rw [IsTable, tab, hd]
  rfl

theorem IsTable.lt {b : Nat} (hb : h.IsTable b) : b < h.length := by
  by_contra hlt
  rw [IsTable, tab, List.getElem?_eq_none (not_lt.mp hlt)] at hb
  cases hb

namespace Evolves

theorem refl (h : Heap) : h.Evolves h := ⟨fun _ => id, fun _ _ c hb => ⟨c, hb, .inl rfl⟩⟩

theorem trans {h'' : Heap} (he : h.Evolves h') (he' : h'.Evolves h'') : h.Evolves h'' where
  dict d hd := he'.dict d (he.dict d hd)
  cowTab b o c hb := by
    obtain ⟨c', hb', hc'⟩ := he.cowTab b o c hb
    obtain ⟨c'', hb'', hc''⟩ := he'.cowTab b o c' hb'
    refine ⟨c'', hb'', ?_⟩
    obtain rfl | ⟨rfl, d, rfl, hd⟩ := hc'
    · exact hc''
    · obtain rfl | ⟨hc, -⟩ := hc''
      · exact .inr ⟨rfl, d, rfl, he'.dict d hd⟩
      · cases hc

theorem backing (he : h.Evolves h') (o : Backing) (ho : (h.backing o).isSome = true) :
    (h'.backing o).isSome = true := by
  cases o with
  | tab t => rfl
  | dict d => exact he.dict d ho

theorem isTable (he : h.Evolves h') {b : Nat} (hb : h.IsTable b) : h'.IsTable b := by
  obtain ⟨o, ha⟩ : ∃ o, h[b]? = some o := ⟨_, List.getElem?_eq_getElem hb.lt⟩
  rw [IsTable, tab, ha] at hb
  cases o with
  | dict t st => exact (he.dict b (isDict_iff.mpr ⟨t, st, ha⟩)).isTable
  | cowTab o c =>
    obtain ⟨c', hb', hc'⟩ := he.cowTab b o c ha
    rw [IsTable, tab, hb']
    obtain rfl | ⟨rfl, d, rfl, hd⟩ := hc'
    · cases c' with
      | none => exact he.backing o hb
      | some c => exact he.dict c hb
    · exact hd
  | list | cow | lambda | compiled => cases hb

theorem append (h l : Heap) : h.Evolves (h ++ l) where
  dict d hd := by
    obtain ⟨t, st, hd⟩ := isDict_iff.mp hd
    exact isDict_iff.mpr ⟨t, st, getElem?_append_of_some hd l⟩
  cowTab _ _ c hb := ⟨c, getElem?_append_of_some hb l, .inl rfl⟩

theorem set {d : Nat} (hd : h.IsDict d) (t : Tab) (st : Option Bool) :
    h.Evolves (h.set d (.dict t st)) := by
  obtain ⟨t₀, st₀, hd⟩ := isDict_iff.mp hd
  have hlt := (List.getElem?_eq_some_iff.mp hd).1
  refine ⟨fun x hx => ?_, fun b o c hb => ⟨c, ?_, .inl rfl⟩⟩
  · rw [IsDict, dictTab_set hlt]
    split
    · rfl
    · exact hx
  · rw [List.getElem?_set_ne, hb]
    rintro rfl
    rw [hd] at hb
    cases hb

end Evolves

end Heap

section Environment

def libraryLayers : List Nat → Mem (List Layer)
  | [] => pure []
  | t :: ts => do
    let b ← Mem.alloc (.cowTab (.dict t) none)
    let ls ← libraryLayers ts
    pure (⟨some b, .library⟩ :: ls)

/-- `env_t::env_t`, with the libraries of `singleton_t`. -/
def enter (libs : List Nat) (u : Nat) (g : Option Nat) : Act Unit := do
  let g ← match g with
    | some g => pure g
    | none => onHeap (Mem.alloc (.dict [] none))
  let ls ← onHeap (libraryLayers libs)
  modify fun s => { s with
    universals := u
    globals := g
    stack := ls ++ [⟨some u, .universals⟩, ⟨some g, .globals⟩]
    globalFrames := ls.length + 1 }

def overwriteWith (d t : Nat) : Mem Unit := do
  let h ← get
  match h.dictTab t with
  | none => Mem.stuck
  | some tab => do
    let new ← copyTab tab
    match ← Mem.load d with
    | .dict old st => Mem.store d (.dict (new.foldl Bindtab.insert old) st)
    | _ => Mem.stuck

def bindGlobals (t : Nat) : Act Unit := do
  let s ← get
  match s.heap.dictTab s.globals with
  | none => fun _ => none
  | some [] => set { s with
      globals := t
      stack := s.stack.modify s.globalFrames fun l => { l with bindings := some t } }
  | some _ => onHeap (overwriteWith s.globals t)

end Environment

/-- An environment, with the stacks of the functions that were closed so far. -/
structure Scope where
  state : State
  closures : List (List Layer)

namespace Scope

/-- What comes upon an environment: the operations of `env_t`, a function that is closed here or
elsewhere, and the evaluation of something. -/
inductive Event
  | enter (libs : List Nat) (u : Nat) (g : Option Nat)
  | bindGlobals (t : Nat)
  | pushLocals (b : Nat) (typ : LayerType)
  | pushLambda (b : Nat) (closure : Option (List Layer))
  | pushBindings (typ : DeclType)
  | pushReferences (bindings : List (Str × Option Expr)) (typ : DeclType)
  | popTo (i : Nat)
  | close
  | learn (closure : List Layer)
  | evaluate (t : State)

variable (s : Scope)

def act {α : Type} (f : Act α) : Option Scope :=
  (f s.state).map fun r => { s with state := r.2 }

def step : Event → Option Scope
  | .enter libs u g => s.act (Pub3.enter libs u g)
  | .bindGlobals t => s.act (Pub3.bindGlobals t)
  | .pushLocals b typ => s.act (Pub3.pushLocals b typ)
  | .pushLambda b c => s.act (Pub3.pushLambda b c)
  | .pushBindings typ => s.act (Pub3.pushBindings typ)
  | .pushReferences bs typ => s.act (Pub3.pushReferences bs typ)
  | .popTo i => s.act (Pub3.popTo i)
  | .close => some { s with closures := captureClosure s.state.stack.reverse [] :: s.closures }
  | .learn ls => some { s with closures := ls :: s.closures }
  -- the layers are the business of the operations above
  | .evaluate t => some { s with state := { t with
      universals := s.state.universals
      globals := s.state.globals
      stack := s.state.stack
      globalFrames := s.state.globalFrames } }

end Scope

/-- The table of the layer is there, and a layer that has but the names of universals has not the
table of the globals `g`. -/
structure Layer.Fits (h : Heap) (g : Nat) (l : Layer) : Prop where
  table : ∀ b, l.bindings = some b → h.IsTable b
  unirefs : l.typ = .unirefs → ∀ b, l.bindings = some b → h.IsDict b ∧ b ≠ g

namespace Scope

/-- What those who call an operation promise.  Functions are called with closures that were made,
the layers below that of the globals are never popped, and the globals are no other table. -/
def Promised (s : Scope) : Event → Prop
  | .enter libs u g => (∀ t ∈ libs, s.state.heap.IsDict t) ∧ s.state.heap.IsDict u ∧
      ∀ d, g = some d → s.state.heap.IsDict d ∧
        ∀ ls ∈ s.closures, ∀ l ∈ ls, l.bindings ≠ some d
  | .bindGlobals t => s.state.heap.IsDict t ∧ (∀ l ∈ s.state.stack, l.bindings ≠ some t) ∧
      ∀ ls ∈ s.closures, ∀ l ∈ ls, l.bindings ≠ some t
  | .pushLocals b typ => s.state.heap.IsTable b ∧ typ ≠ .unirefs
  | .pushLambda b c => s.state.heap.IsTable b ∧ ∀ ls, c = some ls → ls ∈ s.closures
  | .popTo i => s.state.globalFrames < i
  | .learn ls => ∀ l ∈ ls, l.Fits s.state.heap s.state.globals
  | .evaluate t => s.state.heap.Evolves t.heap ∧ t.heap.Valid
  | .pushBindings _ | .pushReferences _ _ | .close => True

def Init (s : Scope) : Prop :=
  s.closures = [] ∧ ∃ t libs u g, t.heap.Valid ∧ Promised ⟨t, []⟩ (.enter libs u g) ∧
    enter libs u g t = some ((), s.state)

def system : System Scope Event where
  init := Init
  step := step

end Scope

/-- The layer of the globals is there, and there is no barrier below. -/
structure State.Based (s : State) : Prop where
  base : s.stack[s.globalFrames]? = some ⟨some s.globals, .globals⟩
  below : ∀ i ≤ s.globalFrames, ∀ l, s.stack[i]? = some l → l.typ ≠ .localsBarrier

/-- What holds of the environment at any time. -/
structure State.Sound (s : State) : Prop extends s.Based where
  valid : s.heap.Valid
  universals : s.heap.IsDict s.universals
  globals : s.heap.IsDict s.globals
  layers : ∀ l ∈ s.stack, l.Fits s.heap s.globals

structure Scope.Sound (s : Scope) : Prop where
  state : s.state.Sound
  closures : ∀ ls ∈ s.closures, ∀ l ∈ ls, l.Fits s.state.heap s.state.globals

section Invariant

theorem Layer.Fits.evolves {h h' : Heap} {g : Nat} {l : Layer} (hl : l.Fits h g)
    (he : h.Evolves h') : l.Fits h' g where
  table b hb := he.isTable (hl.table b hb)
  unirefs ht b hb := ⟨he.dict b (hl.unirefs ht b hb).1, (hl.unirefs ht b hb).2⟩

theorem Layer.Fits.globals {h : Heap} {g g' : Nat} {l : Layer} (hl : l.Fits h g)
    (hg : l.bindings ≠ some g') : l.Fits h g' where
  table := hl.table
  unirefs ht b hb := ⟨(hl.unirefs ht b hb).1, by
    rintro rfl
    exact hg hb⟩

theorem Layer.Fits.of_table {h : Heap} {g b : Nat} {typ : LayerType} (hb : h.IsTable b)
    (ht : typ ≠ .unirefs) : Layer.Fits h g ⟨some b, typ⟩ where
  table b' hb' := by
    cases hb'
    exact hb
  unirefs h := absurd h ht

theorem Layer.Fits.barrier {h : Heap} {g : Nat} : Layer.Fits h g ⟨none, .localsBarrier⟩ where
  table b hb := nomatch hb
  unirefs h := by cases h

namespace State.Sound

variable {s t : State}

theorem lt (hs : s.Sound) : s.globalFrames < s.stack.length :=
  (List.getElem?_eq_some_iff.mp hs.base).1

theorem push (hs : s.Sound) {h : Heap} (he : s.heap.Evolves h) (hv : h.Valid) {ls : List Layer}
    (hls : ∀ l ∈ ls, l.Fits h s.globals) (hheap : t.heap = h) (hu : t.universals = s.universals)
    (hg : t.globals = s.globals) (hf : t.globalFrames = s.globalFrames)
    (hstack : t.stack = s.stack ++ ls) : t.Sound where
  valid := by rwa [hheap]
  universals := by
    rw [hheap, hu]
    exact he.dict _ hs.universals
  globals := by
    rw [hheap, hg]
    exact he.dict _ hs.globals
  base := by
    rw [hstack, hf, hg, List.getElem?_append_left hs.lt]
    exact hs.base
  below i hi l hl := by
    rw [hf] at hi
    rw [hstack, List.getElem?_append_left (hi.trans_lt hs.lt)] at hl
    exact hs.below i hi l hl
  layers := by
    rw [hstack, hheap, hg]
    intro l hl
    obtain hl | hl := List.mem_append.mp hl
    · exact (hs.layers l hl).evolves he
    · exact hls l hl

theorem evolve (hs : s.Sound) (he : s.heap.Evolves t.heap) (hv : t.heap.Valid)
    (hu : t.universals = s.universals) (hg : t.globals = s.globals)
    (hf : t.globalFrames = s.globalFrames) (hstack : t.stack = s.stack) : t.Sound :=
  hs.push he hv (List.forall_mem_nil _) rfl hu hg hf (by rw [hstack, List.append_nil])

theorem pop (hs : s.Sound) {i : Nat} (hi : s.globalFrames < i) :
    State.Sound { s with stack := s.stack.take i } where
  valid := hs.valid
  universals := hs.universals
  globals := hs.globals
  base := by
    rw [List.getElem?_take_of_lt hi]
    exact hs.base
  below j hj l hl := by
    rw [List.getElem?_take_of_lt (hj.trans_lt hi)] at hl
    exact hs.below j hj l hl
  layers l hl := hs.layers l (List.mem_of_mem_take hl)

end State.Sound

theorem libraryLayers_spec {h h' : Heap} {ts : List Nat} {ls : List Layer} (hv : h.Valid)
    (hts : ∀ t ∈ ts, h.IsDict t) (h₁ : libraryLayers ts h = some (ls, h')) :
    h.Evolves h' ∧ h'.Valid ∧ ∀ l ∈ ls, l.typ = .library ∧ ∀ b, l.bindings = some b →
      h'.IsTable b := by
  induction ts generalizing h ls with
  | nil =>
    cases h₁
    exact ⟨.refl _, hv, fun _ hl => nomatch hl⟩
  | cons t ts ih =>
    have hev : h.Evolves (h ++ [.cowTab (.dict t) none]) := .append h _
    obtain ⟨⟨ls', h₂⟩, hls, h₁⟩ := Option.bind_eq_some_iff.mp h₁
    cases h₁
    have hv' : Heap.Valid (h ++ [.cowTab (.dict t) none]) := hv.append fun o ho => by
      cases List.mem_singleton.mp ho
      trivial
    obtain ⟨he, hv'', hl⟩ :=
      ih hv' (fun t' ht' => hev.dict t' (hts t' (List.mem_cons_of_mem _ ht')))
      hls
    refine ⟨hev.trans he, hv'', fun l hl' => ?_⟩
    obtain rfl | hl' := List.mem_cons.mp hl'
    · refine ⟨rfl, fun b hb => he.isTable ?_⟩
      cases hb
      have hb : (h ++ [Obj.cowTab (.dict t) none])[h.length]? = some (.cowTab (.dict t) none) := by
        rw [List.getElem?_append_right le_rfl, Nat.sub_self]
        rfl
      rw [Heap.IsTable, Heap.tab, hb]
      exact hev.dict t (hts t List.mem_cons_self)
    · exact hl l hl'

theorem enter_sound {s t : State} {libs : List Nat} {u : Nat} {g : Option Nat} (hv : s.heap.Valid)
    (hlibs : ∀ t ∈ libs, s.heap.IsDict t) (hu : s.heap.IsDict u)
    (hg : ∀ d, g = some d → s.heap.IsDict d) (he : enter libs u g s = some ((), t)) :
    t.Sound ∧ s.heap.Evolves t.heap ∧ (t.globals = s.heap.length ∨ g = some t.globals) := by
  have hmain (h : Heap) (d : Nat) (hh : s.heap.Evolves h) (hv : h.Valid) (hd : h.IsDict d)
      (he : (do
        let ls ← onHeap (libraryLayers libs)
        modify fun s => { s with
          universals := u
          globals := d
          stack := ls ++ [⟨some u, .universals⟩, ⟨some d, .globals⟩]
          globalFrames := ls.length + 1 } : Act Unit) { s with heap := h } = some ((), t)) :
      t.Sound ∧ s.heap.Evolves t.heap ∧ t.globals = d := by
    obtain ⟨⟨_, s'⟩, hrun, he⟩ := Option.bind_eq_some_iff.mp he
    obtain ⟨⟨ls, h'⟩, hls, hs'⟩ := Option.map_eq_some_iff.mp hrun
    cases hs'
    cases he
    obtain ⟨hev, hv', hl⟩ := libraryLayers_spec hv (fun t ht => hh.dict t (hlibs t ht)) hls
    have hud := hev.dict u (hh.dict u hu)
    have hdd := hev.dict d hd
    refine ⟨⟨⟨?_, ?_⟩, hv', hud, hdd, ?_⟩, hh.trans hev, rfl⟩
    · simp
    · intro i hi l hl'
      obtain hl' | hl' := List.mem_append.mp (List.mem_of_getElem? hl')
      · rw [(hl l hl').1]
        exact nofun
      · obtain rfl | rfl := by simpa using hl'
        · exact nofun
        · exact nofun
    · intro l hl'
      obtain hl' | hl' := List.mem_append.mp hl'
      · exact ⟨(hl l hl').2, fun ht => by rw [(hl l hl').1] at ht; cases ht⟩
      · obtain rfl | rfl := by simpa using hl'
        · exact .of_table hud.isTable nofun
        · exact .of_table hdd.isTable nofun
  cases g with
  | none =>
    have hnew : Heap.IsDict (s.heap ++ [.dict [] none]) s.heap.length :=
      Heap.isDict_iff.mpr ⟨[], none, by rw [List.getElem?_append_right le_rfl, Nat.sub_self]; rfl⟩
    have hvalid : Heap.Valid (s.heap ++ [.dict [] none]) := hv.append fun o ho => by
      cases List.mem_singleton.mp ho
      exact fun _ _ hp => nomatch hp
    obtain ⟨hs, hev, hd⟩ := hmain _ _ (.append _ _) hvalid hnew he
    exact ⟨hs, hev, .inl hd⟩
  | some d =>
    obtain ⟨hs, hev, rfl⟩ := hmain _ _ (.refl _) hv (hg d rfl) he
    exact ⟨hs, hev, .inr rfl⟩

theorem Tab.Holds.foldl {n : Nat} {new old : Tab} (hnew : Tab.Holds n new)
    (hold : Tab.Holds n old) : Tab.Holds n (new.foldl Bindtab.insert old) := by
  induction new generalizing old with
  | nil => exact hold
  | cons b bs ih =>
    obtain ⟨k, x⟩ := b
    refine ih (fun k p hp => hnew k p (List.mem_cons_of_mem _ hp)) (hold.insert ?_)
    rintro p rfl
    exact hnew k p List.mem_cons_self

theorem overwriteWith_spec {h h' : Heap} {d t : Nat} (hv : h.Valid) (hd : h.IsDict d)
    (ho : overwriteWith d t h = some ((), h')) : h.Evolves h' ∧ h'.Valid := by
  replace ho : (match h.dictTab t with
    | none => Mem.stuck
    | some tab => do
      let new ← copyTab tab
      match ← Mem.load d with
      | .dict old st => Mem.store d (.dict (new.foldl Bindtab.insert old) st)
      | _ => Mem.stuck : Mem Unit) h = some ((), h') := ho
  cases ht : h.dictTab t with
  | none =>
    rw [ht] at ho
    cases ho
  | some tab =>
    rw [ht] at ho
    obtain ⟨⟨new, h₁⟩, hc, ho⟩ := Option.bind_eq_some_iff.mp ho
    obtain ⟨hg, hcopied⟩ := copyTab_spec hv (hv.dictTab ht) hc
    obtain ⟨old, st, hd⟩ := Heap.isDict_iff.mp hd
    have hd₁ := hg.getElem? hd
    obtain ⟨⟨o, h₂⟩, hload, ho⟩ := Option.bind_eq_some_iff.mp ho
    obtain ⟨o, ha, hload⟩ := Option.map_eq_some_iff.mp hload
    cases hload
    rw [hd₁] at ha
    cases ha
    cases ho
    have hev : h.Evolves h₁ := by
      obtain ⟨l, rfl, -⟩ := hg
      exact .append h l
    have hfine : (Obj.dict (new.foldl Bindtab.insert old) st).Fine h₁.length :=
      hcopied.holds.foldl (hg.valid hv d _ hd₁)
    exact ⟨hev.trans (.set (Heap.isDict_iff.mpr ⟨old, st, hd₁⟩) _ st), (hg.valid hv).set hfine d⟩

theorem bindGlobals_sound {s t : State} {d : Nat} (hs : s.Sound) (hd : s.heap.IsDict d)
    (hne : ∀ l ∈ s.stack, l.bindings ≠ some d) (hb : bindGlobals d s = some ((), t)) :
    t.Sound ∧ s.heap.Evolves t.heap ∧ (t.globals = s.globals ∨ t.globals = d) := by
  replace hb : (match s.heap.dictTab s.globals with
    | none => fun _ => none
    | some [] => set { s with
        globals := d
        stack := s.stack.modify s.globalFrames fun l => { l with bindings := some d } }
    | some _ => onHeap (overwriteWith s.globals d) : Act Unit) s = some ((), t) := hb
  match hg : s.heap.dictTab s.globals with
  | none =>
    rw [hg] at hb
    cases hb
  | some [] =>
    rw [hg] at hb
    cases hb
    have hmod (i : Nat) (l : Layer) (hl : (s.stack.modify s.globalFrames fun l =>
        { l with bindings := some d })[i]? = some l) :
        l = ⟨some d, .globals⟩ ∨ s.stack[i]? = some l := by
      rw [List.getElem?_modify] at hl
      split at hl
      · next hi =>
        rw [← hi, hs.base] at hl
        exact .inl (Option.some.inj hl).symm
      · exact .inr (by simpa using hl)
    refine ⟨⟨⟨?_, fun i hi l hl => ?_⟩, hs.valid, hs.universals, hd, fun l hl => ?_⟩, .refl _,
      .inr rfl⟩
    · simp [hs.base]
    · obtain rfl | hl := hmod i l hl
      · exact nofun
      · exact hs.below i hi l hl
    · obtain ⟨i, hl⟩ := List.mem_iff_getElem?.mp hl
      obtain rfl | hl := hmod i l hl
      · exact .of_table hd.isTable nofun
      · have hl := List.mem_of_getElem? hl
        exact (hs.layers l hl).globals (hne l hl)
  | some (b :: bs) =>
    rw [hg] at hb
    obtain ⟨⟨⟨⟩, h⟩, ho, hb⟩ := Option.map_eq_some_iff.mp hb
    cases hb
    obtain ⟨hev, hv⟩ := overwriteWith_spec hs.valid hs.globals ho
    exact ⟨hs.evolve hev hv rfl rfl rfl rfl, hev, .inl rfl⟩

theorem mem_captureClosure {ls c : List Layer} {l : Layer} (hl : l ∈ captureClosure ls c) :
    l ∈ ls ∨ l ∈ c := by
  induction ls generalizing c with
  | nil => cases hl
  | cons m ls ih =>
    have hhead (hl : l ∈ m :: c) : l ∈ m :: ls ∨ l ∈ c := by
      obtain rfl | hl := List.mem_cons.mp hl
      · exact .inl List.mem_cons_self
      · exact .inr hl
    have hrest (hl : l ∈ captureClosure ls (m :: c)) : l ∈ m :: ls ∨ l ∈ c :=
      (ih hl).elim (fun h => .inl (List.mem_cons_of_mem _ h)) hhead
    unfold captureClosure at hl
    cases hm : m.typ with
    | unirefs | locals =>
      rw [hm] at hl
      exact hrest hl
    | localsBarrier | localsBarrierWeak =>
      rw [hm] at hl
      exact hhead hl
    | none | universals | globals | library =>
      rw [hm] at hl
      exact .inr hl

theorem newTab_spec {h : Heap} (hv : h.Valid) {t : Tab} (ht : ∀ b ∈ t, b.2 = none) :
    Heap.IsDict (h ++ [.dict t none]) h.length ∧ Heap.Valid (h ++ [.dict t none]) := by
  refine ⟨Heap.isDict_iff.mpr ⟨t, none, ?_⟩, hv.append fun o ho => ?_⟩
  · rw [List.getElem?_append_right le_rfl, Nat.sub_self]
    rfl
  · cases List.mem_singleton.mp ho
    intro k p hp
    cases ht _ hp

theorem pushBindings_sound {s t : State} {typ : DeclType} {b : Nat} (hs : s.Sound)
    (hb : pushBindings typ s = some (b, t)) :
    t.Sound ∧ s.heap.Evolves t.heap ∧ t.globals = s.globals := by
  cases typ with
  | universals | globals =>
    cases hb
    exact ⟨hs, .refl _, rfl⟩
  | locals =>
    cases hb
    obtain ⟨hd, hv⟩ := newTab_spec hs.valid (List.forall_mem_nil _)
    refine ⟨hs.push (.append _ _) hv (List.forall_mem_singleton.mpr ?_) rfl rfl rfl rfl rfl,
      .append _ _, rfl⟩
    exact .of_table hd.isTable nofun

theorem bindtab_names (bs : List (Str × Option Expr)) :
    ∀ b ∈ bindtab (bs.map fun b => (b.1, (none : Option Ptr))), b.2 = none := by
  have hinsert (t : Tab) (k : Str) (ht : ∀ b ∈ t, b.2 = none) :
      ∀ b ∈ Bindtab.insert t (k, none), b.2 = none := by
    intro b hb
    unfold Bindtab.insert at hb
    split at hb
    · obtain ⟨c, hc, rfl⟩ := List.mem_map.mp hb
      split
      · rfl
      · exact ht c hc
    · obtain hb | hb := List.mem_append.mp hb
      · exact ht b hb
      · rw [List.mem_singleton.mp hb]
  have hfold (t : Tab) (ht : ∀ b ∈ t, b.2 = none) :
      ∀ b ∈ (bs.map fun b => (b.1, (none : Option Ptr))).foldl Bindtab.insert t, b.2 = none := by
    induction bs generalizing t with
    | nil => exact ht
    | cons b bs ih => exact ih _ (hinsert t b.1 ht)
  exact hfold [] (List.forall_mem_nil _)

theorem pushReferences_sound {s t : State} {bs : List (Str × Option Expr)} {typ : DeclType}
    (hs : s.Sound) (hb : pushReferences bs typ s = some ((), t)) :
    t.Sound ∧ s.heap.Evolves t.heap ∧ t.globals = s.globals := by
  cases typ with
  | locals | globals =>
    cases hb
    exact ⟨hs, .refl _, rfl⟩
  | universals =>
    cases hb
    obtain ⟨hd, hv⟩ := newTab_spec hs.valid (bindtab_names bs)
    refine ⟨hs.push (.append _ _) hv (List.forall_mem_singleton.mpr ?_) rfl rfl rfl rfl rfl,
      .append _ _, rfl⟩
    refine ⟨fun b hb => ?_, fun _ b hb => ?_⟩
    · cases hb
      exact hd.isTable
    · cases hb
      exact ⟨hd, hs.globals.isTable.lt.ne'⟩

theorem pushLambda_sound {s t : State} {b n : Nat} {c : Option (List Layer)} (hs : s.Sound)
    (hb : s.heap.IsTable b) (hc : ∀ ls, c = some ls → ∀ l ∈ ls, l.Fits s.heap s.globals)
    (hp : pushLambda b c s = some (n, t)) :
    t.Sound ∧ t.heap = s.heap ∧ t.globals = s.globals := by
  have hargs : Layer.Fits s.heap s.globals ⟨some b, .locals⟩ := .of_table hb nofun
  cases c with
  | none =>
    cases hp
    exact ⟨hs.push (.refl _) hs.valid (List.forall_mem_singleton.mpr hargs) rfl rfl rfl rfl rfl,
      rfl, rfl⟩
  | some ls =>
    cases hp
    refine ⟨hs.push (.refl _) hs.valid (fun l hl => ?_) rfl rfl rfl rfl (List.append_assoc ..), rfl,
      rfl⟩
    obtain hl | hl := List.mem_append.mp hl
    · split at hl
      · exact hc ls rfl l hl
      · obtain rfl | hl := List.mem_cons.mp hl
        · exact .barrier
        · exact hc ls rfl l hl
    · rw [List.mem_singleton.mp hl]
      exact hargs

theorem Scope.step_sound {s s' : Scope} {e : Event} (hs : s.Sound) (he : s.Promised e)
    (hstep : s.step e = some s') : s'.Sound := by
  cases e with
  | enter libs u g =>
    obtain ⟨⟨⟨⟩, t⟩, ht, hstep⟩ := Option.map_eq_some_iff.mp hstep
    cases hstep
    obtain ⟨hlibs, hu, hg⟩ := he
    obtain ⟨hsound, hev, hd⟩ := enter_sound hs.state.valid hlibs hu (fun d h => (hg d h).1) ht
    refine ⟨hsound, fun ls hls l hl => ((hs.closures ls hls l hl).globals ?_).evolves hev⟩
    obtain hd | hd := hd
    · intro hb
      exact (hs.closures ls hls l hl).table _ hb |>.lt.ne hd
    · exact (hg _ hd).2 ls hls l hl
  | bindGlobals d =>
    obtain ⟨⟨⟨⟩, t⟩, ht, hstep⟩ := Option.map_eq_some_iff.mp hstep
    cases hstep
    obtain ⟨hd, hne, hcl⟩ := he
    obtain ⟨hsound, hev, hg⟩ := bindGlobals_sound hs.state hd hne ht
    refine ⟨hsound, fun ls hls l hl => ?_⟩
    have hl' := (hs.closures ls hls l hl).evolves hev
    obtain hg | hg := hg
    · rwa [hg]
    · rw [hg]
      exact hl'.globals (hcl ls hls l hl)
  | pushLocals b typ =>
    cases hstep
    refine ⟨hs.state.push (.refl _) hs.state.valid (List.forall_mem_singleton.mpr ?_)
      rfl rfl rfl rfl
      rfl, hs.closures⟩
    exact .of_table he.1 he.2
  | pushLambda b c =>
    obtain ⟨⟨n, t⟩, ht, hstep⟩ := Option.map_eq_some_iff.mp hstep
    cases hstep
    obtain ⟨hsound, hh, hg⟩ := pushLambda_sound hs.state he.1
      (fun ls hls => hs.closures ls (he.2 ls hls)) ht
    exact ⟨hsound, by rw [hh, hg]; exact hs.closures⟩
  | pushBindings typ =>
    obtain ⟨⟨b, t⟩, ht, hstep⟩ := Option.map_eq_some_iff.mp hstep
    cases hstep
    obtain ⟨hsound, hev, hg⟩ := pushBindings_sound hs.state ht
    refine ⟨hsound, fun ls hls l hl => ?_⟩
    rw [hg]
    exact (hs.closures ls hls l hl).evolves hev
  | pushReferences bs typ =>
    obtain ⟨⟨⟨⟩, t⟩, ht, hstep⟩ := Option.map_eq_some_iff.mp hstep
    cases hstep
    obtain ⟨hsound, hev, hg⟩ := pushReferences_sound hs.state ht
    refine ⟨hsound, fun ls hls l hl => ?_⟩
    rw [hg]
    exact (hs.closures ls hls l hl).evolves hev
  | popTo i =>
    cases hstep
    exact ⟨hs.state.pop he, hs.closures⟩
  | close =>
    cases hstep
    refine ⟨hs.state, fun ls hls l hl => ?_⟩
    obtain rfl | hls := List.mem_cons.mp hls
    · obtain hl | hl := mem_captureClosure hl
      · exact hs.state.layers l (List.mem_reverse.mp hl)
      · cases hl
    · exact hs.closures ls hls l hl
  | learn ls =>
    cases hstep
    refine ⟨hs.state, fun ls' hls l hl => ?_⟩
    obtain rfl | hls := List.mem_cons.mp hls
    · exact he l hl
    · exact hs.closures ls' hls l hl
  | evaluate t =>
    cases hstep
    exact ⟨hs.state.evolve he.1 he.2 rfl rfl rfl rfl, fun ls hls l hl =>
      (hs.closures ls hls l hl).evolves he.1⟩

theorem Scope.reach_sound {s : Scope} (hr : Scope.system.Reach Scope.Promised s) : s.Sound := by
  refine hr.invariant (fun s hs => ?_) fun s e s' _ hs he hstep => step_sound hs he hstep
  obtain ⟨hc, t, libs, u, g, hv, ⟨hlibs, hu, hg⟩, he⟩ := hs
  refine ⟨(enter_sound hv hlibs hu (fun d h => (hg d h).1) he).1, ?_⟩
  rw [hc]
  exact fun _ h => nomatch h

end Invariant

section Visible

/-- The layers in which a name is looked for, from the top down.  A barrier leads to the `base`. -/
def visibleFrom (base : List Layer) : List Layer → List Layer
  | [] => []
  | l :: ls => l :: if isBarrier l then base else visibleFrom base ls

/-- The layers of the libraries, the universals and the globals, from the top down. -/
def State.base (s : State) : List Layer := (s.stack.take (s.globalFrames + 1)).reverse

def State.visible (s : State) : List Layer := visibleFrom s.base s.stack.reverse

def Heap.firstOf (h : Heap) (nm : Str) : List Layer → Option (Option (Layer × Option Ptr))
  | [] => some none
  | l :: ls => match l.bindings with
    | none => h.firstOf nm ls
    | some b => do match (← h.tab b).lookup nm with
      | some x => some (some (l, x))
      | none => h.firstOf nm ls

theorem visibleFrom_plain {base ls : List Layer} (hls : ∀ l ∈ ls, l.typ ≠ .localsBarrier) :
    visibleFrom base ls = ls := by
  induction ls with
  | nil => rfl
  | cons l ls ih =>
    have hl : isBarrier l = false := decide_eq_false (hls l List.mem_cons_self)
    rw [visibleFrom, hl, ih fun l hl => hls l (List.mem_cons_of_mem _ hl)]
    rfl

variable {s : State}

theorem State.Based.base_plain (hs : s.Based) : ∀ l ∈ s.base, l.typ ≠ .localsBarrier := by
  intro l hl
  obtain ⟨i, hl⟩ := List.mem_iff_getElem?.mp (List.mem_reverse.mp hl)
  have hi : i < s.globalFrames + 1 :=
    (List.getElem?_eq_some_iff.mp hl).1.trans_le (List.length_take_le ..)
  rw [List.getElem?_take_of_lt hi] at hl
  exact hs.below i (Nat.le_of_lt_succ hi) l hl

theorem findLayer_eq (hs : s.Based) (nm : Str) {f i : Nat} (hi : i ≤ s.stack.length) (hf : i < f) :
    s.findLayer nm f i =
      s.heap.firstOf nm (visibleFrom s.base (s.stack.take i).reverse) := by
  induction f generalizing i with
  | zero => exact absurd hf (Nat.not_lt_zero i)
  | succ f ih =>
    cases i with
    | zero => rfl
    | succ i =>
      obtain ⟨l, hl⟩ : ∃ l, s.stack[i]? = some l := ⟨_, List.getElem?_eq_getElem hi⟩
      have htake : (s.stack.take (i + 1)).reverse = l :: (s.stack.take i).reverse := by
        rw [List.take_add_one, hl, Option.toList_some, List.reverse_append]
        rfl
      have hrest : s.findLayer nm f (s.decStackPointer l i) = s.heap.firstOf nm
          (if isBarrier l then s.base else visibleFrom s.base (s.stack.take i).reverse) := by
        unfold State.decStackPointer isBarrier
        by_cases hb : l.typ = .localsBarrier
        · have hgi : s.globalFrames < i := by
            by_contra hgi
            exact hs.below i (not_lt.mp hgi) l hl hb
          rw [if_pos hb, if_pos (decide_eq_true hb), ih (hgi.trans hi)
            ((Nat.succ_le_of_lt hgi).trans_lt (Nat.lt_of_succ_lt_succ hf))]
          exact congrArg _ (visibleFrom_plain hs.base_plain)
        · rw [if_neg hb, if_neg (by simpa using hb), ih (Nat.le_of_succ_le hi)
            (Nat.lt_of_succ_lt_succ hf)]
      rw [htake, State.findLayer, visibleFrom, Heap.firstOf, hl, ← hrest]
      show (match l.bindings with
        | none => s.findLayer nm f (s.decStackPointer l i)
        | some b => do match ← s.lookupIn b nm with
          | some x => some (some (l, x))
          | none => s.findLayer nm f (s.decStackPointer l i)) = _
      cases l.bindings with
      | none => rfl
      | some b =>
        unfold State.lookupIn
        dsimp only
        cases s.heap.tab b <;> rfl

end Visible

end Okws.Pub3
