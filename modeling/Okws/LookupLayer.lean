import Okws.Lookup

namespace Okws.Pub3

open Zbuf Lib

def Layer.isLocal (l : Layer) : Bool :=
  l.typ = .locals || l.typ = .localsBarrier || l.typ = .localsBarrierWeak

/-- The loop over local layers, on the layers from the top down and the table of the topmost one
that has a table: the table that has the name, and the topmost one. -/
def searchLocals (h : Heap) (nm : Str) (top : Option Nat) :
    List Layer → Option (Option Nat × Option Nat)
  | [] => some (none, top)
  | l :: ls =>
    if l.isLocal then do
      let top := top.or l.bindings
      let next := if isBarrier l then some (none, top) else searchLocals h nm top ls
      match l.bindings with
      | none => next
      | some b => match (← h.tab b).lookup nm with
        | some _ => some (some b, top)
        | none => next
    else some (none, top)

def lookupLayer (nm : Str) (lt : LayerType) (creat : Bool) : Act (Option Nat) := do
  let s ← get
  match lt with
  | .locals => match searchLocals s.heap nm none s.stack.reverse with
    | none => fun _ => none
    | some (some b, _) => some <$> onHeap (mutate b)
    | some (none, top) => match (if creat then top else none) with
      | none => pure none
      | some b => some <$> onHeap (mutate b)
  | .globals => pure (some s.globals)
  | .universals => pure (some s.universals)
  | _ => pure none

def Heap.Backs (h : Heap) (d b : Nat) : Prop :=
  h.IsDict d ∧ (d = b ∨ ∃ o, h[b]? = some (.cowTab o (some d)))

/-- For a name that is found in a local layer it is the table of that layer; and where any local
layer is in sight that has a table, the name has the value that is inserted. -/
def State.BindsLocal (s : State) (nm : Str) : Prop :=
  (∀ l x creat, s.findLayer nm (s.stack.length + 1) s.stack.length = some (some (l, x)) →
    l.isLocal = true → ∃ d t b, lookupLayer nm .locals creat s = some (some d, t) ∧
      l.bindings = some b ∧ t.heap.Backs d b) ∧
  ((∃ l ∈ s.visible, l.isLocal = true ∧ l.bindings ≠ none) →
    ∃ d t, lookupLayer nm .locals true s = some (some d, t) ∧
      ∀ v, ∃ u, insertTab d nm (some v) t = some ((), u) ∧ u.lookupVal nm = some (some v))

/-- Above the topmost local layer with a table, and above a local one that is the first with the
name, there are but local layers in sight. -/
def State.Uncovered (s : State) (nm : Str) : Prop :=
  ∀ above l below, s.visible = above ++ l :: below → l.isLocal = true → l.bindings ≠ none →
    (∀ m ∈ above, m.isLocal = true → m.bindings = none) ∨
      s.heap.Has nm l ∧ (∀ m ∈ above, ¬ s.heap.Has nm m) →
    ∀ m ∈ above, m.isLocal = true

/-- The local layers in sight with none of another kind above them. -/
def State.locals (s : State) : List Layer := s.visible.takeWhile Layer.isLocal

/-- The layer whose table is asked for: the first one that has the name, or else the first one that
has a table. -/
def State.Target (s : State) (nm : Str) (l : Layer) : Prop :=
  ∃ above below, s.locals = above ++ l :: below ∧
    (s.heap.Has nm l ∧ (∀ m ∈ above, ¬ s.heap.Has nm m) ∨
      (∀ m ∈ s.locals, ¬ s.heap.Has nm m) ∧ l.bindings ≠ none ∧ ∀ m ∈ above, m.bindings = none)

/-- If that table is not copied yet, all its values have copies. -/
def State.Writable (s : State) (nm : Str) : Prop :=
  ∀ l b o t, s.Target nm l → l.bindings = some b → s.heap[b]? = some (.cowTab o none) →
    s.heap.backing o = some t → ∀ k p, (k, some p) ∈ t → ¬ s.heap.Emptied p

section Rooted

def State.Rooted (s : State) : Prop := ∀ l ∈ s.base, l.isLocal = false

variable {s t : State}

theorem rooted_of_prefix (hs : s.Rooted) (hf : t.globalFrames = s.globalFrames)
    (hstack : t.stack.take (s.globalFrames + 1) = s.stack.take (s.globalFrames + 1)) :
    t.Rooted := by
  rwa [State.Rooted, State.base, hf, hstack]

theorem rooted_push (hs : s.Sound) (hr : s.Rooted) {ls : List Layer}
    (hf : t.globalFrames = s.globalFrames) (hstack : t.stack = s.stack ++ ls) : t.Rooted :=
  rooted_of_prefix hr hf (by rw [hstack, List.take_append_of_le_length hs.lt])

theorem libraryLayers_typ {h h' : Heap} {ts : List Nat} {ls : List Layer}
    (h₁ : libraryLayers ts h = some (ls, h')) : ∀ l ∈ ls, l.typ = .library := by
  induction ts generalizing h ls with
  | nil =>
    cases h₁
    exact fun _ hl => nomatch hl
  | cons t ts ih =>
    obtain ⟨⟨ls', h₂⟩, hls, h₁⟩ := Option.bind_eq_some_iff.mp h₁
    cases h₁
    exact List.forall_mem_cons.mpr ⟨rfl, ih hls⟩

theorem enter_rooted {libs : List Nat} {u : Nat} {g : Option Nat}
    (he : enter libs u g s = some ((), t)) : t.Rooted := by
  have hmain (h : Heap) (d : Nat) (he : (do
        let ls ← onHeap (libraryLayers libs)
        modify fun s => { s with
          universals := u
          globals := d
          stack := ls ++ [⟨some u, .universals⟩, ⟨some d, .globals⟩]
          globalFrames := ls.length + 1 } : Act Unit) { s with heap := h } = some ((), t)) :
      t.Rooted := by
    obtain ⟨⟨_, s'⟩, hrun, he⟩ := Option.bind_eq_some_iff.mp he
    obtain ⟨⟨ls, h'⟩, hls, hs'⟩ := Option.map_eq_some_iff.mp hrun
    cases hs'
    cases he
    intro l hl
    obtain hl | hl := List.mem_append.mp (List.mem_of_mem_take (List.mem_reverse.mp hl))
    · rw [Layer.isLocal, libraryLayers_typ hls l hl]
      rfl
    · obtain rfl | rfl := by simpa using hl
      · rfl
      · rfl
  cases g with
  | none => exact hmain _ _ he
  | some d => exact hmain _ _ he

theorem bindGlobals_eq (d : Nat) (s : State) : bindGlobals d s =
    (match s.heap.dictTab s.globals with
    | none => fun _ => none
    | some [] => set { s with
        globals := d
        stack := s.stack.modify s.globalFrames fun l => { l with bindings := some d } }
    | some _ => onHeap (overwriteWith s.globals d) : Act Unit) s := rfl

theorem bindGlobals_rooted {d : Nat} (hr : s.Rooted) (hb : bindGlobals d s = some ((), t)) :
    t.Rooted := by
  rw [bindGlobals_eq] at hb
  rcases hg : s.heap.dictTab s.globals with _ | _ | ⟨b, bs⟩
  · rw [hg] at hb
    cases hb
  · rw [hg] at hb
    cases hb
    intro l hl
    obtain ⟨i, hl⟩ := List.mem_iff_getElem?.mp (List.mem_reverse.mp hl)
    have hi : i < s.globalFrames + 1 :=
      (List.getElem?_eq_some_iff.mp hl).1.trans_le (List.length_take_le ..)
    rw [List.getElem?_take_of_lt hi, List.getElem?_modify] at hl
    obtain ⟨m, hm, rfl⟩ := Option.map_eq_some_iff.mp hl
    have hlocal : m.isLocal = false := by
      refine hr m (List.mem_reverse.mpr (List.mem_of_getElem? (i := i) ?_))
      rwa [List.getElem?_take_of_lt hi]
    split <;> exact hlocal
  · rw [hg] at hb
    obtain ⟨⟨⟨⟩, h⟩, -, hb⟩ := Option.map_eq_some_iff.mp hb
    cases hb
    exact hr

theorem Scope.step_rooted {s s' : Scope} {e : Event} (hs : s.Sound) (hr : s.state.Rooted)
    (he : s.Promised e) (hstep : s.step e = some s') : s'.state.Rooted := by
  cases e with
  | enter libs u g =>
    obtain ⟨⟨⟨⟩, t⟩, ht, hstep⟩ := Option.map_eq_some_iff.mp hstep
    cases hstep
    exact enter_rooted ht
  | bindGlobals d =>
    obtain ⟨⟨⟨⟩, t⟩, ht, hstep⟩ := Option.map_eq_some_iff.mp hstep
    cases hstep
    exact bindGlobals_rooted hr ht
  | pushLocals b typ =>
    cases hstep
    exact rooted_push hs.state hr rfl rfl
  | pushLambda b c =>
    cases c with
    | none =>
      cases hstep
      exact rooted_push hs.state hr rfl rfl
    | some ls =>
      cases hstep
      exact rooted_push hs.state hr rfl (List.append_assoc ..)
  | pushBindings typ =>
    cases typ with
    | universals | globals =>
      cases hstep
      exact hr
    | locals =>
      cases hstep
      exact rooted_push hs.state hr rfl rfl
  | pushReferences bs typ =>
    cases typ with
    | locals | globals =>
      cases hstep
      exact hr
    | universals =>
      cases hstep
      exact rooted_push hs.state hr rfl rfl
  | popTo i =>
    cases hstep
    have hi : s.state.globalFrames < i := he
    exact rooted_of_prefix hr rfl (by rw [List.take_take, min_eq_left hi])
  | close | learn ls | evaluate t =>
    cases hstep
    exact hr

theorem Scope.reach_rooted {s : Scope} (hr : Scope.system.Reach Scope.Promised s) :
    s.state.Rooted := by
  refine hr.invariant (I := fun s => s.state.Rooted) (fun s hs => ?_)
    fun s e s' hr' hs he hstep => step_rooted (reach_sound hr') hs he hstep
  obtain ⟨-, t, libs, u, g, -, -, he⟩ := hs
  exact enter_rooted he

end Rooted

section Loop

variable {h : Heap} {nm : Str} {top : Option Nat} {l : Layer} {ls : List Layer}

def Searched (h : Heap) (nm : Str) (top : Option Nat) (ls : List Layer)
    (r : Option (Option Nat × Option Nat)) : Prop :=
  (∃ above l below b top', ls = above ++ l :: below ∧ (∀ m ∈ above, ¬ h.Has nm m) ∧ h.Has nm l ∧
    l.bindings = some b ∧ r = some (some b, top')) ∨
  (∀ m ∈ ls, ¬ h.Has nm m) ∧ r = some (none, top.or (ls.findSome? Layer.bindings))

theorem searched_nil : Searched h nm top [] (some (none, top)) :=
  .inr ⟨List.forall_mem_nil _, by simp⟩

theorem Searched.cons {r : Option (Option Nat × Option Nat)} (hl : ¬ h.Has nm l)
    (hr : Searched h nm (top.or l.bindings) ls r) : Searched h nm top (l :: ls) r := by
  obtain ⟨above, m, below, b, top', rfl, habove, hm, hb, rfl⟩ | ⟨hls, rfl⟩ := hr
  · exact .inl ⟨l :: above, m, below, b, top', rfl, List.forall_mem_cons.mpr ⟨hl, habove⟩, hm, hb,
      rfl⟩
  · refine .inr ⟨List.forall_mem_cons.mpr ⟨hl, hls⟩, ?_⟩
    rw [List.findSome?_cons, Option.or_assoc]
    cases l.bindings <;> rfl

theorem searched_searchLocals {base : List Layer} (hbase : ∀ l ∈ base, l.isLocal = false)
    (hls : ∀ l ∈ ls, ∀ b, l.bindings = some b → ∃ t, h.tab b = some t) (top : Option Nat) :
    Searched h nm top ((visibleFrom base ls).takeWhile Layer.isLocal)
      (searchLocals h nm top ls) := by
  induction ls generalizing top with
  | nil => exact searched_nil
  | cons l ls ih =>
    rw [visibleFrom, searchLocals]
    by_cases hl : l.isLocal = true
    · rw [List.takeWhile_cons_of_pos hl, if_pos hl]
      have hnext : Searched h nm (top.or l.bindings)
          ((if isBarrier l then base else visibleFrom base ls).takeWhile Layer.isLocal)
          (if isBarrier l then some (none, top.or l.bindings)
            else searchLocals h nm (top.or l.bindings) ls) := by
        split
        · have hnone : base.takeWhile Layer.isLocal = [] := by
            cases base with
            | nil => rfl
            | cons m base => exact List.takeWhile_cons_of_neg (by simp [hbase m List.mem_cons_self])
          rw [hnone]
          exact searched_nil
        · exact ih (fun m hm => hls m (List.mem_cons_of_mem _ hm)) _
      have hcons := fun hnot => hnext.cons hnot
      dsimp only
      cases hb : l.bindings with
      | none =>
        rw [hb] at hcons
        refine hcons ?_
        rintro ⟨c, _, hc, _⟩
        cases hb.symm.trans hc
      | some b =>
        rw [hb] at hcons
        obtain ⟨t, ht⟩ := hls l List.mem_cons_self b hb
        dsimp only
        rw [ht, Option.bind_eq_bind, Option.bind_some]
        cases hx : t.lookup nm with
        | none =>
          refine hcons ?_
          rintro ⟨c, t', hc, ht', hx'⟩
          refine hx' ?_
          cases hb.symm.trans hc
          cases ht.symm.trans ht'
          exact hx
        | some x =>
          have hhas : h.Has nm l := ⟨b, t, hb, ht, by rw [hx]; rintro ⟨⟩⟩
          exact .inl ⟨[], l, _, b, _, rfl, List.forall_mem_nil _, hhas, hb, rfl⟩
    · rw [List.takeWhile_cons_of_neg hl, if_neg hl]
      exact searched_nil

end Loop

section Layers

variable {s : State} {nm : Str} {l : Layer} {above below : List Layer} {creat : Bool}

theorem mutate_backs {h h' : Heap} {b d : Nat} {t : Tab} (hv : h.Valid) (hb : h.tab b = some t)
    (hm : mutate b h = some (d, h')) : h'.Backs d b := by
  have hmutate := hm
  obtain ⟨t', hmut⟩ := mutate_spec hv hb hm
  refine ⟨Option.isSome_iff_exists.mpr ⟨t', hmut.dict⟩, ?_⟩
  obtain ⟨⟨o, h₁⟩, ho, hm⟩ := Option.bind_eq_some_iff.mp hm
  obtain ⟨o, ha, ho⟩ := Option.map_eq_some_iff.mp ho
  cases ho
  cases o with
  | dict t' st =>
    cases hm
    exact .inl rfl
  | cowTab o c =>
    cases c with
    | some c =>
      cases hm
      exact .inr ⟨o, ha⟩
    | none =>
      rw [mutate_uncopied ha] at hmutate
      cases hback : h.backing o with
      | none =>
        rw [hback] at hmutate
        cases hmutate
      | some t =>
        rw [hback] at hmutate
        obtain ⟨⟨t', h₁⟩, hc, hm⟩ := Option.bind_eq_some_iff.mp hmutate
        cases hm
        have hb₁ := (copyTab_spec hv (hv.backing ha hback) hc).1.getElem? ha
        have hb₂ := Heap.getElem?_append_of_some hb₁ [Obj.dict t' none]
        exact .inr ⟨o, List.getElem?_set_self (List.getElem?_eq_some_iff.mp hb₂).1⟩
  | list | cow | lambda | compiled => cases hm

theorem searched_locals (hs : s.Sound) (hr : s.Rooted) (nm : Str) :
    Searched s.heap nm none s.locals (searchLocals s.heap nm none s.stack.reverse) :=
  searched_searchLocals hr (fun l hl b hb => Option.isSome_iff_exists.mp
    ((hs.layers l (List.mem_reverse.mp hl)).table b hb)) none

def State.give (s : State) (b : Nat) : Option (Option Nat × State) :=
  (mutate b s.heap).map fun r => (some r.1, { s with heap := r.2 })

theorem lookupLayer_eq (nm : Str) (creat : Bool) (s : State) : lookupLayer nm .locals creat s =
    (searchLocals s.heap nm none s.stack.reverse).bind fun r => match r with
      | (some b, _) => s.give b
      | (none, top) => match (if creat then top else none) with
        | none => some (none, s)
        | some b => s.give b := by
  have hgive (b : Nat) : (some <$> onHeap (mutate b) : Act (Option Nat)) s = s.give b := by
    show Option.bind (Option.map _ (mutate b s.heap)) _ = Option.map _ (mutate b s.heap)
    cases mutate b s.heap <;> rfl
  show (match searchLocals s.heap nm none s.stack.reverse with
    | none => fun _ => none
    | some (some b, _) => some <$> onHeap (mutate b)
    | some (none, top) => match (if creat then top else none) with
      | none => pure none
      | some b => some <$> onHeap (mutate b) : Act (Option Nat)) s = _
  obtain _ | ⟨_ | b, top⟩ := searchLocals s.heap nm none s.stack.reverse
  · rfl
  · rw [Option.bind_some]
    dsimp only
    cases if creat then top else none with
    | none => rfl
    | some b => exact hgive b
  · exact hgive b

theorem State.locals_sub (hl : l ∈ s.locals) : l ∈ s.visible :=
  (List.takeWhile_sublist _).subset hl

theorem lookupLayer_has (hs : s.Sound) (hr : s.Rooted) (heq : s.locals = above ++ l :: below)
    (habove : ∀ m ∈ above, ¬ s.heap.Has nm m) (hl : s.heap.Has nm l) (creat : Bool) :
    ∃ b, l.bindings = some b ∧ lookupLayer nm .locals creat s = s.give b := by
  have hfirst {above below : List Layer} {l : Layer} (heq : s.locals = above ++ l :: below)
      (habove : ∀ m ∈ above, ¬ s.heap.Has nm m) (hl : s.heap.Has nm l) :
      ∃ x, s.heap.firstOf nm s.locals = some (some (l, x)) :=
    (firstOf_iff fun m hm => hs.tables m (State.locals_sub hm)).mpr ⟨above, below, heq, habove, hl⟩
  obtain ⟨above', l', below', b, top', heq', habove', hl', hb, hsearch⟩ | ⟨hnone, -⟩ :=
    searched_locals hs hr nm
  · obtain ⟨x, hx⟩ := hfirst heq habove hl
    obtain ⟨x', hx'⟩ := hfirst heq' habove' hl'
    cases hx.symm.trans hx'
    exact ⟨b, hb, by rw [lookupLayer_eq, hsearch, Option.bind_some]⟩
  · exact absurd hl (hnone l (by rw [heq]; simp))

theorem lookupLayer_none (hs : s.Sound) (hr : s.Rooted) (hnone : ∀ m ∈ s.locals, ¬ s.heap.Has nm m)
    (creat : Bool) : lookupLayer nm .locals creat s =
      match (if creat then s.locals.findSome? Layer.bindings else none) with
      | none => some (none, s)
      | some b => s.give b := by
  obtain ⟨above, l, below, b, top', heq, -, hl, -⟩ | ⟨-, hsearch⟩ := searched_locals hs hr nm
  · exact absurd hl (hnone l (by rw [heq]; simp))
  · rw [lookupLayer_eq, hsearch, Option.bind_some, Option.none_or]

theorem lookupLayer_target (hs : s.Sound) (hr : s.Rooted) (ht : s.Target nm l) :
    ∃ b, l.bindings = some b ∧ lookupLayer nm .locals true s = s.give b := by
  obtain ⟨above, below, heq, ⟨hl, habove⟩ | ⟨hnone, hne, habove⟩⟩ := ht
  · exact lookupLayer_has hs hr heq habove hl true
  · obtain ⟨b, hb⟩ := Option.ne_none_iff_exists'.mp hne
    refine ⟨b, hb, ?_⟩
    have hfirst : s.locals.findSome? Layer.bindings = some b := by
      rw [heq, List.findSome?_append, List.findSome?_eq_none_iff.mpr habove, Option.none_or,
        List.findSome?_cons, hb]
    rw [lookupLayer_none hs hr hnone, if_pos rfl, hfirst]

theorem target_writable (hs : s.Sound) (ht : s.Target nm l) {b : Nat} (hb : l.bindings = some b) :
    (mutate b s.heap).isSome = true ↔ ∀ o t, s.heap[b]? = some (.cowTab o none) →
      s.heap.backing o = some t → ∀ k p, (k, some p) ∈ t → ¬ s.heap.Emptied p := by
  obtain ⟨above, below, heq, -⟩ := ht
  have hmem : l ∈ s.visible := State.locals_sub (by rw [heq]; simp)
  obtain ⟨t, ht⟩ := hs.tables l hmem b hb
  rw [mutate_isSome hs.valid ht]
  refine forall_congr' fun o => ⟨fun h t' ho ht' => ?_, fun h ho => h t ho ?_⟩
  · rw [Heap.tab, ho] at ht
    cases ht.symm.trans ht'
    exact h ho
  · rw [Heap.tab, ho] at ht
    exact ht

theorem firstOf_skip {h : Heap} {ls : List Layer} (habove : ∀ m ∈ above, m.bindings = none) :
    h.firstOf nm (above ++ ls) = h.firstOf nm ls := by
  induction above with
  | nil => rfl
  | cons m above ih =>
    obtain ⟨hm, habove⟩ := List.forall_mem_cons.mp habove
    rw [List.cons_append, Heap.firstOf, hm]
    exact ih habove

theorem write_top (hs : s.Sound) {h' : Heap} {b d : Nat} {t t' : Tab} {st : Option Bool} {v : Ptr}
    (hm : Mutated s.heap h' b d t t') (hvis : s.visible = above ++ l :: below)
    (habove : ∀ m ∈ above, m.bindings = none) (hl : l.typ ≠ .unirefs) (hb : l.bindings = some b) :
    ({ s with heap := h'.write d nm v t' st } : State).lookupVal nm = some (some v) := by
  rw [lookupVal_write hs.toBased, hvis, firstOf_skip habove, Heap.firstOf, hb]
  dsimp only
  rw [Heap.write, hm.backed, Option.bind_eq_bind, Option.bind_some, Bindtab.lookup_insert,
    if_pos rfl, Option.bind_some, State.valueOf, if_neg hl]
  rfl

theorem insertTab_eq {t : State} {d : Nat} {tab : Tab} {st : Option Bool}
    (hd : t.heap[d]? = some (.dict tab st)) (v : Ptr) :
    insertTab d nm (some v) t = some ((), { t with heap := t.heap.write d nm v tab st }) := by
  show Option.map _ (Option.bind (Mem.load d t.heap) _) = _
  rw [Mem.load, hd]
  rfl

end Layers

section Binds

variable {s : State} {nm : Str} {l : Layer} {above below : List Layer}

theorem exists_first {p : Layer → Prop} {ls : List Layer} (h : ∃ l ∈ ls, p l) :
    ∃ above l below, ls = above ++ l :: below ∧ p l ∧ ∀ m ∈ above, ¬ p m := by
  induction ls with
  | nil =>
    obtain ⟨l, hl, -⟩ := h
    cases hl
  | cons m ls ih =>
    by_cases hm : p m
    · exact ⟨[], m, ls, rfl, hm, List.forall_mem_nil _⟩
    · obtain ⟨l, hl, hp⟩ := h
      obtain rfl | hl := List.mem_cons.mp hl
      · exact absurd hp hm
      · obtain ⟨above, k, below, rfl, hk, habove⟩ := ih ⟨l, hl, hp⟩
        exact ⟨m :: above, k, below, rfl, hk, List.forall_mem_cons.mpr ⟨hm, habove⟩⟩

theorem has_bindings {h : Heap} (hl : h.Has nm l) : l.bindings ≠ none := by
  obtain ⟨b, -, hb, -⟩ := hl
  rw [hb]
  exact nofun

theorem locals_above {m : Layer} (hvis : s.visible = above ++ l :: below) (hm : m ∈ above)
    (hlocal : ¬ m.isLocal = true) : ∀ k ∈ s.locals, k ∈ above := by
  obtain ⟨as, bs, rfl⟩ := List.append_of_mem hm
  intro k hk
  rw [State.locals, hvis, List.append_assoc, List.cons_append] at hk
  refine List.mem_append_left _ ?_
  clear hm hvis
  induction as with
  | nil =>
    rw [List.nil_append, List.takeWhile_cons_of_neg hlocal] at hk
    cases hk
  | cons a as ih =>
    rw [List.cons_append] at hk
    by_cases ha : a.isLocal = true
    · rw [List.takeWhile_cons_of_pos ha] at hk
      obtain rfl | hk := List.mem_cons.mp hk
      · exact List.mem_cons_self
      · exact List.mem_cons_of_mem _ (ih hk)
    · rw [List.takeWhile_cons_of_neg ha] at hk
      cases hk

theorem locals_eq (hvis : s.visible = above ++ l :: below) (habove : ∀ m ∈ above, m.isLocal = true)
    (hl : l.isLocal = true) : s.locals = above ++ l :: below.takeWhile Layer.isLocal := by
  rw [State.locals, hvis, List.takeWhile_append_of_pos habove, List.takeWhile_cons_of_pos hl]

theorem uncovered_of_bindsLocal (hs : s.Sound) (hr : s.Rooted) (h : s.BindsLocal nm) :
    s.Uncovered nm := by
  intro above l below hvis hl hne hfirst m hm
  by_contra hlocal
  have hsub := locals_above hvis hm hlocal
  obtain habove | ⟨hhas, habove⟩ := hfirst
  · have hnone : ∀ k ∈ s.locals, k.bindings = none := fun k hk =>
      habove k (hsub k hk) (List.mem_takeWhile_imp hk)
    obtain ⟨d, t, hd, -⟩ := h.2 ⟨l, by rw [hvis]; simp, hl, hne⟩
    rw [lookupLayer_none hs hr fun k hk hhas => has_bindings hhas (hnone k hk), if_pos rfl,
      List.findSome?_eq_none_iff.mpr hnone] at hd
    cases hd
  · obtain ⟨x, hx⟩ := (firstOf_iff hs.tables).mpr ⟨above, below, hvis, habove, hhas⟩
    obtain ⟨d, t, b, hd, -⟩ := h.1 l x false ((findLayer_visible hs.toBased nm).trans hx) hl
    rw [lookupLayer_none hs hr fun k hk => habove k (hsub k hk)] at hd
    cases hd

theorem writable_of_bindsLocal (hs : s.Sound) (hr : s.Rooted) (h : s.BindsLocal nm) :
    s.Writable nm := by
  intro l b o t htarget hb ho hback
  obtain ⟨b', hb', hlookup⟩ := lookupLayer_target hs hr htarget
  cases hb.symm.trans hb'
  refine (target_writable hs htarget hb).mp ?_ o t ho hback
  obtain ⟨above, below, heq, -⟩ := htarget
  have hmem : l ∈ s.locals := by rw [heq]; simp
  obtain ⟨d, t, hd, -⟩ := h.2 ⟨l, State.locals_sub hmem, List.mem_takeWhile_imp hmem, by
    rw [hb]
    exact nofun⟩
  rw [hlookup] at hd
  obtain ⟨r, hr, -⟩ := Option.map_eq_some_iff.mp hd
  rw [hr, Option.isSome_some]

theorem target_give (hs : s.Sound) (hw : s.Writable nm) (ht : s.Target nm l) {b : Nat}
    (hb : l.bindings = some b) : ∃ d t, s.give b = some (some d, t) ∧ t.heap.Backs d b ∧
      ∀ v, ∃ u, insertTab d nm (some v) t = some ((), u) ∧ u.lookupVal nm = some (some v) := by
  have hsome := (target_writable hs ht hb).mpr fun o t => hw l b o t ht hb
  obtain ⟨⟨d, h'⟩, hm⟩ := Option.isSome_iff_exists.mp hsome
  obtain ⟨above, below, heq, hfirst⟩ := ht
  have hmem : l ∈ s.locals := by rw [heq]; simp
  obtain ⟨tab, htab⟩ := hs.tables l (State.locals_sub hmem) b hb
  obtain ⟨tab', hmut⟩ := mutate_spec hs.valid htab hm
  obtain ⟨st, hd⟩ := Heap.dictTab_eq_some.mp hmut.dict
  have hlocal : l.isLocal = true := List.mem_takeWhile_imp hmem
  have htyp : l.typ ≠ .unirefs := by
    intro htyp
    rw [Layer.isLocal, htyp] at hlocal
    cases hlocal
  have hvis : s.visible = above ++ l :: (below ++ s.visible.dropWhile Layer.isLocal) := calc
    s.visible = s.locals ++ s.visible.dropWhile Layer.isLocal :=
      List.takeWhile_append_dropWhile.symm
    _ = above ++ l :: (below ++ s.visible.dropWhile Layer.isLocal) := by
      rw [heq, List.append_assoc, List.cons_append]
  refine ⟨d, { s with heap := h' }, by rw [State.give, hm]; rfl, mutate_backs hs.valid htab hm,
    fun v => ⟨_, insertTab_eq hd v, ?_⟩⟩
  obtain ⟨hl, habove⟩ | ⟨-, -, habove⟩ := hfirst
  · obtain ⟨x, hx⟩ := (firstOf_iff hs.tables).mpr ⟨above, _, hvis, habove, hl⟩
    have hfound : ({ s with heap := h'.write d nm v tab' st } : State).lookupVal nm =
        some (some v) := write_found hs hmut hd hx htyp hb htab
    exact hfound
  · exact write_top hs hmut hvis habove htyp hb

theorem bindsLocal_of_uncovered (hs : s.Sound) (hr : s.Rooted) (hu : s.Uncovered nm)
    (hw : s.Writable nm) : s.BindsLocal nm := by
  refine ⟨fun l x creat hfind hl => ?_, fun ⟨l, hmem, hl, hne⟩ => ?_⟩
  · rw [findLayer_visible hs.toBased] at hfind
    obtain ⟨above, below, hvis, habove, hhas⟩ := (firstOf_iff hs.tables).mp ⟨x, hfind⟩
    have hlocals := locals_eq hvis
      (hu above l below hvis hl (has_bindings hhas) (.inr ⟨hhas, habove⟩)) hl
    obtain ⟨b, hb, hlookup⟩ := lookupLayer_has hs hr hlocals habove hhas creat
    obtain ⟨d, t, hgive, hbacks, -⟩ := target_give hs hw ⟨above, _, hlocals, .inl ⟨hhas, habove⟩⟩ hb
    exact ⟨d, t, b, hlookup.trans hgive, hb, hbacks⟩
  · obtain ⟨l', htarget⟩ : ∃ l', s.Target nm l' := by
      by_cases hhas : ∃ m ∈ s.locals, s.heap.Has nm m
      · obtain ⟨above, m, below, heq, hm, habove⟩ := exists_first hhas
        exact ⟨m, above, below, heq, .inl ⟨hm, habove⟩⟩
      · obtain ⟨above, m, below, hvis, ⟨hm, hbind⟩, habove⟩ :=
          exists_first (p := fun l => l.isLocal = true ∧ l.bindings ≠ none) ⟨l, hmem, hl, hne⟩
        have hnone : ∀ k ∈ above, k.isLocal = true → k.bindings = none := fun k hk hlocal =>
          by_contra fun hne => habove k hk ⟨hlocal, hne⟩
        have hlocal := hu above m below hvis hm hbind (.inl hnone)
        exact ⟨m, above, _, locals_eq hvis hlocal hm, .inr ⟨fun k hk hk' => hhas ⟨k, hk, hk'⟩,
          hbind, fun k hk => hnone k hk (hlocal k hk)⟩⟩
    obtain ⟨b, hb, hlookup⟩ := lookupLayer_target hs hr htarget
    obtain ⟨d, t, hgive, -, hins⟩ := target_give hs hw htarget hb
    exact ⟨d, t, hlookup.trans hgive, hins⟩

end Binds

section Reachable

/-- `bind` acts on the local layer that is in sight, unless a layer of another kind covers it, or
its table is still to be copied and has a value without a copy. -/
theorem Scope.binds_local {s : Scope} (hr : Scope.system.Reach Scope.Promised s) (nm : Str) :
    s.state.BindsLocal nm ↔ s.state.Uncovered nm ∧ s.state.Writable nm := by
  have hs := (reach_sound hr).state
  have hrooted := reach_rooted hr
  exact ⟨fun h => ⟨uncovered_of_bindsLocal hs hrooted h, writable_of_bindsLocal hs hrooted h⟩,
    fun ⟨hu, hw⟩ => bindsLocal_of_uncovered hs hrooted hu hw⟩

theorem regexScope_binds_local : Scope.system.Reach Scope.Promised regexScope ∧
    (regexScope.state.BindsLocal (text "d") ↔
      regexScope.state.Uncovered (text "d") ∧ regexScope.state.Writable (text "d")) :=
  ⟨reach_regexScope, Scope.binds_local reach_regexScope (text "d")⟩

/-- The environment behind `locals {x} universals {u}`. -/
def coveredScope : Scope :=
  { regexCaller with state := { regexCaller.state with
    heap := regexHeap (.cow none none) ++ [.dict [] none] ++ [.dict [(text "u", none)] none]
    stack := [⟨some 0, .universals⟩, ⟨some 1, .globals⟩, ⟨some 5, .locals⟩, ⟨some 6, .unirefs⟩] } }

theorem reach_coveredScope : Scope.system.Reach Scope.Promised coveredScope := by
  have hlocals := reach_regexCaller.step (e := Scope.Event.pushBindings .locals) trivial rfl
  exact hlocals.step (e := Scope.Event.pushReferences [(text "u", none)] .universals) trivial rfl

/-- The names of the universals cover the locals. -/
theorem coveredScope_binds_none :
    ¬ ∀ s : Scope, Scope.system.Reach Scope.Promised s → ∀ nm, s.state.BindsLocal nm := by
  intro h
  have hvis : (⟨some 5, .locals⟩ : Layer) ∈ coveredScope.state.visible := by
    refine List.mem_cons_of_mem _ ?_
    exact List.mem_cons_self
  obtain ⟨d, t, hd, -⟩ := (h coveredScope reach_coveredScope (text "x")).2
    ⟨_, hvis, rfl, nofun⟩
  have hnone : lookupLayer (text "x") .locals true coveredScope.state =
      some (none, coveredScope.state) := rfl
  rw [hnone] at hd
  cases hd

end Reachable

end Okws.Pub3
