import Okws.Lexical
import Okws.LookupLayer
import Okws.Pub

namespace Okws.Pub3

open Zbuf Lib

/-- What `eval_t::publish` puts on the stack for the parameters of an include. -/
def pushParams (bi : Option Nat) : Act Nat := do
  let s ← get
  let typ : LayerType := if s.opts.strictIncludeScoping then .localsBarrier else .localsBarrierWeak
  bi.elim stackSize (pushLocals · typ)

theorem publishFile_eq (H : Host) (load : Bool) (fn : Str) (bi : Option Nat) :
    Block.publishFile H load fn bi = (do
      let old ← act get
      act (modify fun s => { s with
        muzzle := s.muzzle || load
        control := { depth := s.control.depth + 1 } })
      let size ← act (pushParams bi)
      let rs ← H.publish fn
      act do
        popTo size
        modify fun s => { s with muzzle := old.muzzle, control := old.control }
      pure rs) := by
  rfl

/-- `include_t::v_publish` publishes a file with parameters if it is written with a dictionary, and
without if it is not. -/
theorem vPublishInclude_eq (H : Host) (n : Nat) (A : Evals) (line : Nat) (load : Bool) (file : Expr)
    (dict : Option Expr) : Block.vPublishInclude H n A line load file dict = (do
      let fn ← Block.pubAsStr H n A file
      let bi ← match dict with
        | none => pure none
        | some d => Block.pubToBindtab n A d
      match fn with
      | none | some [] => do
        reportError line (text "include: cannot evaluate filename")
        pure .ok
      | some f =>
        if bi.isSome = dict.isSome then Block.publishFile H load (cstr f) bi
        else do
          reportError line (text "include: cannot evalute parameters")
          pure .ok) := by
  unfold Block.vPublishInclude
  refine congrArg _ (funext fun fn => ?_)
  cases dict with
  | none => rfl
  | some d =>
    exact congrArg (Block.pubToBindtab n A d >>= ·) (funext fun bi => by cases bi <;> rfl)

namespace Scope

/-- What the statements of a file do to the environment. -/
def Event.InFile : Event → Prop
  | .enter _ _ _ | .bindGlobals _ => False
  | _ => True

/-- The same where `n` layers are below the file; it pops none of these. -/
def Event.above (n : Nat) : Event → Event
  | .popTo i => .popTo (n + i)
  | e => e

/-- The environments of two files that may have different locals. -/
structure SameButLocals (s s' : Scope) : Prop where
  state : s'.state = { s.state with stack := s'.state.stack }
  base : s'.state.base = s.state.base
  closures : s'.closures = s.closures

end Scope

/-- Names are looked up in the same way: what is read, where it is assigned, and in which layer
`bind` and `unbind` find it. -/
structure State.SeesAlike (s s' : State) : Prop where
  val : ∀ nm, s.lookupVal nm = s'.lookupVal nm
  ref : ∀ nm, (lookupRef nm s).map (fun r => (r.1, r.2.heap)) =
    (lookupRef nm s').map fun r => (r.1, r.2.heap)
  layer : ∀ nm lt creat, (lookupLayer nm lt creat s).map (fun r => (r.1, r.2.heap)) =
    (lookupLayer nm lt creat s').map fun r => (r.1, r.2.heap)

/-- What puts layers on the stack does not look at those that are there. -/
def Appends {α : Type} (f : Act α) : Prop :=
  ∀ s r t, f s = some (r, t) → t.globals = s.globals ∧ t.globalFrames = s.globalFrames ∧
    ∃ ls, t.stack = s.stack ++ ls ∧
      ∀ st, ∃ r', f { s with stack := st } = some (r', { t with stack := st ++ ls })

section Appends

theorem pushLocals_appends (b : Nat) (typ : LayerType) : Appends (pushLocals b typ) := by
  intro s r t h
  cases h
  exact ⟨rfl, rfl, _, rfl, fun st => ⟨_, rfl⟩⟩

theorem pushLambda_appends (b : Nat) (c : Option (List Layer)) : Appends (pushLambda b c) := by
  intro s r t h
  cases c with
  | none =>
    cases h
    exact ⟨rfl, rfl, _, rfl, fun st => ⟨_, rfl⟩⟩
  | some ls =>
    cases h
    refine ⟨rfl, rfl, _, List.append_assoc _ _ _, fun st => ⟨st.length, ?_⟩⟩
    rw [← List.append_assoc]
    rfl

theorem pushBindings_appends (typ : DeclType) : Appends (pushBindings typ) := by
  intro s r t h
  cases typ with
  | universals =>
    cases h
    exact ⟨rfl, rfl, [], (List.append_nil _).symm, fun st => ⟨_, by rw [List.append_nil]; rfl⟩⟩
  | globals =>
    cases h
    exact ⟨rfl, rfl, [], (List.append_nil _).symm, fun st => ⟨_, by rw [List.append_nil]; rfl⟩⟩
  | locals =>
    cases h
    exact ⟨rfl, rfl, _, rfl, fun st => ⟨_, rfl⟩⟩

theorem pushReferences_appends (bs : List (Str × Option Expr)) (typ : DeclType) :
    Appends (pushReferences bs typ) := by
  intro s r t h
  cases typ with
  | universals =>
    cases h
    exact ⟨rfl, rfl, _, rfl, fun st => ⟨_, rfl⟩⟩
  | globals | locals =>
    cases h
    exact ⟨rfl, rfl, [], (List.append_nil _).symm, fun st => ⟨_, by rw [List.append_nil]; rfl⟩⟩

end Appends

/-- Whatever the locals are where a file is included with the parameters `bi`, the file sees the
same throughout. -/
def Isolated (bi : Option Nat) : Prop :=
  ∀ s s' t t' : Scope, Scope.system.Reach Scope.Promised s → Scope.system.Reach Scope.Promised s' →
    s.SameButLocals s' → s.state.opts.strictIncludeScoping = true →
    s.act (pushParams bi) = some t → s'.act (pushParams bi) = some t' →
    ∀ es : List Scope.Event, (∀ e ∈ es, e.InFile) →
    ∀ u, Scope.system.exec t (es.map (.above t.state.stack.length)) = some u →
    ∃ u', Scope.system.exec t' (es.map (.above t'.state.stack.length)) = some u' ∧
      u.state.SeesAlike u'.state

namespace Scope

/-- Two files are published with the same layers of their own, from a barrier on. -/
structure Alongside (s s' t t' : Scope) : Prop where
  stack : ∃ l top, isBarrier l = true ∧ t.state.stack = s.state.stack ++ l :: top ∧
    t'.state.stack = s'.state.stack ++ l :: top
  state : t'.state = { t.state with stack := t'.state.stack }
  closures : t'.closures = t.closures
  globals : t.state.globals = s.state.globals
  globalFrames : t.state.globalFrames = s.state.globalFrames

variable {s s' t t' u : Scope} {e : Event}

theorem Alongside.append {α : Type} {f : Act α} (h : Alongside s s' t t') (hf : Appends f)
    (hu : t.act f = some u) : ∃ u', t'.act f = some u' ∧ Alongside s s' u u' := by
  obtain ⟨⟨r, v⟩, hv, rfl⟩ := Option.map_eq_some_iff.mp hu
  obtain ⟨hglobals, hframes, ls, hstack, hrun⟩ := hf _ _ _ hv
  obtain ⟨l, top, hl, htop, htop'⟩ := h.stack
  obtain ⟨r', hv'⟩ := hrun t'.state.stack
  rw [← h.state] at hv'
  refine ⟨_, Option.map_eq_some_iff.mpr ⟨_, hv', rfl⟩,
    ⟨l, top ++ ls, hl, ?_, ?_⟩, rfl, h.closures, hglobals.trans h.globals,
    hframes.trans h.globalFrames⟩
  · rw [hstack, htop, List.append_assoc, List.cons_append]
  · show t'.state.stack ++ ls = _
    rw [htop', List.append_assoc, List.cons_append]

theorem captureClosure_append {upper lower c : List Layer} (hb : upper.any isBarrier = true) :
    captureClosure (upper ++ lower) c = captureClosure upper c := by
  induction upper generalizing c with
  | nil => cases hb
  | cons l upper ih =>
    rw [List.cons_append, captureClosure, captureClosure]
    cases hl : isBarrier l with
    | true =>
      have htyp : l.typ = .localsBarrier := of_decide_eq_true hl
      rw [htyp]
    | false =>
      rw [List.any_cons, hl, Bool.false_or] at hb
      rw [ih hb]

theorem Alongside.step (h : Alongside s s' t t') (hin : e.InFile)
    (hu : Scope.step t (e.above (s.state.stack.length + 1)) = some u) :
    ∃ u', Scope.step t' (e.above (s'.state.stack.length + 1)) = some u' ∧
      Alongside s s' u u' := by
  cases e with
  | enter libs u g => exact hin.elim
  | bindGlobals t => exact hin.elim
  | pushLocals b typ => exact h.append (pushLocals_appends b typ) hu
  | pushLambda b c => exact h.append (pushLambda_appends b c) hu
  | pushBindings typ => exact h.append (pushBindings_appends typ) hu
  | pushReferences bs typ => exact h.append (pushReferences_appends bs typ) hu
  | popTo i =>
    cases hu
    obtain ⟨l, top, hl, htop, htop'⟩ := h.stack
    refine ⟨_, rfl, ⟨l, top.take i, hl, ?_, ?_⟩, ?_, h.closures, h.globals, h.globalFrames⟩
    · show t.state.stack.take (s.state.stack.length + 1 + i) = _
      rw [htop, Nat.add_assoc, List.take_length_add_append, Nat.add_comm 1 i, List.take_succ_cons]
    · show t'.state.stack.take (s'.state.stack.length + 1 + i) = _
      rw [htop', Nat.add_assoc, List.take_length_add_append, Nat.add_comm 1 i, List.take_succ_cons]
    · rw [h.state]
  | close =>
    cases hu
    obtain ⟨l, top, hl, htop, htop'⟩ := h.stack
    have hany : (l :: top).reverse.any isBarrier = true := by
      rw [List.any_reverse, List.any_cons, hl, Bool.true_or]
    refine ⟨_, rfl, ⟨l, top, hl, htop, htop'⟩, h.state, ?_, h.globals, h.globalFrames⟩
    show captureClosure t'.state.stack.reverse [] :: t'.closures =
      captureClosure t.state.stack.reverse [] :: t.closures
    rw [htop, htop', List.reverse_append, List.reverse_append, captureClosure_append hany,
      captureClosure_append hany, h.closures]
  | learn ls =>
    cases hu
    exact ⟨_, rfl, h.stack, h.state, congrArg (ls :: ·) h.closures, h.globals, h.globalFrames⟩
  | evaluate v =>
    cases hu
    refine ⟨_, rfl, h.stack, ?_, h.closures, h.globals, h.globalFrames⟩
    rw [h.state]

theorem Alongside.exec (h : Alongside s s' t t') {es : List Event} (hin : ∀ e ∈ es, e.InFile)
    (hu : system.exec t (es.map (.above (s.state.stack.length + 1))) = some u) :
    ∃ u', system.exec t' (es.map (.above (s'.state.stack.length + 1))) = some u' ∧
      Alongside s s' u u' := by
  induction es generalizing t t' with
  | nil =>
    cases hu
    exact ⟨t', rfl, h⟩
  | cons e es ih =>
    obtain ⟨v, hv, hu⟩ := Option.bind_eq_some_iff.mp hu
    obtain ⟨v', hv', hvv'⟩ := h.step (hin e List.mem_cons_self) hv
    obtain ⟨u', hu', huu'⟩ := ih hvv' (fun e he => hin e (List.mem_cons_of_mem _ he)) hu
    exact ⟨u', Option.bind_eq_some_iff.mpr ⟨v', hv', hu'⟩, huu'⟩

theorem Alongside.symm (h : Alongside s s' t t') (hs : s.SameButLocals s') :
    Alongside s' s t' t := by
  obtain ⟨l, top, hl, htop, htop'⟩ := h.stack
  refine ⟨⟨l, top, hl, htop', htop⟩, ?_, h.closures.symm, ?_, ?_⟩
  · rw [h.state]
  · rw [h.state, hs.state]
    exact h.globals
  · rw [h.state, hs.state]
    exact h.globalFrames

theorem Alongside.based (h : Alongside s s' t t') (hs : s.state.Based) : t.state.Based := by
  obtain ⟨l, top, -, htop, -⟩ := h.stack
  have hlt : s.state.globalFrames < s.state.stack.length :=
    (List.getElem?_eq_some_iff.mp hs.base).1
  refine ⟨?_, fun i hi l hl => ?_⟩
  · rw [htop, h.globalFrames, h.globals, List.getElem?_append_left hlt]
    exact hs.base
  · rw [h.globalFrames] at hi
    rw [htop, List.getElem?_append_left (hi.trans_lt hlt)] at hl
    exact hs.below i hi l hl

theorem Alongside.visible (h : Alongside s s' t t') (hs : s.state.Based) {l : Layer}
    {top : List Layer} (hl : isBarrier l = true)
    (htop : t.state.stack = s.state.stack ++ l :: top) :
    t.state.visible = visibleFrom s.state.base (l :: top).reverse := by
  have hlt : s.state.globalFrames < s.state.stack.length :=
    (List.getElem?_eq_some_iff.mp hs.base).1
  have hany : (l :: top).reverse.any isBarrier = true := by
    rw [List.any_reverse, List.any_cons, hl, Bool.true_or]
  have hbase : t.state.base = s.state.base := by
    rw [State.base, htop, h.globalFrames, List.take_append_of_le_length hlt]
    rfl
  rw [State.visible, hbase, htop, List.reverse_append, visibleFrom_append hany]

end Scope

section Lookups

variable {s t : State} {nm : Str}

theorem valueOf_stack (st : List Layer) (r : Option (Layer × Option Ptr)) :
    State.valueOf { s with stack := st } nm r = s.valueOf nm r := by
  cases r <;> rfl

theorem searchLocals_append {h : Heap} {upper lower : List Layer} {top : Option Nat}
    (hb : upper.any isBarrier = true) :
    searchLocals h nm top (upper ++ lower) = searchLocals h nm top upper := by
  induction upper generalizing top with
  | nil => cases hb
  | cons l upper ih =>
    rw [List.cons_append, searchLocals, searchLocals]
    cases hl : isBarrier l with
    | true => rfl
    | false =>
      rw [List.any_cons, hl, Bool.false_or] at hb
      simp only [Bool.false_eq_true, ↓reduceIte, ih hb]

theorem seesAlike (hs : s.Based) (ht : t.Based) (hstate : t = { s with stack := t.stack })
    (hvisible : t.visible = s.visible) (hlocals : ∀ nm,
      searchLocals s.heap nm none t.stack.reverse = searchLocals s.heap nm none s.stack.reverse) :
    s.SeesAlike t := by
  have hheap : t.heap = s.heap := by rw [hstate]
  have hglobals : t.globals = s.globals := by rw [hstate]
  have huniversals : t.universals = s.universals := by rw [hstate]
  refine ⟨fun nm => ?_, fun nm => ?_, fun nm lt creat => ?_⟩
  · have hvalue : t.valueOf nm = s.valueOf nm := by
      rw [hstate]
      exact funext (valueOf_stack _)
    rw [lookupVal_eq hs, lookupVal_eq ht, hvisible, hheap, hvalue]
  · rw [lookupRef_eq hs, lookupRef_eq ht, hvisible, hheap, hglobals, huniversals]
    cases s.heap.firstOf nm s.visible with
    | none => rfl
    | some r =>
      obtain _ | ⟨⟨b, typ⟩, x⟩ := r
      · simp [hheap]
      · dsimp only
        split
        · simp [hheap]
        · cases b with
          | none => rfl
          | some b =>
            dsimp only
            rw [Option.map_map, Option.map_map]
            rfl
  · have hgive (b : Nat) : (s.give b).map (fun r => (r.1, r.2.heap)) =
        (t.give b).map fun r => (r.1, r.2.heap) := by
      rw [State.give, State.give, hheap, Option.map_map, Option.map_map]
      rfl
    cases lt with
    | locals =>
      rw [lookupLayer_eq, lookupLayer_eq, hheap, hlocals]
      obtain _ | ⟨_ | b, top⟩ := searchLocals s.heap nm none s.stack.reverse
      · rfl
      · rw [Option.bind_some, Option.bind_some]
        dsimp only
        cases if creat then top else none with
        | none => exact congrArg (fun h => some (none, h)) hheap.symm
        | some b => exact hgive b
      · exact hgive b
    | globals =>
      show some (some s.globals, s.heap) = some (some t.globals, t.heap)
      rw [hheap, hglobals]
    | universals =>
      show some (some s.universals, s.heap) = some (some t.universals, t.heap)
      rw [hheap, huniversals]
    | none | localsBarrier | localsBarrierWeak | unirefs | library =>
      exact congrArg (fun h => some (none, h)) hheap.symm

end Lookups

section Includes

theorem isolated_params (b : Nat) : Isolated (some b) := by
  intro s s' t t' hr hr' hsame hstrict ht ht' es hin u hu
  have hs := (Scope.reach_sound hr).state.toBased
  have hs' := (Scope.reach_sound hr').state.toBased
  have hstrict' : s'.state.opts.strictIncludeScoping = true := by
    rw [hsame.state]
    exact hstrict
  obtain ⟨⟨n, v⟩, hv, rfl⟩ := Option.map_eq_some_iff.mp ht
  obtain ⟨⟨n', v'⟩, hv', rfl⟩ := Option.map_eq_some_iff.mp ht'
  have hpush (w : State) (hw : w.opts.strictIncludeScoping = true) : pushParams (some b) w =
      some (w.stack.length, { w with stack := w.stack ++ [⟨some b, .localsBarrier⟩] }) := by
    show (some b).elim stackSize (pushLocals ·
      (if w.opts.strictIncludeScoping then .localsBarrier else .localsBarrierWeak)) w = _
    rw [hw]
    rfl
  cases (hpush _ hstrict).symm.trans hv
  cases (hpush _ hstrict').symm.trans hv'
  have hbegin : Scope.Alongside s s'
      { s with state := { s.state with stack := s.state.stack ++ [⟨some b, .localsBarrier⟩] } }
      { s' with state :=
        { s'.state with stack := s'.state.stack ++ [⟨some b, .localsBarrier⟩] } } := by
    refine ⟨⟨_, [], rfl, rfl, rfl⟩, ?_, hsame.closures, rfl, rfl⟩
    show ({ s'.state with stack := _ } : State) = _
    rw [hsame.state]
  dsimp only at hu ⊢
  rw [List.length_append, List.length_singleton] at hu ⊢
  obtain ⟨u', hu', h⟩ := hbegin.exec hin hu
  obtain ⟨l, top, hl, htop, htop'⟩ := h.stack
  have hany : (l :: top).reverse.any isBarrier = true := by
    rw [List.any_reverse, List.any_cons, hl, Bool.true_or]
  refine ⟨u', hu', seesAlike (h.based hs) ((h.symm hsame).based hs') h.state ?_ fun nm => ?_⟩
  · rw [h.visible hs hl htop, (h.symm hsame).visible hs' hl htop', hsame.base]
  · rw [htop, htop', List.reverse_append, List.reverse_append, searchLocals_append hany,
      searchLocals_append hany]

/-- Two includers with the same heap, one of which has a local `x`. -/
def plainCaller : Scope where
  state := {
    heap := [.dict [] none, .dict [] none, .dict [(text "x", some (.const (.bool true)))] none]
    universals := 0
    globals := 1
    stack := [⟨some 0, .universals⟩, ⟨some 1, .globals⟩]
    globalFrames := 1
    md := []
    opts := { strictIncludeScoping := true } }
  closures := []

def localCaller : Scope :=
  { plainCaller with state := { plainCaller.state with
    stack := plainCaller.state.stack ++ [⟨some 2, .locals⟩] } }

theorem reach_plainCaller : Scope.system.Reach Scope.Promised plainCaller := by
  let start : State :=
    { heap := [.dict [] none], universals := 0, globals := 0, stack := [], globalFrames := 0,
      md := [], opts := { strictIncludeScoping := true } }
  have hstart : start.heap.Valid := by
    intro a o ha
    match a with
    | 0 =>
      cases ha
      exact fun _ _ hp => nomatch hp
    | _ + 1 => cases ha
  let made : State := { plainCaller.state with heap := [.dict [] none, .dict [] none] }
  have hmade : Scope.system.Reach Scope.Promised ⟨made, []⟩ :=
    .init ⟨rfl, start, [], 0, none, hstart, ⟨List.forall_mem_nil _, rfl, fun _ hg => nomatch hg⟩,
      rfl⟩
  have hvalid : plainCaller.state.heap.Valid := by
    intro a o ha
    match a with
    | 0 | 1 =>
      cases ha
      exact fun _ _ hp => nomatch hp
    | 2 =>
      cases ha
      intro k p hp b hb
      cases List.mem_singleton.mp hp
      cases hb
    | _ + 3 => cases ha
  exact hmade.step (e := Scope.Event.evaluate plainCaller.state)
    ⟨.append made.heap [.dict [(text "x", some (.const (.bool true)))] none], hvalid⟩ rfl

theorem reach_localCaller : Scope.system.Reach Scope.Promised localCaller :=
  reach_plainCaller.step (e := Scope.Event.pushLocals 2 .locals) ⟨rfl, by decide⟩ rfl

/-- Without parameters nothing is pushed, and the file sees the `x` of who includes it. -/
theorem not_isolated_plain : ¬Isolated none := by
  intro h
  obtain ⟨u', hu', hsees⟩ := h localCaller plainCaller localCaller plainCaller reach_localCaller
    reach_plainCaller ⟨rfl, rfl, rfl⟩ rfl rfl rfl [] (List.forall_mem_nil _) localCaller rfl
  cases hu'
  have hx : localCaller.state.lookupVal (text "x") = plainCaller.state.lookupVal (text "x") :=
    hsees.val (text "x")
  have hfound : localCaller.state.lookupVal (text "x") = some (some (.const (.bool true))) := rfl
  have hnone : plainCaller.state.lookupVal (text "x") = some none := rfl
  rw [hfound, hnone] at hx
  cases hx

/-- An included file is isolated from the locals of those who include it exactly if it is included
with parameters. -/
theorem isolated_iff_params (bi : Option Nat) : Isolated bi ↔ bi.isSome = true := by
  cases bi with
  | none => exact iff_of_false not_isolated_plain Bool.false_ne_true
  | some b => exact iff_of_true (isolated_params b) rfl

theorem not_isolated : ¬∀ bi, Isolated bi := fun h => not_isolated_plain (h none)

end Includes

end Okws.Pub3
