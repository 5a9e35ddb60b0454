import Okws.Lookup

namespace Okws.Pub3

open Zbuf Lib

/-- The layers have the same bindings of the same kind. -/
structure Layer.Agrees (h h' : Heap) (l l' : Layer) : Prop where
  typ : l.typ = l'.typ
  tab : l.bindings.map h.tab = l'.bindings.map h'.tab

/-- Nothing was pushed, popped or bound since. -/
structure State.Within (s t : State) : Prop where
  stack : t.stack = s.stack
  universals : t.universals = s.universals
  globals : t.globals = s.globals
  globalFrames : t.globalFrames = s.globalFrames

section Search

variable {h h' : Heap} {nm : Str}

/-- What is found in two searches, when the kind of the layer is all that is asked for. -/
def found (r : Option (Layer × Option Ptr)) : Option (LayerType × Option Ptr) :=
  r.map fun c => (c.1.typ, c.2)

end Search

section Call

variable {base : List Layer}

theorem visibleFrom_append {upper lower : List Layer} (hb : upper.any isBarrier = true) :
    visibleFrom base (upper ++ lower) = visibleFrom base upper := by
  induction upper with
  | nil => cases hb
  | cons l upper ih =>
    rw [List.cons_append, visibleFrom, visibleFrom]
    cases hl : isBarrier l with
    | true => rfl
    | false =>
      rw [List.any_cons, hl, Bool.false_or] at hb
      rw [if_neg Bool.false_ne_true, if_neg Bool.false_ne_true, ih hb]

/-- The layers of a closed function, which begin with a barrier. -/
def behindBarrier (closure : List Layer) : List Layer :=
  if closure.head?.any isBarrier then closure else ⟨none, .localsBarrier⟩ :: closure

/-- What the body of a function sees that was closed with some layers. -/
def inside (base : List Layer) (b : Nat) (closure : List Layer) : List Layer :=
  ⟨some b, .locals⟩ :: visibleFrom base (behindBarrier closure).reverse

variable {s t u : State} {b n : Nat} {closure : List Layer}

theorem State.Within.based (hw : s.Within t) (hs : s.Based) : t.Based where
  base := by
    rw [hw.stack, hw.globalFrames, hw.globals]
    exact hs.base
  below i hi l hl := by
    rw [hw.globalFrames] at hi
    rw [hw.stack] at hl
    exact hs.below i hi l hl

theorem State.Within.visible (hw : s.Within t) : t.visible = s.visible := by
  unfold State.visible State.base
  rw [hw.stack, hw.globalFrames]

end Call

section Agreement

variable {h h' : Heap} {base base' : List Layer}

theorem Layer.Agrees.isBarrier {l l' : Layer} (hl : l.Agrees h h' l') :
    Pub3.isBarrier l = Pub3.isBarrier l' := by
  rw [Pub3.isBarrier, Pub3.isBarrier, hl.typ]

end Agreement

end Okws.Pub3
