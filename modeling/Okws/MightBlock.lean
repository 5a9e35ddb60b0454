import Mathlib.Logic.Relation
import Okws.Ast

/-! `might_block` says of a node whether it can be published without waiting.  A node that says no
is published by the functions that never wait: for them a heredoc is `NULL` and an `include` is
skipped. -/

namespace Okws

open Zbuf

section Bindtab

variable {α : Type}

def Bindtab.insert (t : List (Str × α)) (b : Str × α) : List (Str × α) :=
  if t.any (·.1 == b.1) then t.map fun c => if c.1 == b.1 then (c.1, b.2) else c else t ++ [b]

/-- The table that `decl_block_t::add` makes of a list of bindings. -/
def bindtab (bs : List (Str × α)) : List (Str × α) := bs.foldl Bindtab.insert []

/-- What holds of some binding that no later one overrides. -/
def anyLast (p : α → Bool) : List (Str × α) → Bool
  | [] => false
  | b :: bs => (!(bs.any (·.1 == b.1)) && p b.2) || anyLast p bs

end Bindtab

@[simp] theorem exprMightBlock_eq (x : Option Expr) : exprMightBlock x = x.any (·.mightBlock) := by
  cases x <;> simp [exprMightBlock]

@[simp] theorem zoneMightBlock_eq (z : Option Zone) : zoneMightBlock z = z.any (·.mightBlock) := by
  cases z <;> simp [zoneMightBlock]

@[simp] theorem exprsMightBlock_eq (xs : List Expr) :
    exprsMightBlock xs = xs.any (·.mightBlock) := by
  induction xs with
  | nil => simp [exprsMightBlock]
  | cons x xs ih => simp [exprsMightBlock, ih]

@[simp] theorem zonesMightBlock_eq (zs : List Zone) :
    zonesMightBlock zs = zs.any (·.mightBlock) := by
  induction zs with
  | nil => simp [zonesMightBlock]
  | cons z zs ih => simp [zonesMightBlock, ih]

@[simp] theorem statementsMightBlock_eq (ss : List Statement) :
    statementsMightBlock ss = ss.any (·.mightBlock) := by
  induction ss with
  | nil => simp [statementsMightBlock]
  | cons s ss ih => simp [statementsMightBlock, ih]

@[simp] theorem clausesMightBlock_eq (cs : List (Option Expr × Option Zone)) :
    clausesMightBlock cs = cs.any fun c => c.1.any (·.mightBlock) || c.2.any (·.mightBlock) := by
  induction cs with
  | nil => simp [clausesMightBlock]
  | cons c cs ih => simp [clausesMightBlock, ih]

@[simp] theorem casesMightBlock_eq (cs : List (Option Constant × Option Zone)) :
    casesMightBlock cs = cs.any fun c => c.2.any (·.mightBlock) := by
  induction cs with
  | nil => simp [casesMightBlock]
  | cons c cs ih => simp [casesMightBlock, ih]

@[simp] theorem tabMightBlock_eq (bs : List (Str × Option Expr)) :
    tabMightBlock bs = bs.any fun b => b.2.any (·.mightBlock) := by
  induction bs with
  | nil => simp [tabMightBlock]
  | cons b bs ih => simp [tabMightBlock, ih]

inductive Node
  | expr (x : Expr)
  | zone (z : Zone)
  | statement (s : Statement)

namespace Node

def mightBlock : Node → Bool
  | .expr x => x.mightBlock
  | .zone z => z.mightBlock
  | .statement s => s.mightBlock

@[simp] theorem mightBlock_expr (x : Expr) : (Node.expr x).mightBlock = x.mightBlock := rfl

@[simp] theorem mightBlock_zone (z : Zone) : (Node.zone z).mightBlock = z.mightBlock := rfl

@[simp] theorem mightBlock_statement (s : Statement) :
    (Node.statement s).mightBlock = s.mightBlock := rfl

/-- What `eval_to_val` and its kin may evaluate of an expression, before they evaluate parts of
parts.  A literal without variables is taken as it is, a function is not called where it is
written, and the arguments of a call are evaluated by the function. -/
def evaluates : Expr → List Expr
  | .constant _ | .regex _ _ | .varref _ _ | .scopedVarref _ _ _ | .lambda _ _ _ _ _
  | .heredoc _ _ => []
  | .or _ x₁ x₂ | .and _ x₁ x₂ | .eq _ x₁ x₂ _ | .relation _ x₁ x₂ _ | .binaryop _ x₁ x₂ _
  | .vecref _ x₁ x₂ => [x₁, x₂]
  | .not _ e => [e]
  | .dictref _ d _ => [d]
  | .list l els => if (Expr.list l els).isStatic then [] else els
  | .dict l bindings => if (Expr.dict l bindings).isStatic then [] else bindings.filterMap (·.2)
  | .shellStr _ els => els
  | .assignment _ lhs rhs => [rhs, lhs]
  | .call _ fn arglist _ => fn :: arglist

/-- What `v_publish_nonblock` may evaluate or publish, whatever the conditions, the keys and the
lists of the node turn out to be. -/
def children : Node → List Node
  | .expr x => (evaluates x).map .expr
  | .zone z => match z with
    | .raw _ _ | .text _ _ | .wssBoundary _ _ _ => []
    | .html _ zs => zs.map .zone
    | .inlineExpr _ e => [.expr e]
    | .pub _ ss => ss.map .statement
  | .statement s => match s with
    | .zone _ z => z.toList.map .zone
    | .expr _ e => [.expr e]
    | .while _ cond body => .expr cond :: body.toList.map .zone
    -- the rows of the list are values already
    | .for _ _ arr body empty => .expr arr :: (empty.toList ++ body.toList).map .zone
    | .if _ clauses => clauses.flatMap fun c => c.1.toList.map .expr ++ c.2.toList.map .zone
    | .decl _ typ bindings =>
      if Expr.bindingsStatic bindings && typ = .locals then []
      else (bindings.filterMap (·.2)).map .expr
    | .switch _ key cases => .expr key :: (cases.filterMap (·.2)).map .zone
    -- the parameters of a skipped file are not evaluated
    | .include _ _ file _ => [.expr file]
    | .print _ args => args.map .expr
    | .return _ val => val.toList.map .expr
    | .fndef _ _ _ _ _ | .break _ | .exit _ | .continue _ => []

/-- Publishing `n` without waiting may lead to `m`. -/
def Visits : Node → Node → Prop := Relation.ReflTransGen fun n m => m ∈ n.children

/-- A node that says it does not block leads to none that does. -/
def Sound (n : Node) : Prop := n.mightBlock = false → ∀ m, n.Visits m → m.mightBlock = false

/-- The bindings of a block that a later one overrides. -/
def overridden : List (Str × Option Expr) → List Expr
  | [] => []
  | b :: bs => (if bs.any (·.1 == b.1) then b.2.toList else []) ++ overridden bs

/-- The expressions that a node may evaluate and whose `might_block` it does not ask: the key of
`switch`, and what a later binding of the same block overrides. -/
def unasked : Node → List Expr
  | .statement (.switch _ key _) => [key]
  | .statement (.decl _ typ bindings) =>
    if Expr.bindingsStatic bindings && typ = .locals then [] else overridden bindings
  | _ => []

theorem mem_of_overridden {x : Expr} {bs : List (Str × Option Expr)} (h : x ∈ overridden bs) :
    x ∈ bs.filterMap (·.2) := by
  induction bs with
  | nil => cases h
  | cons b bs ih =>
    simp only [overridden, List.mem_append] at h
    rw [List.mem_filterMap]
    cases h with
    | inl h =>
      split at h
      · exact ⟨b, List.mem_cons_self, by simpa using h⟩
      · cases h
    | inr h =>
      obtain ⟨c, hc, hx⟩ := List.mem_filterMap.mp (ih h)
      exact ⟨c, List.mem_cons_of_mem _ hc, hx⟩

theorem asked_or_overridden {x : Expr} {bs : List (Str × Option Expr)}
    (hbs : declMightBlock bs = false) (h : x ∈ bs.filterMap (·.2)) :
    x.mightBlock = false ∨ x ∈ overridden bs := by
  induction bs with
  | nil => cases h
  | cons b bs ih =>
    obtain ⟨n, y⟩ := b
    rw [declMightBlock, Bool.or_eq_false_iff, Bool.and_eq_false_iff] at hbs
    obtain ⟨c, hc, hx⟩ := List.mem_filterMap.mp h
    rw [overridden, List.mem_append]
    cases hc with
    | head =>
      cases hbs.1 with
      | inl hn =>
        refine .inr (.inl ?_)
        rw [if_pos (by simpa using hn)]
        simpa using hx
      | inr hy => exact .inl (by simpa [show y = some x from hx] using hy)
    | tail _ hc =>
      cases ih hbs.2 (List.mem_filterMap.mpr ⟨c, hc, hx⟩) with
      | inl hb => exact .inl hb
      | inr ho => exact .inr (.inr ho)

theorem unasked_children {n : Node} {x : Expr} (h : x ∈ n.unasked) : .expr x ∈ n.children := by
  unfold unasked at h
  split at h
  · simp only [List.mem_singleton] at h
    simp [children, h]
  · split at h
    · cases h
    case isFalse hs => simpa [children, hs] using mem_of_overridden h
  · cases h

theorem evaluates_calm {x y : Expr} (hx : x.mightBlock = false) (h : y ∈ evaluates x) :
    y.mightBlock = false := by
  cases x <;> simp only [evaluates, List.not_mem_nil] at h <;>
    simp only [Expr.mightBlock, Bool.or_eq_false_iff, exprsMightBlock_eq, tabMightBlock_eq,
      List.any_eq_false] at hx
  all_goals grind

theorem zone_calm {z : Zone} {m : Node} (hz : z.mightBlock = false)
    (h : m ∈ (Node.zone z).children) : m.mightBlock = false := by
  cases z with
  | raw => cases h
  | text => cases h
  | wssBoundary => cases h
  | html l zs =>
    obtain ⟨z, hmem, rfl⟩ := List.mem_map.mp h
    exact Bool.eq_false_iff.mpr (List.any_eq_false.mp (by simpa [Zone.mightBlock] using hz) z hmem)
  | inlineExpr l e =>
    cases List.mem_singleton.mp h
    exact hz
  | pub l ss =>
    obtain ⟨s, hmem, rfl⟩ := List.mem_map.mp h
    exact Bool.eq_false_iff.mpr (List.any_eq_false.mp (by simpa [Zone.mightBlock] using hz) s hmem)

theorem statement_calm {s : Statement} {m : Node} (hs : s.mightBlock = false)
    (hu : ∀ x ∈ (Node.statement s).unasked, x.mightBlock = false)
    (h : m ∈ (Node.statement s).children) : m.mightBlock = false := by
  cases s with
  | decl l typ bindings =>
    simp only [children, unasked] at h hu
    split at h
    · cases h
    case isFalse hst =>
      rw [if_neg hst] at hu
      obtain ⟨x, hx, rfl⟩ := List.mem_map.mp h
      cases asked_or_overridden hs hx with
      | inl hb => exact hb
      | inr ho => exact hu x ho
  | switch l key cases =>
    cases h with
    | head => exact hu key List.mem_cons_self
    | tail _ h =>
      obtain ⟨z, hz, rfl⟩ := List.mem_map.mp h
      obtain ⟨c, hc, hz⟩ := List.mem_filterMap.mp hz
      simp only [Statement.mightBlock, casesMightBlock_eq, List.any_eq_false] at hs
      simpa [hz] using hs c hc
  | «if» l clauses =>
    obtain ⟨c, hc, h⟩ := List.mem_flatMap.mp h
    simp only [Statement.mightBlock, clausesMightBlock_eq, List.any_eq_false, Bool.or_eq_true,
      not_or] at hs
    have hc := hs c hc
    cases List.mem_append.mp h with
    | inl h =>
      obtain ⟨x, hx, rfl⟩ := List.mem_map.mp h
      simpa [Option.mem_toList.mp hx] using hc.1
    | inr h =>
      obtain ⟨z, hz, rfl⟩ := List.mem_map.mp h
      simpa [Option.mem_toList.mp hz] using hc.2
  | zone l z =>
    obtain ⟨z', hz, rfl⟩ := List.mem_map.mp h
    simpa [Statement.mightBlock, Option.mem_toList.mp hz] using hs
  | expr l e =>
    cases List.mem_singleton.mp h
    exact hs
  | «while» l cond body =>
    rw [Statement.mightBlock, Bool.or_eq_false_iff] at hs
    cases h with
    | head => exact hs.1
    | tail _ h =>
      obtain ⟨z, hz, rfl⟩ := List.mem_map.mp h
      simpa [Option.mem_toList.mp hz] using hs.2
  | «for» l iter arr body empty =>
    simp only [Statement.mightBlock, Bool.or_eq_false_iff] at hs
    cases h with
    | head => exact hs.1.1
    | tail _ h =>
      obtain ⟨z, hz, rfl⟩ := List.mem_map.mp h
      cases List.mem_append.mp hz with
      | inl hz => simpa [Option.mem_toList.mp hz] using hs.1.2
      | inr hz => simpa [Option.mem_toList.mp hz] using hs.2
  | «include» l load file dict => cases hs
  | print l args =>
    obtain ⟨x, hx, rfl⟩ := List.mem_map.mp h
    simp only [Statement.mightBlock, exprsMightBlock_eq, List.any_eq_false] at hs
    simpa using hs x hx
  | fndef => cases h
  | «break» => cases h
  | «return» l val =>
    obtain ⟨x, hx, rfl⟩ := List.mem_map.mp h
    simpa [Statement.mightBlock, Option.mem_toList.mp hx] using hs
  | exit => cases h
  | «continue» => cases h

theorem child_calm {n m : Node} (hn : n.mightBlock = false)
    (hu : ∀ x ∈ n.unasked, x.mightBlock = false) (h : m ∈ n.children) : m.mightBlock = false := by
  cases n with
  | expr x =>
    obtain ⟨y, hy, rfl⟩ := List.mem_map.mp h
    exact evaluates_calm hn hy
  | zone z => exact zone_calm hn h
  | statement s => exact statement_calm hn hu h

theorem visits_calm {n m : Node} (hn : n.mightBlock = false)
    (hu : ∀ m, n.Visits m → ∀ x ∈ m.unasked, x.mightBlock = false) (h : n.Visits m) :
    m.mightBlock = false := by
  induction h with
  | refl => exact hn
  | tail hv hc ih => exact child_calm ih (hu _ hv) hc

theorem sound_iff_unasked (n : Node) : n.Sound ↔
    (n.mightBlock = false → ∀ m, n.Visits m → ∀ x ∈ m.unasked, x.mightBlock = false) := by
  constructor
  · intro hs hn m hm x hx
    exact hs hn (.expr x) (hm.tail (unasked_children hx))
  · intro hu hn m hm
    exact visits_calm hn (hu hn) hm

/-- The key is a heredoc: it is evaluated to `NULL`, since no case blocks. -/
theorem not_sound_heredoc_key :
    ¬ (Node.statement (.switch 1 (.heredoc 1 (some (.text 1 [97])))
      [(some (.str [97]), some (.text 1 [98]))])).Sound := by
  intro h
  have := h rfl (.expr (.heredoc 1 (some (.text 1 [97])))) (.single List.mem_cons_self)
  cases this

end Node

end Okws
