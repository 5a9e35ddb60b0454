import Okws.Scalar

namespace Okws

open Zbuf

inductive Constant
  | null
  | bool (b : Bool)
  | int (i : Int64)
  | uint (u : UInt64)
  | double (d : UInt64)
  | str (s : Str)
  deriving DecidableEq

inductive RelOp
  | lt
  | gt
  | lte
  | gte
  deriving DecidableEq

inductive MathOp
  | add
  | sub
  | mult
  | div
  | mod
  deriving DecidableEq

inductive VarScope
  | globals
  | universals
  deriving DecidableEq

inductive DeclType
  | universals
  | globals
  | locals
  deriving DecidableEq

mutual

/-- Expressions.  A binding without a value has no expression, and the body of a function or of
a heredoc is missing where nothing stands between its braces. -/
inductive Expr
  | constant (c : Constant)
  | regex (body opts : Str)
  | or (line : Nat) (t₁ t₂ : Expr)
  | and (line : Nat) (f₁ f₂ : Expr)
  | not (line : Nat) (e : Expr)
  | eq (line : Nat) (o₁ o₂ : Expr) (pos : Bool)
  | relation (line : Nat) (l r : Expr) (op : RelOp)
  | binaryop (line : Nat) (o₁ o₂ : Expr) (op : MathOp)
  | dictref (line : Nat) (dict : Expr) (key : Str)
  | vecref (line : Nat) (vec index : Expr)
  | varref (line : Nat) (name : Str)
  | scopedVarref (line : Nat) (name : Str) (scope : VarScope)
  | list (line : Nat) (els : List Expr)
  | dict (line : Nat) (bindings : List (Str × Option Expr))
  | shellStr (line : Nat) (els : List Expr)
  | assignment (line : Nat) (lhs rhs : Expr)
  | call (line : Nat) (fn : Expr) (arglist : List Expr) (blocking : Bool)
  | lambda (line : Nat) (name : Str) (params optParams : List Str) (body : Option Zone)
  | heredoc (line : Nat) (body : Option Zone)

/-- Zones: what stands between two kinds of braces. -/
inductive Zone
  | raw (line : Nat) (data : Str)
  | text (line : Nat) (data : Str)
  | wssBoundary (line : Nat) (on : Bool) (tag : Str)
  | html (line : Nat) (children : List Zone)
  | inlineExpr (line : Nat) (expr : Expr)
  | pub (line : Nat) (statements : List Statement)

/-- Statements.  A clause of `if` is its condition, none for `else`, with its body; a case of
`switch` is its key, none for the default, with its zone. -/
inductive Statement
  | zone (line : Nat) (zone : Option Zone)
  | expr (line : Nat) (expr : Expr)
  | while (line : Nat) (cond : Expr) (body : Option Zone)
  | for (line : Nat) (iter : Str) (arr : Expr) (body empty : Option Zone)
  | if (line : Nat) (clauses : List (Option Expr × Option Zone))
  | decl (line : Nat) (typ : DeclType) (bindings : List (Str × Option Expr))
  | switch (line : Nat) (key : Expr) (cases : List (Option Constant × Option Zone))
  | include (line : Nat) (load : Bool) (file : Expr) (dict : Option Expr)
  | print (line : Nat) (args : List Expr)
  | fndef (line : Nat) (name : Str) (params optParams : List Str) (body : Option Zone)
  | break (line : Nat)
  | return (line : Nat) (val : Option Expr)
  | exit (line : Nat)
  | continue (line : Nat)

end

namespace Expr

mutual

def isStatic : Expr → Bool
  | .constant _ => true
  | .regex _ _ => true
  | .list _ els => areStatic els
  | .dict _ bindings => bindingsStatic bindings
  | _ => false

def areStatic : List Expr → Bool
  | [] => true
  | x :: xs => x.isStatic && areStatic xs

def bindingsStatic : List (Str × Option Expr) → Bool
  | [] => true
  | (_, none) :: bs => bindingsStatic bs
  | (_, some x) :: bs => x.isStatic && bindingsStatic bs

end

end Expr

mutual

/-- `might_block`.  The tree does not change once it is parsed, so that the value the source
remembers is the one computed here. -/
def Expr.mightBlock : Expr → Bool
  | .constant _ | .regex _ _ | .varref _ _ | .scopedVarref _ _ _ | .lambda _ _ _ _ _ => false
  | .or _ x₁ x₂ | .and _ x₁ x₂ | .eq _ x₁ x₂ _ | .relation _ x₁ x₂ _ | .binaryop _ x₁ x₂ _
  | .vecref _ x₁ x₂ | .assignment _ x₁ x₂ => x₁.mightBlock || x₂.mightBlock
  | .not _ e => e.mightBlock
  | .dictref _ d _ => d.mightBlock
  | .list _ els | .shellStr _ els => exprsMightBlock els
  | .dict _ bindings => tabMightBlock bindings
  | .call _ fn arglist blocking => blocking || fn.mightBlock || exprsMightBlock arglist
  | .heredoc _ _ => true

def Zone.mightBlock : Zone → Bool
  | .raw _ _ | .text _ _ | .wssBoundary _ _ _ => false
  | .html _ children => zonesMightBlock children
  | .inlineExpr _ e => e.mightBlock
  | .pub _ statements => statementsMightBlock statements

def Statement.mightBlock : Statement → Bool
  | .zone _ z => zoneMightBlock z
  | .expr _ e => e.mightBlock
  | .while _ cond body => cond.mightBlock || zoneMightBlock body
  | .for _ _ arr body empty => arr.mightBlock || zoneMightBlock empty || zoneMightBlock body
  | .if _ clauses => clausesMightBlock clauses
  | .decl _ _ bindings => declMightBlock bindings
  | .switch _ _ cases => casesMightBlock cases
  | .include _ _ _ _ => true
  | .print _ args => exprsMightBlock args
  | .return _ val => exprMightBlock val
  | .fndef _ _ _ _ _ | .break _ | .exit _ | .continue _ => false

def exprMightBlock : Option Expr → Bool
  | none => false
  | some x => x.mightBlock

def zoneMightBlock : Option Zone → Bool
  | none => false
  | some z => z.mightBlock

def exprsMightBlock : List Expr → Bool
  | [] => false
  | x :: xs => x.mightBlock || exprsMightBlock xs

def zonesMightBlock : List Zone → Bool
  | [] => false
  | z :: zs => z.mightBlock || zonesMightBlock zs

def statementsMightBlock : List Statement → Bool
  | [] => false
  | s :: ss => s.mightBlock || statementsMightBlock ss

/-- The clauses of `if_t`. -/
def clausesMightBlock : List (Option Expr × Option Zone) → Bool
  | [] => false
  | (e, z) :: cs => exprMightBlock e || zoneMightBlock z || clausesMightBlock cs

/-- The cases of `switch_t`. -/
def casesMightBlock : List (Option Constant × Option Zone) → Bool
  | [] => false
  | (_, z) :: cs => zoneMightBlock z || casesMightBlock cs

def tabMightBlock : List (Str × Option Expr) → Bool
  | [] => false
  | (_, x) :: bs => exprMightBlock x || tabMightBlock bs

/-- The table `_tab` of `decl_block_t`, where a binding stays unless a later one has its name. -/
def declMightBlock : List (Str × Option Expr) → Bool
  | [] => false
  | (n, x) :: bs => (!(bs.any (·.1 == n)) && exprMightBlock x) || declMightBlock bs

end

mutual

/-- It has a declaration of its own that pushes a layer, which one in the body of a loop, of a
function or of a heredoc is not. -/
def Zone.declares : Zone → Bool
  | .html _ children => zonesDeclare children
  | .pub _ statements => statementsDeclare statements
  | .raw _ _ | .text _ _ | .wssBoundary _ _ _ | .inlineExpr _ _ => false

def Statement.declares : Statement → Bool
  | .decl _ typ _ => typ != .globals
  | .zone _ z => zoneDeclares z
  | .if _ clauses => clausesDeclare clauses
  | .switch _ _ cases => casesDeclare cases
  | .expr _ _ | .while _ _ _ | .for _ _ _ _ _ | .include _ _ _ _ | .print _ _ | .fndef _ _ _ _ _
  | .break _ | .return _ _ | .exit _ | .continue _ => false

def zoneDeclares : Option Zone → Bool
  | none => false
  | some z => z.declares

def zonesDeclare : List Zone → Bool
  | [] => false
  | z :: zs => z.declares || zonesDeclare zs

def statementsDeclare : List Statement → Bool
  | [] => false
  | s :: ss => s.declares || statementsDeclare ss

def clausesDeclare : List (Option Expr × Option Zone) → Bool
  | [] => false
  | (_, z) :: cs => zoneDeclares z || clausesDeclare cs

def casesDeclare : List (Option Constant × Option Zone) → Bool
  | [] => false
  | (_, z) :: cs => zoneDeclares z || casesDeclare cs

end

section Declaring

theorem declares_of_zones {zs : List Zone} (h : zonesDeclare zs = false) {z : Zone} (hz : z ∈ zs) :
    z.declares = false := by
  induction zs with
  | nil => cases hz
  | cons y zs ih =>
    obtain ⟨hy, hzs⟩ := Bool.or_eq_false_iff.mp h
    obtain rfl | hz := List.mem_cons.mp hz
    · exact hy
    · exact ih hzs hz

theorem declares_of_statements {ss : List Statement} (h : statementsDeclare ss = false)
    {s : Statement} (hs : s ∈ ss) : s.declares = false := by
  induction ss with
  | nil => cases hs
  | cons y ss ih =>
    obtain ⟨hy, hss⟩ := Bool.or_eq_false_iff.mp h
    obtain rfl | hs := List.mem_cons.mp hs
    · exact hy
    · exact ih hss hs

theorem declares_of_cases {cs : List (Option Constant × Option Zone)} (h : casesDeclare cs = false)
    {c : Option Constant × Option Zone} (hc : c ∈ cs) : zoneDeclares c.2 = false := by
  induction cs with
  | nil => cases hc
  | cons b cs ih =>
    obtain ⟨hb, hcs⟩ := Bool.or_eq_false_iff.mp h
    obtain rfl | hc := List.mem_cons.mp hc
    · exact hb
    · exact ih hcs hc

end Declaring

end Okws
