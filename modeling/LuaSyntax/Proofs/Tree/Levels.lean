import LuaSyntax.Tree.Build
/-!
# Nesting levels of trees

How many levels expressions and blocks nest in a tree. An expression or a block that stands inside
another construct is one level; the operands of an operator stand on the same level as the operator.
A block without anything in it needs no level.
-/

namespace LuaSyntax

mutual

def Block.levels : Block → Nat
  | ⟨[], none⟩ => 0
  | ⟨ss, r⟩ => max (levelsOfStmts ss) (levelsOfReturn? r) + 1

def levelsOfStmts : List (Located Stmt) → Nat
  | [] => 0
  | s :: ss => max s.node.inside (levelsOfStmts ss)

def levelsOfReturn? : Option (Located Return) → Nat
  | none => 0
  | some r => r.node.inside

def Return.inside : Return → Nat
  | ⟨es⟩ => levelsOfExprs es

def levelsOfExprs : List (Located Expr) → Nat
  | [] => 0
  | e :: es => max (e.node.inside + 1) (levelsOfExprs es)

/-- The levels inside a statement. -/
def Stmt.inside : Stmt → Nat
  | .label _ | .breakLoop | .continueLoop | .goto _ => 0
  | .block body => body.levels
  | .whileLoop cond body => max (cond.node.inside + 1) body.levels
  | .repeatLoop body cond => max body.levels (cond.node.inside + 1)
  | .numericFor _ start stop step body =>
    max (max (start.node.inside + 1) (stop.node.inside + 1))
      (max (step.node.inside + 1) body.levels)
  | .genericFor _ exprs body => max (levelsOfExprs exprs) body.levels
  | .conditional clauses otherwise => max (levelsOfClauses clauses) (levelsOfElse otherwise)
  | .function _ body => body.inside
  | .localFunction _ body => body.inside
  | .localDecl _ exprs => levelsOfExprs exprs
  | .call p => p.inside
  | .assign targets exprs => max (levelsOfTargets targets) (levelsOfExprs exprs)

def levelsOfClauses : List IfClause → Nat
  | [] => 0
  | clause :: clauses => max clause.inside (levelsOfClauses clauses)

def IfClause.inside : IfClause → Nat
  | ⟨cond, body⟩ => max (cond.node.inside + 1) body.levels

def levelsOfElse : Option Block → Nat
  | none => 0
  | some body => body.levels

def levelsOfTargets : List (Located PrefixExp) → Nat
  | [] => 0
  | t :: ts => max t.node.inside (levelsOfTargets ts)

def FuncBody.inside : FuncBody → Nat
  | ⟨_, _, body⟩ => body.levels

/-- The levels inside an expression, its own not counted. -/
def Expr.inside : Expr → Nat
  | .nil | .boolean _ | .number _ | .str _ | .vararg => 0
  | .function body => body.inside
  | .binary _ lhs rhs => max lhs.node.inside rhs.node.inside
  | .unary _ operand => operand.node.inside
  | .table fields => levelsOfFields fields
  | .access p => p.inside

def PrefixExp.inside : PrefixExp → Nat
  | ⟨head, suffixes⟩ => max head.node.inside (levelsOfSuffixes suffixes)

def Head.inside : Head → Nat
  | .name _ => 0
  | .paren e => e.node.inside + 1

def levelsOfSuffixes : List (Located Suffix) → Nat
  | [] => 0
  | s :: ss => max s.node.inside (levelsOfSuffixes ss)

def Suffix.inside : Suffix → Nat
  | .call args => args.inside
  | .method _ args => args.inside
  | .index e => e.node.inside + 1
  | .field _ => 0

def Args.inside : Args → Nat
  | .list exprs => levelsOfExprs exprs
  | .table fields => levelsOfFields fields
  | .str _ => 0

def levelsOfFields : List (Located Field) → Nat
  | [] => 0
  | f :: fs => max f.node.inside (levelsOfFields fs)

def Field.inside : Field → Nat
  | .keyed key value => max (key.node.inside + 1) (value.node.inside + 1)
  | .named _ value => value.node.inside + 1
  | .positional value => value.node.inside + 1

end

attribute [simp] Block.levels levelsOfStmts levelsOfReturn? Return.inside levelsOfExprs
  Stmt.inside levelsOfClauses IfClause.inside levelsOfElse levelsOfTargets FuncBody.inside
  Expr.inside PrefixExp.inside Head.inside levelsOfSuffixes Suffix.inside Args.inside
  levelsOfFields Field.inside

/-- The levels of an expression, its own included. -/
def Expr.levels (e : Expr) : Nat := e.inside + 1

theorem Block.levels_eq (ss : List (Located Stmt)) (r : Option (Located Return)) :
    (⟨ss, r⟩ : Block).levels =
      if ss = [] ∧ r = none then 0 else max (levelsOfStmts ss) (levelsOfReturn? r) + 1 := by
  cases ss <;> cases r <;> simp

end LuaSyntax
