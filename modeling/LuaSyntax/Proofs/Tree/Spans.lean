import LuaSyntax.Tree.Build
import Mathlib.Data.List.Basic
/-!
# Spans of a tree

All spans in a tree, at any depth: those of statements, expressions, names, operators and all other
parts that carry one.
-/

namespace LuaSyntax

mutual

def Block.spans : Block → List Span
  | ⟨stmts, ret⟩ => spansOfStmts stmts ++ spansOfReturn? ret

def spansOfStmts : List (Located Stmt) → List Span
  | [] => []
  | s :: ss => spansOfStmt s ++ spansOfStmts ss

def spansOfReturn? : Option (Located Return) → List Span
  | none => []
  | some r => spansOfReturn r

def spansOfReturn : Located Return → List Span
  | ⟨⟨es⟩, span⟩ => span :: spansOfExprs es

def spansOfStmt : Located Stmt → List Span
  | ⟨s, span⟩ => span :: s.spans

/-- The spans inside a statement. -/
def Stmt.spans : Stmt → List Span
  | .label _ | .breakLoop | .continueLoop => []
  | .goto name => [name.span]
  | .block body => body.spans
  | .whileLoop cond body => spansOfExpr cond ++ body.spans
  | .repeatLoop body cond => body.spans ++ spansOfExpr cond
  | .numericFor var start stop step body =>
    var.span :: spansOfExpr start ++ spansOfExpr stop ++ spansOfExpr step ++ body.spans
  | .genericFor vars exprs body => vars.map (·.span) ++ spansOfExprs exprs ++ body.spans
  | .conditional clauses otherwise => spansOfClauses clauses ++ spansOfElse otherwise
  | .function name body =>
    name.path.map (·.span) ++ name.method.toList.map (·.span) ++ body.spans
  | .localFunction name body => name.span :: body.spans
  | .localDecl names exprs => names.map (·.span) ++ spansOfExprs exprs
  | .call p => p.spans
  | .assign targets exprs => spansOfTargets targets ++ spansOfExprs exprs

def spansOfClauses : List IfClause → List Span
  | [] => []
  | clause :: clauses => clause.spans ++ spansOfClauses clauses

def IfClause.spans : IfClause → List Span
  | ⟨cond, body⟩ => spansOfExpr cond ++ body.spans

def spansOfElse : Option Block → List Span
  | none => []
  | some body => body.spans

def spansOfTargets : List (Located PrefixExp) → List Span
  | [] => []
  | t :: ts => spansOfTarget t ++ spansOfTargets ts

def spansOfTarget : Located PrefixExp → List Span
  | ⟨p, span⟩ => span :: p.spans

def FuncBody.spans : FuncBody → List Span
  | ⟨params, vararg, body⟩ => params.map (·.span) ++ vararg.toList ++ body.spans

def spansOfExprs : List (Located Expr) → List Span
  | [] => []
  | e :: es => spansOfExpr e ++ spansOfExprs es

def spansOfExpr : Located Expr → List Span
  | ⟨e, span⟩ => span :: e.spans

/-- The spans inside an expression. -/
def Expr.spans : Expr → List Span
  | .nil | .boolean _ | .number _ | .str _ | .vararg => []
  | .function body => body.spans
  | .binary op lhs rhs => op.span :: spansOfExpr lhs ++ spansOfExpr rhs
  | .unary op operand => op.span :: spansOfExpr operand
  | .table fields => spansOfFields fields
  | .access p => p.spans

def PrefixExp.spans : PrefixExp → List Span
  | ⟨head, suffixes⟩ => spansOfHead head ++ spansOfSuffixes suffixes

def spansOfHead : Located Head → List Span
  | ⟨head, span⟩ => span :: head.spans

def Head.spans : Head → List Span
  | .name _ => []
  | .paren e => spansOfExpr e

def spansOfSuffixes : List (Located Suffix) → List Span
  | [] => []
  | s :: ss => spansOfSuffix s ++ spansOfSuffixes ss

def spansOfSuffix : Located Suffix → List Span
  | ⟨s, span⟩ => span :: s.spans

def Suffix.spans : Suffix → List Span
  | .call args => args.spans
  | .method name args => name.span :: args.spans
  | .index e => spansOfExpr e
  | .field name => [name.span]

def Args.spans : Args → List Span
  | .list exprs => spansOfExprs exprs
  | .table fields => spansOfFields fields
  | .str _ => []

def spansOfFields : List (Located Field) → List Span
  | [] => []
  | f :: fs => spansOfField f ++ spansOfFields fs

def spansOfField : Located Field → List Span
  | ⟨f, span⟩ => span :: f.spans

def Field.spans : Field → List Span
  | .keyed key value => spansOfExpr key ++ spansOfExpr value
  | .named name value => name.span :: spansOfExpr value
  | .positional value => spansOfExpr value

end

/-- All spans of the tree of a source, those of its comments included. -/
def Chunk.spans (c : Chunk) : List Span := c.comments.map (·.span) ++ c.block.spans

attribute [simp] Block.spans spansOfReturn spansOfStmt Stmt.spans IfClause.spans spansOfTarget
  FuncBody.spans spansOfExpr Expr.spans PrefixExp.spans spansOfHead Head.spans spansOfSuffix
  Suffix.spans Args.spans spansOfField Field.spans

theorem spansOfReturn_eq (r : Located Return) :
    spansOfReturn r = r.span :: spansOfExprs r.node.exprs := by
  obtain ⟨⟨es⟩, span⟩ := r
  simp

theorem spansOfStmt_eq (s : Located Stmt) : spansOfStmt s = s.span :: s.node.spans := by
  cases s
  simp

theorem spansOfExpr_eq (e : Located Expr) : spansOfExpr e = e.span :: e.node.spans := by
  cases e
  simp

theorem spansOfHead_eq (a : Located Head) : spansOfHead a = a.span :: a.node.spans := by
  cases a
  simp

theorem spansOfSuffix_eq (s : Located Suffix) : spansOfSuffix s = s.span :: s.node.spans := by
  cases s
  simp

theorem spansOfField_eq (f : Located Field) : spansOfField f = f.span :: f.node.spans := by
  cases f
  simp

@[simp] theorem spansOfStmts_eq_flatMap (ss : List (Located Stmt)) :
    spansOfStmts ss = ss.flatMap spansOfStmt := by
  induction ss with
  | nil => simp [spansOfStmts]
  | cons s ss ih => simp [spansOfStmts, ih]

@[simp] theorem spansOfReturn?_eq_flatMap (r : Option (Located Return)) :
    spansOfReturn? r = r.toList.flatMap spansOfReturn := by
  cases r <;> simp [spansOfReturn?]

@[simp] theorem spansOfExprs_eq_flatMap (es : List (Located Expr)) :
    spansOfExprs es = es.flatMap spansOfExpr := by
  induction es with
  | nil => simp [spansOfExprs]
  | cons e es ih => simp [spansOfExprs, ih]

@[simp] theorem spansOfClauses_eq_flatMap (cs : List IfClause) :
    spansOfClauses cs = cs.flatMap (·.spans) := by
  induction cs with
  | nil => simp [spansOfClauses]
  | cons c cs ih => simp [spansOfClauses, ih]

@[simp] theorem spansOfElse_eq_flatMap (b : Option Block) :
    spansOfElse b = b.toList.flatMap (·.spans) := by
  cases b <;> simp [spansOfElse]

@[simp] theorem spansOfTargets_eq_flatMap (ts : List (Located PrefixExp)) :
    spansOfTargets ts = ts.flatMap spansOfTarget := by
  induction ts with
  | nil => simp [spansOfTargets]
  | cons t ts ih => simp [spansOfTargets, ih]

@[simp] theorem spansOfSuffixes_eq_flatMap (ss : List (Located Suffix)) :
    spansOfSuffixes ss = ss.flatMap spansOfSuffix := by
  induction ss with
  | nil => simp [spansOfSuffixes]
  | cons s ss ih => simp [spansOfSuffixes, ih]

@[simp] theorem spansOfFields_eq_flatMap (fs : List (Located Field)) :
    spansOfFields fs = fs.flatMap spansOfField := by
  induction fs with
  | nil => simp [spansOfFields]
  | cons f fs ih => simp [spansOfFields, ih]

end LuaSyntax
