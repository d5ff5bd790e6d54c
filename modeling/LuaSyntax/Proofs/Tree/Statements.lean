import LuaSyntax.Tree.Build
/-!
# Statements of a tree

All statements in a tree, at any depth, those of function bodies inside expressions included. Each
one stands before the statements inside it.
-/

namespace LuaSyntax

mutual

def Block.statements : Block → List (Located Stmt)
  | ⟨stmts, ret⟩ => statementsOfStmts stmts ++ statementsOfReturn? ret

def statementsOfStmts : List (Located Stmt) → List (Located Stmt)
  | [] => []
  | s :: ss => s :: s.node.statements ++ statementsOfStmts ss

def statementsOfReturn? : Option (Located Return) → List (Located Stmt)
  | none => []
  | some r => r.node.statements

def Return.statements : Return → List (Located Stmt)
  | ⟨es⟩ => statementsOfExprs es

def statementsOfExprs : List (Located Expr) → List (Located Stmt)
  | [] => []
  | e :: es => e.node.statements ++ statementsOfExprs es

/-- The statements inside a statement. -/
def Stmt.statements : Stmt → List (Located Stmt)
  | .label _ | .breakLoop | .continueLoop | .goto _ => []
  | .block body => body.statements
  | .whileLoop cond body => cond.node.statements ++ body.statements
  | .repeatLoop body cond => body.statements ++ cond.node.statements
  | .numericFor _ start stop step body =>
    start.node.statements ++ stop.node.statements ++ step.node.statements ++ body.statements
  | .genericFor _ exprs body => statementsOfExprs exprs ++ body.statements
  | .conditional clauses otherwise => statementsOfClauses clauses ++ statementsOfElse otherwise
  | .function _ body => body.statements
  | .localFunction _ body => body.statements
  | .localDecl _ exprs => statementsOfExprs exprs
  | .call p => p.statements
  | .assign targets exprs => statementsOfTargets targets ++ statementsOfExprs exprs

def statementsOfClauses : List IfClause → List (Located Stmt)
  | [] => []
  | clause :: clauses => clause.statements ++ statementsOfClauses clauses

def IfClause.statements : IfClause → List (Located Stmt)
  | ⟨cond, body⟩ => cond.node.statements ++ body.statements

def statementsOfElse : Option Block → List (Located Stmt)
  | none => []
  | some body => body.statements

def statementsOfTargets : List (Located PrefixExp) → List (Located Stmt)
  | [] => []
  | t :: ts => t.node.statements ++ statementsOfTargets ts

def FuncBody.statements : FuncBody → List (Located Stmt)
  | ⟨_, _, body⟩ => body.statements

def Expr.statements : Expr → List (Located Stmt)
  | .nil | .boolean _ | .number _ | .str _ | .vararg => []
  | .function body => body.statements
  | .binary _ lhs rhs => lhs.node.statements ++ rhs.node.statements
  | .unary _ operand => operand.node.statements
  | .table fields => statementsOfFields fields
  | .access p => p.statements

def PrefixExp.statements : PrefixExp → List (Located Stmt)
  | ⟨head, suffixes⟩ => head.node.statements ++ statementsOfSuffixes suffixes

def Head.statements : Head → List (Located Stmt)
  | .name _ => []
  | .paren e => e.node.statements

def statementsOfSuffixes : List (Located Suffix) → List (Located Stmt)
  | [] => []
  | s :: ss => s.node.statements ++ statementsOfSuffixes ss

def Suffix.statements : Suffix → List (Located Stmt)
  | .call args => args.statements
  | .method _ args => args.statements
  | .index e => e.node.statements
  | .field _ => []

def Args.statements : Args → List (Located Stmt)
  | .list exprs => statementsOfExprs exprs
  | .table fields => statementsOfFields fields
  | .str _ => []

def statementsOfFields : List (Located Field) → List (Located Stmt)
  | [] => []
  | f :: fs => f.node.statements ++ statementsOfFields fs

def Field.statements : Field → List (Located Stmt)
  | .keyed key value => key.node.statements ++ value.node.statements
  | .named _ value => value.node.statements
  | .positional value => value.node.statements

end

attribute [simp] Block.statements Return.statements Stmt.statements IfClause.statements
  FuncBody.statements Expr.statements PrefixExp.statements Head.statements Suffix.statements
  Args.statements Field.statements

@[simp] theorem statementsOfStmts_eq_flatMap (ss : List (Located Stmt)) :
    statementsOfStmts ss = ss.flatMap fun s => s :: s.node.statements := by
  induction ss with
  | nil => simp [statementsOfStmts]
  | cons s ss ih => simp [statementsOfStmts, ih]

@[simp] theorem statementsOfReturn?_eq_flatMap (r : Option (Located Return)) :
    statementsOfReturn? r = r.toList.flatMap (·.node.statements) := by
  cases r <;> simp [statementsOfReturn?]

@[simp] theorem statementsOfExprs_eq_flatMap (es : List (Located Expr)) :
    statementsOfExprs es = es.flatMap (·.node.statements) := by
  induction es with
  | nil => simp [statementsOfExprs]
  | cons e es ih => simp [statementsOfExprs, ih]

@[simp] theorem statementsOfClauses_eq_flatMap (cs : List IfClause) :
    statementsOfClauses cs = cs.flatMap (·.statements) := by
  induction cs with
  | nil => simp [statementsOfClauses]
  | cons c cs ih => simp [statementsOfClauses, ih]

@[simp] theorem statementsOfElse_eq_flatMap (b : Option Block) :
    statementsOfElse b = b.toList.flatMap (·.statements) := by
  cases b <;> simp [statementsOfElse]

@[simp] theorem statementsOfTargets_eq_flatMap (ts : List (Located PrefixExp)) :
    statementsOfTargets ts = ts.flatMap (·.node.statements) := by
  induction ts with
  | nil => simp [statementsOfTargets]
  | cons t ts ih => simp [statementsOfTargets, ih]

@[simp] theorem statementsOfSuffixes_eq_flatMap (ss : List (Located Suffix)) :
    statementsOfSuffixes ss = ss.flatMap (·.node.statements) := by
  induction ss with
  | nil => simp [statementsOfSuffixes]
  | cons s ss ih => simp [statementsOfSuffixes, ih]

@[simp] theorem statementsOfFields_eq_flatMap (fs : List (Located Field)) :
    statementsOfFields fs = fs.flatMap (·.node.statements) := by
  induction fs with
  | nil => simp [statementsOfFields]
  | cons f fs ih => simp [statementsOfFields, ih]

end LuaSyntax
