import LuaSyntax.Grammar.Stmt
/-!
# Assignment targets

The targets of all assignments in a tree, at any depth, in the order in which the grammar comes past
them: those inside a target stand before it. A target that cannot be assigned to leaves a note.
-/

namespace LuaSyntax

mutual

def Block.targets : Block → List (Located PrefixExp)
  | ⟨stmts, ret⟩ => targetsOfStmts stmts ++ targetsOfReturn? ret

def targetsOfStmts : List (Located Stmt) → List (Located PrefixExp)
  | [] => []
  | s :: ss => s.node.targets ++ targetsOfStmts ss

def targetsOfReturn? : Option (Located Return) → List (Located PrefixExp)
  | none => []
  | some r => r.node.targets

def Return.targets : Return → List (Located PrefixExp)
  | ⟨es⟩ => targetsOfExprs es

def targetsOfExprs : List (Located Expr) → List (Located PrefixExp)
  | [] => []
  | e :: es => e.node.targets ++ targetsOfExprs es

def Stmt.targets : Stmt → List (Located PrefixExp)
  | .label _ | .breakLoop | .continueLoop | .goto _ => []
  | .block body => body.targets
  | .whileLoop cond body => cond.node.targets ++ body.targets
  | .repeatLoop body cond => body.targets ++ cond.node.targets
  | .numericFor _ start stop step body =>
    start.node.targets ++ stop.node.targets ++ step.node.targets ++ body.targets
  | .genericFor _ exprs body => targetsOfExprs exprs ++ body.targets
  | .conditional clauses otherwise => targetsOfClauses clauses ++ targetsOfElse otherwise
  | .function _ body => body.targets
  | .localFunction _ body => body.targets
  | .localDecl _ exprs => targetsOfExprs exprs
  | .call p => p.targets
  | .assign targets exprs => targetsOfTargets targets ++ targetsOfExprs exprs

def targetsOfClauses : List IfClause → List (Located PrefixExp)
  | [] => []
  | clause :: clauses => clause.targets ++ targetsOfClauses clauses

def IfClause.targets : IfClause → List (Located PrefixExp)
  | ⟨cond, body⟩ => cond.node.targets ++ body.targets

def targetsOfElse : Option Block → List (Located PrefixExp)
  | none => []
  | some body => body.targets

/-- The targets of one assignment, each after those inside it. -/
def targetsOfTargets : List (Located PrefixExp) → List (Located PrefixExp)
  | [] => []
  | t :: ts => t.node.targets ++ t :: targetsOfTargets ts

def FuncBody.targets : FuncBody → List (Located PrefixExp)
  | ⟨_, _, body⟩ => body.targets

def Expr.targets : Expr → List (Located PrefixExp)
  | .nil | .boolean _ | .number _ | .str _ | .vararg => []
  | .function body => body.targets
  | .binary _ lhs rhs => lhs.node.targets ++ rhs.node.targets
  | .unary _ operand => operand.node.targets
  | .table fields => targetsOfFields fields
  | .access p => p.targets

def PrefixExp.targets : PrefixExp → List (Located PrefixExp)
  | ⟨head, suffixes⟩ => head.node.targets ++ targetsOfSuffixes suffixes

def Head.targets : Head → List (Located PrefixExp)
  | .name _ => []
  | .paren e => e.node.targets

def targetsOfSuffixes : List (Located Suffix) → List (Located PrefixExp)
  | [] => []
  | s :: ss => s.node.targets ++ targetsOfSuffixes ss

def Suffix.targets : Suffix → List (Located PrefixExp)
  | .call args => args.targets
  | .method _ args => args.targets
  | .index e => e.node.targets
  | .field _ => []

def Args.targets : Args → List (Located PrefixExp)
  | .list exprs => targetsOfExprs exprs
  | .table fields => targetsOfFields fields
  | .str _ => []

def targetsOfFields : List (Located Field) → List (Located PrefixExp)
  | [] => []
  | f :: fs => f.node.targets ++ targetsOfFields fs

def Field.targets : Field → List (Located PrefixExp)
  | .keyed key value => key.node.targets ++ value.node.targets
  | .named _ value => value.node.targets
  | .positional value => value.node.targets

end

attribute [simp] Block.targets targetsOfStmts targetsOfReturn? Return.targets targetsOfExprs
  Stmt.targets targetsOfClauses IfClause.targets targetsOfElse targetsOfTargets FuncBody.targets
  Expr.targets PrefixExp.targets Head.targets targetsOfSuffixes Suffix.targets Args.targets
  targetsOfFields Field.targets

/-- The note that a target leaves. -/
def targetNote? (t : Located PrefixExp) : Option Diagnostic :=
  (Grammar.targetCause? t.node).map fun cause => ⟨t.span, cause, .unrepaired⟩

/-- The notes that targets leave, in order. -/
def targetNotes (ts : List (Located PrefixExp)) : List Diagnostic :=
  ts.filterMap targetNote?

@[simp] theorem targetNotes_nil : targetNotes [] = [] := rfl

@[simp] theorem targetNotes_append (ts us : List (Located PrefixExp)) :
    targetNotes (ts ++ us) = targetNotes ts ++ targetNotes us :=
  List.filterMap_append

/-- Where there is nothing to note on the targets, none of them leaves a note. -/
theorem targetNotes_of_subset {ts us : List (Located PrefixExp)} (h : ts ⊆ us)
    (hnone : targetNotes us = []) : targetNotes ts = [] := by
  rw [targetNotes, List.filterMap_eq_nil_iff] at hnone ⊢
  exact fun t ht => hnone t (h ht)

theorem targetsOfExprs_eq_flatMap (es : List (Located Expr)) :
    targetsOfExprs es = es.flatMap (·.node.targets) := by
  induction es with
  | nil => simp
  | cons e es ih => simp [ih]

@[simp] theorem targetsOfExprs_append (es fs : List (Located Expr)) :
    targetsOfExprs (es ++ fs) = targetsOfExprs es ++ targetsOfExprs fs := by
  simp [targetsOfExprs_eq_flatMap]

theorem targetsOfTargets_eq_flatMap (ts : List (Located PrefixExp)) :
    targetsOfTargets ts = ts.flatMap fun t => t.node.targets ++ [t] := by
  induction ts with
  | nil => simp
  | cons t ts ih => simp [ih]

theorem targetsOfExprs_eq_nil {es : List (Located Expr)} (h : ∀ e ∈ es, e.node = .nil) :
    targetsOfExprs es = [] := by
  induction es with
  | nil => rfl
  | cons e es ih =>
    rw [List.forall_mem_cons] at h
    simp [h.1, ih h.2]

@[simp] theorem targetsOfExprs_padWithNil (count : Nat) (span : Span) (es : List (Located Expr)) :
    targetsOfExprs (Expr.padWithNil count span es) = targetsOfExprs es := by
  have hnil : ∀ e ∈ List.replicate (count - es.length) (Expr.nilAt span), e.node = .nil := by
    intro e he
    rw [(List.mem_replicate.1 he).2]
    rfl
  simp [Expr.padWithNil, targetsOfExprs_eq_nil hnil]

end LuaSyntax
