import LuaSyntax.Proofs.Tree.Same
import LuaSyntax.Proofs.Tree.Spans
/-!
# Trees without their spans

A tree is erased by the default span in the place of each span in it. Two trees are the same up to
spans exactly if they erase to the same tree, which makes sameness an equivalence.
-/

namespace LuaSyntax

namespace Located

variable {α : Type}

/-- The value at the default span. -/
def unplaced (x : Located α) : Located α := ⟨x.node, default⟩

@[simp] theorem span_unplaced (x : Located α) : x.unplaced.span = default := rfl

theorem unplaced_inj {x y : Located α} : x.unplaced = y.unplaced ↔ x.node = y.node := by
  simp [unplaced]

theorem map_unplaced_inj {xs ys : List (Located α)} :
    xs.map unplaced = ys.map unplaced ↔ xs.map (·.node) = ys.map (·.node) := by
  induction xs generalizing ys with
  | nil => cases ys <;> simp
  | cons x xs ih => cases ys <;> simp [ih, unplaced_inj]

variable [DecidableEq α]

theorem sameNode_iff_unplaced {x y : Located α} :
    x.sameNode y = true ↔ x.unplaced = y.unplaced := by
  rw [sameNode, beq_iff_eq, unplaced_inj]

theorem sameNodes_iff_unplaced {xs ys : List (Located α)} :
    sameNodes xs ys = true ↔ xs.map unplaced = ys.map unplaced := by
  rw [sameNodes, beq_iff_eq, map_unplaced_inj]

end Located

open Located (sameNode_iff_unplaced sameNodes_iff_unplaced)

/-! ### Erasure -/

/-- The name of a function with the default span for each name in it. -/
def FuncName.erased (n : FuncName) : FuncName :=
  ⟨n.path.map (·.unplaced), n.method.map (·.unplaced)⟩

mutual

def Block.erased : Block → Block
  | ⟨stmts, ret⟩ => ⟨erasedStmts stmts, erasedReturn? ret⟩

def erasedStmts : List (Located Stmt) → List (Located Stmt)
  | [] => []
  | s :: ss => ⟨s.node.erased, default⟩ :: erasedStmts ss

def erasedReturn? : Option (Located Return) → Option (Located Return)
  | none => none
  | some r => some ⟨r.node.erased, default⟩

def Return.erased : Return → Return
  | ⟨exprs⟩ => ⟨erasedExprs exprs⟩

def erasedExprs : List (Located Expr) → List (Located Expr)
  | [] => []
  | e :: es => ⟨e.node.erased, default⟩ :: erasedExprs es

/-- A statement with the default span for each span inside it. -/
def Stmt.erased : Stmt → Stmt
  | .label name => .label name
  | .breakLoop => .breakLoop
  | .continueLoop => .continueLoop
  | .goto name => .goto name.unplaced
  | .block body => .block body.erased
  | .whileLoop cond body => .whileLoop ⟨cond.node.erased, default⟩ body.erased
  | .repeatLoop body cond => .repeatLoop body.erased ⟨cond.node.erased, default⟩
  | .numericFor var start stop step body =>
    .numericFor var.unplaced ⟨start.node.erased, default⟩ ⟨stop.node.erased, default⟩
      ⟨step.node.erased, default⟩ body.erased
  | .genericFor vars exprs body =>
    .genericFor (vars.map (·.unplaced)) (erasedExprs exprs) body.erased
  | .conditional clauses otherwise => .conditional (erasedClauses clauses) (erasedElse otherwise)
  | .function name body => .function name.erased body.erased
  | .localFunction name body => .localFunction name.unplaced body.erased
  | .localDecl names exprs => .localDecl (names.map (·.unplaced)) (erasedExprs exprs)
  | .call p => .call p.erased
  | .assign targets exprs => .assign (erasedTargets targets) (erasedExprs exprs)

def erasedClauses : List IfClause → List IfClause
  | [] => []
  | clause :: clauses => clause.erased :: erasedClauses clauses

def IfClause.erased : IfClause → IfClause
  | ⟨cond, body⟩ => ⟨⟨cond.node.erased, default⟩, body.erased⟩

def erasedElse : Option Block → Option Block
  | none => none
  | some body => some body.erased

def erasedTargets : List (Located PrefixExp) → List (Located PrefixExp)
  | [] => []
  | t :: ts => ⟨t.node.erased, default⟩ :: erasedTargets ts

def FuncBody.erased : FuncBody → FuncBody
  | ⟨params, vararg, body⟩ =>
    ⟨params.map (·.unplaced), vararg.map fun _ => default, body.erased⟩

/-- An expression with the default span for each span inside it. -/
def Expr.erased : Expr → Expr
  | .nil => .nil
  | .boolean value => .boolean value
  | .number raw => .number raw
  | .str raw => .str raw
  | .vararg => .vararg
  | .function body => .function body.erased
  | .binary op lhs rhs =>
    .binary op.unplaced ⟨lhs.node.erased, default⟩ ⟨rhs.node.erased, default⟩
  | .unary op operand => .unary op.unplaced ⟨operand.node.erased, default⟩
  | .table fields => .table (erasedFields fields)
  | .access p => .access p.erased

def PrefixExp.erased : PrefixExp → PrefixExp
  | ⟨head, suffixes⟩ => ⟨⟨head.node.erased, default⟩, erasedSuffixes suffixes⟩

def Head.erased : Head → Head
  | .name name => .name name
  | .paren e => .paren ⟨e.node.erased, default⟩

def erasedSuffixes : List (Located Suffix) → List (Located Suffix)
  | [] => []
  | s :: ss => ⟨s.node.erased, default⟩ :: erasedSuffixes ss

def Suffix.erased : Suffix → Suffix
  | .call args => .call args.erased
  | .method name args => .method name.unplaced args.erased
  | .index e => .index ⟨e.node.erased, default⟩
  | .field name => .field name.unplaced

def Args.erased : Args → Args
  | .list exprs => .list (erasedExprs exprs)
  | .table fields => .table (erasedFields fields)
  | .str raw => .str raw

def erasedFields : List (Located Field) → List (Located Field)
  | [] => []
  | f :: fs => ⟨f.node.erased, default⟩ :: erasedFields fs

def Field.erased : Field → Field
  | .keyed key value => .keyed ⟨key.node.erased, default⟩ ⟨value.node.erased, default⟩
  | .named name value => .named name.unplaced ⟨value.node.erased, default⟩
  | .positional value => .positional ⟨value.node.erased, default⟩

end

/-- The tree of a source with the default span for each span in it, those of its comments
included. -/
def Chunk.erased (c : Chunk) : Chunk := ⟨c.comments.map (·.unplaced), c.block.erased⟩

/-! ### Spans of what is erased -/

theorem spansOfTarget_eq (t : Located PrefixExp) : spansOfTarget t = t.span :: t.node.spans := by
  cases t
  simp

theorem map_span_unplaced {α : Type} (xs : List (Located α)) :
    (xs.map (·.unplaced)).map (·.span) = (xs.map (·.span)).map fun _ => default := by
  simp [Function.comp_def]

/-- The spans of the names in the name of a function. -/
def FuncName.spans (n : FuncName) : List Span :=
  n.path.map (·.span) ++ n.method.toList.map (·.span)

theorem FuncName.spans_erased (n : FuncName) : n.erased.spans = n.spans.map fun _ => default := by
  obtain ⟨path, method⟩ := n
  simp only [erased, spans, List.map_append, map_span_unplaced]
  cases method <;> rfl

mutual

/-- Erasure replaces each span of a tree by the default one, and keeps how many there are. -/
theorem Block.spans_erased : (b : Block) → b.erased.spans = b.spans.map fun _ => default
  | ⟨ss, r⟩ => by
    simp only [Block.erased, Block.spans, List.map_append, spans_erasedStmts ss,
      spans_erasedReturn? r]
termination_by structural b => b

theorem spans_erasedStmts : (ss : List (Located Stmt)) →
    spansOfStmts (erasedStmts ss) = (spansOfStmts ss).map fun _ => default
  | [] => rfl
  | s :: ss => by
    simp only [erasedStmts, spansOfStmts, spansOfStmt_eq, List.map_append, List.map_cons,
      Stmt.spans_erased s.node, spans_erasedStmts ss]
termination_by structural ss => ss

theorem spans_erasedReturn? : (r : Option (Located Return)) →
    spansOfReturn? (erasedReturn? r) = (spansOfReturn? r).map fun _ => default
  | none => rfl
  | some r => by
    simp only [erasedReturn?, spansOfReturn?, spansOfReturn_eq, List.map_cons,
      Return.spans_erased r.node]
termination_by structural r => r

theorem Return.spans_erased : (r : Return) →
    spansOfExprs r.erased.exprs = (spansOfExprs r.exprs).map fun _ => default
  | ⟨es⟩ => spans_erasedExprs es
termination_by structural r => r

theorem spans_erasedExprs : (es : List (Located Expr)) →
    spansOfExprs (erasedExprs es) = (spansOfExprs es).map fun _ => default
  | [] => rfl
  | e :: es => by
    simp only [erasedExprs, spansOfExprs, spansOfExpr_eq, List.map_append, List.map_cons,
      Expr.spans_erased e.node, spans_erasedExprs es]
termination_by structural es => es

theorem Stmt.spans_erased : (s : Stmt) → s.erased.spans = s.spans.map fun _ => default
  | .label _ | .breakLoop | .continueLoop => rfl
  | .goto _ => rfl
  | .block body => Block.spans_erased body
  | .whileLoop cond body => by
    simp only [Stmt.erased, Stmt.spans, spansOfExpr_eq, List.map_append, List.map_cons,
      Expr.spans_erased cond.node, Block.spans_erased body]
  | .repeatLoop body cond => by
    simp only [Stmt.erased, Stmt.spans, spansOfExpr_eq, List.map_append, List.map_cons,
      Expr.spans_erased cond.node, Block.spans_erased body]
  | .numericFor var start stop step body => by
    simp only [Stmt.erased, Stmt.spans, spansOfExpr_eq, List.map_append, List.map_cons,
      List.cons_append, Located.span_unplaced, Expr.spans_erased start.node,
      Expr.spans_erased stop.node, Expr.spans_erased step.node, Block.spans_erased body]
  | .genericFor vars es body => by
    simp only [Stmt.erased, Stmt.spans, List.map_append, map_span_unplaced,
      spans_erasedExprs es, Block.spans_erased body]
  | .conditional cs other => by
    simp only [Stmt.erased, Stmt.spans, List.map_append, spans_erasedClauses cs,
      spans_erasedElse other]
  | .function name f => by
    have hname := FuncName.spans_erased name
    simp only [FuncName.spans, List.map_append] at hname
    simp only [Stmt.erased, Stmt.spans, List.map_append, hname, FuncBody.spans_erased f]
  | .localFunction name f => by
    simp only [Stmt.erased, Stmt.spans, List.map_cons, Located.span_unplaced,
      FuncBody.spans_erased f]
  | .localDecl names es => by
    simp only [Stmt.erased, Stmt.spans, List.map_append, map_span_unplaced, spans_erasedExprs es]
  | .call p => PrefixExp.spans_erased p
  | .assign ts es => by
    simp only [Stmt.erased, Stmt.spans, List.map_append, spans_erasedTargets ts,
      spans_erasedExprs es]
termination_by structural s => s

theorem spans_erasedClauses : (cs : List IfClause) →
    spansOfClauses (erasedClauses cs) = (spansOfClauses cs).map fun _ => default
  | [] => rfl
  | c :: cs => by
    simp only [erasedClauses, spansOfClauses, List.map_append, IfClause.spans_erased c,
      spans_erasedClauses cs]
termination_by structural cs => cs

theorem IfClause.spans_erased : (c : IfClause) → c.erased.spans = c.spans.map fun _ => default
  | ⟨cond, body⟩ => by
    simp only [IfClause.erased, IfClause.spans, spansOfExpr_eq, List.map_append, List.map_cons,
      Expr.spans_erased cond.node, Block.spans_erased body]
termination_by structural c => c

theorem spans_erasedElse : (b : Option Block) →
    spansOfElse (erasedElse b) = (spansOfElse b).map fun _ => default
  | none => rfl
  | some body => Block.spans_erased body
termination_by structural b => b

theorem spans_erasedTargets : (ts : List (Located PrefixExp)) →
    spansOfTargets (erasedTargets ts) = (spansOfTargets ts).map fun _ => default
  | [] => rfl
  | t :: ts => by
    simp only [erasedTargets, spansOfTargets, spansOfTarget_eq, List.map_append, List.map_cons,
      PrefixExp.spans_erased t.node, spans_erasedTargets ts]
termination_by structural ts => ts

theorem FuncBody.spans_erased : (f : FuncBody) → f.erased.spans = f.spans.map fun _ => default
  | ⟨params, vararg, body⟩ => by
    have hvararg : (vararg.map fun _ => (default : Span)).toList =
        vararg.toList.map fun _ => default := by
      cases vararg <;> rfl
    simp only [FuncBody.erased, FuncBody.spans, List.map_append, map_span_unplaced, hvararg,
      Block.spans_erased body]
termination_by structural f => f

theorem Expr.spans_erased : (e : Expr) → e.erased.spans = e.spans.map fun _ => default
  | .nil | .boolean _ | .number _ | .str _ | .vararg => rfl
  | .function f => FuncBody.spans_erased f
  | .binary op lhs rhs => by
    simp only [Expr.erased, Expr.spans, spansOfExpr_eq, List.map_append, List.map_cons,
      List.cons_append, Located.span_unplaced, Expr.spans_erased lhs.node,
      Expr.spans_erased rhs.node]
  | .unary op e => by
    simp only [Expr.erased, Expr.spans, spansOfExpr_eq, List.map_cons, Located.span_unplaced,
      Expr.spans_erased e.node]
  | .table fs => spans_erasedFields fs
  | .access p => PrefixExp.spans_erased p
termination_by structural e => e

theorem PrefixExp.spans_erased : (p : PrefixExp) → p.erased.spans = p.spans.map fun _ => default
  | ⟨head, ss⟩ => by
    simp only [PrefixExp.erased, PrefixExp.spans, spansOfHead_eq, List.map_append, List.map_cons,
      Head.spans_erased head.node, spans_erasedSuffixes ss]
termination_by structural p => p

theorem Head.spans_erased : (a : Head) → a.erased.spans = a.spans.map fun _ => default
  | .name _ => rfl
  | .paren e => by
    simp only [Head.erased, Head.spans, spansOfExpr_eq, List.map_cons, Expr.spans_erased e.node]
termination_by structural a => a

theorem spans_erasedSuffixes : (ss : List (Located Suffix)) →
    spansOfSuffixes (erasedSuffixes ss) = (spansOfSuffixes ss).map fun _ => default
  | [] => rfl
  | s :: ss => by
    simp only [erasedSuffixes, spansOfSuffixes, spansOfSuffix_eq, List.map_append, List.map_cons,
      Suffix.spans_erased s.node, spans_erasedSuffixes ss]
termination_by structural ss => ss

theorem Suffix.spans_erased : (s : Suffix) → s.erased.spans = s.spans.map fun _ => default
  | .call args => Args.spans_erased args
  | .method name args => by
    simp only [Suffix.erased, Suffix.spans, List.map_cons, Located.span_unplaced,
      Args.spans_erased args]
  | .index e => by
    simp only [Suffix.erased, Suffix.spans, spansOfExpr_eq, List.map_cons,
      Expr.spans_erased e.node]
  | .field _ => rfl
termination_by structural s => s

theorem Args.spans_erased : (a : Args) → a.erased.spans = a.spans.map fun _ => default
  | .list es => spans_erasedExprs es
  | .table fs => spans_erasedFields fs
  | .str _ => rfl
termination_by structural a => a

theorem spans_erasedFields : (fs : List (Located Field)) →
    spansOfFields (erasedFields fs) = (spansOfFields fs).map fun _ => default
  | [] => rfl
  | f :: fs => by
    simp only [erasedFields, spansOfFields, spansOfField_eq, List.map_append, List.map_cons,
      Field.spans_erased f.node, spans_erasedFields fs]
termination_by structural fs => fs

theorem Field.spans_erased : (f : Field) → f.erased.spans = f.spans.map fun _ => default
  | .keyed key value => by
    simp only [Field.erased, Field.spans, spansOfExpr_eq, List.map_append, List.map_cons,
      Expr.spans_erased key.node, Expr.spans_erased value.node]
  | .named name value => by
    simp only [Field.erased, Field.spans, spansOfExpr_eq, List.map_cons, Located.span_unplaced,
      Expr.spans_erased value.node]
  | .positional value => by
    simp only [Field.erased, Field.spans, spansOfExpr_eq, List.map_cons,
      Expr.spans_erased value.node]
termination_by structural f => f

end

theorem Chunk.spans_erased (c : Chunk) : c.erased.spans = c.spans.map fun _ => default := by
  simp only [erased, spans, List.map_append, map_span_unplaced, Block.spans_erased c.block]

/-! ### Sameness as equality of what is erased -/

theorem FuncName.same_iff_erased {a b : FuncName} : a.same b = true ↔ a.erased = b.erased := by
  obtain ⟨path, method⟩ := a
  obtain ⟨path', method'⟩ := b
  have hmethod : method.map (·.node) = method'.map (·.node) ↔
      method.map (·.unplaced) = method'.map (·.unplaced) := by
    cases method <;> cases method' <;> simp [Located.unplaced_inj]
  rw [same, Bool.and_eq_true, sameNodes_iff_unplaced, beq_iff_eq, hmethod, erased, erased,
    FuncName.mk.injEq]

mutual

theorem Block.same_iff_erased : (a b : Block) → (a.same b = true ↔ a.erased = b.erased)
  | ⟨ss, r⟩, ⟨ss', r'⟩ => by
    simp [Block.same, Block.erased, sameStmts_iff_erased ss, sameReturn?_iff_erased r]
termination_by structural a => a

theorem sameStmts_iff_erased : (as bs : List (Located Stmt)) →
    (sameStmts as bs = true ↔ erasedStmts as = erasedStmts bs)
  | [], bs => by cases bs <;> simp [sameStmts, erasedStmts]
  | a :: as, bs => by
    cases bs <;>
      simp [sameStmts, erasedStmts, Stmt.same_iff_erased a.node, sameStmts_iff_erased as]
termination_by structural a => a

theorem sameReturn?_iff_erased : (a b : Option (Located Return)) →
    (sameReturn? a b = true ↔ erasedReturn? a = erasedReturn? b)
  | none, b => by cases b <;> simp [sameReturn?, erasedReturn?]
  | some r, b => by
    cases b <;> simp [sameReturn?, erasedReturn?, Return.same_iff_erased r.node]
termination_by structural a => a

theorem Return.same_iff_erased : (a b : Return) → (a.same b = true ↔ a.erased = b.erased)
  | ⟨es⟩, ⟨es'⟩ => by simp [Return.same, Return.erased, sameExprs_iff_erased es]
termination_by structural a => a

theorem sameExprs_iff_erased : (as bs : List (Located Expr)) →
    (sameExprs as bs = true ↔ erasedExprs as = erasedExprs bs)
  | [], bs => by cases bs <;> simp [sameExprs, erasedExprs]
  | a :: as, bs => by
    cases bs <;>
      simp [sameExprs, erasedExprs, Expr.same_iff_erased a.node, sameExprs_iff_erased as]
termination_by structural a => a

theorem Stmt.same_iff_erased : (a b : Stmt) → (a.same b = true ↔ a.erased = b.erased)
  | .label n, b => by cases b <;> simp [Stmt.same, Stmt.erased]
  | .breakLoop, b => by cases b <;> simp [Stmt.same, Stmt.erased]
  | .continueLoop, b => by cases b <;> simp [Stmt.same, Stmt.erased]
  | .goto n, b => by cases b <;> simp [Stmt.same, Stmt.erased, sameNode_iff_unplaced]
  | .block body, b => by
    cases b <;> simp [Stmt.same, Stmt.erased, Block.same_iff_erased body]
  | .whileLoop cond body, b => by
    cases b <;>
      simp [Stmt.same, Stmt.erased, Expr.same_iff_erased cond.node, Block.same_iff_erased body]
  | .repeatLoop body cond, b => by
    cases b <;>
      simp [Stmt.same, Stmt.erased, Expr.same_iff_erased cond.node, Block.same_iff_erased body]
  | .numericFor var start stop step body, b => by
    cases b <;>
      simp [Stmt.same, Stmt.erased, sameNode_iff_unplaced, Expr.same_iff_erased start.node,
        Expr.same_iff_erased stop.node, Expr.same_iff_erased step.node,
        Block.same_iff_erased body, and_assoc]
  | .genericFor vars es body, b => by
    cases b <;>
      simp [Stmt.same, Stmt.erased, sameNodes_iff_unplaced, sameExprs_iff_erased es,
        Block.same_iff_erased body, and_assoc]
  | .conditional cs other, b => by
    cases b <;>
      simp [Stmt.same, Stmt.erased, sameClauses_iff_erased cs, sameBlock?_iff_erased other]
  | .function n f, b => by
    cases b <;>
      simp [Stmt.same, Stmt.erased, FuncName.same_iff_erased, FuncBody.same_iff_erased f]
  | .localFunction n f, b => by
    cases b <;> simp [Stmt.same, Stmt.erased, sameNode_iff_unplaced, FuncBody.same_iff_erased f]
  | .localDecl ns es, b => by
    cases b <;>
      simp [Stmt.same, Stmt.erased, sameNodes_iff_unplaced, sameExprs_iff_erased es]
  | .call p, b => by cases b <;> simp [Stmt.same, Stmt.erased, PrefixExp.same_iff_erased p]
  | .assign ts es, b => by
    cases b <;>
      simp [Stmt.same, Stmt.erased, sameTargets_iff_erased ts, sameExprs_iff_erased es]
termination_by structural a => a

theorem sameClauses_iff_erased : (as bs : List IfClause) →
    (sameClauses as bs = true ↔ erasedClauses as = erasedClauses bs)
  | [], bs => by cases bs <;> simp [sameClauses, erasedClauses]
  | a :: as, bs => by
    cases bs <;>
      simp [sameClauses, erasedClauses, IfClause.same_iff_erased a, sameClauses_iff_erased as]
termination_by structural a => a

theorem IfClause.same_iff_erased : (a b : IfClause) → (a.same b = true ↔ a.erased = b.erased)
  | ⟨cond, body⟩, ⟨cond', body'⟩ => by
    simp [IfClause.same, IfClause.erased, Expr.same_iff_erased cond.node,
      Block.same_iff_erased body]
termination_by structural a => a

theorem sameBlock?_iff_erased : (a b : Option Block) →
    (sameBlock? a b = true ↔ erasedElse a = erasedElse b)
  | none, b => by cases b <;> simp [sameBlock?, erasedElse]
  | some body, b => by cases b <;> simp [sameBlock?, erasedElse, Block.same_iff_erased body]
termination_by structural a => a

theorem sameTargets_iff_erased : (as bs : List (Located PrefixExp)) →
    (sameTargets as bs = true ↔ erasedTargets as = erasedTargets bs)
  | [], bs => by cases bs <;> simp [sameTargets, erasedTargets]
  | a :: as, bs => by
    cases bs <;>
      simp [sameTargets, erasedTargets, PrefixExp.same_iff_erased a.node,
        sameTargets_iff_erased as]
termination_by structural a => a

theorem FuncBody.same_iff_erased : (a b : FuncBody) → (a.same b = true ↔ a.erased = b.erased)
  | ⟨params, vararg, body⟩, ⟨params', vararg', body'⟩ => by
    have hvararg : vararg.isSome = vararg'.isSome ↔
        vararg.map (fun _ => (default : Span)) = vararg'.map fun _ => default := by
      cases vararg <;> cases vararg' <;> simp
    simp [FuncBody.same, FuncBody.erased, sameNodes_iff_unplaced, hvararg,
      Block.same_iff_erased body, and_assoc]
termination_by structural a => a

theorem Expr.same_iff_erased : (a b : Expr) → (a.same b = true ↔ a.erased = b.erased)
  | .nil, b => by cases b <;> simp [Expr.same, Expr.erased]
  | .boolean v, b => by cases b <;> simp [Expr.same, Expr.erased]
  | .number raw, b => by cases b <;> simp [Expr.same, Expr.erased]
  | .str raw, b => by cases b <;> simp [Expr.same, Expr.erased]
  | .vararg, b => by cases b <;> simp [Expr.same, Expr.erased]
  | .function f, b => by cases b <;> simp [Expr.same, Expr.erased, FuncBody.same_iff_erased f]
  | .binary op lhs rhs, b => by
    cases b <;>
      simp [Expr.same, Expr.erased, sameNode_iff_unplaced, Expr.same_iff_erased lhs.node,
        Expr.same_iff_erased rhs.node, and_assoc]
  | .unary op e, b => by
    cases b <;>
      simp [Expr.same, Expr.erased, sameNode_iff_unplaced, Expr.same_iff_erased e.node]
  | .table fs, b => by cases b <;> simp [Expr.same, Expr.erased, sameFields_iff_erased fs]
  | .access p, b => by cases b <;> simp [Expr.same, Expr.erased, PrefixExp.same_iff_erased p]
termination_by structural a => a

theorem PrefixExp.same_iff_erased : (a b : PrefixExp) → (a.same b = true ↔ a.erased = b.erased)
  | ⟨head, ss⟩, ⟨head', ss'⟩ => by
    simp [PrefixExp.same, PrefixExp.erased, Head.same_iff_erased head.node,
      sameSuffixes_iff_erased ss]
termination_by structural a => a

theorem Head.same_iff_erased : (a b : Head) → (a.same b = true ↔ a.erased = b.erased)
  | .name n, b => by cases b <;> simp [Head.same, Head.erased]
  | .paren e, b => by cases b <;> simp [Head.same, Head.erased, Expr.same_iff_erased e.node]
termination_by structural a => a

theorem sameSuffixes_iff_erased : (as bs : List (Located Suffix)) →
    (sameSuffixes as bs = true ↔ erasedSuffixes as = erasedSuffixes bs)
  | [], bs => by cases bs <;> simp [sameSuffixes, erasedSuffixes]
  | a :: as, bs => by
    cases bs <;>
      simp [sameSuffixes, erasedSuffixes, Suffix.same_iff_erased a.node,
        sameSuffixes_iff_erased as]
termination_by structural a => a

theorem Suffix.same_iff_erased : (a b : Suffix) → (a.same b = true ↔ a.erased = b.erased)
  | .call args, b => by cases b <;> simp [Suffix.same, Suffix.erased, Args.same_iff_erased args]
  | .method n args, b => by
    cases b <;>
      simp [Suffix.same, Suffix.erased, sameNode_iff_unplaced, Args.same_iff_erased args]
  | .index e, b => by cases b <;> simp [Suffix.same, Suffix.erased, Expr.same_iff_erased e.node]
  | .field n, b => by cases b <;> simp [Suffix.same, Suffix.erased, sameNode_iff_unplaced]
termination_by structural a => a

theorem Args.same_iff_erased : (a b : Args) → (a.same b = true ↔ a.erased = b.erased)
  | .list es, b => by cases b <;> simp [Args.same, Args.erased, sameExprs_iff_erased es]
  | .table fs, b => by cases b <;> simp [Args.same, Args.erased, sameFields_iff_erased fs]
  | .str raw, b => by cases b <;> simp [Args.same, Args.erased]
termination_by structural a => a

theorem sameFields_iff_erased : (as bs : List (Located Field)) →
    (sameFields as bs = true ↔ erasedFields as = erasedFields bs)
  | [], bs => by cases bs <;> simp [sameFields, erasedFields]
  | a :: as, bs => by
    cases bs <;>
      simp [sameFields, erasedFields, Field.same_iff_erased a.node, sameFields_iff_erased as]
termination_by structural a => a

theorem Field.same_iff_erased : (a b : Field) → (a.same b = true ↔ a.erased = b.erased)
  | .keyed key value, b => by
    cases b <;>
      simp [Field.same, Field.erased, Expr.same_iff_erased key.node,
        Expr.same_iff_erased value.node]
  | .named n value, b => by
    cases b <;>
      simp [Field.same, Field.erased, sameNode_iff_unplaced, Expr.same_iff_erased value.node]
  | .positional value, b => by
    cases b <;> simp [Field.same, Field.erased, Expr.same_iff_erased value.node]
termination_by structural a => a

end

theorem Chunk.same_iff_erased {a b : Chunk} : a.same b = true ↔ a.erased = b.erased := by
  obtain ⟨comments, block⟩ := a
  obtain ⟨comments', block'⟩ := b
  rw [same, Bool.and_eq_true, sameNodes_iff_unplaced, Block.same_iff_erased block, erased, erased,
    Chunk.mk.injEq]

/-! ### Sameness as an equivalence -/

/-- A comparison that holds exactly of values that are equal once each span in them is the default
one. This makes it an equivalence, and what it relates is printed alike. -/
structure IsUpToSpans {α : Type} (same : α → α → Bool) (erased : α → α)
    (spans : α → List Span) (text : α → String) : Prop where
  iff_erased : ∀ a b, same a b = true ↔ erased a = erased b
  spans_erased : ∀ a, spans (erased a) = (spans a).map fun _ => default
  refl : ∀ a, same a a = true
  symm : ∀ a b, same a b = true → same b a = true
  trans : ∀ a b c, same a b = true → same b c = true → same a c = true
  text_eq : ∀ a b, same a b = true → text a = text b

theorem IsUpToSpans.of_layout {α : Type} {same : α → α → Bool} {erased : α → α}
    {spans : α → List Span} {layout : α → Layout}
    (iff_erased : ∀ a b, same a b = true ↔ erased a = erased b)
    (spans_erased : ∀ a, spans (erased a) = (spans a).map fun _ => default)
    (layout_eq : ∀ a b, same a b = true → layout a = layout b) :
    IsUpToSpans same erased spans fun a => (layout a).text where
  iff_erased := iff_erased
  spans_erased := spans_erased
  refl a := (iff_erased a a).2 rfl
  symm a b h := (iff_erased b a).2 ((iff_erased a b).1 h).symm
  trans a b c hab hbc :=
    (iff_erased a c).2 (((iff_erased a b).1 hab).trans ((iff_erased b c).1 hbc))
  text_eq a b h := congrArg Layout.text (layout_eq a b h)

theorem Chunk.layout_of_same {a b : Chunk} (h : a.same b = true) :
    a.block.layout = b.block.layout := by
  rw [same, Bool.and_eq_true] at h
  exact (Block.alike_of_same _ _ h.2).layout

/-- Sameness is equality up to spans, for trees of each kind. -/
theorem same_isUpToSpans :
    IsUpToSpans Chunk.same Chunk.erased Chunk.spans Chunk.text ∧
    IsUpToSpans Block.same Block.erased Block.spans Block.text ∧
    IsUpToSpans Return.same Return.erased (spansOfExprs ·.exprs) (·.layout.text) ∧
    IsUpToSpans Stmt.same Stmt.erased Stmt.spans Stmt.text ∧
    IsUpToSpans IfClause.same IfClause.erased IfClause.spans (·.layout.text) ∧
    IsUpToSpans FuncName.same FuncName.erased FuncName.spans (·.layout.text) ∧
    IsUpToSpans FuncBody.same FuncBody.erased FuncBody.spans (·.layout.text) ∧
    IsUpToSpans Expr.same Expr.erased Expr.spans Expr.text ∧
    IsUpToSpans PrefixExp.same PrefixExp.erased PrefixExp.spans PrefixExp.text ∧
    IsUpToSpans Head.same Head.erased Head.spans (·.layout.text) ∧
    IsUpToSpans Suffix.same Suffix.erased Suffix.spans (·.layout.text) ∧
    IsUpToSpans Args.same Args.erased Args.spans (·.layout.text) ∧
    IsUpToSpans Field.same Field.erased Field.spans (·.layout.text) := by
  refine ⟨?chunk, ?block, ?ret, ?stmt, ?clause, ?funcName, ?funcBody, ?expr, ?path, ?head,
    ?suffix, ?args, ?field⟩
  case chunk =>
    exact .of_layout (fun _ _ => Chunk.same_iff_erased) Chunk.spans_erased
      fun _ _ => Chunk.layout_of_same
  case block =>
    exact .of_layout Block.same_iff_erased Block.spans_erased
      fun a b h => (Block.alike_of_same a b h).layout
  case ret =>
    exact .of_layout Return.same_iff_erased Return.spans_erased
      fun a b h => (Return.alike_of_same a b h).layout
  case stmt =>
    exact .of_layout Stmt.same_iff_erased Stmt.spans_erased
      fun a b h => (Stmt.alike_of_same a b h).1.layout
  case clause =>
    exact .of_layout IfClause.same_iff_erased IfClause.spans_erased
      fun a b h => (IfClause.alike_of_same a b h).layout
  case funcName =>
    exact .of_layout (fun _ _ => FuncName.same_iff_erased) FuncName.spans_erased
      fun _ _ => FuncName.layout_of_same
  case funcBody =>
    exact .of_layout FuncBody.same_iff_erased FuncBody.spans_erased
      fun a b h => (FuncBody.alike_of_same a b h).layout
  case expr =>
    exact .of_layout Expr.same_iff_erased Expr.spans_erased
      fun a b h => (Expr.alike_of_same a b h).layout
  case path =>
    exact .of_layout PrefixExp.same_iff_erased PrefixExp.spans_erased
      fun a b h => (PrefixExp.alike_of_same a b h).layout
  case head =>
    exact .of_layout Head.same_iff_erased Head.spans_erased
      fun a b h => (Head.alike_of_same a b h).layout
  case suffix =>
    exact .of_layout Suffix.same_iff_erased Suffix.spans_erased
      fun a b h => (Suffix.alike_of_same a b h).layout
  case args =>
    exact .of_layout Args.same_iff_erased Args.spans_erased
      fun a b h => (Args.alike_of_same a b h).layout
  case field =>
    exact .of_layout Field.same_iff_erased Field.spans_erased
      fun a b h => (Field.alike_of_same a b h).layout

end LuaSyntax
