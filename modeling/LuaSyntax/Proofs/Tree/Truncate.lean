import LuaSyntax.Diagnostic.Basic
import LuaSyntax.Tree.Build
/-!
# Trees cut off at a nesting level

What is left of a tree where only so many levels fit: an expression that nests deeper is replaced by
`nil`, and a block by the empty one. A level that fits is counted where a parser enters it, at each
block and at each expression that stands inside another construct.

Each replaced item has its tokens in the source. Those of an expression are the ones in its span. A
block has no span. Its tokens are all those after the word that opens it, up to the end of its last
statement, and the semicolons that follow.
-/

namespace LuaSyntax

/-- What is kept if a level fits, with the room that is left inside it, or else what replaces it. -/
def fitted {α : Type} (room : Nat) (replacement : α) (kept : Nat → α) : α :=
  match room with
  | 0 => replacement
  | room + 1 => kept room

@[simp] theorem fitted_zero {α : Type} (replacement : α) (kept : Nat → α) :
    fitted 0 replacement kept = replacement := rfl

@[simp] theorem fitted_succ {α : Type} (room : Nat) (replacement : α) (kept : Nat → α) :
    fitted (room + 1) replacement kept = kept room := rfl

/-! ### Truncated trees -/

/-- An expression at `span` on a level of its own. -/
def fittedExpr (room : Nat) (span : Span) (kept : Nat → Expr) : Located Expr :=
  ⟨fitted room .nil kept, span⟩

mutual

def Block.truncate : Nat → Block → Block
  | 0, _ => .empty
  | room + 1, ⟨ss, r⟩ => ⟨truncateStmts room ss, truncateReturn? room r⟩

def truncateStmts : Nat → List (Located Stmt) → List (Located Stmt)
  | _, [] => []
  | room, s :: ss => ⟨s.node.truncate room, s.span⟩ :: truncateStmts room ss

def truncateReturn? : Nat → Option (Located Return) → Option (Located Return)
  | _, none => none
  | room, some r => some ⟨r.node.truncate room, r.span⟩

def Return.truncate : Nat → Return → Return
  | room, ⟨es⟩ => ⟨truncateExprs room es⟩

/-- Expressions, each on a level of its own. -/
def truncateExprs : Nat → List (Located Expr) → List (Located Expr)
  | _, [] => []
  | room, e :: es => fittedExpr room e.span (e.node.truncate ·) :: truncateExprs room es

/-- A statement inside a block with so much room. -/
def Stmt.truncate : Nat → Stmt → Stmt
  | _, .label name => .label name
  | _, .breakLoop => .breakLoop
  | _, .continueLoop => .continueLoop
  | _, .goto name => .goto name
  | room, .block body => .block (body.truncate room)
  | room, .whileLoop cond body =>
    .whileLoop (fittedExpr room cond.span (cond.node.truncate ·)) (body.truncate room)
  | room, .repeatLoop body cond =>
    .repeatLoop (body.truncate room) (fittedExpr room cond.span (cond.node.truncate ·))
  | room, .numericFor var start stop step body =>
    .numericFor var (fittedExpr room start.span (start.node.truncate ·))
      (fittedExpr room stop.span (stop.node.truncate ·))
      (fittedExpr room step.span (step.node.truncate ·)) (body.truncate room)
  | room, .genericFor vars exprs body =>
    .genericFor vars (truncateExprs room exprs) (body.truncate room)
  | room, .conditional clauses otherwise =>
    .conditional (truncateClauses room clauses) (truncateElse room otherwise)
  | room, .function name body => .function name (body.truncate room)
  | room, .localFunction name body => .localFunction name (body.truncate room)
  | room, .localDecl names exprs => .localDecl names (truncateExprs room exprs)
  | room, .call p => .call (p.truncate room)
  | room, .assign targets exprs =>
    .assign (truncateTargets room targets) (truncateExprs room exprs)

def truncateClauses : Nat → List IfClause → List IfClause
  | _, [] => []
  | room, clause :: clauses => clause.truncate room :: truncateClauses room clauses

def IfClause.truncate : Nat → IfClause → IfClause
  | room, ⟨cond, body⟩ => ⟨fittedExpr room cond.span (cond.node.truncate ·), body.truncate room⟩

def truncateElse : Nat → Option Block → Option Block
  | _, none => none
  | room, some body => some (body.truncate room)

def truncateTargets : Nat → List (Located PrefixExp) → List (Located PrefixExp)
  | _, [] => []
  | room, t :: ts => ⟨t.node.truncate room, t.span⟩ :: truncateTargets room ts

def FuncBody.truncate : Nat → FuncBody → FuncBody
  | room, ⟨params, vararg, body⟩ => ⟨params, vararg, body.truncate room⟩

/-- An expression on a level that fits, with so much room inside it. -/
def Expr.truncate : Nat → Expr → Expr
  | _, .nil => .nil
  | _, .boolean value => .boolean value
  | _, .number raw => .number raw
  | _, .str raw => .str raw
  | _, .vararg => .vararg
  | room, .function body => .function (body.truncate room)
  | room, .binary op lhs rhs =>
    .binary op ⟨lhs.node.truncate room, lhs.span⟩ ⟨rhs.node.truncate room, rhs.span⟩
  | room, .unary op operand => .unary op ⟨operand.node.truncate room, operand.span⟩
  | room, .table fields => .table (truncateFields room fields)
  | room, .access p => .access (p.truncate room)

def PrefixExp.truncate : Nat → PrefixExp → PrefixExp
  | room, ⟨head, suffixes⟩ => ⟨⟨head.node.truncate room, head.span⟩, truncateSuffixes room suffixes⟩

def Head.truncate : Nat → Head → Head
  | _, .name name => .name name
  | room, .paren e => .paren (fittedExpr room e.span (e.node.truncate ·))

def truncateSuffixes : Nat → List (Located Suffix) → List (Located Suffix)
  | _, [] => []
  | room, s :: ss => ⟨s.node.truncate room, s.span⟩ :: truncateSuffixes room ss

def Suffix.truncate : Nat → Suffix → Suffix
  | room, .call args => .call (args.truncate room)
  | room, .method name args => .method name (args.truncate room)
  | room, .index e => .index (fittedExpr room e.span (e.node.truncate ·))
  | _, .field name => .field name

def Args.truncate : Nat → Args → Args
  | room, .list exprs => .list (truncateExprs room exprs)
  | room, .table fields => .table (truncateFields room fields)
  | _, .str raw => .str raw

def truncateFields : Nat → List (Located Field) → List (Located Field)
  | _, [] => []
  | room, f :: fs => ⟨f.node.truncate room, f.span⟩ :: truncateFields room fs

def Field.truncate : Nat → Field → Field
  | room, .keyed key value =>
    .keyed (fittedExpr room key.span (key.node.truncate ·))
      (fittedExpr room value.span (value.node.truncate ·))
  | room, .named name value => .named name (fittedExpr room value.span (value.node.truncate ·))
  | room, .positional value => .positional (fittedExpr room value.span (value.node.truncate ·))

end

attribute [simp] Block.truncate truncateStmts truncateReturn? Return.truncate truncateExprs
  Stmt.truncate truncateClauses IfClause.truncate truncateElse truncateTargets FuncBody.truncate
  Expr.truncate PrefixExp.truncate Head.truncate truncateSuffixes Suffix.truncate Args.truncate
  truncateFields Field.truncate

/-! ### Replaced items -/

/-- Where the tokens of a block begin. -/
inductive BlockStart where
  /-- With the source. -/
  | source
  /-- After a word of the statement at `owner`: the one after the expressions at `header`, or the
  first one. -/
  | word (owner : Span) (header : List Span)
  /-- After the parameters of the function at `owner`. -/
  | params (owner : Span)
  /-- After the block `body`, which begins at `before`, and a word. -/
  | next (before : BlockStart) (body : Block)

/-- An item that a truncated tree does not have. An expression is bracketed if it is the content of
parentheses, an index key, a call argument, or a table key or value. -/
inductive Replaced where
  | expr (span : Span) (bracketed : Bool)
  | block (opening : BlockStart) (body : Block)

/-- An expression at `span` on a level of its own: it is replaced, or else what is inside it. -/
def replacedExpr (room : Nat) (bracketed : Bool) (span : Span)
    (inside : Nat → List Replaced) : List Replaced :=
  fitted room [.expr span bracketed] inside

/-- Where the block after the last of the clauses begins. -/
def BlockStart.afterClauses (owner : Span) (clauses : List IfClause) : BlockStart :=
  match clauses.getLast? with
  | some clause => .next (.word owner [clause.cond.span]) clause.body
  | none => .word owner []

/-- Whether a declaration has values. The `nil`s of one that has none are at its last name. -/
def hasValues (names : List (Located Name)) (exprs : List (Located Expr)) : Bool :=
  exprs.any fun e => names.getLast?.map (·.span) != some e.span

mutual

/-- What is replaced in a block, in the order of the source. -/
def Block.replaced : Nat → BlockStart → Block → List Replaced
  | 0, opening, b => [.block opening b]
  | room + 1, _, ⟨ss, r⟩ => replacedInStmts room ss ++ replacedInReturn? room r

def replacedInStmts : Nat → List (Located Stmt) → List Replaced
  | _, [] => []
  | room, s :: ss => s.node.replaced room s.span ++ replacedInStmts room ss

def replacedInReturn? : Nat → Option (Located Return) → List Replaced
  | _, none => []
  | room, some r => r.node.replaced room

def Return.replaced : Nat → Return → List Replaced
  | room, ⟨es⟩ => replacedInExprs room false es

def replacedInExprs : Nat → Bool → List (Located Expr) → List Replaced
  | _, _, [] => []
  | room, bracketed, e :: es =>
    replacedExpr room bracketed e.span (e.node.replaced · e.span) ++
      replacedInExprs room bracketed es

def Stmt.replaced : Nat → Span → Stmt → List Replaced
  | _, _, .label _ | _, _, .breakLoop | _, _, .continueLoop | _, _, .goto _ => []
  | room, owner, .block body => body.replaced room (.word owner [])
  | room, owner, .whileLoop cond body =>
    replacedExpr room false cond.span (cond.node.replaced · cond.span) ++
      body.replaced room (.word owner [cond.span])
  | room, owner, .repeatLoop body cond =>
    body.replaced room (.word owner []) ++
      replacedExpr room false cond.span (cond.node.replaced · cond.span)
  | room, owner, .numericFor _ start stop step body =>
    replacedExpr room false start.span (start.node.replaced · start.span) ++
      replacedExpr room false stop.span (stop.node.replaced · stop.span) ++
      replacedExpr room false step.span (step.node.replaced · step.span) ++
      body.replaced room (.word owner [start.span, stop.span, step.span])
  | room, owner, .genericFor _ exprs body =>
    replacedInExprs room false exprs ++ body.replaced room (.word owner (exprs.map (·.span)))
  | room, owner, .conditional clauses otherwise =>
    replacedInClauses room owner clauses ++
      replacedInElse room (.afterClauses owner clauses) otherwise
  | room, owner, .function _ body => body.replaced room owner
  | room, owner, .localFunction _ body => body.replaced room owner
  | room, _, .localDecl names exprs =>
    if hasValues names exprs then replacedInExprs room false exprs else []
  | room, _, .call p => p.replaced room
  | room, _, .assign targets exprs =>
    replacedInTargets room targets ++ replacedInExprs room false exprs

def replacedInClauses : Nat → Span → List IfClause → List Replaced
  | _, _, [] => []
  | room, owner, clause :: clauses =>
    clause.replaced room owner ++ replacedInClauses room owner clauses

def IfClause.replaced : Nat → Span → IfClause → List Replaced
  | room, owner, ⟨cond, body⟩ =>
    replacedExpr room false cond.span (cond.node.replaced · cond.span) ++
      body.replaced room (.word owner [cond.span])

def replacedInElse : Nat → BlockStart → Option Block → List Replaced
  | _, _, none => []
  | room, opening, some body => body.replaced room opening

def replacedInTargets : Nat → List (Located PrefixExp) → List Replaced
  | _, [] => []
  | room, t :: ts => t.node.replaced room ++ replacedInTargets room ts

def FuncBody.replaced : Nat → Span → FuncBody → List Replaced
  | room, owner, ⟨_, _, body⟩ => body.replaced room (.params owner)

/-- What is replaced inside an expression at `owner`. -/
def Expr.replaced : Nat → Span → Expr → List Replaced
  | _, _, .nil | _, _, .boolean _ | _, _, .number _ | _, _, .str _ | _, _, .vararg => []
  | room, owner, .function body => body.replaced room owner
  | room, _, .binary _ lhs rhs => lhs.node.replaced room lhs.span ++ rhs.node.replaced room rhs.span
  | room, _, .unary _ operand => operand.node.replaced room operand.span
  | room, _, .table fields => replacedInFields room fields
  | room, _, .access p => p.replaced room

def PrefixExp.replaced : Nat → PrefixExp → List Replaced
  | room, ⟨head, suffixes⟩ => head.node.replaced room ++ replacedInSuffixes room suffixes

def Head.replaced : Nat → Head → List Replaced
  | _, .name _ => []
  | room, .paren e => replacedExpr room true e.span (e.node.replaced · e.span)

def replacedInSuffixes : Nat → List (Located Suffix) → List Replaced
  | _, [] => []
  | room, s :: ss => s.node.replaced room ++ replacedInSuffixes room ss

def Suffix.replaced : Nat → Suffix → List Replaced
  | room, .call args => args.replaced room
  | room, .method _ args => args.replaced room
  | room, .index e => replacedExpr room true e.span (e.node.replaced · e.span)
  | _, .field _ => []

def Args.replaced : Nat → Args → List Replaced
  | room, .list exprs => replacedInExprs room true exprs
  | room, .table fields => replacedInFields room fields
  | _, .str _ => []

def replacedInFields : Nat → List (Located Field) → List Replaced
  | _, [] => []
  | room, f :: fs => f.node.replaced room ++ replacedInFields room fs

def Field.replaced : Nat → Field → List Replaced
  | room, .keyed key value =>
    replacedExpr room true key.span (key.node.replaced · key.span) ++
      replacedExpr room true value.span (value.node.replaced · value.span)
  | room, .named _ value => replacedExpr room true value.span (value.node.replaced · value.span)
  | room, .positional value =>
    replacedExpr room true value.span (value.node.replaced · value.span)

end

attribute [simp] Block.replaced replacedInStmts replacedInReturn? Return.replaced replacedInExprs
  Stmt.replaced replacedInClauses IfClause.replaced replacedInElse replacedInTargets
  FuncBody.replaced Expr.replaced PrefixExp.replaced Head.replaced replacedInSuffixes
  Suffix.replaced Args.replaced replacedInFields Field.replaced

/-! ### The tokens of replaced items -/

/-- The tokens in a span. -/
def Span.tokens (span : Span) (all : List (Located Token)) : List (Located Token) :=
  all.filter fun t => span.start ≤ t.span.start ∧ t.span.stop ≤ span.stop

/-- The tokens of a block among those after the word that opens it. -/
def Block.extent (b : Block) (rest : List (Located Token)) : List (Located Token) :=
  rest.takeWhile fun t => t.node == .symbol .semicolon ||
    b.stmts.any (t.span.stop ≤ ·.span.stop) || b.ret.any (t.span.stop ≤ ·.span.stop)

/-- The tokens from where a block begins on. -/
def BlockStart.rest (all : List (Located Token)) : BlockStart → List (Located Token)
  | source => all
  | word owner header =>
    ((owner.tokens all).filter fun t => header.all (·.stop ≤ t.span.start)).tail
  | params owner => ((owner.tokens all).dropWhile (·.node != .symbol .closeParen)).tail
  | next before body =>
    ((before.rest all).drop (body.extent (before.rest all)).length).tail

namespace Replaced

def tokens (all : List (Located Token)) : Replaced → List (Located Token)
  | expr span _ => span.tokens all
  | block opening body => body.extent (opening.rest all)

def isBracketed : Replaced → Bool
  | expr _ bracketed => bracketed
  | block _ _ => true

/-- The report that tokens were passed over, unless there are none. -/
def reportOf (limit : Nat) (ts : List (Located Token)) : Option Diagnostic :=
  match ts.head?, ts.getLast? with
  | some first, some last =>
    some ⟨first.span.join last.span, .tooDeep limit, .skipped ts.length⟩
  | _, _ => none

/-- The reports of the items that have tokens. -/
def reports (limit : Nat) (all : List (Located Token)) (items : List Replaced) : List Diagnostic :=
  items.filterMap fun item => reportOf limit (item.tokens all)

end Replaced

end LuaSyntax
