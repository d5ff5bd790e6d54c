import LuaSyntax.Tree.Build
/-!
# The nodes of a tree

A node is a part of a tree that has a span, and its children are the nodes directly under it, in the
order of the source. Blocks, clauses, function bodies and arguments have no span of their own, so
their parts are children of the node that they belong to.

Some expressions of a statement are not written: the `nil`s that fill up the values of a declaration
or an assignment, and a step that is left out. These fillers are not among the nodes.
-/

namespace LuaSyntax

/-- A part of a tree with its span. The vararg marker of a function is nothing but a span. -/
inductive Node where
  | stmt (stmt : Located Stmt)
  | ret (ret : Located Return)
  | expr (expr : Located Expr)
  | binOp (op : Located BinOp)
  | unOp (op : Located UnOp)
  | target (target : Located PrefixExp)
  | head (head : Located Head)
  | suffix (suffix : Located Suffix)
  | field (field : Located Field)
  | name (name : Located Name)
  | vararg (span : Span)

def Node.span : Node → Span
  | stmt s => s.span
  | ret r => r.span
  | expr e => e.span
  | binOp op => op.span
  | unOp op => op.span
  | target p => p.span
  | head a => a.span
  | suffix s => s.span
  | field f => f.span
  | name n => n.span
  | vararg span => span

/-! ### Fillers -/

/-- Whether a value of a declaration or an assignment is written. The `nil`s that fill up the values
are at the `=`, before the first value, or at the last name of a declaration without values. -/
def isWritten (lastName : Option (Located Name)) (values : List (Located Expr))
    (value : Located Expr) : Bool :=
  lastName.map (·.span) != some value.span &&
    values.head?.all (·.span.start ≤ value.span.start)

/-- Whether a step is written: a step that is left out is at the `for`, before the variable. -/
def isStepOf (var : Located Name) (step : Located Expr) : Bool :=
  var.span.start ≤ step.span.start

namespace Stmt

/-- The written values of a declaration or an assignment. -/
def values : Stmt → List (Located Expr)
  | localDecl names exprs => exprs.filter (isWritten names.getLast? exprs)
  | assign _ exprs => exprs.filter (isWritten none exprs)
  | _ => []

/-- The expressions of a statement that are not written. -/
def fillers : Stmt → List (Located Expr)
  | localDecl names exprs => exprs.filter (!isWritten names.getLast? exprs ·)
  | assign _ exprs => exprs.filter (!isWritten none exprs ·)
  | numericFor var _ _ step _ => [step].filter (!isStepOf var ·)
  | _ => []

/-- The token at which a statement has a filler: the `=` of a declaration or an assignment, the last
name of a declaration without values, or the `for` before the variable. -/
inductive FillsAt : Stmt → Located Token → Expr → Prop
  | declared {names : List (Located Name)} {exprs : List (Located Expr)} {span : Span}
      (hnames : ∀ n ∈ names, n.span.stop ≤ span.start)
      (hvalues : ∀ e ∈ (localDecl names exprs).values, span.stop ≤ e.span.start) :
      FillsAt (localDecl names exprs) ⟨.symbol .equal, span⟩ .nil
  | undeclared {names : List (Located Name)} {exprs : List (Located Expr)} {last : Located Name}
      (hlast : names.getLast? = some last) (hvalues : (localDecl names exprs).values = []) :
      FillsAt (localDecl names exprs) ⟨.ident last.node, last.span⟩ .nil
  | assigned {targets : List (Located PrefixExp)} {exprs : List (Located Expr)} {span : Span}
      (htargets : ∀ t ∈ targets, t.span.stop ≤ span.start)
      (hvalues : ∀ e ∈ (assign targets exprs).values, span.stop ≤ e.span.start) :
      FillsAt (assign targets exprs) ⟨.symbol .equal, span⟩ .nil
  | step {var : Located Name} {start stop step : Located Expr} {body : Block} {span : Span}
      (hvar : span.stop ≤ var.span.start) :
      FillsAt (numericFor var start stop step body) ⟨.keyword .for_, span⟩ (.number "1")

end Stmt

/-! ### Children -/

def FuncName.nodes (n : FuncName) : List Node :=
  n.path.map .name ++ n.method.toList.map .name

def Block.nodes (b : Block) : List Node :=
  b.stmts.map .stmt ++ b.ret.toList.map .ret

def FuncBody.nodes (f : FuncBody) : List Node :=
  f.params.map .name ++ f.vararg.toList.map .vararg ++ f.body.nodes

def IfClause.nodes (c : IfClause) : List Node := .expr c.cond :: c.body.nodes

def PrefixExp.nodes (p : PrefixExp) : List Node := .head p.head :: p.suffixes.map .suffix

def Args.nodes : Args → List Node
  | list exprs => exprs.map .expr
  | table fields => fields.map .field
  | str _ => []

def Head.nodes : Head → List Node
  | name _ => []
  | paren e => [.expr e]

def Suffix.nodes : Suffix → List Node
  | call args => args.nodes
  | method name args => .name name :: args.nodes
  | index e => [.expr e]
  | field name => [.name name]

def Field.nodes : Field → List Node
  | keyed key value => [.expr key, .expr value]
  | named name value => [.name name, .expr value]
  | positional value => [.expr value]

def Expr.nodes : Expr → List Node
  | nil | boolean _ | number _ | str _ | vararg => []
  | function body => body.nodes
  | binary op lhs rhs => [.expr lhs, .binOp op, .expr rhs]
  | unary op operand => [.unOp op, .expr operand]
  | table fields => fields.map .field
  | access path => path.nodes

def Stmt.nodes : Stmt → List Node
  | label _ | breakLoop | continueLoop => []
  | goto name => [.name name]
  | block body => body.nodes
  | whileLoop cond body => .expr cond :: body.nodes
  | repeatLoop body cond => body.nodes ++ [.expr cond]
  | numericFor var start stop step body =>
    [.name var, .expr start, .expr stop] ++ ([step].filter (isStepOf var)).map .expr ++ body.nodes
  | genericFor vars exprs body => vars.map .name ++ exprs.map .expr ++ body.nodes
  | conditional clauses otherwise =>
    clauses.flatMap (·.nodes) ++ otherwise.toList.flatMap (·.nodes)
  | function name body => name.nodes ++ body.nodes
  | localFunction name body => .name name :: body.nodes
  | localDecl names exprs => names.map .name ++ (localDecl names exprs).values.map .expr
  | call path => path.nodes
  | assign targets exprs => targets.map .target ++ (assign targets exprs).values.map .expr

namespace Node

/-- The nodes directly under a node, in the order of the source. -/
def children : Node → List Node
  | stmt s => s.node.nodes
  | ret r => r.node.exprs.map .expr
  | expr e => e.node.nodes
  | target p => p.node.nodes
  | head a => a.node.nodes
  | suffix s => s.node.nodes
  | field f => f.node.nodes
  | binOp _ | unOp _ | name _ | vararg _ => []

/-- The node is one of the nodes, or somewhere under one of them. -/
inductive Under (roots : List Node) : Node → Prop
  | root {n : Node} (h : n ∈ roots) : Under roots n
  | child {n parent : Node} (hparent : Under roots parent) (h : n ∈ parent.children) :
    Under roots n

end Node

end LuaSyntax
