import LuaSyntax.Tree.Basic
/-!
# Building and inspecting trees

A node made from others spans exactly what they span.
-/

namespace LuaSyntax

namespace Suffix

def isCall : Suffix → Bool
  | call _ | method _ _ => true
  | _ => false

def isIndex : Suffix → Bool
  | index _ | field _ => true
  | _ => false

end Suffix

namespace Head

def isParen : Head → Bool
  | paren _ => true
  | name _ => false

end Head

namespace PrefixExp

def endsInCall (p : PrefixExp) : Bool :=
  p.suffixes.getLast?.any (·.node.isCall)

def endsInIndex (p : PrefixExp) : Bool :=
  p.suffixes.getLast?.any (·.node.isIndex)

/-- Whether this is a parenthesized expression with nothing after it. -/
def isBareParen (p : PrefixExp) : Bool :=
  p.suffixes.isEmpty && p.head.node.isParen

def span (p : PrefixExp) : Span :=
  match p.suffixes.getLast? with
  | some last => p.head.span.join last.span
  | none => p.head.span

end PrefixExp

namespace Expr

def isNil : Expr → Bool
  | nil => true
  | _ => false

def nilAt (span : Span) : Located Expr := ⟨nil, span⟩

def ofBinary (op : Located BinOp) (lhs rhs : Located Expr) : Located Expr :=
  ⟨binary op lhs rhs, lhs.span.join rhs.span⟩

def ofUnary (op : Located UnOp) (operand : Located Expr) : Located Expr :=
  ⟨unary op operand, op.span.join operand.span⟩

def ofAccess (path : PrefixExp) : Located Expr :=
  ⟨access path, path.span⟩

/-- The expressions, followed by as many `nil`s at `span` as are missing to reach `count`. -/
def padWithNil (count : Nat) (span : Span) (exprs : List (Located Expr)) : List (Located Expr) :=
  exprs ++ List.replicate (count - exprs.length) (nilAt span)

@[simp] theorem node_nilAt (span : Span) : (nilAt span).node = nil := rfl

@[simp] theorem node_ofBinary (op : Located BinOp) (lhs rhs : Located Expr) :
    (ofBinary op lhs rhs).node = binary op lhs rhs := rfl

@[simp] theorem node_ofUnary (op : Located UnOp) (operand : Located Expr) :
    (ofUnary op operand).node = unary op operand := rfl

@[simp] theorem node_ofAccess (path : PrefixExp) : (ofAccess path).node = access path := rfl

end Expr

namespace Block

/-- The statements of both blocks, ended by the second one's `return` or else the first one's. -/
def append (a b : Block) : Block where
  stmts := a.stmts ++ b.stmts
  ret := b.ret.or a.ret

instance : Append Block := ⟨append⟩

@[simp] theorem append_stmts (a b : Block) : (a ++ b).stmts = a.stmts ++ b.stmts := rfl

@[simp] theorem append_ret (a b : Block) : (a ++ b).ret = b.ret.or a.ret := rfl

end Block

namespace Stmt

/-- Whether the statement is written with an opening parenthesis first. -/
def startsWithParen : Stmt → Bool
  | call p => p.head.node.isParen
  | assign targets _ => targets.head?.any (·.node.head.node.isParen)
  | _ => false

end Stmt

end LuaSyntax
