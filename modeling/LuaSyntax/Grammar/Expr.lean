import LuaSyntax.Grammar.Level
import LuaSyntax.Grammar.Operator
/-!
# Expression grammar

```text
expr     -> or
or       -> and ( ('or' | '||') and )*
and      -> cmp ( ('and' | '&&') cmp )*
cmp      -> concat ( ('<' | '>' | '<=' | '>=' | '~=' | '!=' | '==') concat )*
concat   -> additive ( '..' concat )?
additive -> mult ( ('+' | '-') mult )*
mult     -> unary ( ('*' | '/' | '%') unary )*
unary    -> ('-' | 'not' | '!' | '#') unary | pow
pow      -> atom ( '^' unary )?
atom     -> 'nil' | 'false' | 'true' | NUMBER | STRING | '...' | function
          | access | table

access   -> head suffix*
head     -> NAME | '(' expr ')'
suffix   -> args | ':' NAME args | '[' expr ']' | '.' NAME
args     -> '(' exprlist? ')' | table | STRING
table    -> '{' ( field ( ( ',' | ';' ) field )* ( ',' | ';' )? )? '}'
field    -> '[' expr ']' '=' expr | NAME '=' expr | expr
```
-/

namespace LuaSyntax.Grammar

open Rule Operator

/-- Which suffixes a prefix expression may end with. -/
inductive SuffixPolicy where
  /-- Any, or none. -/
  | unrestricted
  /-- A call; there is at least one suffix. -/
  | callTerminated
  /-- An index, or there is no suffix. -/
  | indexTerminated
deriving DecidableEq, Repr

namespace SuffixPolicy

/-- Whether a chain of suffixes may end with this one. -/
def allowsLast : SuffixPolicy → Suffix → Bool
  | unrestricted, _ => true
  | callTerminated, s => s.isCall
  | indexTerminated, s => s.isIndex

end SuffixPolicy

/-- The longest start of the list whose last element satisfies `p`. -/
def keepThroughLast {α : Type} (p : α → Bool) (as : List α) : List α :=
  (as.reverse.dropWhile (!p ·)).reverse

/-- A function parameter: a name, or `...`. -/
inductive Param where
  | name (name : Located Name)
  | vararg (span : Span)

namespace Param

def isName : Param → Bool
  | name _ => true
  | vararg _ => false

def name? : Param → Option (Located Name)
  | name n => some n
  | vararg _ => none

def vararg? : Param → Option Span
  | name _ => none
  | vararg span => some span

end Param

/-- An operand, and further ones for as long as there are operators between them. -/
def chain (operand : Rule (Located Expr)) (ops : List (Token × BinOp)) :
    Rule (Chain (Located Expr)) := do
  let first ← operand
  let others ← collect do
    match ← optional (oneOf ops) with
    | none => return none
    | some op => return some ((op, ← operand), true)
  return (first, others)

def leftGrouped (operand : Rule (Located Expr)) (ops : List (Token × BinOp)) :
    Rule (Located Expr) := do
  return groupLeft (← chain operand ops)

def literal (t : Token) (e : Expr) : Rule (Located Expr) := do
  return ⟨e, ← token t⟩

def param : Rule Param :=
  alt [Param.name <$> name, Param.vararg <$> symbol .ellipsis]

/-- Parameters up to a `...`, which is the last one. -/
def params : Rule (List Param) := do
  match ← optional param with
  | none => return []
  | some (.vararg span) => return [.vararg span]
  | some (.name first) =>
    let others ← collect do
      let next ← optional do
        let _ ← symbol .comma
        param
      return next.map fun p => (p, p.isName)
    return .name first :: others

section

variable (inner : Level)

def exprList : Rule (List (Located Expr)) :=
  sepBy1 inner.expr (symbol .comma)

/-- What follows the name of a function, from its opening parenthesis to its `end`. -/
def funcBody : Rule FuncBody := do
  let _ ← symbol .openParen
  let ps ← params
  let _ ← symbol .closeParen
  let body ← inner.block
  let _ ← keyword .end_
  return ⟨ps.filterMap (·.name?), ps.findSome? (·.vararg?), body⟩

def functionExpr : Rule (Located Expr) := located do
  let _ ← keyword .function_
  return .function (← funcBody inner)

/-! ### Tables -/

def keyedField : Rule Field := do
  let _ ← symbol .openBracket
  let key ← inner.expr
  let _ ← symbol .closeBracket
  let _ ← symbol .equal
  return .keyed key (← inner.expr)

/-- The name of a field and its `=`. Only both together tell it from a value. -/
def fieldName : Rule (Located Name) := attempt do
  let n ← name
  let _ ← symbol .equal
  return n

def namedField : Rule Field := do
  let n ← fieldName
  return .named n (← inner.expr)

def positionalField : Rule Field := do
  return .positional (← inner.expr)

def field : Rule (Located Field) :=
  located (alt [keyedField inner, namedField inner, positionalField inner])

def fieldSeparator : Rule (Located Unit) :=
  oneOf [(.symbol .comma, ()), (.symbol .semicolon, ())]

/-- Fields for as long as there are separators between them. -/
def fields : Rule (List (Located Field)) := collect do
  match ← optional (field inner) with
  | none => return none
  | some f => return some (f, (← optional fieldSeparator).isSome)

def table : Rule (Located (List (Located Field))) := located do
  let _ ← symbol .openBrace
  let fs ← fields inner
  let _ ← symbol .closeBrace
  return fs

/-! ### Names, calls and indexes -/

def nameHead : Rule (Located Head) := do
  return (← name).map .name

def parenHead : Rule (Located Head) := located do
  let _ ← symbol .openParen
  let e ← inner.expr
  let _ ← symbol .closeParen
  return .paren e

def head : Rule (Located Head) :=
  alt [nameHead, parenHead inner]

def listArgs : Rule Args := do
  let _ ← symbol .openParen
  let exprs ← optional (exprList inner)
  let _ ← symbol .closeParen
  return .list (exprs.getD [])

def tableArgs : Rule Args := do
  return .table (← table inner).node

def strArgs : Rule Args := do
  return .str (← str).node

def args : Rule (Located Args) :=
  located (alt [listArgs inner, tableArgs inner, strArgs])

def callSuffix : Rule Suffix := do
  return .call (← args inner).node

def methodSuffix : Rule Suffix := do
  let _ ← symbol .colon
  let n ← name
  return .method n (← args inner).node

def indexSuffix : Rule Suffix := do
  let _ ← symbol .openBracket
  let e ← inner.expr
  let _ ← symbol .closeBracket
  return .index e

def fieldSuffix : Rule Suffix := do
  let _ ← symbol .dot
  return .field (← name)

def suffix : Rule (Located Suffix) :=
  located (alt [callSuffix inner, methodSuffix inner, indexSuffix inner, fieldSuffix])

/-- Suffixes for as long as there are any, each with the state just after it. -/
def suffixChain : Rule (List (Located Suffix × State)) := collect do
  match ← optional (suffix inner) with
  | none => return none
  | some s => return some ((s, ← mark), true)

/-- A prefix expression whose suffixes satisfy the policy. As many suffixes are read as there are;
then those after the last one that the policy allows at the end are given back. Where a call is
required and there is none, a committed rule reads the arguments that are missing, and a speculative
one is stuck and gives the head back too. -/
def prefixExp (policy : SuffixPolicy) : Rule PrefixExp := do
  let beforeHead ← mark
  let repairs ← committed
  let h ← head inner
  let afterHead ← mark
  let kept := keepThroughLast (fun s => policy.allowsLast s.1.node) (← suffixChain inner)
  reset ((kept.getLast?.map (·.2)).getD afterHead)
  let suffixes := kept.map (·.1)
  if policy = .callTerminated ∧ suffixes.isEmpty then
    if repairs then return ⟨h, [(← args inner).map .call]⟩
    reset beforeHead
    stuck [.token (.symbol .openParen), .token (.symbol .openBrace), .named "string literal"]
      (Token.symbol .openParen).insertionCost
  else return ⟨h, suffixes⟩

/-- A prefix expression that ends in a call. -/
def call : Rule PrefixExp := prefixExp inner .callTerminated

/-! ### Operators -/

def accessExpr : Rule (Located Expr) := do
  return Expr.ofAccess (← prefixExp inner .unrestricted)

def tableExpr : Rule (Located Expr) := do
  return (← table inner).map .table

/-- An expression without operators. The order is also that of repair: a missing one is `nil`. -/
def atom : Rule (Located Expr) :=
  alt [literal (.keyword .nil_) .nil, literal (.keyword .false_) (.boolean false),
    literal (.keyword .true_) (.boolean true), (·.map Expr.number) <$> number,
    (·.map Expr.str) <$> str, literal (.symbol .ellipsis) .vararg, functionExpr inner,
    accessExpr inner, tableExpr inner]

def signed : Rule Signed := do
  let ops ← many (oneOf unaryOps)
  return ⟨ops, ← atom inner⟩

/-- Signed operands for as long as there is a `^` between them. The `nil` would stand for a tree
without operands. -/
def unaryExpr : Rule (Located Expr) := do
  let first ← signed inner
  let others ← collect do
    match ← optional (oneOf powOps) with
    | none => return none
    | some op => return some ((op, ← signed inner), true)
  let missing := Expr.nilAt (.point (← pos))
  return (buildPower? (first :: others.map (·.2)) (others.map (·.1))).getD missing

theorem unaryExpr_eq : unaryExpr inner = (do
    let first ← signed inner
    let others ← collect do
      match ← optional (oneOf powOps) with
      | none => return none
      | some op => return some ((op, ← signed inner), true)
    return groupPower first others) := by
  unfold unaryExpr
  simp only [buildPower?_chain, Option.getD_some]
  rfl

def mulExpr : Rule (Located Expr) := leftGrouped (unaryExpr inner) mulOps

def addExpr : Rule (Located Expr) := leftGrouped (mulExpr inner) addOps

/-- The `nil` would stand for a tree without operands. -/
def concatExpr : Rule (Located Expr) := do
  let (first, others) ← chain (addExpr inner) concatOps
  let missing := Expr.nilAt (.point (← pos))
  return (buildRight? (first :: others.map (·.2)) (others.map (·.1))).getD missing

theorem concatExpr_eq : concatExpr inner = (do
    let (first, others) ← chain (addExpr inner) concatOps
    return groupRight first others) := by
  unfold concatExpr
  simp only [buildRight?_chain, Option.getD_some]
  rfl

def compareExpr : Rule (Located Expr) := leftGrouped (concatExpr inner) compareOps

def andExpr : Rule (Located Expr) := leftGrouped (compareExpr inner) andOps

/-- An expression whose own nested expressions and blocks are those of `inner`. -/
def orExpr : Rule (Located Expr) := leftGrouped (andExpr inner) orOps

end

end LuaSyntax.Grammar
