import LuaSyntax.Source.Span
import LuaSyntax.Token.Basic
/-!
# Syntax trees

The syntax of Lua 5.2 with `continue`. Every part that can be pointed at carries its span. Symbols
that are spelled differently in GLua (`&&`, `||`, `!=`, `!`) stand for the same operators.
-/

namespace LuaSyntax

abbrev Name := String

inductive BinOp where
  | or | and | lt | gt | le | ge | ne | eq | concat | add | sub | mul | div | mod | pow
deriving DecidableEq, Repr

inductive UnOp where
  | neg
  | not
  | len
deriving DecidableEq, Repr

/-- The name of a `function` statement: `a.b.c` or `a.b:c`. -/
structure FuncName where
  path : List (Located Name)
  method : Option (Located Name)
deriving DecidableEq, Repr

mutual

/-- Statements in order, and the `return` that may end them. -/
structure Block where
  stmts : List (Located Stmt)
  ret : Option (Located Return)

structure Return where
  exprs : List (Located Expr)

/-- A statement. The step of a numeric `for` is `1` where it is left out, and the values of a
declaration or an assignment are never fewer than its names or targets. -/
inductive Stmt where
  | label (name : Name)
  | breakLoop
  | continueLoop
  | goto (name : Located Name)
  | block (body : Block)
  | whileLoop (cond : Located Expr) (body : Block)
  | repeatLoop (body : Block) (cond : Located Expr)
  | numericFor (var : Located Name) (start stop step : Located Expr) (body : Block)
  | genericFor (vars : List (Located Name)) (exprs : List (Located Expr)) (body : Block)
  | conditional (clauses : List IfClause) (otherwise : Option Block)
  | function (name : FuncName) (body : FuncBody)
  | localFunction (name : Located Name) (body : FuncBody)
  | localDecl (names : List (Located Name)) (exprs : List (Located Expr))
  | call (call : PrefixExp)
  | assign (targets : List (Located PrefixExp)) (exprs : List (Located Expr))

/-- A condition and the block that it guards. -/
structure IfClause where
  cond : Located Expr
  body : Block

/-- What follows the name of a function. `vararg` is the span of a last parameter `...`. -/
structure FuncBody where
  params : List (Located Name)
  vararg : Option Span
  body : Block

/-- An expression. Numbers and strings are as written. -/
inductive Expr where
  | nil
  | boolean (value : Bool)
  | number (raw : String)
  | str (raw : String)
  | vararg
  | function (body : FuncBody)
  | binary (op : Located BinOp) (lhs rhs : Located Expr)
  | unary (op : Located UnOp) (operand : Located Expr)
  | table (fields : List (Located Field))
  | access (path : PrefixExp)

/-- A name or a parenthesized expression, and the suffixes that follow it. -/
structure PrefixExp where
  head : Located Head
  suffixes : List (Located Suffix)

inductive Head where
  | name (name : Name)
  | paren (expr : Located Expr)

inductive Suffix where
  | call (args : Args)
  | method (name : Located Name) (args : Args)
  | index (expr : Located Expr)
  | field (name : Located Name)

/-- The arguments of a call: a list in parentheses, one table or one string. -/
inductive Args where
  | list (exprs : List (Located Expr))
  | table (fields : List (Located Field))
  | str (raw : String)

/-- A field of a table: `[key] = value`, `name = value` or `value`. -/
inductive Field where
  | keyed (key value : Located Expr)
  | named (name : Located Name) (value : Located Expr)
  | positional (value : Located Expr)

end

/-- The tree of one source text, with all its comments in order. -/
structure Chunk where
  comments : List (Located Comment)
  block : Block

def Block.empty : Block := ⟨[], none⟩

instance : Inhabited Block := ⟨.empty⟩

instance : Inhabited Expr := ⟨.nil⟩

end LuaSyntax
