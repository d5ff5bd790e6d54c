import LuaSyntax.Tree.Build
/-!
# Printed trees

A tree is laid out as tokens with blanks and line breaks between them, one statement a line. The
text of the layout reads back as the same tree up to spans. Blanks keep tokens apart where they
would merge: `- -x` would be a comment, and `[ [[s]] ]` a long string. A statement that starts with
a parenthesis has a semicolon before it, or it would go on with the line above.
-/

namespace LuaSyntax

/-- A piece of printed text. -/
inductive Piece where
  | token (t : Token)
  | blank
  | newline
deriving DecidableEq, Repr

abbrev Layout := List Piece

namespace Piece

def text : Piece → String
  | token t => t.text
  | blank => " "
  | newline => "\n"

def keyword (k : Keyword) : Piece := token (.keyword k)

def symbol (s : Symbol) : Piece := token (.symbol s)

def ident (name : String) : Piece := token (.ident name)

end Piece

namespace Layout

def text (l : Layout) : String :=
  String.join (l.map Piece.text)

/-- Whether the text of the layout starts with `c`. -/
def startsWith (c : Char) : Layout → Bool
  | [] => false
  | p :: l =>
    match p.text.toList with
    | [] => startsWith c l
    | d :: _ => d == c

/-- The layouts with `separator` between them. -/
def separated (separator : Layout) : List Layout → Layout
  | [] => []
  | [l] => l
  | l :: m :: ls => l ++ separator ++ separated separator (m :: ls)

def commas (ls : List Layout) : Layout :=
  separated [.symbol .comma, .blank] ls

/-- Square brackets around an expression. -/
def bracketed (l : Layout) : Layout :=
  if startsWith '[' l then .symbol .openBracket :: .blank :: l ++ [.blank, .symbol .closeBracket]
  else .symbol .openBracket :: l ++ [.symbol .closeBracket]

/-- Curly braces around the fields of a table. -/
def braced (fields : List Layout) : Layout :=
  .symbol .openBrace :: commas fields ++ [.symbol .closeBrace]

/-- An operand after a unary operator. -/
def signed (op : UnOp) (operand : Layout) : Layout :=
  match op with
  | .neg =>
    if startsWith '-' operand then .symbol .minus :: .blank :: operand
    else .symbol .minus :: operand
  | .not => .keyword .not_ :: .blank :: operand
  | .len => .symbol .hash :: operand

def names (ns : List (Located Name)) : List Layout :=
  ns.map fun n => [.ident n.node]

/-- A block between the word that opens it and `end`. -/
def body (block : Layout) : Layout :=
  .newline :: block ++ [.keyword .end_]

end Layout

namespace BinOp

/-- The token that the operator is printed as. -/
def token : BinOp → Token
  | or => .keyword .or_
  | and => .keyword .and_
  | lt => .symbol .less
  | gt => .symbol .greater
  | le => .symbol .lessEqual
  | ge => .symbol .greaterEqual
  | ne => .symbol .tildeEqual
  | eq => .symbol .equalEqual
  | concat => .symbol .dotDot
  | add => .symbol .plus
  | sub => .symbol .minus
  | mul => .symbol .star
  | div => .symbol .slash
  | mod => .symbol .percent
  | pow => .symbol .caret

end BinOp

namespace FuncName

def layout (n : FuncName) : Layout :=
  Layout.separated [.symbol .dot] (Layout.names n.path) ++
    match n.method with
    | some m => [.symbol .colon, .ident m.node]
    | none => []

end FuncName

/-- The parameters of a function in parentheses. -/
def Layout.params (ps : List (Located Name)) (vararg : Option Span) : Layout :=
  let rest : List Layout := if vararg.isSome then [[.symbol .ellipsis]] else []
  .symbol .openParen :: Layout.commas (Layout.names ps ++ rest) ++ [.symbol .closeParen]

mutual

def Block.layout : Block → Layout
  | ⟨stmts, ret⟩ => layoutStmts stmts ++ layoutReturn? ret

def layoutStmts : List (Located Stmt) → Layout
  | [] => []
  | s :: ss =>
    (if s.node.startsWithParen then [.symbol .semicolon] else []) ++ s.node.layout ++
      .newline :: layoutStmts ss

def layoutReturn? : Option (Located Return) → Layout
  | none => []
  | some r => r.node.layout ++ [.newline]

def Return.layout : Return → Layout
  | ⟨[]⟩ => [.keyword .return_]
  | ⟨e :: es⟩ => .keyword .return_ :: .blank :: Layout.commas (e.node.layout :: layoutExprs es)

def layoutExprs : List (Located Expr) → List Layout
  | [] => []
  | e :: es => e.node.layout :: layoutExprs es

def Stmt.layout : Stmt → Layout
  | .label name => [.token (.label name)]
  | .breakLoop => [.keyword .break_]
  | .continueLoop => [.keyword .continue_]
  | .goto name => [.keyword .goto_, .blank, .ident name.node]
  | .block body => .keyword .do_ :: Layout.body body.layout
  | .whileLoop cond body =>
    .keyword .while_ :: .blank :: cond.node.layout ++ [.blank, .keyword .do_] ++
      Layout.body body.layout
  | .repeatLoop body cond =>
    .keyword .repeat_ :: .newline :: body.layout ++ [.keyword .until_, .blank] ++
      cond.node.layout
  | .numericFor var start stop step body =>
    [.keyword .for_, .blank, .ident var.node, .blank, .symbol .equal, .blank] ++
      Layout.commas [start.node.layout, stop.node.layout, step.node.layout] ++
      [.blank, .keyword .do_] ++ Layout.body body.layout
  | .genericFor vars exprs body =>
    .keyword .for_ :: .blank :: Layout.commas (Layout.names vars) ++
      [.blank, .keyword .in_, .blank] ++ Layout.commas (layoutExprs exprs) ++
      [.blank, .keyword .do_] ++ Layout.body body.layout
  | .conditional clauses otherwise =>
    layoutClauses .if_ clauses ++ layoutElse otherwise ++ [.keyword .end_]
  | .function name body =>
    .keyword .function_ :: .blank :: name.layout ++ body.layout
  | .localFunction name body =>
    [.keyword .local_, .blank, .keyword .function_, .blank, .ident name.node] ++ body.layout
  | .localDecl names [] => .keyword .local_ :: .blank :: Layout.commas (Layout.names names)
  | .localDecl names (e :: es) =>
    .keyword .local_ :: .blank :: Layout.commas (Layout.names names) ++
      [.blank, .symbol .equal, .blank] ++ Layout.commas (e.node.layout :: layoutExprs es)
  | .call p => p.layout
  | .assign targets exprs =>
    Layout.commas (layoutTargets targets) ++ [.blank, .symbol .equal, .blank] ++
      Layout.commas (layoutExprs exprs)

/-- The clauses of an `if` statement, the first of them opened by `word`. -/
def layoutClauses (word : Keyword) : List IfClause → Layout
  | [] => []
  | clause :: clauses =>
    .keyword word :: .blank :: clause.layout ++ layoutClauses .elseif_ clauses

def IfClause.layout : IfClause → Layout
  | ⟨cond, body⟩ => cond.node.layout ++ [.blank, .keyword .then_, .newline] ++ body.layout

def layoutElse : Option Block → Layout
  | none => []
  | some body => .keyword .else_ :: .newline :: body.layout

def layoutTargets : List (Located PrefixExp) → List Layout
  | [] => []
  | t :: ts => t.node.layout :: layoutTargets ts

def FuncBody.layout : FuncBody → Layout
  | ⟨params, vararg, body⟩ => Layout.params params vararg ++ Layout.body body.layout

def Expr.layout : Expr → Layout
  | .nil => [.keyword .nil_]
  | .boolean true => [.keyword .true_]
  | .boolean false => [.keyword .false_]
  | .number raw => [.token (.number raw)]
  | .str raw => [.token (.str raw)]
  | .vararg => [.symbol .ellipsis]
  | .function body => .keyword .function_ :: body.layout
  | .binary op lhs rhs =>
    lhs.node.layout ++ [.blank, .token op.node.token, .blank] ++ rhs.node.layout
  | .unary op operand => Layout.signed op.node operand.node.layout
  | .table fields => Layout.braced (layoutFields fields)
  | .access p => p.layout

def PrefixExp.layout : PrefixExp → Layout
  | ⟨head, suffixes⟩ => head.node.layout ++ layoutSuffixes suffixes

def Head.layout : Head → Layout
  | .name name => [.ident name]
  | .paren e => .symbol .openParen :: e.node.layout ++ [.symbol .closeParen]

def layoutSuffixes : List (Located Suffix) → Layout
  | [] => []
  | s :: ss => s.node.layout ++ layoutSuffixes ss

def Suffix.layout : Suffix → Layout
  | .call args => args.layout
  | .method name args => .symbol .colon :: .ident name.node :: args.layout
  | .index e => Layout.bracketed e.node.layout
  | .field name => [.symbol .dot, .ident name.node]

def Args.layout : Args → Layout
  | .list exprs =>
    .symbol .openParen :: Layout.commas (layoutExprs exprs) ++ [.symbol .closeParen]
  | .table fields => Layout.braced (layoutFields fields)
  | .str raw => [.token (.str raw)]

def layoutFields : List (Located Field) → List Layout
  | [] => []
  | f :: fs => f.node.layout :: layoutFields fs

def Field.layout : Field → Layout
  | .keyed key value =>
    Layout.bracketed key.node.layout ++ [.blank, .symbol .equal, .blank] ++ value.node.layout
  | .named name value =>
    [.ident name.node, .blank, .symbol .equal, .blank] ++ value.node.layout
  | .positional value => value.node.layout

end

namespace Block

def text (b : Block) : String := b.layout.text

end Block

namespace Chunk

/-- The chunk as source text, without its comments. -/
def text (c : Chunk) : String := c.block.text

end Chunk

namespace Stmt

def text (s : Stmt) : String := s.layout.text

/-- What a statement assigns: each target or name as it is printed, with its value. Values left
over, which are evaluated but not assigned, are not among them. -/
def assignmentPairs : Stmt → List (String × Located Expr)
  | assign targets exprs => (targets.map (·.node.layout.text)).zip exprs
  | localDecl names exprs => (names.map (·.node)).zip exprs
  | _ => []

end Stmt

namespace Expr

def text (e : Expr) : String := e.layout.text

end Expr

namespace PrefixExp

def text (p : PrefixExp) : String := p.layout.text

end PrefixExp

end LuaSyntax
