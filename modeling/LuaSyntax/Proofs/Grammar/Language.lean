import LuaSyntax.Grammar.Operator
/-!
# The language

The grammar as a relation between token lists and trees. Like the rules, the productions refer to
the expressions and blocks one nesting level down, and `within` ties them together level by level.
Spans play no part: a tree is derived with any spans.

What a tree does not show is free: semicolons between statements and after `return`, the separators
of table fields, and which spelling of an operator is used. Two parts of a tree are not written: the
`nil`s that fill up the values of a declaration or an assignment, and a step that is left out.
-/

namespace LuaSyntax

/-- The expressions and blocks of a language, each with the tokens that it is written with, and what
may come directly after a statement. -/
structure Language where
  expr : List Token → Expr → Prop
  block : List Token → Block → Prop
  follows : List Token → Prop

namespace Language

open Operator

variable {α : Type}

/-- One or more items with a separator between them. -/
inductive Listed (separator : Symbol) (item : List Token → α → Prop) :
    List Token → List (Located α) → Prop
  | one {ts : List Token} {a : Located α} (h : item ts a.node) : Listed separator item ts [a]
  | more {ts us : List Token} {a : Located α} {as : List (Located α)} (h : item ts a.node)
      (rest : Listed separator item us as) :
      Listed separator item (ts ++ .symbol separator :: us) (a :: as)

inductive IsName : List Token → Name → Prop
  | intro (name : Name) : IsName [.ident name] name

inductive IsFuncName : List Token → FuncName → Prop
  | plain {ts : List Token} {path : List (Located Name)} (h : Listed .dot IsName ts path) :
      IsFuncName ts ⟨path, none⟩
  | method {ts : List Token} {path : List (Located Name)} (h : Listed .dot IsName ts path)
      (name : Located Name) :
      IsFuncName (ts ++ [.symbol .colon, .ident name.node]) ⟨path, some name⟩

/-- Parameters without their parentheses. -/
inductive Params : List Token → List (Located Name) → Option Span → Prop
  | none : Params [] [] none
  | names {ts : List Token} {ns : List (Located Name)} (h : Listed .comma IsName ts ns) :
      Params ts ns none
  | vararg (span : Span) : Params [.symbol .ellipsis] [] (some span)
  | namesVararg {ts : List Token} {ns : List (Located Name)} (h : Listed .comma IsName ts ns)
      (span : Span) : Params (ts ++ [.symbol .comma, .symbol .ellipsis]) ns (some span)

/-- Operands with operators between them, grouped to the left. -/
inductive LeftAssoc (ops : List (Token × BinOp)) (operand : List Token → Expr → Prop) :
    List Token → Expr → Prop
  | operand {ts : List Token} {e : Expr} (h : operand ts e) : LeftAssoc ops operand ts e
  | binary {ts us : List Token} {t : Token} {op : Located BinOp} {lhs rhs : Located Expr}
      (left : LeftAssoc ops operand ts lhs.node) (hop : (t, op.node) ∈ ops)
      (right : operand us rhs.node) : LeftAssoc ops operand (ts ++ t :: us) (.binary op lhs rhs)

/-- Operands with operators between them, grouped to the right. -/
inductive RightAssoc (ops : List (Token × BinOp)) (operand : List Token → Expr → Prop) :
    List Token → Expr → Prop
  | operand {ts : List Token} {e : Expr} (h : operand ts e) : RightAssoc ops operand ts e
  | binary {ts us : List Token} {t : Token} {op : Located BinOp} {lhs rhs : Located Expr}
      (left : operand ts lhs.node) (hop : (t, op.node) ∈ ops)
      (right : RightAssoc ops operand us rhs.node) :
      RightAssoc ops operand (ts ++ t :: us) (.binary op lhs rhs)

/-- The values, followed by as many `nil`s as are missing to reach `count`. -/
def Padded (count : Nat) (values exprs : List (Located Expr)) : Prop :=
  ∃ padding, exprs = values ++ padding ∧ padding.length = count - values.length ∧
    ∀ e ∈ padding, e.node = .nil

section

variable (L : Language)

/-! ### Expressions -/

inductive Func : List Token → FuncBody → Prop
  | intro {ps bs : List Token} {names : List (Located Name)} {vararg : Option Span} {body : Block}
      (params : Params ps names vararg) (h : L.block bs body) :
      Func (.symbol .openParen :: ps ++ .symbol .closeParen :: bs ++ [.keyword .end_])
        ⟨names, vararg, body⟩

inductive IsField : List Token → Field → Prop
  | keyed {ks vs : List Token} {key value : Located Expr} (hkey : L.expr ks key.node)
      (hvalue : L.expr vs value.node) :
      IsField (.symbol .openBracket :: ks ++ .symbol .closeBracket :: .symbol .equal :: vs)
        (.keyed key value)
  | named {vs : List Token} (name : Located Name) {value : Located Expr}
      (hvalue : L.expr vs value.node) :
      IsField (.ident name.node :: .symbol .equal :: vs) (.named name value)
  | positional {vs : List Token} {value : Located Expr} (hvalue : L.expr vs value.node) :
      IsField vs (.positional value)

/-- Fields with a comma or a semicolon after each of them, which may be missing after the last. -/
inductive Fields : List Token → List (Located Field) → Prop
  | nil : Fields [] []
  | last {ts : List Token} {f : Located Field} (h : IsField L ts f.node) : Fields ts [f]
  | more {ts us : List Token} {f : Located Field} {fs : List (Located Field)} {separator : Symbol}
      (h : IsField L ts f.node) (hseparator : separator = .comma ∨ separator = .semicolon)
      (rest : Fields us fs) : Fields (ts ++ .symbol separator :: us) (f :: fs)

inductive Table : List Token → List (Located Field) → Prop
  | intro {ts : List Token} {fs : List (Located Field)} (h : Fields L ts fs) :
      Table (.symbol .openBrace :: ts ++ [.symbol .closeBrace]) fs

inductive IsArgs : List Token → Args → Prop
  | empty : IsArgs [.symbol .openParen, .symbol .closeParen] (.list [])
  | list {ts : List Token} {es : List (Located Expr)} (h : Listed .comma L.expr ts es) :
      IsArgs (.symbol .openParen :: ts ++ [.symbol .closeParen]) (.list es)
  | table {ts : List Token} {fs : List (Located Field)} (h : Table L ts fs) : IsArgs ts (.table fs)
  | str (raw : String) : IsArgs [.str raw] (.str raw)

inductive IsSuffix : List Token → Suffix → Prop
  | call {ts : List Token} {args : Args} (h : IsArgs L ts args) : IsSuffix ts (.call args)
  | method {ts : List Token} (name : Located Name) {args : Args} (h : IsArgs L ts args) :
      IsSuffix (.symbol .colon :: .ident name.node :: ts) (.method name args)
  | index {ts : List Token} {e : Located Expr} (h : L.expr ts e.node) :
      IsSuffix (.symbol .openBracket :: ts ++ [.symbol .closeBracket]) (.index e)
  | field (name : Located Name) : IsSuffix [.symbol .dot, .ident name.node] (.field name)

inductive Suffixes : List Token → List (Located Suffix) → Prop
  | nil : Suffixes [] []
  | cons {ts us : List Token} {s : Located Suffix} {ss : List (Located Suffix)}
      (h : IsSuffix L ts s.node) (rest : Suffixes us ss) : Suffixes (ts ++ us) (s :: ss)

inductive IsHead : List Token → Head → Prop
  | name (name : Name) : IsHead [.ident name] (.name name)
  | paren {ts : List Token} {e : Located Expr} (h : L.expr ts e.node) :
      IsHead (.symbol .openParen :: ts ++ [.symbol .closeParen]) (.paren e)

inductive Access : List Token → PrefixExp → Prop
  | intro {ts us : List Token} {head : Located Head} {suffixes : List (Located Suffix)}
      (hhead : IsHead L ts head.node) (hsuffixes : Suffixes L us suffixes) :
      Access (ts ++ us) ⟨head, suffixes⟩

inductive Atom : List Token → Expr → Prop
  | nil : Atom [.keyword .nil_] .nil
  | false : Atom [.keyword .false_] (.boolean false)
  | true : Atom [.keyword .true_] (.boolean true)
  | number (raw : String) : Atom [.number raw] (.number raw)
  | str (raw : String) : Atom [.str raw] (.str raw)
  | vararg : Atom [.symbol .ellipsis] .vararg
  | function {ts : List Token} {body : FuncBody} (h : Func L ts body) :
      Atom (.keyword .function_ :: ts) (.function body)
  | access {ts : List Token} {p : PrefixExp} (h : Access L ts p) : Atom ts (.access p)
  | table {ts : List Token} {fs : List (Located Field)} (h : Table L ts fs) : Atom ts (.table fs)

/-- Unary operators before an atom, which may be raised to a power that has its own ones. -/
inductive Unary : List Token → Expr → Prop
  | operator {ts : List Token} {t : Token} {op : Located UnOp} {operand : Located Expr}
      (hop : (t, op.node) ∈ unaryOps) (h : Unary ts operand.node) :
      Unary (t :: ts) (.unary op operand)
  | atom {ts : List Token} {e : Expr} (h : Atom L ts e) : Unary ts e
  | power {ts us : List Token} {t : Token} {op : Located BinOp} {base exponent : Located Expr}
      (hbase : Atom L ts base.node) (hop : (t, op.node) ∈ powOps)
      (hexponent : Unary us exponent.node) : Unary (ts ++ t :: us) (.binary op base exponent)

def Product : List Token → Expr → Prop := LeftAssoc mulOps (Unary L)

def Sum : List Token → Expr → Prop := LeftAssoc addOps (Product L)

def Concat : List Token → Expr → Prop := RightAssoc concatOps (Sum L)

def Comparison : List Token → Expr → Prop := LeftAssoc compareOps (Concat L)

def Conjunction : List Token → Expr → Prop := LeftAssoc andOps (Comparison L)

def Disjunction : List Token → Expr → Prop := LeftAssoc orOps (Conjunction L)

/-! ### Statements -/

inductive Clause : List Token → IfClause → Prop
  | intro {cs bs : List Token} {cond : Located Expr} {body : Block} (hcond : L.expr cs cond.node)
      (hbody : L.block bs body) : Clause (cs ++ .keyword .then_ :: bs) ⟨cond, body⟩

/-- The clauses of an `if` statement, the first of them opened by `word`. -/
inductive Clauses : Keyword → List Token → List IfClause → Prop
  | one {word : Keyword} {ts : List Token} {clause : IfClause} (h : Clause L ts clause) :
      Clauses word (.keyword word :: ts) [clause]
  | more {word : Keyword} {ts us : List Token} {clause : IfClause} {clauses : List IfClause}
      (h : Clause L ts clause) (rest : Clauses .elseif_ us clauses) :
      Clauses word (.keyword word :: ts ++ us) (clause :: clauses)

inductive Else : List Token → Option Block → Prop
  | none : Else [] none
  | some {bs : List Token} {body : Block} (h : L.block bs body) :
      Else (.keyword .else_ :: bs) (some body)

inductive IsStmt : List Token → Stmt → Prop
  | label (name : Name) : IsStmt [.label name] (.label name)
  | breakLoop : IsStmt [.keyword .break_] .breakLoop
  | continueLoop : IsStmt [.keyword .continue_] .continueLoop
  | goto (name : Located Name) : IsStmt [.keyword .goto_, .ident name.node] (.goto name)
  | block {bs : List Token} {body : Block} (hbody : L.block bs body) :
      IsStmt (.keyword .do_ :: bs ++ [.keyword .end_]) (.block body)
  | whileLoop {cs bs : List Token} {cond : Located Expr} {body : Block}
      (hcond : L.expr cs cond.node) (hbody : L.block bs body) :
      IsStmt (.keyword .while_ :: cs ++ .keyword .do_ :: bs ++ [.keyword .end_])
        (.whileLoop cond body)
  | repeatLoop {bs cs : List Token} {body : Block} {cond : Located Expr}
      (hbody : L.block bs body) (hcond : L.expr cs cond.node) :
      IsStmt (.keyword .repeat_ :: bs ++ .keyword .until_ :: cs) (.repeatLoop body cond)
  | numericFor {xs ys zs bs : List Token} (var : Located Name) {start stop step : Located Expr}
      {body : Block} (hstart : L.expr xs start.node) (hstop : L.expr ys stop.node)
      (hstep : L.expr zs step.node) (hbody : L.block bs body) :
      IsStmt (.keyword .for_ :: .ident var.node :: .symbol .equal :: xs ++ .symbol .comma :: ys ++
          .symbol .comma :: zs ++ .keyword .do_ :: bs ++ [.keyword .end_])
        (.numericFor var start stop step body)
  | numericForByOne {xs ys bs : List Token} (var : Located Name) {start stop : Located Expr}
      (span : Span) {body : Block} (hstart : L.expr xs start.node) (hstop : L.expr ys stop.node)
      (hbody : L.block bs body) :
      IsStmt (.keyword .for_ :: .ident var.node :: .symbol .equal :: xs ++ .symbol .comma :: ys ++
          .keyword .do_ :: bs ++ [.keyword .end_])
        (.numericFor var start stop ⟨.number "1", span⟩ body)
  | genericFor {ns es bs : List Token} {vars : List (Located Name)} {exprs : List (Located Expr)}
      {body : Block} (hvars : Listed .comma IsName ns vars) (hexprs : Listed .comma L.expr es exprs)
      (hbody : L.block bs body) :
      IsStmt (.keyword .for_ :: ns ++ .keyword .in_ :: es ++ .keyword .do_ :: bs ++
          [.keyword .end_])
        (.genericFor vars exprs body)
  | conditional {cs es : List Token} {clauses : List IfClause} {otherwise : Option Block}
      (hclauses : Clauses L .if_ cs clauses) (hotherwise : Else L es otherwise) :
      IsStmt (cs ++ es ++ [.keyword .end_]) (.conditional clauses otherwise)
  | function {ns fs : List Token} {name : FuncName} {body : FuncBody} (hname : IsFuncName ns name)
      (hbody : Func L fs body) : IsStmt (.keyword .function_ :: ns ++ fs) (.function name body)
  | localFunction {fs : List Token} (name : Located Name) {body : FuncBody}
      (hbody : Func L fs body) :
      IsStmt (.keyword .local_ :: .keyword .function_ :: .ident name.node :: fs)
        (.localFunction name body)
  | localDecl {ns : List Token} {names : List (Located Name)} {exprs : List (Located Expr)}
      (hnames : Listed .comma IsName ns names) (hexprs : Padded names.length [] exprs) :
      IsStmt (.keyword .local_ :: ns) (.localDecl names exprs)
  | localValues {ns es : List Token} {names : List (Located Name)}
      {values exprs : List (Located Expr)} (hnames : Listed .comma IsName ns names)
      (hvalues : Listed .comma L.expr es values) (hexprs : Padded names.length values exprs) :
      IsStmt (.keyword .local_ :: ns ++ .symbol .equal :: es) (.localDecl names exprs)
  | call {ts : List Token} {p : PrefixExp} (h : Access L ts p) (hcall : p.endsInCall = true) :
      IsStmt ts (.call p)
  | assign {ts es : List Token} {targets : List (Located PrefixExp)}
      {values exprs : List (Located Expr)} (htargets : Listed .comma (Access L) ts targets)
      (hvalues : Listed .comma L.expr es values) (hexprs : Padded targets.length values exprs) :
      IsStmt (ts ++ .symbol .equal :: es) (.assign targets exprs)

inductive IsReturn : List Token → Return → Prop
  | bare (count : Nat) :
      IsReturn (.keyword .return_ :: List.replicate count (.symbol .semicolon)) ⟨[]⟩
  | values {ts : List Token} {es : List (Located Expr)} (h : Listed .comma L.expr ts es)
      (count : Nat) :
      IsReturn (.keyword .return_ :: ts ++ List.replicate count (.symbol .semicolon)) ⟨es⟩

inductive IsBlock : List Token → Block → Prop
  | empty : IsBlock [] ⟨[], none⟩
  | ret {ts : List Token} {r : Located Return} (h : IsReturn L ts r.node) :
      IsBlock ts ⟨[], some r⟩
  | semicolon {ts : List Token} {b : Block} (rest : IsBlock ts b) :
      IsBlock (.symbol .semicolon :: ts) b
  | stmt {ts us : List Token} {s : Located Stmt} {ss : List (Located Stmt)}
      {r : Option (Located Return)} (h : IsStmt L ts s.node) (hfollows : L.follows us)
      (rest : IsBlock us ⟨ss, r⟩) : IsBlock (ts ++ us) ⟨s :: ss, r⟩

/-- The language one level further out. -/
def next : Language := ⟨Disjunction L, IsBlock L, L.follows⟩

/-- The language with `depth` more levels around `L`. -/
def nest : Nat → Language
  | 0 => L
  | depth + 1 => next (nest depth)

end

/-- Blocks without anything in them, and no expressions. -/
def bare (follows : List Token → Prop) : Language where
  expr _ _ := False
  block ts b := ts = [] ∧ b = .empty
  follows := follows

/-- What is left where the nesting is cut off: `nil` for an expression, and nothing in a block. -/
def stub : Language where
  expr ts e := ts = [.keyword .nil_] ∧ e = .nil
  block ts b := ts = [] ∧ b = .empty
  follows _ := True

/-- The language in which expressions and blocks nest at most `depth` levels deep. -/
def within (depth : Nat) : Language := nest (bare fun _ => True) depth

/-- The same language, in which nothing that follows a statement can be taken for a part of it. -/
def unambiguous (depth : Nat) : Language :=
  nest (bare fun us => us.head? ≠ some (.symbol .openParen)) depth

theorem nest_next (L : Language) (depth : Nat) : nest (next L) depth = nest L (depth + 1) := by
  induction depth with
  | zero => rfl
  | succ depth ih => exact congrArg next ih

/-- The tokens are a chunk of the language, and the tree is the one they are derived with. -/
def Derives (ts : List Token) (b : Block) : Prop := ∃ depth, (within depth).block ts b

/-! ### Blocks put together -/

theorem isBlock_semicolons {L : Language} {ts : List Token} {b : Block} (h : IsBlock L ts b)
    (count : Nat) :
    IsBlock L (List.replicate count (.symbol .semicolon) ++ ts) b := by
  induction count with
  | zero => exact h
  | succ count ih => exact .semicolon ih

/-- Blocks one after another are a block, if only the last one returns. -/
def Appends (L : Language) : Prop :=
  ∀ ts us a b, L.block ts a → a.ret = none → L.block us b → L.block (ts ++ us) (a ++ b)

theorem empty_append (b : Block) : (⟨[], none⟩ : Block) ++ b = b := by
  obtain ⟨ss, r⟩ := b
  cases r <;> rfl

theorem isBlock_append {L : Language} (hfollows : ∀ ts, L.follows ts) {ts us : List Token}
    {a b : Block} (ha : IsBlock L ts a) (hret : a.ret = none) (hb : IsBlock L us b) :
    IsBlock L (ts ++ us) (a ++ b) := by
  induction ha with
  | empty => rwa [empty_append]
  | ret _ => cases hret
  | semicolon _ ih => exact .semicolon (ih hret)
  | @stmt ts vs s ss r h _ _ ih =>
    rw [List.append_assoc]
    exact .stmt h (hfollows _) (ih hret)

@[simp] theorem follows_nest (L : Language) (depth : Nat) :
    (nest L depth).follows = L.follows := by
  induction depth with
  | zero => rfl
  | succ depth ih => exact ih

theorem appends_nest {L : Language} (hfollows : ∀ ts, L.follows ts) (h : L.Appends) (depth : Nat) :
    (nest L depth).Appends := by
  cases depth with
  | zero => exact h
  | succ depth =>
    intro ts us a b ha hret hb
    exact isBlock_append (by simpa using hfollows) ha hret hb

theorem appends_bare (follows : List Token → Prop) : (bare follows).Appends := by
  rintro ts us a b ⟨rfl, rfl⟩ - ⟨rfl, rfl⟩
  exact ⟨rfl, rfl⟩

theorem appends_stub : stub.Appends := by
  rintro ts us a b ⟨rfl, rfl⟩ - ⟨rfl, rfl⟩
  exact ⟨rfl, rfl⟩

theorem appends_within (depth : Nat) : (within depth).Appends :=
  appends_nest (fun _ => trivial) (appends_bare _) depth

end Language

end LuaSyntax
