import LuaSyntax.Grammar.Expr
/-!
# Statement grammar

```text
chunk    -> block EOF
block    -> ( ';' | stmt )* ( 'return' exprlist? ';'* )?

stmt     -> callstmt | assign
          | LABEL | 'break' | 'continue' | 'goto' NAME
          | 'do' block 'end'
          | 'while' expr 'do' block 'end'
          | 'repeat' block 'until' expr
          | 'if' expr 'then' block ( 'elseif' expr 'then' block )* ( 'else' block )? 'end'
          | 'for' NAME '=' expr ',' expr ( ',' expr )? 'do' block 'end'
          | 'for' NAME ( ',' NAME )* 'in' exprlist 'do' block 'end'
          | 'function' funcname funcbody
          | 'local' 'function' NAME funcbody
          | 'local' NAME ( ',' NAME )* ( '=' exprlist )?

callstmt -> head suffix* call-suffix
assign   -> target ( ',' target )* '=' exprlist
funcname -> NAME ( '.' NAME )* ( ':' NAME )?
```

Calls and assignments share a start of any length, so they are told apart only after all the
suffixes of the first target.
-/

namespace LuaSyntax.Grammar

open Rule

/-- What a block is made of: statements, a last `return`, and junk that was passed over. -/
inductive BlockPart where
  | stmt (stmt : Located Stmt)
  | ret (ret : Located Return)
  | junk

namespace BlockPart

def stmt? : BlockPart → Option (Located Stmt)
  | stmt s => some s
  | _ => none

def ret? : BlockPart → Option (Located Return)
  | ret r => some r
  | _ => none

end BlockPart

/-- The block that the parts make up. -/
def blockOf (parts : List BlockPart) : Block :=
  ⟨parts.filterMap (·.stmt?), parts.findSome? (·.ret?)⟩

/-- What is wrong with an assignment target. -/
def targetCause? (target : PrefixExp) : Option Cause :=
  if target.endsInCall then some .notAssignable
  else if target.isBareParen then some .parenthesizedTarget
  else none

/-- The target with its span. One that cannot be assigned to is reported and kept as written. -/
def checkedTarget (target : PrefixExp) : Rule (Located PrefixExp) := do
  match targetCause? target with
  | some cause => record ⟨target.span, cause, .unrepaired⟩
  | none => pure ()
  return ⟨target, target.span⟩

/-- Whether a statement can resume at the token, or the block ends there. -/
def resumesAt (t : Token) : Bool :=
  t.startsStmt || t.endsBlock || t == .keyword .return_

/-- The number of tokens up to the next one, after the first, at which a statement can resume. -/
def junkLength : List Token → Nat
  | [] => 0
  | _ :: ts => 1 + (ts.takeWhile (!resumesAt ·)).length

/-- Passes over tokens that fit into no statement. -/
def skipJunk : Rule Unit := fun c s =>
  skipTokens (junkLength ((c.stream.rest s.cursor).map (·.node))) [.named "statement"] c s

/-- Another item after a separating token. -/
def following {α : Type} (separator : Symbol) (item : Rule α) : Rule α := do
  let _ ← symbol separator
  item

def funcName : Rule FuncName := do
  let first ← name
  let others ← many (following .dot name)
  return ⟨first :: others, ← optional (following .colon name)⟩

section

variable (inner : Level)

def breakStmt : Rule Stmt := do
  let _ ← keyword .break_
  return .breakLoop

def continueStmt : Rule Stmt := do
  let _ ← keyword .continue_
  return .continueLoop

def labelStmt : Rule Stmt := do
  return .label (← label).node

def gotoStmt : Rule Stmt := do
  let _ ← keyword .goto_
  return .goto (← name)

def doStmt : Rule Stmt := do
  let _ ← keyword .do_
  let body ← inner.block
  let _ ← keyword .end_
  return .block body

def whileStmt : Rule Stmt := do
  let _ ← keyword .while_
  let cond ← inner.expr
  let _ ← keyword .do_
  let body ← inner.block
  let _ ← keyword .end_
  return .whileLoop cond body

def repeatStmt : Rule Stmt := do
  let _ ← keyword .repeat_
  let body ← inner.block
  let _ ← keyword .until_
  return .repeatLoop body (← inner.expr)

/-- The rest of a clause after its `if` or `elseif`. -/
def ifClause : Rule IfClause := do
  let cond ← inner.expr
  let _ ← keyword .then_
  return ⟨cond, ← inner.block⟩

def elseifClause : Rule IfClause := do
  let _ ← keyword .elseif_
  ifClause inner

def elseBlock : Rule Block := do
  let _ ← keyword .else_
  inner.block

def ifStmt : Rule Stmt := do
  let _ ← keyword .if_
  let first ← ifClause inner
  let others ← many (elseifClause inner)
  let otherwise ← optional (elseBlock inner)
  let _ ← keyword .end_
  return .conditional (first :: others) otherwise

/-- The rest of a numeric `for` after its variable. A step that is left out is `1`, at the `for`. -/
def numericFor (forSpan : Span) (var : Located Name) : Rule Stmt := do
  let _ ← symbol .equal
  let start ← inner.expr
  let _ ← symbol .comma
  let stop ← inner.expr
  let step ← optional (following .comma inner.expr)
  let _ ← keyword .do_
  let body ← inner.block
  let _ ← keyword .end_
  return .numericFor var start stop (step.getD ⟨.number "1", forSpan⟩) body

/-- The rest of a generic `for` after its first variable. -/
def genericFor (first : Located Name) : Rule Stmt := do
  let others ← many (following .comma name)
  let _ ← keyword .in_
  let exprs ← exprList inner
  let _ ← keyword .do_
  let body ← inner.block
  let _ ← keyword .end_
  return .genericFor (first :: others) exprs body

def forStmt : Rule Stmt := do
  let forSpan ← keyword .for_
  let var ← name
  alt [numericFor inner forSpan var, genericFor inner var]

def functionStmt : Rule Stmt := do
  let _ ← keyword .function_
  let n ← funcName
  return .function n (← funcBody inner)

def localFunction : Rule Stmt := do
  let _ ← keyword .function_
  let n ← name
  return .localFunction n (← funcBody inner)

/-- Names and their values. The `nil`s that fill up the values are at the `=`, or else at the last
name. -/
def localDecl : Rule Stmt := do
  let names ← sepBy1 name (symbol .comma)
  match ← optional (symbol .equal) with
  | some equal =>
    return .localDecl names (Expr.padWithNil names.length equal (← exprList inner))
  | none =>
    let last := (names.getLast?.map (·.span)).getD (.point (← pos))
    return .localDecl names (Expr.padWithNil names.length last [])

def localStmt : Rule Stmt := do
  let _ ← keyword .local_
  alt [localFunction inner, localDecl inner]

/-- Further targets of an assignment. -/
def moreTargets : Rule (List (Located PrefixExp)) := collect do
  match ← optional (following .comma (prefixExp inner .unrestricted)) with
  | none => return none
  | some target => return some (← checkedTarget target, true)

/-- The rest of an assignment after its first target. -/
def assignment (first : PrefixExp) : Rule Stmt := do
  let target ← checkedTarget first
  let targets := target :: (← moreTargets inner)
  let equal ← symbol .equal
  return .assign targets (Expr.padWithNil targets.length equal (← exprList inner))

/-- A call or an assignment. What ends in a call and is followed by neither `,` nor `=` is a call;
anything else is an assignment. -/
def callOrAssign : Rule Stmt := do
  let h ← head inner
  let first : PrefixExp := ⟨h, (← suffixChain inner).map (·.1)⟩
  let next ← peek
  if first.endsInCall ∧ next ≠ some (.symbol .comma) ∧ next ≠ some (.symbol .equal) then
    return .call first
  else assignment inner first

def stmt : Rule (Located Stmt) :=
  located (alt [callOrAssign inner, labelStmt, breakStmt, continueStmt, gotoStmt, doStmt inner,
    whileStmt inner, repeatStmt inner, ifStmt inner, forStmt inner, functionStmt inner,
    localStmt inner])

def returnStmt : Rule (Located Return) := located do
  let _ ← keyword .return_
  let exprs ← optional (exprList inner)
  let _ ← many (symbol .semicolon)
  return ⟨exprs.getD []⟩

/-- The next part of a block, if the block goes on, and whether more may follow. -/
def blockPart : Rule (Option (BlockPart × Bool)) := do
  let _ ← many (symbol .semicolon)
  if let some s ← optional (stmt inner) then
    return some (.stmt s, true)
  if let some r ← optional (returnStmt inner) then
    return some (.ret r, false)
  match ← peek with
  | none => return none
  | some t =>
    if t.endsBlock then return none
    skipJunk
    return some (.junk, true)

/-- The contents of a block whose own nested expressions and blocks are those of `inner`. -/
def stmts : Rule Block := do
  return blockOf (← collect (blockPart inner))

/-- The part of a chunk after a token that ends no block there, unless the input ends. -/
def chunkPart : Rule (Option (Block × Bool)) := do
  if ← atEnd then return none
  skipTokens 1 [.named "statement"]
  let more ← inner.block
  return some (more, more.ret.isNone)

/-- A whole chunk, in which a token that would end a block is passed over. -/
def chunk : Rule Block := do
  let first ← inner.block
  if first.ret.isSome then return first
  return (← collect (chunkPart inner)).foldl (· ++ ·) first

end

end LuaSyntax.Grammar
