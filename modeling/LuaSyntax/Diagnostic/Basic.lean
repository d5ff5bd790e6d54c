import LuaSyntax.Lexer.Fault
import LuaSyntax.Text.ProseList
import LuaSyntax.Token.Basic
/-!
# Diagnostics

A diagnostic says what was wrong with the source at a span, and what was done about it so that the
parse could go on.
-/

namespace LuaSyntax

inductive Severity where
  | warning
  | error
deriving DecidableEq, Repr

/-- Something that could have stood where the source has something else. -/
inductive Expected where
  /-- One exact token. -/
  | token (t : Token)
  /-- A class of tokens or a construct, such as an identifier or a statement. -/
  | named (name : String)
deriving DecidableEq, Repr

namespace Expected

def text : Expected → String
  | token t => "`" ++ t.text ++ "`"
  | named name => name

end Expected

/-- What is wrong. -/
inductive Cause where
  /-- A token, or the end of the input, that does not fit. -/
  | unexpected (found : Option Token) (expected : List Expected)
  /-- A call as the target of an assignment. -/
  | notAssignable
  /-- A target in parentheses, as in `(x) = 1`. -/
  | parenthesizedTarget
  | lexical (fault : LexFault)
  /-- The source has more tokens than the limit. -/
  | tokenLimitExceeded (limit count : Nat)
  /-- Expressions or blocks nest deeper than the limit. -/
  | tooDeep (limit : Nat)
deriving DecidableEq, Repr

namespace Cause

def severity : Cause → Severity
  | parenthesizedTarget => .warning
  | _ => .error

def message : Cause → String
  | unexpected (some found) _ => "unexpected " ++ found.describe
  | unexpected none _ => "unexpected end of input"
  | notAssignable => "cannot assign to the result of a call"
  | parenthesizedTarget => "parenthesized assignment target"
  | lexical fault => fault.message
  | tokenLimitExceeded limit count =>
    "input has " ++ toString count ++ " tokens, more than the limit of " ++ toString limit
  | tooDeep limit => "nesting is deeper than " ++ toString limit ++ " levels"

/-- The list of what was expected, if anything was. -/
def expectation? : Cause → Option String
  | unexpected _ (e :: expected) => some ("expected " ++ Text.orList ((e :: expected).map (·.text)))
  | _ => none

end Cause

/-- What was done to carry on. -/
inductive Repair where
  /-- A token was put into the gap, at the given cost. -/
  | inserted (token : Token) (cost : Nat)
  | skipped (count : Nat)
  /-- Nothing: the tree holds the construct as written. -/
  | unrepaired
deriving DecidableEq, Repr

structure Diagnostic where
  span : Span
  cause : Cause
  repair : Repair
deriving DecidableEq, Repr

namespace Diagnostic

def severity (d : Diagnostic) : Severity := d.cause.severity

def isError (d : Diagnostic) : Bool := d.severity == .error

def message (d : Diagnostic) : String := d.cause.message

/-- The token that was put into a gap, if the repair was one. -/
def inserted? (d : Diagnostic) : Option Token :=
  match d.repair with
  | .inserted token _ => some token
  | _ => none

def ofLexError (e : LexError) : Diagnostic :=
  ⟨e.span, .lexical e.fault, .unrepaired⟩

/-- The diagnostic in one line, with its position. -/
def text (d : Diagnostic) : String :=
  let place := d.span.start.text ++ ": " ++ d.message
  match d.cause.expectation? with
  | some expectation => place ++ ", " ++ expectation
  | none => place

end Diagnostic

end LuaSyntax
