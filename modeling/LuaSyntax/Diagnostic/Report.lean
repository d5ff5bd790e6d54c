import LuaSyntax.Diagnostic.Basic
/-!
# Reports

A report is a diagnostic in words, ready to be shown beside the source it speaks of.
-/

namespace LuaSyntax

structure Report where
  severity : Severity
  message : String
  /-- The marked span, and what is said about it. -/
  primary : Option (Span × String)
  notes : List String
deriving DecidableEq, Repr

namespace LexError

def report (e : LexError) : Report where
  severity := .error
  message := e.fault.message
  primary := some (e.span, e.fault.label)
  notes := []

end LexError

namespace Diagnostic

/-- What a report says about the marked text. -/
def label (d : Diagnostic) : String :=
  match d.repair, d.cause with
  | .inserted token _, _ => "inserted `" ++ token.text ++ "` here"
  | .skipped 1, _ => "skipped this token"
  | .skipped count, _ => "skipped these " ++ toString count ++ " tokens"
  | .unrepaired, .notAssignable => "this is a call"
  | .unrepaired, .parenthesizedTarget => "parentheses around this target"
  | .unrepaired, .tokenLimitExceeded _ _ => "limit reached here"
  | .unrepaired, _ => "here"

/-- What a report adds about the cause. -/
def causeNotes (d : Diagnostic) : List String :=
  match d.cause with
  | .notAssignable => ["only names, fields and indexes can be assigned to"]
  | .parenthesizedTarget => ["the parentheses are ignored"]
  | .tooDeep _ => ["the innermost levels are left out of the tree"]
  | cause => cause.expectation?.toList

/-- What a report adds about the repair. -/
def repairNotes (d : Diagnostic) : List String :=
  match d.repair with
  | .inserted _ cost => ["repair cost " ++ toString cost]
  | _ => []

def report (d : Diagnostic) : Report where
  severity := d.severity
  message := d.message
  primary := some (d.span, d.label)
  notes := d.causeNotes ++ d.repairNotes

end Diagnostic

end LuaSyntax
