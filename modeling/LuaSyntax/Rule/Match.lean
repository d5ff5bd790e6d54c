import LuaSyntax.Rule.Basic
/-!
# Matchers

A matcher reads one token. Where it finds another one, a committed matcher puts the token it needs
in front of it.
-/

namespace LuaSyntax

/-- Which tokens are accepted and the value that each gives, and the token that is put in where none
is found. -/
structure Matcher (α : Type) where
  expected : Expected
  accept : Token → Option α
  repair : Token
  value : α
  accept_repair : accept repair = some value

namespace Matcher

/-- Accepts one exact token. -/
def exactly (t : Token) : Matcher Unit where
  expected := .token t
  accept u := if u = t then some () else none
  repair := t
  value := ()
  accept_repair := if_pos rfl

/-- Accepts the tokens of a table, and puts in the first of them. -/
def oneOf {α : Type} (t : Token) (a : α) (others : List (Token × α)) : Matcher α where
  expected := .token t
  accept u := List.lookup u ((t, a) :: others)
  repair := t
  value := a
  accept_repair := List.lookup_cons_self

def name : Matcher String where
  expected := .named "identifier"
  accept
    | .ident name => some name
    | _ => none
  repair := .ident "someVariable"
  value := "someVariable"
  accept_repair := rfl

def str : Matcher String where
  expected := .named "string literal"
  accept
    | .str raw => some raw
    | _ => none
  repair := .str "\"someString\""
  value := "\"someString\""
  accept_repair := rfl

def number : Matcher String where
  expected := .named "number"
  accept
    | .number raw => some raw
    | _ => none
  repair := .number "0"
  value := "0"
  accept_repair := rfl

def label : Matcher String where
  expected := .named "label"
  accept
    | .label name => some name
    | _ => none
  repair := .label "someLabel"
  value := "someLabel"
  accept_repair := rfl

end Matcher

namespace Rule

variable {α : Type}

/-- The diagnostic for a token put in where the matcher found another one, or none. -/
def insertion (m : Matcher α) (c : Context) (s : State) : Diagnostic where
  span := ((c.next? s).map (·.span)).getD (.point (c.pos s))
  cause := .unexpected ((c.next? s).map (·.node)) (s.hint.getD [m.expected])
  repair := .inserted m.repair m.repair.insertionCost

/-- Puts in the token that the matcher needs. Speculatively, this is stuck. -/
def supply (m : Matcher α) : Rule (Located α) := fun c s =>
  if c.isCommitted s then
    .ok ⟨m.value, .point (c.pos s)⟩ { s.record (insertion m c s) with hint := none }
  else .error ⟨[m.expected], m.repair.insertionCost⟩ s

/-- Reads one token. -/
def satisfy (m : Matcher α) : Rule (Located α) := fun c s =>
  match (c.next? s).bind fun t => (m.accept t.node).map (Located.mk · t.span) with
  | some found => .ok found (s.advance 1)
  | none => supply m c s

/-- The cost of what cannot be put in. -/
def prohibitive : Nat := 4294967295

/-- Reads one exact token and gives its span. -/
def token (t : Token) : Rule Span := do
  return (← satisfy (.exactly t)).span

def keyword (k : Keyword) : Rule Span := token (.keyword k)

def symbol (s : Symbol) : Rule Span := token (.symbol s)

/-- Reads any token of the table and gives the value beside it. The first one is the repair. -/
def oneOf : List (Token × α) → Rule (Located α)
  | [] => stuck [.named "nothing"] prohibitive
  | (t, a) :: others => satisfy (.oneOf t a others)

def name : Rule (Located String) := satisfy .name

def str : Rule (Located String) := satisfy .str

def number : Rule (Located String) := satisfy .number

def label : Rule (Located String) := satisfy .label

end Rule

end LuaSyntax
