import LuaSyntax.Rule.Skip
/-!
# Running a rule

A rule is run over a whole stream: it starts committed, and after it the input must end.
-/

namespace LuaSyntax.Rule

variable {α : Type}

def start (stream : TokenStream) (limit : Nat) : Context := ⟨stream, .committed, limit⟩

def initial : State := ⟨0, [], none⟩

/-- The diagnostic for a rule that could not give anything at all. -/
def failure (c : Context) (why : Stuck) (s : State) : Diagnostic where
  span := .point (c.pos s)
  cause := .unexpected ((c.next? s).map (·.node)) why.expected
  repair := .unrepaired

/-- Runs `rule` over the stream and gives its value and the diagnostics in the order they were
recorded. If the rule is stuck, `fallback` is the value. -/
def run (rule : Rule α) (stream : TokenStream) (limit : Nat) (fallback : α) :
    α × List Diagnostic :=
  let c := start stream limit
  let (a, s) := match rule c initial with
    | .ok a s => (a, s)
    | .error why s => (fallback, s.record (failure c why s))
  match endOfInput c s with
  | .ok _ s => (a, s.diags.reverse)
  | .error _ s => (a, s.diags.reverse)

end LuaSyntax.Rule
