import LuaSyntax.Rule.Choice
/-!
# Loops

Every loop of the grammar is `collect`. It goes on only as long as each round consumes a token, so
it ends on every input.
-/

namespace LuaSyntax.Rule

variable {α β : Type}

/-- Runs `step` again and again and collects what it finds. A step that finds nothing ends the loop,
and so does one that says it is the last. -/
def collect (step : Rule (Option (α × Bool))) (c : Context) (s : State) :
    EStateM.Result Stuck State (List α) :=
  match step c s with
  | .error failure s' => .error failure s'
  | .ok none s' => .ok [] s'
  | .ok (some (a, false)) s' => .ok [a] s'
  | .ok (some (a, true)) s' =>
    if c.remaining s' < c.remaining s then
      match collect step c s' with
      | .error failure s'' => .error failure s''
      | .ok as s'' => .ok (a :: as) s''
    else .ok [] s'
termination_by c.remaining s

/-- Runs `rule` for as long as it succeeds and consumes a token. -/
def many (rule : Rule α) : Rule (List α) :=
  collect do return (← optional rule).map (·, true)

/-- One or more `item`s with `separator`s between them. -/
def sepBy1 (item : Rule α) (separator : Rule β) : Rule (List α) := do
  let first ← item
  return first :: (← many do let _ ← separator; item)

end LuaSyntax.Rule
