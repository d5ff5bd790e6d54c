import LuaSyntax.Rule.Match
/-!
# Choice

Speculation: alternatives, optional parts and lookahead.
-/

namespace LuaSyntax

/-- The failure of a choice: what any of its alternatives expected, each listed once, and the cost
of the cheapest. -/
def Stuck.join (failures : List Stuck) : Stuck where
  expected := (failures.flatMap (·.expected)).eraseDups
  cost := (failures.map (·.cost)).min?.getD Rule.prohibitive

namespace Rule

variable {α : Type}

/-- Tries the rules in order, each from the same state, until one succeeds. Otherwise gives all
their failures, in order. -/
def firstOf : List (Rule α) → Context → State → EStateM.Result (List Stuck) State α
  | [], _, s => .error [] s
  | rule :: rules, c, s =>
    match rule c s with
    | .ok a s' => .ok a s'
    | .error failure s' =>
      match firstOf rules c (s'.rewind s) with
      | .ok a s'' => .ok a s''
      | .error failures s'' => .error (failure :: failures) s''

/-- The alternative whose failure costs least, the earliest of several. -/
def cheapest? (rules : List (Rule α)) (failures : List Stuck) : Option (Rule α) :=
  ((rules.zip failures).find? fun (_, f) => f.cost == (Stuck.join failures).cost).map (·.1)

/-- Runs `rule` with a hint, unless there is one already. -/
def hinted (expected : List Expected) (rule : Rule α) : Rule α := fun c s =>
  if s.hint.isSome then rule c s
  else match rule c { s with hint := some expected } with
    | .ok a s' => .ok a { s' with hint := none }
    | .error failure s' => .error failure { s' with hint := none }

/-- Runs the first rule that succeeds. If all are stuck and the choice is committed, the one that is
cheapest to repair runs again, committed, and what all of them expected goes into its diagnostic. -/
def alt (rules : List (Rule α)) : Rule α := fun c s =>
  match firstOf rules (c.speculating s) s with
  | .ok a s' => .ok a s'
  | .error failures s' =>
    match cheapest? rules failures with
    | some rule =>
      if c.isCommitted s then hinted (Stuck.join failures).expected rule c s'
      else .error (Stuck.join failures) s'
    | none => .error (Stuck.join failures) s'

/-- Runs `rule` speculatively. It is stuck exactly if there is no value. -/
def optional (rule : Rule α) : Rule (Option α) := fun c s =>
  match rule (c.speculating s) s with
  | .ok a s' => .ok (some a) s'
  | .error _ s' => .ok none (s'.rewind s)

/-- Runs `rule` as lookahead when not committed: it repairs nothing, and if it is stuck anywhere it
leaves no trace. -/
def attempt (rule : Rule α) : Rule α := fun c s =>
  if c.isCommitted s then rule c s
  else match rule { c with mode := .strict } s with
    | .ok a s' => .ok a s'
    | .error failure s' => .error failure (s'.rewind s)

end Rule

end LuaSyntax
