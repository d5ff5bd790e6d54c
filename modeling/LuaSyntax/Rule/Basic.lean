import LuaSyntax.Diagnostic.Basic
import LuaSyntax.Token.Role
import LuaSyntax.Token.Stream
/-!
# Rules

A rule reads part of a token stream. It runs either *committed* or *speculatively*. A committed rule
gives a value: where a token is missing it puts one in, records a diagnostic and carries on. A
speculative rule that fails before consuming anything is `Stuck` instead and leaves no trace, so
that something else can be tried. It becomes committed as soon as it consumes a token.
-/

namespace LuaSyntax

/-- What becomes of a failure. -/
inductive Mode where
  /-- It is repaired. -/
  | committed
  /-- It is reported while the cursor is still at `start`, and repaired after that. -/
  | since (start : Nat)
  /-- It is always reported. -/
  | strict
deriving DecidableEq, Repr

/-- What a rule runs in and cannot change. -/
structure Context where
  stream : TokenStream
  mode : Mode
  /-- How many expressions and blocks may nest, as reported where they nest deeper. -/
  limit : Nat

/-- What a rule changes. -/
structure State where
  cursor : Nat
  /-- The diagnostics so far, the newest first. -/
  diags : List Diagnostic
  /-- Everything that an exhausted choice expected, for the matcher that makes the repair. -/
  hint : Option (List Expected)
deriving DecidableEq, Repr

/-- Why a rule could not go on: what it needed to see next, and what it would cost to insert it. -/
structure Stuck where
  expected : List Expected
  cost : Nat
deriving DecidableEq, Repr

abbrev Rule (α : Type) := ReaderT Context (EStateM Stuck State) α

namespace Context

def isCommitted (c : Context) (s : State) : Bool :=
  match c.mode with
  | .committed => true
  | .since start => start != s.cursor
  | .strict => false

/-- The context of a speculation that starts in state `s`. -/
def speculating (c : Context) (s : State) : Context :=
  match c.mode with
  | .strict => c
  | _ => { c with mode := .since s.cursor }

/-- The next token. -/
def next? (c : Context) (s : State) : Option (Located Token) :=
  c.stream.get? s.cursor

/-- How many tokens are left. -/
def remaining (c : Context) (s : State) : Nat :=
  c.stream.size - s.cursor

def pos (c : Context) (s : State) : Pos :=
  c.stream.pos s.cursor

end Context

namespace State

/-- Goes back to where `start` was, and forgets the diagnostics recorded since. -/
def rewind (s start : State) : State :=
  { start with hint := s.hint }

def record (s : State) (d : Diagnostic) : State :=
  { s with diags := d :: s.diags }

def advance (s : State) (count : Nat) : State :=
  { s with cursor := s.cursor + count }

@[simp] theorem rewind_cursor (s start : State) : (s.rewind start).cursor = start.cursor := rfl

@[simp] theorem rewind_diags (s start : State) : (s.rewind start).diags = start.diags := rfl

@[simp] theorem rewind_hint (s start : State) : (s.rewind start).hint = s.hint := rfl

end State

namespace Rule

variable {α β : Type}

@[simp] theorem pure_apply (a : α) (c : Context) (s : State) : (pure a : Rule α) c s = .ok a s :=
  rfl

theorem bind_apply (rule : Rule α) (f : α → Rule β) (c : Context) (s : State) :
    (rule >>= f) c s = match rule c s with
      | .ok a s' => f a c s'
      | .error failure s' => .error failure s' := by
  change EStateM.bind (rule c) (f · c) s = _
  unfold EStateM.bind
  cases rule c s <;> rfl

theorem map_apply (f : α → β) (rule : Rule α) (c : Context) (s : State) :
    (f <$> rule) c s = match rule c s with
      | .ok a s' => .ok (f a) s'
      | .error failure s' => .error failure s' := by
  change EStateM.map f (rule c) s = _
  unfold EStateM.map
  cases rule c s <;> rfl

def committed : Rule Bool := fun c s => .ok (c.isCommitted s) s

def peek : Rule (Option Token) := fun c s => .ok ((c.next? s).map (·.node)) s

def atEnd : Rule Bool := fun c s => .ok (c.next? s).isNone s

/-- Where the next token starts. -/
def pos : Rule Pos := fun c s => .ok (c.pos s) s

def cursor : Rule Nat := fun _ s => .ok s.cursor s

/-- The span of everything consumed since the cursor was at `start`. -/
def spanFrom (start : Nat) : Rule Span := fun c s => .ok (c.stream.spanBetween start s.cursor) s

def record (d : Diagnostic) : Rule Unit := fun _ s => .ok () (s.record d)

/-- The state, to go back to. -/
def mark : Rule State := fun _ s => .ok s s

def reset (start : State) : Rule Unit := fun _ s => .ok () (s.rewind start)

def stuck (expected : List Expected) (cost : Nat) : Rule α := fun _ s => .error ⟨expected, cost⟩ s

/-- Runs `rule` and pairs its value with the span of everything it consumed. -/
def located (rule : Rule α) : Rule (Located α) := do
  let start ← cursor
  let node ← rule
  return ⟨node, ← spanFrom start⟩

end Rule

end LuaSyntax
