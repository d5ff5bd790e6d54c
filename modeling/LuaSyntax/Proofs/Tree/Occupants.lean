import LuaSyntax.Token.Stream
import LuaSyntax.Tree.Build
/-!
# What stands on the nesting levels of a tree

All blocks and expressions in a tree, at any depth, each with its level as a parser counts them. A
block or an expression that stands inside another construct is one level below the innermost block
or such expression around it. The operands of an operator stay on the level of the operator, and so
do the head and the suffixes of an access.
-/

namespace LuaSyntax

/-- What stands on a nesting level. A step of a numeric `for` is told from other expressions, since
it may have been left out. -/
inductive Occupant where
  | block (block : Block)
  | expr (expr : Expr)
  | step (step : Located Expr)

mutual

/-- A block on level `n`, and everything inside it. -/
def Block.occupants : Block → Nat → List (Nat × Occupant)
  | ⟨ss, r⟩, n => (n, .block ⟨ss, r⟩) :: (occupantsOfStmts ss n ++ occupantsOfReturn? r n)

def occupantsOfStmts : List (Located Stmt) → Nat → List (Nat × Occupant)
  | [], _ => []
  | s :: ss, n => s.node.contents n ++ occupantsOfStmts ss n

def occupantsOfReturn? : Option (Located Return) → Nat → List (Nat × Occupant)
  | none, _ => []
  | some r, n => r.node.contents n

def Return.contents : Return → Nat → List (Nat × Occupant)
  | ⟨es⟩, n => occupantsOfExprs es (n + 1)

/-- Expressions on level `n`, and everything inside them. -/
def occupantsOfExprs : List (Located Expr) → Nat → List (Nat × Occupant)
  | [], _ => []
  | e :: es, n => (n, .expr e.node) :: e.node.contents n ++ occupantsOfExprs es n

/-- What is inside a statement of a block on level `n`. -/
def Stmt.contents : Stmt → Nat → List (Nat × Occupant)
  | .label _, _ | .breakLoop, _ | .continueLoop, _ | .goto _, _ => []
  | .block body, n => body.occupants (n + 1)
  | .whileLoop cond body, n =>
    (n + 1, .expr cond.node) :: cond.node.contents (n + 1) ++ body.occupants (n + 1)
  | .repeatLoop body cond, n =>
    body.occupants (n + 1) ++ (n + 1, .expr cond.node) :: cond.node.contents (n + 1)
  | .numericFor _ start stop step body, n =>
    (n + 1, .expr start.node) :: start.node.contents (n + 1) ++
      (n + 1, .expr stop.node) :: stop.node.contents (n + 1) ++
      (n + 1, .step step) :: step.node.contents (n + 1) ++ body.occupants (n + 1)
  | .genericFor _ exprs body, n => occupantsOfExprs exprs (n + 1) ++ body.occupants (n + 1)
  | .conditional clauses otherwise, n => occupantsOfClauses clauses n ++ occupantsOfElse otherwise n
  | .function _ body, n => body.contents n
  | .localFunction _ body, n => body.contents n
  | .localDecl _ exprs, n => occupantsOfExprs exprs (n + 1)
  | .call p, n => p.contents n
  | .assign targets exprs, n => occupantsOfTargets targets n ++ occupantsOfExprs exprs (n + 1)

def occupantsOfClauses : List IfClause → Nat → List (Nat × Occupant)
  | [], _ => []
  | clause :: clauses, n => clause.contents n ++ occupantsOfClauses clauses n

def IfClause.contents : IfClause → Nat → List (Nat × Occupant)
  | ⟨cond, body⟩, n =>
    (n + 1, .expr cond.node) :: cond.node.contents (n + 1) ++ body.occupants (n + 1)

def occupantsOfElse : Option Block → Nat → List (Nat × Occupant)
  | none, _ => []
  | some body, n => body.occupants (n + 1)

def occupantsOfTargets : List (Located PrefixExp) → Nat → List (Nat × Occupant)
  | [], _ => []
  | t :: ts, n => t.node.contents n ++ occupantsOfTargets ts n

def FuncBody.contents : FuncBody → Nat → List (Nat × Occupant)
  | ⟨_, _, body⟩, n => body.occupants (n + 1)

/-- What is inside an expression on level `n`, its operands included. -/
def Expr.contents : Expr → Nat → List (Nat × Occupant)
  | .nil, _ | .boolean _, _ | .number _, _ | .str _, _ | .vararg, _ => []
  | .function body, n => body.contents n
  | .binary _ lhs rhs, n =>
    (n, .expr lhs.node) :: lhs.node.contents n ++ (n, .expr rhs.node) :: rhs.node.contents n
  | .unary _ operand, n => (n, .expr operand.node) :: operand.node.contents n
  | .table fields, n => occupantsOfFields fields n
  | .access p, n => p.contents n

def PrefixExp.contents : PrefixExp → Nat → List (Nat × Occupant)
  | ⟨head, suffixes⟩, n => head.node.contents n ++ occupantsOfSuffixes suffixes n

def Head.contents : Head → Nat → List (Nat × Occupant)
  | .name _, _ => []
  | .paren e, n => (n + 1, .expr e.node) :: e.node.contents (n + 1)

def occupantsOfSuffixes : List (Located Suffix) → Nat → List (Nat × Occupant)
  | [], _ => []
  | s :: ss, n => s.node.contents n ++ occupantsOfSuffixes ss n

def Suffix.contents : Suffix → Nat → List (Nat × Occupant)
  | .call args, n => args.contents n
  | .method _ args, n => args.contents n
  | .index e, n => (n + 1, .expr e.node) :: e.node.contents (n + 1)
  | .field _, _ => []

def Args.contents : Args → Nat → List (Nat × Occupant)
  | .list exprs, n => occupantsOfExprs exprs (n + 1)
  | .table fields, n => occupantsOfFields fields n
  | .str _, _ => []

def occupantsOfFields : List (Located Field) → Nat → List (Nat × Occupant)
  | [], _ => []
  | f :: fs, n => f.node.contents n ++ occupantsOfFields fs n

def Field.contents : Field → Nat → List (Nat × Occupant)
  | .keyed key value, n =>
    (n + 1, .expr key.node) :: key.node.contents (n + 1) ++
      (n + 1, .expr value.node) :: value.node.contents (n + 1)
  | .named _ value, n => (n + 1, .expr value.node) :: value.node.contents (n + 1)
  | .positional value, n => (n + 1, .expr value.node) :: value.node.contents (n + 1)

end

/-! ### Trees within a limit -/

/-- What is left on a level past the limit: an empty block, `nil` for an expression, or the step `1`
of a `for` without one, which stands where the word `for` does. -/
def Occupant.IsStub (stream : TokenStream) : Occupant → Prop
  | block b => b = .empty
  | expr e => e = .nil
  | step e => e.node = .nil ∨
    e.node = .number "1" ∧ ∃ i, stream.get? i = some ⟨.keyword .for_, e.span⟩

/-- Nothing stands past level `last`, and only stubs stand on it. -/
def Bounded (stream : TokenStream) (last : Nat) (occupants : List (Nat × Occupant)) : Prop :=
  ∀ x ∈ occupants, x.1 ≤ last ∧ (x.1 = last → x.2.IsStub stream)

section

variable {stream : TokenStream} {last n : Nat} {x : Occupant} {xs ys : List (Nat × Occupant)}

@[simp] theorem bounded_nil : Bounded stream last [] := nofun

@[simp] theorem bounded_append :
    Bounded stream last (xs ++ ys) ↔ Bounded stream last xs ∧ Bounded stream last ys :=
  List.forall_mem_append

@[simp] theorem bounded_cons :
    Bounded stream last ((n, x) :: xs) ↔
      (n ≤ last ∧ (n = last → x.IsStub stream)) ∧ Bounded stream last xs :=
  List.forall_mem_cons

/-- Before the last level anything may stand. -/
theorem bounded_cons_of_lt (hn : n < last) (h : Bounded stream last xs) :
    Bounded stream last ((n, x) :: xs) :=
  bounded_cons.2 ⟨⟨Nat.le_of_lt hn, fun heq => absurd heq (Nat.ne_of_lt hn)⟩, h⟩

theorem bounded_nilExpr (hn : n ≤ last) : Bounded stream last [(n, .expr .nil)] :=
  bounded_cons.2 ⟨⟨hn, fun _ => rfl⟩, bounded_nil⟩

theorem bounded_empty (hn : n ≤ last) : Bounded stream last (Block.empty.occupants n) :=
  bounded_cons.2 ⟨⟨hn, fun _ => rfl⟩, bounded_nil⟩

/-! ### Lists of parts -/

theorem bounded_of_equations {α : Type} {f : List α → List (Nat × Occupant)}
    {g : α → List (Nat × Occupant)} {as : List α} (hnil : f [] = [])
    (hcons : ∀ a as, f (a :: as) = g a ++ f as) :
    Bounded stream last (f as) ↔ ∀ a ∈ as, Bounded stream last (g a) := by
  induction as with
  | nil => simp [hnil]
  | cons a as ih => rw [hcons, bounded_append, ih, List.forall_mem_cons]

theorem bounded_exprs {es : List (Located Expr)} :
    Bounded stream last (occupantsOfExprs es n) ↔
      ∀ e ∈ es, Bounded stream last ((n, .expr e.node) :: e.node.contents n) :=
  bounded_of_equations (f := (occupantsOfExprs · n)) rfl fun _ _ => rfl

theorem bounded_stmts {ss : List (Located Stmt)} :
    Bounded stream last (occupantsOfStmts ss n) ↔
      ∀ s ∈ ss, Bounded stream last (s.node.contents n) :=
  bounded_of_equations (f := (occupantsOfStmts · n)) rfl fun _ _ => rfl

theorem bounded_clauses {cs : List IfClause} :
    Bounded stream last (occupantsOfClauses cs n) ↔
      ∀ c ∈ cs, Bounded stream last (c.contents n) :=
  bounded_of_equations (f := (occupantsOfClauses · n)) rfl fun _ _ => rfl

theorem bounded_targets {ts : List (Located PrefixExp)} :
    Bounded stream last (occupantsOfTargets ts n) ↔
      ∀ t ∈ ts, Bounded stream last (t.node.contents n) :=
  bounded_of_equations (f := (occupantsOfTargets · n)) rfl fun _ _ => rfl

theorem bounded_suffixes {ss : List (Located Suffix)} :
    Bounded stream last (occupantsOfSuffixes ss n) ↔
      ∀ s ∈ ss, Bounded stream last (s.node.contents n) :=
  bounded_of_equations (f := (occupantsOfSuffixes · n)) rfl fun _ _ => rfl

theorem bounded_fields {fs : List (Located Field)} :
    Bounded stream last (occupantsOfFields fs n) ↔
      ∀ f ∈ fs, Bounded stream last (f.node.contents n) :=
  bounded_of_equations (f := (occupantsOfFields · n)) rfl fun _ _ => rfl

theorem bounded_padWithNil {count : Nat} {span : Span} {es : List (Located Expr)} (hn : n ≤ last)
    (h : Bounded stream last (occupantsOfExprs es n)) :
    Bounded stream last (occupantsOfExprs (Expr.padWithNil count span es) n) := by
  rw [bounded_exprs, Expr.padWithNil, List.forall_mem_append]
  refine ⟨bounded_exprs.1 h, fun e he => ?_⟩
  rw [(List.mem_replicate.1 he).2]
  exact bounded_nilExpr hn

end

end LuaSyntax
