import LuaSyntax.Tree.Build
/-!
# Operators

The tokens of each precedence level, from the loosest to the tightest, and the trees of operator
chains. Operators group to the left, except `..` and `^`, which group to the right; `^` binds
tighter than a unary operator on its left and looser than one on its right.
-/

namespace LuaSyntax.Operator

def orOps : List (Token × BinOp) :=
  [(.keyword .or_, .or), (.symbol .pipePipe, .or)]

def andOps : List (Token × BinOp) :=
  [(.keyword .and_, .and), (.symbol .ampAmp, .and)]

def compareOps : List (Token × BinOp) :=
  [(.symbol .less, .lt), (.symbol .greater, .gt), (.symbol .lessEqual, .le),
    (.symbol .greaterEqual, .ge), (.symbol .tildeEqual, .ne), (.symbol .bangEqual, .ne),
    (.symbol .equalEqual, .eq)]

def concatOps : List (Token × BinOp) :=
  [(.symbol .dotDot, .concat)]

def addOps : List (Token × BinOp) :=
  [(.symbol .plus, .add), (.symbol .minus, .sub)]

def mulOps : List (Token × BinOp) :=
  [(.symbol .star, .mul), (.symbol .slash, .div), (.symbol .percent, .mod)]

def powOps : List (Token × BinOp) :=
  [(.symbol .caret, .pow)]

def unaryOps : List (Token × UnOp) :=
  [(.symbol .minus, .neg), (.keyword .not_, .not), (.symbol .bang, .not), (.symbol .hash, .len)]

/-- An operand and what follows it, each with the operator in front of it. -/
abbrev Chain (α : Type) := α × List (Located BinOp × α)

/-- The tree of a chain that groups to the left. -/
def groupLeft : Chain (Located Expr) → Located Expr
  | (first, others) => others.foldl (fun lhs (op, rhs) => Expr.ofBinary op lhs rhs) first

/-- The tree of a chain that groups to the right. -/
def groupRight (first : Located Expr) : List (Located BinOp × Located Expr) → Located Expr
  | [] => first
  | (op, next) :: others => Expr.ofBinary op first (groupRight next others)

/-- An operand with the unary operators before it, the outermost first. -/
structure Signed where
  ops : List (Located UnOp)
  operand : Located Expr

namespace Signed

/-- The operators of `t` applied to `e`. -/
def apply (t : Signed) (e : Located Expr) : Located Expr :=
  t.ops.foldr Expr.ofUnary e

end Signed

/-- The tree of signed operands joined by `^`: the operators of each apply to its operand raised to
everything after it. -/
def groupPower (first : Signed) : List (Located BinOp × Signed) → Located Expr
  | [] => first.apply first.operand
  | (op, next) :: others => first.apply (Expr.ofBinary op first.operand (groupPower next others))

/-! ### Building a tree from its end

What groups to the right is known only once the last operand has been read. The operands and the
operators between them are therefore gathered first, and taken from the ends of their two lists.
-/

/-- Joins the operands before `rhs` to it, each by the operator after it, for as long as there are
both. In either list the nearest to `rhs` comes first. -/
def joinBack (rhs : Located Expr) : List (Located BinOp) → List (Located Expr) → Located Expr
  | op :: ops, lhs :: operands => joinBack (Expr.ofBinary op lhs rhs) ops operands
  | _, _ => rhs

/-- The tree of operands with operators between them. There is none without an operand. -/
def buildRight? (operands : List (Located Expr)) (ops : List (Located BinOp)) :
    Option (Located Expr) :=
  match operands.reverse with
  | [] => none
  | last :: before => some (joinBack last ops.reverse before)

/-- Raises the operands before `exponent` to it, each with its own unary operators around the power.
In either list the nearest to `exponent` comes first. -/
def raiseBack (exponent : Option (Located Expr)) :
    List Signed → List (Located BinOp) → Option (Located Expr)
  | [], _ => exponent
  | t :: before, ops =>
    match exponent, ops with
    | some e, op :: ops => raiseBack (some (t.apply (Expr.ofBinary op t.operand e))) before ops
    | _, ops => raiseBack (some (t.apply t.operand)) before ops

/-- The tree of signed operands with `^` between them. There is none without an operand. -/
def buildPower? (operands : List Signed) (ops : List (Located BinOp)) : Option (Located Expr) :=
  raiseBack none operands.reverse ops.reverse

theorem joinBack_append {operands : List (Located Expr)} {ops : List (Located BinOp)}
    (h : operands.length = ops.length) (rhs : Located Expr) (operands' : List (Located Expr))
    (ops' : List (Located BinOp)) :
    joinBack rhs (ops ++ ops') (operands ++ operands') =
      joinBack (joinBack rhs ops operands) ops' operands' := by
  induction ops generalizing operands rhs with
  | nil =>
    obtain rfl := List.length_eq_zero_iff.1 h
    rfl
  | cons op ops ih =>
    cases operands with
    | nil => cases h
    | cons lhs operands => exact ih (Nat.succ.inj h) (Expr.ofBinary op lhs rhs)

theorem raiseBack_append {operands : List Signed} {ops : List (Located BinOp)}
    (h : operands.length = ops.length) (e : Located Expr) :
    ∃ e', raiseBack (some e) operands ops = some e' ∧
      ∀ (operands' : List Signed) (ops' : List (Located BinOp)),
        raiseBack (some e) (operands ++ operands') (ops ++ ops') =
          raiseBack (some e') operands' ops' := by
  induction ops generalizing operands e with
  | nil =>
    obtain rfl := List.length_eq_zero_iff.1 h
    exact ⟨e, rfl, fun _ _ => rfl⟩
  | cons op ops ih =>
    cases operands with
    | nil => cases h
    | cons t operands => exact ih (Nat.succ.inj h) (t.apply (Expr.ofBinary op t.operand e))

/-- There are as many operands before the last one as operators. -/
theorem length_before {α β : Type} {operands before : List α} {last : α} {ops : List β}
    (hlast : operands.reverse = last :: before) (h : operands.length = ops.length + 1) :
    before.length = ops.reverse.length := by
  have hlength := congrArg List.length hlast
  simp only [List.length_reverse, List.length_cons] at hlength ⊢
  omega

/-- An operand more at the front is joined last, by the operator after it. -/
theorem buildRight?_cons {operands : List (Located Expr)} {ops : List (Located BinOp)}
    (h : operands.length = ops.length + 1) (first : Located Expr) (op : Located BinOp) :
    buildRight? (first :: operands) (op :: ops) =
      (buildRight? operands ops).map (Expr.ofBinary op first) := by
  unfold buildRight?
  rw [List.reverse_cons, List.reverse_cons]
  cases hlast : operands.reverse with
  | nil =>
    rw [List.reverse_eq_nil_iff.1 hlast] at h
    cases h
  | cons last before =>
    exact congrArg some (joinBack_append (length_before hlast h) last [first] [op])

/-- An operand more at the front is raised last, to all that follows it. -/
theorem buildPower?_cons {operands : List Signed} {ops : List (Located BinOp)}
    (h : operands.length = ops.length + 1) (first : Signed) (op : Located BinOp) :
    buildPower? (first :: operands) (op :: ops) =
      (buildPower? operands ops).map fun e => first.apply (Expr.ofBinary op first.operand e) := by
  unfold buildPower?
  rw [List.reverse_cons, List.reverse_cons]
  cases hlast : operands.reverse with
  | nil =>
    rw [List.reverse_eq_nil_iff.1 hlast] at h
    cases h
  | cons last before =>
    obtain ⟨e, he, happend⟩ := raiseBack_append (length_before hlast h) (last.apply last.operand)
    have hbuilt : raiseBack none (last :: before) ops.reverse = some e := he
    rw [hbuilt]
    exact happend [first] [op]

theorem buildRight?_chain (first : Located Expr) (others : List (Located BinOp × Located Expr)) :
    buildRight? (first :: others.map (·.2)) (others.map (·.1)) =
      some (groupRight first others) := by
  induction others generalizing first with
  | nil => rfl
  | cons other others ih =>
    rw [List.map_cons, List.map_cons, buildRight?_cons (by simp), ih]
    rfl

theorem buildPower?_chain (first : Signed) (others : List (Located BinOp × Signed)) :
    buildPower? (first :: others.map (·.2)) (others.map (·.1)) =
      some (groupPower first others) := by
  induction others generalizing first with
  | nil => rfl
  | cons other others ih =>
    rw [List.map_cons, List.map_cons, buildPower?_cons (by simp), ih]
    rfl

end LuaSyntax.Operator
