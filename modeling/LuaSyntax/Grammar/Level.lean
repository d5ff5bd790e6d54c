import LuaSyntax.Rule.Loop
import LuaSyntax.Rule.Skip
import LuaSyntax.Tree.Build
/-!
# Nesting levels

Each expression and each block that stands inside another one nests one level deeper. The other
rules of the grammar do not refer to themselves: they are functions of the two rules one level down.
-/

namespace LuaSyntax.Grammar

open Rule

/-- The rules for what nests one level deeper. -/
structure Level where
  expr : Rule (Located Expr)
  block : Rule Block

/-- An expression past the limit: its tokens are passed over, and `nil` stands for it. -/
def cutOffExpr : Rule (Located Expr) := do
  match ← skipLevel true with
  | some span => return Expr.nilAt span
  | none =>
    let nilToken : Token := .keyword .nil_
    if ← committed then
      let span := Span.point (← pos)
      record ⟨span, .tooDeep (← read).limit, .inserted nilToken nilToken.insertionCost⟩
      return Expr.nilAt span
    else stuck [.named "expression"] nilToken.insertionCost

/-- A block past the limit: its tokens are passed over, and it is left empty. -/
def cutOffBlock : Rule Block := do
  let _ ← skipLevel false
  return .empty

end LuaSyntax.Grammar
