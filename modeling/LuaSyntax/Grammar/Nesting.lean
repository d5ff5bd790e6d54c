import LuaSyntax.Grammar.Stmt
/-!
# The nested grammar

The rules of the grammar, tied together level by level from the limit upwards.
-/

namespace LuaSyntax.Grammar

/-- The rules for an expression and a block with room for `depth` levels of nesting, themselves
included. -/
def nested : Nat → Level
  | 0 => ⟨cutOffExpr, cutOffBlock⟩
  | depth + 1 =>
    { expr := fun c s => orExpr (nested depth) c s
      block := fun c s => stmts (nested depth) c s }

@[simp] theorem nested_zero_expr : (nested 0).expr = cutOffExpr := rfl

@[simp] theorem nested_zero_block : (nested 0).block = cutOffBlock := rfl

@[simp] theorem nested_succ_expr (depth : Nat) :
    (nested (depth + 1)).expr = orExpr (nested depth) := rfl

@[simp] theorem nested_succ_block (depth : Nat) :
    (nested (depth + 1)).block = stmts (nested depth) := rfl

end LuaSyntax.Grammar
