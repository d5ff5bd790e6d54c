import LuaSyntax.Proofs.Grammar.Commit
import LuaSyntax.Proofs.Grammar.StmtOrigin
/-!
# Well-formed trees

Whatever tokens are parsed, every statement of the tree, at any depth, is well-formed, and the
values of its assignments and declarations are those that were read after the `=`, filled up with
`nil`. This is so for repaired trees, too.
-/

namespace LuaSyntax

namespace Rule

variable {α : Type} {rule : Rule α} {a : α} {s : State} {limit : Nat}

/-- What follows the rule only adds diagnostics. -/
theorem run_of_ok {stream : TokenStream} (fallback : α)
    (h : rule (start stream limit) initial = .ok a s) :
    (rule.run stream limit fallback).1 = a ∧
      s.diags.reverse <+: (rule.run stream limit fallback).2 := by
  have hend : ∃ t, endOfInput (start stream limit) s = .ok () t ∧ s.diags <:+ t.diags := by
    unfold endOfInput
    split
    · exact ⟨s, rfl, List.suffix_rfl⟩
    · obtain ⟨t, hskip⟩ : ∃ t, skipTokens ((start stream limit).remaining s) [.named "end of input"]
          (start stream limit) s = .ok () t := by
        unfold skipTokens
        dsimp only
        split <;> exact ⟨_, rfl⟩
      exact ⟨t, hskip, grows_skipTokens _ _ _ _ _ _ hskip⟩
  obtain ⟨t, hend, hdiags⟩ := hend
  simp only [run, h, hend]
  exact ⟨trivial, List.reverse_prefix.2 hdiags⟩

end Rule

open Rule Grammar

/-- The statements came about in the run over the stream that recorded `ds`: each of them is formed
between two points of it, with a first part of `ds` recorded by then. -/
def Established (stream : TokenStream) (limit : Nat) (statements : List (Located Stmt))
    (ds : List Diagnostic) : Prop :=
  ∀ s ∈ statements, ∃ p q, FormedAt (start stream limit) p s q ∧ q.diags.reverse <+: ds

theorem established_run {α : Type} {rule : Rule α} {law : Law} {P : Yield → α → Prop}
    {f : α → List (Located Stmt)} {stream : TokenStream} {limit : Nat}
    (hcompletes : Completes law rule P)
    (haccounts : Accounts (start stream limit) (FormedAt (start stream limit)) [] rule f)
    (fallback : α) :
    Established stream limit (f (rule.run stream limit fallback).1)
      (rule.run stream limit fallback).2 := by
  obtain ⟨a, s, hok, -⟩ := hcompletes _ initial (proper_start stream limit) rfl
  obtain ⟨hvalue, hprefix⟩ := run_of_ok fallback hok
  have hgives : Gives (start stream limit) rule initial.progress a s.progress :=
    ⟨_, initial, s, ⟨rfl, rfl⟩, rfl, hok, rfl⟩
  rw [hvalue]
  intro x hx
  obtain ⟨p, q, hformed, hq⟩ := ((haccounts _ _ _ hgives).2 x hx).resolve_left List.not_mem_nil
  exact ⟨p, q, hformed, (List.reverse_prefix.2 hq).trans hprefix⟩

theorem established_expr (stream : TokenStream) (depth : Nat) (fallback : Located Expr) :
    Established stream depth ((nested depth).expr.run stream depth fallback).1.node.statements
      ((nested depth).expr.run stream depth fallback).2 :=
  established_run (sound_lenient depth).expr.completes ((accounted_nested (Nat.le_refl _)).expr [])
    fallback

theorem established_stmt (stream : TokenStream) (depth : Nat) (fallback : Located Stmt) :
    let result := (stmt (nested depth)).run stream depth fallback
    Established stream depth (result.1 :: result.1.node.statements) result.2 := by
  refine established_run (f := fun s => s :: s.node.statements)
    (opens_stmt (sound_lenient depth) trivial).completes ?_ fallback
  refine accounts_stmt (accounted_nested (Nat.le_refl _)) fun p s q hgives => ?_
  obtain ⟨hspan, hformed⟩ := formed_of_stmt hgives
  exact ⟨hspan, depth, Nat.le_refl _, hformed⟩

theorem established_block (stream : TokenStream) (depth : Nat) (fallback : Block) :
    Established stream depth ((nested depth).block.run stream depth fallback).1.statements
      ((nested depth).block.run stream depth fallback).2 :=
  established_run (sound_lenient depth).block.completes
    ((accounted_nested (Nat.le_refl _)).block []) fallback

theorem established_parseTokens (tokens : List (Located Token)) (stop : Pos)
    (config : ParseConfig) :
    Established ⟨(withoutComments tokens).toArray, stop⟩ config.maxDepth
      (parseTokens tokens stop config).1.block.statements (parseTokens tokens stop config).2 := by
  unfold parseTokens
  dsimp only
  split
  · intro s hs
    simp [Block.empty] at hs
  · exact established_run (always_chunk (sound_lenient _) (Language.appends_within _)).completes
      (accounts_chunk (accounted_nested (Nat.le_refl _))) _

/-- Every statement of a parsed tree, at any depth, is well-formed and is read where its span says,
with the values that were read for it. This is so for chunks under every configuration, and for
expressions, statements and blocks by themselves, however deep they may nest. -/
theorem parse_wellFormed (tokens : List (Located Token)) :
    let stream := TokenStream.ofTokens (withoutComments tokens)
    (∀ stop config, Established ⟨(withoutComments tokens).toArray, stop⟩ config.maxDepth
      (parseTokens tokens stop config).1.block.statements (parseTokens tokens stop config).2) ∧
    Established ⟨(withoutComments tokens).toArray, TokenStream.endOfLast tokens⟩ defaultMaxDepth
      (parse tokens).1.block.statements (parse tokens).2 ∧
    Established stream defaultMaxDepth (parseExpr tokens).1.node.statements (parseExpr tokens).2 ∧
    Established stream defaultMaxDepth
      ((parseStmt tokens).1 :: (parseStmt tokens).1.node.statements) (parseStmt tokens).2 ∧
    Established stream defaultMaxDepth (parseBlock tokens).1.statements (parseBlock tokens).2 ∧
    ∀ depth,
      let expr := (nested depth).expr.run stream depth ⟨.nil, default⟩
      let stmt := (stmt (nested depth)).run stream depth ⟨.block .empty, default⟩
      let block := (nested depth).block.run stream depth .empty
      Established stream depth expr.1.node.statements expr.2 ∧
      Established stream depth (stmt.1 :: stmt.1.node.statements) stmt.2 ∧
      Established stream depth block.1.statements block.2 := by
  intro stream
  exact ⟨established_parseTokens tokens, established_parseTokens tokens _ default,
    established_expr stream _ _, established_stmt stream _ _, established_block stream _ _,
    fun depth => ⟨established_expr stream depth _, established_stmt stream depth _,
      established_block stream depth _⟩⟩

end LuaSyntax
