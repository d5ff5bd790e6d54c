import LuaSyntax.Proofs.Grammar.StmtBounded
import LuaSyntax.Proofs.WellFormed
/-!
# The nesting limit bounds the tree

However deep a source nests, its tree ends one level past the limit, and on that level there are
stubs only.
-/

namespace LuaSyntax

open Rule Grammar

/-- A rule that always gives a value ensures the same of a whole run. -/
theorem Rule.Ensures.run {α : Type} {rule : Rule α} {P : α → Prop} {law : Law}
    {Q : Yield → α → Prop} {stream : TokenStream} {limit : Nat}
    (h : Ensures (start stream limit) rule P) (hcompletes : Completes law rule Q) (fallback : α) :
    P (rule.run stream limit fallback).1 := by
  obtain ⟨a, s, hok, -⟩ := hcompletes _ initial (proper_start stream limit) rfl
  rw [(run_of_ok fallback hok).1]
  exact h initial.progress a s.progress ⟨_, initial, s, ⟨rfl, rfl⟩, rfl, hok, rfl⟩

/-- The block of a chunk stands on level 1. No block and no expression in it, at any depth, stands
past the level after the limit; a block on that level is empty, an expression there is `nil`, and a
step of a numeric `for` is `nil` or the `1` that stands for a step left out. -/
theorem parseTokens_levels (tokens : List (Located Token)) (stop : Pos) (config : ParseConfig) :
    let stream : TokenStream := ⟨(withoutComments tokens).toArray, stop⟩
    ∀ placed ∈ (parseTokens tokens stop config).1.block.occupants 1,
      placed.1 ≤ config.maxDepth + 1 ∧
        (placed.1 = config.maxDepth + 1 → placed.2.IsStub stream) := by
  intro stream
  show Bounded stream (config.maxDepth + 1) _
  unfold parseTokens
  dsimp only
  split
  · exact bounded_empty (Nat.le_add_left 1 _)
  · have hdepth : 1 + config.maxDepth = config.maxDepth + 1 := Nat.add_comm 1 config.maxDepth
    have hcompletes := (always_chunk (sound_lenient config.maxDepth)
      (Language.appends_within _)).completes
    exact (bounded_chunk (ensures_nested hdepth).2).run hcompletes .empty

/-- A loop at the limit: its expressions are cut off, and its step is left out. -/
theorem parseTokens_levels_leftOutStep :
    let source := "for i = a, b do f() end"
    let tokens := (tokenize source .glua).1
    ∃ placed ∈ (parseTokens tokens (endOfSource source) ⟨.glua, none, 1⟩).1.block.occupants 1,
      placed.1 = 2 ∧ (∃ span, placed.2 = .step ⟨.number "1", span⟩) ∧
        placed.2.IsStub ⟨(withoutComments tokens).toArray, endOfSource source⟩ := by
  intro source tokens
  have hany : ((parseTokens tokens (endOfSource source) ⟨.glua, none, 1⟩).1.block.occupants 1).any
      (fun | (2, .step ⟨.number "1", _⟩) => true | _ => false) = true := by
    decide +kernel
  obtain ⟨placed, hplaced, hstep⟩ := List.any_eq_true.1 hany
  split at hstep
  · next span => exact ⟨_, hplaced, rfl, ⟨span, rfl⟩,
      (parseTokens_levels tokens (endOfSource source) ⟨.glua, none, 1⟩ _ hplaced).2 rfl⟩
  · cases hstep

end LuaSyntax
