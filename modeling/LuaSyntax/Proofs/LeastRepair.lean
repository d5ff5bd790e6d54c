import LuaSyntax.Proofs.Grammar.StmtRepair
import LuaSyntax.Proofs.Grammar.Stepwise
/-!
# Repairs of a parse

Where a token was put in, the diagnostic lists what was expected: the token is one of it, and none
of it costs less. What it shows as found is the first token that was not consumed yet.
-/

namespace LuaSyntax

open Rule Grammar

/-- Wherever one of the steps puts in a token for one that was missing, it is the cheapest, and the
diagnostic shows the token after all those that the steps before it have consumed. Only at the end
of the input there is none to show. -/
def LeastRepairs (stream : TokenStream) (steps : List Step) : Prop :=
  ∀ before d after, steps = before ++ .record d :: after → ∀ found expected token cost,
    d.cause = .unexpected found expected → d.repair = .inserted token cost →
      Cheapest expected token cost ∧
        found = (stream.get? (consumed before)).map (·.node) ∧
        d.span = ((stream.get? (consumed before)).map (·.span)).getD
          (.point (stream.pos (consumed before))) ∧
        (found = none ↔ consumed before = stream.size)

/-- The value and the diagnostics are those of one run of the rule over the whole stream, and all
the repairs among its steps are the cheapest. -/
def RepairedLeast {α : Type} (rule : Rule α) (stream : TokenStream) (limit : Nat)
    (result : α × List Diagnostic) : Prop :=
  ∃ steps s, Takes rule.whole (start stream limit) initial steps result.1 s ∧
    recorded steps = result.2 ∧ LeastRepairs stream steps

section

variable {α : Type} {rule : Rule α} {stream : TokenStream} {limit : Nat} {s t : State}
  {steps : List Step}

/-- Where nothing is left, the next token is missing. -/
theorem get?_eq_none_iff {i : Nat} (h : i ≤ stream.size) :
    stream.get? i = none ↔ i = stream.size := by
  constructor
  · intro hnone
    by_contra hne
    obtain ⟨t, ht⟩ := TokenStream.exists_get? (Nat.lt_of_le_of_ne h hne)
    cases hnone.symm.trans ht
  · intro heq
    rw [heq, TokenStream.get?_size]

/-- The steps before a repair lead to the token that it shows. -/
theorem Rule.Takes.leastRepairs {a : α} (h : rule.Takes (start stream limit) initial steps a s)
    (hsize : s.cursor ≤ stream.size) (hsensible : ∀ d ∈ recorded steps, d.Sensible) :
    LeastRepairs stream steps := by
  intro before d after hsteps found expected token cost hcause hrepair
  have hmem : d ∈ recorded steps := by
    apply mem_recorded.2
    rw [hsteps]
    exact List.mem_append_right _ List.mem_cons_self
  have haccounted : Accounted stream (0 + consumed before) (.record d :: after) := by
    have hall : Accounted stream 0 (before ++ .record d :: after) := hsteps ▸ h.accounted
    exact (accounted_append.1 hall).2
  have hsupplies : d.supplies = true := by
    unfold Diagnostic.supplies
    rw [hcause, hrepair]
  have hle : consumed before ≤ stream.size := by
    have hcursor : s.cursor = 0 + consumed steps := h.progress.1
    rw [hsteps, consumed_append] at hcursor
    omega
  rw [Nat.zero_add] at haccounted
  obtain ⟨hfound, hspan⟩ := haccounted.1 hsupplies
  refine ⟨(hsensible d hmem).cheapest hcause hrepair, hfound hcause, hspan, ?_⟩
  rw [hfound hcause, Option.map_eq_none_iff, get?_eq_none_iff hle]

theorem leads_endOfInput {c : Context} (hs : c.Proper s) (hhint : s.hint = none)
    (hok : endOfInput c s = .ok () t) : s.Leads t := by
  unfold endOfInput at hok
  split at hok
  · cases hok
    exact .refl hhint
  · split at hok
    · exact (steady_skipTokens _ _).leads hs hhint hok
    · cases hok

theorem Rule.Steady.whole (h : Steady rule) : Steady rule.whole :=
  h.bind fun _ => Steady.bind ⟨orderly_endOfInput, leads_endOfInput⟩ fun _ => .pure _

/-- What a rule records over a whole stream is sensible. -/
theorem Rule.Steady.sensible_run (h : Steady rule) (stream : TokenStream) (limit : Nat)
    (fallback : α) : ∀ d ∈ (rule.run stream limit fallback).2, d.Sensible := by
  have hs := proper_start stream limit
  cases hrule : rule (start stream limit) initial with
  | error why s => cases h.completes hs hrule
  | ok a s =>
    have hproper := (h.onward hs hrule).proper hs
    obtain ⟨t, hend, -⟩ := endOfInput_spec lenient hproper rfl
    have hleads := h.leads hs rfl hrule
    obtain ⟨-, ds, hdiags, hds⟩ := hleads.trans (leads_endOfInput hproper hleads.hint hend)
    have hrun : (rule.run stream limit fallback).2 = ds.reverse := by
      simp only [Rule.run, hrule, hend, hdiags]
      simp [initial]
    rw [hrun]
    intro d hd
    exact hds d (List.mem_reverse.1 hd)

theorem Rule.Steady.repairedLeast (h : Steady rule) (hstepwise : Stepwise rule)
    (stream : TokenStream) (limit : Nat) (fallback : α) :
    RepairedLeast rule stream limit (rule.run stream limit fallback) := by
  obtain ⟨steps, s, hsteps, hrecorded⟩ := hstepwise.run h.toOrderly stream limit fallback
  refine ⟨steps, s, hsteps, hrecorded, hsteps.leastRepairs ?_ ?_⟩
  · exact (h.whole.onward (proper_start stream limit) hsteps.gives).le_size
  · rw [hrecorded]
    exact h.sensible_run stream limit fallback

end

theorem repairedLeast_chunk (stream : TokenStream) (depth limit : Nat) :
    RepairedLeast (chunk (nested depth)) stream limit
      ((chunk (nested depth)).run stream limit .empty) :=
  (steady_chunk (steady_nested depth)).repairedLeast
    (scheme_chunk.stepwise (sound_lenient depth) (stepwise_nested depth)) stream limit .empty

/-- Every repair by insertion is the cheapest there is, whatever is parsed, and shows the first
token that was not consumed then. Under a limit on the tokens, nothing may be parsed at all. -/
theorem repairs_least (tokens : List (Located Token)) :
    (∀ stop config, (∃ d, (parseTokens tokens stop config).2 = [d] ∧ d.repair = .unrepaired) ∨
      RepairedLeast (chunk (nested config.maxDepth)) ⟨(withoutComments tokens).toArray, stop⟩
        config.maxDepth
        ((parseTokens tokens stop config).1.block, (parseTokens tokens stop config).2)) ∧
      RepairedLeast (chunk (nested defaultMaxDepth))
        ⟨(withoutComments tokens).toArray, TokenStream.endOfLast tokens⟩ defaultMaxDepth
        ((parse tokens).1.block, (parse tokens).2) ∧
      RepairedLeast (nested defaultMaxDepth).expr (.ofTokens (withoutComments tokens))
        defaultMaxDepth (parseExpr tokens) ∧
      RepairedLeast (stmt (nested defaultMaxDepth)) (.ofTokens (withoutComments tokens))
        defaultMaxDepth (parseStmt tokens) ∧
      RepairedLeast (nested defaultMaxDepth).block (.ofTokens (withoutComments tokens))
        defaultMaxDepth (parseBlock tokens) := by
  have hsound := sound_lenient defaultMaxDepth
  have hsteady := steady_nested defaultMaxDepth
  have hstepwise := stepwise_nested defaultMaxDepth
  have hstmt := (thrifty_stmt hsound hsteady).steady
  refine ⟨?_, repairedLeast_chunk _ _ _, hsteady.expr.repairedLeast hstepwise.expr _ _ _,
    hstmt.repairedLeast (scheme_stmt.stepwise hsound hstepwise) _ _ _,
    hsteady.block.repairedLeast hstepwise.block _ _ _⟩
  intro stop config
  unfold parseTokens
  dsimp only
  split
  · exact .inl ⟨_, rfl, rfl⟩
  · exact .inr (repairedLeast_chunk _ _ _)

end LuaSyntax
