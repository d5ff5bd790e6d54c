import LuaSyntax.Proofs.LeastRepair
import LuaSyntax.Proofs.RoundTrip
/-!
# Notes on assignment targets

A target that cannot be assigned to is reported where it is read, and a speculation that fails takes
its reports back. What is left in the end is one note for each such target of the tree, in the order
in which the grammar comes past them.
-/

namespace LuaSyntax

open Rule Grammar

/-- The notes with one cause stand at the targets that have it. -/
theorem spans_targetNotes {cause : Cause} {p : PrefixExp → Bool}
    (h : ∀ t, targetCause? t = some cause ↔ p t = true) (ts : List (Located PrefixExp)) :
    ((targetNotes ts).filter (·.cause == cause)).map (·.span) =
      (ts.filter (p ·.node)).map (·.span) := by
  induction ts with
  | nil => rfl
  | cons t ts ih =>
    have hcons : targetNotes (t :: ts) = (targetNote? t).toList ++ targetNotes ts := by
      rw [targetNotes, List.filterMap_cons]
      cases targetNote? t <;> rfl
    rw [hcons, List.filter_append, List.map_append, ih, List.filter_cons]
    by_cases hp : p t.node = true
    · simp [targetNote?, (h t.node).2 hp, hp]
    · have hcause := mt (h t.node).1 hp
      rw [if_neg hp, targetNote?]
      cases hother : targetCause? t.node with
      | none => rfl
      | some other =>
        have hne : other ≠ cause := fun heq => hcause (hother.trans (congrArg some heq))
        simp [hne]

theorem targetCause_notAssignable (t : PrefixExp) :
    targetCause? t = some .notAssignable ↔ t.endsInCall = true := by
  unfold targetCause?
  cases t.endsInCall <;> cases t.isBareParen <;> simp

theorem targetCause_parenthesized (t : PrefixExp) :
    targetCause? t = some .parenthesizedTarget ↔ t.isBareParen = true := by
  unfold targetCause?
  cases hparen : t.isBareParen with
  | true => simp [PrefixExp.endsInCall_of_isBareParen hparen]
  | false => cases t.endsInCall <;> simp

/-- Diagnostics with a cause that only notes have are notes. -/
theorem filter_cause_notes {ds : List Diagnostic} {cause : Cause}
    (h : ∀ d ∈ ds, d.cause = cause → d.repair = .unrepaired) :
    (Diagnostic.notes ds).filter (·.cause == cause) = ds.filter (·.cause == cause) := by
  rw [Diagnostic.notes, List.filter_filter]
  refine List.filter_congr fun d hd => ?_
  by_cases hcause : d.cause = cause
  · simp [hcause, Diagnostic.isNote, h d hd hcause]
  · simp [hcause]

/-- The diagnostics of targets that end in a call stand at just these targets of the tree, those of
targets in parentheses at these, and only the latter are mere warnings. -/
theorem target_diagnostics (tokens : List (Located Token)) (stop : Pos) (config : ParseConfig) :
    let (chunk, ds) := parseTokens tokens stop config
    let targets := chunk.block.targets
    (ds.filter (·.cause == .notAssignable)).map (·.span) =
        (targets.filter (·.node.endsInCall)).map (·.span) ∧
      (ds.filter (·.cause == .parenthesizedTarget)).map (·.span) =
        (targets.filter (·.node.isBareParen)).map (·.span) ∧
      ds.map (·.severity) =
        ds.map fun d => if d.cause = .parenthesizedTarget then .warning else .error := by
  have hseverity (d : Diagnostic) :
      d.severity = if d.cause = .parenthesizedTarget then .warning else .error := by
    rw [Diagnostic.severity]
    cases d.cause <;> rfl
  unfold parseTokens
  dsimp only
  split
  · exact ⟨rfl, rfl, rfl⟩
  · let stream : TokenStream := ⟨(withoutComments tokens).toArray, stop⟩
    obtain ⟨b, ds, ts, hrun, -, -, hpost⟩ := run_nested bottom_lenient
      (Language.appends_within 1) config.maxDepth stream config.maxDepth .empty
    have hnotes : Diagnostic.notes ds = targetNotes b.targets := (hpost fun _ _ _ => trivial).2
    have hunrepaired : ∀ d ∈ ds,
        d.cause = .notAssignable ∨ d.cause = .parenthesizedTarget → d.repair = .unrepaired := by
      have hsensible := (steady_chunk (steady_nested config.maxDepth)).sensible_run stream
        config.maxDepth .empty
      rw [hrun] at hsensible
      exact fun d hd => (hsensible d hd).unrepaired
    rw [hrun]
    refine ⟨?_, ?_, List.map_congr_left fun d _ => hseverity d⟩
    · rw [← spans_targetNotes targetCause_notAssignable, ← hnotes,
        filter_cause_notes fun d hd hcause => hunrepaired d hd (.inl hcause)]
    · rw [← spans_targetNotes targetCause_parenthesized, ← hnotes,
        filter_cause_notes fun d hd hcause => hunrepaired d hd (.inr hcause)]

end LuaSyntax
