import LuaSyntax.Proofs.Grammar.StmtPlaces
import LuaSyntax.Proofs.Lexer.Pieces
import LuaSyntax.Proofs.WellFormed
/-!
# All spans are places in the source

Whatever a source is, each span in its tree, of its comments and of its diagnostics runs from one
position of the source to another one, and the diagnostics stand in the order in which they start.
-/

namespace LuaSyntax

open Rule Grammar

theorem Rule.Places.run {α : Type} {rule : Rule α} {law : Law} {R : Yield → α → Prop}
    {P : Span → Prop} {f : α → List Span} {stream : TokenStream} {limit : Nat}
    (hcompletes : Completes law rule R) (hspans : Spans (start stream limit) P)
    (hplaces : Places (start stream limit) P rule f) (fallback : α) :
    (f (rule.run stream limit fallback).1).Forall P ∧
      AllPlaced P (rule.run stream limit fallback).2 := by
  have hstart := proper_start stream limit
  obtain ⟨a, s, hok, hreach⟩ := hcompletes _ initial hstart rfl
  obtain ⟨s', hend, -⟩ := endOfInput_spec law (hreach.proper hstart) rfl
  have hgives : Gives (start stream limit) rule initial.progress a s.progress :=
    ⟨_, initial, s, ⟨rfl, rfl⟩, rfl, hok, rfl⟩
  have hgivesEnd : Gives (start stream limit) endOfInput s.progress () s'.progress :=
    ⟨_, s, s', ⟨rfl, rfl⟩, rfl, hend, rfl⟩
  obtain ⟨hs, ha⟩ := hplaces _ _ _ hgives .nil
  obtain ⟨hs', -⟩ := places_endOfInput hspans _ _ _ hgivesEnd hs
  simp only [Rule.run, hok, hend]
  exact ⟨ha, fun d hd => hs' d (List.mem_reverse.1 hd)⟩

variable {cs : List Char} {tokens : List (Located Token)} {stop : Pos}

/-- The spans that can be built from tokens of a text are in the text. -/
theorem spans_isIn (htokens : ∀ t ∈ tokens, t.span.IsIn cs) (hstop : stop.IsIn cs) (limit : Nat) :
    Spans (start ⟨tokens.toArray, stop⟩ limit) (Span.IsIn cs) where
  token := by
    intro i t ht
    exact htokens t (List.mem_of_getElem? (by simpa [start, TokenStream.get?] using ht))
  point := by
    intro i
    refine Span.isIn_point ?_
    unfold TokenStream.pos
    cases ht : (start ⟨tokens.toArray, stop⟩ limit).stream.get? i with
    | none => exact hstop
    | some t =>
      exact (htokens t (List.mem_of_getElem? (by simpa [start, TokenStream.get?] using ht))).start
  join := fun _ _ => Span.IsIn.join

theorem isIn_parseTokens (htokens : ∀ t ∈ tokens, t.span.IsIn cs) (hstop : stop.IsIn cs)
    (config : ParseConfig) :
    (parseTokens tokens stop config).1.spans.Forall (Span.IsIn cs) ∧
      AllPlaced (Span.IsIn cs) (parseTokens tokens stop config).2 := by
  have hcomments : ((commentsOf tokens).map (·.span)).Forall (Span.IsIn cs) := by
    rw [List.forall_iff_forall_mem]
    intro span hspan
    obtain ⟨comment, hcomment, rfl⟩ := List.mem_map.1 hspan
    obtain ⟨t, ht, hfound⟩ := List.mem_filterMap.1 hcomment
    obtain ⟨c, -, rfl⟩ := Option.map_eq_some_iff.1 hfound
    exact htokens t ht
  have hrest : ∀ t ∈ withoutComments tokens, t.span.IsIn cs := fun t ht =>
    htokens t (List.mem_filter.1 ht).1
  unfold parseTokens
  dsimp only
  split
  · next limit firstOver hover =>
    obtain ⟨count, -, hfound⟩ := Option.bind_eq_some_iff.1 hover
    obtain ⟨t, ht, heq⟩ := Option.map_eq_some_iff.1 hfound
    obtain ⟨rfl, rfl⟩ := Prod.mk.inj heq
    refine ⟨by simpa [Chunk.spans, Block.empty] using hcomments, ?_⟩
    exact List.forall_mem_singleton.2 (hrest t (List.mem_of_getElem? ht))
  · have hspans := spans_isIn hrest hstop config.maxDepth
    have hplaces := places_chunk hspans (placed_nested hspans config.maxDepth)
    have hcompletes := (always_chunk (sound_lenient config.maxDepth)
      (Language.appends_within _)).completes
    obtain ⟨hblock, hdiags⟩ := Places.run hcompletes hspans hplaces .empty
    exact ⟨List.forall_append.2 ⟨hcomments, hblock⟩, hdiags⟩

/-- Sorting puts the diagnostics in the order in which they start. -/
theorem pairwise_notAfter (ds : List Diagnostic) :
    (ds.mergeSort Diagnostic.notAfter).Pairwise fun d e => d.span.start ≤ e.span.start := by
  have htrans (a b c : Diagnostic) (hab : a.notAfter b = true) (hbc : b.notAfter c = true) :
      a.notAfter c = true :=
    decide_eq_true (Pos.le_trans (of_decide_eq_true hab) (of_decide_eq_true hbc))
  have htotal (a b : Diagnostic) : (a.notAfter b || b.notAfter a) = true := by
    rw [Bool.or_eq_true]
    exact (Pos.le_total a.span.start b.span.start).imp decide_eq_true decide_eq_true
  exact (List.pairwise_mergeSort htrans htotal ds).imp of_decide_eq_true

/-- All spans in the tree of a source and of its diagnostics are in the source. -/
theorem isIn_parseWith (source : String) (config : ParseConfig) :
    (∀ s ∈ (parseWith source config).1.spans, s.IsIn source.toList) ∧
      ∀ d ∈ (parseWith source config).2, d.span.IsIn source.toList := by
  obtain ⟨htokens, herrors⟩ :=
    (Lexer.pieces_tokenizeFrom config.dialect default source.toList).isIn
  obtain ⟨htree, hdiags⟩ := isIn_parseTokens htokens (Pos.isIn_endOf source.toList) config
  refine ⟨List.forall_iff_forall_mem.1 htree, fun d hd => ?_⟩
  rcases List.mem_append.1 (List.mem_mergeSort.1 hd) with hd | hd
  · obtain ⟨e, he, rfl⟩ := List.mem_map.1 hd
    exact herrors e he
  · exact hdiags d hd

/-- All spans in the tree of a source and of its diagnostics are in the source, and the diagnostics
stand in the order in which they start. -/
theorem parseWith_spans (source : String) (config : ParseConfig) :
    let result := parseWith source config
    (∀ s ∈ result.1.spans, s.IsIn source.toList) ∧ (∀ d ∈ result.2, d.span.IsIn source.toList) ∧
      result.2.Pairwise fun d e => d.span.start ≤ e.span.start := by
  intro result
  obtain ⟨htree, hdiags⟩ := isIn_parseWith source config
  exact ⟨htree, hdiags, pairwise_notAfter _⟩

end LuaSyntax
