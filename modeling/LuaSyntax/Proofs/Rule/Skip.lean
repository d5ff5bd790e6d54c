import LuaSyntax.Proofs.Rule.Primitive
import LuaSyntax.Rule.Run
/-!
# The discipline of skipping

Skipping always gives a value and yields nothing. A rule that is run over a whole stream accounts
for the stream from its first token to its last.
-/

namespace LuaSyntax.Rule

variable {α : Type} {law : Law} {P : Yield → α → Prop} {c : Context} {s : State}

theorem next?_of_lt (h : s.cursor < c.stream.size) : ∃ t, c.next? s = some t :=
  TokenStream.exists_get? h

theorem lt_of_next? {t : Located Token} (h : c.next? s = some t) : s.cursor < c.stream.size :=
  TokenStream.lt_size_of_get? h

/-- A run of tokens is passed over unless it is empty. -/
theorem skipTokens_spec (law : Law) (count : Nat) (expected : List Expected) (hs : c.Proper s) :
    ∃ s', skipTokens count expected c s = .ok () s' ∧ Reaches law c s s' (· = .empty) ∧
      s'.cursor = s.cursor + min count (c.remaining s) ∧ (s'.cursor = s.cursor → s' = s) := by
  unfold skipTokens
  by_cases hskipped : min count (c.remaining s) = 0
  · rw [if_pos hskipped]
    exact ⟨s, rfl, .refl rfl, by omega, fun _ => rfl⟩
  · rw [if_neg hskipped]
    have hle := hs.cursor_le
    have hfits : s.cursor + min count (c.remaining s) ≤ c.stream.size := by
      unfold Context.remaining
      omega
    refine ⟨_, rfl, .of_skip rfl (by omega) hfits ?_ rfl, rfl, fun hcursor => ?_⟩
    · exact fun hordered => TokenStream.start_spanBetween hordered (by omega) hfits
    · have : s.cursor + min count (c.remaining s) = s.cursor := hcursor
      omega

theorem levelLength_le (separators : Bool) (depth : Nat) (ts : List Token) :
    levelLength separators depth ts ≤ ts.length := by
  induction ts generalizing depth with
  | nil => exact Nat.le_refl _
  | cons t ts ih =>
    have := ih (depthAfter depth t)
    rw [levelLength, List.length_cons]
    split <;> omega

/-- The rest of a nesting level is passed over unless it is empty. -/
theorem skipLevel_spec (separators : Bool) (c : Context) (s : State) :
    skipLevel separators c s = .ok none s ∨
      ∃ count span, 0 < count ∧ s.cursor + count ≤ c.stream.size ∧
        (c.stream.Ordered → span.start = c.pos s) ∧
        skipLevel separators c s = .ok (some span)
          ((s.advance count).record ⟨span, .tooDeep c.limit, .skipped count⟩) := by
  have hle := levelLength_le separators 0 ((c.stream.rest s.cursor).map (·.node))
  rw [List.length_map, TokenStream.length_rest] at hle
  unfold skipLevel
  by_cases hcount : levelLength separators 0 ((c.stream.rest s.cursor).map (·.node)) = 0
  · exact .inl (if_pos hcount)
  · refine .inr ⟨_, _, by omega, by omega, fun hordered => ?_, if_neg hcount⟩
    exact TokenStream.start_spanBetween hordered (by omega) (by omega)

/-! ### Running a rule -/

theorem endOfInput_spec (law : Law) (hs : c.Proper s) (hc : c.isCommitted s = true) :
    ∃ s', endOfInput c s = .ok () s' ∧ Reaches law c s s' (· = .empty) ∧
      s'.cursor = c.stream.size := by
  have hle := hs.cursor_le
  unfold endOfInput
  by_cases hnone : (c.next? s).isNone
  · refine ⟨s, if_pos hnone, .refl rfl, ?_⟩
    rcases Nat.lt_or_eq_of_le hle with hlt | heq
    · obtain ⟨t, ht⟩ := next?_of_lt hlt
      simp [ht] at hnone
    · exact heq
  · obtain ⟨s', hok, hreach, hcursor, -⟩ :=
      skipTokens_spec law (c.remaining s) [.named "end of input"] hs
    refine ⟨s', by rw [if_neg hnone, if_pos hc, hok], hreach, ?_⟩
    rw [hcursor, Nat.min_self]
    unfold Context.remaining
    omega

theorem proper_start (stream : TokenStream) (limit : Nat) : (start stream limit).Proper initial :=
  ⟨Nat.zero_le _, nofun, nofun⟩

/-- A rule run over a whole stream gives a value of its own, never the fallback, and edits the
stream from its first token to its last. -/
theorem Completes.run {rule : Rule α} (h : Completes law rule P) (stream : TokenStream)
    (limit : Nat)
    (fallback : α) :
    ∃ a s ds ts, rule (start stream limit) initial = .ok a s ∧
      rule.run stream limit fallback = (a, ds) ∧ Edited stream 0 ds ts stream.size ∧
      (∀ d ∈ ds, law.Allows d) ∧
      ((∀ d ∈ ds, d.CutsOff → law.cut) → P ⟨ts, Diagnostic.notes ds⟩ a) := by
  have hs := proper_start stream limit
  obtain ⟨a, s, hok, hreach⟩ := h _ initial hs rfl
  obtain ⟨s', hend, hrest, hcursor⟩ := endOfInput_spec law (hreach.proper hs) rfl
  obtain ⟨ds, ts, hdiags, hedit, hlaw, hpost⟩ := hreach.trans hrest
    (Q := fun y => P y a) fun y z hy hz => by rwa [hz, Yield.append_empty]
  refine ⟨a, s, ds, ts, hok, ?_, ?_, hlaw, hpost⟩
  · have hdiags : s'.diags.reverse = ds := by
      rw [hdiags]
      simp [initial]
    simp only [Rule.run, hok, hend, hdiags]
  · rwa [hcursor] at hedit

end LuaSyntax.Rule
