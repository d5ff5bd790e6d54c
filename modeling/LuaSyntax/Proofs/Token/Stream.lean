import LuaSyntax.Token.Stream
/-!
# Cursors in a token stream

The token at a cursor, the tokens from it on, and where it stands in the source.
-/

namespace LuaSyntax.TokenStream

variable {stream : TokenStream} {i j : Nat} {t : Located Token}

theorem exists_get? (h : i < stream.size) : ∃ t, stream.get? i = some t :=
  ⟨stream.tokens[i], Array.getElem?_eq_getElem h⟩

theorem lt_size_of_get? (h : stream.get? i = some t) : i < stream.size :=
  (Array.getElem?_eq_some_iff.1 h).1

theorem get?_size (stream : TokenStream) : stream.get? stream.size = none :=
  Array.getElem?_eq_none (Nat.le_refl _)

theorem pos_of_get? (h : stream.get? i = some t) : stream.pos i = t.span.start := by
  simp [pos, h]

theorem pos_size (stream : TokenStream) : stream.pos stream.size = stream.stop := by
  simp [pos, get?_size]

/-- The tokens stand in the order in which they start. -/
def Ordered (stream : TokenStream) : Prop :=
  ∀ i j t u, i ≤ j → stream.get? i = some t → stream.get? j = some u → t.span.start ≤ u.span.start

/-- A run of tokens starts where the first of them starts. -/
theorem start_spanBetween (h : stream.Ordered) (hij : i < j) (hj : j ≤ stream.size) :
    (stream.spanBetween i j).start = stream.pos i := by
  obtain ⟨t, ht⟩ : ∃ t, stream.get? i = some t := exists_get? (by omega)
  obtain ⟨u, hu⟩ : ∃ u, stream.get? (j - 1) = some u := exists_get? (by omega)
  have hle : t.span.start ≤ u.span.start := h i (j - 1) t u (by omega) ht hu
  have hmin : min t.span.start u.span.start = t.span.start := if_pos hle
  simp [spanBetween, pos, Nat.not_le.2 hij, ht, hu, Span.join, hmin]

/-! ### The tokens from a cursor on -/

theorem length_rest (stream : TokenStream) (i : Nat) :
    (stream.rest i).length = stream.size - i := by
  simp [rest, size]

theorem rest_size (stream : TokenStream) : stream.rest stream.size = [] :=
  List.drop_eq_nil_of_le (Nat.le_refl _)

theorem drop_rest (stream : TokenStream) (i count : Nat) :
    (stream.rest i).drop count = stream.rest (i + count) :=
  List.drop_drop

theorem rest_of_get? (h : stream.get? i = some t) : stream.rest i = t :: stream.rest (i + 1) := by
  obtain ⟨hlt, rfl⟩ := Array.getElem?_eq_some_iff.1 h
  exact List.drop_eq_getElem_cons hlt

theorem exists_of_mem_rest (h : t ∈ stream.rest i) :
    ∃ k, i ≤ k ∧ k < stream.size ∧ stream.get? k = some t := by
  obtain ⟨k, hk, rfl⟩ := List.getElem_of_mem h
  rw [length_rest] at hk
  refine ⟨i + k, by omega, by omega, ?_⟩
  simp [rest, get?]

theorem mem_rest {k : Nat} (hk : i ≤ k) (h : stream.get? k = some t) : t ∈ stream.rest i := by
  obtain ⟨hlt, rfl⟩ := Array.getElem?_eq_some_iff.1 h
  rw [rest, List.mem_drop_iff_getElem]
  exact ⟨k - i, by rw [Array.length_toList]; omega, by simp [Nat.add_sub_cancel' hk]⟩

end LuaSyntax.TokenStream
