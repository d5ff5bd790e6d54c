import LuaSyntax.Proofs.Lexer.Order
import LuaSyntax.Proofs.Lexer.Pieces
import LuaSyntax.Proofs.Token.Stream
import LuaSyntax.Proofs.Tree.Truncate
/-!
# Slices of a token stream

The tokens between two cursors. Where tokens stand apart in the source, the tokens in the span of a
slice are just those of the slice.
-/

namespace LuaSyntax

namespace TokenStream

variable {stream : TokenStream} {i j k m : Nat} {t u : Located Token}

/-- The tokens from cursor `i` up to, but not including, cursor `j`. -/
def slice (stream : TokenStream) (i j : Nat) : List (Located Token) :=
  (stream.tokens.toList.take j).drop i

/-- The token at a cursor, without its span. -/
def word (stream : TokenStream) (i : Nat) : Option Token := (stream.get? i).map (·.node)

theorem word_of_get? {w : Token} {span : Span} (h : stream.get? i = some ⟨w, span⟩) :
    stream.word i = some w := by
  rw [word, h]
  rfl

/-- The tokens from a cursor on, without their spans. -/
def words (stream : TokenStream) (i : Nat) : List Token := (stream.rest i).map (·.node)

theorem head?_words (stream : TokenStream) (i : Nat) : (stream.words i).head? = stream.word i := by
  rw [words, List.head?_map, rest, List.head?_drop, Array.getElem?_toList]
  rfl

theorem mem_slice : t ∈ stream.slice i j ↔ ∃ k, i ≤ k ∧ k < j ∧ stream.get? k = some t := by
  simp only [slice, List.mem_iff_getElem?, List.getElem?_drop, List.getElem?_take, get?]
  constructor
  · rintro ⟨n, hn⟩
    split at hn
    · exact ⟨i + n, by omega, by omega, by simpa using hn⟩
    · cases hn
  · rintro ⟨k, hik, hkj, hk⟩
    refine ⟨k - i, ?_⟩
    rw [Nat.add_sub_cancel' hik, if_pos hkj]
    simpa using hk

theorem slice_zero_size (stream : TokenStream) :
    stream.slice 0 stream.size = stream.tokens.toList :=
  List.take_of_length_le (Nat.le_of_eq Array.length_toList)

@[simp] theorem slice_self (stream : TokenStream) (i : Nat) : stream.slice i i = [] := by
  simp [slice]

theorem length_slice (hj : j ≤ stream.size) : (stream.slice i j).length = j - i := by
  have hsize : j ≤ stream.tokens.size := hj
  rw [slice, List.length_drop, List.length_take, Array.length_toList, Nat.min_eq_left hsize]

theorem slice_append (hij : i ≤ j) (hjk : j ≤ k) (hk : k ≤ stream.size) :
    stream.slice i j ++ stream.slice j k = stream.slice i k := by
  have hsize : j ≤ stream.tokens.size := Nat.le_trans hjk hk
  have hlength : i ≤ (stream.tokens.toList.take j).length := by
    rw [List.length_take, Array.length_toList, Nat.min_eq_left hsize]
    exact hij
  have htake : stream.tokens.toList.take k =
      stream.tokens.toList.take j ++ stream.slice j k := by
    rw [slice, ← Nat.add_sub_cancel' hjk, List.take_add, List.drop_append]
    simp [List.length_take, Nat.min_eq_left hsize]
  rw [slice, slice.eq_def stream i k, htake, List.drop_append_of_le_length hlength]

/-- All tokens are those before a slice, those in it and those after it. -/
theorem slice_around (hij : i ≤ j) (hj : j ≤ stream.size) :
    stream.tokens.toList = stream.slice 0 i ++ stream.slice i j ++ stream.slice j stream.size := by
  rw [slice_append (Nat.zero_le i) hij hj, slice_append (Nat.zero_le j) hj (Nat.le_refl _),
    slice_zero_size]

theorem drop_slice (i j count : Nat) :
    (stream.slice i j).drop count = stream.slice (i + count) j := by
  rw [slice, slice, List.drop_drop]

theorem tail_slice (i j : Nat) : (stream.slice i j).tail = stream.slice (i + 1) j := by
  rw [← List.drop_one, drop_slice]

theorem slice_eq_cons (h : stream.get? i = some t) (hij : i < j) :
    stream.slice i j = t :: stream.slice (i + 1) j := by
  obtain ⟨hlt, rfl⟩ := Array.getElem?_eq_some_iff.1 h
  have hlength : i < (stream.tokens.toList.take j).length := by
    rw [List.length_take, Array.length_toList]
    omega
  rw [slice, List.drop_eq_getElem_cons hlength, List.getElem_take, Array.getElem_toList]
  rfl

theorem words_eq (hij : i ≤ j) (hj : j ≤ stream.size) :
    stream.words i = (stream.slice i j).map (·.node) ++ stream.words j := by
  have hall : stream.tokens.toList.take stream.size = stream.tokens.toList :=
    List.take_of_length_le (Nat.le_of_eq Array.length_toList)
  have hrest (k : Nat) : stream.rest k = stream.slice k stream.size := by rw [slice, hall, rest]
  rw [words, words, hrest, hrest, ← List.map_append, slice_append hij hj (Nat.le_refl _)]

/-- A slice up to a token that is the first not to satisfy `p`. -/
theorem takeWhile_slice {p : Located Token → Bool} (hij : i ≤ j) (hjm : j ≤ m)
    (hm : m ≤ stream.size) (hp : ∀ t ∈ stream.slice i j, p t = true)
    (hnot : ∀ t, stream.get? j = some t → p t = false) :
    (stream.slice i m).takeWhile p = stream.slice i j := by
  rw [← slice_append hij hjm hm, List.takeWhile_append_of_pos hp]
  rcases Nat.lt_or_eq_of_le hjm with hlt | rfl
  · obtain ⟨t, ht⟩ := exists_get? (Nat.lt_of_lt_of_le hlt hm)
    rw [slice_eq_cons ht hlt, List.takeWhile_cons_of_neg (by simp [hnot t ht]), List.append_nil]
  · rw [slice_self, List.takeWhile_nil, List.append_nil]

theorem dropWhile_slice {p : Located Token → Bool} (hij : i ≤ j) (hjm : j < m)
    (hm : m ≤ stream.size) (hp : ∀ t ∈ stream.slice i j, p t = true)
    (hnot : ∀ t, stream.get? j = some t → p t = false) :
    (stream.slice i m).dropWhile p = stream.slice j m := by
  obtain ⟨t, ht⟩ := exists_get? (Nat.lt_of_lt_of_le hjm hm)
  rw [← slice_append hij (Nat.le_of_lt hjm) hm, List.dropWhile_append_of_pos hp,
    slice_eq_cons ht hjm, List.dropWhile_cons_of_neg (by simp [hnot t ht])]

/-! ### Spans of slices -/

/-- The spans are those of slices up to cursor `k`, one of which ends there. -/
structure EndsAt (stream : TokenStream) (k : Nat) (spans : List Span) : Prop where
  slices : ∀ span ∈ spans, ∃ i j, i < j ∧ j ≤ k ∧ span = stream.spanBetween i j
  last : ∃ i, i < k ∧ stream.spanBetween i k ∈ spans

theorem EndsAt.singleton (hij : i < j) : stream.EndsAt j [stream.spanBetween i j] where
  slices _ hspan := ⟨i, j, hij, Nat.le_refl _, List.mem_singleton.1 hspan⟩
  last := ⟨i, hij, List.mem_singleton_self _⟩

theorem EndsAt.append {spans : List Span} (h : stream.EndsAt k spans) (hki : k ≤ i) (hij : i < j) :
    stream.EndsAt j (spans ++ [stream.spanBetween i j]) where
  slices span hspan := by
    rcases List.mem_append.1 hspan with hspan | hspan
    · obtain ⟨m, n, hmn, hnk, rfl⟩ := h.slices span hspan
      exact ⟨m, n, hmn, by omega, rfl⟩
    · exact ⟨i, j, hij, Nat.le_refl _, List.mem_singleton.1 hspan⟩
  last := ⟨i, hij, List.mem_append_right _ (List.mem_singleton_self _)⟩

theorem EndsAt.snoc {spans : List Span} (h : stream.EndsAt k spans) (hij : i < j) (hjk : j ≤ k) :
    stream.EndsAt k (spans ++ [stream.spanBetween i j]) where
  slices span hspan := by
    rcases List.mem_append.1 hspan with hspan | hspan
    · exact h.slices span hspan
    · exact ⟨i, j, hij, hjk, List.mem_singleton.1 hspan⟩
  last := by
    obtain ⟨m, hm, hlast⟩ := h.last
    exact ⟨m, hm, List.mem_append_left _ hlast⟩

/-- Each token covers some of the source, and ends before the next one starts. -/
structure Apart (stream : TokenStream) : Prop where
  covers : ∀ {i : Nat} {t : Located Token}, stream.get? i = some t →
    t.span.start.Before t.span.stop
  after : ∀ {i j : Nat} {t u : Located Token}, i < j → stream.get? i = some t →
    stream.get? j = some u → t.span.stop.NotAfter u.span.start

namespace Apart

variable (h : stream.Apart)

include h

theorem start_before (hij : i < j) (ht : stream.get? i = some t) (hu : stream.get? j = some u) :
    t.span.start.Before u.span.start :=
  (h.covers ht).trans_notAfter (h.after hij ht hu)

theorem stop_before (hij : i < j) (ht : stream.get? i = some t) (hu : stream.get? j = some u) :
    t.span.stop.Before u.span.stop :=
  (h.after hij ht hu).trans_before (h.covers hu)

theorem start_le (hij : i ≤ j) (ht : stream.get? i = some t) (hu : stream.get? j = some u) :
    t.span.start ≤ u.span.start := by
  rcases Nat.lt_or_eq_of_le hij with hlt | rfl
  · exact (h.start_before hlt ht hu).le
  · cases ht.symm.trans hu
    exact Pos.le_refl _

theorem stop_notAfter (hij : i ≤ j) (ht : stream.get? i = some t) (hu : stream.get? j = some u) :
    t.span.stop.NotAfter u.span.stop := by
  rcases Nat.lt_or_eq_of_le hij with hlt | rfl
  · exact .inr (h.stop_before hlt ht hu)
  · cases ht.symm.trans hu
    exact .inl rfl

theorem stop_le (hij : i ≤ j) (ht : stream.get? i = some t) (hu : stream.get? j = some u) :
    t.span.stop ≤ u.span.stop :=
  (h.stop_notAfter hij ht hu).le

/-- A slice spans from the start of its first token to the end of its last one. -/
theorem spanBetween_eq (hij : i < j) (ht : stream.get? i = some t)
    (hu : stream.get? (j - 1) = some u) :
    stream.spanBetween i j = ⟨t.span.start, u.span.stop⟩ := by
  have hstart : min t.span.start u.span.start = t.span.start := if_pos (h.start_le (by omega) ht hu)
  have hstop : max t.span.stop u.span.stop = u.span.stop := if_pos (h.stop_le (by omega) ht hu)
  simp only [spanBetween, if_neg (Nat.not_le.2 hij), ht, hu, Span.join, hstart, hstop]

theorem exists_spanBetween (hij : i < j) (hj : j ≤ stream.size) : ∃ t u, stream.get? i = some t ∧
    stream.get? (j - 1) = some u ∧ stream.spanBetween i j = ⟨t.span.start, u.span.stop⟩ := by
  obtain ⟨t, ht⟩ := exists_get? (Nat.lt_of_lt_of_le hij hj)
  obtain ⟨u, hu⟩ : ∃ u, stream.get? (j - 1) = some u := exists_get? (by omega)
  exact ⟨t, u, ht, hu, h.spanBetween_eq hij ht hu⟩

/-- The tokens of a slice end where its span does at the latest, and those after it end later. -/
theorem stop_le_spanBetween (hj : j ≤ stream.size) (ht : t ∈ stream.slice i j) :
    t.span.stop ≤ (stream.spanBetween i j).stop := by
  obtain ⟨k, hik, hkj, hget⟩ := mem_slice.1 ht
  obtain ⟨_, u, _, hu, hspan⟩ := h.exists_spanBetween (show i < j by omega) hj
  rw [hspan]
  exact h.stop_le (by omega) hget hu

theorem not_stop_le_spanBetween (hij : i < j) (hjk : j ≤ k) (ht : stream.get? k = some t) :
    ¬ t.span.stop ≤ (stream.spanBetween i j).stop := by
  have hk := lt_size_of_get? ht
  obtain ⟨_, u, _, hu, hspan⟩ := h.exists_spanBetween hij (by omega)
  rw [hspan]
  exact Pos.not_le_of_before (h.stop_before (by omega) hu ht)

/-- Slices that end at different places have different spans. -/
theorem spanBetween_ne (hij : i < j) (hjm : j < m) (hkm : k < m) (hm : m ≤ stream.size) :
    stream.spanBetween i j ≠ stream.spanBetween k m := by
  obtain ⟨_, u, _, hu, hfirst⟩ := h.exists_spanBetween hij (by omega)
  obtain ⟨_, w, _, hw, hlast⟩ := h.exists_spanBetween hkm hm
  have hbefore := h.stop_before (show j - 1 < m - 1 by omega) hu hw
  intro heq
  rw [hfirst, hlast] at heq
  exact hbefore.ne (congrArg (·.stop) heq)

/-- Slices one after the other, whatever is between them, join to the slice that covers both. -/
theorem spanBetween_join (hij : i < j) (hjk : j ≤ k) (hkm : k < m) (hm : m ≤ stream.size) :
    (stream.spanBetween i j).join (stream.spanBetween k m) = stream.spanBetween i m := by
  obtain ⟨t, u, ht, hu, hfirst⟩ := h.exists_spanBetween hij (by omega)
  obtain ⟨v, w, hv, hw, hlast⟩ := h.exists_spanBetween hkm hm
  have hstart : min t.span.start v.span.start = t.span.start := if_pos (h.start_le (by omega) ht hv)
  have hstop : max u.span.stop w.span.stop = w.span.stop := if_pos (h.stop_le (by omega) hu hw)
  rw [hfirst, hlast, h.spanBetween_eq (by omega) ht hw, Span.join, hstart, hstop]

theorem spanBetween_succ (ht : stream.get? i = some t) : stream.spanBetween i (i + 1) = t.span :=
  h.spanBetween_eq (Nat.lt_succ_self i) ht ht

/-- The tokens in the span of a slice are those of the slice. -/
theorem tokens_spanBetween (hij : i < j) (hj : j ≤ stream.size) :
    (stream.spanBetween i j).tokens stream.tokens.toList = stream.slice i j := by
  obtain ⟨t, u, ht, hu, hspan⟩ := h.exists_spanBetween hij hj
  have hall : stream.tokens.toList =
      stream.slice 0 i ++ stream.slice i j ++ stream.slice j stream.size := by
    rw [slice_append (Nat.zero_le i) (Nat.le_of_lt hij) hj, slice_append (Nat.zero_le j) hj
      (Nat.le_refl _), slice_zero_size]
  rw [hspan, Span.tokens, hall, List.filter_append, List.filter_append]
  have hbefore : (stream.slice 0 i).filter (fun v =>
      decide (t.span.start ≤ v.span.start ∧ v.span.stop ≤ u.span.stop)) = [] := by
    refine List.filter_eq_nil_iff.2 fun v hv => ?_
    obtain ⟨k, -, hk, hget⟩ := mem_slice.1 hv
    simp [Pos.not_le_of_before (h.start_before hk hget ht)]
  have hinside : (stream.slice i j).filter (fun v =>
      decide (t.span.start ≤ v.span.start ∧ v.span.stop ≤ u.span.stop)) = stream.slice i j := by
    refine List.filter_eq_self.2 fun v hv => ?_
    obtain ⟨k, hik, hkj, hget⟩ := mem_slice.1 hv
    exact decide_eq_true ⟨h.start_le hik ht hget, h.stop_le (by omega) hget hu⟩
  have hafter : (stream.slice j stream.size).filter (fun v =>
      decide (t.span.start ≤ v.span.start ∧ v.span.stop ≤ u.span.stop)) = [] := by
    refine List.filter_eq_nil_iff.2 fun v hv => ?_
    obtain ⟨k, hjk, -, hget⟩ := mem_slice.1 hv
    simp [Pos.not_le_of_before (h.stop_before (show j - 1 < k by omega) hu hget)]
  rw [hbefore, hinside, hafter, List.nil_append, List.append_nil]

/-- The tokens of a slice after a number of spans in it. -/
theorem filter_slice {spans : List Span} (hspans : stream.EndsAt k spans) (hik : i ≤ k)
    (hkj : k ≤ j) (hj : j ≤ stream.size) :
    (stream.slice i j).filter (fun t => spans.all (·.stop ≤ t.span.start)) =
      stream.slice k j := by
  rw [← slice_append hik hkj hj, List.filter_append]
  have hbefore : (stream.slice i k).filter (fun t => spans.all (·.stop ≤ t.span.start)) = [] := by
    obtain ⟨m, hmk, hlast⟩ := hspans.last
    obtain ⟨t, u, -, hu, hspan⟩ := h.exists_spanBetween hmk (Nat.le_trans hkj hj)
    refine List.filter_eq_nil_iff.2 fun v hv hall => ?_
    obtain ⟨n, -, hn, hget⟩ := mem_slice.1 hv
    have hle := of_decide_eq_true (List.all_eq_true.1 hall _ hlast)
    rw [hspan] at hle
    exact Pos.not_le_of_before
      ((h.covers hget).trans_notAfter (h.stop_notAfter (show n ≤ k - 1 by omega) hget hu)) hle
  have hafter : (stream.slice k j).filter (fun t => spans.all (·.stop ≤ t.span.start)) =
      stream.slice k j := by
    refine List.filter_eq_self.2 fun v hv => List.all_eq_true.2 fun span hspan => ?_
    obtain ⟨n, hkn, -, hget⟩ := mem_slice.1 hv
    obtain ⟨m, m', hm, hm', rfl⟩ := hspans.slices span hspan
    obtain ⟨t, u, -, hu, hspan⟩ := h.exists_spanBetween hm (by omega)
    rw [hspan]
    exact decide_eq_true (h.after (show m' - 1 < n by omega) hu hget).le
  rw [hbefore, hafter, List.nil_append]

/-! ### Where blocks begin -/

theorem rest_word {header : List Span} (hends : stream.EndsAt k header) (hik : i ≤ k) (hkm : k < m)
    (hm : m ≤ stream.size) :
    (BlockStart.word (stream.spanBetween i m) header).rest stream.tokens.toList =
      stream.slice (k + 1) m := by
  rw [BlockStart.rest, h.tokens_spanBetween (by omega) hm,
    h.filter_slice hends hik (Nat.le_of_lt hkm) hm, tail_slice]

theorem rest_first (him : i < m) (hm : m ≤ stream.size) :
    (BlockStart.word (stream.spanBetween i m) []).rest stream.tokens.toList =
      stream.slice (i + 1) m := by
  have hall : (stream.slice i m).filter
      (fun t => ([] : List Span).all (·.stop ≤ t.span.start)) = stream.slice i m :=
    List.filter_eq_self.2 fun _ _ => rfl
  rw [BlockStart.rest, h.tokens_spanBetween him hm, hall, tail_slice]

theorem rest_params (hij : i ≤ j) (hjm : j < m) (hm : m ≤ stream.size)
    (hfront : ∀ t ∈ stream.slice i j, t.node ≠ .symbol .closeParen)
    (hclose : stream.word j = some (.symbol .closeParen)) :
    (BlockStart.params (stream.spanBetween i m)).rest stream.tokens.toList =
      stream.slice (j + 1) m := by
  have hnot : ∀ t, stream.get? j = some t → (t.node != .symbol .closeParen) = false := by
    intro t ht
    rw [word, ht] at hclose
    simpa using hclose
  rw [BlockStart.rest, h.tokens_spanBetween (by omega) hm,
    dropWhile_slice hij hjm hm (by simpa using hfront) hnot, tail_slice]

end Apart

theorem rest_next {before : BlockStart} {body : Block} (hij : i ≤ j) (hj : j ≤ stream.size)
    (hbefore : before.rest stream.tokens.toList = stream.slice i m)
    (hbody : body.extent (stream.slice i m) = stream.slice i j) :
    (BlockStart.next before body).rest stream.tokens.toList = stream.slice (j + 1) m := by
  rw [BlockStart.rest, hbefore, hbody, length_slice hj, drop_slice, Nat.add_sub_cancel' hij,
    tail_slice]

end TokenStream

/-! ### Streams of a source -/

theorem Lexer.Pieces.apart {d : Dialect} {p : Pos} {cs : List Char} {tokens : List (Located Token)}
    {errors : List LexError} (h : Pieces d p cs tokens errors) :
    tokens.Pairwise fun t u => t.span.stop.NotAfter u.span.start := by
  induction h with
  | done p => exact .nil
  | blank _ _ ih => exact ih
  | stray _ _ _ ih => exact ih
  | lexeme _ _ rest ih => exact .cons (fun u hu => (rest.standsIn u hu).isSlice.notAfter) ih

theorem Lexer.StandsIn.start_before {p : Pos} {cs : List Char} {t : Located Token}
    (h : StandsIn p cs t) : t.span.start.Before t.span.stop := by
  obtain ⟨before, slice, after, -, hslice, hcovers, -⟩ := h
  rw [hcovers]
  show (p.advanceOver before).Before (p.advanceOver (before ++ slice))
  rw [Pos.advanceOver_append]
  exact Pos.before_advanceOver _ hslice

/-- The tokens of a source stand apart. -/
theorem apart_tokenize (source : String) (d : Dialect) :
    TokenStream.Apart ⟨(withoutComments (tokenize source d).1).toArray, endOfSource source⟩ := by
  have hpieces := Lexer.pieces_tokenizeFrom d default source.toList
  have hpairwise := hpieces.apart.filter fun t => !t.node.isComment
  constructor
  · intro i t ht
    have hmem : t ∈ withoutComments (tokenize source d).1 := by
      simpa using Array.mem_of_getElem? ht
    exact (hpieces.standsIn t (List.mem_filter.1 hmem).1).start_before
  · intro i j t u hij ht hu
    have ht' : (withoutComments (tokenize source d).1)[i]? = some t := by
      simpa [TokenStream.get?] using ht
    have hu' : (withoutComments (tokenize source d).1)[j]? = some u := by
      simpa [TokenStream.get?] using hu
    obtain ⟨hi, rfl⟩ := List.getElem?_eq_some_iff.1 ht'
    obtain ⟨hj, rfl⟩ := List.getElem?_eq_some_iff.1 hu'
    exact List.pairwise_iff_getElem.1 hpairwise i j hi hj hij

end LuaSyntax
