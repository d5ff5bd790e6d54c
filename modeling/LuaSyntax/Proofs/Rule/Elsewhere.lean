import LuaSyntax.Proofs.Rule.Confined
import LuaSyntax.Proofs.Rule.Lockstep
import LuaSyntax.Proofs.Rule.Reads
import LuaSyntax.Proofs.Rule.Repeats
import LuaSyntax.Proofs.Rule.Shift
/-!
# Clean runs elsewhere

What a rule makes of the tokens ahead depends neither on their spans nor on what stands in front of
them. If it also stops before whatever satisfies a predicate, a clean run is one way to read its
tokens: they are read to the same value wherever else they stand before such a token.
-/

namespace LuaSyntax

namespace TokenStream

variable {stream : TokenStream} {i j : Nat}

/-- The stream up to cursor `j`, and then other tokens. -/
def upTo (stream : TokenStream) (j : Nat) (after : List (Located Token)) : TokenStream :=
  ⟨(stream.tokens.toList.take j ++ after).toArray, stream.stop⟩

theorem length_take (hj : j ≤ stream.size) : (stream.tokens.toList.take j).length = j := by
  rw [List.length_take, Array.length_toList]
  exact Nat.min_eq_left hj

theorem le_size_upTo (hj : j ≤ stream.size) (after : List (Located Token)) :
    j ≤ (stream.upTo j after).size := by
  rw [size, upTo, List.size_toArray, List.length_append, length_take hj]
  exact Nat.le_add_right _ _

theorem shares_upTo {ends : Option Token → Prop} {after : List (Located Token)}
    (hj : j ≤ stream.size) (hends : ends (stream.word j))
    (hafter : ends (after.map (·.node)).head?) : stream.Shares ends j (stream.upTo j after) where
  get?_eq {k} hk := by
    have hlt : k < (stream.tokens.toList.take j).length := by rwa [length_take hj]
    rw [get?, upTo, List.getElem?_toArray, List.getElem?_append_left hlt,
      List.getElem?_take_of_lt hk, Array.getElem?_toList, get?]
  le := hj
  le' := le_size_upTo hj after
  ends_left := hends
  ends_right := by
    have hlength := length_take hj
    rw [word, get?, upTo, List.getElem?_toArray,
      List.getElem?_append_right (Nat.le_of_eq hlength), hlength, Nat.sub_self,
      ← List.head?_eq_getElem?, ← List.head?_map]
    exact hafter

theorem rest_upTo (hij : i ≤ j) (hj : j ≤ stream.size) (after : List (Located Token)) :
    (stream.upTo j after).rest i = stream.slice i j ++ after :=
  List.drop_append_of_le_length (by rwa [length_take hj])

end TokenStream

/-- The streams from two cursors on, where the same words are ahead. -/
def Pairing.ofWords {stream stream' : TokenStream} {i i' : Nat}
    (h : stream.words i = stream'.words i') : Pairing where
  left := ⟨(stream.rest i).toArray, stream.stop⟩
  right := ⟨(stream'.rest i').toArray, stream'.stop⟩
  exact := False
  tokens := by
    have hwords : List.Forall₂ Eq (stream.words i) (stream'.words i') := by
      rw [List.forall₂_eq_eq_eq]
      exact h
    unfold TokenStream.words at hwords
    rw [List.forall₂_map_left_iff, List.forall₂_map_right_iff] at hwords
    exact hwords.imp fun t u htu => ⟨congrArg Token.standard htu, False.elim⟩
  stop := False.elim

namespace Rule

variable {α : Type} {rule rule' : Rule α} {stream stream' : TokenStream} {i i' : Nat} {a : α}
  {ends : Option Token → Prop} {c : Context} {s t : State}

/-- A run that starts at cursor `i` is one over what is ahead there. -/
theorem ok_iff_rest (hshifts : Shifts rule) (hi : i ≤ stream.size) {limit count : Nat} :
    rule (start stream limit) (initial.moveTo i) = .ok a (initial.moveTo (i + count)) ↔
      rule (start ⟨(stream.rest i).toArray, stream.stop⟩ limit) initial =
        .ok a (initial.moveTo count) := by
  have hcontext : (start ⟨(stream.rest i).toArray, stream.stop⟩ limit).behind
      (stream.tokens.toList.take i).toArray = start stream limit := by
    refine congrArg (fun tokens => start ⟨tokens, stream.stop⟩ limit) (Array.toList_inj.1 ?_)
    rw [Array.toList_append]
    exact List.take_append_drop i _
  have hsize : (stream.tokens.toList.take i).toArray.size = i := TokenStream.length_take hi
  have hshift := hshifts _ initial (proper_start ⟨(stream.rest i).toArray, stream.stop⟩ limit)
    (stream.tokens.toList.take i).toArray []
  rw [hcontext, hsize] at hshift
  have hstart : initial.behind i [] = initial.moveTo i := rfl
  rw [← hstart, hshift]
  cases rule (start ⟨(stream.rest i).toArray, stream.stop⟩ limit) initial with
  | error why t => exact ⟨nofun, nofun⟩
  | ok b t =>
    obtain ⟨cursor, ds, hint⟩ := t
    simp [mapState, State.behind, State.moveTo, initial]

/-- A clean run is the same in a stream that goes on otherwise after it. -/
theorem Confined.ok_upTo (h : Confined ends true rule) (hs : c.Proper s)
    (hclean : Clean rule c s a t) (hends : ends (c.stream.word t.cursor))
    {after : List (Located Token)} (hafter : ends (after.map (·.node)).head?) (limit : Nat) :
    rule (start (c.stream.upTo t.cursor after) limit) (initial.moveTo s.cursor) =
      .ok a (initial.moveTo t.cursor) := by
  have ht := h.onward hs hclean.ok
  have hshares : c.stream.Shares ends t.cursor (c.stream.upTo t.cursor after) :=
    TokenStream.shares_upTo ht.le_size hends hafter
  have hproper : (start (c.stream.upTo t.cursor after) limit).Proper (initial.moveTo s.cursor) :=
    (proper_start _ limit).of_le (Nat.zero_le _) (Nat.le_trans ht.cursor_le hshares.le')
  have hsharing : c.Sharing ends t.cursor s (start (c.stream.upTo t.cursor after) limit)
      (initial.moveTo s.cursor) := ⟨hshares, rfl, ht.cursor_le, hs, hproper⟩
  exact h.again hsharing hclean ⟨Nat.le_refl _, .inl rfl⟩

variable [SpanEq α]

/-- A run is the same, up to spans, wherever the same words are ahead. -/
theorem ok_of_words (hshifts : Shifts rule) (hlockstep : ∀ P, Lockstep P P.Twins rule rule)
    (hi : i ≤ stream.size) (hi' : i' ≤ stream'.size) (hwords : stream'.words i' = stream.words i)
    {limit count : Nat}
    (hrun : rule (start stream limit) (initial.moveTo i) = .ok a (initial.moveTo (i + count))) :
    ∃ a', rule (start stream' limit) (initial.moveTo i') = .ok a' (initial.moveTo (i' + count)) ∧
      SpanEq.same a' a := by
  rw [ok_iff_rest hshifts hi] at hrun
  rcases hlockstep (.ofWords hwords) .committed limit initial initial
    (.intro 0 none .nil) with ⟨a', b, t', t, hok', hok, hsame, hstates⟩ | ⟨why, t', t, -, herr, -⟩
  · cases hok.symm.trans hrun
    obtain ⟨_, _, _ | _⟩ := hstates
    exact ⟨a', (ok_iff_rest hshifts hi').2 hok', hsame.same⟩
  · cases herr.symm.trans hrun

/-- The tokens of a clean run are read again before whatever the rule stops at. -/
theorem Confined.reads (h : Confined ends true rule) (hshifts : Shifts rule)
    (hlockstep : ∀ P, Lockstep P P.Twins rule rule) (hrepeats : Repeats ends rule rule')
    (hs : c.Proper s) (hclean : Clean rule c s a t) (hends : ends (c.stream.word t.cursor)) :
    Reads rule' ((c.stream.slice s.cursor t.cursor).map (·.node)) ends (SpanEq.same · a) := by
  intro c' s' us hs' hahead hus
  have ht := h.onward hs hclean.ok
  obtain ⟨count, hcount⟩ := Nat.exists_eq_add_of_le ht.cursor_le
  have hlength : ((c.stream.slice s.cursor t.cursor).map (·.node)).length = count := by
    rw [List.length_map, TokenStream.length_slice ht.le_size]
    omega
  have hread : (s'.moveTo (s'.cursor + count)).cursor = s'.cursor +
      ((c.stream.slice s.cursor t.cursor).map (·.node)).length := by
    rw [hlength]
    rfl
  have hafter : c'.stream.words (s'.cursor + count) = us := c'.ahead_of_read hahead hread
  -- the tokens of the run, put before what is ahead after them in the other stream
  let after := c'.stream.rest (s'.cursor + count)
  have hfirst : ends (after.map (·.node)).head? := by rwa [← hafter] at hus
  have hrun := h.ok_upTo hs hclean hends hfirst c.limit
  have hi : s.cursor ≤ (c.stream.upTo t.cursor after).size :=
    Nat.le_trans ht.cursor_le (TokenStream.le_size_upTo ht.le_size after)
  have hwords : c'.stream.words s'.cursor = (c.stream.upTo t.cursor after).words s.cursor := by
    refine hahead.trans ?_
    rw [TokenStream.words, TokenStream.rest_upTo ht.cursor_le ht.le_size, List.map_append, ← hafter]
    rfl
  have hmoved : initial.moveTo t.cursor = initial.moveTo (s.cursor + count) := by rw [hcount]
  rw [hmoved] at hrun
  obtain ⟨a', hrun', hsame⟩ := ok_of_words hshifts hlockstep hi hs'.cursor_le hwords hrun
  have hbeside : (start c'.stream c.limit).Beside (initial.moveTo s'.cursor) c' s' :=
    ⟨rfl, rfl, (proper_start _ _).of_le (Nat.zero_le _) hs'.cursor_le, hs'⟩
  have hnext : ends (c'.stream.word (s'.cursor + count)) := by
    rwa [← TokenStream.head?_words, hafter]
  obtain ⟨t', hclean', hcursor⟩ := hrepeats.again hbeside ⟨hrun', rfl⟩ hnext
  exact ⟨a', t', hclean'.ok, hsame, hcursor.trans hread, [], hclean'.diags, List.forall_mem_nil _⟩

end Rule

end LuaSyntax
