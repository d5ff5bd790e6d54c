import LuaSyntax.Proofs.Rule.Gives
import LuaSyntax.Rule.Skip
import Mathlib.Data.List.Basic
/-!
# Where the spans of a value lie

A rule places the spans of its value and of its diagnostics if all of them satisfy a predicate. What
the predicate says is left open: it holds of the spans of the tokens, of the empty spans between
them, and of what these are joined to.
-/

namespace LuaSyntax.Rule

/-- The predicate holds of all spans that a run can build from its stream. -/
structure Spans (root : Context) (P : Span → Prop) : Prop where
  token : ∀ i t, root.stream.get? i = some t → P t.span
  point : ∀ i, P (.point (root.stream.pos i))
  join : ∀ s t, P s → P t → P (s.join t)

variable {α β : Type} {root : Context} {P : Span → Prop} {rule : Rule α} {f : α → List Span}
  {g : β → List Span}

theorem Spans.between (h : Spans root P) (i j : Nat) : P (root.stream.spanBetween i j) := by
  unfold TokenStream.spanBetween
  split
  · exact h.point i
  · split
    · next first last hfirst hlast => exact h.join _ _ (h.token _ _ hfirst) (h.token _ _ hlast)
    · exact h.point i

/-- The predicate holds of the spans of all diagnostics. -/
def AllPlaced (P : Span → Prop) (ds : List Diagnostic) : Prop := ∀ d ∈ ds, P d.span

theorem AllPlaced.nil : AllPlaced P [] := List.forall_mem_nil _

theorem AllPlaced.cons {d : Diagnostic} {ds : List Diagnostic} (hd : P d.span)
    (h : AllPlaced P ds) : AllPlaced P (d :: ds) :=
  List.forall_mem_cons.2 ⟨hd, h⟩

/-- The predicate holds of the spans `f` of the value, and of the diagnostics if it did before. -/
def Places (root : Context) (P : Span → Prop) (rule : Rule α) (f : α → List Span) : Prop :=
  ∀ p a q, Gives root rule p a q → AllPlaced P p.diags → AllPlaced P q.diags ∧ (f a).Forall P

/-! ### Sequencing -/

theorem Places.pure {a : α} (h : (f a).Forall P) : Places root P (pure a) f := by
  intro p b q hgives hp
  obtain ⟨rfl, rfl⟩ := hgives.of_pure
  exact ⟨hp, h⟩

theorem Places.bind {k : α → Rule β} (h : Places root P rule f)
    (hk : ∀ a, (f a).Forall P → Places root P (k a) g) : Places root P (rule >>= k) g := by
  intro p b q hgives hp
  obtain ⟨a, r, hrule, hrest⟩ := hgives.of_bind
  obtain ⟨hr, hvalue⟩ := h p a r hrule hp
  exact hk a hvalue r b q hrest hr

theorem Places.map {k : α → β} (h : Places root P rule f)
    (hg : ∀ a, (f a).Forall P → (g (k a)).Forall P) : Places root P (k <$> rule) g := by
  intro p b q hgives hp
  obtain ⟨a, hrule, rfl⟩ := hgives.of_map
  obtain ⟨hq, hvalue⟩ := h p a q hrule hp
  exact ⟨hq, hg a hvalue⟩

theorem Places.located {g : Located α → List Span} (hspans : Spans root P)
    (hg : ∀ a, g a = a.span :: f a.node) (h : Places root P rule f) :
    Places root P (located rule) g := by
  intro p a q hgives hp
  obtain ⟨hrule, hspan⟩ := hgives.of_located
  obtain ⟨hq, hvalue⟩ := h p a.node q hrule hp
  rw [hg, List.forall_cons, hspan]
  exact ⟨hq, hspans.between _ _, hvalue⟩

/-! ### Choices and optional parts -/

theorem Places.alt {rules : List (Rule α)} (h : ∀ r ∈ rules, Places root P r f) :
    Places root P (alt rules) f := by
  intro p a q hgives hp
  obtain ⟨r, hr, hrule⟩ := hgives.of_alt
  exact h r hr p a q hrule hp

theorem Places.optional (h : Places root P rule f) :
    Places root P (optional rule) fun r => r.toList.flatMap f := by
  intro p r q hgives hp
  rcases hgives.of_optional with ⟨rfl, rfl⟩ | ⟨a, rfl, hrule⟩
  · exact ⟨hp, trivial⟩
  · simpa using h p a q hrule hp

theorem Places.attempt (h : Places root P rule f) : Places root P (attempt rule) f := by
  intro p a q hgives hp
  exact h p a q hgives.of_attempt hp

/-! ### Loops -/

/-- Each round leaves the diagnostics placed for the next one. -/
theorem Places.collect {step : Rule (Option (α × Bool))}
    (h : Places root P step fun r => r.toList.flatMap fun r => f r.1) :
    Places root P (collect step) fun as => as.flatMap f := by
  intro p as q hgives hp
  have hloop := hgives.of_collect
  clear hgives
  induction hloop with
  | stop hstep => exact ⟨(h _ _ _ hstep hp).1, trivial⟩
  | last hstep => simpa using h _ _ _ hstep hp
  | stalled hstep => exact ⟨(h _ _ _ hstep hp).1, trivial⟩
  | more hstep _ ih =>
    obtain ⟨hr, hfirst⟩ := h _ _ _ hstep hp
    obtain ⟨hq, hrest⟩ := ih hr
    simp only [List.flatMap_cons, List.forall_append]
    exact ⟨hq, by simpa using hfirst, hrest⟩

theorem Places.many (h : Places root P rule f) :
    Places root P (many rule) fun as => as.flatMap f :=
  .collect (h.optional.map fun r hr => by
    cases r with
    | none => trivial
    | some a => simpa using hr)

theorem Places.sepBy1 {separator : Rule β} (h : Places root P rule f)
    (hseparator : Places root P separator g) :
    Places root P (sepBy1 rule separator) fun as => as.flatMap f := by
  have hnext : Places root P (do let _ ← separator; rule) f := hseparator.bind fun _ _ => h
  exact h.bind fun first hfirst => hnext.many.map fun others hothers => by simp [hfirst, hothers]

/-! ### Tokens -/

theorem places_satisfy (hspans : Spans root P) (m : Matcher α) :
    Places root P (satisfy m) fun a => [a.span] := by
  rintro p a q ⟨c, s, s', ⟨hstream, -⟩, rfl, hok, rfl⟩ hp
  have hpoint : P (.point (c.pos s)) := by
    rw [Context.pos, hstream]
    exact hspans.point s.cursor
  have hnext : ∀ t, c.next? s = some t → P t.span := by
    intro t ht
    rw [Context.next?, hstream] at ht
    exact hspans.token s.cursor t ht
  rcases accept_or_reject m c s with ⟨t, b, found, accepted⟩ | hsupply
  · rw [satisfy_of_accept found accepted] at hok
    cases hok
    exact ⟨hp, hnext t found⟩
  · rw [hsupply, supply] at hok
    split at hok
    · cases hok
      refine ⟨.cons ?_ hp, hpoint⟩
      unfold insertion
      cases ht : c.next? s with
      | none => exact hpoint
      | some t => exact hnext t ht
    · cases hok

theorem places_token (hspans : Spans root P) (t : Token) :
    Places root P (token t) fun span => [span] :=
  (places_satisfy hspans _).map fun _ h => h

theorem places_keyword (hspans : Spans root P) (k : Keyword) :
    Places root P (keyword k) fun span => [span] :=
  places_token hspans _

theorem places_symbol (hspans : Spans root P) (s : Symbol) :
    Places root P (symbol s) fun span => [span] :=
  places_token hspans _

theorem places_name (hspans : Spans root P) : Places root P name fun n => [n.span] :=
  places_satisfy hspans _

theorem places_stuck (expected : List Expected) (cost : Nat) :
    Places root P (stuck expected cost) f := by
  intro p a q hgives
  exact (not_gives_stuck hgives).elim

theorem places_oneOf (hspans : Spans root P) (ops : List (Token × α)) :
    Places root P (oneOf ops) fun a => [a.span] := by
  cases ops with
  | nil => exact places_stuck _ _
  | cons op others => exact places_satisfy hspans _

/-! ### Rules that look at the state or record something -/

/-- A rule that only looks at the state. -/
theorem places_of_ok (h : ∀ c s, ∃ a, rule c s = .ok a s) :
    Places root P rule fun _ => [] := by
  intro p a q hgives hp
  rw [hgives.of_look h]
  exact ⟨hp, trivial⟩

theorem places_mark : Places root P mark fun _ => [] :=
  places_of_ok fun _ _ => ⟨_, rfl⟩

theorem places_peek : Places root P peek fun _ => [] :=
  places_of_ok fun _ _ => ⟨_, rfl⟩

theorem places_pos (hspans : Spans root P) : Places root P pos fun p => [.point p] := by
  rintro p a q ⟨c, s, s', ⟨hstream, -⟩, rfl, hok, rfl⟩ hp
  cases hok
  rw [Context.pos, hstream]
  exact ⟨hp, hspans.point s.cursor⟩

theorem places_record {d : Diagnostic} (hd : P d.span) :
    Places root P (record d) fun _ => [] := by
  rintro p a q ⟨c, s, s', -, rfl, hok, rfl⟩ hp
  cases hok
  exact ⟨.cons hd hp, trivial⟩

theorem places_skipTokens (hspans : Spans root P) (count : Nat) (expected : List Expected) :
    Places root P (skipTokens count expected) fun _ => [] := by
  rintro p a q ⟨c, s, s', ⟨hstream, -⟩, rfl, hok, rfl⟩ hp
  unfold skipTokens at hok
  dsimp only at hok
  split at hok
  · cases hok
    exact ⟨hp, trivial⟩
  · cases hok
    rw [hstream]
    exact ⟨.cons (hspans.between _ _) hp, trivial⟩

theorem places_endOfInput (hspans : Spans root P) : Places root P endOfInput fun _ => [] := by
  rintro p a q ⟨c, s, s', hc, rfl, hok, rfl⟩ hp
  unfold endOfInput at hok
  split at hok
  · cases hok
    exact ⟨hp, trivial⟩
  · split at hok
    · exact places_skipTokens hspans _ _ _ _ _ ⟨c, s, s', hc, rfl, hok, rfl⟩ hp
    · cases hok

theorem places_skipLevel (hspans : Spans root P) (separators : Bool) :
    Places root P (skipLevel separators) (·.toList) := by
  rintro p a q ⟨c, s, s', ⟨hstream, -⟩, rfl, hok, rfl⟩ hp
  unfold skipLevel at hok
  dsimp only at hok
  split at hok
  · cases hok
    exact ⟨hp, trivial⟩
  · cases hok
    rw [hstream]
    exact ⟨.cons (hspans.between _ _) hp, hspans.between _ _⟩

end LuaSyntax.Rule
