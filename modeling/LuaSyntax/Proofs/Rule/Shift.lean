import LuaSyntax.Proofs.Rule.Opening
/-!
# Rules behind other tokens

A rule only looks ahead. So it does not matter to it which tokens stand in front of its place in the
stream, nor what was recorded when they were read.
-/

namespace LuaSyntax

/-- The mode, if `count` more tokens stand in front. -/
def Mode.behind (count : Nat) : Mode → Mode
  | committed => committed
  | since start => since (count + start)
  | strict => strict

/-- The state, if `count` more tokens stand in front and `before` was recorded when they were read.
-/
def State.behind (count : Nat) (before : List Diagnostic) (s : State) : State where
  cursor := count + s.cursor
  diags := s.diags ++ before
  hint := s.hint

/-- The context, if the tokens of `front` stand in front. -/
def Context.behind (front : Array (Located Token)) (c : Context) : Context where
  stream := ⟨front ++ c.stream.tokens, c.stream.stop⟩
  mode := c.mode.behind front.size
  limit := c.limit

namespace TokenStream

variable (front : Array (Located Token)) (stream : TokenStream)

theorem get?_append (i : Nat) :
    get? ⟨front ++ stream.tokens, stream.stop⟩ (front.size + i) = stream.get? i := by
  unfold get?
  rw [Array.getElem?_append_right (Nat.le_add_right _ _), Nat.add_sub_cancel_left]

theorem pos_append (i : Nat) :
    pos ⟨front ++ stream.tokens, stream.stop⟩ (front.size + i) = stream.pos i := by
  rw [pos, pos, get?_append]

theorem rest_append (i : Nat) :
    rest ⟨front ++ stream.tokens, stream.stop⟩ (front.size + i) = stream.rest i := by
  unfold rest
  rw [Array.toList_append, ← Array.length_toList, List.drop_length_add_append]

theorem spanBetween_append (i j : Nat) :
    spanBetween ⟨front ++ stream.tokens, stream.stop⟩ (front.size + i) (front.size + j) =
      stream.spanBetween i j := by
  unfold spanBetween
  by_cases hij : j ≤ i
  · rw [if_pos hij, if_pos (Nat.add_le_add_left hij _), pos_append]
  · have hlast : front.size + j - 1 = front.size + (j - 1) := by omega
    rw [if_neg hij, if_neg (by omega), hlast, get?_append, get?_append, pos_append]

end TokenStream

namespace Context

variable (front : Array (Located Token)) (before : List Diagnostic) (c : Context) (s t : State)

@[simp] theorem next?_behind :
    (c.behind front).next? (s.behind front.size before) = c.next? s :=
  TokenStream.get?_append front c.stream s.cursor

@[simp] theorem pos_behind : (c.behind front).pos (s.behind front.size before) = c.pos s :=
  TokenStream.pos_append front c.stream s.cursor

@[simp] theorem ahead_behind : (c.behind front).ahead (s.behind front.size before) = c.ahead s :=
  congrArg (List.map fun t : Located Token => t.node)
    (TokenStream.rest_append front c.stream s.cursor)

@[simp] theorem remaining_behind :
    (c.behind front).remaining (s.behind front.size before) = c.remaining s := by
  have hsize : (c.behind front).stream.size = front.size + c.stream.size := Array.size_append
  have hcursor : (s.behind front.size before).cursor = front.size + s.cursor := rfl
  rw [remaining, remaining, hsize, hcursor, Nat.add_sub_add_left]

@[simp] theorem isCommitted_behind :
    (c.behind front).isCommitted (s.behind front.size before) = c.isCommitted s := by
  obtain ⟨stream, mode, limit⟩ := c
  cases mode with
  | committed => rfl
  | strict => rfl
  | since start =>
    change (front.size + start != front.size + s.cursor) = (start != s.cursor)
    rw [Bool.eq_iff_iff, bne_iff_ne, bne_iff_ne]
    omega

/-- What the next tokens span. -/
theorem spanAhead_behind (count : Nat) : (c.behind front).stream.spanBetween
    (s.behind front.size before).cursor ((s.behind front.size before).cursor + count) =
      c.stream.spanBetween s.cursor (s.cursor + count) := by
  have hcursor :
      (s.behind front.size before).cursor + count = front.size + (s.cursor + count) :=
    Nat.add_assoc _ _ _
  rw [hcursor]
  exact TokenStream.spanBetween_append front c.stream s.cursor _

theorem Proper.behind {c : Context} {s : State} (h : c.Proper s) :
    (c.behind front).Proper (s.behind front.size before) := by
  obtain ⟨stream, mode, limit⟩ := c
  refine ⟨?_, ?_, fun {start} hmode => ?_⟩
  · have hsize : (Context.behind front ⟨stream, mode, limit⟩).stream.size =
        front.size + stream.size := Array.size_append
    rw [hsize]
    exact Nat.add_le_add_left h.cursor_le _
  · have hstrict := h.not_strict
    cases mode <;> simp_all [Context.behind, Mode.behind]
  · cases mode with
    | committed => cases hmode
    | strict => cases hmode
    | since start' =>
      cases hmode
      exact Nat.add_le_add_left (h.start_le rfl) _

theorem speculating_behind :
    (c.behind front).speculating (s.behind front.size before) =
      (c.speculating s).behind front := by
  obtain ⟨stream, mode, limit⟩ := c
  cases mode <;> rfl

end Context

namespace State

variable (count : Nat) (before : List Diagnostic) (s t : State)

theorem rewind_behind :
    (s.behind count before).rewind (t.behind count before) = (s.rewind t).behind count before :=
  rfl

theorem advance_behind (n : Nat) :
    (s.behind count before).advance n = (s.advance n).behind count before := by
  unfold advance behind
  rw [Nat.add_assoc]

theorem record_behind (d : Diagnostic) :
    (s.behind count before).record d = (s.record d).behind count before := rfl

end State

namespace Rule

variable {α β : Type} {rule : Rule α} {f : α → Rule β}

/-- The result with another state in it. -/
def mapState {ε : Type} (g : State → State) :
    EStateM.Result ε State α → EStateM.Result ε State α
  | .ok a s => .ok a (g s)
  | .error why s => .error why (g s)

/-- Behind other tokens, the rule does the same from this state. -/
def ShiftsAt (rule : Rule α) (c : Context) (s : State) : Prop :=
  ∀ front before, rule (c.behind front) (s.behind front.size before) =
    mapState (State.behind front.size before) (rule c s)

/-- Behind other tokens, the rule does the same. -/
def Shifts (rule : Rule α) : Prop := ∀ c s, c.Proper s → ShiftsAt rule c s

theorem ShiftsAt.bind {c : Context} {s : State} (h : ShiftsAt rule c s)
    (hf : ∀ a t, rule c s = .ok a t → ShiftsAt (f a) c t) : ShiftsAt (rule >>= f) c s := by
  intro front before
  rw [bind_apply, bind_apply, h front before]
  cases hrule : rule c s with
  | ok a t => exact hf a t hrule front before
  | error why t => rfl

theorem shiftsAt_pure (a : α) (c : Context) (s : State) : ShiftsAt (pure a) c s := fun _ _ => rfl

theorem Shifts.bind (h : Shifts rule) (horderly : Orderly rule) (hf : ∀ a, Shifts (f a)) :
    Shifts (rule >>= f) :=
  fun c s hs => (h c s hs).bind fun a t hrule =>
    hf a c t ((horderly.onward hs hrule).proper hs)

/-- A rule that looks at what is the same behind other tokens. -/
theorem shiftsAt_of_look {g : Context → State → α} {c : Context} {s : State}
    (h : ∀ front before, g (c.behind front) (s.behind front.size before) = g c s) :
    ShiftsAt (fun c s => .ok (g c s) s) c s :=
  fun front before => congrArg (EStateM.Result.ok · _) (h front before)

theorem Shifts.located (h : Shifts rule) : Shifts (located rule) := by
  intro c s hs front before
  have hshift := h c s hs front before
  cases hrule : rule c s with
  | ok a t =>
    rw [hrule] at hshift
    rw [located_of_ok hshift, located_of_ok hrule]
    exact congrArg (fun span => EStateM.Result.ok (Located.mk a span) _)
      (TokenStream.spanBetween_append front c.stream s.cursor t.cursor)
  | error why t =>
    rw [hrule] at hshift
    rw [located_of_error hshift, located_of_error hrule]
    rfl

/-! ### Tokens -/

theorem shiftsAt_satisfy (m : Matcher α) (c : Context) (s : State) :
    ShiftsAt (satisfy m) c s := by
  intro front before
  unfold satisfy
  rw [Context.next?_behind]
  cases (c.next? s).bind fun t => (m.accept t.node).map (Located.mk · t.span) with
  | some found =>
    simp only [State.advance_behind]
    rfl
  | none =>
    simp only [supply, insertion, Context.isCommitted_behind, Context.next?_behind,
      Context.pos_behind]
    split <;> rfl

theorem shifts_satisfy (m : Matcher α) : Shifts (satisfy m) :=
  fun c s _ => shiftsAt_satisfy m c s

theorem shifts_record (d : Diagnostic) : Shifts (record d) := fun _ _ _ _ _ => rfl

theorem shiftsAt_skipTokens (count : Nat) (expected : List Expected) (c : Context) (s : State) :
    ShiftsAt (skipTokens count expected) c s := by
  intro front before
  unfold skipTokens
  rw [Context.remaining_behind, Context.next?_behind]
  dsimp only
  split
  · rfl
  · rw [Context.spanAhead_behind, State.advance_behind, State.record_behind]
    rfl

theorem shifts_skipAhead (count : List Token → Nat) (expected : List Expected) :
    Shifts fun c s => skipTokens (count (c.ahead s)) expected c s := by
  intro c s _ front before
  dsimp only
  rw [Context.ahead_behind]
  exact shiftsAt_skipTokens _ expected c s front before

theorem shifts_endOfInput : Shifts endOfInput := by
  intro c s _ front before
  unfold endOfInput
  rw [Context.next?_behind, Context.isCommitted_behind, Context.remaining_behind]
  split
  · rfl
  · split
    · exact shiftsAt_skipTokens _ _ c s front before
    · rfl

theorem shifts_skipLevel (separators : Bool) : Shifts (skipLevel separators) := by
  intro c s _ front before
  have hrest : (c.behind front).stream.rest (s.behind front.size before).cursor =
      c.stream.rest s.cursor := TokenStream.rest_append front c.stream s.cursor
  unfold skipLevel
  dsimp only
  rw [hrest]
  split
  · rfl
  · rw [Context.spanAhead_behind, State.advance_behind, State.record_behind]
    rfl

/-! ### Optional parts and loops -/

theorem Shifts.optional (h : Shifts rule) : Shifts (optional rule) := by
  intro c s hs front before
  unfold Rule.optional
  rw [Context.speculating_behind, h _ s hs.speculating front before]
  cases rule (c.speculating s) s <;> rfl

theorem Shifts.collect {step : Rule (Option (α × Bool))} (h : Shifts step)
    (horderly : Orderly step) : Shifts (collect step) := by
  intro c s hs front before
  induction hn : c.remaining s using Nat.strongRecOn generalizing s with
  | ind n ih =>
    rw [Rule.collect, Rule.collect.eq_def step c s, h c s hs front before]
    cases hstep : step c s with
    | error why t => rfl
    | ok r t =>
      rcases r with _ | ⟨a, _ | _⟩
      · rfl
      · rfl
      · simp only [mapState, Context.remaining_behind]
        by_cases hmoved : c.remaining t < c.remaining s
        · have ht := (horderly.onward hs hstep).proper hs
          rw [if_pos hmoved, if_pos hmoved, ih _ (hn ▸ hmoved) t ht rfl]
          cases Rule.collect step c t <;> rfl
        · rw [if_neg hmoved, if_neg hmoved]

theorem Shifts.many (h : Shifts rule) (horderly : Orderly rule) : Shifts (many rule) :=
  (h.optional.bind horderly.optional fun _ c s _ => shiftsAt_pure _ c s).collect
    (horderly.optional.bind fun r => .pure (r.map (·, true)))

/-! ### Choice -/

/-- A lookahead runs as no other rule does, so its rule has to do the same in every context. -/
theorem shifts_attempt (h : ∀ c s, ShiftsAt rule c s) : Shifts (attempt rule) := by
  intro c s _ front before
  have hahead : { c.behind front with mode := .strict } =
      Context.behind front { c with mode := .strict } := rfl
  unfold attempt
  rw [Context.isCommitted_behind, hahead, h c s front before,
    h { c with mode := .strict } s front before]
  split
  · rfl
  · cases rule { c with mode := .strict } s <;> rfl

section

variable {rules : List (Rule α)} {c : Context} {s : State}

theorem firstOf_behind (h : ∀ r ∈ rules, Shifts r) (hs : c.Proper s)
    (front : Array (Located Token)) (before : List Diagnostic) :
    firstOf rules (c.behind front) (s.behind front.size before) =
      mapState (State.behind front.size before) (firstOf rules c s) := by
  induction rules generalizing s with
  | nil => rfl
  | cons rule rules ih =>
    rw [List.forall_mem_cons] at h
    rw [firstOf, firstOf, h.1 c s hs front before]
    cases rule c s with
    | ok a t => rfl
    | error why t =>
      simp only [mapState, State.rewind_behind, ih h.2 (hs.congr (t.rewind_cursor s))]
      cases firstOf rules c (t.rewind s) <;> rfl

theorem Shifts.hinted (h : Shifts rule) (expected : List Expected) :
    Shifts (hinted expected rule) := by
  intro c s hs front before
  unfold Rule.hinted
  have hhint : (s.behind front.size before).hint = s.hint := rfl
  rw [hhint]
  by_cases hsome : s.hint.isSome
  · rw [if_pos hsome, if_pos hsome]
    exact h c s hs front before
  · rw [if_neg hsome, if_neg hsome]
    have hcursor : State.cursor { s with hint := some expected } = s.cursor := rfl
    have hshift := h c { s with hint := some expected } (hs.congr hcursor) front before
    have hstart : { s.behind front.size before with hint := some expected } =
        State.behind front.size before { s with hint := some expected } := rfl
    rw [hstart, hshift]
    cases rule c { s with hint := some expected } <;> rfl

theorem Shifts.alt (h : ∀ r ∈ rules, Shifts r) : Shifts (alt rules) := by
  intro c s hs front before
  unfold Rule.alt
  rw [Context.speculating_behind, firstOf_behind h hs.speculating, Context.isCommitted_behind]
  cases hfirst : firstOf rules (c.speculating s) s with
  | ok a t => rfl
  | error failures t =>
    simp only [mapState]
    cases hcheapest : cheapest? rules failures with
    | none => rfl
    | some r =>
      have hcursor : t.cursor = s.cursor :=
        congrArg Progress.cursor (firstOf_progress.2 hfirst)
      dsimp only
      split
      · exact (h r (mem_of_cheapest? hcheapest)).hinted _ c t (hs.congr hcursor) front before
      · rfl

end

end Rule

end LuaSyntax
