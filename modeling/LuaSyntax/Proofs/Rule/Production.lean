import LuaSyntax.Proofs.Rule.Advance
/-!
# Productions

A production says what a rule does in terms of the rule itself. One that refers to the rule only
after a token has been consumed leaves no choice: one rule at most is as it says. A loop whose
rounds consume tokens is such a rule.
-/

namespace LuaSyntax

namespace Rule

variable {α β : Type} {rule : Rule α}

/-- The production refers to the rule only where fewer tokens are left. -/
def Consuming (production : Rule α → Rule α) : Prop :=
  ∀ (r r' : Rule α) (c : Context) (s : State),
    (∀ t, c.remaining t < c.remaining s → r c t = r' c t) → production r c s = production r' c s

/-- The rule is as the production says, and no other one is. -/
def Defines (production : Rule α → Rule α) (rule : Rule α) : Prop :=
  ∀ r, r = production r ↔ r = rule

theorem Consuming.defines {production : Rule α → Rule α} (h : Consuming production)
    (hrule : rule = production rule) : Defines production rule := by
  refine fun r => ⟨fun hr => ?_, fun hr => hr ▸ hrule⟩
  funext c s
  induction hn : c.remaining s using Nat.strongRecOn generalizing s with
  | ind n ih =>
    rw [hr, hrule]
    exact h r rule c s fun t ht => ih _ (hn ▸ ht) t rfl

/-! ### The next operator -/

/-- Reads the next token if it is an operator, and gives the operator with the span of the token.
Nothing happens otherwise. -/
def operatorAhead (op? : Token → Option α) : Rule (Option (Located α)) := fun c s =>
  match (c.next? s).bind fun t => (op? t.node).map (Located.mk · t.span) with
  | some op => .ok (some op) (s.advance 1)
  | none => .ok none s

theorem optional_oneOf (ops : List (Token × α)) :
    optional (oneOf ops) = operatorAhead (ops.lookup ·) := by
  funext c s
  unfold operatorAhead
  cases ops with
  | nil =>
    have hnone : optional (oneOf ([] : List (Token × α))) c s = .ok none s := optional_of_error rfl
    rw [hnone]
    cases c.next? s <;> rfl
  | cons op ops =>
    have hnext : (c.speculating s).next? s = c.next? s := by
      rw [Context.next?, Context.next?, c.stream_speculating]
    have hread : satisfy (.oneOf op.1 op.2 ops) (c.speculating s) s =
        match (c.next? s).bind fun t =>
          ((op :: ops).lookup t.node).map (Located.mk · t.span) with
        | some found => .ok found (s.advance 1)
        | none => supply (.oneOf op.1 op.2 ops) (c.speculating s) s := by
      rw [← hnext]
      rfl
    cases hfound : (c.next? s).bind fun t =>
        ((op :: ops).lookup t.node).map (Located.mk · t.span) with
    | some found =>
      rw [hfound] at hread
      exact optional_of_ok hread
    | none =>
      rw [hfound] at hread
      exact optional_of_error (hread.trans
        (supply_of_not_committed (not_isCommitted_speculating c s)))

/-- There is an operator, or nothing happens. -/
theorem operatorAhead_cases (op? : Token → Option α) (c : Context) (s : State) :
    (∃ op, operatorAhead op? c s = .ok (some op) (s.advance 1) ∧ s.cursor < c.stream.size) ∨
      operatorAhead op? c s = .ok none s := by
  unfold operatorAhead
  split
  · next op hop =>
    obtain ⟨t, ht, -⟩ := Option.bind_eq_some_iff.1 hop
    exact .inl ⟨op, rfl, lt_of_next? ht⟩
  · exact .inr rfl

/-- What comes after the next operator need agree only where fewer tokens are left. -/
theorem operatorAhead_bind_congr {op? : Token → Option α} {f f' : Option (Located α) → Rule β}
    {c : Context} {s t : State} (hforward : c.Forward s t) (hnone : f none c t = f' none c t)
    (hsome : ∀ op u, c.remaining u < c.remaining s → f (some op) c u = f' (some op) c u) :
    (operatorAhead op? >>= f) c t = (operatorAhead op? >>= f') c t := by
  rcases operatorAhead_cases op? c t with ⟨op, hop, hlt⟩ | hop
  · rw [bind_of_ok hop, bind_of_ok hop]
    have hle := hforward.cursor_le
    refine hsome op _ ?_
    unfold Context.remaining State.advance
    dsimp only
    omega
  · rw [bind_of_ok hop, bind_of_ok hop, hnone]

theorem Advances.bind_congr {f f' : α → Rule β} {c : Context} {s : State} (h : Advances rule)
    (hf : ∀ a t, c.Forward s t → f a c t = f' a c t) : (rule >>= f) c s = (rule >>= f') c s := by
  cases hrule : rule c s with
  | error why t => rw [bind_of_error hrule, bind_of_error hrule]
  | ok a t => rw [bind_of_ok hrule, bind_of_ok hrule, hf a t (h.forward hrule)]

theorem proceeds_oneOf (ops : List (Token × α)) : Proceeds (oneOf ops) := by
  cases ops with
  | nil => exact ⟨⟨nofun⟩, nofun⟩
  | cons op ops => exact proceeds_satisfy (.oneOf op.1 op.2 ops)

/-! ### Loops -/

/-- A loop whose rounds consume tokens does what one round does, and then it is run again. -/
theorem collect_eq {step : Rule (Option (α × Bool))}
    (h : ∀ {c s a t}, step c s = .ok (some (a, true)) t → c.remaining t < c.remaining s) :
    @Eq (Rule (List α)) (collect step) (do
      match ← step with
      | none => return []
      | some (a, false) => return [a]
      | some (a, true) => return a :: (← collect step)) := by
  funext c s
  rw [bind_apply]
  cases hstep : step c s with
  | error why t => rw [collect, hstep]
  | ok r t =>
    rcases r with _ | ⟨a, _ | _⟩
    · exact collect_of_none hstep
    · exact collect_of_last hstep
    · rw [collect, hstep]
      simp only [if_pos (h hstep)]
      cases hrest : collect step c t with
      | ok as u => exact (bind_of_ok (f := fun as => pure (a :: as)) hrest).symm
      | error why u => exact (bind_of_error (f := fun as => pure (a :: as)) hrest).symm

theorem Proceeds.many_eq (h : Proceeds rule) :
    many rule = (do
      match ← optional rule with
      | none => return []
      | some a => return a :: (← many rule)) := by
  have hround : many rule = (do
      match ← (do return (← optional rule).map (·, true)) with
      | none => return []
      | some (a, false) => return [a]
      | some (a, true) => return a :: (← many rule)) := by
    refine collect_eq fun {c s a t} hstep => ?_
    obtain ⟨r, u, hoptional, hrest⟩ := ok_of_bind hstep
    cases r with
    | none => cases hrest
    | some b =>
      cases hrest
      exact (h.toAdvances.optional.forward hoptional).remaining_lt (h.lt_of_some hoptional)
  refine hround.trans ?_
  rw [bind_assoc]
  refine congrArg (optional rule >>= ·) (funext fun r => ?_)
  cases r <;> rfl

end Rule

end LuaSyntax
