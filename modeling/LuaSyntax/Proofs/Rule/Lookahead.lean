import LuaSyntax.Proofs.Rule.Advance
/-!
# Pure lookahead

In pure lookahead a rule repairs nothing: whether it gives a value or is stuck, no token has been
put in. Each way to put rules together keeps to this, so it holds of a rule because it holds of its
parts.
-/

namespace LuaSyntax

/-- Nothing that has been recorded between `s` and `t` puts in a token. -/
def State.NothingInserted (s t : State) : Prop :=
  ∃ ds, t.diags = ds ++ s.diags ∧ ∀ d ∈ ds, d.inserted? = none

namespace State.NothingInserted

variable {s t u : State}

theorem of_eq (h : t.diags = s.diags) : s.NothingInserted t := ⟨[], h, List.forall_mem_nil _⟩

theorem refl (s : State) : s.NothingInserted s := .of_eq rfl

theorem trans (h : s.NothingInserted t) (h' : t.NothingInserted u) : s.NothingInserted u := by
  obtain ⟨ds, hdiags, hds⟩ := h
  obtain ⟨es, hdiags', hes⟩ := h'
  refine ⟨es ++ ds, by rw [hdiags', hdiags, List.append_assoc], ?_⟩
  exact List.forall_mem_append.2 ⟨hes, hds⟩

/-- Only the diagnostics matter. -/
theorem congr {s' t' : State} (h : s.NothingInserted t) (hs : s'.diags = s.diags)
    (ht : t'.diags = t.diags) : s'.NothingInserted t' := by
  unfold NothingInserted
  rwa [hs, ht]

theorem record {d : Diagnostic} (hd : d.inserted? = none) (ht : t.diags = d :: s.diags) :
    s.NothingInserted t :=
  ⟨[d], ht, List.forall_mem_singleton.2 hd⟩

end State.NothingInserted

namespace Rule

variable {α β : Type} {rule : Rule α} {f : α → Rule β} {c : Context} {s t : State}

/-- The state after a run, whether it gives a value or is stuck. -/
def stateAfter : EStateM.Result Stuck State α → State
  | .ok _ t => t
  | .error _ t => t

/-- In pure lookahead the rule puts in nothing. -/
def Watches (rule : Rule α) : Prop :=
  ∀ (c : Context) (s : State), c.mode = .strict → s.NothingInserted (stateAfter (rule c s))

theorem Watches.of_ok (h : Watches rule) (hc : c.mode = .strict) {a : α}
    (hok : rule c s = .ok a t) : s.NothingInserted t := by
  have hrule := h c s hc
  rwa [hok] at hrule

theorem Watches.of_error (h : Watches rule) (hc : c.mode = .strict) {why : Stuck}
    (herr : rule c s = .error why t) : s.NothingInserted t := by
  have hrule := h c s hc
  rwa [herr] at hrule

theorem isCommitted_of_strict (hc : c.mode = .strict) (s : State) : c.isCommitted s = false := by
  rw [Context.isCommitted, hc]

theorem speculating_of_strict (hc : c.mode = .strict) (s : State) : c.speculating s = c := by
  rw [Context.speculating, hc]

/-! ### Single steps -/

theorem watches_of_ok {g : Context → State → α} (hok : ∀ c s, rule c s = .ok (g c s) s) :
    Watches rule := by
  intro c s _
  rw [hok c s]
  exact .refl s

theorem watches_pure (a : α) : Watches (pure a : Rule α) := watches_of_ok fun _ _ => rfl

theorem watches_record {d : Diagnostic} (hd : d.inserted? = none) : Watches (record d) :=
  fun _ _ _ => .record hd rfl

theorem watches_supply (m : Matcher α) : Watches (supply m) := by
  intro c s hc
  rw [supply_of_not_committed (isCommitted_of_strict hc s)]
  exact .refl s

theorem watches_satisfy (m : Matcher α) : Watches (satisfy m) := by
  intro c s hc
  unfold satisfy
  split
  · exact .of_eq rfl
  · exact watches_supply m c s hc

theorem watches_skipTokens (count : Nat) (expected : List Expected) :
    Watches (skipTokens count expected) := by
  intro c s _
  by_cases hskipped : min count (c.remaining s) = 0
  · rw [show skipTokens count expected c s = .ok () s from if_pos hskipped]
    exact .refl s
  · rw [show skipTokens count expected c s = .ok () _ from if_neg hskipped]
    exact .record rfl rfl

theorem watches_skipLevel (separators : Bool) : Watches (skipLevel separators) := by
  intro c s _
  rcases skipLevel_spec separators c s with hnone | ⟨count, span, -, -, -, hskipped⟩
  · rw [hnone]
    exact .refl s
  · rw [hskipped]
    exact .record rfl rfl

/-! ### Rules put together -/

theorem Watches.bind (h : Watches rule) (hf : ∀ a, Watches (f a)) : Watches (rule >>= f) := by
  intro c s hc
  cases hrule : rule c s with
  | ok a t =>
    rw [bind_of_ok hrule]
    exact (h.of_ok hc hrule).trans (hf a c t hc)
  | error why t =>
    rw [bind_of_error hrule]
    exact h.of_error hc hrule

theorem Watches.located (h : Watches rule) : Watches (located rule) :=
  Watches.bind (watches_of_ok fun _ _ => rfl) fun _ => h.bind fun _ =>
    Watches.bind (watches_of_ok fun _ _ => rfl) fun _ => watches_pure _

theorem Watches.optional (h : Watches rule) : Watches (optional rule) := by
  intro c s hc
  rcases optional_cases rule c s with ⟨a, t, hrule, hsome⟩ | ⟨why, t, -, hnone⟩
  · rw [speculating_of_strict hc] at hrule
    rw [hsome]
    exact h.of_ok hc hrule
  · rw [hnone]
    exact .of_eq rfl

theorem Watches.collect {step : Rule (Option (α × Bool))} (h : Watches step) :
    Watches (collect step) := by
  intro c s hc
  induction hn : c.remaining s using Nat.strongRecOn generalizing s with
  | ind n ih =>
    rw [Rule.collect]
    split
    · next hstep => exact h.of_error hc hstep
    · next hstep => exact h.of_ok hc hstep
    · next hstep => exact h.of_ok hc hstep
    · next t hstep =>
      have ht := h.of_ok hc hstep
      split
      · next hmoved =>
        have hrest := ih _ (hn ▸ hmoved) t rfl
        cases hcollect : Rule.collect step c t with
        | ok as u =>
          rw [hcollect] at hrest
          exact ht.trans hrest
        | error why u =>
          rw [hcollect] at hrest
          exact ht.trans hrest
      · exact ht

theorem Watches.many (h : Watches rule) : Watches (many rule) :=
  (h.optional.bind fun r => watches_pure (r.map (·, true))).collect

theorem Watches.sepBy1 {separator : Rule β} (h : Watches rule) (hseparator : Watches separator) :
    Watches (sepBy1 rule separator) :=
  h.bind fun _ => (hseparator.bind fun _ => h).many.bind fun _ => watches_pure _

theorem Watches.alt {rules : List (Rule α)} (h : ∀ r ∈ rules, Watches r) : Watches (alt rules) := by
  intro c s hc
  unfold Rule.alt
  rw [speculating_of_strict hc, isCommitted_of_strict hc]
  split
  · next hfirst =>
    obtain ⟨r, hr, u, hu, hrule⟩ := firstOf_progress.1 hfirst
    exact ((h r hr).of_ok hc hrule).congr (congrArg Progress.diags hu).symm rfl
  · next hfirst =>
    have hdiags := congrArg Progress.diags (firstOf_progress.2 hfirst)
    split <;> exact .of_eq hdiags

theorem Watches.attempt (h : Watches rule) : Watches (attempt rule) := by
  intro c s hc
  rcases attempt_cases rule (isCommitted_of_strict hc s) with
    ⟨a, t, hrule, hok⟩ | ⟨why, t, -, herr⟩
  · rw [hok]
    exact h.of_ok rfl hrule
  · rw [herr]
    exact .of_eq rfl

theorem watches_endOfInput : Watches endOfInput := by
  intro c s hc
  unfold endOfInput
  rw [isCommitted_of_strict hc]
  split <;> exact .refl s

/-- A lookahead from an uncommitted state puts in nothing, and if it is stuck it leaves no trace
but a hint that may have been used. -/
theorem Watches.attempt_uncommitted (h : Watches rule) (hc : c.isCommitted s = false) :
    (∃ a t, Rule.attempt rule c s = .ok a t ∧ s.NothingInserted t) ∨
      ∃ why hint, Rule.attempt rule c s = .error why { s with hint } := by
  rcases attempt_cases rule hc with ⟨a, t, hrule, hok⟩ | ⟨why, t, -, herr⟩
  · exact .inl ⟨a, t, hok, h.of_ok rfl hrule⟩
  · exact .inr ⟨why, t.hint, herr⟩

end Rule

end LuaSyntax
