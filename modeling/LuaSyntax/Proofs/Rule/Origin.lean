import LuaSyntax.Proofs.Rule.Gives
import LuaSyntax.Rule.Skip
/-!
# Where the parts of a value come from

A rule accounts for certain parts of its value if each of them came about somewhere in its run, or
was there before. What coming about means is left open. Nothing that a rule records is ever taken
back once the rule has succeeded, so a part that came about early is still accounted for at the end.
-/

namespace LuaSyntax.Rule

variable {α β σ : Type} {root : Context} {Q : Progress → σ → Progress → Prop}
  {rule : Rule α} {f : α → List σ} {g : β → List σ} {known : List σ}

/-- The part came about in a run that had recorded no more than `ds` by then. -/
def CameAbout (Q : Progress → σ → Progress → Prop) (ds : List Diagnostic) (x : σ) : Prop :=
  ∃ p q, Q p x q ∧ q.diags <:+ ds

theorem CameAbout.mono {ds ds' : List Diagnostic} {x : σ} (h : CameAbout Q ds x)
    (hds : ds <:+ ds') : CameAbout Q ds' x := by
  obtain ⟨p, q, hx, hq⟩ := h
  exact ⟨p, q, hx, hq.trans hds⟩

/-- The parts `f` of the value are known beforehand, or come about while the rule runs. -/
def Accounts (root : Context) (Q : Progress → σ → Progress → Prop) (known : List σ)
    (rule : Rule α) (f : α → List σ) : Prop :=
  ∀ p a q, Gives root rule p a q →
    p.diags <:+ q.diags ∧ ∀ x ∈ f a, x ∈ known ∨ CameAbout Q q.diags x

/-! ### Sequencing -/

theorem Accounts.mono {f' : α → List σ} (h : Accounts root Q known rule f)
    (hf : ∀ a, f' a ⊆ f a ++ known) : Accounts root Q known rule f' := by
  intro p a q hgives
  obtain ⟨hpq, hparts⟩ := h p a q hgives
  refine ⟨hpq, fun x hx => ?_⟩
  rcases List.mem_append.1 (hf a hx) with hfa | hknown
  · exact hparts x hfa
  · exact .inl hknown

theorem Accounts.weaken {known' : List σ} (h : Accounts root Q known rule f)
    (hknown : known ⊆ known') : Accounts root Q known' rule f := by
  intro p a q hgives
  obtain ⟨hpq, hparts⟩ := h p a q hgives
  exact ⟨hpq, fun x hx => (hparts x hx).imp_left fun hx => hknown hx⟩

theorem Accounts.pure {a : α} (h : f a ⊆ known) : Accounts root Q known (pure a) f := by
  intro p b q hgives
  obtain ⟨rfl, rfl⟩ := hgives.of_pure
  exact ⟨List.suffix_rfl, fun x hx => .inl (h hx)⟩

/-- The parts of the first value are known when the rest is run. -/
theorem Accounts.bind {k : α → Rule β} (h : Accounts root Q known rule f)
    (hk : ∀ a, Accounts root Q (f a ++ known) (k a) g) : Accounts root Q known (rule >>= k) g := by
  intro p b q hgives
  obtain ⟨a, r, hrule, hrest⟩ := hgives.of_bind
  obtain ⟨hpr, hfirst⟩ := h p a r hrule
  obtain ⟨hrq, hthen⟩ := hk a r b q hrest
  refine ⟨hpr.trans hrq, fun x hx => ?_⟩
  rcases hthen x hx with hknown | hx
  · rcases List.mem_append.1 hknown with hfa | hknown
    · exact (hfirst x hfa).imp_right (·.mono hrq)
    · exact .inl hknown
  · exact .inr hx

theorem Accounts.map {k : α → β} (h : Accounts root Q known rule f)
    (hg : ∀ a, g (k a) ⊆ f a ++ known) : Accounts root Q known (k <$> rule) g := by
  intro p b q hgives
  obtain ⟨a, hrule, rfl⟩ := hgives.of_map
  have hmono : Accounts root Q known rule (g ∘ k) := h.mono hg
  exact hmono p a q hrule

theorem Accounts.located (h : Accounts root Q known rule f) :
    Accounts root Q known (located rule) fun a => f a.node := by
  intro p a q hgives
  exact h p a.node q hgives.of_located.1

/-! ### Choices and optional parts -/

theorem Accounts.alt {rules : List (Rule α)} (h : ∀ r ∈ rules, Accounts root Q known r f) :
    Accounts root Q known (alt rules) f := by
  intro p a q hgives
  obtain ⟨r, hr, hrule⟩ := hgives.of_alt
  exact h r hr p a q hrule

theorem Accounts.optional (h : Accounts root Q known rule f) :
    Accounts root Q known (optional rule) fun r => r.toList.flatMap f := by
  intro p r q hgives
  rcases hgives.of_optional with ⟨rfl, rfl⟩ | ⟨a, rfl, hrule⟩
  · exact ⟨List.suffix_rfl, nofun⟩
  · simpa using h p a q hrule

theorem Accounts.attempt (h : Accounts root Q known rule f) :
    Accounts root Q known (attempt rule) f := by
  intro p a q hgives
  exact h p a q hgives.of_attempt

/-! ### Loops -/

/-- What a loop has accounted for in its rounds, it has accounted for at its end. -/
theorem Accounts.collect {step : Rule (Option (α × Bool))}
    (h : Accounts root Q known step fun r => r.toList.flatMap fun r => f r.1) :
    Accounts root Q known (collect step) fun as => as.flatMap f := by
  intro p as q hgives
  have hloop := hgives.of_collect
  clear hgives
  induction hloop with
  | stop hstep => exact ⟨(h _ _ _ hstep).1, nofun⟩
  | last hstep => simpa using h _ _ _ hstep
  | stalled hstep => exact ⟨(h _ _ _ hstep).1, nofun⟩
  | @more p r q a as hstep _ ih =>
    obtain ⟨hpr, hfirst⟩ := h p _ r hstep
    obtain ⟨hrq, hrest⟩ := ih
    refine ⟨hpr.trans hrq, fun x hx => ?_⟩
    simp only [List.flatMap_cons, List.mem_append] at hx
    rcases hx with hx | hx
    · exact (hfirst x (by simpa using hx)).imp_right (·.mono hrq)
    · exact hrest x hx

theorem Accounts.collect_of_nil {step : Rule (Option (α × Bool))}
    (h : Accounts root Q known step fun _ => []) :
    Accounts root Q known (Rule.collect step) fun _ => [] := by
  have hloop : Accounts root Q known (Rule.collect step) fun as => as.flatMap fun _ => [] :=
    .collect (h.mono fun r => by cases r <;> simp)
  exact hloop.mono fun _ => List.nil_subset _

theorem Accounts.many (h : Accounts root Q known rule f) :
    Accounts root Q known (many rule) fun as => as.flatMap f :=
  .collect (h.optional.map fun r => by cases r <;> simp)

theorem Accounts.sepBy1 {separator : Rule β} (h : Accounts root Q known rule f)
    (hseparator : Accounts root Q known separator fun _ => []) :
    Accounts root Q known (sepBy1 rule separator) fun as => as.flatMap f := by
  have hnext : Accounts root Q known (do let _ ← separator; rule) f := hseparator.bind fun _ => h
  refine h.bind fun first => .map (hnext.many.weaken ?_) fun others => ?_
  · exact List.subset_append_right _ _
  · simp

/-! ### Rules whose values have no such parts -/

/-- Diagnostics are only added. -/
def Grows (rule : Rule α) : Prop :=
  ∀ c s a s', rule c s = .ok a s' → s.diags <:+ s'.diags

theorem Grows.accounts (h : Grows rule) : Accounts root Q known rule fun _ => [] := by
  intro p a q hgives
  obtain ⟨c, s, s', -, rfl, hok, rfl⟩ := hgives
  exact ⟨h c s a s' hok, nofun⟩

theorem grows_satisfy (m : Matcher α) : Grows (satisfy m) := by
  intro c s a s' hok
  rcases accept_or_reject m c s with ⟨t, b, found, accepted⟩ | hsupply
  · rw [satisfy_of_accept found accepted] at hok
    cases hok
    exact List.suffix_rfl
  · rw [hsupply, supply] at hok
    split at hok
    · cases hok
      exact List.suffix_cons _ _
    · cases hok

theorem accounts_satisfy (m : Matcher α) : Accounts root Q known (satisfy m) fun _ => [] :=
  (grows_satisfy m).accounts

theorem accounts_token (t : Token) : Accounts root Q known (token t) fun _ => [] :=
  (accounts_satisfy _).map fun _ => List.nil_subset _

theorem accounts_keyword (k : Keyword) : Accounts root Q known (keyword k) fun _ => [] :=
  accounts_token _

theorem accounts_symbol (s : Symbol) : Accounts root Q known (symbol s) fun _ => [] :=
  accounts_token _

theorem accounts_name : Accounts root Q known name fun _ => [] :=
  accounts_satisfy _

theorem accounts_oneOf (ops : List (Token × α)) :
    Accounts root Q known (oneOf ops) fun _ => [] := by
  cases ops with
  | nil => exact Grows.accounts nofun
  | cons op others => exact accounts_satisfy _

theorem accounts_stuck (expected : List Expected) (cost : Nat) :
    Accounts root Q known (stuck expected cost) f := by
  intro p a q hgives
  exact (not_gives_stuck hgives).elim

/-- A rule that only looks at the state. -/
theorem accounts_of_ok (h : ∀ c s, ∃ a, rule c s = .ok a s) :
    Accounts root Q known rule fun _ => [] := by
  intro p a q hgives
  rw [hgives.of_look h]
  exact ⟨List.suffix_rfl, nofun⟩

theorem accounts_mark : Accounts root Q known mark fun _ => [] :=
  accounts_of_ok fun _ _ => ⟨_, rfl⟩

theorem accounts_peek : Accounts root Q known peek fun _ => [] :=
  accounts_of_ok fun _ _ => ⟨_, rfl⟩

theorem accounts_record (d : Diagnostic) : Accounts root Q known (record d) fun _ => [] := by
  refine Grows.accounts fun c s a s' hok => ?_
  cases hok
  exact List.suffix_cons _ _

theorem grows_skipTokens (count : Nat) (expected : List Expected) :
    Grows (skipTokens count expected) := by
  intro c s a s' hok
  unfold skipTokens at hok
  dsimp only at hok
  split at hok
  · cases hok
    exact List.suffix_rfl
  · cases hok
    exact List.suffix_cons _ _

theorem accounts_skipTokens (count : Nat) (expected : List Expected) :
    Accounts root Q known (skipTokens count expected) fun _ => [] :=
  (grows_skipTokens count expected).accounts

theorem accounts_skipLevel (separators : Bool) :
    Accounts root Q known (skipLevel separators) fun _ => [] := by
  refine Grows.accounts fun c s a s' hok => ?_
  unfold skipLevel at hok
  dsimp only at hok
  split at hok
  · cases hok
    exact List.suffix_rfl
  · cases hok
    exact List.suffix_cons _ _

end LuaSyntax.Rule
