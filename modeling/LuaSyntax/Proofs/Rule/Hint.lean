import LuaSyntax.Proofs.Rule.Repair
/-!
# What becomes of a hint

A hint is for the first token that is put in: a rule either puts in nothing and leaves the hint, or
the first diagnostic for a token that it puts in lists what the hint says (`Spends`). Apart from
that, neither the hint nor anything recorded before makes a difference to what a rule reads
(`Heedless`).
-/

namespace LuaSyntax

/-- What was expected, if the diagnostic puts in a token in place of one that was found or for one
that is missing at the end. -/
def Diagnostic.filled? (d : Diagnostic) : Option (List Expected) :=
  match d.cause, d.repair with
  | .unexpected _ expected, .inserted _ _ => some expected
  | _, _ => none

namespace Context

variable {c : Context} {s s' : State}

/-- The last speculation counts. -/
theorem speculating_speculating (c : Context) (s t : State) :
    (c.speculating s).speculating t = c.speculating t := by
  obtain ⟨stream, mode, limit⟩ := c
  cases mode <;> rfl

theorem speculating_congr (h : s'.cursor = s.cursor) : c.speculating s' = c.speculating s := by
  unfold speculating
  rw [h]

theorem next?_congr (h : s'.cursor = s.cursor) : c.next? s' = c.next? s := by
  unfold next?
  rw [h]

theorem pos_congr (h : s'.cursor = s.cursor) : c.pos s' = c.pos s := by
  unfold pos
  rw [h]

theorem ahead_congr (h : s'.cursor = s.cursor) : c.ahead s' = c.ahead s := by
  unfold ahead
  rw [h]

theorem remaining_congr (h : s'.cursor = s.cursor) : c.remaining s' = c.remaining s := by
  unfold remaining
  rw [h]

end Context

namespace State

/-- No token has been put in between `s` and `t` where another one was found. -/
def NothingFilled (s t : State) : Prop :=
  ∃ ds, t.diags = ds ++ s.diags ∧ ∀ d ∈ ds, d.filled? = none

/-- From `s` to `t` the hint was left, or the first token that was put in took it. -/
inductive Spends (hint : List Expected) (s t : State) : Prop
  | left (nothing : s.NothingFilled t) (hint_eq : t.hint = some hint)
  | taken (later earlier : List Diagnostic) (d : Diagnostic)
    (diags : t.diags = later ++ d :: (earlier ++ s.diags))
    (nothing : ∀ e ∈ earlier, e.filled? = none) (filled : d.filled? = some hint)

variable {hint : List Expected} {s s' t t' u : State}

namespace NothingFilled

theorem of_eq (h : t.diags = s.diags) : s.NothingFilled t := ⟨[], h, List.forall_mem_nil _⟩

theorem trans (h : s.NothingFilled t) (h' : t.NothingFilled u) : s.NothingFilled u := by
  obtain ⟨ds, hdiags, hds⟩ := h
  obtain ⟨es, hdiags', hes⟩ := h'
  refine ⟨es ++ ds, by rw [hdiags', hdiags, List.append_assoc], ?_⟩
  exact List.forall_mem_append.2 ⟨hes, hds⟩

theorem record {d : Diagnostic} (hd : d.filled? = none) (ht : t.diags = d :: s.diags) :
    s.NothingFilled t :=
  ⟨[d], ht, List.forall_mem_singleton.2 hd⟩

/-- All that has been recorded is what fills nothing. -/
theorem none_of_mem (h : s.NothingFilled t) {ds : List Diagnostic} (ht : t.diags = ds ++ s.diags) :
    ∀ d ∈ ds, d.filled? = none := by
  obtain ⟨es, hdiags, hes⟩ := h
  obtain rfl := List.append_cancel_right (ht.symm.trans hdiags)
  exact hes

end NothingFilled

namespace Spends

theorem refl (h : s.hint = some hint) : s.Spends hint s := .left (.of_eq rfl) h

theorem record {d : Diagnostic} (hd : d.filled? = none) (hdiags : t.diags = d :: s.diags)
    (hhint : t.hint = some hint) : s.Spends hint t :=
  .left (.record hd hdiags) hhint

/-- Once the hint is taken, it does not matter what comes after. -/
theorem extend {later earlier : List Diagnostic} {d : Diagnostic}
    (ht : t.diags = later ++ d :: (earlier ++ s.diags)) (hu : t.diags <:+ u.diags)
    (hearlier : ∀ e ∈ earlier, e.filled? = none) (hd : d.filled? = some hint) :
    s.Spends hint u := by
  obtain ⟨more, hmore⟩ := hu
  refine .taken (more ++ later) earlier d ?_ hearlier hd
  rw [← hmore, ht, List.append_assoc]

theorem trans (h : s.Spends hint t) (hnext : t.hint = some hint → t.Spends hint u)
    (hdiags : t.diags <:+ u.diags) : s.Spends hint u := by
  cases h with
  | taken later earlier d ht hearlier hd => exact extend ht hdiags hearlier hd
  | left hnothing hhint =>
    cases hnext hhint with
    | left hnothing' hhint' => exact .left (hnothing.trans hnothing') hhint'
    | taken later earlier d hu hearlier hd =>
      obtain ⟨ds, ht, hds⟩ := hnothing
      refine .taken later (earlier ++ ds) d ?_ (List.forall_mem_append.2 ⟨hearlier, hds⟩) hd
      rw [hu, ht, List.append_assoc]

end Spends

end State

namespace Rule

variable {α β : Type} {rule rule' : Rule α} {f : α → Rule β}

/-- A run that starts with a hint spends it on the first token that it puts in. -/
structure Spends (rule : Rule α) : Prop extends Orderly rule where
  spends : ∀ {c s a t hint}, c.Proper s → s.hint = some hint → rule c s = .ok a t →
    s.Spends hint t

theorem filled?_of_unrepaired {d : Diagnostic} (h : d.repair = .unrepaired) : d.filled? = none := by
  unfold Diagnostic.filled?
  rw [h]
  cases d.cause <;> rfl

namespace Spends

/-- A rule that only looks. -/
theorem of_same (horderly : Orderly rule)
    (hsame : ∀ {c s a t}, rule c s = .ok a t → t = s) : Spends rule where
  toOrderly := horderly
  spends _ hhint hok := by
    obtain rfl := hsame hok
    exact .refl hhint

theorem pure (a : α) : Spends (pure a) :=
  .of_same (.pure a) fun hok => by cases hok; rfl

theorem look (g : Option (Located Token) → α) : Spends (look g) :=
  .of_same (orderly_look g) fun hok => by cases hok; rfl

theorem record {d : Diagnostic} (hd : d.filled? = none) : Spends (record d) where
  toOrderly := orderly_record d
  spends _ hhint hok := by
    cases hok
    exact .record hd rfl hhint

/-- The token that a matcher puts in takes the hint. -/
theorem satisfy (m : Matcher α) : Spends (satisfy m) where
  toOrderly := orderly_satisfy m
  spends {c s a t hint} _ hhint hok := by
    rcases accept_or_reject m c s with ⟨u, b, found, accepted⟩ | hsupply
    · rw [satisfy_of_accept found accepted] at hok
      cases hok
      exact .left (.of_eq rfl) hhint
    · rw [hsupply, supply] at hok
      split at hok <;> cases hok
      refine .taken [] [] (insertion m c s) rfl (List.forall_mem_nil _) ?_
      rw [insertion, hhint]
      rfl

theorem skipTokens (count : Nat) (expected : List Expected) :
    Spends (skipTokens count expected) where
  toOrderly := orderly_skipTokens count expected
  spends {c s a t hint} _ hhint hok := by
    by_cases hskipped : min count (c.remaining s) = 0
    · cases (if_pos hskipped).symm.trans hok
      exact .refl hhint
    · cases (if_neg hskipped).symm.trans hok
      exact .record rfl rfl hhint

theorem skipAhead (count : List Token → Nat) (expected : List Expected) :
    Spends fun c s => Rule.skipTokens (count (c.ahead s)) expected c s where
  toOrderly := orderly_skipAhead count expected
  spends hs hhint hok := (skipTokens _ _).spends hs hhint hok

theorem bind (h : Spends rule) (hf : ∀ a, Spends (f a)) : Spends (rule >>= f) where
  toOrderly := h.toOrderly.bind fun a => (hf a).toOrderly
  spends hs hhint hok := by
    obtain ⟨a, t, hrule, hrest⟩ := ok_of_bind hok
    have ht := (h.onward hs hrule).proper hs
    exact (h.spends hs hhint hrule).trans (fun hhint' => (hf a).spends ht hhint' hrest)
      ((hf a).onward ht hrest).diags

theorem congr (h : Spends rule) (hsame : ∀ c s, c.Proper s → rule' c s = rule c s) :
    Spends rule' where
  onward hs hok := h.onward hs ((hsame _ _ hs).symm.trans hok)
  completes hs herr := h.completes hs ((hsame _ _ hs).symm.trans herr)
  spends hs hhint hok := h.spends hs hhint ((hsame _ _ hs).symm.trans hok)

theorem located (h : Spends rule) : Spends (located rule) where
  toOrderly := h.toOrderly.located
  spends hs hhint hok := h.spends hs hhint (ok_of_located hok).1

theorem optional (h : Spends rule) (hopening : Opening rule) : Spends (optional rule) where
  toOrderly := h.toOrderly.optional
  spends {c s a t hint} hs hhint hok := by
    rcases hopening.optional_cases hs with ⟨b, u, hrule, hsome, -⟩ | ⟨-, hnone⟩
    · cases hsome.symm.trans hok
      exact h.spends hs.speculating hhint hrule
    · cases hnone.symm.trans hok
      exact .refl hhint

theorem collect {step : Rule (Option (α × Bool))} (h : Spends step) : Spends (collect step) where
  toOrderly := h.toOrderly.collect
  spends {c s as t hint} hs hhint hok := by
    have hrounds := loopRun_of_collect hok
    clear hok
    induction hrounds with
    | stop hstep => exact h.spends hs hhint hstep
    | last hstep => exact h.spends hs hhint hstep
    | stalled hstep _ => exact h.spends hs hhint hstep
    | more hstep _ rest ih =>
      have ht := (h.onward hs hstep).proper hs
      exact (h.spends hs hhint hstep).trans (ih ht)
        (rest.onward h.toOrderly ht).diags

theorem many (h : Spends rule) (hopening : Opening rule) : Spends (many rule) :=
  ((h.optional hopening).bind fun r => .pure (r.map (·, true))).collect

/-- A choice that is made while a hint is pending passes that one on. -/
theorem alt {rules : List (Rule α)} (hne : rules ≠ []) (h : ∀ r ∈ rules, Spends r)
    (hopening : ∀ r ∈ rules, Opening r) : Spends (alt rules) where
  toOrderly := (Opening.alt hne hopening).toOrderly
  spends {c s a t hint} hs hhint hok := by
    cases hfirst : firstOf rules (c.speculating s) s with
    | ok b u =>
      obtain ⟨r, hr, hrule⟩ := Opening.of_firstOf hopening hs.speculating hfirst
      simp only [Rule.alt, hfirst] at hok
      cases hok
      exact (h r hr).spends hs.speculating hhint hrule
    | error failures u =>
      obtain ⟨-, hall⟩ := Opening.allStuck hopening hs.speculating hfirst
      obtain ⟨rule, hrule, -, -, -, -, hhinted⟩ := hinted_of_allStuck hall hok
      rw [hinted, if_pos (by rw [hhint]; rfl)] at hhinted
      exact (h rule hrule).spends hs hhint hhinted

end Spends

/-! ### What makes no difference -/

/-- Both runs give the same value at the same cursor, or both are stuck for the same reason. -/
def SameCourse {ε : Type} (r r' : EStateM.Result ε State α) : Prop :=
  (∃ a t t', r = .ok a t ∧ r' = .ok a t' ∧ t'.cursor = t.cursor) ∨
    ∃ why t t', r = .error why t ∧ r' = .error why t'

theorem SameCourse.ok {ε : Type} (a : α) {t t' : State} (h : t'.cursor = t.cursor) :
    SameCourse (.ok a t : EStateM.Result ε State α) (.ok a t') :=
  .inl ⟨a, t, t', rfl, rfl, h⟩

theorem SameCourse.error {ε : Type} (why : ε) (t t' : State) :
    SameCourse (.error why t : EStateM.Result ε State α) (.error why t') :=
  .inr ⟨why, t, t', rfl, rfl⟩

theorem SameCourse.bind {c : Context} {s s' : State} (h : SameCourse (rule c s) (rule c s'))
    (hf : ∀ a t t', rule c s = .ok a t → t'.cursor = t.cursor → SameCourse (f a c t) (f a c t')) :
    SameCourse ((rule >>= f) c s) ((rule >>= f) c s') := by
  rcases h with ⟨a, t, t', hok, hok', hcursor⟩ | ⟨why, t, t', herr, herr'⟩
  · rw [bind_of_ok hok, bind_of_ok hok']
    exact hf a t t' hok hcursor
  · rw [bind_of_error herr, bind_of_error herr']
    exact .error why t t'

theorem sameCourse_pure (a : α) (c : Context) {s s' : State} (hcursor : s'.cursor = s.cursor) :
    SameCourse ((pure a : Rule α) c s) ((pure a : Rule α) c s') :=
  .ok a hcursor

theorem sameCourse_satisfy (m : Matcher α) (c : Context) {s s' : State}
    (hcursor : s'.cursor = s.cursor) : SameCourse (satisfy m c s) (satisfy m c s') := by
  unfold Rule.satisfy
  rw [Context.next?_congr hcursor]
  split
  · exact .ok _ (congrArg (· + 1) hcursor)
  · unfold supply
    rw [Context.isCommitted_congr hcursor, Context.pos_congr hcursor]
    split
    · exact .ok _ hcursor
    · exact .error _ _ _

theorem SameCourse.symm {ε : Type} {r r' : EStateM.Result ε State α} (h : SameCourse r r') :
    SameCourse r' r := by
  rcases h with ⟨a, t, t', hok, hok', hcursor⟩ | ⟨why, t, t', herr, herr'⟩
  · exact .inl ⟨a, t', t, hok', hok, hcursor.symm⟩
  · exact .inr ⟨why, t', t, herr', herr⟩

theorem SameCourse.trans {ε : Type} {r r' r'' : EStateM.Result ε State α} (h : SameCourse r r')
    (h' : SameCourse r' r'') : SameCourse r r'' := by
  rcases h with ⟨a, t, t', hok, rfl, hcursor⟩ | ⟨why, t, t', herr, rfl⟩
  · rcases h' with ⟨b, u, u', hb, hok', hcursor'⟩ | ⟨why, u, u', herr, -⟩
    · cases hb
      exact .inl ⟨a, t, u', hok, hok', hcursor'.trans hcursor⟩
    · cases herr
  · rcases h' with ⟨b, u, u', hb, -, -⟩ | ⟨why', u, u', hwhy, herr'⟩
    · cases hb
    · cases hwhy
      exact .inr ⟨why, t, u', herr, herr'⟩

/-- The rule does the same whatever has been recorded and whatever the hint is. -/
def Heedless (rule : Rule α) : Prop :=
  ∀ ⦃c s s'⦄, c.Proper s → s'.cursor = s.cursor → SameCourse (rule c s) (rule c s')

namespace Heedless

theorem pure (a : α) : Heedless (pure a) := fun _ _ _ _ hcursor => .ok a hcursor

theorem look (g : Option (Located Token) → α) : Heedless (look g) := by
  intro c s s' _ hcursor
  unfold Rule.look
  rw [Context.next?_congr hcursor]
  exact .ok _ hcursor

theorem record (d : Diagnostic) : Heedless (record d) :=
  fun _ _ _ _ hcursor => .ok () hcursor

theorem satisfy (m : Matcher α) : Heedless (satisfy m) :=
  fun c _ _ _ hcursor => sameCourse_satisfy m c hcursor

theorem skipTokens (count : Nat) (expected : List Expected) :
    Heedless (skipTokens count expected) := by
  intro c s s' _ hcursor
  unfold Rule.skipTokens
  rw [Context.remaining_congr hcursor]
  dsimp only
  split
  · exact .ok _ hcursor
  · exact .ok _ (congrArg (· + _) hcursor)

theorem skipAhead (count : List Token → Nat) (expected : List Expected) :
    Heedless fun c s => Rule.skipTokens (count (c.ahead s)) expected c s := by
  intro c s s' hs hcursor
  dsimp only
  rw [Context.ahead_congr hcursor]
  exact skipTokens _ expected hs hcursor

theorem skipLevel (separators : Bool) : Heedless (skipLevel separators) := by
  intro c s s' _ hcursor
  unfold Rule.skipLevel
  dsimp only
  rw [hcursor]
  split
  · exact .ok _ hcursor
  · exact .ok _ (congrArg (· + _) hcursor)

theorem bind (h : Heedless rule) (horderly : Orderly rule) (hf : ∀ a, Heedless (f a)) :
    Heedless (rule >>= f) := fun _ _ _ hs hcursor =>
  (h hs hcursor).bind fun a _ _ hok hcursor' =>
    hf a ((horderly.onward hs hok).proper hs) hcursor'

theorem congr (h : Heedless rule) (hsame : ∀ c s, c.Proper s → rule' c s = rule c s) :
    Heedless rule' := by
  intro c s s' hs hcursor
  rw [hsame c s hs, hsame c s' (hs.congr hcursor)]
  exact h hs hcursor

theorem located (h : Heedless rule) : Heedless (located rule) := by
  intro c s s' hs hcursor
  rcases h hs hcursor with ⟨a, t, t', hok, hok', hcursor'⟩ | ⟨why, t, t', herr, herr'⟩
  · rw [located_of_ok hok, located_of_ok hok', hcursor, hcursor']
    exact .ok _ hcursor'
  · rw [located_of_error herr, located_of_error herr']
    exact .error why t t'

theorem optional (h : Heedless rule) : Heedless (optional rule) := by
  intro c s s' hs hcursor
  unfold Rule.optional
  rw [Context.speculating_congr hcursor]
  rcases h hs.speculating hcursor with ⟨a, t, t', hok, hok', hcursor'⟩ | ⟨why, t, t', herr, herr'⟩
  · rw [hok, hok']
    exact .ok _ hcursor'
  · rw [herr, herr']
    exact .ok _ hcursor

theorem collect {step : Rule (Option (α × Bool))} (h : Heedless step) (horderly : Orderly step) :
    Heedless (collect step) := by
  intro c s s' hs hcursor
  induction hn : c.remaining s using Nat.strongRecOn generalizing s s' with
  | ind n ih =>
    rw [Rule.collect.eq_def step c s, Rule.collect.eq_def step c s']
    rcases h hs hcursor with ⟨r, t, t', hstep, hstep', hcursor'⟩ | ⟨why, t, t', herr, herr'⟩
    · rw [hstep, hstep']
      rcases r with _ | ⟨a, _ | _⟩
      · exact .ok _ hcursor'
      · exact .ok _ hcursor'
      · dsimp only
        rw [Context.remaining_congr hcursor, Context.remaining_congr hcursor']
        by_cases hmoved : c.remaining t < c.remaining s
        · rw [if_pos hmoved, if_pos hmoved]
          have ht := (horderly.onward hs hstep).proper hs
          rcases ih _ (hn ▸ hmoved) ht hcursor' rfl with
            ⟨as, u, u', hmore, hmore', hend⟩ | ⟨why, u, u', herr, herr'⟩
          · rw [hmore, hmore']
            exact .ok _ hend
          · rw [herr, herr']
            exact .error why u u'
        · rw [if_neg hmoved, if_neg hmoved]
          exact .ok _ hcursor'
    · rw [herr, herr']
      exact .error why t t'

theorem many (h : Heedless rule) (horderly : Orderly rule) : Heedless (many rule) :=
  (h.optional.bind horderly.optional fun r => pure (r.map (·, true))).collect
    (horderly.optional.bind fun r => .pure (r.map (·, true)))

/-- A lookahead runs as no other rule does, so its rule has to do the same in every context. -/
theorem attempt (h : ∀ c s s', s'.cursor = s.cursor → SameCourse (rule c s) (rule c s')) :
    Heedless (attempt rule) := by
  intro c s s' _ hcursor
  unfold Rule.attempt
  rw [Context.isCommitted_congr hcursor]
  split
  · exact h c s s' hcursor
  · rcases h { c with mode := .strict } s s' hcursor with
      ⟨a, t, t', hok, hok', hcursor'⟩ | ⟨why, t, t', herr, herr'⟩
    · rw [hok, hok']
      exact .ok a hcursor'
    · rw [herr, herr']
      exact .error why _ _

section

variable {rules : List (Rule α)} {c : Context} {s s' : State}

theorem firstOf (h : ∀ r ∈ rules, Heedless r) (hs : c.Proper s) (hcursor : s'.cursor = s.cursor) :
    SameCourse (firstOf rules c s) (firstOf rules c s') := by
  induction rules generalizing s s' with
  | nil => exact .error [] s s'
  | cons rule rules ih =>
    rw [List.forall_mem_cons] at h
    rw [Rule.firstOf, Rule.firstOf]
    rcases h.1 hs hcursor with ⟨a, t, t', hok, hok', hcursor'⟩ | ⟨why, t, t', herr, herr'⟩
    · rw [hok, hok']
      exact .ok a hcursor'
    · rw [herr, herr']
      dsimp only
      have ht' : (t'.rewind s').cursor = (t.rewind s).cursor := hcursor
      rcases ih h.2 (hs.congr (t.rewind_cursor s)) ht' with
        ⟨a, u, u', hok, hok', hcursor'⟩ | ⟨failures, u, u', herr, herr'⟩
      · rw [hok, hok']
        exact .ok a hcursor'
      · rw [herr, herr']
        exact .error _ u u'

theorem hinted (h : Heedless rule) (expected : List Expected) :
    Heedless (hinted expected rule) := by
  have hplain : ∀ ⦃c s s'⦄, c.Proper s → s'.cursor = s.cursor →
      SameCourse (rule c s) (Rule.hinted expected rule c s') := by
    intro c s s' hs hcursor
    unfold Rule.hinted
    split
    · exact h hs hcursor
    · have hhint : State.cursor { s' with hint := some expected } = s.cursor := hcursor
      rcases h hs hhint with
        ⟨a, t, t', hok, hok', hcursor'⟩ | ⟨why, t, t', herr, herr'⟩
      · rw [hok, hok']
        exact .ok a hcursor'
      · rw [herr, herr']
        exact .error why _ _
  intro c s s' hs hcursor
  exact (hplain hs rfl).symm.trans (hplain hs hcursor)

theorem alt (h : ∀ r ∈ rules, Heedless r) : Heedless (alt rules) := by
  intro c s s' hs hcursor
  unfold Rule.alt
  rw [Context.speculating_congr hcursor, Context.isCommitted_congr hcursor]
  rcases firstOf h hs.speculating hcursor with
    ⟨a, t, t', hok, hok', hcursor'⟩ | ⟨failures, t, t', herr, herr'⟩
  · rw [hok, hok']
    exact .ok a hcursor'
  · have ht : t.cursor = s.cursor := congrArg Progress.cursor (firstOf_progress.2 herr)
    have ht' : t'.cursor = s'.cursor := congrArg Progress.cursor (firstOf_progress.2 herr')
    rw [herr, herr']
    dsimp only
    split
    · next rule hcheapest =>
      split
      · exact hinted (h rule (mem_of_cheapest? hcheapest)) _ (hs.congr ht)
          (ht'.trans (hcursor.trans ht.symm))
      · exact .error _ t t'
    · exact .error _ t t'

end

end Heedless

/-! ### Rules that speculate anyway -/

theorem optional_speculating (rule : Rule α) (c : Context) (s t : State) :
    optional rule (c.speculating s) t = optional rule c t := by
  rw [optional, optional, c.speculating_speculating]

theorem many_speculating (rule : Rule α) (c : Context) (s t : State) :
    many rule (c.speculating s) t = many rule c t := by
  have hround : ∀ t, (do return (← optional rule).map (·, true) : Rule (Option (α × Bool)))
      (c.speculating s) t = (do return (← optional rule).map (·, true) : Rule _) c t := by
    intro t
    rw [bind_apply, bind_apply, optional_speculating]
    rfl
  have hremaining : ∀ t, (c.speculating s).remaining t = c.remaining t := fun t => by
    rw [Context.remaining, Context.remaining, c.stream_speculating]
  unfold many
  induction hn : c.remaining t using Nat.strongRecOn generalizing t with
  | ind n ih =>
    rw [collect.eq_def _ _ t, collect.eq_def _ c t, hround]
    simp only [hremaining]
    split
    · rfl
    · rfl
    · rfl
    · split
      · next hmoved => rw [ih _ (hn ▸ hmoved) _ rfl]
      · rfl

/-- A choice whose alternative can be tried does the same whether it is committed or not. -/
theorem alt_of_speculating {rules : List (Rule α)} {c : Context} {s t : State} {a : α}
    (hok : alt rules (c.speculating s) s = .ok a t) : alt rules c s = .ok a t := by
  rcases alt_cases hok with hfirst | ⟨hcommitted, -⟩
  · rw [c.speculating_speculating] at hfirst
    rw [alt, hfirst]
  · rw [not_isCommitted_speculating c s] at hcommitted
    cases hcommitted

end Rule

end LuaSyntax
