import LuaSyntax.Proofs.Rule.Primitive
/-!
# What a rule gives

A run seen from how far it started and how far it came. The mode, which every speculation changes,
and the hint are left open. So a run of a rule is made of runs of its parts, whichever way it went
through its choices and loops.
-/

namespace LuaSyntax

/-- How far a run has come: the tokens consumed and the diagnostics recorded, the newest first. -/
structure Progress where
  cursor : Nat
  diags : List Diagnostic

def State.progress (s : State) : Progress := ⟨s.cursor, s.diags⟩

@[simp] theorem State.cursor_progress (s : State) : s.progress.cursor = s.cursor := rfl

@[simp] theorem State.diags_progress (s : State) : s.progress.diags = s.diags := rfl

@[simp] theorem State.progress_rewind (s start : State) :
    (s.rewind start).progress = start.progress := rfl

/-- The contexts of one run of the parser differ in their mode only. -/
def Context.Alike (root c : Context) : Prop :=
  c.stream = root.stream ∧ c.limit = root.limit

theorem Context.Alike.speculating {root c : Context} (h : root.Alike c) (s : State) :
    root.Alike (c.speculating s) :=
  ⟨(c.stream_speculating s).trans h.1, (c.limit_speculating s).trans h.2⟩

namespace Rule

variable {α β : Type} {root : Context} {rule : Rule α} {p q : Progress} {a : α} {b : β}

/-- In some mode and with some hint, the rule gives `a` on the way from `p` to `q`. -/
def Gives (root : Context) (rule : Rule α) (p : Progress) (a : α) (q : Progress) : Prop :=
  ∃ c s s', root.Alike c ∧ s.progress = p ∧ rule c s = .ok a s' ∧ s'.progress = q

theorem Gives.of_pure {a' : α} (h : Gives root (pure a) p a' q) : a' = a ∧ q = p := by
  obtain ⟨c, s, s', -, rfl, hok, rfl⟩ := h
  cases hok
  exact ⟨rfl, rfl⟩

theorem ok_of_bind {f : α → Rule β} {c : Context} {s u : State}
    (h : (rule >>= f) c s = .ok b u) : ∃ a t, rule c s = .ok a t ∧ f a c t = .ok b u := by
  cases hrule : rule c s with
  | ok a t => exact ⟨a, t, rfl, (bind_of_ok hrule).symm.trans h⟩
  | error why t => cases (bind_of_error hrule).symm.trans h

theorem error_of_bind {f : α → Rule β} {c : Context} {s u : State} {why : Stuck}
    (h : (rule >>= f) c s = .error why u) :
    rule c s = .error why u ∨ ∃ a t, rule c s = .ok a t ∧ f a c t = .error why u := by
  cases hrule : rule c s with
  | ok a t => exact .inr ⟨a, t, rfl, (bind_of_ok hrule).symm.trans h⟩
  | error why t =>
    cases (bind_of_error hrule).symm.trans h
    exact .inl rfl

theorem Gives.of_bind {f : α → Rule β} (h : Gives root (rule >>= f) p b q) :
    ∃ a r, Gives root rule p a r ∧ Gives root (f a) r b q := by
  obtain ⟨c, s, s', hc, rfl, hok, rfl⟩ := h
  obtain ⟨a, t, hrule, hrest⟩ := ok_of_bind hok
  exact ⟨a, t.progress, ⟨c, s, t, hc, rfl, hrule, rfl⟩, c, t, s', hc, rfl, hrest, rfl⟩

theorem Gives.of_map {g : α → β} (h : Gives root (g <$> rule) p b q) :
    ∃ a, Gives root rule p a q ∧ b = g a := by
  obtain ⟨c, s, s', hc, rfl, hok, rfl⟩ := h
  rw [map_apply] at hok
  cases hrule : rule c s with
  | ok a t =>
    rw [hrule] at hok
    cases hok
    exact ⟨a, ⟨c, s, _, hc, rfl, hrule, rfl⟩, rfl⟩
  | error why t =>
    rw [hrule] at hok
    cases hok

theorem ok_of_located {c : Context} {s t : State} {a : Located α}
    (h : located rule c s = .ok a t) :
    rule c s = .ok a.node t ∧ a.span = c.stream.spanBetween s.cursor t.cursor := by
  cases hrule : rule c s with
  | ok b u =>
    cases (located_of_ok hrule).symm.trans h
    exact ⟨rfl, rfl⟩
  | error why u => cases (located_of_error hrule).symm.trans h

theorem error_of_located {c : Context} {s t : State} {why : Stuck}
    (h : located rule c s = .error why t) : rule c s = .error why t := by
  cases hrule : rule c s with
  | ok b u => cases (located_of_ok hrule).symm.trans h
  | error why u =>
    cases (located_of_error hrule).symm.trans h
    rfl

theorem Gives.of_located {a : Located α} (h : Gives root (located rule) p a q) :
    Gives root rule p a.node q ∧ a.span = root.stream.spanBetween p.cursor q.cursor := by
  obtain ⟨c, s, s', hc, rfl, hok, rfl⟩ := h
  obtain ⟨hrule, hspan⟩ := ok_of_located hok
  exact ⟨⟨c, s, s', hc, rfl, hrule, rfl⟩, by rw [hspan, hc.1]; rfl⟩

/-- The state in which `mark` was run, to go back to. -/
theorem Gives.of_mark {t : State} (h : Gives root mark p t q) : t.progress = p ∧ q = p := by
  obtain ⟨c, s, s', -, rfl, hok, rfl⟩ := h
  cases hok
  exact ⟨rfl, rfl⟩

/-- A rule that only looks at the state does not move. -/
theorem Gives.of_look (h : Gives root rule p a q) (hlook : ∀ c s, ∃ b, rule c s = .ok b s) :
    q = p := by
  obtain ⟨c, s, s', -, rfl, hok, rfl⟩ := h
  obtain ⟨b, hb⟩ := hlook c s
  rw [hb] at hok
  cases hok
  rfl

theorem not_gives_stuck {expected : List Expected} {cost : Nat} :
    ¬ Gives root (stuck expected cost) p a q := by
  rintro ⟨c, s, s', -, -, hok, -⟩
  cases hok

theorem Gives.of_reset {start : State} {u : Unit} (h : Gives root (reset start) p u q) :
    q = start.progress := by
  obtain ⟨c, s, s', -, rfl, hok, rfl⟩ := h
  cases hok
  rfl

/-! ### Choices and optional parts -/

theorem firstOf_progress {rules : List (Rule α)} {c : Context} {s : State} :
    (∀ {a s'}, firstOf rules c s = .ok a s' → ∃ r ∈ rules, ∃ t : State,
      t.progress = s.progress ∧ r c t = .ok a s') ∧
    ∀ {failures s'}, firstOf rules c s = .error failures s' → s'.progress = s.progress := by
  induction rules generalizing s with
  | nil =>
    refine ⟨nofun, fun herr => ?_⟩
    cases herr
    rfl
  | cons rule rules ih =>
    cases hrule : rule c s with
    | ok a t =>
      refine ⟨fun hok => ?_, fun herr => ?_⟩
      · rw [firstOf, hrule] at hok
        cases hok
        exact ⟨rule, List.mem_cons_self, s, rfl, hrule⟩
      · rw [firstOf, hrule] at herr
        cases herr
    | error why t =>
      obtain ⟨ihok, iherr⟩ := ih (s := t.rewind s)
      cases hrest : firstOf rules c (t.rewind s) with
      | ok a u =>
        refine ⟨fun hok => ?_, fun herr => ?_⟩
        · simp only [firstOf, hrule, hrest] at hok
          cases hok
          obtain ⟨r, hr, v, hv, hgives⟩ := ihok hrest
          exact ⟨r, List.mem_cons_of_mem _ hr, v, hv, hgives⟩
        · simp only [firstOf, hrule, hrest] at herr
          cases herr
      | error failures u =>
        refine ⟨fun hok => ?_, fun herr => ?_⟩
        · simp only [firstOf, hrule, hrest] at hok
          cases hok
        · simp only [firstOf, hrule, hrest] at herr
          cases herr
          exact iherr hrest

theorem hinted_of_ok {expected : List Expected} {c : Context} {s s' : State}
    (h : hinted expected rule c s = .ok a s') :
    ∃ t t' : State, t.progress = s.progress ∧ rule c t = .ok a t' ∧ t'.progress = s'.progress := by
  unfold hinted at h
  split at h
  · exact ⟨s, s', rfl, h, rfl⟩
  · split at h
    · next b t hrule =>
      cases h
      exact ⟨{ s with hint := some expected }, t, rfl, hrule, rfl⟩
    · cases h

theorem mem_of_cheapest? {rules : List (Rule α)} {failures : List Stuck}
    (h : cheapest? rules failures = some rule) : rule ∈ rules := by
  obtain ⟨⟨r, f⟩, hfind, rfl⟩ := Option.map_eq_some_iff.1 h
  exact (List.of_mem_zip (List.mem_of_find?_eq_some hfind)).1

section

variable {rules : List (Rule α)} {c : Context} {s t : State}

/-- How a choice gives a value: at the first attempt, or on the committed run of a rule that had
failed there. -/
theorem alt_cases (hok : alt rules c s = .ok a t) :
    firstOf rules (c.speculating s) s = .ok a t ∨
    (c.isCommitted s = true ∧ ∃ failures v, firstOf rules (c.speculating s) s = .error failures v ∧
      ∃ r ∈ rules, ∃ u u', u.progress = s.progress ∧ r c u = .ok a u' ∧
        u'.progress = t.progress) := by
  unfold alt at hok
  cases hfirst : firstOf rules (c.speculating s) s with
  | ok b u =>
    rw [hfirst] at hok
    cases hok
    exact .inl rfl
  | error failures v =>
    simp only [hfirst] at hok
    cases hcheapest : cheapest? rules failures with
    | none =>
      rw [hcheapest] at hok
      cases hok
    | some r =>
      simp only [hcheapest] at hok
      split at hok
      · next hc =>
        obtain ⟨u, u', hu, hrule, hu'⟩ := hinted_of_ok hok
        exact .inr ⟨hc, failures, v, rfl, r, mem_of_cheapest? hcheapest, u, u',
          hu.trans (firstOf_progress.2 hfirst), hrule, hu'⟩
      · cases hok

/-- Whichever way a choice is made, one of its alternatives gives the value. -/
theorem Gives.of_alt (h : Gives root (alt rules) p a q) : ∃ r ∈ rules, Gives root r p a q := by
  obtain ⟨c, s, s', hc, rfl, hok, rfl⟩ := h
  rcases alt_cases hok with hfirst | ⟨-, -, -, -, r, hr, u, u', hu, hrule, hu'⟩
  · obtain ⟨r, hr, u, hu, hrule⟩ := firstOf_progress.1 hfirst
    exact ⟨r, hr, c.speculating s, u, s', hc.speculating s, hu, hrule, rfl⟩
  · exact ⟨r, hr, c, u, u', hc, hu, hrule, hu'⟩

/-- An optional part is there if its rule gives a value, and otherwise nothing has happened. -/
theorem optional_cases (rule : Rule α) (c : Context) (s : State) :
    (∃ a t, rule (c.speculating s) s = .ok a t ∧ optional rule c s = .ok (some a) t) ∨
      ∃ why t, rule (c.speculating s) s = .error why t ∧
        optional rule c s = .ok none (t.rewind s) := by
  unfold Rule.optional
  cases rule (c.speculating s) s with
  | ok a t => exact .inl ⟨a, t, rfl, rfl⟩
  | error why t => exact .inr ⟨why, t, rfl, rfl⟩

/-- A lookahead gives what its rule gives, or it leaves no trace. -/
theorem attempt_cases (rule : Rule α) (hc : c.isCommitted s = false) :
    (∃ a t, rule { c with mode := .strict } s = .ok a t ∧ attempt rule c s = .ok a t) ∨
      ∃ why t, rule { c with mode := .strict } s = .error why t ∧
        attempt rule c s = .error why (t.rewind s) := by
  unfold Rule.attempt
  rw [if_neg (by simp [hc])]
  cases rule { c with mode := .strict } s with
  | ok a t => exact .inl ⟨a, t, rfl, rfl⟩
  | error why t => exact .inr ⟨why, t, rfl, rfl⟩

/-- An optional part is there, or nothing has happened. -/
theorem Gives.of_optional {r : Option α} (h : Gives root (optional rule) p r q) :
    (r = none ∧ q = p) ∨ ∃ a, r = some a ∧ Gives root rule p a q := by
  obtain ⟨c, s, s', hc, rfl, hok, rfl⟩ := h
  rcases optional_cases rule c s with ⟨a, t, hrule, hoptional⟩ | ⟨why, t, -, hoptional⟩
  · cases hoptional.symm.trans hok
    exact .inr ⟨a, rfl, _, s, _, hc.speculating s, rfl, hrule, rfl⟩
  · cases hoptional.symm.trans hok
    exact .inl ⟨rfl, rfl⟩

theorem Gives.of_attempt (h : Gives root (attempt rule) p a q) : Gives root rule p a q := by
  obtain ⟨c, s, s', hc, rfl, hok, rfl⟩ := h
  cases hcommitted : c.isCommitted s with
  | true =>
    rw [attempt, if_pos hcommitted] at hok
    exact ⟨c, s, s', hc, rfl, hok, rfl⟩
  | false =>
    rcases attempt_cases rule hcommitted with ⟨b, t, hrule, hattempt⟩ | ⟨why, t, -, hattempt⟩
    · cases hattempt.symm.trans hok
      exact ⟨{ c with mode := .strict }, s, _, hc, rfl, hrule, rfl⟩
    · cases hattempt.symm.trans hok

end

/-! ### Loops -/

section

variable {step : Rule (Option (α × Bool))} {c : Context} {s t : State} {as : List α}

/-- The rounds of a loop that gives a value. A round that has not moved is the last, and what it
found is dropped. -/
inductive LoopRun (step : Rule (Option (α × Bool))) (c : Context) : State → List α → State → Prop
  | stop {s t : State} (h : step c s = .ok none t) : LoopRun step c s [] t
  | last {s t : State} {a : α} (h : step c s = .ok (some (a, false)) t) : LoopRun step c s [a] t
  | stalled {s t : State} {a : α} (h : step c s = .ok (some (a, true)) t)
    (hstalled : ¬ c.remaining t < c.remaining s) : LoopRun step c s [] t
  | more {s t u : State} {a : α} {as : List α} (h : step c s = .ok (some (a, true)) t)
    (hmoved : c.remaining t < c.remaining s) (rest : LoopRun step c t as u) :
    LoopRun step c s (a :: as) u

theorem loopRun_of_collect (h : collect step c s = .ok as t) : LoopRun step c s as t := by
  induction hn : c.remaining s using Nat.strongRecOn generalizing s as with
  | ind n ih =>
    rw [Rule.collect] at h
    cases hstep : step c s with
    | error why u =>
      rw [hstep] at h
      cases h
    | ok r u =>
      rw [hstep] at h
      cases r with
      | none =>
        cases h
        exact .stop hstep
      | some round =>
        obtain ⟨a, goesOn⟩ := round
        cases goesOn with
        | false =>
          cases h
          exact .last hstep
        | true =>
          dsimp only at h
          split at h
          · next hmoved =>
            cases hrest : collect step c u with
            | ok bs v =>
              rw [hrest] at h
              cases h
              exact .more hstep hmoved (ih _ (hn ▸ hmoved) hrest rfl)
            | error why v =>
              rw [hrest] at h
              cases h
          · next hstalled =>
            cases h
            exact .stalled hstep hstalled

/-- The same, seen from how far each round came. -/
inductive Collected (root : Context) (step : Rule (Option (α × Bool))) :
    Progress → List α → Progress → Prop
  | stop {p q : Progress} (h : Gives root step p none q) : Collected root step p [] q
  | last {p q : Progress} {a : α} (h : Gives root step p (some (a, false)) q) :
    Collected root step p [a] q
  | stalled {p q : Progress} {a : α} (h : Gives root step p (some (a, true)) q) :
    Collected root step p [] q
  | more {p r q : Progress} {a : α} {as : List α} (h : Gives root step p (some (a, true)) r)
    (rest : Collected root step r as q) : Collected root step p (a :: as) q

theorem Gives.of_collect (h : Gives root (collect step) p as q) :
    Collected root step p as q := by
  obtain ⟨c, s, s', hc, rfl, hok, rfl⟩ := h
  have hgives : ∀ {s t : State} {r : Option (α × Bool)}, step c s = .ok r t →
      Gives root step s.progress r t.progress := fun hstep => ⟨c, _, _, hc, rfl, hstep, rfl⟩
  have hloop := loopRun_of_collect hok
  clear hok
  induction hloop with
  | stop hstep => exact .stop (hgives hstep)
  | last hstep => exact .last (hgives hstep)
  | stalled hstep _ => exact .stalled (hgives hstep)
  | more hstep _ _ ih => exact .more (hgives hstep) ih

end

/-! ### Values -/

/-- Whichever way the rule runs, its value satisfies `P`. -/
def Ensures (root : Context) (rule : Rule α) (P : α → Prop) : Prop :=
  ∀ p a q, Gives root rule p a q → P a

section

variable {P : α → Prop} {R : β → Prop} {k : α → Rule β}

theorem Ensures.pure (h : P a) : Ensures root (pure a) P := by
  intro p b q hgives
  obtain ⟨rfl, -⟩ := hgives.of_pure
  exact h

theorem Ensures.bind (h : Ensures root rule P) (hk : ∀ a, P a → Ensures root (k a) R) :
    Ensures root (rule >>= k) R := by
  intro p b q hgives
  obtain ⟨a, r, hrule, hrest⟩ := hgives.of_bind
  exact hk a (h p a r hrule) r b q hrest

/-- The value of the rest, whatever the value before it. -/
theorem Ensures.after (hk : ∀ a, Ensures root (k a) R) : Ensures root (rule >>= k) R := by
  have h : Ensures root rule fun _ => True := fun _ _ _ _ => trivial
  exact h.bind fun a _ => hk a

theorem Ensures.alt {rules : List (Rule α)} (h : ∀ r ∈ rules, Ensures root r P) :
    Ensures root (Rule.alt rules) P := by
  intro p a q hgives
  obtain ⟨r, hr, hrule⟩ := hgives.of_alt
  exact h r hr p a q hrule

theorem Ensures.mono {P' : α → Prop} (h : Ensures root rule P) (hP : ∀ a, P a → P' a) :
    Ensures root rule P' :=
  fun p a q hgives => hP a (h p a q hgives)

theorem Ensures.map {g : α → β} (h : Ensures root rule P) (hg : ∀ a, P a → R (g a)) :
    Ensures root (g <$> rule) R := by
  intro p b q hgives
  obtain ⟨a, hrule, rfl⟩ := hgives.of_map
  exact hg a (h p a q hrule)

theorem Ensures.located (h : Ensures root rule P) :
    Ensures root (located rule) fun a => P a.node :=
  fun p a q hgives => h p a.node q hgives.of_located.1

theorem Ensures.optional (h : Ensures root rule P) :
    Ensures root (optional rule) fun r => ∀ a ∈ r, P a := by
  intro p r q hgives
  rcases hgives.of_optional with ⟨rfl, -⟩ | ⟨a, rfl, hrule⟩
  · exact nofun
  · rintro b ⟨⟩
    exact h p a q hrule

theorem Ensures.collect {step : Rule (Option (α × Bool))}
    (h : Ensures root step fun r => ∀ a ∈ r, P a.1) :
    Ensures root (collect step) fun as => ∀ a ∈ as, P a := by
  intro p as q hgives
  have hloop := hgives.of_collect
  clear hgives
  induction hloop with
  | stop hstep | stalled hstep => exact nofun
  | last hstep => exact List.forall_mem_singleton.2 (h _ _ _ hstep _ rfl)
  | more hstep _ ih => exact List.forall_mem_cons.2 ⟨h _ _ _ hstep _ rfl, ih⟩

theorem Ensures.many (h : Ensures root rule P) :
    Ensures root (many rule) fun as => ∀ a ∈ as, P a := by
  refine .collect (h.optional.map fun r hr => ?_)
  cases r with
  | none => exact nofun
  | some a =>
    rintro b ⟨⟩
    exact hr a rfl

theorem Ensures.sepBy1 {separator : Rule β} (h : Ensures root rule P) :
    Ensures root (sepBy1 rule separator) fun as => ∀ a ∈ as, P a :=
  h.bind fun _ hfirst => (Ensures.many (.after fun _ => h)).map fun _ hothers =>
    List.forall_mem_cons.2 ⟨hfirst, hothers⟩

theorem ensures_sepBy1 {separator : Rule β} :
    Ensures root (sepBy1 rule separator) fun as => as ≠ [] :=
  .after fun _ => .after fun _ => .pure (List.cons_ne_nil _ _)

end

/-! ### Tokens -/

/-- The token `t` at `p`: read where it is written, or put in, with a diagnostic, where it is
missing. -/
inductive TokenAt (root : Context) (t : Token) (p : Progress) : Span → Progress → Prop
  | written {span : Span} (here : root.stream.get? p.cursor = some ⟨t, span⟩) :
    TokenAt root t p span ⟨p.cursor + 1, p.diags⟩
  | inserted {d : Diagnostic} (missing : ∀ span, root.stream.get? p.cursor ≠ some ⟨t, span⟩)
    (repair : d.repair = .inserted t t.insertionCost)
    (place : d.span.start = root.stream.pos p.cursor) :
    TokenAt root t p (.point (root.stream.pos p.cursor)) ⟨p.cursor, d :: p.diags⟩

theorem satisfy_exactly_of_missing {c : Context} {s : State} {t : Token} (hc : root.Alike c)
    (missing : ∀ span, root.stream.get? s.cursor ≠ some ⟨t, span⟩) :
    satisfy (.exactly t) c s = supply (.exactly t) c s := by
  refine satisfy_of_not_accept fun u hu => if_neg fun hnode => missing u.span ?_
  rw [← hc.1, ← hnode]
  exact hu

theorem token_of_written {c : Context} {s : State} {t : Token} {span : Span} (hc : root.Alike c)
    (here : root.stream.get? s.cursor = some ⟨t, span⟩) :
    token t c s = .ok span (s.advance 1) := by
  have hnext : c.next? s = some ⟨t, span⟩ := by rwa [← hc.1] at here
  have haccept : (Matcher.exactly t).accept t = some () := if_pos rfl
  exact bind_of_ok (satisfy_of_accept hnext haccept)

theorem Gives.of_token {t : Token} {span : Span} (h : Gives root (token t) p span q) :
    TokenAt root t p span q := by
  obtain ⟨c, s, s', hc, rfl, hok, rfl⟩ := h
  by_cases hwritten : ∃ span, root.stream.get? s.cursor = some ⟨t, span⟩
  · obtain ⟨span, here⟩ := hwritten
    rw [token_of_written hc here] at hok
    cases hok
    exact .written here
  · have hmissing := not_exists.1 hwritten
    have hsatisfy := satisfy_exactly_of_missing hc hmissing
    rw [supply] at hsatisfy
    split at hsatisfy
    · have hinserted := bind_of_ok (f := fun a : Located Unit => pure a.span) hsatisfy
      rw [token, hinserted] at hok
      cases hok
      have hplace := start_insertion (.exactly t) c s
      rw [Context.pos, hc.1] at hplace ⊢
      exact .inserted hmissing rfl hplace
    · rw [token, bind_of_error hsatisfy] at hok
      cases hok

/-- A speculation begins uncommitted. -/
theorem not_isCommitted_speculating (c : Context) (s : State) :
    (c.speculating s).isCommitted s = false := by
  obtain ⟨stream, mode, limit⟩ := c
  cases mode <;> simp [Context.speculating, Context.isCommitted]

/-! ### Values of speculations -/

/-- Whichever way the rule runs from where it is not committed, its value satisfies `P`. -/
def EnsuresUncommitted (root : Context) (rule : Rule α) (P : α → Prop) : Prop :=
  ∀ c s a s', root.Alike c → c.isCommitted s = false → rule c s = .ok a s' → P a

section

variable {P : α → Prop} {R : β → Prop} {k : α → Rule β}

theorem Ensures.uncommitted (h : Ensures root rule P) : EnsuresUncommitted root rule P :=
  fun c s a s' hc _ hok => h s.progress a s'.progress ⟨c, s, s', hc, rfl, hok, rfl⟩

theorem EnsuresUncommitted.bind (h : EnsuresUncommitted root rule P)
    (hk : ∀ a, P a → Ensures root (k a) R) : EnsuresUncommitted root (rule >>= k) R := by
  intro c s b u hc hs hok
  obtain ⟨a, t, hrule, hrest⟩ := ok_of_bind hok
  exact hk a (h c s a t hc hs hrule) t.progress b u.progress ⟨c, t, u, hc, rfl, hrest, rfl⟩

theorem EnsuresUncommitted.located (h : EnsuresUncommitted root rule P) :
    EnsuresUncommitted root (located rule) fun a => P a.node :=
  fun c s a t hc hs hok => h c s a.node t hc hs (ok_of_located hok).1

theorem EnsuresUncommitted.alt {rules : List (Rule α)}
    (h : ∀ r ∈ rules, EnsuresUncommitted root r P) :
    EnsuresUncommitted root (Rule.alt rules) P := by
  intro c s a t hc hs hok
  rcases alt_cases hok with hfirst | ⟨hcommitted, -⟩
  · obtain ⟨r, hr, u, hu, hrule⟩ := firstOf_progress.1 hfirst
    have hcursor : u.cursor = s.cursor := congrArg Progress.cursor hu
    refine h r hr _ u a t (hc.speculating s) ?_ hrule
    rw [Context.isCommitted_congr hcursor, not_isCommitted_speculating]
  · rw [hs] at hcommitted
    cases hcommitted

/-- An optional part is tried uncommitted. -/
theorem EnsuresUncommitted.optional (h : EnsuresUncommitted root rule P) :
    Ensures root (Rule.optional rule) fun r => ∀ a ∈ r, P a := by
  rintro p r q ⟨c, s, s', hc, rfl, hok, rfl⟩
  rcases optional_cases rule c s with ⟨a, t, hrule, hoptional⟩ | ⟨why, t, -, hoptional⟩
  · cases hoptional.symm.trans hok
    rintro b ⟨⟩
    exact h _ s a _ (hc.speculating s) (not_isCommitted_speculating c s) hrule
  · cases hoptional.symm.trans hok
    exact nofun

/-- Where a token cannot be put in, it is one of the stream. -/
theorem ensuresUncommitted_token (t : Token) :
    EnsuresUncommitted root (token t) fun span => ∃ i, root.stream.get? i = some ⟨t, span⟩ := by
  intro c s span s' hc hs hok
  by_cases hwritten : ∃ span, root.stream.get? s.cursor = some ⟨t, span⟩
  · obtain ⟨span', here⟩ := hwritten
    rw [token_of_written hc here] at hok
    cases hok
    exact ⟨s.cursor, here⟩
  · have hsatisfy := satisfy_exactly_of_missing hc (not_exists.1 hwritten)
    rw [supply_of_not_committed hs] at hsatisfy
    rw [token, bind_of_error hsatisfy] at hok
    cases hok

end

/-- As an optional part, a token is there only if it is written. -/
theorem Gives.of_optional_token {t : Token} {r : Option Span}
    (h : Gives root (optional (token t)) p r q) :
    (r = none ∧ q = p ∧ ∀ span, root.stream.get? p.cursor ≠ some ⟨t, span⟩) ∨
      ∃ span, r = some span ∧ root.stream.get? p.cursor = some ⟨t, span⟩ ∧
        q = ⟨p.cursor + 1, p.diags⟩ := by
  obtain ⟨c, s, s', hc, rfl, hok, rfl⟩ := h
  by_cases hwritten : ∃ span, root.stream.get? s.cursor = some ⟨t, span⟩
  · obtain ⟨span, here⟩ := hwritten
    rw [optional_of_ok (token_of_written (hc.speculating s) here)] at hok
    cases hok
    exact .inr ⟨span, rfl, here, rfl⟩
  · have hmissing := not_exists.1 hwritten
    have hsatisfy := satisfy_exactly_of_missing (hc.speculating s) hmissing
    rw [supply_of_not_committed (not_isCommitted_speculating c s)] at hsatisfy
    have hstuck : token t (c.speculating s) s = .error _ s := bind_of_error hsatisfy
    rw [optional_of_error hstuck] at hok
    cases hok
    exact .inl ⟨rfl, rfl, hmissing⟩

end Rule

end LuaSyntax
