import LuaSyntax.Proofs.Rule.Clean
import LuaSyntax.Proofs.Rule.Reads
/-!
# Rules that open

A rule opens if an uncommitted run of it consumes a token or leaves the state as it was. Where the
rule is put together from others, it is enough that the first one opens.
-/

namespace LuaSyntax

namespace Rule

variable {α β : Type} {rule : Rule α} {f : α → Rule β} {c : Context} {s t u : State}

/-- Looks at the next token. -/
def look (g : Option (Located Token) → α) : Rule α := fun c s => .ok (g (c.next? s)) s

theorem peek_eq_look : peek = look (Option.map (·.node)) := rfl

theorem Orderly.many (h : Orderly rule) : Orderly (many rule) :=
  (h.optional.bind fun r => .pure (r.map (·, true))).collect

/-- An orderly rule that consumes a token or leaves the state as it was, where it is not committed.
-/
structure Opening (rule : Rule α) : Prop extends Orderly rule where
  moves : ∀ {c s a t}, c.Proper s → c.isCommitted s = false → rule c s = .ok a t →
    s.cursor < t.cursor
  restores : ∀ {c s why t}, c.Proper s → rule c s = .error why t → t = s

theorem Opens.opening {law : Law} {P : Yield → α → Prop} (h : Opens law rule P) :
    Opening rule where
  toOrderly := h.orderly
  moves := h.lt_of_ok
  restores {c s why t} hs herr := by
    rcases h.speculates c s hs (h.orderly.completes hs herr) with ⟨a, u, hok, -⟩ | ⟨why', herr'⟩
    · cases hok.symm.trans herr
    · cases herr'.symm.trans herr
      rfl

theorem opening_satisfy (m : Matcher α) : Opening (satisfy m) :=
  (opens_anyhow m).opening

theorem orderly_look (g : Option (Located Token) → α) : Orderly (look g) where
  onward hs hok := by
    cases hok
    exact .refl hs
  completes _ herr := by cases herr

theorem orderly_mark : Orderly mark where
  onward hs hok := by
    cases hok
    exact .refl hs
  completes _ herr := by cases herr

theorem orderly_record (d : Diagnostic) : Orderly (record d) where
  onward hs hok := by
    cases hok
    exact (Context.Onward.refl hs).record d
  completes _ herr := by cases herr

theorem orderly_skipAhead (count : List Token → Nat) (expected : List Expected) :
    Orderly fun c s => skipTokens (count (c.ahead s)) expected c s where
  onward hs hok := (orderly_skipTokens _ _).onward hs hok
  completes hs herr := (orderly_skipTokens _ _).completes hs herr

/-- What follows a rule that opens is never stuck. -/
theorem Opening.error_of_bind (h : Opening rule) (hf : ∀ a, Orderly (f a)) (hs : c.Proper s)
    {why : Stuck} (herr : (rule >>= f) c s = .error why u) : rule c s = .error why u := by
  have hc := (h.toOrderly.bind hf).completes hs herr
  rcases Rule.error_of_bind herr with hrule | ⟨a, t, hrule, hrest⟩
  · exact hrule
  · exact absurd hrest ((hf a).not_stuck hs (h.onward hs hrule) (h.moves hs hc hrule))

theorem Opening.bind (h : Opening rule) (hf : ∀ a, Orderly (f a)) : Opening (rule >>= f) where
  toOrderly := h.toOrderly.bind hf
  moves {c s b u} hs hc hok := by
    obtain ⟨a, t, hrule, hrest⟩ := ok_of_bind hok
    have ht := h.onward hs hrule
    exact Nat.lt_of_lt_of_le (h.moves hs hc hrule) ((hf a).onward (ht.proper hs) hrest).cursor_le
  restores hs herr := h.restores hs (h.error_of_bind hf hs herr)

theorem opening_token (t : Token) : Opening (token t) :=
  (opening_satisfy (.exactly t)).bind fun a => .pure a.span

theorem opening_oneOf {ops : List (Token × α)} (hne : ops ≠ []) : Opening (oneOf ops) := by
  cases ops with
  | nil => exact absurd rfl hne
  | cons op ops => exact opening_satisfy (.oneOf op.1 op.2 ops)

theorem Opening.located (h : Opening rule) : Opening (located rule) where
  toOrderly := h.toOrderly.located
  moves hs hc hok := h.moves hs hc (ok_of_located hok).1
  restores hs herr := h.restores hs (error_of_located herr)

/-- An optional part is there and consumes a token, or nothing has happened. -/
theorem Opening.optional_cases (h : Opening rule) (hs : c.Proper s) :
    (∃ a t, rule (c.speculating s) s = .ok a t ∧ optional rule c s = .ok (some a) t ∧
      c.Onward s t ∧ s.cursor < t.cursor) ∨
    ((∃ why, rule (c.speculating s) s = .error why s) ∧ optional rule c s = .ok none s) := by
  rcases Rule.optional_cases rule c s with ⟨a, t, hrule, hoptional⟩ | ⟨why, t, hrule, hoptional⟩
  · exact .inl ⟨a, t, hrule, hoptional, h.toOrderly.optional.onward hs hoptional,
      h.moves hs.speculating (Context.isCommitted_speculating hs) hrule⟩
  · obtain rfl := h.restores hs.speculating hrule
    exact .inr ⟨⟨why, hrule⟩, hoptional⟩

/-- The rule reads one item after another, until it is stuck. -/
inductive Items (rule : Rule α) (c : Context) : State → List α → State → Prop
  | nil {s : State} {why : Stuck} (h : rule (c.speculating s) s = .error why s) :
    Items rule c s [] s
  | cons {s t u : State} {a : α} {as : List α} (h : rule (c.speculating s) s = .ok a t)
    (ht : c.Onward s t) (hlt : s.cursor < t.cursor) (rest : Items rule c t as u) :
    Items rule c s (a :: as) u

theorem Opening.items_of_many (h : Opening rule) (hs : c.Proper s) {as : List α}
    (hok : many rule c s = .ok as t) : Items rule c s as t := by
  have hrounds := loopRun_of_collect hok
  clear hok
  induction hrounds with
  | stop hstep =>
    rcases h.optional_cases hs with ⟨a, u, -, hsome, -⟩ | ⟨⟨why, hstuck⟩, hnone⟩
    · cases (bind_of_ok hsome).symm.trans hstep
    · cases (bind_of_ok hnone).symm.trans hstep
      exact .nil hstuck
  | last hstep =>
    obtain ⟨r, u, -, hrest⟩ := ok_of_bind hstep
    cases r <;> cases hrest
  | stalled hstep hstalled =>
    rcases h.optional_cases hs with ⟨a, u, -, hsome, hu, hlt⟩ | ⟨-, hnone⟩
    · cases (bind_of_ok hsome).symm.trans hstep
      have hle := hu.le_size
      unfold Context.remaining at hstalled
      omega
    · cases (bind_of_ok hnone).symm.trans hstep
  | more hstep _ _ ih =>
    rcases h.optional_cases hs with ⟨a, u, hread, hsome, hu, hlt⟩ | ⟨-, hnone⟩
    · cases (bind_of_ok hsome).symm.trans hstep
      exact .cons hread hu hlt (ih (hu.proper hs))
    · cases (bind_of_ok hnone).symm.trans hstep

theorem Items.onward {as : List α} (hs : c.Proper s) (h : Items rule c s as t) : c.Onward s t := by
  induction h with
  | nil _ => exact .refl hs
  | cons _ ht _ _ ih => exact ht.trans (ih (ht.proper hs))

/-- A round of a repetition either consumes a token or ends it and leaves the state as it was. -/
theorem Opening.many_cases (h : Opening rule) (hs : c.Proper s) :
    (∃ as t, many rule c s = .ok as t ∧ c.Onward s t ∧ s.cursor < t.cursor) ∨
    ((∃ why, rule (c.speculating s) s = .error why s) ∧ many rule c s = .ok [] s) := by
  rcases h.optional_cases hs with ⟨a, t, -, hsome, ht, hlt⟩ | ⟨hstuck, hnone⟩
  · refine .inl ?_
    have hmoved : c.remaining t < c.remaining s := by
      have hle := ht.le_size
      unfold Context.remaining
      omega
    cases hrest : many rule c t with
    | ok as u =>
      have hu := h.toOrderly.many.onward (ht.proper hs) hrest
      refine ⟨a :: as, u, ?_, ht.trans hu, Nat.lt_of_lt_of_le hlt hu.cursor_le⟩
      exact (LoopRun.more (bind_of_ok hsome) hmoved (loopRun_of_collect hrest)).collect
    | error why u => exact absurd hrest (h.toOrderly.many.not_stuck hs ht hlt)
  · exact .inr ⟨hstuck, collect_of_none (bind_of_ok hnone)⟩

/-- A repetition, and then a rule that opens. -/
theorem Opening.many_bind {f : List α → Rule β} (h : Opening rule) (hf : ∀ as, Opening (f as)) :
    Opening (many rule >>= f) where
  toOrderly := h.toOrderly.many.bind fun as => (hf as).toOrderly
  moves {c s b u} hs hc hok := by
    rcases h.many_cases hs with ⟨as, t, hmany, ht, hlt⟩ | ⟨-, hmany⟩ <;>
      rw [bind_of_ok hmany] at hok
    · exact Nat.lt_of_lt_of_le hlt ((hf as).onward (ht.proper hs) hok).cursor_le
    · exact (hf []).moves hs hc hok
  restores {c s why u} hs herr := by
    rcases h.many_cases hs with ⟨as, t, hmany, ht, hlt⟩ | ⟨-, hmany⟩ <;>
      rw [bind_of_ok hmany] at herr
    · exact absurd herr ((hf as).toOrderly.not_stuck hs ht hlt)
    · exact (hf []).restores hs herr

theorem Opening.firstOf_restores {rules : List (Rule α)} (h : ∀ r ∈ rules, Opening r) 
    (hs : c.Proper s) {failures : List Stuck}
    (herr : firstOf rules c s = .error failures t) : t = s := by
  induction rules generalizing failures with
  | nil =>
    cases herr
    rfl
  | cons rule rules ih =>
    rw [List.forall_mem_cons] at h
    cases hrule : rule c s with
    | ok a u =>
      rw [firstOf, hrule] at herr
      cases herr
    | error why u =>
      obtain rfl := h.1.restores hs hrule
      have hrewind : u.rewind u = u := rfl
      simp only [firstOf, hrule, hrewind] at herr
      split at herr
      · cases herr
      · next hrest =>
        cases herr
        exact ih h.2 hrest

theorem Opening.alt {rules : List (Rule α)} (hne : rules ≠ []) (h : ∀ r ∈ rules, Opening r) :
    Opening (alt rules) where
  toOrderly := .alt hne fun r hr => (h r hr).toOrderly
  moves {c s a t} hs hc hok := by
    rcases alt_cases hok with hfirst | ⟨hcommitted, -⟩
    · obtain ⟨r, hr, u, hu, hrule⟩ := firstOf_progress.1 hfirst
      have hcursor : u.cursor = s.cursor := congrArg Progress.cursor hu
      rw [← hcursor]
      refine (h r hr).moves (hs.speculating.congr hcursor) ?_ hrule
      rw [Context.isCommitted_congr hcursor, Context.isCommitted_speculating hs]
    · rw [hc] at hcommitted
      cases hcommitted
  restores {c s why t} hs herr := by
    have hc : c.isCommitted s = false :=
      (Orderly.alt hne fun r hr => (h r hr).toOrderly).completes hs herr
    unfold Rule.alt at herr
    cases hfirst : firstOf rules (c.speculating s) s with
    | ok a u =>
      rw [hfirst] at herr
      cases herr
    | error failures u =>
      obtain rfl := Opening.firstOf_restores h hs.speculating hfirst
      simp only [hfirst, hc] at herr
      split at herr <;>
      · cases herr
        rfl

end Rule

end LuaSyntax
