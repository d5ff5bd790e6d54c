import LuaSyntax.Proofs.Rule.Gives
import LuaSyntax.Proofs.Rule.Skip
/-!
# Clean runs

A run is clean if it gives a value and records nothing. Rules only go on and take nothing back
(`Orderly`), so a clean run of a rule is made of clean runs of its parts.
-/

namespace LuaSyntax

namespace Context

variable {c c' : Context} {s s' t t' u : State}

/-- From `s` to `t` the run has not gone back, nor taken back a diagnostic. -/
structure Onward (c : Context) (s t : State) : Prop where
  cursor_le : s.cursor ≤ t.cursor
  le_size : t.cursor ≤ c.stream.size
  diags : s.diags <:+ t.diags

namespace Onward

theorem refl (hs : c.Proper s) : c.Onward s s :=
  ⟨Nat.le_refl _, hs.cursor_le, List.suffix_refl _⟩

theorem trans (h : c.Onward s t) (h' : c.Onward t u) : c.Onward s u :=
  ⟨Nat.le_trans h.cursor_le h'.cursor_le, h'.le_size, h.diags.trans h'.diags⟩

theorem proper (h : c.Onward s t) (hs : c.Proper s) : c.Proper t :=
  hs.of_le h.cursor_le h.le_size

/-- A run is known by the stream, and by the cursors and diagnostics at its ends. -/
theorem congr (h : c.Onward s t) (hstream : c'.stream = c.stream)
    (hs : s'.progress = s.progress) (ht : t'.progress = t.progress) : c'.Onward s' t' := by
  obtain ⟨hcursor, hdiags⟩ := Progress.mk.inj hs
  obtain ⟨hcursor', hdiags'⟩ := Progress.mk.inj ht
  refine ⟨?_, ?_, ?_⟩
  · rw [hcursor, hcursor']
    exact h.cursor_le
  · rw [hcursor', hstream]
    exact h.le_size
  · rw [hdiags, hdiags']
    exact h.diags

/-- Where nothing is recorded in the end, nothing was recorded on the way. -/
theorem diags_eq (h : c.Onward s t) (h' : c.Onward t u) (hclean : u.diags = s.diags) :
    t.diags = s.diags := by
  refine (h.diags.eq_of_length_le ?_).symm
  rw [← hclean]
  exact h'.diags.length_le

theorem record (h : c.Onward s t) (d : Diagnostic) : c.Onward s (t.record d) :=
  ⟨h.cursor_le, h.le_size, h.diags.trans (List.suffix_cons _ _)⟩

end Onward

theorem next?_speculating (c : Context) (s t : State) : (c.speculating s).next? t = c.next? t := by
  rw [next?, stream_speculating]
  rfl

theorem Proper.congr (hs : c.Proper s) (hcursor : t.cursor = s.cursor) : c.Proper t :=
  hs.of_le (Nat.le_of_eq hcursor.symm) (hcursor ▸ hs.cursor_le)

end Context

namespace Rule

variable {α β : Type} {rule : Rule α} {f : α → Rule β} {c : Context} {s t u : State} {a : α} {b : β}

/-- The rule only goes on, and gives a value if it runs committed. -/
structure Orderly (rule : Rule α) : Prop where
  onward : ∀ {c s a t}, c.Proper s → rule c s = .ok a t → c.Onward s t
  completes : ∀ {c s why t}, c.Proper s → rule c s = .error why t → c.isCommitted s = false

/-- The rule gives `a` from `s` to `t` and records nothing. -/
structure Clean (rule : Rule α) (c : Context) (s : State) (a : α) (t : State) : Prop where
  ok : rule c s = .ok a t
  diags : t.diags = s.diags

section

variable {law : Law} {P : Yield → α → Prop} {R : Yield → Prop} {moves : α → Prop}

theorem onward_of_reaches (h : Reaches law c s t R) (hs : c.Proper s) : c.Onward s t := by
  refine ⟨h.le, (h.proper hs).cursor_le, ?_⟩
  obtain ⟨ds, -, hdiags, -⟩ := h
  rw [hdiags]
  exact List.suffix_append _ _

theorem Opens.orderly (h : Opens law rule P) : Orderly rule where
  onward {c s a t} hs hok := by
    cases hc : c.isCommitted s with
    | true =>
      obtain ⟨b, u, hrule, hreach⟩ := h.completes c s hs hc
      cases hrule.symm.trans hok
      exact onward_of_reaches hreach hs
    | false =>
      rcases h.speculates c s hs hc with ⟨b, u, hrule, hreach, -⟩ | ⟨why, hrule⟩
      · cases hrule.symm.trans hok
        exact onward_of_reaches hreach hs
      · cases hrule.symm.trans hok
  completes {c s why t} hs herr := by
    refine Bool.eq_false_iff.2 fun hc => ?_
    obtain ⟨b, u, hrule, -⟩ := h.completes c s hs hc
    cases hrule.symm.trans herr

theorem Opens.lt_of_ok (h : Opens law rule P) (hs : c.Proper s) (hc : c.isCommitted s = false)
    (hok : rule c s = .ok a t) : s.cursor < t.cursor := by
  rcases h.speculates c s hs hc with ⟨b, u, hrule, -, hlt⟩ | ⟨why, hrule⟩
  · cases hrule.symm.trans hok
    exact hlt
  · cases hrule.symm.trans hok

theorem Always.orderly (h : Always law moves rule P) : Orderly rule where
  onward {c s a t} hs hok := by
    obtain ⟨b, u, hrule, hreach, -⟩ := h c s hs
    cases hrule.symm.trans hok
    exact onward_of_reaches hreach hs
  completes {c s why t} hs herr := by
    obtain ⟨b, u, hrule, -⟩ := h c s hs
    cases hrule.symm.trans herr

end

/-- Once a token has been consumed, a rule runs committed, so it is not stuck. -/
theorem Orderly.not_stuck (h : Orderly rule) (hs : c.Proper s) (ht : c.Onward s t)
    (hlt : s.cursor < t.cursor) {why : Stuck} : rule c t ≠ .error why u := by
  intro herr
  have hcommitted := Context.isCommitted_of_lt hs hlt
  rw [h.completes (ht.proper hs) herr] at hcommitted
  cases hcommitted

/-! ### Sequencing -/

theorem Orderly.pure (a : α) : Orderly (pure a) where
  onward hs hok := by
    cases hok
    exact .refl hs
  completes _ herr := by cases herr

theorem Orderly.bind (h : Orderly rule) (hf : ∀ a, Orderly (f a)) : Orderly (rule >>= f) where
  onward {c s b u} hs hok := by
    obtain ⟨a, t, hrule, hrest⟩ := ok_of_bind hok
    have ht := h.onward hs hrule
    exact ht.trans ((hf a).onward (ht.proper hs) hrest)
  completes {c s why u} hs herr := by
    rcases error_of_bind herr with hrule | ⟨a, t, hrule, hrest⟩
    · exact h.completes hs hrule
    · have ht := h.onward hs hrule
      have hc := (hf a).completes (ht.proper hs) hrest
      refine Bool.eq_false_iff.2 fun hcommitted => ?_
      rw [Context.isCommitted_of_le hs hcommitted ht.cursor_le] at hc
      cases hc

theorem Clean.bind (h : Clean rule c s a t) (hf : Clean (f a) c t b u) :
    Clean (rule >>= f) c s b u :=
  ⟨by rw [bind_of_ok h.ok, hf.ok], hf.diags.trans h.diags⟩

/-- A clean run is made of clean runs. -/
theorem Clean.of_bind (h : Orderly rule) (hf : ∀ a, Orderly (f a)) (hs : c.Proper s)
    (hclean : Clean (rule >>= f) c s b u) :
    ∃ a t, Clean rule c s a t ∧ c.Onward s t ∧ Clean (f a) c t b u := by
  obtain ⟨hok, hdiags⟩ := hclean
  obtain ⟨a, t, hrule, hrest⟩ := ok_of_bind hok
  have ht := h.onward hs hrule
  have hquiet := ht.diags_eq ((hf a).onward (ht.proper hs) hrest) hdiags
  exact ⟨a, t, ⟨hrule, hquiet⟩, ht, hrest, hdiags.trans hquiet.symm⟩

/-! ### Tokens -/

theorem opens_anyhow (m : Matcher α) : Opens ⟨fun _ => True, True⟩ (satisfy m) fun _ _ => True :=
  (opens_satisfy trivial).mono fun _ _ _ => trivial

/-- A matcher reads a token cleanly or not at all. -/
theorem orderly_satisfy (m : Matcher α) : Orderly (satisfy m) :=
  (opens_anyhow m).orderly

theorem orderly_token (t : Token) : Orderly (token t) :=
  (orderly_satisfy (.exactly t)).bind fun a => .pure a.span

theorem Clean.of_satisfy {m : Matcher α} {a : Located α} (h : Clean (satisfy m) c s a t) :
    ∃ u b, c.next? s = some u ∧ m.accept u.node = some b ∧ a = ⟨b, u.span⟩ ∧ t = s.advance 1 := by
  obtain ⟨hok, hdiags⟩ := h
  rcases accept_or_reject m c s with ⟨u, b, found, accepted⟩ | hsupply
  · rw [satisfy_of_accept found accepted] at hok
    cases hok
    exact ⟨u, b, found, accepted, rfl, rfl⟩
  · rw [hsupply, supply] at hok
    split at hok
    · cases hok
      exact absurd hdiags (List.cons_ne_self _ _)
    · cases hok

theorem Clean.of_token {k : Token} {span : Span} (h : Clean (token k) c s span t) :
    c.next? s = some ⟨k, span⟩ ∧ t = s.advance 1 := by
  obtain ⟨a, u, hsatisfy, hok⟩ := ok_of_bind h.ok
  cases hok
  have hclean : Clean (satisfy (.exactly k)) c s a t := ⟨hsatisfy, h.diags⟩
  obtain ⟨⟨node, span⟩, b, found, accepted, rfl, rfl⟩ := hclean.of_satisfy
  obtain rfl : node = k := by simpa [Matcher.exactly] using accepted
  exact ⟨found, rfl⟩

/-- A run of tokens is passed over with a diagnostic, unless it is empty. -/
theorem Clean.of_skipTokens {count : Nat} {expected : List Expected} {a : Unit}
    (h : Clean (skipTokens count expected) c s a t) : min count (c.remaining s) = 0 ∧ t = s := by
  obtain ⟨hok, hdiags⟩ := h
  unfold skipTokens at hok
  dsimp only at hok
  split at hok
  · next hnone =>
    cases hok
    exact ⟨hnone, rfl⟩
  · cases hok
    exact absurd hdiags (List.cons_ne_self _ _)

theorem orderly_skipTokens (count : Nat) (expected : List Expected) :
    Orderly (skipTokens count expected) where
  onward {c s a t} hs hok := by
    obtain ⟨u, hskip, hreach, -⟩ := skipTokens_spec ⟨fun _ => True, True⟩ count expected hs
    cases hskip.symm.trans hok
    exact onward_of_reaches hreach hs
  completes {c s why t} hs herr := by
    obtain ⟨u, hskip, -⟩ := skipTokens_spec ⟨fun _ => True, True⟩ count expected hs
    cases hskip.symm.trans herr

/-! ### Spans and optional parts -/

theorem Orderly.located (h : Orderly rule) : Orderly (located rule) where
  onward hs hok := h.onward hs (ok_of_located hok).1
  completes hs herr := h.completes hs (error_of_located herr)

theorem Orderly.optional (h : Orderly rule) : Orderly (optional rule) where
  onward {c s r t} hs hok := by
    rcases optional_cases rule c s with ⟨a, u, hrule, hoptional⟩ | ⟨why, u, -, hoptional⟩
    · rw [hoptional] at hok
      cases hok
      exact (h.onward hs.speculating hrule).congr (c.stream_speculating s).symm rfl rfl
    · rw [hoptional] at hok
      cases hok
      exact (Context.Onward.refl hs).congr rfl rfl rfl
  completes {c s why t} _ herr := by
    rcases optional_cases rule c s with ⟨a, u, -, hoptional⟩ | ⟨why, u, -, hoptional⟩ <;>
    · rw [hoptional] at herr
      cases herr

/-! ### Loops -/

section

variable {step : Rule (Option (α × Bool))} {as : List α}

theorem LoopRun.collect (h : LoopRun step c s as t) : Rule.collect step c s = .ok as t := by
  induction h with
  | stop h => exact collect_of_none h
  | last h => exact collect_of_last h
  | stalled h hstalled =>
    rw [Rule.collect, h]
    exact if_neg hstalled
  | more h hmoved _ ih =>
    rw [Rule.collect, h]
    simp only [if_pos hmoved, ih]

theorem LoopRun.onward (h : Orderly step) (hs : c.Proper s) (hrounds : LoopRun step c s as t) :
    c.Onward s t := by
  induction hrounds with
  | stop hstep => exact h.onward hs hstep
  | last hstep => exact h.onward hs hstep
  | stalled hstep _ => exact h.onward hs hstep
  | more hstep _ _ ih =>
    have hround := h.onward hs hstep
    exact hround.trans (ih (hround.proper hs))

/-- If a loop records nothing, neither does its first round. -/
theorem LoopRun.quiet (h : Orderly step) (hs : c.Proper s)
    (hstep : step c s = .ok (some (a, true)) u) (hrest : LoopRun step c u as t)
    (hdiags : t.diags = s.diags) : c.Onward s u ∧ u.diags = s.diags := by
  have hu := h.onward hs hstep
  exact ⟨hu, hu.diags_eq (hrest.onward h (hu.proper hs)) hdiags⟩

theorem Orderly.collect (h : Orderly step) : Orderly (collect step) where
  onward hs hok := (loopRun_of_collect hok).onward h hs
  completes {c s why t} hs herr := by
    induction hn : c.remaining s using Nat.strongRecOn generalizing s with
    | ind n ih =>
      rw [Rule.collect] at herr
      split at herr
      · next hstep => exact h.completes hs hstep
      · cases herr
      · cases herr
      · next u hstep =>
        split at herr
        · next hmoved =>
          split at herr
          · next hrest =>
            cases herr
            -- a round that has moved leaves the loop committed
            have hu := h.onward hs hstep
            have hc := ih _ (hn ▸ hmoved) (hu.proper hs) hrest rfl
            have hlt : s.cursor < u.cursor := by
              unfold Context.remaining at hmoved
              omega
            rw [Context.isCommitted_of_lt hs hlt] at hc
            cases hc
          · cases herr
        · cases herr

/-- What is made of each value may be made of it in its round. -/
theorem collect_map (g : α → β) (step : Rule (Option (α × Bool))) (c : Context) (s : State) :
    Rule.collect (Option.map (fun round => (g round.1, round.2)) <$> step) c s =
      match Rule.collect step c s with
      | .ok as t => .ok (as.map g) t
      | .error why t => .error why t := by
  induction hn : c.remaining s using Nat.strongRecOn generalizing s with
  | ind n ih =>
    rw [Rule.collect.eq_def step, Rule.collect.eq_def (_ <$> step), map_apply]
    cases step c s with
    | error why t => rfl
    | ok r t =>
      match r with
      | none => rfl
      | some (a, false) => rfl
      | some (a, true) =>
        simp only [Option.map_some]
        by_cases hmoved : c.remaining t < c.remaining s
        · simp only [if_pos hmoved, ih _ (hn ▸ hmoved) t rfl]
          cases Rule.collect step c t <;> rfl
        · simp only [if_neg hmoved, List.map_nil]

end

/-! ### Choice -/

section

variable {rules : List (Rule α)}

/-- If a choice fails, each of its rules has failed at the same place. -/
theorem stuck_of_firstOf {failures : List Stuck} (h : firstOf rules c s = .error failures t) :
    failures.length = rules.length ∧ ∀ r ∈ rules, ∃ u why v,
      u.progress = s.progress ∧ r c u = .error why v := by
  induction rules generalizing s failures t with
  | nil =>
    cases h
    exact ⟨rfl, nofun⟩
  | cons rule rules ih =>
    cases hrule : rule c s with
    | ok a u =>
      rw [firstOf, hrule] at h
      cases h
    | error why u =>
      simp only [firstOf, hrule] at h
      split at h
      · cases h
      · next hrest =>
        cases h
        obtain ⟨hlength, hstuck⟩ := ih hrest
        exact ⟨by rw [List.length_cons, List.length_cons, hlength],
          List.forall_mem_cons.2 ⟨⟨s, why, u, rfl, hrule⟩, hstuck⟩⟩

/-- A choice makes no repair on a clean run if none of its rules is stuck at the first attempt where
it has a clean run. Then the value comes from the first attempt. -/
theorem firstOf_of_clean (hclean : Clean (alt rules) c s a t)
    (h : ∀ r ∈ rules, ∀ {u u' w w' why}, u.cursor = s.cursor → u'.cursor = t.cursor →
      w.cursor = s.cursor → Clean r c u a u' → r (c.speculating s) w ≠ .error why w') :
    firstOf rules (c.speculating s) s = .ok a t := by
  rcases alt_cases hclean.ok with hfirst | ⟨-, failures, v, hfail, r, hr, u, u', hu, hrule, hu'⟩
  · exact hfirst
  · obtain ⟨w, why, w', hw, hstuck⟩ := (stuck_of_firstOf hfail).2 r hr
    obtain ⟨hcursor, hdiags⟩ := Progress.mk.inj hu
    obtain ⟨hend, hdiags'⟩ := Progress.mk.inj hu'
    have hrepair : Clean r c u a u' := ⟨hrule, by rw [hdiags', hdiags, hclean.diags]⟩
    exact absurd hstuck (h r hr hcursor hend (congrArg Progress.cursor hw) hrepair)

theorem hinted_of_error {expected : List Expected} {why : Stuck}
    (h : hinted expected rule c s = .error why t) :
    ∃ u why' u', u.progress = s.progress ∧ rule c u = .error why' u' := by
  unfold hinted at h
  split at h
  · exact ⟨s, why, t, rfl, h⟩
  · split at h
    · cases h
    · next why' u' hrule => exact ⟨{ s with hint := some expected }, why', u', rfl, hrule⟩

theorem Orderly.alt (hne : rules ≠ []) (h : ∀ r ∈ rules, Orderly r) : Orderly (alt rules) where
  onward {c s a t} hs hok := by
    rcases alt_cases hok with hfirst | ⟨-, -, -, -, r, hr, u, u', hu, hrule, hu'⟩
    · obtain ⟨r, hr, u, hu, hrule⟩ := firstOf_progress.1 hfirst
      have hcursor : u.cursor = s.cursor := congrArg Progress.cursor hu
      exact ((h r hr).onward (hs.speculating.congr hcursor) hrule).congr
        (c.stream_speculating s).symm hu.symm rfl
    · have hcursor : u.cursor = s.cursor := congrArg Progress.cursor hu
      exact ((h r hr).onward (hs.congr hcursor) hrule).congr rfl hu.symm hu'.symm
  completes {c s why t} hs herr := by
    refine Bool.eq_false_iff.2 fun hc => ?_
    unfold Rule.alt at herr
    cases hfirst : firstOf rules (c.speculating s) s with
    | ok a u =>
      rw [hfirst] at herr
      cases herr
    | error failures u =>
      obtain ⟨r, hr, hcheapest⟩ := exists_cheapest hne (stuck_of_firstOf hfirst).1
      have hcursor : u.cursor = s.cursor := congrArg Progress.cursor (firstOf_progress.2 hfirst)
      simp only [hfirst, hcheapest, hc, if_true] at herr
      obtain ⟨v, why', v', hv, hrule⟩ := hinted_of_error herr
      have hcursor' : v.cursor = s.cursor := (congrArg Progress.cursor hv).trans hcursor
      have hstuck := (h r hr).completes (hs.congr hcursor') hrule
      rw [Context.isCommitted_congr hcursor', hc] at hstuck
      cases hstuck

end

end Rule

end LuaSyntax
