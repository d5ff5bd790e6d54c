import LuaSyntax.Proofs.Rule.Opening
/-!
# Rules go forward

In whatever mode and from whatever state a rule runs, it does not go back (`Advances`), and most
rules have consumed a token if they give a value uncommitted (`Proceeds`). Unlike `Opening`, this
holds in pure lookahead too, where a rule that is stuck may leave anything behind.
-/

namespace LuaSyntax

namespace Context

variable {c : Context} {s t u : State}

/-- From `s` to `t` the cursor has not gone back, and if it has moved it is not past the end. -/
structure Forward (c : Context) (s t : State) : Prop where
  cursor_le : s.cursor ≤ t.cursor
  le_size : s.cursor < t.cursor → t.cursor ≤ c.stream.size

namespace Forward

theorem of_eq (h : t.cursor = s.cursor) : c.Forward s t :=
  ⟨Nat.le_of_eq h.symm, fun hlt => absurd hlt (Nat.not_lt.2 (Nat.le_of_eq h))⟩

theorem refl (c : Context) (s : State) : c.Forward s s := .of_eq rfl

theorem trans (h : c.Forward s t) (h' : c.Forward t u) : c.Forward s u := by
  refine ⟨Nat.le_trans h.cursor_le h'.cursor_le, fun hlt => ?_⟩
  rcases Nat.lt_or_eq_of_le h'.cursor_le with hmoved | heq
  · exact h'.le_size hmoved
  · rw [← heq] at hlt ⊢
    exact h.le_size hlt

/-- Only the stream and the cursors matter. -/
theorem congr {c' : Context} {s' t' : State} (h : c.Forward s t) (hstream : c'.stream = c.stream)
    (hs : s'.cursor = s.cursor) (ht : t'.cursor = t.cursor) : c'.Forward s' t' := by
  refine ⟨?_, ?_⟩
  · rw [hs, ht]
    exact h.cursor_le
  · rw [hs, ht, hstream]
    exact h.le_size

theorem remaining_lt (h : c.Forward s t) (hlt : s.cursor < t.cursor) :
    c.remaining t < c.remaining s := by
  have hle := h.le_size hlt
  unfold remaining
  omega

end Forward

end Context

namespace Rule

variable {α β : Type} {rule : Rule α} {f : α → Rule β}

/-- The rule does not go back. -/
structure Advances (rule : Rule α) : Prop where
  forward : ∀ {c s a t}, rule c s = .ok a t → c.Forward s t

/-- The rule does not go back, and it has consumed a token if it gives a value uncommitted. -/
structure Proceeds (rule : Rule α) : Prop extends Advances rule where
  lt : ∀ {c s a t}, c.isCommitted s = false → rule c s = .ok a t → s.cursor < t.cursor

/-! ### Single steps -/

theorem advances_of_ok {g : Context → State → α} (hok : ∀ c s, rule c s = .ok (g c s) s) :
    Advances rule where
  forward {c s a t} h := by
    cases (hok c s).symm.trans h
    exact .refl c s

theorem advances_record (d : Diagnostic) : Advances (record d) where
  forward h := by
    cases h
    exact .of_eq rfl

theorem proceeds_supply (m : Matcher α) : Proceeds (supply m) where
  forward {c s a t} h := by
    unfold supply at h
    split at h
    · cases h
      exact .of_eq rfl
    · cases h
  lt hc h := by simp [supply, hc] at h

theorem proceeds_satisfy (m : Matcher α) : Proceeds (satisfy m) where
  forward {c s a t} h := by
    unfold satisfy at h
    split at h
    · next hfound =>
      obtain ⟨token, htoken, -⟩ := Option.bind_eq_some_iff.1 hfound
      cases h
      exact ⟨Nat.le_succ _, fun _ => lt_of_next? htoken⟩
    · exact (proceeds_supply m).forward h
  lt {c s a t} hc h := by
    unfold satisfy at h
    split at h
    · cases h
      exact Nat.lt_succ_self _
    · exact (proceeds_supply m).lt hc h

theorem exists_skipTokens (count : Nat) (expected : List Expected) (c : Context) (s : State) :
    ∃ t, skipTokens count expected c s = .ok () t ∧
      t.cursor = s.cursor + min count (c.remaining s) := by
  by_cases hskipped : min count (c.remaining s) = 0
  · exact ⟨s, if_pos hskipped, by omega⟩
  · exact ⟨_, if_neg hskipped, rfl⟩

theorem advances_skipTokens (count : Nat) (expected : List Expected) :
    Advances (skipTokens count expected) where
  forward {c s _ t} h := by
    obtain ⟨u, hok, hcursor⟩ := exists_skipTokens count expected c s
    cases hok.symm.trans h
    refine ⟨by omega, fun hlt => ?_⟩
    unfold Context.remaining at hcursor
    omega

theorem exists_skipLevel (separators : Bool) (c : Context) (s : State) :
    ∃ r t, skipLevel separators c s = .ok r t ∧
      t.cursor = s.cursor + levelLength separators 0 (c.ahead s) := by
  by_cases hcount : levelLength separators 0 (c.ahead s) = 0
  · exact ⟨none, s, if_pos hcount, by omega⟩
  · exact ⟨_, _, if_neg hcount, rfl⟩

theorem advances_skipLevel (separators : Bool) : Advances (skipLevel separators) where
  forward {c s a t} h := by
    rcases skipLevel_spec separators c s with hnone | ⟨count, span, -, hle, -, hskipped⟩
    · cases hnone.symm.trans h
      exact .refl c s
    · cases hskipped.symm.trans h
      exact ⟨Nat.le_add_right _ _, fun _ => hle⟩

/-! ### Rules put together -/

theorem Advances.bind (h : Advances rule) (hf : ∀ a, Advances (f a)) : Advances (rule >>= f) where
  forward hok := by
    obtain ⟨a, t, hrule, hrest⟩ := ok_of_bind hok
    exact (h.forward hrule).trans ((hf a).forward hrest)

theorem Proceeds.bind (h : Proceeds rule) (hf : ∀ a, Advances (f a)) : Proceeds (rule >>= f) where
  toAdvances := h.toAdvances.bind hf
  lt hc hok := by
    obtain ⟨a, t, hrule, hrest⟩ := ok_of_bind hok
    exact Nat.lt_of_lt_of_le (h.lt hc hrule) ((hf a).forward hrest).cursor_le

/-- What comes after a rule that has not moved is still uncommitted. -/
theorem Advances.bind_proceeds (h : Advances rule) (hf : ∀ a, Proceeds (f a)) :
    Proceeds (rule >>= f) where
  toAdvances := h.bind fun a => (hf a).toAdvances
  lt {c s b u} hc hok := by
    obtain ⟨a, t, hrule, hrest⟩ := ok_of_bind hok
    rcases Nat.lt_or_eq_of_le (h.forward hrule).cursor_le with hmoved | heq
    · exact Nat.lt_of_lt_of_le hmoved ((hf a).forward hrest).cursor_le
    · rw [heq]
      exact (hf a).lt (Context.isCommitted_congr heq.symm ▸ hc) hrest

theorem Advances.located (h : Advances rule) : Advances (located rule) where
  forward hok := h.forward (ok_of_located hok).1

theorem Proceeds.located (h : Proceeds rule) : Proceeds (located rule) where
  toAdvances := h.toAdvances.located
  lt hc hok := h.lt hc (ok_of_located hok).1

theorem Advances.optional (h : Advances rule) : Advances (optional rule) where
  forward {c s a t} hok := by
    rcases Rule.optional_cases rule c s with ⟨b, u, hrule, hsome⟩ | ⟨why, u, -, hnone⟩
    · cases hsome.symm.trans hok
      exact (h.forward hrule).congr (c.stream_speculating s).symm rfl rfl
    · cases hnone.symm.trans hok
      exact .of_eq rfl

/-- An optional part that is there has consumed a token. -/
theorem Proceeds.lt_of_some (h : Proceeds rule) {c : Context} {s t : State} {a : α}
    (hok : Rule.optional rule c s = .ok (some a) t) : s.cursor < t.cursor := by
  rcases Rule.optional_cases rule c s with ⟨b, u, hrule, hsome⟩ | ⟨why, u, -, hnone⟩
  · cases hsome.symm.trans hok
    exact h.lt (not_isCommitted_speculating c s) hrule
  · cases hnone.symm.trans hok

theorem Advances.collect {step : Rule (Option (α × Bool))} (h : Advances step) :
    Advances (collect step) where
  forward {c s as t} hok := by
    have hrounds := loopRun_of_collect hok
    clear hok
    induction hrounds with
    | stop hstep => exact h.forward hstep
    | last hstep => exact h.forward hstep
    | stalled hstep _ => exact h.forward hstep
    | more hstep _ _ ih => exact (h.forward hstep).trans ih

theorem Advances.many (h : Advances rule) : Advances (many rule) :=
  (h.optional.bind fun r => advances_of_ok fun _ _ => pure_apply (r.map (·, true)) _ _).collect

theorem Advances.alt {rules : List (Rule α)} (h : ∀ r ∈ rules, Advances r) :
    Advances (alt rules) where
  forward {c s a t} hok := by
    rcases alt_cases hok with hfirst | ⟨-, -, -, -, r, hr, u, u', hu, hrule, hu'⟩
    · obtain ⟨r, hr, u, hu, hrule⟩ := firstOf_progress.1 hfirst
      exact ((h r hr).forward hrule).congr (c.stream_speculating s).symm
        (congrArg Progress.cursor hu).symm rfl
    · exact ((h r hr).forward hrule).congr rfl (congrArg Progress.cursor hu).symm
        (congrArg Progress.cursor hu').symm

theorem Proceeds.alt {rules : List (Rule α)} (h : ∀ r ∈ rules, Proceeds r) :
    Proceeds (alt rules) where
  toAdvances := .alt fun r hr => (h r hr).toAdvances
  lt {c s a t} hc hok := by
    rcases alt_cases hok with hfirst | ⟨hcommitted, -⟩
    · obtain ⟨r, hr, u, hu, hrule⟩ := firstOf_progress.1 hfirst
      have hcursor : u.cursor = s.cursor := congrArg Progress.cursor hu
      rw [← hcursor]
      refine (h r hr).lt ?_ hrule
      rw [Context.isCommitted_congr hcursor, not_isCommitted_speculating]
    · rw [hc] at hcommitted
      cases hcommitted

theorem Proceeds.attempt (h : Proceeds rule) : Proceeds (attempt rule) where
  forward {c s a t} hok := by
    unfold Rule.attempt at hok
    split at hok
    · exact h.forward hok
    · split at hok
      · next hrule =>
        cases hok
        exact (h.forward hrule).congr rfl rfl rfl
      · cases hok
  lt {c s a t} hc hok := by
    simp only [Rule.attempt, hc] at hok
    split at hok
    · next hcommitted => cases hcommitted
    · split at hok
      · next hrule =>
        cases hok
        exact h.lt rfl hrule
      · cases hok

end Rule

end LuaSyntax
