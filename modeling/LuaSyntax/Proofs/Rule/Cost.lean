import LuaSyntax.Proofs.Rule.Opening
/-!
# The cost of a failure

What a rule would have to put in, where it is stuck, is what its first token costs. A choice is
repaired with its first alternative if no other one costs less.
-/

namespace LuaSyntax.Rule

variable {α β : Type} {rule : Rule α} {f : α → Rule β} {P : Nat → Prop} {n : Nat}

/-- Where the rule is stuck, the cost of its failure satisfies `P`. -/
def Costs (P : Nat → Prop) (rule : Rule α) : Prop :=
  ∀ c s why t, c.Proper s → rule c s = .error why t → P why.cost

theorem costs_satisfy {m : Matcher α} (h : P m.repair.insertionCost) : Costs P (satisfy m) := by
  intro c s why t hs herr
  have hc := (orderly_satisfy m).completes hs herr
  rcases accept_or_reject m c s with ⟨u, a, found, accepted⟩ | hsupply
  · rw [satisfy_of_accept found accepted] at herr
    cases herr
  · rw [hsupply, supply_of_not_committed hc] at herr
    cases herr
    exact h

theorem Costs.bind (h : Costs P rule) (hopening : Opening rule) (hf : ∀ a, Orderly (f a)) :
    Costs P (rule >>= f) :=
  fun c s why u hs herr => h c s why u hs (hopening.error_of_bind hf hs herr)

theorem Costs.map (g : α → β) (h : Costs P rule) (hopening : Opening rule) :
    Costs P (g <$> rule) := by
  rw [map_eq_pure_bind]
  exact h.bind hopening fun a => .pure (g a)

theorem Costs.located (h : Costs P rule) : Costs P (located rule) :=
  fun c s why t hs herr => h c s why t hs (error_of_located herr)

theorem costs_token {t : Token} (h : P t.insertionCost) : Costs P (token t) :=
  (costs_satisfy (m := .exactly t) h).bind (opening_satisfy _) fun a => .pure a.span

/-! ### Choice -/

theorem cost_join_le {failures : List Stuck} {why : Stuck} (h : why ∈ failures) :
    (Stuck.join failures).cost ≤ why.cost := by
  have hmem := List.mem_map_of_mem (f := (·.cost)) h
  cases hmin : (failures.map (·.cost)).min? with
  | none =>
    rw [List.min?_eq_none_iff.1 hmin] at hmem
    cases hmem
  | some least =>
    have hle := (List.le_min?_iff hmin (x := least)).1 (Nat.le_refl _) _ hmem
    rwa [Stuck.join, hmin]

theorem Costs.of_firstOf {rules : List (Rule α)} {c : Context} {s t : State}
    {failures : List Stuck} (h : ∀ r ∈ rules, Costs P r) (hs : c.Proper s)
    (herr : firstOf rules c s = .error failures t) : ∀ why ∈ failures, P why.cost := by
  induction rules generalizing s failures t with
  | nil =>
    cases herr
    exact nofun
  | cons rule rules ih =>
    rw [List.forall_mem_cons] at h
    cases hrule : rule c s with
    | ok a u =>
      rw [firstOf, hrule] at herr
      cases herr
    | error why u =>
      simp only [firstOf, hrule] at herr
      split at herr
      · cases herr
      · next hrest =>
        cases herr
        exact List.forall_mem_cons.2
          ⟨h.1 c s why u hs hrule, ih h.2 (hs.congr (u.rewind_cursor s)) hrest⟩

/-- The first failure is that of the first rule. -/
theorem exists_failure_of_firstOf {rules : List (Rule α)} {c : Context} {s t : State}
    {failures : List Stuck} (herr : firstOf (rule :: rules) c s = .error failures t) :
    ∃ why u others, failures = why :: others ∧ rule c s = .error why u := by
  cases hrule : rule c s with
  | ok a u =>
    rw [firstOf, hrule] at herr
    cases herr
  | error why u =>
    simp only [firstOf, hrule] at herr
    split at herr
    · cases herr
    · cases herr
      exact ⟨why, u, _, rfl, rfl⟩

/-- If no alternative costs less than `n` and the first one does not cost more, it makes the repair.
-/
theorem find?_first {γ : Type} {r : γ} {rules : List γ} {failures : List Stuck} {why : Stuck}
    (hfirst : why.cost ≤ n) (hleast : ∀ f ∈ why :: failures, n ≤ f.cost) :
    ((r :: rules).zip (why :: failures)).find?
      (fun p => p.2.cost == (Stuck.join (why :: failures)).cost) = some (r, why) := by
  have hjoin : why.cost = (Stuck.join (why :: failures)).cost := by
    obtain ⟨f, hf, hcost⟩ := exists_cost_eq_join (List.cons_ne_nil why failures)
    have hle := cost_join_le (List.mem_cons_self (a := why) (l := failures))
    have hf := hleast f hf
    omega
  rw [List.zip_cons_cons, List.find?_cons_of_pos]
  exact beq_iff_eq.2 hjoin

/-- A choice costs no less than its rules. -/
theorem Costs.alt {rules : List (Rule α)} (hne : rules ≠ []) (hopening : ∀ r ∈ rules, Opening r)
    (h : ∀ r ∈ rules, Costs (n ≤ ·) r) : Costs (n ≤ ·) (alt rules) := by
  intro c s why t hs herr
  have hc := (Opening.alt hne hopening).completes hs herr
  unfold Rule.alt at herr
  cases hfirst : firstOf rules (c.speculating s) s with
  | ok a u =>
    rw [hfirst] at herr
    cases herr
  | error failures u =>
    have hwhy : why = Stuck.join failures := by
      simp only [hfirst, hc] at herr
      split at herr <;>
      · cases herr
        rfl
    have hfailures : failures ≠ [] := by
      rintro rfl
      exact hne (List.eq_nil_of_length_eq_zero (stuck_of_firstOf hfirst).1.symm)
    obtain ⟨f, hf, hcost⟩ := exists_cost_eq_join hfailures
    rw [hwhy, ← hcost]
    exact Costs.of_firstOf h hs.speculating hfirst f hf

end LuaSyntax.Rule
