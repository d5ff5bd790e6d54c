import LuaSyntax.Proofs.Rule.Clean
/-!
# Rules that run alike

Two rules may run alike from some states only, for example from those past a certain cursor. Rules
that are put together from such rules run alike from the states that lead to no others.
-/

namespace LuaSyntax.Rule

variable {α β : Type} {rule rule' : Rule α} {f f' : α → Rule β} {P Q : Context → State → Prop}

/-- From the proper states that satisfy `P`, both rules run alike. -/
def AlikeWhere (P : Context → State → Prop) (rule rule' : Rule α) : Prop :=
  ∀ c s, c.Proper s → P c s → rule c s = rule' c s

/-- Of a state, `P` depends on the cursor alone. -/
def ByCursor (P : Context → State → Prop) : Prop :=
  ∀ c s t, t.cursor = s.cursor → P c s → P c t

theorem AlikeWhere.refl (rule : Rule α) : AlikeWhere P rule rule := fun _ _ _ _ => rfl

theorem AlikeWhere.bind (h : AlikeWhere P rule rule') (horderly : Orderly rule')
    (hf : ∀ a, AlikeWhere Q (f a) (f' a))
    (hnext : ∀ {c s a t}, c.Proper s → P c s → rule' c s = .ok a t → c.Onward s t → Q c t) :
    AlikeWhere P (rule >>= f) (rule' >>= f') := by
  intro c s hs hP
  rw [bind_apply, bind_apply, h c s hs hP]
  cases hrule : rule' c s with
  | ok a t =>
    have ht := horderly.onward hs hrule
    exact hf a c t (ht.proper hs) (hnext hs hP hrule ht)
  | error why t => rfl

/-- What is made of the value does not matter. -/
theorem AlikeWhere.give (g : α → β) (h : AlikeWhere P rule rule') :
    AlikeWhere P (do return g (← rule)) (do return g (← rule')) := by
  intro c s hs hP
  rw [bind_apply, bind_apply, h c s hs hP]

theorem AlikeWhere.located (h : AlikeWhere P rule rule') :
    AlikeWhere P (located rule) (located rule') := by
  intro c s hs hP
  have halike := h c s hs hP
  cases hrule : rule' c s with
  | ok a t => rw [located_of_ok (halike.trans hrule), located_of_ok hrule]
  | error why t => rw [located_of_error (halike.trans hrule), located_of_error hrule]

theorem AlikeWhere.optional (h : AlikeWhere P rule rule')
    (hP : ∀ c s, c.Proper s → Q c s → P (c.speculating s) s) :
    AlikeWhere Q (optional rule) (optional rule') := by
  intro c s hs hQ
  rw [Rule.optional, Rule.optional, h _ s hs.speculating (hP c s hs hQ)]

theorem AlikeWhere.collect {step step' : Rule (Option (α × Bool))} (h : AlikeWhere P step step')
    (horderly : Orderly step')
    (hnext : ∀ {c s a t}, c.Proper s → P c s → step' c s = .ok (some (a, true)) t →
      s.cursor < t.cursor → c.Onward s t → P c t) :
    AlikeWhere P (collect step) (collect step') := by
  intro c s hs hP
  induction hn : c.remaining s using Nat.strongRecOn generalizing s with
  | ind n ih =>
    rw [Rule.collect.eq_def step, Rule.collect.eq_def step', h c s hs hP]
    cases hstep : step' c s with
    | error why t => rfl
    | ok r t =>
      match r with
      | none => rfl
      | some (a, false) => rfl
      | some (a, true) =>
        dsimp only
        by_cases hmoved : c.remaining t < c.remaining s
        · have ht := horderly.onward hs hstep
          have hlt : s.cursor < t.cursor := by
            unfold Context.remaining at hmoved
            omega
          rw [ih _ (hn ▸ hmoved) t (ht.proper hs) (hnext hs hP hstep hlt ht) rfl]
        · rw [if_neg hmoved, if_neg hmoved]

theorem AlikeWhere.many (h : AlikeWhere Q rule rule') (horderly : Orderly rule')
    (hQ : ∀ c s, c.Proper s → P c s → Q (c.speculating s) s)
    (hnext : ∀ {c s t}, P c s → c.Onward s t → P c t) :
    AlikeWhere P (many rule) (many rule') := by
  have hround : AlikeWhere P (do return (← Rule.optional rule).map (·, true))
      (do return (← Rule.optional rule').map (·, true)) :=
    (h.optional hQ).give (Option.map (·, true))
  exact hround.collect (horderly.optional.bind fun r => .pure (r.map (·, true)))
    fun _ hP _ _ ht => hnext hP ht

/-! ### Choice -/

section

variable {γ : Type} {rules : List (γ → Rule α)} {x y : γ} {c : Context} {s : State}

theorem firstOf_alike (hcursor : ByCursor P) (h : ∀ r ∈ rules, AlikeWhere P (r x) (r y))
    (hs : c.Proper s) (hP : P c s) :
    firstOf (rules.map (· x)) c s = firstOf (rules.map (· y)) c s := by
  induction rules generalizing s with
  | nil => rfl
  | cons r rules ih =>
    rw [List.forall_mem_cons] at h
    rw [List.map_cons, List.map_cons, firstOf, firstOf, h.1 c s hs hP]
    cases r y c s with
    | ok a t => rfl
    | error why t =>
      have hrewind : (t.rewind s).cursor = s.cursor := rfl
      dsimp only
      rw [ih h.2 (hs.congr hrewind) (hcursor _ _ _ hrewind hP)]

/-- Which alternative is the cheapest depends on the failures alone. -/
theorem cheapest?_map (rules : List (γ → Rule α)) (x : γ) (failures : List Stuck) :
    cheapest? (rules.map (· x)) failures =
      ((rules.zip failures).find? fun p => p.2.cost == (Stuck.join failures).cost).map (·.1 x) := by
  unfold cheapest?
  rw [List.zip_map_left, List.find?_map, Option.map_map]
  rfl

theorem AlikeWhere.hinted (h : AlikeWhere P rule rule') (hcursor : ByCursor P)
    (expected : List Expected) : AlikeWhere P (hinted expected rule) (hinted expected rule') := by
  intro c s hs hP
  have hhint : State.cursor { s with hint := some expected } = s.cursor := rfl
  rw [Rule.hinted, Rule.hinted, h c s hs hP, h c _ (hs.congr hhint) (hcursor _ _ _ hhint hP)]

/-- Where the alternatives run alike as speculations, the choice fails alike, too; then it remains
to compare the cheapest ones. -/
theorem alt_alike (hplace : ByCursor P) (h : ∀ r ∈ rules, AlikeWhere P (r x) (r y))
    (hs : c.Proper s) (hP : P (c.speculating s) s)
    (hrepair : c.isCommitted s = true → ∀ {r failures t},
      firstOf (rules.map (· y)) (c.speculating s) s = .error failures t →
      (rules.zip failures).find? (fun p => p.2.cost == (Stuck.join failures).cost) = some r →
      t.cursor = s.cursor →
      hinted (Stuck.join failures).expected (r.1 x) c t =
        hinted (Stuck.join failures).expected (r.1 y) c t) :
    alt (rules.map (· x)) c s = alt (rules.map (· y)) c s := by
  rw [Rule.alt, Rule.alt, firstOf_alike hplace h hs.speculating hP]
  cases hfirst : firstOf (rules.map (· y)) (c.speculating s) s with
  | ok a t => rfl
  | error failures t =>
    have hcursor : t.cursor = s.cursor := congrArg Progress.cursor (firstOf_progress.2 hfirst)
    dsimp only
    rw [cheapest?_map, cheapest?_map]
    cases hfind : (rules.zip failures).find? (fun p => p.2.cost == (Stuck.join failures).cost) with
    | none => rfl
    | some r =>
      dsimp only [Option.map_some]
      cases hc : c.isCommitted s with
      | true => simp only [if_true, hrepair hc hfirst hfind hcursor]
      | false => rfl

end

end LuaSyntax.Rule
