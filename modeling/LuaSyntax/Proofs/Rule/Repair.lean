import LuaSyntax.Proofs.Rule.Cost
import Mathlib.Data.List.Forall2
/-!
# Repairs cost as little as they can

Where a token is put in, no other one that would have been accepted there costs less. A single
matcher has no choice. A choice compares what its alternatives would cost where each of them is
stuck, and runs the cheapest one again, now committed, with all that was expected in the hint. For
this to work, an alternative has to fail in the same way whatever has been recorded before
(`Thrifty.fixed`), and on its second run it has to begin with the very repair it was chosen for,
which takes the hint (`Thrifty.mends`). So no hint is left over for a later repair.
-/

namespace LuaSyntax

namespace Expected

/-- Whether the token is one that was expected. -/
def admits : Expected → Token → Bool
  | .token t, u => u == t
  | .named name, .ident _ => name == "identifier"
  | .named name, .label _ => name == "label"
  | .named name, .str _ => name == "string literal"
  | .named name, .number _ => name == "number"
  | .named _, _ => false

/-- What it costs to put in the token, or the cheapest token of the class. -/
def cost? : Expected → Option Nat
  | .token t => some t.insertionCost
  | .named name =>
    if name ∈ ["identifier", "label", "string literal", "number"] then some 5 else none

end Expected

/-- All that was expected can be put in, and none of it costs less than `cost`. -/
def AtLeast (cost : Nat) (expected : List Expected) : Prop :=
  ∀ e ∈ expected, ∃ k, e.cost? = some k ∧ cost ≤ k

/-- The token is one that was expected, and none of what was expected costs less. -/
structure Cheapest (expected : List Expected) (token : Token) (cost : Nat) : Prop where
  admitted : ∃ e ∈ expected, e.admits token = true
  cost_eq : cost = token.insertionCost
  least : AtLeast cost expected

/-- None of what would have let the rule go on costs less than the failure. -/
def Stuck.Least (why : Stuck) : Prop := AtLeast why.cost why.expected

/-- What may be recorded: a token that is put in for one that was missing is the cheapest, and notes
on targets repair nothing. -/
structure Diagnostic.Sensible (d : Diagnostic) : Prop where
  cheapest : ∀ {found expected token cost}, d.cause = .unexpected found expected →
    d.repair = .inserted token cost → Cheapest expected token cost
  unrepaired : d.cause = .notAssignable ∨ d.cause = .parenthesizedTarget → d.repair = .unrepaired

/-- The run from `s` to `t` recorded what is sensible and left no hint. -/
structure State.Leads (s t : State) : Prop where
  hint : t.hint = none
  sensible : ∃ ds, t.diags = ds ++ s.diags ∧ ∀ d ∈ ds, d.Sensible

namespace State.Leads

variable {s t u : State} {d : Diagnostic}

theorem of_diags (hhint : t.hint = none) (hdiags : t.diags = s.diags) : s.Leads t :=
  ⟨hhint, [], hdiags, List.forall_mem_nil _⟩

theorem refl (h : s.hint = none) : s.Leads s := of_diags h rfl

theorem trans (h : s.Leads t) (h' : t.Leads u) : s.Leads u := by
  obtain ⟨-, ds, hdiags, hds⟩ := h
  obtain ⟨hhint, es, hdiags', hes⟩ := h'
  refine ⟨hhint, es ++ ds, ?_, List.forall_mem_append.2 ⟨hes, hds⟩⟩
  rw [hdiags', hdiags, List.append_assoc]

theorem record (hhint : t.hint = none) (hdiags : t.diags = d :: s.diags) (h : d.Sensible) :
    s.Leads t :=
  ⟨hhint, [d], hdiags, List.forall_mem_singleton.2 h⟩

end State.Leads

/-- The matcher puts in a token of the class that it names, and the class costs as much. -/
structure Matcher.Apt {α : Type} (m : Matcher α) : Prop where
  admits : m.expected.admits m.repair = true
  cost : m.expected.cost? = some m.repair.insertionCost

namespace Rule

variable {α β : Type} {rule rule' : Rule α} {f : α → Rule β}

/-- From states without a hint the rule records only what is sensible, and leaves no hint. -/
structure Steady (rule : Rule α) : Prop extends Orderly rule where
  leads : ∀ {c s a t}, c.Proper s → s.hint = none → rule c s = .ok a t → s.Leads t

/-- The same of uncommitted runs only, of a rule that opens. -/
structure Tentative (rule : Rule α) : Prop extends Opening rule where
  leads : ∀ {c s a t}, c.Proper s → s.hint = none → c.isCommitted s = false →
    rule c s = .ok a t → s.Leads t

/-- The diagnostic for a token put in where one of `expected` was missing. -/
def inserting (c : Context) (s : State) (expected : List Expected) (token : Token) (cost : Nat) :
    Diagnostic where
  span := ((c.next? s).map (·.span)).getD (.point (c.pos s))
  cause := .unexpected ((c.next? s).map (·.node)) expected
  repair := .inserted token cost

/-- The run first puts in the token for whose lack an uncommitted one was stuck, and `expected` says
what was expected there. The rest is sensible, and no hint is left. -/
structure Mended (c : Context) (s t : State) (why : Stuck) (expected : List Expected) : Prop where
  hint : t.hint = none
  first : ∃ token ds,
    t.diags = ds ++ inserting c s expected token why.cost :: s.diags ∧
    why.cost = token.insertionCost ∧ (∃ e ∈ why.expected, e.admits token = true) ∧
    ∀ d ∈ ds, d.Sensible

/-- A rule that begins with a token, and so fails in the same way wherever the same token is next.
-/
structure Thrifty (rule : Rule α) : Prop extends Opening rule where
  leads : ∀ {c s a t}, c.Proper s → s.hint = none → rule c s = .ok a t → s.Leads t
  least : ∀ {c s why t}, c.Proper s → rule c s = .error why t → why.Least
  fixed : ∀ {c s why t c' s'}, c.Proper s → rule c s = .error why t → c'.stream = c.stream →
    c'.Proper s' → c'.isCommitted s' = false → s'.cursor = s.cursor → rule c' s' = .error why s'
  mends : ∀ {c s why u expected a t}, c.Proper s → s.hint = some expected →
    rule (c.speculating s) s = .error why u → c.isCommitted s = true → rule c s = .ok a t →
    Mended c s t why expected

namespace Thrifty

theorem steady (h : Thrifty rule) : Steady rule := ⟨h.toOrderly, h.leads⟩

theorem tentative (h : Thrifty rule) : Tentative rule :=
  ⟨h.toOpening, fun hs hhint _ hok => h.leads hs hhint hok⟩

end Thrifty

theorem Steady.tentative (h : Steady rule) (hopening : Opening rule) : Tentative rule :=
  ⟨hopening, fun hs hhint _ hok => h.leads hs hhint hok⟩

/-! ### Matchers -/

section

variable {m : Matcher α} {c c' : Context} {s s' t : State} {why : Stuck}

theorem atLeast_singleton {cost : Nat} {e : Expected} (h : e.cost? = some cost) :
    AtLeast cost [e] :=
  List.forall_mem_singleton.2 ⟨cost, h, Nat.le_refl _⟩

/-- A matcher is stuck for one reason only. -/
theorem rejects_of_stuck (herr : satisfy m c s = .error why t) :
    (∀ u, c.next? s = some u → m.accept u.node = none) ∧
      why = ⟨[m.expected], m.repair.insertionCost⟩ := by
  refine ⟨fun u hnext => ?_, ?_⟩
  · cases haccept : m.accept u.node with
    | none => rfl
    | some a =>
      rw [satisfy_of_accept hnext haccept] at herr
      cases herr
  · rcases accept_or_reject m c s with ⟨u, a, found, accepted⟩ | hsupply
    · rw [satisfy_of_accept found accepted] at herr
      cases herr
    · rw [hsupply, supply] at herr
      split at herr <;> cases herr
      rfl

/-- Where the token is not the one needed, a committed matcher puts that one in. -/
theorem satisfy_of_committed (hnext : ∀ u, c.next? s = some u → m.accept u.node = none)
    (hc : c.isCommitted s = true) : satisfy m c s =
      .ok ⟨m.value, .point (c.pos s)⟩ { s.record (insertion m c s) with hint := none } := by
  rw [satisfy_of_not_accept hnext, supply, if_pos hc]

theorem sensible_insertion (hm : m.Apt) (hhint : s.hint = none) : (insertion m c s).Sensible where
  cheapest := by
    rintro _ _ _ _ ⟨⟩ ⟨⟩
    rw [hhint]
    exact ⟨⟨m.expected, List.mem_singleton_self _, hm.admits⟩, rfl, atLeast_singleton hm.cost⟩
  unrepaired := by rintro (h | h) <;> cases h

theorem thrifty_satisfy (hm : m.Apt) : Thrifty (satisfy m) where
  toOpening := opening_satisfy m
  leads {c s a t} hs hhint hok := by
    rcases accept_or_reject m c s with ⟨u, b, found, accepted⟩ | hsupply
    · rw [satisfy_of_accept found accepted] at hok
      cases hok
      exact .of_diags hhint rfl
    · rw [hsupply, supply] at hok
      split at hok <;> cases hok
      exact .record rfl rfl (sensible_insertion hm hhint)
  least _ herr := by
    rw [(rejects_of_stuck herr).2]
    exact atLeast_singleton hm.cost
  fixed {c s why t c' s'} _ herr hstream _ hc' hcursor := by
    obtain ⟨hnext, rfl⟩ := rejects_of_stuck herr
    have hnext' : ∀ u, c'.next? s' = some u → m.accept u.node = none := by
      rw [Context.next?, hstream, hcursor]
      exact hnext
    rw [satisfy_of_not_accept hnext', supply_of_not_committed hc']
  mends {c s why u expected a t} _ hhint herr hc hok := by
    obtain ⟨hnext, rfl⟩ := rejects_of_stuck herr
    rw [c.next?_speculating] at hnext
    rw [satisfy_of_committed hnext hc] at hok
    cases hok
    refine ⟨rfl, m.repair, [], ?_, rfl, ⟨m.expected, List.mem_singleton_self _, hm.admits⟩,
      List.forall_mem_nil _⟩
    change insertion m c s :: s.diags = _
    rw [insertion, hhint]
    rfl

theorem apt_exactly (t : Token) : (Matcher.exactly t).Apt := ⟨beq_self_eq_true t, rfl⟩

end

/-! ### Sequences -/

theorem Steady.pure (a : α) : Steady (pure a) where
  toOrderly := .pure a
  leads _ hhint hok := by
    cases hok
    exact .refl hhint

theorem Steady.bind (h : Steady rule) (hf : ∀ a, Steady (f a)) : Steady (rule >>= f) where
  toOrderly := h.toOrderly.bind fun a => (hf a).toOrderly
  leads hs hhint hok := by
    obtain ⟨a, t, hrule, hrest⟩ := ok_of_bind hok
    have ht := h.leads hs hhint hrule
    exact ht.trans ((hf a).leads ((h.onward hs hrule).proper hs) ht.hint hrest)

theorem Tentative.bind (h : Tentative rule) (hf : ∀ a, Steady (f a)) : Tentative (rule >>= f) where
  toOpening := h.toOpening.bind fun a => (hf a).toOrderly
  leads hs hhint hc hok := by
    obtain ⟨a, t, hrule, hrest⟩ := ok_of_bind hok
    have ht := h.leads hs hhint hc hrule
    exact ht.trans ((hf a).leads ((h.onward hs hrule).proper hs) ht.hint hrest)

/-- After the repair there is no hint, and the rest goes on from there. -/
theorem Mended.trans {c : Context} {s t u : State} {why : Stuck} {expected : List Expected}
    (h : Mended c s t why expected) (h' : t.Leads u) : Mended c s u why expected := by
  obtain ⟨-, token, ds, hdiags, hcost, hadmits, hds⟩ := h
  obtain ⟨hhint, es, hdiags', hes⟩ := h'
  refine ⟨hhint, token, es ++ ds, ?_, hcost, hadmits, List.forall_mem_append.2 ⟨hes, hds⟩⟩
  rw [hdiags', hdiags, List.append_assoc]

theorem Thrifty.bind (h : Thrifty rule) (hf : ∀ a, Steady (f a)) : Thrifty (rule >>= f) where
  toOpening := h.toOpening.bind fun a => (hf a).toOrderly
  leads := (h.steady.bind hf).leads
  least hs herr := h.least hs (h.error_of_bind (fun a => (hf a).toOrderly) hs herr)
  fixed hs herr hstream hs' hc' hcursor :=
    bind_of_error (h.fixed hs (h.error_of_bind (fun a => (hf a).toOrderly) hs herr) hstream hs' hc'
      hcursor)
  mends hs hhint herr hc hok := by
    obtain ⟨a, t, hrule, hrest⟩ := ok_of_bind hok
    have herr := h.error_of_bind (fun a => (hf a).toOrderly) hs.speculating herr
    have ht := h.mends hs hhint herr hc hrule
    exact ht.trans ((hf a).leads ((h.onward hs hrule).proper hs) ht.hint hrest)

theorem Thrifty.map (g : α → β) (h : Thrifty rule) : Thrifty (g <$> rule) := by
  rw [map_eq_pure_bind]
  exact h.bind fun a => .pure (g a)

theorem Tentative.located (h : Tentative rule) : Tentative (located rule) where
  toOpening := h.toOpening.located
  leads hs hhint hc hok := h.leads hs hhint hc (ok_of_located hok).1

theorem Thrifty.located (h : Thrifty rule) : Thrifty (located rule) where
  toOpening := h.toOpening.located
  leads hs hhint hok := h.leads hs hhint (ok_of_located hok).1
  least hs herr := h.least hs (error_of_located herr)
  fixed hs herr hstream hs' hc' hcursor :=
    located_of_error (h.fixed hs (error_of_located herr) hstream hs' hc' hcursor)
  mends hs hhint herr hc hok := h.mends hs hhint (error_of_located herr) hc (ok_of_located hok).1

/-- A rule that does the same as a thrifty one is thrifty. -/
theorem Thrifty.congr (h : Thrifty rule) (hsame : ∀ c s, c.Proper s → rule' c s = rule c s) :
    Thrifty rule' where
  onward hs hok := h.onward hs ((hsame _ _ hs).symm.trans hok)
  completes hs herr := h.completes hs ((hsame _ _ hs).symm.trans herr)
  moves hs hc hok := h.moves hs hc ((hsame _ _ hs).symm.trans hok)
  restores hs herr := h.restores hs ((hsame _ _ hs).symm.trans herr)
  leads hs hhint hok := h.leads hs hhint ((hsame _ _ hs).symm.trans hok)
  least hs herr := h.least hs ((hsame _ _ hs).symm.trans herr)
  fixed hs herr hstream hs' hc' hcursor :=
    (hsame _ _ hs').trans (h.fixed hs ((hsame _ _ hs).symm.trans herr) hstream hs' hc' hcursor)
  mends hs hhint herr hc hok := h.mends hs hhint ((hsame _ _ hs.speculating).symm.trans herr) hc
    ((hsame _ _ hs).symm.trans hok)

/-! ### Looking ahead and passing over -/

theorem steady_look (g : Option (Located Token) → α) : Steady (look g) where
  toOrderly := orderly_look g
  leads _ hhint hok := by
    cases hok
    exact .refl hhint

theorem steady_record {d : Diagnostic} (hd : d.Sensible) : Steady (record d) where
  toOrderly := orderly_record d
  leads _ hhint hok := by
    cases hok
    exact .record hhint rfl hd

/-- A run of tokens that is passed over is no repair by insertion. -/
theorem sensible_of_skipped {d : Diagnostic} {count : Nat} (hrepair : d.repair = .skipped count)
    (hcause : d.cause ≠ .notAssignable ∧ d.cause ≠ .parenthesizedTarget) : d.Sensible where
  cheapest _ hinserted := by cases hrepair.symm.trans hinserted
  unrepaired h := (h.elim hcause.1 hcause.2).elim

theorem steady_skipTokens (count : Nat) (expected : List Expected) :
    Steady (skipTokens count expected) where
  toOrderly := orderly_skipTokens count expected
  leads {c s a t} hs hhint hok := by
    by_cases hskipped : min count (c.remaining s) = 0
    · cases (if_pos hskipped).symm.trans hok
      exact .refl hhint
    · cases (if_neg hskipped).symm.trans hok
      exact .record hhint rfl (sensible_of_skipped rfl ⟨Cause.noConfusion, Cause.noConfusion⟩)

/-! ### Optional parts and loops -/

theorem Tentative.optional (h : Tentative rule) : Steady (optional rule) where
  toOrderly := h.toOrderly.optional
  leads {c s a t} hs hhint hok := by
    rcases h.optional_cases hs with ⟨b, u, hrule, hsome, -⟩ | ⟨-, hnone⟩
    · cases hsome.symm.trans hok
      exact h.leads hs.speculating hhint (Context.isCommitted_speculating hs) hrule
    · cases hnone.symm.trans hok
      exact .refl hhint

theorem Steady.collect {step : Rule (Option (α × Bool))} (h : Steady step) :
    Steady (collect step) where
  toOrderly := h.toOrderly.collect
  leads {c s as t} hs hhint hok := by
    have hrounds := loopRun_of_collect hok
    clear hok
    induction hrounds with
    | stop hstep => exact h.leads hs hhint hstep
    | last hstep => exact h.leads hs hhint hstep
    | stalled hstep _ => exact h.leads hs hhint hstep
    | more hstep _ _ ih =>
      have ht := h.leads hs hhint hstep
      exact ht.trans (ih ((h.onward hs hstep).proper hs) ht.hint)

theorem Tentative.many (h : Tentative rule) : Steady (many rule) :=
  (h.optional.bind fun r => .pure (r.map (·, true))).collect

/-- A repetition before a rule that begins with a token: where both are stuck, the repetition is
empty and has done nothing. -/
theorem Thrifty.many_bind {f : List α → Rule β} (h : Thrifty rule) (hf : ∀ as, Thrifty (f as)) :
    Thrifty (many rule >>= f) := by
  have hempty : ∀ {c s why t}, c.Proper s → (many rule >>= f) c s = .error why t →
      (∃ why', rule (c.speculating s) s = .error why' s) ∧ f [] c s = .error why t := by
    intro c s why t hs herr
    rcases h.many_cases hs with ⟨as, u, hmany, hu, hlt⟩ | ⟨hstuck, hmany⟩ <;>
      rw [bind_of_ok hmany] at herr
    · exact absurd herr ((hf as).toOrderly.not_stuck hs hu hlt)
    · exact ⟨hstuck, herr⟩
  have hagain : ∀ {c : Context} {s : State} {why c' s'}, c.Proper s →
      rule (c.speculating s) s = .error why s → c'.stream = c.stream → c'.Proper s' →
      s'.cursor = s.cursor → many rule c' s' = .ok [] s' := by
    intro c s why c' s' hs hstuck hstream hs' hcursor
    have hstuck' : rule (c'.speculating s') s' = .error why s' :=
      h.fixed hs.speculating hstuck (by rw [c'.stream_speculating, c.stream_speculating, hstream])
        hs'.speculating (Context.isCommitted_speculating hs') hcursor
    exact collect_of_none (bind_of_ok (optional_of_error hstuck'))
  have hopening := h.toOpening.many_bind fun as => (hf as).toOpening
  refine ⟨hopening, (h.tentative.many.bind fun as => (hf as).steady).leads, ?_, ?_, ?_⟩
  · exact fun hs herr => (hf []).least hs (hempty hs herr).2
  · intro c s why t c' s' hs herr hstream hs' hc' hcursor
    obtain ⟨⟨why', hstuck⟩, herr⟩ := hempty hs herr
    rw [bind_of_ok (hagain hs hstuck hstream hs' hcursor)]
    exact (hf []).fixed hs herr hstream hs' hc' hcursor
  · intro c s why u expected a t hs hhint herr hc hok
    obtain ⟨⟨why', hstuck⟩, herr⟩ := hempty hs.speculating herr
    rw [bind_of_ok (hagain hs.speculating hstuck (c.stream_speculating s).symm hs rfl)] at hok
    exact (hf []).mends hs hhint herr hc hok

/-! ### Choices -/

section

variable {rules : List (Rule α)} {rule : Rule α} {c c' : Context} {s s' t : State}
  {failures : List Stuck}

/-- All the rules are stuck where they start, and for these reasons. -/
def AllStuck (rules : List (Rule α)) (c : Context) (s : State) (failures : List Stuck) : Prop :=
  List.Forall₂ (fun r why => r c s = .error why s) rules failures

theorem Opening.allStuck (h : ∀ r ∈ rules, Opening r) (hs : c.Proper s)
    (herr : firstOf rules c s = .error failures t) : t = s ∧ AllStuck rules c s failures := by
  induction rules generalizing failures with
  | nil =>
    cases herr
    exact ⟨rfl, .nil⟩
  | cons rule rules ih =>
    rw [List.forall_mem_cons] at h
    cases hrule : rule c s with
    | ok a u =>
      rw [firstOf, hrule] at herr
      cases herr
    | error why u =>
      obtain rfl := h.1.restores hs hrule
      have hrewind : u.rewind u = u := rfl
      simp only [firstOf, hrule, hrewind] at herr
      split at herr
      · cases herr
      · next hrest =>
        cases herr
        obtain ⟨rfl, hstuck⟩ := ih h.2 hrest
        exact ⟨rfl, .cons hrule hstuck⟩

theorem AllStuck.firstOf (h : AllStuck rules c s failures) :
    Rule.firstOf rules c s = .error failures s := by
  induction h with
  | nil => rfl
  | cons hrule _ ih => exact firstOf_cons_error hrule ih

theorem Opening.of_firstOf (h : ∀ r ∈ rules, Opening r) (hs : c.Proper s) {a : α}
    (hok : firstOf rules c s = .ok a t) : ∃ r ∈ rules, r c s = .ok a t := by
  induction rules with
  | nil => cases hok
  | cons rule rules ih =>
    rw [List.forall_mem_cons] at h
    cases hrule : rule c s with
    | ok b u =>
      rw [firstOf, hrule] at hok
      cases hok
      exact ⟨rule, List.mem_cons_self, hrule⟩
    | error why u =>
      obtain rfl := h.1.restores hs hrule
      have hrewind : u.rewind u = u := rfl
      simp only [firstOf, hrule, hrewind] at hok
      split at hok
      · next hrest =>
        cases hok
        obtain ⟨r, hr, hgives⟩ := ih h.2 hrest
        exact ⟨r, List.mem_cons_of_mem _ hr, hgives⟩
      · cases hok

/-- What is run again is one of the alternatives, and no other one would have cost less. -/
theorem AllStuck.cheapest (h : AllStuck rules c s failures)
    (hcheapest : cheapest? rules failures = some rule) : rule ∈ rules ∧
      ∃ why ∈ failures, rule c s = .error why s ∧ why.cost = (Stuck.join failures).cost := by
  obtain ⟨⟨r, why⟩, hfind, rfl⟩ := Option.map_eq_some_iff.1 hcheapest
  have hpair := List.mem_of_find?_eq_some hfind
  obtain ⟨hr, hwhy⟩ := List.of_mem_zip hpair
  have hcost := List.find?_some hfind
  exact ⟨hr, why, hwhy, (List.forall₂_iff_zip.1 h).2 hpair, by simpa using hcost⟩

theorem mem_join {e : Expected} :
    e ∈ (Stuck.join failures).expected ↔ ∃ why ∈ failures, e ∈ why.expected := by
  simp only [Stuck.join, List.mem_eraseDups, List.mem_flatMap]

theorem least_join (h : ∀ why ∈ failures, why.Least) : (Stuck.join failures).Least := by
  intro e he
  obtain ⟨why, hwhy, he⟩ := mem_join.1 he
  obtain ⟨k, hk, hle⟩ := h why hwhy e he
  exact ⟨k, hk, Nat.le_trans (cost_join_le hwhy) hle⟩

theorem AllStuck.least (h : AllStuck rules c s failures) (hrules : ∀ r ∈ rules, Thrifty r)
    (hs : c.Proper s) : ∀ why ∈ failures, why.Least := by
  induction h with
  | nil => exact List.forall_mem_nil _
  | cons hrule _ ih =>
    rw [List.forall_mem_cons] at hrules ⊢
    exact ⟨hrules.1.least hs hrule, ih hrules.2⟩

theorem AllStuck.fixed (h : AllStuck rules c s failures) (hrules : ∀ r ∈ rules, Thrifty r)
    (hs : c.Proper s) (hstream : c'.stream = c.stream) (hs' : c'.Proper s')
    (hc' : c'.isCommitted s' = false) (hcursor : s'.cursor = s.cursor) :
    AllStuck rules c' s' failures := by
  induction h with
  | nil => exact .nil
  | cons hrule _ ih =>
    rw [List.forall_mem_cons] at hrules
    exact .cons (hrules.1.fixed hs hrule hstream hs' hc' hcursor) (ih hrules.2)

/-- The repair serves as well for a choice that costs as much. -/
theorem Mended.of_cheapest {why why' : Stuck} {expected : List Expected}
    (h : Mended c s t why expected) (hcost : why.cost = why'.cost)
    (hsub : ∀ e ∈ why.expected, e ∈ why'.expected) : Mended c s t why' expected := by
  obtain ⟨hhint, token, ds, hdiags, hinsertion, ⟨e, he, hadmits⟩, hds⟩ := h
  rw [hcost] at hdiags hinsertion
  exact ⟨hhint, token, ds, hdiags, hinsertion, ⟨e, hsub e he, hadmits⟩, hds⟩

/-- A repair that was chosen among all that was expected is sensible. -/
theorem Mended.leads {why : Stuck} (h : Mended c s t why why.expected) (hleast : why.Least) :
    s.Leads t := by
  obtain ⟨hhint, token, ds, hdiags, hcost, hadmits, hds⟩ := h
  have hrepair : (inserting c s why.expected token why.cost).Sensible := by
    constructor
    · rintro _ _ _ _ ⟨⟩ ⟨⟩
      exact ⟨hadmits, hcost, hleast⟩
    · rintro (h | h) <;> cases h
  refine ⟨hhint, ds ++ [inserting c s why.expected token why.cost], ?_, ?_⟩
  · rw [hdiags, List.append_assoc]
    rfl
  · exact List.forall_mem_append.2 ⟨hds, List.forall_mem_singleton.2 hrepair⟩

theorem stuck_of_alt (hne : rules ≠ []) (h : ∀ r ∈ rules, Opening r) (hs : c.Proper s)
    {why : Stuck} (herr : alt rules c s = .error why t) :
    ∃ failures, AllStuck rules (c.speculating s) s failures ∧ why = Stuck.join failures := by
  have hc := (Opening.alt hne h).completes hs herr
  unfold alt at herr
  cases hfirst : Rule.firstOf rules (c.speculating s) s with
  | ok a u =>
    rw [hfirst] at herr
    cases herr
  | error failures u =>
    obtain ⟨-, hstuck⟩ := Opening.allStuck h hs.speculating hfirst
    refine ⟨failures, hstuck, ?_⟩
    simp only [hfirst, hc] at herr
    split at herr <;>
    · cases herr
      rfl

theorem alt_of_allStuck {failures : List Stuck} (h : AllStuck rules (c.speculating s) s failures)
    (hc : c.isCommitted s = false) : alt rules c s = .error (Stuck.join failures) s := by
  simp only [alt, h.firstOf, hc]
  split <;> rfl

/-- A committed choice whose alternatives are all stuck runs one that costs least. -/
theorem hinted_of_allStuck {failures : List Stuck} {a : α}
    (h : AllStuck rules (c.speculating s) s failures) (hok : alt rules c s = .ok a t) :
    ∃ rule ∈ rules, ∃ why ∈ failures, rule (c.speculating s) s = .error why s ∧
      why.cost = (Stuck.join failures).cost ∧
      hinted (Stuck.join failures).expected rule c s = .ok a t := by
  simp only [alt, h.firstOf] at hok
  split at hok
  · next rule hcheapest =>
    split at hok
    · obtain ⟨hrule, why, hwhy, hstuck, hcost⟩ := h.cheapest hcheapest
      exact ⟨rule, hrule, why, hwhy, hstuck, hcost, hok⟩
    · cases hok
  · cases hok

/-- The hint is there for this one run. -/
theorem ok_of_hinted {expected : List Expected} {a : α} (hhint : s.hint = none)
    (hok : hinted expected rule c s = .ok a t) :
    ∃ u, rule c { s with hint := some expected } = .ok a u ∧ t = { u with hint := none } := by
  simp only [hinted, hhint, Option.isSome_none, Bool.false_eq_true, if_false] at hok
  split at hok
  · next b u hrun =>
    cases hok
    exact ⟨u, hrun, rfl⟩
  · cases hok

theorem Tentative.alt (hne : rules ≠ []) (h : ∀ r ∈ rules, Tentative r) :
    Tentative (alt rules) where
  toOpening := .alt hne fun r hr => (h r hr).toOpening
  leads {c s a t} hs hhint hc hok := by
    rcases alt_cases hok with hfirst | ⟨hcommitted, -⟩
    · obtain ⟨r, hr, hrule⟩ :=
        Opening.of_firstOf (fun r hr => (h r hr).toOpening) hs.speculating hfirst
      exact (h r hr).leads hs.speculating hhint (Context.isCommitted_speculating hs) hrule
    · rw [hc] at hcommitted
      cases hcommitted

theorem Thrifty.alt (hne : rules ≠ []) (h : ∀ r ∈ rules, Thrifty r) : Thrifty (alt rules) where
  toOpening := .alt hne fun r hr => (h r hr).toOpening
  leads {c s a t} hs hhint hok := by
    cases hfirst : Rule.firstOf rules (c.speculating s) s with
    | ok b u =>
      obtain ⟨r, hr, hrule⟩ :=
        Opening.of_firstOf (fun r hr => (h r hr).toOpening) hs.speculating hfirst
      simp only [Rule.alt, hfirst] at hok
      cases hok
      exact (h r hr).leads hs.speculating hhint hrule
    | error failures u =>
      obtain ⟨-, hall⟩ :=
        Opening.allStuck (fun r hr => (h r hr).toOpening) hs.speculating hfirst
      obtain ⟨rule, hmem, why, hwhy, hstuck, hcost, hhinted⟩ := hinted_of_allStuck hall hok
      have hrule := h rule hmem
      let hinting : State := { s with hint := some (Stuck.join failures).expected }
      have hs' : c.Proper hinting := hs.congr rfl
      have hc : c.isCommitted s = true := by
        cases hc : c.isCommitted s with
        | true => rfl
        | false => cases (alt_of_allStuck hall hc).symm.trans hok
      have hstuck' : rule (c.speculating hinting) hinting = .error why hinting :=
        hrule.fixed hs.speculating hstuck rfl hs'.speculating (Context.isCommitted_speculating hs')
          rfl
      obtain ⟨v, hrun, rfl⟩ := ok_of_hinted hhint hhinted
      have hmended : Mended c hinting v (.join failures) (Stuck.join failures).expected :=
        (hrule.mends hs' rfl hstuck' hc hrun).of_cheapest hcost
          fun e he => mem_join.2 ⟨why, hwhy, he⟩
      obtain ⟨-, hsensible⟩ := hmended.leads (least_join (hall.least h hs.speculating))
      exact ⟨rfl, hsensible⟩
  least {c s why t} hs herr := by
    obtain ⟨failures, hall, rfl⟩ := stuck_of_alt hne (fun r hr => (h r hr).toOpening) hs herr
    exact least_join (hall.least h hs.speculating)
  fixed {c s why t c' s'} hs herr hstream hs' hc' hcursor := by
    obtain ⟨failures, hall, rfl⟩ := stuck_of_alt hne (fun r hr => (h r hr).toOpening) hs herr
    refine alt_of_allStuck (hall.fixed h hs.speculating ?_ hs'.speculating
      (Context.isCommitted_speculating hs') hcursor) hc'
    rw [c'.stream_speculating, c.stream_speculating, hstream]
  mends {c s why u expected a t} hs hhint herr hc hok := by
    obtain ⟨failures, hall, rfl⟩ :=
      stuck_of_alt hne (fun r hr => (h r hr).toOpening) hs.speculating herr
    have hall : AllStuck rules (c.speculating s) s failures :=
      hall.fixed h hs.speculating.speculating (by simp) hs.speculating
        (Context.isCommitted_speculating hs) rfl
    obtain ⟨rule, hmem, why, hwhy, hstuck, hcost, hhinted⟩ := hinted_of_allStuck hall hok
    have hrun : rule c s = .ok a t := by simpa [hinted, hhint] using hhinted
    exact ((h rule hmem).mends hs hhint hstuck hc hrun).of_cheapest hcost
      fun e he => mem_join.2 ⟨why, hwhy, he⟩

end

/-! ### Tokens -/

theorem thrifty_token (t : Token) : Thrifty (token t) :=
  (thrifty_satisfy (apt_exactly t)).bind fun a => .pure a.span

theorem thrifty_keyword (k : Keyword) : Thrifty (keyword k) := thrifty_token _

theorem thrifty_symbol (s : Symbol) : Thrifty (symbol s) := thrifty_token _

theorem thrifty_oneOf {ops : List (Token × α)} (hne : ops ≠ []) : Thrifty (oneOf ops) := by
  cases ops with
  | nil => exact absurd rfl hne
  | cons op ops => exact thrifty_satisfy ⟨beq_self_eq_true op.1, rfl⟩

theorem thrifty_name : Thrifty name := thrifty_satisfy ⟨rfl, rfl⟩

theorem thrifty_str : Thrifty str := thrifty_satisfy ⟨rfl, rfl⟩

theorem thrifty_number : Thrifty number := thrifty_satisfy ⟨rfl, rfl⟩

theorem thrifty_label : Thrifty label := thrifty_satisfy ⟨rfl, rfl⟩

theorem Steady.sepBy1 {item : Rule α} {separator : Rule β} (h : Steady item)
    (hseparator : Thrifty separator) : Steady (sepBy1 item separator) :=
  h.bind fun first => (hseparator.bind fun _ => h).tentative.many.bind fun others =>
    .pure (first :: others)

end Rule

end LuaSyntax
