import LuaSyntax.Proofs.Grammar.Commit
import LuaSyntax.Proofs.Grammar.Steps
import LuaSyntax.Proofs.Grammar.StmtScheme
/-!
# Every run goes in steps

Whatever a rule of the grammar gives, it takes steps to do so. This is one lemma for each way to put
rules together, and an induction over the schemes.
-/

namespace LuaSyntax

namespace Rule

/-- Where the rule gives a value, it takes steps to do so. -/
structure Stepwise {α : Type} (rule : Rule α) : Prop where
  takes : ∀ {c s a t}, c.Proper s → rule c s = .ok a t → ∃ steps, Takes rule c s steps a t

section

variable {α β : Type} {rule : Rule α} {f : α → Rule β} {c : Context} {s t u : State} {a : α} {b : β}

theorem exists_takes_satisfy {m : Matcher α} {a : Located α} (hok : satisfy m c s = .ok a t) :
    ∃ steps, Takes (satisfy m) c s steps a t := by
  by_cases haccept : ∃ u b, c.next? s = some u ∧ m.accept u.node = some b
  · obtain ⟨u, b, found, accepted⟩ := haccept
    cases (satisfy_of_accept found accepted).symm.trans hok
    exact ⟨_, .read found accepted⟩
  · have hrejected : ∀ u, c.next? s = some u → m.accept u.node = none := by
      intro u found
      apply Option.eq_none_iff_forall_ne_some.2
      intro b accepted
      exact haccept ⟨u, b, found, accepted⟩
    rw [satisfy_of_not_accept hrejected, supply] at hok
    split at hok
    · next hcommitted =>
      cases hok
      exact ⟨_, .supply hrejected hcommitted⟩
    · cases hok

theorem exists_takes_bind (h : ∀ {a t}, rule c s = .ok a t → ∃ steps, Takes rule c s steps a t)
    (hf : ∀ {a t}, rule c s = .ok a t → f a c t = .ok b u → ∃ steps, Takes (f a) c t steps b u)
    (hok : (rule >>= f) c s = .ok b u) : ∃ steps, Takes (rule >>= f) c s steps b u := by
  obtain ⟨a, t, hrule, hrest⟩ := ok_of_bind hok
  obtain ⟨steps, hsteps⟩ := h hrule
  obtain ⟨steps', hsteps'⟩ := hf hrule hrest
  exact ⟨_, .seq hsteps hsteps'⟩

theorem Stepwise.bind (h : Stepwise rule) (horderly : Orderly rule) (hf : ∀ a, Stepwise (f a)) :
    Stepwise (rule >>= f) := by
  constructor
  intro c s b t hs hok
  apply exists_takes_bind (fun hrule => h.takes hs hrule) _ hok
  intro a u hrule hrest
  exact (hf a).takes ((horderly.onward hs hrule).proper hs) hrest

theorem takes_pass {d : Diagnostic} {count : Nat}
    (h : rule c s = .ok a ((s.advance count).record d)) (hcount : d.skipCount = count)
    (hother : d.supplies = false) :
    Takes rule c s [.record d] a ((s.advance count).record d) := by
  subst hcount
  exact .record h hother

theorem takes_record {d : Diagnostic} (h : rule c s = .ok a (s.record d)) (hskip : d.skipCount = 0)
    (hother : d.supplies = false) : Takes rule c s [.record d] a (s.record d) := by
  have hpass : rule c s = .ok a ((s.advance 0).record d) := h
  exact takes_pass hpass hskip hother

theorem exists_takes_of_skipTokens {rule : Rule Unit} {count : Nat} {expected : List Expected}
    {u : Unit} (h : rule c s = skipTokens count expected c s) (hok : rule c s = .ok u t) :
    ∃ steps, Takes rule c s steps u t := by
  by_cases hskipped : min count (c.remaining s) = 0
  · rw [skipTokens, if_pos hskipped] at h
    cases h.symm.trans hok
    exact ⟨[], .idle h⟩
  · rw [skipTokens, if_neg hskipped] at h
    cases h.symm.trans hok
    exact ⟨_, takes_pass h rfl rfl⟩

theorem orderly_endOfInput : Orderly endOfInput where
  onward {c s u t} hs hok := by
    unfold endOfInput at hok
    split at hok
    · cases hok
      exact .refl hs
    · split at hok
      · exact (orderly_skipTokens _ _).onward hs hok
      · cases hok
  completes {c s why t} hs herr := by
    unfold endOfInput at herr
    split at herr
    · cases herr
    · split at herr
      · exact (orderly_skipTokens _ _).completes hs herr
      · next hc => simpa using hc

theorem stepwise_endOfInput : Stepwise endOfInput := by
  constructor
  intro c s u t hs hok
  by_cases hend : (c.next? s).isNone = true
  · have hidle : endOfInput c s = .ok () s := if_pos hend
    cases hidle.symm.trans hok
    exact ⟨[], .idle hidle⟩
  · by_cases hc : c.isCommitted s = true
    · have hskip : endOfInput c s =
          skipTokens (c.remaining s) [.named "end of input"] c s := by
        unfold endOfInput
        rw [if_neg hend, if_pos hc]
      exact exists_takes_of_skipTokens hskip hok
    · unfold endOfInput at hok
      rw [if_neg hend, if_neg hc] at hok
      cases hok

theorem stepwise_idle (h : ∀ c s, ∃ a, rule c s = .ok a s) : Stepwise rule := by
  constructor
  intro c s a t hs hok
  obtain ⟨b, hb⟩ := h c s
  cases hb.symm.trans hok
  exact ⟨_, .idle hb⟩

theorem Stepwise.located (h : Stepwise rule) : Stepwise (located rule) := by
  constructor
  intro c s a t hs hok
  obtain ⟨hrule, hspan⟩ := ok_of_located hok
  obtain ⟨steps, hsteps⟩ := h.takes hs hrule
  have hrest :
      Takes (do return (⟨a.node, ← spanFrom s.cursor⟩ : Located α)) c t ([] ++ []) a t := by
    refine .seq (.idle rfl) (.idle ?_)
    rw [← hspan]
    rfl
  exact ⟨_, .seq (.idle rfl) (.seq hsteps hrest)⟩

theorem Stepwise.optional (h : Stepwise rule) : Stepwise (optional rule) := by
  constructor
  intro c s r t hs hok
  rcases optional_cases rule c s with ⟨a, u, hrule, hsome⟩ | ⟨why, u, herr, hnone⟩
  · cases hsome.symm.trans hok
    obtain ⟨steps, hsteps⟩ := h.takes hs.speculating hrule
    exact ⟨steps, .some hsteps⟩
  · cases hnone.symm.trans hok
    exact ⟨[], .none herr⟩

theorem Stepwise.collect {step : Rule (Option (α × Bool))} (h : Stepwise step)
    (horderly : Orderly step) : Stepwise (collect step) := by
  constructor
  intro c s as t hs hok
  have hrounds := loopRun_of_collect hok
  clear hok
  induction hrounds with
  | stop hstep =>
    obtain ⟨steps, hsteps⟩ := h.takes hs hstep
    exact ⟨steps, .stop hsteps⟩
  | last hstep =>
    obtain ⟨steps, hsteps⟩ := h.takes hs hstep
    exact ⟨steps, .last hsteps⟩
  | stalled hstep hstalled =>
    obtain ⟨steps, hsteps⟩ := h.takes hs hstep
    exact ⟨steps, .stalled hsteps hstalled⟩
  | more hstep hmoved _ ih =>
    obtain ⟨steps, hsteps⟩ := h.takes hs hstep
    obtain ⟨steps', hsteps'⟩ := ih ((horderly.onward hs hstep).proper hs)
    exact ⟨steps ++ steps', .more hsteps hmoved hsteps'⟩

theorem Stepwise.many (h : Stepwise rule) (horderly : Orderly rule) : Stepwise (many rule) := by
  apply Stepwise.collect
  · exact h.optional.bind horderly.optional fun r => stepwise_idle fun c s => ⟨_, rfl⟩
  · exact horderly.optional.bind fun r => .pure (r.map (·, true))

/-- The first rule that gives a value comes after rules that are stuck. -/
theorem exists_first_of_firstOf {rules : List (Rule α)} (h : ∀ r ∈ rules, Opening r)
    (hs : c.Proper s) (hok : firstOf rules c s = .ok a t) : ∃ before rule after,
      rules = before ++ rule :: after ∧ (∀ r ∈ before, ∃ why, r c s = .error why s) ∧
        rule c s = .ok a t := by
  induction rules with
  | nil => cases hok
  | cons rule rules ih =>
    rw [List.forall_mem_cons] at h
    cases hrule : rule c s with
    | ok b u =>
      rw [firstOf, hrule] at hok
      cases hok
      exact ⟨[], rule, rules, rfl, List.forall_mem_nil _, hrule⟩
    | error why u =>
      obtain rfl := h.1.restores hs hrule
      have hrest : firstOf rules c u = .ok a t := by
        have hrewind : u.rewind u = u := rfl
        simp only [firstOf, hrule, hrewind] at hok
        split at hok
        · next hrest => exact hrest.trans hok
        · cases hok
      obtain ⟨before, r, after, hsplit, hstuck, hr⟩ := ih h.2 hrest
      refine ⟨rule :: before, r, after, by rw [hsplit, List.cons_append], ?_, hr⟩
      exact List.forall_mem_cons.2 ⟨⟨why, hrule⟩, hstuck⟩

theorem Stepwise.hinted (h : Stepwise rule) (expected : List Expected) :
    Stepwise (hinted expected rule) := by
  constructor
  intro c s a t hs hok
  by_cases hhint : s.hint.isSome = true
  · rw [Rule.hinted, if_pos hhint] at hok
    obtain ⟨steps, hsteps⟩ := h.takes hs hok
    exact ⟨steps, .hinted hhint hsteps⟩
  · have hnone : s.hint = none := by simpa using hhint
    have hs' : c.Proper { s with hint := some expected } := hs.congr rfl
    rw [Rule.hinted, if_neg hhint] at hok
    split at hok
    · next hrule =>
      cases hok
      obtain ⟨steps, hsteps⟩ := h.takes hs' hrule
      exact ⟨steps, .hinting hnone hsteps⟩
    · cases hok

theorem Stepwise.alt {rules : List (Rule α)} (h : ∀ r ∈ rules, Stepwise r)
    (hopening : ∀ r ∈ rules, Opening r) : Stepwise (alt rules) := by
  constructor
  intro c s a t hs hok
  cases hfirst : firstOf rules (c.speculating s) s with
  | ok b u =>
    rw [Rule.alt, hfirst] at hok
    cases hok
    obtain ⟨before, r, after, rfl, hstuck, hr⟩ :=
      exists_first_of_firstOf hopening hs.speculating hfirst
    have hmem : r ∈ before ++ r :: after := List.mem_append_right _ List.mem_cons_self
    obtain ⟨steps, hsteps⟩ := (h r hmem).takes hs.speculating hr
    exact ⟨steps, .first hstuck hsteps⟩
  | error failures u =>
    obtain rfl := Opening.firstOf_restores hopening hs.speculating hfirst
    simp only [Rule.alt, hfirst] at hok
    split at hok
    · next r hchosen =>
      split at hok
      · next hcommitted =>
        have hmem : r ∈ rules := mem_of_cheapest? hchosen
        obtain ⟨steps, hsteps⟩ := ((h r hmem).hinted _).takes hs hok
        exact ⟨steps, .again hfirst hchosen hcommitted hsteps⟩
      · cases hok
    · cases hok

end

end Rule

namespace Grammar

open Rule

variable {α : Type} {start : Start} {closed : Bool} {rule : Level → Rule α} {inner : Level}
  {law : Law} {L : Language}

/-- The rules for what nests one level deeper go in steps. -/
structure Level.Stepwise (inner : Level) : Prop where
  expr : Rule.Stepwise inner.expr
  block : Rule.Stepwise inner.block

/-- In a lookahead too, the matchers read, or they are stuck. -/
theorem stepwise_fieldName : Rule.Stepwise fieldName := by
  have htoken : ∀ {c s span t} (token : Token), Rule.token token c s = .ok span t →
      ∃ steps, Takes (Rule.token token) c s steps span t := by
    intro c s span t token hok
    apply exists_takes_bind exists_takes_satisfy _ hok
    intro a u _ hpure
    cases hpure
    exact ⟨[], .idle rfl⟩
  have hboth : ∀ {c s n t}, nameAndEqual c s = .ok n t →
      ∃ steps, Takes nameAndEqual c s steps n t := by
    intro c s n t hok
    apply exists_takes_bind exists_takes_satisfy _ hok
    intro m u _ hrest
    apply exists_takes_bind (htoken _) _ hrest
    intro span v _ hpure
    cases hpure
    exact ⟨[], .idle rfl⟩
  constructor
  intro c s n t hs hok
  cases hc : c.isCommitted s with
  | true =>
    obtain ⟨steps, hsteps⟩ := hboth ((fieldName_of_committed hc).symm.trans hok)
    refine ⟨steps, .attempt ?_⟩
    rwa [if_pos hc]
  | false =>
    rcases attempt_cases nameAndEqual hc with ⟨m, u, hboth', hattempt⟩ | ⟨why, u, -, hattempt⟩
    · cases hattempt.symm.trans hok
      obtain ⟨steps, hsteps⟩ := hboth hboth'
      refine ⟨steps, .attempt ?_⟩
      rwa [if_neg (by simp [hc])]
    · cases hattempt.symm.trans hok

/-- A rule of the grammar goes in steps if those one level down do. -/
theorem Scheme.stepwise (h : Scheme start closed rule) (hsound : inner.Sound law L)
    (hinner : inner.Stepwise) : Rule.Stepwise (rule inner) := by
  induction h with
  | pure a => exact stepwise_idle fun _ _ => ⟨_, rfl⟩
  | satisfy m => exact ⟨fun _ hok => exists_takes_satisfy hok⟩
  | fieldName => exact stepwise_fieldName
  | record d hd =>
    constructor
    intro c s a t hs hok
    cases hok
    have hskip : d.skipCount = 0 := by simp [Diagnostic.skipCount, hd]
    have hother : d.supplies = false := by simp [Diagnostic.supplies, hd]
    exact ⟨_, takes_record rfl hskip hother⟩
  | look g _ => exact stepwise_idle fun _ _ => ⟨_, rfl⟩
  | skip count expected _ => exact ⟨fun _ hok => exists_takes_of_skipTokens rfl hok⟩
  | expr => exact hinner.expr
  | block => exact hinner.block
  | seq h _ _ ih ihf => exact ih.bind (h.orderly hsound) ihf
  | manySeq h _ ih ihf =>
    exact (ih.many (h.orderly hsound)).bind (h.orderly hsound).many ihf
  | located _ _ ih => exact ih.located
  | optional _ _ _ ih => exact ih.optional
  | collect h ih => exact ih.collect (h.orderly hsound)
  | alt rules _ h hstart ih =>
    apply Rule.Stepwise.alt
    · rw [List.forall_mem_map]
      exact ih
    · rw [List.forall_mem_map]
      exact fun r hr => (h r hr).opening hstart hsound
  | prefixExp hhead hsuffix ihhead ihsuffix =>
    constructor
    intro c s p t hs hok
    have horderly := hsuffix.orderly hsound
    have hparts : Rule.Stepwise (do
        let a ← head inner
        return (⟨a, ← Rule.many (suffix inner)⟩ : PrefixExp)) :=
      ihhead.bind (hhead.orderly hsound) fun a =>
        (ihsuffix.many horderly).bind horderly.many fun as => stepwise_idle fun _ _ => ⟨_, rfl⟩
    obtain ⟨steps, hsteps⟩ := hparts.takes hs ((prefixExp_unrestricted hsound hs).symm.trans hok)
    exact ⟨steps, .prefixExp hok hsteps⟩
  | weaken _ _ _ _ ih => exact ih

theorem stepwise_cutOffExpr : Rule.Stepwise cutOffExpr := by
  constructor
  intro c s e t hs hok
  rcases skipLevel_spec true c s with hskip | ⟨count, span, -, -, -, hskip⟩
  · cases hc : c.isCommitted s with
    | true =>
      have hcutOff := cutOffExpr_of_committed hskip hc
      cases hcutOff.symm.trans hok
      exact ⟨_, takes_record hcutOff rfl rfl⟩
    | false =>
      obtain ⟨why, hstuck⟩ := cutOffExpr_of_not_committed hskip hc
      cases hstuck.symm.trans hok
  · have hcutOff := cutOffExpr_of_some hskip
    cases hcutOff.symm.trans hok
    exact ⟨_, takes_pass hcutOff rfl rfl⟩

theorem stepwise_cutOffBlock : Rule.Stepwise cutOffBlock := by
  constructor
  intro c s b t hs hok
  rcases skipLevel_spec false c s with hskip | ⟨count, span, -, -, -, hskip⟩
  · have hcutOff : cutOffBlock c s = .ok .empty s := bind_of_ok hskip
    cases hcutOff.symm.trans hok
    exact ⟨[], .idle hcutOff⟩
  · have hcutOff : cutOffBlock c s = .ok .empty _ := bind_of_ok hskip
    cases hcutOff.symm.trans hok
    exact ⟨_, takes_pass hcutOff rfl rfl⟩

theorem stepwise_nested (depth : Nat) : (nested depth).Stepwise := by
  induction depth with
  | zero => exact ⟨stepwise_cutOffExpr, stepwise_cutOffBlock⟩
  | succ depth ih =>
    have hsound := sound_lenient depth
    exact ⟨scheme_orExpr.stepwise hsound ih, scheme_stmts.stepwise hsound ih⟩

end Grammar

/-! ### Runs over a whole stream -/

namespace Rule

variable {α : Type} {rule : Rule α}

/-- The rule, and after it the end of the input. -/
def whole (rule : Rule α) : Rule α := do
  let a ← rule
  endOfInput
  return a

theorem Stepwise.whole (h : Stepwise rule) (horderly : Orderly rule) : Stepwise rule.whole :=
  h.bind horderly fun _ =>
    stepwise_endOfInput.bind orderly_endOfInput fun _ => stepwise_idle fun _ _ => ⟨_, rfl⟩

/-- Run over a whole stream, a rule that is never stuck there gives the diagnostics that its steps
record. -/
theorem Stepwise.run (h : Stepwise rule) (horderly : Orderly rule) (stream : TokenStream)
    (limit : Nat) (fallback : α) : ∃ steps s,
      Takes rule.whole (start stream limit) initial steps (rule.run stream limit fallback).1 s ∧
        recorded steps = (rule.run stream limit fallback).2 := by
  have hs := proper_start stream limit
  cases hrule : rule (start stream limit) initial with
  | error why s => cases horderly.completes hs hrule
  | ok a s =>
    have hproper := (horderly.onward hs hrule).proper hs
    obtain ⟨t, hend, -⟩ := endOfInput_spec Grammar.lenient hproper rfl
    have hwhole : rule.whole (start stream limit) initial = .ok a t := by
      rw [Rule.whole, bind_of_ok hrule, bind_of_ok hend]
      rfl
    have hrun : rule.run stream limit fallback = (a, t.diags.reverse) := by
      simp only [Rule.run, hrule, hend]
    obtain ⟨steps, hsteps⟩ := (h.whole horderly).takes hs hwhole
    refine ⟨steps, t, by rwa [hrun], ?_⟩
    rw [hrun, hsteps.progress.2]
    simp [initial]

end Rule

end LuaSyntax
