import LuaSyntax.Proofs.Grammar.StmtRepeats
import LuaSyntax.Proofs.Rule.Opening
/-!
# What the rules are put together from

A rule of the grammar is made of matchers and of the two rules one level down, in the same way over
every level. A `Scheme` says in which way. What holds of the parts of a rule and of each way to put
rules together holds of all the rules of the grammar, so a property of this kind is proved by one
induction over the schemes.
-/

namespace LuaSyntax

namespace Grammar

open Rule Operator

/-- How a rule begins. -/
inductive Start where
  /-- With a token that it reads itself. -/
  | token
  /-- With a token, which may be the first one of an expression one level down. -/
  | inner
  /-- It need not read any token. -/
  | any
deriving DecidableEq

/-- The rule, as a function of the rules one level down, is put together from matchers, from these
two and from other rules of this kind. If it is `closed`, it does not read on where something new
starts after a statement. -/
inductive Scheme : Start → Bool → {α : Type} → (Level → Rule α) → Prop
  | pure {α : Type} (a : α) : Scheme .any true fun _ => Pure.pure a
  | satisfy {α : Type} (m : Matcher α) : Scheme .token true fun _ => Rule.satisfy m
  | fieldName : Scheme .token true fun _ => Grammar.fieldName
  | record (d : Diagnostic) (hd : d.repair = .unrepaired) :
    Scheme .any true fun _ => Rule.record d
  | look {α : Type} {closed : Bool} (g : Option (Located Token) → α)
    (hclosed : closed = true → ∀ next, StmtEnds (next.map (·.node)) → g next = g none) :
    Scheme .any closed fun _ => Rule.look g
  | skip (count : List Token → Nat) (expected : List Expected)
    (hcount : ∀ t ts, 0 < count (t :: ts)) :
    Scheme .any false fun _ c s => skipTokens (count (c.ahead s)) expected c s
  | expr : Scheme .inner true Level.expr
  | block : Scheme .any false Level.block
  | seq {α β : Type} {start start' : Start} {closed closed' closed'' : Bool}
    {rule : Level → Rule α} {f : Level → α → Rule β} (h : Scheme start closed rule)
    (hf : ∀ a, Scheme start' closed' fun inner => f inner a)
    (hclosed : closed'' = true → closed' = true ∧ (closed = true ∨ start' ≠ .any)) :
    Scheme start closed'' fun inner => rule inner >>= f inner
  | manySeq {α β : Type} {closed closed' : Bool} {item : Level → Rule α}
    {f : Level → List α → Rule β} (h : Scheme .token closed item)
    (hf : ∀ as, Scheme .token closed' fun inner => f inner as) :
    Scheme .token closed' fun inner => many (item inner) >>= f inner
  | located {α : Type} {start : Start} {closed : Bool} {rule : Level → Rule α}
    (h : Scheme start closed rule) (hstart : start ≠ .any) :
    Scheme start closed fun inner => Rule.located (rule inner)
  | optional {α : Type} {start : Start} {closed closed' : Bool} {rule : Level → Rule α}
    (h : Scheme start closed rule) (hstart : start ≠ .any)
    (hclosed : closed' = true → closed = true ∧
      ∀ inner ts, StmtEnds ts.head? → Refuses (rule inner) ts) :
    Scheme .any closed' fun inner => Rule.optional (rule inner)
  | collect {α : Type} {start : Start} {closed : Bool} {step : Level → Rule (Option (α × Bool))}
    (h : Scheme start closed step) : Scheme .any closed fun inner => Rule.collect (step inner)
  | alt {α : Type} {o : Start} (rules : List (Level → Rule α)) (hne : rules ≠ [])
    (h : ∀ rule ∈ rules, Scheme o true rule) (hstart : o ≠ .any) :
    Scheme o true fun inner => Rule.alt (rules.map (· inner))
  | prefixExp (hhead : Scheme .token true head) (hsuffix : Scheme .token true suffix) :
    Scheme .token true fun inner => Grammar.prefixExp inner .unrestricted
  | weaken {α : Type} {start start' : Start} {closed closed' : Bool} {rule : Level → Rule α}
    (h : Scheme start closed rule) (hstart : start' ≠ .any → start ≠ .any)
    (htoken : start' = .token → start = .token) (hclosed : closed' = true → closed = true) :
    Scheme start' closed' rule

namespace Scheme

variable {α β : Type} {start o : Start} {closed closed' k : Bool} {rule : Level → Rule α}
  {f : Level → α → Rule β} {inner : Level} {law : Law} {L : Language}

/-- The rules are orderly, and those that begin with a token consume one or do nothing. -/
theorem tidy (h : Scheme start closed rule) (hinner : inner.Sound law L) :
    Orderly (rule inner) ∧ (start ≠ .any → Opening (rule inner)) := by
  induction h with
  | pure a => exact ⟨.pure a, absurd rfl⟩
  | satisfy m => exact ⟨orderly_satisfy m, fun _ => opening_satisfy m⟩
  | fieldName => exact ⟨(opens_fieldName hinner).orderly, fun _ => (opens_fieldName hinner).opening⟩
  | record d _ => exact ⟨orderly_record d, absurd rfl⟩
  | look g _ => exact ⟨orderly_look g, absurd rfl⟩
  | skip count expected _ => exact ⟨orderly_skipAhead count expected, absurd rfl⟩
  | expr => exact ⟨hinner.expr.orderly, fun _ => hinner.expr.opening⟩
  | block => exact ⟨hinner.block.orderly, absurd rfl⟩
  | seq _ _ _ ih ihf =>
    exact ⟨ih.1.bind fun a => (ihf a).1, fun hstart => (ih.2 hstart).bind fun a => (ihf a).1⟩
  | manySeq _ _ ih ihf =>
    have hopening := (ih.2 nofun).many_bind fun as => (ihf as).2 nofun
    exact ⟨hopening.toOrderly, fun _ => hopening⟩
  | located _ hstart ih => exact ⟨ih.1.located, fun _ => (ih.2 hstart).located⟩
  | optional _ _ _ ih => exact ⟨ih.1.optional, absurd rfl⟩
  | collect _ ih => exact ⟨ih.1.collect, absurd rfl⟩
  | alt rules hne _ hstart ih =>
    have hopening : Opening (Rule.alt (rules.map (· inner))) := by
      refine .alt (mt List.map_eq_nil_iff.1 hne) ?_
      rw [List.forall_mem_map]
      exact fun rule hrule => (ih rule hrule).2 hstart
    exact ⟨hopening.toOrderly, fun _ => hopening⟩
  | prefixExp _ _ _ _ =>
    have hopening := (opens_prefixExp hinner .unrestricted nofun).opening
    exact ⟨hopening.toOrderly, fun _ => hopening⟩
  | weaken _ hstart _ _ ih => exact ⟨ih.1, fun h => ih.2 (hstart h)⟩

theorem orderly (h : Scheme start closed rule) (hinner : inner.Sound law L) :
    Orderly (rule inner) :=
  (h.tidy hinner).1

theorem opening (h : Scheme start closed rule) (hstart : start ≠ .any)
    (hinner : inner.Sound law L) : Opening (rule inner) :=
  (h.tidy hinner).2 hstart

theorem begins (h : Scheme .token closed rule) (hinner : inner.Sound law L) :
    Opening (rule inner) :=
  h.opening nofun hinner

/-! ### Weaker schemes -/

theorem asInner (h : Scheme .token closed rule) : Scheme .inner closed rule :=
  h.weaken nofun nofun id

theorem free (h : Scheme start closed rule) : Scheme .any closed rule :=
  h.weaken (absurd rfl) nofun id

theorem loose (h : Scheme start closed rule) : Scheme start false rule :=
  h.weaken id id nofun

/-! ### Sequences -/

theorem bind (h : Scheme start true rule) (hf : ∀ a, Scheme o true fun inner => f inner a) :
    Scheme start true fun inner => rule inner >>= f inner :=
  h.seq hf fun _ => ⟨rfl, .inl rfl⟩

/-- What comes next has to begin with a token. -/
theorem before (h : Scheme start closed rule)
    (hf : ∀ a, Scheme .token true fun inner => f inner a) :
    Scheme start true fun inner => rule inner >>= f inner :=
  h.seq hf fun _ => ⟨rfl, .inr nofun⟩

theorem loosely (h : Scheme start closed rule) (hf : ∀ a, Scheme o k fun inner => f inner a) :
    Scheme start false fun inner => rule inner >>= f inner :=
  h.seq hf nofun

theorem map (g : α → β) (h : Scheme start closed rule) :
    Scheme start closed fun inner => g <$> rule inner := by
  simp only [map_eq_pure_bind]
  exact h.seq (fun a => .pure (g a)) fun hclosed => ⟨rfl, .inl hclosed⟩

theorem maybe (h : Scheme start closed rule) (hstart : start ≠ .any) :
    Scheme .any false fun inner => Rule.optional (rule inner) :=
  h.optional hstart nofun

theorem peek (g : Option (Located Token) → α) : Scheme .any false fun _ => Rule.look g :=
  look g nofun

/-! ### Tokens -/

theorem token (t : Token) : Scheme .token true fun _ => Rule.token t :=
  (satisfy (.exactly t)).bind fun a => .pure a.span

theorem keyword (k : Keyword) : Scheme .token true fun _ => Rule.keyword k := token _

theorem symbol (s : Symbol) : Scheme .token true fun _ => Rule.symbol s := token _

theorem name : Scheme .token true fun _ => Rule.name := satisfy .name

theorem oneOf {ops : List (Token × α)} (hne : ops ≠ []) :
    Scheme .token true fun _ => Rule.oneOf ops := by
  cases ops with
  | nil => exact absurd rfl hne
  | cons op ops => exact satisfy (.oneOf op.1 op.2 ops)

/-! ### Repetitions -/

theorem many (h : Scheme start closed rule) (hstart : start ≠ .any)
    (hclosed : closed' = true → closed = true ∧
      ∀ inner ts, StmtEnds ts.head? → Refuses (rule inner) ts) :
    Scheme .any closed' fun inner => Rule.many (rule inner) :=
  ((h.optional hstart hclosed).seq (fun r => .pure (r.map (·, true)))
    fun hclosed => ⟨rfl, .inl hclosed⟩).collect

theorem several (h : Scheme start closed rule) (hstart : start ≠ .any) :
    Scheme .any false fun inner => Rule.many (rule inner) :=
  h.many hstart nofun

end Scheme

end Grammar

end LuaSyntax
