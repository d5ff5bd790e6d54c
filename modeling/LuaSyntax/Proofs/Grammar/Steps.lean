import LuaSyntax.Grammar.Stmt
import LuaSyntax.Proofs.Rule.Gives
/-!
# Steps of a run

A run reads tokens and records diagnostics, one after the other. `Takes` says which of these steps
are left in the end: what a speculation did that failed, or what was read twice, is not among them.
Each step is made where the steps before it have led, so the tokens that are consumed when a
diagnostic is recorded are those of the steps before it.
-/

namespace LuaSyntax

namespace Diagnostic

/-- The number of tokens that were passed over. -/
def skipCount (d : Diagnostic) : Nat :=
  match d.repair with
  | .skipped count => count
  | _ => 0

/-- A token was put in because another one was found there, or none. -/
def supplies (d : Diagnostic) : Bool :=
  match d.cause, d.repair with
  | .unexpected _ _, .inserted _ _ => true
  | _, _ => false

/-- The diagnostic shows the token at the cursor `i`, or the end of the input. -/
structure ShowsNext (stream : TokenStream) (i : Nat) (d : Diagnostic) : Prop where
  found : ∀ {found expected}, d.cause = .unexpected found expected →
    found = (stream.get? i).map (·.node)
  span : d.span = ((stream.get? i).map (·.span)).getD (.point (stream.pos i))

end Diagnostic

namespace Rule

inductive Step where
  | read (t : Located Token)
  | record (d : Diagnostic)

namespace Step

/-- The number of tokens that the step consumes. -/
def length : Step → Nat
  | read _ => 1
  | record d => d.skipCount

def diagnostic? : Step → Option Diagnostic
  | read _ => none
  | record d => some d

end Step

/-- The number of tokens that the steps consume. -/
def consumed : List Step → Nat
  | [] => 0
  | step :: steps => step.length + consumed steps

/-- The diagnostics that the steps record, in order. -/
def recorded (steps : List Step) : List Diagnostic := steps.filterMap Step.diagnostic?

section

variable {steps steps' : List Step}

@[simp] theorem consumed_nil : consumed [] = 0 := rfl

@[simp] theorem consumed_cons (step : Step) (steps : List Step) :
    consumed (step :: steps) = step.length + consumed steps := rfl

@[simp] theorem consumed_append (steps steps' : List Step) :
    consumed (steps ++ steps') = consumed steps + consumed steps' := by
  induction steps with
  | nil => simp
  | cons step steps ih => simp [ih, Nat.add_assoc]

@[simp] theorem recorded_nil : recorded [] = [] := rfl

@[simp] theorem recorded_read (t : Located Token) (steps : List Step) :
    recorded (.read t :: steps) = recorded steps := rfl

@[simp] theorem recorded_record (d : Diagnostic) (steps : List Step) :
    recorded (.record d :: steps) = d :: recorded steps := rfl

@[simp] theorem recorded_append (steps steps' : List Step) :
    recorded (steps ++ steps') = recorded steps ++ recorded steps' :=
  List.filterMap_append

theorem mem_recorded {d : Diagnostic} : d ∈ recorded steps ↔ Step.record d ∈ steps := by
  rw [recorded, List.mem_filterMap]
  constructor
  · rintro ⟨step, hmem, hstep⟩
    cases step with
    | read t => cases hstep
    | record e =>
      cases hstep
      exact hmem
  · intro hmem
    exact ⟨.record d, hmem, rfl⟩

end

/-- The first alternative that is not stuck gives the value. -/
theorem firstOf_of_stuck {α : Type} {before after : List (Rule α)} {rule : Rule α} {c : Context}
    {s t : State} {a : α} (hstuck : ∀ r ∈ before, ∃ why, r c s = .error why s)
    (hrule : rule c s = .ok a t) : firstOf (before ++ rule :: after) c s = .ok a t := by
  induction before with
  | nil => rw [List.nil_append, firstOf, hrule]
  | cons r before ih =>
    rw [List.forall_mem_cons] at hstuck
    obtain ⟨⟨why, hr⟩, hbefore⟩ := hstuck
    have hrest : firstOf (before ++ rule :: after) c (s.rewind s) = .ok a t := ih hbefore
    simp only [List.cons_append, firstOf, hr, hrest]

/-- The run of a rule from one state takes the steps and gives a value in another state. -/
inductive Takes : {α : Type} → Rule α → Context → State → List Step → α → State → Prop
  /-- Nothing happens. -/
  | idle {α : Type} {rule : Rule α} {c : Context} {s : State} {a : α} (h : rule c s = .ok a s) :
    Takes rule c s [] a s
  /-- A matcher reads the next token. -/
  | read {α : Type} {m : Matcher α} {c : Context} {s : State} {t : Located Token} {a : α}
    (found : c.next? s = some t) (accepted : m.accept t.node = some a) :
    Takes (satisfy m) c s [.read t] ⟨a, t.span⟩ (s.advance 1)
  /-- A committed matcher puts in the token that it needs. -/
  | supply {α : Type} {m : Matcher α} {c : Context} {s : State}
    (rejected : ∀ t, c.next? s = some t → m.accept t.node = none)
    (committed : c.isCommitted s = true) :
    Takes (satisfy m) c s [.record (insertion m c s)] ⟨m.value, .point (c.pos s)⟩
      { s.record (insertion m c s) with hint := none }
  /-- All that a rule does is to record a diagnostic, which supplies no token, and to consume what
  this passes over. -/
  | record {α : Type} {rule : Rule α} {c : Context} {s : State} {a : α} {d : Diagnostic}
    (h : rule c s = .ok a ((s.advance d.skipCount).record d)) (other : d.supplies = false) :
    Takes rule c s [.record d] a ((s.advance d.skipCount).record d)
  | seq {α β : Type} {rule : Rule α} {f : α → Rule β} {c : Context} {s t u : State}
    {steps steps' : List Step} {a : α} {b : β} (h : Takes rule c s steps a t)
    (rest : Takes (f a) c t steps' b u) : Takes (rule >>= f) c s (steps ++ steps') b u
  | some {α : Type} {rule : Rule α} {c : Context} {s t : State} {steps : List Step} {a : α}
    (h : Takes rule (c.speculating s) s steps a t) : Takes (optional rule) c s steps (some a) t
  | none {α : Type} {rule : Rule α} {c : Context} {s t : State} {why : Stuck}
    (h : rule (c.speculating s) s = .error why t) : Takes (optional rule) c s [] none (t.rewind s)
  | attempt {α : Type} {rule : Rule α} {c : Context} {s t : State} {steps : List Step} {a : α}
    (h : Takes rule (if c.isCommitted s then c else { c with mode := .strict }) s steps a t) :
    Takes (attempt rule) c s steps a t
  /-- The first alternative that gives a value, after some that are stuck. -/
  | first {α : Type} {before after : List (Rule α)} {rule : Rule α} {c : Context} {s t : State}
    {steps : List Step} {a : α}
    (stuck : ∀ r ∈ before, ∃ why, r (c.speculating s) s = .error why s)
    (h : Takes rule (c.speculating s) s steps a t) :
    Takes (alt (before ++ rule :: after)) c s steps a t
  /-- The alternative that is the cheapest to repair, after all have been stuck. -/
  | again {α : Type} {rules : List (Rule α)} {rule : Rule α} {failures : List Stuck} {c : Context}
    {s t : State} {steps : List Step} {a : α}
    (stuck : firstOf rules (c.speculating s) s = .error failures s)
    (chosen : cheapest? rules failures = some rule) (committed : c.isCommitted s = true)
    (h : Takes (hinted (Stuck.join failures).expected rule) c s steps a t) :
    Takes (alt rules) c s steps a t
  | hinting {α : Type} {rule : Rule α} {expected : List Expected} {c : Context} {s t : State}
    {steps : List Step} {a : α} (unhinted : s.hint = none)
    (h : Takes rule c { s with hint := some expected } steps a t) :
    Takes (hinted expected rule) c s steps a { t with hint := none }
  | hinted {α : Type} {rule : Rule α} {expected : List Expected} {c : Context} {s t : State}
    {steps : List Step} {a : α} (hint : s.hint.isSome = true) (h : Takes rule c s steps a t) :
    Takes (hinted expected rule) c s steps a t
  | stop {α : Type} {step : Rule (Option (α × Bool))} {c : Context} {s t : State}
    {steps : List Step} (h : Takes step c s steps none t) : Takes (collect step) c s steps [] t
  | last {α : Type} {step : Rule (Option (α × Bool))} {c : Context} {s t : State}
    {steps : List Step} {a : α} (h : Takes step c s steps (some (a, false)) t) :
    Takes (collect step) c s steps [a] t
  | stalled {α : Type} {step : Rule (Option (α × Bool))} {c : Context} {s t : State}
    {steps : List Step} {a : α} (h : Takes step c s steps (some (a, true)) t)
    (unmoved : ¬ c.remaining t < c.remaining s) : Takes (collect step) c s steps [] t
  | more {α : Type} {step : Rule (Option (α × Bool))} {c : Context} {s t u : State}
    {steps steps' : List Step} {a : α} {as : List α} (h : Takes step c s steps (some (a, true)) t)
    (moved : c.remaining t < c.remaining s) (rest : Takes (collect step) c t steps' as u) :
    Takes (collect step) c s (steps ++ steps') (a :: as) u
  /-- A prefix expression is read like its head and its suffixes. -/
  | prefixExp {inner : Grammar.Level} {c : Context} {s t : State} {steps : List Step}
    {p : PrefixExp} (gives : Grammar.prefixExp inner .unrestricted c s = .ok p t)
    (h : Takes (do
      let a ← Grammar.head inner
      return (⟨a, ← many (Grammar.suffix inner)⟩ : PrefixExp)) c s steps p t) :
    Takes (Grammar.prefixExp inner .unrestricted) c s steps p t

/-- Each step is made where the ones before it have led: a token that is read is the next one, and a
token that is put in is put in before the one that its diagnostic shows. -/
def Accounted (stream : TokenStream) : Nat → List Step → Prop
  | _, [] => True
  | i, .read t :: steps => stream.get? i = some t ∧ Accounted stream (i + 1) steps
  | i, .record d :: steps =>
    (d.supplies = true → d.ShowsNext stream i) ∧ Accounted stream (i + d.skipCount) steps

theorem accounted_append {stream : TokenStream} {steps steps' : List Step} {i : Nat} :
    Accounted stream i (steps ++ steps') ↔
      Accounted stream i steps ∧ Accounted stream (i + consumed steps) steps' := by
  induction steps generalizing i with
  | nil => simp [Accounted]
  | cons step steps ih =>
    cases step with
    | read t => simp only [List.cons_append, Accounted, ih, consumed_cons, Step.length, and_assoc,
        Nat.add_assoc]
    | record d => simp only [List.cons_append, Accounted, ih, consumed_cons, Step.length, and_assoc,
        Nat.add_assoc]

namespace Takes

variable {α β : Type} {rule : Rule α} {c : Context} {s t : State} {steps : List Step} {a : α}

/-- The steps lead from where the run starts to where it ends. -/
theorem progress (h : Takes rule c s steps a t) :
    t.cursor = s.cursor + consumed steps ∧ t.diags = (recorded steps).reverse ++ s.diags := by
  induction h with
  | idle _ => exact ⟨rfl, rfl⟩
  | read _ _ => exact ⟨rfl, rfl⟩
  | supply _ _ => exact ⟨rfl, rfl⟩
  | record _ _ => exact ⟨rfl, rfl⟩
  | seq _ _ ih ihrest =>
    constructor
    · rw [ihrest.1, ih.1, consumed_append, Nat.add_assoc]
    · rw [ihrest.2, ih.2, recorded_append, List.reverse_append, List.append_assoc]
  | some _ ih => exact ih
  | none _ => exact ⟨rfl, rfl⟩
  | attempt _ ih => exact ih
  | first _ _ ih => exact ih
  | again _ _ _ _ ih => exact ih
  | hinting _ _ ih => exact ih
  | hinted _ _ ih => exact ih
  | stop _ ih => exact ih
  | last _ ih => exact ih
  | stalled _ _ ih => exact ih
  | more _ _ _ ih ihrest =>
    constructor
    · rw [ihrest.1, ih.1, consumed_append, Nat.add_assoc]
    · rw [ihrest.2, ih.2, recorded_append, List.reverse_append, List.append_assoc]
  | prefixExp _ _ ih => exact ih

theorem accounted (h : Takes rule c s steps a t) : Accounted c.stream s.cursor steps := by
  induction h with
  | idle _ => trivial
  | read found _ => exact ⟨found, trivial⟩
  | supply _ _ =>
    refine ⟨fun _ => ⟨?_, rfl⟩, trivial⟩
    rintro _ _ ⟨⟩
    rfl
  | record _ other => exact ⟨fun h => absurd h (by simp [other]), trivial⟩
  | seq h _ ih ihrest => exact accounted_append.2 ⟨ih, h.progress.1 ▸ ihrest⟩
  | some _ ih => rwa [Context.stream_speculating] at ih
  | none _ => trivial
  | @attempt _ _ c s _ _ _ _ ih =>
    cases hc : c.isCommitted s <;> simpa [hc] using ih
  | first _ _ ih => rwa [Context.stream_speculating] at ih
  | again _ _ _ _ ih => exact ih
  | hinting _ _ ih => exact ih
  | hinted _ _ ih => exact ih
  | stop _ ih => exact ih
  | last _ ih => exact ih
  | stalled _ _ ih => exact ih
  | more h _ _ ih ihrest => exact accounted_append.2 ⟨ih, h.progress.1 ▸ ihrest⟩
  | prefixExp _ _ ih => exact ih

/-- The steps are those of the run that gives the value. -/
theorem gives (h : Takes rule c s steps a t) : rule c s = .ok a t := by
  induction h with
  | idle h => exact h
  | read found accepted => exact satisfy_of_accept found accepted
  | supply rejected committed => rw [satisfy_of_not_accept rejected, Rule.supply, if_pos committed]
  | record h _ => exact h
  | seq _ _ ih ihrest => rw [bind_of_ok ih, ihrest]
  | some _ ih => exact optional_of_ok ih
  | none h => rw [optional, h]
  | @attempt _ _ c s _ _ _ _ ih =>
    unfold Rule.attempt
    cases hc : c.isCommitted s <;> rw [hc] at ih
    · simp only [Bool.false_eq_true, if_false] at ih ⊢
      rw [ih]
    · simpa using ih
  | first stuck _ ih => rw [alt, firstOf_of_stuck stuck ih]
  | again stuck chosen committed _ ih =>
    rw [alt, stuck]
    simp only [chosen, if_pos committed, ih]
  | hinting unhinted _ ih => simp [Rule.hinted, unhinted, ih]
  | hinted hint _ ih => rw [Rule.hinted, if_pos hint, ih]
  | stop _ ih => exact collect_of_none ih
  | last _ ih => exact collect_of_last ih
  | stalled _ unmoved ih =>
    rw [collect, ih]
    exact if_neg unmoved
  | more _ moved _ ih ihrest =>
    rw [collect, ih]
    simp only [if_pos moved, ihrest]
  | prefixExp gives _ _ => exact gives

end Takes

end Rule

end LuaSyntax
