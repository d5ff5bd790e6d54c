import LuaSyntax.Proofs.Rule.Primitive
import LuaSyntax.Proofs.Source.SpanEq
import LuaSyntax.Proofs.Token.Spelling
import LuaSyntax.Rule.Run
/-!
# Rules in lockstep

Two streams are read side by side. Token by token they are the same, except for the spelling of
operators and, unless they match exactly, for spans. A rule keeps in step over them if neither makes
a difference to what it does: both runs give values that correspond, or both are stuck for the same
reason.
-/

namespace LuaSyntax

/-- The tokens are the same up to spelling, and with `exact` they have the same span. -/
structure TokenPair (exact : Prop) (t u : Located Token) : Prop where
  node : t.node.standard = u.node.standard
  span : exact → t.span = u.span

namespace Diagnostic

variable {stream stream' : TokenStream} {d d' : Diagnostic}

/-- The diagnostic stands where the token with index `i` starts, or past the last one where the
stream ends. If it passes tokens over, this is the first of them. -/
def StandsAt (stream : TokenStream) (i : Nat) (d : Diagnostic) : Prop :=
  match d.repair with
  | .skipped count => d.span = stream.spanBetween i (i + count)
  | _ => d.span.start = stream.pos i

/-- The causes are the same, except that a token found in the one stream, where the diagnostic
stands, is the one at the same place in the other. -/
def FoundAlike (stream stream' : TokenStream) (d d' : Diagnostic) : Prop :=
  match d.cause with
  | .unexpected found expected => ∃ i, d.StandsAt stream i ∧ d'.StandsAt stream' i ∧
      found = (stream.get? i).map (·.node) ∧
      d'.cause = .unexpected ((stream'.get? i).map (·.node)) expected
  | cause => d'.cause = cause

namespace FoundAlike

theorem severity (h : d.FoundAlike stream stream' d') : d'.severity = d.severity := by
  obtain ⟨span, cause, repair⟩ := d
  cases cause with
  | unexpected found expected =>
    obtain ⟨i, -, -, -, hcause⟩ := h
    rw [Diagnostic.severity, hcause]
    rfl
  | _ => exact congrArg Cause.severity h

/-- If the streams have the same tokens up to spans, the causes are the same. -/
theorem cause_eq (h : d.FoundAlike stream stream' d')
    (hnodes : ∀ i, (stream'.get? i).map (·.node) = (stream.get? i).map (·.node)) :
    d'.cause = d.cause := by
  obtain ⟨span, cause, repair⟩ := d
  cases cause with
  | unexpected found expected =>
    obtain ⟨i, -, -, hfound, hcause⟩ := h
    dsimp only
    rw [hcause, hfound, hnodes i]
  | _ => exact h

end FoundAlike

end Diagnostic

/-- Two streams to be read side by side. -/
structure Pairing where
  left : TokenStream
  right : TokenStream
  /-- Whether spans are the same on both sides. -/
  exact : Prop
  tokens : List.Forall₂ (TokenPair exact) left.tokens.toList right.tokens.toList
  stop : exact → left.stop = right.stop

theorem forall₂_getElem? {α β : Type} {R : α → β → Prop} {as : List α} {bs : List β}
    (h : List.Forall₂ R as bs) (i : Nat) :
    (as[i]? = none ∧ bs[i]? = none) ∨ ∃ a b, as[i]? = some a ∧ bs[i]? = some b ∧ R a b := by
  induction h generalizing i with
  | nil => exact .inl ⟨rfl, rfl⟩
  | @cons a b as bs hab _ ih =>
    cases i with
    | zero => exact .inr ⟨a, b, rfl, rfl, hab⟩
    | succ i => exact ih i

namespace Pairing

variable (P : Pairing)

theorem get? (i : Nat) : (P.left.get? i = none ∧ P.right.get? i = none) ∨
    ∃ t u, P.left.get? i = some t ∧ P.right.get? i = some u ∧ TokenPair P.exact t u := by
  simpa [TokenStream.get?] using forall₂_getElem? P.tokens i

theorem size_eq : P.right.size = P.left.size := by
  simpa [TokenStream.size] using P.tokens.length_eq.symm

theorem pos_eq (hexact : P.exact) (i : Nat) : P.left.pos i = P.right.pos i := by
  unfold TokenStream.pos
  rcases P.get? i with ⟨hleft, hright⟩ | ⟨t, u, hleft, hright, htu⟩
  · simp [hleft, hright, P.stop hexact]
  · simp [hleft, hright, htu.span hexact]

theorem spanBetween_eq (hexact : P.exact) (i j : Nat) :
    P.left.spanBetween i j = P.right.spanBetween i j := by
  have hpos := P.pos_eq hexact i
  unfold TokenStream.spanBetween
  rw [hpos]
  rcases P.get? i with ⟨hleft, hright⟩ | ⟨t, u, hleft, hright, htu⟩
  · rw [hleft, hright]
  · rw [hleft, hright]
    rcases P.get? (j - 1) with ⟨hleft, hright⟩ | ⟨v, w, hleft, hright, hvw⟩
    · rw [hleft, hright]
    · rw [hleft, hright]
      simp only [htu.span hexact, hvw.span hexact]

/-- What is ahead is the same up to spelling. -/
theorem rest_pairs (i : Nat) :
    List.Forall₂ (fun t u : Token => t.standard = u.standard) ((P.left.rest i).map (·.node))
      ((P.right.rest i).map (·.node)) := by
  rw [List.forall₂_map_left_iff, List.forall₂_map_right_iff]
  exact (List.forall₂_drop i P.tokens).imp fun _ _ h => h.node

/-- The diagnostics say the same of either stream: where a token was found, it is the one at the
same place. -/
structure Reports (d e : Diagnostic) : Prop where
  span : P.exact → d.span = e.span
  cause : d.FoundAlike P.left P.right e
  repair : d.repair = e.repair

/-- The states stand at the same place with corresponding diagnostics. -/
inductive States : State → State → Prop
  | intro (cursor : Nat) (hint : Option (List Expected)) {ds es : List Diagnostic}
      (h : List.Forall₂ P.Reports ds es) : States ⟨cursor, ds, hint⟩ ⟨cursor, es, hint⟩

/-- Both runs give corresponding values, or both are stuck for the same reason. -/
def Agree {ε α β : Type} (R : α → β → Prop) (r : EStateM.Result ε State α)
    (r' : EStateM.Result ε State β) : Prop :=
  (∃ a b s s', r = .ok a s ∧ r' = .ok b s' ∧ R a b ∧ P.States s s') ∨
    ∃ why s s', r = .error why s ∧ r' = .error why s' ∧ P.States s s'

variable {P}

theorem Reports.severity {d e : Diagnostic} (h : P.Reports d e) : d.severity = e.severity :=
  h.cause.severity.symm

namespace States

variable {s s' t t' : State}

theorem record {d e : Diagnostic} (hs : P.States s s') (h : P.Reports d e) :
    P.States (s.record d) (s'.record e) := by
  obtain ⟨cursor, hint, hds⟩ := hs
  exact .intro cursor hint (.cons h hds)

theorem advance (hs : P.States s s') (count : Nat) :
    P.States (s.advance count) (s'.advance count) := by
  obtain ⟨cursor, hint, hds⟩ := hs
  exact .intro _ hint hds

theorem with_hint (hs : P.States s s') (hint : Option (List Expected)) :
    P.States { s with hint := hint } { s' with hint := hint } := by
  obtain ⟨cursor, _, hds⟩ := hs
  exact .intro cursor hint hds

theorem rewind (hs : P.States s s') (ht : P.States t t') :
    P.States (s.rewind t) (s'.rewind t') := by
  obtain ⟨_, hint, _⟩ := hs
  obtain ⟨cursor, _, hds⟩ := ht
  exact .intro cursor hint hds

theorem cursor_eq (hs : P.States s s') : s'.cursor = s.cursor := by
  obtain ⟨_, _, _⟩ := hs
  rfl

theorem hint_eq (hs : P.States s s') : s'.hint = s.hint := by
  obtain ⟨_, _, _⟩ := hs
  rfl

theorem diags (hs : P.States s s') : List.Forall₂ P.Reports s.diags s'.diags := by
  obtain ⟨_, _, hds⟩ := hs
  exact hds

end States

namespace Agree

variable {ε α β : Type} {R : α → β → Prop} {a : α} {b : β} {s s' : State}

theorem ok (h : R a b) (hs : P.States s s') :
    P.Agree R (.ok a s : EStateM.Result ε State α) (.ok b s') :=
  .inl ⟨a, b, s, s', rfl, rfl, h, hs⟩

theorem error (why : ε) (hs : P.States s s') :
    P.Agree R (.error why s : EStateM.Result ε State α) (.error why s') :=
  .inr ⟨why, s, s', rfl, rfl, hs⟩

end Agree

end Pairing

namespace Pairing

variable {α β γ : Type} [SpanEq α] [SpanEq β] [SpanEq γ] {P : Pairing}

/-- The values are equal up to spans, and over exact streams they are equal. -/
structure Twins (P : Pairing) (a b : α) : Prop where
  same : SpanEq.same a b
  eq : P.exact → a = b

namespace Twins

theorem map {f : α → β} {a b : α} (h : P.Twins a b)
    (hf : SpanEq.same a b → SpanEq.same (f a) (f b)) : P.Twins (f a) (f b) :=
  ⟨hf h.same, fun hexact => congrArg f (h.eq hexact)⟩

theorem node {a b : Located α} (h : P.Twins a b) : P.Twins a.node b.node :=
  ⟨h.same, fun hexact => congrArg Located.node (h.eq hexact)⟩

theorem map₂ {f : α → β → γ} {a b : α} {a' b' : β} (h : P.Twins a b) (h' : P.Twins a' b')
    (hf : SpanEq.same a b → SpanEq.same a' b' → SpanEq.same (f a a') (f b b')) :
    P.Twins (f a a') (f b b') := by
  refine ⟨hf h.same h'.same, fun hexact => ?_⟩
  rw [h.eq hexact, h'.eq hexact]

theorem list {as bs : List α} (h : List.Forall₂ P.Twins as bs) : P.Twins as bs := by
  refine ⟨h.imp fun _ _ hab => hab.same, fun hexact => ?_⟩
  rw [← List.forall₂_eq_eq_eq]
  exact h.imp fun _ _ hab => hab.eq hexact

theorem option {a b : Option α} (h : Option.Rel P.Twins a b) : P.Twins a b := by
  cases h with
  | none => exact ⟨.none, fun _ => rfl⟩
  | some h => exact ⟨.some h.same, fun hexact => congrArg some (h.eq hexact)⟩

end Twins

end Pairing

namespace Rule

open Pairing

variable {P : Pairing} {α β γ δ : Type} {R : α → β → Prop} {S : γ → δ → Prop}

/-- The rules keep in step over the two streams. -/
def Lockstep (P : Pairing) (R : α → β → Prop) (rule : Rule α) (rule' : Rule β) : Prop :=
  ∀ mode limit s s', P.States s s' →
    P.Agree R (rule ⟨P.left, mode, limit⟩ s) (rule' ⟨P.right, mode, limit⟩ s')

variable {rule : Rule α} {rule' : Rule β} {f : α → Rule γ} {g : β → Rule δ}

theorem Lockstep.mono {R' : α → β → Prop} (h : Lockstep P R rule rule')
    (hR : ∀ a b, R a b → R' a b) : Lockstep P R' rule rule' := by
  intro mode limit s s' hs
  rcases h mode limit s s' hs with ⟨a, b, t, t', hok, hok', hab, ht⟩ | hstuck
  · exact .inl ⟨a, b, t, t', hok, hok', hR a b hab, ht⟩
  · exact .inr hstuck

/-! ### Sequencing -/

theorem Lockstep.pure {a : α} {b : β} (h : R a b) : Lockstep P R (pure a) (pure b) :=
  fun _ _ _ _ hs => .ok h hs

theorem Lockstep.bind (h : Lockstep P R rule rule')
    (hf : ∀ a b, R a b → Lockstep P S (f a) (g b)) :
    Lockstep P S (rule >>= f) (rule' >>= g) := by
  intro mode limit s s' hs
  rcases h mode limit s s' hs with
    ⟨a, b, t, t', hok, hok', hab, ht⟩ | ⟨why, t, t', herr, herr', ht⟩
  · rw [bind_of_ok hok, bind_of_ok hok']
    exact hf a b hab mode limit t t' ht
  · rw [bind_apply, bind_apply, herr, herr']
    exact .error why ht

theorem Lockstep.map {f : α → γ} {g : β → δ} (h : Lockstep P R rule rule')
    (hS : ∀ a b, R a b → S (f a) (g b)) : Lockstep P S (f <$> rule) (g <$> rule') := by
  intro mode limit s s' hs
  rw [map_apply, map_apply]
  rcases h mode limit s s' hs with
    ⟨a, b, t, t', hok, hok', hab, ht⟩ | ⟨why, t, t', herr, herr', ht⟩
  · rw [hok, hok']
    exact .ok (hS a b hab) ht
  · rw [herr, herr']
    exact .error why ht

/-! ### State -/

theorem isCommitted_eq {mode : Mode} {limit : Nat} {s s' : State} (hs : P.States s s') :
    (⟨P.right, mode, limit⟩ : Context).isCommitted s' =
      (⟨P.left, mode, limit⟩ : Context).isCommitted s := by
  simp only [Context.isCommitted, hs.cursor_eq]

theorem remaining_eq {mode : Mode} {limit : Nat} {s s' : State} (hs : P.States s s') :
    (⟨P.right, mode, limit⟩ : Context).remaining s' =
      (⟨P.left, mode, limit⟩ : Context).remaining s := by
  simp only [Context.remaining, P.size_eq, hs.cursor_eq]

/-- Both speculations run in the same mode. -/
theorem speculating_eq (mode : Mode) (limit : Nat) {s s' : State} (hs : P.States s s') :
    ∃ mode', (⟨P.left, mode, limit⟩ : Context).speculating s = ⟨P.left, mode', limit⟩ ∧
      (⟨P.right, mode, limit⟩ : Context).speculating s' = ⟨P.right, mode', limit⟩ := by
  have hcursor := hs.cursor_eq
  cases mode with
  | committed => exact ⟨.since s.cursor, rfl, by simp [Context.speculating, hcursor]⟩
  | since start => exact ⟨.since s.cursor, rfl, by simp [Context.speculating, hcursor]⟩
  | strict => exact ⟨.strict, rfl, rfl⟩

theorem lockstep_committed : Lockstep P (· = ·) committed committed :=
  fun _ _ _ _ hs => .ok (isCommitted_eq hs).symm hs

theorem lockstep_cursor : Lockstep P (· = ·) cursor cursor :=
  fun _ _ _ _ hs => .ok hs.cursor_eq.symm hs

theorem lockstep_mark : Lockstep P P.States mark mark :=
  fun _ _ _ _ hs => .ok hs hs

theorem lockstep_reset {start start' : State} (h : P.States start start') :
    Lockstep P (fun _ _ => True) (reset start) (reset start') :=
  fun _ _ _ _ hs => .ok trivial (hs.rewind h)

theorem lockstep_record {d e : Diagnostic} (h : P.Reports d e) :
    Lockstep P (fun _ _ => True) (record d) (record e) :=
  fun _ _ _ _ hs => .ok trivial (hs.record h)

theorem lockstep_stuck (expected : List Expected) (cost : Nat) :
    Lockstep P R (stuck expected cost) (stuck expected cost) :=
  fun _ _ _ _ hs => .error _ hs

theorem lockstep_pos : Lockstep P (fun p q => P.exact → p = q) pos pos := by
  intro mode limit s s' hs
  refine .ok (fun hexact => ?_) hs
  simp only [Context.pos, hs.cursor_eq, P.pos_eq hexact]

theorem lockstep_spanFrom (start : Nat) :
    Lockstep P (fun p q => P.exact → p = q) (spanFrom start) (spanFrom start) := by
  intro mode limit s s' hs
  refine .ok (fun hexact => ?_) hs
  simp only [hs.cursor_eq, P.spanBetween_eq hexact]

/-- The same token is next, or none. -/
theorem next?_pairs (mode : Mode) (limit : Nat) {s s' : State} (hs : P.States s s') :
    ((⟨P.left, mode, limit⟩ : Context).next? s = none ∧
        (⟨P.right, mode, limit⟩ : Context).next? s' = none) ∨
      ∃ t u, (⟨P.left, mode, limit⟩ : Context).next? s = some t ∧
        (⟨P.right, mode, limit⟩ : Context).next? s' = some u ∧ TokenPair P.exact t u := by
  have hget := P.get? s.cursor
  rw [Context.next?, Context.next?, hs.cursor_eq]
  exact hget

theorem lockstep_peek :
    Lockstep P (Option.Rel fun t u => t.standard = u.standard) peek peek := by
  intro mode limit s s' hs
  rcases next?_pairs mode limit hs with ⟨hleft, hright⟩ | ⟨t, u, hleft, hright, htu⟩
  · exact .inl ⟨_, _, s, s', rfl, rfl, by rw [hleft, hright]; exact .none, hs⟩
  · exact .inl ⟨_, _, s, s', rfl, rfl, by rw [hleft, hright]; exact .some htu.node, hs⟩

theorem lockstep_atEnd : Lockstep P (· = ·) atEnd atEnd := by
  intro mode limit s s' hs
  rcases next?_pairs mode limit hs with ⟨hleft, hright⟩ | ⟨t, u, hleft, hright, -⟩
  · exact .inl ⟨_, _, s, s', rfl, rfl, by rw [hleft, hright], hs⟩
  · exact .inl ⟨_, _, s, s', rfl, rfl, by rw [hleft, hright]; rfl, hs⟩

/-! ### Values -/

theorem Lockstep.located [SpanEq α] {rule rule' : Rule α} (h : Lockstep P P.Twins rule rule') :
    Lockstep P P.Twins (located rule) (located rule') := by
  refine lockstep_cursor.bind fun start _ hstart => h.bind fun a b hab => ?_
  subst hstart
  refine (lockstep_spanFrom start).map fun p q hpq => ?_
  exact ⟨hab.same, fun hexact => by rw [hab.eq hexact, hpq hexact]⟩

theorem insertion_reports (m : Matcher α) {mode : Mode} {limit : Nat} {s s' : State}
    (hs : P.States s s') :
    P.Reports (insertion m ⟨P.left, mode, limit⟩ s) (insertion m ⟨P.right, mode, limit⟩ s') := by
  have hstands : (insertion m ⟨P.right, mode, limit⟩ s').StandsAt P.right s.cursor := by
    rw [← hs.cursor_eq]
    exact start_insertion m ⟨P.right, mode, limit⟩ s'
  refine ⟨fun hexact => ?_, ⟨s.cursor, start_insertion m _ s, hstands, rfl, ?_⟩, rfl⟩
  · simp only [insertion, Context.pos, hs.cursor_eq, P.pos_eq hexact]
    rcases next?_pairs mode limit hs with
      ⟨hleft, hright⟩ | ⟨t, u, hleft, hright, htu⟩
    · rw [hleft, hright]
    · rw [hleft, hright]
      exact htu.span hexact
  · rw [← hs.hint_eq, ← hs.cursor_eq]
    rfl

theorem lockstep_supply [SpanEq α] (hrefl : ∀ a : α, SpanEq.same a a) (m : Matcher α) :
    Lockstep P P.Twins (supply m) (supply m) := by
  intro mode limit s s' hs
  unfold supply
  rw [isCommitted_eq hs]
  split
  · refine .ok ⟨hrefl m.value, fun hexact => ?_⟩
      ((hs.record (insertion_reports m hs)).with_hint none)
    simp only [Context.pos, hs.cursor_eq, P.pos_eq hexact]
  · exact .error _ hs

theorem lockstep_satisfy [SpanEq α] (hrefl : ∀ a : α, SpanEq.same a a) {m : Matcher α}
    (hblind : Token.Blind m.accept) : Lockstep P P.Twins (satisfy m) (satisfy m) := by
  intro mode limit s s' hs
  have hsupply := lockstep_supply hrefl m mode limit s s' hs
  unfold satisfy
  rcases next?_pairs mode limit hs with
    ⟨hleft, hright⟩ | ⟨t, u, hleft, hright, htu⟩
  · rw [hleft, hright]
    exact hsupply
  · rw [hleft, hright, Option.bind_some, Option.bind_some, hblind.eq htu.node]
    cases m.accept u.node with
    | none => exact hsupply
    | some a =>
      refine .ok ⟨hrefl a, fun hexact => ?_⟩ (hs.advance 1)
      rw [htu.span hexact]

theorem blind_exactly {t : Token} (ht : t.hasTwin = false) :
    Token.Blind (Matcher.exactly t).accept := by
  intro u
  simp only [Matcher.exactly, Token.standard_eq_iff ht]

theorem lockstep_token {t : Token} (ht : t.hasTwin = false) :
    Lockstep P P.Twins (token t) (token t) :=
  (lockstep_satisfy (fun _ => trivial) (blind_exactly ht)).map fun _ _ hab =>
    ⟨trivial, fun hexact => congrArg Located.span (hab.eq hexact)⟩

theorem lockstep_keyword (k : Keyword) (hk : (Token.keyword k).hasTwin = false) :
    Lockstep P P.Twins (keyword k) (keyword k) := lockstep_token hk

theorem lockstep_symbol (k : Symbol) (hk : (Token.symbol k).hasTwin = false) :
    Lockstep P P.Twins (symbol k) (symbol k) := lockstep_token hk

theorem lockstep_oneOf [SpanEq α] (hrefl : ∀ a : α, SpanEq.same a a) {ops : List (Token × α)}
    (hblind : Token.Blind (List.lookup · ops)) : Lockstep P P.Twins (oneOf ops) (oneOf ops) := by
  cases ops with
  | nil => exact lockstep_stuck _ _
  | cons op ops => exact lockstep_satisfy hrefl hblind

theorem lockstep_name : Lockstep P P.Twins name name :=
  lockstep_satisfy (fun _ => rfl) fun t => by unfold Token.standard; split <;> rfl

theorem lockstep_str : Lockstep P P.Twins str str :=
  lockstep_satisfy (fun _ => rfl) fun t => by unfold Token.standard; split <;> rfl

theorem lockstep_number : Lockstep P P.Twins number number :=
  lockstep_satisfy (fun _ => rfl) fun t => by unfold Token.standard; split <;> rfl

theorem lockstep_label : Lockstep P P.Twins label label :=
  lockstep_satisfy (fun _ => rfl) fun t => by unfold Token.standard; split <;> rfl

/-! ### Choice -/

theorem lockstep_firstOf {rules : List (Rule α)} {rules' : List (Rule β)}
    (h : List.Forall₂ (Lockstep P R) rules rules') (mode : Mode) (limit : Nat) {s s' : State}
    (hs : P.States s s') :
    P.Agree R (firstOf rules ⟨P.left, mode, limit⟩ s)
      (firstOf rules' ⟨P.right, mode, limit⟩ s') := by
  induction h generalizing s s' with
  | nil => exact .error [] hs
  | @cons rule rule' rules rules' hrule _ ih =>
    rw [firstOf, firstOf]
    rcases hrule mode limit s s' hs with
      ⟨a, b, t, t', hok, hok', hab, ht⟩ | ⟨why, t, t', herr, herr', ht⟩
    · rw [hok, hok']
      exact .ok hab ht
    · rw [herr, herr']
      dsimp only
      rcases ih (ht.rewind hs) with
        ⟨a, b, v, v', hok, hok', hab, hv⟩ | ⟨failures, v, v', hfail, hfail', hv⟩
      · rw [hok, hok']
        exact .ok hab hv
      · rw [hfail, hfail']
        exact .error _ hv

/-- The same alternative is the cheapest on both sides. -/
theorem cheapest?_pairs {rules : List (Rule α)} {rules' : List (Rule β)}
    (h : List.Forall₂ (Lockstep P R) rules rules') (failures : List Stuck) :
    Option.Rel (Lockstep P R) (cheapest? rules failures) (cheapest? rules' failures) := by
  unfold cheapest?
  generalize (Stuck.join failures).cost = cost
  induction h generalizing failures with
  | nil => exact .none
  | @cons rule rule' rules rules' hrule _ ih =>
    cases failures with
    | nil => exact .none
    | cons failure failures =>
      rw [List.zip_cons_cons, List.zip_cons_cons, List.find?_cons, List.find?_cons]
      dsimp only
      split
      · exact .some hrule
      · exact ih failures

theorem Lockstep.hinted (h : Lockstep P R rule rule') (expected : List Expected) :
    Lockstep P R (hinted expected rule) (hinted expected rule') := by
  intro mode limit s s' hs
  unfold Rule.hinted
  rw [hs.hint_eq]
  split
  · exact h mode limit s s' hs
  · rcases h mode limit _ _ (hs.with_hint (some expected)) with
      ⟨a, b, t, t', hok, hok', hab, ht⟩ | ⟨why, t, t', herr, herr', ht⟩
    · rw [hok, hok']
      exact .ok hab (ht.with_hint none)
    · rw [herr, herr']
      exact .error why (ht.with_hint none)

theorem Lockstep.alt {rules : List (Rule α)} {rules' : List (Rule β)}
    (h : List.Forall₂ (Lockstep P R) rules rules') : Lockstep P R (alt rules) (alt rules') := by
  intro mode limit s s' hs
  obtain ⟨mode', hleft, hright⟩ := speculating_eq mode limit hs
  unfold Rule.alt
  rw [hleft, hright]
  rcases lockstep_firstOf h mode' limit hs with
    ⟨a, b, t, t', hok, hok', hab, ht⟩ | ⟨failures, t, t', hfail, hfail', ht⟩
  · rw [hok, hok']
    exact .ok hab ht
  · rw [hfail, hfail', isCommitted_eq hs]
    dsimp only
    have hcheapest := cheapest?_pairs h failures
    generalize cheapest? rules failures = r at hcheapest ⊢
    generalize cheapest? rules' failures = r' at hcheapest ⊢
    cases hcheapest with
    | none => exact .error _ ht
    | some hrule =>
      by_cases hc : (⟨P.left, mode, limit⟩ : Context).isCommitted s = true
      · simp only [if_pos hc]
        exact hrule.hinted _ mode limit t t' ht
      · simp only [if_neg hc]
        exact .error _ ht

theorem Lockstep.optional (h : Lockstep P R rule rule') :
    Lockstep P (Option.Rel R) (optional rule) (optional rule') := by
  intro mode limit s s' hs
  obtain ⟨mode', hleft, hright⟩ := speculating_eq mode limit hs
  unfold Rule.optional
  rw [hleft, hright]
  rcases h mode' limit s s' hs with
    ⟨a, b, t, t', hok, hok', hab, ht⟩ | ⟨why, t, t', herr, herr', ht⟩
  · rw [hok, hok']
    exact .ok (.some hab) ht
  · rw [herr, herr']
    exact .ok .none (ht.rewind hs)

theorem Lockstep.attempt (h : Lockstep P R rule rule') :
    Lockstep P R (attempt rule) (attempt rule') := by
  intro mode limit s s' hs
  unfold Rule.attempt
  rw [isCommitted_eq hs]
  split
  · exact h mode limit s s' hs
  · rcases h .strict limit s s' hs with
      ⟨a, b, t, t', hok, hok', hab, ht⟩ | ⟨why, t, t', herr, herr', ht⟩
    · rw [hok, hok']
      exact .ok hab ht
    · rw [herr, herr']
      exact .error why (ht.rewind hs)

/-! ### Loops -/

/-- Rounds of a loop that find corresponding items and go on equally long. -/
def Rounds (R : α → β → Prop) : Option (α × Bool) → Option (β × Bool) → Prop :=
  Option.Rel fun x y => R x.1 y.1 ∧ x.2 = y.2

theorem Lockstep.collect {step : Rule (Option (α × Bool))} {step' : Rule (Option (β × Bool))}
    (h : Lockstep P (Rounds R) step step') :
    Lockstep P (List.Forall₂ R) (collect step) (collect step') := by
  intro mode limit s s' hs
  induction hn : (⟨P.left, mode, limit⟩ : Context).remaining s using Nat.strongRecOn
    generalizing s s' with
  | ind n ih =>
    rw [Rule.collect, Rule.collect]
    rcases h mode limit s s' hs with
      ⟨r, r', t, t', hok, hok', hround, ht⟩ | ⟨why, t, t', herr, herr', ht⟩
    · rw [hok, hok']
      cases hround with
      | none => exact .ok .nil ht
      | @some x y hxy =>
        obtain ⟨a, more⟩ := x
        obtain ⟨b, more'⟩ := y
        obtain ⟨hab, hmore⟩ := hxy
        dsimp only at hab hmore
        subst hmore
        cases more with
        | false => exact .ok (.cons hab .nil) ht
        | true =>
          simp only [remaining_eq hs, remaining_eq ht, hn]
          by_cases hlt : (⟨P.left, mode, limit⟩ : Context).remaining t < n
          · rw [if_pos hlt, if_pos hlt]
            rcases ih _ hlt t t' ht rfl with
              ⟨as, bs, v, v', hloop, hloop', hlist, hv⟩ | ⟨why, v, v', hloop, hloop', hv⟩
            · rw [hloop, hloop']
              exact .ok (.cons hab hlist) hv
            · rw [hloop, hloop']
              exact .error why hv
          · rw [if_neg hlt, if_neg hlt]
            exact .ok .nil ht
    · rw [herr, herr']
      exact .error why ht

theorem Lockstep.many (h : Lockstep P R rule rule') :
    Lockstep P (List.Forall₂ R) (many rule) (many rule') := by
  refine Lockstep.collect (h.optional.map fun r r' hr => ?_)
  cases hr with
  | none => exact .none
  | some hab => exact .some ⟨hab, rfl⟩

theorem Lockstep.sepBy1 {separator : Rule γ} {separator' : Rule δ} (h : Lockstep P R rule rule')
    (hseparator : Lockstep P S separator separator') :
    Lockstep P (List.Forall₂ R) (sepBy1 rule separator) (sepBy1 rule' separator') :=
  h.bind fun _ _ hab => (hseparator.bind fun _ _ _ => h).many.map fun _ _ hlist => .cons hab hlist

/-! ### Skipping -/

theorem lockstep_skipTokens (count : Nat) (expected : List Expected) :
    Lockstep P (fun _ _ => True) (skipTokens count expected) (skipTokens count expected) := by
  intro mode limit s s' hs
  simp only [skipTokens, remaining_eq hs, hs.cursor_eq]
  by_cases hskipped : min count ((⟨P.left, mode, limit⟩ : Context).remaining s) = 0
  · rw [if_pos hskipped, if_pos hskipped]
    exact .ok trivial hs
  · rw [if_neg hskipped, if_neg hskipped]
    refine .ok trivial ((hs.advance _).record ?_)
    refine ⟨fun hexact => P.spanBetween_eq hexact _ _, ⟨s.cursor, rfl, rfl, rfl, ?_⟩, rfl⟩
    rw [← hs.cursor_eq]
    rfl

theorem blind_endsLevel (separators : Bool) : Token.Blind (endsLevel separators) := by
  refine (Token.blind_closesNesting.or Token.blind_endsBlock).or ?_
  exact ((Token.Blind.beq rfl).or (Token.Blind.beq rfl)).comp (separators && ·)

theorem levelLength_pairs (separators : Bool) {ts us : List Token}
    (h : List.Forall₂ (fun t u : Token => t.standard = u.standard) ts us) (depth : Nat) :
    levelLength separators depth us = levelLength separators depth ts := by
  induction h generalizing depth with
  | nil => rfl
  | @cons t u ts us htu _ ih =>
    have hdepth : depthAfter depth u = depthAfter depth t := by
      unfold depthAfter
      rw [Token.blind_opensNesting.eq htu, Token.blind_closesNesting.eq htu]
    rw [levelLength, levelLength, (blind_endsLevel separators).eq htu, hdepth, ih]

theorem lockstep_skipLevel (separators : Bool) :
    Lockstep P (Option.Rel P.Twins) (skipLevel separators) (skipLevel separators) := by
  intro mode limit s s' hs
  simp only [skipLevel, hs.cursor_eq, levelLength_pairs separators (P.rest_pairs s.cursor)]
  split
  · exact .ok .none hs
  · have hspan := fun hexact => P.spanBetween_eq hexact s.cursor (s.cursor +
      levelLength separators 0 ((P.left.rest s.cursor).map (·.node)))
    exact .ok (.some ⟨trivial, hspan⟩) ((hs.advance _).record ⟨hspan, rfl, rfl⟩)

theorem lockstep_endOfInput : Lockstep P (fun _ _ => True) endOfInput endOfInput := by
  intro mode limit s s' hs
  have hskip := lockstep_skipTokens ((⟨P.left, mode, limit⟩ : Context).remaining s)
    [.named "end of input"] mode limit s s' hs
  unfold endOfInput
  rw [isCommitted_eq hs, remaining_eq hs]
  rcases next?_pairs mode limit hs with
    ⟨hleft, hright⟩ | ⟨t, u, hleft, hright, -⟩
  · rw [hleft, hright]
    exact .ok trivial hs
  · rw [hleft, hright]
    simp only [Option.isNone_some, Bool.false_eq_true, if_false]
    split
    · exact hskip
    · exact .error _ hs

/-! ### Running a rule -/

theorem failure_reports (why : Stuck) {mode : Mode} {limit : Nat} {s s' : State}
    (hs : P.States s s') :
    P.Reports (failure ⟨P.left, mode, limit⟩ why s) (failure ⟨P.right, mode, limit⟩ why s') := by
  have hstands : (failure ⟨P.right, mode, limit⟩ why s').StandsAt P.right s.cursor := by
    rw [← hs.cursor_eq]
    rfl
  refine ⟨fun hexact => ?_, ⟨s.cursor, rfl, hstands, rfl, ?_⟩, rfl⟩
  · simp only [failure, Context.pos, hs.cursor_eq, P.pos_eq hexact]
  · rw [← hs.cursor_eq]
    rfl

/-- Runs in lockstep give corresponding values and report the same, one by one. -/
theorem Lockstep.run (h : Lockstep P R rule rule') (limit : Nat) {fallback : α} {fallback' : β}
    (hfallback : R fallback fallback') :
    R (rule.run P.left limit fallback).1 (rule'.run P.right limit fallback').1 ∧
      List.Forall₂ P.Reports (rule.run P.left limit fallback).2
        (rule'.run P.right limit fallback').2 := by
  unfold Rule.run start
  dsimp only
  rcases h .committed limit initial initial (.intro 0 none .nil) with
    ⟨a, b, s, s', hrun, hrun', hab, hs⟩ | ⟨why, s, s', hrun, hrun', hs⟩
  · rw [hrun, hrun']
    rcases lockstep_endOfInput .committed limit s s' hs with
      ⟨_, _, t, t', hend, hend', -, ht⟩ | ⟨_, t, t', hend, hend', ht⟩ <;>
    · simp only [hend, hend']
      exact ⟨hab, List.forall₂_reverse_iff.2 ht.diags⟩
  · rw [hrun, hrun']
    have hfailed : P.States (s.record (failure ⟨P.left, .committed, limit⟩ why s))
        (s'.record (failure ⟨P.right, .committed, limit⟩ why s')) :=
      hs.record (failure_reports why hs)
    rcases lockstep_endOfInput .committed limit _ _ hfailed with
      ⟨_, _, t, t', hend, hend', -, ht⟩ | ⟨_, t, t', hend, hend', ht⟩ <;>
    · simp only [hend, hend']
      exact ⟨hfallback, List.forall₂_reverse_iff.2 ht.diags⟩

end Rule

end LuaSyntax
