import LuaSyntax.Grammar.Expr
import LuaSyntax.Proofs.Grammar.ExprSound
import LuaSyntax.Proofs.Grammar.Heads
import LuaSyntax.Proofs.Rule.Reads
import LuaSyntax.Proofs.Tree.Same
/-!
# What the expression rules read

One lemma for each rule: it reads what is derived in its place, and gives the same tree up to spans.
-/

namespace LuaSyntax.Grammar

open Rule Operator LuaSyntax.Language

/-- The next token, if there is one, goes on with an expression less tightly than `n`. -/
def Looser (n : Nat) (next : Option Token) : Prop := ∀ t, next = some t → t.tightness < n

theorem Looser.mono {m n : Nat} {next : Option Token} (h : Looser m next) (hmn : m ≤ n) :
    Looser n next :=
  fun t ht => Nat.lt_of_lt_of_le (h t ht) hmn

theorem looser_some {n : Nat} {t : Token} (h : t.tightness < n) : Looser n (some t) := by
  rintro u ⟨⟩
  exact h

/-- The next token, if there is one, ends the block. -/
def BlockEnds (next : Option Token) : Prop := ∀ t, next = some t → t.endsBlock = true

/-- The rules of the level read what is derived in the language. -/
structure Level.Complete (L : Language) (inner : Level) : Prop where
  expr : ∀ {ts : List Token} {e : Expr}, L.expr ts e →
    Reads inner.expr ts (Looser 1) fun a => a.node.same e = true
  begins : ∀ {ts : List Token} {e : Expr}, L.expr ts e → Begins Token.startsExpr ts
  needs : Needs (fun t => !endsLevel true t) inner.expr
  block : ∀ {ts : List Token} {b : Block}, L.block ts b →
    Reads inner.block ts BlockEnds fun a => a.same b = true

variable {α β γ : Type} {L : Language} {inner : Level} {ts us : List Token}
  {follow : Option Token → Prop}

/-! ### Names and lists -/

section

variable {item : Rule (Located β)} {derived : List Token → α → Prop} {R : β → α → Prop}
  {separator : Symbol}

theorem reads_no_others : Reads (many do let _ ← symbol separator; item) []
    (fun next => follow next ∧ next ≠ some (.symbol separator)) (· = []) := by
  have hnone : Needs (· == .symbol separator) (do let _ ← symbol separator; item) :=
    (needs_symbol separator).bind
  refine hnone.many.mono_follow fun next hnext t ht => ?_
  rw [beq_eq_false_iff_ne]
  rintro rfl
  exact hnext.2 ht

/-- Items after the first one, each with a separator before it. -/
theorem reads_others {as : List (Located α)}
    (h : ∀ {ts a}, derived ts a → Reads item ts follow fun b => R b.node a)
    (hseparator : follow (some (.symbol separator))) (has : Listed separator derived ts as) :
    Reads (many do let _ ← symbol separator; item) (.symbol separator :: ts)
      (fun next => follow next ∧ next ≠ some (.symbol separator))
      fun bs => List.Forall₂ (fun b a => R b.node a.node) bs as := by
  have hitem {ts : List Token} {a : α} (ha : derived ts a) :
      Reads (do let _ ← symbol separator; item) (.symbol separator :: ts) follow
        fun b => R b.node a :=
    reads_token_bind fun _ => h ha
  induction has with
  | @one ts a ha =>
    have hmore := Reads.many_cons (by simp) (hitem ha) reads_no_others fun vs hvs => hvs.1
    rw [List.append_nil] at hmore
    refine hmore.mono ?_
    rintro _ ⟨b, _, rfl, hb, rfl⟩
    exact .cons hb .nil
  | @more ts us a as ha _ ih =>
    refine (Reads.many_cons (by simp) (hitem ha) ih fun vs _ => hseparator).mono ?_
    rintro _ ⟨b, bs, rfl, hb, hbs⟩
    exact .cons hb hbs

theorem reads_sepBy1 {as : List (Located α)}
    (h : ∀ {ts a}, derived ts a → Reads item ts follow fun b => R b.node a)
    (hseparator : follow (some (.symbol separator))) (has : Listed separator derived ts as) :
    Reads (sepBy1 item (symbol separator)) ts
      (fun next => follow next ∧ next ≠ some (.symbol separator))
      fun bs => List.Forall₂ (fun b a => R b.node a.node) bs as := by
  cases has with
  | @one ts a ha =>
    refine ((h ha).mono_follow fun next hnext => hnext.1).bind_last fun b hb => ?_
    refine reads_no_others.bind_last ?_
    rintro _ rfl
    exact .pure (.cons hb .nil)
  | @more ts us a as ha has =>
    refine (h ha).bind_before hseparator fun b hb => ?_
    exact (reads_others h hseparator has).bind_last fun bs hbs => .pure (.cons hb hbs)

end

theorem reads_names {ns : List (Located Name)} {separator : Symbol}
    (h : Listed separator IsName ts ns) :
    Reads (sepBy1 name (symbol separator)) ts (· ≠ some (.symbol separator))
      fun ms => sameNodes ms ns = true := by
  have hname : ∀ {ts : List Token} {n : Name}, IsName ts n →
      Reads name ts (fun _ => True) fun m => m.node = n := by
    intro ts n hn
    cases hn
    exact reads_name n
  exact ((reads_sepBy1 (R := Eq) hname trivial h).mono fun ms hms =>
    sameNodes_iff.2 hms).mono_follow fun next hnext => ⟨trivial, hnext⟩

/-- What may follow a list of expressions. -/
def ListEnds (next : Option Token) : Prop := Looser 1 next ∧ next ≠ some (.symbol .comma)

theorem reads_exprList (h : inner.Complete L) {es : List (Located Expr)}
    (hes : Listed .comma L.expr ts es) :
    Reads (exprList inner) ts ListEnds fun fs => sameExprs fs es = true :=
  (reads_sepBy1 (R := fun a e => a.same e = true) h.expr (looser_some (by decide)) hes).mono
    fun _ hfs => sameExprs_iff.2 hfs

theorem needs_exprList (h : inner.Complete L) :
    Needs (fun t => !endsLevel true t) (exprList inner) := h.needs.bind

/-! ### Functions -/

theorem guarded_param : Guarded [((· matches .ident _), Param.name <$> name),
    ((· == .symbol .ellipsis), Param.vararg <$> symbol .ellipsis)] := by
  simp only [Guarded, List.forall_mem_cons]
  exact ⟨needs_name.map, (needs_symbol _).map, by simp⟩

theorem reads_param_name (n : Name) :
    Reads param [.ident n] follow fun p => ∃ m, p = .name m ∧ m.node = n :=
  guarded_param.reads rfl rfl ((reads_name n).map fun m hm => ⟨m, rfl, hm⟩)

theorem reads_param_vararg :
    Reads param [.symbol .ellipsis] follow fun p => ∃ span, p = .vararg span :=
  guarded_param.reads rfl rfl ((reads_token _).map fun span _ => ⟨span, rfl⟩)

/-- The end of a parameter list that has names: nothing, or a last `...`. -/
def ParamsEnd (ts : List Token) (vararg : Bool) : Prop :=
  (ts = [] ∧ vararg = false) ∨ (ts = [.symbol .comma, .symbol .ellipsis] ∧ vararg = true)

/-- What a list of parameters has to give for these names. -/
def GivesParams (ns : List (Located Name)) (vararg : Bool) (ps : List Param) : Prop :=
  sameNodes (ps.filterMap (·.name?)) ns = true ∧ (ps.findSome? (·.vararg?)).isSome = vararg

theorem GivesParams.cons {ns : List (Located Name)} {vararg : Bool} {ps : List Param}
    {m n : Located Name} (h : GivesParams ns vararg ps) (hm : m.node = n.node) :
    GivesParams (n :: ns) vararg (.name m :: ps) := by
  refine ⟨?_, h.2⟩
  have hrest := h.1
  rw [sameNodes, beq_iff_eq] at hrest ⊢
  show (m :: ps.filterMap (·.name?)).map (·.node) = _
  rw [List.map_cons, List.map_cons, hm, hrest]

section

/-- A round of the loop over the parameters after the first one. -/
abbrev nextParam : Rule (Option (Param × Bool)) := do
  let next ← optional do
    let _ ← symbol .comma
    param
  return next.map fun p => (p, p.isName)

theorem reads_paramsEnd {vararg : Bool} (h : ParamsEnd ts vararg) :
    Reads (collect nextParam) ts (· = some (.symbol .closeParen)) (GivesParams [] vararg) := by
  rcases h with ⟨rfl, rfl⟩ | ⟨rfl, rfl⟩
  · have hneeds : Needs (· == .symbol .comma) (do let _ ← symbol .comma; param) :=
      (needs_symbol _).bind
    have hround : Reads nextParam [] (· = some (.symbol .closeParen)) (· = none) := by
      refine (hneeds.optional.mono_follow ?_).bind_last ?_
      · rintro _ rfl
        exact without_some rfl
      · rintro _ rfl
        exact .pure rfl
    refine hround.collect_none.mono ?_
    rintro _ rfl
    exact ⟨rfl, rfl⟩
  · have hround : Reads nextParam [.symbol .comma, .symbol .ellipsis]
        (· = some (.symbol .closeParen))
        fun r => ∃ p, r = some (p, false) ∧ ∃ span, p = .vararg span := by
      refine (Reads.optional (reads_token_bind fun _ => reads_param_vararg)).bind_last ?_
      rintro _ ⟨_, rfl, span, rfl⟩
      exact .pure ⟨_, rfl, span, rfl⟩
    refine hround.collect_last.mono ?_
    rintro _ ⟨_, rfl, span, rfl⟩
    exact ⟨rfl, rfl⟩

theorem reads_nextParam (n : Name) :
    Reads nextParam [.symbol .comma, .ident n] (fun _ => True)
      fun r => ∃ p, r = some (p, true) ∧ ∃ m, p = .name m ∧ m.node = n := by
  refine (Reads.optional (reads_token_bind fun _ => reads_param_name n)).bind_last ?_
  rintro _ ⟨_, rfl, m, rfl, hm⟩
  exact .pure ⟨_, rfl, m, rfl, hm⟩

theorem reads_moreParams {vararg : Bool} {ns : List (Located Name)}
    (h : Listed .comma IsName ts ns) (hend : ParamsEnd us vararg) :
    Reads (collect nextParam) (.symbol .comma :: ts ++ us) (· = some (.symbol .closeParen))
      (GivesParams ns vararg) := by
  induction h with
  | one h =>
    cases h
    refine (Reads.collect_more (by simp) (reads_nextParam _) (reads_paramsEnd hend)
      fun _ _ => trivial).mono ?_
    rintro _ ⟨_, ps, rfl, ⟨m, rfl, hm⟩, hps⟩
    exact hps.cons hm
  | more h _ ih =>
    cases h
    refine (Reads.collect_more (by simp) (reads_nextParam _) ih fun _ _ => trivial).mono ?_
    rintro _ ⟨_, ps, rfl, ⟨m, rfl, hm⟩, hps⟩
    exact hps.cons hm

theorem reads_params_names {vararg : Bool} {ns : List (Located Name)}
    (h : Listed .comma IsName ts ns) (hend : ParamsEnd us vararg) :
    Reads params (ts ++ us) (· = some (.symbol .closeParen)) (GivesParams ns vararg) := by
  cases h with
  | one h =>
    cases h
    refine (Reads.optional (reads_param_name _)).bind_any ?_
    rintro _ ⟨_, rfl, m, rfl, hm⟩
    exact (reads_paramsEnd hend).bind_last fun ps hps => .pure (hps.cons hm)
  | more h hrest =>
    cases h
    refine (Reads.optional (reads_param_name _)).bind_any ?_
    rintro _ ⟨_, rfl, m, rfl, hm⟩
    exact (reads_moreParams hrest hend).bind_last fun ps hps => .pure (hps.cons hm)

end

theorem reads_params {ns : List (Located Name)} {vararg : Option Span} (h : Params ts ns vararg) :
    Reads params ts (· = some (.symbol .closeParen)) (GivesParams ns vararg.isSome) := by
  cases h with
  | none =>
    refine (guarded_param.needs.optional.mono_follow ?_).bind_last ?_
    · rintro _ rfl
      exact without_some rfl
    · rintro _ rfl
      exact .pure ⟨rfl, rfl⟩
  | names h =>
    have hnames := reads_params_names h (show ParamsEnd [] false from .inl ⟨rfl, rfl⟩)
    rwa [List.append_nil] at hnames
  | vararg span =>
    refine (Reads.optional reads_param_vararg).bind_last ?_
    rintro _ ⟨_, rfl, span, rfl⟩
    exact .pure ⟨rfl, rfl⟩
  | namesVararg h span => exact reads_params_names h (.inr ⟨rfl, rfl⟩)

theorem reads_funcBody (h : inner.Complete L) {f : FuncBody} (hf : Func L ts f) :
    Reads (funcBody inner) ts follow fun g => g.same f = true := by
  cases hf with
  | @intro ps bs names vararg body hparams hbody =>
    have hread : Reads (funcBody inner)
        (.symbol .openParen :: (ps ++ .symbol .closeParen :: (bs ++ [.keyword .end_]))) follow
        fun g => g.same ⟨names, vararg, body⟩ = true := by
      refine reads_token_bind fun _ => (reads_params hparams).bind_before rfl fun params hps =>
        reads_token_bind fun _ => (h.block hbody).bind_before ?_ fun b hb =>
        reads_token_bind fun _ => .pure ?_
      · rintro _ ⟨⟩
        rfl
      · simp [FuncBody.same, hps.1, hps.2, hb]
    simpa using hread

theorem reads_functionExpr (h : inner.Complete L) {f : FuncBody} (hf : Func L ts f) :
    Reads (functionExpr inner) (.keyword .function_ :: ts) follow
      fun a => a.node.same (.function f) = true := by
  refine Reads.located (P := fun e : Expr => e.same (.function f) = true) ?_
  exact reads_token_bind fun _ => (reads_funcBody h hf).bind_last fun _ hg => .pure hg

/-! ### Tables -/

theorem reads_keyedField (h : inner.Complete L) {ks vs : List Token} {key value : Located Expr}
    (hkey : L.expr ks key.node) (hvalue : L.expr vs value.node) :
    Reads (keyedField inner)
      (.symbol .openBracket :: ks ++ .symbol .closeBracket :: .symbol .equal :: vs) (Looser 1)
      fun f => f.same (.keyed key value) = true :=
  reads_token_bind fun _ => (h.expr hkey).bind_before (looser_some (by decide)) fun k hk =>
    reads_token_bind fun _ => reads_token_bind fun _ => (h.expr hvalue).bind_last fun v hv =>
    .pure (by simp [Field.same, hk, hv])

/-- The lookahead sees the name and the `=`. -/
theorem reads_fieldName (n : Name) :
    Reads fieldName [.ident n, .symbol .equal] follow fun m => m.node = n := by
  intro c s us hs (hahead : c.ahead s = [.ident n] ++ .symbol .equal :: us) _
  obtain ⟨t, ht, hname⟩ := c.exists_next? hahead
  have hahead' : c.ahead (s.advance 1) = .symbol .equal :: us := c.ahead_of_read hahead rfl
  obtain ⟨u, hu, hequal⟩ := c.exists_next? hahead'
  have hrun : ∀ c' : Context, c'.stream = c.stream →
      (do let n ← name; let _ ← symbol .equal; return n : Rule (Located Name)) c' s =
        .ok ⟨n, t.span⟩ ((s.advance 1).advance 1) := by
    intro c' hstream
    have hfound : c'.next? s = some t := by rw [Context.next?, hstream]; exact ht
    have hfound' : c'.next? (s.advance 1) = some u := by rw [Context.next?, hstream]; exact hu
    have hread : name c' s = .ok ⟨n, t.span⟩ (s.advance 1) :=
      satisfy_of_accept hfound (by rw [hname]; rfl)
    have hread' : satisfy (.exactly (.symbol .equal)) c' (s.advance 1) =
        .ok ⟨(), u.span⟩ ((s.advance 1).advance 1) :=
      satisfy_of_accept hfound' (by rw [hequal]; rfl)
    simp [bind_apply, map_apply, symbol, token, hread, hread']
  refine ⟨⟨n, t.span⟩, (s.advance 1).advance 1, ?_, rfl, rfl, .refl s⟩
  unfold fieldName attempt
  split
  · exact hrun c rfl
  · rw [hrun { c with mode := .strict } rfl]

/-- The lookahead is stuck unless it sees a name and an `=`. -/
theorem refuses_fieldName
    (h : ∀ name us, ts = .ident name :: us → us.head? ≠ some (.symbol .equal)) :
    Refuses fieldName ts := by
  intro c s _ hc hahead
  rw [fieldName, attempt, if_neg (by simp [hc])]
  rcases satisfy_of_strict (m := .name) (c := { c with mode := .strict }) (s := s) rfl with
    ⟨t, n, found, accepted, hname⟩ | ⟨why, hname⟩
  · have ht : t.node = .ident n := by
      cases hnode : t.node <;> simp_all [Matcher.name]
    have hhead := c.map_next? s
    rw [show c.next? s = some t from found, hahead, Option.map_some, ht] at hhead
    obtain ⟨us, rfl⟩ := List.head?_eq_some_iff.1 hhead.symm
    have hread : c.ahead s = [.ident n] ++ us := hahead
    have hahead' : c.ahead (s.advance 1) = us := c.ahead_of_read hread rfl
    rcases satisfy_of_strict (m := .exactly (.symbol .equal)) (c := { c with mode := .strict })
      (s := s.advance 1) rfl with ⟨u, _, found', accepted', -⟩ | ⟨why, hequal⟩
    · have hu : u.node = .symbol .equal := by simpa [Matcher.exactly] using accepted'
      have hhead' := c.map_next? (s.advance 1)
      rw [show c.next? (s.advance 1) = some u from found', hahead', Option.map_some, hu] at hhead'
      exact absurd hhead'.symm (h n us rfl)
    · refine ⟨why, ?_⟩
      simp [bind_apply, map_apply, name, symbol, token, hname, hequal, State.rewind]
      rfl
  · exact ⟨why, by simp [bind_apply, name, hname, State.rewind]⟩

theorem needs_fieldName : Needs (· matches .ident _) fieldName := by
  refine fun ts hts => refuses_fieldName ?_
  rintro name us rfl
  cases hts _ rfl

theorem reads_namedField (h : inner.Complete L) {vs : List Token} (n : Located Name)
    {value : Located Expr} (hvalue : L.expr vs value.node) :
    Reads (namedField inner) (.ident n.node :: .symbol .equal :: vs) (Looser 1)
      fun f => f.same (.named n value) = true := by
  refine (reads_fieldName n.node).bind_any fun m hm =>
    (h.expr hvalue).bind_last fun v hv => .pure ?_
  simp [Field.same, Located.sameNode, hm, hv]

theorem reads_positionalField (h : inner.Complete L) {value : Located Expr}
    (hvalue : L.expr ts value.node) :
    Reads (positionalField inner) ts (Looser 1) fun f => f.same (.positional value) = true :=
  (h.expr hvalue).bind_last fun _ hv => .pure hv

/-- What may follow a field: no part of an expression, and no `=`. -/
def FieldEnds (next : Option Token) : Prop := Looser 1 next ∧ next ≠ some (.symbol .equal)

theorem needs_keyedField (inner : Level) :
    Needs (· == .symbol .openBracket) (keyedField inner) := (needs_symbol _).bind

theorem needs_namedField (inner : Level) : Needs (· matches .ident _) (namedField inner) :=
  needs_fieldName.bind

theorem reads_field (h : inner.Complete L) {f : Field} (hf : IsField L ts f) :
    Reads (field inner) ts FieldEnds fun g => g.node.same f = true := by
  refine Reads.located (P := fun g : Field => g.same f = true) ?_
  cases hf with
  | keyed hkey hvalue =>
    exact .alt [] ((reads_keyedField h hkey hvalue).mono_follow fun _ hn => hn.1) (by simp)
  | named n hvalue =>
    refine .alt [keyedField inner]
      ((reads_namedField h n hvalue).mono_follow fun _ hn => hn.1) fun us _ => ?_
    simp only [List.forall_mem_singleton]
    exact (needs_keyedField inner).refuses rfl rfl
  | positional hvalue =>
    have hbegins := h.begins hvalue
    refine .alt [keyedField inner, namedField inner]
      ((reads_positionalField h hvalue).mono_follow fun _ hn => hn.1) fun us hus => ?_
    simp only [List.forall_mem_cons]
    obtain ⟨t, ht, hstart⟩ := hbegins.head
    refine ⟨(needs_keyedField inner).refuses (by rw [List.head?_append, ht]; rfl) ?_,
      (refuses_fieldName (hbegins.append hus.2).not_named).bind, by simp⟩
    rw [beq_eq_false_iff_ne]
    rintro rfl
    cases hstart

theorem needs_field (h : inner.Complete L) :
    Needs (fun t => !endsLevel true t) (field inner) := by
  refine .located (.alt ?_)
  simp only [List.forall_mem_cons]
  refine ⟨(needs_keyedField inner).mono ?_, (needs_namedField inner).mono ?_, h.needs.bind, by simp⟩
  · intro t ht
    rw [beq_iff_eq.1 ht]
    rfl
  · intro t ht
    cases t <;> first | rfl | cases ht

/-- A round of the loop over the fields. -/
abbrev fieldRound (inner : Level) : Rule (Option (Located Field × Bool)) := do
  match ← optional (field inner) with
  | none => return none
  | some f => return some (f, (← optional fieldSeparator).isSome)

theorem needs_fieldSeparator :
    Needs (fun t => (t == .symbol .comma || t == .symbol .semicolon)) fieldSeparator := by
  refine (needs_oneOf _).mono fun t ht => ?_
  simpa [List.lookup_isSome_iff] using ht

theorem reads_fields (h : inner.Complete L) {fs : List (Located Field)} (hfs : Fields L ts fs) :
    Reads (fields inner) ts (· = some (.symbol .closeBrace)) fun gs => sameFields gs fs = true := by
  have hends : ∀ next, next = some (.symbol .closeBrace) → FieldEnds next := by
    rintro _ rfl
    exact ⟨looser_some (by decide), by simp⟩
  induction hfs with
  | nil =>
    have hround : Reads (fieldRound inner) [] (· = some (.symbol .closeBrace)) (· = none) := by
      refine ((needs_field h).optional.mono_follow ?_).bind_last ?_
      · rintro _ rfl
        exact without_some rfl
      · rintro _ rfl
        exact .pure rfl
    refine hround.collect_none.mono ?_
    rintro _ rfl
    rfl
  | @last ts f hf =>
    have hround : Reads (fieldRound inner) ts (· = some (.symbol .closeBrace))
        fun r => ∃ g, r = some (g, false) ∧ g.node.same f.node = true := by
      refine ((reads_field h hf).optional.mono_follow hends).bind_last ?_
      rintro _ ⟨g, rfl, hg⟩
      refine (needs_fieldSeparator.optional.mono_follow ?_).bind_last ?_
      · rintro _ rfl
        exact without_some rfl
      · rintro _ rfl
        exact .pure ⟨g, rfl, hg⟩
    refine hround.collect_last.mono ?_
    rintro _ ⟨g, rfl, hg⟩
    simp [sameFields, hg]
  | @more ts us f fs separator hf hseparator hrest ih =>
    have hread : Reads fieldSeparator [.symbol separator] (fun _ => True) fun _ => True := by
      rcases hseparator with rfl | rfl
      · exact (reads_oneOf rfl).mono fun _ _ => trivial
      · exact (reads_oneOf rfl).mono fun _ _ => trivial
    have hround : Reads (fieldRound inner) (ts ++ [.symbol separator]) (fun _ => True)
        fun r => ∃ g, r = some (g, true) ∧ g.node.same f.node = true := by
      refine (reads_field h hf).optional.bind_before ?_ ?_
      · rcases hseparator with rfl | rfl
        · exact ⟨looser_some (by decide), by simp⟩
        · exact ⟨looser_some (by decide), by simp⟩
      · rintro _ ⟨g, rfl, hg⟩
        refine hread.optional.bind_last ?_
        rintro _ ⟨_, rfl, -⟩
        exact .pure ⟨g, rfl, hg⟩
    have hmore := Reads.collect_more (by simp) hround ih fun _ _ => trivial
    rw [List.append_assoc] at hmore
    refine hmore.mono ?_
    rintro _ ⟨g, gs, rfl, hg, hgs⟩
    simp [sameFields, hg, hgs]

theorem reads_table (h : inner.Complete L) {fs : List (Located Field)} (hfs : Table L ts fs) :
    Reads (table inner) ts follow fun gs => sameFields gs.node fs = true := by
  cases hfs with
  | intro hfs =>
    refine Reads.located (P := fun gs : List (Located Field) => sameFields gs fs = true) ?_
    refine reads_token_bind fun _ => (reads_fields h hfs).bind_before rfl fun gs hgs =>
      reads_token_bind fun _ => .pure hgs

/-! ### Names, calls and indexes -/

theorem guarded_head (inner : Level) : Guarded [((· matches .ident _), nameHead),
    ((· == .symbol .openParen), parenHead inner)] := by
  simp only [Guarded, List.forall_mem_cons]
  exact ⟨needs_name.bind, ((needs_symbol _).bind).located, by simp⟩

theorem reads_head (h : inner.Complete L) {a : Head} (ha : IsHead L ts a) :
    Reads (head inner) ts follow fun b => b.node.same a = true := by
  cases ha with
  | name n =>
    refine (guarded_head inner).reads rfl rfl ((reads_name n).bind_last fun m hm => .pure ?_)
    simp [Head.same, hm]
  | paren he =>
    refine (guarded_head inner).reads rfl rfl ?_
    refine Reads.located (P := fun b : Head => b.same _ = true) ?_
    exact reads_token_bind fun _ => (h.expr he).bind_before (looser_some (by decide)) fun e he' =>
      reads_token_bind fun _ => .pure he'

theorem guarded_args (inner : Level) : Guarded [((· == .symbol .openParen), listArgs inner),
    ((· == .symbol .openBrace), tableArgs inner), ((· matches .str _), strArgs)] := by
  simp only [Guarded, List.forall_mem_cons]
  exact ⟨(needs_symbol _).bind, ((needs_symbol _).bind).located.bind, needs_str.bind, by simp⟩

theorem reads_args (h : inner.Complete L) {a : Args} (ha : IsArgs L ts a) :
    Reads (args inner) ts follow fun b => b.node.same a = true := by
  refine Reads.located (P := fun b : Args => b.same a = true) ?_
  cases ha with
  | empty =>
    refine (guarded_args inner).reads rfl rfl (reads_token_bind fun _ => ?_)
    refine (needs_exprList h).optional.bind_first ?_ ?_
    · rintro _ rfl
      exact reads_token_bind fun _ => .pure rfl
    · exact fun _ _ => without_some rfl
  | list hes =>
    refine (guarded_args inner).reads rfl rfl (reads_token_bind fun _ => ?_)
    refine (reads_exprList h hes).optional.bind_before ⟨looser_some (by decide), by simp⟩ ?_
    rintro _ ⟨fs, rfl, hfs⟩
    exact reads_token_bind fun _ => .pure hfs
  | table hfs =>
    have hhead : ts.head? = some (.symbol .openBrace) := by
      cases hfs
      rfl
    refine (guarded_args inner).reads hhead rfl ?_
    exact (reads_table h hfs).bind_last fun gs hgs => .pure hgs
  | str raw =>
    refine (guarded_args inner).reads rfl rfl ((reads_str raw).bind_last fun m hm => .pure ?_)
    simp [Args.same, hm]

theorem needs_args (inner : Level) :
    Needs (fun t => t == .symbol .openParen || t == .symbol .openBrace || t matches .str _)
      (args inner) :=
  .located ((guarded_args inner).needs.mono fun t ht => by simpa [or_assoc] using ht)

theorem guarded_suffix (inner : Level) : Guarded [
    (fun t => t == .symbol .openParen || t == .symbol .openBrace || t matches .str _,
      callSuffix inner),
    ((· == .symbol .colon), methodSuffix inner), ((· == .symbol .openBracket), indexSuffix inner),
    ((· == .symbol .dot), fieldSuffix)] := by
  simp only [Guarded, List.forall_mem_cons]
  exact ⟨(needs_args inner).bind, (needs_symbol _).bind, (needs_symbol _).bind,
    (needs_symbol _).bind, by simp⟩

theorem reads_suffix (h : inner.Complete L) {x : Suffix} (hx : IsSuffix L ts x) :
    Reads (suffix inner) ts follow fun y => y.node.same x = true := by
  refine Reads.located (P := fun y : Suffix => y.same x = true) ?_
  cases hx with
  | call ha =>
    have hread : Reads (callSuffix inner) ts follow fun y => y.same (.call _) = true :=
      (reads_args h ha).bind_last fun b hb => .pure hb
    cases ha with
    | table hfs =>
      cases hfs
      exact (guarded_suffix inner).reads rfl rfl hread
    | _ => exact (guarded_suffix inner).reads rfl rfl hread
  | method n ha =>
    refine (guarded_suffix inner).reads rfl rfl (reads_token_bind fun _ => ?_)
    refine Reads.bind_any (reads_name n.node) fun m hm => (reads_args h ha).bind_last fun b hb =>
      .pure ?_
    simp [Suffix.same, Located.sameNode, hm, hb]
  | index he =>
    refine (guarded_suffix inner).reads rfl rfl (reads_token_bind fun _ => ?_)
    exact (h.expr he).bind_before (looser_some (by decide)) fun a ha =>
      reads_token_bind fun _ => .pure ha
  | field n =>
    refine (guarded_suffix inner).reads rfl rfl (reads_token_bind fun _ => ?_)
    refine (reads_name n.node).bind_last fun m hm => .pure ?_
    simp [Suffix.same, Located.sameNode, hm]

/-- A suffix begins with a token that goes on with what is before it. -/
theorem needs_suffix (inner : Level) :
    Needs (fun t => decide (8 ≤ t.tightness)) (suffix inner) := by
  refine .located ((guarded_suffix inner).needs.mono fun t ht => ?_)
  simp only [List.any_cons, List.any_nil, Bool.or_false, Bool.or_eq_true, beq_iff_eq] at ht
  rcases ht with ((rfl | rfl) | ht) | rfl | rfl | rfl
  · rfl
  · rfl
  · cases t <;> first | rfl | cases ht
  · rfl
  · rfl
  · rfl

/-- All the suffixes are read, and the state after them is that of the last one. -/
theorem suffixChain_of_suffixes (h : inner.Complete L) {ss : List (Located Suffix)}
    (hss : Suffixes L ts ss) {c : Context} {s : State} (hs : c.Proper s)
    (hahead : c.ahead s = ts ++ us) (hfollow : Looser 8 us.head?) :
    ∃ marks, suffixChain inner c s = .ok marks (chainEnd s marks) ∧
      sameSuffixes (marks.map (·.1)) ss = true ∧
      (chainEnd s marks).cursor = s.cursor + ts.length ∧ s.OnlyNotes (chainEnd s marks) := by
  induction hss generalizing s with
  | nil =>
    have hrefuses : Refuses (suffix inner) us := needs_suffix inner us fun t ht =>
      decide_eq_false (Nat.not_le.2 (hfollow t ht))
    refine ⟨[], collect_of_none ?_, rfl, rfl, .refl s⟩
    rw [bind_of_ok (hrefuses.optional hs hahead)]
    rfl
  | @cons vs ws x ss hx _ ih =>
    rw [List.append_assoc] at hahead
    have hread : Reads (suffix inner) vs (fun _ => True) fun y => y.node.same x.node = true :=
      reads_suffix h hx
    obtain ⟨_, s', hok, ⟨y, rfl, hy⟩, hcursor, hnotes⟩ :=
      hread.optional c s _ hs hahead trivial
    have hs' := hs.of_read hahead hcursor
    obtain ⟨marks, hmarks, hsame, hcursor', hnotes'⟩ := ih hs' (c.ahead_of_read hahead hcursor)
    obtain ⟨t, ht, -⟩ := hx.exists_head
    have hpos : 0 < vs.length := List.length_pos_of_mem (List.mem_of_mem_head? ht)
    refine ⟨(y, s') :: marks, ?_, ?_, ?_, ?_⟩
    · rw [chainEnd_cons]
      refine collect_of_more ?_ (by omega) hs'.cursor_le hmarks
      rw [bind_of_ok hok]
      rfl
    · simp [sameSuffixes, hy, hsame]
    · rw [chainEnd_cons, hcursor', hcursor, List.length_append]
      omega
    · rw [chainEnd_cons]
      exact hnotes.trans hnotes'

theorem reads_suffixChain (h : inner.Complete L) {ss : List (Located Suffix)}
    (hss : Suffixes L ts ss) : Reads (suffixChain inner) ts (Looser 8)
      fun marks => sameSuffixes (marks.map (·.1)) ss = true := by
  intro c s us hs hahead hfollow
  obtain ⟨marks, hmarks, hsame, hcursor, hnotes⟩ := suffixChain_of_suffixes h hss hs hahead hfollow
  exact ⟨marks, _, hmarks, hsame, hcursor, hnotes⟩

theorem keptBy_unrestricted (marks : List (Located Suffix × State)) :
    keptBy .unrestricted marks = marks := by
  have hdrop : ∀ ms : List (Located Suffix × State), ms.dropWhile (fun _ => false) = ms := by
    intro ms
    cases ms <;> rfl
  simp [keptBy, keepThroughLast, SuffixPolicy.allowsLast, hdrop]

/-- Without a policy no suffix is given back. -/
theorem reads_prefixExp (h : inner.Complete L) {p : PrefixExp} (hp : Access L ts p) :
    Reads (prefixExp inner .unrestricted) ts (Looser 8) fun q => q.same p = true := by
  cases hp with
  | @intro vs ws a ss ha hss =>
    intro c s us hs hahead hfollow
    rw [List.append_assoc] at hahead
    have hread : Reads (head inner) vs (fun _ => True) fun b => b.node.same a.node = true :=
      reads_head h ha
    obtain ⟨b, s', hok, hb, hcursor, hnotes⟩ := hread c s _ hs hahead trivial
    obtain ⟨marks, hmarks, hsame, hcursor', hnotes'⟩ := suffixChain_of_suffixes h hss
      (hs.of_read hahead hcursor) (c.ahead_of_read hahead hcursor) hfollow
    have hkept : prefixExp inner .unrestricted c s = .ok _ _ :=
      prefixExp_of_kept hok hmarks (by simp)
    rw [keptBy_unrestricted] at hkept
    refine ⟨_, _, hkept, ?_, ?_, hnotes.trans hnotes'⟩
    · simp [PrefixExp.same, hb, hsame]
    · rw [State.rewind_cursor, hcursor', hcursor, List.length_append]
      omega

theorem needs_prefixExp (inner : Level) (policy : SuffixPolicy) :
    Needs (fun t => t == .symbol .openParen || t matches .ident _) (prefixExp inner policy) := by
  have hhead : Needs (fun t => t == .symbol .openParen || t matches .ident _) (head inner) := by
    refine (guarded_head inner).needs.mono fun t ht => ?_
    simpa [or_comm] using ht
  intro ts hts c s hs hc hahead
  obtain ⟨why, herr⟩ := hhead ts hts c s hs hc hahead
  exact ⟨why, prefixExp_of_error herr⟩

/-! ### Operators -/

theorem guarded_atom (inner : Level) : Guarded [
    ((· == .keyword .nil_), literal (.keyword .nil_) .nil),
    ((· == .keyword .false_), literal (.keyword .false_) (.boolean false)),
    ((· == .keyword .true_), literal (.keyword .true_) (.boolean true)),
    ((· matches .number _), (·.map Expr.number) <$> number),
    ((· matches .str _), (·.map Expr.str) <$> str),
    ((· == .symbol .ellipsis), literal (.symbol .ellipsis) .vararg),
    ((· == .keyword .function_), functionExpr inner),
    (fun t => t == .symbol .openParen || t matches .ident _, accessExpr inner),
    ((· == .symbol .openBrace), tableExpr inner)] := by
  simp only [Guarded, List.forall_mem_cons]
  exact ⟨(needs_token _).bind, (needs_token _).bind, (needs_token _).bind, needs_number.map,
    needs_str.map, (needs_token _).bind, (needs_token _).bind.located,
    (needs_prefixExp inner _).bind, (needs_token _).bind.located.bind, by simp⟩

theorem reads_literal (t : Token) (e : Expr) (he : e.same e = true) :
    Reads (literal t e) [t] follow fun a => a.node.same e = true :=
  reads_token_bind fun _ => .pure he

theorem reads_atom (h : inner.Complete L) {e : Expr} (he : Atom L ts e) :
    Reads (atom inner) ts (Looser 8) fun a => a.node.same e = true := by
  cases he with
  | nil => exact (guarded_atom inner).reads rfl rfl (reads_literal _ _ rfl)
  | false => exact (guarded_atom inner).reads rfl rfl (reads_literal _ _ rfl)
  | true => exact (guarded_atom inner).reads rfl rfl (reads_literal _ _ rfl)
  | number raw =>
    refine (guarded_atom inner).reads rfl rfl ((reads_number raw).map fun m hm => ?_)
    simp [Expr.same, hm]
  | str raw =>
    refine (guarded_atom inner).reads rfl rfl ((reads_str raw).map fun m hm => ?_)
    simp [Expr.same, hm]
  | vararg => exact (guarded_atom inner).reads rfl rfl (reads_literal _ _ rfl)
  | function hf => exact (guarded_atom inner).reads rfl rfl (reads_functionExpr h hf)
  | access hp =>
    have hread : Reads (accessExpr inner) ts (Looser 8) fun a => a.node.same (.access _) = true :=
      (reads_prefixExp h hp).bind_last fun q hq => .pure hq
    cases hp with
    | intro hhead _ =>
      rcases hhead.name_or_paren with ⟨n, rfl⟩ | ⟨vs, rfl, -⟩
      · exact (guarded_atom inner).reads rfl rfl hread
      · exact (guarded_atom inner).reads rfl rfl hread
  | table hfs =>
    have hread : Reads (tableExpr inner) ts (Looser 8) fun a => a.node.same (.table _) = true :=
      (reads_table h hfs).bind_last fun gs hgs => .pure hgs
    cases hfs with
    | intro _ => exact (guarded_atom inner).reads rfl rfl hread

theorem needs_atom (inner : Level) : Needs Token.startsAtom (atom inner) := by
  refine (guarded_atom inner).needs.mono fun t ht => ?_
  cases t with
  | keyword k => cases k <;> first | rfl | cases ht
  | symbol s => cases s <;> first | rfl | cases ht
  | _ => first | rfl | cases ht

theorem lookup_of_startsAtom {t : Token} (h : t.startsAtom = true) : unaryOps.lookup t = none := by
  cases t with
  | keyword k => cases k <;> first | rfl | cases h
  | symbol s => cases s <;> first | rfl | cases h
  | _ => rfl

theorem reads_signed_atom (h : inner.Complete L) {e : Expr} (he : Atom L ts e) :
    Reads (signed inner) ts (Looser 8) fun a => a.ops = [] ∧ a.operand.node.same e = true := by
  refine (needs_oneOf unaryOps).many.bind_first ?_ fun us _ => ?_
  · rintro _ rfl
    exact (reads_atom h he).bind_last fun a ha => .pure ⟨rfl, ha⟩
  · obtain ⟨t, ht, hstart⟩ := he.begins.head
    rw [List.head?_append, ht]
    exact without_some (by rw [lookup_of_startsAtom hstart]; rfl)

theorem reads_signed_operator {t : Token} {op : UnOp} (hop : (t, op) ∈ unaryOps) {P : Signed → Prop}
    (h : Reads (signed inner) ts follow P) :
    Reads (signed inner) (t :: ts) follow
      fun a => ∃ o os, a.ops = o :: os ∧ o.node = op ∧ P ⟨os, a.operand⟩ := by
  have hround : Reads (do return (← optional (oneOf unaryOps)).map (·, true)) [t] (fun _ => True)
      fun r => ∃ o, r = some (o, true) ∧ o.node = op := by
    have hlookup := (by decide : ∀ p ∈ unaryOps, unaryOps.lookup p.1 = some p.2) _ hop
    refine (reads_oneOf hlookup).optional.bind_last ?_
    rintro _ ⟨o, rfl, ho⟩
    exact .pure ⟨o, rfl, ho⟩
  refine Reads.collect_more_bind (by simp) hround (fun o ho => ?_) fun _ _ => trivial
  have hmap : (do let os ← many (oneOf unaryOps); return ⟨o :: os, ← atom inner⟩) =
      (fun a : Signed => (⟨o :: a.ops, a.operand⟩ : Signed)) <$> signed inner := by
    simp [signed]
  have hread := h.map (g := fun a : Signed => (⟨o :: a.ops, a.operand⟩ : Signed))
    (Q := fun a => ∃ o os, a.ops = o :: os ∧ o.node = op ∧ P ⟨os, a.operand⟩)
    fun a ha => ⟨o, a.ops, rfl, ho, ha⟩
  rw [← hmap] at hread
  exact hread

theorem needs_signed (inner : Level) : Needs Token.startsExpr (signed inner) := by
  intro ts hts c s hs hc hahead
  have hop : Refuses (oneOf unaryOps) ts := needs_oneOf unaryOps ts fun t ht => by
    have hstart := hts t ht
    rw [Token.startsExpr, Bool.or_eq_false_iff] at hstart
    exact hstart.1
  have hatom : Refuses (atom inner) ts := needs_atom inner ts fun t ht => by
    have hstart := hts t ht
    rw [Token.startsExpr, Bool.or_eq_false_iff] at hstart
    exact hstart.2
  have hmany : many (oneOf unaryOps) c s = .ok [] s := by
    refine collect_of_none ?_
    rw [bind_of_ok (hop.optional hs hahead)]
    rfl
  obtain ⟨why, herr⟩ := hatom c s hs hc hahead
  exact ⟨why, (bind_of_ok hmany).trans (bind_of_error herr)⟩

/-! ### Precedence levels -/

/-- The tokens of a table bind equally tightly, and each stands for one operator. -/
structure Tier (n : Nat) (ops : List (Token × BinOp)) : Prop where
  lookup : ∀ p ∈ ops, ops.lookup p.1 = some p.2
  tightness : ∀ p ∈ ops, p.1.tightness = n

theorem tier_or : Tier 1 orOps := ⟨by decide, by decide⟩

theorem tier_and : Tier 2 andOps := ⟨by decide, by decide⟩

theorem tier_compare : Tier 3 compareOps := ⟨by decide, by decide⟩

theorem tier_concat : Tier 4 concatOps := ⟨by decide, by decide⟩

theorem tier_add : Tier 5 addOps := ⟨by decide, by decide⟩

theorem tier_mul : Tier 6 mulOps := ⟨by decide, by decide⟩

theorem tier_pow : Tier 7 powOps := ⟨by decide, by decide⟩

/-- A round of the loop over operators and operands. -/
abbrev operandRound {β : Type} (ops : List (Token × BinOp)) (operand : Rule β) :
    Rule (Option ((Located BinOp × β) × Bool)) := do
  match ← optional (oneOf ops) with
  | none => return none
  | some op => return some ((op, ← operand), true)

/-- Operators for as long as there are any, each with an operand. -/
abbrev operands {β : Type} (ops : List (Token × BinOp)) (operand : Rule β) :
    Rule (List (Located BinOp × β)) := collect (operandRound ops operand)

section

variable {n : Nat} {ops : List (Token × BinOp)} {operand : Rule β} {t : Token}

theorem Tier.looser (h : Tier n ops) {op : BinOp} (hop : (t, op) ∈ ops) : Looser (n + 1) (some t) :=
  looser_some (Nat.lt_succ_of_le (Nat.le_of_eq (h.tightness _ hop)))

theorem Tier.needs (h : Tier n ops) : Needs (fun t => decide (n ≤ t.tightness)) (oneOf ops) := by
  refine (needs_oneOf ops).mono fun t ht => ?_
  obtain ⟨op, hop⟩ := Option.isSome_iff_exists.1 ht
  obtain ⟨before, after, rfl, -⟩ := List.lookup_eq_some_iff.1 hop
  exact decide_eq_true (Nat.le_of_eq (h.tightness (t, op) (by simp)).symm)

theorem Tier.reads_end (h : Tier n ops) :
    Reads (operands ops operand) [] (Looser n) (· = []) := by
  refine Reads.collect_none ((h.needs.optional.mono_follow ?_).bind_last ?_)
  · exact fun next hnext t ht => decide_eq_false (Nat.not_le.2 (hnext t ht))
  · rintro _ rfl
    exact .pure rfl

theorem Tier.reads_round (h : Tier n ops) {op : BinOp} (hop : (t, op) ∈ ops) {P : β → Prop}
    (hoperand : Reads operand ts follow P) :
    Reads (operandRound ops operand) (t :: ts) follow
      fun r => ∃ q, r = some (q, true) ∧ q.1.node = op ∧ P q.2 := by
  have hread : Reads (oneOf ops) [t] (fun _ => True) fun o => o.node = op :=
    reads_oneOf (h.lookup _ hop)
  refine hread.optional.bind_any ?_
  rintro _ ⟨o, rfl, ho⟩
  exact hoperand.bind_last fun b hb => .pure ⟨(o, b), rfl, ho, hb⟩

end

section

variable {n : Nat} {ops : List (Token × BinOp)} {operand : Rule (Located Expr)}
  {item : List Token → Expr → Prop}

theorem leftGrouped_eq (operand : Rule (Located Expr)) (ops : List (Token × BinOp)) :
    leftGrouped operand ops = (do
      let first ← operand
      let others ← operands ops operand
      return groupLeft (first, others)) := by
  show (do
    let r ← (do let first ← operand; let others ← operands ops operand; return (first, others))
    return groupLeft r) = _
  simp only [bind_assoc, pure_bind]

/-- The operands up to some operator are read, and then the others together with what is made of
them all. -/
theorem reads_leftAssoc_then {P : Located Expr → Prop} (htier : Tier n ops)
    (h : ∀ {ts e}, item ts e → Reads operand ts (Looser (n + 1)) fun a => a.node.same e = true)
    {e : Expr} (he : LeftAssoc ops item ts e)
    (hus : ∀ vs : List Token, follow vs.head? → Looser (n + 1) (us ++ vs).head?)
    (hothers : ∀ a : Located Expr, a.node.same e = true →
      Reads (do let others ← operands ops operand; return groupLeft (a, others)) us follow P) :
    Reads (leftGrouped operand ops) (ts ++ us) follow P := by
  induction he generalizing us with
  | operand he =>
    rw [leftGrouped_eq]
    exact (h he).bind hothers hus
  | @binary ts vs t op lhs rhs _ hop hright ih =>
    rw [List.append_assoc]
    refine ih (fun _ _ => htier.looser hop) fun a ha => ?_
    refine Reads.collect_more_bind (by simp) (htier.reads_round hop (h hright)) ?_ hus
    rintro ⟨o, b⟩ ⟨ho, hb⟩
    dsimp only at ho hb
    exact hothers (Expr.ofBinary o a b) (by simp [Expr.same, Located.sameNode, ho, ha, hb])

theorem reads_leftAssoc (htier : Tier n ops)
    (h : ∀ {ts e}, item ts e → Reads operand ts (Looser (n + 1)) fun a => a.node.same e = true)
    {e : Expr} (he : LeftAssoc ops item ts e) :
    Reads (leftGrouped operand ops) ts (Looser n) fun a => a.node.same e = true := by
  have hread : Reads (leftGrouped operand ops) (ts ++ []) (Looser n)
      fun a => a.node.same e = true := by
    refine reads_leftAssoc_then htier h he (fun vs hvs => hvs.mono (Nat.le_succ n)) fun a ha => ?_
    refine htier.reads_end.bind_last ?_
    rintro _ rfl
    exact .pure ha
  rwa [List.append_nil] at hread

/-- A right operand is read as the first of a chain, and whatever follows it as the others. -/
theorem RightAssoc.split (htier : Tier n ops)
    (h : ∀ {ts e}, item ts e → Reads operand ts (Looser (n + 1)) fun a => a.node.same e = true)
    {e : Expr} (he : RightAssoc ops item ts e) :
    ∃ us vs P R, ts = us ++ vs ∧ Reads operand us (Looser (n + 1)) P ∧
      Reads (operands ops operand) vs (Looser n) R ∧
      (∀ ws : List Token, Looser n ws.head? → Looser (n + 1) (vs ++ ws).head?) ∧
      ∀ a others, P a → R others → (groupRight a others).node.same e = true := by
  induction he with
  | @operand ts e he =>
    refine ⟨ts, [], _, _, (List.append_nil ts).symm, h he, htier.reads_end,
      fun ws hws => hws.mono (Nat.le_succ n), ?_⟩
    rintro a _ ha rfl
    exact ha
  | @binary ts us t op lhs rhs hleft hop _ ih =>
    obtain ⟨vs, ws, P, R, rfl, hfirst, hothers, hlooser, hsame⟩ := ih
    refine ⟨ts, t :: vs ++ ws, _, _, rfl, h hleft,
      Reads.collect_more (by simp) (htier.reads_round hop hfirst) hothers hlooser,
      fun _ _ => htier.looser hop, ?_⟩
    rintro a _ ha ⟨⟨o, b⟩, others, rfl, ⟨ho, hb⟩, hrest⟩
    dsimp only at ho
    have hright := hsame b others hb hrest
    simp [groupRight, Expr.same, Located.sameNode, ho, ha, hright]

theorem reads_rightAssoc (htier : Tier n ops)
    (h : ∀ {ts e}, item ts e → Reads operand ts (Looser (n + 1)) fun a => a.node.same e = true)
    {e : Expr} (he : RightAssoc ops item ts e) :
    Reads (chain operand ops) ts (Looser n) fun r => (groupRight r.1 r.2).node.same e = true := by
  obtain ⟨us, vs, P, R, rfl, hfirst, hothers, hlooser, hsame⟩ := RightAssoc.split htier h he
  exact hfirst.bind (fun a ha => hothers.bind_last fun bs hbs => .pure (hsame a bs ha hbs)) hlooser

end

/-- A power is read as a chain, and the unary operators before its base as those of the base. -/
theorem Unary.split (h : inner.Complete L) {e : Expr} (he : Unary L ts e) :
    ∃ us vs P R, ts = us ++ vs ∧ Reads (signed inner) us (Looser 8) P ∧
      Reads (operands powOps (signed inner)) vs (Looser 7) R ∧
      (∀ ws : List Token, Looser 7 ws.head? → Looser 8 (vs ++ ws).head?) ∧
      ∀ a others, P a → R others → (groupPower a others).node.same e = true := by
  induction he with
  | @operator ts t op operand hop _ ih =>
    obtain ⟨us, vs, P, R, rfl, hfirst, hothers, hlooser, hsame⟩ := ih
    refine ⟨t :: us, vs, _, R, rfl, reads_signed_operator hop hfirst, hothers, hlooser, ?_⟩
    rintro ⟨_, b⟩ others ⟨o, os, rfl, ho, ha⟩ hrest
    have hoperand := hsame _ others ha hrest
    cases others with
    | nil => simpa [groupPower, Signed.apply, Expr.same, Located.sameNode, ho] using hoperand
    | cons q qs => simpa [groupPower, Signed.apply, Expr.same, Located.sameNode, ho] using hoperand
  | @atom ts e he =>
    refine ⟨ts, [], _, _, (List.append_nil ts).symm, reads_signed_atom h he, tier_pow.reads_end,
      fun ws hws => hws.mono (by omega), ?_⟩
    rintro ⟨_, b⟩ _ ⟨rfl, hb⟩ rfl
    exact hb
  | @power ts us t op base exponent hbase hop _ ih =>
    obtain ⟨vs, ws, P, R, rfl, hfirst, hothers, hlooser, hsame⟩ := ih
    refine ⟨ts, t :: vs ++ ws, _, _, rfl, reads_signed_atom h hbase,
      Reads.collect_more (by simp) (tier_pow.reads_round hop hfirst) hothers hlooser,
      fun _ _ => tier_pow.looser hop, ?_⟩
    rintro ⟨_, b⟩ _ ⟨rfl, hb⟩ ⟨⟨o, a⟩, others, rfl, ⟨ho, ha⟩, hrest⟩
    dsimp only at ho hb
    have hright := hsame a others ha hrest
    simp [groupPower, Signed.apply, Expr.same, Located.sameNode, ho, hb, hright]

theorem reads_unaryExpr (h : inner.Complete L) {e : Expr} (he : Unary L ts e) :
    Reads (unaryExpr inner) ts (Looser 7) fun a => a.node.same e = true := by
  obtain ⟨us, vs, P, R, rfl, hfirst, hothers, hlooser, hsame⟩ := Unary.split h he
  rw [unaryExpr_eq]
  exact hfirst.bind (fun a ha => hothers.bind_last fun bs hbs => .pure (hsame a bs ha hbs)) hlooser

theorem reads_orExpr (h : inner.Complete L) {e : Expr} (he : Disjunction L ts e) :
    Reads (orExpr inner) ts (Looser 1) fun a => a.node.same e = true := by
  have hconcat : ∀ {ts e}, Concat L ts e →
      Reads (concatExpr inner) ts (Looser 4) fun a => a.node.same e = true := fun he => by
    rw [concatExpr_eq]
    exact (reads_rightAssoc tier_concat (reads_leftAssoc tier_add (reads_leftAssoc tier_mul
      (reads_unaryExpr h))) he).bind_last fun r hr => .pure hr
  exact reads_leftAssoc tier_or (reads_leftAssoc tier_and (reads_leftAssoc tier_compare hconcat)) he

theorem needs_orExpr (inner : Level) : Needs (fun t => !endsLevel true t) (orExpr inner) := by
  have hmono : ∀ t : Token, t.startsExpr = true → (!endsLevel true t) = true := by
    intro t ht
    cases t with
    | keyword k => cases k <;> first | rfl | cases ht
    | symbol s => cases s <;> first | rfl | cases ht
    | _ => rfl
  have hunary : Needs Token.startsExpr (unaryExpr inner) := (needs_signed inner).bind
  have hadd : Needs Token.startsExpr (addExpr inner) := hunary.bind.bind.bind.bind
  have hconcat : Needs Token.startsExpr (concatExpr inner) := hadd.bind.bind
  have hor : Needs Token.startsExpr (orExpr inner) := hconcat.bind.bind.bind.bind.bind.bind
  exact hor.mono hmono

end LuaSyntax.Grammar
