import LuaSyntax.Grammar.Expr
import LuaSyntax.Proofs.Grammar.Sound
/-!
# Soundness of the expression rules

One lemma for each rule: it opens or always gives a value, and what it yields derives its tree.
-/

namespace LuaSyntax.Grammar

open Rule Operator LuaSyntax.Language

variable {α : Type} {law : Law} {L : Language} {inner : Level}

/-! ### Names and lists -/

theorem listed_of_separated {separator : Symbol} {item : List Token → α → Prop}
    {targets : Located α → List (Located PrefixExp)} {P : Yield → Located α → Prop} {y : Yield}
    {as : List (Located α)}
    (hP : ∀ y a, P y a → item y.tokens a.node ∧ y.notes = targetNotes (targets a))
    (h : Separated (.symbol separator) P y as) :
    y.Writes (Listed separator item) (·.flatMap targets) as := by
  induction h with
  | one h =>
    obtain ⟨hitem, hnotes⟩ := hP _ _ h
    exact ⟨.one hitem, by simpa using hnotes⟩
  | more h _ ih =>
    obtain ⟨hitem, hnotes⟩ := hP _ _ h
    exact ⟨by simpa using Listed.more hitem ih.derives, by simp [hnotes, ih.notes]⟩

theorem writes_names {separator : Symbol} {y : Yield} {ns : List (Located Name)}
    (h : Separated (.symbol separator) (fun y n => y = .token (.ident n.node)) y ns) :
    y.Writes (Listed separator IsName) (fun _ => []) ns := by
  have hname : ∀ (y : Yield) (n : Located Name), y = .token (.ident n.node) →
      IsName y.tokens n.node ∧ y.notes = targetNotes [] := by
    rintro _ n rfl
    exact ⟨.intro n.node, rfl⟩
  have hlisted := listed_of_separated hname h
  exact ⟨hlisted.derives, by rw [hlisted.notes, List.flatMap_eq_nil_iff.2 fun _ _ => rfl]⟩

theorem opens_names (h : inner.Sound law L) {separator : Symbol}
    (hs : separator.isUsed .lua52 = true) :
    Opens law (sepBy1 name (symbol separator)) fun y ns =>
      y.Writes (Listed separator IsName) (fun _ => []) ns :=
  (h.name.sepBy1 (h.symbol hs)).mono fun _ _ => writes_names

theorem opens_exprList (h : inner.Sound law L) :
    Opens law (exprList inner) fun y es => y.Writes (Listed .comma L.expr) targetsOfExprs es := by
  refine (h.expr.sepBy1 (h.symbol rfl)).mono fun y es hy => ?_
  have hlisted := listed_of_separated (fun _ _ he => ⟨he.derives, he.notes⟩) hy
  exact ⟨hlisted.derives, by rw [hlisted.notes, targetsOfExprs_eq_flatMap]⟩

/-! ### Functions -/

/-- The token that a parameter is written as. -/
def Param.token : Param → Token
  | name n => .ident n.node
  | vararg _ => .symbol .ellipsis

theorem opens_param (h : inner.Sound law L) : Opens law param fun y p => y = .token p.token := by
  refine .alt (by simp) ?_
  simp only [List.forall_mem_cons]
  exact ⟨h.name.map fun y n hy => hy, (h.symbol rfl).map fun y span hy => hy, nofun⟩

theorem params_cons {first n : Located Name} {ns : List (Located Name)} {ts : List Token}
    {vararg : Option Span} (h : Params ts (n :: ns) vararg) :
    Params (.ident first.node :: .symbol .comma :: ts) (first :: n :: ns) vararg := by
  have hfirst : IsName [.ident first.node] first.node := .intro _
  cases h with
  | names h => exact .names (.more hfirst h)
  | namesVararg h span => exact .namesVararg (.more hfirst h) span

/-- The parameters after the first one, each with a comma before it. -/
theorem params_of_loop {y : Yield} {ps : List Param} {first : Located Name}
    (h : Loop (fun y r => match r with
      | none => y = .empty
      | some (p, more) => more = p.isName ∧ y = .token (.symbol .comma) ++ .token p.token) y ps) :
    Params (.ident first.node :: y.tokens) (first :: ps.filterMap (·.name?))
      (ps.findSome? (·.vararg?)) ∧ y.notes = [] := by
  have hfirst : Listed .comma IsName [.ident first.node] [first] := .one (.intro _)
  induction h generalizing first with
  | stop h =>
    cases h
    exact ⟨.names hfirst, rfl⟩
  | @last y p h =>
    obtain ⟨hlast, rfl⟩ := h
    cases p with
    | name n => cases hlast
    | vararg span => exact ⟨.namesVararg hfirst span, rfl⟩
  | @more y z p ps h rest ih =>
    obtain ⟨hmore, rfl⟩ := h
    cases p with
    | name n =>
      obtain ⟨hrest, hnotes⟩ := ih (.one (.intro n.node))
      exact ⟨params_cons hrest, hnotes⟩
    | vararg span => cases hmore

theorem always_nextParam (h : inner.Sound law L) :
    Always law (fun r => r.isSome = true) (do
      let next ← optional do
        let _ ← symbol .comma
        param
      return next.map fun p => (p, p.isName)) fun y r => match r with
        | none => y = .empty
        | some (p, more) =>
          more = p.isName ∧ y = .token (.symbol .comma) ++ .token p.token := by
  have hnext : Opens law (do let _ ← symbol .comma; param) fun y p =>
      y = .token (.symbol .comma) ++ .token p.token :=
    (h.symbol rfl).bind fun _ => (opens_param h).completes.mono fun z p hz y hy => by rw [hy, hz]
  refine hnext.speculates.optional_bind (.pure nofun rfl) fun p => .pure fun y hy => ⟨rfl, ?_⟩
  simpa using hy

theorem always_params (h : inner.Sound law L) :
    Always law (fun _ => False) params fun y ps =>
      Params y.tokens (ps.filterMap (·.name?)) (ps.findSome? (·.vararg?)) ∧ y.notes = [] := by
  refine (opens_param h).speculates.optional_bind (.pure nofun ⟨.none, rfl⟩) fun p => ?_
  cases p with
  | vararg span =>
    refine .pure fun y hy => ?_
    subst hy
    exact ⟨.vararg span, rfl⟩
  | name first =>
    refine (always_nextParam h).collect.completes.bind fun ps => .pure fun z hz y hy => ?_
    subst hy
    rw [Yield.append_empty]
    exact params_of_loop hz

theorem opens_funcBody (h : inner.Sound law L) :
    Opens law (funcBody inner) fun y f => y.Writes (Func L) FuncBody.targets f := by
  refine (h.symbol rfl).bind fun _ => (always_params h).completes.bind fun ps =>
    (h.symbol rfl).completes.bind fun _ => h.block.completes.bind fun body =>
    (h.keyword rfl).completes.bind fun _ => .pure ?_
  rintro _ rfl y hbody _ rfl ps ⟨hps, hnotes⟩ _ rfl
  exact ⟨by simpa using Func.intro hps hbody.derives,
    by simp [hnotes, hbody.notes]⟩

theorem opens_functionExpr (h : inner.Sound law L) :
    Opens law (functionExpr inner) fun y e => y.Writes (Atom L) Expr.targets e.node := by
  refine .located ((h.keyword rfl).bind fun _ =>
    (opens_funcBody h).completes.bind fun f => .pure ?_)
  rintro y hbody _ rfl
  exact ⟨by simpa using Atom.function hbody.derives, by simp [hbody.notes]⟩

/-! ### Tables -/

theorem opens_keyedField (h : inner.Sound law L) :
    Opens law (keyedField inner) fun y f => y.Writes (IsField L) Field.targets f := by
  refine (h.symbol rfl).bind fun _ => h.expr.completes.bind fun key =>
    (h.symbol rfl).completes.bind fun _ => (h.symbol rfl).completes.bind fun _ =>
    h.expr.completes.bind fun value => .pure ?_
  rintro v hvalue _ rfl _ rfl k hkey _ rfl
  exact ⟨by simpa using IsField.keyed hkey.derives hvalue.derives,
    by simp [hkey.notes, hvalue.notes]⟩

/-- In pure lookahead a matcher accepts the next token or is stuck where it stands. -/
theorem satisfy_of_strict {m : Matcher α} {c : Context} {s : State} (hc : c.mode = .strict) :
    (∃ t a, c.next? s = some t ∧ m.accept t.node = some a ∧
      satisfy m c s = .ok ⟨a, t.span⟩ (s.advance 1)) ∨
      ∃ why, satisfy m c s = .error why s := by
  rcases accept_or_reject m c s with ⟨t, a, found, accepted⟩ | hsupply
  · exact .inl ⟨t, a, found, accepted, satisfy_of_accept found accepted⟩
  · rw [hsupply, supply_of_not_committed (by simp [Context.isCommitted, hc])]
    exact .inr ⟨_, rfl⟩

/-- The lookahead sees both the name and the `=`, or it leaves no trace. -/
theorem opens_fieldName (h : inner.Sound law L) :
    Opens law fieldName fun y n => y = .token (.ident n.node) ++ .token (.symbol .equal) := by
  have hboth : Completes law (do let n ← name; let _ ← symbol .equal; return n) fun y n =>
      y = .token (.ident n.node) ++ .token (.symbol .equal) := by
    refine h.name.completes.bind fun n => (h.symbol rfl).completes.bind fun _ => .pure ?_
    rintro _ rfl _ rfl
    simp
  refine ⟨fun c s hs hc => ?_, fun c s hs hc => ?_⟩
  · obtain ⟨n, s', hok, hreach⟩ := hboth c s hs hc
    exact ⟨n, s', by rw [fieldName, attempt, if_pos hc, hok], hreach⟩
  · rw [fieldName, attempt, if_neg (by simp [hc])]
    rcases satisfy_of_strict (m := .name) (c := { c with mode := .strict }) (s := s) rfl with
      ⟨t, n, found, accepted, hname⟩ | ⟨why, hname⟩
    · rcases satisfy_of_strict (m := .exactly (.symbol .equal)) (c := { c with mode := .strict })
        (s := s.advance 1) rfl with ⟨u, _, found', accepted', hequal⟩ | ⟨why, hequal⟩
      · have ht : t.node = .ident n := by
          cases hnode : t.node <;> simp_all [Matcher.name]
        have hu : u.node = .symbol .equal := by simpa [Matcher.exactly] using accepted'
        refine .inl ⟨⟨n, t.span⟩, (s.advance 1).advance 1, ?_, ?_, ?_⟩
        · simp [bind_apply, map_apply, name, symbol, token, hname, hequal]
        · have hname : Reaches law c s (s.advance 1) (· = .token (.ident n)) :=
            .advance found (by rw [ht])
          have hequal : Reaches law c (s.advance 1) ((s.advance 1).advance 1)
              (· = .token (.symbol .equal)) := .advance found' (by rw [hu])
          exact hname.trans hequal fun y z hy hz => by rw [hy, hz]
        · exact Nat.lt_trans (lt_advance s) (lt_advance _)
      · refine .inr ⟨why, ?_⟩
        simp [bind_apply, map_apply, name, symbol, token, hname, hequal, State.rewind]
        rfl
    · refine .inr ⟨why, ?_⟩
      simp [bind_apply, name, hname, State.rewind]

theorem opens_namedField (h : inner.Sound law L) :
    Opens law (namedField inner) fun y f => y.Writes (IsField L) Field.targets f := by
  refine (opens_fieldName h).bind fun n => h.expr.completes.bind fun value => .pure ?_
  rintro y hvalue _ rfl
  exact ⟨by simpa using IsField.named n hvalue.derives, by simp [hvalue.notes]⟩

theorem opens_positionalField (h : inner.Sound law L) :
    Opens law (positionalField inner) fun y f => y.Writes (IsField L) Field.targets f := by
  refine h.expr.bind fun value => .pure fun y hvalue => ?_
  exact ⟨by simpa using IsField.positional hvalue.derives,
    by simp [hvalue.notes]⟩

theorem opens_field (h : inner.Sound law L) :
    Opens law (field inner) fun y f => y.Writes (IsField L) Field.targets f.node := by
  refine .located (.alt (by simp) ?_)
  simp only [List.forall_mem_cons]
  exact ⟨opens_keyedField h, opens_namedField h, opens_positionalField h, nofun⟩

theorem opens_fieldSeparator (h : inner.Sound law L) :
    Opens law fieldSeparator fun y _ =>
      ∃ s, (s = Symbol.comma ∨ s = Symbol.semicolon) ∧ y = .token (.symbol s) := by
  refine (h.oneOf rfl).mono ?_
  rintro y u ⟨t, rfl, ht⟩
  simp only [List.mem_cons, Prod.mk.injEq, and_true, List.not_mem_nil, or_false] at ht
  rcases ht with ⟨rfl, -⟩ | ⟨rfl, -⟩
  · exact ⟨_, .inl rfl, rfl⟩
  · exact ⟨_, .inr rfl, rfl⟩

/-- A round of the loop over the fields: a field and, if more may follow, a separator. -/
def IsFieldRound (L : Language) (y : Yield) : Option (Located Field × Bool) → Prop
  | none => y = .empty
  | some (f, false) => y.Writes (IsField L) Field.targets f.node
  | some (f, true) => ∃ z s, z.Writes (IsField L) Field.targets f.node ∧
      (s = Symbol.comma ∨ s = Symbol.semicolon) ∧ y = z ++ .token (.symbol s)

theorem writes_fields {y : Yield} {fs : List (Located Field)} (h : Loop (IsFieldRound L) y fs) :
    y.Writes (Fields L) targetsOfFields fs := by
  induction h with
  | stop h =>
    cases h
    exact ⟨.nil, rfl⟩
  | last h => exact ⟨.last h.derives, by simp [h.notes]⟩
  | more h _ ih =>
    obtain ⟨z, s, hfield, hs, rfl⟩ := h
    exact ⟨by simpa using Fields.more hfield.derives hs ih.derives,
      by simp [hfield.notes, ih.notes]⟩

theorem always_fields (h : inner.Sound law L) :
    Always law (fun _ => False) (fields inner) fun y fs =>
      y.Writes (Fields L) targetsOfFields fs := by
  refine Always.mono (Always.collect (P := IsFieldRound L) ?_) fun y fs => writes_fields
  refine (opens_field h).speculates.optional_bind (.pure nofun rfl) fun f => ?_
  refine (opens_fieldSeparator h).speculates.always_optional.completes.bind fun r => .pure ?_
  intro z hz y hy
  cases r with
  | none =>
    subst hz
    simpa [IsFieldRound] using hy
  | some _ =>
    obtain ⟨s, hs, rfl⟩ := hz
    exact ⟨y, s, hy, hs, by simp⟩

theorem opens_table (h : inner.Sound law L) :
    Opens law (table inner) fun y fs => y.Writes (Table L) targetsOfFields fs.node := by
  refine .located ((h.symbol rfl).bind fun _ => (always_fields h).completes.bind fun fs =>
    (h.symbol rfl).completes.bind fun _ => .pure ?_)
  rintro _ rfl y hfields _ rfl
  exact ⟨by simpa using Table.intro hfields.derives, by simp [hfields.notes]⟩

/-! ### Names, calls and indexes -/

theorem opens_nameHead (h : inner.Sound law L) :
    Opens law nameHead fun y a => y.Writes (IsHead L) Head.targets a.node := by
  refine h.name.bind fun n => .pure ?_
  rintro _ rfl
  exact ⟨by simpa using IsHead.name n.node, by simp⟩

theorem opens_parenHead (h : inner.Sound law L) :
    Opens law (parenHead inner) fun y a => y.Writes (IsHead L) Head.targets a.node := by
  refine .located ((h.symbol rfl).bind fun _ => h.expr.completes.bind fun e =>
    (h.symbol rfl).completes.bind fun _ => .pure ?_)
  rintro _ rfl y hexpr _ rfl
  exact ⟨by simpa using IsHead.paren hexpr.derives, by simp [hexpr.notes]⟩

theorem opens_head (h : inner.Sound law L) :
    Opens law (head inner) fun y a => y.Writes (IsHead L) Head.targets a.node := by
  refine .alt (by simp) ?_
  simp only [List.forall_mem_cons]
  exact ⟨opens_nameHead h, opens_parenHead h, nofun⟩

theorem opens_listArgs (h : inner.Sound law L) :
    Opens law (listArgs inner) fun y a => y.Writes (IsArgs L) Args.targets a := by
  refine (h.symbol rfl).bind fun _ => (opens_exprList h).speculates.always_optional.completes.bind
    fun r => (h.symbol rfl).completes.bind fun _ => .pure ?_
  rintro _ rfl y hy _ rfl
  cases r with
  | none =>
    subst hy
    exact ⟨.empty, rfl⟩
  | some es =>
    exact ⟨by simpa using IsArgs.list hy.derives, by simp [hy.notes]⟩

theorem opens_tableArgs (h : inner.Sound law L) :
    Opens law (tableArgs inner) fun y a => y.Writes (IsArgs L) Args.targets a := by
  refine (opens_table h).bind fun fs => .pure fun y hy => ?_
  exact ⟨by simpa using IsArgs.table hy.derives, by simp [hy.notes]⟩

theorem opens_strArgs (h : inner.Sound law L) :
    Opens law strArgs fun y a => y.Writes (IsArgs L) Args.targets a := by
  refine h.str.bind fun raw => .pure ?_
  rintro _ rfl
  exact ⟨by simpa using IsArgs.str raw.node, by simp⟩

theorem opens_args (h : inner.Sound law L) :
    Opens law (args inner) fun y a => y.Writes (IsArgs L) Args.targets a.node := by
  refine .located (.alt (by simp) ?_)
  simp only [List.forall_mem_cons]
  exact ⟨opens_listArgs h, opens_tableArgs h, opens_strArgs h, nofun⟩

theorem opens_callSuffix (h : inner.Sound law L) :
    Opens law (callSuffix inner) fun y s => y.Writes (IsSuffix L) Suffix.targets s := by
  refine (opens_args h).bind fun a => .pure fun y hy => ?_
  exact ⟨by simpa using IsSuffix.call hy.derives, by simp [hy.notes]⟩

theorem opens_methodSuffix (h : inner.Sound law L) :
    Opens law (methodSuffix inner) fun y s => y.Writes (IsSuffix L) Suffix.targets s := by
  refine (h.symbol rfl).bind fun _ => h.name.completes.bind fun n =>
    (opens_args h).completes.bind fun a => .pure ?_
  rintro y hy _ rfl _ rfl
  exact ⟨by simpa using IsSuffix.method n hy.derives, by simp [hy.notes]⟩

theorem opens_indexSuffix (h : inner.Sound law L) :
    Opens law (indexSuffix inner) fun y s => y.Writes (IsSuffix L) Suffix.targets s := by
  refine (h.symbol rfl).bind fun _ => h.expr.completes.bind fun e =>
    (h.symbol rfl).completes.bind fun _ => .pure ?_
  rintro _ rfl y hy _ rfl
  exact ⟨by simpa using IsSuffix.index hy.derives, by simp [hy.notes]⟩

theorem opens_fieldSuffix (h : inner.Sound law L) :
    Opens law fieldSuffix fun y s => y.Writes (IsSuffix L) Suffix.targets s := by
  refine (h.symbol rfl).bind fun _ => h.name.completes.bind fun n => .pure ?_
  rintro _ rfl _ rfl
  exact ⟨by simpa using IsSuffix.field n, by simp⟩

theorem opens_suffix (h : inner.Sound law L) :
    Opens law (suffix inner) fun y s => y.Writes (IsSuffix L) Suffix.targets s.node := by
  refine .located (.alt (by simp) ?_)
  simp only [List.forall_mem_cons]
  exact ⟨opens_callSuffix h, opens_methodSuffix h, opens_indexSuffix h, opens_fieldSuffix h, nofun⟩

/-! ### Chains of suffixes -/

/-- Suffixes read one after another from state `s`, each with the state just after it. -/
inductive ChainFrom (law : Law) (L : Language) (c : Context) :
    State → List (Located Suffix × State) → Prop
  | nil (s : State) : ChainFrom law L c s []
  | cons {s s' : State} {suffix : Located Suffix} {marks : List (Located Suffix × State)}
      (h : Reaches law c s s' fun y => y.Writes (IsSuffix L) Suffix.targets suffix.node)
      (rest : ChainFrom law L c s' marks) : ChainFrom law L c s ((suffix, s') :: marks)

/-- The state after the last suffix. -/
def chainEnd (s : State) (marks : List (Located Suffix × State)) : State :=
  (marks.getLast?.map (·.2)).getD s

theorem chainEnd_cons (s : State) (mark : Located Suffix × State)
    (marks : List (Located Suffix × State)) :
    chainEnd s (mark :: marks) = chainEnd mark.2 marks := by
  cases marks with
  | nil => rfl
  | cons m ms => simp [chainEnd, List.getLast?_cons]

namespace ChainFrom

variable {c : Context} {s : State} {marks kept : List (Located Suffix × State)}

theorem reaches (h : ChainFrom law L c s marks) :
    Reaches law c s (chainEnd s marks) fun y =>
      y.Writes (Suffixes L) targetsOfSuffixes (marks.map (·.1)) := by
  induction h with
  | nil s => exact .refl ⟨.nil, rfl⟩
  | cons h _ ih =>
    rw [chainEnd_cons]
    exact h.trans ih fun y z hy hz => ⟨.cons hy.derives hz.derives,
      by simp [hy.notes, hz.notes]⟩

theorem of_isPrefix (h : ChainFrom law L c s marks) (hkept : kept <+: marks) :
    ChainFrom law L c s kept := by
  induction h generalizing kept with
  | nil s =>
    rw [List.prefix_nil.1 hkept]
    exact .nil s
  | cons h _ ih =>
    cases kept with
    | nil => exact .nil _
    | cons mark kept =>
      obtain ⟨rfl, hrest⟩ := List.cons_prefix_cons.1 hkept
      exact .cons h (ih hrest)

end ChainFrom

/-- The round of a chain of suffixes. -/
def suffixRound (inner : Level) : Rule (Option ((Located Suffix × State) × Bool)) := do
  match ← optional (suffix inner) with
  | none => return none
  | some s => return some ((s, ← mark), true)

theorem suffixChain_spec (h : inner.Sound law L) {c : Context} {s : State} (hs : c.Proper s) :
    ∃ marks, suffixChain inner c s = .ok marks (chainEnd s marks) ∧ ChainFrom law L c s marks := by
  induction hn : c.remaining s using Nat.strongRecOn generalizing s with
  | ind n ih =>
    rcases (opens_suffix h).speculates.optional hs with hnone | ⟨a, s', hsome, hreach, hlt⟩
    · refine ⟨[], collect_of_none ?_, .nil s⟩
      rw [bind_of_ok hnone]
      rfl
    · have hs' := hreach.proper hs
      have hremaining : c.remaining s' < n := by
        have := hs'.cursor_le
        unfold Context.remaining at hn ⊢
        omega
      obtain ⟨marks, hmarks, hchain⟩ := ih _ hremaining hs' rfl
      refine ⟨(a, s') :: marks, ?_, .cons hreach hchain⟩
      rw [chainEnd_cons]
      refine collect_of_more ?_ hlt hs'.cursor_le hmarks
      rw [bind_of_ok hsome]
      rfl

theorem keepThroughLast_isPrefix (p : α → Bool) (as : List α) : keepThroughLast p as <+: as := by
  rw [keepThroughLast, ← List.reverse_suffix, List.reverse_reverse]
  exact List.dropWhile_suffix _

/-! ### Prefix expressions -/

section

variable {policy : SuffixPolicy} {c : Context} {s s' : State} {a : Located Head}
  {marks : List (Located Suffix × State)}

/-- The suffixes that the policy keeps. -/
def keptBy (policy : SuffixPolicy) (marks : List (Located Suffix × State)) :
    List (Located Suffix × State) :=
  keepThroughLast (fun m => policy.allowsLast m.1.node) marks

theorem prefixExp_of_error {why : Stuck} (hhead : head inner c s = .error why s) :
    prefixExp inner policy c s = .error why s := by
  simp [prefixExp, bind_apply, mark, committed, hhead]

/-- Where the policy is met, the suffixes after the kept ones are given back. -/
theorem prefixExp_of_kept (hhead : head inner c s = .ok a s')
    (hchain : suffixChain inner c s' = .ok marks (chainEnd s' marks))
    (hkept : ¬ (policy = .callTerminated ∧ keptBy policy marks = [])) :
    prefixExp inner policy c s = .ok ⟨a, (keptBy policy marks).map (·.1)⟩
      ((chainEnd s' marks).rewind (chainEnd s' (keptBy policy marks))) := by
  have hkept : ¬ (policy = .callTerminated ∧ ((keptBy policy marks).map (·.1)).isEmpty) := by
    simpa using hkept
  simp only [prefixExp, bind_apply, mark, committed, hhead, hchain, reset]
  rw [keptBy] at hkept
  rw [if_neg hkept]
  rfl

/-- A committed rule that needs a call reads the arguments that are missing. -/
theorem prefixExp_of_no_call (hhead : head inner c s = .ok a s')
    (hchain : suffixChain inner c s' = .ok marks (chainEnd s' marks))
    (hkept : keptBy .callTerminated marks = []) (hc : c.isCommitted s = true) :
    prefixExp inner .callTerminated c s =
      ((fun b => ⟨a, [b.map .call]⟩) <$> args inner : Rule PrefixExp) c
        ((chainEnd s' marks).rewind s') := by
  rw [keptBy] at hkept
  simp only [prefixExp, bind_apply, mark, committed, hhead, hchain, reset, hkept, hc]
  simp

/-- A speculative rule that needs a call gives everything back, except a hint that it has used. -/
theorem prefixExp_stuck (hhead : head inner c s = .ok a s')
    (hchain : suffixChain inner c s' = .ok marks (chainEnd s' marks))
    (hkept : keptBy .callTerminated marks = []) (hc : c.isCommitted s = false) :
    ∃ why, prefixExp inner .callTerminated c s =
      .error why { s with hint := (chainEnd s' marks).hint } := by
  rw [keptBy] at hkept
  simp only [prefixExp, bind_apply, mark, committed, hhead, hchain, reset, hkept, hc]
  exact ⟨_, rfl⟩

theorem reaches_access (hhead : Reaches law c s s' fun y => y.Writes (IsHead L) Head.targets a.node)
    (hchain : ChainFrom law L c s' marks) {t : State}
    (hcursor : t.cursor = (chainEnd s' marks).cursor)
    (hdiags : t.diags = (chainEnd s' marks).diags) :
    Reaches law c s t fun y =>
      y.Writes (Access L) PrefixExp.targets ⟨a, marks.map (·.1)⟩ := by
  have hend := hchain.reaches.congr (t := s') rfl rfl hcursor hdiags
  exact hhead.trans hend fun y z hy hz => ⟨.intro hy.derives hz.derives,
    by simp [hy.notes, hz.notes]⟩

/-- From any state, either the policy is met or what is read is not a call. -/
theorem prefixExp_cases (h : inner.Sound law L) (policy : SuffixPolicy) (hs : c.Proper s)
    (hhead : head inner c s = .ok a s')
    (hreach : Reaches law c s s' fun y => y.Writes (IsHead L) Head.targets a.node) :
    (∃ p t, prefixExp inner policy c s = .ok p t ∧ s'.cursor ≤ t.cursor ∧
      Reaches law c s t fun y => y.Writes (Access L) PrefixExp.targets p) ∨
    (policy = .callTerminated ∧ ∃ marks,
      suffixChain inner c s' = .ok marks (chainEnd s' marks) ∧
        keptBy .callTerminated marks = []) := by
  obtain ⟨marks, hmarks, hchain⟩ := suffixChain_spec h (hreach.proper hs)
  by_cases hkept : policy = .callTerminated ∧ keptBy policy marks = []
  · obtain ⟨rfl, hnone⟩ := hkept
    exact .inr ⟨rfl, marks, hmarks, hnone⟩
  · have hkeeps : keptBy policy marks <+: marks := keepThroughLast_isPrefix _ _
    have hchain' := hchain.of_isPrefix hkeeps
    exact .inl ⟨_, _, prefixExp_of_kept hhead hmarks hkept, hchain'.reaches.le,
      reaches_access hreach hchain' rfl rfl⟩

end

theorem completes_prefixExp (h : inner.Sound law L) (policy : SuffixPolicy) :
    Completes law (prefixExp inner policy) fun y p => y.Writes (Access L) PrefixExp.targets p := by
  intro c s hs hc
  obtain ⟨a, s', hhead, hreach⟩ := (opens_head h).completes c s hs hc
  rcases prefixExp_cases h policy hs hhead hreach with
    ⟨p, t, hok, -, hreach'⟩ | ⟨rfl, marks, hmarks, hkept⟩
  · exact ⟨p, t, hok, hreach'⟩
  · -- the arguments are read from just after the head
    have hargs := (opens_args h).completes.map (g := fun b => (⟨a, [b.map .call]⟩ : PrefixExp))
      (Q := fun y p => ∀ z, z.Writes (IsHead L) Head.targets a.node →
        (z ++ y).Writes (Access L) PrefixExp.targets p) fun y b hy z hz => ?_
    · have hhead' : Reaches law c s ((chainEnd s' marks).rewind s') _ :=
        hreach.congr rfl rfl rfl rfl
      obtain ⟨p, t, hok, hreach'⟩ := hargs c _ (hhead'.proper hs)
        (Context.isCommitted_of_le hs hc hhead'.le)
      rw [prefixExp_of_no_call hhead hmarks hkept hc]
      exact ⟨p, t, hok, hhead'.trans hreach' fun y z hy hz => hz y hy⟩
    · refine ⟨.intro hz.derives ?_, ?_⟩
      · simpa using Suffixes.cons (s := b.map .call) (.call hy.derives) .nil
      · simp [hz.notes, hy.notes]

theorem speculates_prefixExp (h : inner.Sound law L) (policy : SuffixPolicy)
    (hpolicy : policy ≠ .callTerminated) :
    Speculates law (prefixExp inner policy) fun y p =>
      y.Writes (Access L) PrefixExp.targets p := by
  intro c s hs hc
  rcases (opens_head h).speculates c s hs hc with ⟨a, s', hhead, hreach, hlt⟩ | ⟨why, herr⟩
  · rcases prefixExp_cases h policy hs hhead hreach with
      ⟨p, t, hok, hle, hreach'⟩ | ⟨hcall, -⟩
    · exact .inl ⟨p, t, hok, hreach', Nat.lt_of_lt_of_le hlt hle⟩
    · exact absurd hcall hpolicy
  · exact .inr ⟨why, prefixExp_of_error herr⟩

theorem opens_prefixExp (h : inner.Sound law L) (policy : SuffixPolicy)
    (hpolicy : policy ≠ .callTerminated) :
    Opens law (prefixExp inner policy) fun y p => y.Writes (Access L) PrefixExp.targets p :=
  ⟨completes_prefixExp h policy, speculates_prefixExp h policy hpolicy⟩

/-- An uncommitted rule for a call gives one after consuming a token, or gives everything back
except a hint that it has used. -/
theorem speculates_call (h : inner.Sound law L) {c : Context} {s : State} (hs : c.Proper s)
    (hc : c.isCommitted s = false) :
    (∃ p s', call inner c s = .ok p s' ∧ s.cursor < s'.cursor ∧
      Reaches law c s s' fun y => y.Writes (Access L) PrefixExp.targets p) ∨
    ∃ why hint, call inner c s = .error why { s with hint } := by
  rcases (opens_head h).speculates c s hs hc with ⟨a, s', hhead, hreach, hlt⟩ | ⟨why, herr⟩
  · rcases prefixExp_cases h .callTerminated hs hhead hreach with
      ⟨p, t, hok, hle, hreach'⟩ | ⟨-, marks, hmarks, hkept⟩
    · exact .inl ⟨p, t, hok, Nat.lt_of_lt_of_le hlt hle, hreach'⟩
    · obtain ⟨why, hstuck⟩ := prefixExp_stuck hhead hmarks hkept hc
      exact .inr ⟨why, _, hstuck⟩
  · exact .inr ⟨why, s.hint, prefixExp_of_error herr⟩

/-! ### Operators -/

theorem opens_accessExpr (h : inner.Sound law L) :
    Opens law (accessExpr inner) fun y e => y.Writes (Atom L) Expr.targets e.node := by
  refine (opens_prefixExp h .unrestricted nofun).bind fun p => .pure fun y hy => ?_
  exact ⟨by simpa using Atom.access hy.derives,
    by simp [hy.notes]⟩

theorem opens_tableExpr (h : inner.Sound law L) :
    Opens law (tableExpr inner) fun y e => y.Writes (Atom L) Expr.targets e.node := by
  refine (opens_table h).bind fun fs => .pure fun y hy => ?_
  exact ⟨by simpa using Atom.table hy.derives, by simp [hy.notes]⟩

theorem opens_literal {t : Token} {e : Expr} (hatom : Atom L [t] e) (he : e.targets = [])
    (ht : law.insertable t) :
    Opens law (literal t e) fun y a => y.Writes (Atom L) Expr.targets a.node := by
  refine (opens_token ht).bind fun _ => .pure ?_
  rintro _ rfl
  exact ⟨by simpa using hatom, by simp [he]⟩

theorem opens_atom (h : inner.Sound law L) :
    Opens law (atom inner) fun y e => y.Writes (Atom L) Expr.targets e.node := by
  have hnumber : Opens law ((·.map Expr.number) <$> number) fun y e =>
      y.Writes (Atom L) Expr.targets e.node := by
    refine h.number.map ?_
    rintro _ a rfl
    exact ⟨.number a.node, rfl⟩
  have hstr : Opens law ((·.map Expr.str) <$> str) fun y e =>
      y.Writes (Atom L) Expr.targets e.node := by
    refine h.str.map ?_
    rintro _ a rfl
    exact ⟨.str a.node, rfl⟩
  refine .alt (by simp) ?_
  simp only [List.forall_mem_cons]
  exact ⟨opens_literal .nil rfl (h.fills (.shared rfl)),
    opens_literal .false rfl (h.fills (.shared rfl)),
    opens_literal .true rfl (h.fills (.shared rfl)), hnumber, hstr,
    opens_literal .vararg rfl (h.fills (.shared rfl)), opens_functionExpr h, opens_accessExpr h,
    opens_tableExpr h, nofun⟩

/-- Operators of a table, one after another. -/
abbrev Operators {β : Type} (ops : List (Token × β)) : Yield → List (Located β) → Prop :=
  Repeated fun y op => ∃ t, y = .token t ∧ (t, op.node) ∈ ops

/-- A signed operand as it is written: its unary operators, and the atom that they apply to. -/
def WritesSigned (L : Language) (y : Yield) (t : Signed) : Prop :=
  ∃ u v, y = u ++ v ∧ Operators unaryOps u t.ops ∧ v.Writes (Atom L) Expr.targets t.operand.node

theorem opens_signed (h : inner.Sound law L) :
    Opens law (signed inner) (WritesSigned L) := by
  have hops : Opens law (Rule.oneOf unaryOps) fun y op =>
      ∃ t, y = .token t ∧ (t, op.node) ∈ unaryOps := (h.oneOf rfl)
  refine hops.speculates.many.bind_opens fun ops => (opens_atom h).bind fun e => .pure ?_
  intro v hv u hu
  exact ⟨u, v, by simp, hu, hv⟩

/-- Unary operators before something that they may apply to. -/
theorem writes_operators {u v : Yield} {ops : List (Located UnOp)} {e : Located Expr}
    (h : Operators unaryOps u ops) (he : v.Writes (Unary L) Expr.targets e.node) :
    (u ++ v).Writes (Unary L) Expr.targets (ops.foldr Expr.ofUnary e).node := by
  induction h with
  | nil => exact he
  | cons hop _ ih =>
    obtain ⟨t, rfl, ht⟩ := hop
    exact ⟨.operator ht ih.derives, by simpa using ih.notes⟩

/-- Operators of a table, each with an operand after it. -/
abbrev OperatorsWith {β : Type} (ops : List (Token × BinOp)) (P : Yield → β → Prop) :
    Yield → List (Located BinOp × β) → Prop :=
  Repeated fun y r => ∃ t z, y = .token t ++ z ∧ (t, r.1.node) ∈ ops ∧ P z r.2

/-- The loop over operators and operands. -/
theorem always_operands {β : Type} {ops : List (Token × BinOp)} {operand : Rule β}
    {P : Yield → β → Prop} (hops : Opens law (Rule.oneOf ops) fun y op =>
      ∃ t, y = .token t ∧ (t, op.node) ∈ ops) (h : Opens law operand P) :
    Always law (fun _ => False) (collect do
      match ← optional (Rule.oneOf ops) with
      | none => return none
      | some op => return some ((op, ← operand), true)) (OperatorsWith ops P) := by
  have hround : Always law (fun r => r.isSome = true) (do
      match ← optional (Rule.oneOf ops) with
      | none => return none
      | some op => return some ((op, ← operand), true)) fun y r => match r with
        | none => y = .empty
        | some (r, _) => ∃ t z, y = .token t ++ z ∧ (t, r.1.node) ∈ ops ∧ P z r.2 := by
    refine hops.speculates.optional_bind (.pure nofun rfl) fun op =>
      h.completes.bind fun b => .pure ?_
    rintro z hz _ ⟨t, rfl, ht⟩
    exact ⟨t, z, by simp, ht, hz⟩
  exact hround.collect.mono fun y others hloop =>
    hloop.repeated (fun _ h => h) (fun _ _ _ h => h)

theorem writes_groupPower {y z : Yield} {first : Signed} {others : List (Located BinOp × Signed)}
    (hfirst : WritesSigned L y first) (hothers : OperatorsWith powOps (WritesSigned L) z others) :
    (y ++ z).Writes (Unary L) Expr.targets (groupPower first others).node := by
  induction hothers generalizing y first with
  | nil =>
    obtain ⟨u, v, rfl, hops, hatom⟩ := hfirst
    rw [Yield.append_empty]
    exact writes_operators hops ⟨.atom hatom.derives, hatom.notes⟩
  | cons h _ ih =>
    obtain ⟨u, v, rfl, hops, hatom⟩ := hfirst
    obtain ⟨t, z, rfl, ht, hnext⟩ := h
    have hexponent := ih hnext
    rw [Yield.append_assoc]
    refine writes_operators hops ⟨?_, ?_⟩
    · simpa using Unary.power hatom.derives ht hexponent.derives
    · simpa [hatom.notes] using hexponent.notes

theorem opens_unaryExpr (h : inner.Sound law L) :
    Opens law (unaryExpr inner) fun y e => y.Writes (Unary L) Expr.targets e.node := by
  rw [unaryExpr_eq]
  refine (opens_signed h).bind fun first =>
    (always_operands (h.oneOf rfl) (opens_signed h)).completes.bind fun others => .pure ?_
  intro z hz y hy
  rw [Yield.append_empty]
  exact writes_groupPower hy hz

section

variable {ops : List (Token × BinOp)} {operand : Rule (Located Expr)}
  {item : List Token → Expr → Prop}

theorem opens_chain (hops : Opens law (Rule.oneOf ops) fun y op =>
      ∃ t, y = .token t ∧ (t, op.node) ∈ ops)
    (h : Opens law operand fun y e => y.Writes item Expr.targets e.node) :
    Opens law (chain operand ops) fun y r => ∃ u v, y = u ++ v ∧
      u.Writes item Expr.targets r.1.node ∧
      OperatorsWith ops (fun y e => y.Writes item Expr.targets e.node) v r.2 := by
  refine h.bind fun first => (always_operands hops h).completes.bind fun others => .pure ?_
  intro v hv u hu
  exact ⟨u, v, by simp, hu, hv⟩

theorem writes_groupLeft {y z : Yield} {first : Located Expr}
    {others : List (Located BinOp × Located Expr)}
    (hfirst : y.Writes (LeftAssoc ops item) Expr.targets first.node)
    (hothers : OperatorsWith ops (fun y e => y.Writes item Expr.targets e.node) z others) :
    (y ++ z).Writes (LeftAssoc ops item) Expr.targets (groupLeft (first, others)).node := by
  induction hothers generalizing y first with
  | nil => rwa [Yield.append_empty]
  | cons h _ ih =>
    obtain ⟨t, u, rfl, ht, hnext⟩ := h
    rw [← Yield.append_assoc]
    refine ih ⟨?_, ?_⟩
    · simpa using LeftAssoc.binary hfirst.derives ht hnext.derives
    · simp [hfirst.notes, hnext.notes]

theorem writes_groupRight {y z : Yield} {first : Located Expr}
    {others : List (Located BinOp × Located Expr)}
    (hfirst : y.Writes item Expr.targets first.node)
    (hothers : OperatorsWith ops (fun y e => y.Writes item Expr.targets e.node) z others) :
    (y ++ z).Writes (RightAssoc ops item) Expr.targets (groupRight first others).node := by
  induction hothers generalizing y first with
  | nil =>
    rw [Yield.append_empty]
    exact ⟨.operand hfirst.derives, hfirst.notes⟩
  | cons h _ ih =>
    obtain ⟨t, u, rfl, ht, hnext⟩ := h
    have hrest := ih hnext
    refine ⟨?_, ?_⟩
    · simpa [groupRight] using RightAssoc.binary hfirst.derives ht hrest.derives
    · simpa [groupRight, hfirst.notes] using hrest.notes

theorem opens_leftGrouped (hops : Opens law (Rule.oneOf ops) fun y op =>
      ∃ t, y = .token t ∧ (t, op.node) ∈ ops)
    (h : Opens law operand fun y e => y.Writes item Expr.targets e.node) :
    Opens law (leftGrouped operand ops) fun y e =>
      y.Writes (LeftAssoc ops item) Expr.targets e.node := by
  refine (opens_chain hops h).bind fun r => .pure ?_
  rintro _ ⟨u, v, rfl, hu, hv⟩
  rw [Yield.append_empty]
  exact writes_groupLeft ⟨.operand hu.derives, hu.notes⟩ hv

end

theorem opens_mulExpr (h : inner.Sound law L) :
    Opens law (mulExpr inner) fun y e => y.Writes (Product L) Expr.targets e.node :=
  opens_leftGrouped (h.oneOf rfl) (opens_unaryExpr h)

theorem opens_addExpr (h : inner.Sound law L) :
    Opens law (addExpr inner) fun y e => y.Writes (Sum L) Expr.targets e.node :=
  opens_leftGrouped (h.oneOf rfl) (opens_mulExpr h)

theorem opens_concatExpr (h : inner.Sound law L) :
    Opens law (concatExpr inner) fun y e => y.Writes (Concat L) Expr.targets e.node := by
  rw [concatExpr_eq]
  refine (opens_chain (h.oneOf rfl) (opens_addExpr h)).bind fun r => .pure ?_
  rintro _ ⟨u, v, rfl, hu, hv⟩
  rw [Yield.append_empty]
  exact writes_groupRight hu hv

theorem opens_compareExpr (h : inner.Sound law L) :
    Opens law (compareExpr inner) fun y e => y.Writes (Comparison L) Expr.targets e.node :=
  opens_leftGrouped (h.oneOf rfl) (opens_concatExpr h)

theorem opens_andExpr (h : inner.Sound law L) :
    Opens law (andExpr inner) fun y e => y.Writes (Conjunction L) Expr.targets e.node :=
  opens_leftGrouped (h.oneOf rfl) (opens_compareExpr h)

theorem opens_orExpr (h : inner.Sound law L) :
    Opens law (orExpr inner) fun y e => y.Writes (Disjunction L) Expr.targets e.node :=
  opens_leftGrouped (h.oneOf rfl) (opens_andExpr h)

end LuaSyntax.Grammar
