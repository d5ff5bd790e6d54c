import LuaSyntax.Proofs.Grammar.ExprReads
import LuaSyntax.Proofs.Rule.Repeats
/-!
# Clean runs of the expression rules

One lemma for each rule: over a level that repeats another one, it repeats its own clean runs over
that other level, and is stuck where it is stuck over it.
-/

namespace LuaSyntax.Grammar

open Rule Operator

variable {α β : Type} {inner inner' : Level} {follow : Option Token → Prop}

/-- The rules of `inner'` repeat those of `inner`; a block only where a block can end. -/
structure Level.Repeats (inner inner' : Level) : Prop where
  expr : Reopens AnyNext inner.expr inner'.expr
  block : Rule.Repeats BlockEnds inner.block inner'.block
  sound : ∃ law L, inner.Sound law L
  sound' : ∃ law L, inner'.Sound law L

/-! ### Functions -/

theorem reopens_exprList (h : inner.Repeats inner') :
    Reopens AnyNext (exprList inner) (exprList inner') :=
  h.expr.sepBy1 (reopens_symbol .comma)

theorem reopens_param : Reopens AnyNext param param :=
  .alt (List.cons_ne_nil _ _)
    (.cons (reopens_name.map Param.name) (.cons ((reopens_symbol .ellipsis).map Param.vararg) .nil))

theorem repeats_params : Rule.Repeats AnyNext params params := by
  refine reopens_param.optional.bind fun r => ?_
  match r with
  | none => exact .pure _
  | some (.vararg _) => exact .pure _
  | some (.name first) =>
    have hnext : Rule.Repeats AnyNext (optional do let _ ← symbol .comma; param) _ :=
      Reopens.optional ((reopens_symbol .comma).bind fun _ => reopens_param.toRepeats)
    refine .bind (.collect (hnext.bind fun r => .pure _) heralds_any) fun others => .pure _

/-- A block and the word that ends it. -/
theorem repeats_body (h : inner.Repeats inner') {k : Keyword}
    (hk : (Token.keyword k).endsBlock = true) {f f' : Block → Span → Rule β}
    (hf : ∀ b span, Rule.Repeats follow (f b span) (f' b span)) :
    Rule.Repeats follow (do let b ← inner.block; let span ← keyword k; f b span)
      (do let b ← inner'.block; let span ← keyword k; f' b span) := by
  have hends : BlockEnds (some (.keyword k)) := by
    rintro t ⟨⟩
    exact hk
  have hword (b : Block) : Rule.Repeats follow (do let span ← keyword k; f b span)
      (do let span ← keyword k; f' b span) :=
    (reopens_keyword k).toRepeats.bind (hf b)
  exact h.block.bind_before hword fun b =>
    (heralds_token hends).bind_any (orderly_token _) fun span => (hf b span).orderly

theorem repeats_end (h : inner.Repeats inner') (g : Block → β) :
    Rule.Repeats follow (do let b ← inner.block; let _ ← keyword .end_; return g b)
      (do let b ← inner'.block; let _ ← keyword .end_; return g b) :=
  repeats_body h rfl fun b _ => .pure (g b)

theorem reopens_funcBody (h : inner.Repeats inner') :
    Reopens AnyNext (funcBody inner) (funcBody inner') :=
  (reopens_symbol .openParen).bind fun _ => repeats_params.bind fun _ =>
    (reopens_symbol .closeParen).toRepeats.bind fun _ => repeats_end h _

theorem reopens_functionExpr (h : inner.Repeats inner') :
    Reopens AnyNext (functionExpr inner) (functionExpr inner') :=
  .located ((reopens_keyword .function_).bind fun _ =>
    (reopens_funcBody h).toRepeats.bind fun body => .pure (Expr.function body))

/-! ### Tables -/

theorem reopens_keyedField (h : inner.Repeats inner') :
    Reopens AnyNext (keyedField inner) (keyedField inner') :=
  (reopens_symbol .openBracket).bind fun _ => h.expr.toRepeats.bind fun key =>
    (reopens_symbol .closeBracket).toRepeats.bind fun _ =>
    (reopens_symbol .equal).toRepeats.bind fun _ =>
    h.expr.toRepeats.bind fun value => .pure (Field.keyed key value)

/-- A name and then an `=` are next. -/
def NamedNext (c : Context) (s : State) (n : Located Name) : Prop :=
  c.next? s = some ⟨.ident n.node, n.span⟩ ∧
    ∃ span, c.next? (s.advance 1) = some ⟨.symbol .equal, span⟩

section

variable {c c' : Context} {s s' t : State} {n : Located Name}

theorem NamedNext.beside (h : NamedNext c s n) (hstream : c'.stream = c.stream)
    (hcursor : s'.cursor = s.cursor) : NamedNext c' s' n := by
  unfold NamedNext Context.next? State.advance at h ⊢
  rwa [hstream, hcursor]

/-- A name and the `=` after it. -/
abbrev nameAndEqual : Rule (Located Name) := do
  let n ← name
  let _ ← symbol .equal
  return n

theorem nameAndEqual_of_next (h : NamedNext c s n) :
    nameAndEqual c s = .ok n ((s.advance 1).advance 1) := by
  obtain ⟨hname, span, hequal⟩ := h
  have hread : name c s = .ok n (s.advance 1) := satisfy_of_accept hname rfl
  have hread' : symbol .equal c (s.advance 1) = .ok span ((s.advance 1).advance 1) :=
    bind_of_ok (satisfy_of_accept (m := .exactly _) (a := ()) hequal (if_pos rfl))
  rw [nameAndEqual, bind_of_ok hread, bind_of_ok hread']
  rfl

theorem namedNext_of_clean {u v : State} {span : Span} (hname : Clean name c s n u)
    (hequal : Clean (symbol .equal) c u span v) : NamedNext c s n := by
  obtain ⟨⟨node, nspan⟩, raw, found, accepted, rfl, rfl⟩ := hname.of_satisfy
  have hnode : node = .ident raw := by cases node <;> simp_all [Matcher.name]
  exact ⟨by rw [found, hnode], span, hequal.of_token.1⟩

theorem nameAndEqual_of_clean (hs : c.Proper s) (h : Clean nameAndEqual c s n t) :
    NamedNext c s n := by
  have hequal : Orderly (symbol .equal) := orderly_token _
  obtain ⟨m, u, hread, hu, hrest⟩ :=
    h.of_bind (orderly_satisfy .name) (fun n => hequal.bind fun _ => .pure n) hs
  obtain ⟨span, v, hread', -, hok, -⟩ := hrest.of_bind hequal (fun _ => .pure m) (hu.proper hs)
  cases hok
  exact namedNext_of_clean hread hread'

/-- A lookahead puts in nothing. -/
theorem nameAndEqual_of_strict (hstrict : c.mode = .strict) (hok : nameAndEqual c s = .ok n t) :
    NamedNext c s n := by
  rcases satisfy_of_strict (m := .name) (s := s) hstrict with
    ⟨u, raw, -, -, hname⟩ | ⟨why, hname⟩
  · rw [nameAndEqual, Rule.name, bind_of_ok hname] at hok
    rcases satisfy_of_strict (m := .exactly (.symbol .equal)) (s := s.advance 1) hstrict with
      ⟨v, _, -, -, hsatisfy⟩ | ⟨why, hsatisfy⟩
    · have hequal : symbol .equal c (s.advance 1) = .ok v.span _ := bind_of_ok hsatisfy
      rw [bind_of_ok hequal] at hok
      cases hok
      exact namedNext_of_clean ⟨hname, rfl⟩ ⟨hequal, rfl⟩
    · have hequal : symbol .equal c (s.advance 1) = .error why _ := bind_of_error hsatisfy
      rw [bind_of_error hequal] at hok
      cases hok
  · rw [nameAndEqual, Rule.name, bind_of_error hname] at hok
    cases hok

theorem fieldName_of_committed (hc : c.isCommitted s = true) :
    fieldName c s = nameAndEqual c s :=
  if_pos hc

theorem fieldName_of_next (h : NamedNext c s n) :
    fieldName c s = .ok n ((s.advance 1).advance 1) := by
  cases hc : c.isCommitted s with
  | true => rw [fieldName_of_committed hc, nameAndEqual_of_next h]
  | false =>
    have hstrict : nameAndEqual { c with mode := .strict } s = .ok n ((s.advance 1).advance 1) :=
      nameAndEqual_of_next h
    rcases attempt_cases nameAndEqual hc with ⟨m, t, hread, hok⟩ | ⟨why, t, hread, -⟩
    · cases hread.symm.trans hstrict
      exact hok
    · cases hread.symm.trans hstrict

/-- Unless it is committed, the rule puts in nothing. -/
theorem namedNext_of_not_committed (hc : c.isCommitted s = false) (hok : fieldName c s = .ok n t) :
    NamedNext c s n := by
  rcases attempt_cases nameAndEqual hc with ⟨m, u, hread, hread'⟩ | ⟨why, u, -, hread'⟩
  · cases hread'.symm.trans hok
    exact nameAndEqual_of_strict (c := { c with mode := .strict }) rfl hread
  · cases hread'.symm.trans hok

theorem namedNext_of_clean_fieldName (hs : c.Proper s) (h : Clean fieldName c s n t) :
    NamedNext c s n := by
  cases hc : c.isCommitted s with
  | true => exact nameAndEqual_of_clean hs ⟨fieldName_of_committed hc ▸ h.ok, h.diags⟩
  | false => exact namedNext_of_not_committed hc h.ok

end

theorem reopens_fieldName (h : inner.Repeats inner') : Reopens AnyNext fieldName fieldName where
  orderly := by
    obtain ⟨law, L, hsound⟩ := h.sound
    exact (opens_fieldName hsound).orderly
  again {c s c' s' n t} hbeside hclean _ := by
    have hnext := namedNext_of_clean_fieldName hbeside.left hclean
    have hread := hclean.ok
    rw [fieldName_of_next hnext] at hread
    cases hread
    exact ⟨_, ⟨fieldName_of_next (hnext.beside hbeside.stream hbeside.cursor), rfl⟩,
      congrArg (· + 2) hbeside.cursor⟩
  moves := by
    obtain ⟨law, L, hsound⟩ := h.sound
    exact (opens_fieldName hsound).lt_of_ok
  stuck {c s c' s' why t} hbeside _ hc' herr := by
    cases hread : fieldName c' s' with
    | error why' t' => exact ⟨why', t', rfl⟩
    | ok n t' =>
      have hnext := (namedNext_of_not_committed hc' hread).beside hbeside.stream.symm
        hbeside.cursor.symm
      rw [fieldName_of_next hnext] at herr
      cases herr

theorem reopens_namedField (h : inner.Repeats inner') :
    Reopens AnyNext (namedField inner) (namedField inner') :=
  (reopens_fieldName h).bind fun n => h.expr.toRepeats.bind fun value => .pure (Field.named n value)

theorem reopens_positionalField (h : inner.Repeats inner') :
    Reopens AnyNext (positionalField inner) (positionalField inner') :=
  h.expr.bind fun value => .pure (Field.positional value)

theorem reopens_field (h : inner.Repeats inner') : Reopens AnyNext (field inner) (field inner') :=
  .located (.alt (List.cons_ne_nil _ _) (.cons (reopens_keyedField h)
    (.cons (reopens_namedField h) (.cons (reopens_positionalField h) .nil))))

theorem reopens_fieldSeparator : Reopens AnyNext fieldSeparator fieldSeparator :=
  reopens_oneOf (List.cons_ne_nil _ _)

theorem repeats_fields (h : inner.Repeats inner') :
    Rule.Repeats AnyNext (fields inner) (fields inner') := by
  refine .collect ((reopens_field h).optional.bind fun r => ?_) heralds_any
  cases r with
  | none => exact .pure _
  | some f => exact reopens_fieldSeparator.optional.bind fun separator => .pure _

theorem reopens_table (h : inner.Repeats inner') : Reopens AnyNext (table inner) (table inner') :=
  .located ((reopens_symbol .openBrace).bind fun _ => (repeats_fields h).bind fun fs =>
    (reopens_symbol .closeBrace).toRepeats.bind fun _ => .pure fs)

/-! ### Names, calls and indexes -/

theorem reopens_nameHead : Reopens AnyNext nameHead nameHead :=
  reopens_name.bind fun n => .pure (n.map Head.name)

theorem reopens_parenHead (h : inner.Repeats inner') :
    Reopens AnyNext (parenHead inner) (parenHead inner') :=
  .located ((reopens_symbol .openParen).bind fun _ => h.expr.toRepeats.bind fun e =>
    (reopens_symbol .closeParen).toRepeats.bind fun _ => .pure (Head.paren e))

theorem reopens_head (h : inner.Repeats inner') : Reopens AnyNext (head inner) (head inner') :=
  .alt (List.cons_ne_nil _ _) (.cons reopens_nameHead (.cons (reopens_parenHead h) .nil))

theorem reopens_listArgs (h : inner.Repeats inner') :
    Reopens AnyNext (listArgs inner) (listArgs inner') :=
  (reopens_symbol .openParen).bind fun _ => (reopens_exprList h).optional.bind fun exprs =>
    (reopens_symbol .closeParen).toRepeats.bind fun _ => .pure (Args.list (exprs.getD []))

theorem reopens_tableArgs (h : inner.Repeats inner') :
    Reopens AnyNext (tableArgs inner) (tableArgs inner') :=
  (reopens_table h).bind fun fs => .pure (Args.table fs.node)

theorem reopens_strArgs : Reopens AnyNext strArgs strArgs :=
  (reopens_satisfy .str).bind fun raw => .pure (Args.str raw.node)

theorem reopens_args (h : inner.Repeats inner') : Reopens AnyNext (args inner) (args inner') :=
  .located (.alt (List.cons_ne_nil _ _) (.cons (reopens_listArgs h)
    (.cons (reopens_tableArgs h) (.cons reopens_strArgs .nil))))

theorem reopens_callSuffix (h : inner.Repeats inner') :
    Reopens AnyNext (callSuffix inner) (callSuffix inner') :=
  (reopens_args h).bind fun a => .pure (Suffix.call a.node)

theorem reopens_methodSuffix (h : inner.Repeats inner') :
    Reopens AnyNext (methodSuffix inner) (methodSuffix inner') :=
  (reopens_symbol .colon).bind fun _ => reopens_name.toRepeats.bind fun n =>
    (reopens_args h).toRepeats.bind fun a => .pure (Suffix.method n a.node)

theorem reopens_indexSuffix (h : inner.Repeats inner') :
    Reopens AnyNext (indexSuffix inner) (indexSuffix inner') :=
  (reopens_symbol .openBracket).bind fun _ => h.expr.toRepeats.bind fun e =>
    (reopens_symbol .closeBracket).toRepeats.bind fun _ => .pure (Suffix.index e)

theorem reopens_fieldSuffix : Reopens AnyNext fieldSuffix fieldSuffix :=
  (reopens_symbol .dot).bind fun _ => reopens_name.toRepeats.bind fun n => .pure (Suffix.field n)

theorem reopens_suffix (h : inner.Repeats inner') :
    Reopens AnyNext (suffix inner) (suffix inner') :=
  .located (.alt (List.cons_ne_nil _ _) (.cons (reopens_callSuffix h)
    (.cons (reopens_methodSuffix h) (.cons (reopens_indexSuffix h)
    (.cons reopens_fieldSuffix .nil)))))

/-- The suffixes without the states between them. -/
theorem map_suffixChain (inner : Level) :
    (List.map (·.1) <$> suffixChain inner) = many (suffix inner) := by
  have hround : (do return (← optional (suffix inner)).map (·, true)) =
      Option.map (fun round => (round.1.1, round.2)) <$> suffixRound inner := by
    funext c s
    rw [map_apply, suffixRound, bind_apply, bind_apply]
    cases optional (suffix inner) c s with
    | ok r t => cases r <;> rfl
    | error why t => rfl
  have hchain (c : Context) (s : State) :
      suffixChain inner c s = Rule.collect (suffixRound inner) c s := rfl
  funext c s
  rw [many, hround, collect_map, map_apply, hchain]
  cases Rule.collect (suffixRound inner) c s <;> rfl

/-- A prefix expression that may end with any suffix, or with none, is a head and all the suffixes
after it. -/
theorem prefixExp_unrestricted {law : Law} {L : Language} (h : inner.Sound law L) {c : Context}
    {s : State} (hs : c.Proper s) :
    prefixExp inner .unrestricted c s =
      (do let a ← head inner; return ⟨a, ← many (suffix inner)⟩ : Rule PrefixExp) c s := by
  have hhead : (∃ a t, head inner c s = .ok a t ∧ c.Proper t) ∨
      ∃ why, head inner c s = .error why s := by
    cases hc : c.isCommitted s with
    | true =>
      obtain ⟨a, t, hok, hreach⟩ := (opens_head h).completes c s hs hc
      exact .inl ⟨a, t, hok, hreach.proper hs⟩
    | false =>
      rcases (opens_head h).speculates c s hs hc with ⟨a, t, hok, hreach, -⟩ | hstuck
      · exact .inl ⟨a, t, hok, hreach.proper hs⟩
      · exact .inr hstuck
  rcases hhead with ⟨a, t, hok, ht⟩ | ⟨why, herr⟩
  · obtain ⟨marks, hmarks, -⟩ := suffixChain_spec h ht
    have hkept : prefixExp inner .unrestricted c s = .ok _ _ :=
      prefixExp_of_kept hok hmarks (by simp)
    have hmany : many (suffix inner) c t = .ok (marks.map (·.1)) (chainEnd t marks) := by
      rw [← map_suffixChain, map_apply, hmarks]
    rw [hkept, keptBy_unrestricted, bind_of_ok hok, bind_of_ok hmany]
    rfl
  · rw [prefixExp_of_error herr, bind_of_error herr]

theorem reopens_prefixExp (h : inner.Repeats inner') :
    Reopens AnyNext (prefixExp inner .unrestricted) (prefixExp inner' .unrestricted) := by
  obtain ⟨law, L, hsound⟩ := h.sound
  obtain ⟨law', L', hsound'⟩ := h.sound'
  have hplain : Reopens AnyNext
      (do let a ← head inner; return PrefixExp.mk a (← many (suffix inner)))
      (do let a ← head inner'; return PrefixExp.mk a (← many (suffix inner'))) :=
    (reopens_head h).bind fun a =>
      (Repeats.many (reopens_suffix h) heralds_any).bind fun suffixes => .pure _
  exact hplain.congr (fun _ _ => prefixExp_unrestricted hsound)
    fun _ _ => prefixExp_unrestricted hsound'

/-! ### Operators -/

theorem reopens_accessExpr (h : inner.Repeats inner') :
    Reopens AnyNext (accessExpr inner) (accessExpr inner') :=
  (reopens_prefixExp h).bind fun p => .pure (Expr.ofAccess p)

theorem reopens_tableExpr (h : inner.Repeats inner') :
    Reopens AnyNext (tableExpr inner) (tableExpr inner') :=
  (reopens_table h).bind fun fs => .pure (fs.map Expr.table)

theorem reopens_literal (t : Token) (e : Expr) : Reopens AnyNext (literal t e) (literal t e) :=
  (reopens_token t).bind fun span => .pure (Located.mk e span)

theorem reopens_atom (h : inner.Repeats inner') : Reopens AnyNext (atom inner) (atom inner') := by
  have hraw {m : Matcher String} (e : String → Expr) :
      Reopens AnyNext ((·.map e) <$> satisfy m) ((·.map e) <$> satisfy m) :=
    (reopens_satisfy m).map _
  exact .alt (List.cons_ne_nil _ _) (.cons (reopens_literal _ _) (.cons (reopens_literal _ _)
    (.cons (reopens_literal _ _) (.cons (hraw .number) (.cons (hraw .str)
    (.cons (reopens_literal _ _) (.cons (reopens_functionExpr h) (.cons (reopens_accessExpr h)
    (.cons (reopens_tableExpr h) .nil)))))))))

theorem reopens_signed (h : inner.Repeats inner') :
    Reopens AnyNext (signed inner) (signed inner') := by
  have hops : Reopens AnyNext (oneOf unaryOps) (oneOf unaryOps) :=
    reopens_oneOf (List.cons_ne_nil _ _)
  have hlaw : Opens ⟨fun _ => True, True⟩ (oneOf unaryOps) _ := opens_oneOf trivial
  exact (Repeats.many hops heralds_any).bind_reopens hlaw.speculates.many fun ops =>
    (reopens_atom h).bind fun e => .pure (Signed.mk ops e)

/-- Operands after the first one, each with the operator before it. -/
theorem repeats_operands {operand operand' : Rule β} {ops : List (Token × BinOp)} (hne : ops ≠ [])
    (h : Reopens AnyNext operand operand') :
    Rule.Repeats AnyNext
      (collect do
        match ← optional (oneOf ops) with
        | none => return none
        | some op => return some ((op, ← operand), true))
      (collect do
        match ← optional (oneOf ops) with
        | none => return none
        | some op => return some ((op, ← operand'), true)) := by
  refine .collect ((reopens_oneOf hne).optional.bind fun r => ?_) heralds_any
  cases r with
  | none => exact .pure _
  | some op => exact h.toRepeats.bind fun a => .pure _

theorem reopens_chain {operand operand' : Rule (Located Expr)} {ops : List (Token × BinOp)}
    (hne : ops ≠ []) (h : Reopens AnyNext operand operand') :
    Reopens AnyNext (chain operand ops) (chain operand' ops) :=
  h.bind fun first => (repeats_operands hne h).bind fun others => .pure (first, others)

theorem reopens_leftGrouped {operand operand' : Rule (Located Expr)} {ops : List (Token × BinOp)}
    (hne : ops ≠ []) (h : Reopens AnyNext operand operand') :
    Reopens AnyNext (leftGrouped operand ops) (leftGrouped operand' ops) :=
  (reopens_chain hne h).bind fun ch => .pure (groupLeft ch)

theorem reopens_unaryExpr (h : inner.Repeats inner') :
    Reopens AnyNext (unaryExpr inner) (unaryExpr inner') := by
  rw [unaryExpr_eq inner, unaryExpr_eq inner']
  exact (reopens_signed h).bind fun first =>
    (repeats_operands (List.cons_ne_nil _ _) (reopens_signed h)).bind fun others =>
      .pure (groupPower first others)

theorem reopens_mulExpr (h : inner.Repeats inner') :
    Reopens AnyNext (mulExpr inner) (mulExpr inner') :=
  reopens_leftGrouped (List.cons_ne_nil _ _) (reopens_unaryExpr h)

theorem reopens_addExpr (h : inner.Repeats inner') :
    Reopens AnyNext (addExpr inner) (addExpr inner') :=
  reopens_leftGrouped (List.cons_ne_nil _ _) (reopens_mulExpr h)

theorem reopens_concatExpr (h : inner.Repeats inner') :
    Reopens AnyNext (concatExpr inner) (concatExpr inner') := by
  rw [concatExpr_eq inner, concatExpr_eq inner']
  exact (reopens_chain (List.cons_ne_nil _ _) (reopens_addExpr h)).bind fun ch =>
    .pure (groupRight ch.1 ch.2)

theorem reopens_compareExpr (h : inner.Repeats inner') :
    Reopens AnyNext (compareExpr inner) (compareExpr inner') :=
  reopens_leftGrouped (List.cons_ne_nil _ _) (reopens_concatExpr h)

theorem reopens_andExpr (h : inner.Repeats inner') :
    Reopens AnyNext (andExpr inner) (andExpr inner') :=
  reopens_leftGrouped (List.cons_ne_nil _ _) (reopens_compareExpr h)

theorem reopens_orExpr (h : inner.Repeats inner') :
    Reopens AnyNext (orExpr inner) (orExpr inner') :=
  reopens_leftGrouped (List.cons_ne_nil _ _) (reopens_andExpr h)

end LuaSyntax.Grammar
