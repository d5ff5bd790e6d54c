import LuaSyntax.Proofs.Grammar.Scheme
/-!
# Schemes of the expression rules

Parameters and fields are the only parts of an expression that are not closed; a closing parenthesis
or brace follows them.
-/

namespace LuaSyntax.Grammar

open Rule Operator

variable {α β : Type} {start : Start}

theorem StmtEnds.without_symbol {s : Symbol} (hs : resumesAt (.symbol s) = false)
    {next : Option Token} (h : StmtEnds next) : Without (· == .symbol s) next := by
  intro t ht
  rw [beq_eq_false_iff_ne]
  rintro rfl
  rw [(h _ ht).1] at hs
  cases hs

theorem refuses_following {s : Symbol} (hs : resumesAt (.symbol s) = false) {item : Rule α}
    (ts : List Token) (hends : StmtEnds ts.head?) :
    Refuses (do let _ ← symbol s; item) ts :=
  (needs_symbol s).bind ts (hends.without_symbol hs)

/-! ### Functions -/

theorem scheme_moreItems {item : Level → Rule α} (h : Scheme start true item) :
    Scheme .any true fun inner => many (do let _ ← symbol .comma; item inner) :=
  Scheme.many ((Scheme.symbol .comma).bind fun _ => h) nofun fun _ =>
    ⟨rfl, fun _ => refuses_following rfl⟩

theorem scheme_sepBy1 {item : Level → Rule α} (h : Scheme start true item) :
    Scheme start true fun inner => sepBy1 (item inner) (symbol .comma) :=
  h.bind fun first => (scheme_moreItems h).bind fun others => .pure (first :: others)

theorem scheme_exprList : Scheme .inner true exprList := scheme_sepBy1 .expr

theorem scheme_param : Scheme .token true fun _ => param :=
  .alt [fun _ => Param.name <$> name, fun _ => Param.vararg <$> symbol .ellipsis]
    (List.cons_ne_nil _ _) (by
      simp only [List.forall_mem_cons]
      exact ⟨Scheme.name.map _, (Scheme.symbol _).map _, List.forall_mem_nil _⟩) nofun

theorem scheme_nextParam : Scheme .any false fun _ => nextParam :=
  Scheme.loosely (Scheme.maybe ((Scheme.symbol .comma).bind fun _ => scheme_param) nofun)
    fun next => .pure (next.map fun p => (p, p.isName))

theorem scheme_params : Scheme .any false fun _ => params := by
  refine (scheme_param.maybe nofun).loosely (o := .any) (k := false) fun r => ?_
  match r with
  | none => exact (Scheme.pure []).loose
  | some (.vararg span) => exact (Scheme.pure [Param.vararg span]).loose
  | some (.name first) =>
    exact scheme_nextParam.collect.loosely fun others => .pure (Param.name first :: others)

/-- A block and the word that ends it. -/
theorem scheme_body (k : Keyword) {f : Level → Block → Rule β}
    (hf : ∀ b, Scheme .any true fun inner => f inner b) :
    Scheme .any true fun inner => (do let b ← inner.block; let _ ← keyword k; f inner b) :=
  Scheme.block.before fun b => (Scheme.keyword k).bind fun _ => hf b

theorem scheme_funcBody : Scheme .token true funcBody :=
  (Scheme.symbol .openParen).bind fun _ => scheme_params.before fun ps =>
    (Scheme.symbol .closeParen).bind fun _ => scheme_body .end_ fun body =>
      .pure (FuncBody.mk (ps.filterMap (·.name?)) (ps.findSome? (·.vararg?)) body)

theorem scheme_functionExpr : Scheme .token true functionExpr :=
  Scheme.located ((Scheme.keyword .function_).bind fun _ =>
    scheme_funcBody.bind fun body => .pure (Expr.function body)) nofun

/-! ### Tables -/

theorem scheme_keyedField : Scheme .token true keyedField :=
  (Scheme.symbol .openBracket).bind fun _ => Scheme.expr.bind fun key =>
    (Scheme.symbol .closeBracket).bind fun _ => (Scheme.symbol .equal).bind fun _ =>
    Scheme.expr.bind fun value => .pure (Field.keyed key value)

theorem scheme_namedField : Scheme .token true namedField :=
  Scheme.fieldName.bind fun n => Scheme.expr.bind fun value => .pure (Field.named n value)

theorem scheme_positionalField : Scheme .inner true positionalField :=
  Scheme.expr.bind fun value => .pure (Field.positional value)

theorem scheme_field : Scheme .inner true field :=
  Scheme.located (.alt [keyedField, namedField, positionalField] (List.cons_ne_nil _ _) (by
    simp only [List.forall_mem_cons]
    exact ⟨scheme_keyedField.asInner, scheme_namedField.asInner, scheme_positionalField,
      List.forall_mem_nil _⟩) nofun) nofun

theorem scheme_fieldSeparator : Scheme .token true fun _ => fieldSeparator :=
  Scheme.oneOf (List.cons_ne_nil _ _)

theorem scheme_fieldRound : Scheme .any false fieldRound := by
  refine (scheme_field.maybe nofun).loosely (o := .any) (k := false) fun r => ?_
  cases r with
  | none => exact (Scheme.pure none).loose
  | some f =>
    exact (scheme_fieldSeparator.maybe nofun).loosely fun separator =>
      .pure (some (f, separator.isSome))

theorem scheme_fields : Scheme .any false fields := scheme_fieldRound.collect

theorem scheme_table : Scheme .token true table :=
  Scheme.located ((Scheme.symbol .openBrace).bind fun _ => scheme_fields.before fun fs =>
    (Scheme.symbol .closeBrace).bind fun _ => .pure fs) nofun

/-! ### Names, calls and indexes -/

theorem scheme_nameHead : Scheme .token true fun _ => nameHead :=
  Scheme.name.bind fun n => .pure (n.map Head.name)

theorem scheme_parenHead : Scheme .token true parenHead :=
  Scheme.located ((Scheme.symbol .openParen).bind fun _ => Scheme.expr.bind fun e =>
    (Scheme.symbol .closeParen).bind fun _ => .pure (Head.paren e)) nofun

theorem scheme_head : Scheme .token true head :=
  .alt [fun _ => nameHead, parenHead] (List.cons_ne_nil _ _) (by
    simp only [List.forall_mem_cons]
    exact ⟨scheme_nameHead, scheme_parenHead, List.forall_mem_nil _⟩) nofun

theorem scheme_listArgs : Scheme .token true listArgs :=
  (Scheme.symbol .openParen).bind fun _ => (scheme_exprList.maybe nofun).before fun exprs =>
    (Scheme.symbol .closeParen).bind fun _ => .pure (Args.list (exprs.getD []))

theorem scheme_tableArgs : Scheme .token true tableArgs :=
  scheme_table.bind fun fs => .pure (Args.table fs.node)

theorem scheme_strArgs : Scheme .token true fun _ => strArgs :=
  (Scheme.satisfy .str).bind fun raw => .pure (Args.str raw.node)

theorem scheme_args : Scheme .token true args :=
  Scheme.located (.alt [listArgs, tableArgs, fun _ => strArgs] (List.cons_ne_nil _ _) (by
    simp only [List.forall_mem_cons]
    exact ⟨scheme_listArgs, scheme_tableArgs, scheme_strArgs, List.forall_mem_nil _⟩) nofun) nofun

theorem scheme_callSuffix : Scheme .token true callSuffix :=
  scheme_args.bind fun a => .pure (Suffix.call a.node)

theorem scheme_methodSuffix : Scheme .token true methodSuffix :=
  (Scheme.symbol .colon).bind fun _ => Scheme.name.bind fun n =>
    scheme_args.bind fun a => .pure (Suffix.method n a.node)

theorem scheme_indexSuffix : Scheme .token true indexSuffix :=
  (Scheme.symbol .openBracket).bind fun _ => Scheme.expr.bind fun e =>
    (Scheme.symbol .closeBracket).bind fun _ => .pure (Suffix.index e)

theorem scheme_fieldSuffix : Scheme .token true fun _ => fieldSuffix :=
  (Scheme.symbol .dot).bind fun _ => Scheme.name.bind fun n => .pure (Suffix.field n)

theorem scheme_suffix : Scheme .token true suffix :=
  Scheme.located (.alt [callSuffix, methodSuffix, indexSuffix, fun _ => fieldSuffix]
    (List.cons_ne_nil _ _) (by
      simp only [List.forall_mem_cons]
      exact ⟨scheme_callSuffix, scheme_methodSuffix, scheme_indexSuffix, scheme_fieldSuffix,
        List.forall_mem_nil _⟩) nofun) nofun

theorem refuses_suffix (inner : Level) (ts : List Token) (hends : StmtEnds ts.head?) :
    Refuses (suffix inner) ts := by
  refine needs_suffix inner ts fun t ht => ?_
  have hloose := hends.looser t ht
  rw [decide_eq_false_iff_not]
  omega

theorem scheme_suffixes : Scheme .any true fun inner => many (suffix inner) :=
  scheme_suffix.many nofun fun _ => ⟨rfl, refuses_suffix⟩

theorem scheme_prefixExp : Scheme .token true fun inner => prefixExp inner .unrestricted :=
  .prefixExp scheme_head scheme_suffix

/-! ### Operators -/

theorem scheme_accessExpr : Scheme .token true accessExpr :=
  scheme_prefixExp.bind fun p => .pure (Expr.ofAccess p)

theorem scheme_tableExpr : Scheme .token true tableExpr :=
  scheme_table.bind fun fs => .pure (fs.map Expr.table)

theorem scheme_literal (t : Token) (e : Expr) : Scheme .token true fun _ => literal t e :=
  (Scheme.token t).bind fun span => .pure (Located.mk e span)

/-- The alternatives of an atom. -/
abbrev atoms : List (Level → Rule (Located Expr)) :=
  [fun _ => literal (.keyword .nil_) .nil, fun _ => literal (.keyword .false_) (.boolean false),
    fun _ => literal (.keyword .true_) (.boolean true), fun _ => (·.map Expr.number) <$> number,
    fun _ => (·.map Expr.str) <$> str, fun _ => literal (.symbol .ellipsis) .vararg, functionExpr,
    accessExpr, tableExpr]

theorem scheme_of_mem_atoms : ∀ rule ∈ atoms, Scheme .token true rule := by
  simp only [atoms, List.forall_mem_cons]
  exact ⟨scheme_literal _ _, scheme_literal _ _, scheme_literal _ _,
    (Scheme.satisfy .number).map _, (Scheme.satisfy .str).map _, scheme_literal _ _,
    scheme_functionExpr, scheme_accessExpr, scheme_tableExpr, List.forall_mem_nil _⟩

theorem scheme_atom : Scheme .token true atom :=
  .alt atoms (List.cons_ne_nil _ _) scheme_of_mem_atoms nofun

theorem scheme_signed : Scheme .token true signed :=
  Scheme.manySeq (Scheme.oneOf (List.cons_ne_nil _ _)) fun ops =>
    scheme_atom.bind fun e => .pure (Signed.mk ops e)

section

variable {n : Nat} {ops : List (Token × BinOp)}

theorem Tier.refuses (h : Tier n ops) (hn : 0 < n) (ts : List Token) (hends : StmtEnds ts.head?) :
    Refuses (oneOf ops) ts := by
  refine h.needs ts fun t ht => ?_
  have hloose := hends.looser t ht
  rw [decide_eq_false_iff_not]
  omega

theorem scheme_operandRound (hne : ops ≠ []) (htier : Tier n ops) (hn : 0 < n)
    {operand : Level → Rule β} (h : Scheme .token true operand) :
    Scheme .any true fun inner => operandRound ops (operand inner) := by
  refine (Scheme.optional (Scheme.oneOf hne) nofun fun _ => ⟨rfl, fun _ => htier.refuses hn⟩).bind
    (o := .any) fun r => ?_
  cases r with
  | none => exact .pure none
  | some op => exact (h.bind fun a => .pure (some ((op, a), true))).free

theorem scheme_chain (hne : ops ≠ []) (htier : Tier n ops) (hn : 0 < n)
    {operand : Level → Rule (Located Expr)}
    (h : Scheme .token true operand) : Scheme .token true fun inner => chain (operand inner) ops :=
  h.bind fun first => (scheme_operandRound hne htier hn h).collect.bind fun others =>
    .pure (first, others)

theorem scheme_leftGrouped (hne : ops ≠ []) (htier : Tier n ops) (hn : 0 < n)
    {operand : Level → Rule (Located Expr)} (h : Scheme .token true operand) :
    Scheme .token true fun inner => leftGrouped (operand inner) ops :=
  (scheme_chain hne htier hn h).bind fun ch => .pure (groupLeft ch)

end

theorem scheme_unaryExpr : Scheme .token true unaryExpr := by
  rw [funext unaryExpr_eq]
  have hround := scheme_operandRound (List.cons_ne_nil _ _) tier_pow (by decide) scheme_signed
  exact scheme_signed.bind fun first => hround.collect.bind fun others =>
    .pure (groupPower first others)

theorem scheme_mulExpr : Scheme .token true mulExpr :=
  scheme_leftGrouped (List.cons_ne_nil _ _) tier_mul (by decide) scheme_unaryExpr

theorem scheme_addExpr : Scheme .token true addExpr :=
  scheme_leftGrouped (List.cons_ne_nil _ _) tier_add (by decide) scheme_mulExpr

theorem scheme_concatExpr : Scheme .token true concatExpr := by
  rw [funext concatExpr_eq]
  exact (scheme_chain (List.cons_ne_nil _ _) tier_concat (by decide) scheme_addExpr).bind fun ch =>
    .pure (groupRight ch.1 ch.2)

theorem scheme_compareExpr : Scheme .token true compareExpr :=
  scheme_leftGrouped (List.cons_ne_nil _ _) tier_compare (by decide) scheme_concatExpr

theorem scheme_andExpr : Scheme .token true andExpr :=
  scheme_leftGrouped (List.cons_ne_nil _ _) tier_and (by decide) scheme_compareExpr

theorem scheme_orExpr : Scheme .token true orExpr :=
  scheme_leftGrouped (List.cons_ne_nil _ _) tier_or (by decide) scheme_andExpr

end LuaSyntax.Grammar
