import LuaSyntax.Proofs.Grammar.ExprScheme
import LuaSyntax.Proofs.Rule.Repair
/-!
# Repairs in expressions

All rules that begin with a token of their own are thrifty. A field of a table is not: it may begin
with an expression past the limit, or with a name that turns out to have no `=`. But it is only ever
tried, and so never repaired as a whole.
-/

namespace LuaSyntax.Grammar

open Rule Operator

variable {α β : Type} {law : Law} {L : Language} {inner : Level}

/-- The rules for what nests one level deeper repair things sensibly. -/
structure Level.Steady (inner : Level) : Prop where
  expr : Rule.Steady inner.expr
  opening : Opening inner.expr
  block : Rule.Steady inner.block

/-! ### Functions -/

theorem thrifty_param : Thrifty param := by
  refine .alt (List.cons_ne_nil _ _) ?_
  simp only [List.forall_mem_cons]
  exact ⟨thrifty_name.map _, (thrifty_symbol _).map _, List.forall_mem_nil _⟩

theorem steady_params : Steady params := by
  refine thrifty_param.tentative.optional.bind fun r => ?_
  match r with
  | none => exact .pure []
  | some (.vararg span) => exact .pure [Param.vararg span]
  | some (.name first) =>
    have hnext := ((thrifty_symbol .comma).bind fun _ => thrifty_param.steady).tentative.optional
    have hround := hnext.bind fun next => .pure (next.map fun p => (p, p.isName))
    exact hround.collect.bind fun others => .pure (Param.name first :: others)

/-- A block and the word that ends it. -/
theorem steady_body (h : inner.Steady) (k : Keyword) {f : Block → Rule β}
    (hf : ∀ b, Steady (f b)) : Steady (do let b ← inner.block; let _ ← keyword k; f b) :=
  h.block.bind fun b => (thrifty_keyword k).steady.bind fun _ => hf b

theorem thrifty_funcBody (h : inner.Steady) : Thrifty (funcBody inner) :=
  (thrifty_symbol .openParen).bind fun _ => steady_params.bind fun _ =>
    (thrifty_symbol .closeParen).steady.bind fun _ => steady_body h .end_ fun _ => .pure _

theorem thrifty_functionExpr (h : inner.Steady) : Thrifty (functionExpr inner) :=
  .located ((thrifty_keyword .function_).bind fun _ =>
    (thrifty_funcBody h).steady.bind fun _ => .pure _)

/-! ### Tables -/

theorem steady_exprList (h : inner.Steady) : Steady (exprList inner) :=
  h.expr.sepBy1 (thrifty_symbol .comma)

theorem opening_exprList (h : inner.Steady) : Opening (exprList inner) :=
  h.opening.bind fun first =>
    ((thrifty_symbol .comma).bind fun _ => h.expr).toOrderly.many.bind fun others =>
      .pure (first :: others)

theorem thrifty_keyedField (h : inner.Steady) : Thrifty (keyedField inner) :=
  (thrifty_symbol .openBracket).bind fun _ => h.expr.bind fun _ =>
    (thrifty_symbol .closeBracket).steady.bind fun _ => (thrifty_symbol .equal).steady.bind fun _ =>
    h.expr.bind fun _ => .pure _

/-- The lookahead repairs nothing. -/
theorem leads_of_strict {m : Matcher α} {c : Context} {s t : State} {a : Located α}
    (hhint : s.hint = none) (hok : satisfy m { c with mode := .strict } s = .ok a t) :
    s.Leads t := by
  rcases satisfy_of_strict (m := m) (c := { c with mode := .strict }) (s := s) rfl with
    ⟨u, b, -, -, hread⟩ | ⟨why, hstuck⟩
  · cases hread.symm.trans hok
    exact .of_diags hhint rfl
  · cases hstuck.symm.trans hok

theorem tentative_fieldName (hinner : inner.Sound law L) : Tentative fieldName where
  toOpening := (opens_fieldName hinner).opening
  leads {c s a t} _ hhint hc hok := by
    simp only [fieldName, attempt, hc] at hok
    split at hok
    · next hfalse => cases hfalse
    · split at hok
      · next hboth =>
        cases hok
        obtain ⟨n, u, hname, hrest⟩ := ok_of_bind hboth
        obtain ⟨_, v, hequal, hrest⟩ := ok_of_bind hrest
        obtain ⟨_, w, hequal, hspan⟩ := ok_of_bind hequal
        cases hspan
        cases hrest
        have hu := leads_of_strict hhint hname
        exact hu.trans (leads_of_strict hu.hint hequal)
      · cases hok

theorem tentative_field (hinner : inner.Sound law L) (h : inner.Steady) :
    Tentative (field inner) := by
  refine .located (.alt (List.cons_ne_nil _ _) ?_)
  simp only [List.forall_mem_cons]
  refine ⟨(thrifty_keyedField h).tentative, (tentative_fieldName hinner).bind fun n =>
    h.expr.bind fun value => .pure _, ?_, List.forall_mem_nil _⟩
  exact (h.expr.tentative h.opening).bind fun value => .pure _

theorem thrifty_table (hinner : inner.Sound law L) (h : inner.Steady) :
    Thrifty (table inner) := by
  have hround : Steady (fieldRound inner) := by
    refine (tentative_field hinner h).optional.bind fun r => ?_
    cases r with
    | none => exact .pure none
    | some f =>
      have hseparator : Thrifty fieldSeparator := thrifty_oneOf (List.cons_ne_nil _ _)
      exact hseparator.tentative.optional.bind fun separator =>
        .pure (some (f, separator.isSome))
  exact .located ((thrifty_symbol .openBrace).bind fun _ => hround.collect.bind fun _ =>
    (thrifty_symbol .closeBrace).steady.bind fun _ => .pure _)

/-! ### Names, calls and indexes -/

theorem thrifty_head (h : inner.Steady) : Thrifty (head inner) := by
  have hparen : Thrifty (parenHead inner) :=
    .located ((thrifty_symbol .openParen).bind fun _ => h.expr.bind fun _ =>
      (thrifty_symbol .closeParen).steady.bind fun _ => .pure _)
  refine .alt (List.cons_ne_nil _ _) ?_
  simp only [List.forall_mem_cons]
  exact ⟨thrifty_name.bind fun _ => .pure _, hparen, List.forall_mem_nil _⟩

theorem thrifty_args (hinner : inner.Sound law L) (h : inner.Steady) :
    Thrifty (args inner) := by
  have hlist : Thrifty (listArgs inner) :=
    (thrifty_symbol .openParen).bind fun _ =>
      ((steady_exprList h).tentative (opening_exprList h)).optional.bind fun _ =>
      (thrifty_symbol .closeParen).steady.bind fun _ => .pure _
  refine .located (.alt (List.cons_ne_nil _ _) ?_)
  simp only [List.forall_mem_cons]
  exact ⟨hlist, (thrifty_table hinner h).bind fun _ => .pure _,
    thrifty_str.bind fun _ => .pure _, List.forall_mem_nil _⟩

theorem thrifty_suffix (hinner : inner.Sound law L) (h : inner.Steady) :
    Thrifty (suffix inner) := by
  have hargs := thrifty_args hinner h
  refine .located (.alt (List.cons_ne_nil _ _) ?_)
  simp only [List.forall_mem_cons]
  refine ⟨hargs.bind fun _ => .pure _, ?_, ?_, ?_, List.forall_mem_nil _⟩
  · exact (thrifty_symbol .colon).bind fun _ => thrifty_name.steady.bind fun _ =>
      hargs.steady.bind fun _ => .pure _
  · exact (thrifty_symbol .openBracket).bind fun _ => h.expr.bind fun _ =>
      (thrifty_symbol .closeBracket).steady.bind fun _ => .pure _
  · exact (thrifty_symbol .dot).bind fun _ => thrifty_name.steady.bind fun _ => .pure _

theorem steady_suffixes (hinner : inner.Sound law L) (h : inner.Steady) :
    Steady (many (suffix inner)) :=
  (thrifty_suffix hinner h).tentative.many

theorem thrifty_prefixExp (hinner : inner.Sound law L) (h : inner.Steady) :
    Thrifty (prefixExp inner .unrestricted) := by
  have hparts : Thrifty (do
      let a ← head inner
      return (⟨a, ← many (suffix inner)⟩ : PrefixExp)) :=
    (thrifty_head h).bind fun _ => (steady_suffixes hinner h).bind fun _ => .pure _
  exact hparts.congr fun c s hs => prefixExp_unrestricted hinner hs

/-! ### Operators -/

theorem thrifty_literal (t : Token) (e : Expr) : Thrifty (literal t e) :=
  (thrifty_token t).bind fun _ => .pure _

theorem thrifty_atom (hinner : inner.Sound law L) (h : inner.Steady) :
    Thrifty (atom inner) := by
  refine .alt (List.cons_ne_nil _ _) ?_
  simp only [List.forall_mem_cons]
  exact ⟨thrifty_literal _ _, thrifty_literal _ _, thrifty_literal _ _, thrifty_number.map _,
    thrifty_str.map _, thrifty_literal _ _, thrifty_functionExpr h,
    (thrifty_prefixExp hinner h).bind fun _ => .pure _,
    (thrifty_table hinner h).bind fun _ => .pure _, List.forall_mem_nil _⟩

theorem thrifty_signed (hinner : inner.Sound law L) (h : inner.Steady) :
    Thrifty (signed inner) :=
  Thrifty.many_bind (thrifty_oneOf (List.cons_ne_nil _ _)) fun _ =>
    (thrifty_atom hinner h).bind fun _ => .pure _

theorem steady_operandRound {ops : List (Token × BinOp)} (hne : ops ≠ []) {operand : Rule β}
    (h : Thrifty operand) : Steady (operandRound ops operand) := by
  refine (thrifty_oneOf hne).tentative.optional.bind fun r => ?_
  cases r with
  | none => exact .pure none
  | some op => exact h.steady.bind fun a => .pure (some ((op, a), true))

theorem thrifty_chain {ops : List (Token × BinOp)} (hne : ops ≠ [])
    {operand : Rule (Located Expr)} (h : Thrifty operand) : Thrifty (chain operand ops) :=
  h.bind fun _ => (steady_operandRound hne h).collect.bind fun _ => .pure _

theorem thrifty_leftGrouped {ops : List (Token × BinOp)} (hne : ops ≠ [])
    {operand : Rule (Located Expr)} (h : Thrifty operand) : Thrifty (leftGrouped operand ops) :=
  (thrifty_chain hne h).bind fun _ => .pure _

theorem thrifty_unaryExpr (hinner : inner.Sound law L) (h : inner.Steady) :
    Thrifty (unaryExpr inner) := by
  rw [unaryExpr_eq]
  exact (thrifty_signed hinner h).bind fun _ =>
    (steady_operandRound (List.cons_ne_nil _ _) (thrifty_signed hinner h)).collect.bind fun _ =>
    .pure _

theorem thrifty_addExpr (hinner : inner.Sound law L) (h : inner.Steady) :
    Thrifty (addExpr inner) :=
  thrifty_leftGrouped (List.cons_ne_nil _ _)
    (thrifty_leftGrouped (List.cons_ne_nil _ _) (thrifty_unaryExpr hinner h))

theorem thrifty_concatExpr (hinner : inner.Sound law L) (h : inner.Steady) :
    Thrifty (concatExpr inner) := by
  rw [concatExpr_eq]
  exact (thrifty_chain (List.cons_ne_nil _ _) (thrifty_addExpr hinner h)).bind fun _ => .pure _

theorem thrifty_orExpr (hinner : inner.Sound law L) (h : inner.Steady) :
    Thrifty (orExpr inner) :=
  thrifty_leftGrouped (List.cons_ne_nil _ _) (thrifty_leftGrouped (List.cons_ne_nil _ _)
    (thrifty_leftGrouped (List.cons_ne_nil _ _) (thrifty_concatExpr hinner h)))

end LuaSyntax.Grammar
