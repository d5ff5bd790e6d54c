import LuaSyntax.Proofs.Grammar.Alike
import LuaSyntax.Proofs.Rule.Cost
/-!
# What an expression and a block leave to the level below

A choice between atoms that all fail is repaired with a `nil`, since nothing costs less. So an
expression reads a token before it runs a rule one level down, and a block does so because it only
tries its statements. In either case it is enough for the runs over two levels to be alike that the
levels run alike past the next token.
-/

namespace LuaSyntax.Grammar

open Rule Operator

variable {α β : Type} {inner inner' : Level} {law : Law} {L : Language}

/-! ### Atoms -/

theorem costs_brackets {s : Symbol} (h : 4 ≤ s.insertionCost) {f : Level → Span → Rule α}
    {start : Start} {closed : Bool} (hf : ∀ span, Scheme start closed fun inner => f inner span)
    (hinner : inner.Sound law L) : Costs (4 ≤ ·) (symbol s >>= f inner) :=
  (costs_token (t := .symbol s) h).bind ((Scheme.symbol s).begins hinner)
    fun span => (hf span).orderly hinner

theorem costs_head (hinner : inner.Sound law L) : Costs (4 ≤ ·) (head inner) := by
  have hname : Costs (4 ≤ ·) nameHead :=
    (costs_satisfy (m := .name) (by decide)).bind (opening_satisfy _) fun n => .pure _
  have hparen : Costs (4 ≤ ·) (parenHead inner) :=
    (costs_brackets (by decide) (fun _ => Scheme.expr.bind fun e =>
      (Scheme.symbol .closeParen).bind fun _ => .pure (Head.paren e)) hinner).located
  refine .alt (List.cons_ne_nil _ _) ?_ ?_ <;> simp only [List.forall_mem_cons]
  · exact ⟨scheme_nameHead.begins hinner, scheme_parenHead.begins hinner,
      List.forall_mem_nil _⟩
  · exact ⟨hname, hparen, List.forall_mem_nil _⟩

theorem costs_functionExpr (hinner : inner.Sound law L) : Costs (4 ≤ ·) (functionExpr inner) :=
  ((costs_token (t := .keyword .function_) (by decide)).bind
    ((Scheme.keyword .function_).begins hinner) fun _ =>
      (scheme_funcBody.orderly hinner).bind fun body => .pure _).located

theorem costs_accessExpr (hinner : inner.Sound law L) : Costs (4 ≤ ·) (accessExpr inner) := by
  have hprefix : Costs (4 ≤ ·) (prefixExp inner .unrestricted) := by
    intro c s why t hs herr
    rw [prefixExp_unrestricted hinner hs] at herr
    exact (costs_head hinner).bind (scheme_head.begins hinner)
      (fun a => (scheme_suffixes.orderly hinner).bind fun suffixes => .pure _) c s why t hs herr
  exact hprefix.bind (scheme_prefixExp.begins hinner) fun p => .pure _

theorem costs_tableExpr (hinner : inner.Sound law L) : Costs (4 ≤ ·) (tableExpr inner) := by
  have htable : Costs (4 ≤ ·) (table inner) :=
    (costs_brackets (by decide) (fun _ => scheme_fields.before fun fs =>
      (Scheme.symbol .closeBrace).bind fun _ => .pure fs) hinner).located
  exact htable.bind (scheme_table.begins hinner) fun fs => .pure _

theorem costs_literal {P : Nat → Prop} {t : Token} (h : P t.insertionCost) (e : Expr) :
    Costs P (literal t e) :=
  (costs_token h).bind (opening_token t) fun _ => .pure _

theorem costs_atoms (hinner : inner.Sound law L) : ∀ rule ∈ atoms, Costs (4 ≤ ·) (rule inner) := by
  simp only [atoms, List.forall_mem_cons]
  exact ⟨costs_literal (by decide) _, costs_literal (by decide) _, costs_literal (by decide) _,
    (costs_satisfy (m := .number) (by decide)).map _ (opening_satisfy _),
    (costs_satisfy (m := .str) (by decide)).map _ (opening_satisfy _),
    costs_literal (by decide) _, costs_functionExpr hinner, costs_accessExpr hinner,
    costs_tableExpr hinner, List.forall_mem_nil _⟩

/-- A missing atom is a `nil`. -/
theorem alike_atom (hinner : inner'.Sound law L) :
    AlikeWhere (inner.AlikePast inner' 1) (atom inner) (atom inner') := by
  intro c s hs halike
  have hatoms : ∀ rule ∈ atoms,
      AlikeWhere (inner.AlikeFresh inner') (rule inner) (rule inner') :=
    fun rule hrule => (scheme_of_mem_atoms rule hrule).fresh hinner
  refine alt_alike byCursor_alikeFresh hatoms hs (halike.fresh hs) ?_
  intro _ r failures t hfirst hfind _
  have hleast : ∀ why ∈ failures, 4 ≤ why.cost := by
    refine Costs.of_firstOf ?_ hs.speculating hfirst
    rw [List.forall_mem_map]
    exact costs_atoms hinner
  obtain ⟨why, u, others, rfl, hnil⟩ := exists_failure_of_firstOf hfirst
  have hcost : why.cost = 4 := costs_literal (P := (· = 4)) rfl .nil _ s why u hs.speculating hnil
  rw [atoms, find?_first (Nat.le_of_eq hcost) hleast] at hfind
  cases hfind
  rfl

/-! ### Operators -/

section

variable {operand operand' : Rule β} {ops : List (Token × BinOp)}

theorem alike_operands (hops : ops ≠ [])
    (h : AlikeWhere (inner.AlikePast inner' 1) operand operand') (horderly : Orderly operand') :
    AlikeWhere (inner.AlikePast inner' 1) (operands ops operand) (operands ops operand') := by
  have hoperator := (opening_oneOf hops).toOrderly.optional
  refine .collect ?_ (hoperator.bind fun r => ?_) fun _ halike _ _ => halike.after
  · refine (AlikeWhere.refl _).bind hoperator (fun r => ?_) fun _ halike _ => halike.after
    cases r with
    | none => exact .refl _
    | some op => exact h.give fun a => some ((op, a), true)
  · cases r with
    | none => exact .pure none
    | some op => exact horderly.bind fun a => .pure (some ((op, a), true))

theorem alike_leftGrouped (hops : ops ≠ []) {operand operand' : Rule (Located Expr)}
    (h : AlikeWhere (inner.AlikePast inner' 1) operand operand') (horderly : Orderly operand') :
    AlikeWhere (inner.AlikePast inner' 1) (leftGrouped operand ops)
      (leftGrouped operand' ops) := by
  rw [leftGrouped_eq, leftGrouped_eq]
  exact h.bind horderly (fun first =>
    (alike_operands hops h horderly).give fun others => groupLeft (first, others))
    fun _ halike _ => halike.after

end

theorem alike_signed (hinner : inner'.Sound law L) :
    AlikeWhere (inner.AlikePast inner' 1) (signed inner) (signed inner') :=
  (AlikeWhere.refl _).bind (opening_oneOf (List.cons_ne_nil _ _)).toOrderly.many
    (fun ops => (alike_atom hinner).give (Signed.mk ops)) fun _ halike _ => halike.after

theorem alike_unaryExpr (hinner : inner'.Sound law L) :
    AlikeWhere (inner.AlikePast inner' 1) (unaryExpr inner) (unaryExpr inner') := by
  rw [unaryExpr_eq inner, unaryExpr_eq inner']
  have horderly := scheme_signed.orderly hinner
  have hsigned : AlikeWhere (inner.AlikePast inner' 1) (signed inner) (signed inner') :=
    alike_signed hinner
  have hothers := alike_operands (List.cons_ne_nil _ _ : powOps ≠ []) hsigned horderly
  exact hsigned.bind horderly
    (fun first => hothers.give fun others => groupPower first others) fun _ halike _ => halike.after

theorem alike_concatExpr (hinner : inner'.Sound law L)
    (h : AlikeWhere (inner.AlikePast inner' 1) (addExpr inner) (addExpr inner')) :
    AlikeWhere (inner.AlikePast inner' 1) (concatExpr inner) (concatExpr inner') := by
  rw [concatExpr_eq inner, concatExpr_eq inner']
  have horderly := scheme_addExpr.orderly hinner
  have hothers := alike_operands (List.cons_ne_nil _ _ : concatOps ≠ []) h horderly
  have hchain : AlikeWhere (inner.AlikePast inner' 1) (chain (addExpr inner) concatOps)
      (chain (addExpr inner') concatOps) :=
    h.bind horderly (fun first => hothers.give fun others => (first, others))
      fun _ halike _ => halike.after
  exact hchain.give fun ch => groupRight ch.1 ch.2

/-- An expression reads a token before it runs a rule one level down. -/
theorem alike_orExpr (hinner : inner'.Sound law L) :
    AlikeWhere (inner.AlikePast inner' 1) (orExpr inner) (orExpr inner') := by
  have hmul : AlikeWhere (inner.AlikePast inner' 1) (mulExpr inner) (mulExpr inner') :=
    alike_leftGrouped (List.cons_ne_nil _ _) (alike_unaryExpr hinner)
      (scheme_unaryExpr.orderly hinner)
  have hadd : AlikeWhere (inner.AlikePast inner' 1) (addExpr inner) (addExpr inner') :=
    alike_leftGrouped (List.cons_ne_nil _ _) hmul (scheme_mulExpr.orderly hinner)
  have hcompare : AlikeWhere (inner.AlikePast inner' 1) (compareExpr inner) (compareExpr inner') :=
    alike_leftGrouped (List.cons_ne_nil _ _) (alike_concatExpr hinner hadd)
      (scheme_concatExpr.orderly hinner)
  have hand : AlikeWhere (inner.AlikePast inner' 1) (andExpr inner) (andExpr inner') :=
    alike_leftGrouped (List.cons_ne_nil _ _) hcompare (scheme_compareExpr.orderly hinner)
  exact alike_leftGrouped (List.cons_ne_nil _ _) hand (scheme_andExpr.orderly hinner)

/-! ### Blocks -/

/-- The next part of a block whose statements are read by `oneStmt`. -/
def partWith (oneStmt : Rule (Located Stmt)) (inner : Level) :
    Rule (Option (BlockPart × Bool)) := do
  let _ ← many (symbol .semicolon)
  if let some s ← optional oneStmt then
    return some (.stmt s, true)
  if let some r ← optional (returnStmt inner) then
    return some (.ret r, false)
  match ← peek with
  | none => return none
  | some t =>
    if t.endsBlock then return none
    skipJunk
    return some (.junk, true)

theorem partWith_stmt (inner : Level) : partWith (stmt inner) inner = blockPart inner := rfl

/-- The contents of a block whose statements are read by `oneStmt`. -/
def stmtsWith (oneStmt : Rule (Located Stmt)) (inner : Level) : Rule Block := do
  return blockOf (← collect (partWith oneStmt inner))

theorem stmtsWith_stmt (inner : Level) : stmtsWith (stmt inner) inner = stmts inner := rfl

/-- A block only tries its statements, so they run uncommitted. -/
theorem alike_stmtsWith {P : Context → State → Prop} {oneStmt : Rule (Located Stmt)}
    (hinner : inner'.Sound law L)
    (hstmt : ∀ c s, c.Proper s → P c s →
      oneStmt (c.speculating s) s = stmt inner' (c.speculating s) s)
    (hpast : ∀ c s, c.Proper s → P c s → inner.AlikePast inner' 1 c s)
    (hnext : ∀ {c s t}, P c s → c.Onward s t → P c t) :
    AlikeWhere P (stmtsWith oneStmt inner) (stmts inner') := by
  have hsemicolons := (scheme_semicolons.orderly hinner)
  have honeStmt : AlikeWhere P (optional oneStmt) (optional (stmt inner')) := by
    intro c s hs hP
    rw [Rule.optional, Rule.optional, hstmt c s hs hP]
  have hreturn : AlikeWhere P (optional (returnStmt inner)) (optional (returnStmt inner')) :=
    (scheme_returnStmt.fresh hinner).optional fun c s hs hP => (hpast c s hs hP).fresh hs
  have hpart : AlikeWhere P (partWith oneStmt inner) (blockPart inner') := by
    rw [← partWith_stmt]
    refine (AlikeWhere.refl _).bind hsemicolons (fun _ => ?_) fun _ hP _ ht => hnext hP ht
    refine honeStmt.bind (scheme_stmt.orderly hinner).optional (fun r => ?_)
      fun _ hP _ ht => hnext hP ht
    cases r with
    | some s => exact .refl _
    | none =>
      refine hreturn.bind (P := P) (Q := P) (scheme_returnStmt.orderly hinner).optional
        (fun r => ?_) fun _ hP _ ht => hnext hP ht
      cases r <;> exact .refl _
  have hparts := hpart.collect (scheme_blockPart.orderly hinner) fun _ hP _ _ ht => hnext hP ht
  exact hparts.give blockOf

/-- So does a block. -/
theorem alike_stmts (hinner : inner'.Sound law L) :
    AlikeWhere (inner.AlikePast inner' 1) (stmts inner) (stmts inner') := by
  rw [← stmtsWith_stmt inner]
  exact alike_stmtsWith hinner (fun _ s hs halike => scheme_stmt.fresh hinner _ s hs.speculating
    (halike.fresh hs)) (fun _ _ _ halike => halike) .after

end LuaSyntax.Grammar
