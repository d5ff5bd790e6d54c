import LuaSyntax.Proofs.Grammar.ExprScheme
/-!
# Schemes of the statement rules

All statements are closed. A block is not: what starts something new after a statement may be a part
of the block.
-/

namespace LuaSyntax.Grammar

open Rule

variable {α : Type} {start : Start} {closed : Bool}

theorem scheme_following (s : Symbol) {item : Level → Rule α} (h : Scheme start closed item) :
    Scheme .token closed fun inner => following s (item inner) :=
  (Scheme.symbol s).seq (fun _ => h) fun hclosed => ⟨hclosed, .inl rfl⟩

theorem scheme_funcName : Scheme .token false fun _ => funcName := by
  have hothers := (scheme_following .dot Scheme.name).several nofun
  have hmethod := (scheme_following .colon Scheme.name).maybe nofun
  exact Scheme.name.loosely fun first => hothers.loosely (o := .any) (k := false) fun others =>
    hmethod.loosely fun method => .pure (FuncName.mk (first :: others) method)

/-! ### Simple statements -/

theorem scheme_breakStmt : Scheme .token true fun _ => breakStmt :=
  (Scheme.keyword .break_).bind fun _ => .pure Stmt.breakLoop

theorem scheme_continueStmt : Scheme .token true fun _ => continueStmt :=
  (Scheme.keyword .continue_).bind fun _ => .pure Stmt.continueLoop

theorem scheme_labelStmt : Scheme .token true fun _ => labelStmt :=
  (Scheme.satisfy .label).bind fun n => .pure (Stmt.label n.node)

theorem scheme_gotoStmt : Scheme .token true fun _ => gotoStmt :=
  (Scheme.keyword .goto_).bind fun _ => Scheme.name.bind fun n => .pure (Stmt.goto n)

theorem scheme_doStmt : Scheme .token true doStmt :=
  (Scheme.keyword .do_).bind fun _ => scheme_body .end_ fun body => .pure (Stmt.block body)

theorem scheme_whileStmt : Scheme .token true whileStmt :=
  (Scheme.keyword .while_).bind fun _ => Scheme.expr.bind fun cond =>
    (Scheme.keyword .do_).bind fun _ => scheme_body .end_ fun body =>
    .pure (Stmt.whileLoop cond body)

theorem scheme_repeatStmt : Scheme .token true repeatStmt :=
  (Scheme.keyword .repeat_).bind fun _ => scheme_body .until_ fun body =>
    (Scheme.expr.bind fun cond => .pure (Stmt.repeatLoop body cond)).free

/-! ### Conditionals -/

theorem scheme_ifClause : Scheme .inner false ifClause :=
  Scheme.expr.loosely fun cond => (Scheme.keyword .then_).loosely fun _ =>
    Scheme.block.loosely fun body => .pure (IfClause.mk cond body)

theorem scheme_elseifClause : Scheme .token false elseifClause :=
  (Scheme.keyword .elseif_).loosely fun _ => scheme_ifClause

theorem scheme_elseBlock : Scheme .token false elseBlock :=
  (Scheme.keyword .else_).loosely fun _ => Scheme.block

/-- The clauses of a conditional, up to its `end`. -/
def clauses (inner : Level) : Rule (List IfClause × Option Block) := do
  let first ← ifClause inner
  let others ← many (elseifClause inner)
  return (first :: others, ← optional (elseBlock inner))

theorem ifStmt_eq (inner : Level) : ifStmt inner = (do
    let _ ← keyword .if_
    let (branches, otherwise) ← clauses inner
    let _ ← keyword .end_
    return .conditional branches otherwise) := by
  simp only [ifStmt, clauses, bind_assoc, pure_bind]

theorem scheme_clauses : Scheme .inner false clauses :=
  scheme_ifClause.loosely fun first =>
    (scheme_elseifClause.several nofun).loosely (o := .any) (k := false) fun others =>
    (scheme_elseBlock.maybe nofun).loosely fun otherwise => .pure (first :: others, otherwise)

theorem scheme_ifStmt : Scheme .token true ifStmt := by
  rw [funext ifStmt_eq]
  exact (Scheme.keyword .if_).bind fun _ => scheme_clauses.before fun (branches, otherwise) =>
    (Scheme.keyword .end_).bind fun _ => .pure (Stmt.conditional branches otherwise)

/-! ### Loops -/

theorem scheme_numericFor (forSpan : Span) (var : Located Name) :
    Scheme .token true fun inner => numericFor inner forSpan var :=
  (Scheme.symbol .equal).bind fun _ => Scheme.expr.bind fun start =>
    (Scheme.symbol .comma).bind fun _ => Scheme.expr.bind fun stop =>
    ((scheme_following .comma Scheme.expr).maybe nofun).before fun step =>
    (Scheme.keyword .do_).bind fun _ => scheme_body .end_ fun body =>
    .pure (Stmt.numericFor var start stop (step.getD ⟨.number "1", forSpan⟩) body)

theorem scheme_genericFor (first : Located Name) :
    Scheme .token true fun inner => genericFor inner first :=
  (scheme_following .comma Scheme.name).manySeq fun others =>
    (Scheme.keyword .in_).bind fun _ => scheme_exprList.bind fun exprs =>
    (Scheme.keyword .do_).bind fun _ => scheme_body .end_ fun body =>
    .pure (Stmt.genericFor (first :: others) exprs body)

theorem scheme_forStmt : Scheme .token true forStmt :=
  (Scheme.keyword .for_).bind fun forSpan => Scheme.name.bind fun var =>
    .alt (o := .token)
      [fun inner => numericFor inner forSpan var, fun inner => genericFor inner var]
      (List.cons_ne_nil _ _) (by
        simp only [List.forall_mem_cons]
        exact ⟨scheme_numericFor forSpan var, scheme_genericFor var, List.forall_mem_nil _⟩) nofun

/-! ### Declarations -/

theorem scheme_functionStmt : Scheme .token true functionStmt :=
  (Scheme.keyword .function_).bind fun _ => scheme_funcName.before fun n =>
    scheme_funcBody.bind fun body => .pure (Stmt.function n body)

theorem scheme_localFunction : Scheme .token true localFunction :=
  (Scheme.keyword .function_).bind fun _ => Scheme.name.bind fun n =>
    scheme_funcBody.bind fun body => .pure (Stmt.localFunction n body)

/-- Where the next token starts does not matter to a declaration, since it has a last name. -/
theorem localDecl_eq (inner : Level) : localDecl inner = (do
    let first ← name
    let others ← many (following .comma name)
    match ← optional (symbol .equal) with
    | some equal =>
      return .localDecl (first :: others)
        (Expr.padWithNil (first :: others).length equal (← exprList inner))
    | none =>
      return .localDecl (first :: others)
        (Expr.padWithNil (first :: others).length
          ((first :: others).getLast (List.cons_ne_nil _ _)).span [])) := by
  simp only [localDecl, sepBy1, following, bind_assoc, pure_bind]
  refine bind_congr fun first => bind_congr fun others => bind_congr fun r => ?_
  cases r with
  | some equal => rfl
  | none =>
    rw [List.getLast?_eq_getLast_of_ne_nil (List.cons_ne_nil _ _)]
    rfl

theorem scheme_localDecl : Scheme .token true localDecl := by
  rw [funext localDecl_eq]
  refine Scheme.name.bind fun first => (scheme_moreItems Scheme.name).bind fun others =>
    ((Scheme.symbol .equal).optional nofun fun _ => ⟨rfl, fun _ ts hends => ?_⟩).bind
      (o := .any) fun r => ?_
  · exact needs_symbol .equal ts (hends.without_symbol rfl)
  · cases r with
    | none => exact .pure _
    | some equal =>
      exact (scheme_exprList.bind fun values => .pure _).free

theorem scheme_localStmt : Scheme .token true localStmt :=
  (Scheme.keyword .local_).bind fun _ =>
    .alt (o := .token) [localFunction, localDecl] (List.cons_ne_nil _ _) (by
      simp only [List.forall_mem_cons]
      exact ⟨scheme_localFunction, scheme_localDecl, List.forall_mem_nil _⟩) nofun

/-! ### Calls and assignments -/

theorem scheme_checkedTarget (target : PrefixExp) :
    Scheme .any true fun _ => checkedTarget target := by
  unfold checkedTarget
  cases targetCause? target with
  | none => exact .pure _
  | some cause => exact (Scheme.record _ rfl).bind fun _ => .pure _

theorem scheme_targetRound : Scheme .any true targetRound := by
  refine ((scheme_following .comma scheme_prefixExp).optional nofun fun _ => ?_).bind
    (o := .any) fun r => ?_
  · exact ⟨rfl, fun _ => refuses_following rfl⟩
  · cases r with
    | none => exact .pure none
    | some target =>
      exact (scheme_checkedTarget target).bind fun checked => .pure (some (checked, true))

theorem scheme_moreTargets : Scheme .any true moreTargets := scheme_targetRound.collect

theorem scheme_assignment (first : PrefixExp) :
    Scheme .any true fun inner => assignment inner first :=
  (scheme_checkedTarget first).bind fun target => scheme_moreTargets.bind fun more =>
    (Scheme.symbol .equal).bind fun equal => scheme_exprList.bind fun values =>
    .pure (Stmt.assign (target :: more)
      (Expr.padWithNil (target :: more).length equal values))

/-- Whether a call before the token is a whole statement. -/
def endsCall (next : Option (Located Token)) : Bool :=
  next.map (·.node) != some (.symbol .comma) && next.map (·.node) != some (.symbol .equal)

theorem endsCall_of_stmtEnds {next : Option (Located Token)} (h : StmtEnds (next.map (·.node))) :
    endsCall next = true := by
  simp only [endsCall, Bool.and_eq_true, bne_iff_ne]
  exact ⟨h.ne_comma, h.ne_equal⟩

theorem afterPrefixExp_eq (inner : Level) (first : PrefixExp) :
    afterPrefixExp inner first = (do
      let ends ← look endsCall
      if first.endsInCall && ends then return .call first else assignment inner first) := by
  funext c s
  simp only [afterPrefixExp, peek_eq_look, bind_apply, look, endsCall, Bool.and_eq_true,
    bne_iff_ne, ne_eq]

theorem scheme_afterPrefixExp (first : PrefixExp) :
    Scheme .any true fun inner => afterPrefixExp inner first := by
  simp only [afterPrefixExp_eq]
  refine (Scheme.look endsCall fun _ next hends => endsCall_of_stmtEnds hends).bind
    (o := .any) fun ends => ?_
  cases first.endsInCall && ends with
  | true => exact .pure (Stmt.call first)
  | false => exact scheme_assignment first

theorem scheme_callOrAssign : Scheme .token true callOrAssign := by
  rw [funext callOrAssign_eq]
  exact scheme_head.bind fun a => scheme_suffixes.bind fun suffixes =>
    scheme_afterPrefixExp ⟨a, suffixes⟩

/-- The alternatives of a statement. -/
abbrev stmtRules : List (Level → Rule Stmt) :=
  [callOrAssign, fun _ => labelStmt, fun _ => breakStmt, fun _ => continueStmt, fun _ => gotoStmt,
    doStmt, whileStmt, repeatStmt, ifStmt, forStmt, functionStmt, localStmt]

theorem scheme_of_mem_stmtRules : ∀ rule ∈ stmtRules, Scheme .token true rule := by
  simp only [stmtRules, List.forall_mem_cons]
  exact ⟨scheme_callOrAssign, scheme_labelStmt, scheme_breakStmt, scheme_continueStmt,
    scheme_gotoStmt, scheme_doStmt, scheme_whileStmt, scheme_repeatStmt, scheme_ifStmt,
    scheme_forStmt, scheme_functionStmt, scheme_localStmt, List.forall_mem_nil _⟩

theorem scheme_stmt : Scheme .token true stmt :=
  Scheme.located (.alt stmtRules (List.cons_ne_nil _ _) scheme_of_mem_stmtRules nofun) nofun

/-! ### Blocks -/

theorem scheme_semicolons : Scheme .any false fun _ => many (symbol .semicolon) :=
  (Scheme.symbol .semicolon).several nofun

theorem scheme_returnStmt : Scheme .token false returnStmt :=
  Scheme.located ((Scheme.keyword .return_).loosely fun _ =>
    (scheme_exprList.maybe nofun).loosely fun exprs =>
    scheme_semicolons.loosely fun _ => .pure (Return.mk (exprs.getD []))) nofun

theorem scheme_skipJunk : Scheme .any false fun _ => skipJunk :=
  .skip junkLength [.named "statement"] fun _ _ => Nat.add_pos_left Nat.one_pos _

theorem scheme_partAfterSemicolons : Scheme .any false partAfterSemicolons := by
  refine (scheme_stmt.maybe nofun).loosely (o := .any) (k := false) fun r => ?_
  cases r with
  | some stmt => exact (Scheme.pure (some (BlockPart.stmt stmt, true))).loose
  | none =>
    refine (scheme_returnStmt.maybe nofun).loosely (o := .any) (k := false) fun r => ?_
    cases r with
    | some ret => exact (Scheme.pure (some (BlockPart.ret ret, false))).loose
    | none =>
      refine (Scheme.peek (Option.map (·.node))).loosely (o := .any) (k := false)
        fun next => ?_
      cases next with
      | none => exact (Scheme.pure none).loose
      | some t =>
        cases hends : t.endsBlock with
        | true =>
          simp only [hends, if_true]
          exact (Scheme.pure none).loose
        | false =>
          simp only [hends]
          exact scheme_skipJunk.loosely fun _ => .pure (some (BlockPart.junk, true))

theorem scheme_blockPart : Scheme .any false blockPart :=
  scheme_semicolons.loosely fun _ => scheme_partAfterSemicolons

theorem scheme_stmts : Scheme .any false stmts :=
  scheme_blockPart.collect.loosely fun parts => .pure (blockOf parts)

theorem scheme_chunkPart : Scheme .any false chunkPart := by
  refine (Scheme.peek Option.isNone).loosely (o := .any) (k := false) fun ended => ?_
  cases ended with
  | true => exact (Scheme.pure none).loose
  | false =>
    have hskip := Scheme.skip (fun _ => 1) [.named "statement"] fun _ _ => Nat.one_pos
    exact hskip.loosely (o := .any) (k := false) fun _ => Scheme.block.loosely fun more =>
      .pure (some (more, more.ret.isNone))

theorem scheme_chunk : Scheme .any false chunk := by
  refine Scheme.block.loosely (o := .any) (k := false) fun first => ?_
  split
  · exact (Scheme.pure first).loose
  · exact scheme_chunkPart.collect.loosely fun more => .pure (more.foldl (· ++ ·) first)

end LuaSyntax.Grammar
