import LuaSyntax.Proofs.Grammar.Commit
import LuaSyntax.Proofs.Grammar.ExprRepair
import LuaSyntax.Proofs.Grammar.StmtScheme
/-!
# Repairs in statements and blocks

All statements are thrifty. Blocks are steady at every level: past the limit nothing is expected, so
nothing is put in for it but the `nil` of an expression that is missing altogether.
-/

namespace LuaSyntax.Grammar

open Rule

variable {α : Type} {law : Law} {L : Language} {inner : Level}

theorem thrifty_following (s : Symbol) {item : Rule α} (h : Steady item) :
    Thrifty (following s item) :=
  (thrifty_symbol s).bind fun _ => h

theorem steady_moreNames : Steady (many (following .comma name)) :=
  (thrifty_following .comma thrifty_name.steady).tentative.many

theorem thrifty_funcName : Thrifty funcName :=
  thrifty_name.bind fun _ =>
    (thrifty_following .dot thrifty_name.steady).tentative.many.bind fun _ =>
    (thrifty_following .colon thrifty_name.steady).tentative.optional.bind fun _ => .pure _

/-! ### Simple statements -/

theorem thrifty_labelStmt : Thrifty labelStmt := thrifty_label.bind fun _ => .pure _

theorem thrifty_breakStmt : Thrifty breakStmt := (thrifty_keyword .break_).bind fun _ => .pure _

theorem thrifty_continueStmt : Thrifty continueStmt :=
  (thrifty_keyword .continue_).bind fun _ => .pure _

theorem thrifty_gotoStmt : Thrifty gotoStmt :=
  (thrifty_keyword .goto_).bind fun _ => thrifty_name.steady.bind fun _ => .pure _

theorem thrifty_doStmt (h : inner.Steady) : Thrifty (doStmt inner) :=
  (thrifty_keyword .do_).bind fun _ => steady_body h .end_ fun _ => .pure _

theorem thrifty_whileStmt (h : inner.Steady) : Thrifty (whileStmt inner) :=
  (thrifty_keyword .while_).bind fun _ => h.expr.bind fun _ =>
    (thrifty_keyword .do_).steady.bind fun _ => steady_body h .end_ fun _ => .pure _

theorem thrifty_repeatStmt (h : inner.Steady) : Thrifty (repeatStmt inner) :=
  (thrifty_keyword .repeat_).bind fun _ => steady_body h .until_ fun _ =>
    h.expr.bind fun _ => .pure _

/-! ### Conditionals and loops -/

theorem steady_ifClause (h : inner.Steady) : Steady (ifClause inner) :=
  h.expr.bind fun _ => (thrifty_keyword .then_).steady.bind fun _ => h.block.bind fun _ => .pure _

theorem thrifty_ifStmt (h : inner.Steady) : Thrifty (ifStmt inner) := by
  have helseif : Thrifty (elseifClause inner) :=
    (thrifty_keyword .elseif_).bind fun _ => steady_ifClause h
  have helse : Thrifty (elseBlock inner) := (thrifty_keyword .else_).bind fun _ => h.block
  exact (thrifty_keyword .if_).bind fun _ => (steady_ifClause h).bind fun _ =>
    helseif.tentative.many.bind fun _ => helse.tentative.optional.bind fun _ =>
    (thrifty_keyword .end_).steady.bind fun _ => .pure _

theorem thrifty_numericFor (h : inner.Steady) (forSpan : Span) (var : Located Name) :
    Thrifty (numericFor inner forSpan var) :=
  (thrifty_symbol .equal).bind fun _ => h.expr.bind fun _ =>
    (thrifty_symbol .comma).steady.bind fun _ => h.expr.bind fun _ =>
    (thrifty_following .comma h.expr).tentative.optional.bind fun _ =>
    (thrifty_keyword .do_).steady.bind fun _ => steady_body h .end_ fun _ => .pure _

theorem thrifty_genericFor (h : inner.Steady) (first : Located Name) :
    Thrifty (genericFor inner first) :=
  (thrifty_following .comma thrifty_name.steady).many_bind fun _ =>
    (thrifty_keyword .in_).bind fun _ => (steady_exprList h).bind fun _ =>
    (thrifty_keyword .do_).steady.bind fun _ => steady_body h .end_ fun _ => .pure _

theorem thrifty_forStmt (h : inner.Steady) : Thrifty (forStmt inner) := by
  refine (thrifty_keyword .for_).bind fun forSpan => thrifty_name.steady.bind fun var =>
    (Thrifty.alt (List.cons_ne_nil _ _) ?_).steady
  simp only [List.forall_mem_cons]
  exact ⟨thrifty_numericFor h forSpan var, thrifty_genericFor h var, List.forall_mem_nil _⟩

/-! ### Declarations -/

theorem thrifty_functionStmt (h : inner.Steady) : Thrifty (functionStmt inner) :=
  (thrifty_keyword .function_).bind fun _ => thrifty_funcName.steady.bind fun _ =>
    (thrifty_funcBody h).steady.bind fun _ => .pure _

theorem thrifty_localFunction (h : inner.Steady) : Thrifty (localFunction inner) :=
  (thrifty_keyword .function_).bind fun _ => thrifty_name.steady.bind fun _ =>
    (thrifty_funcBody h).steady.bind fun _ => .pure _

theorem thrifty_localDecl (h : inner.Steady) : Thrifty (localDecl inner) := by
  rw [localDecl_eq]
  refine thrifty_name.bind fun _ => steady_moreNames.bind fun _ =>
    (thrifty_symbol .equal).tentative.optional.bind fun r => ?_
  cases r with
  | none => exact .pure _
  | some equal => exact (steady_exprList h).bind fun _ => .pure _

theorem thrifty_localStmt (h : inner.Steady) : Thrifty (localStmt inner) := by
  refine (thrifty_keyword .local_).bind fun _ => (Thrifty.alt (List.cons_ne_nil _ _) ?_).steady
  simp only [List.forall_mem_cons]
  exact ⟨thrifty_localFunction h, thrifty_localDecl h, List.forall_mem_nil _⟩

/-! ### Calls and assignments -/

/-- A note on a target repairs nothing. -/
theorem sensible_note (span : Span) (cause : Cause) :
    (Diagnostic.mk span cause .unrepaired).Sensible where
  cheapest _ hinserted := by cases hinserted
  unrepaired _ := rfl

theorem steady_checkedTarget (target : PrefixExp) : Steady (checkedTarget target) := by
  unfold checkedTarget
  cases targetCause? target with
  | none => exact .pure _
  | some cause => exact (steady_record (sensible_note _ cause)).bind fun _ => .pure _

theorem steady_assignment (hinner : inner.Sound law L) (h : inner.Steady) (first : PrefixExp) :
    Steady (assignment inner first) := by
  have hround : Steady (targetRound inner) := by
    refine (thrifty_following .comma (thrifty_prefixExp hinner h).steady).tentative.optional.bind
      fun r => ?_
    cases r with
    | none => exact .pure none
    | some target =>
      exact (steady_checkedTarget target).bind fun checked => .pure (some (checked, true))
  exact (steady_checkedTarget first).bind fun _ => hround.collect.bind fun _ =>
    (thrifty_symbol .equal).steady.bind fun _ => (steady_exprList h).bind fun _ => .pure _

theorem thrifty_callOrAssign (hinner : inner.Sound law L) (h : inner.Steady) :
    Thrifty (callOrAssign inner) := by
  rw [callOrAssign_eq]
  refine (thrifty_head h).bind fun a => (steady_suffixes hinner h).bind fun suffixes => ?_
  rw [afterPrefixExp_eq]
  refine (steady_look endsCall).bind fun ends => ?_
  split
  · exact .pure _
  · exact steady_assignment hinner h _

theorem thrifty_stmt (hinner : inner.Sound law L) (h : inner.Steady) : Thrifty (stmt inner) := by
  refine .located (.alt (List.cons_ne_nil _ _) ?_)
  simp only [List.forall_mem_cons]
  exact ⟨thrifty_callOrAssign hinner h, thrifty_labelStmt, thrifty_breakStmt,
    thrifty_continueStmt, thrifty_gotoStmt, thrifty_doStmt h, thrifty_whileStmt h,
    thrifty_repeatStmt h, thrifty_ifStmt h, thrifty_forStmt h, thrifty_functionStmt h,
    thrifty_localStmt h, List.forall_mem_nil _⟩

/-! ### Blocks -/

theorem steady_semicolons : Steady (many (symbol .semicolon)) :=
  (thrifty_symbol .semicolon).tentative.many

theorem thrifty_returnStmt (h : inner.Steady) : Thrifty (returnStmt inner) :=
  .located ((thrifty_keyword .return_).bind fun _ =>
    ((steady_exprList h).tentative (opening_exprList h)).optional.bind fun _ =>
    steady_semicolons.bind fun _ => .pure _)

theorem steady_skipJunk : Steady skipJunk where
  toOrderly := orderly_skipAhead junkLength [.named "statement"]
  leads hs hhint hok := (steady_skipTokens _ _).leads hs hhint hok

theorem steady_blockPart (hinner : inner.Sound law L) (h : inner.Steady) :
    Steady (blockPart inner) := by
  refine steady_semicolons.bind fun _ =>
    (thrifty_stmt hinner h).tentative.optional.bind fun r => ?_
  cases r with
  | some stmt => exact .pure (some (BlockPart.stmt stmt, true))
  | none =>
    refine (thrifty_returnStmt h).tentative.optional.bind fun r => ?_
    cases r with
    | some ret => exact .pure (some (BlockPart.ret ret, false))
    | none =>
      refine (steady_look (Option.map (·.node))).bind fun next => ?_
      cases next with
      | none => exact .pure none
      | some t =>
        dsimp only
        split
        · exact .pure none
        · exact steady_skipJunk.bind fun _ => .pure (some (BlockPart.junk, true))

theorem steady_stmts (hinner : inner.Sound law L) (h : inner.Steady) : Steady (stmts inner) :=
  (steady_blockPart hinner h).collect.bind fun _ => .pure _

theorem steady_chunk (h : inner.Steady) : Steady (chunk inner) := by
  refine h.block.bind fun first => ?_
  split
  · exact .pure first
  · have hround : Steady (chunkPart inner) := by
      refine (steady_look Option.isNone).bind fun ended => ?_
      cases ended with
      | true => exact .pure none
      | false =>
        exact (steady_skipTokens 1 _).bind fun _ => h.block.bind fun more =>
          .pure (some (more, more.ret.isNone))
    exact hround.collect.bind fun more => .pure _

/-! ### Levels -/

theorem steady_cutOffBlock : Steady cutOffBlock where
  toOrderly := (always_cutOffBlock bottom_lenient).orderly
  leads {c s b t} hs hhint hok := by
    rcases skipLevel_spec false c s with hskip | ⟨count, span, -, -, -, hskip⟩
    · cases (bind_of_ok hskip).symm.trans hok
      exact .refl hhint
    · cases (bind_of_ok hskip).symm.trans hok
      exact .record hhint rfl (sensible_of_skipped rfl ⟨Cause.noConfusion, Cause.noConfusion⟩)

/-- A `nil` for an expression past the limit is put in for something that nests too deep. -/
theorem steady_cutOffExpr : Steady cutOffExpr where
  toOrderly := (opens_cutOffExpr bottom_lenient).orderly
  leads {c s e t} hs hhint hok := by
    rcases skipLevel_spec true c s with hskip | ⟨count, span, -, -, -, hskip⟩
    · cases hc : c.isCommitted s with
      | true =>
        cases (cutOffExpr_of_committed hskip hc).symm.trans hok
        refine .record hhint rfl ⟨?_, ?_⟩
        · rintro _ _ _ _ ⟨⟩
        · rintro (h | h) <;> cases h
      | false =>
        obtain ⟨why, herr⟩ := cutOffExpr_of_not_committed hskip hc
        cases herr.symm.trans hok
    · cases (cutOffExpr_of_some hskip).symm.trans hok
      exact .record hhint rfl (sensible_of_skipped rfl ⟨Cause.noConfusion, Cause.noConfusion⟩)

theorem steady_nested (depth : Nat) : (nested depth).Steady := by
  induction depth with
  | zero =>
    exact ⟨steady_cutOffExpr, (opens_cutOffExpr bottom_lenient).opening, steady_cutOffBlock⟩
  | succ depth ih =>
    have hsound := sound_lenient depth
    have hexpr := thrifty_orExpr hsound ih
    exact ⟨hexpr.steady, hexpr.toOpening, steady_stmts hsound ih⟩

end LuaSyntax.Grammar
