import LuaSyntax.Proofs.Grammar.ExprRepeats
import LuaSyntax.Proofs.Grammar.StmtReads
/-!
# Clean runs of the statement rules

One lemma for each rule: over a level that repeats another one, it repeats its own clean runs. What
follows a block in a statement is a word that ends the block, so no statement depends on what comes
after it.
-/

namespace LuaSyntax.Grammar

open Rule

variable {α : Type} {inner inner' : Level} {follow : Option Token → Prop}

theorem reopens_following {separator : Symbol} {item item' : Rule α}
    (h : Reopens AnyNext item item') :
    Reopens AnyNext (following separator item) (following separator item') :=
  (reopens_symbol separator).bind fun _ => h.toRepeats

theorem reopens_funcName : Reopens AnyNext funcName funcName :=
  reopens_name.bind fun _ =>
    (Repeats.many (reopens_following reopens_name) heralds_any).bind fun _ =>
    (reopens_following reopens_name).optional.bind fun _ => .pure _

/-! ### Simple statements -/

theorem reopens_breakStmt : Reopens AnyNext breakStmt breakStmt :=
  (reopens_keyword .break_).bind fun _ => .pure Stmt.breakLoop

theorem reopens_continueStmt : Reopens AnyNext continueStmt continueStmt :=
  (reopens_keyword .continue_).bind fun _ => .pure Stmt.continueLoop

theorem reopens_labelStmt : Reopens AnyNext labelStmt labelStmt :=
  (reopens_satisfy .label).bind fun n => .pure (Stmt.label n.node)

theorem reopens_gotoStmt : Reopens AnyNext gotoStmt gotoStmt :=
  (reopens_keyword .goto_).bind fun _ => reopens_name.toRepeats.bind fun n => .pure (Stmt.goto n)

theorem reopens_doStmt (h : inner.Repeats inner') :
    Reopens AnyNext (doStmt inner) (doStmt inner') :=
  (reopens_keyword .do_).bind fun _ => repeats_end h _

theorem reopens_whileStmt (h : inner.Repeats inner') :
    Reopens AnyNext (whileStmt inner) (whileStmt inner') :=
  (reopens_keyword .while_).bind fun _ => h.expr.toRepeats.bind fun _ =>
    (reopens_keyword .do_).toRepeats.bind fun _ => repeats_end h _

theorem reopens_repeatStmt (h : inner.Repeats inner') :
    Reopens AnyNext (repeatStmt inner) (repeatStmt inner') :=
  (reopens_keyword .repeat_).bind fun _ => repeats_body h rfl fun body _ =>
    h.expr.toRepeats.bind fun cond => .pure (Stmt.repeatLoop body cond)

/-! ### Conditionals -/

/-- A clause ends with its block. -/
theorem repeats_ifClause (h : inner.Repeats inner') :
    Rule.Repeats BlockEnds (ifClause inner) (ifClause inner') :=
  h.expr.toRepeats.bind fun cond => (reopens_keyword .then_).toRepeats.bind fun _ =>
    h.block.bind_before (fun body => .pure (IfClause.mk cond body)) fun _ => .pure _

theorem reopens_elseifClause (h : inner.Repeats inner') :
    Reopens BlockEnds (elseifClause inner) (elseifClause inner') :=
  (reopens_keyword .elseif_).bind fun _ => repeats_ifClause h

theorem reopens_elseBlock (h : inner.Repeats inner') :
    Reopens BlockEnds (elseBlock inner) (elseBlock inner') :=
  (reopens_keyword .else_).bind fun _ => h.block

/-- A rule that begins with a word that ends the block before it. -/
theorem heralds_keyword {k : Keyword} (hk : (Token.keyword k).endsBlock = true)
    {f : Span → Rule α} (hf : ∀ span, Orderly (f span)) :
    Heralds follow BlockEnds (keyword k >>= f) :=
  (heralds_token (blockEnds_some hk)).bind_any (orderly_token _) hf

/-- Each block in a conditional is followed by a word that ends it: the next clause, the `else` or
the `end`. -/
theorem reopens_ifStmt (h : inner.Repeats inner') :
    Reopens AnyNext (ifStmt inner) (ifStmt inner') := by
  have helseif := reopens_elseifClause h
  have helse := reopens_elseBlock h
  have helseifHeralds : Heralds BlockEnds BlockEnds (elseifClause inner) :=
    heralds_keyword rfl fun _ => (repeats_ifClause h).orderly
  have helseHeralds : Heralds BlockEnds BlockEnds (elseBlock inner) :=
    heralds_keyword rfl fun _ => h.block.orderly
  have hend (value : Stmt) : Rule.Repeats AnyNext (do let _ ← keyword .end_; return value)
      (do let _ ← keyword .end_; return value) :=
    (reopens_keyword .end_).toRepeats.bind fun _ => .pure value
  have hendHeralds (value : Stmt) :
      Heralds AnyNext BlockEnds (do let _ ← keyword .end_; return value) :=
    heralds_keyword rfl fun _ => .pure value
  have hotherwise (clauses : List IfClause) :=
    helse.optional.bind_before (fun otherwise => hend (.conditional clauses otherwise))
      fun otherwise => hendHeralds _
  have hotherwiseHeralds (clauses : List IfClause) :=
    helseHeralds.optional.bind helse.orderly.optional
      (fun otherwise => hendHeralds (.conditional clauses otherwise)) fun _ => (hend _).orderly
  have hothers (first : IfClause) :=
    (Repeats.many helseif helseifHeralds).bind_before (fun others => hotherwise (first :: others))
      fun others => hotherwiseHeralds _
  have hothersHeralds (first : IfClause) :=
    (helseifHeralds.many helseif.orderly).bind (Repeats.many helseif helseifHeralds).orderly
      (fun others => hotherwiseHeralds (first :: others)) fun _ => (hotherwise _).orderly
  exact (reopens_keyword .if_).bind fun _ =>
    (repeats_ifClause h).bind_before hothers hothersHeralds

/-! ### Loops -/

theorem reopens_numericFor (h : inner.Repeats inner') (forSpan : Span) (var : Located Name) :
    Reopens AnyNext (numericFor inner forSpan var) (numericFor inner' forSpan var) :=
  (reopens_symbol .equal).bind fun _ => h.expr.toRepeats.bind fun _ =>
    (reopens_symbol .comma).toRepeats.bind fun _ => h.expr.toRepeats.bind fun _ =>
    (reopens_following h.expr).optional.bind fun _ =>
    (reopens_keyword .do_).toRepeats.bind fun _ => repeats_end h _

theorem reopens_genericFor (h : inner.Repeats inner') (first : Located Name) :
    Reopens AnyNext (genericFor inner first) (genericFor inner' first) := by
  have hnames : Opens ⟨fun _ => True, True⟩ (following .comma name) fun _ _ => True :=
    (opens_token trivial).bind fun _ => (opens_anyhow .name).completes.mono fun _ _ _ _ _ => trivial
  exact (Repeats.many (reopens_following reopens_name) heralds_any).bind_reopens
    hnames.speculates.many fun _ => (reopens_keyword .in_).bind fun _ =>
      (reopens_exprList h).toRepeats.bind fun _ =>
      (reopens_keyword .do_).toRepeats.bind fun _ => repeats_end h _

theorem reopens_forStmt (h : inner.Repeats inner') :
    Reopens AnyNext (forStmt inner) (forStmt inner') :=
  (reopens_keyword .for_).bind fun forSpan => reopens_name.toRepeats.bind fun var =>
    (Reopens.alt (List.cons_ne_nil _ _) (.cons (reopens_numericFor h forSpan var)
      (.cons (reopens_genericFor h var) .nil))).toRepeats

/-! ### Declarations -/

theorem reopens_functionStmt (h : inner.Repeats inner') :
    Reopens AnyNext (functionStmt inner) (functionStmt inner') :=
  (reopens_keyword .function_).bind fun _ => reopens_funcName.toRepeats.bind fun n =>
    (reopens_funcBody h).toRepeats.bind fun body => .pure (Stmt.function n body)

theorem reopens_localFunction (h : inner.Repeats inner') :
    Reopens AnyNext (localFunction inner) (localFunction inner') :=
  (reopens_keyword .function_).bind fun _ => reopens_name.toRepeats.bind fun n =>
    (reopens_funcBody h).toRepeats.bind fun body => .pure (Stmt.localFunction n body)

theorem repeats_pos : Rule.Repeats AnyNext pos pos :=
  repeats_look (g := TokenStream.pos) fun _ _ => rfl

theorem reopens_localDecl (h : inner.Repeats inner') :
    Reopens AnyNext (localDecl inner) (localDecl inner') := by
  refine (reopens_name.sepBy1 (reopens_symbol .comma)).bind fun names =>
    (reopens_symbol .equal).optional.bind fun r => ?_
  cases r with
  | some equal => exact (reopens_exprList h).toRepeats.bind fun _ => .pure _
  | none => exact repeats_pos.bind fun _ => .pure _

theorem reopens_localStmt (h : inner.Repeats inner') :
    Reopens AnyNext (localStmt inner) (localStmt inner') :=
  (reopens_keyword .local_).bind fun _ =>
    (Reopens.alt (List.cons_ne_nil _ _) (.cons (reopens_localFunction h)
      (.cons (reopens_localDecl h) .nil))).toRepeats

/-! ### Calls and assignments -/

theorem repeats_checkedTarget (target : PrefixExp) :
    Rule.Repeats AnyNext (checkedTarget target) (checkedTarget target) := by
  unfold checkedTarget
  cases targetCause? target with
  | none => exact .pure _
  | some cause => exact (repeats_record _).bind fun _ => .pure _

theorem repeats_moreTargets (h : inner.Repeats inner') :
    Rule.Repeats AnyNext (moreTargets inner) (moreTargets inner') := by
  refine .collect ((reopens_following (reopens_prefixExp h)).optional.bind fun r => ?_) heralds_any
  cases r with
  | none => exact .pure _
  | some target => exact (repeats_checkedTarget target).bind fun _ => .pure _

theorem repeats_assignment (h : inner.Repeats inner') (first : PrefixExp) :
    Rule.Repeats AnyNext (assignment inner first) (assignment inner' first) :=
  (repeats_checkedTarget first).bind fun _ => (repeats_moreTargets h).bind fun _ =>
    (reopens_symbol .equal).toRepeats.bind fun _ =>
    (reopens_exprList h).toRepeats.bind fun _ => .pure _

theorem repeats_peek : Rule.Repeats AnyNext peek peek :=
  repeats_look (g := fun stream cursor => (stream.get? cursor).map (·.node)) fun _ _ => rfl

/-- What follows the first prefix expression of a statement. -/
abbrev afterPrefixExp (inner : Level) (first : PrefixExp) : Rule Stmt := do
  let next ← peek
  if first.endsInCall ∧ next ≠ some (.symbol .comma) ∧ next ≠ some (.symbol .equal) then
    return .call first
  else assignment inner first

/-- The states between the suffixes of a statement do not matter to it. -/
theorem callOrAssign_eq (inner : Level) :
    callOrAssign inner = (do
      let a ← head inner
      let suffixes ← many (suffix inner)
      afterPrefixExp inner ⟨a, suffixes⟩) := by
  rw [← map_suffixChain]
  simp only [bind_map_left]
  rfl

theorem reopens_callOrAssign (h : inner.Repeats inner') :
    Reopens AnyNext (callOrAssign inner) (callOrAssign inner') := by
  rw [callOrAssign_eq, callOrAssign_eq]
  refine (reopens_head h).bind fun a =>
    (Repeats.many (reopens_suffix h) heralds_any).bind fun suffixes =>
    repeats_peek.bind fun next => ?_
  split
  · exact .pure _
  · exact repeats_assignment h _

theorem reopens_stmt (h : inner.Repeats inner') : Reopens AnyNext (stmt inner) (stmt inner') :=
  .located (.alt (List.cons_ne_nil _ _) (.cons (reopens_callOrAssign h) (.cons reopens_labelStmt
    (.cons reopens_breakStmt (.cons reopens_continueStmt (.cons reopens_gotoStmt
    (.cons (reopens_doStmt h) (.cons (reopens_whileStmt h) (.cons (reopens_repeatStmt h)
    (.cons (reopens_ifStmt h) (.cons (reopens_forStmt h) (.cons (reopens_functionStmt h)
    (.cons (reopens_localStmt h) .nil)))))))))))))

/-! ### Blocks -/

theorem repeats_semicolons :
    Rule.Repeats AnyNext (many (symbol .semicolon)) (many (symbol .semicolon)) :=
  Repeats.many (reopens_symbol .semicolon) heralds_any

theorem reopens_returnStmt (h : inner.Repeats inner') :
    Reopens AnyNext (returnStmt inner) (returnStmt inner') :=
  .located ((reopens_keyword .return_).bind fun _ => (reopens_exprList h).optional.bind fun _ =>
    repeats_semicolons.bind fun _ => .pure _)

theorem repeats_skipJunk : Rule.Repeats AnyNext skipJunk skipJunk :=
  repeats_skipTokens (fun stream cursor => junkLength ((stream.rest cursor).map (·.node))) _

theorem repeats_blockPart (h : inner.Repeats inner') :
    Rule.Repeats AnyNext (blockPart inner) (blockPart inner') := by
  refine repeats_semicolons.bind fun _ => (reopens_stmt h).optional.bind fun s => ?_
  cases s with
  | some s => exact .pure _
  | none =>
    refine (reopens_returnStmt h).optional.bind fun r => ?_
    cases r with
    | some r => exact .pure _
    | none =>
      refine repeats_peek.bind fun next => ?_
      cases next with
      | none => exact .pure _
      | some t =>
        dsimp only
        split
        · exact .pure _
        · exact repeats_skipJunk.bind fun _ => .pure _

theorem repeats_stmts (h : inner.Repeats inner') :
    Rule.Repeats follow (stmts inner) (stmts inner') :=
  (Repeats.collect (repeats_blockPart h) heralds_any).bind fun parts => .pure (blockOf parts)

/-! ### Chunks -/

section

variable {c : Context} {s t : State} {r : Option (Block × Bool)}

theorem orderly_chunkPart (h : Orderly inner.block) : Orderly (chunkPart inner) := by
  have hend : Rule.Repeats AnyNext atEnd atEnd :=
    repeats_look (g := fun stream cursor => (stream.get? cursor).isNone) fun _ _ => rfl
  refine hend.orderly.bind fun b => ?_
  split
  · exact .pure _
  · exact (orderly_skipTokens _ _).bind fun _ => h.bind fun more => .pure _

theorem chunkPart_of_end (inner : Level) (hnext : c.next? s = none) :
    chunkPart inner c s = .ok none s := by
  have hend : atEnd c s = .ok true s := by rw [atEnd, hnext]; rfl
  rw [chunkPart, bind_of_ok hend]
  rfl

/-- Before the end of the input a token is passed over, with a diagnostic. -/
theorem next_of_clean_chunkPart (h : Orderly inner.block) (hs : c.Proper s)
    (hclean : Clean (chunkPart inner) c s r t) : c.next? s = none := by
  cases hnext : c.next? s with
  | none => rfl
  | some u =>
    have hend : atEnd c s = .ok false s := by rw [atEnd, hnext]; rfl
    have hrest : Clean (do
        skipTokens 1 [.named "statement"]
        let more ← inner.block
        return some (more, more.ret.isNone)) c s r t :=
      ⟨(bind_of_ok hend).symm.trans hclean.ok, hclean.diags⟩
    obtain ⟨_, v, hskip, -, -⟩ :=
      hrest.of_bind (orderly_skipTokens _ _) (fun _ => h.bind fun more => .pure _) hs
    have hnone := hskip.of_skipTokens.1
    have hlt := lt_of_next? hnext
    unfold Context.remaining at hnone
    omega

end

/-- The blocks after the first one: on a clean run there are none, and the input ends. -/
theorem repeats_moreBlocks (h : inner.Repeats inner') (first : Block) :
    Rule.Repeats (· = none)
      (do return (← collect (chunkPart inner)).foldl (· ++ ·) first)
      (do return (← collect (chunkPart inner')).foldl (· ++ ·) first) ∧
    Heralds (· = none) (· = none)
      (do return (← collect (chunkPart inner)).foldl (· ++ ·) first) := by
  have hpart : Rule.Repeats (· = none) (chunkPart inner) (chunkPart inner') := by
    refine ⟨orderly_chunkPart h.block.orderly, fun {c s c' s' r t} hbeside hclean _ => ?_⟩
    have hnext := next_of_clean_chunkPart h.block.orderly hbeside.left hclean
    cases (chunkPart_of_end inner hnext).symm.trans hclean.ok
    rw [← hbeside.next?] at hnext
    exact ⟨s', ⟨chunkPart_of_end inner' hnext, rfl⟩, hbeside.cursor⟩
  have hheralds : Heralds (· = none) (· = none) (chunkPart inner) := by
    intro c s r t hs hclean _
    rw [next_of_clean_chunkPart h.block.orderly hs hclean, Option.map_none]
  have hparts := hpart.collect hheralds
  exact ⟨hparts.bind_before (fun _ => .pure _) fun _ => .pure _,
    (hheralds.collect hpart.orderly).bind hparts.orderly (fun _ => .pure _) fun _ => .pure _⟩

/-- What ends no block is passed over, so a clean chunk is one block up to the end of the input. -/
theorem repeats_chunk (h : inner.Repeats inner') :
    Rule.Repeats (· = none) (chunk inner) (chunk inner') := by
  have hends : ∀ next : Option Token, next = none → BlockEnds next := by
    rintro _ rfl
    exact nofun
  refine h.block.bind_before (fun first => ?_) fun first => Heralds.mono ?_ hends
  · split
    · exact .pure first
    · exact (repeats_moreBlocks h first).1
  · split
    · exact .pure first
    · exact (repeats_moreBlocks h first).2

end LuaSyntax.Grammar
