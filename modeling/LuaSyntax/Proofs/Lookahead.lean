import LuaSyntax.Proofs.BlockEnd
import LuaSyntax.Proofs.Grammar.Commit
import LuaSyntax.Proofs.Rule.Lookahead
/-!
# Lookahead never inserts

No rule of the grammar puts in a token in pure lookahead, however deep it looks. So a rule that is
attempted gives its value without any insertion, or it is as if it had not run.
-/

namespace LuaSyntax

namespace Grammar

open Rule

variable {α : Type} {start : Start} {closed : Bool} {rule : Level → Rule α} {inner : Level}
  {c : Context} {s t : State}

/-- The rules for what nests one level deeper put in nothing in pure lookahead. -/
structure Level.Watches (inner : Level) : Prop where
  expr : Rule.Watches inner.expr
  block : Rule.Watches inner.block

/-! ### Prefix expressions -/

/-- Nothing has been put in wherever the suffixes of a prefix expression were marked. -/
theorem nothingInserted_of_suffixChain (hsuffix : Rule.Watches (suffix inner))
    (hc : c.mode = .strict) {marks : List (Located Suffix × State)}
    (hok : suffixChain inner c s = .ok marks t) : ∀ m ∈ marks, s.NothingInserted m.2 := by
  have hround : ∀ {s t m more}, suffixRound inner c s = .ok (some (m, more)) t →
      m.2 = t ∧ s.NothingInserted t := by
    intro s t m more hstep
    obtain ⟨r, u, hoptional, hrest⟩ := ok_of_bind hstep
    cases r with
    | none => cases hrest
    | some a =>
      cases hrest
      exact ⟨rfl, hsuffix.optional.of_ok hc hoptional⟩
  have hrounds := loopRun_of_collect hok
  change LoopRun (suffixRound inner) c s marks t at hrounds
  clear hok
  induction hrounds with
  | stop _ => exact List.forall_mem_nil _
  | last hstep =>
    obtain ⟨hmark, hnothing⟩ := hround hstep
    rw [List.forall_mem_singleton, hmark]
    exact hnothing
  | stalled _ _ => exact List.forall_mem_nil _
  | more hstep _ _ ih =>
    obtain ⟨hmark, hnothing⟩ := hround hstep
    rw [List.forall_mem_cons, hmark]
    exact ⟨hnothing, fun m hm => hnothing.trans (ih m hm)⟩

theorem watches_suffixChain (hsuffix : Rule.Watches (suffix inner)) :
    Rule.Watches (suffixChain inner) := by
  refine (hsuffix.optional.bind fun r => ?_).collect
  cases r with
  | none => exact watches_pure none
  | some a => exact Rule.Watches.bind (watches_of_ok fun _ _ => rfl) fun t =>
      watches_pure (some ((a, t), true))

theorem neverStuck_suffixChain (inner : Level) : NeverStuck (suffixChain inner) := by
  refine ((neverStuck_optional (suffix inner)).bind fun r => ?_).collect
  cases r with
  | none => exact .pure none
  | some a => exact fun _ t => ⟨some ((a, t), true), t, rfl⟩

/-- The diagnostics go back to those at a mark, or else to those after the head or before it. -/
theorem watches_prefixExp (hhead : Rule.Watches (head inner))
    (hsuffix : Rule.Watches (suffix inner)) (policy : SuffixPolicy) :
    Rule.Watches (prefixExp inner policy) := by
  intro c s hc
  have hcommitted := isCommitted_of_strict hc s
  cases hh : head inner c s with
  | error why t =>
    have hstuck : prefixExp inner policy c s = .error why t := by
      simp [prefixExp, bind_apply, mark, committed, hh]
    rw [hstuck]
    exact hhead.of_error hc hh
  | ok h t =>
    obtain ⟨marks, u, hmarks⟩ := neverStuck_suffixChain inner c t
    have hend : t.NothingInserted (chainEnd t (keptBy policy marks)) := by
      rw [chainEnd]
      cases hlast : (keptBy policy marks).getLast? with
      | none => exact .refl t
      | some m =>
        exact nothingInserted_of_suffixChain hsuffix hc hmarks m
          ((keepThroughLast_isPrefix _ marks).subset (List.mem_of_getLast? hlast))
    by_cases hkept : policy = .callTerminated ∧ ((keptBy policy marks).map (·.1)).isEmpty
    · rw [keptBy] at hkept
      simp only [prefixExp, bind_apply, mark, committed, hh, hmarks, reset, if_pos hkept,
        hcommitted]
      exact .of_eq rfl
    · rw [keptBy] at hkept
      simp only [prefixExp, bind_apply, mark, committed, hh, hmarks, reset, if_neg hkept]
      exact (hhead.of_ok hc hh).trans hend

/-! ### The grammar -/

theorem watches_cutOffExpr : Rule.Watches cutOffExpr := by
  intro c s hc
  rcases skipLevel_spec true c s with hskip | ⟨count, span, -, -, -, hskip⟩
  · obtain ⟨why, herr⟩ := cutOffExpr_of_not_committed hskip (isCommitted_of_strict hc s)
    rw [herr]
    exact .refl s
  · rw [cutOffExpr_of_some hskip]
    exact .record rfl rfl

theorem watches_cutOffBlock : Rule.Watches cutOffBlock :=
  (watches_skipLevel false).bind fun _ => watches_pure _

theorem watches_fieldName : Rule.Watches fieldName :=
  .attempt <| (watches_satisfy .name).bind fun _ =>
    ((watches_satisfy _).bind fun _ => watches_pure _).bind fun _ => watches_pure _

theorem Scheme.watches (h : Scheme start closed rule) (hinner : inner.Watches) :
    Rule.Watches (rule inner) := by
  induction h with
  | pure a => exact watches_pure a
  | satisfy m => exact watches_satisfy m
  | fieldName => exact watches_fieldName
  | record d hd => exact watches_record (by simp [Diagnostic.inserted?, hd])
  | look g _ => exact watches_of_ok fun _ _ => rfl
  | skip count expected _ => exact fun c s => watches_skipTokens (count (c.ahead s)) expected c s
  | expr => exact hinner.expr
  | block => exact hinner.block
  | seq _ _ _ ih ihf => exact ih.bind ihf
  | manySeq _ _ ih ihf => exact ih.many.bind ihf
  | located _ _ ih => exact ih.located
  | optional _ _ _ ih => exact ih.optional
  | collect _ ih => exact ih.collect
  | alt rules _ _ _ ih =>
    refine .alt ?_
    rw [List.forall_mem_map]
    exact ih
  | prefixExp _ _ ihhead ihsuffix => exact watches_prefixExp ihhead ihsuffix .unrestricted
  | weaken _ _ _ _ ih => exact ih

theorem watches_nested (depth : Nat) : (nested depth).Watches := by
  induction depth with
  | zero => exact ⟨watches_cutOffExpr, watches_cutOffBlock⟩
  | succ depth ih => exact ⟨scheme_orExpr.watches ih, scheme_stmts.watches ih⟩

/-- The rules that can be attempted: those of the grammar, prefix expressions under any policy, the
rest of an assignment, matchers, and sequences, choices, options, repetitions and lookaheads of such
rules. -/
inductive Attemptable (inner : Level) : {α : Type} → Rule α → Prop
  | production {α : Type} {rule : Rule α} (h : Production inner rule) : Attemptable inner rule
  | prefixExp (policy : SuffixPolicy) : Attemptable inner (prefixExp inner policy)
  | assignment (first : PrefixExp) : Attemptable inner (assignment inner first)
  | satisfy {α : Type} (m : Matcher α) : Attemptable inner (Rule.satisfy m)
  | endOfInput : Attemptable inner endOfInput
  | pure {α : Type} (a : α) : Attemptable inner (Pure.pure a)
  | bind {α β : Type} {rule : Rule α} {f : α → Rule β} (h : Attemptable inner rule)
    (hf : ∀ a, Attemptable inner (f a)) : Attemptable inner (rule >>= f)
  | alt {α : Type} {rules : List (Rule α)} (h : ∀ r ∈ rules, Attemptable inner r) :
    Attemptable inner (alt rules)
  | optional {α : Type} {rule : Rule α} (h : Attemptable inner rule) :
    Attemptable inner (optional rule)
  | many {α : Type} {rule : Rule α} (h : Attemptable inner rule) : Attemptable inner (many rule)
  | sepBy1 {α β : Type} {rule : Rule α} {separator : Rule β} (h : Attemptable inner rule)
    (hseparator : Attemptable inner separator) : Attemptable inner (sepBy1 rule separator)
  | attempt {α : Type} {rule : Rule α} (h : Attemptable inner rule) :
    Attemptable inner (attempt rule)

theorem Production.watches {depth : Nat} {α : Type} {rule : Rule α}
    (hrule : Production (nested depth) rule) : Rule.Watches rule := by
  have h := watches_nested depth
  cases hrule with
  | cutOffExpr => exact watches_cutOffExpr
  | cutOffBlock => exact watches_cutOffBlock
  | innerExpr => exact h.expr
  | innerBlock => exact h.block
  | exprList => exact scheme_exprList.watches h
  | orExpr => exact scheme_orExpr.watches h
  | andExpr => exact scheme_andExpr.watches h
  | compareExpr => exact scheme_compareExpr.watches h
  | concatExpr => exact scheme_concatExpr.watches h
  | addExpr => exact scheme_addExpr.watches h
  | mulExpr => exact scheme_mulExpr.watches h
  | unaryExpr => exact scheme_unaryExpr.watches h
  | signed => exact scheme_signed.watches h
  | atom => exact scheme_atom.watches h
  | literal t e => exact (scheme_literal t e).watches h
  | accessExpr => exact scheme_accessExpr.watches h
  | tableExpr => exact scheme_tableExpr.watches h
  | functionExpr => exact scheme_functionExpr.watches h
  | funcBody => exact scheme_funcBody.watches h
  | params => exact scheme_params.watches h
  | param => exact scheme_param.watches h
  | table => exact scheme_table.watches h
  | fields => exact scheme_fields.watches h
  | field => exact scheme_field.watches h
  | keyedField => exact scheme_keyedField.watches h
  | namedField => exact scheme_namedField.watches h
  | positionalField => exact scheme_positionalField.watches h
  | fieldName => exact watches_fieldName
  | fieldSeparator => exact scheme_fieldSeparator.watches h
  | prefixExp policy _ =>
    exact watches_prefixExp (scheme_head.watches h) (scheme_suffix.watches h) policy
  | head => exact scheme_head.watches h
  | nameHead => exact scheme_nameHead.watches h
  | parenHead => exact scheme_parenHead.watches h
  | suffixChain => exact watches_suffixChain (scheme_suffix.watches h)
  | suffix => exact scheme_suffix.watches h
  | callSuffix => exact scheme_callSuffix.watches h
  | methodSuffix => exact scheme_methodSuffix.watches h
  | indexSuffix => exact scheme_indexSuffix.watches h
  | fieldSuffix => exact scheme_fieldSuffix.watches h
  | args => exact scheme_args.watches h
  | listArgs => exact scheme_listArgs.watches h
  | tableArgs => exact scheme_tableArgs.watches h
  | strArgs => exact scheme_strArgs.watches h
  | chunk => exact scheme_chunk.watches h
  | chunkPart => exact scheme_chunkPart.watches h
  | stmts => exact scheme_stmts.watches h
  | blockPart => exact scheme_blockPart.watches h
  | returnStmt => exact scheme_returnStmt.watches h
  | stmt => exact scheme_stmt.watches h
  | callOrAssign => exact scheme_callOrAssign.watches h
  | moreTargets => exact scheme_moreTargets.watches h
  | labelStmt => exact scheme_labelStmt.watches h
  | breakStmt => exact scheme_breakStmt.watches h
  | continueStmt => exact scheme_continueStmt.watches h
  | gotoStmt => exact scheme_gotoStmt.watches h
  | doStmt => exact scheme_doStmt.watches h
  | whileStmt => exact scheme_whileStmt.watches h
  | repeatStmt => exact scheme_repeatStmt.watches h
  | ifStmt => exact scheme_ifStmt.watches h
  | ifClause => exact scheme_ifClause.watches h
  | elseifClause => exact scheme_elseifClause.watches h
  | elseBlock => exact scheme_elseBlock.watches h
  | forStmt => exact scheme_forStmt.watches h
  | numericFor forSpan var => exact (scheme_numericFor forSpan var).watches h
  | genericFor var => exact (scheme_genericFor var).watches h
  | functionStmt => exact scheme_functionStmt.watches h
  | funcName => exact scheme_funcName.watches h
  | localStmt => exact scheme_localStmt.watches h
  | localFunction => exact scheme_localFunction.watches h
  | localDecl => exact scheme_localDecl.watches h

theorem Attemptable.watches {depth : Nat} {α : Type} {rule : Rule α}
    (hrule : Attemptable (nested depth) rule) : Rule.Watches rule := by
  have h := watches_nested depth
  induction hrule with
  | production h => exact h.watches
  | prefixExp policy =>
    exact watches_prefixExp (scheme_head.watches h) (scheme_suffix.watches h) policy
  | assignment first => exact (scheme_assignment first).watches h
  | satisfy m => exact watches_satisfy m
  | endOfInput => exact watches_endOfInput
  | pure a => exact watches_pure a
  | bind _ _ ih ihf => exact ih.bind ihf
  | alt _ ih => exact .alt ih
  | optional _ ih => exact ih.optional
  | many _ ih => exact ih.many
  | sepBy1 _ _ ih ihseparator => exact ih.sepBy1 ihseparator
  | attempt _ ih => exact ih.attempt

/-- A rule that runs in pure lookahead records no insertion, whatever comes of it, and neither does
anything that follows it and that would record none if it found pure lookahead still. So an attempt
from an uncommitted state gives its value without any insertion, or it is stuck with the cursor and
the diagnostics as they were. The mode and the depth are the rule's own surroundings and not part of
the state. -/
theorem lookahead_never_inserts {depth : Nat} {α : Type} {rule : Rule α}
    (hrule : Attemptable (nested depth) rule) (c : Context) (s : State) :
    (c.mode = .strict →
      (∃ ds, (stateAfter (rule c s)).diags = ds ++ s.diags ∧ ∀ d ∈ ds, d.inserted? = none) ∧
      ∀ {β : Type} (next : Mode → α → Rule β),
        (∀ a, Attemptable (nested depth) (next .strict a)) →
        ∃ ds, (stateAfter ((do let a ← rule; next (← read).mode a : Rule β) c s)).diags =
          ds ++ s.diags ∧ ∀ d ∈ ds, d.inserted? = none) ∧
    (c.isCommitted s = false →
      (∃ a t ds, attempt rule c s = .ok a t ∧ t.diags = ds ++ s.diags ∧
        ∀ d ∈ ds, d.inserted? = none) ∨
      ∃ why hint, attempt rule c s = .error why { s with hint }) := by
  refine ⟨fun hc => ⟨hrule.watches c s hc, fun {β} next hnext => ?_⟩, fun hc => ?_⟩
  · have hboth : Attemptable (nested depth) (rule >>= next .strict) := .bind hrule hnext
    have hmode : (do let a ← rule; next (← read).mode a : Rule β) c s =
        (rule >>= next .strict) c s := by
      rw [← hc, bind_apply, bind_apply]
      rfl
    rw [hmode]
    exact hboth.watches c s hc
  · rcases hrule.watches.attempt_uncommitted hc with ⟨a, t, hok, ds, hdiags, hds⟩ | hstuck
    · exact .inl ⟨a, t, ds, hok, hdiags, hds⟩
    · exact .inr hstuck

/-- The closing parenthesis of `f(` is missing, and after it a name, which `next` would put in if it
were not in pure lookahead. -/
theorem lookahead_never_inserts_call :
    let stream : TokenStream := .ofTokens [⟨.ident "f", default⟩, ⟨.symbol .openParen, default⟩]
    let rule := call (nested defaultMaxDepth)
    let next (mode : Mode) (_ : PrefixExp) : Rule (Located String) :=
      if mode = .strict then name
      else do
        record ⟨default, .unexpected none [.named "identifier"], .inserted (.ident "x") 5⟩
        return ⟨"x", default⟩
    (∃ ds, (stateAfter (rule ⟨stream, .strict, defaultMaxDepth⟩ initial)).diags = ds ++ [] ∧
      ∀ d ∈ ds, d.inserted? = none) ∧
    (∃ ds, (stateAfter ((do let p ← rule; next (← read).mode p : Rule (Located String))
        ⟨stream, .strict, defaultMaxDepth⟩ initial)).diags = ds ++ [] ∧
      ∀ d ∈ ds, d.inserted? = none) ∧
    ((∃ a t ds, attempt rule ⟨stream, .since 0, defaultMaxDepth⟩ initial = .ok a t ∧
        t.diags = ds ++ [] ∧ ∀ d ∈ ds, d.inserted? = none) ∨
      ∃ why hint, attempt rule ⟨stream, .since 0, defaultMaxDepth⟩ initial =
        .error why { initial with hint }) := by
  intro stream rule next
  have hrule : Attemptable (nested defaultMaxDepth) rule := .prefixExp .callTerminated
  have hnext (p : PrefixExp) : Attemptable (nested defaultMaxDepth) (next .strict p) :=
    .satisfy .name
  have hstrict := lookahead_never_inserts hrule ⟨stream, .strict, defaultMaxDepth⟩ initial
  have hsince := lookahead_never_inserts hrule ⟨stream, .since 0, defaultMaxDepth⟩ initial
  exact ⟨(hstrict.1 rfl).1, (hstrict.1 rfl).2 next hnext, hsince.2 rfl⟩

end Grammar

end LuaSyntax
