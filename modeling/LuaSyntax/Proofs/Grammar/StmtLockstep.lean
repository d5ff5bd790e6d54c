import LuaSyntax.Grammar.Nesting
import LuaSyntax.Proofs.Grammar.ExprLockstep
/-!
# Statements in lockstep

The rules for statements and blocks, and then those of every nesting level, give trees that are the
same up to spans.
-/

namespace LuaSyntax.Grammar

open Rule

variable {P : Pairing} {inner : Level}

theorem lockstep_following {α : Type} {R : α → α → Prop} {separator : Symbol} {item : Rule α}
    (h : Lockstep P R item item)
    (hseparator : (Token.symbol separator).hasTwin = false) :
    Lockstep P R (following separator item) (following separator item) :=
  (lockstep_symbol separator hseparator).bind fun _ _ _ => h

theorem lockstep_funcName : Lockstep P P.Twins funcName funcName := by
  refine lockstep_name.bind fun first first' hfirst =>
    (lockstep_following lockstep_name rfl).many.bind fun others others' hothers =>
    (lockstep_following lockstep_name rfl).optional.map fun method method' hmethod => ?_
  exact (Pairing.Twins.list (.cons hfirst hothers)).map₂ (.option hmethod) SpanEq.funcName

/-! ### Simple statements -/

theorem lockstep_breakStmt : Lockstep P P.Twins breakStmt breakStmt :=
  (lockstep_keyword .break_ rfl).map fun _ _ _ => ⟨rfl, fun _ => rfl⟩

theorem lockstep_continueStmt : Lockstep P P.Twins continueStmt continueStmt :=
  (lockstep_keyword .continue_ rfl).map fun _ _ _ => ⟨rfl, fun _ => rfl⟩

theorem lockstep_labelStmt : Lockstep P P.Twins labelStmt labelStmt :=
  lockstep_label.map fun _ _ hn => hn.node.map beq_iff_eq.2

theorem lockstep_gotoStmt : Lockstep P P.Twins gotoStmt gotoStmt :=
  (lockstep_keyword .goto_ rfl).bind fun _ _ _ =>
    lockstep_name.map fun _ _ hn => hn.map beq_iff_eq.2

theorem lockstep_doStmt (h : inner.InStep P) : Lockstep P P.Twins (doStmt inner) (doStmt inner) :=
  (lockstep_keyword .do_ rfl).bind fun _ _ _ => h.block.bind fun _ _ hbody =>
    (lockstep_keyword .end_ rfl).bind fun _ _ _ => .pure (hbody.map fun h => h)

theorem lockstep_whileStmt (h : inner.InStep P) :
    Lockstep P P.Twins (whileStmt inner) (whileStmt inner) :=
  (lockstep_keyword .while_ rfl).bind fun _ _ _ => h.expr.bind fun _ _ hcond =>
    (lockstep_keyword .do_ rfl).bind fun _ _ _ => h.block.bind fun _ _ hbody =>
    (lockstep_keyword .end_ rfl).bind fun _ _ _ => .pure (hcond.map₂ hbody SpanEq.whileLoop)

theorem lockstep_repeatStmt (h : inner.InStep P) :
    Lockstep P P.Twins (repeatStmt inner) (repeatStmt inner) :=
  (lockstep_keyword .repeat_ rfl).bind fun _ _ _ => h.block.bind fun _ _ hbody =>
    (lockstep_keyword .until_ rfl).bind fun _ _ _ => h.expr.map fun _ _ hcond =>
    hbody.map₂ hcond SpanEq.repeatLoop

theorem lockstep_ifClause (h : inner.InStep P) :
    Lockstep P P.Twins (ifClause inner) (ifClause inner) :=
  h.expr.bind fun _ _ hcond => (lockstep_keyword .then_ rfl).bind fun _ _ _ =>
    h.block.map fun _ _ hbody => hcond.map₂ hbody SpanEq.clause

theorem lockstep_elseifClause (h : inner.InStep P) :
    Lockstep P P.Twins (elseifClause inner) (elseifClause inner) :=
  (lockstep_keyword .elseif_ rfl).bind fun _ _ _ => lockstep_ifClause h

theorem lockstep_elseBlock (h : inner.InStep P) :
    Lockstep P P.Twins (elseBlock inner) (elseBlock inner) :=
  (lockstep_keyword .else_ rfl).bind fun _ _ _ => h.block

theorem lockstep_ifStmt (h : inner.InStep P) :
    Lockstep P P.Twins (ifStmt inner) (ifStmt inner) := by
  refine (lockstep_keyword .if_ rfl).bind fun _ _ _ => (lockstep_ifClause h).bind
    fun first first' hfirst => (lockstep_elseifClause h).many.bind fun others others' hothers =>
    (lockstep_elseBlock h).optional.bind fun otherwise otherwise' hotherwise =>
    (lockstep_keyword .end_ rfl).bind fun _ _ _ => .pure ?_
  exact (Pairing.Twins.list (.cons hfirst hothers)).map₂ (.option hotherwise) SpanEq.conditional

theorem lockstep_numericFor (h : inner.InStep P) {forSpan forSpan' : Span} {var var' : Located Name}
    (hspan : P.Twins forSpan forSpan') (hvar : P.Twins var var') :
    Lockstep P P.Twins (numericFor inner forSpan var) (numericFor inner forSpan' var') := by
  refine (lockstep_symbol .equal rfl).bind fun _ _ _ => h.expr.bind fun start start' hstart =>
    (lockstep_symbol .comma rfl).bind fun _ _ _ => h.expr.bind fun stop stop' hstop =>
    (lockstep_following h.expr rfl).optional.bind fun step step' hstep =>
    (lockstep_keyword .do_ rfl).bind fun _ _ _ => h.block.bind fun body body' hbody =>
    (lockstep_keyword .end_ rfl).bind fun _ _ _ => .pure ?_
  have hone : P.Twins (⟨.number "1", forSpan⟩ : Located Expr) ⟨.number "1", forSpan'⟩ :=
    hspan.map fun _ => rfl
  have hstep : P.Twins (step.getD ⟨.number "1", forSpan⟩) (step'.getD ⟨.number "1", forSpan'⟩) := by
    cases hstep with
    | none => exact hone
    | some hstep => exact hstep
  refine ⟨SpanEq.numericFor hvar.same hstart.same hstop.same hstep.same hbody.same,
    fun hexact => ?_⟩
  rw [hvar.eq hexact, hstart.eq hexact, hstop.eq hexact, hstep.eq hexact, hbody.eq hexact]

theorem lockstep_genericFor (h : inner.InStep P) {first first' : Located Name}
    (hfirst : P.Twins first first') :
    Lockstep P P.Twins (genericFor inner first) (genericFor inner first') := by
  refine (lockstep_following lockstep_name rfl).many.bind fun others others' hothers =>
    (lockstep_keyword .in_ rfl).bind fun _ _ _ =>
    (lockstep_exprList h).bind fun exprs exprs' hexprs =>
    (lockstep_keyword .do_ rfl).bind fun _ _ _ => h.block.bind fun body body' hbody =>
    (lockstep_keyword .end_ rfl).bind fun _ _ _ => .pure ?_
  have hvars : P.Twins (first :: others) (first' :: others') := .list (.cons hfirst hothers)
  refine ⟨SpanEq.genericFor hvars.same hexprs.same hbody.same, fun hexact => ?_⟩
  rw [hvars.eq hexact, hexprs.eq hexact, hbody.eq hexact]

theorem lockstep_forStmt (h : inner.InStep P) :
    Lockstep P P.Twins (forStmt inner) (forStmt inner) :=
  (lockstep_keyword .for_ rfl).bind fun _ _ hspan => lockstep_name.bind fun _ _ hvar =>
    .alt (.cons (lockstep_numericFor h hspan hvar) (.cons (lockstep_genericFor h hvar) .nil))

theorem lockstep_functionStmt (h : inner.InStep P) :
    Lockstep P P.Twins (functionStmt inner) (functionStmt inner) :=
  (lockstep_keyword .function_ rfl).bind fun _ _ _ => lockstep_funcName.bind fun _ _ hname =>
    (lockstep_funcBody h).map fun _ _ hbody => hname.map₂ hbody SpanEq.function

theorem lockstep_localFunction (h : inner.InStep P) :
    Lockstep P P.Twins (localFunction inner) (localFunction inner) :=
  (lockstep_keyword .function_ rfl).bind fun _ _ _ => lockstep_name.bind fun _ _ hname =>
    (lockstep_funcBody h).map fun _ _ hbody => hname.map₂ hbody SpanEq.localFunction

theorem twins_padWithNil (count : Nat) {span span' : Span} {es es' : List (Located Expr)}
    (hspan : P.Twins span span') (hes : P.Twins es es') :
    P.Twins (Expr.padWithNil count span es) (Expr.padWithNil count span' es') :=
  hspan.map₂ hes fun _ hes => SpanEq.padWithNil count hes

theorem lockstep_localDecl (h : inner.InStep P) :
    Lockstep P P.Twins (localDecl inner) (localDecl inner) := by
  refine (lockstep_name.sepBy1 (lockstep_symbol .comma rfl)).bind fun names names' hnames =>
    (lockstep_symbol .equal rfl).optional.bind fun r r' hr => ?_
  have hlength : names'.length = names.length := hnames.length_eq.symm
  rw [hlength]
  cases hr with
  | some hequal =>
    refine (lockstep_exprList h).map fun es es' hes => ?_
    exact (Pairing.Twins.list hnames).map₂ (twins_padWithNil _ hequal hes) SpanEq.localDecl
  | none =>
    refine lockstep_pos.bind fun p p' hp => .pure ?_
    have hlast : P.Twins ((names.getLast?.map (·.span)).getD (.point p))
        ((names'.getLast?.map (·.span)).getD (.point p')) :=
      ⟨trivial, fun hexact => by rw [(Pairing.Twins.list hnames).eq hexact, hp hexact]⟩
    exact (Pairing.Twins.list hnames).map₂ (twins_padWithNil _ hlast (.list .nil)) SpanEq.localDecl

theorem lockstep_localStmt (h : inner.InStep P) :
    Lockstep P P.Twins (localStmt inner) (localStmt inner) :=
  (lockstep_keyword .local_ rfl).bind fun _ _ _ =>
    .alt (.cons (lockstep_localFunction h) (.cons (lockstep_localDecl h) .nil))

/-! ### Calls and assignments -/

theorem targetCause?_of_same {p q : PrefixExp} (h : p.same q = true) :
    targetCause? p = targetCause? q := by
  unfold targetCause?
  rw [PrefixExp.endsInCall_of_same h, PrefixExp.isBareParen_of_same h]

/-- A note on a target says nothing of what was found. -/
theorem foundAlike_of_targetCause? {p : PrefixExp} {cause : Cause}
    (h : targetCause? p = some cause) (stream stream' : TokenStream) (span span' : Span) :
    (Diagnostic.mk span cause .unrepaired).FoundAlike stream stream'
      ⟨span', cause, .unrepaired⟩ := by
  unfold targetCause? at h
  split at h
  · cases h
    rfl
  · split at h <;> cases h
    rfl

theorem lockstep_checkedTarget {p q : PrefixExp} (h : P.Twins p q) :
    Lockstep P P.Twins (checkedTarget p) (checkedTarget q) := by
  have htarget : P.Twins (⟨p, p.span⟩ : Located PrefixExp) ⟨q, q.span⟩ :=
    ⟨h.same, fun hexact => by rw [h.eq hexact]⟩
  unfold checkedTarget
  rw [targetCause?_of_same h.same]
  cases hcause : targetCause? q with
  | none => exact .pure htarget
  | some cause =>
    have hnote : P.Reports ⟨p.span, cause, .unrepaired⟩ ⟨q.span, cause, .unrepaired⟩ :=
      ⟨fun hexact => by rw [h.eq hexact], foundAlike_of_targetCause? hcause _ _ _ _, rfl⟩
    exact .bind (lockstep_record hnote) fun _ _ _ => .pure htarget

theorem lockstep_moreTargets (h : inner.InStep P) :
    Lockstep P P.Twins (moreTargets inner) (moreTargets inner) := by
  refine .mono (.collect ((lockstep_following
    (lockstep_prefixExp h .unrestricted) rfl).optional.bind fun r r' hr => ?_)) fun _ _ => .list
  cases hr with
  | none => exact .pure .none
  | some htarget =>
    exact (lockstep_checkedTarget htarget).map fun _ _ htarget => .some ⟨htarget, rfl⟩

theorem lockstep_assignment (h : inner.InStep P) {first first' : PrefixExp}
    (hfirst : P.Twins first first') :
    Lockstep P P.Twins (assignment inner first) (assignment inner first') := by
  refine (lockstep_checkedTarget hfirst).bind fun target target' htarget =>
    (lockstep_moreTargets h).bind fun others others' hothers =>
    (lockstep_symbol .equal rfl).bind fun equal equal' hequal =>
    (lockstep_exprList h).map fun es es' hes => ?_
  have htargets : P.Twins (target :: others) (target' :: others') :=
    htarget.map₂ hothers fun h hs => List.Forall₂.cons h hs
  have hlength : (target' :: others').length = (target :: others).length :=
    htargets.same.length_eq.symm
  rw [hlength]
  exact htargets.map₂ (twins_padWithNil _ hequal hes) SpanEq.assign

theorem lockstep_callOrAssign (h : inner.InStep P) :
    Lockstep P P.Twins (callOrAssign inner) (callOrAssign inner) := by
  refine (lockstep_head h).bind fun a a' ha => (lockstep_suffixChain h).bind fun ms ms' hms =>
    lockstep_peek.bind fun next next' hnext => ?_
  have hfirst := twins_prefixExp ha hms
  have hcall : (⟨a', ms'.map (·.1)⟩ : PrefixExp).endsInCall =
      (⟨a, ms.map (·.1)⟩ : PrefixExp).endsInCall :=
    (PrefixExp.endsInCall_of_same hfirst.same).symm
  have hsymbol : ∀ {s : Symbol}, (Token.symbol s).hasTwin = false →
      (next' = some (.symbol s) ↔ next = some (.symbol s)) := by
    intro s hs
    cases hnext with
    | none => exact Iff.rfl
    | some htu =>
      rw [Option.some_inj, Option.some_inj, ← Token.standard_eq_iff hs, ← htu,
        Token.standard_eq_iff hs]
  simp only [hcall, ne_eq, hsymbol (s := .comma) rfl, hsymbol (s := .equal) rfl]
  split
  · exact .pure (hfirst.map fun h => h)
  · exact lockstep_assignment h hfirst

theorem lockstep_stmt (h : inner.InStep P) : Lockstep P P.Twins (stmt inner) (stmt inner) :=
  .located (.alt (.cons (lockstep_callOrAssign h) (.cons lockstep_labelStmt
    (.cons lockstep_breakStmt (.cons lockstep_continueStmt (.cons lockstep_gotoStmt
    (.cons (lockstep_doStmt h) (.cons (lockstep_whileStmt h) (.cons (lockstep_repeatStmt h)
    (.cons (lockstep_ifStmt h) (.cons (lockstep_forStmt h) (.cons (lockstep_functionStmt h)
    (.cons (lockstep_localStmt h) .nil)))))))))))))

/-! ### Blocks -/

theorem lockstep_returnStmt (h : inner.InStep P) :
    Lockstep P P.Twins (returnStmt inner) (returnStmt inner) := by
  refine .located ((lockstep_keyword .return_ rfl).bind fun _ _ _ =>
    (lockstep_exprList h).optional.bind fun r r' hr =>
    (lockstep_symbol .semicolon rfl).many.map fun _ _ _ => ?_)
  cases hr with
  | none => exact ⟨rfl, fun _ => rfl⟩
  | some hes => exact hes.map SpanEq.exprs_iff.2

instance : SpanEq BlockPart where
  same
    | .stmt s, .stmt s' => SpanEq.same s s'
    | .ret r, .ret r' => SpanEq.same r r'
    | .junk, .junk => True
    | _, _ => False

theorem blind_resumesAt : Token.Blind resumesAt :=
  (Token.blind_startsStmt.or Token.blind_endsBlock).or (.beq rfl)

theorem junkLength_pairs {ts us : List Token}
    (h : List.Forall₂ (fun t u : Token => t.standard = u.standard) ts us) :
    junkLength us = junkLength ts := by
  cases h with
  | nil => rfl
  | cons _ hrest =>
    have htake : ∀ {ts us : List Token},
        List.Forall₂ (fun t u : Token => t.standard = u.standard) ts us →
        (us.takeWhile (!resumesAt ·)).length = (ts.takeWhile (!resumesAt ·)).length := by
      intro ts us h
      induction h with
      | nil => rfl
      | @cons t u ts us htu _ ih =>
        rw [List.takeWhile_cons, List.takeWhile_cons, blind_resumesAt.eq htu]
        split
        · rw [List.length_cons, List.length_cons, ih]
        · rfl
    rw [junkLength, junkLength, htake hrest]

theorem lockstep_skipJunk : Lockstep P (fun _ _ => True) skipJunk skipJunk := by
  intro mode limit s s' hs
  have hskip := lockstep_skipTokens (junkLength ((P.left.rest s.cursor).map (·.node)))
    [.named "statement"] mode limit s s' hs
  unfold skipJunk
  rw [hs.cursor_eq, junkLength_pairs (P.rest_pairs s.cursor)]
  exact hskip

theorem lockstep_blockPart (h : inner.InStep P) :
    Lockstep P (Rounds P.Twins) (blockPart inner) (blockPart inner) := by
  refine (lockstep_symbol .semicolon rfl).many.bind fun _ _ _ =>
    (lockstep_stmt h).optional.bind fun s s' hs => ?_
  cases hs with
  | some hs => exact .pure (.some ⟨hs.map fun h => h, rfl⟩)
  | none =>
    refine (lockstep_returnStmt h).optional.bind fun r r' hr => ?_
    cases hr with
    | some hr => exact .pure (.some ⟨hr.map fun h => h, rfl⟩)
    | none =>
      refine lockstep_peek.bind fun next next' hnext => ?_
      cases hnext with
      | none => exact .pure .none
      | some htu =>
        dsimp only
        rw [Token.blind_endsBlock.eq htu]
        split
        · exact .pure .none
        · exact lockstep_skipJunk.map fun _ _ _ => .some ⟨⟨trivial, fun _ => rfl⟩, rfl⟩

theorem BlockPart.stmt?_of_same {p q : BlockPart} (h : SpanEq.same p q) :
    SpanEq.same p.stmt? q.stmt? := by
  cases p <;> cases q <;> first | exact .none | exact .some h | exact h.elim

theorem BlockPart.ret?_of_same {p q : BlockPart} (h : SpanEq.same p q) :
    SpanEq.same p.ret? q.ret? := by
  cases p <;> cases q <;> first | exact .none | exact .some h | exact h.elim

theorem blockOf_same {ps qs : List BlockPart} (h : SpanEq.same ps qs) :
    SpanEq.same (blockOf ps) (blockOf qs) :=
  SpanEq.block (SpanEq.filterMap (fun _ _ => BlockPart.stmt?_of_same) h)
    (SpanEq.findSome? (fun _ _ => BlockPart.ret?_of_same) h)

theorem lockstep_stmts (h : inner.InStep P) : Lockstep P P.Twins (stmts inner) (stmts inner) :=
  (Lockstep.collect (lockstep_blockPart h)).map fun _ _ hparts =>
    (Pairing.Twins.list hparts).map blockOf_same

theorem ret_isNone_of_same {a b : Block} (h : SpanEq.same a b) : a.ret.isNone = b.ret.isNone := by
  obtain ⟨ss, r⟩ := a
  obtain ⟨ss', r'⟩ := b
  have hret : Option.Rel SpanEq.same r r' := (SpanEq.block_iff.1 h).2
  cases hret <;> rfl

theorem lockstep_chunkPart (h : inner.InStep P) :
    Lockstep P (Rounds P.Twins) (chunkPart inner) (chunkPart inner) := by
  refine lockstep_atEnd.bind fun b b' hb => ?_
  subst hb
  split
  · exact .pure .none
  · exact (lockstep_skipTokens 1 _).bind fun _ _ _ => h.block.map fun more more' hmore =>
      .some ⟨hmore, ret_isNone_of_same hmore.same⟩

theorem foldl_append_same {b b' : Block} {bs bs' : List Block} (hb : SpanEq.same b b')
    (hbs : SpanEq.same bs bs') : SpanEq.same (bs.foldl (· ++ ·) b) (bs'.foldl (· ++ ·) b') := by
  induction hbs generalizing b b' with
  | nil => exact hb
  | cons h _ ih => exact ih (SpanEq.append hb h)

theorem lockstep_chunk (h : inner.InStep P) : Lockstep P P.Twins (chunk inner) (chunk inner) := by
  refine h.block.bind fun first first' hfirst => ?_
  have hret := ret_isNone_of_same hfirst.same
  rw [← Option.not_isSome, ← Option.not_isSome, Bool.not_inj_iff] at hret
  rw [hret]
  split
  · exact .pure hfirst
  · exact (Lockstep.collect (lockstep_chunkPart h)).map fun _ _ hmore =>
      hfirst.map₂ (.list hmore) foldl_append_same

/-! ### Nesting levels -/

theorem lockstep_cutOffExpr : Lockstep P P.Twins cutOffExpr cutOffExpr := by
  have hnil : ∀ {span span' : Span}, P.Twins span span' →
      P.Twins (Expr.nilAt span) (Expr.nilAt span') := fun h => h.map fun _ => rfl
  refine (lockstep_skipLevel true).bind fun r r' hr => ?_
  cases hr with
  | some hspan => exact .pure (hnil hspan)
  | none =>
    refine lockstep_committed.bind fun b b' hb => ?_
    subst hb
    split
    · refine lockstep_pos.bind fun p p' hp => ?_
      have hspan : P.Twins (Span.point p) (.point p') := ⟨trivial, fun hexact => by rw [hp hexact]⟩
      intro mode limit s s' hs
      exact .ok (hnil hspan) (hs.record ⟨hspan.eq, rfl, rfl⟩)
    · exact lockstep_stuck _ _

theorem lockstep_cutOffBlock : Lockstep P P.Twins cutOffBlock cutOffBlock :=
  (lockstep_skipLevel false).map fun _ _ _ => ⟨rfl, fun _ => rfl⟩

theorem inStep_nested (P : Pairing) (depth : Nat) : (nested depth).InStep P := by
  induction depth with
  | zero => exact ⟨lockstep_cutOffExpr, lockstep_cutOffBlock⟩
  | succ depth ih => exact ⟨lockstep_orExpr ih, lockstep_stmts ih⟩

end LuaSyntax.Grammar
