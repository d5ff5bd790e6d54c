import LuaSyntax.Proofs.Grammar.ExprTrim
/-!
# Trimmed statements

One lemma for each rule: over a level that trims another one, it trims what the same rule reads over
that other level. Where a block begins, the tokens that are left of the statement are found from its
span, so each statement is trimmed together with the span of the construct that it is the end of.
-/

namespace LuaSyntax

namespace Language

/-- No parenthesis is closed in the name of a function. -/
theorem not_mem_of_funcName {ts : List Token} {n : FuncName} (h : IsFuncName ts n) :
    .symbol .closeParen ∉ ts := by
  cases h with
  | plain h => exact not_mem_of_names h nofun
  | method h name => simpa using not_mem_of_names h nofun

end Language

namespace Grammar

open Rule

variable {stream : TokenStream} {limit room : Nat} {inner inner' : Level} {i j k : Nat}

/-- A statement from `i` to `j`, the whole of its span. -/
abbrev TrimmedStmt (stream : TokenStream) (limit room : Nat) (rule' : Rule Stmt) (i : Nat)
    (s : Stmt) (j : Nat) : Prop :=
  Cuts stream limit rule' i (s.replaced room (stream.spanBetween i j)) (s.truncate room) j

/-- What is left of a target can be assigned to if the target can. -/
theorem targetCause?_truncate (p : PrefixExp) :
    targetCause? (p.truncate room) = targetCause? p := by
  simp [targetCause?]

/-- Expressions that are filled up with `nil`. -/
theorem FittedExprs.padded {rule' : Rule (List (Located Expr))} {es : List (Located Expr)}
    (h : FittedExprs stream limit room rule' i es j) {count : Nat} {span : Span} :
    Cuts stream limit rule' i (replacedInExprs room false (Expr.padWithNil count span es))
      (truncateExprs room es) j :=
  (h.cuts false nofun).congr_items (replacedInExprs_padWithNil h.ne_nil)

/-- A clause of a statement that begins at `a` and goes on up to `m`, and where the block after it
begins. -/
def TrimmedClause (stream : TokenStream) (limit room : Nat) (rule' : Rule IfClause) (i : Nat)
    (c : IfClause) (j : Nat) : Prop :=
  ∀ a m, a ≤ i → j < m → m ≤ stream.size →
    Cuts stream limit rule' i (c.replaced room (stream.spanBetween a m)) (c.truncate room) j ∧
    (BlockStart.next (.word (stream.spanBetween a m) [c.cond.span]) c.body).rest
      stream.tokens.toList = stream.slice (j + 1) m

/-- The rest of a declaration that begins at `a`. -/
def TrimmedDecl (stream : TokenStream) (limit room : Nat) (rule' : Rule Stmt) (i : Nat)
    (s : Stmt) (j : Nat) : Prop :=
  ∀ a ≤ i, Open stream a i →
    Cuts stream limit rule' i (s.replaced room (stream.spanBetween a j)) (s.truncate room) j

namespace Level.Trims

variable (h : inner.Trims stream limit room inner')

include h

/-! ### Simple statements -/

omit h in
theorem breakStmt : Cleanly stream breakStmt
    (TrimmedStmt stream limit room Grammar.breakStmt) := by
  refine .token_bind fun _ => .pure ?_
  rintro _ _ i rfl hbreak
  rw [TrimmedStmt, Stmt.replaced, Stmt.truncate]
  exact ((Determined.token hbreak).bind_pure _).cuts

omit h in
theorem continueStmt : Cleanly stream continueStmt
    (TrimmedStmt stream limit room Grammar.continueStmt) := by
  refine .token_bind fun _ => .pure ?_
  rintro _ _ i rfl hcontinue
  rw [TrimmedStmt, Stmt.replaced, Stmt.truncate]
  exact ((Determined.token hcontinue).bind_pure _).cuts

theorem labelStmt : Cleanly stream labelStmt
    (TrimmedStmt stream limit room Grammar.labelStmt) := by
  refine (h.satisfied .label).bind fun n => .pure fun j _ i _ ⟨_, _, hlabel⟩ => ?_
  rw [TrimmedStmt, Stmt.replaced, Stmt.truncate]
  exact ((hlabel limit).bind_pure fun n => Stmt.label n.node).cuts

theorem gotoStmt : Cleanly stream gotoStmt
    (TrimmedStmt stream limit room Grammar.gotoStmt) := by
  refine .token_bind fun _ => (h.satisfied .name).bind fun n => .pure ?_
  rintro j _ _ _ ⟨-, -, hname⟩ i rfl hgoto
  rw [TrimmedStmt, Stmt.replaced, Stmt.truncate]
  exact .token_bind hgoto ((hname limit).bind_pure Stmt.goto).cuts

theorem doStmt : Cleanly stream (doStmt inner)
    (TrimmedStmt stream limit room (Grammar.doStmt inner')) := by
  refine .token_bind fun _ => h.block.bind fun body => .token_bind fun _ => .pure ?_
  rintro _ hj k rfl hend _ _ hbody i rfl hdo
  have hrest := h.apart.rest_first (show i < k + 1 by omega) hj
  have hcuts := (hbody (blockEnds_of_get? hend rfl)).cuts _ _ (Nat.le_succ k) hj hrest
  rw [TrimmedStmt, Stmt.replaced, Stmt.truncate]
  exact .token_bind hdo (hcuts.before_token hend _)

theorem repeatStmt : Cleanly stream (repeatStmt inner)
    (TrimmedStmt stream limit room (Grammar.repeatStmt inner')) := by
  refine .token_bind fun _ => h.block.bind fun body => .token_bind fun _ =>
    h.expr.bind fun cond => .pure ?_
  rintro j hj _ _ hcond k rfl huntil _ _ hbody i rfl hrepeat
  have hlt := hcond.moves
  have hrest := h.apart.rest_first (show i < j by omega) hj
  have hbody := (hbody (blockEnds_of_get? huntil rfl)).cuts _ _ (show k ≤ j by omega) hj hrest
  rw [TrimmedStmt, Stmt.replaced, Stmt.truncate]
  exact .token_bind hrepeat (hbody.bind
    (.token_bind huntil ((hcond.cuts false nofun).bind_pure _)))

/-! ### Conditionals -/

theorem ifClause : Cleanly stream (ifClause inner) fun i c j => BlockEnds (stream.word j) →
    TrimmedClause stream limit room (Grammar.ifClause inner') i c j := by
  refine h.expr.bind fun cond => .token_bind fun _ => h.block.bind fun body => .pure ?_
  rintro j _ _ hle hbody k rfl hthen i _ hcond hends a m hai hjm hm
  have hspan : stream.EndsAt k [cond.span] := hcond.span ▸ .singleton hcond.moves
  have hrest := h.apart.rest_word hspan (show a ≤ k by omega) (show k < m by omega) hm
  have hfitted := hbody hends
  have hbody := hfitted.cuts _ m (Nat.le_of_lt hjm) hm hrest
  refine ⟨?_, TokenStream.rest_next hle (by omega) hrest
    (hfitted.extent m (Nat.le_of_lt hjm) hm)⟩
  rw [IfClause.replaced, IfClause.truncate]
  exact (hcond.cuts false nofun).bind (.token_bind hthen (hbody.bind_pure _))

theorem elseifClause : Cleanly stream (elseifClause inner) fun i c j => i < j ∧
    BlockEnds (stream.word i) ∧ (BlockEnds (stream.word j) →
      TrimmedClause stream limit room (Grammar.elseifClause inner') i c j) := by
  refine .token_bind fun _ => h.ifClause.bounds.mono ?_
  rintro _ c j ⟨hle, -, hclause⟩ i rfl helseif
  refine ⟨hle, blockEnds_of_get? helseif rfl, fun hends a m hai hjm hm => ?_⟩
  obtain ⟨hcuts, hrest⟩ := hclause hends a m (Nat.le_succ_of_le hai) hjm hm
  exact ⟨.token_bind helseif hcuts, hrest⟩

/-- Each clause ends where the next one begins. -/
theorem elseifClauses : Cleanly stream (many (Grammar.elseifClause inner)) fun i cs j =>
    BlockEnds (stream.word j) → BlockEnds (stream.word i) ∧
      ∀ a m, a ≤ i → j < m → m ≤ stream.size →
        Cuts stream limit (many (Grammar.elseifClause inner')) i
          (replacedInClauses room (stream.spanBetween a m) cs) (truncateClauses room cs) j ∧
        ∀ before, (BlockStart.afterClauses (stream.spanBetween a m) before).rest
            stream.tokens.toList = stream.slice (i + 1) m →
          (BlockStart.afterClauses (stream.spanBetween a m) (before ++ cs)).rest
            stream.tokens.toList = stream.slice (j + 1) m := by
  refine (h.elseifClause.many fun _ _ _ hc => hc.1).mono fun i cs j hseries hends => ?_
  induction hseries with
  | nil hnone =>
    refine ⟨hends, fun a m _ _ _ => ⟨?_, fun before hbefore => ?_⟩⟩
    · rw [replacedInClauses, truncateClauses]
      exact .many_nil (h.refuses scheme_elseifClause hnone)
    · rwa [List.append_nil]
  | cons hc hrest ih =>
    obtain ⟨hlt, hi, hclause⟩ := hc
    obtain ⟨hk, hothers⟩ := ih hends
    have hkj := hrest.le fun _ _ _ hc => Nat.le_of_lt hc.1
    refine ⟨hi, fun a m hai hjm hm => ?_⟩
    obtain ⟨hcuts, hnext⟩ := hclause hk a m hai (by omega) hm
    obtain ⟨hcuts', hlast⟩ := hothers a m (by omega) hjm hm
    refine ⟨?_, fun before _ => ?_⟩
    · rw [replacedInClauses, truncateClauses]
      exact hcuts.many_cons hlt hcuts'
    · rw [List.append_cons]
      exact hlast _ (by rw [afterClauses_append, hnext])

theorem elseBlock : Cleanly stream (elseBlock inner) fun i b j => BlockEnds (stream.word j) →
    BlockEnds (stream.word i) ∧ ∀ opening m, j < m → m ≤ stream.size →
      opening.rest stream.tokens.toList = stream.slice (i + 1) m →
      Cuts stream limit (Grammar.elseBlock inner') i (b.replaced room opening) (b.truncate room)
        j := by
  refine .token_bind fun _ => h.block.mono ?_
  rintro _ b j hbody i rfl helse hends
  refine ⟨blockEnds_of_get? helse rfl, fun opening m hjm hm hrest => ?_⟩
  exact .token_bind helse ((hbody hends).cuts opening m (Nat.le_of_lt hjm) hm hrest)

theorem clauses : Cleanly stream (clauses inner) fun i cs j => BlockEnds (stream.word j) →
    ∀ a m, a ≤ i → j < m → m ≤ stream.size → Cuts stream limit (Grammar.clauses inner') i
      (replacedInClauses room (stream.spanBetween a m) cs.1 ++
        replacedInElse room (.afterClauses (stream.spanBetween a m) cs.1) cs.2)
      (truncateClauses room cs.1, truncateElse room cs.2) j := by
  refine h.ifClause.bounds.bind fun first => h.elseifClauses.bounds.bind fun others =>
    h.elseBlock.bounds.optional_bind (fun otherwise => .pure ?_) (.pure ?_)
  · rintro j _ n _ ⟨hnj, -, helse⟩ k _ ⟨hkn, -, hothers⟩ i _ ⟨hik, -, hfirst⟩ hends a m hai hjm hm
    obtain ⟨hn, hotherwise⟩ := helse hends
    obtain ⟨hk, hothers⟩ := hothers hn
    obtain ⟨hcuts, hrest⟩ := hfirst hk a m hai (by omega) hm
    obtain ⟨hcuts', hlast⟩ := hothers a m (by omega) (by omega) hm
    have hopening := hlast [first] hrest
    rw [replacedInClauses, truncateClauses, replacedInElse, truncateElse, List.append_assoc]
    exact hcuts.bind (hcuts'.bind
      ((hotherwise _ m hjm hm hopening).optional.bind_pure _))
  · rintro n _ hnone k _ ⟨hkn, -, hothers⟩ i _ ⟨hik, -, hfirst⟩ hends a m hai hjm hm
    obtain ⟨hk, hothers⟩ := hothers hends
    obtain ⟨hcuts, -⟩ := hfirst hk a m hai (by omega) hm
    obtain ⟨hcuts', -⟩ := hothers a m (by omega) hjm hm
    have hrefuses := h.refuses scheme_elseBlock hnone
    rw [replacedInClauses, truncateClauses, replacedInElse, truncateElse, List.append_assoc]
    exact hcuts.bind (hcuts'.bind (.after hrefuses.determined (.pure _ _)))

theorem ifStmt : Cleanly stream (ifStmt inner)
    (TrimmedStmt stream limit room (Grammar.ifStmt inner')) := by
  rw [ifStmt_eq, ifStmt_eq]
  refine .token_bind fun _ => h.clauses.bind fun cs => .token_bind fun _ => .pure ?_
  rintro _ hj k rfl hend _ _ hcs i rfl hif
  have hcuts := hcs (blockEnds_of_get? hend rfl) i (k + 1) (Nat.le_succ i) (Nat.lt_succ_self k) hj
  rw [TrimmedStmt, Stmt.replaced, Stmt.truncate]
  exact .token_bind hif (hcuts.before_token hend fun cs => Stmt.conditional cs.1 cs.2)

/-! ### Loops -/

/-- The rest of a loop that begins at `a`, after the expressions at `header`. -/
theorem loopBody (g : Block → Stmt) :
    Cleanly stream (do
      let _ ← keyword .do_
      let body ← inner.block
      let _ ← keyword .end_
      return g body) fun k s j => ∃ body, s = g body ∧
        ∀ a header, a ≤ k → stream.EndsAt k header → ∀ g' : Block → Stmt,
          Cuts stream limit (do
            let _ ← keyword .do_
            let body ← inner'.block
            let _ ← keyword .end_
            return g' body) k (body.replaced room (.word (stream.spanBetween a j) header))
              (g' (body.truncate room)) j := by
  refine .token_bind fun _ => h.block.bind fun body => .token_bind fun _ => .pure ?_
  rintro _ hj n rfl hend _ hkn hbody k rfl hdo
  refine ⟨body, rfl, fun a header hak hheader g' => ?_⟩
  have hrest := h.apart.rest_word hheader hak (show k < n + 1 by omega) hj
  have hcuts := (hbody (blockEnds_of_get? hend rfl)).cuts _ _ (Nat.le_succ n) hj hrest
  exact .token_bind hdo (hcuts.before_token hend _)

theorem whileStmt : Cleanly stream (whileStmt inner)
    (TrimmedStmt stream limit room (Grammar.whileStmt inner')) := by
  refine .token_bind fun _ => h.expr.bind fun cond => (h.loopBody (.whileLoop cond)).mono ?_
  rintro k _ j ⟨body, rfl, hbody⟩ _ _ hcond i rfl hwhile
  have hlt := hcond.moves
  have hbody := hbody i [cond.span] (by omega) (hcond.span ▸ .singleton hlt)
  rw [TrimmedStmt, Stmt.replaced, Stmt.truncate]
  exact .token_bind hwhile ((hcond.cuts false nofun).bind (hbody _))

/-- A step that is left out is at the `for`, and is the same with any room. -/
theorem numericFor (forSpan : Span) (var : Located Name) :
    Cleanly stream (numericFor inner forSpan var) fun i s j => ∀ a < i,
      forSpan = stream.spanBetween a (a + 1) →
      Cuts stream limit (Grammar.numericFor inner' forSpan var) i
        (s.replaced room (stream.spanBetween a j)) (s.truncate room) j := by
  refine .token_bind fun _ => h.expr.bind fun start => .token_bind fun _ =>
    h.expr.bind fun stop => h.nextExpr.optional_bind (fun step => ?_) ?_
  · refine (h.loopBody (.numericFor var start stop step)).mono ?_
    rintro k _ j ⟨body, rfl, hbody⟩ m₂ _ ⟨⟨_, hcomma'⟩, hstep⟩ _ _ hstop m₁ rfl hcomma _ _ hstart
      i rfl hequal a hai hforSpan
    have hlt := hstart.moves
    have hlt' := hstop.moves
    have hlt'' := hstep.moves
    have hheader : stream.EndsAt k [start.span, stop.span, step.span] := by
      rw [hstart.span, hstop.span, hstep.span]
      exact ((TokenStream.EndsAt.singleton hlt).append (Nat.le_succ _) hlt').append
        (Nat.le_succ _) hlt''
    have hbody := hbody a _ (by omega) hheader
    rw [Stmt.replaced, Stmt.truncate, List.append_assoc, List.append_assoc]
    have hgiven : Cuts stream limit (following .comma inner'.expr) m₂ _ _ k :=
      .token_bind hcomma' (hstep.cuts false nofun)
    exact .token_bind hequal ((hstart.cuts false nofun).bind (.token_bind hcomma
      ((hstop.cuts false nofun).bind (hgiven.optional.bind (hbody _)))))
  · refine (h.loopBody (.numericFor var start stop ⟨.number "1", forSpan⟩)).mono ?_
    rintro k _ j ⟨body, rfl, hbody⟩ hnone _ _ hstop m₁ rfl hcomma _ _ hstart
      i rfl hequal a hai hforSpan
    have hlt := hstart.moves
    have hlt' := hstop.moves
    have hheader : stream.EndsAt k [start.span, stop.span, forSpan] := by
      rw [hstart.span, hstop.span, hforSpan]
      exact ((TokenStream.EndsAt.singleton hlt).append (Nat.le_succ _) hlt').snoc
        (Nat.lt_succ_self a) (by omega)
    have hbody := hbody a _ (by omega) hheader
    have hrefuses := h.refuses (scheme_following .comma Scheme.expr) hnone
    rw [Stmt.replaced, Stmt.truncate, List.append_assoc, List.append_assoc]
    cases room with
    | zero => exact .of_bare (List.mem_cons_self) rfl
    | succ room =>
      simp only [Expr.replaced, Expr.truncate, replacedExpr, fittedExpr, fitted_succ,
        List.nil_append]
      exact .token_bind hequal ((hstart.cuts false nofun).bind (.token_bind hcomma
        ((hstop.cuts false nofun).bind (.after hrefuses.determined (hbody _)))))

/-- Further names, and where the last one ends. -/
theorem moreNames : Cleanly stream (many (following .comma name)) fun i ns j =>
    (∀ (n : Located Name) (k : Nat), k < i → n.span = stream.spanBetween k i →
      ∃ m < j, ((n :: ns).getLast (List.cons_ne_nil _ _)).span = stream.spanBetween m j) ∧
    ∀ limit, Determined stream limit (many (following .comma name)) i ns j [] := by
  have hname : Cleanly stream (following .comma name) fun i n j => i + 1 < j ∧
      n.span = stream.spanBetween (i + 1) j :=
    .token_bind fun _ => (h.satisfied .name).mono fun _ n j ⟨hlt, hspan, _⟩ i hi _ =>
      hi ▸ ⟨hlt, hspan⟩
  have hagain : Cleanly stream (many (following .comma name)) fun i ns j =>
      ∀ limit, Determined stream limit (many (following .comma name)) i ns j [] :=
    .again (Repeats.many (reopens_following reopens_name) heralds_any)
  refine ((hname.many fun _ _ _ hn => Nat.lt_of_succ_lt hn.1).and hagain).mono ?_
  rintro i ns j ⟨hseries, hdetermined⟩
  refine ⟨?_, hdetermined⟩
  clear hdetermined
  induction hseries with
  | nil _ => exact fun n k hk hn => ⟨k, hk, hn⟩
  | cons hn _ ih =>
    intro n k _ _
    rw [List.getLast_cons (List.cons_ne_nil _ _)]
    exact ih _ _ hn.1 hn.2

theorem genericFor (first : Located Name) :
    Cleanly stream (genericFor inner first) fun i s j => ∀ a < i,
      Cuts stream limit (Grammar.genericFor inner' first) i
        (s.replaced room (stream.spanBetween a j)) (s.truncate room) j := by
  refine h.moreNames.bind fun others => .token_bind fun _ => h.exprList.bind fun exprs =>
    (h.loopBody (.genericFor (first :: others) exprs)).mono ?_
  rintro k _ j ⟨body, rfl, hbody⟩ _ _ hexprs m rfl hin i him ⟨-, hothers⟩ a hai
  have hlt := hexprs.moves
  have hbody := hbody a _ (by omega) hexprs.ends
  rw [Stmt.replaced, Stmt.truncate]
  exact .after (hothers limit) (.token_bind hin ((hexprs.cuts false nofun).bind (hbody _)))

theorem forStmt : Cleanly stream (forStmt inner)
    (TrimmedStmt stream limit room (Grammar.forStmt inner')) := by
  refine .token_bind fun forSpan => (h.satisfied .name).bind fun var => ?_
  have hrules : Cleanly stream
      (Rule.alt [Grammar.numericFor inner forSpan var, Grammar.genericFor inner var])
      fun i s j => ∀ a < i, forSpan = stream.spanBetween a (a + 1) →
        Cuts stream limit
          (Rule.alt [Grammar.numericFor inner' forSpan var, Grammar.genericFor inner' var]) i
          (s.replaced room (stream.spanBetween a j)) (s.truncate room) j := by
    refine h.alt (P := fun rule i s j => ∀ a < i, forSpan = stream.spanBetween a (a + 1) →
        Cuts stream limit rule i (s.replaced room (stream.spanBetween a j)) (s.truncate room) j)
      (fun hs hbefore a hai hspan => (hs a hai hspan).alt hbefore)
      [fun inner => Grammar.numericFor inner forSpan var]
      (fun inner => Grammar.genericFor inner var) ?_ (scheme_genericFor var).asInner ?_
    · simp only [List.forall_mem_cons]
      exact ⟨scheme_numericFor forSpan var, List.forall_mem_nil _⟩
    · simp only [List.cons_append, List.nil_append, List.forall_mem_cons]
      exact ⟨h.numericFor forSpan var,
        (h.genericFor var).mono fun _ _ _ hs a hai _ => hs a hai, List.forall_mem_nil _⟩
  refine hrules.mono ?_
  rintro k s j hs _ _ ⟨hlt, -, hname⟩ i rfl hfor
  have hspan := h.apart.spanBetween_succ hfor
  exact .token_bind hfor (.after (hname limit) (hs i (by omega) hspan.symm))

/-! ### Declarations -/

theorem funcName : Cleanly stream funcName fun i n j =>
    Open stream i j ∧ ∀ limit, Determined stream limit Grammar.funcName i n j [] := by
  obtain ⟨law, L, hsound⟩ := h.sound
  exact ((opens_funcName hsound).cleanly.mono fun _ _ _ hn =>
    open_of_not_mem (Language.not_mem_of_funcName hn.1)).and (.again reopens_funcName.toRepeats)

theorem functionStmt : Cleanly stream (functionStmt inner)
    (TrimmedStmt stream limit room (Grammar.functionStmt inner')) := by
  refine .token_bind fun _ => h.funcName.bind fun n => h.funcBody.bounds.bind fun body => .pure ?_
  rintro j hj k _ ⟨hkj, -, hbody⟩ _ hik ⟨hopen, hname⟩ i rfl hfunction
  have hfront : Open stream i k := (open_token hfunction nofun).trans hopen (Nat.le_succ i) hik
    (Nat.le_trans hkj hj)
  have hbody := hbody i (Nat.le_of_lt hik) hfront
  rw [TrimmedStmt, Stmt.replaced, Stmt.truncate]
  exact .token_bind hfunction (.after (hname limit) (hbody.bind_pure _))

theorem localFunction : Cleanly stream (localFunction inner)
    (TrimmedDecl stream limit room (Grammar.localFunction inner')) := by
  obtain ⟨law, L, hsound⟩ := h.sound
  have hname : Cleanly stream name fun i n j =>
      Open stream i j ∧ ∀ limit, Determined stream limit name i n j [] := by
    refine (hsound.name.cleanly.mono fun _ _ _ hn => open_of_not_mem ?_).and
      (.again reopens_name.toRepeats)
    rw [(Yield.mk.inj hn).1]
    simp
  refine .token_bind fun _ => hname.bind fun n => h.funcBody.bounds.bind fun body => .pure ?_
  rintro j hj k _ ⟨hkj, -, hbody⟩ _ hik ⟨hopen, hname⟩ i rfl hfunction a hai hfront
  have hfront' : Open stream a k :=
    (hfront.trans (open_token hfunction nofun) hai (Nat.le_succ i) (by omega)).trans hopen
      (Nat.le_succ_of_le hai) hik (Nat.le_trans hkj hj)
  have hbody := hbody a (by omega) hfront'
  rw [Stmt.replaced, Stmt.truncate]
  exact .token_bind hfunction (.after (hname limit) (hbody.bind_pure _))

/-- Without values nothing is replaced. The `nil`s that fill up are the same with any room. -/
theorem localDecl : Cleanly stream (localDecl inner)
    (TrimmedDecl stream limit room (Grammar.localDecl inner')) := by
  rw [localDecl_eq, localDecl_eq]
  refine (h.satisfied .name).bind fun first => h.moreNames.bind fun others =>
    (cleanly_token (.symbol .equal)).optional_bind
      (fun equal => h.exprList.bind fun values => .pure ?_) (.pure ?_)
  · rintro j hj _ _ hvalues k _ ⟨rfl, hequal⟩ i' _ ⟨hlast, hothers⟩ i _ ⟨him, hspan, hfirst⟩ a _ _
    obtain ⟨m, hmk, hname⟩ := hlast first i him hspan
    have hlt := hvalues.moves
    have hhas : hasValues (first :: others)
        (Expr.padWithNil (first :: others).length equal values) = true := by
      obtain ⟨n, hn, hmem⟩ := hvalues.ends.last
      obtain ⟨value, hvalue, hends⟩ := List.mem_map.1 hmem
      have hne := h.apart.spanBetween_ne hmk (show k < j by omega) hn hj
      rw [← hname, ← hends] at hne
      refine List.any_eq_true.2 ⟨value, List.mem_append_left _ hvalue, ?_⟩
      rw [List.getLast?_eq_getLast_of_ne_nil (List.cons_ne_nil _ _)]
      simpa using hne
    rw [Stmt.replaced, if_pos hhas, Stmt.truncate, truncateExprs_padWithNil]
    exact .after (hfirst limit) (.after (hothers limit)
      (.after (Determined.token hequal).optional (hvalues.padded.bind_pure _)))
  · rintro j _ hnone m _ ⟨-, hothers⟩ i _ ⟨-, -, hfirst⟩ a _ _
    have hrefuses := h.refuses (Scheme.symbol .equal) hnone
    have hhas : hasValues (first :: others) (Expr.padWithNil (first :: others).length
        ((first :: others).getLast (List.cons_ne_nil _ _)).span []) = false := by
      refine List.any_eq_false.2 fun e he => ?_
      rw [List.getLast?_eq_getLast_of_ne_nil (List.cons_ne_nil _ _),
        List.eq_of_mem_replicate (List.mem_append.1 he |>.resolve_left nofun)]
      simp [Expr.nilAt]
    rw [Stmt.replaced, hhas, Stmt.truncate, truncateExprs_padWithNil, truncateExprs]
    exact .after (hfirst limit) (.after (hothers limit) (.after hrefuses.determined (.pure _ _)))

theorem localStmt : Cleanly stream (localStmt inner)
    (TrimmedStmt stream limit room (Grammar.localStmt inner')) := by
  have hrules : Cleanly stream (Rule.alt [Grammar.localFunction inner, Grammar.localDecl inner])
      (TrimmedDecl stream limit room
        (Rule.alt [Grammar.localFunction inner', Grammar.localDecl inner'])) := by
    refine h.alt (P := TrimmedDecl stream limit room)
      (fun hs hbefore a hai hfront => (hs a hai hfront).alt hbefore)
      [Grammar.localFunction] Grammar.localDecl ?_ scheme_localDecl.asInner ?_
    · exact List.forall_mem_singleton.2 scheme_localFunction
    · exact List.forall_mem_cons.2 ⟨h.localFunction, List.forall_mem_singleton.2 h.localDecl⟩
  refine .token_bind fun _ => hrules.mono ?_
  rintro _ s j hs i rfl hlocal
  exact .token_bind hlocal (hs i (Nat.le_succ i) (open_token hlocal nofun))

/-! ### Calls and assignments -/

omit h in
/-- A target that is read without a report can be assigned to, and so can what is left of it. -/
theorem checkedTarget (limit room : Nat) (target : PrefixExp) :
    Cleanly stream (checkedTarget target) fun i t j => j = i ∧ t = ⟨target, target.span⟩ ∧
      Determined stream limit (Grammar.checkedTarget (target.truncate room)) i
        ⟨target.truncate room, target.span⟩ i [] := by
  unfold Grammar.checkedTarget
  rw [targetCause?_truncate, span_truncate]
  cases targetCause? target with
  | none => exact .pure fun i _ => ⟨rfl, rfl, .pure _ i⟩
  | some cause =>
    have hrecord (d : Diagnostic) : Cleanly stream (record d) fun _ _ _ => False :=
      ⟨orderly_record d, fun _ _ ⟨hok, hdiags⟩ => by
        cases hok
        exact List.cons_ne_self _ _ hdiags⟩
    exact (hrecord _).bind fun _ => .pure fun _ _ _ _ => False.elim

theorem targetRound : Cleanly stream (targetRound inner)
    (CutsRound stream limit (Grammar.targetRound inner') (fun _ => True) (·.node.replaced room)
      fun t => ⟨t.node.truncate room, t.span⟩) := by
  have hnext : Cleanly stream (following .comma (Grammar.prefixExp inner .unrestricted))
      fun i p j => i < j ∧
        Cuts stream limit (following .comma (Grammar.prefixExp inner' .unrestricted)) i
          (p.replaced room) (p.truncate room) j := by
    refine .token_bind fun _ => h.prefixExp.mono ?_
    rintro _ p j ⟨hlt, -, hp⟩ i rfl hcomma
    exact ⟨Nat.lt_of_succ_lt hlt, .token_bind hcomma hp⟩
  refine hnext.optional_bind
    (fun target => (checkedTarget limit room target).bind fun t => .pure ?_) (.pure ?_)
  · rintro _ _ k _ ⟨rfl, rfl, hchecked⟩ i _ ⟨hlt, hcuts⟩
    exact ⟨hlt, hcuts.optional.before (hchecked.bind_pure _)⟩
  · intro i _ hnone _
    have hrefuses := h.refuses (scheme_following .comma scheme_prefixExp) hnone
    exact .after hrefuses.determined (.pure _ _)

theorem assignment (first : PrefixExp) :
    Cleanly stream (assignment inner first) fun i s j =>
      ∃ items, (∀ owner, s.replaced room owner = first.replaced room ++ items) ∧
        Cuts stream limit (Grammar.assignment inner' (first.truncate room)) i items
          (s.truncate room) j := by
  refine (checkedTarget limit room first).bind fun target =>
    h.targetRound.collect_cuts.bind fun more => .token_bind fun equal =>
    h.exprList.bind fun values => .pure ?_
  rintro j _ _ _ hvalues k rfl hequal _ _ hmore i _ ⟨rfl, rfl, hchecked⟩
  have hmore := hmore trivial
  rw [← replacedInTargets_eq_flatMap, ← truncateTargets_eq_map] at hmore
  refine ⟨replacedInTargets room more ++ replacedInExprs room false (Expr.padWithNil
    (more.length + 1) equal values), fun owner => ?_, ?_⟩
  · rw [Stmt.replaced, replacedInTargets, List.append_assoc]
    rfl
  · have hlength : (truncateTargets room more).length = more.length := by
      rw [truncateTargets_eq_map, List.length_map]
    rw [Stmt.truncate, truncateTargets, truncateExprs_padWithNil, List.length_cons, ← hlength]
    exact .after hchecked (hmore.bind (.token_bind hequal (hvalues.padded.bind_pure _)))

/-- A call is one because of its last suffix and of the token after it. -/
theorem callOrAssign : Cleanly stream (callOrAssign inner)
    (TrimmedStmt stream limit room (Grammar.callOrAssign inner')) := by
  rw [callOrAssign_eq, callOrAssign_eq]
  have hafter (first : PrefixExp) : Cleanly stream (afterPrefixExp inner first) fun i s j =>
      ∃ items, (∀ owner, s.replaced room owner = first.replaced room ++ items) ∧
        Cuts stream limit (afterPrefixExp inner' (first.truncate room)) i items
          (s.truncate room) j := by
    have hpeek : ∀ i, Determined stream limit peek i (stream.word i) i [] := by
      rintro i c s rfl _ hs rfl
      exact ⟨s, rfl, hs, rfl, rfl⟩
    refine .peek_bind fun next => ?_
    split
    · next hcall =>
      refine .pure fun i _ hnext => ⟨[], fun owner => ?_, .after (hpeek i) ?_⟩
      · rw [Stmt.replaced, List.append_nil]
      · rw [← hnext, endsInCall_truncate, if_pos hcall, Stmt.truncate]
        exact .pure _ _
    · next hcall =>
      refine (h.assignment first).mono ?_
      rintro i s j ⟨items, hitems, hcuts⟩ hnext
      refine ⟨items, hitems, .after (hpeek i) ?_⟩
      rw [← hnext, endsInCall_truncate, if_neg hcall]
      exact hcuts
  refine h.head.bind fun a => h.suffixes.bind fun suffixes => (hafter ⟨a, suffixes⟩).mono ?_
  rintro k s j ⟨items, hitems, hcuts⟩ _ _ ⟨-, hsuffixes⟩ i _ ha
  rw [TrimmedStmt, hitems, PrefixExp.replaced, List.append_assoc]
  rw [PrefixExp.truncate] at hcuts
  exact ha.cuts.bind (hsuffixes.bind hcuts)

theorem stmt : Cleanly stream (stmt inner) fun i s j =>
    Trimmed stream limit (Grammar.stmt inner') (s.node.replaced room s.span)
      (s.node.truncate room) i s j := by
  have hrules : ∀ rule ∈ stmtRules,
      Cleanly stream (rule inner) (TrimmedStmt stream limit room (rule inner')) := by
    simp only [stmtRules, List.forall_mem_cons]
    exact ⟨h.callOrAssign, h.labelStmt, breakStmt, continueStmt, h.gotoStmt, h.doStmt, h.whileStmt,
      h.repeatStmt, h.ifStmt, h.forStmt, h.functionStmt, h.localStmt, List.forall_mem_nil _⟩
  refine h.located (fun span s => s.replaced room span) (·.truncate room) scheme_stmt ?_
  exact h.alt (P := TrimmedStmt stream limit room) (fun hs hbefore => hs.alt hbefore)
    stmtRules.dropLast Grammar.localStmt
    (fun rule hrule => scheme_of_mem_stmtRules rule (List.dropLast_subset _ hrule))
    scheme_localStmt.asInner hrules

end Level.Trims

end Grammar

end LuaSyntax
