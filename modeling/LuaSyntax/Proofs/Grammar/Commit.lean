import LuaSyntax.Parse
import LuaSyntax.Proofs.Grammar.NestSound
/-!
# The discipline of the grammar

Every rule of the grammar gives a value where it runs committed, and leaves no trace where it is
stuck, if a speculation does not start past the cursor. Two rules stand apart: a rule for a call may
have used a hint before it is stuck, and the rest of an assignment is only run once its first target
has committed the statement.
-/

namespace LuaSyntax

namespace Rule

/-- What a run of a rule keeps to. -/
structure Disciplined {α : Type} (rule : Rule α) (c : Context) (s : State) : Prop where
  completes : c.isCommitted s = true → ∃ a s', rule c s = .ok a s'
  restores : ∀ {why : Stuck} {s' : State}, rule c s = .error why s' →
    c.isCommitted s = false ∧ s'.cursor = s.cursor ∧ s'.diags = s.diags
  advances : ∀ {a : α} {s' : State}, rule c s = .ok a s' →
    s.cursor ≤ s'.cursor ∧ s'.cursor ≤ c.stream.size ∧ s.diags.reverse <+: s'.diags.reverse

/-- A stuck run keeps the hint too. -/
def KeepsHint {α : Type} (rule : Rule α) (c : Context) (s : State) : Prop :=
  ∀ {why : Stuck} {s' : State}, rule c s = .error why s' → s'.hint = s.hint

variable {α : Type} {law : Law} {rule : Rule α} {P : Yield → α → Prop} {c : Context} {s : State}

theorem advances_of_reaches {s' : State} {post : Yield → Prop} (h : Reaches law c s s' post)
    (hs : c.Proper s) :
    s.cursor ≤ s'.cursor ∧ s'.cursor ≤ c.stream.size ∧ s.diags.reverse <+: s'.diags.reverse := by
  refine ⟨h.le, (h.proper hs).cursor_le, ?_⟩
  obtain ⟨ds, ts, hdiags, -⟩ := h
  rw [hdiags, List.reverse_append, List.reverse_reverse]
  exact List.prefix_append _ _

theorem disciplined_of_ok (hs : c.Proper s) {a : α} {s' : State} {post : Yield → Prop}
    (hok : rule c s = .ok a s') (hreach : Reaches law c s s' post) :
    Disciplined rule c s ∧ KeepsHint rule c s := by
  refine ⟨⟨fun _ => ⟨a, s', hok⟩, fun herr => ?_, fun hok' => ?_⟩, fun herr => ?_⟩
  · rw [hok] at herr
    cases herr
  · rw [hok] at hok'
    cases hok'
    exact advances_of_reaches hreach hs
  · rw [hok] at herr
    cases herr

theorem disciplined_of_error {why : Stuck} {hint : Option (List Expected)}
    (hc : c.isCommitted s = false) (herr : rule c s = .error why { s with hint }) :
    Disciplined rule c s := by
  refine ⟨fun hc' => ?_, fun herr' => ?_, fun hok => ?_⟩
  · rw [hc] at hc'
    cases hc'
  · rw [herr] at herr'
    cases herr'
    exact ⟨hc, rfl, rfl⟩
  · rw [herr] at hok
    cases hok

theorem Opens.disciplined (h : Opens law rule P) (hs : c.Proper s) :
    Disciplined rule c s ∧ KeepsHint rule c s := by
  cases hc : c.isCommitted s with
  | true =>
    obtain ⟨a, s', hok, hreach⟩ := h.completes c s hs hc
    exact disciplined_of_ok hs hok hreach
  | false =>
    rcases h.speculates c s hs hc with ⟨a, s', hok, hreach, -⟩ | ⟨why, herr⟩
    · exact disciplined_of_ok hs hok hreach
    · have hkept : rule c s = .error why { s with hint := s.hint } := herr
      refine ⟨disciplined_of_error hc hkept, fun herr' => ?_⟩
      rw [herr] at herr'
      cases herr'
      rfl

theorem Always.disciplined {moves : α → Prop} (h : Always law moves rule P) (hs : c.Proper s) :
    Disciplined rule c s ∧ KeepsHint rule c s := by
  obtain ⟨a, s', hok, hreach, -⟩ := h c s hs
  exact disciplined_of_ok hs hok hreach

/-- Uncommitted runs of the rule that give a value consume a token. -/
def Consumes {α : Type} (rule : Rule α) : Prop :=
  ∀ c s a s', c.Proper s → c.isCommitted s = false → rule c s = .ok a s' → s.cursor < s'.cursor

theorem Speculates.consumes (h : Speculates law rule P) : Consumes rule := by
  intro c s a s' hs hc hok
  rcases h c s hs hc with ⟨b, t, hok', -, hlt⟩ | ⟨why, herr⟩
  · rw [hok] at hok'
    cases hok'
    exact hlt
  · rw [hok] at herr
    cases herr

end Rule

namespace Grammar

open Rule LuaSyntax.Language

/-- The rules of one nesting level, given those one level down. -/
inductive Production (inner : Level) : {α : Type} → Rule α → Prop
  | cutOffExpr : Production inner cutOffExpr
  | cutOffBlock : Production inner cutOffBlock
  | innerExpr : Production inner inner.expr
  | innerBlock : Production inner inner.block
  | exprList : Production inner (exprList inner)
  | orExpr : Production inner (orExpr inner)
  | andExpr : Production inner (andExpr inner)
  | compareExpr : Production inner (compareExpr inner)
  | concatExpr : Production inner (concatExpr inner)
  | addExpr : Production inner (addExpr inner)
  | mulExpr : Production inner (mulExpr inner)
  | unaryExpr : Production inner (unaryExpr inner)
  | signed : Production inner (signed inner)
  | atom : Production inner (atom inner)
  | literal (t : Token) (e : Expr) : Production inner (literal t e)
  | accessExpr : Production inner (accessExpr inner)
  | tableExpr : Production inner (tableExpr inner)
  | functionExpr : Production inner (functionExpr inner)
  | funcBody : Production inner (funcBody inner)
  | params : Production inner params
  | param : Production inner param
  | table : Production inner (table inner)
  | fields : Production inner (fields inner)
  | field : Production inner (field inner)
  | keyedField : Production inner (keyedField inner)
  | namedField : Production inner (namedField inner)
  | positionalField : Production inner (positionalField inner)
  | fieldName : Production inner fieldName
  | fieldSeparator : Production inner fieldSeparator
  | prefixExp (policy : SuffixPolicy) (h : policy ≠ .callTerminated) :
    Production inner (prefixExp inner policy)
  | head : Production inner (head inner)
  | nameHead : Production inner nameHead
  | parenHead : Production inner (parenHead inner)
  | suffixChain : Production inner (suffixChain inner)
  | suffix : Production inner (suffix inner)
  | callSuffix : Production inner (callSuffix inner)
  | methodSuffix : Production inner (methodSuffix inner)
  | indexSuffix : Production inner (indexSuffix inner)
  | fieldSuffix : Production inner fieldSuffix
  | args : Production inner (args inner)
  | listArgs : Production inner (listArgs inner)
  | tableArgs : Production inner (tableArgs inner)
  | strArgs : Production inner strArgs
  | chunk : Production inner (chunk inner)
  | chunkPart : Production inner (chunkPart inner)
  | stmts : Production inner (stmts inner)
  | blockPart : Production inner (blockPart inner)
  | returnStmt : Production inner (returnStmt inner)
  | stmt : Production inner (stmt inner)
  | callOrAssign : Production inner (callOrAssign inner)
  | moreTargets : Production inner (moreTargets inner)
  | labelStmt : Production inner labelStmt
  | breakStmt : Production inner breakStmt
  | continueStmt : Production inner continueStmt
  | gotoStmt : Production inner gotoStmt
  | doStmt : Production inner (doStmt inner)
  | whileStmt : Production inner (whileStmt inner)
  | repeatStmt : Production inner (repeatStmt inner)
  | ifStmt : Production inner (ifStmt inner)
  | ifClause : Production inner (ifClause inner)
  | elseifClause : Production inner (elseifClause inner)
  | elseBlock : Production inner (elseBlock inner)
  | forStmt : Production inner (forStmt inner)
  | numericFor (forSpan : Span) (var : Located Name) :
    Production inner (numericFor inner forSpan var)
  | genericFor (var : Located Name) : Production inner (genericFor inner var)
  | functionStmt : Production inner (functionStmt inner)
  | funcName : Production inner funcName
  | localStmt : Production inner (localStmt inner)
  | localFunction : Production inner (localFunction inner)
  | localDecl : Production inner (localDecl inner)

/-- The law under which any token may be put in. -/
def lenient : Law := ⟨fun _ => True, True⟩

theorem bottom_lenient : Bottom lenient (within 1) := bottom_within_one fun _ => trivial

theorem sound_lenient (depth : Nat) : (nested depth).Sound lenient (within (depth + 1)) := by
  have h := sound_nested bottom_lenient depth
  rwa [within, ← nest_next] at *

theorem Production.disciplined {depth : Nat} {α : Type} {rule : Rule α}
    (hrule : Production (nested depth) rule) {c : Context} {s : State} (hs : c.Proper s) :
    Disciplined rule c s ∧ KeepsHint rule c s := by
  have h := sound_lenient depth
  cases hrule with
  | cutOffExpr => exact (opens_cutOffExpr bottom_lenient).disciplined hs
  | cutOffBlock => exact (always_cutOffBlock bottom_lenient).disciplined hs
  | innerExpr => exact h.expr.disciplined hs
  | innerBlock => exact h.block.disciplined hs
  | exprList => exact (opens_exprList h).disciplined hs
  | orExpr => exact (opens_orExpr h).disciplined hs
  | andExpr => exact (opens_andExpr h).disciplined hs
  | compareExpr => exact (opens_compareExpr h).disciplined hs
  | concatExpr => exact (opens_concatExpr h).disciplined hs
  | addExpr => exact (opens_addExpr h).disciplined hs
  | mulExpr => exact (opens_mulExpr h).disciplined hs
  | unaryExpr => exact (opens_unaryExpr h).disciplined hs
  | signed => exact (opens_signed h).disciplined hs
  | atom => exact (opens_atom h).disciplined hs
  | literal t e =>
    have hliteral : Opens lenient (Grammar.literal t e) fun _ _ => True :=
      (opens_token trivial).bind fun _ => .pure fun _ _ => trivial
    exact hliteral.disciplined hs
  | accessExpr => exact (opens_accessExpr h).disciplined hs
  | tableExpr => exact (opens_tableExpr h).disciplined hs
  | functionExpr => exact (opens_functionExpr h).disciplined hs
  | funcBody => exact (opens_funcBody h).disciplined hs
  | params => exact (always_params h).disciplined hs
  | param => exact (opens_param h).disciplined hs
  | table => exact (opens_table h).disciplined hs
  | fields => exact (always_fields h).disciplined hs
  | field => exact (opens_field h).disciplined hs
  | keyedField => exact (opens_keyedField h).disciplined hs
  | namedField => exact (opens_namedField h).disciplined hs
  | positionalField => exact (opens_positionalField h).disciplined hs
  | fieldName => exact (opens_fieldName h).disciplined hs
  | fieldSeparator => exact (opens_fieldSeparator h).disciplined hs
  | prefixExp policy hpolicy => exact (opens_prefixExp h policy hpolicy).disciplined hs
  | head => exact (opens_head h).disciplined hs
  | nameHead => exact (opens_nameHead h).disciplined hs
  | parenHead => exact (opens_parenHead h).disciplined hs
  | suffixChain =>
    obtain ⟨marks, hok, hchain⟩ := suffixChain_spec h hs
    exact disciplined_of_ok hs hok hchain.reaches
  | suffix => exact (opens_suffix h).disciplined hs
  | callSuffix => exact (opens_callSuffix h).disciplined hs
  | methodSuffix => exact (opens_methodSuffix h).disciplined hs
  | indexSuffix => exact (opens_indexSuffix h).disciplined hs
  | fieldSuffix => exact (opens_fieldSuffix h).disciplined hs
  | args => exact (opens_args h).disciplined hs
  | listArgs => exact (opens_listArgs h).disciplined hs
  | tableArgs => exact (opens_tableArgs h).disciplined hs
  | strArgs => exact (opens_strArgs h).disciplined hs
  | chunk => exact (always_chunk h (appends_within _)).disciplined hs
  | chunkPart => exact (always_chunkPart h).disciplined hs
  | stmts => exact (always_stmts h).disciplined hs
  | blockPart => exact (always_blockPart h).disciplined hs
  | returnStmt => exact (opens_returnStmt h).disciplined hs
  | stmt => exact (opens_stmt h trivial).disciplined hs
  | callOrAssign => exact (opens_callOrAssign h).disciplined hs
  | moreTargets => exact (always_moreTargets h).disciplined hs
  | labelStmt => exact (opens_labelStmt h).disciplined hs
  | breakStmt => exact (opens_breakStmt h).disciplined hs
  | continueStmt =>
    have hcontinue : Opens lenient Grammar.continueStmt _ := opens_continueStmt (within 0) trivial
    exact hcontinue.disciplined hs
  | gotoStmt => exact (opens_gotoStmt h).disciplined hs
  | doStmt => exact (opens_doStmt h).disciplined hs
  | whileStmt => exact (opens_whileStmt h).disciplined hs
  | repeatStmt => exact (opens_repeatStmt h).disciplined hs
  | ifStmt => exact (opens_ifStmt h).disciplined hs
  | ifClause => exact (opens_ifClause h).disciplined hs
  | elseifClause => exact (opens_elseifClause h).disciplined hs
  | elseBlock => exact (opens_elseBlock h).disciplined hs
  | forStmt => exact (opens_forStmt h).disciplined hs
  | numericFor forSpan var => exact (opens_numericFor h forSpan var).disciplined hs
  | genericFor var => exact (opens_genericFor h var).disciplined hs
  | functionStmt => exact (opens_functionStmt h).disciplined hs
  | funcName => exact (opens_funcName h).disciplined hs
  | localStmt => exact (opens_localStmt h).disciplined hs
  | localFunction => exact (opens_localFunction h).disciplined hs
  | localDecl => exact (opens_localDecl h).disciplined hs

theorem consumes_prefixExp {inner : Level} {law : Law} {L : Language} (h : inner.Sound law L)
    (policy : SuffixPolicy) : Consumes (prefixExp inner policy) := by
  intro c s p s' hs hc hok
  by_cases hpolicy : policy = .callTerminated
  · subst hpolicy
    rcases speculates_call h hs hc with ⟨q, t, hok', hlt, -⟩ | ⟨why, hint, herr⟩
    · have heq := hok.symm.trans hok'
      cases heq
      exact hlt
    · have heq := hok.symm.trans herr
      cases heq
  · exact (speculates_prefixExp h policy hpolicy).consumes c s p s' hs hc hok

theorem disciplined_call {inner : Level} {law : Law} {L : Language} (h : inner.Sound law L)
    {c : Context} {s : State} (hs : c.Proper s) : Disciplined (call inner) c s := by
  cases hc : c.isCommitted s with
  | true =>
    obtain ⟨p, s', hok, hreach⟩ := completes_prefixExp h .callTerminated c s hs hc
    have hok : call inner c s = .ok p s' := hok
    exact (disciplined_of_ok hs hok hreach).1
  | false =>
    rcases speculates_call h hs hc with ⟨p, s', hok, -, hreach⟩ | ⟨why, hint, herr⟩
    · exact (disciplined_of_ok hs hok hreach).1
    · exact disciplined_of_error hc herr

/-! ### Exceptions -/

/-- A stuck call does not give back a hint that it has used: here for the name after the dot, which
is put in before the call is found to be missing. -/
theorem call_drops_hint :
    let c : Context :=
      ⟨.ofTokens [⟨.ident "f", default⟩, ⟨.symbol .dot, default⟩], .since 0, defaultMaxDepth⟩
    let s : State := ⟨0, [], some [.token (.symbol .closeParen), .token (.symbol .closeBracket)]⟩
    c.Proper s ∧ ∃ why s',
      call (nested defaultMaxDepth) c s = .error why s' ∧ s'.hint ≠ s.hint := by
  intro c s
  have hs : c.Proper s := ⟨by decide, nofun, fun h => by cases h; exact Nat.le_refl _⟩
  have hhead : ∃ a, head (nested defaultMaxDepth) c s = .ok a (s.advance 1) := ⟨_, rfl⟩
  have hsuffix : ∃ b t, b.node.isCall = false ∧ t.hint = none ∧
      (s.advance 1).cursor < t.cursor ∧ t.cursor ≤ c.stream.size ∧
      Rule.optional (suffix (nested defaultMaxDepth)) c (s.advance 1) = .ok (some b) t ∧
      Rule.optional (suffix (nested defaultMaxDepth)) c t = .ok none t :=
    ⟨⟨.field ⟨"someVariable", default⟩, default⟩, _, rfl, rfl, by decide, by decide, rfl, rfl⟩
  obtain ⟨a, hhead⟩ := hhead
  obtain ⟨b, t, hb, ht, hlt, hle, hsuffix, hend⟩ := hsuffix
  have hchain : suffixChain (nested defaultMaxDepth) c (s.advance 1) = .ok [(b, t)] t := by
    refine collect_of_more ?_ hlt hle (collect_of_none ?_)
    · rw [bind_of_ok hsuffix]
      rfl
    · rw [bind_of_ok hend]
      rfl
  have hkept : keptBy .callTerminated [(b, t)] = [] := by
    simp [keptBy, keepThroughLast, SuffixPolicy.allowsLast, hb]
  obtain ⟨why, hstuck⟩ := prefixExp_stuck hhead hchain hkept rfl
  refine ⟨hs, why, _, hstuck, ?_⟩
  change t.hint ≠ s.hint
  rw [ht]
  exact (Option.some_ne_none _).symm

/-- The rest of an assignment, run by itself, keeps the note on its first target when it is stuck.
-/
theorem assignment_keeps_note :
    let c : Context := ⟨.ofTokens [], .since 0, defaultMaxDepth⟩
    let s : State := ⟨0, [], none⟩
    let first : PrefixExp := ⟨⟨.name "f", default⟩, [⟨.call (.list []), default⟩]⟩
    c.Proper s ∧ ∃ why s',
      assignment (nested defaultMaxDepth) first c s = .error why s' ∧ s'.diags ≠ s.diags := by
  intro c s first
  have hs : c.Proper s := ⟨by decide, nofun, fun h => by cases h; exact Nat.le_refl _⟩
  let noted := s.record ⟨first.span, .notAssignable, .unrepaired⟩
  have htarget : checkedTarget first c s = .ok ⟨first, first.span⟩ noted := rfl
  have hmore : moreTargets (nested defaultMaxDepth) c noted = .ok [] noted := collect_of_none rfl
  have hstuck : ∃ why, assignment (nested defaultMaxDepth) first c s = .error why noted := by
    unfold assignment
    rw [bind_of_ok htarget, bind_of_ok hmore]
    exact ⟨_, rfl⟩
  obtain ⟨why, hstuck⟩ := hstuck
  exact ⟨hs, why, noted, hstuck, nofun⟩

/-- A speculation that starts past the cursor begins committed and is stuck where it starts. -/
theorem localStmt_stuck_at_start :
    let c : Context := ⟨.ofTokens [⟨.keyword .local_, default⟩], .since 1, defaultMaxDepth⟩
    let s : State := ⟨0, [], none⟩
    s.cursor ≤ c.stream.size ∧ c.isCommitted s = true ∧
      ∃ why s', localStmt (nested defaultMaxDepth) c s = .error why s' :=
  ⟨Nat.zero_le _, rfl, _, _, rfl⟩

/-- What the discipline leaves out, it has to leave out. -/
theorem discipline_exceptions :
    (∃ c s why s', c.Proper s ∧ call (nested defaultMaxDepth) c s = .error why s' ∧
      s'.hint ≠ s.hint) ∧
    (∃ c s first why s', c.Proper s ∧
      assignment (nested defaultMaxDepth) first c s = .error why s' ∧ s'.diags ≠ s.diags) ∧
    ∃ c s why s', s.cursor ≤ c.stream.size ∧ c.mode = .since 1 ∧ c.isCommitted s = true ∧
      localStmt (nested defaultMaxDepth) c s = .error why s' := by
  obtain ⟨hcall, why, s', hstuck, hhint⟩ := call_drops_hint
  obtain ⟨hassignment, why', t', hstuck', hdiags⟩ := assignment_keeps_note
  obtain ⟨hcursor, hcommitted, why'', u', hstuck''⟩ := localStmt_stuck_at_start
  exact ⟨⟨_, _, why, s', hcall, hstuck, hhint⟩, ⟨_, _, _, why', t', hassignment, hstuck', hdiags⟩,
    _, _, why'', u', hcursor, rfl, hcommitted, hstuck''⟩

/-! ### Entry points -/

/-- The result is what the rule gives when it is run over the stream, and nothing unexpected in it
is left without a repair. -/
structure GivenBy {α : Type} (result : α × List Diagnostic) (rule : Rule α)
    (stream : TokenStream) : Prop where
  value : ∃ s, rule (start stream defaultMaxDepth) initial = .ok result.1 s
  repaired : ∀ d ∈ result.2, d.repair = .unrepaired →
    ∀ found expected, d.cause ≠ .unexpected found expected

theorem givenBy_run {α : Type} {law : Law} {rule : Rule α} {P : Yield → α → Prop}
    (h : Completes law rule P) (stream : TokenStream) (fallback : α) :
    GivenBy (rule.run stream defaultMaxDepth fallback) rule stream := by
  obtain ⟨a, s, ds, ts, hok, hrun, -, hlaw, -⟩ := h.run stream defaultMaxDepth fallback
  rw [hrun]
  refine ⟨⟨s, hok⟩, fun d hd hrepair found expected hcause => ?_⟩
  rcases (hlaw d hd).unrepaired hrepair with hnote | hnote
  · rw [hcause] at hnote
    cases hnote
  · rw [hcause] at hnote
    cases hnote

/-- Every rule of the grammar, at any depth, keeps to the discipline from every proper state; the
rules that have something to consume consume it. So the entry points never fall back. -/
theorem commit_discipline (depth : Nat) :
    (∀ {α : Type} {rule : Rule α} {c : Context} {s : State}, Production (nested depth) rule →
      c.Proper s → Disciplined rule c s ∧ KeepsHint rule c s) ∧
    (∀ {c : Context} {s : State}, c.Proper s → Disciplined (call (nested depth)) c s) ∧
    (∀ {first : PrefixExp} {c : Context} {s : State}, c.Proper s → c.isCommitted s = true →
      Disciplined (assignment (nested depth) first) c s) ∧
    Consumes (nested depth).expr ∧ Consumes (stmt (nested depth)) ∧
    Consumes (table (nested depth)) ∧
    (∀ policy, Consumes (prefixExp (nested depth) policy)) ∧
    ∀ tokens : List (Located Token),
      GivenBy ((parse tokens).1.block, (parse tokens).2) (chunk (nested defaultMaxDepth))
        ⟨(withoutComments tokens).toArray, TokenStream.endOfLast tokens⟩ ∧
      GivenBy (parseExpr tokens) (nested defaultMaxDepth).expr
        (.ofTokens (withoutComments tokens)) ∧
      GivenBy (parseStmt tokens) (stmt (nested defaultMaxDepth))
        (.ofTokens (withoutComments tokens)) ∧
      GivenBy (parseBlock tokens) (nested defaultMaxDepth).block
        (.ofTokens (withoutComments tokens)) := by
  have h := sound_lenient depth
  have htop := sound_lenient defaultMaxDepth
  refine ⟨fun hrule => hrule.disciplined, disciplined_call h, fun hs hc => ?_,
    h.expr.speculates.consumes, (speculates_stmt h).consumes, (opens_table h).speculates.consumes,
    consumes_prefixExp h, fun tokens => ⟨?_, ?_, ?_, ?_⟩⟩
  · obtain ⟨a, s', hok, hreach⟩ := completes_assignment h _ _ _ hs hc
    exact (disciplined_of_ok hs hok hreach).1
  · exact givenBy_run (always_chunk htop (appends_within _)).completes _ .empty
  · exact givenBy_run htop.expr.completes _ _
  · exact givenBy_run (opens_stmt htop trivial).completes _ _
  · exact givenBy_run htop.block.completes _ _

/-- A speculation from the second token of `x break y`, with a note recorded and a hint pending: a
statement is read, a `return` and a call are stuck and keep what was there, and once a token has
been consumed, a table and the rest of an assignment give a value. -/
theorem commit_discipline_in_speculation :
    let c : Context :=
      ⟨.ofTokens [⟨.ident "x", default⟩, ⟨.keyword .break_, default⟩, ⟨.ident "y", default⟩],
        .since 1, 3⟩
    let note : Diagnostic := ⟨default, .parenthesizedTarget, .unrepaired⟩
    let s : State := ⟨1, [note], some [.token (.symbol .closeParen)]⟩
    let later : State := s.advance 1
    (c.Proper s ∧ c.isCommitted s = false ∧ c.Proper later ∧ c.isCommitted later = true) ∧
      (∃ a t, stmt (nested 2) c s = .ok a t ∧ 1 < t.cursor ∧ t.cursor ≤ 3 ∧
        [note] <+: t.diags.reverse) ∧
      (∃ why t, returnStmt (nested 2) c s = .error why t ∧ t.cursor = 1 ∧ t.diags = [note] ∧
        t.hint = some [.token (.symbol .closeParen)]) ∧
      (∃ why t, call (nested 2) c s = .error why t ∧ t.cursor = 1 ∧ t.diags = [note]) ∧
      (∃ a t, table (nested 2) c later = .ok a t ∧ 2 ≤ t.cursor ∧ t.cursor ≤ 3 ∧
        [note] <+: t.diags.reverse) ∧
      ∃ a t, assignment (nested 2) ⟨⟨.name "x", default⟩, []⟩ c later = .ok a t ∧ 2 ≤ t.cursor ∧
        t.cursor ≤ 3 ∧ [note] <+: t.diags.reverse := by
  intro c note s later
  have hs : c.Proper s := ⟨by decide, nofun, fun h => by cases h; exact Nat.le_refl _⟩
  have hlater : c.Proper later := ⟨by decide, nofun, fun h => by cases h; exact Nat.le_succ _⟩
  have hcommitted : c.isCommitted later = true := rfl
  obtain ⟨hproduction, hcall, hassignment, -, hconsumes, -⟩ := commit_discipline 2
  refine ⟨⟨hs, rfl, hlater, hcommitted⟩, ?_, ?_, ?_, ?_, ?_⟩
  · have hstmt := hproduction (.stmt : Production (nested 2) _) hs
    obtain ⟨a, t, hok⟩ : ∃ a t, stmt (nested 2) c s = .ok a t := ⟨_, _, rfl⟩
    exact ⟨a, t, hok, hconsumes c s a t hs rfl hok, (hstmt.1.advances hok).2⟩
  · have hreturn := hproduction (.returnStmt : Production (nested 2) _) hs
    obtain ⟨why, t, herr⟩ : ∃ why t, returnStmt (nested 2) c s = .error why t := ⟨_, _, rfl⟩
    obtain ⟨-, hcursor, hdiags⟩ := hreturn.1.restores herr
    exact ⟨why, t, herr, hcursor, hdiags, hreturn.2 herr⟩
  · obtain ⟨why, t, herr⟩ : ∃ why t, call (nested 2) c s = .error why t := ⟨_, _, rfl⟩
    obtain ⟨-, hcursor, hdiags⟩ := (hcall hs).restores herr
    exact ⟨why, t, herr, hcursor, hdiags⟩
  · have htable := hproduction (.table : Production (nested 2) _) hlater
    obtain ⟨a, t, hok⟩ := htable.1.completes hcommitted
    exact ⟨a, t, hok, htable.1.advances hok⟩
  · let first : PrefixExp := ⟨⟨.name "x", default⟩, []⟩
    have hrest : Disciplined (assignment (nested 2) first) c later := hassignment hlater hcommitted
    obtain ⟨a, t, hok⟩ := hrest.completes hcommitted
    exact ⟨a, t, hok, hrest.advances hok⟩

end Grammar

end LuaSyntax
