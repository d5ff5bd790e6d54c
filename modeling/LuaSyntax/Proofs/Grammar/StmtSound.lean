import LuaSyntax.Grammar.Stmt
import LuaSyntax.Proofs.Grammar.ExprSound
import LuaSyntax.Proofs.Rule.Skip
/-!
# Soundness of the statement rules

Every rule for a statement opens, except that a missing `continue` may not be put in. The rules for
blocks and chunks always give a value.
-/

namespace LuaSyntax.Grammar

open Rule LuaSyntax.Language

variable {α : Type} {law : Law} {L : Language} {inner : Level}

/-! ### Names and lists -/

theorem opens_following (h : inner.Sound law L) {separator : Symbol} {item : Rule α}
    {P : Yield → α → Prop} (hitem : Opens law item P)
    (hs : separator.isUsed .lua52 = true) :
    Opens law (following separator item) fun y a =>
      ∃ z, y = .token (.symbol separator) ++ z ∧ P z a :=
  (h.symbol hs).bind fun _ => hitem.completes.mono fun z a hz y hy => ⟨z, by rw [hy], hz⟩

theorem opens_funcName (h : inner.Sound law L) :
    Opens law funcName fun y n => y.Writes IsFuncName (fun _ => []) n := by
  refine h.name.bind fun first =>
    (opens_following h h.name rfl).speculates.many.completes.bind fun others =>
    (opens_following h h.name rfl).speculates.always_optional.completes.bind fun method => .pure ?_
  intro z hz v hv u hu
  have hpath := writes_names (.of_repeated hu hv)
  have hnotes : u.notes ++ v.notes = [] := by simpa using hpath.notes
  cases method with
  | none =>
    subst hz
    exact ⟨by simpa using IsFuncName.plain hpath.derives, by simpa using hnotes⟩
  | some m =>
    obtain ⟨w, rfl, rfl⟩ := hz
    exact ⟨by simpa using IsFuncName.method hpath.derives m, by simpa using hnotes⟩

theorem padded_padWithNil (count : Nat) (span : Span) (es : List (Located Expr)) :
    Padded count es (Expr.padWithNil count span es) := by
  refine ⟨List.replicate (count - es.length) (Expr.nilAt span), rfl, List.length_replicate, ?_⟩
  intro e he
  rw [(List.mem_replicate.1 he).2]
  rfl

/-! ### Simple statements -/

theorem opens_breakStmt (h : inner.Sound law L) :
    Opens law breakStmt fun y s => y.Writes (IsStmt L) Stmt.targets s := by
  refine (h.keyword rfl).bind fun _ => .pure ?_
  rintro _ rfl
  exact ⟨.breakLoop, rfl⟩

theorem speculates_continueStmt (law : Law) (L : Language) :
    Speculates law continueStmt fun y s => y.Writes (IsStmt L) Stmt.targets s := by
  refine (speculates_token _).bind fun _ => .pure ?_
  rintro _ rfl
  exact ⟨.continueLoop, rfl⟩

theorem opens_continueStmt (L : Language) (hcontinue : law.insertable (.keyword .continue_)) :
    Opens law continueStmt fun y s => y.Writes (IsStmt L) Stmt.targets s := by
  refine ⟨(opens_token hcontinue).completes.bind fun _ => .pure ?_, speculates_continueStmt law L⟩
  rintro _ rfl
  exact ⟨.continueLoop, rfl⟩

theorem opens_labelStmt (h : inner.Sound law L) :
    Opens law labelStmt fun y s => y.Writes (IsStmt L) Stmt.targets s := by
  refine h.label.bind fun n => .pure ?_
  rintro _ rfl
  exact ⟨.label n.node, rfl⟩

theorem opens_gotoStmt (h : inner.Sound law L) :
    Opens law gotoStmt fun y s => y.Writes (IsStmt L) Stmt.targets s := by
  refine (h.keyword rfl).bind fun _ => h.name.completes.bind fun n => .pure ?_
  rintro _ rfl _ rfl
  exact ⟨.goto n, rfl⟩

theorem opens_doStmt (h : inner.Sound law L) :
    Opens law (doStmt inner) fun y s => y.Writes (IsStmt L) Stmt.targets s := by
  refine (h.keyword rfl).bind fun _ => h.block.completes.bind fun body =>
    (h.keyword rfl).completes.bind fun _ => .pure ?_
  rintro _ rfl y hbody _ rfl
  exact ⟨by simpa using IsStmt.block hbody.derives, by simp [hbody.notes]⟩

theorem opens_whileStmt (h : inner.Sound law L) :
    Opens law (whileStmt inner) fun y s => y.Writes (IsStmt L) Stmt.targets s := by
  refine (h.keyword rfl).bind fun _ => h.expr.completes.bind fun cond =>
    (h.keyword rfl).completes.bind fun _ => h.block.completes.bind fun body =>
    (h.keyword rfl).completes.bind fun _ => .pure ?_
  rintro _ rfl z hbody _ rfl y hcond _ rfl
  exact ⟨by simpa using IsStmt.whileLoop hcond.derives hbody.derives,
    by simp [hcond.notes, hbody.notes]⟩

theorem opens_repeatStmt (h : inner.Sound law L) :
    Opens law (repeatStmt inner) fun y s => y.Writes (IsStmt L) Stmt.targets s := by
  refine (h.keyword rfl).bind fun _ => h.block.completes.bind fun body =>
    (h.keyword rfl).completes.bind fun _ => h.expr.completes.bind fun cond => .pure ?_
  rintro z hcond _ rfl y hbody _ rfl
  exact ⟨by simpa using IsStmt.repeatLoop hbody.derives hcond.derives,
    by simp [hcond.notes, hbody.notes]⟩

/-! ### Conditionals -/

theorem opens_ifClause (h : inner.Sound law L) :
    Opens law (ifClause inner) fun y c => y.Writes (Clause L) IfClause.targets c := by
  refine h.expr.bind fun cond => (h.keyword rfl).completes.bind fun _ =>
    h.block.completes.bind fun body => .pure ?_
  rintro z hbody _ rfl y hcond
  exact ⟨by simpa using Clause.intro hcond.derives hbody.derives,
    by simp [hcond.notes, hbody.notes]⟩

theorem opens_elseifClause (h : inner.Sound law L) :
    Opens law (elseifClause inner) fun y c =>
      ∃ z, y = .token (.keyword .elseif_) ++ z ∧ z.Writes (Clause L) IfClause.targets c :=
  (h.keyword rfl).bind fun _ =>
    (opens_ifClause h).completes.mono fun z c hz y hy => ⟨z, by rw [hy], hz⟩

theorem writes_clauses {word : Keyword} {y z : Yield} {clause : IfClause} {clauses : List IfClause}
    (hfirst : y.Writes (Clause L) IfClause.targets clause)
    (hothers : Repeated (fun y c => ∃ z, y = .token (.keyword .elseif_) ++ z ∧
      z.Writes (Clause L) IfClause.targets c) z clauses) :
    (.token (.keyword word) ++ y ++ z : Yield).Writes (Clauses L word) targetsOfClauses
      (clause :: clauses) := by
  induction hothers generalizing word y clause with
  | nil =>
    exact ⟨by simpa using Clauses.one hfirst.derives, by simp [hfirst.notes]⟩
  | cons h _ ih =>
    obtain ⟨w, rfl, hw⟩ := h
    have hrest : (.token (.keyword .elseif_) ++ _ ++ _ : Yield).Writes _ _ _ := ih hw
    refine ⟨by simpa using Clauses.more hfirst.derives hrest.derives, ?_⟩
    have hnotes := hrest.notes
    simp only [Yield.notes_append, Yield.notes_token, List.nil_append] at hnotes
    simp [hfirst.notes, hnotes]

theorem opens_elseBlock (h : inner.Sound law L) :
    Opens law (elseBlock inner) fun y body =>
      ∃ z, y = .token (.keyword .else_) ++ z ∧ z.Writes L.block Block.targets body :=
  (h.keyword rfl).bind fun _ => h.block.completes.mono fun z b hz y hy => ⟨z, by rw [hy], hz⟩

theorem writes_else {y : Yield} {otherwise : Option Block}
    (h : Maybe (fun y body => ∃ z, y = .token (.keyword .else_) ++ z ∧
      z.Writes L.block Block.targets body) y otherwise) :
    y.Writes (Else L) targetsOfElse otherwise := by
  cases otherwise with
  | none =>
    subst h
    exact ⟨.none, rfl⟩
  | some body =>
    obtain ⟨z, rfl, hz⟩ := h
    exact ⟨.some hz.derives, by simp [hz.notes]⟩

theorem opens_ifStmt (h : inner.Sound law L) :
    Opens law (ifStmt inner) fun y s => y.Writes (IsStmt L) Stmt.targets s := by
  refine (h.keyword rfl).bind fun _ => (opens_ifClause h).completes.bind fun first =>
    (opens_elseifClause h).speculates.many.completes.bind fun others =>
    (opens_elseBlock h).speculates.always_optional.completes.bind fun otherwise =>
    (h.keyword rfl).completes.bind fun _ => .pure ?_
  rintro _ rfl w hw z hz y hy _ rfl
  have hclauses : (.token (.keyword .if_) ++ y ++ z : Yield).Writes (Clauses L .if_)
      targetsOfClauses (first :: others) := writes_clauses hy hz
  have hotherwise := writes_else hw
  have hnotes := hclauses.notes
  simp only [Yield.notes_append, Yield.notes_token, List.nil_append] at hnotes
  refine ⟨by simpa using IsStmt.conditional hclauses.derives hotherwise.derives, ?_⟩
  simp [← List.append_assoc, hnotes, hotherwise.notes]

/-! ### Loops over numbers and values -/

/-- What follows `for` and the first variable makes a statement with them. -/
def AfterFor (L : Language) (var : Located Name) (y : Yield) (s : Stmt) : Prop :=
  (.token (.keyword .for_) ++ .token (.ident var.node) ++ y : Yield).Writes (IsStmt L)
    Stmt.targets s

theorem opens_numericFor (h : inner.Sound law L) (forSpan : Span) (var : Located Name) :
    Opens law (numericFor inner forSpan var) (AfterFor L var) := by
  refine (h.symbol rfl).bind fun _ => h.expr.completes.bind fun start =>
    (h.symbol rfl).completes.bind fun _ => h.expr.completes.bind fun stop =>
    (opens_following h h.expr rfl).speculates.always_optional.completes.bind fun step =>
    (h.keyword rfl).completes.bind fun _ => h.block.completes.bind fun body =>
    (h.keyword rfl).completes.bind fun _ => .pure ?_
  rintro _ rfl w hbody _ rfl v hv z hstop _ rfl y hstart _ rfl
  cases step with
  | none =>
    subst hv
    refine ⟨?_, ?_⟩
    · simpa using IsStmt.numericForByOne var forSpan hstart.derives hstop.derives hbody.derives
    · simp [hstart.notes, hstop.notes, hbody.notes]
  | some step =>
    obtain ⟨x, rfl, hstep⟩ := hv
    refine ⟨?_, ?_⟩
    · simpa using IsStmt.numericFor var hstart.derives hstop.derives hstep.derives hbody.derives
    · simp [hstart.notes, hstop.notes, hstep.notes, hbody.notes]

theorem opens_genericFor (h : inner.Sound law L) (var : Located Name) :
    Opens law (genericFor inner var) (AfterFor L var) := by
  refine Always.bind_opens (opens_following h h.name rfl).speculates.many fun others =>
    (h.keyword rfl).bind fun _ => (opens_exprList h).completes.bind fun exprs =>
    (h.keyword rfl).completes.bind fun _ => h.block.completes.bind fun body =>
    (h.keyword rfl).completes.bind fun _ => .pure ?_
  rintro _ rfl w hbody _ rfl z hexprs _ rfl y hothers
  have hvars := writes_names (.of_repeated (a := var) rfl hothers)
  have hnotes : y.notes = [] := by simpa using hvars.notes
  refine ⟨?_, ?_⟩
  · simpa using IsStmt.genericFor hvars.derives hexprs.derives hbody.derives
  · simp [hnotes, hexprs.notes, hbody.notes]

theorem opens_forStmt (h : inner.Sound law L) :
    Opens law (forStmt inner) fun y s => y.Writes (IsStmt L) Stmt.targets s := by
  have hafter (forSpan : Span) (var : Located Name) :
      Opens law (alt [numericFor inner forSpan var, genericFor inner var]) (AfterFor L var) := by
    refine .alt (by simp) ?_
    simp only [List.forall_mem_cons]
    exact ⟨opens_numericFor h forSpan var, opens_genericFor h var, nofun⟩
  refine (h.keyword rfl).bind fun forSpan => h.name.completes.bind fun var =>
    (hafter forSpan var).completes.mono ?_
  rintro y s hy _ rfl _ rfl
  rw [← Yield.append_assoc]
  exact hy

/-! ### Functions and declarations -/

theorem opens_functionStmt (h : inner.Sound law L) :
    Opens law (functionStmt inner) fun y s => y.Writes (IsStmt L) Stmt.targets s := by
  refine (h.keyword rfl).bind fun _ => (opens_funcName h).completes.bind fun n =>
    (opens_funcBody h).completes.bind fun f => .pure ?_
  rintro z hbody y hname _ rfl
  have hnotes : y.notes = [] := hname.notes
  exact ⟨by simpa using IsStmt.function hname.derives hbody.derives,
    by simp [hnotes, hbody.notes]⟩

/-- What follows `local` makes a statement with it. -/
def AfterLocal (L : Language) (y : Yield) (s : Stmt) : Prop :=
  (.token (.keyword .local_) ++ y : Yield).Writes (IsStmt L) Stmt.targets s

theorem opens_localFunction (h : inner.Sound law L) :
    Opens law (localFunction inner) (AfterLocal L) := by
  refine (h.keyword rfl).bind fun _ => h.name.completes.bind fun n =>
    (opens_funcBody h).completes.bind fun f => .pure ?_
  rintro y hbody _ rfl _ rfl
  exact ⟨by simpa using IsStmt.localFunction n hbody.derives,
    by simp [hbody.notes]⟩

theorem opens_localDecl (h : inner.Sound law L) :
    Opens law (localDecl inner) (AfterLocal L) := by
  refine (opens_names h rfl).bind fun names => Always.completes
    ((h.symbol rfl).speculates.optional_bind ?_ fun equal =>
      (opens_exprList h).completes.bind fun es => .pure ?_ :
      Always law (fun _ => False) _ fun z s => ∀ y,
        y.Writes (Listed .comma IsName) (fun _ => []) names → AfterLocal L (y ++ z) s)
  · intro c s _
    refine ⟨_, s, rfl, .refl fun y hnames => ?_, nofun, fun _ _ => rfl⟩
    have hnotes : y.notes = [] := hnames.notes
    exact ⟨by simpa using IsStmt.localDecl hnames.derives (padded_padWithNil _ _ _),
      by simp [hnotes]⟩
  · rintro z hvalues _ rfl y hnames
    have hnotes : y.notes = [] := hnames.notes
    refine ⟨?_, by simp [hnotes, hvalues.notes]⟩
    simpa using IsStmt.localValues hnames.derives hvalues.derives
      (padded_padWithNil names.length equal es)

theorem opens_localStmt (h : inner.Sound law L) :
    Opens law (localStmt inner) fun y s => y.Writes (IsStmt L) Stmt.targets s := by
  have hafter : Opens law (alt [localFunction inner, localDecl inner]) (AfterLocal L) := by
    refine .alt (by simp) ?_
    simp only [List.forall_mem_cons]
    exact ⟨opens_localFunction h, opens_localDecl h, nofun⟩
  refine (h.keyword rfl).bind fun _ => hafter.completes.mono ?_
  rintro y s hy _ rfl
  exact hy

/-! ### Calls and assignments -/

theorem targetCause_of_some {target : PrefixExp} {cause : Cause}
    (h : targetCause? target = some cause) :
    cause = .notAssignable ∨ cause = .parenthesizedTarget := by
  unfold targetCause? at h
  split at h
  · exact .inl (Option.some.inj h).symm
  · split at h
    · exact .inr (Option.some.inj h).symm
    · cases h

theorem checkedTarget_of_none {target : PrefixExp} (h : targetCause? target = none) (c : Context)
    (s : State) : checkedTarget target c s = .ok ⟨target, target.span⟩ s := by
  simp [checkedTarget, h]

theorem checkedTarget_of_some {target : PrefixExp} {cause : Cause}
    (h : targetCause? target = some cause) (c : Context) (s : State) :
    checkedTarget target c s =
      .ok ⟨target, target.span⟩ (s.record ⟨target.span, cause, .unrepaired⟩) := by
  simp [checkedTarget, map_apply, h, record]

/-- Checking a target records the note that it leaves. -/
theorem completes_checkedTarget (law : Law) (target : PrefixExp) :
    Completes law (checkedTarget target) fun y t =>
      t = ⟨target, target.span⟩ ∧ y = ⟨[], targetNotes [t]⟩ := by
  intro c s _ _
  cases h : targetCause? target with
  | none =>
    refine ⟨_, s, checkedTarget_of_none h c s, .refl ⟨rfl, ?_⟩⟩
    simp [targetNotes, targetNote?, h]
    rfl
  | some cause =>
    refine ⟨_, _, checkedTarget_of_some h c s, .of_note rfl (targetCause_of_some h) ⟨rfl, ?_⟩⟩
    simp [targetNotes, targetNote?, h]

/-- The yield is a way to write an assignment target, with its own note after those inside it. -/
def WritesTarget (L : Language) (y : Yield) (t : Located PrefixExp) : Prop :=
  Access L y.tokens t.node ∧ y.notes = targetNotes (t.node.targets ++ [t])

theorem writesTarget_of_checked {y z : Yield} {target : PrefixExp} {t : Located PrefixExp}
    (hy : y.Writes (Access L) PrefixExp.targets target)
    (hz : t = ⟨target, target.span⟩ ∧ z = ⟨[], targetNotes [t]⟩) : WritesTarget L (y ++ z) t := by
  obtain ⟨rfl, rfl⟩ := hz
  exact ⟨by simpa using hy.derives, by simp [hy.notes]⟩

/-- A round of the loop over the further targets of an assignment. -/
def IsTargetRound (L : Language) (y : Yield) : Option (Located PrefixExp × Bool) → Prop
  | none => y = .empty
  | some (t, _) => ∃ z, y = .token (.symbol .comma) ++ z ∧ WritesTarget L z t

theorem always_moreTargets (h : inner.Sound law L) :
    Always law (fun _ => False) (moreTargets inner)
      (Repeated fun y t => ∃ z, y = .token (.symbol .comma) ++ z ∧ WritesTarget L z t) := by
  refine Always.mono (Always.collect (P := IsTargetRound L) ?_) fun y ts hloop =>
    hloop.repeated (fun _ h => h) (fun _ _ _ h => h)
  refine (opens_following h (opens_prefixExp h .unrestricted nofun) rfl).speculates.optional_bind
    (.pure nofun rfl) fun target => (completes_checkedTarget law target).bind fun t => .pure ?_
  rintro z hz _ ⟨y, rfl, hy⟩
  exact ⟨y ++ z, by simp [Yield.append_assoc], writesTarget_of_checked hy hz⟩

/-- The rest of an assignment makes a statement with its first target. It is only run after that
target has been read, and so committed. -/
theorem completes_assignment (h : inner.Sound law L) (first : PrefixExp) :
    Completes law (assignment inner first) fun z s => ∀ y,
      y.Writes (Access L) PrefixExp.targets first →
        (y ++ z).Writes (IsStmt L) Stmt.targets s := by
  refine (completes_checkedTarget law first).bind fun target =>
    (always_moreTargets h).completes.bind fun others => (h.symbol rfl).completes.bind fun equal =>
    (opens_exprList h).completes.bind fun es => .pure ?_
  rintro w hvalues _ rfl v hothers z hz y hfirst
  have htargets := listed_of_separated (P := WritesTarget L) (fun _ _ ht => ht)
    (.of_repeated (writesTarget_of_checked hfirst hz) hothers)
  rw [← Yield.append_assoc, ← Yield.append_assoc]
  refine ⟨?_, ?_⟩
  · simpa using IsStmt.assign htargets.derives hvalues.derives
      (padded_padWithNil (others.length + 1) equal es)
  · have hnotes := htargets.notes
    rw [← targetsOfTargets_eq_flatMap] at hnotes
    simp only [Yield.notes_append] at hnotes
    simp [-List.append_assoc, hnotes, hvalues.notes]

theorem completes_suffixChain (h : inner.Sound law L) :
    Completes law (suffixChain inner) fun y marks =>
      y.Writes (Suffixes L) targetsOfSuffixes (marks.map (·.1)) := by
  intro c s hs _
  obtain ⟨marks, hok, hchain⟩ := suffixChain_spec h hs
  exact ⟨marks, _, hok, hchain.reaches⟩

theorem opens_callOrAssign (h : inner.Sound law L) :
    Opens law (callOrAssign inner) fun y s => y.Writes (IsStmt L) Stmt.targets s := by
  have hpeek : Completes law peek fun y _ => y = .empty :=
    completes_of_ok (fun _ _ => rfl) fun _ => rfl
  refine (opens_head h).bind fun a => (completes_suffixChain h).bind fun marks =>
    hpeek.bind fun next => ?_
  have haccess {y z : Yield} (hhead : y.Writes (IsHead L) Head.targets a.node)
      (hsuffixes : z.Writes (Suffixes L) targetsOfSuffixes (marks.map (·.1))) :
      (y ++ z).Writes (Access L) PrefixExp.targets ⟨a, marks.map (·.1)⟩ :=
    ⟨.intro hhead.derives hsuffixes.derives,
      by simp [hhead.notes, hsuffixes.notes]⟩
  split
  · next hcall =>
    refine .pure ?_
    rintro _ rfl z hsuffixes y hhead
    have hp := haccess hhead hsuffixes
    exact ⟨by simpa using IsStmt.call hp.derives hcall.1,
      by simpa using hp.notes⟩
  · refine (completes_assignment h _).mono ?_
    rintro w s hw _ rfl z hsuffixes y hhead
    rw [Yield.empty_append, ← Yield.append_assoc]
    exact hw _ (haccess hhead hsuffixes)

/-- The alternatives of a statement open, all but `continue`. -/
theorem forall_mem_stmts (h : inner.Sound law L) {p : Rule Stmt → Prop}
    (hp : ∀ r, Opens law r (fun y s => y.Writes (IsStmt L) Stmt.targets s) → p r)
    (hcontinue : p continueStmt) :
    ∀ r ∈ [callOrAssign inner, labelStmt, breakStmt, continueStmt, gotoStmt, doStmt inner,
      whileStmt inner, repeatStmt inner, ifStmt inner, forStmt inner, functionStmt inner,
      localStmt inner], p r := by
  simp only [List.forall_mem_cons]
  exact ⟨hp _ (opens_callOrAssign h), hp _ (opens_labelStmt h), hp _ (opens_breakStmt h), hcontinue,
    hp _ (opens_gotoStmt h), hp _ (opens_doStmt h), hp _ (opens_whileStmt h),
    hp _ (opens_repeatStmt h), hp _ (opens_ifStmt h), hp _ (opens_forStmt h),
    hp _ (opens_functionStmt h), hp _ (opens_localStmt h), nofun⟩

theorem speculates_stmt (h : inner.Sound law L) :
    Speculates law (stmt inner) fun y s => y.Writes (IsStmt L) Stmt.targets s.node :=
  .located (.alt (by simp) (forall_mem_stmts h (fun _ hr => hr.speculates)
    (speculates_continueStmt law L)))

theorem opens_stmt (h : inner.Sound law L) (hcontinue : law.insertable (.keyword .continue_)) :
    Opens law (stmt inner) fun y s => y.Writes (IsStmt L) Stmt.targets s.node :=
  .located (.alt (by simp) (forall_mem_stmts h (fun _ hr => hr) (opens_continueStmt L hcontinue)))

/-! ### Blocks -/

theorem yield_semicolons {y : Yield} {spans : List Span}
    (h : Repeated (fun y _ => y = .token (.symbol .semicolon)) y spans) :
    y = ⟨List.replicate spans.length (.symbol .semicolon), []⟩ := by
  induction h with
  | nil => rfl
  | cons h _ ih =>
    rw [h, ih]
    rfl

theorem opens_returnStmt (h : inner.Sound law L) :
    Opens law (returnStmt inner) fun y r => y.Writes (IsReturn L) Return.targets r.node := by
  refine .located ((h.keyword rfl).bind fun _ =>
    (opens_exprList h).speculates.always_optional.completes.bind fun values =>
    (h.symbol rfl).speculates.many.completes.bind fun spans => .pure ?_)
  rintro z hz y hy _ rfl
  rw [yield_semicolons hz]
  cases values with
  | none =>
    subst hy
    exact ⟨by simpa using IsReturn.bare spans.length,
      by simp⟩
  | some es =>
    exact ⟨by simpa using IsReturn.values hy.derives spans.length,
      by simp [hy.notes]⟩

/-- What a part of a block yields after the semicolons before it. -/
def IsPart (L : Language) (y : Yield) : Option (BlockPart × Bool) → Prop
  | some (.stmt s, true) => y.Writes (IsStmt L) Stmt.targets s.node
  | some (.ret r, false) => y.Writes (IsReturn L) Return.targets r.node
  | some (.junk, true) => y = .empty
  | none => y = .empty
  | _ => False

@[simp] theorem blockOf_nil : blockOf [] = ⟨[], none⟩ := rfl

@[simp] theorem blockOf_stmt (s : Located Stmt) (parts : List BlockPart) :
    blockOf (.stmt s :: parts) = ⟨s :: (blockOf parts).stmts, (blockOf parts).ret⟩ := rfl

@[simp] theorem blockOf_ret (r : Located Return) (parts : List BlockPart) :
    blockOf (.ret r :: parts) = ⟨(blockOf parts).stmts, some r⟩ := rfl

@[simp] theorem blockOf_junk (parts : List BlockPart) :
    blockOf (.junk :: parts) = blockOf parts := rfl

theorem always_junk (L : Language) :
    Always law (fun r => r.isSome = true) (do
      match ← peek with
      | none => return none
      | some t =>
        if t.endsBlock then return none
        skipJunk
        return some (.junk, true)) (IsPart L) := by
  intro c s hs
  cases hnext : c.next? s with
  | none =>
    refine ⟨none, s, ?_, .refl rfl, nofun, fun _ _ => rfl⟩
    simp [bind_apply, peek, hnext]
  | some t =>
    by_cases hends : t.node.endsBlock
    · refine ⟨none, s, ?_, .refl rfl, nofun, fun _ _ => rfl⟩
      simp [bind_apply, peek, hnext, hends]
    · -- at least the token at which no statement starts is passed over
      have hlt := lt_of_next? hnext
      have hlength : 0 < junkLength ((c.stream.rest s.cursor).map (·.node)) := by
        rw [TokenStream.rest, List.drop_eq_getElem_cons hlt, List.map_cons, junkLength]
        omega
      obtain ⟨s', hskip, hreach, hcursor, hquiet⟩ := skipTokens_spec law
        (junkLength ((c.stream.rest s.cursor).map (·.node))) [.named "statement"] hs
      have hmoved : s.cursor < s'.cursor := by
        unfold Context.remaining at hcursor
        omega
      refine ⟨some (.junk, true), s', ?_, hreach, fun _ => hmoved, fun _ => hquiet⟩
      simp [bind_apply, map_apply, peek, hnext, hends, skipJunk, hskip]

/-- What a round of the loop over a block yields. -/
def IsBlockRound (L : Language) (y : Yield) (r : Option (BlockPart × Bool)) : Prop :=
  ∃ count z, y = ⟨List.replicate count (.symbol .semicolon), []⟩ ++ z ∧ IsPart L z r

theorem always_blockPart (h : inner.Sound law L) :
    Always law (fun r => r.isSome = true) (blockPart inner) (IsBlockRound L) := by
  refine (h.symbol rfl).speculates.many.bind fun spans => Always.mono (P := IsPart L) ?_ ?_
  · refine (speculates_stmt h).optional_bind ?_ fun s => .pure fun y hy => ?_
    · refine (opens_returnStmt h).speculates.optional_bind (always_junk L) fun r =>
        .pure fun y hy => ?_
      simpa [IsPart] using hy
    · simpa [IsPart] using hy
  · intro z r hz y hy
    exact ⟨spans.length, z, by rw [yield_semicolons hy], hz⟩

theorem writes_block (hfollows : ∀ ts, L.follows ts) {y : Yield} {parts : List BlockPart}
    (h : Loop (IsBlockRound L) y parts) : y.Writes (IsBlock L) Block.targets (blockOf parts) := by
  induction h with
  | stop h =>
    obtain ⟨count, _, rfl, rfl⟩ := h
    exact ⟨by simpa using isBlock_semicolons .empty count, rfl⟩
  | @last y part h =>
    obtain ⟨count, z, rfl, hpart⟩ := h
    cases part with
    | ret r =>
      exact ⟨by simpa using isBlock_semicolons (.ret hpart.derives) count, by
        simpa using hpart.notes⟩
    | stmt s => exact hpart.elim
    | junk => exact hpart.elim
  | @more y w part parts h _ ih =>
    obtain ⟨count, z, rfl, hpart⟩ := h
    cases part with
    | ret r => exact hpart.elim
    | stmt s =>
      have hrest : IsBlock L (z.tokens ++ w.tokens)
          ⟨s :: (blockOf parts).stmts, (blockOf parts).ret⟩ :=
        .stmt hpart.derives (hfollows _) ih.derives
      have hnotes : w.notes = targetNotes (targetsOfStmts (blockOf parts).stmts) ++
          targetNotes (targetsOfReturn? (blockOf parts).ret) := by
        rw [ih.notes, ← targetNotes_append]
        rfl
      exact ⟨by simpa using isBlock_semicolons hrest count,
        by simp [hpart.notes, hnotes]⟩
    | junk =>
      subst hpart
      exact ⟨by simpa using isBlock_semicolons ih.derives count, by simpa using ih.notes⟩

theorem always_stmts (h : inner.Sound law L) :
    Always law (fun _ => False) (stmts inner) fun y b =>
      y.Writes (IsBlock L) Block.targets b := by
  refine (always_blockPart h).collect.bind fun parts => .pure nofun fun y hy => ?_
  rw [Yield.append_empty]
  exact writes_block h.follows hy

/-! ### Chunks -/

/-- What a round of the loop over a chunk yields: a further block, after a token passed over. -/
def IsChunkRound (L : Language) (y : Yield) : Option (Block × Bool) → Prop
  | none => y = .empty
  | some (b, more) => more = b.ret.isNone ∧ y.Writes L.block Block.targets b

theorem always_chunkPart (h : inner.Sound law L) :
    Always law (fun r => r.isSome = true) (chunkPart inner) (IsChunkRound L) := by
  intro c s hs
  cases hnext : c.next? s with
  | none =>
    refine ⟨none, s, ?_, .refl rfl, nofun, fun _ _ => rfl⟩
    simp [chunkPart, bind_apply, atEnd, hnext]
  | some t =>
    have hlt := lt_of_next? hnext
    obtain ⟨s', hskip, hreach, hcursor, -⟩ :=
      skipTokens_spec law 1 [.named "statement"] hs
    have hmoved : s.cursor < s'.cursor := by
      unfold Context.remaining at hcursor
      omega
    obtain ⟨b, s'', hblock, hreach', -, -⟩ := h.block c s' (hreach.proper hs)
    have hle := hreach'.le
    refine ⟨some (b, b.ret.isNone), s'', ?_, hreach.trans hreach' ?_, fun _ => by omega,
      fun _ hsame => by omega⟩
    · simp [chunkPart, bind_apply, map_apply, atEnd, hnext, hskip, hblock]
    · rintro _ z rfl hz
      exact ⟨rfl, hz⟩

theorem targets_append {a b : Block} (ha : a.ret = none) :
    (a ++ b).targets = a.targets ++ b.targets := by
  obtain ⟨ss, _⟩ := a
  obtain ⟨ss', r⟩ := b
  cases ha
  have hstmts (ss : List (Located Stmt)) :
      targetsOfStmts (ss ++ ss') = targetsOfStmts ss ++ targetsOfStmts ss' := by
    induction ss with
    | nil => simp
    | cons s ss ih => simp [ih]
  change targetsOfStmts (ss ++ ss') ++ targetsOfReturn? (r.or none) =
    (targetsOfStmts ss ++ targetsOfReturn? none) ++ (targetsOfStmts ss' ++ targetsOfReturn? r)
  rw [hstmts, Option.or_none, targetsOfReturn?, List.append_nil, List.append_assoc]

theorem writes_chunk (happends : L.Appends) {y z : Yield} {first : Block} {others : List Block}
    (hfirst : y.Writes L.block Block.targets first) (hret : first.ret = none)
    (hothers : Loop (IsChunkRound L) z others) :
    (y ++ z).Writes L.block Block.targets (others.foldl (· ++ ·) first) := by
  induction hothers generalizing y first with
  | stop h =>
    cases h
    rwa [Yield.append_empty]
  | last h =>
    exact ⟨happends _ _ _ _ hfirst.derives hret h.2.derives,
      by simp [hfirst.notes, h.2.notes, targets_append hret]⟩
  | @more z w b others h _ ih =>
    have hb : b.ret = none := Option.isNone_iff_eq_none.1 h.1.symm
    rw [← Yield.append_assoc]
    refine ih ⟨happends _ _ _ _ hfirst.derives hret h.2.derives, ?_⟩ ?_
    · simp [hfirst.notes, h.2.notes, targets_append hret]
    · simp [hret, hb]

theorem always_chunk (h : inner.Sound law L) (happends : L.Appends) :
    Always law (fun _ => False) (chunk inner) fun y b => y.Writes L.block Block.targets b := by
  refine h.block.bind fun first => ?_
  split
  · exact .pure nofun fun y hy => by rwa [Yield.append_empty]
  · next hret =>
    refine (always_chunkPart h).collect.bind fun others => .pure nofun fun z hz y hy => ?_
    rw [Yield.append_empty]
    exact writes_chunk happends hy (by simpa using hret) hz

end LuaSyntax.Grammar
