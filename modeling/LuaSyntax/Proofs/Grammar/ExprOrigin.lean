import LuaSyntax.Proofs.Grammar.ExprSound
import LuaSyntax.Proofs.Rule.Origin
import LuaSyntax.Proofs.Tree.Statements
/-!
# Where the statements in expressions come from

One lemma for each rule: it accounts for all statements in its value. Those in an expression stand
in the bodies of its functions, so they come from blocks one level down.
-/

namespace LuaSyntax.Grammar

open Rule Operator

variable {root : Context} {Q : Progress → Located Stmt → Progress → Prop}
  {known : List (Located Stmt)} {inner : Level}

/-- The rules of the level account for all statements in their values. -/
structure Level.Accounted (root : Context) (Q : Progress → Located Stmt → Progress → Prop)
    (inner : Level) : Prop where
  expr : ∀ known, Accounts root Q known inner.expr (·.node.statements)
  block : ∀ known, Accounts root Q known inner.block (·.statements)

/-! ### Functions -/

theorem accounts_exprList (h : inner.Accounted root Q) :
    Accounts root Q known (exprList inner) (·.flatMap (·.node.statements)) :=
  (h.expr known).sepBy1 (accounts_symbol .comma)

theorem accounts_param : Accounts root Q known param fun _ => [] := by
  refine .alt ?_
  simp only [List.forall_mem_cons]
  exact ⟨accounts_name.map fun _ => List.nil_subset _,
    (accounts_symbol .ellipsis).map fun _ => List.nil_subset _, nofun⟩

theorem accounts_params : Accounts root Q known params fun _ => [] := by
  refine accounts_param.optional.bind fun r => ?_
  match r with
  | none => exact .pure (List.nil_subset _)
  | some (.vararg _) => exact .pure (List.nil_subset _)
  | some (.name _) =>
    refine .map (f := fun _ => []) (.collect_of_nil ?_) fun _ => List.nil_subset _
    exact ((accounts_symbol .comma).bind fun _ => accounts_param).optional.map
      fun _ => List.nil_subset _

theorem accounts_funcBody (h : inner.Accounted root Q) :
    Accounts root Q known (funcBody inner) (·.statements) :=
  (accounts_symbol .openParen).bind fun _ => accounts_params.bind fun _ =>
    (accounts_symbol .closeParen).bind fun _ => (h.block _).bind fun _ =>
    (accounts_keyword .end_).bind fun _ => .pure (by simp)

theorem accounts_functionExpr (h : inner.Accounted root Q) :
    Accounts root Q known (functionExpr inner) (·.node.statements) :=
  .located (f := Expr.statements) ((accounts_keyword .function_).bind fun _ =>
    (accounts_funcBody h).map fun _ => by simp)

/-! ### Tables -/

theorem accounts_keyedField (h : inner.Accounted root Q) :
    Accounts root Q known (keyedField inner) (·.statements) :=
  (accounts_symbol .openBracket).bind fun _ => (h.expr _).bind fun _ =>
    (accounts_symbol .closeBracket).bind fun _ => (accounts_symbol .equal).bind fun _ =>
    (h.expr _).map fun _ => by simp

theorem accounts_fieldName : Accounts root Q known fieldName fun _ => [] :=
  .attempt (accounts_name.bind fun _ => (accounts_symbol .equal).bind fun _ =>
    .pure (List.nil_subset _))

theorem accounts_namedField (h : inner.Accounted root Q) :
    Accounts root Q known (namedField inner) (·.statements) :=
  accounts_fieldName.bind fun _ => (h.expr _).map fun _ => by simp

theorem accounts_positionalField (h : inner.Accounted root Q) :
    Accounts root Q known (positionalField inner) (·.statements) :=
  (h.expr _).map fun _ => by simp

theorem accounts_field (h : inner.Accounted root Q) :
    Accounts root Q known (field inner) (·.node.statements) := by
  refine .located (f := Field.statements) (.alt ?_)
  simp only [List.forall_mem_cons]
  exact ⟨accounts_keyedField h, accounts_namedField h, accounts_positionalField h, nofun⟩

theorem accounts_fields (h : inner.Accounted root Q) :
    Accounts root Q known (fields inner) (·.flatMap (·.node.statements)) := by
  refine .collect ((accounts_field h).optional.bind fun r => ?_)
  cases r with
  | none => exact .pure (by simp)
  | some f => exact (accounts_oneOf _).optional.map fun r => by simp

theorem accounts_table (h : inner.Accounted root Q) :
    Accounts root Q known (table inner) (·.node.flatMap (·.node.statements)) :=
  .located (f := fun fs : List (Located Field) => fs.flatMap (·.node.statements))
    ((accounts_symbol .openBrace).bind fun _ => (accounts_fields h).bind fun _ =>
      (accounts_symbol .closeBrace).bind fun _ => .pure (by simp))

/-! ### Names, calls and indexes -/

theorem accounts_nameHead : Accounts root Q known nameHead (·.node.statements) :=
  accounts_name.map fun _ => by simp

theorem accounts_parenHead (h : inner.Accounted root Q) :
    Accounts root Q known (parenHead inner) (·.node.statements) :=
  .located (f := Head.statements) ((accounts_symbol .openParen).bind fun _ =>
    (h.expr _).bind fun _ => (accounts_symbol .closeParen).bind fun _ =>
    .pure (by simp))

theorem accounts_head (h : inner.Accounted root Q) :
    Accounts root Q known (head inner) (·.node.statements) := by
  refine .alt ?_
  simp only [List.forall_mem_cons]
  exact ⟨accounts_nameHead, accounts_parenHead h, nofun⟩

theorem accounts_listArgs (h : inner.Accounted root Q) :
    Accounts root Q known (listArgs inner) (·.statements) :=
  (accounts_symbol .openParen).bind fun _ => (accounts_exprList h).optional.bind fun r =>
    (accounts_symbol .closeParen).bind fun _ => .pure (by cases r <;> simp)

theorem accounts_tableArgs (h : inner.Accounted root Q) :
    Accounts root Q known (tableArgs inner) (·.statements) :=
  (accounts_table h).map fun _ => by simp

theorem accounts_strArgs : Accounts root Q known strArgs (·.statements) :=
  (accounts_satisfy .str).map fun _ => by simp

theorem accounts_args (h : inner.Accounted root Q) :
    Accounts root Q known (args inner) (·.node.statements) := by
  refine .located (f := Args.statements) (.alt ?_)
  simp only [List.forall_mem_cons]
  exact ⟨accounts_listArgs h, accounts_tableArgs h, accounts_strArgs, nofun⟩

theorem accounts_callSuffix (h : inner.Accounted root Q) :
    Accounts root Q known (callSuffix inner) (·.statements) :=
  (accounts_args h).map fun _ => by simp

theorem accounts_methodSuffix (h : inner.Accounted root Q) :
    Accounts root Q known (methodSuffix inner) (·.statements) :=
  (accounts_symbol .colon).bind fun _ => accounts_name.bind fun _ =>
    (accounts_args h).map fun _ => by simp

theorem accounts_indexSuffix (h : inner.Accounted root Q) :
    Accounts root Q known (indexSuffix inner) (·.statements) :=
  (accounts_symbol .openBracket).bind fun _ => (h.expr _).bind fun _ =>
    (accounts_symbol .closeBracket).bind fun _ => .pure (by simp)

theorem accounts_fieldSuffix : Accounts root Q known fieldSuffix (·.statements) :=
  (accounts_symbol .dot).bind fun _ => accounts_name.map fun _ => by simp

theorem accounts_suffix (h : inner.Accounted root Q) :
    Accounts root Q known (suffix inner) (·.node.statements) := by
  refine .located (f := Suffix.statements) (.alt ?_)
  simp only [List.forall_mem_cons]
  exact ⟨accounts_callSuffix h, accounts_methodSuffix h, accounts_indexSuffix h,
    accounts_fieldSuffix, nofun⟩

theorem accounts_suffixChain (h : inner.Accounted root Q) :
    Accounts root Q known (suffixChain inner) (·.flatMap (·.1.node.statements)) := by
  refine .collect ((accounts_suffix h).optional.bind fun r => ?_)
  cases r with
  | none => exact .pure (by simp)
  | some s => exact accounts_mark.map fun _ => by simp

/-- Suffixes read one after another from state `s`, each with the state just after it. -/
inductive SuffixRun (root : Context) (inner : Level) : State → List (Located Suffix × State) → Prop
  | nil (s : State) : SuffixRun root inner s []
  | cons {s t : State} {suffix : Located Suffix} {marks : List (Located Suffix × State)}
    (h : Gives root (Grammar.suffix inner) s.progress suffix t.progress)
    (rest : SuffixRun root inner t marks) : SuffixRun root inner s ((suffix, t) :: marks)

theorem suffixRound_cases {p q : Progress} {r : Option ((Located Suffix × State) × Bool)}
    (h : Gives root (suffixRound inner) p r q) :
    (r = none ∧ q = p) ∨ ∃ s t, r = some ((s, t), true) ∧ q = t.progress ∧
      Gives root (suffix inner) p s q := by
  obtain ⟨o, u, ho, hrest⟩ := h.of_bind
  rcases ho.of_optional with ⟨rfl, rfl⟩ | ⟨s, rfl, hs⟩
  · obtain ⟨rfl, rfl⟩ := hrest.of_pure
    exact .inl ⟨rfl, rfl⟩
  · dsimp only at hrest
    obtain ⟨t, v, hmark, hpure⟩ := hrest.of_bind
    obtain ⟨ht, rfl⟩ := hmark.of_mark
    obtain ⟨rfl, rfl⟩ := hpure.of_pure
    exact .inr ⟨s, t, rfl, ht.symm, hs⟩

theorem SuffixRun.of_gives {s : State} {q : Progress} {marks : List (Located Suffix × State)}
    (h : Gives root (suffixChain inner) s.progress marks q) : SuffixRun root inner s marks := by
  have hloop : Collected root (suffixRound inner) s.progress marks q := h.of_collect
  generalize hp : s.progress = p at hloop
  clear h
  induction hloop generalizing s with
  | stop _ => exact .nil s
  | stalled _ => exact .nil s
  | last h => rcases suffixRound_cases h with ⟨hr, -⟩ | ⟨_, _, hr, -⟩ <;> cases hr
  | more h _ ih =>
    rcases suffixRound_cases h with ⟨hr, -⟩ | ⟨_, _, hr, hq, hs⟩
    · cases hr
    · cases hr
      subst hp hq
      exact .cons hs (ih rfl)

theorem SuffixRun.of_isPrefix {s : State} {marks kept : List (Located Suffix × State)}
    (h : SuffixRun root inner s marks) (hkept : kept <+: marks) : SuffixRun root inner s kept := by
  induction h generalizing kept with
  | nil s =>
    rw [List.prefix_nil.1 hkept]
    exact .nil s
  | cons h _ ih =>
    cases kept with
    | nil => exact .nil _
    | cons mark kept =>
      obtain ⟨rfl, hrest⟩ := List.cons_prefix_cons.1 hkept
      exact .cons h (ih hrest)

/-- Wherever a chain is cut off, its suffixes are accounted for in the state after the last one. -/
theorem SuffixRun.accounts (h : inner.Accounted root Q) {s : State}
    {marks : List (Located Suffix × State)} (hrun : SuffixRun root inner s marks) :
    s.diags <:+ (chainEnd s marks).diags ∧ ∀ x ∈ marks.flatMap (·.1.node.statements),
      CameAbout Q (chainEnd s marks).diags x := by
  induction hrun with
  | nil s => exact ⟨List.suffix_rfl, nofun⟩
  | @cons s t sfx marks hs _ ih =>
    have hsuffix : Accounts root Q [] (suffix inner) _ := accounts_suffix h
    obtain ⟨hst, hfirst⟩ := hsuffix _ _ _ hs
    obtain ⟨hend, hrest⟩ := ih
    rw [chainEnd_cons]
    refine ⟨hst.trans hend, fun x hx => ?_⟩
    rcases List.mem_append.1 (List.flatMap_cons ▸ hx) with hx | hx
    · exact ((hfirst x hx).resolve_left List.not_mem_nil).mono hend
    · exact hrest x hx

/-- A prefix expression is a head with the suffixes that the policy keeps, and the run goes back to
the state after the last of them; or it is a head with the arguments that were missing. -/
theorem prefixExp_cases_of_gives {policy : SuffixPolicy} {p q : Progress} {e : PrefixExp}
    (h : Gives root (prefixExp inner policy) p e q) :
    ∃ a s marks, Gives root (head inner) p a s.progress ∧ SuffixRun root inner s marks ∧
      ((e = ⟨a, (keptBy policy marks).map (·.1)⟩ ∧
          q = (chainEnd s (keptBy policy marks)).progress) ∨
        ∃ b, e = ⟨a, [b.map .call]⟩ ∧ keptBy policy marks = [] ∧
          Gives root (args inner) s.progress b q) := by
  unfold prefixExp at h
  obtain ⟨before, p₁, hbefore, h₁⟩ := h.of_bind
  obtain ⟨repairs, p₂, hrepairs, h₂⟩ := h₁.of_bind
  obtain ⟨a, p₃, hhead, h₃⟩ := h₂.of_bind
  obtain ⟨s, p₄, hafter, h₄⟩ := h₃.of_bind
  obtain ⟨marks, p₅, hchain, h₅⟩ := h₄.of_bind
  obtain ⟨_, p₆, hreset, h₆⟩ := h₅.of_bind
  obtain ⟨-, rfl⟩ := hbefore.of_mark
  obtain rfl := hrepairs.of_look fun _ _ => ⟨_, rfl⟩
  obtain ⟨rfl, rfl⟩ := hafter.of_mark
  obtain rfl := hreset.of_reset
  refine ⟨a, s, marks, hhead, .of_gives hchain, ?_⟩
  dsimp only at h₆
  split at h₆
  · next hcall =>
    have hkept : keptBy policy marks = [] := by simpa [keptBy] using hcall.2
    split at h₆
    · obtain ⟨b, p₇, hargs, h₇⟩ := h₆.of_bind
      obtain ⟨rfl, rfl⟩ := h₇.of_pure
      change Gives root _ (chainEnd s (keptBy policy marks)).progress b _ at hargs
      rw [hkept] at hargs
      exact .inr ⟨b, rfl, hkept, hargs⟩
    · obtain ⟨_, p₇, -, h₇⟩ := h₆.of_bind
      exact (not_gives_stuck h₇).elim
  · obtain ⟨rfl, rfl⟩ := h₆.of_pure
    exact .inl ⟨rfl, rfl⟩

/-- The suffixes that are given back are forgotten, with everything recorded since. -/
theorem accounts_prefixExp (h : inner.Accounted root Q) (policy : SuffixPolicy) :
    Accounts root Q known (prefixExp inner policy) (·.statements) := by
  intro p e q hgives
  obtain ⟨a, s, marks, hhead, hrun, hcases⟩ := prefixExp_cases_of_gives hgives
  have haccounts : Accounts root Q [] (head inner) _ := accounts_head h
  obtain ⟨hps, hparts⟩ := haccounts p a s.progress hhead
  obtain ⟨hsq, hsuffixes⟩ : s.diags <:+ q.diags ∧ ∀ x ∈ e.suffixes.flatMap (·.node.statements),
      CameAbout Q q.diags x := by
    rcases hcases with ⟨rfl, rfl⟩ | ⟨b, rfl, -, hargs⟩
    · have hkept : keptBy policy marks <+: marks := keepThroughLast_isPrefix _ _
      simpa [List.flatMap_map] using (hrun.of_isPrefix hkept).accounts h
    · have haccounts : Accounts root Q [] (args inner) _ := accounts_args h
      simpa using haccounts s.progress b q hargs
  have hhead : e.head = a := by
    rcases hcases with ⟨rfl, -⟩ | ⟨b, rfl, -⟩ <;> rfl
  refine ⟨hps.trans hsq, fun x hx => .inr ?_⟩
  obtain ⟨a', suffixes⟩ := e
  subst hhead
  simp only [PrefixExp.statements, statementsOfSuffixes_eq_flatMap, List.mem_append] at hx
  rcases hx with hx | hx
  · exact ((hparts x hx).resolve_left List.not_mem_nil).mono hsq
  · exact hsuffixes x hx

/-! ### Operators -/

theorem accounts_accessExpr (h : inner.Accounted root Q) :
    Accounts root Q known (accessExpr inner) (·.node.statements) :=
  (accounts_prefixExp h .unrestricted).map fun _ => by simp

theorem accounts_tableExpr (h : inner.Accounted root Q) :
    Accounts root Q known (tableExpr inner) (·.node.statements) :=
  (accounts_table h).map fun _ => by simp

theorem accounts_literal {t : Token} {e : Expr} (he : e.statements = []) :
    Accounts root Q known (literal t e) (·.node.statements) :=
  (accounts_token t).map fun _ => by simp [he]

theorem accounts_atom (h : inner.Accounted root Q) :
    Accounts root Q known (atom inner) (·.node.statements) := by
  refine .alt ?_
  simp only [List.forall_mem_cons]
  exact ⟨accounts_literal rfl, accounts_literal rfl, accounts_literal rfl,
    (accounts_satisfy .number).map fun _ => by simp,
    (accounts_satisfy .str).map fun _ => by simp, accounts_literal rfl,
    accounts_functionExpr h, accounts_accessExpr h, accounts_tableExpr h, nofun⟩

theorem accounts_signed (h : inner.Accounted root Q) :
    Accounts root Q known (signed inner) (·.operand.node.statements) :=
  (accounts_oneOf _).many.bind fun _ => (accounts_atom h).map fun _ => by simp

/-- Operands after the first one, each with the operator before it. -/
theorem accounts_operands {β : Type} {operand : Rule β} {f : β → List (Located Stmt)}
    (ops : List (Token × BinOp)) (h : ∀ known, Accounts root Q known operand f) :
    Accounts root Q known
      (collect do
        match ← optional (oneOf ops) with
        | none => return none
        | some op => return some ((op, ← operand), true))
      (·.flatMap fun other => f other.2) := by
  refine .collect ((accounts_oneOf ops).optional.bind fun r => ?_)
  cases r with
  | none => exact .pure (by simp)
  | some op => exact (h _).map fun _ => by simp

theorem accounts_chain {operand : Rule (Located Expr)} (ops : List (Token × BinOp))
    (h : ∀ known, Accounts root Q known operand (·.node.statements)) :
    Accounts root Q known (chain operand ops) fun ch =>
      ch.1.node.statements ++ ch.2.flatMap (·.2.node.statements) :=
  (h _).bind fun _ => (accounts_operands ops h).map fun _ => by simp

theorem statements_groupLeft (first : Located Expr) (others : List (Located BinOp × Located Expr)) :
    (groupLeft (first, others)).node.statements =
      first.node.statements ++ others.flatMap (·.2.node.statements) := by
  induction others generalizing first with
  | nil => simp [groupLeft]
  | cons other others ih =>
    have hcons : groupLeft (first, other :: others) =
        groupLeft (Expr.ofBinary other.1 first other.2, others) := rfl
    simp [hcons, ih]

theorem statements_groupRight (first : Located Expr)
    (others : List (Located BinOp × Located Expr)) :
    (groupRight first others).node.statements =
      first.node.statements ++ others.flatMap (·.2.node.statements) := by
  induction others generalizing first with
  | nil => simp [groupRight]
  | cons other others ih => simp [groupRight, ih]

theorem statements_apply (t : Signed) (e : Located Expr) :
    (t.apply e).node.statements = e.node.statements := by
  obtain ⟨ops, operand⟩ := t
  unfold Signed.apply
  induction ops with
  | nil => rfl
  | cons op ops ih => simpa using ih

theorem statements_groupPower (first : Signed) (others : List (Located BinOp × Signed)) :
    (groupPower first others).node.statements =
      first.operand.node.statements ++ others.flatMap (·.2.operand.node.statements) := by
  induction others generalizing first with
  | nil => simp [groupPower, statements_apply]
  | cons other others ih => simp [groupPower, statements_apply, ih]

theorem accounts_leftGrouped {operand : Rule (Located Expr)} (ops : List (Token × BinOp))
    (h : ∀ known, Accounts root Q known operand (·.node.statements)) :
    Accounts root Q known (leftGrouped operand ops) (·.node.statements) :=
  (accounts_chain ops h).map fun (first, others) => by simp [statements_groupLeft]

theorem accounts_unaryExpr (h : inner.Accounted root Q) :
    Accounts root Q known (unaryExpr inner) (·.node.statements) := by
  rw [unaryExpr_eq]
  exact (accounts_signed h).bind fun _ => (accounts_operands powOps fun _ => accounts_signed h).map
    fun _ => by simp [statements_groupPower]

theorem accounts_mulExpr (h : inner.Accounted root Q) :
    Accounts root Q known (mulExpr inner) (·.node.statements) :=
  accounts_leftGrouped mulOps fun _ => accounts_unaryExpr h

theorem accounts_addExpr (h : inner.Accounted root Q) :
    Accounts root Q known (addExpr inner) (·.node.statements) :=
  accounts_leftGrouped addOps fun _ => accounts_mulExpr h

theorem accounts_concatExpr (h : inner.Accounted root Q) :
    Accounts root Q known (concatExpr inner) (·.node.statements) := by
  rw [concatExpr_eq]
  exact (accounts_chain concatOps fun _ => accounts_addExpr h).bind fun ch =>
    .pure (by simp [statements_groupRight])

theorem accounts_compareExpr (h : inner.Accounted root Q) :
    Accounts root Q known (compareExpr inner) (·.node.statements) :=
  accounts_leftGrouped compareOps fun _ => accounts_concatExpr h

theorem accounts_andExpr (h : inner.Accounted root Q) :
    Accounts root Q known (andExpr inner) (·.node.statements) :=
  accounts_leftGrouped andOps fun _ => accounts_compareExpr h

theorem accounts_orExpr (h : inner.Accounted root Q) :
    Accounts root Q known (orExpr inner) (·.node.statements) :=
  accounts_leftGrouped orOps fun _ => accounts_andExpr h

end LuaSyntax.Grammar
