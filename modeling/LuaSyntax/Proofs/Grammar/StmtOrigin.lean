import LuaSyntax.Proofs.Grammar.ExprOrigin
import LuaSyntax.Proofs.Grammar.Formed
/-!
# Where the statements of blocks come from

Every statement in the value of a rule, at any depth, was formed in a part of the rule's run. The
statement rules account for the statements inside the one that they give; that one itself is formed
in the run of the rule.
-/

namespace LuaSyntax.Grammar

open Rule

/-- The statement is formed from `p` to `q`, on some level within the limit. -/
def FormedAt (root : Context) (p : Progress) (s : Located Stmt) (q : Progress) : Prop :=
  s.span = root.stream.spanBetween p.cursor q.cursor ∧
    ∃ depth ≤ root.limit, Formed root (nested depth) p s.node q

variable {root : Context} {Q : Progress → Located Stmt → Progress → Prop}
  {known : List (Located Stmt)} {inner : Level}

theorem accounts_following {α : Type} {separator : Symbol} {item : Rule α}
    {f : α → List (Located Stmt)} (h : Accounts root Q known item f) :
    Accounts root Q known (following separator item) f :=
  (accounts_symbol separator).bind fun _ => h

theorem accounts_funcName : Accounts root Q known funcName fun _ => [] :=
  accounts_name.bind fun _ => (accounts_following accounts_name).many.bind fun _ =>
    (accounts_following accounts_name).optional.map fun _ => List.nil_subset _

/-! ### Simple statements -/

theorem accounts_breakStmt : Accounts root Q known breakStmt (·.statements) :=
  (accounts_keyword .break_).map fun _ => by simp

theorem accounts_continueStmt : Accounts root Q known continueStmt (·.statements) :=
  (accounts_keyword .continue_).map fun _ => by simp

theorem accounts_labelStmt : Accounts root Q known labelStmt (·.statements) :=
  (accounts_satisfy .label).map fun _ => by simp

theorem accounts_gotoStmt : Accounts root Q known gotoStmt (·.statements) :=
  (accounts_keyword .goto_).bind fun _ => accounts_name.map fun _ => by simp

theorem accounts_doStmt (h : inner.Accounted root Q) :
    Accounts root Q known (doStmt inner) (·.statements) :=
  (accounts_keyword .do_).bind fun _ => (h.block _).bind fun _ =>
    (accounts_keyword .end_).bind fun _ => .pure (by simp)

theorem accounts_whileStmt (h : inner.Accounted root Q) :
    Accounts root Q known (whileStmt inner) (·.statements) :=
  (accounts_keyword .while_).bind fun _ => (h.expr _).bind fun _ =>
    (accounts_keyword .do_).bind fun _ => (h.block _).bind fun _ =>
    (accounts_keyword .end_).bind fun _ => .pure (by simp)

theorem accounts_repeatStmt (h : inner.Accounted root Q) :
    Accounts root Q known (repeatStmt inner) (·.statements) :=
  (accounts_keyword .repeat_).bind fun _ => (h.block _).bind fun _ =>
    (accounts_keyword .until_).bind fun _ => (h.expr _).map fun _ => by simp

theorem accounts_ifClause (h : inner.Accounted root Q) :
    Accounts root Q known (ifClause inner) (·.statements) :=
  (h.expr _).bind fun _ => (accounts_keyword .then_).bind fun _ =>
    (h.block _).map fun _ => by simp

theorem accounts_elseifClause (h : inner.Accounted root Q) :
    Accounts root Q known (elseifClause inner) (·.statements) :=
  (accounts_keyword .elseif_).bind fun _ => accounts_ifClause h

theorem accounts_elseBlock (h : inner.Accounted root Q) :
    Accounts root Q known (elseBlock inner) (·.statements) :=
  (accounts_keyword .else_).bind fun _ => h.block _

theorem accounts_ifStmt (h : inner.Accounted root Q) :
    Accounts root Q known (ifStmt inner) (·.statements) :=
  (accounts_keyword .if_).bind fun _ => (accounts_ifClause h).bind fun _ =>
    (accounts_elseifClause h).many.bind fun _ => (accounts_elseBlock h).optional.bind fun _ =>
    (accounts_keyword .end_).bind fun _ => .pure fun st hst => by
      simp [-List.mem_flatMap] at hst ⊢
      grind

theorem accounts_numericFor (h : inner.Accounted root Q) (forSpan : Span) (var : Located Name) :
    Accounts root Q known (numericFor inner forSpan var) (·.statements) :=
  (accounts_symbol .equal).bind fun _ => (h.expr _).bind fun _ =>
    (accounts_symbol .comma).bind fun _ => (h.expr _).bind fun _ =>
    (accounts_following (h.expr _)).optional.bind fun step => (accounts_keyword .do_).bind fun _ =>
    (h.block _).bind fun _ => (accounts_keyword .end_).bind fun _ =>
    .pure fun st hst => by
      cases step <;> simp at hst ⊢ <;> grind

theorem accounts_genericFor (h : inner.Accounted root Q) (first : Located Name) :
    Accounts root Q known (genericFor inner first) (·.statements) :=
  (accounts_following accounts_name).many.bind fun _ => (accounts_keyword .in_).bind fun _ =>
    (accounts_exprList h).bind fun _ => (accounts_keyword .do_).bind fun _ =>
    (h.block _).bind fun _ => (accounts_keyword .end_).bind fun _ =>
    .pure (by simp)

theorem accounts_forStmt (h : inner.Accounted root Q) :
    Accounts root Q known (forStmt inner) (·.statements) := by
  refine (accounts_keyword .for_).bind fun forSpan => accounts_name.bind fun var => .alt ?_
  simp only [List.forall_mem_cons]
  exact ⟨accounts_numericFor h forSpan var, accounts_genericFor h var, nofun⟩

theorem accounts_functionStmt (h : inner.Accounted root Q) :
    Accounts root Q known (functionStmt inner) (·.statements) :=
  (accounts_keyword .function_).bind fun _ => accounts_funcName.bind fun _ =>
    (accounts_funcBody h).map fun _ => by simp

theorem accounts_localFunction (h : inner.Accounted root Q) :
    Accounts root Q known (localFunction inner) (·.statements) :=
  (accounts_keyword .function_).bind fun _ => accounts_name.bind fun _ =>
    (accounts_funcBody h).map fun _ => by simp

theorem statements_padWithNil (count : Nat) (span : Span) (es : List (Located Expr)) :
    (Expr.padWithNil count span es).flatMap (·.node.statements) =
      es.flatMap (·.node.statements) := by
  simp [Expr.padWithNil]

theorem accounts_localDecl (h : inner.Accounted root Q) :
    Accounts root Q known (localDecl inner) (·.statements) := by
  refine (accounts_name.sepBy1 (accounts_symbol .comma)).bind fun names =>
    (accounts_symbol .equal).optional.bind fun r => ?_
  cases r with
  | some equal =>
    exact (accounts_exprList h).map fun _ => by simp [statements_padWithNil]
  | none =>
    refine .bind (f := fun _ => []) (accounts_of_ok fun _ _ => ⟨_, rfl⟩) fun _ => .pure ?_
    simp [statements_padWithNil]

theorem accounts_localStmt (h : inner.Accounted root Q) :
    Accounts root Q known (localStmt inner) (·.statements) := by
  refine (accounts_keyword .local_).bind fun _ => .alt ?_
  simp only [List.forall_mem_cons]
  exact ⟨accounts_localFunction h, accounts_localDecl h, nofun⟩

/-! ### Calls and assignments -/

theorem accounts_checkedTarget {target : PrefixExp} (htarget : target.statements ⊆ known) :
    Accounts root Q known (checkedTarget target) (·.node.statements) := by
  unfold checkedTarget
  cases targetCause? target with
  | none => exact .pure htarget
  | some cause => exact (accounts_record _).bind fun _ => .pure htarget

theorem accounts_moreTargets (h : inner.Accounted root Q) :
    Accounts root Q known (moreTargets inner) (·.flatMap (·.node.statements)) := by
  refine .collect ((accounts_following (accounts_prefixExp h .unrestricted)).optional.bind
    fun r => ?_)
  cases r with
  | none => exact .pure (by simp)
  | some target => exact (accounts_checkedTarget (by simp)).map fun _ => by simp

theorem accounts_assignment (h : inner.Accounted root Q) {first : PrefixExp}
    (hfirst : first.statements ⊆ known) :
    Accounts root Q known (assignment inner first) (·.statements) :=
  (accounts_checkedTarget hfirst).bind fun _ => (accounts_moreTargets h).bind fun _ =>
    (accounts_symbol .equal).bind fun _ => (accounts_exprList h).map fun _ st hst => by
      simp [statements_padWithNil, -List.mem_flatMap] at hst ⊢
      grind

theorem accounts_callOrAssign (h : inner.Accounted root Q) :
    Accounts root Q known (callOrAssign inner) (·.statements) := by
  refine (accounts_head h).bind fun a => (accounts_suffixChain h).bind fun marks =>
    accounts_peek.bind fun next => ?_
  have hfirst : PrefixExp.statements ⟨a, marks.map (·.1)⟩ ⊆
      [] ++ (marks.flatMap (·.1.node.statements) ++ (a.node.statements ++ known)) := by
    simp [List.flatMap_map]
  split
  · exact .pure hfirst
  · exact accounts_assignment h hfirst

/-- What is inside the statement comes about in the alternative that reads it. -/
theorem accounts_inside (h : inner.Accounted root Q) :
    Accounts root Q known (stmt inner) (·.node.statements) := by
  refine .located (f := Stmt.statements) (.alt ?_)
  simp only [List.forall_mem_cons]
  exact ⟨accounts_callOrAssign h, accounts_labelStmt, accounts_breakStmt, accounts_continueStmt,
    accounts_gotoStmt, accounts_doStmt h, accounts_whileStmt h, accounts_repeatStmt h,
    accounts_ifStmt h, accounts_forStmt h, accounts_functionStmt h, accounts_localStmt h, nofun⟩

/-- The statement itself comes about in the whole run of the rule. -/
theorem accounts_stmt (h : inner.Accounted root Q)
    (hforms : ∀ p s q, Gives root (stmt inner) p s q → Q p s q) :
    Accounts root Q known (stmt inner) fun s => s :: s.node.statements := by
  intro p s q hgives
  obtain ⟨hpq, hinside⟩ := accounts_inside h p s q hgives
  refine ⟨hpq, fun x hx => ?_⟩
  rcases List.mem_cons.1 hx with rfl | hx
  · exact .inr ⟨p, q, hforms p x q hgives, List.suffix_rfl⟩
  · exact hinside x hx

/-! ### Blocks -/

theorem accounts_returnStmt (h : inner.Accounted root Q) :
    Accounts root Q known (returnStmt inner) (·.node.statements) :=
  .located (f := Return.statements) ((accounts_keyword .return_).bind fun _ =>
    (accounts_exprList h).optional.bind fun r => (accounts_symbol .semicolon).many.bind fun _ =>
    .pure (by cases r <;> simp))

def BlockPart.statements : BlockPart → List (Located Stmt)
  | stmt s => s :: s.node.statements
  | ret r => r.node.statements
  | junk => []

theorem statements_blockOf_subset (parts : List BlockPart) :
    (blockOf parts).statements ⊆ parts.flatMap (·.statements) := by
  intro x hx
  simp only [blockOf, Block.statements, statementsOfStmts_eq_flatMap,
    statementsOfReturn?_eq_flatMap, List.mem_append, List.mem_flatMap, List.mem_filterMap,
    Option.mem_toList] at hx ⊢
  rcases hx with ⟨s, ⟨part, hpart, hs⟩, hx⟩ | ⟨r, hr, hx⟩
  · cases part <;> cases hs
    exact ⟨_, hpart, hx⟩
  · obtain ⟨part, hpart, hr⟩ := List.exists_of_findSome?_eq_some hr
    cases part <;> cases hr
    exact ⟨_, hpart, hx⟩

theorem accounts_skipJunk : Accounts root Q known skipJunk fun _ => [] := by
  intro p a q hgives
  obtain ⟨c, s, s', hc, hp, hok, hq⟩ := hgives
  exact accounts_skipTokens _ _ p a q ⟨c, s, s', hc, hp, hok, hq⟩

theorem accounts_blockPart (h : inner.Accounted root Q)
    (hforms : ∀ p s q, Gives root (stmt inner) p s q → Q p s q) :
    Accounts root Q known (blockPart inner) fun r => r.toList.flatMap fun r => r.1.statements := by
  refine (accounts_symbol .semicolon).many.bind fun _ =>
    (accounts_stmt h hforms).optional.bind fun s => ?_
  cases s with
  | some s => exact .pure (by simp [BlockPart.statements])
  | none =>
    refine (accounts_returnStmt h).optional.bind fun r => ?_
    cases r with
    | some r => exact .pure (by simp [BlockPart.statements])
    | none =>
      refine accounts_peek.bind fun next => ?_
      cases next with
      | none => exact .pure (by simp)
      | some t =>
        dsimp only
        split
        · exact .pure (by simp)
        · exact accounts_skipJunk.map fun _ => by simp [BlockPart.statements]

theorem accounts_stmts (h : inner.Accounted root Q)
    (hforms : ∀ p s q, Gives root (stmt inner) p s q → Q p s q) :
    Accounts root Q known (stmts inner) (·.statements) := by
  refine (Accounts.collect (accounts_blockPart h hforms)).map fun parts => ?_
  exact List.Subset.trans (statements_blockOf_subset parts) (List.subset_append_left _ _)

theorem statements_append_subset (a b : Block) :
    (a ++ b).statements ⊆ a.statements ++ b.statements := by
  obtain ⟨ss, r⟩ := a
  obtain ⟨ss', r'⟩ := b
  change Block.statements ⟨ss ++ ss', r'.or r⟩ ⊆ _
  cases r' <;> simp

theorem statements_foldl_append_subset (first : Block) (more : List Block) :
    (more.foldl (· ++ ·) first).statements ⊆ first.statements ++ more.flatMap (·.statements) := by
  induction more generalizing first with
  | nil => simp
  | cons b more ih =>
    refine List.Subset.trans (ih (first ++ b)) ?_
    rw [List.flatMap_cons, ← List.append_assoc]
    exact List.append_subset.2 ⟨List.Subset.trans (statements_append_subset first b)
      (List.subset_append_left _ _), List.subset_append_right _ _⟩

theorem accounts_chunkPart (h : inner.Accounted root Q) :
    Accounts root Q known (chunkPart inner) fun r => r.toList.flatMap (·.1.statements) := by
  refine .bind (f := fun _ => []) (accounts_of_ok fun _ _ => ⟨_, rfl⟩) fun b => ?_
  split
  · exact .pure (by simp)
  · exact (accounts_skipTokens 1 _).bind fun _ => (h.block _).map fun _ => by simp

theorem accounts_chunk (h : inner.Accounted root Q) :
    Accounts root Q known (chunk inner) (·.statements) := by
  refine (h.block _).bind fun first => ?_
  split
  · exact .pure (by simp)
  · refine (Accounts.collect (accounts_chunkPart h)).map fun more x hx => ?_
    have hx := statements_foldl_append_subset first more hx
    simp only [List.mem_append] at hx ⊢
    exact hx.symm.imp_right .inl

/-! ### Nesting levels -/

theorem accounts_cutOffExpr : Accounts root Q known cutOffExpr (·.node.statements) := by
  refine (accounts_skipLevel true).bind fun r => ?_
  cases r with
  | some span => exact .pure (by simp)
  | none =>
    refine .bind (f := fun _ => []) (accounts_of_ok fun _ _ => ⟨_, rfl⟩) fun b => ?_
    split
    · refine .bind (f := fun _ => []) (accounts_of_ok fun _ _ => ⟨_, rfl⟩) fun p => ?_
      refine .bind (f := fun _ => []) (accounts_of_ok fun _ _ => ⟨_, rfl⟩) fun c => ?_
      exact (accounts_record _).bind fun _ => .pure (by simp)
    · exact accounts_stuck _ _

theorem accounts_cutOffBlock : Accounts root Q known cutOffBlock (·.statements) :=
  (accounts_skipLevel false).map fun _ => by simp [Block.empty]

/-- Up to the limit, every level accounts for its statements. -/
theorem accounted_nested {depth : Nat} (hdepth : depth ≤ root.limit) :
    (nested depth).Accounted root (FormedAt root) := by
  induction depth with
  | zero => exact ⟨fun _ => accounts_cutOffExpr, fun _ => accounts_cutOffBlock⟩
  | succ depth ih =>
    have hlevel := ih (Nat.le_of_succ_le hdepth)
    refine ⟨fun _ => accounts_orExpr hlevel, fun _ => accounts_stmts hlevel fun p s q hgives => ?_⟩
    obtain ⟨hspan, hformed⟩ := formed_of_stmt hgives
    exact ⟨hspan, depth, Nat.le_of_succ_le hdepth, hformed⟩

end LuaSyntax.Grammar
