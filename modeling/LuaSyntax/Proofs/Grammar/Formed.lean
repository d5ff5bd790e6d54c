import LuaSyntax.Grammar.Nesting
import LuaSyntax.Proofs.Rule.Gives
import LuaSyntax.Tree.Layout
/-!
# Well-formed statements

What the grammar says of a statement once it is read: a call ends in a call, nothing that has to be
there is empty, and the values of assignments and declarations reach as far as their targets. The
values are those of the expression list after the `=`, wherever that stands, filled up with `nil`.
-/

namespace LuaSyntax

/-- One pair for each target, in order, the `i`-th with the `i`-th expression. -/
def PairsUp (pairs : List (String × Located Expr)) (targets : List String)
    (exprs : List (Located Expr)) : Prop :=
  pairs.length = targets.length ∧ ∀ i (hi : i < targets.length),
    ∃ e, exprs[i]? = some e ∧ pairs[i]? = some (targets[i], e)

theorem pairsUp_zip {targets : List String} {exprs : List (Located Expr)}
    (h : targets.length ≤ exprs.length) : PairsUp (targets.zip exprs) targets exprs := by
  have hlength : (targets.zip exprs).length = targets.length := by
    rw [List.length_zip]
    exact Nat.min_eq_left h
  refine ⟨hlength, fun i hi => ?_⟩
  have hi' : i < exprs.length := Nat.lt_of_lt_of_le hi h
  refine ⟨exprs[i], List.getElem?_eq_getElem hi', ?_⟩
  rw [List.getElem?_eq_getElem (by rwa [hlength]), List.getElem_zip]

/-- What holds of every statement in a parsed tree. -/
def Stmt.WellFormed : Stmt → Prop
  | call p => ∃ last, p.suffixes.getLast? = some last ∧ last.node.isCall = true
  | assign targets exprs => targets ≠ [] ∧ targets.length ≤ exprs.length ∧
    PairsUp (assign targets exprs).assignmentPairs (targets.map (·.node.text)) exprs
  | localDecl names exprs => names ≠ [] ∧ names.length ≤ exprs.length ∧
    PairsUp (localDecl names exprs).assignmentPairs (names.map (·.node)) exprs
  | conditional clauses _ => clauses ≠ []
  | genericFor vars exprs _ => vars ≠ [] ∧ exprs ≠ []
  | function name _ => name.path ≠ []
  | _ => True

namespace Grammar

open Rule

variable {root : Context} {inner : Level} {p q : Progress}

/-- The values, and then as many `nil`s at `span` as are missing to reach `count`. -/
def filledUp (count : Nat) (span : Span) (values : List (Located Expr)) : List (Located Expr) :=
  values ++ List.replicate (count - values.length) ⟨.nil, span⟩

theorem le_length_filledUp (count : Nat) (span : Span) (values : List (Located Expr)) :
    count ≤ (filledUp count span values).length := by
  simp [filledUp]
  omega

/-- The targets of an assignment, as they are read from `p` to `q`: a head with its suffixes, and
then further ones after commas. -/
def ReadsTargets (root : Context) (inner : Level) (p : Progress)
    (targets : List (Located PrefixExp)) (q : Progress) : Prop :=
  ∃ head marks first others p₁ p₂ p₃, targets = first :: others ∧
    Gives root (Grammar.head inner) p head p₁ ∧ Gives root (suffixChain inner) p₁ marks p₂ ∧
    Gives root (checkedTarget ⟨head, marks.map (·.1)⟩) p₂ first p₃ ∧
    Gives root (moreTargets inner) p₃ others q

/-- An assignment as it is read from `p` to `q`: targets, an `=`, and the values. -/
def ReadsAssignment (root : Context) (inner : Level) (p : Progress)
    (targets : List (Located PrefixExp)) (exprs : List (Located Expr)) (q : Progress) : Prop :=
  ∃ equal values p₁ p₂, ReadsTargets root inner p targets p₁ ∧
    TokenAt root (.symbol .equal) p₁ equal p₂ ∧ Gives root (exprList inner) p₂ values q ∧
    exprs = filledUp targets.length equal values

/-- A declaration as it is read from `p` to `q`: `local`, names, and an `=` with the values; or,
where no `=` follows the names, no values at all. -/
def ReadsDeclaration (root : Context) (inner : Level) (p : Progress) (names : List (Located Name))
    (exprs : List (Located Expr)) (q : Progress) : Prop :=
  ∃ start p₁ p₂, TokenAt root (.keyword .local_) p start p₁ ∧
    Gives root (sepBy1 name (symbol .comma)) p₁ names p₂ ∧
    ((∃ equal values, root.stream.get? p₂.cursor = some ⟨.symbol .equal, equal⟩ ∧
        Gives root (exprList inner) ⟨p₂.cursor + 1, p₂.diags⟩ values q ∧
        exprs = filledUp names.length equal values) ∨
      ∃ last, (∀ equal, root.stream.get? p₂.cursor ≠ some ⟨.symbol .equal, equal⟩) ∧ q = p₂ ∧
        names.getLast? = some last ∧ exprs = filledUp names.length last.span [])

/-- The statement is well-formed, and an assignment or a declaration is read from `p` to `q`. -/
def Formed (root : Context) (inner : Level) (p : Progress) (s : Stmt) (q : Progress) : Prop :=
  s.WellFormed ∧ match s with
    | .assign targets exprs => ReadsAssignment root inner p targets exprs q
    | .localDecl names exprs => ReadsDeclaration root inner p names exprs q
    | _ => True

/-- The rule gives formed statements. -/
def Forms (root : Context) (inner : Level) (rule : Rule Stmt) : Prop :=
  ∀ p s q, Gives root rule p s q → Formed root inner p s q

/-- A statement that is formed wherever it is read. -/
def Plain (root : Context) (inner : Level) (s : Stmt) : Prop :=
  ∀ p q, Formed root inner p s q

theorem Forms.of_plain {rule : Rule Stmt} (h : Ensures root rule (Plain root inner)) :
    Forms root inner rule :=
  fun p s q hgives => h p s q hgives p q

theorem Forms.alt {rules : List (Rule Stmt)} (h : ∀ r ∈ rules, Forms root inner r) :
    Forms root inner (alt rules) := by
  intro p s q hgives
  obtain ⟨r, hr, hrule⟩ := hgives.of_alt
  exact h r hr p s q hrule

/-! ### Assignments and declarations -/

theorem formed_assign {targets : List (Located PrefixExp)} {exprs : List (Located Expr)}
    (h : ReadsAssignment root inner p targets exprs q) :
    Formed root inner p (.assign targets exprs) q := by
  refine ⟨?_, h⟩
  obtain ⟨equal, values, p₁, p₂, ⟨_, _, first, others, _, _, _, rfl, -⟩, -, -, rfl⟩ := h
  have hle := le_length_filledUp (first :: others).length equal values
  exact ⟨List.cons_ne_nil _ _, hle, pairsUp_zip (by simpa using hle)⟩

theorem formed_localDecl {names : List (Located Name)} {exprs : List (Located Expr)}
    (h : ReadsDeclaration root inner p names exprs q) :
    Formed root inner p (.localDecl names exprs) q := by
  refine ⟨?_, h⟩
  obtain ⟨start, p₁, p₂, -, hnames, hvalues⟩ := h
  have hle : names.length ≤ exprs.length := by
    rcases hvalues with ⟨equal, values, -, -, rfl⟩ | ⟨last, -, -, -, rfl⟩
    · exact le_length_filledUp _ _ _
    · exact le_length_filledUp _ _ _
  exact ⟨ensures_sepBy1 p₁ names p₂ hnames, hle, pairsUp_zip (by simpa using hle)⟩

theorem forms_callOrAssign : Forms root inner (callOrAssign inner) := by
  intro p s q h
  unfold callOrAssign at h
  obtain ⟨a, p₁, hhead, h₁⟩ := h.of_bind
  obtain ⟨marks, p₂, hmarks, h₂⟩ := h₁.of_bind
  obtain ⟨next, p₃, hnext, h₃⟩ := h₂.of_bind
  obtain rfl := hnext.of_look fun _ _ => ⟨_, rfl⟩
  split at h₃
  · next hcall =>
    obtain ⟨rfl, rfl⟩ := h₃.of_pure
    obtain ⟨last, hlast, hisCall⟩ := (Option.any_eq_true _ _).1 hcall.1
    exact ⟨⟨last, hlast, hisCall⟩, trivial⟩
  · unfold assignment at h₃
    obtain ⟨first, p₄, hfirst, h₄⟩ := h₃.of_bind
    obtain ⟨others, p₅, hothers, h₅⟩ := h₄.of_bind
    dsimp only at h₅
    obtain ⟨equal, p₆, hequal, h₆⟩ := h₅.of_bind
    obtain ⟨values, p₇, hvalues, h₇⟩ := h₆.of_bind
    obtain ⟨rfl, rfl⟩ := h₇.of_pure
    exact formed_assign ⟨equal, values, p₅, p₆,
      ⟨a, marks, first, others, p₁, p₃, p₄, rfl, hhead, hmarks, hfirst, hothers⟩,
      hequal.of_token, hvalues, rfl⟩

theorem forms_localStmt : Forms root inner (localStmt inner) := by
  intro p s q h
  unfold localStmt at h
  obtain ⟨start, p₁, hstart, h₁⟩ := h.of_bind
  obtain ⟨rule, hrule, h₂⟩ := h₁.of_alt
  simp only [List.mem_cons, List.not_mem_nil, or_false] at hrule
  rcases hrule with rfl | rfl
  · have hplain : Ensures root (localFunction inner) (Plain root inner) :=
      .after fun _ => .after fun _ => .after fun _ => .pure fun _ _ => ⟨trivial, trivial⟩
    exact hplain p₁ s q h₂ p q
  · unfold localDecl at h₂
    obtain ⟨names, p₂, hnames, h₃⟩ := h₂.of_bind
    obtain ⟨r, p₃, hr, h₄⟩ := h₃.of_bind
    have hne : names ≠ [] := ensures_sepBy1 p₁ names p₂ hnames
    rcases hr.of_optional_token with ⟨rfl, rfl, hmissing⟩ | ⟨equal, rfl, here, rfl⟩
    · dsimp only at h₄
      obtain ⟨_, p₄, hpos, h₅⟩ := h₄.of_bind
      obtain rfl := hpos.of_look fun _ _ => ⟨_, rfl⟩
      obtain ⟨rfl, rfl⟩ := h₅.of_pure
      have hlast := List.getLast?_eq_some_getLast hne
      refine formed_localDecl ⟨start, p₁, _, hstart.of_token, hnames, .inr ⟨_, hmissing, rfl,
        hlast, ?_⟩⟩
      rw [hlast]
      rfl
    · dsimp only at h₄
      obtain ⟨values, p₄, hvalues, h₅⟩ := h₄.of_bind
      obtain ⟨rfl, rfl⟩ := h₅.of_pure
      exact formed_localDecl ⟨start, p₁, p₂, hstart.of_token, hnames,
        .inl ⟨equal, values, here, hvalues, rfl⟩⟩

/-! ### Other statements -/

theorem forms_ifStmt : Forms root inner (ifStmt inner) :=
  .of_plain (.after fun _ => .after fun _ => .after fun _ => .after fun _ => .after fun _ =>
    .pure fun _ _ => ⟨List.cons_ne_nil _ _, trivial⟩)

theorem plain_genericFor (first : Located Name) :
    Ensures root (genericFor inner first) (Plain root inner) :=
  .after fun _ => .after fun _ => .bind ensures_sepBy1 fun _ hexprs => .after fun _ =>
    .after fun _ => .after fun _ => .pure fun _ _ => ⟨⟨List.cons_ne_nil _ _, hexprs⟩, trivial⟩

theorem plain_numericFor (forSpan : Span) (var : Located Name) :
    Ensures root (numericFor inner forSpan var) (Plain root inner) :=
  .after fun _ => .after fun _ => .after fun _ => .after fun _ => .after fun _ => .after fun _ =>
    .after fun _ => .after fun _ => .pure fun _ _ => ⟨trivial, trivial⟩

theorem forms_forStmt : Forms root inner (forStmt inner) := by
  refine .of_plain (.after fun forSpan => .after fun var => .alt ?_)
  simp only [List.forall_mem_cons]
  exact ⟨plain_numericFor forSpan var, plain_genericFor var, nofun⟩

theorem forms_functionStmt : Forms root inner (functionStmt inner) := by
  have hname : Ensures root funcName fun name => name.path ≠ [] :=
    .after fun _ => .after fun _ => .after fun _ => .pure (List.cons_ne_nil _ _)
  exact .of_plain (.after fun _ => hname.bind fun _ hpath => .after fun _ =>
    .pure fun _ _ => ⟨hpath, trivial⟩)

/-- Whichever alternative a statement is read by, it is formed. -/
theorem formed_of_stmt {s : Located Stmt} (h : Gives root (stmt inner) p s q) :
    s.span = root.stream.spanBetween p.cursor q.cursor ∧ Formed root inner p s.node q := by
  obtain ⟨halt, hspan⟩ := h.of_located
  refine ⟨hspan, Forms.alt ?_ p s.node q halt⟩
  simp only [List.forall_mem_cons]
  exact ⟨forms_callOrAssign,
    .of_plain (.after fun _ => .pure fun _ _ => ⟨trivial, trivial⟩),
    .of_plain (.after fun _ => .pure fun _ _ => ⟨trivial, trivial⟩),
    .of_plain (.after fun _ => .pure fun _ _ => ⟨trivial, trivial⟩),
    .of_plain (.after fun _ => .after fun _ => .pure fun _ _ => ⟨trivial, trivial⟩),
    .of_plain (.after fun _ => .after fun _ => .after fun _ => .pure fun _ _ => ⟨trivial, trivial⟩),
    .of_plain (.after fun _ => .after fun _ => .after fun _ => .after fun _ => .after fun _ =>
      .pure fun _ _ => ⟨trivial, trivial⟩),
    .of_plain (.after fun _ => .after fun _ => .after fun _ => .after fun _ =>
      .pure fun _ _ => ⟨trivial, trivial⟩),
    forms_ifStmt, forms_forStmt, forms_functionStmt, forms_localStmt, nofun⟩

end Grammar

end LuaSyntax
