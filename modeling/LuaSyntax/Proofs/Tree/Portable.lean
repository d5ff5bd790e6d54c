import LuaSyntax.Proofs.Lexer.Writable
import LuaSyntax.Proofs.Tree.Printed
import LuaSyntax.Proofs.Tree.Statements
/-!
# Trees that can be written in Lua 5.2

The operators that are spelled differently in GLua are printed as Lua 5.2 has them. Of what only
GLua has, a printed tree can only hold the word `continue`, and just if one of its statements is a
`continue`.
-/

namespace LuaSyntax

namespace Token

/-- Whether the token is none of the words and symbols that only GLua has. -/
def isPortable : Token → Bool
  | keyword k => k.isReserved .lua52
  | symbol s => s.isUsed .lua52
  | _ => true

theorem isPortable_binOp (op : BinOp) : op.token.isPortable = true := by
  cases op <;> rfl

theorem isPortable_unOp (op : UnOp) : op.token.isPortable = true := by
  cases op <;> rfl

/-- What is written in GLua is written alike in Lua 5.2, if Lua 5.2 has it. -/
theorem Writable.lua52 {t : Token} (h : t.Writable .glua) (ht : t.isPortable = true) :
    t.Writable .lua52 := by
  cases h with
  | keyword => exact .keyword ht
  | symbol => exact .symbol ht
  | @ident cs word free =>
    have hfree : Keyword.ofSpelling? .lua52 (String.ofList cs) = none := by
      rw [Keyword.ofSpelling?, List.find?_eq_none] at free ⊢
      intro k hk hspelled
      rw [Bool.and_eq_true] at hspelled
      exact free k hk (Bool.and_eq_true_iff.2 ⟨by cases k <;> rfl, hspelled.2⟩)
    exact .ident word hfree
  | label word => exact .label word
  | number starts faultless => exact .number starts faultless
  | quoted quote closed => exact .quoted quote closed
  | long opened closed => exact .long opened closed

end Token

/-! ### Layouts -/

namespace Layout

variable {l m : Layout} {ls : List Layout}

/-- Lua 5.2 has the words and symbols of the layout. -/
def Portable (l : Layout) : Prop := ∀ t ∈ l.tokens, t.isPortable = true

@[simp] theorem portable_nil : Portable [] := nofun

@[simp] theorem portable_append : (l ++ m).Portable ↔ l.Portable ∧ m.Portable := by
  simp [Portable, or_imp, forall_and]

@[simp] theorem portable_cons_token {t : Token} :
    Portable (.token t :: l) ↔ t.isPortable = true ∧ l.Portable := by
  simp [Portable]

@[simp] theorem portable_cons_keyword {k : Keyword} :
    Portable (.keyword k :: l) ↔ k.isReserved .lua52 = true ∧ l.Portable :=
  portable_cons_token

@[simp] theorem portable_cons_symbol {s : Symbol} :
    Portable (.symbol s :: l) ↔ s.isUsed .lua52 = true ∧ l.Portable :=
  portable_cons_token

@[simp] theorem portable_cons_ident {name : String} : Portable (.ident name :: l) ↔ l.Portable :=
  portable_cons_token.trans (and_iff_right rfl)

@[simp] theorem portable_cons_blank : Portable (.blank :: l) ↔ l.Portable := Iff.rfl

@[simp] theorem portable_cons_newline : Portable (.newline :: l) ↔ l.Portable := Iff.rfl

@[simp] theorem portable_bracketed : (bracketed l).Portable ↔ l.Portable := by
  simp [Portable, or_imp, forall_and, Token.isPortable, Symbol.isUsed]

@[simp] theorem portable_signed {op : UnOp} : (signed op l).Portable ↔ l.Portable := by
  simp [Portable, Token.isPortable_unOp]

@[simp] theorem portable_body : (body l).Portable ↔ l.Portable := by
  simp [body, Keyword.isReserved]

theorem Portable.separated {separator : Layout} (hs : separator.Portable)
    (h : ∀ l ∈ ls, l.Portable) : (separated separator ls).Portable := by
  induction ls with
  | nil => exact portable_nil
  | cons l ls ih =>
    rw [List.forall_mem_cons] at h
    cases ls with
    | nil => exact h.1
    | cons m ls => exact portable_append.2 ⟨portable_append.2 ⟨h.1, hs⟩, ih h.2⟩

theorem Portable.commas (h : ∀ l ∈ ls, l.Portable) : (commas ls).Portable :=
  .separated (by simp [Symbol.isUsed]) h

theorem Portable.braced (h : ∀ l ∈ ls, l.Portable) : (braced ls).Portable := by
  simp [Layout.braced, Symbol.isUsed, Portable.commas h]

theorem portable_names (ns : List (Located Name)) : ∀ l ∈ names ns, l.Portable := by
  simp [names]

theorem portable_params (ps : List (Located Name)) (vararg : Option Span) :
    (params ps vararg).Portable := by
  have hrest : ∀ l ∈ names ps ++ (if vararg.isSome then [[.symbol .ellipsis]] else []),
      l.Portable := by
    rw [List.forall_mem_append]
    refine ⟨portable_names ps, ?_⟩
    split <;> simp [Symbol.isUsed]
  simp [params, Symbol.isUsed, Portable.commas hrest]

end Layout

theorem FuncName.portable (n : FuncName) : n.layout.Portable := by
  have hpath : (Layout.separated [.symbol .dot] (Layout.names n.path)).Portable :=
    .separated (by simp [Symbol.isUsed]) (Layout.portable_names n.path)
  unfold layout
  cases n.method <;> simp [hpath, Symbol.isUsed]

/-! ### Trees -/

instance (s : Stmt) : Decidable (s = .continueLoop) :=
  match s with
  | .continueLoop => .isTrue rfl
  | .label _ | .breakLoop | .goto _ | .block _ | .whileLoop .. | .repeatLoop .. | .numericFor ..
  | .genericFor .. | .conditional .. | .function .. | .localFunction .. | .localDecl .. | .call _
  | .assign .. => .isFalse nofun

/-- None of the statements is a `continue`. -/
def NoContinue (ss : List (Located Stmt)) : Prop := ∀ s ∈ ss, s.node ≠ .continueLoop

instance (ss : List (Located Stmt)) : Decidable (NoContinue ss) :=
  inferInstanceAs (Decidable (∀ s ∈ ss, s.node ≠ .continueLoop))

@[simp] theorem noContinue_append {ss us : List (Located Stmt)} :
    NoContinue (ss ++ us) ↔ NoContinue ss ∧ NoContinue us :=
  List.forall_mem_append

@[simp] theorem noContinue_cons {s : Located Stmt} {ss : List (Located Stmt)} :
    NoContinue (s :: ss) ↔ s.node ≠ .continueLoop ∧ NoContinue ss :=
  List.forall_mem_cons

open Layout

mutual

theorem Block.portable : (b : Block) → NoContinue b.statements → b.layout.Portable
  | ⟨ss, r⟩, h => by
    rw [Block.statements, noContinue_append] at h
    exact portable_append.2 ⟨portable_stmts ss h.1, portable_return? r h.2⟩
termination_by structural a => a

theorem portable_stmts : (ss : List (Located Stmt)) → NoContinue (statementsOfStmts ss) →
    (layoutStmts ss).Portable
  | [], _ => portable_nil
  | s :: ss, h => by
    rw [statementsOfStmts, List.cons_append, noContinue_cons, noContinue_append] at h
    have hs := Stmt.portable s.node h.1 h.2.1
    have hss := portable_stmts ss h.2.2
    rw [layoutStmts]
    split <;> simp [hs, hss, Symbol.isUsed]
termination_by structural a => a

theorem portable_return? : (r : Option (Located Return)) → NoContinue (statementsOfReturn? r) →
    (layoutReturn? r).Portable
  | none, _ => portable_nil
  | some r, h => by
    have hr := Return.portable r.node h
    simp [layoutReturn?, hr]
termination_by structural a => a

theorem Return.portable : (r : Return) → NoContinue r.statements → r.layout.Portable
  | ⟨[]⟩, _ => by simp [Return.layout, Keyword.isReserved]
  | ⟨e :: es⟩, h => by
    rw [Return.statements, statementsOfExprs, noContinue_append] at h
    have he := Expr.portable e.node h.1
    have hes := portable_exprs es h.2
    simp [Return.layout, Keyword.isReserved, Portable.commas (List.forall_mem_cons.2 ⟨he, hes⟩)]
termination_by structural a => a

theorem portable_exprs : (es : List (Located Expr)) → NoContinue (statementsOfExprs es) →
    ∀ l ∈ layoutExprs es, l.Portable
  | [], _ => by simp [layoutExprs]
  | e :: es, h => by
    rw [statementsOfExprs, noContinue_append] at h
    exact List.forall_mem_cons.2 ⟨Expr.portable e.node h.1, portable_exprs es h.2⟩
termination_by structural a => a

theorem Stmt.portable : (s : Stmt) → s ≠ .continueLoop → NoContinue s.statements →
    s.layout.Portable
  | .label _, _, _ => by simp [Stmt.layout, Token.isPortable]
  | .breakLoop, _, _ => by simp [Stmt.layout, Keyword.isReserved]
  | .continueLoop, hne, _ => absurd rfl hne
  | .goto _, _, _ => by simp [Stmt.layout, Keyword.isReserved]
  | .block b, _, h => by
    have hb := Block.portable b h
    simp [Stmt.layout, Keyword.isReserved, hb]
  | .whileLoop cond b, _, h => by
    rw [Stmt.statements, noContinue_append] at h
    have hcond := Expr.portable cond.node h.1
    have hb := Block.portable b h.2
    simp [Stmt.layout, Keyword.isReserved, hcond, hb]
  | .repeatLoop b cond, _, h => by
    rw [Stmt.statements, noContinue_append] at h
    have hb := Block.portable b h.1
    have hcond := Expr.portable cond.node h.2
    simp [Stmt.layout, Keyword.isReserved, hcond, hb]
  | .numericFor var start stop step b, _, h => by
    simp only [Stmt.statements, noContinue_append] at h
    obtain ⟨⟨⟨hstart, hstop⟩, hstep⟩, hbody⟩ := h
    have hexprs : ∀ l ∈ [start.node.layout, stop.node.layout, step.node.layout], l.Portable := by
      simp only [List.forall_mem_cons]
      exact ⟨Expr.portable start.node hstart, Expr.portable stop.node hstop,
        Expr.portable step.node hstep, by simp⟩
    have hb := Block.portable b hbody
    simp [Stmt.layout, Keyword.isReserved, Symbol.isUsed, Portable.commas hexprs, hb]
  | .genericFor vars exprs b, _, h => by
    rw [Stmt.statements, noContinue_append] at h
    have hexprs := Portable.commas (portable_exprs exprs h.1)
    have hb := Block.portable b h.2
    simp [Stmt.layout, Keyword.isReserved, Portable.commas (portable_names vars), hexprs, hb]
  | .conditional clauses otherwise, _, h => by
    rw [Stmt.statements, noContinue_append] at h
    have hclauses := portable_clauses .if_ rfl clauses h.1
    have hotherwise := portable_else otherwise h.2
    simp [Stmt.layout, Keyword.isReserved, hclauses, hotherwise]
  | .function name f, _, h => by
    have hf := FuncBody.portable f h
    simp [Stmt.layout, Keyword.isReserved, name.portable, hf]
  | .localFunction name f, _, h => by
    have hf := FuncBody.portable f h
    simp [Stmt.layout, Keyword.isReserved, hf]
  | .localDecl names [], _, _ => by
    simp [Stmt.layout, Keyword.isReserved, Portable.commas (portable_names names)]
  | .localDecl names (e :: es), _, h => by
    rw [Stmt.statements, statementsOfExprs, noContinue_append] at h
    have he := Expr.portable e.node h.1
    have hes := portable_exprs es h.2
    simp [Stmt.layout, Keyword.isReserved, Symbol.isUsed, Portable.commas (portable_names names),
      Portable.commas (List.forall_mem_cons.2 ⟨he, hes⟩)]
  | .call p, _, h => PrefixExp.portable p h
  | .assign targets exprs, _, h => by
    rw [Stmt.statements, noContinue_append] at h
    have htargets := Portable.commas (portable_targets targets h.1)
    have hexprs := Portable.commas (portable_exprs exprs h.2)
    simp [Stmt.layout, Symbol.isUsed, htargets, hexprs]
termination_by structural a => a

theorem portable_clauses (word : Keyword) (hword : word.isReserved .lua52 = true) :
    (clauses : List IfClause) → NoContinue (statementsOfClauses clauses) →
    (layoutClauses word clauses).Portable
  | [], _ => portable_nil
  | clause :: clauses, h => by
    rw [statementsOfClauses, noContinue_append] at h
    have hclause := IfClause.portable clause h.1
    have hclauses := portable_clauses .elseif_ rfl clauses h.2
    simp [layoutClauses, hword, hclause, hclauses]
termination_by structural a => a

theorem IfClause.portable : (c : IfClause) → NoContinue c.statements → c.layout.Portable
  | ⟨cond, body⟩, h => by
    rw [IfClause.statements, noContinue_append] at h
    have hcond := Expr.portable cond.node h.1
    have hbody := Block.portable body h.2
    simp [IfClause.layout, Keyword.isReserved, hcond, hbody]
termination_by structural a => a

theorem portable_else : (otherwise : Option Block) → NoContinue (statementsOfElse otherwise) →
    (layoutElse otherwise).Portable
  | none, _ => portable_nil
  | some b, h => by
    have hb := Block.portable b h
    simp [layoutElse, Keyword.isReserved, hb]
termination_by structural a => a

theorem portable_targets : (ts : List (Located PrefixExp)) → NoContinue (statementsOfTargets ts) →
    ∀ l ∈ layoutTargets ts, l.Portable
  | [], _ => by simp [layoutTargets]
  | t :: ts, h => by
    rw [statementsOfTargets, noContinue_append] at h
    exact List.forall_mem_cons.2 ⟨PrefixExp.portable t.node h.1, portable_targets ts h.2⟩
termination_by structural a => a

theorem FuncBody.portable : (f : FuncBody) → NoContinue f.statements → f.layout.Portable
  | ⟨params, vararg, body⟩, h =>
    portable_append.2 ⟨portable_params params vararg, portable_body.2 (Block.portable body h)⟩
termination_by structural a => a

theorem Expr.portable : (e : Expr) → NoContinue e.statements → e.layout.Portable
  | .nil, _ | .boolean true, _ | .boolean false, _ => by simp [Expr.layout, Keyword.isReserved]
  | .number _, _ | .str _, _ => by simp [Expr.layout, Token.isPortable]
  | .vararg, _ => by simp [Expr.layout, Symbol.isUsed]
  | .function f, h => by
    have hf := FuncBody.portable f h
    simp [Expr.layout, Keyword.isReserved, hf]
  | .binary op lhs rhs, h => by
    rw [Expr.statements, noContinue_append] at h
    have hlhs := Expr.portable lhs.node h.1
    have hrhs := Expr.portable rhs.node h.2
    simp [Expr.layout, Token.isPortable_binOp, hlhs, hrhs]
  | .unary op e, h => portable_signed.2 (Expr.portable e.node h)
  | .table fs, h => Portable.braced (portable_fields fs h)
  | .access p, h => PrefixExp.portable p h
termination_by structural a => a

theorem PrefixExp.portable : (p : PrefixExp) → NoContinue p.statements → p.layout.Portable
  | ⟨head, suffixes⟩, h => by
    rw [PrefixExp.statements, noContinue_append] at h
    exact portable_append.2 ⟨Head.portable head.node h.1, portable_suffixes suffixes h.2⟩
termination_by structural a => a

theorem Head.portable : (head : Head) → NoContinue head.statements → head.layout.Portable
  | .name _, _ => by simp [Head.layout]
  | .paren e, h => by
    have he := Expr.portable e.node h
    simp [Head.layout, Symbol.isUsed, he]
termination_by structural a => a

theorem portable_suffixes : (ss : List (Located Suffix)) →
    NoContinue (statementsOfSuffixes ss) → (layoutSuffixes ss).Portable
  | [], _ => portable_nil
  | s :: ss, h => by
    rw [statementsOfSuffixes, noContinue_append] at h
    exact portable_append.2 ⟨Suffix.portable s.node h.1, portable_suffixes ss h.2⟩
termination_by structural a => a

theorem Suffix.portable : (s : Suffix) → NoContinue s.statements → s.layout.Portable
  | .call args, h => Args.portable args h
  | .method _ args, h => by
    have hargs := Args.portable args h
    simp [Suffix.layout, Symbol.isUsed, hargs]
  | .index e, h => portable_bracketed.2 (Expr.portable e.node h)
  | .field _, _ => by simp [Suffix.layout, Symbol.isUsed]
termination_by structural a => a

theorem Args.portable : (a : Args) → NoContinue a.statements → a.layout.Portable
  | .list es, h => by
    have hes := Portable.commas (portable_exprs es h)
    simp [Args.layout, Symbol.isUsed, hes]
  | .table fs, h => Portable.braced (portable_fields fs h)
  | .str _, _ => by simp [Args.layout, Token.isPortable]
termination_by structural a => a

theorem portable_fields : (fs : List (Located Field)) → NoContinue (statementsOfFields fs) →
    ∀ l ∈ layoutFields fs, l.Portable
  | [], _ => by simp [layoutFields]
  | f :: fs, h => by
    rw [statementsOfFields, noContinue_append] at h
    exact List.forall_mem_cons.2 ⟨Field.portable f.node h.1, portable_fields fs h.2⟩
termination_by structural a => a

theorem Field.portable : (f : Field) → NoContinue f.statements → f.layout.Portable
  | .keyed key value, h => by
    rw [Field.statements, noContinue_append] at h
    have hkey := Expr.portable key.node h.1
    have hvalue := Expr.portable value.node h.2
    simp [Field.layout, Symbol.isUsed, hkey, hvalue]
  | .named _ value, h => by
    have hvalue := Expr.portable value.node h
    simp [Field.layout, Symbol.isUsed, hvalue]
  | .positional value, h => Expr.portable value.node h
termination_by structural a => a

end

end LuaSyntax
