import LuaSyntax.Proofs.Grammar.Heads
import LuaSyntax.Proofs.Grammar.Printed
/-!
# Derivations of printed trees

A derived tree is also derived from the tokens that it is printed as, on as many levels as it has.
The language of printed trees is stricter: no statement in it is followed by an opening parenthesis,
which would go on with the statement.
-/

namespace LuaSyntax.Language

open Operator

/-- What is derived in `L` and nests within the limit is derived in `M` from its printed tokens. -/
structure Reprints (limit : Nat) (L M : Language) : Prop where
  expr : ∀ {ts : List Token} {e : Expr}, L.expr ts e → e.levels ≤ limit →
    M.expr e.layout.tokens e
  block : ∀ {ts : List Token} {b : Block}, L.block ts b → b.levels ≤ limit →
    M.block b.layout.tokens b
  nil : 1 ≤ limit → M.expr [.keyword .nil_] .nil
  one : 1 ≤ limit → M.expr [.number "1"] (.number "1")
  follows : ∀ {us : List Token}, us.head? ≠ some (.symbol .openParen) → M.follows us

section

variable {limit : Nat} {L M : Language} {ts : List Token}

/-! ### Expressions -/

theorem Reprints.exprs (h : Reprints limit L M) {es : List (Located Expr)}
    (hes : Listed .comma L.expr ts es) (hlevels : levelsOfExprs es ≤ limit) :
    Listed .comma M.expr (Layout.commas (layoutExprs es)).tokens es := by
  have hall : ∀ e ∈ es, M.expr e.node.layout.tokens e.node := by
    induction hes with
    | one he =>
      rw [List.forall_mem_singleton]
      exact h.expr he (by simp only [levelsOfExprs] at hlevels; unfold Expr.levels; omega)
    | more he _ ih =>
      simp only [levelsOfExprs] at hlevels
      rw [List.forall_mem_cons]
      exact ⟨h.expr he (by unfold Expr.levels; omega), ih (by omega)⟩
  rw [layoutExprs_eq_map]
  exact listed_separated (f := Expr.layout) hes.ne_nil hall [.blank] rfl

theorem Reprints.func (h : Reprints limit L M) {f : FuncBody} (hf : Func L ts f)
    (hlevels : f.inside ≤ limit) : Func M f.layout.tokens f := by
  cases hf with
  | intro hparams hbody =>
    simpa [FuncBody.layout, tokens_params hparams] using Func.intro hparams (h.block hbody hlevels)

theorem Reprints.field (h : Reprints limit L M) {f : Field} (hf : IsField L ts f)
    (hlevels : f.inside ≤ limit) : IsField M f.layout.tokens f := by
  cases hf with
  | keyed hkey hvalue =>
    simp only [Field.inside] at hlevels
    simpa [Field.layout] using IsField.keyed (h.expr hkey (by unfold Expr.levels; omega))
      (h.expr hvalue (by unfold Expr.levels; omega))
  | named name hvalue => simpa [Field.layout] using IsField.named name (h.expr hvalue hlevels)
  | positional hvalue => simpa [Field.layout] using IsField.positional (h.expr hvalue hlevels)

theorem Reprints.fields (h : Reprints limit L M) {fs : List (Located Field)} (hfs : Fields L ts fs)
    (hlevels : levelsOfFields fs ≤ limit) :
    Fields M (Layout.commas (layoutFields fs)).tokens fs := by
  induction hfs with
  | nil => exact .nil
  | last hf =>
    simp only [levelsOfFields] at hlevels
    simpa [layoutFields] using Fields.last (h.field hf (by omega))
  | @more ts us f fs separator hf _ _ ih =>
    simp only [levelsOfFields] at hlevels
    have hf' := h.field hf (by omega)
    have hrest := ih (by omega)
    cases fs with
    | nil => simpa [layoutFields] using Fields.last hf'
    | cons g gs =>
      simpa [layoutFields, Layout.commas_cons] using Fields.more hf' (.inl rfl) hrest

theorem Reprints.table (h : Reprints limit L M) {fs : List (Located Field)} (hfs : Table L ts fs)
    (hlevels : levelsOfFields fs ≤ limit) :
    Table M (Layout.braced (layoutFields fs)).tokens fs := by
  cases hfs with
  | intro hfs => simpa using Table.intro (h.fields hfs hlevels)

theorem Reprints.args (h : Reprints limit L M) {a : Args} (ha : IsArgs L ts a)
    (hlevels : a.inside ≤ limit) : IsArgs M a.layout.tokens a := by
  cases ha with
  | empty => simpa [Args.layout, layoutExprs] using IsArgs.empty (L := M)
  | list hes => simpa [Args.layout] using IsArgs.list (h.exprs hes hlevels)
  | table hfs => simpa [Args.layout] using IsArgs.table (h.table hfs hlevels)
  | str raw => simpa [Args.layout] using IsArgs.str (L := M) raw

theorem Reprints.suffix (h : Reprints limit L M) {s : Suffix} (hs : IsSuffix L ts s)
    (hlevels : s.inside ≤ limit) : IsSuffix M s.layout.tokens s := by
  cases hs with
  | call ha => simpa [Suffix.layout] using IsSuffix.call (h.args ha hlevels)
  | method name ha => simpa [Suffix.layout] using IsSuffix.method name (h.args ha hlevels)
  | index he => simpa [Suffix.layout] using IsSuffix.index (h.expr he hlevels)
  | field name => simpa [Suffix.layout] using IsSuffix.field (L := M) name

theorem Reprints.suffixes (h : Reprints limit L M) {ss : List (Located Suffix)}
    (hss : Suffixes L ts ss) (hlevels : levelsOfSuffixes ss ≤ limit) :
    Suffixes M (layoutSuffixes ss).tokens ss := by
  induction hss with
  | nil => exact .nil
  | cons hs _ ih =>
    simp only [levelsOfSuffixes] at hlevels
    simpa [layoutSuffixes] using Suffixes.cons (h.suffix hs (by omega)) (ih (by omega))

theorem Reprints.head (h : Reprints limit L M) {a : Head} (ha : IsHead L ts a)
    (hlevels : a.inside ≤ limit) : IsHead M a.layout.tokens a := by
  cases ha with
  | name n => simpa [Head.layout] using IsHead.name (L := M) n
  | paren he => simpa [Head.layout] using IsHead.paren (h.expr he hlevels)

theorem Reprints.access (h : Reprints limit L M) {p : PrefixExp} (hp : Access L ts p)
    (hlevels : p.inside ≤ limit) : Access M p.layout.tokens p := by
  cases hp with
  | intro hhead hsuffixes =>
    simp only [PrefixExp.inside] at hlevels
    simpa [PrefixExp.layout] using Access.intro (h.head hhead (by omega))
      (h.suffixes hsuffixes (by omega))

theorem Reprints.atom (h : Reprints limit L M) {e : Expr} (he : Atom L ts e)
    (hlevels : e.inside ≤ limit) : Atom M e.layout.tokens e := by
  cases he with
  | nil => simpa [Expr.layout] using Atom.nil (L := M)
  | false => simpa [Expr.layout] using Atom.false (L := M)
  | true => simpa [Expr.layout] using Atom.true (L := M)
  | number raw => simpa [Expr.layout] using Atom.number (L := M) raw
  | str raw => simpa [Expr.layout] using Atom.str (L := M) raw
  | vararg => simpa [Expr.layout] using Atom.vararg (L := M)
  | function hf => simpa [Expr.layout] using Atom.function (h.func hf hlevels)
  | access hp => simpa [Expr.layout] using Atom.access (h.access hp hlevels)
  | table hfs => simpa [Expr.layout] using Atom.table (h.table hfs hlevels)

theorem token_mem_unaryOps (op : UnOp) : (op.token, op) ∈ unaryOps := by
  cases op <;> decide

theorem Reprints.unary (h : Reprints limit L M) {e : Expr} (he : Unary L ts e)
    (hlevels : e.inside ≤ limit) : Unary M e.layout.tokens e := by
  induction he with
  | @operator ts t op operand hop _ ih =>
    simpa [Expr.layout] using Unary.operator (token_mem_unaryOps op.node) (ih hlevels)
  | atom he => exact .atom (h.atom he hlevels)
  | @power ts us t op base exponent hbase hop _ ih =>
    simp only [Expr.inside] at hlevels
    have hop' : (op.node.token, op.node) ∈ powOps :=
      (by decide : ∀ p ∈ powOps, (p.2.token, p.2) ∈ powOps) _ hop
    simpa [Expr.layout] using Unary.power (h.atom hbase (by omega)) hop' (ih (by omega))

section

variable {ops : List (Token × BinOp)} {item item' : List Token → Expr → Prop}

theorem reprints_leftAssoc (hops : ∀ p ∈ ops, (p.2.token, p.2) ∈ ops)
    (h : ∀ {ts e}, item ts e → e.inside ≤ limit → item' e.layout.tokens e) {e : Expr}
    (he : LeftAssoc ops item ts e) (hlevels : e.inside ≤ limit) :
    LeftAssoc ops item' e.layout.tokens e := by
  induction he with
  | operand he => exact .operand (h he hlevels)
  | binary _ hop hright ih =>
    simp only [Expr.inside] at hlevels
    simpa [Expr.layout] using LeftAssoc.binary (ih (by omega)) (hops _ hop) (h hright (by omega))

theorem reprints_rightAssoc (hops : ∀ p ∈ ops, (p.2.token, p.2) ∈ ops)
    (h : ∀ {ts e}, item ts e → e.inside ≤ limit → item' e.layout.tokens e) {e : Expr}
    (he : RightAssoc ops item ts e) (hlevels : e.inside ≤ limit) :
    RightAssoc ops item' e.layout.tokens e := by
  induction he with
  | operand he => exact .operand (h he hlevels)
  | binary hleft hop _ ih =>
    simp only [Expr.inside] at hlevels
    simpa [Expr.layout] using RightAssoc.binary (h hleft (by omega)) (hops _ hop) (ih (by omega))

end

theorem Reprints.disjunction (h : Reprints limit L M) {e : Expr} (he : Disjunction L ts e)
    (hlevels : e.inside ≤ limit) : Disjunction M e.layout.tokens e :=
  reprints_leftAssoc (by decide)
    (reprints_leftAssoc (by decide)
      (reprints_leftAssoc (by decide)
        (reprints_rightAssoc (by decide)
          (reprints_leftAssoc (by decide)
            (reprints_leftAssoc (by decide) h.unary))))) he hlevels

/-! ### Statements -/

theorem Reprints.clause (h : Reprints limit L M) {c : IfClause} (hc : Clause L ts c)
    (hlevels : c.inside ≤ limit) : Clause M c.layout.tokens c := by
  cases hc with
  | intro hcond hbody =>
    simp only [IfClause.inside] at hlevels
    simpa [IfClause.layout] using Clause.intro (h.expr hcond (by unfold Expr.levels; omega))
      (h.block hbody (by omega))

theorem Reprints.clauses (h : Reprints limit L M) {word : Keyword} {cs : List IfClause}
    (hcs : Clauses L word ts cs) (hlevels : levelsOfClauses cs ≤ limit) :
    Clauses M word (layoutClauses word cs).tokens cs := by
  induction hcs with
  | one hc =>
    simp only [levelsOfClauses] at hlevels
    simpa [layoutClauses] using Clauses.one (h.clause hc (by omega))
  | more hc _ ih =>
    simp only [levelsOfClauses] at hlevels
    simpa [layoutClauses] using Clauses.more (h.clause hc (by omega)) (ih (by omega))

theorem Reprints.else (h : Reprints limit L M) {b : Option Block} (hb : Else L ts b)
    (hlevels : levelsOfElse b ≤ limit) : Else M (layoutElse b).tokens b := by
  cases hb with
  | none => exact .none
  | some hb => simpa [layoutElse] using Else.some (h.block hb hlevels)

theorem Reprints.targets (h : Reprints limit L M) {targets : List (Located PrefixExp)}
    (htargets : Listed .comma (Access L) ts targets) (hlevels : levelsOfTargets targets ≤ limit) :
    Listed .comma (Access M) (Layout.commas (layoutTargets targets)).tokens targets := by
  have hall : ∀ t ∈ targets, Access M t.node.layout.tokens t.node := by
    induction htargets with
    | one hp =>
      rw [List.forall_mem_singleton]
      exact h.access hp (by simp only [levelsOfTargets] at hlevels; omega)
    | more hp _ ih =>
      simp only [levelsOfTargets] at hlevels
      rw [List.forall_mem_cons]
      exact ⟨h.access hp (by omega), ih (by omega)⟩
  rw [layoutTargets_eq_map]
  exact listed_separated (f := PrefixExp.layout) htargets.ne_nil hall [.blank] rfl

theorem levels_le_levelsOfExprs {es : List (Located Expr)} {e : Located Expr} (he : e ∈ es) :
    e.node.levels ≤ levelsOfExprs es := by
  induction es with
  | nil => simp at he
  | cons f fs ih =>
    rw [levelsOfExprs]
    rcases List.mem_cons.1 he with rfl | he
    · unfold Expr.levels
      omega
    · have := ih he
      omega

/-- Values that are filled up are printed, and read back as values that are there. -/
theorem Reprints.padded (h : Reprints limit L M) {count : Nat} {values es : List (Located Expr)}
    (hvalues : ∀ e ∈ values, ∃ us, L.expr us e.node) (hes : Padded count values es)
    (hne : es ≠ []) (hlevels : levelsOfExprs es ≤ limit) :
    Listed .comma M.expr (Layout.commas (layoutExprs es)).tokens es ∧ Padded count es es := by
  obtain ⟨padding, rfl, hlength, hnil⟩ := hes
  have hlevel : ∀ e ∈ values ++ padding, e.node.levels ≤ limit := fun e he =>
    Nat.le_trans (levels_le_levelsOfExprs he) hlevels
  have hall : ∀ e ∈ values ++ padding, M.expr e.node.layout.tokens e.node := by
    intro e he
    have hlimit := hlevel e he
    rcases List.mem_append.1 he with he | he
    · obtain ⟨us, hus⟩ := hvalues e he
      exact h.expr hus hlimit
    · rw [hnil e he] at hlimit ⊢
      exact h.nil hlimit
  refine ⟨?_, [], by simp, ?_, nofun⟩
  · rw [layoutExprs_eq_map]
    exact listed_separated (f := Expr.layout) hne hall [.blank] rfl
  · rw [List.length_append, List.length_nil]
    omega

theorem Padded.ne_nil {count : Nat} {values es : List (Located Expr)}
    (h : Padded count values es) (hne : 0 < count ∨ values ≠ []) : es ≠ [] := by
  obtain ⟨padding, rfl, hlength, -⟩ := h
  rintro heq
  obtain ⟨rfl, rfl⟩ := List.append_eq_nil_iff.1 heq
  rw [List.length_nil] at hlength
  rcases hne with hcount | hne
  · omega
  · exact hne rfl

theorem Reprints.localDecl (h : Reprints limit L M) {ns : List Token} {names : List (Located Name)}
    {count : Nat} {values es : List (Located Expr)} (hcount : count = names.length)
    (hnames : Listed .comma IsName ns names) (hvalues : ∀ e ∈ values, ∃ us, L.expr us e.node)
    (hes : Padded count values es) (hlevels : levelsOfExprs es ≤ limit) :
    IsStmt M (Stmt.localDecl names es).layout.tokens (.localDecl names es) := by
  have hne : es ≠ [] := hes.ne_nil (.inl (hcount ▸ List.length_pos_iff.2 hnames.ne_nil))
  obtain ⟨hlisted, hpadded⟩ := h.padded hvalues hes hne hlevels
  obtain ⟨e, es, rfl⟩ := List.exists_cons_of_ne_nil hne
  subst hcount
  simpa [Stmt.layout, layoutExprs, tokens_commas_names hnames] using
    IsStmt.localValues hnames hlisted hpadded

theorem Reprints.stmt (h : Reprints limit L M) {s : Stmt} (hs : IsStmt L ts s)
    (hlevels : s.inside ≤ limit) : IsStmt M s.layout.tokens s := by
  cases hs with
  | label name => simpa [Stmt.layout] using IsStmt.label (L := M) name
  | breakLoop => simpa [Stmt.layout] using IsStmt.breakLoop (L := M)
  | continueLoop => simpa [Stmt.layout] using IsStmt.continueLoop (L := M)
  | goto name => simpa [Stmt.layout] using IsStmt.goto (L := M) name
  | block hbody => simpa [Stmt.layout] using IsStmt.block (h.block hbody hlevels)
  | whileLoop hcond hbody =>
    simp only [Stmt.inside] at hlevels
    simpa [Stmt.layout] using IsStmt.whileLoop (h.expr hcond (by unfold Expr.levels; omega))
      (h.block hbody (by omega))
  | repeatLoop hbody hcond =>
    simp only [Stmt.inside] at hlevels
    simpa [Stmt.layout] using IsStmt.repeatLoop (h.block hbody (by omega))
      (h.expr hcond (by unfold Expr.levels; omega))
  | numericFor var hstart hstop hstep hbody =>
    simp only [Stmt.inside] at hlevels
    simpa [Stmt.layout, Layout.commas_cons] using IsStmt.numericFor var
      (h.expr hstart (by unfold Expr.levels; omega)) (h.expr hstop (by unfold Expr.levels; omega))
      (h.expr hstep (by unfold Expr.levels; omega)) (h.block hbody (by omega))
  | numericForByOne var span hstart hstop hbody =>
    simp only [Stmt.inside, Expr.inside] at hlevels
    have hone : M.expr [.number "1"] (⟨.number "1", span⟩ : Located Expr).node := h.one (by omega)
    simpa [Stmt.layout, Layout.commas_cons, Expr.layout] using IsStmt.numericFor var
      (h.expr hstart (by unfold Expr.levels; omega)) (h.expr hstop (by unfold Expr.levels; omega))
      hone (h.block hbody (by omega))
  | genericFor hvars hexprs hbody =>
    simp only [Stmt.inside] at hlevels
    simpa [Stmt.layout, tokens_commas_names hvars] using IsStmt.genericFor hvars
      (h.exprs hexprs (by omega)) (h.block hbody (by omega))
  | conditional hclauses hotherwise =>
    simp only [Stmt.inside] at hlevels
    simpa [Stmt.layout] using IsStmt.conditional (h.clauses hclauses (by omega))
      (h.else hotherwise (by omega))
  | function hname hbody =>
    simpa [Stmt.layout, tokens_funcName hname] using IsStmt.function hname (h.func hbody hlevels)
  | localFunction name hbody =>
    simpa [Stmt.layout] using IsStmt.localFunction name (h.func hbody hlevels)
  | localDecl hnames hexprs => exact h.localDecl rfl hnames (by simp) hexprs hlevels
  | localValues hnames hvalues hexprs =>
    exact h.localDecl rfl hnames hvalues.forall_mem hexprs hlevels
  | call hp hcall => simpa [Stmt.layout] using IsStmt.call (h.access hp hlevels) hcall
  | assign htargets hvalues hexprs =>
    simp only [Stmt.inside] at hlevels
    obtain ⟨hlisted, hpadded⟩ := h.padded hvalues.forall_mem hexprs
      (hexprs.ne_nil (.inr hvalues.ne_nil)) (by omega)
    simpa [Stmt.layout] using IsStmt.assign (h.targets htargets (by omega)) hlisted hpadded

theorem Reprints.return (h : Reprints limit L M) {r : Return} (hr : IsReturn L ts r)
    (hlevels : r.inside ≤ limit) : IsReturn M r.layout.tokens r := by
  cases hr with
  | bare count => simpa [Return.layout] using IsReturn.bare (L := M) 0
  | values hes count =>
    obtain ⟨e, es, rfl⟩ := List.exists_cons_of_ne_nil hes.ne_nil
    simpa [Return.layout, layoutExprs] using IsReturn.values (h.exprs hes hlevels) 0

theorem levels_le_of_parts (ss : List (Located Stmt)) (r : Option (Located Return)) :
    (⟨ss, r⟩ : Block).levels ≤ max (levelsOfStmts ss) (levelsOfReturn? r) + 1 := by
  rw [Block.levels_eq]
  split <;> omega

theorem tokens_block_cons (s : Located Stmt) (ss : List (Located Stmt))
    (r : Option (Located Return)) :
    (⟨s :: ss, r⟩ : Block).layout.tokens =
      (if s.node.startsWithParen then [.symbol .semicolon] else []) ++ s.node.layout.tokens ++
        (⟨ss, r⟩ : Block).layout.tokens := by
  simp only [Block.layout, layoutStmts]
  split <;> simp

/-- A printed block does not go on with a statement before it. -/
theorem Reprints.stmts (h : Reprints limit L M) {b : Block} (hb : IsBlock L ts b)
    (hlevels : b.levels ≤ limit + 1) :
    IsBlock M b.layout.tokens b ∧ b.layout.tokens.head? ≠ some (.symbol .openParen) := by
  induction hb with
  | empty => exact ⟨.empty, nofun⟩
  | @ret ts r hr =>
    simp only [Block.levels, levelsOfStmts, levelsOfReturn?] at hlevels
    have hr' := h.return hr (by omega)
    have htokens : (⟨[], some r⟩ : Block).layout.tokens = r.node.layout.tokens := by
      simp [Block.layout, layoutStmts, layoutReturn?]
    rw [htokens]
    exact ⟨.ret hr', by simp [hr'.head?]⟩
  | semicolon _ ih => exact ih hlevels
  | @stmt ts us s ss r hs _ _ ih =>
    simp only [Block.levels, levelsOfStmts] at hlevels
    have hs' := h.stmt hs (by omega)
    obtain ⟨hrest, hhead⟩ := ih (Nat.le_trans (levels_le_of_parts ss r) (by omega))
    have hblock := IsBlock.stmt hs' (h.follows hhead) hrest
    rw [tokens_block_cons]
    by_cases hparen : s.node.startsWithParen = true
    · rw [if_pos hparen]
      exact ⟨.semicolon hblock, by simp⟩
    · rw [if_neg hparen, List.nil_append]
      obtain ⟨t, ht, -, -, hopen⟩ := hs'.exists_head
      refine ⟨hblock, ?_⟩
      rw [List.head?_append, ht]
      rintro ⟨⟩
      exact hparen (hopen rfl)

theorem Reprints.next (h : Reprints limit L M) : Reprints (limit + 1) (next L) (next M) where
  expr he hlevels := h.disjunction he (by unfold Expr.levels at hlevels; omega)
  block hb hlevels := (h.stmts hb hlevels).1
  nil _ := .operand (.operand (.operand (.operand (.operand (.operand (.atom .nil))))))
  one _ := .operand (.operand (.operand (.operand (.operand (.operand (.atom (.number "1")))))))
  follows := h.follows

end

/-! ### All levels -/

/-- A block that needs no level has nothing in it. -/
theorem eq_empty_of_levels {b : Block} (h : b.levels ≤ 0) : b = .empty := by
  obtain ⟨ss, r⟩ := b
  cases ss <;> cases r <;> first | rfl | simp at h

theorem reprints_bare (follows : List Token → Prop) :
    Reprints 0 (bare follows) (unambiguous 0) where
  expr h := h.elim
  block _ hlevels := by
    rw [eq_empty_of_levels hlevels]
    exact ⟨rfl, rfl⟩
  nil h := absurd h (Nat.not_succ_le_zero 0)
  one h := absurd h (Nat.not_succ_le_zero 0)
  follows h := h

/-- The `nil` that stands where the nesting is cut off needs one more level. -/
theorem reprints_stub : Reprints 1 stub (unambiguous 1) where
  expr h _ := by
    obtain ⟨rfl, rfl⟩ := h
    exact .operand (.operand (.operand (.operand (.operand (.operand (.atom .nil))))))
  block h _ := by
    obtain ⟨rfl, rfl⟩ := h
    exact .empty
  nil _ := .operand (.operand (.operand (.operand (.operand (.operand (.atom .nil))))))
  one _ := .operand (.operand (.operand (.operand (.operand (.operand (.atom (.number "1")))))))
  follows h := h

theorem reprints_nest {L : Language} {limit : Nat} (h : Reprints limit L (unambiguous limit))
    (depth : Nat) : Reprints (limit + depth) (nest L depth) (unambiguous (limit + depth)) := by
  induction depth with
  | zero => exact h
  | succ depth ih => exact ih.next

/-- What is derived within some levels, and nests no deeper than that when it is printed, is derived
from its printed tokens within as many. -/
theorem reprints_within (depth : Nat) : Reprints depth (within depth) (unambiguous depth) := by
  have h := reprints_nest (reprints_bare fun _ => True) depth
  rwa [Nat.zero_add] at h

/-- One more level has room for every `nil` that is printed for a part that was cut off. -/
theorem reprints_nest_stub (depth : Nat) :
    Reprints (depth + 1) (nest stub depth) (unambiguous (depth + 1)) := by
  rw [Nat.add_comm]
  exact reprints_nest reprints_stub depth

end LuaSyntax.Language
