import LuaSyntax.Proofs.Grammar.Heads
import LuaSyntax.Proofs.Lexer.Spacing
/-!
# Printed trees are read back

The text of a printed tree is read as the tokens of its layout.
-/

namespace LuaSyntax

open Lexer

theorem isNumberChar_of_isNameChar {c : Char} (h : isNameChar c = true) :
    isNumberChar c = true := by
  simp [isNumberChar, h]

theorem stops_never {cs : List Char} : Stops (fun _ => false) cs := fun _ _ => rfl

namespace Layout

variable {d : Dialect} {p q : Char → Bool} {l m : Layout} {ls : List Layout}

/-! ### How the parts of a layout start -/

theorem avoids_symbol (s : Symbol) (l : Layout)
    (h : s.spelling.toList.head?.any p = false) : Avoids d p (.symbol s :: l) :=
  avoids_token (fun c hc => by rwa [eq_of_beq hc] at h) l

theorem avoids_word {t : Token} (l : Layout) (ht : t.opensWith = isNameStart)
    (h : ∀ c, isNameStart c = true → p c = false) : Avoids d p (.token t :: l) :=
  avoids_token (fun c hc => h c (ht ▸ hc)) l

theorem beq_of_isNameStart {a c : Char} (hc : isNameStart c = true)
    (ha : isNameStart a = false) : (c == a) = false := by
  rw [beq_eq_false_iff_ne]
  rintro rfl
  rw [ha] at hc
  cases hc

theorem avoids_str (raw : String) (l : Layout) : Avoids d isNameChar (.token (.str raw) :: l) := by
  refine avoids_token (fun c hc => ?_) l
  simp only [Token.opensWith, Bool.or_eq_true, beq_iff_eq] at hc
  rcases hc with (rfl | rfl) | rfl <;> rfl

/-- An expression does not start with an equals sign. -/
theorem avoids_equal {t : Token} (h : t.startsExpr = true) (l : Layout) :
    Avoids d (· == '=') (.token t :: l) := by
  refine avoids_token (fun c hc => ?_) l
  rw [beq_eq_false_iff_ne]
  rintro rfl
  cases t with
  | symbol s => cases s <;> first | exact Bool.false_ne_true hc | exact Bool.false_ne_true h
  | _ => exact Bool.false_ne_true hc

theorem startsWith_eq (c : Char) (l : Layout) : l.startsWith c = (l.chars.head? == some c) := by
  induction l with
  | nil => rfl
  | cons piece l ih =>
    rw [startsWith, chars_cons]
    cases piece.text.toList with
    | nil => exact ih
    | cons b bs => rfl

/-! ### How the parts of a layout are read -/

theorem Lexes.separated {separator : Layout} (hs : separator.Lexes d q)
    (hstart : separator.Avoids d p)
    (h : ∀ l ∈ ls, l.Lexes d p)
    (hnext : ∀ l ∈ ls, ∀ m : Layout, (l ++ m).Written d → ∀ cs, Stops q ((l ++ m).chars ++ cs)) :
    (separated separator ls).Lexes d p := by
  induction ls with
  | nil => exact .nil
  | cons l ls ih =>
    rw [List.forall_mem_cons] at h hnext
    cases ls with
    | nil => exact h.1
    | cons m ls =>
      have hfirst := (h.1.append hs hstart)
      refine hfirst.append_stops (ih h.2 hnext.2) fun hw cs _ => ?_
      have hm := hnext.2 m List.mem_cons_self
      cases ls with
      | nil =>
        have hlast := hm [] (by rwa [List.append_nil])
        rw [List.append_nil] at hlast
        exact hlast cs
      | cons k ls =>
        simp only [Layout.separated, List.append_assoc] at hw ⊢
        exact hm _ hw cs

theorem Lexes.commas (h : ∀ l ∈ ls, l.Lexes d p) (hp : p ',' = false) :
    (commas ls).Lexes d p := by
  have hseparator : Lexes d (fun _ => false) [.symbol .comma, .blank] :=
    .cons_free (.blank .nil) fun _ => rfl
  exact hseparator.separated (avoids_symbol _ _ hp) h fun _ _ _ _ _ => stops_never

/-- A layout that starts with none of the characters. -/
theorem Avoids.of_startsWith {c : Char} (h : l.Avoids d q) (hc : l.startsWith c = false)
    (hp : ∀ b, p b = true → b = c ∨ q b = true) : l.Avoids d p := by
  intro hw
  obtain ⟨b, bs, hl, hb⟩ := h hw
  refine ⟨b, bs, hl, Bool.eq_false_iff.2 fun hpb => ?_⟩
  rw [startsWith_eq, hl] at hc
  rcases hp b hpb with rfl | hq
  · simp at hc
  · exact Bool.eq_false_iff.1 hb hq

theorem Lexes.bracketed (h : l.Lexes d isNumberChar) (hl : l.Avoids d (· == '=')) :
    (bracketed l).Lexes d p := by
  have hclose : Lexes d p [.symbol .closeBracket] := .cons_free .nil fun _ => rfl
  unfold Layout.bracketed
  split
  · exact .cons (.blank (h.append (.blank hclose) (avoids_blank _ rfl))) (avoids_blank _ rfl)
  · next hstart =>
    rw [Bool.not_eq_true] at hstart
    refine .cons (h.append hclose (avoids_symbol _ _ rfl)) ((hl.of_startsWith hstart ?_).append _)
    intro b hb
    simpa [Token.mergesWith, Symbol.mergesWith] using hb

theorem Lexes.braced (h : ∀ l ∈ ls, l.Lexes d isNumberChar) : (braced ls).Lexes d p := by
  have hclose : Lexes d p [.symbol .closeBrace] := .cons_free .nil fun _ => rfl
  exact .cons_free ((Lexes.commas h rfl).append hclose (avoids_symbol _ _ rfl)) fun _ => rfl

theorem Lexes.signed (op : UnOp) (h : l.Lexes d isNumberChar) (hl : l.Avoids d (· == '=')) :
    (signed op l).Lexes d isNumberChar := by
  cases op with
  | neg =>
    unfold Layout.signed
    dsimp only
    split
    · exact .cons (.blank h) (avoids_blank _ rfl)
    · next hstart =>
      rw [Bool.not_eq_true] at hstart
      refine .cons h (hl.of_startsWith hstart ?_)
      intro b hb
      exact .inl (eq_of_beq hb)
  | not => exact .cons (.blank h) (avoids_blank _ rfl)
  | len => exact .cons_free h fun _ => rfl

theorem Lexes.body (h : l.Lexes d fun _ => false) : (body l).Lexes d isNameChar :=
  .newline <| h.append_stops (lexes_token _ fun _ hc => hc) fun _ _ _ => stops_never

theorem lexes_keyword (k : Keyword) : Lexes d isNameChar [.keyword k] :=
  lexes_token _ fun _ hc => hc

theorem lexes_ident (name : String) : Lexes d isNameChar [.ident name] :=
  lexes_token _ fun _ hc => hc

theorem lexes_names (ns : List (Located Name)) : ∀ l ∈ names ns, l.Lexes d isNameChar := by
  intro l hl
  obtain ⟨n, -, rfl⟩ := List.mem_map.1 hl
  exact lexes_ident _

theorem lexes_commas_names (ns : List (Located Name)) :
    (commas (names ns)).Lexes d isNameChar :=
  Lexes.commas (lexes_names ns) rfl

theorem lexes_params (ps : List (Located Name)) (vararg : Option Span) :
    (params ps vararg).Lexes d p := by
  have hclose : Lexes d p [.symbol .closeParen] := .cons_free .nil fun _ => rfl
  refine .cons_free (Lexes.append (Lexes.commas (p := isNameChar) ?_ rfl) hclose
    (avoids_symbol _ _ rfl)) fun _ => rfl
  intro l hl
  rcases List.mem_append.1 hl with hl | hl
  · exact lexes_names ps l hl
  · have heq : l = [.symbol .ellipsis] := by
      split at hl
      · simpa using hl
      · simp at hl
    subst heq
    exact .cons_free .nil fun _ => rfl

/-- A name is no part of a number after a dot. -/
theorem avoids_afterDot (name : String) (l : Layout) :
    Avoids d (fun c => c == '.' || c.isDigit) (.ident name :: l) :=
  avoids_word l rfl fun c hc => by
    rw [beq_of_isNameStart hc rfl, Lexeme.isDigit_of_isNameStart hc]
    rfl

theorem lexes_loopBody (h : l.Lexes d fun _ => false) :
    Lexes d isNumberChar (.blank :: .keyword .do_ :: body l) :=
  .blank (.cons (h.body.mono fun _ => isNumberChar_of_isNameChar) (avoids_newline _ rfl))

theorem lexes_equal (h : l.Lexes d isNumberChar) :
    Lexes d isNumberChar (.blank :: .symbol .equal :: .blank :: l) :=
  .blank (.cons (.blank h) (avoids_blank _ rfl))

theorem lexes_funcName (n : FuncName) : n.layout.Lexes d isNameChar := by
  have hdot : Lexes d (fun c => c == '.' || c.isDigit) [.symbol .dot] :=
    lexes_token _ fun _ hc => hc
  have hpath : (separated [.symbol .dot] (names n.path)).Lexes d isNameChar := by
    refine hdot.separated (avoids_symbol _ _ rfl) (lexes_names _) fun l hl m hw cs => ?_
    obtain ⟨name, -, rfl⟩ := List.mem_map.1 hl
    exact (avoids_afterDot _ m).stops hw cs
  unfold FuncName.layout
  cases n.method with
  | none => simpa using hpath
  | some m =>
    have hcolon : Avoids d (Token.mergesWith (.symbol .colon)) [.ident m.node] :=
      avoids_word _ rfl fun c hc => beq_of_isNameStart hc rfl
    exact hpath.append (.cons (lexes_ident _) hcolon) (avoids_symbol _ _ rfl)

end Layout

/-! ### Trees -/

open Layout

theorem Expr.avoids_equal {d : Dialect} : (e : Expr) → e.layout.Avoids d (· == '=')
  | .nil | .boolean true | .boolean false | .number _ | .str _ | .vararg | .function _
  | .unary ⟨.not, _⟩ _ | .unary ⟨.len, _⟩ _ | .table _ =>
    Layout.avoids_equal rfl _
  | .unary ⟨.neg, _⟩ e => by
    rw [Expr.layout, Layout.signed]
    split <;> exact Layout.avoids_equal rfl _
  | .binary op lhs rhs => ((avoids_equal lhs.node).append _).append _
  | .access ⟨⟨.name n, _⟩, _⟩ => Layout.avoids_equal rfl _
  | .access ⟨⟨.paren e, _⟩, _⟩ => Layout.avoids_equal rfl _

theorem Args.avoids_isNameChar {d : Dialect} : (a : Args) → a.layout.Avoids d isNameChar
  | .list _ => avoids_symbol _ _ rfl
  | .table _ => avoids_symbol _ _ rfl
  | .str raw => avoids_str raw _

theorem Suffix.avoids_isNameChar {d : Dialect} : (s : Suffix) → s.layout.Avoids d isNameChar
  | .call a => a.avoids_isNameChar
  | .method _ _ => avoids_symbol _ _ rfl
  | .index e => by
    rw [Suffix.layout, Layout.bracketed]
    split <;> exact avoids_symbol _ _ rfl
  | .field _ => avoids_symbol _ _ rfl

/-- What follows the head of an expression does not go on with a name. -/
theorem stops_suffixes {d : Dialect} {ss : List (Located Suffix)}
    (hw : (layoutSuffixes ss).Written d) {cs : List Char} (hcs : Stops isNameChar cs) :
    Stops isNameChar ((layoutSuffixes ss).chars ++ cs) := by
  cases ss with
  | nil => exact hcs
  | cons s ss => exact (s.node.avoids_isNameChar.append _).stops hw cs

theorem FuncBody.avoids_isNameChar {d : Dialect} : (f : FuncBody) → f.layout.Avoids d isNameChar
  | ⟨_, _, _⟩ => avoids_symbol .openParen _ rfl

mutual

theorem Block.lexes {d : Dialect} : (b : Block) → b.layout.Lexes d fun _ => false
  | ⟨ss, r⟩ => (lexes_stmts ss).append_stops (lexes_return? r) fun _ _ _ => stops_never
termination_by structural a => a

theorem lexes_stmts {d : Dialect} :
    (ss : List (Located Stmt)) → (layoutStmts ss).Lexes d fun _ => false
  | [] => .nil
  | s :: ss => by
    have hs := Stmt.lexes (d := d) s.node
    have hss := lexes_stmts (d := d) ss
    have hline : (s.node.layout ++ .newline :: layoutStmts ss).Lexes d fun _ => false :=
      hs.append (.newline hss) (avoids_newline _ rfl)
    rw [layoutStmts, List.append_assoc]
    split
    · exact .cons_free hline fun _ => rfl
    · exact hline
termination_by structural a => a

theorem lexes_return? {d : Dialect} :
    (r : Option (Located Return)) → (layoutReturn? r).Lexes d fun _ => false
  | none => .nil
  | some r => (Return.lexes r.node).append (.newline .nil) (avoids_newline _ rfl)
termination_by structural a => a

theorem Return.lexes {d : Dialect} : (r : Return) → r.layout.Lexes d isNumberChar
  | ⟨[]⟩ => (lexes_keyword _).mono fun _ => isNumberChar_of_isNameChar
  | ⟨e :: es⟩ => by
    have he := Expr.lexes (d := d) e.node
    have hes := lexes_exprs (d := d) es
    exact .cons (.blank (Lexes.commas (List.forall_mem_cons.2 ⟨he, hes⟩) rfl)) (avoids_blank _ rfl)
termination_by structural a => a

theorem lexes_exprs {d : Dialect} :
    (es : List (Located Expr)) → ∀ l ∈ layoutExprs es, l.Lexes d isNumberChar
  | [] => by simp [layoutExprs]
  | e :: es => List.forall_mem_cons.2 ⟨Expr.lexes e.node, lexes_exprs es⟩
termination_by structural a => a

theorem Stmt.lexes {d : Dialect} : (s : Stmt) → s.layout.Lexes d isNumberChar
  | .label name => .cons_free .nil fun _ => rfl
  | .breakLoop => (lexes_keyword _).mono fun _ => isNumberChar_of_isNameChar
  | .continueLoop => (lexes_keyword _).mono fun _ => isNumberChar_of_isNameChar
  | .goto name => .mono (.cons (.blank (lexes_ident _)) (avoids_blank _ rfl)) fun _ =>
    isNumberChar_of_isNameChar
  | .block b => .mono (.cons (Lexes.body (Block.lexes b)) (avoids_newline _ rfl)) fun _ =>
    isNumberChar_of_isNameChar
  | .whileLoop cond b => by
    have hcond := Expr.lexes (d := d) cond.node
    have hb := lexes_loopBody (Block.lexes (d := d) b)
    rw [Stmt.layout, List.append_assoc]
    exact .cons (.blank (hcond.append hb (avoids_blank _ rfl))) (avoids_blank _ rfl)
  | .repeatLoop b cond => by
    have hcond := Expr.lexes (d := d) cond.node
    have hb := Block.lexes (d := d) b
    rw [Stmt.layout, List.append_assoc]
    have huntil : Layout.Lexes d isNumberChar (.keyword .until_ :: .blank :: cond.node.layout) :=
      .cons (.blank hcond) (avoids_blank _ rfl)
    exact .cons (.newline (hb.append_stops huntil fun _ _ _ => stops_never)) (avoids_newline _ rfl)
  | .numericFor var start stop step b => by
    have hexprs : ∀ l ∈ [start.node.layout, stop.node.layout, step.node.layout],
        l.Lexes d isNumberChar := by
      simp only [List.forall_mem_cons]
      exact ⟨Expr.lexes start.node, Expr.lexes stop.node, Expr.lexes step.node, by simp⟩
    have hb := lexes_loopBody (Block.lexes (d := d) b)
    rw [Stmt.layout, List.append_assoc, List.append_assoc]
    have hequal := lexes_equal ((Lexes.commas hexprs rfl).append hb (avoids_blank _ rfl))
    exact .cons (.blank (.cons hequal (avoids_blank _ rfl))) (avoids_blank _ rfl)
  | .genericFor vars exprs b => by
    have hexprs := Lexes.commas (lexes_exprs (d := d) exprs) rfl
    have hb := lexes_loopBody (Block.lexes (d := d) b)
    rw [Stmt.layout, List.append_assoc, List.append_assoc, List.append_assoc]
    have hin : Layout.Lexes d isNumberChar (.blank :: .keyword .in_ :: .blank ::
        (commas (layoutExprs exprs) ++ .blank :: .keyword .do_ :: Layout.body b.layout)) :=
      .blank (.cons (.blank (hexprs.append hb (avoids_blank _ rfl))) (avoids_blank _ rfl))
    exact .cons (.blank ((lexes_commas_names vars).append hin (avoids_blank _ rfl)))
      (avoids_blank _ rfl)
  | .conditional clauses otherwise => by
    have hend : Lexes d isNumberChar [.keyword .end_] :=
      (lexes_keyword _).mono fun _ => isNumberChar_of_isNameChar
    rw [Stmt.layout, List.append_assoc]
    exact (lexes_clauses .if_ clauses).append_stops
      ((lexes_else otherwise).append_stops hend fun _ _ _ => stops_never) fun _ _ _ => stops_never
  | .function name f => by
    have hf := FuncBody.lexes (d := d) f
    have hname := (lexes_funcName name).append hf f.avoids_isNameChar
    exact .mono (.cons (.blank hname) (avoids_blank _ rfl)) fun _ => isNumberChar_of_isNameChar
  | .localFunction name f => by
    have hf := FuncBody.lexes (d := d) f
    have hname := (lexes_ident name.node).append hf f.avoids_isNameChar
    exact .mono (.cons (.blank (.cons (.blank hname) (avoids_blank _ rfl))) (avoids_blank _ rfl))
      fun _ => isNumberChar_of_isNameChar
  | .localDecl names [] => .mono (.cons (.blank (lexes_commas_names names)) (avoids_blank _ rfl))
      fun _ => isNumberChar_of_isNameChar
  | .localDecl names (e :: es) => by
    have he := Expr.lexes (d := d) e.node
    have hes := lexes_exprs (d := d) es
    have hequal := lexes_equal (Lexes.commas (List.forall_mem_cons.2 ⟨he, hes⟩) rfl)
    rw [Stmt.layout, List.append_assoc]
    exact .cons (.blank ((lexes_commas_names names).append hequal (avoids_blank _ rfl)))
      (avoids_blank _ rfl)
  | .call p => (PrefixExp.lexes p).mono fun _ => isNumberChar_of_isNameChar
  | .assign targets exprs => by
    have htargets := Lexes.commas (lexes_targets (d := d) targets) rfl
    have hequal := lexes_equal (Lexes.commas (lexes_exprs (d := d) exprs) rfl)
    rw [Stmt.layout, List.append_assoc]
    exact htargets.append hequal (avoids_blank _ rfl)
termination_by structural a => a

theorem lexes_clauses {d : Dialect} (word : Keyword) :
    (clauses : List IfClause) → (layoutClauses word clauses).Lexes d fun _ => false
  | [] => .nil
  | clause :: clauses => by
    have hclause := IfClause.lexes (d := d) clause
    have hclauses := lexes_clauses (d := d) .elseif_ clauses
    exact .cons (.blank (hclause.append_stops hclauses fun _ _ _ => stops_never))
      (avoids_blank _ rfl)
termination_by structural a => a

theorem IfClause.lexes {d : Dialect} : (c : IfClause) → c.layout.Lexes d fun _ => false
  | ⟨cond, body⟩ => by
    have hcond := Expr.lexes (d := d) cond.node
    have hbody := Block.lexes (d := d) body
    rw [IfClause.layout, List.append_assoc]
    exact hcond.append (.blank (.cons (.newline hbody) (avoids_newline _ rfl))) (avoids_blank _ rfl)
termination_by structural a => a

theorem lexes_else {d : Dialect} :
    (otherwise : Option Block) → (layoutElse otherwise).Lexes d fun _ => false
  | none => .nil
  | some b => .cons (.newline (Block.lexes b)) (avoids_newline _ rfl)
termination_by structural a => a

theorem lexes_targets {d : Dialect} :
    (ts : List (Located PrefixExp)) → ∀ l ∈ layoutTargets ts, l.Lexes d isNameChar
  | [] => by simp [layoutTargets]
  | t :: ts => List.forall_mem_cons.2 ⟨PrefixExp.lexes t.node, lexes_targets ts⟩
termination_by structural a => a

theorem FuncBody.lexes {d : Dialect} : (f : FuncBody) → f.layout.Lexes d isNameChar
  | ⟨params, vararg, body⟩ =>
    (lexes_params (p := fun _ => false) params vararg).append_stops
      (Lexes.body (Block.lexes body)) fun _ _ _ => stops_never
termination_by structural a => a

theorem Expr.lexes {d : Dialect} : (e : Expr) → e.layout.Lexes d isNumberChar
  | .nil | .boolean true | .boolean false =>
    (lexes_keyword _).mono fun _ => isNumberChar_of_isNameChar
  | .number _ => lexes_token _ fun _ hc => hc
  | .str _ => .cons_free .nil fun _ => rfl
  | .vararg => .cons_free .nil fun _ => rfl
  | .function f => .mono (.cons (FuncBody.lexes f) f.avoids_isNameChar) fun _ =>
    isNumberChar_of_isNameChar
  | .binary op lhs rhs => by
    have hlhs := Expr.lexes (d := d) lhs.node
    have hrhs := Expr.lexes (d := d) rhs.node
    rw [Expr.layout, List.append_assoc]
    have hop : op.node.token.mergesWith ' ' = false := by
      cases op.node <;> rfl
    exact hlhs.append (.blank (.cons (.blank hrhs) (avoids_blank _ hop))) (avoids_blank _ rfl)
  | .unary op e => Lexes.signed op.node (Expr.lexes e.node) e.node.avoids_equal
  | .table fs => Lexes.braced (lexes_fields fs)
  | .access p => (PrefixExp.lexes p).mono fun _ => isNumberChar_of_isNameChar
termination_by structural a => a

theorem PrefixExp.lexes {d : Dialect} : (p : PrefixExp) → p.layout.Lexes d isNameChar
  | ⟨head, suffixes⟩ => (Head.lexes head.node).append_stops (lexes_suffixes suffixes)
    fun hw _ => stops_suffixes hw
termination_by structural a => a

theorem Head.lexes {d : Dialect} : (h : Head) → h.layout.Lexes d isNameChar
  | .name name => lexes_ident name
  | .paren e => by
    have hclose : Lexes d isNameChar [.symbol .closeParen] := .cons_free .nil fun _ => rfl
    exact .cons_free ((Expr.lexes e.node).append hclose (avoids_symbol _ _ rfl)) fun _ => rfl
termination_by structural a => a

theorem lexes_suffixes {d : Dialect} :
    (ss : List (Located Suffix)) → (layoutSuffixes ss).Lexes d isNameChar
  | [] => .nil
  | s :: ss => (Suffix.lexes s.node).append_stops (lexes_suffixes ss) fun hw _ => stops_suffixes hw
termination_by structural a => a

theorem Suffix.lexes {d : Dialect} : (s : Suffix) → s.layout.Lexes d isNameChar
  | .call args => Args.lexes args
  | .method name args => by
    have hcolon : Avoids d (Token.mergesWith (.symbol .colon)) (.ident name.node :: args.layout) :=
      avoids_word _ rfl fun c hc => beq_of_isNameStart hc rfl
    exact .cons (.cons (Args.lexes args) args.avoids_isNameChar) hcolon
  | .index e => Lexes.bracketed (Expr.lexes e.node) e.node.avoids_equal
  | .field name => .cons (lexes_ident _) (avoids_afterDot _ _)
termination_by structural a => a

theorem Args.lexes {d : Dialect} : (a : Args) → a.layout.Lexes d isNameChar
  | .list es => by
    have hclose : Lexes d isNameChar [.symbol .closeParen] := .cons_free .nil fun _ => rfl
    exact .cons_free ((Lexes.commas (lexes_exprs es) rfl).append hclose (avoids_symbol _ _ rfl))
      fun _ => rfl
  | .table fs => Lexes.braced (lexes_fields fs)
  | .str _ => .cons_free .nil fun _ => rfl
termination_by structural a => a

theorem lexes_fields {d : Dialect} :
    (fs : List (Located Field)) → ∀ l ∈ layoutFields fs, l.Lexes d isNumberChar
  | [] => by simp [layoutFields]
  | f :: fs => List.forall_mem_cons.2 ⟨Field.lexes f.node, lexes_fields fs⟩
termination_by structural a => a

theorem Field.lexes {d : Dialect} : (f : Field) → f.layout.Lexes d isNumberChar
  | .keyed key value => by
    have hkey : (Layout.bracketed key.node.layout).Lexes d isNameChar :=
      Lexes.bracketed (Expr.lexes key.node) key.node.avoids_equal
    rw [Field.layout, List.append_assoc]
    exact hkey.append (lexes_equal (Expr.lexes value.node)) (avoids_blank _ rfl)
  | .named name value => .cons (lexes_equal (Expr.lexes value.node)) (avoids_blank _ rfl)
  | .positional value => Expr.lexes value.node
termination_by structural a => a

end

/-- The text of a layout is read as the tokens of the layout, and there are no comments in it. -/
theorem tokenize_layout {d : Dialect} {p : Char → Bool} {l : Layout} (h : l.Lexes d p)
    (hw : l.Written d) :
    (withoutComments (tokenize l.text d).1).map (·.node) = l.tokens ∧
      (tokenize l.text d).2 = [] := by
  have hread := h hw [] [] .nil .nil default
  rw [List.append_nil, List.append_nil, ← Layout.toList_text] at hread
  obtain ⟨htokens, herrors⟩ : (tokenize l.text d).1.map (·.node) = l.tokens ∧
    (tokenize l.text d).2 = [] := hread
  have hcomments : withoutComments (tokenize l.text d).1 = (tokenize l.text d).1 := by
    refine List.filter_eq_self.2 fun t ht => ?_
    have hmem : t.node ∈ l.tokens := htokens ▸ List.mem_map_of_mem ht
    rw [(hw t.node hmem).isComment_eq_false]
    rfl
  exact ⟨by rw [hcomments, htokens], herrors⟩

/-- The text of a block is read as the tokens that it is printed with. -/
theorem tokenize_text {d : Dialect} {b : Block} (h : b.layout.Written d) :
    (withoutComments (tokenize b.text d).1).map (·.node) = b.layout.tokens ∧
      (tokenize b.text d).2 = [] :=
  tokenize_layout b.lexes h

end LuaSyntax
