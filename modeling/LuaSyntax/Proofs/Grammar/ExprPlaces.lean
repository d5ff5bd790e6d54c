import LuaSyntax.Proofs.Grammar.ExprOrigin
import LuaSyntax.Proofs.Rule.Placed
import LuaSyntax.Proofs.Tree.Spans
/-!
# Where the spans of expressions lie

One lemma for each rule: it places all spans in its value. Those that are not read are joined from
spans of parts, or lie at a token that is missing.
-/

namespace LuaSyntax.Grammar

open Rule Operator

variable {root : Context} {P : Span → Prop} {inner : Level}

/-- The rules of the level place all spans in their values. -/
structure Level.Placed (root : Context) (P : Span → Prop) (inner : Level) : Prop where
  expr : Places root P inner.expr spansOfExpr
  block : Places root P inner.block (·.spans)

def Param.spans : Param → List Span
  | name n => [n.span]
  | vararg span => [span]

theorem forall_spans_of_params {ps : List Param} (h : (ps.flatMap Param.spans).Forall P) :
    ((ps.filterMap (·.name?)).map (·.span)).Forall P ∧
      (ps.findSome? (·.vararg?)).toList.Forall P := by
  simp only [List.forall_iff_forall_mem, List.mem_flatMap, List.mem_map, List.mem_filterMap,
    Option.mem_toList] at h ⊢
  constructor
  · rintro span ⟨n, ⟨p, hp, hn⟩, rfl⟩
    cases p <;> cases hn
    exact h _ ⟨_, hp, List.mem_singleton_self _⟩
  · intro span hspan
    obtain ⟨p, hp, hvararg⟩ := List.exists_of_findSome?_eq_some hspan
    cases p <;> cases hvararg
    exact h _ ⟨_, hp, List.mem_singleton_self _⟩

variable (hspans : Spans root P)

include hspans

/-! ### Functions -/

theorem places_exprList (h : inner.Placed root P) :
    Places root P (exprList inner) (·.flatMap spansOfExpr) :=
  h.expr.sepBy1 (places_symbol hspans .comma)

theorem places_param : Places root P param Param.spans := by
  refine .alt ?_
  simp only [List.forall_mem_cons]
  exact ⟨(places_name hspans).map fun _ h => h, (places_symbol hspans .ellipsis).map fun _ h => h,
    nofun⟩

theorem places_params : Places root P params (·.flatMap Param.spans) := by
  refine (places_param hspans).optional.bind fun r hr => ?_
  match r with
  | none => exact .pure trivial
  | some (.vararg _) => exact .pure hr
  | some (.name n) =>
    have hnext := ((places_symbol hspans .comma).bind fun _ _ => places_param hspans).optional
    refine .map (f := (·.flatMap Param.spans)) (.collect (hnext.map fun r hr => ?_))
      fun others hothers => ?_
    · cases r <;> exact hr
    · exact List.forall_append.2 ⟨by simpa using hr, hothers⟩

theorem places_funcBody (h : inner.Placed root P) : Places root P (funcBody inner) (·.spans) :=
  (places_symbol hspans .openParen).bind fun _ _ => (places_params hspans).bind fun ps hps =>
    (places_symbol hspans .closeParen).bind fun _ _ => h.block.bind fun body hbody =>
    (places_keyword hspans .end_).bind fun _ _ => .pure (by
      obtain ⟨hnames, hvararg⟩ := forall_spans_of_params hps
      simp [hnames, hvararg, hbody])

theorem places_functionExpr (h : inner.Placed root P) :
    Places root P (functionExpr inner) spansOfExpr :=
  .located hspans spansOfExpr_eq ((places_keyword hspans .function_).bind fun _ _ =>
    (places_funcBody hspans h).map fun _ hbody => by simpa using hbody)

/-! ### Tables -/

theorem places_keyedField (h : inner.Placed root P) : Places root P (keyedField inner) (·.spans) :=
  (places_symbol hspans .openBracket).bind fun _ _ => h.expr.bind fun _ hkey =>
    (places_symbol hspans .closeBracket).bind fun _ _ =>
    (places_symbol hspans .equal).bind fun _ _ =>
    h.expr.map fun _ hvalue => by simp [hkey, hvalue]

theorem places_fieldName : Places root P fieldName fun n => [n.span] :=
  .attempt ((places_name hspans).bind fun _ hname => (places_symbol hspans .equal).bind fun _ _ =>
    .pure hname)

theorem places_namedField (h : inner.Placed root P) : Places root P (namedField inner) (·.spans) :=
  (places_fieldName hspans).bind fun _ hname => h.expr.map fun _ hvalue => by
    simpa [hvalue] using hname

omit hspans in
theorem places_positionalField (h : inner.Placed root P) :
    Places root P (positionalField inner) (·.spans) :=
  h.expr.map fun _ hvalue => by simpa using hvalue

theorem places_field (h : inner.Placed root P) : Places root P (field inner) spansOfField := by
  refine .located hspans spansOfField_eq (.alt ?_)
  simp only [List.forall_mem_cons]
  exact ⟨places_keyedField hspans h, places_namedField hspans h, places_positionalField h,
    nofun⟩

theorem places_fields (h : inner.Placed root P) :
    Places root P (fields inner) (·.flatMap spansOfField) := by
  refine .collect ((places_field hspans h).optional.bind fun r hr => ?_)
  cases r with
  | none => exact .pure trivial
  | some f => exact (places_oneOf hspans _).optional.map fun _ _ => by simpa using hr

/-- The fields of a table and where it stands. -/
def spansOfTable (t : Located (List (Located Field))) : List Span :=
  t.span :: t.node.flatMap spansOfField

theorem places_table (h : inner.Placed root P) : Places root P (table inner) spansOfTable :=
  .located (f := (·.flatMap spansOfField)) hspans (fun _ => rfl)
    ((places_symbol hspans .openBrace).bind fun _ _ => (places_fields hspans h).bind fun _ hfs =>
      (places_symbol hspans .closeBrace).bind fun _ _ => .pure hfs)

/-! ### Names, calls and indexes -/

theorem places_nameHead : Places root P nameHead spansOfHead :=
  (places_name hspans).map fun _ hname => by simpa [spansOfHead_eq] using hname

theorem places_parenHead (h : inner.Placed root P) : Places root P (parenHead inner) spansOfHead :=
  .located hspans spansOfHead_eq ((places_symbol hspans .openParen).bind fun _ _ =>
    h.expr.bind fun _ he => (places_symbol hspans .closeParen).bind fun _ _ =>
    .pure (by simpa using he))

theorem places_head (h : inner.Placed root P) : Places root P (head inner) spansOfHead := by
  refine .alt ?_
  simp only [List.forall_mem_cons]
  exact ⟨places_nameHead hspans, places_parenHead hspans h, nofun⟩

theorem places_listArgs (h : inner.Placed root P) : Places root P (listArgs inner) (·.spans) :=
  (places_symbol hspans .openParen).bind fun _ _ =>
    (places_exprList hspans h).optional.bind fun r hr =>
    (places_symbol hspans .closeParen).bind fun _ _ => .pure (by
      cases r with
      | none => simp
      | some es => simpa using hr)

theorem places_tableArgs (h : inner.Placed root P) : Places root P (tableArgs inner) (·.spans) :=
  (places_table hspans h).map fun t ht => by
    rw [spansOfTable, List.forall_cons] at ht
    simpa using ht.2

theorem places_strArgs : Places root P strArgs (·.spans) :=
  (places_satisfy hspans .str).map fun _ _ => by simp

/-- Arguments and where they stand. -/
def spansOfArgs (a : Located Args) : List Span := a.span :: a.node.spans

theorem places_args (h : inner.Placed root P) : Places root P (args inner) spansOfArgs := by
  refine .located hspans (fun _ => rfl) (.alt ?_)
  simp only [List.forall_mem_cons]
  exact ⟨places_listArgs hspans h, places_tableArgs hspans h, places_strArgs hspans, nofun⟩

theorem places_callSuffix (h : inner.Placed root P) : Places root P (callSuffix inner) (·.spans) :=
  (places_args hspans h).map fun a ha => by
    rw [spansOfArgs, List.forall_cons] at ha
    simpa using ha.2

theorem places_methodSuffix (h : inner.Placed root P) :
    Places root P (methodSuffix inner) (·.spans) :=
  (places_symbol hspans .colon).bind fun _ _ => (places_name hspans).bind fun _ hname =>
    (places_args hspans h).map fun a ha => by
      rw [spansOfArgs, List.forall_cons] at ha
      simpa [ha.2] using hname

theorem places_indexSuffix (h : inner.Placed root P) :
    Places root P (indexSuffix inner) (·.spans) :=
  (places_symbol hspans .openBracket).bind fun _ _ => h.expr.bind fun _ he =>
    (places_symbol hspans .closeBracket).bind fun _ _ => .pure (by simpa using he)

theorem places_fieldSuffix : Places root P fieldSuffix (·.spans) :=
  (places_symbol hspans .dot).bind fun _ _ => (places_name hspans).map fun _ hname => by
    simpa using hname

theorem places_suffix (h : inner.Placed root P) : Places root P (suffix inner) spansOfSuffix := by
  refine .located hspans spansOfSuffix_eq (.alt ?_)
  simp only [List.forall_mem_cons]
  exact ⟨places_callSuffix hspans h, places_methodSuffix hspans h, places_indexSuffix hspans h,
    places_fieldSuffix hspans, nofun⟩

theorem places_suffixChain (h : inner.Placed root P) :
    Places root P (suffixChain inner) (·.flatMap fun m => spansOfSuffix m.1) := by
  refine .collect ((places_suffix hspans h).optional.bind fun r hr => ?_)
  cases r with
  | none => exact .pure trivial
  | some s => exact places_mark.map fun _ _ => by simpa using hr

/-- Wherever a chain is cut off, its suffixes and the diagnostics recorded by then are placed. -/
theorem SuffixRun.places (h : inner.Placed root P) {s : State}
    {marks : List (Located Suffix × State)} (hrun : SuffixRun root inner s marks)
    (hs : AllPlaced P s.diags) :
    AllPlaced P (chainEnd s marks).diags ∧ (marks.flatMap fun m => spansOfSuffix m.1).Forall P := by
  induction hrun with
  | nil s => exact ⟨hs, trivial⟩
  | cons hsuffix _ ih =>
    obtain ⟨ht, hfirst⟩ := places_suffix hspans h _ _ _ hsuffix hs
    obtain ⟨hend, hrest⟩ := ih ht
    rw [chainEnd_cons, List.flatMap_cons, List.forall_append]
    exact ⟨hend, hfirst, hrest⟩

/-- The suffixes that are given back are forgotten, with everything recorded since. -/
theorem places_prefixExp (h : inner.Placed root P) (policy : SuffixPolicy) :
    Places root P (prefixExp inner policy) (·.spans) := by
  intro p e q hgives hp
  obtain ⟨a, s, marks, hhead, hrun, hcases⟩ := prefixExp_cases_of_gives hgives
  obtain ⟨hs, ha⟩ := places_head hspans h p a s.progress hhead hp
  rcases hcases with ⟨rfl, rfl⟩ | ⟨b, rfl, -, hargs⟩
  · have hkept : keptBy policy marks <+: marks := keepThroughLast_isPrefix _ _
    obtain ⟨hend, hsuffixes⟩ := (hrun.of_isPrefix hkept).places hspans h hs
    exact ⟨hend, by simp [ha, hsuffixes, List.flatMap_map]⟩
  · obtain ⟨hq, hb⟩ := places_args hspans h s.progress b q hargs hs
    rw [spansOfArgs] at hb
    exact ⟨hq, by simpa [ha, spansOfSuffix_eq] using hb⟩

/-- A prefix expression spans what its head and its last suffix span. -/
theorem placed_span {e : PrefixExp} (he : e.spans.Forall P) : P e.span := by
  obtain ⟨a, suffixes⟩ := e
  simp only [PrefixExp.spans, spansOfSuffixes_eq_flatMap, spansOfHead_eq, List.forall_append,
    List.forall_cons, List.forall_iff_forall_mem (l := suffixes.flatMap _)] at he
  unfold PrefixExp.span
  dsimp only
  split
  · next last hlast =>
    refine hspans.join _ _ he.1.1 (he.2 _ (List.mem_flatMap.2 ⟨last, ?_, ?_⟩))
    · exact List.mem_of_getLast? hlast
    · rw [spansOfSuffix_eq]
      exact List.mem_cons_self
  · exact he.1.1

/-! ### Operators -/

theorem places_accessExpr (h : inner.Placed root P) :
    Places root P (accessExpr inner) spansOfExpr :=
  (places_prefixExp hspans h .unrestricted).map fun e he => by
    simp [spansOfExpr_eq, he, Expr.ofAccess, placed_span hspans he]

theorem places_tableExpr (h : inner.Placed root P) : Places root P (tableExpr inner) spansOfExpr :=
  (places_table hspans h).map fun t ht => by simpa [spansOfExpr_eq, spansOfTable] using ht

theorem places_literal {t : Token} {e : Expr} (he : e.spans = []) :
    Places root P (literal t e) spansOfExpr :=
  (places_token hspans t).map fun _ hspan => by simpa [spansOfExpr_eq, he] using hspan

theorem places_atom (h : inner.Placed root P) : Places root P (atom inner) spansOfExpr := by
  have hraw {m : Matcher String} {e : String → Expr} (he : ∀ raw, (e raw).spans = []) :
      Places root P ((·.map e) <$> satisfy m) spansOfExpr :=
    (places_satisfy hspans m).map fun _ hspan => by simpa [spansOfExpr_eq, he] using hspan
  refine .alt ?_
  simp only [List.forall_mem_cons]
  exact ⟨places_literal hspans (by simp), places_literal hspans (by simp),
    places_literal hspans (by simp), hraw (by simp), hraw (by simp),
    places_literal hspans (by simp), places_functionExpr hspans h, places_accessExpr hspans h,
    places_tableExpr hspans h, nofun⟩

/-- The unary operators before an operand, and the operand. -/
def spansOfSigned (t : Signed) : List Span := t.ops.map (·.span) ++ spansOfExpr t.operand

theorem places_signed (h : inner.Placed root P) : Places root P (signed inner) spansOfSigned :=
  (places_oneOf hspans _).many.bind fun ops hops => (places_atom hspans h).map fun e he => by
    simpa [spansOfSigned, he, List.map_eq_flatMap] using hops

/-- Operands after the first one, each with the operator before it. -/
theorem places_operands {β : Type} {operand : Rule β} {f : β → List Span}
    (ops : List (Token × BinOp)) (h : Places root P operand f) :
    Places root P
      (collect do
        match ← optional (oneOf ops) with
        | none => return none
        | some op => return some ((op, ← operand), true))
      (·.flatMap fun other => other.1.span :: f other.2) := by
  refine .collect ((places_oneOf hspans ops).optional.bind fun r hr => ?_)
  cases r with
  | none => exact .pure trivial
  | some op => exact h.map fun _ ha => by simpa [ha] using hr

omit hspans in
theorem placed_span_expr {e : Located Expr} (he : (spansOfExpr e).Forall P) : P e.span := by
  rw [spansOfExpr_eq, List.forall_cons] at he
  exact he.1

theorem placed_ofBinary {op : Located BinOp} {lhs rhs : Located Expr} (hop : P op.span)
    (hlhs : (spansOfExpr lhs).Forall P) (hrhs : (spansOfExpr rhs).Forall P) :
    (spansOfExpr (Expr.ofBinary op lhs rhs)).Forall P := by
  have hjoin := hspans.join _ _ (placed_span_expr hlhs) (placed_span_expr hrhs)
  simp [Expr.ofBinary, hjoin, hop, hlhs, hrhs]

theorem placed_groupLeft {first : Located Expr} {others : List (Located BinOp × Located Expr)}
    (hfirst : (spansOfExpr first).Forall P)
    (hothers : (others.flatMap fun other => other.1.span :: spansOfExpr other.2).Forall P) :
    (spansOfExpr (groupLeft (first, others))).Forall P := by
  induction others generalizing first with
  | nil => exact hfirst
  | cons other others ih =>
    rw [List.flatMap_cons, List.forall_append, List.forall_cons] at hothers
    obtain ⟨⟨hop, hother⟩, hothers⟩ := hothers
    exact ih (placed_ofBinary hspans hop hfirst hother) hothers

theorem placed_groupRight {first : Located Expr} {others : List (Located BinOp × Located Expr)}
    (hfirst : (spansOfExpr first).Forall P)
    (hothers : (others.flatMap fun other => other.1.span :: spansOfExpr other.2).Forall P) :
    (spansOfExpr (groupRight first others)).Forall P := by
  induction others generalizing first with
  | nil => exact hfirst
  | cons other others ih =>
    rw [List.flatMap_cons, List.forall_append, List.forall_cons] at hothers
    obtain ⟨⟨hop, hother⟩, hothers⟩ := hothers
    exact placed_ofBinary hspans hop hfirst (ih hother hothers)

theorem placed_apply {t : Signed} {e : Located Expr} (ht : (t.ops.map (·.span)).Forall P)
    (he : (spansOfExpr e).Forall P) : (spansOfExpr (t.apply e)).Forall P := by
  obtain ⟨ops, operand⟩ := t
  unfold Signed.apply
  induction ops with
  | nil => exact he
  | cons op ops ih =>
    rw [List.map_cons, List.forall_cons] at ht
    have hrest := ih ht.2
    have hjoin := hspans.join _ _ ht.1 (placed_span_expr hrest)
    simp [Expr.ofUnary, hjoin, ht.1, hrest]

theorem placed_groupPower {first : Signed} {others : List (Located BinOp × Signed)}
    (hfirst : (spansOfSigned first).Forall P)
    (hothers : (others.flatMap fun other => other.1.span :: spansOfSigned other.2).Forall P) :
    (spansOfExpr (groupPower first others)).Forall P := by
  induction others generalizing first with
  | nil =>
    rw [spansOfSigned, List.forall_append] at hfirst
    exact placed_apply hspans hfirst.1 hfirst.2
  | cons other others ih =>
    rw [List.flatMap_cons, List.forall_append, List.forall_cons] at hothers
    rw [spansOfSigned, List.forall_append] at hfirst
    obtain ⟨⟨hop, hother⟩, hothers⟩ := hothers
    exact placed_apply hspans hfirst.1 (placed_ofBinary hspans hop hfirst.2 (ih hother hothers))

theorem places_chain {operand : Rule (Located Expr)} (ops : List (Token × BinOp))
    (h : Places root P operand spansOfExpr) :
    Places root P (chain operand ops) fun ch =>
      spansOfExpr ch.1 ++ ch.2.flatMap fun other => other.1.span :: spansOfExpr other.2 :=
  h.bind fun _ hfirst => (places_operands hspans ops h).map fun _ hothers =>
    List.forall_append.2 ⟨hfirst, hothers⟩

theorem places_leftGrouped {operand : Rule (Located Expr)} (ops : List (Token × BinOp))
    (h : Places root P operand spansOfExpr) :
    Places root P (leftGrouped operand ops) spansOfExpr := by
  refine (places_chain hspans ops h).map fun _ hch => ?_
  obtain ⟨hfirst, hothers⟩ := List.forall_append.1 hch
  exact placed_groupLeft hspans hfirst hothers

theorem places_unaryExpr (h : inner.Placed root P) :
    Places root P (unaryExpr inner) spansOfExpr := by
  rw [unaryExpr_eq]
  exact (places_signed hspans h).bind fun _ hfirst =>
    (places_operands hspans powOps (places_signed hspans h)).map fun _ hothers =>
      placed_groupPower hspans hfirst hothers

theorem places_mulExpr (h : inner.Placed root P) : Places root P (mulExpr inner) spansOfExpr :=
  places_leftGrouped hspans mulOps (places_unaryExpr hspans h)

theorem places_addExpr (h : inner.Placed root P) : Places root P (addExpr inner) spansOfExpr :=
  places_leftGrouped hspans addOps (places_mulExpr hspans h)

theorem places_concatExpr (h : inner.Placed root P) :
    Places root P (concatExpr inner) spansOfExpr := by
  rw [concatExpr_eq]
  refine (places_chain hspans concatOps (places_addExpr hspans h)).map
    (k := fun ch : Chain (Located Expr) => groupRight ch.1 ch.2) fun _ hch => ?_
  obtain ⟨hfirst, hothers⟩ := List.forall_append.1 hch
  exact placed_groupRight hspans hfirst hothers

theorem places_compareExpr (h : inner.Placed root P) :
    Places root P (compareExpr inner) spansOfExpr :=
  places_leftGrouped hspans compareOps (places_concatExpr hspans h)

theorem places_andExpr (h : inner.Placed root P) : Places root P (andExpr inner) spansOfExpr :=
  places_leftGrouped hspans andOps (places_compareExpr hspans h)

theorem places_orExpr (h : inner.Placed root P) : Places root P (orExpr inner) spansOfExpr :=
  places_leftGrouped hspans orOps (places_andExpr hspans h)

end LuaSyntax.Grammar
