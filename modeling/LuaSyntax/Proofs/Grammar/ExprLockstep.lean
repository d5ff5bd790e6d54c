import LuaSyntax.Proofs.Grammar.ExprSound
import LuaSyntax.Proofs.Rule.Lockstep
import LuaSyntax.Proofs.Tree.SpanEq
/-!
# Expressions in lockstep

One lemma for each rule: over two streams that differ in spelling and spans only, it gives trees
that are the same up to spans.
-/

namespace LuaSyntax.Grammar

open Rule Operator

/-- The rules of the level keep in step. -/
structure Level.InStep (P : Pairing) (inner : Level) : Prop where
  expr : Lockstep P P.Twins inner.expr inner.expr
  block : Lockstep P P.Twins inner.block inner.block

variable {P : Pairing} {inner : Level}

/-! ### Functions -/

instance : SpanEq Param where
  same
    | .name n, .name n' => SpanEq.same n n'
    | .vararg _, .vararg _ => True
    | _, _ => False

theorem Param.isName_of_same {p q : Param} (h : SpanEq.same p q) : p.isName = q.isName := by
  cases p <;> cases q <;> first | rfl | exact h.elim

theorem Param.name?_of_same {p q : Param} (h : SpanEq.same p q) : SpanEq.same p.name? q.name? := by
  cases p <;> cases q <;> first | exact .none | exact .some h | exact h.elim

theorem Param.vararg?_of_same {p q : Param} (h : SpanEq.same p q) :
    SpanEq.same p.vararg? q.vararg? := by
  cases p <;> cases q <;> first | exact .none | exact .some trivial | exact h.elim

theorem lockstep_exprList (h : inner.InStep P) :
    Lockstep P P.Twins (exprList inner) (exprList inner) :=
  (h.expr.sepBy1 (lockstep_symbol .comma rfl)).mono fun _ _ => .list

theorem lockstep_param : Lockstep P P.Twins param param := by
  refine .alt (.cons ?_ (.cons ?_ .nil))
  · exact lockstep_name.map fun n n' hn => hn.map fun h => h
  · exact (lockstep_symbol .ellipsis rfl).map fun span span' hspan => hspan.map fun h => h

theorem lockstep_params : Lockstep P P.Twins params params := by
  refine lockstep_param.optional.bind fun r r' hr => ?_
  cases hr with
  | none => exact .pure (.list .nil)
  | @some p q hpq =>
    cases p <;> cases q
    · refine .bind (.collect ?_) fun ps qs hps => .pure (.list (.cons hpq hps))
      refine .map (((lockstep_symbol .comma rfl).bind fun _ _ _ => lockstep_param).optional) ?_
      rintro _ _ (hnext | _)
      · exact .some ⟨hnext, Param.isName_of_same hnext.same⟩
      · exact .none
    · exact hpq.same.elim
    · exact hpq.same.elim
    · exact .pure (.list (.cons hpq .nil))

theorem lockstep_funcBody (h : inner.InStep P) :
    Lockstep P P.Twins (funcBody inner) (funcBody inner) := by
  refine (lockstep_symbol .openParen rfl).bind fun _ _ _ => lockstep_params.bind fun ps qs hps =>
    (lockstep_symbol .closeParen rfl).bind fun _ _ _ => h.block.bind fun body body' hbody =>
    (lockstep_keyword .end_ rfl).bind fun _ _ _ => .pure ⟨?_, fun hexact => ?_⟩
  · exact SpanEq.funcBody (SpanEq.filterMap (fun _ _ => Param.name?_of_same) hps.same)
      (SpanEq.findSome? (fun _ _ => Param.vararg?_of_same) hps.same) hbody.same
  · rw [hps.eq hexact, hbody.eq hexact]

theorem lockstep_functionExpr (h : inner.InStep P) :
    Lockstep P P.Twins (functionExpr inner) (functionExpr inner) :=
  .located ((lockstep_keyword .function_ rfl).bind fun _ _ _ => (lockstep_funcBody h).map
    fun _ _ hf => hf.map fun h => h)

/-! ### Tables -/

theorem lockstep_keyedField (h : inner.InStep P) :
    Lockstep P P.Twins (keyedField inner) (keyedField inner) :=
  (lockstep_symbol .openBracket rfl).bind fun _ _ _ => h.expr.bind fun _ _ hkey =>
    (lockstep_symbol .closeBracket rfl).bind fun _ _ _ =>
    (lockstep_symbol .equal rfl).bind fun _ _ _ =>
    h.expr.map fun _ _ hvalue => hkey.map₂ hvalue SpanEq.keyed

theorem lockstep_fieldName : Lockstep P P.Twins fieldName fieldName :=
  .attempt (lockstep_name.bind fun _ _ hn =>
    (lockstep_symbol .equal rfl).bind fun _ _ _ => .pure hn)

theorem lockstep_namedField (h : inner.InStep P) :
    Lockstep P P.Twins (namedField inner) (namedField inner) :=
  lockstep_fieldName.bind fun _ _ hn => h.expr.map fun _ _ hvalue => hn.map₂ hvalue SpanEq.named

theorem lockstep_positionalField (h : inner.InStep P) :
    Lockstep P P.Twins (positionalField inner) (positionalField inner) :=
  h.expr.map fun _ _ hvalue => hvalue.map fun h => h

theorem lockstep_field (h : inner.InStep P) :
    Lockstep P P.Twins (field inner) (field inner) :=
  .located (.alt (.cons (lockstep_keyedField h) (.cons (lockstep_namedField h)
    (.cons (lockstep_positionalField h) .nil))))

theorem lockstep_fieldSeparator : Lockstep P P.Twins fieldSeparator fieldSeparator :=
  lockstep_oneOf (fun _ => trivial) (blind_lookup rfl rfl rfl rfl)

theorem lockstep_fields (h : inner.InStep P) :
    Lockstep P P.Twins (fields inner) (fields inner) := by
  refine .mono (.collect ((lockstep_field h).optional.bind fun r r' hr => ?_)) fun _ _ => .list
  cases hr with
  | none => exact .pure .none
  | some hf =>
    refine lockstep_fieldSeparator.optional.map fun r r' hr => .some ⟨hf, ?_⟩
    cases hr <;> rfl

theorem lockstep_table (h : inner.InStep P) :
    Lockstep P P.Twins (table inner) (table inner) :=
  .located ((lockstep_symbol .openBrace rfl).bind fun _ _ _ =>
    (lockstep_fields h).bind fun _ _ hfs =>
    (lockstep_symbol .closeBrace rfl).bind fun _ _ _ => .pure hfs)

/-! ### Names, calls and indexes -/

theorem lockstep_nameHead : Lockstep P P.Twins nameHead nameHead :=
  lockstep_name.map fun _ _ hn => hn.map fun h => beq_iff_eq.2 h

theorem lockstep_parenHead (h : inner.InStep P) :
    Lockstep P P.Twins (parenHead inner) (parenHead inner) :=
  .located ((lockstep_symbol .openParen rfl).bind fun _ _ _ => h.expr.bind fun _ _ he =>
    (lockstep_symbol .closeParen rfl).bind fun _ _ _ => .pure (he.map fun h => h))

theorem lockstep_head (h : inner.InStep P) : Lockstep P P.Twins (head inner) (head inner) :=
  .alt (.cons lockstep_nameHead (.cons (lockstep_parenHead h) .nil))

theorem lockstep_listArgs (h : inner.InStep P) :
    Lockstep P P.Twins (listArgs inner) (listArgs inner) := by
  refine (lockstep_symbol .openParen rfl).bind fun _ _ _ => (lockstep_exprList h).optional.bind
    fun r r' hr => (lockstep_symbol .closeParen rfl).bind fun _ _ _ => .pure ?_
  cases hr with
  | none => exact ⟨rfl, fun _ => rfl⟩
  | some hes => exact hes.map SpanEq.exprs_iff.2

theorem lockstep_tableArgs (h : inner.InStep P) :
    Lockstep P P.Twins (tableArgs inner) (tableArgs inner) :=
  (lockstep_table h).map fun _ _ hfs => hfs.node.map SpanEq.fields_iff.2

theorem lockstep_strArgs : Lockstep P P.Twins strArgs strArgs :=
  lockstep_str.map fun _ _ hraw => hraw.node.map beq_iff_eq.2

theorem lockstep_args (h : inner.InStep P) : Lockstep P P.Twins (args inner) (args inner) :=
  .located (.alt (.cons (lockstep_listArgs h) (.cons (lockstep_tableArgs h)
    (.cons lockstep_strArgs .nil))))

theorem lockstep_callSuffix (h : inner.InStep P) :
    Lockstep P P.Twins (callSuffix inner) (callSuffix inner) :=
  (lockstep_args h).map fun _ _ hargs => hargs.node.map fun h => h

theorem lockstep_methodSuffix (h : inner.InStep P) :
    Lockstep P P.Twins (methodSuffix inner) (methodSuffix inner) :=
  (lockstep_symbol .colon rfl).bind fun _ _ _ => lockstep_name.bind fun _ _ hn =>
    (lockstep_args h).map fun _ _ hargs => hn.map₂ hargs.node SpanEq.method

theorem lockstep_indexSuffix (h : inner.InStep P) :
    Lockstep P P.Twins (indexSuffix inner) (indexSuffix inner) :=
  (lockstep_symbol .openBracket rfl).bind fun _ _ _ => h.expr.bind fun _ _ he =>
    (lockstep_symbol .closeBracket rfl).bind fun _ _ _ => .pure (he.map fun h => h)

theorem lockstep_fieldSuffix : Lockstep P P.Twins fieldSuffix fieldSuffix :=
  (lockstep_symbol .dot rfl).bind fun _ _ _ => lockstep_name.map fun _ _ hn => hn.map beq_iff_eq.2

theorem lockstep_suffix (h : inner.InStep P) :
    Lockstep P P.Twins (suffix inner) (suffix inner) :=
  .located (.alt (.cons (lockstep_callSuffix h) (.cons (lockstep_methodSuffix h)
    (.cons (lockstep_indexSuffix h) (.cons lockstep_fieldSuffix .nil)))))

/-- Suffixes that are twins, each with corresponding states. -/
def SuffixMarks (P : Pairing) (x y : Located Suffix × State) : Prop :=
  P.Twins x.1 y.1 ∧ P.States x.2 y.2

theorem lockstep_suffixChain (h : inner.InStep P) :
    Lockstep P (List.Forall₂ (SuffixMarks P)) (suffixChain inner) (suffixChain inner) := by
  refine .collect ((lockstep_suffix h).optional.bind fun r r' hr => ?_)
  cases hr with
  | none => exact .pure .none
  | some hs => exact lockstep_mark.map fun _ _ hstate => .some ⟨⟨hs, hstate⟩, rfl⟩

theorem twins_suffixes {ms ms' : List (Located Suffix × State)}
    (h : List.Forall₂ (SuffixMarks P) ms ms') : P.Twins (ms.map (·.1)) (ms'.map (·.1)) := by
  refine .list ?_
  rw [List.forall₂_map_left_iff, List.forall₂_map_right_iff]
  exact h.imp fun _ _ h => h.1

theorem twins_prefixExp {a a' : Located Head} {ms ms' : List (Located Suffix × State)}
    (ha : P.Twins a a') (h : List.Forall₂ (SuffixMarks P) ms ms') :
    P.Twins (PrefixExp.mk a (ms.map (·.1))) ⟨a', ms'.map (·.1)⟩ :=
  ha.map₂ (twins_suffixes h) SpanEq.prefixExp

theorem forall₂_dropWhile {α β : Type} {R : α → β → Prop} {p : α → Bool} {q : β → Bool}
    (hpq : ∀ a b, R a b → p a = q b) {as : List α} {bs : List β} (h : List.Forall₂ R as bs) :
    List.Forall₂ R (as.dropWhile p) (bs.dropWhile q) := by
  induction h with
  | nil => exact .nil
  | cons hab hrest ih =>
    rw [List.dropWhile_cons, List.dropWhile_cons, hpq _ _ hab]
    split
    · exact ih
    · exact .cons hab hrest

theorem Suffix.isIndex_of_same {a b : Suffix} (h : a.same b = true) : a.isIndex = b.isIndex := by
  cases a <;> cases b <;> first | rfl | cases h

theorem SuffixPolicy.allowsLast_of_same (policy : SuffixPolicy) {a b : Suffix}
    (h : a.same b = true) : policy.allowsLast a = policy.allowsLast b := by
  cases policy with
  | unrestricted => rfl
  | callTerminated => exact Suffix.isCall_of_same h
  | indexTerminated => exact Suffix.isIndex_of_same h

theorem keptBy_pairs (policy : SuffixPolicy) {ms ms' : List (Located Suffix × State)}
    (h : List.Forall₂ (SuffixMarks P) ms ms') :
    List.Forall₂ (SuffixMarks P) (keptBy policy ms) (keptBy policy ms') := by
  unfold keptBy keepThroughLast
  rw [List.forall₂_reverse_iff]
  refine forall₂_dropWhile (fun x y hxy => ?_) (List.forall₂_reverse_iff.2 h)
  exact congrArg (!·) (policy.allowsLast_of_same hxy.1.same)

/-- The states to go back to correspond. -/
theorem chainEnd_pairs {s s' : State} (hs : P.States s s') {ms ms' : List (Located Suffix × State)}
    (h : List.Forall₂ (SuffixMarks P) ms ms') : P.States (chainEnd s ms) (chainEnd s' ms') := by
  induction h generalizing s s' with
  | nil => exact hs
  | cons hm _ ih =>
    rw [chainEnd_cons, chainEnd_cons]
    exact ih hm.2

theorem lockstep_prefixExp (h : inner.InStep P) (policy : SuffixPolicy) :
    Lockstep P P.Twins (prefixExp inner policy) (prefixExp inner policy) := by
  refine lockstep_mark.bind fun beforeHead beforeHead' hbefore =>
    lockstep_committed.bind fun repairs _ hrepairs => (lockstep_head h).bind fun a a' ha =>
    lockstep_mark.bind fun afterHead afterHead' hafter =>
    (lockstep_suffixChain h).bind fun ms ms' hms => ?_
  subst hrepairs
  have hkept := keptBy_pairs policy hms
  have hexp := twins_prefixExp ha hkept
  refine (lockstep_reset (chainEnd_pairs hafter hkept)).bind fun _ _ _ => ?_
  change Lockstep P P.Twins
    (if policy = .callTerminated ∧ ((keptBy policy ms).map (·.1)).isEmpty then _ else _)
    (if policy = .callTerminated ∧ ((keptBy policy ms').map (·.1)).isEmpty then _ else _)
  have hempty :
      ((keptBy policy ms').map (·.1)).isEmpty = ((keptBy policy ms).map (·.1)).isEmpty := by
    generalize keptBy policy ms = kept, keptBy policy ms' = kept' at hkept
    cases hkept <;> rfl
  rw [hempty]
  split
  · split
    · refine (lockstep_args h).map fun b b' hargs => ?_
      have hcall : P.Twins (b.map Suffix.call) (b'.map Suffix.call) := hargs.map fun h => h
      exact ha.map₂ (.list (.cons hcall .nil)) SpanEq.prefixExp
    · exact (lockstep_reset hbefore).bind fun _ _ _ => lockstep_stuck _ _
  · exact .pure hexp

/-! ### Operators -/

instance : SpanEq Signed := ⟨fun t u => SpanEq.same t.ops u.ops ∧ SpanEq.same t.operand u.operand⟩

theorem lockstep_accessExpr (h : inner.InStep P) :
    Lockstep P P.Twins (accessExpr inner) (accessExpr inner) :=
  (lockstep_prefixExp h .unrestricted).map fun _ _ hp => hp.map fun h => h

theorem lockstep_tableExpr (h : inner.InStep P) :
    Lockstep P P.Twins (tableExpr inner) (tableExpr inner) :=
  (lockstep_table h).map fun _ _ hfs => hfs.map SpanEq.fields_iff.2

theorem lockstep_literal {t : Token} {e : Expr} (ht : t.hasTwin = false) (he : e.same e = true) :
    Lockstep P P.Twins (literal t e) (literal t e) :=
  (lockstep_token ht).map fun _ _ hspan => hspan.map fun _ => he

theorem lockstep_atom (h : inner.InStep P) : Lockstep P P.Twins (atom inner) (atom inner) :=
  .alt (.cons (lockstep_literal rfl rfl) (.cons (lockstep_literal rfl rfl)
    (.cons (lockstep_literal rfl rfl)
    (.cons (lockstep_number.map fun _ _ hn => hn.map beq_iff_eq.2)
    (.cons (lockstep_str.map fun _ _ hn => hn.map beq_iff_eq.2)
    (.cons (lockstep_literal rfl rfl) (.cons (lockstep_functionExpr h)
    (.cons (lockstep_accessExpr h) (.cons (lockstep_tableExpr h) .nil)))))))))

theorem lockstep_signed (h : inner.InStep P) :
    Lockstep P P.Twins (signed inner) (signed inner) := by
  have hop : Lockstep P P.Twins (oneOf unaryOps) (oneOf unaryOps) :=
    lockstep_oneOf (fun _ => rfl) (blind_lookup rfl rfl rfl rfl)
  refine hop.many.bind fun ops ops' hops => (lockstep_atom h).map fun e e' he => ?_
  exact (Pairing.Twins.list hops).map₂ he fun hops he => ⟨hops, he⟩

/-- Operands after the first one, each with the operator before it. -/
theorem lockstep_operands {β : Type} [SpanEq β] {operand : Rule β} {ops : List (Token × BinOp)}
    (hblind : Token.Blind (List.lookup · ops)) (h : Lockstep P P.Twins operand operand) :
    Lockstep P P.Twins
      (collect do
        match ← optional (oneOf ops) with
        | none => return none
        | some op => return some ((op, ← operand), true))
      (collect do
        match ← optional (oneOf ops) with
        | none => return none
        | some op => return some ((op, ← operand), true)) := by
  have hop : Lockstep P P.Twins (oneOf ops) (oneOf ops) := lockstep_oneOf (fun _ => rfl) hblind
  refine .mono (.collect (hop.optional.bind fun r r' hr => ?_)) fun _ _ => .list
  cases hr with
  | none => exact .pure .none
  | some hop => exact h.map fun e e' he => .some ⟨hop.map₂ he fun hop he => ⟨hop, he⟩, rfl⟩

theorem lockstep_chain {operand : Rule (Located Expr)} {ops : List (Token × BinOp)}
    (hblind : Token.Blind (List.lookup · ops)) (h : Lockstep P P.Twins operand operand) :
    Lockstep P P.Twins (chain operand ops) (chain operand ops) :=
  h.bind fun _ _ hfirst => (lockstep_operands hblind h).map fun _ _ hothers =>
    hfirst.map₂ hothers fun hfirst hothers => ⟨hfirst, hothers⟩

theorem groupLeft_same {first first' : Located Expr}
    {others others' : List (Located BinOp × Located Expr)} (hfirst : SpanEq.same first first')
    (hothers : SpanEq.same others others') :
    SpanEq.same (groupLeft (first, others)) (groupLeft (first', others')) := by
  induction hothers generalizing first first' with
  | nil => exact hfirst
  | cons h _ ih => exact ih (SpanEq.binary h.1 hfirst h.2)

theorem groupRight_same {first first' : Located Expr}
    {others others' : List (Located BinOp × Located Expr)} (hfirst : SpanEq.same first first')
    (hothers : SpanEq.same others others') :
    SpanEq.same (groupRight first others) (groupRight first' others') := by
  induction hothers generalizing first first' with
  | nil => exact hfirst
  | cons h _ ih => exact SpanEq.binary h.1 hfirst (ih h.2)

theorem apply_same {t t' : Signed} {e e' : Located Expr} (ht : SpanEq.same t t')
    (he : SpanEq.same e e') : SpanEq.same (t.apply e) (t'.apply e') := by
  obtain ⟨ops, operand⟩ := t
  obtain ⟨ops', operand'⟩ := t'
  have hops : SpanEq.same ops ops' := ht.1
  unfold Signed.apply
  clear ht
  induction hops with
  | nil => exact he
  | cons hop _ ih => exact SpanEq.unary hop ih

theorem groupPower_same {first first' : Signed} {others others' : List (Located BinOp × Signed)}
    (hfirst : SpanEq.same first first') (hothers : SpanEq.same others others') :
    SpanEq.same (groupPower first others) (groupPower first' others') := by
  induction hothers generalizing first first' with
  | nil => exact apply_same hfirst hfirst.2
  | cons h _ ih => exact apply_same hfirst (SpanEq.binary h.1 hfirst.2 (ih h.2))

theorem lockstep_unaryExpr (h : inner.InStep P) :
    Lockstep P P.Twins (unaryExpr inner) (unaryExpr inner) := by
  rw [unaryExpr_eq]
  exact (lockstep_signed h).bind fun _ _ hfirst =>
    (lockstep_operands (blind_lookup rfl rfl rfl rfl) (lockstep_signed h)).map fun _ _ hothers =>
    hfirst.map₂ hothers groupPower_same

theorem lockstep_leftGrouped {operand : Rule (Located Expr)} {ops : List (Token × BinOp)}
    (hblind : Token.Blind (List.lookup · ops)) (h : Lockstep P P.Twins operand operand) :
    Lockstep P P.Twins (leftGrouped operand ops) (leftGrouped operand ops) :=
  (lockstep_chain hblind h).map fun _ _ hchain =>
    hchain.map fun hsame => groupLeft_same hsame.1 hsame.2

theorem lockstep_mulExpr (h : inner.InStep P) :
    Lockstep P P.Twins (mulExpr inner) (mulExpr inner) :=
  lockstep_leftGrouped (blind_lookup rfl rfl rfl rfl) (lockstep_unaryExpr h)

theorem lockstep_addExpr (h : inner.InStep P) :
    Lockstep P P.Twins (addExpr inner) (addExpr inner) :=
  lockstep_leftGrouped (blind_lookup rfl rfl rfl rfl) (lockstep_mulExpr h)

theorem lockstep_concatExpr (h : inner.InStep P) :
    Lockstep P P.Twins (concatExpr inner) (concatExpr inner) := by
  rw [concatExpr_eq]
  exact (lockstep_chain (blind_lookup rfl rfl rfl rfl) (lockstep_addExpr h)).map fun _ _ hchain =>
    hchain.map (f := fun chain => groupRight chain.1 chain.2) fun hsame =>
      groupRight_same hsame.1 hsame.2

theorem lockstep_compareExpr (h : inner.InStep P) :
    Lockstep P P.Twins (compareExpr inner) (compareExpr inner) :=
  lockstep_leftGrouped (blind_lookup rfl rfl rfl rfl) (lockstep_concatExpr h)

theorem lockstep_andExpr (h : inner.InStep P) :
    Lockstep P P.Twins (andExpr inner) (andExpr inner) :=
  lockstep_leftGrouped (blind_lookup rfl rfl rfl rfl) (lockstep_compareExpr h)

theorem lockstep_orExpr (h : inner.InStep P) :
    Lockstep P P.Twins (orExpr inner) (orExpr inner) :=
  lockstep_leftGrouped (blind_lookup rfl rfl rfl rfl) (lockstep_andExpr h)

end LuaSyntax.Grammar
