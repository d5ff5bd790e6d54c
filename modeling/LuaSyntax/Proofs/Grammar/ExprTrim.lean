import LuaSyntax.Proofs.Grammar.Trim
/-!
# Trimmed expressions

One lemma for each rule: over a level that trims another one, it trims what the same rule reads over
that other level.
-/

namespace LuaSyntax

namespace Language

theorem not_mem_of_names {separator : Symbol} {ts : List Token} {ns : List (Located Name)}
    (h : Listed separator IsName ts ns) (hseparator : separator ≠ .closeParen) :
    .symbol .closeParen ∉ ts := by
  induction h with
  | one h =>
    cases h
    simp
  | more h _ ih =>
    cases h
    simpa [hseparator.symm] using ih

/-- No parenthesis is closed before the parameters end. -/
theorem not_mem_of_params {ts : List Token} {ns : List (Located Name)} {vararg : Option Span}
    (h : Params ts ns vararg) : .symbol .closeParen ∉ ts := by
  cases h with
  | none => simp
  | names h => exact not_mem_of_names h nofun
  | vararg span => simp
  | namesVararg h span => simpa using not_mem_of_names h nofun

end Language

namespace Grammar

open Rule Operator

variable {α : Type} {stream : TokenStream} {limit room : Nat} {inner inner' : Level} {i j k : Nat}

/-- One or more expressions, each on a level of its own. -/
structure FittedExprs (stream : TokenStream) (limit room : Nat)
    (rule' : Rule (List (Located Expr))) (i : Nat) (es : List (Located Expr)) (j : Nat) : Prop where
  moves : i < j
  ends : stream.EndsAt j (es.map (·.span))
  cuts : ∀ bracketed, (bracketed = true → LevelEnds (stream.word j)) →
    Cuts stream limit rule' i (replacedInExprs room bracketed es) (truncateExprs room es) j

theorem FittedExprs.ne_nil {rule' : Rule (List (Located Expr))} {es : List (Located Expr)}
    (h : FittedExprs stream limit room rule' i es j) : es ≠ [] := by
  rintro rfl
  obtain ⟨_, -, hmem⟩ := h.ends.last
  cases hmem

/-- No token up to the cursor closes a parenthesis. -/
def Open (stream : TokenStream) (i j : Nat) : Prop :=
  ∀ t ∈ stream.slice i j, t.node ≠ .symbol .closeParen

theorem open_of_not_mem (h : .symbol .closeParen ∉ (stream.slice i j).map (·.node)) :
    Open stream i j := by
  rintro t ht hclose
  exact h (List.mem_map.2 ⟨t, ht, hclose⟩)

theorem Open.trans (h : Open stream i j) (h' : Open stream j k) (hij : i ≤ j) (hjk : j ≤ k)
    (hk : k ≤ stream.size) : Open stream i k := by
  intro t ht
  rw [← TokenStream.slice_append hij hjk hk] at ht
  exact (List.mem_append.1 ht).elim (h t) (h' t)

theorem open_token {w : Token} {span : Span} (hget : stream.get? i = some ⟨w, span⟩)
    (hw : w ≠ .symbol .closeParen) : Open stream i (i + 1) := by
  intro t ht
  obtain ⟨k, hik, hki, hk⟩ := TokenStream.mem_slice.1 ht
  obtain rfl : k = i := by omega
  cases hk.symm.trans hget
  exact hw

/-- Operands up to cursor `j`, each after an operator. -/
inductive Chained (stream : TokenStream) {β : Type} (Q : Nat → β → Nat → Prop) :
    Nat → List (Located BinOp × β) → Nat → Prop
  | nil (i : Nat) : Chained stream Q i [] i
  | cons {i k j : Nat} {op : Located BinOp} {a : β} {others : List (Located BinOp × β)}
      (moves : i + 1 < k) (h : Q (i + 1) a k) (rest : Chained stream Q k others j) :
      Chained stream Q i ((op, a) :: others) j

theorem Chained.le {β : Type} {Q : Nat → β → Nat → Prop} {others : List (Located BinOp × β)}
    (h : Chained stream Q i others j) : i ≤ j := by
  induction h with
  | nil => exact Nat.le_refl _
  | cons _ _ _ ih => omega

/-- The operand is read up to cursor `j`, after its unary operators, which start at cursor `i`. So
they are in front of whatever the operand becomes the beginning of. -/
def Prefixed (stream : TokenStream) (i : Nat) (t : Signed) (j : Nat) : Prop :=
  ∃ k, k < j ∧ t.operand.span = stream.spanBetween k j ∧
    ∀ e m, k < m → m ≤ stream.size → e.span = stream.spanBetween k m →
      (t.apply e).span = stream.spanBetween i m

namespace Level.Trims

variable (h : inner.Trims stream limit room inner')

include h

/-! ### Lists -/

theorem nextExpr : Cleanly stream (do let _ ← symbol .comma; inner.expr) fun i e j =>
    (∃ span, stream.get? i = some ⟨.symbol .comma, span⟩) ∧
      FittedExpr stream limit room inner'.expr (i + 1) e j :=
  .token_bind fun span => h.expr.mono fun _ _ _ he _ hi hcomma => ⟨⟨span, hcomma⟩, hi ▸ he⟩

theorem exprList : Cleanly stream (exprList inner)
    (FittedExprs stream limit room (Grammar.exprList inner')) := by
  have hstuck : ∀ i, Balked stream (do let _ ← symbol .comma; inner.expr) i →
      Refuses (do let _ ← symbol .comma; inner'.expr) (stream.words i) :=
    fun i => h.refuses ((Scheme.symbol .comma).bind fun _ => Scheme.expr)
  have hcuts (bracketed : Bool) := Cleanly.many_cuts
    (F := fun k => bracketed = true → LevelEnds (stream.word k))
    (h.nextExpr.mono fun i e k ⟨⟨_, hget⟩, he⟩ => ⟨Nat.lt_of_succ_lt he.moves, fun hk =>
      ⟨fun _ => levelEnds_of_get? hget rfl, .token_bind hget (he.cuts bracketed hk)⟩⟩) hstuck
  have hspans := h.nextExpr.many fun _ _ _ he => Nat.lt_of_succ_lt he.2.moves
  refine h.expr.bind fun first => ((Cleanly.all hcuts).and hspans).bounds.bind fun others =>
    .pure ?_
  rintro j hj k hkj ⟨-, -, hothers, hseries⟩ i hik hfirst
  refine ⟨Nat.lt_of_lt_of_le hfirst.moves hkj, ?_, fun bracketed hends => ?_⟩
  · have hall : ∀ spans, stream.EndsAt k spans →
        stream.EndsAt j (spans ++ others.map (·.span)) := by
      clear hfirst hkj hik hothers
      induction hseries with
      | nil _ => simp
      | cons he _ ih =>
        intro spans hspans
        have hnext := hspans.append (Nat.le_succ _) he.2.moves
        rw [← he.2.span] at hnext
        simpa using ih hj _ hnext
    have hone : stream.EndsAt k [stream.spanBetween i k] := .singleton hfirst.moves
    rw [← hfirst.span] at hone
    exact hall _ hone
  · obtain ⟨hk, hrest⟩ := hothers bracketed hends
    rw [← replacedInExprs_eq_flatMap, ← truncateExprs_eq_map] at hrest
    rw [replacedInExprs, truncateExprs]
    exact (hfirst.cuts bracketed hk).bind (hrest.bind_pure _)

omit h in
/-- There is no expression where a level ends. -/
theorem refusesExprs (hcomplete : ∃ L, inner'.Complete L) (hends : LevelEnds (stream.word i)) :
    Refuses (Grammar.exprList inner') (stream.words i) := by
  obtain ⟨L, hcomplete⟩ := hcomplete
  refine needs_exprList hcomplete _ ?_
  rw [TokenStream.head?_words]
  exact hends.without

/-! ### Functions -/

theorem params : Cleanly stream params fun i ps j =>
    Open stream i j ∧ ∀ limit, Determined stream limit Grammar.params i ps j [] := by
  obtain ⟨law, L, hsound⟩ := h.sound
  exact ((always_params hsound).cleanly.mono fun _ _ _ hps =>
    open_of_not_mem (Language.not_mem_of_params hps.1)).and (.again repeats_params)

/-- The parameters end at the first parenthesis that is closed. -/
theorem funcBody : Cleanly stream (funcBody inner) fun i f j => ∀ a, a ≤ i → Open stream a i →
    Cuts stream limit (Grammar.funcBody inner') i
      (f.replaced room (stream.spanBetween a j)) (f.truncate room) j := by
  refine .token_bind fun _ => h.params.bind fun ps => .token_bind fun _ =>
    h.block.bind fun body => .token_bind fun _ => .pure ?_
  rintro _ hj m rfl hend _ hm hbody k rfl hclose _ hk ⟨hopen, hps⟩ i rfl hparen a hai hfront
  have hfront' : Open stream a k :=
    (hfront.trans (open_token hparen nofun) hai (Nat.le_succ _) (by omega)).trans hopen
      (by omega) hk (by omega)
  have hrest := h.apart.rest_params (by omega) (show k < m + 1 by omega) hj hfront'
    (TokenStream.word_of_get? hclose)
  have hcuts := (hbody (blockEnds_of_get? hend rfl)).cuts _ _ (Nat.le_succ m) hj hrest
  rw [FuncBody.replaced, FuncBody.truncate]
  exact .token_bind hparen (.after (hps limit) (.token_bind hclose (hcuts.before_token hend _)))

theorem functionExpr : Cleanly stream (functionExpr inner)
    (TrimmedExpr stream limit room (Grammar.functionExpr inner')) := by
  refine h.located (fun span e => e.replaced room span) (·.truncate room) scheme_functionExpr ?_
  refine .token_bind fun _ => h.funcBody.bind fun body => .pure ?_
  rintro j _ _ _ hbody i rfl hfunction
  have hcuts := hbody i (Nat.le_succ i) (open_token hfunction nofun)
  rw [Expr.replaced, Expr.truncate]
  exact .token_bind hfunction (hcuts.bind_pure _)

/-! ### Tables -/

theorem keyedField : Cleanly stream (keyedField inner) fun i f j => LevelEnds (stream.word j) →
    Cuts stream limit (Grammar.keyedField inner') i (f.replaced room) (f.truncate room) j := by
  refine .token_bind fun _ => h.expr.bind fun key => .token_bind fun _ => .token_bind fun _ =>
    h.expr.bind fun value => .pure ?_
  rintro j _ _ _ hvalue _ rfl hequal _ rfl hclose _ _ hkey i rfl hopen hends
  have hkey := hkey.cuts true fun _ => levelEnds_of_get? hclose rfl
  have hvalue := hvalue.cuts true fun _ => hends
  rw [Field.replaced, Field.truncate]
  exact .token_bind hopen (hkey.bind (.token_bind hclose (.token_bind hequal
    (hvalue.bind_pure _))))

omit h in
theorem fieldName : Cleanly stream fieldName fun i n j =>
    ∀ limit, Determined stream limit Grammar.fieldName i n j [] :=
  .again (reopens_fieldName (repeats_nested 0 0)).toRepeats

theorem namedField : Cleanly stream (namedField inner) fun i f j => LevelEnds (stream.word j) →
    Cuts stream limit (Grammar.namedField inner') i (f.replaced room) (f.truncate room) j := by
  refine fieldName.bind fun n => h.expr.bind fun value => .pure ?_
  rintro j _ _ _ hvalue i _ hname hends
  rw [Field.replaced, Field.truncate]
  exact .after (hname limit) ((hvalue.cuts true fun _ => hends).bind_pure _)

theorem positionalField : Cleanly stream (positionalField inner) fun i f j =>
    LevelEnds (stream.word j) →
    Cuts stream limit (Grammar.positionalField inner') i (f.replaced room) (f.truncate room) j := by
  refine h.expr.bind fun value => .pure ?_
  rintro j _ i _ hvalue hends
  rw [Field.replaced, Field.truncate]
  exact (hvalue.cuts true fun _ => hends).bind_pure _

theorem field : Cleanly stream (field inner) fun i f j => i < j ∧ (LevelEnds (stream.word j) →
    Cuts stream limit (Grammar.field inner') i (f.node.replaced room)
      ⟨f.node.truncate room, f.span⟩ j) := by
  have hchoice : Cleanly stream (Rule.alt [Grammar.keyedField inner, Grammar.namedField inner,
      Grammar.positionalField inner]) fun i f j => LevelEnds (stream.word j) →
      Cuts stream limit (Rule.alt [Grammar.keyedField inner', Grammar.namedField inner',
        Grammar.positionalField inner']) i (f.replaced room) (f.truncate room) j := by
    refine h.alt (P := fun rule i f j => LevelEnds (stream.word j) →
        Cuts stream limit rule i (f.replaced room) (f.truncate room) j)
      (fun hf hbefore hends => (hf hends).alt hbefore) [Grammar.keyedField, Grammar.namedField]
      Grammar.positionalField ?_ scheme_positionalField ?_
    · exact List.forall_mem_cons.2 ⟨scheme_keyedField, List.forall_mem_singleton.2
        scheme_namedField⟩
    · exact List.forall_mem_cons.2 ⟨h.keyedField, List.forall_mem_cons.2 ⟨h.namedField,
        List.forall_mem_singleton.2 h.positionalField⟩⟩
  exact (h.moves scheme_field nofun).and
    (.located (hchoice.mono fun _ _ _ hf hends => (hf hends).located))

omit h in
theorem fieldSeparator : Cleanly stream fieldSeparator fun i a j => j = i + 1 ∧
    LevelEnds (stream.word i) ∧
      ∀ limit, Determined stream limit Grammar.fieldSeparator i a j [] := by
  have hagain : Cleanly stream Grammar.fieldSeparator fun i a j =>
      ∀ limit, Determined stream limit Grammar.fieldSeparator i a j [] :=
    .again reopens_fieldSeparator.toRepeats
  refine ((cleanly_satisfy _).and hagain).mono ?_
  rintro i a j ⟨⟨rfl, u, hget, accepted⟩, hdetermined⟩
  refine ⟨rfl, levelEnds_of_get? hget ?_, hdetermined⟩
  obtain ⟨before, after, hsplit, -⟩ := List.lookup_eq_some_iff.1 accepted
  have hmem : (u, a.node) ∈ [(Token.symbol .comma, ()), (Token.symbol .semicolon, ())] := by
    rw [hsplit]
    simp
  simp only [List.mem_cons, Prod.mk.injEq, List.not_mem_nil, or_false] at hmem
  rcases hmem with ⟨rfl, -⟩ | ⟨rfl, -⟩ <;> rfl

theorem fieldRound : Cleanly stream (fieldRound inner)
    (CutsRound stream limit (Grammar.fieldRound inner') (fun j => LevelEnds (stream.word j))
      (·.node.replaced room) fun f => ⟨f.node.truncate room, f.span⟩) := by
  obtain ⟨L, hcomplete⟩ := h.complete
  refine h.field.optional_bind (fun f => ?_) (.pure fun i _ _ hends => ?_)
  · refine fieldSeparator.optional_bind (fun separator => .pure ?_) (.pure ?_)
    · rintro _ _ k _ ⟨rfl, hends, hseparator⟩ i _ ⟨hlt, hf⟩
      refine ⟨Nat.lt_succ_of_lt hlt, (hf hends).optional.before ?_⟩
      exact (hseparator limit).optional.bind_pure _
    · rintro k _ hnone i _ ⟨_, hf⟩ hends
      have hrefuses := h.refuses scheme_fieldSeparator hnone
      exact (hf hends).optional.before (hrefuses.determined.bind_pure _)
  · have hrefuses := needs_field hcomplete (stream.words i)
      (by rw [TokenStream.head?_words]; exact hends.without)
    exact .after hrefuses.determined (.pure _ _)

theorem table : Cleanly stream (table inner) fun i t j =>
    Trimmed stream limit (Grammar.table inner') (replacedInFields room t.node)
      (truncateFields room t.node) i t j := by
  refine h.located (fun _ fs => replacedInFields room fs) (truncateFields room) scheme_table ?_
  refine .token_bind fun _ => h.fieldRound.collect_cuts.bind fun fs => .token_bind fun _ => .pure ?_
  rintro _ _ k rfl hclose _ _ hfs i rfl hopen
  have hcuts := hfs (levelEnds_of_get? hclose rfl)
  rw [← replacedInFields_eq_flatMap, ← truncateFields_eq_map] at hcuts
  exact .token_bind hopen (hcuts.before_token hclose _)

/-! ### Names, calls and indexes -/

/-- A token that is read spans just itself. -/
theorem satisfied {β : Type} (m : Matcher β) : Cleanly stream (satisfy m) fun i a j =>
    i < j ∧ a.span = stream.spanBetween i j ∧
      ∀ limit, Determined stream limit (satisfy m) i a j [] := by
  have hagain : Cleanly stream (satisfy m) fun i a j =>
      ∀ limit, Determined stream limit (satisfy m) i a j [] :=
    .again (reopens_satisfy m).toRepeats
  refine ((cleanly_satisfy m).and hagain).mono ?_
  rintro i a j ⟨⟨rfl, u, hget, -⟩, hdetermined⟩
  exact ⟨Nat.lt_succ_self i, (h.apart.spanBetween_succ hget).symm, hdetermined⟩

theorem nameHead : Cleanly stream nameHead fun i a j =>
    Trimmed stream limit Grammar.nameHead (a.node.replaced room) (a.node.truncate room) i a j := by
  refine (h.satisfied .name).bind fun n => .pure fun j _ i _ ⟨hlt, hspan, hname⟩ => ?_
  refine ⟨hlt, hspan, ?_⟩
  have hhead : Determined stream limit Grammar.nameHead i (n.map .name) j [] :=
    (hname limit).bind_pure _
  simp only [Located.map, Head.replaced, Head.truncate] at hhead ⊢
  exact hhead.cuts

theorem parenHead : Cleanly stream (parenHead inner) fun i a j =>
    Trimmed stream limit (Grammar.parenHead inner') (a.node.replaced room) (a.node.truncate room)
      i a j := by
  refine h.located (fun _ a => a.replaced room) (·.truncate room) scheme_parenHead ?_
  refine .token_bind fun _ => h.expr.bind fun e => .token_bind fun _ => .pure ?_
  rintro _ _ k rfl hclose _ _ he i rfl hopen
  have hcuts := he.cuts true fun _ => levelEnds_of_get? hclose rfl
  rw [Head.replaced, Head.truncate]
  exact .token_bind hopen (hcuts.before_token hclose _)

theorem head : Cleanly stream (head inner) fun i a j =>
    Trimmed stream limit (Grammar.head inner') (a.node.replaced room) (a.node.truncate room)
      i a j := by
  refine h.alt (P := fun rule i a j =>
      Trimmed stream limit rule (a.node.replaced room) (a.node.truncate room) i a j)
    (fun ha hbefore => ha.alt hbefore) [fun _ => Grammar.nameHead] Grammar.parenHead ?_
    scheme_parenHead.asInner ?_
  · simp only [List.forall_mem_cons]
    exact ⟨scheme_nameHead, List.forall_mem_nil _⟩
  · simp only [List.cons_append, List.nil_append, List.forall_mem_cons]
    exact ⟨h.nameHead, h.parenHead, List.forall_mem_nil _⟩

theorem listArgs : Cleanly stream (listArgs inner) fun i a j =>
    Cuts stream limit (Grammar.listArgs inner') i (a.replaced room) (a.truncate room) j := by
  refine .token_bind fun _ => h.exprList.optional_bind (fun es => .token_bind fun _ => .pure ?_)
    (.token_bind fun _ => .pure ?_)
  · rintro _ _ k rfl hclose _ _ hes i rfl hopen
    have hcuts := hes.cuts true fun _ => levelEnds_of_get? hclose rfl
    rw [Args.replaced, Args.truncate]
    exact .token_bind hopen (hcuts.optional.before_token hclose fun es => Args.list (es.getD []))
  · rintro _ _ k rfl hclose _ i rfl hopen
    have hrefuses := refusesExprs h.complete (levelEnds_of_get? hclose rfl)
    have hnone : Cuts stream limit (Rule.optional (Grammar.exprList inner')) (i + 1) [] none
      (i + 1) := hrefuses.determined.cuts
    simp only [Option.getD_none, Args.replaced, Args.truncate, replacedInExprs, truncateExprs]
    exact .token_bind hopen (hnone.before_token hclose fun es => Args.list (es.getD []))

theorem tableArgs : Cleanly stream (tableArgs inner) fun i a j =>
    Cuts stream limit (Grammar.tableArgs inner') i (a.replaced room) (a.truncate room) j := by
  refine h.table.bind fun fs => .pure fun j _ i _ hfs => ?_
  rw [Args.replaced, Args.truncate]
  exact hfs.cuts.bind_pure fun fs => Args.table fs.node

theorem strArgs : Cleanly stream strArgs fun i a j =>
    Cuts stream limit Grammar.strArgs i (a.replaced room) (a.truncate room) j := by
  refine (h.satisfied .str).bind fun raw => .pure fun j _ i _ hraw => ?_
  rw [Args.replaced, Args.truncate]
  exact ((hraw.2.2 limit).bind_pure fun raw => Args.str raw.node).cuts

theorem args : Cleanly stream (args inner) fun i a j =>
    Trimmed stream limit (Grammar.args inner') (a.node.replaced room) (a.node.truncate room)
      i a j := by
  refine h.located (fun _ a => a.replaced room) (·.truncate room) scheme_args ?_
  refine h.alt (P := fun rule i a j =>
      Cuts stream limit rule i (a.replaced room) (a.truncate room) j)
    (fun ha hbefore => ha.alt hbefore) [Grammar.listArgs, Grammar.tableArgs]
    (fun _ => Grammar.strArgs) ?_ scheme_strArgs.asInner ?_
  · simp only [List.forall_mem_cons]
    exact ⟨scheme_listArgs, scheme_tableArgs, List.forall_mem_nil _⟩
  · simp only [List.cons_append, List.nil_append, List.forall_mem_cons]
    exact ⟨h.listArgs, h.tableArgs, h.strArgs, List.forall_mem_nil _⟩

theorem callSuffix : Cleanly stream (callSuffix inner) fun i s j =>
    Cuts stream limit (Grammar.callSuffix inner') i (s.replaced room) (s.truncate room) j := by
  refine h.args.bind fun a => .pure fun j _ i _ ha => ?_
  rw [Suffix.replaced, Suffix.truncate]
  exact ha.cuts.bind_pure fun a => Suffix.call a.node

theorem methodSuffix : Cleanly stream (methodSuffix inner) fun i s j =>
    Cuts stream limit (Grammar.methodSuffix inner') i (s.replaced room) (s.truncate room) j := by
  refine .token_bind fun _ => (h.satisfied .name).bind fun n => h.args.bind fun a => .pure ?_
  rintro j _ _ _ ha _ _ ⟨-, -, hname⟩ i rfl hcolon
  rw [Suffix.replaced, Suffix.truncate]
  have hargs := ha.cuts.bind_pure fun a => Suffix.method n a.node
  exact .token_bind hcolon (.after (hname limit) hargs)

theorem indexSuffix : Cleanly stream (indexSuffix inner) fun i s j =>
    Cuts stream limit (Grammar.indexSuffix inner') i (s.replaced room) (s.truncate room) j := by
  refine .token_bind fun _ => h.expr.bind fun e => .token_bind fun _ => .pure ?_
  rintro _ _ k rfl hclose _ _ he i rfl hopen
  have hcuts := he.cuts true fun _ => levelEnds_of_get? hclose rfl
  rw [Suffix.replaced, Suffix.truncate]
  exact .token_bind hopen (hcuts.before_token hclose _)

theorem fieldSuffix : Cleanly stream fieldSuffix fun i s j =>
    Cuts stream limit Grammar.fieldSuffix i (s.replaced room) (s.truncate room) j := by
  refine .token_bind fun _ => (h.satisfied .name).bind fun n => .pure ?_
  rintro j _ _ _ ⟨-, -, hname⟩ i rfl hdot
  rw [Suffix.replaced, Suffix.truncate]
  exact .token_bind hdot ((hname limit).bind_pure Suffix.field).cuts

theorem suffix : Cleanly stream (suffix inner) fun i s j =>
    Trimmed stream limit (Grammar.suffix inner') (s.node.replaced room) (s.node.truncate room)
      i s j := by
  refine h.located (fun _ s => s.replaced room) (·.truncate room) scheme_suffix ?_
  refine h.alt (P := fun rule i s j =>
      Cuts stream limit rule i (s.replaced room) (s.truncate room) j)
    (fun hs hbefore => hs.alt hbefore)
    [Grammar.callSuffix, Grammar.methodSuffix, Grammar.indexSuffix]
    (fun _ => Grammar.fieldSuffix) ?_ scheme_fieldSuffix.asInner ?_
  · simp only [List.forall_mem_cons]
    exact ⟨scheme_callSuffix, scheme_methodSuffix, scheme_indexSuffix, List.forall_mem_nil _⟩
  · simp only [List.cons_append, List.nil_append, List.forall_mem_cons]
    exact ⟨h.callSuffix, h.methodSuffix, h.indexSuffix, h.fieldSuffix, List.forall_mem_nil _⟩

/-- All the suffixes, and where the last one ends. -/
theorem suffixes : Cleanly stream (many (Grammar.suffix inner)) fun i ss j =>
    (∀ (head : Located Head) (k : Nat), k < i → head.span = stream.spanBetween k i →
      PrefixExp.span ⟨head, ss⟩ = stream.spanBetween k j) ∧
    Cuts stream limit (many (Grammar.suffix inner')) i (replacedInSuffixes room ss)
      (truncateSuffixes room ss) j := by
  have hspans := h.suffix.bounds.many fun i _ j hs => hs.2.2.moves
  have hcuts := Cleanly.many_cuts (F := fun _ => True)
    (h.suffix.mono fun i s k hs => ⟨hs.moves, fun hk => ⟨hk, hs.cuts⟩⟩)
    fun i => h.refuses scheme_suffix
  refine (hspans.and hcuts).mono ?_
  rintro i ss j ⟨hseries, hall⟩
  refine ⟨?_, ?_⟩
  · have hlast : (ss = [] ∧ i = j) ∨ ∃ last m, ss.getLast? = some last ∧ i ≤ m ∧ m < j ∧
        j ≤ stream.size ∧ last.span = stream.spanBetween m j := by
      clear hall
      induction hseries with
      | nil _ => exact .inl ⟨rfl, rfl⟩
      | @cons i k j s ss hs _ ih =>
        obtain ⟨hle, hsize, hs⟩ := hs
        rcases ih with ⟨rfl, rfl⟩ | ⟨last, m, hlast, hkm, hm⟩
        · exact .inr ⟨s, i, rfl, Nat.le_refl i, hs.moves, hsize, hs.span⟩
        · refine .inr ⟨last, m, ?_, Nat.le_trans hle hkm, hm⟩
          rw [List.getLast?_cons, hlast]
          rfl
    intro head k hki hhead
    rcases hlast with ⟨rfl, rfl⟩ | ⟨last, m, hlast, him, hmj, hj, hspan⟩
    · exact hhead
    · simp only [PrefixExp.span, hlast]
      rw [hhead, hspan, h.apart.spanBetween_join hki him hmj hj]
  · rw [replacedInSuffixes_eq_flatMap, truncateSuffixes_eq_map]
    exact (hall trivial).2

theorem prefixExp : Cleanly stream (prefixExp inner .unrestricted) fun i p j =>
    i < j ∧ p.span = stream.spanBetween i j ∧
      Cuts stream limit (Grammar.prefixExp inner' .unrestricted) i (p.replaced room)
        (p.truncate room) j := by
  obtain ⟨law, L, hsound⟩ := h.sound
  obtain ⟨law', L', hsound'⟩ := h.sound'
  refine .congr ?_ fun _ _ hs => prefixExp_unrestricted hsound hs
  refine h.head.bind fun a => h.suffixes.bounds.bind fun ss => .pure ?_
  rintro j _ k _ ⟨hkj, -, hspan, hss⟩ i _ ha
  refine ⟨Nat.lt_of_lt_of_le ha.moves hkj, hspan a i ha.moves ha.span, ?_⟩
  rw [PrefixExp.replaced, PrefixExp.truncate]
  exact (ha.cuts.bind (hss.bind_pure _)).congr fun _ _ => prefixExp_unrestricted hsound'

/-! ### Atoms -/

theorem literal {t : Token} {e : Expr} (hreplaced : ∀ span, e.replaced room span = [])
    (htruncate : e.truncate room = e) :
    Cleanly stream (literal t e) (TrimmedExpr stream limit room (Grammar.literal t e)) := by
  refine .token_bind fun span => .pure ?_
  rintro _ _ i rfl hget
  refine ⟨Nat.lt_succ_self i, (h.apart.spanBetween_succ hget).symm, ?_⟩
  rw [replacedIn, hreplaced, htruncate]
  exact ((Determined.token hget).bind_pure _).cuts

theorem raw {m : Matcher String} {f : String → Expr}
    (hreplaced : ∀ raw span, (f raw).replaced room span = [])
    (htruncate : ∀ raw, (f raw).truncate room = f raw) :
    Cleanly stream ((·.map f) <$> satisfy m)
      (TrimmedExpr stream limit room ((·.map f) <$> satisfy m)) := by
  refine .map ((h.satisfied m).mono fun i a j ⟨hlt, hspan, ha⟩ => ⟨hlt, hspan, ?_⟩)
  simp only [replacedIn, Located.map, hreplaced, htruncate]
  exact ((ha limit).map _).cuts

theorem accessExpr : Cleanly stream (accessExpr inner)
    (TrimmedExpr stream limit room (Grammar.accessExpr inner')) := by
  refine h.prefixExp.bind fun p => .pure fun j _ i _ ⟨hlt, hspan, hp⟩ => ⟨hlt, hspan, ?_⟩
  have hcuts := hp.bind_pure Expr.ofAccess
  simp only [Expr.ofAccess, span_truncate] at hcuts
  simp only [replacedIn, Expr.ofAccess, Expr.replaced, Expr.truncate]
  exact hcuts

theorem tableExpr : Cleanly stream (tableExpr inner)
    (TrimmedExpr stream limit room (Grammar.tableExpr inner')) := by
  refine h.table.bind fun fs => .pure fun j _ i _ hfs => ⟨hfs.moves, hfs.span, ?_⟩
  simp only [replacedIn, Located.map, Expr.replaced, Expr.truncate]
  exact hfs.cuts.bind_pure (·.map Expr.table)

theorem atom : Cleanly stream (atom inner)
    (TrimmedExpr stream limit room (Grammar.atom inner')) := by
  have hatoms : ∀ rule ∈ atoms,
      Cleanly stream (rule inner) (TrimmedExpr stream limit room (rule inner')) := by
    simp only [atoms, List.forall_mem_cons]
    exact ⟨h.literal (by simp [Expr.replaced]) (by simp [Expr.truncate]),
      h.literal (by simp [Expr.replaced]) (by simp [Expr.truncate]),
      h.literal (by simp [Expr.replaced]) (by simp [Expr.truncate]),
      h.raw (by simp [Expr.replaced]) (by simp [Expr.truncate]),
      h.raw (by simp [Expr.replaced]) (by simp [Expr.truncate]),
      h.literal (by simp [Expr.replaced]) (by simp [Expr.truncate]),
      h.functionExpr, h.accessExpr, h.tableExpr, List.forall_mem_nil _⟩
  exact h.alt (P := TrimmedExpr stream limit room) (fun he hbefore => he.alt hbefore)
    atoms.dropLast Grammar.tableExpr
    (fun rule hrule => scheme_of_mem_atoms rule (List.dropLast_subset _ hrule))
    scheme_tableExpr.asInner hatoms

/-! ### Operators -/

theorem operator {ops : List (Token × α)} (hne : ops ≠ []) :
    Cleanly stream (oneOf ops) fun i op j => j = i + 1 ∧ op.span = stream.spanBetween i j ∧
      ∀ limit, Determined stream limit (oneOf ops) i op j [] := by
  cases ops with
  | nil => exact absurd rfl hne
  | cons op ops =>
    have hread := h.satisfied (.oneOf op.1 op.2 ops)
    refine ((cleanly_satisfy (.oneOf op.1 op.2 ops)).and hread).mono ?_
    rintro i a j ⟨⟨rfl, -⟩, -, hspan, hdetermined⟩
    exact ⟨rfl, hspan, hdetermined⟩

/-- A round of a chain: an operator and an operand after it, or neither. -/
theorem operandRound {β : Type} {operand : Rule β} {ops : List (Token × BinOp)}
    {Q : Nat → β → Nat → Prop} (hne : ops ≠ []) (hoperand : Cleanly stream operand Q) :
    Cleanly stream (operandRound ops operand) fun i r j =>
      r.elim (j = i ∧ Refuses (oneOf ops) (stream.words i)) fun round => round.2 = true ∧
        Q (i + 1) round.1.2 j ∧
        ∀ limit, Determined stream limit (oneOf ops) i round.1.1 (i + 1) [] := by
  refine (h.operator hne).optional_bind (fun op => hoperand.bind fun a => .pure ?_) (.pure ?_)
  · rintro j _ _ _ ha i _ ⟨rfl, -, hop⟩
    exact ⟨rfl, ha, hop⟩
  · intro i _ hnone
    exact ⟨rfl, h.refuses (Scheme.oneOf hne) hnone⟩

/-- The operands of a chain, each on the same level as the chain. -/
theorem operands {β : Type} {operand operand' : Rule β} {ops : List (Token × BinOp)}
    {items : β → List Replaced} {g : β → β} (hne : ops ≠ [])
    (hoperand : Cleanly stream operand fun i a j => i < j ∧
      Cuts stream limit operand' i (items a) (g a) j) :
    Cleanly stream (operands ops operand) fun i others j =>
      Cuts stream limit (Grammar.operands ops operand') i (others.flatMap (items ·.2))
        (others.map fun other => (other.1, g other.2)) j := by
  have hround : Cleanly stream (Grammar.operandRound ops operand)
      (CutsRound stream limit (Grammar.operandRound ops operand') (fun _ => True) (items ·.2)
        fun other => (other.1, g other.2)) := by
    refine (h.operandRound hne hoperand).mono ?_
    rintro i (_ | ⟨⟨op, a⟩, more⟩) j hr
    · obtain ⟨rfl, hrefuses⟩ := hr
      exact fun _ => .after hrefuses.determined (.pure _ _)
    · obtain ⟨rfl, ⟨hlt, ha⟩, hop⟩ := hr
      exact ⟨Nat.lt_of_succ_lt hlt, .after (hop limit).optional (ha.bind_pure _)⟩
  exact hround.collect_cuts.mono fun _ _ _ hothers => hothers trivial

/-- Operators and operands, one after the other up to the cursor. -/
theorem operandsChained {β : Type} {operand : Rule β} {ops : List (Token × BinOp)}
    {Q : Nat → β → Nat → Prop} (hne : ops ≠ [])
    (hoperand : Cleanly stream operand fun i a j => i < j ∧ Q i a j) :
    Cleanly stream (Grammar.operands ops operand) (Chained stream Q) := by
  have hrounds := (h.operandRound hne hoperand).collect (by
    rintro i _ j ⟨-, ⟨hlt, -⟩, -⟩
    exact Nat.lt_of_succ_lt hlt)
  refine hrounds.mono fun i others j hrounds => ?_
  induction hrounds with
  | stop hround =>
    obtain ⟨rfl, -⟩ := hround
    exact .nil _
  | last hround => cases hround.1
  | more hround _ ih => exact .cons hround.2.1.1 hround.2.1.2 ih

/-- A chain whose operands fit. -/
theorem chain {operand operand' : Rule (Located Expr)} {ops : List (Token × BinOp)} (hne : ops ≠ [])
    (hoperand : Cleanly stream operand (TrimmedExpr stream limit room operand')) :
    Cleanly stream (chain operand ops) fun i ch j =>
      (∃ k, i < k ∧ ch.1.span = stream.spanBetween i k ∧
        Chained stream (fun k e m => e.span = stream.spanBetween k m) k ch.2 j) ∧
      Cuts stream limit (Grammar.chain operand' ops) i
        (replacedIn room ch.1 ++ ch.2.flatMap fun other => replacedIn room other.2)
        (truncateIn room ch.1, ch.2.map fun other => (other.1, truncateIn room other.2)) j := by
  have hspans := h.operandsChained hne (hoperand.mono fun _ _ _ he => ⟨he.moves, he.span⟩)
  have hcuts := h.operands hne (hoperand.mono fun _ _ _ he => ⟨he.moves, he.cuts⟩)
  refine hoperand.bind fun first => (hspans.and hcuts).bind fun others => .pure ?_
  rintro j _ k _ ⟨hchained, hothers⟩ i _ hfirst
  exact ⟨⟨k, hfirst.moves, hfirst.span, hchained⟩, hfirst.cuts.bind (hothers.bind_pure _)⟩

omit h in
theorem span_groupLeft (hstream : stream.Apart) {others : List (Located BinOp × Located Expr)}
    (hothers : Chained stream (fun k e m => e.span = stream.spanBetween k m) k others j)
    (hj : j ≤ stream.size) {first : Located Expr} (hik : i < k)
    (hfirst : first.span = stream.spanBetween i k) :
    (groupLeft (first, others)).span = stream.spanBetween i j := by
  induction hothers generalizing first with
  | nil => exact hfirst
  | @cons k m j op e others hkm he hrest ih =>
    have hm := hrest.le
    refine ih hj (by omega) ?_
    change first.span.join e.span = _
    rw [hfirst, he, hstream.spanBetween_join hik (Nat.le_succ k) hkm (by omega)]

omit h in
theorem span_groupRight (hstream : stream.Apart) {others : List (Located BinOp × Located Expr)}
    (hothers : Chained stream (fun k e m => e.span = stream.spanBetween k m) k others j)
    (hj : j ≤ stream.size) {first : Located Expr} (hik : i < k)
    (hfirst : first.span = stream.spanBetween i k) :
    (groupRight first others).span = stream.spanBetween i j := by
  induction hothers generalizing i first with
  | nil => exact hfirst
  | @cons k m j op e others hkm he hrest ih =>
    have hm := hrest.le
    rw [groupRight, Expr.ofBinary, hfirst, ih hj hkm he,
      hstream.spanBetween_join hik (Nat.le_succ k) (by omega) hj]

theorem leftGrouped {operand operand' : Rule (Located Expr)} {ops : List (Token × BinOp)}
    (hne : ops ≠ []) (hoperand : Cleanly stream operand (TrimmedExpr stream limit room operand')) :
    Cleanly stream (leftGrouped operand ops)
      (TrimmedExpr stream limit room (Grammar.leftGrouped operand' ops)) := by
  refine (h.chain hne hoperand).bind fun ch => .pure ?_
  rintro j hj i _ ⟨⟨k, hik, hfirst, hothers⟩, hcuts⟩
  refine ⟨Nat.lt_of_lt_of_le hik hothers.le,
    span_groupLeft h.apart hothers hj hik hfirst, ?_⟩
  have hgroup := hcuts.bind_pure groupLeft
  rw [← replacedIn_groupLeft, ← truncateIn_groupLeft] at hgroup
  exact hgroup

theorem signed : Cleanly stream (signed inner) fun i t j => i < j ∧ Prefixed stream i t j ∧
    Cuts stream limit (Grammar.signed inner') i (replacedIn room t.operand) (t.truncate room)
      j := by
  have hne : unaryOps ≠ [] := List.cons_ne_nil _ _
  have hagain : Cleanly stream (many (oneOf unaryOps)) fun i ops j =>
      ∀ limit, Determined stream limit (many (oneOf unaryOps)) i ops j [] :=
    .again (Repeats.many (reopens_oneOf hne) heralds_any)
  have hspans := (h.operator hne).many fun _ _ _ hop => hop.1 ▸ Nat.lt_succ_self _
  refine (hspans.and hagain).bind fun ops => h.atom.bind fun e => .pure ?_
  rintro j _ k hkj he i hik ⟨hseries, hops⟩
  refine ⟨Nat.lt_of_le_of_lt hik he.moves, ⟨k, he.moves, he.span, fun e m hkm hm hspan => ?_⟩,
    .after (hops limit) (he.cuts.bind_pure _)⟩
  clear hops he hik hkj
  unfold Signed.apply
  induction hseries with
  | nil => exact hspan
  | cons hop hrest ih =>
    obtain ⟨rfl, hop, -⟩ := hop
    have hle := hrest.le fun _ _ _ hop => hop.1 ▸ Nat.le_succ _
    rw [List.foldr_cons, Expr.ofUnary, ih hkm hspan, hop,
      h.apart.spanBetween_join (Nat.lt_succ_self _) (Nat.le_refl _) (by omega) hm]

omit h in
theorem span_groupPower (hstream : stream.Apart) {others : List (Located BinOp × Signed)}
    (hothers : Chained stream (Prefixed stream) k others j) (hj : j ≤ stream.size)
    {first : Signed} (hfirst : Prefixed stream i first k) :
    (groupPower first others).span = stream.spanBetween i j := by
  induction hothers generalizing i first with
  | nil =>
    obtain ⟨k, hkj, hspan, hprefix⟩ := hfirst
    exact hprefix _ _ hkj hj hspan
  | @cons k m j op t others hkm ht hrest ih =>
    have hm := hrest.le
    obtain ⟨n, hnk, hspan, hprefix⟩ := hfirst
    refine hprefix _ _ (by omega) hj ?_
    change first.operand.span.join (groupPower t others).span = _
    rw [hspan, ih hj ht, hstream.spanBetween_join hnk (Nat.le_succ k) (by omega) hj]

theorem unaryExpr : Cleanly stream (unaryExpr inner)
    (TrimmedExpr stream limit room (Grammar.unaryExpr inner')) := by
  rw [unaryExpr_eq inner, unaryExpr_eq inner']
  have hne : powOps ≠ [] := List.cons_ne_nil _ _
  have hspans := h.operandsChained hne (h.signed.mono fun _ _ _ ht => ⟨ht.1, ht.2.1⟩)
  have hcuts := h.operands hne (h.signed.mono fun _ _ _ ht => ⟨ht.1, ht.2.2⟩)
  refine h.signed.bind fun first => (hspans.and hcuts).bind fun others => .pure ?_
  rintro j hj k _ ⟨hchained, hothers⟩ i _ ⟨hik, hprefixed, hfirst⟩
  refine ⟨Nat.lt_of_lt_of_le hik hchained.le,
    span_groupPower h.apart hchained hj hprefixed, ?_⟩
  rw [replacedIn_groupPower]
  have hgroup : truncateIn room (groupPower first others) = _ := truncateIn_groupPower first others
  rw [truncateIn] at hgroup
  rw [hgroup]
  exact hfirst.bind (hothers.bind_pure _)

theorem mulExpr : Cleanly stream (mulExpr inner)
    (TrimmedExpr stream limit room (Grammar.mulExpr inner')) :=
  h.leftGrouped (List.cons_ne_nil _ _) h.unaryExpr

theorem addExpr : Cleanly stream (addExpr inner)
    (TrimmedExpr stream limit room (Grammar.addExpr inner')) :=
  h.leftGrouped (List.cons_ne_nil _ _) h.mulExpr

theorem concatExpr : Cleanly stream (concatExpr inner)
    (TrimmedExpr stream limit room (Grammar.concatExpr inner')) := by
  rw [concatExpr_eq inner, concatExpr_eq inner']
  refine (h.chain (List.cons_ne_nil _ _) h.addExpr).bind fun ch => .pure ?_
  rintro j hj i _ ⟨⟨k, hik, hfirst, hothers⟩, hcuts⟩
  refine ⟨Nat.lt_of_lt_of_le hik hothers.le,
    span_groupRight h.apart hothers hj hik hfirst, ?_⟩
  have hgroup := hcuts.bind_pure fun ch => groupRight ch.1 ch.2
  rw [← replacedIn_groupRight, ← truncateIn_groupRight] at hgroup
  exact hgroup

theorem compareExpr : Cleanly stream (compareExpr inner)
    (TrimmedExpr stream limit room (Grammar.compareExpr inner')) :=
  h.leftGrouped (List.cons_ne_nil _ _) h.concatExpr

theorem andExpr : Cleanly stream (andExpr inner)
    (TrimmedExpr stream limit room (Grammar.andExpr inner')) :=
  h.leftGrouped (List.cons_ne_nil _ _) h.compareExpr

theorem orExpr : Cleanly stream (orExpr inner)
    (TrimmedExpr stream limit room (Grammar.orExpr inner')) :=
  h.leftGrouped (List.cons_ne_nil _ _) h.andExpr

end Level.Trims

end Grammar

end LuaSyntax
