import LuaSyntax.Proofs.Grammar.ExprRegion
/-!
# Regions of statements

One lemma for each rule: the parts of what it reads cleanly are arranged in the region that it is
read from. Expressions that a statement has without being written in it are at tokens of the
statement. Level by level, all nodes of a block have regions of their own.
-/

namespace LuaSyntax

/-! ### Fillers -/

section

variable {lastName : Option (Located Name)} {first e : Located Expr}
  {values others : List (Located Expr)} {count : Nat} {span : Span}

theorem isWritten_iff (hfirst : values.head? = some first) :
    isWritten lastName values e = true ↔
      lastName.map (·.span) ≠ some e.span ∧ first.span.start ≤ e.span.start := by
  simp [isWritten, hfirst]

section

variable (hlast : ∀ e ∈ first :: others, lastName.map (·.span) ≠ some e.span)
  (hstart : ∀ e ∈ first :: others, first.span.start ≤ e.span.start)

include hlast hstart

/-- Of values that are filled up before the first of them, they themselves are written. -/
theorem filter_isWritten (hspan : ¬first.span.start ≤ span.start) :
    let exprs := Expr.padWithNil count span (first :: others)
    exprs.filter (isWritten lastName exprs) = first :: others := by
  intro exprs
  have hfirst : exprs.head? = some first := rfl
  refine (List.filter_append _ _).trans ?_
  rw [List.filter_eq_self.2 fun e he => (isWritten_iff hfirst).2 ⟨hlast e he, hstart e he⟩,
    List.filter_eq_nil_iff.2 fun e he hwritten => ?_, List.append_nil]
  rw [List.eq_of_mem_replicate he] at hwritten
  exact hspan ((isWritten_iff hfirst).1 hwritten).2

theorem eq_nilAt_of_not_isWritten :
    let exprs := Expr.padWithNil count span (first :: others)
    ∀ e ∈ exprs.filter (!isWritten lastName exprs ·), e = Expr.nilAt span := by
  intro exprs e he
  obtain ⟨hmem, hnot⟩ := List.mem_filter.1 he
  rcases List.mem_append.1 hmem with hmem | hmem
  · have hwritten : isWritten lastName exprs e = true :=
      (isWritten_iff rfl).2 ⟨hlast e hmem, hstart e hmem⟩
    rw [hwritten] at hnot
    cases hnot
  · exact List.eq_of_mem_replicate hmem

end

/-- Without a value, all that there is fills up. -/
theorem not_isWritten_padWithNil {last : Located Name}
    (he : e ∈ Expr.padWithNil count last.span []) : isWritten (some last) values e = false := by
  rw [Expr.padWithNil, List.nil_append] at he
  rw [List.eq_of_mem_replicate he]
  simp [isWritten, Expr.nilAt]

end

namespace Grammar

open Rule LuaSyntax.Language

variable {α : Type} {stream : TokenStream} {P : Nat → Node → Nat → Prop} {L : Language}
  {inner : Level} {i j k : Nat}

/-- The parts of a statement are arranged in its region, and its fillers are at tokens of it. -/
structure LaidStmt (stream : TokenStream) (P : Nat → Node → Nat → Prop) (i : Nat) (s : Stmt)
    (j : Nat) : Prop where
  children : Arranged stream P i s.nodes j
  fills : ∀ e ∈ s.fillers, ∃ t ∈ stream.slice i j, e.span = t.span ∧ s.FillsAt t e.node

theorem LaidStmt.of_children {s : Stmt} (h : Arranged stream P i s.nodes j)
    (hfillers : s.fillers = []) : LaidStmt stream P i s j :=
  ⟨h, by simp [hfillers]⟩

/-- Nothing of the statement is before its first part. -/
theorem LaidStmt.widen {s : Stmt} (h : LaidStmt stream P k s j) (hik : i ≤ k) :
    LaidStmt stream P i s j := by
  refine ⟨h.children.widen hik (Nat.le_refl j), fun e he => ?_⟩
  obtain ⟨t, ht, hfills⟩ := h.fills e he
  obtain ⟨m, hkm, hmj, hget⟩ := TokenStream.mem_slice.1 ht
  exact ⟨t, TokenStream.mem_slice.2 ⟨m, Nat.le_trans hik hkm, hmj, hget⟩, hfills⟩

namespace Level.Lays

variable (h : inner.Lays stream P L)

include h

/-! ### Simple statements -/

omit h in
theorem breakStmt : Cleanly stream breakStmt (LaidStmt stream P) :=
  .token_bind fun _ => .pure fun _ _ i hi _ => .of_children (.nil (hi ▸ Nat.le_succ i)) rfl

omit h in
theorem continueStmt : Cleanly stream continueStmt (LaidStmt stream P) :=
  .token_bind fun _ => .pure fun _ _ i hi _ => .of_children (.nil (hi ▸ Nat.le_succ i)) rfl

omit h in
theorem labelStmt : Cleanly stream labelStmt (LaidStmt stream P) :=
  (cleanly_satisfy .label).bind fun _ => .pure fun _ _ _ hle _ => .of_children (.nil hle) rfl

theorem gotoStmt : Cleanly stream gotoStmt (LaidStmt stream P) := by
  refine .token_bind fun _ => h.name.bind fun n => .pure ?_
  rintro j _ _ _ ⟨-, hname, -⟩ i rfl _
  exact .of_children ((Arranged.single hname).widen (Nat.le_succ i) (Nat.le_refl j)) rfl

theorem doStmt : Cleanly stream (doStmt inner) (LaidStmt stream P) := by
  refine .token_bind fun _ => h.block.bind fun body => .token_bind fun _ => .pure ?_
  rintro _ _ k rfl _ _ _ ⟨hbody, -⟩ i rfl _
  exact .of_children (hbody.widen (Nat.le_succ i) (Nat.le_succ k)) rfl

/-- The rest of a loop, after its expressions. -/
theorem loopBody (g : Block → Stmt) :
    Cleanly stream (do
      let _ ← keyword .do_
      let body ← inner.block
      let _ ← keyword .end_
      return g body) fun i s j => ∃ body, s = g body ∧ Arranged stream P i body.nodes j := by
  refine .token_bind fun _ => h.block.bind fun body => .token_bind fun _ => .pure ?_
  rintro _ _ k rfl _ _ _ ⟨hbody, -⟩ i rfl _
  exact ⟨body, rfl, hbody.widen (Nat.le_succ i) (Nat.le_succ k)⟩

theorem whileStmt : Cleanly stream (whileStmt inner) (LaidStmt stream P) := by
  refine .token_bind fun _ => h.expr.bind fun cond => (h.loopBody (.whileLoop cond)).mono ?_
  rintro k _ j ⟨body, rfl, hbody⟩ _ _ ⟨hcond, -⟩ i rfl _
  exact .of_children (.cons (Nat.le_succ i) hcond hbody) rfl

theorem repeatStmt : Cleanly stream (repeatStmt inner) (LaidStmt stream P) := by
  refine .token_bind fun _ => h.block.bind fun body => .token_bind fun _ =>
    h.expr.bind fun cond => .pure ?_
  rintro j _ _ _ ⟨hcond, -⟩ k rfl _ _ _ ⟨hbody, -⟩ i rfl _
  exact .of_children ((hbody.widen (Nat.le_succ i) (Nat.le_succ k)).snoc hcond) rfl

/-! ### Conditionals -/

theorem ifClause : Cleanly stream (ifClause inner) fun i c j => Arranged stream P i c.nodes j := by
  refine h.expr.bind fun cond => .token_bind fun _ => h.block.bind fun body => .pure ?_
  rintro j _ _ _ ⟨hbody, -⟩ k rfl _ i _ ⟨hcond, -⟩
  exact .cons (Nat.le_refl i) hcond (hbody.widen (Nat.le_succ k) (Nat.le_refl j))

theorem elseifClauses : Cleanly stream (many (elseifClause inner)) fun i cs j =>
    Arranged stream P i (cs.flatMap (·.nodes)) j := by
  have hclause : Cleanly stream (elseifClause inner) fun i c j =>
      i < j ∧ Arranged stream P i c.nodes j := by
    refine .token_bind fun _ => h.ifClause.mono ?_
    rintro _ c j hc i rfl _
    exact ⟨hc.le, hc.widen (Nat.le_succ i) (Nat.le_refl j)⟩
  refine (hclause.many fun _ _ _ hc => hc.1).mono fun i cs j hseries => ?_
  induction hseries with
  | nil _ => exact .nil (Nat.le_refl _)
  | cons hc _ ih => exact hc.2.append ih

theorem elseBlock : Cleanly stream (elseBlock inner) fun i b j =>
    Arranged stream P i b.nodes j := by
  refine .token_bind fun _ => h.block.mono ?_
  rintro _ b j ⟨hb, -⟩ i rfl _
  exact hb.widen (Nat.le_succ i) (Nat.le_refl j)

theorem clauses : Cleanly stream (clauses inner) fun i cs j =>
    Arranged stream P i (Stmt.conditional cs.1 cs.2).nodes j := by
  refine h.ifClause.bind fun first => h.elseifClauses.bind fun others =>
    h.elseBlock.optional_bind (fun otherwise => .pure ?_) (.pure ?_)
  · rintro j _ m _ helse k _ hothers i _ hfirst
    have hall := (hfirst.append hothers).append helse
    simpa [Stmt.nodes] using hall
  · rintro m _ _ k _ hothers i _ hfirst
    have hall := hfirst.append hothers
    simpa [Stmt.nodes] using hall

theorem ifStmt : Cleanly stream (ifStmt inner) (LaidStmt stream P) := by
  rw [ifStmt_eq]
  refine .token_bind fun _ => h.clauses.bind fun cs => .token_bind fun _ => .pure ?_
  rintro _ _ k rfl _ _ _ hcs i rfl _
  exact .of_children (hcs.widen (Nat.le_succ i) (Nat.le_succ k)) rfl

/-! ### Loops -/

theorem nextExpr : Cleanly stream (following .comma inner.expr) fun i e j =>
    Occupies stream P (i + 1) (.expr e) j :=
  .token_bind fun _ => h.expr.mono fun _ _ _ he _ hi _ => hi ▸ he.1

/-- A step that is left out is at the `for`, before the variable. -/
theorem numericFor (forSpan : Span) (var : Located Name) :
    Cleanly stream (numericFor inner forSpan var) fun k s j => ∀ i,
      stream.get? i = some ⟨.keyword .for_, forSpan⟩ → Occupies stream P (i + 1) (.name var) k →
      LaidStmt stream P i s j := by
  refine .token_bind fun _ => h.expr.bind fun start => .token_bind fun _ =>
    h.expr.bind fun stop => h.nextExpr.optional_bind (fun step => ?_) ?_
  · refine (h.loopBody (.numericFor var start stop step)).mono ?_
    rintro n _ j ⟨body, rfl, hbody⟩ m _ hstep l _ ⟨hstop, -⟩ _ rfl _ _ _ ⟨hstart, -⟩ k rfl _ i _
      hvar
    have hlt := hvar.moves
    have hlt' := hstart.moves
    have hlt'' := hstop.moves
    have hwritten : isStepOf var step = true :=
      decide_eq_true (hvar.start_le h.trims.apart hstep (by omega))
    have hfillers : (Stmt.numericFor var start stop step body).fillers = [] := by
      simp [Stmt.fillers, hwritten]
    refine .of_children ?_ hfillers
    have hnodes : (Stmt.numericFor var start stop step body).nodes =
        .name var :: .expr start :: .expr stop :: .expr step :: body.nodes := by
      simp [Stmt.nodes, hwritten]
    rw [hnodes]
    exact .cons (Nat.le_succ i) hvar (.cons (Nat.le_succ k) hstart (.cons (Nat.le_succ _) hstop
      (.cons (Nat.le_succ m) hstep hbody)))
  · refine (h.loopBody (.numericFor var start stop ⟨.number "1", forSpan⟩)).mono ?_
    rintro n _ j ⟨body, rfl, hbody⟩ - l - ⟨hstop, -⟩ m rfl - - - ⟨hstart, -⟩ k rfl - i hfor hvar
    have hlt := hvar.moves
    have hlt' := hstart.moves
    have hlt'' := hstop.moves
    have hle := hbody.le
    have hleft : isStepOf var ⟨.number "1", forSpan⟩ = false :=
      decide_eq_false (hvar.not_start_le_token h.trims.apart (Nat.lt_succ_self i) hfor)
    have hnodes : (Stmt.numericFor var start stop ⟨.number "1", forSpan⟩ body).nodes =
        .name var :: .expr start :: .expr stop :: body.nodes := by
      simp [Stmt.nodes, hleft]
    refine ⟨?_, fun e he => ?_⟩
    · rw [hnodes]
      exact .cons (Nat.le_succ i) hvar (.cons (Nat.le_succ k) hstart
        (.cons (Nat.le_succ _) hstop hbody))
    · obtain rfl : e = ⟨.number "1", forSpan⟩ := by simpa [Stmt.fillers, hleft] using he
      refine ⟨_, TokenStream.mem_slice.2 ⟨i, Nat.le_refl i, by omega, hfor⟩, rfl, .step ?_⟩
      exact hvar.token_stop_le h.trims.apart (Nat.lt_succ_self i) hfor

theorem genericFor (first : Located Name) :
    Cleanly stream (genericFor inner first) fun k s j => ∀ i,
      Occupies stream P i (.name first) k → stream.Writes IsName i first.node k →
      LaidStmt stream P i s j := by
  have hname := h.name.mono fun _ _ _ hn => hn.2
  refine (separated .comma hname).bind fun others => .token_bind fun _ =>
    h.exprList.bind fun exprs => (h.loopBody (.genericFor (first :: others) exprs)).mono ?_
  rintro n _ j ⟨body, rfl, hbody⟩ _ _ ⟨hexprs, -⟩ m rfl _ k _ hothers i hfirst hwrites
  have hnames := (hothers i first hfirst hwrites).1
  exact .of_children (((hnames.widen (Nat.le_refl i) (Nat.le_succ m)).append hexprs).append hbody)
    rfl

theorem forStmt : Cleanly stream (forStmt inner) (LaidStmt stream P) := by
  refine .token_bind fun forSpan => h.name.bind fun var => ?_
  have hrules : Cleanly stream
      (Rule.alt [Grammar.numericFor inner forSpan var, Grammar.genericFor inner var])
      fun k s j => ∀ i, stream.get? i = some ⟨.keyword .for_, forSpan⟩ →
        Occupies stream P (i + 1) (.name var) k → stream.Writes IsName (i + 1) var.node k →
        LaidStmt stream P i s j := by
    refine h.alt [fun inner => Grammar.numericFor inner forSpan var]
      (fun inner => Grammar.genericFor inner var) ?_ (scheme_genericFor var).asInner ?_
    · exact List.forall_mem_singleton.2 (scheme_numericFor forSpan var)
    · refine List.forall_mem_cons.2 ⟨?_, List.forall_mem_singleton.2 ?_⟩
      · exact (h.numericFor forSpan var).mono fun _ _ _ hs i hfor hvar _ => hs i hfor hvar
      · exact (h.genericFor var).mono fun _ _ _ hs i _ hvar hwrites =>
          (hs (i + 1) hvar hwrites).widen (Nat.le_succ i)
  refine hrules.mono ?_
  rintro k s j hs m _ ⟨rfl, hvar, hwrites⟩ i rfl hfor
  exact hs i hfor hvar hwrites

/-! ### Declarations -/

theorem funcName : Cleanly stream funcName fun i n j => Arranged stream P i n.nodes j := by
  have hname := h.name.mono fun _ _ _ hn => hn.2
  have hmethod : Cleanly stream (following .colon Rule.name) fun i n j =>
      Occupies stream P (i + 1) (.name n) j :=
    .token_bind fun _ => hname.mono fun _ _ _ hn _ hi _ => hi ▸ hn.1
  refine hname.bind fun first => (separated .dot hname).bind fun others =>
    hmethod.optional_bind (fun method => .pure ?_) (.pure ?_)
  · rintro j _ m _ hmethod k _ hothers i _ ⟨hfirst, hwrites⟩
    have hpath := (hothers i first hfirst hwrites).1
    exact (hpath.widen (Nat.le_refl i) (Nat.le_succ m)).snoc hmethod
  · rintro j _ _ k _ hothers i _ ⟨hfirst, hwrites⟩
    have hpath := (hothers i first hfirst hwrites).1
    exact hpath.append (.nil (Nat.le_refl j))

theorem functionStmt : Cleanly stream (functionStmt inner) (LaidStmt stream P) := by
  refine .token_bind fun _ => h.funcName.bind fun n => h.funcBody.bind fun body => .pure ?_
  rintro j _ k _ ⟨hbody, -⟩ _ _ hname i rfl _
  exact .of_children ((hname.append hbody).widen (Nat.le_succ i) (Nat.le_refl j)) rfl

theorem localFunction : Cleanly stream (localFunction inner) (LaidStmt stream P) := by
  refine .token_bind fun _ => h.name.bind fun n => h.funcBody.bind fun body => .pure ?_
  rintro j _ k _ ⟨hbody, -⟩ _ _ ⟨-, hname, -⟩ i rfl _
  exact .of_children (.cons (Nat.le_succ i) hname hbody) rfl

/-- The values after an `=`, and the `nil`s that fill them up. -/
theorem values (lastName : Option (Located Name)) (count : Nat) (equal : Span)
    (hlast : ∀ last ∈ lastName, ∃ i j, j ≤ k ∧ Occupies stream P i (.name last) j)
    (hequal : stream.get? k = some ⟨.symbol .equal, equal⟩) {values : List (Located Expr)}
    (hvalues : Arranged stream P (k + 1) (values.map .expr) j) (hne : values ≠ []) :
    let exprs := Expr.padWithNil count equal values
    exprs.filter (isWritten lastName exprs) = values ∧
      (∀ e ∈ exprs.filter (!isWritten lastName exprs ·), e = Expr.nilAt equal) ∧
      ∀ e ∈ values, equal.stop ≤ e.span.start := by
  have hstream := h.trims.apart
  obtain ⟨first, others, rfl⟩ := List.exists_cons_of_ne_nil hne
  have hoccupies : ∀ e ∈ first :: others, ∃ m n, k + 1 ≤ m ∧ Occupies stream P m (.expr e) n := by
    intro e he
    obtain ⟨m, n, hm, -, hn⟩ := hvalues.occupies_of_mem (List.mem_map_of_mem he)
    exact ⟨m, n, hm, hn⟩
  have hnot : ∀ e ∈ first :: others, lastName.map (·.span) ≠ some e.span := by
    intro e he heq
    obtain ⟨last, hname, hspan⟩ := Option.map_eq_some_iff.1 heq
    obtain ⟨i', j', hle, hname⟩ := hlast last hname
    obtain ⟨m, n, hm, hn⟩ := hoccupies e he
    exact hname.span_ne hstream hn (by omega) hspan
  have hfirst : ∀ e ∈ first :: others, first.span.start ≤ e.span.start := by
    intro e he
    rw [List.map_cons] at hvalues
    cases hvalues with
    | @cons _ m n _ _ _ _ hfirst hrest =>
      rcases List.mem_cons.1 he with rfl | he
      · exact Pos.le_refl _
      · obtain ⟨m', n', hm', -, hn'⟩ := hrest.occupies_of_mem (List.mem_map_of_mem he)
        have hlt := hfirst.moves
        exact hfirst.start_le hstream hn' (by omega)
  have hafter : ¬first.span.start ≤ equal.start := by
    obtain ⟨m, n, hm, hn⟩ := hoccupies first List.mem_cons_self
    exact hn.not_start_le_token hstream hm hequal
  refine ⟨filter_isWritten hnot hfirst hafter, eq_nilAt_of_not_isWritten hnot hfirst,
    fun e he => ?_⟩
  obtain ⟨m, n, hm, hn⟩ := hoccupies e he
  exact hn.token_stop_le hstream hm hequal

/-- A declaration with values that follow its names and an `=`. -/
theorem declared {names : List (Located Name)} (hnames : Arranged stream P i (names.map .name) k)
    {equal : Span} (hequal : stream.get? k = some ⟨.symbol .equal, equal⟩)
    {values : List (Located Expr)} (hvalues : Arranged stream P (k + 1) (values.map .expr) j)
    (hne : values ≠ []) :
    LaidStmt stream P i (.localDecl names (Expr.padWithNil names.length equal values)) j := by
  have hname : ∀ n ∈ names, ∃ m m', m' ≤ k ∧ Occupies stream P m (.name n) m' := by
    intro n hn
    obtain ⟨m, m', -, hm', hoccupies⟩ := hnames.occupies_of_mem (List.mem_map_of_mem hn)
    exact ⟨m, m', hm', hoccupies⟩
  obtain ⟨hwritten, hfillers, hstart⟩ := h.values names.getLast? names.length equal
    (fun last hlast => hname last (List.mem_of_getLast? hlast)) hequal hvalues hne
  refine ⟨?_, fun e he => ?_⟩
  · rw [Stmt.nodes, Stmt.values, hwritten]
    exact (hnames.widen (Nat.le_refl i) (Nat.le_succ k)).append hvalues
  · obtain rfl := hfillers e he
    have hlt := hnames.le
    have hle := hvalues.le
    refine ⟨_, TokenStream.mem_slice.2 ⟨k, hlt, by omega, hequal⟩, rfl, .declared ?_ ?_⟩
    · intro n hn
      obtain ⟨m, m', hm', hoccupies⟩ := hname n hn
      exact hoccupies.stop_le_token h.trims.apart hm' hequal
    · rw [Stmt.values, hwritten]
      exact hstart

omit h in
/-- A declaration without a value, filled up at its last name. -/
theorem undeclared {names : List (Located Name)} {last : Located Name}
    (hnames : Arranged stream P i (names.map .name) j) (hlast : names.getLast? = some last)
    (htoken : ⟨.ident last.node, last.span⟩ ∈ stream.slice i j) :
    LaidStmt stream P i (.localDecl names (Expr.padWithNil names.length last.span [])) j := by
  have hnone : (Stmt.localDecl names (Expr.padWithNil names.length last.span [])).values = [] := by
    rw [Stmt.values, hlast]
    exact List.filter_eq_nil_iff.2 fun e he => by simp [not_isWritten_padWithNil he]
  refine ⟨?_, fun e he => ?_⟩
  · rw [Stmt.nodes, hnone, List.map_nil, List.append_nil]
    exact hnames
  · have hmem : e ∈ Expr.padWithNil names.length last.span [] := (List.mem_filter.1 he).1
    rw [Expr.padWithNil, List.nil_append] at hmem
    obtain rfl := List.eq_of_mem_replicate hmem
    exact ⟨_, htoken, rfl, .undeclared hlast hnone⟩

theorem localDecl : Cleanly stream (localDecl inner) (LaidStmt stream P) := by
  rw [localDecl_eq]
  have hname := h.name.mono fun _ _ _ hn => hn.2
  refine hname.bind fun first => (separated .comma hname).bind fun others =>
    (cleanly_token (.symbol .equal)).optional_bind
      (fun equal => h.exprList.bind fun values => .pure ?_) (.pure ?_)
  · rintro j _ _ _ ⟨hvalues, _, _, hlisted⟩ k _ ⟨rfl, hequal⟩ m _ hothers i _ ⟨hfirst, hwrites⟩
    obtain ⟨hnames, -⟩ := hothers i first hfirst hwrites
    exact h.declared hnames hequal hvalues hlisted.ne_nil
  · rintro j _ _ k _ hothers i _ ⟨hfirst, hwrites⟩
    obtain ⟨hnames, -, hall⟩ := hothers i first hfirst hwrites
    generalize hlast : (first :: others).getLast (List.cons_ne_nil _ _) = last
    have hlast? : (first :: others).getLast? = some last := by
      rw [List.getLast?_eq_getLast_of_ne_nil (List.cons_ne_nil _ _), hlast]
    obtain ⟨m, _, hm, hn, hoccupies, _, hts, ⟨_⟩⟩ := hall last (List.mem_of_getLast? hlast?)
    obtain ⟨rfl, span, hget⟩ := hts.get?_of_single
    have hspan := hoccupies.span.trans (h.trims.apart.spanBetween_succ hget)
    obtain rfl : last.span = span := hspan
    exact undeclared hnames hlast? (TokenStream.mem_slice.2 ⟨m, hm, hn, hget⟩)

theorem localStmt : Cleanly stream (localStmt inner) (LaidStmt stream P) := by
  have hrules : Cleanly stream (Rule.alt [Grammar.localFunction inner, Grammar.localDecl inner])
      (LaidStmt stream P) := by
    refine h.alt [Grammar.localFunction] Grammar.localDecl ?_ scheme_localDecl.asInner ?_
    · exact List.forall_mem_singleton.2 scheme_localFunction
    · exact List.forall_mem_cons.2 ⟨h.localFunction, List.forall_mem_singleton.2 h.localDecl⟩
  refine .token_bind fun _ => hrules.mono ?_
  rintro _ s j hs i rfl _
  exact hs.widen (Nat.le_succ i)

/-! ### Calls and assignments -/

theorem occupies_target {p : PrefixExp} (hlt : i < j) (hspan : p.span = stream.spanBetween i j)
    (hparts : Arranged stream P i p.nodes j) (hwrites : stream.Writes (Access L) i p j) :
    Occupies stream P i (.target ⟨p, p.span⟩) j := by
  obtain ⟨ts, hts, hp⟩ := hwrites
  exact .intro hlt hts.size hspan (h.holds ⟨ts, hts, hp⟩) trivial hparts

theorem moreTargets : Cleanly stream (moreTargets inner) fun i ts j =>
    Arranged stream P i (ts.map .target) j := by
  have hnext : Cleanly stream (following .comma (Grammar.prefixExp inner .unrestricted))
      fun i p j => Occupies stream P (i + 1) (.target ⟨p, p.span⟩) j := by
    refine .token_bind fun _ => h.prefixExp.mono ?_
    rintro _ p j ⟨hlt, hspan, hparts, hwrites⟩ i rfl _
    exact h.occupies_target hlt hspan hparts hwrites
  have hround : Cleanly stream (targetRound inner) fun i r j => r.elim (j = i) fun round =>
      round.2 = true ∧ Occupies stream P (i + 1) (.target round.1) j := by
    refine hnext.optional_bind
      (fun target => (Trims.checkedTarget 0 0 target).bind fun t => .pure ?_)
      (.pure fun _ _ _ => rfl)
    rintro _ _ k _ ⟨rfl, rfl, -⟩ i _ htarget
    exact ⟨rfl, htarget⟩
  refine (hround.collect fun _ _ _ ht => Nat.lt_of_succ_lt ht.2.moves).mono ?_
  intro i ts j hrounds
  induction hrounds with
  | stop hnone =>
    obtain rfl := hnone
    exact .nil (Nat.le_refl _)
  | last hlast => cases hlast.1
  | more hmore _ ih => exact .cons (Nat.le_succ _) hmore.2 ih

theorem assignment (first : PrefixExp) : Cleanly stream (assignment inner first) fun k s j => ∀ i,
    Occupies stream P i (.target ⟨first, first.span⟩) k → LaidStmt stream P i s j := by
  refine (Trims.checkedTarget 0 0 first).bind fun target => h.moreTargets.bind fun more =>
    .token_bind fun equal => h.exprList.bind fun values => .pure ?_
  rintro j _ _ _ ⟨hvalues, _, _, hlisted⟩ k rfl hequal _ _ hmore _ _ ⟨rfl, rfl, -⟩ i hfirst
  have htargets : Arranged stream P i ((⟨first, first.span⟩ :: more).map .target) k :=
    .cons (Nat.le_refl i) hfirst hmore
  obtain ⟨hfilter, hfillers, hstart⟩ :=
    h.values none (more.length + 1) equal nofun hequal hvalues hlisted.ne_nil
  have hwritten : (Stmt.assign (⟨first, first.span⟩ :: more)
      (Expr.padWithNil (more.length + 1) equal values)).values = values := hfilter
  refine ⟨?_, fun e he => ?_⟩
  · rw [List.length_cons, Stmt.nodes, hwritten]
    exact (htargets.widen (Nat.le_refl i) (Nat.le_succ k)).append hvalues
  · obtain rfl := hfillers e he
    have hlt := htargets.le
    have hle := hvalues.le
    refine ⟨_, TokenStream.mem_slice.2 ⟨k, hlt, by omega, hequal⟩, rfl, .assigned ?_ ?_⟩
    · intro t ht
      obtain ⟨i', j', -, hj', hoccupies⟩ := htargets.occupies_of_mem (List.mem_map_of_mem ht)
      exact hoccupies.stop_le_token h.trims.apart hj' hequal
    · rw [List.length_cons, hwritten]
      exact hstart

theorem callOrAssign : Cleanly stream (callOrAssign inner) (LaidStmt stream P) := by
  rw [callOrAssign_eq]
  have hafter (first : PrefixExp) : Cleanly stream (afterPrefixExp inner first) fun k s j => ∀ i,
      Occupies stream P i (.target ⟨first, first.span⟩) k → LaidStmt stream P i s j := by
    refine .peek_bind fun next => ?_
    split
    · exact .pure fun k _ _ i hfirst => .of_children hfirst.children rfl
    · exact (h.assignment first).mono fun _ _ _ hs _ => hs
  refine (h.trims.head.and h.head).bind fun a =>
    (h.trims.suffixes.and h.suffixes).bind fun ss => (hafter ⟨a, ss⟩).mono ?_
  rintro k s j hs m hmk ⟨⟨hspan, -⟩, hss, us, hus, hsuffixes⟩ i _ ⟨ha, hhead, ts, hts, hwritten⟩
  refine hs i (h.occupies_target ?_ (hspan a i ha.moves ha.span) ?_ ?_)
  · exact Nat.lt_of_lt_of_le ha.moves hmk
  · exact .cons (Nat.le_refl i) hhead hss
  · exact ⟨_, hts.append hus, .intro hwritten hsuffixes⟩

theorem stmt : Cleanly stream (stmt inner) fun i s j => Occupies stream P i (.stmt s) j := by
  have hrules : ∀ rule ∈ stmtRules, Cleanly stream (rule inner) (LaidStmt stream P) := by
    simp only [stmtRules, List.forall_mem_cons]
    exact ⟨h.callOrAssign, labelStmt, breakStmt, continueStmt, h.gotoStmt, h.doStmt, h.whileStmt,
      h.repeatStmt, h.ifStmt, h.forStmt, h.functionStmt, h.localStmt, List.forall_mem_nil _⟩
  have hchoice := h.alt stmtRules.dropLast Grammar.localStmt
    (fun rule hrule => scheme_of_mem_stmtRules rule (List.dropLast_subset _ hrule))
    scheme_localStmt.asInner hrules
  have hread : Cleanly stream (Grammar.stmt inner) fun i s j =>
      s.span = stream.spanBetween i j ∧ LaidStmt stream P i s.node j :=
    .located (hchoice.mono fun _ _ _ hs => ⟨rfl, hs⟩)
  refine ((h.trims.moves scheme_stmt (by decide)).and (hread.and h.holds_stmt)).bounds.mono ?_
  rintro i s j ⟨-, hj, hlt, ⟨hspan, hs⟩, hholds⟩
  exact .intro hlt hj hspan hholds hs.fills hs.children

/-! ### Blocks -/

theorem returnStmt : Cleanly stream (returnStmt inner) fun i r j =>
    Occupies stream P i (.ret r) j := by
  have hread : Cleanly stream (Grammar.returnStmt inner) fun i r j =>
      i < j ∧ r.span = stream.spanBetween i j ∧ Arranged stream P i (r.node.exprs.map .expr) j := by
    refine .located (.token_bind fun _ => h.exprList.optional_bind
      (fun es => Trims.semicolons.bounds.bind fun _ => .pure ?_)
      (Trims.semicolons.bounds.bind fun _ => .pure ?_))
    · rintro j _ k _ ⟨hkj, -⟩ _ _ ⟨hes, -⟩ i rfl _
      exact ⟨Nat.lt_of_lt_of_le (Nat.lt_of_succ_le hes.le) hkj, rfl,
        hes.widen (Nat.le_succ i) hkj⟩
    · rintro j _ _ _ ⟨hij, -⟩ _ i rfl _
      exact ⟨hij, rfl, .nil (Nat.le_of_succ_le hij)⟩
  refine (hread.and h.holds_ret).bounds.mono ?_
  rintro i r j ⟨-, hj, ⟨hlt, hspan, hes⟩, hholds⟩
  exact .intro hlt hj hspan hholds trivial hes

/-- A part of a block in its region. -/
inductive LaidPart (stream : TokenStream) (P : Nat → Node → Nat → Prop) (i : Nat) :
    Option (BlockPart × Bool) → Nat → Prop
  | stmt {k j : Nat} {s : Located Stmt} (hik : i ≤ k) (h : Occupies stream P k (.stmt s) j) :
    LaidPart stream P i (some (.stmt s, true)) j
  | ret {k j : Nat} {r : Located Return} (hik : i ≤ k) (h : Occupies stream P k (.ret r) j) :
    LaidPart stream P i (some (.ret r, false)) j
  | stop {j : Nat} (hij : i ≤ j) : LaidPart stream P i none j

theorem blockPart : Cleanly stream (blockPart inner) (LaidPart stream P) := by
  have hjunk : Cleanly stream skipJunk fun i _ _ => stream.size ≤ i :=
    { orderly := orderly_skipAhead junkLength [.named "statement"]
      post := by
        rintro c s _ t rfl _ hclean
        exact (size_le_of_skipAhead (fun _ _ => Nat.add_pos_left Nat.one_pos _) hclean).1 }
  refine Trims.semicolons.bounds.bind fun _ => h.stmt.optional_bind (fun s => .pure ?_)
    (h.returnStmt.optional_bind (fun r => .pure ?_) (.peek_bind fun next => ?_))
  · rintro j _ k _ hs i _ ⟨hik, -⟩
    exact .stmt hik hs
  · rintro j _ k _ hr _ i _ ⟨hik, -⟩
    exact .ret hik hr
  · cases next with
    | none => exact .pure fun k _ _ _ _ i _ ⟨hik, _⟩ => .stop hik
    | some t =>
      dsimp only
      split
      · exact .pure fun k _ _ _ _ i _ ⟨hik, _⟩ => .stop hik
      · refine hjunk.bind fun _ => .pure ?_
        rintro _ _ k _ hsize hnext
        obtain ⟨u, hget, -⟩ := Option.map_eq_some_iff.1 hnext.symm
        exact absurd (TokenStream.lt_size_of_get? hget) (Nat.not_lt_of_le hsize)

theorem stmts : Cleanly stream (Grammar.stmts inner) fun i b j =>
    Arranged stream P i b.nodes j := by
  have hparts := h.blockPart.collect (by
    rintro i part j (⟨hik, hs⟩ | _)
    exact Nat.lt_of_le_of_lt hik hs.moves)
  refine hparts.bind fun parts => .pure ?_
  rintro j - i - hrounds
  induction hrounds with
  | stop hstop =>
    cases hstop with
    | stop hij => exact .nil hij
  | last hlast =>
    cases hlast with
    | ret hik hr => exact .cons hik hr (.nil (Nat.le_refl _))
  | more hmore _ ih =>
    cases hmore with
    | stmt hik hs => exact .cons hik hs ih

end Level.Lays

/-! ### Levels -/

/-- Nothing is read at the limit, except for an empty block. -/
theorem laid_cutOff (htrims : (nested 0).Trims stream 0 0 (nested 0))
    (hblock : Cleanly stream (nested 0).block fun i b j =>
      BlockEnds (stream.word j) → stream.Writes L.block i b j) :
    (nested 0).Laid stream P L where
  trims := htrims
  expr :=
    { orderly := (opens_cutOffExpr bottom_lenient).orderly
      post := fun _ _ hclean => absurd hclean not_clean_cutOffExpr }
  block := by
    refine Cleanly.and ⟨(always_cutOffBlock bottom_lenient).orderly, ?_⟩ hblock
    intro c s b t _ _ hclean
    obtain ⟨-, rfl, rfl⟩ := clean_cutOffBlock hclean
    exact .nil (Nat.le_refl _)

/-- What has to be known of the languages of the levels below `depth`. -/
structure LevelsHold (stream : TokenStream) (P : Nat → Node → Nat → Prop) (L : Nat → Language)
    (depth : Nat) : Prop where
  expr : ∀ room < depth, ∀ ts e, Disjunction (L room) ts e → (L (room + 1)).expr ts e
  block : ∀ room ≤ depth, Cleanly stream (nested room).block fun i b j =>
    BlockEnds (stream.word j) → stream.Writes (L room).block i b j
  node : ∀ room < depth, ∀ i n j, stream.Writes (fun ts n => n.Spelled (L room) ts) i n j → P i n j
  stmt : ∀ room < depth, Cleanly stream (stmt (nested room)) fun i s j => P i (.stmt s) j
  ret : ∀ room < depth, Cleanly stream (returnStmt (nested room)) fun i r j => P i (.ret r) j

/-- Level by level, all that is read has a region of its own. -/
theorem laid_nested {L : Nat → Language} {depth : Nat} (hstream : stream.Apart)
    (h : LevelsHold stream P L depth) :
    ∀ room ≤ depth, (nested room).Laid stream P (L room) := by
  intro room hroom
  induction room with
  | zero => exact laid_cutOff (trims_nested hstream 0 0 0) (h.block 0 hroom)
  | succ room ih =>
    have hlays : (nested room).Lays stream P (L room) :=
      { toLaid := ih (Nat.le_of_succ_le hroom)
        holds := h.node room hroom _ _ _
        holds_stmt := h.stmt room hroom
        holds_ret := h.ret room hroom }
    have htrims := trims_nested hstream 0 0 (room + 1)
    rw [Nat.zero_add] at htrims
    exact ⟨htrims, hlays.orExpr.mono fun _ _ _ he => he.mono (h.expr room hroom),
      hlays.stmts.and (h.block (room + 1) hroom)⟩

/-- The nodes of a chunk that is read cleanly are arranged in the stream. -/
theorem arranged_run {depth : Nat} (hlaid : (nested depth).Laid stream P L) {limit : Nat}
    {b : Block} (hclean : (chunk (nested depth)).run stream limit .empty = (b, [])) :
    Arranged stream P 0 b.nodes stream.size := by
  have hmore : Cleanly stream (collect (chunkPart (nested depth))) fun i more j =>
      more = [] ∧ j = i :=
    { orderly := (orderly_chunkPart hlaid.block.orderly).collect
      post := fun _ hs hclean => by
        obtain ⟨-, rfl, rfl⟩ := moreBlocks_of_clean hlaid.block.orderly hs hclean
        exact ⟨rfl, rfl⟩ }
  have hchunk : Cleanly stream (chunk (nested depth)) fun i b j =>
      Arranged stream P i b.nodes j := by
    refine hlaid.block.bind fun first => ?_
    split
    · exact .pure fun _ _ _ _ hfirst => hfirst.1
    · refine hmore.bind fun more => .pure ?_
      rintro _ _ _ _ ⟨rfl, rfl⟩ i _ hfirst
      exact hfirst.1
  obtain ⟨a, t, hrun, -, hresult⟩ := clean_of_run hchunk.orderly (congrArg Prod.snd hclean)
  obtain rfl : a = b := (Prod.mk.inj (hresult.symm.trans hclean)).1
  have ht := hchunk.orderly.onward (proper_start _ _) hrun.ok
  exact (hchunk.post rfl (proper_start _ _) hrun).widen (Nat.zero_le _) ht.le_size

end Grammar

end LuaSyntax
