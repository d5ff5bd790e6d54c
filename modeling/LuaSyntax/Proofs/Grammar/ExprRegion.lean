import LuaSyntax.Proofs.Grammar.BlockTrim
import LuaSyntax.Proofs.Grammar.Region
/-!
# Regions of expressions

One lemma for each rule: what it reads cleanly occupies the region that it is read from, and is
written with the tokens there. Operators are put between their operands only after all of them have
been read, so each start of a chain that groups to the left, and each end of one that groups to the
right, is shown to have its own region.
-/

namespace LuaSyntax

namespace Language

variable {L : Language} {ts : List Token} {e : Expr}

theorem disjunction_of_unary (h : Unary L ts e) : Disjunction L ts e :=
  .operand (.operand (.operand (.operand (.operand (.operand h)))))

theorem disjunction_of_atom (h : Atom L ts e) : Disjunction L ts e :=
  disjunction_of_unary (.atom h)

end Language

namespace Grammar

open Rule Operator LuaSyntax.Language

variable {α β : Type} {stream : TokenStream} {P : Nat → Node → Nat → Prop} {L : Language}
  {inner : Level} {start : Start} {i j k : Nat}

/-- An expression with a region of its own, in which it is written as the language says. -/
def WrittenExpr (stream : TokenStream) (P : Nat → Node → Nat → Prop)
    (derived : List Token → Expr → Prop) (i : Nat) (e : Located Expr) (j : Nat) : Prop :=
  Occupies stream P i (.expr e) j ∧ stream.Writes derived i e.node j

theorem WrittenExpr.mono {derived derived' : List Token → Expr → Prop} {e : Located Expr}
    (h : WrittenExpr stream P derived i e j) (hmono : ∀ ts e, derived ts e → derived' ts e) :
    WrittenExpr stream P derived' i e j :=
  ⟨h.1, h.2.mono hmono⟩

/-- What the level reads is in regions of the stream and is written in the language. -/
structure Level.Laid (stream : TokenStream) (P : Nat → Node → Nat → Prop) (L : Language)
    (inner : Level) : Prop where
  trims : inner.Trims stream 0 0 (nested 0)
  expr : Cleanly stream inner.expr (WrittenExpr stream P L.expr)
  block : Cleanly stream inner.block fun i b j => Arranged stream P i b.nodes j ∧
    (BlockEnds (stream.word j) → stream.Writes L.block i b j)

/-- Over such a level, `P` holds of the nodes that are written in the language, and of what the
rules for statements read. -/
structure Level.Lays (stream : TokenStream) (P : Nat → Node → Nat → Prop) (L : Language)
    (inner : Level) : Prop extends inner.Laid stream P L where
  holds : ∀ {i n j}, stream.Writes (fun ts n => n.Spelled L ts) i n j → P i n j
  holds_stmt : Cleanly stream (stmt inner) fun i s j => P i (.stmt s) j
  holds_ret : Cleanly stream (returnStmt inner) fun i r j => P i (.ret r) j

/-- Operators up to cursor `j`, each with an operand. -/
inductive Joined (stream : TokenStream) (ops : List (Token × BinOp)) (Q : Nat → β → Nat → Prop) :
    Nat → List (Located BinOp × β) → Nat → Prop
  | nil (i : Nat) : Joined stream ops Q i [] i
  | cons {i k j : Nat} {t : Token} {op : Located BinOp} {a : β} {others : List (Located BinOp × β)}
      (hget : stream.get? i = some ⟨t, op.span⟩) (hop : (t, op.node) ∈ ops) (h : Q (i + 1) a k)
      (rest : Joined stream ops Q k others j) : Joined stream ops Q i ((op, a) :: others) j

/-- The operand is read up to cursor `j`, after its unary operators, which start at cursor `i` and
stand in front of whatever the operand becomes the beginning of. -/
def Signs (stream : TokenStream) (P : Nat → Node → Nat → Prop) (L : Language) (i : Nat) (t : Signed)
    (j : Nat) : Prop :=
  ∃ k, WrittenExpr stream P (Atom L) k t.operand j ∧
    ∀ e m, WrittenExpr stream P (Unary L) k e m → WrittenExpr stream P (Unary L) i (t.apply e) m

namespace Level.Lays

variable (h : inner.Lays stream P L)

include h

/-- A rule whose value is a node together with its span. -/
theorem located {rule : Level → Rule α} {g : Located α → Node} {derived : List Token → α → Prop}
    (hscheme : Scheme start true fun inner => Rule.located (rule inner)) (hstart : start ≠ .any)
    (hspan : ∀ a, (g a).span = a.span) (hfills : ∀ a ts, (g a).Fills ts)
    (hspelled : ∀ ts a, derived ts a.node → (g a).Spelled L ts)
    (hrule : Cleanly stream (rule inner) fun i a j =>
      (∀ span, Arranged stream P i (g ⟨a, span⟩).children j) ∧ stream.Writes derived i a j) :
    Cleanly stream (Rule.located (rule inner)) fun i a j =>
      Occupies stream P i (g a) j ∧ stream.Writes derived i a.node j := by
  have hread : Cleanly stream (Rule.located (rule inner)) fun i a j =>
      a.span = stream.spanBetween i j ∧
        (∀ span, Arranged stream P i (g ⟨a.node, span⟩).children j) ∧
        stream.Writes derived i a.node j :=
    .located (hrule.mono fun _ _ _ ha => ⟨rfl, ha⟩)
  refine ((h.trims.moves hscheme hstart).and hread).mono ?_
  rintro i a j ⟨hlt, hat, hchildren, ts, hts, ha⟩
  refine ⟨.intro hlt hts.size ((hspan a).trans hat) ?_ (hfills a _) (hchildren a.span),
    ts, hts, ha⟩
  exact h.holds ⟨ts, hts, hspelled ts a ha⟩

/-- A choice, each of whose alternatives begins with a token or an expression. -/
theorem alt {Q : Nat → α → Nat → Prop} (rules : List (Level → Rule α)) (last : Level → Rule α)
    (hrules : ∀ rule ∈ rules, Scheme .token true rule) (hlast : Scheme .inner true last)
    (hcleanly : ∀ rule ∈ rules ++ [last], Cleanly stream (rule inner) Q) :
    Cleanly stream (Rule.alt ((rules ++ [last]).map (· inner))) Q :=
  h.trims.alt (P := fun _ => Q) (fun ha _ => ha) rules last hrules hlast hcleanly

theorem occupies_expr {e : Located Expr} (hlt : i < j) (hspan : e.span = stream.spanBetween i j)
    (hwrites : stream.Writes (Disjunction L) i e.node j)
    (hchildren : Arranged stream P i e.node.nodes j) : Occupies stream P i (.expr e) j := by
  obtain ⟨ts, hts, he⟩ := hwrites
  exact .intro hlt hts.size hspan (h.holds ⟨ts, hts, he⟩) trivial hchildren

/-! ### Names and lists -/

theorem name : Cleanly stream name fun i n j => j = i + 1 ∧
    Occupies stream P i (.name n) j ∧ stream.Writes IsName i n.node j := by
  refine (cleanly_satisfy .name).mono ?_
  rintro i n j ⟨rfl, u, hget, haccept⟩
  obtain rfl : u = .ident n.node := by
    cases u <;> simp_all [Matcher.name]
  refine ⟨rfl, ?_, _, .token hget, .intro n.node⟩
  exact occupies_token h.trims.apart hget rfl (h.holds ⟨_, .token hget, rfl⟩) (fun _ => trivial) rfl

omit h in
/-- Items after the first one, each with a separator before it. -/
theorem separated {item : Rule (Located α)} {g : Located α → Node}
    {derived : List Token → α → Prop} (separator : Symbol)
    (hitem : Cleanly stream item fun i a j =>
      Occupies stream P i (g a) j ∧ stream.Writes derived i a.node j) :
    Cleanly stream (many do let _ ← symbol separator; item) fun k as j => ∀ i first,
      Occupies stream P i (g first) k → stream.Writes derived i first.node k →
      Arranged stream P i ((first :: as).map g) j ∧
        stream.Writes (Listed separator derived) i (first :: as) j ∧
        ∀ a ∈ first :: as, ∃ m n, i ≤ m ∧ n ≤ j ∧
          Occupies stream P m (g a) n ∧ stream.Writes derived m a.node n := by
  have hnext : Cleanly stream (do let _ ← symbol separator; item) fun i a j =>
      (∃ span, stream.get? i = some ⟨.symbol separator, span⟩) ∧
        Occupies stream P (i + 1) (g a) j ∧ stream.Writes derived (i + 1) a.node j :=
    .token_bind fun span => hitem.mono fun _ _ _ ha i hi hget => ⟨⟨span, hget⟩, hi ▸ ha⟩
  refine (hnext.many fun i a j ha => Nat.lt_of_succ_lt ha.2.1.moves).mono ?_
  intro k as j hseries
  induction hseries with
  | nil _ =>
    rintro i first hfirst ⟨ts, hts, ha⟩
    refine ⟨.single hfirst, ⟨ts, hts, .one ha⟩, List.forall_mem_singleton.2 ?_⟩
    exact ⟨i, _, Nat.le_refl i, Nat.le_refl _, hfirst, ts, hts, ha⟩
  | @cons k l j a as ha _ ih =>
    rintro i first hfirst ⟨ts, hts, hderived⟩
    obtain ⟨⟨span, hget⟩, hoccupies, hwrites⟩ := ha
    obtain ⟨hothers, ⟨us, hus, hlisted⟩, hall⟩ := ih _ _ hoccupies hwrites
    refine ⟨.cons (Nat.le_refl i) hfirst (hothers.widen (Nat.le_succ _) (Nat.le_refl _)),
      ⟨_, hts.append (.cons hget hus), .more hderived hlisted⟩, List.forall_mem_cons.2 ⟨?_, ?_⟩⟩
    · have hle := hothers.le
      exact ⟨i, k, Nat.le_refl i, by omega, hfirst, ts, hts, hderived⟩
    · intro b hb
      obtain ⟨m, n, hm, hn, hb⟩ := hall b hb
      have hle := hts.le
      exact ⟨m, n, by omega, hn, hb⟩

theorem exprList : Cleanly stream (exprList inner) fun i es j =>
    Arranged stream P i (es.map .expr) j ∧ stream.Writes (Listed .comma L.expr) i es j := by
  refine h.expr.bind fun first => (separated .comma h.expr).bind fun others => .pure ?_
  rintro j _ k _ hothers i _ ⟨hfirst, hwrites⟩
  obtain ⟨harranged, hlisted, -⟩ := hothers i first hfirst hwrites
  exact ⟨harranged, hlisted⟩

/-! ### Functions -/

theorem param : Cleanly stream param fun i p j =>
    (∃ n, p = .name n ∧ Occupies stream P i (.name n) j) ∨
    (∃ span, p = .vararg span ∧ Occupies stream P i (.vararg span) j) := by
  have hname : Cleanly stream (Param.name <$> Rule.name) fun i p j =>
      (∃ n, p = .name n ∧ Occupies stream P i (.name n) j) ∨
      (∃ span, p = .vararg span ∧ Occupies stream P i (.vararg span) j) :=
    .map (h.name.mono fun _ n _ hn => .inl ⟨n, rfl, hn.2.1⟩)
  have hvararg : Cleanly stream (Param.vararg <$> symbol .ellipsis) fun i p j =>
      (∃ n, p = .name n ∧ Occupies stream P i (.name n) j) ∨
      (∃ span, p = .vararg span ∧ Occupies stream P i (.vararg span) j) := by
    refine .map ((cleanly_token _).mono ?_)
    rintro i span _ ⟨rfl, hget⟩
    refine .inr ⟨span, rfl, ?_⟩
    exact occupies_token h.trims.apart hget rfl (h.holds ⟨_, .token hget, rfl⟩) (fun _ => trivial)
      rfl
  refine h.alt [fun _ => Param.name <$> Rule.name] (fun _ => Param.vararg <$> symbol .ellipsis) ?_
    ((Scheme.symbol _).map _).asInner ?_
  · exact List.forall_mem_singleton.2 (Scheme.name.map _)
  · exact List.forall_mem_cons.2 ⟨hname, List.forall_mem_singleton.2 hvararg⟩

/-- The nodes of parameters. -/
def paramNodes (ps : List Param) : List Node :=
  (ps.filterMap (·.name?)).map .name ++ (ps.findSome? (·.vararg?)).toList.map .vararg

/-- One more parameter, and whether others can follow it. -/
theorem nextParam : Cleanly stream nextParam fun i r j => r.elim (j = i) fun round =>
    i < j ∧ ((∃ n, round = (.name n, true) ∧ Occupies stream P (i + 1) (.name n) j) ∨
      (∃ span, round = (.vararg span, false) ∧ Occupies stream P (i + 1) (.vararg span) j)) := by
  have hnext : Cleanly stream (do let _ ← symbol .comma; Grammar.param) fun i p j =>
      (∃ n, p = .name n ∧ Occupies stream P (i + 1) (.name n) j) ∨
      (∃ span, p = .vararg span ∧ Occupies stream P (i + 1) (.vararg span) j) :=
    .token_bind fun _ => h.param.mono fun _ _ _ hp _ hi _ => hi ▸ hp
  refine hnext.optional_bind (fun p => .pure ?_) (.pure fun _ _ _ => rfl)
  rintro j _ i _ (⟨n, rfl, hn⟩ | ⟨span, rfl, hspan⟩)
  · exact ⟨Nat.lt_of_succ_lt hn.moves, .inl ⟨n, rfl, hn⟩⟩
  · exact ⟨Nat.lt_of_succ_lt hspan.moves, .inr ⟨span, rfl, hspan⟩⟩

/-- The `...` is the last parameter, since no other one follows it. -/
theorem moreParams : Cleanly stream (collect Grammar.nextParam) fun i ps j =>
    Arranged stream P i (paramNodes ps) j := by
  refine (h.nextParam.collect fun i a j ha => ha.1).mono fun i ps j hrounds => ?_
  induction hrounds with
  | stop hnone =>
    obtain rfl := hnone
    exact .nil (Nat.le_refl _)
  | last hlast =>
    obtain ⟨n, heq, -⟩ | ⟨span, heq, hspan⟩ := hlast.2
    · cases heq
    · cases heq
      exact .cons (Nat.le_succ _) hspan (.nil (Nat.le_refl _))
  | more hmore _ ih =>
    obtain ⟨n, heq, hn⟩ | ⟨span, heq, -⟩ := hmore.2
    · cases heq
      exact .cons (Nat.le_succ _) hn ih
    · cases heq

theorem params : Cleanly stream params fun i ps j => Arranged stream P i (paramNodes ps) j ∧
    stream.Writes (fun ts ps => Params ts (ps.filterMap (·.name?)) (ps.findSome? (·.vararg?)))
      i ps j := by
  have hall : Cleanly stream Grammar.params fun i ps j =>
      Arranged stream P i (paramNodes ps) j := by
    refine h.param.optional_bind (fun p => ?_) (.pure fun _ _ _ => .nil (Nat.le_refl _))
    cases p with
    | vararg span =>
      refine .pure ?_
      rintro j _ i _ (⟨_, heq, -⟩ | ⟨_, heq, hspan⟩) <;> cases heq
      exact .single hspan
    | name first =>
      refine h.moreParams.bind fun others => .pure ?_
      rintro j _ k _ hothers i _ (⟨_, heq, hfirst⟩ | ⟨_, heq, -⟩) <;> cases heq
      exact .cons (Nat.le_refl _) hfirst hothers
  obtain ⟨law, L', hsound⟩ := h.trims.sound
  refine (hall.and (always_params hsound).cleanly).bounds.mono ?_
  rintro i ps j ⟨hij, hj, harranged, hparams, -⟩
  exact ⟨harranged, _, ⟨hij, hj, rfl⟩, hparams⟩

theorem funcBody : Cleanly stream (funcBody inner) fun i f j =>
    Arranged stream P i f.nodes j ∧ stream.Writes (Func L) i f j := by
  refine .token_bind fun _ => h.params.bind fun ps => .token_bind fun _ =>
    h.block.bind fun body => .token_bind fun _ => .pure ?_
  rintro _ _ m rfl hend _ _ ⟨hbody, hwrites⟩ k rfl hclose _ _ ⟨hparams, ts, hts, hps⟩ i rfl hopen
  obtain ⟨us, hus, hblock⟩ := hwrites (blockEnds_of_get? hend rfl)
  refine ⟨?_, _, .cons hopen (hts.append (.cons hclose (hus.snoc hend))), ?_⟩
  · exact ((hparams.widen (Nat.le_succ _) (Nat.le_succ _)).append hbody).widen (Nat.le_refl _)
      (Nat.le_succ _)
  · simpa using Func.intro hps hblock

theorem functionExpr : Cleanly stream (functionExpr inner) (WrittenExpr stream P (Atom L)) := by
  refine h.located (g := .expr) scheme_functionExpr nofun (fun _ => rfl) (fun _ _ => trivial)
    (fun _ _ he => disjunction_of_atom he) ?_
  refine .token_bind fun _ => h.funcBody.bind fun body => .pure ?_
  rintro j _ _ _ ⟨hbody, ts, hts, hf⟩ i rfl hfunction
  exact ⟨fun _ => hbody.widen (Nat.le_succ i) (Nat.le_refl j), _, .cons hfunction hts, .function hf⟩

/-! ### Tables -/

theorem keyedField : Cleanly stream (keyedField inner) fun i f j =>
    Arranged stream P i f.nodes j ∧ stream.Writes (IsField L) i f j := by
  refine .token_bind fun _ => h.expr.bind fun key => .token_bind fun _ => .token_bind fun _ =>
    h.expr.bind fun value => .pure ?_
  rintro j _ _ _ ⟨hvalue, vs, hvs, hv⟩ _ rfl hequal k rfl hclose _ _ ⟨hkey, ks, hks, hk⟩ i rfl hopen
  refine ⟨?_, _, .cons hopen (hks.append (.cons hclose (.cons hequal hvs))), ?_⟩
  · exact .cons (Nat.le_succ i) hkey (.cons (Nat.le_add_right k 2) hvalue (.nil (Nat.le_refl j)))
  · simpa using IsField.keyed hk hv

theorem fieldName : Cleanly stream fieldName fun i n j => Occupies stream P i (.name n) (i + 1) ∧
    stream.Has i [.ident n.node, .symbol .equal] j := by
  have horderly : Orderly Grammar.fieldName := by
    obtain ⟨law, L', hsound⟩ := h.trims.sound
    exact (opens_fieldName hsound).orderly
  refine ⟨horderly, ?_⟩
  rintro c s n t rfl hs hclean
  have hnext := namedNext_of_clean_fieldName hs hclean
  cases (fieldName_of_next hnext).symm.trans hclean.ok
  obtain ⟨hname, span, hequal⟩ := hnext
  have hget : c.stream.get? s.cursor = some ⟨.ident n.node, n.span⟩ := hname
  refine ⟨?_, .cons hget (.token hequal)⟩
  exact occupies_token h.trims.apart hget rfl (h.holds ⟨_, .token hget, rfl⟩) (fun _ => trivial) rfl

theorem namedField : Cleanly stream (namedField inner) fun i f j =>
    Arranged stream P i f.nodes j ∧ stream.Writes (IsField L) i f j := by
  refine h.fieldName.bind fun n => h.expr.bind fun value => .pure ?_
  rintro j _ k _ ⟨hvalue, vs, hvs, hv⟩ i _ ⟨hname, hhas⟩
  have hlt : i + 1 < k := by
    have hlength := congrArg List.length hhas.words
    rw [List.length_map, TokenStream.length_slice hhas.size] at hlength
    simp at hlength
    omega
  exact ⟨.cons (Nat.le_refl i) hname (.cons (Nat.le_of_lt hlt) hvalue (.nil (Nat.le_refl j))),
    _, hhas.append hvs, .named n hv⟩

theorem positionalField : Cleanly stream (positionalField inner) fun i f j =>
    Arranged stream P i f.nodes j ∧ stream.Writes (IsField L) i f j := by
  refine h.expr.bind fun value => .pure ?_
  rintro j _ i _ ⟨hvalue, vs, hvs, hv⟩
  exact ⟨.single hvalue, _, hvs, .positional hv⟩

theorem field : Cleanly stream (field inner) fun i f j =>
    Occupies stream P i (.field f) j ∧ stream.Writes (IsField L) i f.node j := by
  refine h.located (g := .field) scheme_field nofun (fun _ => rfl) (fun _ _ => trivial)
    (fun _ _ hf => hf) ?_
  refine h.alt [Grammar.keyedField, Grammar.namedField] Grammar.positionalField ?_
    scheme_positionalField ?_
  · exact List.forall_mem_cons.2 ⟨scheme_keyedField, List.forall_mem_singleton.2
      scheme_namedField⟩
  · exact List.forall_mem_cons.2 ⟨h.keyedField.mono fun _ _ _ hf => ⟨fun _ => hf.1, hf.2⟩,
      List.forall_mem_cons.2 ⟨h.namedField.mono fun _ _ _ hf => ⟨fun _ => hf.1, hf.2⟩,
      List.forall_mem_singleton.2 (h.positionalField.mono fun _ _ _ hf => ⟨fun _ => hf.1, hf.2⟩)⟩⟩

omit h in
theorem fieldSeparator : Cleanly stream fieldSeparator fun i _ j => j = i + 1 ∧ ∃ s span,
    stream.get? i = some ⟨.symbol s, span⟩ ∧ (s = .comma ∨ s = .semicolon) := by
  refine (cleanly_satisfy _).mono ?_
  rintro i a j ⟨rfl, u, hget, accepted⟩
  obtain ⟨before, after, hsplit, -⟩ := List.lookup_eq_some_iff.1 accepted
  have hmem : (u, a.node) ∈ [(Token.symbol .comma, ()), (Token.symbol .semicolon, ())] := by
    rw [hsplit]
    simp
  simp only [List.mem_cons, Prod.mk.injEq, List.not_mem_nil, or_false] at hmem
  rcases hmem with ⟨rfl, -⟩ | ⟨rfl, -⟩
  · exact ⟨rfl, _, _, hget, .inl rfl⟩
  · exact ⟨rfl, _, _, hget, .inr rfl⟩

/-- There are more fields only after a separator. -/
theorem fields : Cleanly stream (fields inner) fun i fs j =>
    Arranged stream P i (fs.map .field) j ∧ stream.Writes (Fields L) i fs j := by
  have hround : Cleanly stream (fieldRound inner) fun i r j => r.elim (j = i) fun round => ∃ k,
      Occupies stream P i (.field round.1) k ∧ stream.Writes (IsField L) i round.1.node k ∧
      (round.2 = true → ∃ s span, stream.get? k = some ⟨.symbol s, span⟩ ∧
        (s = .comma ∨ s = .semicolon)) ∧ j = if round.2 then k + 1 else k := by
    refine h.field.optional_bind (fun f => ?_) (.pure fun _ _ _ => rfl)
    refine fieldSeparator.optional_bind (fun separator => .pure ?_) (.pure ?_)
    · rintro _ _ k _ ⟨rfl, hseparator⟩ i _ ⟨hf, hwrites⟩
      exact ⟨k, hf, hwrites, fun _ => hseparator, rfl⟩
    · rintro k _ _ i _ ⟨hf, hwrites⟩
      exact ⟨k, hf, hwrites, nofun, rfl⟩
  refine (hround.collect ?_).bounds.mono ?_
  · rintro i f j ⟨k, hf, -, -, rfl⟩
    exact Nat.lt_succ_of_lt hf.moves
  · rintro i fs j ⟨-, hj, hrounds⟩
    induction hrounds with
    | stop hnone =>
      obtain rfl := hnone
      exact ⟨.nil (Nat.le_refl _), _, .nil hj, .nil⟩
    | last hlast =>
      obtain ⟨k, hf, ⟨ts, hts, hwrites⟩, -, rfl⟩ := hlast
      exact ⟨.single hf, _, hts, .last hwrites⟩
    | more hmore _ ih =>
      obtain ⟨k, hf, ⟨ts, hts, hwrites⟩, hseparator, rfl⟩ := hmore
      obtain ⟨s, span, hget, hs⟩ := hseparator rfl
      obtain ⟨hrest, us, hus, hfields⟩ := ih hj
      exact ⟨.cons (Nat.le_refl _) hf (hrest.widen (Nat.le_succ _) (Nat.le_refl _)),
        _, hts.append (.cons hget hus), .more hwrites hs hfields⟩

theorem table : Cleanly stream (table inner) fun i t j => i < j ∧
    t.span = stream.spanBetween i j ∧ Arranged stream P i (t.node.map .field) j ∧
      stream.Writes (Table L) i t.node j := by
  refine (h.trims.moves scheme_table nofun).and (.located ?_)
  refine .token_bind fun _ => h.fields.bind fun fs => .token_bind fun _ => .pure ?_
  rintro _ _ k rfl hclose _ _ ⟨hfs, ts, hts, hfields⟩ i rfl hopen
  exact ⟨rfl, hfs.widen (Nat.le_succ i) (Nat.le_succ k), _, .cons hopen (hts.snoc hclose),
    .intro hfields⟩

/-! ### Names, calls and indexes -/

theorem nameHead : Cleanly stream nameHead fun i a j =>
    Occupies stream P i (.head a) j ∧ stream.Writes (IsHead L) i a.node j := by
  refine h.name.bind fun n => .pure ?_
  rintro j _ i _ ⟨rfl, hname, _, hts, ⟨_⟩⟩
  refine ⟨.intro hname.moves hname.size hname.span ?_ trivial (.nil hts.le), _, hts, .name n.node⟩
  exact h.holds ⟨_, hts, .name n.node⟩

theorem parenHead : Cleanly stream (parenHead inner) fun i a j =>
    Occupies stream P i (.head a) j ∧ stream.Writes (IsHead L) i a.node j := by
  refine h.located (g := .head) scheme_parenHead nofun (fun _ => rfl) (fun _ _ => trivial)
    (fun _ _ ha => ha) ?_
  refine .token_bind fun _ => h.expr.bind fun e => .token_bind fun _ => .pure ?_
  rintro _ _ k rfl hclose _ _ ⟨hexpr, ts, hts, he⟩ i rfl hopen
  exact ⟨fun _ => (Arranged.single hexpr).widen (Nat.le_succ i) (Nat.le_succ k), _,
    .cons hopen (hts.snoc hclose), .paren he⟩

theorem head : Cleanly stream (head inner) fun i a j =>
    Occupies stream P i (.head a) j ∧ stream.Writes (IsHead L) i a.node j := by
  refine h.alt [fun _ => Grammar.nameHead] Grammar.parenHead ?_ scheme_parenHead.asInner ?_
  · exact List.forall_mem_singleton.2 scheme_nameHead
  · exact List.forall_mem_cons.2 ⟨h.nameHead, List.forall_mem_singleton.2 h.parenHead⟩

theorem listArgs : Cleanly stream (listArgs inner) fun i a j =>
    Arranged stream P i a.nodes j ∧ stream.Writes (IsArgs L) i a j := by
  refine .token_bind fun _ => h.exprList.optional_bind (fun es => .token_bind fun _ => .pure ?_)
    (.token_bind fun _ => .pure ?_)
  · rintro _ _ k rfl hclose _ _ ⟨hes, ts, hts, hlisted⟩ i rfl hopen
    exact ⟨hes.widen (Nat.le_succ i) (Nat.le_succ k), _, .cons hopen (hts.snoc hclose),
      .list hlisted⟩
  · rintro _ _ k rfl hclose _ i rfl hopen
    exact ⟨.nil (Nat.le_add_right i 2), _, .cons hopen (.token hclose), .empty⟩

theorem tableArgs : Cleanly stream (tableArgs inner) fun i a j =>
    Arranged stream P i a.nodes j ∧ stream.Writes (IsArgs L) i a j := by
  refine h.table.bind fun fs => .pure ?_
  rintro j _ i _ ⟨-, -, hfs, ts, hts, htable⟩
  exact ⟨hfs, ts, hts, .table htable⟩

omit h in
theorem strArgs : Cleanly stream strArgs fun i a j =>
    Arranged stream P i a.nodes j ∧ stream.Writes (IsArgs L) i a j := by
  refine (cleanly_satisfy .str).bind fun raw => .pure ?_
  rintro _ _ i _ ⟨rfl, u, hget, haccept⟩
  obtain rfl : u = .str raw.node := by
    cases u <;> simp_all [Matcher.str]
  exact ⟨.nil (Nat.le_succ i), _, .token hget, .str raw.node⟩

theorem args : Cleanly stream (args inner) fun i a j =>
    Arranged stream P i a.node.nodes j ∧ stream.Writes (IsArgs L) i a.node j := by
  refine .located ?_
  refine h.alt [Grammar.listArgs, Grammar.tableArgs] (fun _ => Grammar.strArgs) ?_
    scheme_strArgs.asInner ?_
  · exact List.forall_mem_cons.2 ⟨scheme_listArgs, List.forall_mem_singleton.2 scheme_tableArgs⟩
  · exact List.forall_mem_cons.2 ⟨h.listArgs, List.forall_mem_cons.2 ⟨h.tableArgs,
      List.forall_mem_singleton.2 strArgs⟩⟩

theorem callSuffix : Cleanly stream (callSuffix inner) fun i s j =>
    Arranged stream P i s.nodes j ∧ stream.Writes (IsSuffix L) i s j := by
  refine h.args.bind fun a => .pure ?_
  rintro j _ i _ ⟨hargs, ts, hts, ha⟩
  exact ⟨hargs, ts, hts, .call ha⟩

theorem methodSuffix : Cleanly stream (methodSuffix inner) fun i s j =>
    Arranged stream P i s.nodes j ∧ stream.Writes (IsSuffix L) i s j := by
  refine .token_bind fun _ => h.name.bind fun n => h.args.bind fun a => .pure ?_
  rintro j _ _ _ ⟨hargs, ts, hts, ha⟩ _ _ ⟨rfl, hname, _, hn, ⟨_⟩⟩ i rfl hcolon
  exact ⟨.cons (Nat.le_succ i) hname hargs, _, .cons hcolon (hn.append hts), .method n ha⟩

theorem indexSuffix : Cleanly stream (indexSuffix inner) fun i s j =>
    Arranged stream P i s.nodes j ∧ stream.Writes (IsSuffix L) i s j := by
  refine .token_bind fun _ => h.expr.bind fun e => .token_bind fun _ => .pure ?_
  rintro _ _ k rfl hclose _ _ ⟨hexpr, ts, hts, he⟩ i rfl hopen
  exact ⟨(Arranged.single hexpr).widen (Nat.le_succ i) (Nat.le_succ k), _,
    .cons hopen (hts.snoc hclose), .index he⟩

theorem fieldSuffix : Cleanly stream fieldSuffix fun i s j =>
    Arranged stream P i s.nodes j ∧ stream.Writes (IsSuffix L) i s j := by
  refine .token_bind fun _ => h.name.bind fun n => .pure ?_
  rintro j _ _ _ ⟨rfl, hname, _, hn, ⟨_⟩⟩ i rfl hdot
  exact ⟨.cons (Nat.le_succ i) hname (.nil (Nat.le_refl _)), _, .cons hdot hn, .field n⟩

theorem suffix : Cleanly stream (suffix inner) fun i s j =>
    Occupies stream P i (.suffix s) j ∧ stream.Writes (IsSuffix L) i s.node j := by
  refine h.located (g := .suffix) scheme_suffix nofun (fun _ => rfl) (fun _ _ => trivial)
    (fun _ _ hs => hs) ?_
  refine h.alt [Grammar.callSuffix, Grammar.methodSuffix, Grammar.indexSuffix]
    (fun _ => Grammar.fieldSuffix) ?_ scheme_fieldSuffix.asInner ?_
  · exact List.forall_mem_cons.2 ⟨scheme_callSuffix, List.forall_mem_cons.2 ⟨scheme_methodSuffix,
      List.forall_mem_singleton.2 scheme_indexSuffix⟩⟩
  · exact List.forall_mem_cons.2 ⟨h.callSuffix.mono fun _ _ _ hs => ⟨fun _ => hs.1, hs.2⟩,
      List.forall_mem_cons.2 ⟨h.methodSuffix.mono fun _ _ _ hs => ⟨fun _ => hs.1, hs.2⟩,
      List.forall_mem_cons.2 ⟨h.indexSuffix.mono fun _ _ _ hs => ⟨fun _ => hs.1, hs.2⟩,
      List.forall_mem_singleton.2 (h.fieldSuffix.mono fun _ _ _ hs => ⟨fun _ => hs.1, hs.2⟩)⟩⟩⟩

theorem suffixes : Cleanly stream (many (Grammar.suffix inner)) fun i ss j =>
    Arranged stream P i (ss.map .suffix) j ∧ stream.Writes (Suffixes L) i ss j := by
  refine (h.suffix.many fun _ _ _ hs => hs.1.moves).bounds.mono ?_
  rintro i ss j ⟨-, hj, hseries⟩
  induction hseries with
  | nil _ => exact ⟨.nil (Nat.le_refl _), _, .nil hj, .nil⟩
  | cons hs _ ih =>
    obtain ⟨hfirst, ts, hts, hsuffix⟩ := hs
    obtain ⟨hrest, us, hus, hsuffixes⟩ := ih hj
    exact ⟨.cons (Nat.le_refl _) hfirst hrest, _, hts.append hus, .cons hsuffix hsuffixes⟩

theorem prefixExp : Cleanly stream (prefixExp inner .unrestricted) fun i p j => i < j ∧
    p.span = stream.spanBetween i j ∧ Arranged stream P i p.nodes j ∧
      stream.Writes (Access L) i p j := by
  obtain ⟨law, L', hsound⟩ := h.trims.sound
  have hparts : Cleanly stream (Grammar.prefixExp inner .unrestricted) fun i p j =>
      Arranged stream P i p.nodes j ∧ stream.Writes (Access L) i p j := by
    refine .congr ?_ fun _ _ hs => prefixExp_unrestricted hsound hs
    refine h.head.bind fun a => h.suffixes.bind fun ss => .pure ?_
    rintro j _ k _ ⟨hss, us, hus, hsuffixes⟩ i _ ⟨ha, ts, hts, hhead⟩
    exact ⟨.cons (Nat.le_refl i) ha hss, _, hts.append hus, .intro hhead hsuffixes⟩
  exact (h.trims.prefixExp.and hparts).mono fun _ _ _ hp => ⟨hp.1.1, hp.1.2.1, hp.2⟩

/-! ### Atoms -/

/-- An expression that is one token. -/
theorem literal {t : Token} {span : Span} {e : Expr} (hget : stream.get? i = some ⟨t, span⟩)
    (hatom : Atom L [t] e) (hnodes : e.nodes = []) :
    WrittenExpr stream P (Atom L) i ⟨e, span⟩ (i + 1) := by
  refine ⟨occupies_token h.trims.apart hget rfl ?_ (fun _ => trivial) hnodes, _, .token hget, hatom⟩
  exact h.holds ⟨_, .token hget, disjunction_of_atom hatom⟩

theorem keywordExpr (t : Token) {e : Expr} (hatom : Atom L [t] e) (hnodes : e.nodes = []) :
    Cleanly stream (Grammar.literal t e) (WrittenExpr stream P (Atom L)) := by
  refine .token_bind fun span => .pure ?_
  rintro _ _ i rfl hget
  exact h.literal hget hatom hnodes

theorem number : Cleanly stream ((·.map Expr.number) <$> number)
    (WrittenExpr stream P (Atom L)) := by
  refine .map ((cleanly_satisfy .number).mono ?_)
  rintro i raw _ ⟨rfl, u, hget, haccept⟩
  obtain rfl : u = .number raw.node := by
    cases u <;> simp_all [Matcher.number]
  exact h.literal hget (.number raw.node) rfl

theorem str : Cleanly stream ((·.map Expr.str) <$> str) (WrittenExpr stream P (Atom L)) := by
  refine .map ((cleanly_satisfy .str).mono ?_)
  rintro i raw _ ⟨rfl, u, hget, haccept⟩
  obtain rfl : u = .str raw.node := by
    cases u <;> simp_all [Matcher.str]
  exact h.literal hget (.str raw.node) rfl

theorem accessExpr : Cleanly stream (accessExpr inner) (WrittenExpr stream P (Atom L)) := by
  refine h.prefixExp.bind fun p => .pure ?_
  rintro j _ i _ ⟨hlt, hspan, hparts, ts, hts, hp⟩
  have hatom : Atom L ts (.access p) := .access hp
  exact ⟨h.occupies_expr hlt hspan ⟨ts, hts, disjunction_of_atom hatom⟩ hparts, ts, hts, hatom⟩

theorem tableExpr : Cleanly stream (tableExpr inner) (WrittenExpr stream P (Atom L)) := by
  refine h.table.bind fun fs => .pure ?_
  rintro j _ i _ ⟨hlt, hspan, hparts, ts, hts, hfs⟩
  have hatom : Atom L ts (.table fs.node) := .table hfs
  exact ⟨h.occupies_expr hlt hspan ⟨ts, hts, disjunction_of_atom hatom⟩ hparts, ts, hts, hatom⟩

theorem atom : Cleanly stream (atom inner) (WrittenExpr stream P (Atom L)) := by
  have hatoms : ∀ rule ∈ atoms, Cleanly stream (rule inner) (WrittenExpr stream P (Atom L)) := by
    simp only [atoms, List.forall_mem_cons]
    exact ⟨h.keywordExpr _ .nil rfl, h.keywordExpr _ .false rfl, h.keywordExpr _ .true rfl,
      h.number, h.str, h.keywordExpr _ .vararg rfl, h.functionExpr, h.accessExpr, h.tableExpr,
      List.forall_mem_nil _⟩
  exact h.alt atoms.dropLast Grammar.tableExpr
    (fun rule hrule => scheme_of_mem_atoms rule (List.dropLast_subset _ hrule))
    scheme_tableExpr.asInner hatoms

/-! ### Operators -/

omit h in
theorem operator {ops : List (Token × α)} (hne : ops ≠ []) :
    Cleanly stream (oneOf ops) fun i op j => j = i + 1 ∧
      ∃ t, stream.get? i = some ⟨t, op.span⟩ ∧ (t, op.node) ∈ ops := by
  cases ops with
  | nil => exact absurd rfl hne
  | cons op ops =>
    refine (cleanly_satisfy (.oneOf op.1 op.2 ops)).mono ?_
    rintro i a j ⟨rfl, t, hget, accepted⟩
    obtain ⟨before, after, hsplit, -⟩ := List.lookup_eq_some_iff.1 accepted
    refine ⟨rfl, t, hget, ?_⟩
    show (t, a.node) ∈ (op.1, op.2) :: ops
    rw [hsplit]
    simp

omit h in
theorem operands {operand : Rule β} {ops : List (Token × BinOp)} {Q : Nat → β → Nat → Prop}
    (hne : ops ≠ []) (hoperand : Cleanly stream operand Q) (hQ : ∀ i a j, Q i a j → i < j) :
    Cleanly stream (operands ops operand) (Joined stream ops Q) := by
  have hround : Cleanly stream (operandRound ops operand) fun i r j =>
      r.elim (j = i) fun round => round.2 = true ∧ Q (i + 1) round.1.2 j ∧
        ∃ t, stream.get? i = some ⟨t, round.1.1.span⟩ ∧ (t, round.1.1.node) ∈ ops := by
    refine (operator hne).optional_bind (fun op => hoperand.bind fun a => .pure ?_)
      (.pure fun _ _ _ => rfl)
    rintro j _ _ _ ha i _ ⟨rfl, hop⟩
    exact ⟨rfl, ha, hop⟩
  refine (hround.collect fun i _ j hr => Nat.lt_of_succ_lt (hQ _ _ _ hr.2.1)).mono ?_
  intro i others j hrounds
  induction hrounds with
  | stop hnone =>
    obtain rfl := hnone
    exact .nil _
  | last hlast => cases hlast.1
  | more hmore _ ih =>
    obtain ⟨-, ha, t, hget, hop⟩ := hmore
    exact .cons hget hop ha ih

/-- Two operands and the operator between them. -/
theorem binary {lhs rhs : Located Expr} {op : Located BinOp} {t : Token}
    (hlhs : Occupies stream P i (.expr lhs) k) (hget : stream.get? k = some ⟨t, op.span⟩)
    (hop : (t, op.node) ∈ binaryOps) (hrhs : Occupies stream P (k + 1) (.expr rhs) j)
    (hwrites : stream.Writes (Disjunction L) i (.binary op lhs rhs) j) :
    Occupies stream P i (.expr (Expr.ofBinary op lhs rhs)) j := by
  have hlt := hlhs.moves
  have hlt' := hrhs.moves
  have hjoin := h.trims.apart.spanBetween_join hlt (Nat.le_succ k) hlt' hrhs.size
  have hoperator : Occupies stream P k (.binOp op) (k + 1) :=
    occupies_token h.trims.apart hget rfl (h.holds ⟨_, .token hget, t, rfl, hop⟩) (fun _ => trivial)
      rfl
  have hspan : (Expr.ofBinary op lhs rhs).span = stream.spanBetween i j := by
    rw [← hjoin]
    exact congrArg₂ Span.join hlhs.span hrhs.span
  refine h.occupies_expr (by omega) hspan hwrites ?_
  exact .cons (Nat.le_refl i) hlhs (.cons (Nat.le_refl k) hoperator (.single hrhs))

theorem unary {operand : Located Expr} {op : Located UnOp} {t : Token}
    (hget : stream.get? i = some ⟨t, op.span⟩) (hop : (t, op.node) ∈ unaryOps)
    (hoperand : WrittenExpr stream P (Unary L) (i + 1) operand j) :
    WrittenExpr stream P (Unary L) i (Expr.ofUnary op operand) j := by
  obtain ⟨hinner, ts, hts, he⟩ := hoperand
  have hlt := hinner.moves
  have hjoin := h.trims.apart.spanBetween_join (Nat.lt_succ_self i) (Nat.le_refl _) hlt hinner.size
  have hoperator : Occupies stream P i (.unOp op) (i + 1) :=
    occupies_token h.trims.apart hget rfl (h.holds ⟨_, .token hget, t, rfl, hop⟩) (fun _ => trivial)
      rfl
  have hspan : (Expr.ofUnary op operand).span = stream.spanBetween i j := by
    rw [← hjoin]
    exact congrArg₂ Span.join hoperator.span hinner.span
  have hunary : Unary L (t :: ts) (.unary op operand) := .operator hop he
  refine ⟨h.occupies_expr (Nat.lt_of_succ_lt hlt) hspan ?_ ?_, _, .cons hget hts, hunary⟩
  · exact ⟨_, .cons hget hts, disjunction_of_unary hunary⟩
  · exact .cons (Nat.le_refl i) hoperator (.single hinner)

/-- Each operand is joined to all those before it. -/
theorem leftGrouped {operand : Rule (Located Expr)} {ops : List (Token × BinOp)}
    {derived : List Token → Expr → Prop} (hne : ops ≠ []) (hops : ops ⊆ binaryOps)
    (hderived : ∀ ts e, LeftAssoc ops derived ts e → Disjunction L ts e)
    (hoperand : Cleanly stream operand (WrittenExpr stream P derived)) :
    Cleanly stream (leftGrouped operand ops) (WrittenExpr stream P (LeftAssoc ops derived)) := by
  have hothers := operands hne hoperand fun _ _ _ he => he.1.moves
  rw [leftGrouped_eq]
  refine hoperand.bind fun first => hothers.bind fun others => .pure ?_
  rintro j - k - hjoined i - hfirst
  replace hfirst : WrittenExpr stream P (LeftAssoc ops derived) i first k :=
    hfirst.mono fun _ _ => .operand
  induction hjoined generalizing first with
  | nil => exact hfirst
  | @cons k m _ t op e _ hget hop he _ ih =>
    obtain ⟨hlhs, ts, hts, hleft⟩ := hfirst
    obtain ⟨hrhs, us, hus, hright⟩ := he
    have hwrites : stream.Writes (LeftAssoc ops derived) i (.binary op first e) m :=
      ⟨_, hts.append (.cons hget hus), .binary hleft hop hright⟩
    exact ih _ ⟨h.binary hlhs hget (hops hop) hrhs (hwrites.mono hderived), hwrites⟩

/-- Each operand is joined to all those after it. -/
theorem rightGrouped {operand : Rule (Located Expr)} {ops : List (Token × BinOp)}
    {derived : List Token → Expr → Prop} (hne : ops ≠ []) (hops : ops ⊆ binaryOps)
    (hderived : ∀ ts e, RightAssoc ops derived ts e → Disjunction L ts e)
    (hoperand : Cleanly stream operand (WrittenExpr stream P derived)) :
    Cleanly stream (chain operand ops) fun i ch j =>
      WrittenExpr stream P (RightAssoc ops derived) i (groupRight ch.1 ch.2) j := by
  have hothers := operands hne hoperand fun _ _ _ he => he.1.moves
  refine hoperand.bind fun first => hothers.bind fun others => .pure ?_
  rintro j - k - hjoined i - hfirst
  induction hjoined generalizing i first with
  | nil => exact hfirst.mono fun _ _ => .operand
  | @cons k m j t op e others hget hop he _ ih =>
    obtain ⟨hrhs, us, hus, hright⟩ := ih _ _ he
    obtain ⟨hlhs, ts, hts, hleft⟩ := hfirst
    have hwrites : stream.Writes (RightAssoc ops derived) i
        (.binary op first (groupRight e others)) j :=
      ⟨_, hts.append (.cons hget hus), .binary hleft hop hright⟩
    exact ⟨h.binary hlhs hget (hops hop) hrhs (hwrites.mono hderived), hwrites⟩

theorem signed : Cleanly stream (signed inner) (Signs stream P L) := by
  have hops : unaryOps ≠ [] := List.cons_ne_nil _ _
  refine ((operator hops).many fun _ _ _ hop => hop.1 ▸ Nat.lt_succ_self _).bind fun ops =>
    h.atom.bind fun e => .pure ?_
  rintro j - k - he i - hseries
  refine ⟨k, he, fun e' m he' => ?_⟩
  unfold Signed.apply
  dsimp only
  clear he
  induction hseries with
  | nil _ => exact he'
  | cons hop _ ih =>
    obtain ⟨rfl, t, hget, hmem⟩ := hop
    exact h.unary hget hmem (ih he')

/-- Each base, after its unary operators, is raised to all that follows it. -/
theorem groupPower {others : List (Located BinOp × Signed)} {first : Signed}
    (hothers : Joined stream powOps (Signs stream P L) k others j)
    (hfirst : Signs stream P L i first k) :
    WrittenExpr stream P (Unary L) i (groupPower first others) j := by
  induction hothers generalizing i first with
  | nil =>
    obtain ⟨k, hoperand, hsigns⟩ := hfirst
    exact hsigns _ _ (hoperand.mono fun _ _ => .atom)
  | @cons k m j t op next others hget hop hnext _ ih =>
    obtain ⟨n, ⟨hbase, ts, hts, hatom⟩, hsigns⟩ := hfirst
    obtain ⟨hexponent, us, hus, hunary⟩ := ih hnext
    have hwrites : stream.Writes (Unary L) n
        (.binary op first.operand (Operator.groupPower next others)) j :=
      ⟨_, hts.append (.cons hget hus), .power hatom hop hunary⟩
    refine hsigns _ _ ⟨h.binary hbase hget ?_ hexponent ?_, hwrites⟩
    · exact (by decide : powOps ⊆ binaryOps) hop
    · exact hwrites.mono fun _ _ => disjunction_of_unary

theorem unaryExpr : Cleanly stream (unaryExpr inner) (WrittenExpr stream P (Unary L)) := by
  rw [unaryExpr_eq]
  have hmoves (i : Nat) (t : Signed) (j : Nat) (ht : Signs stream P L i t j) : i < j := by
    obtain ⟨k, hoperand, hsigns⟩ := ht
    exact (hsigns _ _ (hoperand.mono fun _ _ => .atom)).1.moves
  have hne : powOps ≠ [] := List.cons_ne_nil _ _
  have hothers := operands hne h.signed hmoves
  refine h.signed.bind fun first => hothers.bind fun others => .pure ?_
  rintro j _ k _ hjoined i _ hfirst
  exact h.groupPower hjoined hfirst

theorem mulExpr : Cleanly stream (mulExpr inner) (WrittenExpr stream P (Product L)) :=
  h.leftGrouped (List.cons_ne_nil _ _) (by decide)
    (fun _ _ he => .operand (.operand (.operand (.operand (.operand he))))) h.unaryExpr

theorem addExpr : Cleanly stream (addExpr inner) (WrittenExpr stream P (Sum L)) :=
  h.leftGrouped (List.cons_ne_nil _ _) (by decide)
    (fun _ _ he => .operand (.operand (.operand (.operand he)))) h.mulExpr

theorem concatExpr : Cleanly stream (concatExpr inner) (WrittenExpr stream P (Concat L)) := by
  rw [concatExpr_eq]
  refine (h.rightGrouped (List.cons_ne_nil _ _) (by decide)
    (fun _ _ he => .operand (.operand (.operand he))) h.addExpr).bind fun ch => .pure ?_
  exact fun _ _ _ _ hch => hch

theorem compareExpr : Cleanly stream (compareExpr inner)
    (WrittenExpr stream P (Comparison L)) :=
  h.leftGrouped (List.cons_ne_nil _ _) (by decide) (fun _ _ he => .operand (.operand he))
    h.concatExpr

theorem andExpr : Cleanly stream (andExpr inner) (WrittenExpr stream P (Conjunction L)) :=
  h.leftGrouped (List.cons_ne_nil _ _) (by decide) (fun _ _ he => .operand he) h.compareExpr

theorem orExpr : Cleanly stream (orExpr inner) (WrittenExpr stream P (Disjunction L)) :=
  h.leftGrouped (List.cons_ne_nil _ _) (by decide) (fun _ _ he => he) h.andExpr

end Level.Lays

end Grammar

end LuaSyntax
