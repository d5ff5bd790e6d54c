import LuaSyntax.Grammar.Nesting
import LuaSyntax.Proofs.Grammar.ExprReads
import LuaSyntax.Proofs.Grammar.NestSound
import LuaSyntax.Proofs.Grammar.StmtSound
/-!
# What the statement rules read

One lemma for each rule: it reads what is derived in its place, and gives the same tree up to spans.
-/

namespace LuaSyntax.Grammar

open Rule Operator LuaSyntax.Language

/-- The next token, if there is one, starts something new after a statement. -/
def StmtEnds (next : Option Token) : Prop :=
  ∀ t, next = some t → resumesAt t = true ∧ t ≠ .symbol .openParen

theorem tightness_of_resumesAt {t : Token} (h : resumesAt t = true)
    (hparen : t ≠ .symbol .openParen) :
    t.tightness = 0 ∧ t ≠ .symbol .comma ∧ t ≠ .symbol .equal := by
  cases t with
  | keyword k => cases k <;> first | (cases h; done) | exact ⟨rfl, by simp, by simp⟩
  | symbol s =>
    cases s <;> first | (cases h; done) | exact absurd rfl hparen | exact ⟨rfl, by simp, by simp⟩
  | str => cases h
  | _ => exact ⟨rfl, by simp, by simp⟩

theorem StmtEnds.looser {next : Option Token} (h : StmtEnds next) : Looser 1 next := by
  intro t ht
  obtain ⟨hresumes, hparen⟩ := h t ht
  rw [(tightness_of_resumesAt hresumes hparen).1]
  exact Nat.zero_lt_one

theorem StmtEnds.ne_comma {next : Option Token} (h : StmtEnds next) :
    next ≠ some (.symbol .comma) := by
  intro hnext
  obtain ⟨hresumes, hparen⟩ := h _ hnext
  exact (tightness_of_resumesAt hresumes hparen).2.1 rfl

theorem StmtEnds.ne_equal {next : Option Token} (h : StmtEnds next) :
    next ≠ some (.symbol .equal) := by
  intro hnext
  obtain ⟨hresumes, hparen⟩ := h _ hnext
  exact (tightness_of_resumesAt hresumes hparen).2.2 rfl

theorem StmtEnds.listEnds {next : Option Token} (h : StmtEnds next) : ListEnds next :=
  ⟨h.looser, h.ne_comma⟩

theorem BlockEnds.stmtEnds {next : Option Token} (h : BlockEnds next) : StmtEnds next := by
  intro t ht
  have hends := h t ht
  refine ⟨by simp [resumesAt, hends], ?_⟩
  rintro rfl
  cases hends

theorem blockEnds_some {t : Token} (h : t.endsBlock = true) : BlockEnds (some t) := by
  rintro u ⟨⟩
  exact h

variable {L : Language} {inner : Level} {ts us : List Token} {follow : Option Token → Prop}

/-! ### Compound statements -/

theorem reads_clause (h : inner.Complete L) {c : IfClause} (hc : Clause L ts c) :
    Reads (ifClause inner) ts BlockEnds fun d => d.same c = true := by
  cases hc with
  | intro hcond hbody =>
    refine (h.expr hcond).bind_before (looser_some (by decide)) fun e he =>
      reads_token_bind fun _ => (h.block hbody).bind_last fun b hb => .pure ?_
    simp [IfClause.same, he, hb]

/-- What may follow the clauses of an `if` statement. -/
def ClausesEnd (next : Option Token) : Prop :=
  BlockEnds next ∧ next ≠ some (.keyword .elseif_)

theorem reads_no_clauses (inner : Level) :
    Reads (many (elseifClause inner)) [] ClausesEnd (· = []) := by
  have hneeds : Needs (· == .keyword .elseif_) (elseifClause inner) := (needs_keyword _).bind
  refine hneeds.many.mono_follow fun next hnext t ht => ?_
  rw [beq_eq_false_iff_ne]
  rintro rfl
  exact hnext.2 ht

theorem reads_clauses (h : inner.Complete L) {word : Keyword} {cs : List IfClause}
    (hcs : Clauses L word ts cs) (hword : word = .elseif_) :
    Reads (many (elseifClause inner)) ts ClausesEnd fun ds => sameClauses ds cs = true := by
  have hread {ts : List Token} {c : IfClause} (hc : Clause L ts c) :
      Reads (elseifClause inner) (.keyword .elseif_ :: ts) BlockEnds fun d => d.same c = true :=
    reads_token_bind fun _ => reads_clause h hc
  induction hcs with
  | one hc =>
    subst hword
    have hmany := Reads.many_cons (by simp) (hread hc) (reads_no_clauses inner) fun _ hvs => hvs.1
    rw [List.append_nil] at hmany
    refine hmany.mono ?_
    rintro _ ⟨d, _, rfl, hd, rfl⟩
    simp [sameClauses, hd]
  | more hc hrest ih =>
    subst hword
    refine (Reads.many_cons (by simp) (hread hc) (ih rfl) fun vs _ => ?_).mono ?_
    · rw [List.head?_append, hrest.head?]
      exact blockEnds_some rfl
    · rintro _ ⟨d, ds, rfl, hd, hds⟩
      simp [sameClauses, hd, hds]

theorem reads_else (h : inner.Complete L) {b : Option Block} (hb : Else L ts b) :
    Reads (optional (elseBlock inner)) ts (· = some (.keyword .end_))
      fun a => sameBlock? a b = true := by
  cases hb with
  | none =>
    have hneeds : Needs (· == .keyword .else_) (elseBlock inner) := (needs_keyword _).bind
    refine (hneeds.optional.mono_follow ?_).mono ?_
    · rintro _ rfl
      exact without_some rfl
    · rintro _ rfl
      rfl
  | some hb =>
    have hread : Reads (elseBlock inner) _ BlockEnds fun a => a.same _ = true :=
      reads_token_bind fun _ => h.block hb
    refine (hread.optional.mono_follow ?_).mono ?_
    · rintro _ rfl
      exact blockEnds_some rfl
    · rintro _ ⟨a, rfl, ha⟩
      exact ha

theorem reads_ifStmt (h : inner.Complete L) {cs es : List Token} {clauses : List IfClause}
    {otherwise : Option Block} (hclauses : Clauses L .if_ cs clauses)
    (hotherwise : Else L es otherwise) :
    Reads (ifStmt inner) (cs ++ es ++ [.keyword .end_]) follow
      fun s => s.same (.conditional clauses otherwise) = true := by
  have hrest {d : IfClause} {ds : List IfClause} (hds : sameClauses (d :: ds) clauses = true) :
      Reads (do
        let otherwise ← optional (elseBlock inner)
        let _ ← keyword .end_
        return Stmt.conditional (d :: ds) otherwise) (es ++ [.keyword .end_]) follow
        fun s => s.same (.conditional clauses otherwise) = true := by
    refine (reads_else h hotherwise).bind_before rfl fun b hb => reads_token_bind fun _ => .pure ?_
    simp [Stmt.same, hds, hb]
  have hends : ∀ vs : List Token, ClausesEnd (es ++ [Token.keyword .end_] ++ vs).head? := by
    intro vs
    cases hotherwise with
    | none => exact ⟨blockEnds_some rfl, by simp⟩
    | some _ => exact ⟨blockEnds_some rfl, by simp⟩
  rw [List.append_assoc]
  cases hclauses with
  | one hc =>
    refine reads_token_bind fun _ =>
      (reads_clause h hc).bind (fun d hd => ?_) fun vs _ => (hends vs).1
    refine (reads_no_clauses inner).bind_first ?_ fun vs _ => hends vs
    rintro _ rfl
    exact hrest (by simp [sameClauses, hd])
  | more hc hcs =>
    rw [List.append_assoc]
    refine reads_token_bind fun _ => (reads_clause h hc).bind (fun d hd => ?_) fun vs _ => ?_
    · exact (reads_clauses h hcs rfl).bind (fun ds hds => hrest (by simp [sameClauses, hd, hds]))
        fun vs _ => hends vs
    · rw [List.append_assoc, List.head?_append, hcs.head?]
      exact blockEnds_some rfl

/-- A block between the word that opens it, which has been read, and `end`. -/
theorem reads_body (h : inner.Complete L) {α : Type} {b : Block} {f : Block → α} {P : α → Prop}
    (hb : L.block ts b) (hf : ∀ a, a.same b = true → P (f a)) :
    Reads (do
      let body ← inner.block
      let _ ← keyword .end_
      return f body) (ts ++ [.keyword .end_]) follow P :=
  (h.block hb).bind_before (blockEnds_some rfl) fun a ha =>
    reads_token_bind fun _ => .pure (hf a ha)

theorem reads_doStmt (h : inner.Complete L) {b : Block} (hb : L.block ts b) :
    Reads (doStmt inner) (.keyword .do_ :: (ts ++ [.keyword .end_])) follow
      fun s => s.same (.block b) = true :=
  reads_token_bind fun _ => reads_body h hb fun _ ha => ha

theorem reads_whileStmt (h : inner.Complete L) {cond : Located Expr} {b : Block}
    (hcond : L.expr ts cond.node) (hb : L.block us b) :
    Reads (whileStmt inner)
      (.keyword .while_ :: (ts ++ .keyword .do_ :: (us ++ [.keyword .end_]))) follow
      fun s => s.same (.whileLoop cond b) = true :=
  reads_token_bind fun _ => (h.expr hcond).bind_before (looser_some (by decide)) fun e he =>
    reads_token_bind fun _ => reads_body h hb fun a ha => by simp [Stmt.same, he, ha]

theorem reads_repeatStmt (h : inner.Complete L) {cond : Located Expr} {b : Block}
    (hb : L.block ts b) (hcond : L.expr us cond.node) :
    Reads (repeatStmt inner) (.keyword .repeat_ :: (ts ++ .keyword .until_ :: us)) (Looser 1)
      fun s => s.same (.repeatLoop b cond) = true :=
  reads_token_bind fun _ => (h.block hb).bind_before (blockEnds_some rfl) fun a ha =>
    reads_token_bind fun _ => (h.expr hcond).bind_last fun e he =>
      .pure (by simp [Stmt.same, he, ha])

theorem reads_step (h : inner.Complete L) (forSpan : Span) {step : Located Expr}
    (hstep : (ts = [] ∧ step.node = .number "1") ∨
      ∃ us, ts = .symbol .comma :: us ∧ L.expr us step.node) :
    Reads (optional (following .comma inner.expr)) ts (· = some (.keyword .do_))
      fun r => (r.getD ⟨.number "1", forSpan⟩).node.same step.node = true := by
  rcases hstep with ⟨rfl, hone⟩ | ⟨us, rfl, hstep⟩
  · have hneeds : Needs (· == .symbol .comma) (following .comma inner.expr) :=
      (needs_symbol _).bind
    refine (hneeds.optional.mono_follow ?_).mono ?_
    · rintro _ rfl
      exact without_some rfl
    · rintro _ rfl
      rw [hone]
      rfl
  · have hread : Reads (following .comma inner.expr) (.symbol .comma :: us) (Looser 1)
        fun a => a.node.same step.node = true := reads_token_bind fun _ => h.expr hstep
    refine (hread.optional.mono_follow ?_).mono ?_
    · rintro _ rfl
      exact looser_some (by decide)
    · rintro _ ⟨a, rfl, ha⟩
      exact ha

theorem reads_numericFor (h : inner.Complete L) {xs ys zs bs : List Token} {forSpan : Span}
    {var var' : Located Name} {start stop step : Located Expr} {b : Block}
    (hvar : var'.node = var.node) (hstart : L.expr xs start.node) (hstop : L.expr ys stop.node)
    (hstep : (zs = [] ∧ step.node = .number "1") ∨
      ∃ us, zs = .symbol .comma :: us ∧ L.expr us step.node) (hb : L.block bs b) :
    Reads (numericFor inner forSpan var')
      (.symbol .equal :: (xs ++ .symbol .comma :: (ys ++ (zs ++ .keyword .do_ ::
        (bs ++ [.keyword .end_]))))) follow
      fun s => s.same (.numericFor var start stop step b) = true := by
  refine reads_token_bind fun _ => (h.expr hstart).bind_before (looser_some (by decide)) fun e he =>
    reads_token_bind fun _ => (h.expr hstop).bind (fun f hf => ?_) fun vs _ => ?_
  · exact (reads_step h forSpan hstep).bind_before rfl fun r hr => reads_token_bind fun _ =>
      reads_body h hb fun a ha => by simp [Stmt.same, Located.sameNode, hvar, he, hf, hr, ha]
  · rcases hstep with ⟨rfl, -⟩ | ⟨us, rfl, -⟩
    · exact looser_some (by decide)
    · exact looser_some (by decide)

theorem sameNodes_cons {m n : Located Name} {ms ns : List (Located Name)} (h : m.node = n.node)
    (hs : sameNodes ms ns = true) : sameNodes (m :: ms) (n :: ns) = true :=
  sameNodes_iff.2 (.cons h (sameNodes_iff.1 hs))

/-- Names of which the first has been read. -/
theorem reads_moreNames {separator : Symbol} {ns : List (Located Name)}
    (h : Listed separator IsName ts ns) :
    ∃ n ms us, ns = n :: ms ∧ ts = .ident n.node :: us ∧
      (us = [] ∨ us.head? = some (.symbol separator)) ∧
      Reads (many (following separator name)) us (· ≠ some (.symbol separator))
        fun ks => sameNodes ks ms = true := by
  have hname : ∀ {ts : List Token} {n : Name}, IsName ts n →
      Reads name ts (fun _ => True) fun m => m.node = n := by
    intro ts n hn
    cases hn
    exact reads_name n
  cases h with
  | one h =>
    cases h
    refine ⟨_, [], [], rfl, rfl, .inl rfl,
      (reads_no_others.mono_follow fun _ hn => ⟨trivial, hn⟩).mono ?_⟩
    rintro _ rfl
    rfl
  | more h hrest =>
    cases h
    refine ⟨_, _, _, rfl, rfl, .inr rfl, ?_⟩
    exact ((reads_others (R := Eq) hname trivial hrest).mono_follow fun _ hn => ⟨trivial, hn⟩).mono
      fun ks hks => sameNodes_iff.2 hks

/-- A generic loop whose first variable has been read. -/
theorem reads_genericFor (h : inner.Complete L) {ns es bs : List Token} {n m : Located Name}
    {ms : List (Located Name)} {exprs : List (Located Expr)} {b : Block}
    (hm : m.node = n.node)
    (hmore : Reads (many (following .comma name)) ns (· ≠ some (.symbol .comma))
      fun ks => sameNodes ks ms = true)
    (hexprs : Listed .comma L.expr es exprs) (hb : L.block bs b) :
    Reads (genericFor inner m)
      (ns ++ .keyword .in_ :: (es ++ .keyword .do_ :: (bs ++ [.keyword .end_]))) follow
      fun s => s.same (.genericFor (n :: ms) exprs b) = true := by
  refine hmore.bind_before (by simp) fun ks hks => reads_token_bind fun _ =>
    (reads_exprList h hexprs).bind_before ⟨looser_some (by decide), by simp⟩ fun fs hfs =>
    reads_token_bind fun _ => reads_body h hb fun a ha => ?_
  simp [Stmt.same, sameNodes_cons hm hks, hfs, ha]

/-- The `=` after the variable tells a numeric loop from a generic one. -/
theorem reads_forStmt_numeric (h : inner.Complete L) {xs ys zs bs : List Token} (var : Located Name)
    {start stop step : Located Expr} {b : Block} (hstart : L.expr xs start.node)
    (hstop : L.expr ys stop.node)
    (hstep : (zs = [] ∧ step.node = .number "1") ∨
      ∃ us, zs = .symbol .comma :: us ∧ L.expr us step.node) (hb : L.block bs b) :
    Reads (forStmt inner) (.keyword .for_ :: .ident var.node :: .symbol .equal ::
        (xs ++ .symbol .comma :: (ys ++ (zs ++ .keyword .do_ :: (bs ++ [.keyword .end_]))))) follow
      fun s => s.same (.numericFor var start stop step b) = true := by
  refine reads_token_bind fun _ => (reads_name _).bind_any fun m hm => ?_
  exact .alt [] (reads_numericFor h hm hstart hstop hstep hb) (by simp)

theorem reads_forStmt_generic (h : inner.Complete L) {ns es bs : List Token}
    {vars : List (Located Name)} {exprs : List (Located Expr)} {b : Block}
    (hvars : Listed .comma IsName ns vars) (hexprs : Listed .comma L.expr es exprs)
    (hb : L.block bs b) :
    Reads (forStmt inner) (.keyword .for_ ::
        (ns ++ .keyword .in_ :: (es ++ .keyword .do_ :: (bs ++ [.keyword .end_])))) follow
      fun s => s.same (.genericFor vars exprs b) = true := by
  obtain ⟨n, ms, us, rfl, rfl, hhead, hmore⟩ := reads_moreNames hvars
  refine reads_token_bind fun forSpan => (reads_name _).bind_any fun m hm => ?_
  refine .alt [numericFor inner forSpan m] (reads_genericFor h hm hmore hexprs hb) fun vs _ => ?_
  rw [List.forall_mem_singleton]
  rcases hhead with rfl | hhead
  · exact (needs_symbol .equal).bind.refuses rfl rfl
  · obtain ⟨us, rfl⟩ := List.head?_eq_some_iff.1 hhead
    exact (needs_symbol .equal).bind.refuses rfl rfl

/-! ### Functions -/

theorem reads_funcName {n : FuncName} (h : IsFuncName ts n) :
    Reads funcName ts (· = some (.symbol .openParen)) fun m => m.same n = true := by
  have hneeds : Needs (· == .symbol .colon) (following .colon name) := (needs_symbol _).bind
  cases h with
  | plain h =>
    obtain ⟨n, ms, us, rfl, rfl, -, hmore⟩ := reads_moreNames h
    refine (reads_name _).bind_any fun m hm => (hmore.mono_follow ?_).bind_last fun ks hks => ?_
    · rintro _ rfl
      simp
    · refine (hneeds.optional.mono_follow ?_).bind_last ?_
      · rintro _ rfl
        exact without_some rfl
      · rintro _ rfl
        exact .pure (by simp [FuncName.same, sameNodes_cons hm hks])
  | method h k =>
    obtain ⟨n, ms, us, rfl, rfl, -, hmore⟩ := reads_moreNames h
    refine (reads_name _).bind_any fun m hm => hmore.bind_before (by simp) fun ks hks => ?_
    have hread : Reads (following .colon name) [.symbol .colon, .ident k.node]
        (· = some (.symbol .openParen)) fun l => l.node = k.node :=
      reads_token_bind fun _ => reads_name _
    refine hread.optional.bind_last ?_
    rintro _ ⟨l, rfl, hl⟩
    exact .pure (by simp [FuncName.same, sameNodes_cons hm hks, hl])

theorem reads_functionStmt (h : inner.Complete L) {n : FuncName} {f : FuncBody}
    (hn : IsFuncName ts n) (hf : Func L us f) :
    Reads (functionStmt inner) (.keyword .function_ :: (ts ++ us)) follow
      fun s => s.same (.function n f) = true := by
  refine reads_token_bind fun _ => (reads_funcName hn).bind (fun m hm =>
    (reads_funcBody h hf).bind_last fun g hg => .pure (by simp [Stmt.same, hm, hg])) fun vs _ => ?_
  cases hf
  rfl

theorem reads_localStmt_function (h : inner.Complete L) (n : Located Name) {f : FuncBody}
    (hf : Func L ts f) :
    Reads (localStmt inner) (.keyword .local_ :: .keyword .function_ :: .ident n.node :: ts) follow
      fun s => s.same (.localFunction n f) = true := by
  refine reads_token_bind fun _ => .alt [] (reads_token_bind fun _ => ?_) (by simp)
  exact (reads_name _).bind_any fun m hm => (reads_funcBody h hf).bind_last fun g hg =>
    .pure (by simp [Stmt.same, Located.sameNode, hm, hg])

/-! ### Declarations and assignments -/

theorem sameExprs_padWithNil {count : Nat} {values exprs fs : List (Located Expr)} (span : Span)
    (hfs : sameExprs fs values = true) (hexprs : Padded count values exprs) :
    sameExprs (Expr.padWithNil count span fs) exprs = true := by
  obtain ⟨padding, rfl, hlength, hnil⟩ := hexprs
  have hvalues := sameExprs_iff.1 hfs
  rw [Expr.padWithNil, hvalues.length_eq, ← hlength]
  refine sameExprs_iff.2 (List.rel_append hvalues ?_)
  clear hlength
  induction padding with
  | nil => exact .nil
  | cons e es ih =>
    rw [List.forall_mem_cons] at hnil
    exact .cons (by rw [hnil.1]; rfl) (ih hnil.2)

theorem refuses_localFunction (inner : Level) {separator : Symbol} {ns : List (Located Name)}
    (h : Listed separator IsName ts ns) (us : List Token) :
    Refuses (localFunction inner) (ts ++ us) := by
  obtain ⟨n, _, vs, _, rfl, _⟩ := reads_moreNames h
  exact (needs_keyword .function_).bind.refuses rfl rfl

theorem reads_localStmt_decl (inner : Level) {names : List (Located Name)}
    {exprs : List (Located Expr)} (hnames : Listed .comma IsName ts names)
    (hexprs : Padded names.length [] exprs) :
    Reads (localStmt inner) (.keyword .local_ :: ts) StmtEnds
      fun s => s.same (.localDecl names exprs) = true := by
  refine reads_token_bind fun _ => .alt [localFunction inner] ?_ fun us _ => ?_
  · refine ((reads_names hnames).mono_follow fun _ hn => hn.ne_comma).bind_last fun ms hms => ?_
    refine ((needs_symbol .equal).optional.mono_follow ?_).bind_last ?_
    · intro next hnext t ht
      rw [beq_eq_false_iff_ne]
      rintro rfl
      exact hnext.ne_equal ht
    · rintro _ rfl
      have hpos : Reads pos [] StmtEnds fun _ => True :=
        fun c s _ _ _ _ => ⟨c.pos s, s, rfl, trivial, rfl, .refl s⟩
      rw [← (sameNodes_iff.1 hms).length_eq] at hexprs
      refine hpos.bind_last fun p _ => .pure ?_
      simp only [Stmt.same, hms, Bool.true_and]
      exact sameExprs_padWithNil _ rfl hexprs
  · rw [List.forall_mem_singleton]
    exact refuses_localFunction inner hnames us

theorem reads_localStmt_values (h : inner.Complete L) {names : List (Located Name)}
    {values exprs : List (Located Expr)} (hnames : Listed .comma IsName ts names)
    (hvalues : Listed .comma L.expr us values) (hexprs : Padded names.length values exprs) :
    Reads (localStmt inner) (.keyword .local_ :: (ts ++ .symbol .equal :: us)) ListEnds
      fun s => s.same (.localDecl names exprs) = true := by
  refine reads_token_bind fun _ => .alt [localFunction inner] ?_ fun vs _ => ?_
  · refine (reads_names hnames).bind_before (by simp) fun ms hms => ?_
    refine Reads.bind_any (reads_token _).optional ?_
    rintro _ ⟨equal, rfl, -⟩
    rw [← (sameNodes_iff.1 hms).length_eq] at hexprs
    refine (reads_exprList h hvalues).bind_last fun fs hfs => .pure ?_
    simp only [Stmt.same, hms, Bool.true_and]
    exact sameExprs_padWithNil _ hfs hexprs
  · rw [List.forall_mem_singleton, List.append_assoc]
    exact refuses_localFunction inner hnames _

theorem reads_checkedTarget (target : PrefixExp) :
    Reads (checkedTarget target) [] follow fun t => t.node = target := by
  intro c s us _ _ _
  cases h : targetCause? target with
  | none => exact ⟨_, s, checkedTarget_of_none h c s, rfl, rfl, .refl s⟩
  | some cause =>
    refine ⟨_, _, checkedTarget_of_some h c s, rfl, rfl, [_], rfl, ?_⟩
    rw [List.forall_mem_singleton]

/-- A round of the loop over the targets after the first one. -/
abbrev targetRound (inner : Level) : Rule (Option (Located PrefixExp × Bool)) := do
  match ← optional (following .comma (prefixExp inner .unrestricted)) with
  | none => return none
  | some target => return some (← checkedTarget target, true)

theorem reads_no_moreTargets (inner : Level) :
    Reads (moreTargets inner) [] (· = some (.symbol .equal)) (· = []) := by
  have hneeds : Needs (· == .symbol .comma) (following .comma (prefixExp inner .unrestricted)) :=
    (needs_symbol _).bind
  have hround : Reads (targetRound inner) [] (· = some (.symbol .equal)) (· = none) := by
    refine (hneeds.optional.mono_follow ?_).bind_last ?_
    · rintro _ rfl
      exact without_some rfl
    · rintro _ rfl
      exact .pure rfl
  exact hround.collect_none

theorem reads_moreTargets (h : inner.Complete L) {targets : List (Located PrefixExp)}
    (htargets : Listed .comma (Access L) ts targets) :
    Reads (moreTargets inner) (.symbol .comma :: ts) (· = some (.symbol .equal))
      fun us => sameTargets us targets = true := by
  have hround {ts : List Token} {p : PrefixExp} (hp : Access L ts p) :
      Reads (targetRound inner) (.symbol .comma :: ts) (Looser 8)
        fun r => ∃ t, r = some (t, true) ∧ t.node.same p = true := by
    have hread : Reads (following .comma (prefixExp inner .unrestricted)) (.symbol .comma :: ts)
        (Looser 8) fun q => q.same p = true := reads_token_bind fun _ => reads_prefixExp h hp
    refine hread.optional.bind_last ?_
    rintro _ ⟨q, rfl, hq⟩
    refine (reads_checkedTarget q).bind_last ?_
    rintro t rfl
    exact .pure ⟨t, rfl, hq⟩
  induction htargets with
  | one hp =>
    have hmore := Reads.collect_more (by simp) (hround hp) (reads_no_moreTargets inner)
      fun vs hvs => by
      rw [List.nil_append, hvs]
      exact looser_some (by decide)
    rw [List.append_nil] at hmore
    refine hmore.mono ?_
    rintro _ ⟨t, _, rfl, ht, rfl⟩
    simp [sameTargets, ht]
  | more hp _ ih =>
    refine (Reads.collect_more (by simp) (hround hp) ih fun vs _ => looser_some (by decide)).mono ?_
    rintro _ ⟨t, us, rfl, ht, hus⟩
    simp [sameTargets, ht, hus]

/-- The rest of an assignment after its first target. -/
theorem reads_assignment (h : inner.Complete L) {first : PrefixExp} {target : Located PrefixExp}
    {others : List (Located PrefixExp)} {values exprs : List (Located Expr)}
    (hfirst : first.same target.node = true)
    (hothers : Reads (moreTargets inner) ts (· = some (.symbol .equal))
      fun us => sameTargets us others = true)
    (hvalues : Listed .comma L.expr us values)
    (hexprs : Padded (target :: others).length values exprs) :
    Reads (assignment inner first) (ts ++ .symbol .equal :: us) ListEnds
      fun s => s.same (.assign (target :: others) exprs) = true := by
  have hcheck : Reads (checkedTarget first) [] (fun _ => True) fun t => t.node = first :=
    reads_checkedTarget first
  refine hcheck.bind_first ?_ fun _ _ => trivial
  rintro t rfl
  refine hothers.bind_before rfl fun ts hts => reads_token_bind fun equal => ?_
  refine (reads_exprList h hvalues).bind_last fun fs hfs => .pure ?_
  have hlength := (sameTargets_iff.1 hts).length_eq
  rw [List.length_cons, ← hlength] at hexprs
  simp only [Stmt.same, sameTargets, hfirst, hts, Bool.true_and]
  exact sameExprs_padWithNil _ hfs hexprs

theorem reads_peek : Reads peek [] follow follow := by
  intro c s us _ hahead hfollow
  refine ⟨_, s, rfl, ?_, rfl, .refl s⟩
  rw [c.map_next?, hahead]
  exact hfollow

/-- The first target or the call is read, and then what is made of it. -/
theorem reads_callOrAssign (h : inner.Complete L) {p : PrefixExp} {Q : Stmt → Prop}
    (follow : Option Token → Prop) {follow' : Option Token → Prop} (hp : Access L ts p)
    (hlooser : ∀ next, follow next → Looser 8 next)
    (hfollow : ∀ vs : List Token, follow' vs.head? → follow (us ++ vs).head?)
    (hrest : ∀ q : PrefixExp, q.same p = true → ∀ next, follow next →
      Reads (if q.endsInCall ∧ next ≠ some (.symbol .comma) ∧ next ≠ some (.symbol .equal)
        then return .call q else assignment inner q) us follow' Q) :
    Reads (callOrAssign inner) (ts ++ us) follow' Q := by
  cases hp with
  | intro hhead hsuffixes =>
    rw [List.append_assoc]
    refine (reads_head h hhead).bind_any fun a ha => (reads_suffixChain h hsuffixes).bind
      (fun marks hmarks => ?_) fun vs hvs => hlooser _ (hfollow vs hvs)
    exact reads_peek.bind_first (hrest ⟨a, marks.map (·.1)⟩ (by simp [PrefixExp.same, ha, hmarks]))
      hfollow

theorem reads_call (h : inner.Complete L) {p : PrefixExp} (hp : Access L ts p)
    (hcall : p.endsInCall = true) :
    Reads (callOrAssign inner) ts StmtEnds fun s => s.same (.call p) = true := by
  have hread : Reads (callOrAssign inner) (ts ++ []) StmtEnds fun s => s.same (.call p) = true := by
    refine reads_callOrAssign h StmtEnds hp (fun _ hn => hn.looser.mono (by omega))
      (fun _ hvs => hvs)
      fun q hq next hnext => ?_
    rw [if_pos ⟨by rw [PrefixExp.endsInCall_of_same hq, hcall], hnext.ne_comma, hnext.ne_equal⟩]
    exact .pure hq
  rwa [List.append_nil] at hread

theorem reads_assign (h : inner.Complete L) {targets : List (Located PrefixExp)}
    {values exprs : List (Located Expr)} (htargets : Listed .comma (Access L) ts targets)
    (hvalues : Listed .comma L.expr us values) (hexprs : Padded targets.length values exprs) :
    Reads (callOrAssign inner) (ts ++ .symbol .equal :: us) ListEnds
      fun s => s.same (.assign targets exprs) = true := by
  cases htargets with
  | one hp =>
    refine reads_callOrAssign h (· = some (.symbol .equal)) hp ?_ (fun _ _ => rfl)
      fun q hq next hnext => ?_
    · rintro _ rfl
      exact looser_some (by decide)
    · rw [if_neg (by simp [hnext])]
      exact reads_assignment h hq ((reads_no_moreTargets inner).mono (by rintro _ rfl; rfl)) hvalues
        hexprs
  | more hp hothers =>
    rw [List.append_assoc]
    refine reads_callOrAssign h (· = some (.symbol .comma)) hp ?_ (fun _ _ => rfl)
      fun q hq next hnext => ?_
    · rintro _ rfl
      exact looser_some (by decide)
    · rw [if_neg (by simp [hnext])]
      exact reads_assignment h hq (reads_moreTargets h hothers) hvalues hexprs

/-! ### All statements -/

/-- The alternatives of a statement, each with the tokens that it begins with. -/
abbrev stmtTable (inner : Level) : List ((Token → Bool) × Rule Stmt) := [
  (fun t => t matches .ident _ || t == .symbol .openParen, callOrAssign inner),
  ((· matches .label _), labelStmt), ((· == .keyword .break_), breakStmt),
  ((· == .keyword .continue_), continueStmt), ((· == .keyword .goto_), gotoStmt),
  ((· == .keyword .do_), doStmt inner), ((· == .keyword .while_), whileStmt inner),
  ((· == .keyword .repeat_), repeatStmt inner), ((· == .keyword .if_), ifStmt inner),
  ((· == .keyword .for_), forStmt inner), ((· == .keyword .function_), functionStmt inner),
  ((· == .keyword .local_), localStmt inner)]

theorem guarded_stmt (inner : Level) : Guarded (stmtTable inner) := by
  have hhead : Needs (fun t => t matches .ident _ || t == .symbol .openParen) (head inner) :=
    (guarded_head inner).needs.mono fun t ht => by
      simp only [List.any_cons, List.any_nil, Bool.or_false] at ht
      exact ht
  simp only [Guarded, List.forall_mem_cons]
  exact ⟨hhead.bind, needs_label.bind, (needs_keyword _).bind, (needs_keyword _).bind,
    (needs_keyword _).bind, (needs_keyword _).bind, (needs_keyword _).bind, (needs_keyword _).bind,
    (needs_keyword _).bind, (needs_keyword _).bind, (needs_keyword _).bind, (needs_keyword _).bind,
    by simp⟩

theorem find_callOrAssign (inner : Level) {p : PrefixExp} (hp : Access L ts p) :
    ∃ t, ts.head? = some t ∧ (stmtTable inner).find? (·.1 t) =
      some (fun t => t matches .ident _ || t == .symbol .openParen, callOrAssign inner) := by
  cases hp with
  | intro hhead _ =>
    rcases hhead.name_or_paren with ⟨n, rfl⟩ | ⟨vs, rfl, -⟩
    · exact ⟨_, rfl, rfl⟩
    · exact ⟨_, rfl, rfl⟩

/-- A statement begins with a token that starts one, and not with a semicolon. -/
theorem needs_stmt (inner : Level) :
    Needs (fun t => t.startsStmt && t != .symbol .semicolon) (stmt inner) := by
  refine .located ((guarded_stmt inner).needs.mono fun t ht => ?_)
  cases t with
  | keyword k => cases k <;> first | rfl | cases ht
  | symbol s => cases s <;> first | rfl | cases ht
  | _ => first | rfl | cases ht

theorem reads_stmt (h : inner.Complete L) {s : Stmt} (hs : IsStmt L ts s) :
    Reads (stmt inner) ts StmtEnds fun a => a.node.same s = true := by
  refine Reads.located (P := fun a : Stmt => a.same s = true) ?_
  have hguarded := guarded_stmt inner
  cases hs with
  | label n =>
    refine hguarded.reads rfl rfl ((reads_label n).bind_last fun m hm => .pure ?_)
    simp [Stmt.same, hm]
  | breakLoop => exact hguarded.reads rfl rfl (reads_token_bind fun _ => .pure rfl)
  | continueLoop => exact hguarded.reads rfl rfl (reads_token_bind fun _ => .pure rfl)
  | goto n =>
    refine hguarded.reads rfl rfl (reads_token_bind fun _ => (reads_name _).bind_last fun m hm =>
      .pure ?_)
    simp [Stmt.same, Located.sameNode, hm]
  | block hb => exact hguarded.reads rfl rfl (reads_doStmt h hb)
  | whileLoop hcond hb =>
    refine hguarded.reads rfl rfl ?_
    simpa using reads_whileStmt h hcond hb
  | repeatLoop hb hcond =>
    exact hguarded.reads rfl rfl ((reads_repeatStmt h hb hcond).mono_follow fun _ hn => hn.looser)
  | numericFor var hstart hstop hstep hb =>
    refine hguarded.reads rfl rfl ?_
    simpa using reads_forStmt_numeric h var hstart hstop (.inr ⟨_, rfl, hstep⟩) hb
  | numericForByOne var span hstart hstop hb =>
    refine hguarded.reads rfl rfl ?_
    have hone : (⟨.number "1", span⟩ : Located Expr).node = .number "1" := rfl
    simpa using reads_forStmt_numeric h var hstart hstop (.inl ⟨rfl, hone⟩) hb
  | genericFor hvars hexprs hb =>
    refine hguarded.reads rfl rfl ?_
    simpa using reads_forStmt_generic h hvars hexprs hb
  | conditional hclauses hotherwise =>
    refine hguarded.reads (t := .keyword .if_) ?_ rfl (reads_ifStmt h hclauses hotherwise)
    rw [List.append_assoc, List.head?_append, hclauses.head?]
    rfl
  | function hn hf => exact hguarded.reads rfl rfl (reads_functionStmt h hn hf)
  | localFunction n hf => exact hguarded.reads rfl rfl (reads_localStmt_function h n hf)
  | localDecl hnames hexprs =>
    exact hguarded.reads rfl rfl (reads_localStmt_decl inner hnames hexprs)
  | localValues hnames hvalues hexprs =>
    exact hguarded.reads rfl rfl ((reads_localStmt_values h hnames hvalues hexprs).mono_follow
      fun _ hn => hn.listEnds)
  | call hp hcall =>
    obtain ⟨t, ht, hfind⟩ := find_callOrAssign inner hp
    exact hguarded.reads ht hfind (reads_call h hp hcall)
  | assign htargets hvalues hexprs =>
    have hread : Reads (callOrAssign inner) _ StmtEnds fun a => a.same (.assign _ _) = true :=
      (reads_assign h htargets hvalues hexprs).mono_follow fun _ hn => hn.listEnds
    cases htargets with
    | one hp =>
      obtain ⟨t, ht, hfind⟩ := find_callOrAssign inner hp
      exact hguarded.reads (by rw [List.head?_append, ht]; rfl) hfind hread
    | more hp _ =>
      obtain ⟨t, ht, hfind⟩ := find_callOrAssign inner hp
      refine hguarded.reads ?_ hfind hread
      rw [List.append_assoc, List.head?_append, ht]
      rfl

/-! ### Blocks -/

theorem reads_semicolons (count : Nat) :
    Reads (many (symbol .semicolon)) (List.replicate count (.symbol .semicolon))
      (· ≠ some (.symbol .semicolon)) fun _ => True := by
  induction count with
  | zero =>
    refine ((needs_symbol .semicolon).many.mono_follow fun next hnext t ht => ?_).mono
      fun _ _ => trivial
    rw [beq_eq_false_iff_ne]
    rintro rfl
    exact hnext ht
  | succ count ih =>
    have hsemicolon :
        Reads (symbol .semicolon) [.symbol .semicolon] (fun _ => True) fun _ => True :=
      reads_token _
    exact (Reads.many_cons (by simp) hsemicolon ih fun _ _ => trivial).mono fun _ _ => trivial

theorem BlockEnds.ne_semicolon {next : Option Token} (h : BlockEnds next) :
    next ≠ some (.symbol .semicolon) := by
  rintro rfl
  cases h _ rfl

theorem reads_returnStmt (h : inner.Complete L) {r : Return} (hr : IsReturn L ts r) :
    Reads (returnStmt inner) ts BlockEnds fun a => a.node.same r = true := by
  refine Reads.located (P := fun a : Return => a.same r = true) ?_
  have hends : ∀ (count : Nat) (vs : List Token), BlockEnds vs.head? →
      BlockEnds (List.replicate count (Token.symbol .semicolon) ++ vs).head? ∨
        (List.replicate count (Token.symbol .semicolon) ++ vs).head? =
          some (.symbol .semicolon) := by
    intro count vs hvs
    cases count with
    | zero => exact .inl hvs
    | succ count => exact .inr rfl
  have hrest (count : Nat) (es fs : List (Located Expr)) (hes : sameExprs es fs = true) :
      Reads (do let _ ← many (symbol .semicolon); return (⟨es⟩ : Return))
        (List.replicate count (.symbol .semicolon)) BlockEnds fun a => a.same ⟨fs⟩ = true :=
    ((reads_semicolons count).mono_follow fun _ hn => hn.ne_semicolon).bind_last
      fun _ _ => .pure hes
  cases hr with
  | bare count =>
    refine reads_token_bind fun _ => (needs_exprList h).optional.bind_first ?_ fun vs hvs => ?_
    · rintro _ rfl
      exact hrest count _ _ rfl
    · intro t ht
      rcases hends count vs hvs with hblock | hsemicolon
      · simp [endsLevel, hblock t ht]
      · rw [hsemicolon] at ht
        cases ht
        rfl
  | values hes count =>
    refine reads_token_bind fun _ => (reads_exprList h hes).optional.bind ?_ fun vs hvs => ?_
    · rintro _ ⟨fs, rfl, hfs⟩
      exact hrest count _ _ hfs
    · rcases hends count vs hvs with hblock | hsemicolon
      · exact hblock.stmtEnds.listEnds
      · rw [hsemicolon]
        exact ⟨looser_some (by decide), by simp⟩

/-- What comes after a statement in a block starts something new. -/
theorem stmtEnds_of_block {b : Block} {vs : List Token} (hb : IsBlock L us b)
    (hparen : us.head? ≠ some (.symbol .openParen)) (hvs : BlockEnds vs.head?) :
    StmtEnds (us ++ vs).head? := by
  have hhead : us = [] ∨ ∃ t, us.head? = some t ∧ resumesAt t = true := by
    cases hb with
    | empty => exact .inl rfl
    | ret hr => exact .inr ⟨_, hr.head?, rfl⟩
    | semicolon _ => exact .inr ⟨_, rfl, rfl⟩
    | stmt hs _ _ =>
      obtain ⟨t, ht, hstart, -⟩ := hs.exists_head
      exact .inr ⟨t, by rw [List.head?_append, ht]; rfl, by simp [resumesAt, hstart]⟩
  rcases hhead with rfl | ⟨t, ht, hresumes⟩
  · exact hvs.stmtEnds
  · rw [List.head?_append, ht]
    rintro _ ⟨⟩
    refine ⟨hresumes, ?_⟩
    rintro rfl
    exact hparen ht

/-- A round of the loop over the parts of a block, once the semicolons have been read. -/
abbrev partAfterSemicolons (inner : Level) : Rule (Option (BlockPart × Bool)) := do
  if let some s ← optional (stmt inner) then
    return some (.stmt s, true)
  if let some r ← optional (returnStmt inner) then
    return some (.ret r, false)
  match ← peek with
  | none => return none
  | some t =>
    if t.endsBlock then return none
    skipJunk
    return some (.junk, true)

theorem reads_blockPart {P : Option (BlockPart × Bool) → Prop} (count : Nat)
    (h : Reads (partAfterSemicolons inner) ts follow P)
    (hnext : ∀ vs : List Token, follow vs.head? → (ts ++ vs).head? ≠ some (.symbol .semicolon)) :
    Reads (blockPart inner) (List.replicate count (.symbol .semicolon) ++ ts) follow P :=
  (reads_semicolons count).bind (fun _ _ => h) hnext

/-- Where a block can end, there is no further part, and nothing has happened. -/
theorem part_of_end (inner : Level) {c : Context} {s : State} (hs : c.Proper s)
    (hends : BlockEnds (c.ahead s).head?) : partAfterSemicolons inner c s = .ok none s := by
  have hstmt : optional (stmt inner) c s = .ok none s := by
    refine (needs_stmt inner _ fun t ht => ?_).optional hs rfl
    have hblock := hends t ht
    cases t with
    | keyword k => cases k <;> first | rfl | cases hblock
    | _ => cases hblock
  have hreturn : optional (returnStmt inner) c s = .ok none s := by
    have hneeds : Needs (· == .keyword .return_) (returnStmt inner) :=
      (needs_keyword _).bind.located
    refine (hneeds _ fun t ht => ?_).optional hs rfl
    rw [beq_eq_false_iff_ne]
    rintro rfl
    cases hends _ ht
  have hpeek : peek c s = .ok (c.ahead s).head? s := by rw [peek, c.map_next?]
  rw [partAfterSemicolons, bind_of_ok hstmt]
  dsimp only
  rw [bind_of_ok hreturn]
  dsimp only
  rw [bind_of_ok hpeek]
  cases hhead : (c.ahead s).head? with
  | none => rfl
  | some t =>
    dsimp only
    rw [if_pos (hends t hhead)]
    rfl

theorem reads_part_none (inner : Level) :
    Reads (partAfterSemicolons inner) [] BlockEnds (· = none) :=
  fun _ s _ hs hahead hends =>
    ⟨none, s, part_of_end inner hs (by rwa [hahead]), rfl, rfl, .refl s⟩

theorem reads_part_ret (h : inner.Complete L) {r : Return} (hr : IsReturn L ts r) :
    Reads (partAfterSemicolons inner) ts BlockEnds
      fun p => ∃ q, p = some (q, false) ∧ ∃ a, q = .ret a ∧ a.node.same r = true := by
  refine (needs_stmt inner).optional.bind_first ?_ fun vs _ => ?_
  · rintro _ rfl
    refine (reads_returnStmt h hr).optional.bind_last ?_
    rintro _ ⟨a, rfl, ha⟩
    exact .pure ⟨_, rfl, a, rfl, ha⟩
  · rw [List.head?_append, hr.head?]
    exact without_some rfl

theorem reads_part_stmt (h : inner.Complete L) {s : Stmt} (hs : IsStmt L ts s) :
    Reads (partAfterSemicolons inner) ts StmtEnds
      fun p => ∃ q, p = some (q, true) ∧ ∃ a, q = .stmt a ∧ a.node.same s = true := by
  refine (reads_stmt h hs).optional.bind_last ?_
  rintro _ ⟨a, rfl, ha⟩
  exact .pure ⟨_, rfl, a, rfl, ha⟩

theorem reads_blockParts (h : inner.Complete L)
    (hfollows : ∀ us, L.follows us → us.head? ≠ some (.symbol .openParen)) {b : Block}
    (hb : IsBlock L ts b) (count : Nat) :
    Reads (collect (blockPart inner)) (List.replicate count (.symbol .semicolon) ++ ts) BlockEnds
      fun parts => (blockOf parts).same b = true := by
  induction hb generalizing count with
  | empty =>
    have hround := reads_blockPart count (reads_part_none inner) fun vs hvs => hvs.ne_semicolon
    refine hround.collect_none.mono ?_
    rintro _ rfl
    rfl
  | ret hr =>
    have hround := reads_blockPart count (reads_part_ret h hr) fun vs _ => by
      rw [List.head?_append, hr.head?]
      simp
    refine hround.collect_last.mono ?_
    rintro _ ⟨_, rfl, a, rfl, ha⟩
    exact ha
  | semicolon _ ih => simpa [List.replicate_succ'] using ih (count + 1)
  | @stmt ts us s ss r hs hnext hrest ih =>
    obtain ⟨t, ht, -, hsemicolon, -⟩ := hs.exists_head
    have hround := reads_blockPart count (reads_part_stmt h hs) fun vs _ => by
      rw [List.head?_append, ht]
      simpa using hsemicolon
    have hne : List.replicate count (Token.symbol .semicolon) ++ ts ≠ [] := by
      rintro heq
      rw [(List.append_eq_nil_iff.1 heq).2] at ht
      cases ht
    have hmore := Reads.collect_more hne hround (ih 0) fun vs hvs =>
      stmtEnds_of_block hrest (hfollows us hnext) hvs
    rw [List.replicate_zero, List.nil_append, List.append_assoc] at hmore
    refine hmore.mono ?_
    rintro _ ⟨_, parts, rfl, ⟨a, rfl, ha⟩, hparts⟩
    rw [blockOf, Block.same, Bool.and_eq_true] at hparts
    show (sameStmts (a :: parts.filterMap (·.stmt?)) (s :: ss) &&
      sameReturn? (parts.findSome? (·.ret?)) r) = true
    rw [sameStmts, ha, hparts.1, hparts.2]
    rfl

/-! ### All levels -/

theorem Level.Complete.next (h : inner.Complete L)
    (hfollows : ∀ us, L.follows us → us.head? ≠ some (.symbol .openParen)) {outer : Level}
    (hexpr : outer.expr = orExpr inner) (hblock : outer.block = stmts inner) :
    outer.Complete (next L) where
  expr he := hexpr ▸ reads_orExpr h he
  begins he := begins_disjunction he
  needs := hexpr ▸ needs_orExpr inner
  block hb := hblock ▸ (reads_blockParts h hfollows hb 0).bind_last fun _ hparts => .pure hparts

theorem skipLevel_of_end {separators : Bool} {c : Context} {s : State}
    (h : ∀ t, (c.ahead s).head? = some t → endsLevel separators t = true) :
    skipLevel separators c s = .ok none s := by
  refine if_pos ?_
  show levelLength separators 0 (c.ahead s) = 0
  cases hahead : c.ahead s with
  | nil => rfl
  | cons t ts => simp [levelLength, h t (by rw [hahead]; rfl)]

/-- At the limit there is nothing to read. -/
theorem complete_cutOff (follows : List Token → Prop) :
    Level.Complete (bare follows) ⟨cutOffExpr, cutOffBlock⟩ where
  expr h := h.elim
  begins h := h.elim
  needs := by
    intro ts hts c s _ hc hahead
    refine cutOffExpr_of_not_committed (skipLevel_of_end fun t ht => ?_) hc
    rw [hahead] at ht
    simpa using hts t ht
  block h := by
    obtain ⟨rfl, rfl⟩ := h
    intro c s us _ hahead hfollow
    have hskip : skipLevel false c s = .ok none s := skipLevel_of_end fun t ht => by
      rw [hahead] at ht
      simp [endsLevel, hfollow t ht]
    exact ⟨.empty, s, bind_of_ok hskip, rfl, rfl, .refl s⟩

/-- The rules of each level read what nests as deep, if nothing in it can be taken for something
else. -/
theorem complete_nested (depth : Nat) : (nested depth).Complete (unambiguous depth) := by
  induction depth with
  | zero => exact complete_cutOff _
  | succ depth ih => exact ih.next (by simp [unambiguous, bare]) rfl rfl

/-- A chunk is read to its end. -/
theorem reads_chunk (h : inner.Complete L) {b : Block} (hb : L.block ts b) :
    Reads (chunk inner) ts (· = none) fun a => a.same b = true := by
  have hround : Reads (chunkPart inner) [] (· = none) (· = none) := by
    have hend : Reads atEnd [] (· = none) (· = true) := by
      intro c s us _ hahead hnone
      refine ⟨_, s, rfl, ?_, rfl, .refl s⟩
      have hnext := c.map_next? s
      rw [hahead, List.nil_append, hnone] at hnext
      rw [Option.map_eq_none_iff.1 hnext]
      rfl
    refine hend.bind_last ?_
    rintro _ rfl
    exact .pure rfl
  refine ((h.block hb).mono_follow ?_).bind_last fun a ha => ?_
  · rintro _ rfl
    exact nofun
  · split
    · exact .pure ha
    · refine hround.collect_none.bind_last ?_
      rintro _ rfl
      exact .pure ha

end LuaSyntax.Grammar
