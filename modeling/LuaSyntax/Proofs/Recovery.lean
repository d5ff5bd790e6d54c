import LuaSyntax.Proofs.BlockEnd
import LuaSyntax.Proofs.Grammar.Commit
import LuaSyntax.Proofs.Rule.Repair
/-!
# Recovery throws no statement away

The next token alone decides whether a statement or a `return` can be read, whatever comes after it.
So the tokens that the loop over the parts of a block passes over as junk are none that could start
anything, and each run of junk is as long as it can be.
-/

namespace LuaSyntax

namespace Rule

variable {α β : Type} {rule : Rule α} {f : α → Rule β} {p : Token → Bool} {c : Context}
  {s t : State}

/-- The rule gives a value wherever the next token satisfies `p`. -/
def Accepts (p : Token → Bool) (rule : Rule α) : Prop :=
  ∀ c s token, c.Proper s → c.next? s = some token → p token.node = true →
    ∃ a t, rule c s = .ok a t

theorem accepts_satisfy {m : Matcher α} (h : ∀ t, p t = true → (m.accept t).isSome) :
    Accepts p (satisfy m) := by
  intro c s token _ hnext hp
  obtain ⟨a, ha⟩ := Option.isSome_iff_exists.1 (h _ hp)
  exact ⟨_, _, satisfy_of_accept hnext ha⟩

/-- What follows a rule that has consumed a token is never stuck. -/
theorem Accepts.bind (h : Accepts p rule) (hopening : Opening rule) (hf : ∀ a, Orderly (f a)) :
    Accepts p (rule >>= f) := by
  intro c s token hs hnext hp
  obtain ⟨a, t, hok⟩ := h c s token hs hnext hp
  cases hrun : (rule >>= f) c s with
  | ok b u => exact ⟨b, u, rfl⟩
  | error why u => cases hok.symm.trans (hopening.error_of_bind hf hs hrun)

theorem accepts_token (t : Token) : Accepts (· == t) (token t) := by
  refine Accepts.bind (accepts_satisfy fun u hu => ?_) (opening_satisfy _) fun a => .pure a.span
  rw [Option.isSome_iff_exists]
  exact ⟨(), if_pos (eq_of_beq hu)⟩

theorem Accepts.located (h : Accepts p rule) : Accepts p (located rule) := by
  intro c s token hs hnext hp
  obtain ⟨a, t, hok⟩ := h c s token hs hnext hp
  exact ⟨_, _, located_of_ok hok⟩

theorem AllStuck.of_mem {rules : List (Rule α)} {failures : List Stuck}
    (h : AllStuck rules c s failures) {r : Rule α} (hr : r ∈ rules) :
    ∃ why, r c s = .error why s := by
  induction h with
  | nil => cases hr
  | cons hstuck _ ih =>
    rcases List.mem_cons.1 hr with rfl | hr
    · exact ⟨_, hstuck⟩
    · exact ih hr

/-- A choice is not stuck where one of its rules is not. -/
theorem accepts_alt {rules : List (Rule α)} (hopening : ∀ r ∈ rules, Opening r)
    (h : ∀ t, p t = true → ∃ r ∈ rules, ∃ q : Token → Bool, q t = true ∧ Accepts q r) :
    Accepts p (alt rules) := by
  intro c s token hs hnext hp
  obtain ⟨r, hr, q, hq, haccepts⟩ := h _ hp
  cases hrun : alt rules c s with
  | ok a t => exact ⟨a, t, rfl⟩
  | error why t =>
    obtain ⟨failures, hall, -⟩ := stuck_of_alt (List.ne_nil_of_mem hr) hopening hs hrun
    obtain ⟨a, u, hok⟩ :=
      haccepts _ s token hs.speculating ((c.next?_speculating s s).trans hnext) hq
    obtain ⟨why', herr⟩ := hall.of_mem hr
    cases hok.symm.trans herr

/-- Uncommitted, a rule gives a value exactly if the next token is one that it begins with. -/
theorem ok_iff_next (hneeds : Needs p rule) (haccepts : Accepts p rule) (hs : c.Proper s)
    (hc : c.isCommitted s = false) :
    (∃ a t, rule c s = .ok a t) ↔ ∃ token, c.next? s = some token ∧ p token.node = true := by
  constructor
  · rintro ⟨a, t, hok⟩
    by_contra hnone
    have hwithout : Without p (c.ahead s).head? := by
      rw [← c.map_next?]
      intro u hu
      obtain ⟨token, hnext, rfl⟩ := Option.map_eq_some_iff.1 hu
      exact Bool.eq_false_iff.2 fun hp => hnone ⟨token, hnext, hp⟩
    obtain ⟨why, herr⟩ := hneeds _ hwithout c s hs hc rfl
    cases hok.symm.trans herr
  · rintro ⟨token, hnext, hp⟩
    exact haccepts c s token hs hnext hp

/-- Where an optional part is not there, the next token is none that it begins with. -/
theorem Accepts.none_of_optional (h : Accepts p rule) (hopening : Opening rule) (hs : c.Proper s)
    (hok : optional rule c s = .ok none t) : t = s ∧ Without p ((c.next? s).map (·.node)) := by
  rcases hopening.optional_cases hs with ⟨a, u, -, hsome, -⟩ | ⟨⟨why, herr⟩, hnone⟩
  · cases hsome.symm.trans hok
  · cases hnone.symm.trans hok
    refine ⟨rfl, fun v hv => Bool.eq_false_iff.2 fun hp => ?_⟩
    obtain ⟨token, hnext, rfl⟩ := Option.map_eq_some_iff.1 hv
    obtain ⟨a, u, hok'⟩ := h _ s token hs.speculating ((c.next?_speculating s s).trans hnext) hp
    cases hok'.symm.trans herr

end Rule

namespace Grammar

open Rule

variable {α : Type} {start : Start} {closed : Bool} {inner : Level} {law : Law} {L : Language}
  {c : Context} {s t : State}

/-! ### What a statement begins with -/

section

variable (hinner : inner.Sound law L)

include hinner

theorem accepts_keyword {k : Keyword} {f : Level → Span → Rule α}
    (hf : ∀ a, Scheme start closed fun inner => f inner a) :
    Accepts (· == .keyword k) (keyword k >>= f inner) :=
  (accepts_token _).bind (opening_token _) fun a => (hf a).orderly hinner

theorem accepts_head :
    Accepts (fun t => t matches .ident _ || t == .symbol .openParen) (head inner) := by
  have hname : Accepts (· matches .ident _) nameHead := by
    refine Accepts.bind (accepts_satisfy fun t ht => ?_) (opening_satisfy _) fun n => .pure _
    cases t <;> first | rfl | cases ht
  have hparen : Accepts (· == .symbol .openParen) (parenHead inner) := by
    refine ((accepts_token _).bind (opening_token _) fun _ => ?_).located
    exact (Scheme.expr.bind fun e => (Scheme.symbol .closeParen).bind fun _ =>
      .pure (Head.paren e)).orderly hinner
  have hopening : ∀ r ∈ [nameHead, parenHead inner], Opening r :=
    List.forall_mem_cons.2 ⟨scheme_nameHead.begins hinner,
      List.forall_mem_singleton.2 (scheme_parenHead.begins hinner)⟩
  refine accepts_alt hopening fun t ht => ?_
  rcases Bool.or_eq_true_iff.1 ht with ht | ht
  · exact ⟨_, List.mem_cons_self, _, ht, hname⟩
  · exact ⟨_, List.mem_cons_of_mem _ List.mem_cons_self, _, ht, hparen⟩

theorem accepts_callOrAssign :
    Accepts (fun t => t matches .ident _ || t == .symbol .openParen) (callOrAssign inner) := by
  rw [callOrAssign_eq]
  refine (accepts_head hinner).bind (scheme_head.begins hinner) fun a => ?_
  exact (scheme_suffixes.bind fun suffixes => scheme_afterPrefixExp ⟨a, suffixes⟩).orderly hinner

omit hinner in
theorem accepts_labelStmt : Accepts (· matches .label _) labelStmt := by
  refine Accepts.bind (accepts_satisfy fun t ht => ?_) (opening_satisfy _) fun n => .pure _
  cases t <;> first | rfl | cases ht

theorem accepts_ifStmt : Accepts (· == .keyword .if_) (ifStmt inner) := by
  rw [ifStmt_eq]
  refine (accepts_token _).bind (opening_token _) fun _ => ?_
  exact (scheme_clauses.before fun clauses =>
    (Scheme.keyword .end_).bind fun _ => .pure (Stmt.conditional clauses.1 clauses.2)).orderly
      hinner

theorem accepts_forStmt : Accepts (· == .keyword .for_) (forStmt inner) :=
  accepts_keyword hinner fun forSpan => Scheme.name.bind fun var =>
    .alt (o := .token)
      [fun inner => numericFor inner forSpan var, fun inner => genericFor inner var]
      (List.cons_ne_nil _ _) (List.forall_mem_cons.2 ⟨scheme_numericFor forSpan var,
        List.forall_mem_singleton.2 (scheme_genericFor var)⟩) nofun

theorem accepts_localStmt : Accepts (· == .keyword .local_) (localStmt inner) :=
  accepts_keyword hinner fun _ =>
    .alt (o := .token) [localFunction, localDecl] (List.cons_ne_nil _ _)
      (List.forall_mem_cons.2 ⟨scheme_localFunction,
        List.forall_mem_singleton.2 scheme_localDecl⟩) nofun

theorem accepts_of_mem_stmtTable : ∀ entry ∈ stmtTable inner, Accepts entry.1 entry.2 := by
  simp only [List.forall_mem_cons]
  exact ⟨accepts_callOrAssign hinner, accepts_labelStmt,
    accepts_keyword hinner fun _ => .pure Stmt.breakLoop,
    accepts_keyword hinner fun _ => .pure Stmt.continueLoop,
    accepts_keyword hinner fun _ => Scheme.name.bind fun n => .pure (Stmt.goto n),
    accepts_keyword hinner fun _ => scheme_body .end_ fun body => .pure (Stmt.block body),
    accepts_keyword hinner fun _ => Scheme.expr.bind fun cond => (Scheme.keyword .do_).bind fun _ =>
      scheme_body .end_ fun body => .pure (Stmt.whileLoop cond body),
    accepts_keyword hinner fun _ => scheme_body .until_ fun body =>
      (Scheme.expr.bind fun cond => .pure (Stmt.repeatLoop body cond)).free,
    accepts_ifStmt hinner, accepts_forStmt hinner,
    accepts_keyword hinner fun _ => scheme_funcName.before fun n =>
      scheme_funcBody.bind fun body => .pure (Stmt.function n body),
    accepts_localStmt hinner, List.forall_mem_nil _⟩

theorem accepts_stmt :
    Accepts (fun t => t.startsStmt && t != .symbol .semicolon) (stmt inner) := by
  have hopening : ∀ r ∈ stmtRules.map (· inner), Opening r := by
    rw [List.forall_mem_map]
    exact fun rule hrule => (scheme_of_mem_stmtRules rule hrule).begins hinner
  refine Accepts.located (accepts_alt hopening fun t ht => ?_)
  have hany : (stmtTable inner).any (·.1 t) = true := by
    cases t with
    | keyword k => cases k <;> first | rfl | cases ht
    | symbol s => cases s <;> first | rfl | cases ht
    | _ => first | rfl | cases ht
  obtain ⟨entry, hentry, hp⟩ := List.any_eq_true.1 hany
  have hrule : entry.2 ∈ (stmtTable inner).map (·.2) := List.mem_map_of_mem hentry
  exact ⟨entry.2, hrule, entry.1, hp, accepts_of_mem_stmtTable hinner entry hentry⟩

theorem accepts_returnStmt : Accepts (· == .keyword .return_) (returnStmt inner) :=
  Accepts.located (accepts_keyword hinner fun _ =>
    (scheme_exprList.maybe nofun).loosely fun exprs =>
      scheme_semicolons.loosely fun _ => .pure (Return.mk (exprs.getD [])))

end

/-! ### Junk -/

/-- A round of the loop over the parts of a block: it passes over the semicolons up to `front`, and
there it reads a part. -/
structure PartRound where
  before : State
  front : State
  part : BlockPart
  after : State

/-- The round ran, and said whether there may be more. -/
structure PartRound.Ran (inner : Level) (c : Context) (r : PartRound) (more : Bool) : Prop where
  semicolons : ∃ spans, many (symbol .semicolon) c r.before = .ok spans r.front
  part : blockPart inner c r.before = .ok (some (r.part, more)) r.after

/-- The rounds of the loop, one after another. -/
inductive PartRounds (inner : Level) (c : Context) : State → List PartRound → State → Prop
  | stop {s t : State} (h : blockPart inner c s = .ok none t) : PartRounds inner c s [] t
  | last {r : PartRound} (h : r.Ran inner c false) : PartRounds inner c r.before [r] r.after
  | more {r : PartRound} {rs : List PartRound} {t : State} (h : r.Ran inner c true)
    (rest : PartRounds inner c r.after rs t) : PartRounds inner c r.before (r :: rs) t

/-- The round passes over junk: after semicolons a run of tokens that start nothing and end no
block, up to the first that does or to the end of the input. It is reported once. -/
structure PartRound.PassesOver (c : Context) (r : PartRound) : Prop where
  semicolons : ∀ i, r.before.cursor ≤ i → i < r.front.cursor →
    (c.stream.get? i).map (·.node) = some (.symbol .semicolon)
  consumes : r.front.cursor < r.after.cursor
  le_size : r.after.cursor ≤ c.stream.size
  junk : ∀ i token, r.front.cursor ≤ i → i < r.after.cursor → c.stream.get? i = some token →
    token.node.startsStmt = false ∧ token.node ≠ .keyword .return_ ∧ token.node.endsBlock = false
  resumes : ∀ token, c.stream.get? r.after.cursor = some token →
    token.node.startsStmt = true ∨ token.node = .keyword .return_ ∨ token.node.endsBlock = true
  reported : r.after.diags =
    ⟨c.stream.spanBetween r.front.cursor r.after.cursor,
      .unexpected ((c.stream.get? r.front.cursor).map (·.node)) [.named "statement"],
      .skipped (r.after.cursor - r.front.cursor)⟩ :: r.before.diags

theorem resumesAt_eq_false {t : Token} :
    resumesAt t = false ↔
      t.startsStmt = false ∧ t ≠ .keyword .return_ ∧ t.endsBlock = false := by
  simp only [resumesAt, Bool.or_eq_false_iff, beq_eq_false_iff_ne]
  tauto

theorem resumesAt_eq_true {t : Token} :
    resumesAt t = true ↔
      t.startsStmt = true ∨ t = .keyword .return_ ∨ t.endsBlock = true := by
  simp only [resumesAt, Bool.or_eq_true_iff, beq_iff_eq]
  tauto

theorem token_of_uncommitted {u : Token} {span : Span} (hc : c.isCommitted s = false)
    (hok : token u c s = .ok span t) : c.next? s = some ⟨u, span⟩ ∧ t = s.advance 1 := by
  obtain ⟨a, v, hread, hrest⟩ := ok_of_bind hok
  rcases accept_or_reject (.exactly u) c s with ⟨w, b, found, accepted⟩ | hsupply
  · cases (satisfy_of_accept found accepted).symm.trans hread
    cases hrest
    obtain rfl : w.node = u := by simpa [Matcher.exactly] using accepted
    exact ⟨found, rfl⟩
  · rw [hsupply, supply_of_not_committed hc] at hread
    cases hread

/-- Semicolons are read without a trace, as many as there are. -/
theorem semicolons_spec (hs : c.Proper s) {spans : List Span}
    (hok : many (symbol .semicolon) c s = .ok spans t) :
    c.Onward s t ∧ t.diags = s.diags ∧
      (∀ i, s.cursor ≤ i → i < t.cursor →
        (c.stream.get? i).map (·.node) = some (.symbol .semicolon)) ∧
      Without (· == .symbol .semicolon) ((c.next? t).map (·.node)) := by
  have hitems := (opening_token (.symbol .semicolon)).items_of_many hs hok
  refine ⟨hitems.onward hs, ?_⟩
  clear hok
  induction hitems with
  | @nil s why hstuck =>
    refine ⟨rfl, fun i _ _ => by omega, fun u hu => Bool.eq_false_iff.2 fun hp => ?_⟩
    obtain ⟨found, hnext, rfl⟩ := Option.map_eq_some_iff.1 hu
    obtain ⟨_, _, hread⟩ := accepts_token (.symbol .semicolon) _ s found hs.speculating
      ((c.next?_speculating s s).trans hnext) hp
    cases hread.symm.trans hstuck
  | @cons s u t span spans hread hu _ _ ih =>
    obtain ⟨hnext, rfl⟩ := token_of_uncommitted (Context.isCommitted_speculating hs) hread
    obtain ⟨hdiags, hbetween, hend⟩ := ih (hu.proper hs)
    refine ⟨hdiags, fun i hle hlt => ?_, hend⟩
    rcases Nat.lt_or_eq_of_le hle with hmoved | rfl
    · exact hbetween i hmoved hlt
    · rw [c.next?_speculating] at hnext
      rw [show c.stream.get? s.cursor = _ from hnext]
      rfl

theorem junkLength_cons (t : Token) (ts : List Token) :
    junkLength (t :: ts) = 1 + ts.findIdx resumesAt := by
  rw [junkLength, List.takeWhile_eq_take_findIdx_not, List.length_take]
  simp only [Bool.not_not]
  rw [Nat.min_eq_left List.findIdx_le_length]

theorem junkLength_le_length (ts : List Token) : junkLength ts ≤ ts.length := by
  cases ts with
  | nil => exact Nat.le_refl 0
  | cons t ts =>
    rw [junkLength_cons, List.length_cons, Nat.add_comm]
    exact Nat.succ_le_succ List.findIdx_le_length

theorem resumesAt_of_lt_junkLength {ts : List Token} {i : Nat} {t : Token} (hpos : 0 < i)
    (hlt : i < junkLength ts) (hget : ts[i]? = some t) : resumesAt t = false := by
  cases ts with
  | nil => cases hget
  | cons u us =>
    obtain ⟨j, rfl⟩ := Nat.exists_eq_succ_of_ne_zero (Nat.pos_iff_ne_zero.1 hpos)
    rw [junkLength_cons] at hlt
    obtain ⟨_, rfl⟩ := List.getElem?_eq_some_iff.1 (List.getElem?_cons_succ.symm.trans hget)
    exact List.not_of_lt_findIdx (by omega)

theorem resumesAt_of_junkLength {ts : List Token} {t : Token}
    (hget : ts[junkLength ts]? = some t) : resumesAt t = true := by
  cases ts with
  | nil => cases hget
  | cons u us =>
    rw [junkLength_cons, Nat.add_comm] at hget
    obtain ⟨_, rfl⟩ := List.getElem?_eq_some_iff.1 (List.getElem?_cons_succ.symm.trans hget)
    exact List.findIdx_getElem

/-- Junk is passed over up to where something can resume. -/
theorem skipJunk_spec {found : Located Token} (hnext : c.next? s = some found)
    (hok : skipJunk c s = .ok () t) :
    s.cursor < t.cursor ∧ t.cursor ≤ c.stream.size ∧
      (∀ i u, s.cursor < i → i < t.cursor → c.stream.get? i = some u → resumesAt u.node = false) ∧
      (∀ u, c.stream.get? t.cursor = some u → resumesAt u.node = true) ∧
      t.diags = ⟨c.stream.spanBetween s.cursor t.cursor,
        .unexpected ((c.stream.get? s.cursor).map (·.node)) [.named "statement"],
        .skipped (t.cursor - s.cursor)⟩ :: s.diags := by
  let count := junkLength (c.ahead s)
  have hcount : 0 < count := by
    have hahead : c.ahead s = found.node :: (c.stream.rest (s.cursor + 1)).map (·.node) := by
      rw [Context.ahead, TokenStream.rest_of_get? hnext, List.map_cons]
    simp only [count, hahead, junkLength_cons]
    omega
  have hle : count ≤ c.remaining s := c.length_ahead s ▸ junkLength_le_length _
  have hskip : skipJunk c s = .ok () ((s.advance count).record
      ⟨c.stream.spanBetween s.cursor (s.cursor + count),
        .unexpected ((c.next? s).map (·.node)) [.named "statement"], .skipped count⟩) := by
    change skipTokens count [.named "statement"] c s = _
    simp only [skipTokens, Nat.min_eq_left hle, if_neg (Nat.ne_of_gt hcount)]
  have hword : ∀ {i : Nat} {u : Located Token}, s.cursor ≤ i → c.stream.get? i = some u →
      (c.ahead s)[i - s.cursor]? = some u.node := by
    intro i u hi hu
    rw [c.getElem?_ahead, Nat.add_sub_cancel' hi, hu]
    rfl
  cases hskip.symm.trans hok
  have hlt := lt_of_next? hnext
  unfold Context.remaining at hle
  simp only [State.record, State.advance]
  refine ⟨by omega, by omega, fun i u hi hilt hu => ?_, fun u hu => ?_, ?_⟩
  · exact resumesAt_of_lt_junkLength (by omega) (by omega) (hword (Nat.le_of_lt hi) hu)
  · have hend := hword (Nat.le_add_right _ _) hu
    rw [Nat.add_sub_cancel_left] at hend
    exact resumesAt_of_junkLength hend
  · rw [Nat.add_sub_cancel_left]
    rfl

/-- A round that finds junk has passed over all of it, and nothing else. -/
theorem PartRound.Ran.passesOver {r : PartRound} {more : Bool} (h : r.Ran inner c more)
    (hinner : inner.Sound law L) (hs : c.Proper r.before) (hjunk : r.part = .junk) :
    r.PassesOver c := by
  obtain ⟨⟨spans, hsemicolons⟩, hok⟩ := h
  rw [hjunk] at hok
  cases partRun_of_blockPart hok with
  | @junk _ _ _ _ found semicolons noStmt noRet next goesOn skips =>
    cases semicolons.symm.trans hsemicolons
    obtain ⟨honward, hdiags, hbetween, hend⟩ := semicolons_spec hs hsemicolons
    have hfront := honward.proper hs
    obtain ⟨rfl, hnostmt⟩ :=
      (accepts_stmt hinner).none_of_optional (scheme_stmt.begins hinner) hfront noStmt
    obtain ⟨rfl, hnoret⟩ :=
      (accepts_returnStmt hinner).none_of_optional (scheme_returnStmt.begins hinner) hfront noRet
    obtain ⟨hlt, hle, hinside, hresumes, hreported⟩ := skipJunk_spec next skips
    rw [next] at hend hnostmt hnoret
    have hfirst : resumesAt found.node = false := by
      have hsemicolon := beq_eq_false_iff_ne.1 (hend _ rfl)
      refine resumesAt_eq_false.2 ⟨?_, beq_eq_false_iff_ne.1 (hnoret _ rfl), goesOn⟩
      rcases Bool.and_eq_false_iff.1 (hnostmt _ rfl) with hstmt | hstmt
      · exact hstmt
      · exact absurd (bne_eq_false_iff_eq.1 hstmt) hsemicolon
    exact {
      semicolons := hbetween
      consumes := hlt
      le_size := hle
      junk := fun i token hfrom hto hget => by
        rw [← resumesAt_eq_false]
        rcases Nat.lt_or_eq_of_le hfrom with hmoved | rfl
        · exact hinside i token hmoved hto hget
        · cases (show c.stream.get? r.front.cursor = _ from next).symm.trans hget
          exact hfirst
      resumes := fun token hget => resumesAt_eq_true.1 (hresumes token hget)
      reported := by rw [hreported, hdiags] }

/-- The rounds all ran, and none began before the first one. -/
theorem PartRounds.ran (hinner : inner.Sound law L) {rs : List PartRound}
    (h : PartRounds inner c s rs t) (hs : c.Proper s) :
    ∀ r ∈ rs, c.Onward s r.before ∧ ∃ more, r.Ran inner c more := by
  induction h with
  | stop _ => exact List.forall_mem_nil _
  | last h => exact List.forall_mem_singleton.2 ⟨.refl hs, false, h⟩
  | more h _ ih =>
    have hafter := (scheme_blockPart.orderly hinner).onward hs h.part
    refine List.forall_mem_cons.2 ⟨⟨.refl hs, true, h⟩, fun r hr => ?_⟩
    obtain ⟨hbefore, hran⟩ := ih (hafter.proper hs) r hr
    exact ⟨hafter.trans hbefore, hran⟩

/-- Two runs of junk are never adjacent, since something can resume after the first. -/
theorem PartRounds.pairwise (hinner : inner.Sound law L) {rs : List PartRound}
    (h : PartRounds inner c s rs t) (hs : c.Proper s) :
    rs.Pairwise fun r r' => r.part = .junk → r'.part = .junk →
      r.after.cursor < r'.front.cursor := by
  induction h with
  | stop _ => exact .nil
  | last _ => exact List.pairwise_singleton _ _
  | @more r rs t h hrest ih =>
    have hafter := (scheme_blockPart.orderly hinner).onward hs h.part
    have hs' := hafter.proper hs
    refine .cons (fun r' hr' hjunk hjunk' => ?_) (ih hs')
    obtain ⟨hbefore, more, hran⟩ := hrest.ran hinner hs' r' hr'
    have hproper := hbefore.proper hs'
    have hfirst := h.passesOver hinner hs hjunk
    have hsecond := hran.passesOver hinner hproper hjunk'
    obtain ⟨⟨spans, hsemicolons⟩, -⟩ := hran
    have hle := Nat.le_trans hbefore.cursor_le (semicolons_spec hproper hsemicolons).1.cursor_le
    refine Nat.lt_of_le_of_ne hle fun heq => ?_
    -- The token at which the first run ends would be the first one of the second run.
    obtain ⟨token, hget⟩ := TokenStream.exists_get?
      (Nat.lt_of_lt_of_le hsecond.consumes hsecond.le_size)
    obtain ⟨hstmt, hret, hblock⟩ := hsecond.junk _ token (Nat.le_refl _) hsecond.consumes hget
    have hresumes := hfirst.resumes token (heq ▸ hget)
    simp [hstmt, hret, hblock] at hresumes

theorem partRounds_of_loopRun (hinner : inner.Advances) {parts : List BlockPart}
    (hrounds : LoopRun (blockPart inner) c s parts t) :
    ∃ rs, parts = rs.map (·.part) ∧ PartRounds inner c s rs t := by
  have hran : ∀ {s t part more}, blockPart inner c s = .ok (some (part, more)) t →
      ∃ front, PartRound.Ran inner c ⟨s, front, part, t⟩ more := by
    intro s t part more hok
    obtain ⟨spans, u, hsemicolons, -⟩ := ok_of_bind hok
    exact ⟨u, ⟨spans, hsemicolons⟩, hok⟩
  induction hrounds with
  | stop hstep => exact ⟨[], rfl, .stop hstep⟩
  | last hstep =>
    obtain ⟨front, hran⟩ := hran hstep
    exact ⟨[_], rfl, .last hran⟩
  | stalled hstep hstalled =>
    cases partEnds_of_blockPart hinner hstep with
    | more hforward hlt => exact absurd (hforward.remaining_lt hlt) hstalled
  | more hstep _ _ ih =>
    obtain ⟨front, hran⟩ := hran hstep
    obtain ⟨rs, rfl, hrest⟩ := ih
    exact ⟨_ :: rs, rfl, .more hran hrest⟩

/-- A speculation finds a statement exactly where the next token starts one and is no semicolon, and
a `return` exactly where the next token is one, whatever follows. So the loop over the parts of a
block passes over nothing that could be read, each run of junk goes up to where something can
resume, and no two of them are adjacent. -/
theorem recovery_keeps_statements (stream : TokenStream) (limit depth : Nat) :
    (∀ s : State, s.cursor ≤ stream.size →
      ((∃ a t, stmt (nested depth) ⟨stream, .since s.cursor, limit⟩ s = .ok a t) ↔
        ∃ token, stream.get? s.cursor = some token ∧ token.node.startsStmt = true ∧
          token.node ≠ .symbol .semicolon) ∧
      ((∃ a t, returnStmt (nested depth) ⟨stream, .since s.cursor, limit⟩ s = .ok a t) ↔
        ∃ token, stream.get? s.cursor = some token ∧ token.node = .keyword .return_)) ∧
    ∀ (c : Context) (s : State), c.stream = stream → c.Proper s →
      ∃ rounds t, stmts (nested depth) c s = .ok (blockOf (rounds.map (·.part))) t ∧
        PartRounds (nested depth) c s rounds t ∧
        (∀ r ∈ rounds, r.part = .junk → r.PassesOver c) ∧
        rounds.Pairwise fun r r' => r.part = .junk → r'.part = .junk →
          r.after.cursor < r'.front.cursor := by
  have hinner := sound_lenient depth
  refine ⟨fun s hs => ?_, fun c s _ hs => ?_⟩
  · have hproper : Context.Proper ⟨stream, .since s.cursor, limit⟩ s :=
      ⟨hs, nofun, fun h => by cases h; exact Nat.le_refl _⟩
    have hc : Context.isCommitted ⟨stream, .since s.cursor, limit⟩ s = false :=
      bne_self_eq_false _
    constructor
    · have hnext := ok_iff_next (needs_stmt _) (accepts_stmt hinner) hproper hc
      simpa only [Context.next?, Bool.and_eq_true, bne_iff_ne] using hnext
    · have hneeds : Needs (· == .keyword .return_) (returnStmt (nested depth)) :=
        (needs_keyword _).bind.located
      have hnext := ok_iff_next hneeds (accepts_returnStmt hinner) hproper hc
      simpa only [Context.next?, beq_iff_eq] using hnext
  · obtain ⟨parts, t, hok⟩ := (neverStuck_blockPart (nested depth)).collect c s
    obtain ⟨rounds, rfl, hrounds⟩ :=
      partRounds_of_loopRun (advances_nested depth) (loopRun_of_collect hok)
    refine ⟨rounds, t, bind_of_ok hok, hrounds, fun r hr hjunk => ?_, hrounds.pairwise hinner hs⟩
    obtain ⟨hbefore, more, hran⟩ := hrounds.ran hinner hs r hr
    exact hran.passesOver hinner (hbefore.proper hs) hjunk

/-- The first round of the loop is the one that runs where it starts. -/
theorem PartRounds.exists_first {rs : List PartRound} {part : BlockPart} {u : State}
    (h : PartRounds inner c s rs t) (hpart : blockPart inner c s = .ok (some (part, true)) u) :
    ∃ r ∈ rs, r.Ran inner c true ∧ r.before = s ∧ r.part = part ∧ r.after = u := by
  cases h with
  | stop h => cases hpart.symm.trans h
  | last h => cases hpart.symm.trans h.part
  | @more r rs t h _ =>
    have hsame := hpart.symm.trans h.part
    simp only [EStateM.Result.ok.injEq, Option.some.injEq, Prod.mk.injEq, and_true] at hsame
    exact ⟨r, List.mem_cons_self, h, rfl, hsame.1.symm, hsame.2.symm⟩

/-- In `) = return`, two tokens are passed over in one round before the `return`. -/
theorem recovery_keeps_return :
    let stream : TokenStream := .ofTokens [⟨.symbol .closeParen, default⟩,
      ⟨.symbol .equal, default⟩, ⟨.keyword .return_, default⟩]
    (∃ a t, returnStmt (nested 0) ⟨stream, .since 2, 1⟩ ⟨2, [], none⟩ = .ok a t) ∧
    ∃ rounds t, stmts (nested 0) (Rule.start stream 1) initial =
        .ok (blockOf (rounds.map (·.part))) t ∧
      PartRounds (nested 0) (Rule.start stream 1) initial rounds t ∧
      (∃ r ∈ rounds, r.part = .junk ∧ r.front.cursor = 0 ∧ r.after.cursor = 2) ∧
      (∀ r ∈ rounds, r.part = .junk → r.PassesOver (Rule.start stream 1)) ∧
      rounds.Pairwise fun r r' => r.part = .junk → r'.part = .junk →
        r.after.cursor < r'.front.cursor := by
  intro stream
  obtain ⟨hnext, hloop⟩ := recovery_keeps_statements stream 1 0
  obtain ⟨rounds, t, hok, hrounds, hjunk, hapart⟩ :=
    hloop (Rule.start stream 1) initial rfl (proper_start _ _)
  have hsemicolons : many (symbol .semicolon) (Rule.start stream 1) initial = .ok [] initial :=
    collect_of_none rfl
  let skipped : Diagnostic := ⟨stream.spanBetween 0 2,
    .unexpected (some (.symbol .closeParen)) [.named "statement"], .skipped 2⟩
  have hpart : blockPart (nested 0) (Rule.start stream 1) initial =
      .ok (some (.junk, true)) ((initial.advance 2).record skipped) := by
    rw [blockPart, bind_of_ok hsemicolons]
    rfl
  obtain ⟨r, hr, ⟨⟨spans, hfront⟩, -⟩, hbefore, hrjunk, hafter⟩ := hrounds.exists_first hpart
  have hround : r.part = .junk ∧ r.front.cursor = 0 ∧ r.after.cursor = 2 := by
    rw [hbefore, hsemicolons] at hfront
    injection hfront with _ hfront
    rw [hafter, ← hfront]
    exact ⟨hrjunk, rfl, rfl⟩
  exact ⟨(hnext ⟨2, [], none⟩ (by decide)).2.2 ⟨_, rfl, rfl⟩, rounds, t, hok, hrounds,
    ⟨r, hr, hround⟩, hjunk, hapart⟩

end Grammar

end LuaSyntax
