import LuaSyntax.Grammar.Nesting
import LuaSyntax.Proofs.Grammar.ExprBounded
/-!
# Blocks on a level within the limit

The same for statements and blocks, and with it for every nesting level: what is cut off at the
limit leaves a stub. A statement is only ever tried where it can be left out, so the `for` of a step
that is filled in is one that was written.
-/

namespace LuaSyntax.Grammar

open Rule

variable {root : Context} {last n : Nat} {inner : Level}

/-! ### Statements -/

theorem bounded_ifClause (h : inner.Bounded root last n) :
    Ensures root (ifClause inner) fun c => Bounded root.stream last (c.contents n) :=
  h.expr.bind fun _ hcond => .after fun _ => h.block.map fun _ hbody =>
    bounded_append.2 ⟨hcond, hbody⟩

theorem bounded_ifStmt (h : inner.Bounded root last n) :
    Ensures root (ifStmt inner) fun s => Bounded root.stream last (s.contents n) := by
  have helse : Ensures root (elseBlock inner) fun b =>
      Bounded root.stream last (b.occupants (n + 1)) := .after fun _ => h.block
  have helseif : Ensures root (elseifClause inner) fun c =>
      Bounded root.stream last (c.contents n) := .after fun _ => bounded_ifClause h
  refine .after fun _ => (bounded_ifClause h).bind fun first hfirst => helseif.many.bind
    fun others hothers => helse.optional.bind fun otherwise hotherwise => .after fun _ => .pure ?_
  refine bounded_append.2 ⟨bounded_clauses.2 (List.forall_mem_cons.2 ⟨hfirst, hothers⟩), ?_⟩
  cases otherwise with
  | none => exact bounded_nil
  | some body => exact hotherwise body rfl

/-- A step stands where an expression may stand, or it is `1` at the `for`. -/
theorem bounded_step (h : inner.Bounded root last n) {forSpan : Span} {step : Option (Located Expr)}
    (hfor : ∃ i, root.stream.get? i = some ⟨.keyword .for_, forSpan⟩)
    (hstep : ∀ e ∈ step,
      Bounded root.stream last ((n + 1, .expr e.node) :: e.node.contents (n + 1))) :
    let e := step.getD ⟨.number "1", forSpan⟩
    Bounded root.stream last ((n + 1, .step e) :: e.node.contents (n + 1)) := by
  rw [bounded_cons]
  cases step with
  | none => exact ⟨⟨h.lt, fun _ => .inr ⟨rfl, hfor⟩⟩, bounded_nil⟩
  | some e =>
    obtain ⟨⟨hle, hstub⟩, hcontents⟩ := bounded_cons.1 (hstep e rfl)
    exact ⟨⟨hle, fun heq => .inl (hstub heq)⟩, hcontents⟩

theorem bounded_numericFor (h : inner.Bounded root last n) {forSpan : Span} (var : Located Name)
    (hfor : ∃ i, root.stream.get? i = some ⟨.keyword .for_, forSpan⟩) :
    Ensures root (numericFor inner forSpan var) fun s =>
      Bounded root.stream last (s.contents n) := by
  have hnext : Ensures root (following .comma inner.expr) fun e =>
    Bounded root.stream last ((n + 1, .expr e.node) :: e.node.contents (n + 1)) :=
    .after fun _ => h.expr
  exact .after fun _ => h.expr.bind fun start hstart => .after fun _ => h.expr.bind
    fun stop hstop => hnext.optional.bind fun step hstep => .after fun _ => h.block.bind
    fun body hbody => .after fun _ => .pure <|
      bounded_append.2 ⟨bounded_append.2 ⟨bounded_append.2 ⟨hstart, hstop⟩,
        bounded_step h hfor hstep⟩, hbody⟩

theorem bounded_genericFor (h : inner.Bounded root last n) (first : Located Name) :
    Ensures root (genericFor inner first) fun s => Bounded root.stream last (s.contents n) :=
  .after fun _ => .after fun _ => (bounded_exprList h).bind fun _ hexprs => .after fun _ =>
    h.block.bind fun _ hbody => .after fun _ => .pure (bounded_append.2 ⟨hexprs, hbody⟩)

theorem bounded_forStmt (h : inner.Bounded root last n) :
    EnsuresUncommitted root (forStmt inner) fun s => Bounded root.stream last (s.contents n) := by
  refine (ensuresUncommitted_token _).bind fun forSpan hfor => .after fun var => .alt ?_
  simp only [List.forall_mem_cons]
  exact ⟨bounded_numericFor h var hfor, bounded_genericFor h var, nofun⟩

theorem bounded_localStmt (h : inner.Bounded root last n) :
    Ensures root (localStmt inner) fun s => Bounded root.stream last (s.contents n) := by
  refine .after fun _ => .alt ?_
  simp only [List.forall_mem_cons]
  refine ⟨.after fun _ => .after fun _ => (bounded_funcBody h).map fun _ hbody => hbody,
    .after fun names => .after fun equal => ?_, nofun⟩
  cases equal with
  | some equal => exact (bounded_exprList h).map fun _ hes => bounded_padWithNil h.lt hes
  | none => exact .after fun _ => .pure (bounded_padWithNil h.lt bounded_nil)

theorem bounded_checkedTarget {target : PrefixExp}
    (htarget : Bounded root.stream last (target.contents n)) :
    Ensures root (checkedTarget target) fun t => Bounded root.stream last (t.node.contents n) := by
  unfold checkedTarget
  cases targetCause? target with
  | none => exact .pure htarget
  | some cause => exact .after fun _ => .pure htarget

theorem bounded_assignment (h : inner.Bounded root last n) {first : PrefixExp}
    (hfirst : Bounded root.stream last (first.contents n)) :
    Ensures root (assignment inner first) fun s => Bounded root.stream last (s.contents n) := by
  have hnext : Ensures root (following .comma (prefixExp inner .unrestricted)) fun p =>
    Bounded root.stream last (p.contents n) := .after fun _ => bounded_prefixExp h
  have hmore : Ensures root (moreTargets inner) fun ts =>
      ∀ t ∈ ts, Bounded root.stream last (t.node.contents n) := by
    refine .collect (hnext.optional.bind fun r hr => ?_)
    cases r with
    | none => exact .pure nofun
    | some target =>
      refine (bounded_checkedTarget (hr target rfl)).map fun t ht => ?_
      rintro a ⟨⟩
      exact ht
  refine (bounded_checkedTarget hfirst).bind fun t ht => hmore.bind fun ts hts => .after fun _ =>
    (bounded_exprList h).map fun es hes => bounded_append.2 ⟨?_, bounded_padWithNil h.lt hes⟩
  exact bounded_targets.2 (List.forall_mem_cons.2 ⟨ht, hts⟩)

theorem bounded_callOrAssign (h : inner.Bounded root last n) :
    Ensures root (callOrAssign inner) fun s => Bounded root.stream last (s.contents n) := by
  refine (bounded_head h).bind fun a ha => (bounded_suffixChain h).bind fun marks hmarks =>
    .after fun next => ?_
  have hfirst := bounded_access ha hmarks
  split
  · exact .pure hfirst
  · exact bounded_assignment h hfirst

theorem bounded_stmt (h : inner.Bounded root last n) :
    EnsuresUncommitted root (stmt inner) fun s =>
      Bounded root.stream last (s.node.contents n) := by
  refine .located (P := fun s : Stmt => Bounded root.stream last (s.contents n)) (.alt ?_)
  simp only [List.forall_mem_cons]
  have hdo : Ensures root (doStmt inner) fun s => Bounded root.stream last (s.contents n) :=
    .after fun _ => h.block.bind fun _ hbody => .after fun _ => .pure hbody
  have hwhile : Ensures root (whileStmt inner) fun s => Bounded root.stream last (s.contents n) :=
    .after fun _ => h.expr.bind fun _ hcond => .after fun _ => h.block.bind fun _ hbody =>
      .after fun _ => .pure (bounded_append.2 ⟨hcond, hbody⟩)
  have hrepeat : Ensures root (repeatStmt inner) fun s =>
      Bounded root.stream last (s.contents n) :=
    .after fun _ => h.block.bind fun _ hbody => .after fun _ => h.expr.map fun _ hcond =>
      bounded_append.2 ⟨hbody, hcond⟩
  have hfunction : Ensures root (functionStmt inner) fun s =>
      Bounded root.stream last (s.contents n) :=
    .after fun _ => .after fun _ => (bounded_funcBody h).map fun _ hbody => hbody
  have hlabel : Ensures root labelStmt fun s => Bounded root.stream last (s.contents n) :=
    .after fun _ => .pure bounded_nil
  have hbreak : Ensures root breakStmt fun s => Bounded root.stream last (s.contents n) :=
    .after fun _ => .pure bounded_nil
  have hcontinue : Ensures root continueStmt fun s => Bounded root.stream last (s.contents n) :=
    .after fun _ => .pure bounded_nil
  have hgoto : Ensures root gotoStmt fun s => Bounded root.stream last (s.contents n) :=
    .after fun _ => .after fun _ => .pure bounded_nil
  exact ⟨(bounded_callOrAssign h).uncommitted, hlabel.uncommitted, hbreak.uncommitted,
    hcontinue.uncommitted, hgoto.uncommitted, hdo.uncommitted, hwhile.uncommitted,
    hrepeat.uncommitted, (bounded_ifStmt h).uncommitted, bounded_forStmt h,
    hfunction.uncommitted, (bounded_localStmt h).uncommitted, nofun⟩

/-! ### Blocks -/

theorem bounded_returnStmt (h : inner.Bounded root last n) :
    Ensures root (returnStmt inner) fun r => Bounded root.stream last (r.node.contents n) := by
  refine .located (P := fun r : Return => Bounded root.stream last (r.contents n)) ?_
  refine .after fun _ => (bounded_exprList h).optional.bind fun r hr => .after fun _ => .pure ?_
  cases r with
  | none => exact bounded_nil
  | some es => exact hr es rfl

/-- What is inside the part is bounded. -/
def BlockPart.Bounded (stream : TokenStream) (last n : Nat) : BlockPart → Prop
  | stmt s => LuaSyntax.Bounded stream last (s.node.contents n)
  | ret r => LuaSyntax.Bounded stream last (r.node.contents n)
  | junk => True

theorem bounded_blockPart (h : inner.Bounded root last n) :
    Ensures root (blockPart inner) fun r => ∀ a ∈ r, a.1.Bounded root.stream last n := by
  refine .after fun _ => (bounded_stmt h).optional.bind fun s hs => ?_
  cases s with
  | some s =>
    refine .pure ?_
    rintro a ⟨⟩
    exact hs s rfl
  | none =>
    refine (bounded_returnStmt h).optional.bind fun r hr => ?_
    cases r with
    | some r =>
      refine .pure ?_
      rintro a ⟨⟩
      exact hr r rfl
    | none =>
      refine .after fun next => ?_
      cases next with
      | none => exact .pure nofun
      | some t =>
        dsimp only
        split
        · exact .pure nofun
        · refine .after fun _ => .pure ?_
          rintro a ⟨⟩
          trivial

theorem bounded_blockOf (hn : n < last) {parts : List BlockPart}
    (h : ∀ part ∈ parts, part.Bounded root.stream last n) :
    Bounded root.stream last ((blockOf parts).occupants n) := by
  refine bounded_cons_of_lt hn (bounded_append.2 ⟨bounded_stmts.2 fun s hs => ?_, ?_⟩)
  · obtain ⟨part, hpart, hs⟩ := List.mem_filterMap.1 hs
    cases part <;> cases hs
    exact h _ hpart
  · cases hr : parts.findSome? (·.ret?) with
    | none => exact bounded_nil
    | some r =>
      obtain ⟨part, hpart, hr⟩ := List.exists_of_findSome?_eq_some hr
      cases part <;> cases hr
      exact h _ hpart

theorem bounded_stmtsRule (h : inner.Bounded root last n) :
    Ensures root (stmts inner) fun b => Bounded root.stream last (b.occupants n) :=
  (Ensures.collect (bounded_blockPart h)).map fun _ hparts => bounded_blockOf h.lt hparts

/-! ### Nesting levels -/

theorem ensures_cutOffExpr : Ensures root cutOffExpr fun e => e.node = .nil := by
  refine .after fun r => ?_
  cases r with
  | some span => exact .pure rfl
  | none =>
    refine .after fun b => ?_
    cases b with
    | true => exact .after fun _ => .after fun _ => .after fun _ => .pure rfl
    | false => exact fun _ _ _ hgives => (not_gives_stuck hgives).elim

theorem ensures_cutOffBlock : Ensures root cutOffBlock fun b => b = .empty :=
  .after fun _ => .pure rfl

/-- The rules with room for `depth` levels, on the level that they stand on. -/
theorem ensures_nested {depth : Nat} (h : n + depth = last) :
    Ensures root (nested depth).expr
        (fun e => Bounded root.stream last ((n, .expr e.node) :: e.node.contents n)) ∧
      Ensures root (nested depth).block fun b => Bounded root.stream last (b.occupants n) := by
  induction depth generalizing n with
  | zero =>
    refine ⟨ensures_cutOffExpr.mono fun e he => ?_, ensures_cutOffBlock.mono fun b hb => ?_⟩
    · rw [he]
      exact bounded_nilExpr (Nat.le_of_eq h)
    · rw [hb]
      exact bounded_empty (Nat.le_of_eq h)
  | succ depth ih =>
    obtain ⟨hexpr, hblock⟩ := ih (n := n + 1) (by omega)
    have hlevel : (nested depth).Bounded root last n := ⟨by omega, hexpr, hblock⟩
    exact ⟨(bounded_orExpr hlevel).mono fun e he => bounded_cons_of_lt hlevel.lt he,
      bounded_stmtsRule hlevel⟩

/-! ### Chunks -/

/-- On the last level both blocks are empty, and so are they together. -/
theorem bounded_blocks {a b : Block} (ha : Bounded root.stream last (a.occupants n))
    (hb : Bounded root.stream last (b.occupants n)) :
    Bounded root.stream last ((a ++ b).occupants n) := by
  obtain ⟨ss, r⟩ := a
  obtain ⟨ss', r'⟩ := b
  obtain ⟨⟨hle, hempty⟩, ha⟩ := bounded_cons.1 ha
  obtain ⟨⟨-, hempty'⟩, hb⟩ := bounded_cons.1 hb
  rw [bounded_append] at ha hb
  refine bounded_cons.2 ⟨⟨hle, fun heq => ?_⟩, bounded_append.2 ⟨?_, ?_⟩⟩
  · cases hempty heq
    cases hempty' heq
    rfl
  · exact bounded_stmts.2 (List.forall_mem_append.2 ⟨bounded_stmts.1 ha.1, bounded_stmts.1 hb.1⟩)
  · cases r' with
    | none => exact ha.2
    | some r' => exact hb.2

theorem bounded_foldl {first : Block} {more : List Block}
    (hfirst : Bounded root.stream last (first.occupants n))
    (hmore : ∀ b ∈ more, Bounded root.stream last (b.occupants n)) :
    Bounded root.stream last ((more.foldl (· ++ ·) first).occupants n) := by
  induction more generalizing first with
  | nil => exact hfirst
  | cons b more ih =>
    rw [List.forall_mem_cons] at hmore
    exact ih (bounded_blocks hfirst hmore.1) hmore.2

theorem bounded_chunk {inner : Level}
    (h : Ensures root inner.block fun b => Bounded root.stream last (b.occupants n)) :
    Ensures root (chunk inner) fun b => Bounded root.stream last (b.occupants n) := by
  have hpart : Ensures root (chunkPart inner) fun r =>
      ∀ a ∈ r, Bounded root.stream last (a.1.occupants n) := by
    refine .after fun ended => ?_
    cases ended with
    | true => exact .pure nofun
    | false =>
      refine .after fun _ => h.map fun b hb => ?_
      rintro a ⟨⟩
      exact hb
  refine h.bind fun first hfirst => ?_
  split
  · exact .pure hfirst
  · exact (Ensures.collect hpart).map fun _ hmore => bounded_foldl hfirst hmore

end LuaSyntax.Grammar
