import LuaSyntax.Grammar.Nesting
import LuaSyntax.Proofs.Grammar.ExprPlaces
/-!
# Where the spans of blocks lie

One lemma for each rule of the statement grammar: it places all spans in its value. The values that
a declaration or an assignment is filled up with lie at its `=` or at its last name.
-/

namespace LuaSyntax.Grammar

open Rule

variable {root : Context} {P : Span → Prop} {inner : Level} (hspans : Spans root P)

include hspans

theorem places_following {α : Type} {separator : Symbol} {item : Rule α} {f : α → List Span}
    (h : Places root P item f) : Places root P (following separator item) f :=
  (places_symbol hspans separator).bind fun _ _ => h

/-- The spans of the names in a function name. -/
def spansOfFuncName (n : FuncName) : List Span :=
  n.path.map (·.span) ++ n.method.toList.map (·.span)

theorem places_funcName : Places root P funcName spansOfFuncName :=
  (places_name hspans).bind fun _ hfirst =>
    (places_following hspans (places_name hspans)).many.bind fun _ hothers =>
    (places_following hspans (places_name hspans)).optional.map fun _ hmethod => by
      rw [← List.map_eq_flatMap] at hothers hmethod
      simpa [spansOfFuncName, hothers, hmethod] using hfirst

/-! ### Simple statements -/

theorem places_breakStmt : Places root P breakStmt (·.spans) :=
  (places_keyword hspans .break_).map fun _ _ => by simp

theorem places_continueStmt : Places root P continueStmt (·.spans) :=
  (places_keyword hspans .continue_).map fun _ _ => by simp

theorem places_labelStmt : Places root P labelStmt (·.spans) :=
  (places_satisfy hspans .label).map fun _ _ => by simp

theorem places_gotoStmt : Places root P gotoStmt (·.spans) :=
  (places_keyword hspans .goto_).bind fun _ _ => (places_name hspans).map fun _ hname => by
    simpa using hname

theorem places_doStmt (h : inner.Placed root P) : Places root P (doStmt inner) (·.spans) :=
  (places_keyword hspans .do_).bind fun _ _ => h.block.bind fun _ hbody =>
    (places_keyword hspans .end_).bind fun _ _ => .pure (by simpa using hbody)

theorem places_whileStmt (h : inner.Placed root P) : Places root P (whileStmt inner) (·.spans) :=
  (places_keyword hspans .while_).bind fun _ _ => h.expr.bind fun _ hcond =>
    (places_keyword hspans .do_).bind fun _ _ => h.block.bind fun _ hbody =>
    (places_keyword hspans .end_).bind fun _ _ => .pure (by simp [hcond, hbody])

theorem places_repeatStmt (h : inner.Placed root P) : Places root P (repeatStmt inner) (·.spans) :=
  (places_keyword hspans .repeat_).bind fun _ _ => h.block.bind fun _ hbody =>
    (places_keyword hspans .until_).bind fun _ _ => h.expr.map fun _ hcond => by
      simp [hcond, hbody]

theorem places_ifClause (h : inner.Placed root P) : Places root P (ifClause inner) (·.spans) :=
  h.expr.bind fun _ hcond => (places_keyword hspans .then_).bind fun _ _ =>
    h.block.map fun _ hbody => by simp [hcond, hbody]

theorem places_elseifClause (h : inner.Placed root P) :
    Places root P (elseifClause inner) (·.spans) :=
  (places_keyword hspans .elseif_).bind fun _ _ => places_ifClause hspans h

theorem places_elseBlock (h : inner.Placed root P) : Places root P (elseBlock inner) (·.spans) :=
  (places_keyword hspans .else_).bind fun _ _ => h.block

theorem places_ifStmt (h : inner.Placed root P) : Places root P (ifStmt inner) (·.spans) :=
  (places_keyword hspans .if_).bind fun _ _ => (places_ifClause hspans h).bind fun _ hfirst =>
    (places_elseifClause hspans h).many.bind fun _ hothers =>
    (places_elseBlock hspans h).optional.bind fun _ hotherwise =>
    (places_keyword hspans .end_).bind fun _ _ => .pure (by simp [hfirst, hothers, hotherwise])

theorem places_numericFor (h : inner.Placed root P) {forSpan : Span} {var : Located Name}
    (hfor : P forSpan) (hvar : P var.span) :
    Places root P (numericFor inner forSpan var) (·.spans) :=
  (places_symbol hspans .equal).bind fun _ _ => h.expr.bind fun _ hstart =>
    (places_symbol hspans .comma).bind fun _ _ => h.expr.bind fun _ hstop =>
    (places_following hspans h.expr).optional.bind fun step hstep =>
    (places_keyword hspans .do_).bind fun _ _ => h.block.bind fun _ hbody =>
    (places_keyword hspans .end_).bind fun _ _ => .pure (by
      have hstep : (spansOfExpr (step.getD ⟨.number "1", forSpan⟩)).Forall P := by
        cases step with
        | none => simpa using hfor
        | some e => simpa using hstep
      simp [hvar, hstart, hstop, hstep, hbody])

theorem places_genericFor (h : inner.Placed root P) {first : Located Name} (hfirst : P first.span) :
    Places root P (genericFor inner first) (·.spans) :=
  (places_following hspans (places_name hspans)).many.bind fun _ hothers =>
    (places_keyword hspans .in_).bind fun _ _ => (places_exprList hspans h).bind fun _ hexprs =>
    (places_keyword hspans .do_).bind fun _ _ => h.block.bind fun _ hbody =>
    (places_keyword hspans .end_).bind fun _ _ => .pure (by
      rw [← List.map_eq_flatMap] at hothers
      simp [hfirst, hothers, hexprs, hbody])

theorem places_forStmt (h : inner.Placed root P) : Places root P (forStmt inner) (·.spans) := by
  refine (places_keyword hspans .for_).bind fun forSpan hfor =>
    (places_name hspans).bind fun var hvar => .alt ?_
  simp only [List.forall_mem_cons]
  exact ⟨places_numericFor hspans h hfor hvar, places_genericFor hspans h hvar, nofun⟩

theorem places_functionStmt (h : inner.Placed root P) :
    Places root P (functionStmt inner) (·.spans) :=
  (places_keyword hspans .function_).bind fun _ _ => (places_funcName hspans).bind fun _ hname =>
    (places_funcBody hspans h).map fun _ hbody => by
      rw [spansOfFuncName, List.forall_append] at hname
      simp [hname, hbody]

theorem places_localFunction (h : inner.Placed root P) :
    Places root P (localFunction inner) (·.spans) :=
  (places_keyword hspans .function_).bind fun _ _ => (places_name hspans).bind fun _ hname =>
    (places_funcBody hspans h).map fun _ hbody => by simpa [hbody] using hname

omit hspans in
theorem placed_padWithNil {es : List (Located Expr)} {span : Span} (count : Nat) (hspan : P span)
    (hes : (es.flatMap spansOfExpr).Forall P) :
    ((Expr.padWithNil count span es).flatMap spansOfExpr).Forall P := by
  rw [Expr.padWithNil, List.flatMap_append, List.forall_append]
  refine ⟨hes, List.forall_iff_forall_mem.2 fun x hx => ?_⟩
  obtain ⟨e, he, hx⟩ := List.mem_flatMap.1 hx
  rw [List.eq_of_mem_replicate he] at hx
  simp only [Expr.nilAt, spansOfExpr, Expr.spans, List.mem_singleton] at hx
  rwa [hx]

theorem places_localDecl (h : inner.Placed root P) : Places root P (localDecl inner) (·.spans) := by
  refine ((places_name hspans).sepBy1 (places_symbol hspans .comma)).bind fun names hnames =>
    (places_symbol hspans .equal).optional.bind fun r hr => ?_
  rw [← List.map_eq_flatMap] at hnames
  cases r with
  | some equal =>
    have hequal : P equal := by simpa using hr
    exact (places_exprList hspans h).map fun _ hexprs => by
      simpa [hnames] using placed_padWithNil names.length hequal hexprs
  | none =>
    refine (places_pos hspans).bind fun p hp => .pure ?_
    have hlast : P ((names.getLast?.map (·.span)).getD (.point p)) := by
      cases hlast : names.getLast? with
      | none => exact hp
      | some n =>
        exact List.forall_iff_forall_mem.1 hnames _
          (List.mem_map_of_mem (List.mem_of_getLast? hlast))
    have hnone : (([] : List (Located Expr)).flatMap spansOfExpr).Forall P := trivial
    simpa [hnames] using placed_padWithNil names.length hlast hnone

theorem places_localStmt (h : inner.Placed root P) : Places root P (localStmt inner) (·.spans) := by
  refine (places_keyword hspans .local_).bind fun _ _ => .alt ?_
  simp only [List.forall_mem_cons]
  exact ⟨places_localFunction hspans h, places_localDecl hspans h, nofun⟩

/-! ### Calls and assignments -/

theorem places_checkedTarget {target : PrefixExp} (htarget : target.spans.Forall P) :
    Places root P (checkedTarget target) spansOfTarget := by
  have hspan := placed_span hspans htarget
  have hvalue : (spansOfTarget ⟨target, target.span⟩).Forall P := by simp [hspan, htarget]
  unfold checkedTarget
  cases targetCause? target with
  | none => exact .pure hvalue
  | some cause => exact (places_record hspan).bind fun _ _ => .pure hvalue

theorem places_moreTargets (h : inner.Placed root P) :
    Places root P (moreTargets inner) (·.flatMap spansOfTarget) := by
  refine .collect ((places_following hspans
    (places_prefixExp hspans h .unrestricted)).optional.bind fun r hr => ?_)
  cases r with
  | none => exact .pure trivial
  | some target =>
    exact (places_checkedTarget hspans (by simpa using hr)).map fun _ ht => by simpa using ht

theorem places_assignment (h : inner.Placed root P) {first : PrefixExp}
    (hfirst : first.spans.Forall P) : Places root P (assignment inner first) (·.spans) :=
  (places_checkedTarget hspans hfirst).bind fun _ htarget =>
    (places_moreTargets hspans h).bind fun _ htargets =>
    (places_symbol hspans .equal).bind fun _ hequal =>
    (places_exprList hspans h).map fun _ hexprs => by
      simpa [htarget, htargets] using placed_padWithNil _ hequal hexprs

theorem places_callOrAssign (h : inner.Placed root P) :
    Places root P (callOrAssign inner) (·.spans) := by
  refine (places_head hspans h).bind fun a ha => (places_suffixChain hspans h).bind fun marks hms =>
    places_peek.bind fun next _ => ?_
  have hfirst : (PrefixExp.spans ⟨a, marks.map (·.1)⟩).Forall P := by
    simp [ha, hms, List.flatMap_map]
  split
  · exact .pure (by simpa using hfirst)
  · exact places_assignment hspans h hfirst

theorem places_stmt (h : inner.Placed root P) : Places root P (stmt inner) spansOfStmt := by
  refine .located hspans spansOfStmt_eq (.alt ?_)
  simp only [List.forall_mem_cons]
  exact ⟨places_callOrAssign hspans h, places_labelStmt hspans, places_breakStmt hspans,
    places_continueStmt hspans, places_gotoStmt hspans, places_doStmt hspans h,
    places_whileStmt hspans h, places_repeatStmt hspans h, places_ifStmt hspans h,
    places_forStmt hspans h, places_functionStmt hspans h, places_localStmt hspans h, nofun⟩

/-! ### Blocks -/

theorem places_returnStmt (h : inner.Placed root P) :
    Places root P (returnStmt inner) spansOfReturn :=
  .located (f := fun r : Return => spansOfExprs r.exprs) hspans spansOfReturn_eq
    ((places_keyword hspans .return_).bind fun _ _ =>
      (places_exprList hspans h).optional.bind fun r hr =>
      (places_symbol hspans .semicolon).many.bind fun _ _ => .pure (by
        cases r with
        | none => simp
        | some es => simpa using hr))

def BlockPart.spans : BlockPart → List Span
  | stmt s => spansOfStmt s
  | ret r => spansOfReturn r
  | junk => []

omit hspans in
theorem placed_blockOf {parts : List BlockPart} (h : (parts.flatMap (·.spans)).Forall P) :
    (blockOf parts).spans.Forall P := by
  rw [List.forall_iff_forall_mem] at h ⊢
  intro x hx
  simp only [blockOf, Block.spans, spansOfStmts_eq_flatMap, spansOfReturn?_eq_flatMap,
    List.mem_append, List.mem_flatMap, List.mem_filterMap, Option.mem_toList] at hx
  rcases hx with ⟨s, ⟨part, hpart, hs⟩, hx⟩ | ⟨r, hr, hx⟩
  · cases part <;> cases hs
    exact h x (List.mem_flatMap.2 ⟨_, hpart, hx⟩)
  · obtain ⟨part, hpart, hr⟩ := List.exists_of_findSome?_eq_some hr
    cases part <;> cases hr
    exact h x (List.mem_flatMap.2 ⟨_, hpart, hx⟩)

theorem places_skipJunk : Places root P skipJunk fun _ => [] := by
  intro p a q hgives
  obtain ⟨c, s, s', hc, hp, hok, hq⟩ := hgives
  exact places_skipTokens hspans _ _ p a q ⟨c, s, s', hc, hp, hok, hq⟩

theorem places_blockPart (h : inner.Placed root P) :
    Places root P (blockPart inner) fun r => r.toList.flatMap fun r => r.1.spans := by
  refine (places_symbol hspans .semicolon).many.bind fun _ _ =>
    (places_stmt hspans h).optional.bind fun s hs => ?_
  cases s with
  | some s => exact .pure (by simpa [BlockPart.spans] using hs)
  | none =>
    refine (places_returnStmt hspans h).optional.bind fun r hr => ?_
    cases r with
    | some r => exact .pure (by simpa [BlockPart.spans] using hr)
    | none =>
      refine places_peek.bind fun next _ => ?_
      cases next with
      | none => exact .pure trivial
      | some t =>
        dsimp only
        split
        · exact .pure trivial
        · exact (places_skipJunk hspans).map fun _ _ => trivial

theorem places_stmts (h : inner.Placed root P) : Places root P (stmts inner) (·.spans) :=
  (Places.collect (places_blockPart hspans h)).map fun _ hparts => placed_blockOf hparts

omit hspans in
theorem placed_append {a b : Block} (ha : a.spans.Forall P) (hb : b.spans.Forall P) :
    (a ++ b).spans.Forall P := by
  obtain ⟨ss, r⟩ := a
  obtain ⟨ss', r'⟩ := b
  change (Block.spans ⟨ss ++ ss', r'.or r⟩).Forall P
  simp only [Block.spans, spansOfStmts_eq_flatMap, spansOfReturn?_eq_flatMap,
    List.forall_append] at ha hb
  cases r' with
  | none => simp [ha, hb]
  | some r' => simpa [ha.1, hb.1] using hb.2

omit hspans in
theorem placed_foldl_append {first : Block} {more : List Block} (hfirst : first.spans.Forall P)
    (hmore : (more.flatMap (·.spans)).Forall P) : (more.foldl (· ++ ·) first).spans.Forall P := by
  induction more generalizing first with
  | nil => exact hfirst
  | cons b more ih =>
    rw [List.flatMap_cons, List.forall_append] at hmore
    exact ih (placed_append hfirst hmore.1) hmore.2

theorem places_chunkPart (h : inner.Placed root P) :
    Places root P (chunkPart inner) fun r => r.toList.flatMap (·.1.spans) := by
  have hend : Places root P atEnd fun _ => [] := places_of_ok fun _ _ => ⟨_, rfl⟩
  refine hend.bind fun b _ => ?_
  split
  · exact .pure trivial
  · exact (places_skipTokens hspans 1 _).bind fun _ _ => h.block.map fun _ hb => by simpa using hb

theorem places_chunk (h : inner.Placed root P) : Places root P (chunk inner) (·.spans) := by
  refine h.block.bind fun first hfirst => ?_
  split
  · exact .pure hfirst
  · exact (Places.collect (places_chunkPart hspans h)).map fun _ hmore =>
      placed_foldl_append hfirst hmore

/-! ### Nesting levels -/

theorem places_cutOffExpr : Places root P cutOffExpr spansOfExpr := by
  refine (places_skipLevel hspans true).bind fun r hr => ?_
  cases r with
  | some span => exact .pure (by simpa [Expr.nilAt] using hr)
  | none =>
    have hcommitted : Places root P committed fun _ => [] := places_of_ok fun _ _ => ⟨_, rfl⟩
    refine hcommitted.bind fun b _ => ?_
    split
    · refine (places_pos hspans).bind fun p hp => ?_
      have hread : Places root P (read : Rule Context) fun _ => [] :=
        places_of_ok fun _ _ => ⟨_, rfl⟩
      refine hread.bind fun c _ => (places_record hp).bind fun _ _ => .pure ?_
      simpa [Expr.nilAt] using hp
    · exact places_stuck _ _

theorem places_cutOffBlock : Places root P cutOffBlock (·.spans) :=
  (places_skipLevel hspans false).map fun _ _ => by simp [Block.empty]

theorem placed_nested (depth : Nat) : (nested depth).Placed root P := by
  induction depth with
  | zero => exact ⟨places_cutOffExpr hspans, places_cutOffBlock hspans⟩
  | succ depth ih => exact ⟨places_orExpr hspans ih, places_stmts hspans ih⟩

end LuaSyntax.Grammar
