import LuaSyntax.Proofs.Grammar.StmtScheme
import LuaSyntax.Proofs.NestingLimit
import LuaSyntax.Proofs.Rule.Confined
/-!
# The grammar among shared tokens

A clean expression or statement is the same one in two streams that share its tokens, if both of
them go on with something new after a statement. A block is the same if both go on with what ends
it.
-/

namespace LuaSyntax.Grammar

open Rule

variable {α : Type} {ends : Option Token → Prop} {start : Start} {closed : Bool}
  {rule : Level → Rule α} {inner : Level} {law : Law} {L : Language} {stop : Nat} {c c' : Context}
  {s s' t : State}

/-- What satisfies the predicate starts something new after a statement. The end of the input does.
-/
structure EndsStmts (ends : Option Token → Prop) : Prop where
  input : ends none
  stmtEnds : ∀ {next}, ends next → StmtEnds next

theorem endsStmts_stmtEnds : EndsStmts StmtEnds := ⟨nofun, id⟩

theorem endsStmts_blockEnds : EndsStmts BlockEnds := ⟨nofun, fun h => h.stmtEnds⟩

/-- Clean runs of the rules of the level are the same among shared tokens. -/
structure Level.Confined (ends : Option Token → Prop) (inner : Level) : Prop where
  expr : ConfinedOpening ends true inner.expr
  block : Rule.Confined ends false inner.block

theorem NamedNext.sharing {n : Located Name} (h : NamedNext c s n)
    (hsharing : c.Sharing ends stop s c' s') (hlt : s.cursor + 1 < stop) : NamedNext c' s' n := by
  obtain ⟨hname, span, hequal⟩ := h
  refine ⟨(hsharing.next? (Nat.lt_of_succ_lt hlt)).trans hname, span, ?_⟩
  rw [← hequal, Context.next?, State.advance, hsharing.cursor]
  exact hsharing.stream.get?_eq hlt

theorem confined_fieldName (hends : EndsStmts ends) (hopening : Opening fieldName) :
    ConfinedOpening ends closed fieldName where
  toOpening := hopening
  again {stop c s c' s' n t} hsharing hclean hend := by
    have hnext := namedNext_of_clean_fieldName hsharing.left hclean
    cases (fieldName_of_next hnext).symm.trans hclean.ok
    rw [fieldName_of_next (hnext.sharing hsharing (Nat.lt_of_succ_le hend.1)), State.advance,
      State.advance, hsharing.cursor]
    rfl
  stuck {stop c s c' s' why t} hsharing hlt hc hc' herr := by
    cases hread : fieldName c' s' with
    | error why' t' =>
      obtain rfl := hopening.restores hsharing.right hread
      exact ⟨why', rfl⟩
    | ok n t' =>
      have hnext := namedNext_of_not_committed hc' hread
      have hcursor := hsharing.cursor
      rcases Nat.lt_or_eq_of_le (Nat.succ_le_of_lt hlt) with hlt' | hstop
      · have hnext' := hnext.sharing hsharing.symm (by omega)
        cases (fieldName_of_next hnext').symm.trans herr
      · -- a statement is not followed by `=`
        obtain ⟨-, span, hequal⟩ := hnext
        have hstmt := hends.stmtEnds hsharing.stream.ends_right
        have hget : c'.stream.get? stop = some ⟨.symbol .equal, span⟩ := by
          rw [← hstop, ← hcursor]
          exact hequal
        rw [TokenStream.word_of_get? hget] at hstmt
        exact absurd rfl hstmt.ne_equal

/-- A head and then suffixes, for as long as there are any. -/
theorem confined_prefixExp (hends : EndsStmts ends) (hsound : inner.Sound law L)
    (hhead : ConfinedOpening ends true (head inner))
    (hsuffix : ConfinedOpening ends true (suffix inner)) :
    ConfinedOpening ends true (prefixExp inner .unrestricted) := by
  have hmany : Rule.Confined ends true (many (suffix inner)) :=
    hsuffix.many fun _ => ⟨rfl, fun ts hts => refuses_suffix inner ts (hends.stmtEnds hts)⟩
  have hpure (p : PrefixExp) : Rule.Confined ends true (pure p) := .pure p
  have hrest (a : Located Head) : Rule.Confined ends true
      (do return ⟨a, ← many (suffix inner)⟩ : Rule PrefixExp) :=
    hmany.bind (fun _ => hpure _) fun _ => ⟨rfl, rfl⟩
  have hplain : ConfinedOpening ends true
      (do let a ← head inner; return ⟨a, ← many (suffix inner)⟩ : Rule PrefixExp) :=
    hhead.bind (hhead.toConfined.bind hrest fun _ => ⟨rfl, rfl⟩) fun a => (hrest a).toOrderly
  have hopening := (opens_prefixExp hsound .unrestricted nofun).opening
  refine { hopening with again := ?_, stuck := ?_ }
  · intro stop c s c' s' a t hsharing hclean hend
    have hclean' := hclean.ok
    rw [prefixExp_unrestricted hsound hsharing.left] at hclean'
    rw [prefixExp_unrestricted hsound hsharing.right]
    exact hplain.again hsharing ⟨hclean', hclean.diags⟩ hend
  · intro stop c s c' s' why t hsharing hlt hc hc' herr
    rw [prefixExp_unrestricted hsound hsharing.left] at herr
    rw [prefixExp_unrestricted hsound hsharing.right]
    exact hplain.stuck hsharing hlt hc hc' herr

namespace Scheme

/-- Clean runs of a rule of the grammar are the same among shared tokens if those of the level are.
-/
theorem confined (h : Scheme start closed rule) (hends : EndsStmts ends)
    (hsound : inner.Sound law L) (hinner : inner.Confined ends) :
    Rule.Confined ends closed (rule inner) ∧
      (start ≠ .any → ConfinedOpening ends closed (rule inner)) := by
  induction h with
  | pure a => exact ⟨.pure a, absurd rfl⟩
  | satisfy m => exact ⟨(confined_satisfy m).toConfined, fun _ => confined_satisfy m⟩
  | fieldName =>
    have hopening : ConfinedOpening ends true Grammar.fieldName :=
      confined_fieldName hends (opens_fieldName hsound).opening
    exact ⟨hopening.toConfined, fun _ => hopening⟩
  | record d _ => exact ⟨confined_record d, absurd rfl⟩
  | look g hclosed =>
    refine ⟨confined_look g fun h next hnext => hclosed h next (hends.stmtEnds hnext), absurd rfl⟩
  | skip count expected hcount => exact ⟨confined_skipAhead expected hcount, absurd rfl⟩
  | expr => exact ⟨hinner.expr.toConfined, fun _ => hinner.expr⟩
  | block => exact ⟨hinner.block, absurd rfl⟩
  | @seq α β start start' closed closed' closed'' rule f h hf hclosed ih ihf =>
    have hrest : Rule.Confined ends closed'' (rule inner >>= f inner) := by
      cases closed'' with
      | false =>
        exact ih.1.bind (fun a => (ihf a).1) nofun
      | true =>
        obtain ⟨hlast, hfirst | hstart⟩ := hclosed rfl
        · exact ih.1.bind (fun a => (ihf a).1) fun _ => ⟨hlast, hfirst⟩
        · exact (ih.1.bind_opening hends.input fun a => (ihf a).2 hstart).mono fun _ => hlast
    exact ⟨hrest, fun hstart => (ih.2 hstart).bind hrest fun a => (hf a).orderly hsound⟩
  | manySeq _ _ ih ihf =>
    have hopening := (ih.2 nofun).many_bind hends.input fun as => (ihf as).2 nofun
    exact ⟨hopening.toConfined, fun _ => hopening⟩
  | located _ hstart ih =>
    have hopening := (ih.2 hstart).located hends.input
    exact ⟨hopening.toConfined, fun _ => hopening⟩
  | optional _ hstart hclosed ih =>
    refine ⟨(ih.2 hstart).optional fun h => ?_, absurd rfl⟩
    exact ⟨(hclosed h).1, fun ts hts => (hclosed h).2 inner ts (hends.stmtEnds hts)⟩
  | collect _ ih => exact ⟨ih.1.collect, absurd rfl⟩
  | alt rules hne _ hstart ih =>
    have hopening : ConfinedOpening ends true (Rule.alt (rules.map (· inner))) := by
      refine .alt hends.input (mt List.map_eq_nil_iff.1 hne) ?_
      rw [List.forall_mem_map]
      exact fun rule hrule => (ih rule hrule).2 hstart
    exact ⟨hopening.toConfined, fun _ => hopening⟩
  | prefixExp _ _ ihhead ihsuffix =>
    have hopening := confined_prefixExp hends hsound (ihhead.2 nofun) (ihsuffix.2 nofun)
    exact ⟨hopening.toConfined, fun _ => hopening⟩
  | weaken _ hstart _ hclosed ih =>
    exact ⟨ih.1.mono hclosed, fun h => (ih.2 (hstart h)).mono hclosed⟩

end Scheme

/-! ### At the limit -/

theorem confined_cutOffExpr : ConfinedOpening ends true cutOffExpr where
  toOpening := (opens_cutOffExpr bottom_lenient).opening
  again _ hclean _ := absurd hclean not_clean_cutOffExpr
  stuck {stop c s c' s' why t} hsharing hlt _ hc' herr := by
    have hskip : skipLevel true c' s' = .ok none s' := by
      refine skipLevel_of_end fun u hu => ?_
      rw [← c'.map_next?, hsharing.next? hlt, c.map_next?] at hu
      exact endsLevel_of_skipLevel (skipLevel_of_stuck herr) hu
    exact cutOffExpr_of_not_committed hskip hc'

/-- A block past the limit is empty where something ends it. -/
theorem confined_cutOffBlock (hclosed : closed = true → ∀ next, ends next → BlockEnds next) :
    Rule.Confined ends closed cutOffBlock where
  toOrderly := (always_cutOffBlock bottom_lenient).orderly
  again {stop c s c' s' b t} hsharing hclean hend := by
    obtain ⟨hskip, rfl, rfl⟩ := clean_cutOffBlock hclean
    have hskip' : skipLevel false c' s' = .ok none s' := by
      refine skipLevel_of_end fun u hu => ?_
      rcases Nat.lt_or_eq_of_le hsharing.le with hlt | hstop
      · rw [← c'.map_next?, hsharing.next? hlt, c.map_next?] at hu
        exact endsLevel_of_skipLevel hskip hu
      · have hblock := hclosed (hend.2.resolve_right (by omega)) _ (hsharing.both_end hstop).2
        simp [endsLevel, hblock u hu]
    have hempty : cutOffBlock c' s' = .ok .empty s' := bind_of_ok hskip'
    rw [hempty, ← hsharing.cursor, State.moveTo_self]

/-- At every level, clean runs are the same among shared tokens. -/
theorem confined_nested (hends : EndsStmts ends) (depth : Nat) : (nested depth).Confined ends := by
  induction depth with
  | zero => exact ⟨confined_cutOffExpr, confined_cutOffBlock nofun⟩
  | succ depth ih =>
    have hsound := sound_lenient depth
    exact ⟨(scheme_orExpr.confined hends hsound ih).2 nofun,
      (scheme_stmts.confined hends hsound ih).1⟩

/-! ### Blocks up to their end -/

theorem refuses_semicolon {ts : List Token} (hts : BlockEnds ts.head?) :
    Refuses (symbol .semicolon) ts := by
  refine needs_symbol .semicolon ts fun t ht => ?_
  rw [beq_eq_false_iff_ne]
  rintro rfl
  exact hts.ne_semicolon ht

theorem refuses_stmt {ts : List Token} (hts : BlockEnds ts.head?) : Refuses (stmt inner) ts := by
  refine needs_stmt inner ts fun t ht => ?_
  have hblock := hts t ht
  cases t with
  | keyword k => cases k <;> first | rfl | cases hblock
  | _ => cases hblock

theorem refuses_returnStmt {ts : List Token} (hts : BlockEnds ts.head?) :
    Refuses (returnStmt inner) ts := by
  have hneeds : Needs (· == .keyword .return_) (returnStmt inner) := (needs_keyword _).bind.located
  refine hneeds ts fun t ht => ?_
  rw [beq_eq_false_iff_ne]
  rintro rfl
  cases hts _ ht

theorem confined_semicolons : Rule.Confined BlockEnds true (many (symbol .semicolon)) :=
  (confined_token _).many fun _ => ⟨rfl, fun _ => refuses_semicolon⟩

theorem confined_returnStmt (hsound : inner.Sound law L) (hinner : inner.Confined BlockEnds)
    (hneeds : Needs (fun t => !endsLevel true t) inner.expr) :
    ConfinedOpening BlockEnds true (returnStmt inner) := by
  have hreturn : ConfinedOpening BlockEnds true (keyword .return_) := confined_token _
  have hexprs : Rule.Confined BlockEnds true (optional (exprList inner)) := by
    refine ((scheme_exprList.confined endsStmts_blockEnds hsound hinner).2 nofun).optional
      fun _ => ⟨rfl, fun ts hts => hneeds.bind ts fun t ht => ?_⟩
    simp [endsLevel, hts t ht]
  have hvalues (span : Span) : Rule.Confined BlockEnds true (do
      let exprs ← optional (exprList inner)
      let _ ← many (symbol .semicolon)
      return Return.mk (exprs.getD [])) :=
    hexprs.bind (fun _ => confined_semicolons.bind (fun _ => .pure _) fun _ => ⟨rfl, rfl⟩)
      fun _ => ⟨rfl, rfl⟩
  exact (hreturn.bind (hreturn.toConfined.bind hvalues fun _ => ⟨rfl, rfl⟩)
    fun span => (hvalues span).toOrderly).located endsStmts_blockEnds.input

/-- Where neither a statement nor a `return` begins, a clean run is at the end of the block. -/
theorem ends_of_clean_junk (hs : c.Proper s) {r : Option (BlockPart × Bool)}
    (hclean : Clean (do
      match ← peek with
      | none => return none
      | some t =>
        if t.endsBlock then return none
        skipJunk
        return some (BlockPart.junk, true)) c s r t) :
    r = none ∧ t = s ∧ BlockEnds (c.ahead s).head? := by
  obtain ⟨hok, hdiags⟩ := hclean
  have hpeek : peek c s = .ok ((c.next? s).map (·.node)) s := rfl
  rw [bind_of_ok hpeek] at hok
  rw [← c.map_next?]
  cases hnext : c.next? s with
  | none =>
    rw [hnext] at hok
    cases hok
    exact ⟨rfl, rfl, nofun⟩
  | some u =>
    rw [hnext] at hok
    dsimp only [Option.map_some] at hok ⊢
    split at hok
    · next hends =>
      cases hok
      exact ⟨rfl, rfl, blockEnds_some hends⟩
    · have hjunk : Clean (do skipJunk; return some (BlockPart.junk, true)) c s r t :=
        ⟨hok, hdiags⟩
      obtain ⟨_, v, hskip, -, -⟩ :=
        hjunk.of_bind (orderly_skipAhead junkLength [.named "statement"]) (fun _ => .pure _) hs
      have hlt := lt_of_next? hnext
      have hle := (size_le_of_skipAhead (fun _ _ => Nat.add_pos_left Nat.one_pos _) hskip).1
      exact absurd hlt (Nat.not_lt_of_le hle)

/-- Nothing is read where neither a statement nor a `return` begins. -/
theorem confined_junk : Rule.Confined BlockEnds true (do
    match ← peek with
    | none => return none
    | some t =>
      if t.endsBlock then return none
      skipJunk
      return some (BlockPart.junk, true)) where
  toOrderly := by
    refine (orderly_look (Option.map (·.node))).bind fun next => ?_
    cases next with
    | none => exact .pure _
    | some t =>
      dsimp only
      split
      · exact .pure _
      · exact (orderly_skipAhead junkLength [.named "statement"]).bind fun _ => .pure _
  again {stop c s c' s' r t} hsharing hclean _ := by
    obtain ⟨rfl, rfl, hends⟩ := ends_of_clean_junk hsharing.left hclean
    have hends' : BlockEnds ((c'.next? s').map (·.node)) := by
      rcases Nat.lt_or_eq_of_le hsharing.le with hlt | hstop
      · rwa [hsharing.next? hlt, c.map_next?]
      · rw [c'.map_next?]
        exact (hsharing.both_end hstop).2
    have hpeek : peek c' s' = .ok ((c'.next? s').map (·.node)) s' := rfl
    rw [bind_of_ok hpeek, ← hsharing.cursor, State.moveTo_self]
    cases hnext : (c'.next? s').map (·.node) with
    | none => rfl
    | some u =>
      dsimp only
      rw [if_pos (hends' u hnext)]
      rfl

theorem confined_partAfterSemicolons (hsound : inner.Sound law L)
    (hinner : inner.Confined BlockEnds)
    (hneeds : Needs (fun t => !endsLevel true t) inner.expr) :
    Rule.Confined BlockEnds true (partAfterSemicolons inner) := by
  have hstmt : Rule.Confined BlockEnds true (optional (stmt inner)) :=
    ((scheme_stmt.confined endsStmts_blockEnds hsound hinner).2 nofun).optional
      fun _ => ⟨rfl, fun _ => refuses_stmt⟩
  have hret : Rule.Confined BlockEnds true (optional (returnStmt inner)) :=
    (confined_returnStmt hsound hinner hneeds).optional
      fun _ => ⟨rfl, fun _ => refuses_returnStmt⟩
  refine hstmt.bind (fun r => ?_) fun _ => ⟨rfl, rfl⟩
  cases r with
  | some found => exact .pure _
  | none =>
    refine hret.bind (fun r => ?_) fun _ => ⟨rfl, rfl⟩
    cases r with
    | some found => exact .pure _
    | none => exact confined_junk

theorem confined_stmts (hsound : inner.Sound law L) (hinner : inner.Confined BlockEnds)
    (hneeds : Needs (fun t => !endsLevel true t) inner.expr) :
    Rule.Confined BlockEnds true (stmts inner) := by
  have hpart : Rule.Confined BlockEnds true (blockPart inner) :=
    confined_semicolons.bind (fun _ => confined_partAfterSemicolons hsound hinner hneeds)
      fun _ => ⟨rfl, rfl⟩
  exact hpart.collect.bind (fun _ => .pure _) fun _ => ⟨rfl, rfl⟩

/-- At every level, a clean block is the same wherever the same tokens end where a block ends. -/
theorem confined_block (depth : Nat) : Rule.Confined BlockEnds true (nested depth).block := by
  cases depth with
  | zero => exact confined_cutOffBlock fun _ _ => id
  | succ depth =>
    exact confined_stmts (sound_lenient depth) (confined_nested endsStmts_blockEnds depth)
      (complete_nested depth).needs

end LuaSyntax.Grammar
