import LuaSyntax.Proofs.Grammar.Commit
import LuaSyntax.Proofs.Grammar.StmtScheme
import LuaSyntax.Proofs.Rule.Hint
/-!
# Hints in the grammar

The rules of the grammar spend a hint on the first token that they put in, and read the same with
any hint. Prefix expressions that give suffixes back are left out: the suffixes may have taken the
hint, which is not given back.
-/

namespace LuaSyntax.Grammar

open Rule

variable {α : Type} {start : Start} {closed : Bool} {rule : Level → Rule α} {inner : Level}
  {law : Law} {L : Language}

/-- The rules for what nests one level deeper spend hints on what they put in, and do the same with
any hint. -/
structure Level.Hinted (inner : Level) : Prop where
  spendsExpr : Rule.Spends inner.expr
  spendsBlock : Rule.Spends inner.block
  heedlessExpr : Rule.Heedless inner.expr
  heedlessBlock : Rule.Heedless inner.block

theorem spends_nameAndEqual : Rule.Spends nameAndEqual :=
  (Spends.satisfy .name).bind fun _ =>
    ((Spends.satisfy _).bind fun _ => .pure _).bind fun _ => .pure _

/-- As lookahead, the name of a field puts in nothing. -/
theorem spends_fieldName (hinner : inner.Sound law L) : Rule.Spends fieldName where
  toOrderly := (opens_fieldName hinner).orderly
  spends {c s a t hint} hs hhint hok := by
    simp only [fieldName, attempt] at hok
    split at hok
    · exact spends_nameAndEqual.spends hs hhint hok
    · split at hok
      · next hboth =>
        cases hok
        have hstrict : Context.mode { c with mode := .strict } = .strict := rfl
        have hnext := nameAndEqual_of_next (nameAndEqual_of_strict hstrict hboth)
        cases hnext.symm.trans hboth
        exact .left (.of_eq rfl) hhint
      · cases hok

theorem heedless_fieldName : Heedless fieldName :=
  .attempt fun c _ _ hcursor =>
    (sameCourse_satisfy .name c hcursor).bind fun _ _ _ _ hcursor =>
      ((sameCourse_satisfy _ c hcursor).bind fun _ _ _ _ => sameCourse_pure _ c).bind
        fun _ _ _ _ => sameCourse_pure _ c

namespace Scheme

theorem spends (h : Scheme start closed rule) (hsound : inner.Sound law L)
    (hinner : inner.Hinted) : Rule.Spends (rule inner) := by
  induction h with
  | pure a => exact .pure a
  | satisfy m => exact .satisfy m
  | fieldName => exact spends_fieldName hsound
  | record d hd => exact .record (filled?_of_unrepaired hd)
  | look g _ => exact .look g
  | skip count expected _ => exact .skipAhead count expected
  | expr => exact hinner.spendsExpr
  | block => exact hinner.spendsBlock
  | seq _ _ _ ih ihf => exact ih.bind ihf
  | manySeq h _ ih ihf => exact (ih.many (h.begins hsound)).bind ihf
  | located _ _ ih => exact ih.located
  | optional h hstart _ ih => exact ih.optional (h.opening hstart hsound)
  | collect _ ih => exact ih.collect
  | alt rules hne h hstart ih =>
    refine .alt (mt List.map_eq_nil_iff.1 hne) ?_ ?_ <;> rw [List.forall_mem_map]
    · exact ih
    · exact fun rule hrule => (h rule hrule).opening hstart hsound
  | prefixExp hhead hsuffix ihhead ihsuffix =>
    refine Spends.congr ?_ fun c s hs => prefixExp_unrestricted hsound hs
    exact ihhead.bind fun a => (ihsuffix.many (hsuffix.begins hsound)).bind fun _ => .pure _
  | weaken _ _ _ _ ih => exact ih

theorem heedless (h : Scheme start closed rule) (hsound : inner.Sound law L)
    (hinner : inner.Hinted) : Heedless (rule inner) := by
  induction h with
  | pure a => exact .pure a
  | satisfy m => exact .satisfy m
  | fieldName => exact heedless_fieldName
  | record d _ => exact .record d
  | look g _ => exact .look g
  | skip count expected _ => exact .skipAhead count expected
  | expr => exact hinner.heedlessExpr
  | block => exact hinner.heedlessBlock
  | seq h _ _ ih ihf => exact ih.bind (h.orderly hsound) ihf
  | manySeq h _ ih ihf =>
    exact (ih.many (h.orderly hsound)).bind (h.orderly hsound).many ihf
  | located _ _ ih => exact ih.located
  | optional _ _ _ ih => exact ih.optional
  | collect h ih => exact ih.collect (h.orderly hsound)
  | alt rules _ _ _ ih =>
    refine .alt ?_
    rw [List.forall_mem_map]
    exact ih
  | prefixExp hhead hsuffix ihhead ihsuffix =>
    refine Heedless.congr ?_ fun c s hs => prefixExp_unrestricted hsound hs
    exact ihhead.bind (hhead.orderly hsound) fun a =>
      (ihsuffix.many (hsuffix.orderly hsound)).bind (hsuffix.orderly hsound).many fun _ => .pure _
  | weaken _ _ _ _ ih => exact ih

end Scheme

/-! ### Levels -/

theorem spends_cutOffExpr : Rule.Spends cutOffExpr where
  toOrderly := (opens_cutOffExpr bottom_lenient).orderly
  spends {c s e t hint} hs hhint hok := by
    rcases skipLevel_spec true c s with hskip | ⟨count, span, -, -, -, hskip⟩
    · cases hc : c.isCommitted s with
      | true =>
        cases (cutOffExpr_of_committed hskip hc).symm.trans hok
        exact .record rfl rfl hhint
      | false =>
        obtain ⟨why, herr⟩ := cutOffExpr_of_not_committed hskip hc
        cases herr.symm.trans hok
    · cases (cutOffExpr_of_some hskip).symm.trans hok
      exact .record rfl rfl hhint

theorem spends_cutOffBlock : Rule.Spends cutOffBlock where
  toOrderly := (always_cutOffBlock bottom_lenient).orderly
  spends {c s b t hint} hs hhint hok := by
    rcases skipLevel_spec false c s with hskip | ⟨count, span, -, -, -, hskip⟩
    · cases (bind_of_ok hskip).symm.trans hok
      exact .refl hhint
    · cases (bind_of_ok hskip).symm.trans hok
      exact .record rfl rfl hhint

theorem heedless_cutOffExpr : Heedless cutOffExpr := by
  intro c s s' hs hcursor
  refine (Heedless.skipLevel true hs hcursor).bind fun r t t' _ hcursor => ?_
  cases r with
  | some span => exact .ok _ hcursor
  | none =>
    simp only [bind_apply, committed, Context.isCommitted_congr hcursor]
    cases c.isCommitted t with
    | true =>
      rw [if_pos rfl]
      change SameCourse (.ok (Expr.nilAt (.point (c.pos t))) _)
        (.ok (Expr.nilAt (.point (c.pos t'))) _)
      rw [Context.pos_congr hcursor]
      exact .ok _ hcursor
    | false => exact .error _ t t'

theorem heedless_cutOffBlock : Heedless cutOffBlock := fun _ _ _ hs hcursor =>
  (Heedless.skipLevel false hs hcursor).bind fun _ _ _ _ hcursor => .ok _ hcursor

theorem hinted_nested (depth : Nat) : (nested depth).Hinted := by
  induction depth with
  | zero =>
    exact ⟨spends_cutOffExpr, spends_cutOffBlock, heedless_cutOffExpr, heedless_cutOffBlock⟩
  | succ depth ih =>
    have hsound := sound_lenient depth
    exact ⟨scheme_orExpr.spends hsound ih, scheme_stmts.spends hsound ih,
      scheme_orExpr.heedless hsound ih, scheme_stmts.heedless hsound ih⟩

end LuaSyntax.Grammar
