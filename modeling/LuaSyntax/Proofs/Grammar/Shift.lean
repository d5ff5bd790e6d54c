import LuaSyntax.Proofs.Grammar.Commit
import LuaSyntax.Proofs.Grammar.StmtScheme
import LuaSyntax.Proofs.Rule.Shift
/-!
# The grammar behind other tokens

What stands in front of its place in the stream matters to no rule of the grammar.
-/

namespace LuaSyntax.Grammar

open Rule

variable {α : Type} {start : Start} {closed : Bool} {rule : Level → Rule α} {inner : Level}
  {law : Law} {L : Language}

/-- Behind other tokens, the rules of the level do the same. -/
structure Level.Shifts (inner : Level) : Prop where
  expr : Rule.Shifts inner.expr
  block : Rule.Shifts inner.block

theorem shiftsAt_nameAndEqual (c : Context) (s : State) : ShiftsAt nameAndEqual c s :=
  (shiftsAt_satisfy .name c s).bind fun _ t _ =>
    ((shiftsAt_satisfy _ c t).bind fun _ _ _ => shiftsAt_pure _ _ _).bind fun _ _ _ =>
      shiftsAt_pure _ _ _

theorem shifts_fieldName : Shifts fieldName :=
  shifts_attempt shiftsAt_nameAndEqual

namespace Scheme

/-- A rule of the grammar does the same behind other tokens if the level does. -/
theorem shifts (h : Scheme start closed rule) (hsound : inner.Sound law L) (hinner : inner.Shifts) :
    Shifts (rule inner) := by
  induction h with
  | pure a => exact fun c s _ => shiftsAt_pure a c s
  | satisfy m => exact shifts_satisfy m
  | fieldName => exact shifts_fieldName
  | record d _ => exact shifts_record d
  | look g _ =>
    exact fun c s _ => shiftsAt_of_look fun front before =>
      congrArg g (Context.next?_behind front before c s)
  | skip count expected _ => exact shifts_skipAhead count expected
  | expr => exact hinner.expr
  | block => exact hinner.block
  | seq h _ _ ih ihf => exact ih.bind (h.orderly hsound) ihf
  | manySeq h _ ih ihf => exact (ih.many (h.orderly hsound)).bind (h.orderly hsound).many ihf
  | located _ _ ih => exact ih.located
  | optional _ _ _ ih => exact ih.optional
  | collect h ih => exact ih.collect (h.orderly hsound)
  | alt rules _ _ _ ih =>
    refine .alt ?_
    rw [List.forall_mem_map]
    exact ih
  | prefixExp hhead hsuffix ihhead ihsuffix =>
    intro c s hs front before
    dsimp only
    rw [prefixExp_unrestricted hsound hs, prefixExp_unrestricted hsound (hs.behind front before)]
    refine ihhead.bind (hhead.orderly hsound) (fun a => ?_) c s hs front before
    exact (ihsuffix.many (hsuffix.orderly hsound)).bind (hsuffix.orderly hsound).many
      fun suffixes c s _ => shiftsAt_pure _ c s
  | weaken _ _ _ _ ih => exact ih

end Scheme

theorem shifts_cutOffExpr : Shifts cutOffExpr := by
  intro c s hs
  refine (shifts_skipLevel true c s hs).bind fun r t _ => ?_
  cases r with
  | some span => exact shiftsAt_pure _ _ _
  | none =>
    refine (shiftsAt_of_look fun front before => Context.isCommitted_behind front before c t).bind
      fun committed u _ => ?_
    cases committed with
    | true =>
      refine (shiftsAt_of_look fun front before => Context.pos_behind front before c u).bind
        fun _ _ _ => ?_
      exact fun _ _ => rfl
    | false => exact fun _ _ => rfl

theorem shifts_cutOffBlock : Shifts cutOffBlock :=
  fun c s hs => (shifts_skipLevel false c s hs).bind fun _ _ _ => shiftsAt_pure _ _ _

/-- What stands in front does not change how anything nests. -/
theorem shifts_nested (depth : Nat) : (nested depth).Shifts := by
  induction depth with
  | zero => exact ⟨shifts_cutOffExpr, shifts_cutOffBlock⟩
  | succ depth ih =>
    have hsound := sound_lenient depth
    exact ⟨scheme_orExpr.shifts hsound ih, scheme_stmts.shifts hsound ih⟩

end LuaSyntax.Grammar
