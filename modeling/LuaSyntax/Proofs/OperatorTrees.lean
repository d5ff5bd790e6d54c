import LuaSyntax.Proofs.BlockEnd
import LuaSyntax.Proofs.Rule.Production
/-!
# Trees of operators

Chains of `..` and of `^` are read in a loop, and their trees are built from the last operand back.
That comes to the same as the two productions

```text
concat -> additive ( '..' concat )?
unary  -> unop unary | atom ( '^' unary )?
```

of which the rules are the only solutions: whatever the tokens, the state and the mode, a rule that
is as the production says gives the same value, the same repairs and the same failures.
-/

namespace LuaSyntax

namespace Grammar

open Rule Operator

variable {inner : Level}

/-! ### Trees -/

/-- The tree of operands with operators between them, each joined to the tree of all that follow it.
-/
inductive RightTree : Located Expr → List (Located BinOp × Located Expr) → Located Expr → Prop
  | operand (e : Located Expr) : RightTree e [] e
  | join {lhs next rhs : Located Expr} {op : Located BinOp}
    {others : List (Located BinOp × Located Expr)} (rest : RightTree next others rhs) :
    RightTree lhs ((op, next) :: others) ⟨.binary op lhs rhs, lhs.span.join rhs.span⟩

/-- The expression with unary operators around it, the last of them innermost. -/
inductive Around : List (Located UnOp) → Located Expr → Located Expr → Prop
  | bare (e : Located Expr) : Around [] e e
  | outer {op : Located UnOp} {ops : List (Located UnOp)} {e r : Located Expr}
    (inside : Around ops e r) : Around (op :: ops) e ⟨.unary op r, op.span.join r.span⟩

/-- The tree of signed operands with `^` between them: the unary operators of each are around its
operand raised to the tree of all that follow it. -/
inductive PowerTree : Signed → List (Located BinOp × Signed) → Located Expr → Prop
  | last {ops : List (Located UnOp)} {a e : Located Expr} (around : Around ops a e) :
    PowerTree ⟨ops, a⟩ [] e
  | raise {ops : List (Located UnOp)} {a e exponent : Located Expr} {op : Located BinOp}
    {next : Signed} {others : List (Located BinOp × Signed)}
    (rest : PowerTree next others exponent)
    (around : Around ops ⟨.binary op a exponent, a.span.join exponent.span⟩ e) :
    PowerTree ⟨ops, a⟩ ((op, next) :: others) e

theorem rightTree_iff {first tree : Located Expr} {others : List (Located BinOp × Located Expr)} :
    RightTree first others tree ↔ tree = groupRight first others := by
  constructor
  · intro h
    induction h with
    | operand e => rfl
    | join _ ih =>
      rw [ih]
      rfl
  · intro h
    rw [h]
    clear h
    induction others generalizing first with
    | nil => exact .operand first
    | cons other others ih => exact .join ih

theorem around_iff {ops : List (Located UnOp)} {e tree : Located Expr} :
    Around ops e tree ↔ tree = ops.foldr Expr.ofUnary e := by
  constructor
  · intro h
    induction h with
    | bare e => rfl
    | outer _ ih =>
      rw [ih]
      rfl
  · intro h
    rw [h]
    clear h
    induction ops with
    | nil => exact .bare e
    | cons op ops ih => exact .outer ih

theorem powerTree_iff {first : Signed} {others : List (Located BinOp × Signed)}
    {tree : Located Expr} : PowerTree first others tree ↔ tree = groupPower first others := by
  constructor
  · intro h
    induction h with
    | last around => exact around_iff.1 around
    | raise _ around ih =>
      rw [ih] at around
      exact around_iff.1 around
  · intro h
    rw [h]
    clear h
    induction others generalizing first with
    | nil => exact .last (around_iff.2 rfl)
    | cons other others ih => exact .raise ih (around_iff.2 rfl)

/-! ### Productions -/

def concatOp? : Token → Option BinOp
  | .symbol .dotDot => some .concat
  | _ => none

def powOp? : Token → Option BinOp
  | .symbol .caret => some .pow
  | _ => none

def unaryOp? : Token → Option UnOp
  | .symbol .minus => some .neg
  | .keyword .not_ => some .not
  | .symbol .bang => some .not
  | .symbol .hash => some .len
  | _ => none

/-- `concat -> additive ( '..' concat )?` -/
def concatProduction (additive concat : Rule (Located Expr)) : Rule (Located Expr) := do
  let lhs ← additive
  match ← operatorAhead concatOp? with
  | none => return lhs
  | some op =>
    let rhs ← concat
    return ⟨.binary op lhs rhs, lhs.span.join rhs.span⟩

/-- `unary -> unop unary | atom ( '^' unary )?` -/
def unaryProduction (atom unary : Rule (Located Expr)) : Rule (Located Expr) := do
  match ← operatorAhead unaryOp? with
  | some op =>
    let operand ← unary
    return ⟨.unary op operand, op.span.join operand.span⟩
  | none =>
    let base ← atom
    match ← operatorAhead powOp? with
    | none => return base
    | some op =>
      let exponent ← unary
      return ⟨.binary op base exponent, base.span.join exponent.span⟩

theorem optional_concatOps : optional (oneOf concatOps) = operatorAhead concatOp? := by
  rw [optional_oneOf]
  refine congrArg operatorAhead (funext fun t => ?_)
  cases t with
  | symbol s => cases s <;> rfl
  | _ => rfl

theorem optional_powOps : optional (oneOf powOps) = operatorAhead powOp? := by
  rw [optional_oneOf]
  refine congrArg operatorAhead (funext fun t => ?_)
  cases t with
  | symbol s => cases s <;> rfl
  | _ => rfl

theorem optional_unaryOps : optional (oneOf unaryOps) = operatorAhead unaryOp? := by
  rw [optional_oneOf]
  refine congrArg operatorAhead (funext fun t => ?_)
  cases t with
  | symbol s => cases s <;> rfl
  | keyword k => cases k <;> rfl
  | _ => rfl

theorem consuming_concatProduction {additive : Rule (Located Expr)} (h : Rule.Advances additive) :
    Consuming (concatProduction additive) := fun _ _ _ _ hr =>
  h.bind_congr fun _ _ hforward => operatorAhead_bind_congr hforward rfl fun _ u hu => by
    simp only [bind_apply, hr u hu]

theorem consuming_unaryProduction {atom : Rule (Located Expr)} (h : Rule.Advances atom) :
    Consuming (unaryProduction atom) := by
  intro r r' c s hr
  refine operatorAhead_bind_congr (.refl c s) ?_ fun op u hu => ?_
  · refine h.bind_congr fun base t hforward =>
      operatorAhead_bind_congr hforward rfl fun op u hu => ?_
    simp only [bind_apply, hr u hu]
  · simp only [bind_apply, hr u hu]

/-! ### The rules follow their productions -/

/-- The operands after the first one: there is no operator, or one with an operand, and then the
others. -/
theorem operands_eq {β : Type} {operand : Rule β} (ops : List (Token × BinOp))
    (h : Rule.Advances operand) :
    @Eq (Rule (List (Located BinOp × β))) (operands ops operand) (do
      match ← optional (oneOf ops) with
      | none => return []
      | some op =>
        let b ← operand
        return (op, b) :: (← operands ops operand)) := by
  refine (collect_eq fun {c s a t} hround => ?_).trans ?_
  · obtain ⟨r, u, hoptional, hrest⟩ := ok_of_bind hround
    cases r with
    | none => cases hrest
    | some op =>
      obtain ⟨b, v, hoperand, hrest⟩ := ok_of_bind hrest
      cases hrest
      have hop := (proceeds_oneOf ops).toAdvances.optional.forward hoptional
      have hlt := (proceeds_oneOf ops).lt_of_some hoptional
      have hrun := h.forward hoperand
      exact (hop.trans hrun).remaining_lt (Nat.lt_of_lt_of_le hlt hrun.cursor_le)
  · rw [bind_assoc]
    refine congrArg (optional (oneOf ops) >>= ·) (funext fun r => ?_)
    cases r with
    | none => rfl
    | some op => simp only [bind_assoc, pure_bind]

/-- What is made of the operands after the first one. -/
theorem operands_bind {β γ : Type} {operand : Rule β} (ops : List (Token × BinOp))
    (h : Rule.Advances operand) (f : List (Located BinOp × β) → γ) :
    (do let others ← operands ops operand; return f others) = (do
      match ← optional (oneOf ops) with
      | none => return f []
      | some op =>
        let next ← operand
        let others ← operands ops operand
        return f ((op, next) :: others)) := by
  conv_lhs => rw [operands_eq ops h, bind_assoc]
  refine congrArg (optional (oneOf ops) >>= ·) (funext fun r => ?_)
  cases r with
  | none => rfl
  | some op => simp only [bind_assoc, pure_bind]

theorem concatExpr_eq_operands (inner : Level) :
    concatExpr inner = (do
      let first ← addExpr inner
      let others ← operands concatOps (addExpr inner)
      return groupRight first others) := by
  rw [concatExpr_eq]
  show (do
    let ch ← (do
      let first ← addExpr inner
      let others ← operands concatOps (addExpr inner)
      return (first, others))
    return groupRight ch.1 ch.2) = _
  simp only [bind_assoc, pure_bind]

theorem concatExpr_eq_production (h : Rule.Advances (addExpr inner)) :
    concatExpr inner = concatProduction (addExpr inner) (concatExpr inner) := by
  rw [concatExpr_eq_operands]
  refine congrArg (addExpr inner >>= ·) (funext fun first => ?_)
  rw [operands_bind concatOps h, optional_concatOps]
  refine congrArg (operatorAhead concatOp? >>= ·) (funext fun r => ?_)
  cases r with
  | none => rfl
  | some op =>
    simp only [bind_assoc, pure_bind, groupRight]
    rfl

/-- What is made of an atom, or of a unary operator in front of a signed operand. -/
theorem signed_bind {β : Type} (inner : Level) (f : Signed → Rule β) :
    (do let t ← signed inner; f t) = (do
      match ← operatorAhead unaryOp? with
      | none => f ⟨[], ← atom inner⟩
      | some op =>
        let t ← signed inner
        f ⟨op :: t.ops, t.operand⟩) := by
  unfold signed
  rw [bind_assoc]
  conv_lhs => rw [(proceeds_oneOf unaryOps).many_eq, optional_unaryOps, bind_assoc]
  refine congrArg (operatorAhead unaryOp? >>= ·) (funext fun r => ?_)
  cases r <;> simp only [bind_assoc, pure_bind]

theorem groupPower_cons (op : Located UnOp) (t : Signed) (others : List (Located BinOp × Signed)) :
    groupPower ⟨op :: t.ops, t.operand⟩ others =
      ⟨.unary op (groupPower t others), op.span.join (groupPower t others).span⟩ := by
  cases others <;> rfl

theorem groupPower_bare (base : Located Expr) (op : Located BinOp) (next : Signed)
    (others : List (Located BinOp × Signed)) :
    groupPower ⟨[], base⟩ ((op, next) :: others) =
      ⟨.binary op base (groupPower next others), base.span.join (groupPower next others).span⟩ :=
  rfl

theorem unaryExpr_eq_production (h : Rule.Advances (signed inner)) :
    unaryExpr inner = unaryProduction (atom inner) (unaryExpr inner) := by
  have hgroup : unaryExpr inner = (do
      let first ← signed inner
      let others ← operands powOps (signed inner)
      return groupPower first others) := unaryExpr_eq inner
  conv_lhs => rw [hgroup, signed_bind]
  refine congrArg (operatorAhead unaryOp? >>= ·) (funext fun r => ?_)
  cases r with
  | none =>
    refine congrArg (atom inner >>= ·) (funext fun base => ?_)
    rw [operands_bind powOps h, optional_powOps]
    refine congrArg (operatorAhead powOp? >>= ·) (funext fun r => ?_)
    cases r with
    | none => rfl
    | some op => simp only [hgroup, bind_assoc, pure_bind, groupPower_bare]
  | some op => simp only [hgroup, bind_assoc, pure_bind, groupPower_cons]

/-- The trees that are built from the end are those of the two productions. For any operands and
operators between them a tree is built, so that what would stand for one that is not there is never
used, and it is the one in which each operand is joined to all that follows it. And in the grammar
with room for any depth, the rules for `..` and for unary operators and `^` are the ones that their
productions define, in which each operator has the span of its token. -/
theorem operator_trees (depth : Nat) :
    (∀ (first : Located Expr) (others : List (Located BinOp × Located Expr)), ∃ tree,
      buildRight? (first :: others.map (·.2)) (others.map (·.1)) = some tree ∧
        ∀ e, RightTree first others e ↔ e = tree) ∧
    (∀ (first : Signed) (others : List (Located BinOp × Signed)), ∃ tree,
      buildPower? (first :: others.map (·.2)) (others.map (·.1)) = some tree ∧
        ∀ e, PowerTree first others e ↔ e = tree) ∧
    Defines (concatProduction (addExpr (nested depth))) (concatExpr (nested depth)) ∧
    Defines (unaryProduction (atom (nested depth))) (unaryExpr (nested depth)) := by
  have hinner := advances_nested depth
  have hadd := scheme_addExpr.advances hinner
  have hsigned := scheme_signed.advances hinner
  have hatom := scheme_atom.advances hinner
  refine ⟨?_, ?_, (consuming_concatProduction hadd).defines (concatExpr_eq_production hadd),
    (consuming_unaryProduction hatom).defines (unaryExpr_eq_production hsigned)⟩
  · intro first others
    exact ⟨_, buildRight?_chain first others, fun _ => rightTree_iff⟩
  · intro first others
    exact ⟨_, buildPower?_chain first others, fun _ => powerTree_iff⟩

end Grammar

end LuaSyntax
