import LuaSyntax.Proofs.Grammar.ExprOrigin
import LuaSyntax.Proofs.Tree.Occupants
/-!
# Expressions on a level within the limit

One lemma for each rule: what is inside its value is bounded, if that is so one level down. The
rule itself stands before the last level, where any expression may stand.
-/

namespace LuaSyntax.Grammar

open Rule Operator

/-- Level `n` stands before the last one, and what the rules give on the next level is bounded. -/
structure Level.Bounded (root : Context) (last n : Nat) (inner : Level) : Prop where
  lt : n < last
  expr : Ensures root inner.expr fun e =>
    LuaSyntax.Bounded root.stream last ((n + 1, .expr e.node) :: e.node.contents (n + 1))
  block : Ensures root inner.block fun b =>
    LuaSyntax.Bounded root.stream last (b.occupants (n + 1))

variable {root : Context} {last n : Nat} {inner : Level}

/-! ### Functions -/

theorem bounded_exprList (h : inner.Bounded root last n) :
    Ensures root (exprList inner) fun es =>
      Bounded root.stream last (occupantsOfExprs es (n + 1)) :=
  h.expr.sepBy1.mono fun _ hes => bounded_exprs.2 hes

theorem bounded_funcBody (h : inner.Bounded root last n) :
    Ensures root (funcBody inner) fun f => Bounded root.stream last (f.contents n) :=
  .after fun _ => .after fun _ => .after fun _ => h.block.bind fun _ hbody => .after fun _ =>
    .pure hbody

theorem bounded_functionExpr (h : inner.Bounded root last n) :
    Ensures root (functionExpr inner) fun e => Bounded root.stream last (e.node.contents n) :=
  .located (P := fun e : Expr => Bounded root.stream last (e.contents n))
    (.after fun _ => (bounded_funcBody h).map fun _ hbody => hbody)

/-! ### Tables -/

theorem bounded_field (h : inner.Bounded root last n) :
    Ensures root (field inner) fun f => Bounded root.stream last (f.node.contents n) := by
  refine .located (P := fun f : Field => Bounded root.stream last (f.contents n)) (.alt ?_)
  simp only [List.forall_mem_cons]
  refine ⟨?_, .after fun _ => h.expr.map fun _ hvalue => hvalue,
    h.expr.map fun _ hvalue => hvalue, nofun⟩
  exact .after fun _ => h.expr.bind fun _ hkey => .after fun _ => .after fun _ =>
    h.expr.map fun _ hvalue => bounded_append.2 ⟨hkey, hvalue⟩

theorem bounded_tableRule (h : inner.Bounded root last n) :
    Ensures root (table inner) fun fs =>
      Bounded root.stream last (occupantsOfFields fs.node n) := by
  have hfields : Ensures root (fields inner) fun fs =>
      ∀ f ∈ fs, Bounded root.stream last (f.node.contents n) := by
    refine .collect ((bounded_field h).optional.bind fun r hr => ?_)
    cases r with
    | none => exact .pure nofun
    | some f =>
      refine .after fun _ => .pure ?_
      rintro a ⟨⟩
      exact hr f rfl
  exact .located
    (P := fun fs : List (Located Field) => Bounded root.stream last (occupantsOfFields fs n))
    (.after fun _ => hfields.bind fun _ hfs => .after fun _ => .pure (bounded_fields.2 hfs))

/-! ### Names, calls and indexes -/

theorem bounded_head (h : inner.Bounded root last n) :
    Ensures root (head inner) fun a => Bounded root.stream last (a.node.contents n) := by
  refine .alt ?_
  simp only [List.forall_mem_cons]
  exact ⟨.after fun _ => .pure bounded_nil,
    .located (P := fun a : Head => Bounded root.stream last (a.contents n))
      (.after fun _ => h.expr.bind fun _ he => .after fun _ => .pure he), nofun⟩

theorem bounded_args (h : inner.Bounded root last n) :
    Ensures root (args inner) fun a => Bounded root.stream last (a.node.contents n) := by
  refine .located (P := fun a : Args => Bounded root.stream last (a.contents n)) (.alt ?_)
  simp only [List.forall_mem_cons]
  refine ⟨.after fun _ => (bounded_exprList h).optional.bind fun r hr => .after fun _ => ?_,
    (bounded_tableRule h).map fun _ hfs => hfs, .after fun _ => .pure bounded_nil, nofun⟩
  cases r with
  | none => exact .pure bounded_nil
  | some es => exact .pure (hr es rfl)

theorem bounded_suffix (h : inner.Bounded root last n) :
    Ensures root (suffix inner) fun s => Bounded root.stream last (s.node.contents n) := by
  refine .located (P := fun s : Suffix => Bounded root.stream last (s.contents n)) (.alt ?_)
  simp only [List.forall_mem_cons]
  exact ⟨(bounded_args h).map fun _ hargs => hargs,
    .after fun _ => .after fun _ => (bounded_args h).map fun _ hargs => hargs,
    .after fun _ => h.expr.bind fun _ he => .after fun _ => .pure he,
    .after fun _ => .after fun _ => .pure bounded_nil, nofun⟩

theorem bounded_suffixChain (h : inner.Bounded root last n) :
    Ensures root (suffixChain inner) fun marks =>
      ∀ m ∈ marks, Bounded root.stream last (m.1.node.contents n) := by
  refine .collect ((bounded_suffix h).optional.bind fun r hr => ?_)
  cases r with
  | none => exact .pure nofun
  | some s =>
    refine .after fun _ => .pure ?_
    rintro a ⟨⟩
    exact hr s rfl

theorem bounded_access {head : Located Head} {marks : List (Located Suffix × State)}
    (hhead : Bounded root.stream last (head.node.contents n))
    (hmarks : ∀ m ∈ marks, Bounded root.stream last (m.1.node.contents n)) :
    Bounded root.stream last (PrefixExp.contents ⟨head, marks.map (·.1)⟩ n) :=
  bounded_append.2 ⟨hhead, bounded_suffixes.2 (List.forall_mem_map.2 hmarks)⟩

/-- Suffixes that are given back are not in the value. -/
theorem bounded_prefixExp (h : inner.Bounded root last n) :
    Ensures root (prefixExp inner .unrestricted) fun p =>
      Bounded root.stream last (p.contents n) := by
  refine .after fun _ => .after fun _ => (bounded_head h).bind fun a ha => .after fun _ =>
    (bounded_suffixChain h).bind fun marks hmarks => .after fun _ => ?_
  have hkept : keepThroughLast (fun s => SuffixPolicy.unrestricted.allowsLast s.1.node) marks
      <+: marks := keepThroughLast_isPrefix _ _
  rw [if_neg (by simp)]
  exact .pure (bounded_access ha fun m hm => hmarks m (hkept.subset hm))

/-! ### Operators -/

theorem bounded_atom (h : inner.Bounded root last n) :
    Ensures root (atom inner) fun e => Bounded root.stream last (e.node.contents n) := by
  refine .alt ?_
  simp only [List.forall_mem_cons]
  exact ⟨.after fun _ => .pure bounded_nil, .after fun _ => .pure bounded_nil,
    .after fun _ => .pure bounded_nil, .after fun _ => .pure bounded_nil,
    .after fun _ => .pure bounded_nil, .after fun _ => .pure bounded_nil,
    bounded_functionExpr h, (bounded_prefixExp h).map fun _ hp => hp,
    (bounded_tableRule h).map fun _ hfs => hfs, nofun⟩

theorem bounded_ofBinary (hn : n < last) {op : Located BinOp} {lhs rhs : Located Expr}
    (hlhs : Bounded root.stream last (lhs.node.contents n))
    (hrhs : Bounded root.stream last (rhs.node.contents n)) :
    Bounded root.stream last ((Expr.ofBinary op lhs rhs).node.contents n) :=
  bounded_append.2 ⟨bounded_cons_of_lt hn hlhs, bounded_cons_of_lt hn hrhs⟩

theorem bounded_groupLeft (hn : n < last) {first : Located Expr}
    {others : List (Located BinOp × Located Expr)}
    (hfirst : Bounded root.stream last (first.node.contents n))
    (hothers : ∀ other ∈ others, Bounded root.stream last (other.2.node.contents n)) :
    Bounded root.stream last ((groupLeft (first, others)).node.contents n) := by
  induction others generalizing first with
  | nil => exact hfirst
  | cons other others ih =>
    rw [List.forall_mem_cons] at hothers
    exact ih (bounded_ofBinary hn hfirst hothers.1) hothers.2

theorem bounded_groupRight (hn : n < last) {first : Located Expr}
    {others : List (Located BinOp × Located Expr)}
    (hfirst : Bounded root.stream last (first.node.contents n))
    (hothers : ∀ other ∈ others, Bounded root.stream last (other.2.node.contents n)) :
    Bounded root.stream last ((groupRight first others).node.contents n) := by
  induction others generalizing first with
  | nil => exact hfirst
  | cons other others ih =>
    rw [List.forall_mem_cons] at hothers
    exact bounded_ofBinary hn hfirst (ih hothers.1 hothers.2)

theorem bounded_apply (hn : n < last) (t : Signed) {e : Located Expr}
    (he : Bounded root.stream last (e.node.contents n)) :
    Bounded root.stream last ((t.apply e).node.contents n) := by
  obtain ⟨ops, operand⟩ := t
  unfold Signed.apply
  induction ops with
  | nil => exact he
  | cons op ops ih => exact bounded_cons_of_lt hn ih

theorem bounded_groupPower (hn : n < last) {first : Signed} {others : List (Located BinOp × Signed)}
    (hfirst : Bounded root.stream last (first.operand.node.contents n))
    (hothers : ∀ other ∈ others, Bounded root.stream last (other.2.operand.node.contents n)) :
    Bounded root.stream last ((groupPower first others).node.contents n) := by
  induction others generalizing first with
  | nil => exact bounded_apply hn first hfirst
  | cons other others ih =>
    rw [List.forall_mem_cons] at hothers
    exact bounded_apply hn first (bounded_ofBinary hn hfirst (ih hothers.1 hothers.2))

theorem bounded_signed (h : inner.Bounded root last n) :
    Ensures root (signed inner) fun t => Bounded root.stream last (t.operand.node.contents n) :=
  .after fun _ => (bounded_atom h).map fun _ he => he

/-- Operands after the first one, each with the operator before it. -/
theorem ensures_operands {β : Type} {operand : Rule β} {P : β → Prop} (ops : List (Token × BinOp))
    (h : Ensures root operand P) :
    Ensures root
      (collect do
        match ← optional (oneOf ops) with
        | none => return none
        | some op => return some ((op, ← operand), true))
      fun others => ∀ other ∈ others, P other.2 := by
  refine .collect (.after fun r => ?_)
  cases r with
  | none => exact .pure nofun
  | some op =>
    refine h.map fun b hb => ?_
    rintro a ⟨⟩
    exact hb

theorem ensures_chain {operand : Rule (Located Expr)} {P : Located Expr → Prop}
    (ops : List (Token × BinOp)) (h : Ensures root operand P) :
    Ensures root (chain operand ops) fun ch => P ch.1 ∧ ∀ other ∈ ch.2, P other.2 :=
  h.bind fun _ hfirst => (ensures_operands ops h).map fun _ hothers => ⟨hfirst, hothers⟩

theorem bounded_leftGrouped (hn : n < last) {operand : Rule (Located Expr)}
    (ops : List (Token × BinOp))
    (h : Ensures root operand fun e => Bounded root.stream last (e.node.contents n)) :
    Ensures root (leftGrouped operand ops) fun e =>
      Bounded root.stream last (e.node.contents n) :=
  (ensures_chain ops h).map fun _ hch => bounded_groupLeft hn hch.1 hch.2

theorem bounded_unaryExpr (h : inner.Bounded root last n) :
    Ensures root (unaryExpr inner) fun e => Bounded root.stream last (e.node.contents n) := by
  rw [unaryExpr_eq]
  exact (bounded_signed h).bind fun _ hfirst => (ensures_operands powOps (bounded_signed h)).map
    fun _ hothers => bounded_groupPower h.lt hfirst hothers

theorem bounded_concatExpr (h : inner.Bounded root last n) :
    Ensures root (concatExpr inner) fun e => Bounded root.stream last (e.node.contents n) := by
  rw [concatExpr_eq]
  have hmul := bounded_leftGrouped h.lt mulOps (bounded_unaryExpr h)
  have hadd := bounded_leftGrouped h.lt addOps hmul
  exact (ensures_chain concatOps hadd).bind fun _ hch => .pure (bounded_groupRight h.lt hch.1 hch.2)

theorem bounded_orExpr (h : inner.Bounded root last n) :
    Ensures root (orExpr inner) fun e => Bounded root.stream last (e.node.contents n) :=
  bounded_leftGrouped h.lt orOps <| bounded_leftGrouped h.lt andOps <|
    bounded_leftGrouped h.lt compareOps <| bounded_concatExpr h

end LuaSyntax.Grammar
