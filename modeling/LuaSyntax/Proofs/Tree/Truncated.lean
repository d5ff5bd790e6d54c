import LuaSyntax.Grammar.Operator
import LuaSyntax.Proofs.Tree.Truncate
/-!
# What a truncated tree is made of

Truncating a tree leaves all its spans, and how it is put together. What is replaced in a list is
what is replaced in its elements, and what is replaced in a chain of operators is what is replaced
in its operands.
-/

namespace LuaSyntax

open Operator

variable {room : Nat}

/-! ### Lists -/

theorem truncateExprs_eq_map (room : Nat) (es : List (Located Expr)) :
    truncateExprs room es = es.map fun e => fittedExpr room e.span (e.node.truncate ·) := by
  induction es with
  | nil => simp [truncateExprs]
  | cons e es ih => simp [truncateExprs, ih]

theorem replacedInExprs_eq_flatMap (room : Nat) (bracketed : Bool) (es : List (Located Expr)) :
    replacedInExprs room bracketed es =
      es.flatMap fun e => replacedExpr room bracketed e.span (e.node.replaced · e.span) := by
  induction es with
  | nil => simp [replacedInExprs]
  | cons e es ih => simp [replacedInExprs, ih]

theorem truncateStmts_eq_map (room : Nat) (ss : List (Located Stmt)) :
    truncateStmts room ss = ss.map fun s => ⟨s.node.truncate room, s.span⟩ := by
  induction ss with
  | nil => simp [truncateStmts]
  | cons s ss ih => simp [truncateStmts, ih]

theorem truncateReturn?_eq_map (room : Nat) (r : Option (Located Return)) :
    truncateReturn? room r = r.map fun r => ⟨r.node.truncate room, r.span⟩ := by
  cases r <;> simp [truncateReturn?]

theorem truncateTargets_eq_map (room : Nat) (ts : List (Located PrefixExp)) :
    truncateTargets room ts = ts.map fun t => ⟨t.node.truncate room, t.span⟩ := by
  induction ts with
  | nil => simp [truncateTargets]
  | cons t ts ih => simp [truncateTargets, ih]

theorem replacedInTargets_eq_flatMap (room : Nat) (ts : List (Located PrefixExp)) :
    replacedInTargets room ts = ts.flatMap (·.node.replaced room) := by
  induction ts with
  | nil => simp [replacedInTargets]
  | cons t ts ih => simp [replacedInTargets, ih]

theorem truncateSuffixes_eq_map (room : Nat) (ss : List (Located Suffix)) :
    truncateSuffixes room ss = ss.map fun s => ⟨s.node.truncate room, s.span⟩ := by
  induction ss with
  | nil => simp [truncateSuffixes]
  | cons s ss ih => simp [truncateSuffixes, ih]

theorem replacedInSuffixes_eq_flatMap (room : Nat) (ss : List (Located Suffix)) :
    replacedInSuffixes room ss = ss.flatMap (·.node.replaced room) := by
  induction ss with
  | nil => simp [replacedInSuffixes]
  | cons s ss ih => simp [replacedInSuffixes, ih]

theorem truncateFields_eq_map (room : Nat) (fs : List (Located Field)) :
    truncateFields room fs = fs.map fun f => ⟨f.node.truncate room, f.span⟩ := by
  induction fs with
  | nil => simp [truncateFields]
  | cons f fs ih => simp [truncateFields, ih]

theorem replacedInFields_eq_flatMap (room : Nat) (fs : List (Located Field)) :
    replacedInFields room fs = fs.flatMap (·.node.replaced room) := by
  induction fs with
  | nil => simp [replacedInFields]
  | cons f fs ih => simp [replacedInFields, ih]

theorem replacedInExprs_append (room : Nat) (bracketed : Bool) (es fs : List (Located Expr)) :
    replacedInExprs room bracketed (es ++ fs) =
      replacedInExprs room bracketed es ++ replacedInExprs room bracketed fs := by
  simp only [replacedInExprs_eq_flatMap, List.flatMap_append]

theorem truncateExprs_append (room : Nat) (es fs : List (Located Expr)) :
    truncateExprs room (es ++ fs) = truncateExprs room es ++ truncateExprs room fs := by
  simp only [truncateExprs_eq_map, List.map_append]

theorem afterClauses_append (owner : Span) (cs : List IfClause) (c : IfClause) :
    BlockStart.afterClauses owner (cs ++ [c]) = .next (.word owner [c.cond.span]) c.body := by
  simp [BlockStart.afterClauses]

theorem replaced_block (room : Nat) (opening : BlockStart) (ss : List (Located Stmt))
    (r : Option (Located Return)) : Block.replaced (room + 1) opening ⟨ss, r⟩ =
      replacedInStmts room ss ++ replacedInReturn? room r := by
  rw [Block.replaced]

/-! ### Values that are filled up -/

theorem fittedExpr_nil (room : Nat) (span : Span) :
    fittedExpr room span (Expr.nil.truncate ·) = Expr.nilAt span := by
  cases room with
  | zero => rfl
  | succ room => simp [fittedExpr, Expr.truncate, Expr.nilAt]

theorem truncateExprs_padWithNil (room count : Nat) (span : Span) (es : List (Located Expr)) :
    truncateExprs room (Expr.padWithNil count span es) =
      Expr.padWithNil count span (truncateExprs room es) := by
  rw [Expr.padWithNil, truncateExprs_append, Expr.padWithNil, truncateExprs_eq_map room es,
    List.length_map, truncateExprs_eq_map, List.map_replicate]
  congr 2
  exact fittedExpr_nil room span

/-- Where a `nil` that fills up is replaced, it is not bracketed. -/
theorem replacedInExprs_padWithNil {count : Nat} {span : Span} {es : List (Located Expr)}
    (hne : es ≠ [])
    (h : ∀ r ∈ replacedInExprs room false (Expr.padWithNil count span es), r.isBracketed = true) :
    replacedInExprs room false (Expr.padWithNil count span es) =
      replacedInExprs room false es := by
  cases room with
  | zero =>
    obtain ⟨e, es, rfl⟩ := List.exists_cons_of_ne_nil hne
    cases h (.expr e.span false) (by simp [Expr.padWithNil, replacedInExprs, replacedExpr])
  | succ room =>
    have hnils : replacedInExprs (room + 1) false
        (List.replicate (count - es.length) (Expr.nilAt span)) = [] := by
      rw [replacedInExprs_eq_flatMap, List.flatMap_eq_nil_iff]
      intro e he
      rw [List.eq_of_mem_replicate he]
      simp [replacedExpr, Expr.nilAt, Expr.replaced]
    rw [Expr.padWithNil, replacedInExprs_append, hnils, List.append_nil]

/-! ### Prefix expressions -/

@[simp] theorem isCall_truncate (s : Suffix) : (s.truncate room).isCall = s.isCall := by
  cases s <;> simp [Suffix.truncate, Suffix.isCall]

@[simp] theorem isParen_truncate (a : Head) : (a.truncate room).isParen = a.isParen := by
  cases a <;> simp [Head.truncate, Head.isParen]

@[simp] theorem endsInCall_truncate (p : PrefixExp) :
    (p.truncate room).endsInCall = p.endsInCall := by
  obtain ⟨head, suffixes⟩ := p
  simp only [PrefixExp.truncate, PrefixExp.endsInCall, truncateSuffixes_eq_map,
    List.getLast?_map]
  cases suffixes.getLast? <;> simp

@[simp] theorem isBareParen_truncate (p : PrefixExp) :
    (p.truncate room).isBareParen = p.isBareParen := by
  obtain ⟨head, suffixes⟩ := p
  simp [PrefixExp.truncate, PrefixExp.isBareParen, truncateSuffixes_eq_map]

@[simp] theorem span_truncate (p : PrefixExp) : (p.truncate room).span = p.span := by
  obtain ⟨head, suffixes⟩ := p
  simp only [PrefixExp.truncate, PrefixExp.span, truncateSuffixes_eq_map, List.getLast?_map]
  cases suffixes.getLast? <;> rfl

/-! ### Operators -/

/-- What is replaced inside an expression. -/
def replacedIn (room : Nat) (e : Located Expr) : List Replaced := e.node.replaced room e.span

/-- An expression that fits, truncated inside. -/
def truncateIn (room : Nat) (e : Located Expr) : Located Expr := ⟨e.node.truncate room, e.span⟩

theorem replacedIn_ofBinary (op : Located BinOp) (lhs rhs : Located Expr) :
    replacedIn room (Expr.ofBinary op lhs rhs) = replacedIn room lhs ++ replacedIn room rhs := by
  simp [replacedIn, Expr.ofBinary, Expr.replaced]

theorem truncateIn_ofBinary (op : Located BinOp) (lhs rhs : Located Expr) :
    truncateIn room (Expr.ofBinary op lhs rhs) =
      Expr.ofBinary op (truncateIn room lhs) (truncateIn room rhs) := by
  simp [truncateIn, Expr.ofBinary, Expr.truncate]

theorem replacedIn_groupLeft (first : Located Expr)
    (others : List (Located BinOp × Located Expr)) :
    replacedIn room (groupLeft (first, others)) =
      replacedIn room first ++ others.flatMap fun other => replacedIn room other.2 := by
  induction others generalizing first with
  | nil => simp [groupLeft]
  | cons other others ih =>
    have hrest := ih (Expr.ofBinary other.1 first other.2)
    simp only [replacedIn_ofBinary, List.append_assoc] at hrest
    exact hrest

theorem truncateIn_groupLeft (first : Located Expr)
    (others : List (Located BinOp × Located Expr)) :
    truncateIn room (groupLeft (first, others)) =
      groupLeft (truncateIn room first,
        others.map fun other => (other.1, truncateIn room other.2)) := by
  induction others generalizing first with
  | nil => rfl
  | cons other others ih =>
    have hrest := ih (Expr.ofBinary other.1 first other.2)
    rw [truncateIn_ofBinary] at hrest
    exact hrest

theorem replacedIn_groupRight (first : Located Expr)
    (others : List (Located BinOp × Located Expr)) :
    replacedIn room (groupRight first others) =
      replacedIn room first ++ others.flatMap fun other => replacedIn room other.2 := by
  induction others generalizing first with
  | nil => simp [groupRight]
  | cons other others ih => rw [groupRight, replacedIn_ofBinary, ih, List.flatMap_cons]

theorem truncateIn_groupRight (first : Located Expr)
    (others : List (Located BinOp × Located Expr)) :
    truncateIn room (groupRight first others) =
      groupRight (truncateIn room first)
        (others.map fun other => (other.1, truncateIn room other.2)) := by
  induction others generalizing first with
  | nil => rfl
  | cons other others ih => rw [groupRight, truncateIn_ofBinary, ih, List.map_cons, groupRight]

/-- A signed operand that fits, truncated inside. -/
def Operator.Signed.truncate (room : Nat) (t : Signed) : Signed :=
  ⟨t.ops, truncateIn room t.operand⟩

theorem replacedIn_apply (t : Signed) (e : Located Expr) :
    replacedIn room (t.apply e) = replacedIn room e := by
  obtain ⟨ops, operand⟩ := t
  unfold Signed.apply
  induction ops with
  | nil => rfl
  | cons op ops ih =>
    rw [List.foldr_cons, ← ih]
    simp [replacedIn, Expr.ofUnary, Expr.replaced]

theorem truncateIn_apply (t : Signed) (e : Located Expr) :
    truncateIn room (t.apply e) = (t.truncate room).apply (truncateIn room e) := by
  obtain ⟨ops, operand⟩ := t
  unfold Signed.apply Signed.truncate
  induction ops with
  | nil => rfl
  | cons op ops ih =>
    rw [List.foldr_cons, List.foldr_cons, ← ih]
    simp [truncateIn, Expr.ofUnary, Expr.truncate]

theorem replacedIn_groupPower (first : Signed) (others : List (Located BinOp × Signed)) :
    replacedIn room (groupPower first others) =
      replacedIn room first.operand ++
        others.flatMap fun other => replacedIn room other.2.operand := by
  induction others generalizing first with
  | nil => simp [groupPower, replacedIn_apply]
  | cons other others ih =>
    rw [groupPower, replacedIn_apply, replacedIn_ofBinary, ih, List.flatMap_cons]

theorem truncateIn_groupPower (first : Signed) (others : List (Located BinOp × Signed)) :
    truncateIn room (groupPower first others) =
      groupPower (first.truncate room)
        (others.map fun other => (other.1, other.2.truncate room)) := by
  induction others generalizing first with
  | nil => exact truncateIn_apply _ _
  | cons other others ih =>
    rw [groupPower, truncateIn_apply, truncateIn_ofBinary, ih, List.map_cons, groupPower]
    rfl

end LuaSyntax
