import LuaSyntax.Proofs.Tree.Nodes
import LuaSyntax.Proofs.Tree.Targets
import Mathlib.Data.List.Flatten
/-!
# Assignment targets in nodes

The targets in a node are those in its children, and for an assignment the targets that it is made
of besides. What fills a statement up has none.
-/

namespace LuaSyntax

/-- The targets of all assignments in a node. -/
def Node.targets : Node → List (Located PrefixExp)
  | stmt s => s.node.targets
  | ret r => r.node.targets
  | expr e => e.node.targets
  | target p => p.node.targets
  | head a => a.node.targets
  | suffix s => s.node.targets
  | field f => f.node.targets
  | binOp _ | unOp _ | name _ | vararg _ => []

/-- The targets in the nodes, one node after the other. -/
def targetsOfNodes (ns : List Node) : List (Located PrefixExp) := ns.flatMap Node.targets

attribute [simp] Node.targets

@[simp] theorem targetsOfNodes_nil : targetsOfNodes [] = [] := rfl

@[simp] theorem targetsOfNodes_cons (n : Node) (ns : List Node) :
    targetsOfNodes (n :: ns) = n.targets ++ targetsOfNodes ns := rfl

@[simp] theorem targetsOfNodes_append (ms ns : List Node) :
    targetsOfNodes (ms ++ ns) = targetsOfNodes ms ++ targetsOfNodes ns :=
  List.flatMap_append

/-- Nodes that are made of parts have the targets of these. -/
theorem targetsOfNodes_map {α : Type} {g : α → Node} {targetsOf : List α → List (Located PrefixExp)}
    (hnil : targetsOf [] = [])
    (hcons : ∀ a as, targetsOf (a :: as) = (g a).targets ++ targetsOf as) (as : List α) :
    targetsOfNodes (as.map g) = targetsOf as := by
  induction as with
  | nil => exact hnil.symm
  | cons a as ih => rw [List.map_cons, targetsOfNodes_cons, ih, hcons]

@[simp] theorem targetsOfNodes_name (ns : List (Located Name)) :
    targetsOfNodes (ns.map .name) = [] :=
  List.flatMap_eq_nil_iff.2 (by simp)

@[simp] theorem targetsOfNodes_expr (es : List (Located Expr)) :
    targetsOfNodes (es.map .expr) = targetsOfExprs es :=
  targetsOfNodes_map (by simp) (by simp) es

@[simp] theorem targetsOfNodes_field (fs : List (Located Field)) :
    targetsOfNodes (fs.map .field) = targetsOfFields fs :=
  targetsOfNodes_map (by simp) (by simp) fs

@[simp] theorem targetsOfNodes_suffix (ss : List (Located Suffix)) :
    targetsOfNodes (ss.map .suffix) = targetsOfSuffixes ss :=
  targetsOfNodes_map (by simp) (by simp) ss

@[simp] theorem targetsOfNodes_stmt (ss : List (Located Stmt)) :
    targetsOfNodes (ss.map .stmt) = targetsOfStmts ss :=
  targetsOfNodes_map (by simp) (by simp) ss

/-! ### Parts of a tree -/

@[simp] theorem targetsOfNodes_block (b : Block) : targetsOfNodes b.nodes = b.targets := by
  obtain ⟨ss, r⟩ := b
  cases r <;> simp [Block.nodes]

@[simp] theorem targetsOfNodes_funcBody (f : FuncBody) : targetsOfNodes f.nodes = f.targets := by
  obtain ⟨ns, vararg, body⟩ := f
  cases vararg <;> simp [FuncBody.nodes]

@[simp] theorem targetsOfNodes_clause (c : IfClause) : targetsOfNodes c.nodes = c.targets := by
  obtain ⟨cond, body⟩ := c
  simp [IfClause.nodes]

@[simp] theorem targetsOfNodes_clauses (cs : List IfClause) :
    targetsOfNodes (cs.flatMap (·.nodes)) = targetsOfClauses cs := by
  induction cs with
  | nil => simp
  | cons c cs ih => simp [ih]

@[simp] theorem targetsOfNodes_access (p : PrefixExp) : targetsOfNodes p.nodes = p.targets := by
  obtain ⟨head, suffixes⟩ := p
  simp [PrefixExp.nodes]

@[simp] theorem targetsOfNodes_args (a : Args) : targetsOfNodes a.nodes = a.targets := by
  cases a <;> simp [Args.nodes]

theorem targetsOfNodes_exprNodes (e : Expr) : targetsOfNodes e.nodes = e.targets := by
  cases e <;> simp [Expr.nodes]

theorem targetsOfNodes_written (p : Located Expr → Bool) (es : List (Located Expr)) :
    (targetsOfNodes ((es.filter p).map .expr)).Sublist (targetsOfExprs es) := by
  rw [← targetsOfNodes_expr]
  exact (List.filter_sublist.map _).flatMap _

theorem targetsOfNodes_target (ts : List (Located PrefixExp)) :
    (targetsOfNodes (ts.map .target)).Sublist (targetsOfTargets ts) := by
  induction ts with
  | nil => simp
  | cons t ts ih =>
    rw [List.map_cons, targetsOfNodes_cons, targetsOfTargets]
    exact .append (.refl _) (ih.cons t)

theorem targetsOfNodes_stmtNodes (s : Stmt) : (targetsOfNodes s.nodes).Sublist s.targets := by
  cases s with
  | numericFor var start stop step body =>
    have hstep := targetsOfNodes_written (isStepOf var) [step]
    have hbounds : targetsOfNodes [.name var, .expr start, .expr stop] =
        start.node.targets ++ stop.node.targets := by simp
    rw [targetsOfExprs, targetsOfExprs, List.append_nil] at hstep
    rw [Stmt.nodes, targetsOfNodes_append, targetsOfNodes_append, hbounds, targetsOfNodes_block,
      Stmt.targets]
    exact (hstep.append_left _).append (.refl _)
  | localDecl names exprs =>
    rw [Stmt.nodes, targetsOfNodes_append, targetsOfNodes_name]
    exact targetsOfNodes_written _ exprs
  | assign targets exprs =>
    rw [Stmt.nodes, targetsOfNodes_append]
    exact (targetsOfNodes_target targets).append (targetsOfNodes_written _ exprs)
  | function name body => simp [Stmt.nodes, FuncName.nodes]
  | conditional clauses otherwise => cases otherwise <;> simp [Stmt.nodes]
  | _ => simp [Stmt.nodes]

/-! ### Nodes under a node -/

theorem targetsOfNodes_children (n : Node) : (targetsOfNodes n.children).Sublist n.targets := by
  cases n with
  | stmt s => exact targetsOfNodes_stmtNodes s.node
  | expr e => simp [Node.children, targetsOfNodes_exprNodes]
  | head a => cases h : a.node <;> simp [Node.children, Head.nodes, h]
  | suffix s => cases h : s.node <;> simp [Node.children, Suffix.nodes, h]
  | field f => cases h : f.node <;> simp [Node.children, Field.nodes, h]
  | ret r =>
    obtain ⟨⟨es⟩, _⟩ := r
    simp [Node.children]
  | _ => simp [Node.children]

theorem targets_subset_of_mem {n : Node} {ns : List Node} (hn : n ∈ ns) :
    n.targets ⊆ targetsOfNodes ns :=
  fun _ ht => List.mem_flatMap_of_mem hn ht

/-- The targets in a node are among those in the nodes that it is under. -/
theorem Node.Under.targets_subset {roots : List Node} {n : Node} (h : n.Under roots) :
    n.targets ⊆ targetsOfNodes roots := by
  induction h with
  | root hn => exact targets_subset_of_mem hn
  | child _ hn ih =>
    have hparent := List.Subset.trans (targets_subset_of_mem hn) (targetsOfNodes_children _).subset
    exact List.Subset.trans hparent ih

end LuaSyntax
