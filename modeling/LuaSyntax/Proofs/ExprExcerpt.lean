import LuaSyntax.Proofs.ExprLanguage
import LuaSyntax.Proofs.Grammar.Readable
import LuaSyntax.Proofs.Lexer.Excerpt
import LuaSyntax.Proofs.NodeSpans
import LuaSyntax.Proofs.Tree.NodeTargets
/-!
# Excerpts that are expressions

In a source without diagnostics, the span of an expression is its own source: the text that it
covers is read without an error and parsed without a diagnostic, to the same expression. So it is
with the operands of operators, and with expressions at any depth in functions.
-/

namespace LuaSyntax

open Grammar LuaSyntax.Language Rule

/-! ### Expressions by themselves -/

/-- Tokens that are readable are parsed as an expression, without a diagnostic if there is nothing
to note on its targets. -/
theorem parseExpr_of_readable {tokens : List (Located Token)} {e : Expr} {room : Nat}
    (hroom : room < defaultMaxDepth)
    (he : Disjunction (readable room) ((withoutComments tokens).map (·.node)) e)
    (htargets : targetNotes e.targets = []) :
    (parseExpr tokens).2 = [] ∧ (parseExpr tokens).1.node.same e = true := by
  obtain ⟨more, hmore⟩ := Nat.exists_eq_add_of_le (Nat.succ_le_of_lt hroom)
  let stream : TokenStream := .ofTokens (withoutComments tokens)
  have hreads : Reads (nested defaultMaxDepth).expr (stream.tokens.toList.map (·.node))
      (· = none) fun a => a.node.same e = true := by
    rw [hmore]
    refine ((readable_disjunction he).2 more).mono_follow ?_
    rintro _ rfl
    exact nofun
  obtain ⟨a, ds, hrun, ha, hnotes⟩ := hreads.run rfl defaultMaxDepth ⟨.nil, default⟩
  obtain ⟨a', ds', hrun', hpost⟩ :=
    expr_of_notes stream defaultMaxDepth defaultMaxDepth ⟨.nil, default⟩
  cases hrun.symm.trans hrun'
  obtain ⟨-, hds⟩ := hpost hnotes
  have hparse : parseExpr tokens = (a, ds) := hrun
  rw [hparse]
  exact ⟨hds.trans (targetNotes_eq_nil_of_kinds (Expr.alike_of_same _ _ ha).targets htargets), ha⟩

/-! ### Descending into a tree -/

namespace Node

/-- The expression that a node is. -/
def expr? : Node → Option (Located Expr)
  | expr e => some e
  | _ => none

/-- The node that the indices lead to, each of them to a child of the node before. -/
def descendant? (n : Node) : List Nat → Option Node
  | [] => some n
  | i :: path => n.children[i]?.bind (·.descendant? path)

variable {roots : List Node} {m n : Node}

theorem eq_of_expr? {e : Located Expr} (h : n.expr? = some e) : n = expr e := by
  cases n <;> cases h
  rfl

theorem Under.of_children (hm : m ∈ roots) (h : n.Under m.children) : n.Under roots := by
  induction h with
  | root hn => exact .child (.root hm) hn
  | child _ hn ih => exact .child ih hn

theorem under_of_descendant? {path : List Nat} (hm : m ∈ roots)
    (h : m.descendant? path = some n) : n.Under roots := by
  induction path generalizing m roots with
  | nil =>
    cases h
    exact .root hm
  | cons i path ih =>
    obtain ⟨child, hchild, hrest⟩ := Option.bind_eq_some_iff.1 h
    exact .of_children hm (ih (List.mem_of_getElem? hchild) hrest)

end Node

/-! ### The expressions of a source -/

/-- In a source without diagnostics, the text that the span of an expression covers is read without
an error and parsed to the same expression without a diagnostic. -/
theorem parseText_expr_excerpt (source : String) (hclean : (parseText source).2 = [])
    (e : Located Expr) (he : (Node.expr e).Under (parseText source).1.block.nodes) :
    let excerpt := tokenize (e.span.excerpt source) .glua
    let again := parseExpr excerpt.1
    excerpt.2 = [] ∧ again.2 = [] ∧ again.1.node.same e.node = true := by
  obtain ⟨b, ds, hrun⟩ : ∃ b ds, (chunk (nested defaultMaxDepth)).run (streamOf source .glua)
    defaultMaxDepth .empty = (b, ds) := ⟨_, _, rfl⟩
  obtain ⟨herrors, rfl⟩ := parseWith_eq_nil hrun hclean
  have hroots : (parseText source).1.block = b := (parseWith_of_run hrun).1
  rw [hroots] at he
  have hstream : (streamOf source .glua).Apart := apart_tokenize source .glua
  have hlaid := laid_nested hstream (levelsHold_readable _ defaultMaxDepth) defaultMaxDepth
    (Nat.le_refl _)
  obtain ⟨i, j, hoccupies⟩ := (arranged_run hlaid hrun).occupies_of_under he
  obtain ⟨room, hroom, _, ⟨-, -, rfl⟩, hread⟩ := hoccupies.holds e rfl
  obtain ⟨first, last, hfirst, hlast, hspan⟩ :=
    hstream.exists_ends hoccupies.moves hoccupies.size
  have htokens := TokenStream.slice_around (Nat.le_of_lt hoccupies.moves) hoccupies.size
  obtain ⟨hlex, hwords⟩ := tokenize_excerpt herrors htokens hfirst hlast
  rw [← hspan, ← hoccupies.span] at hlex hwords
  have htargets : targetNotes e.node.targets = [] := by
    obtain ⟨b', ds', ts, hrun', -, hnotes, -⟩ := exists_run_printable herrors defaultMaxDepth
    cases hrun.symm.trans hrun'
    have hsubset := he.targets_subset
    rw [targetsOfNodes_block] at hsubset
    exact targetNotes_of_subset hsubset hnotes.symm
  rw [← hwords] at hread
  exact ⟨hlex, parseExpr_of_readable hroom hread htargets⟩

/-- An operand with a comment in it, in a function that is an operand itself. -/
theorem parseText_expr_excerpt_operand :
    let source := "return 1 == function(x) return -x ^ --[[é]] 2 .. [[\n]] end"
    (parseText source).2 = [] ∧ ∃ e, (Node.expr e).Under (parseText source).1.block.nodes ∧
      e.span.excerpt source = "-x ^ --[[é]] 2" ∧
      let excerpt := tokenize (e.span.excerpt source) .glua
      let again := parseExpr excerpt.1
      excerpt.2 = [] ∧ again.2 = [] ∧ again.1.node.same e.node = true := by
  intro source
  have hclean : (parseText source).2 = [] := List.length_eq_zero_iff.1 (by decide +kernel)
  have hfound : ((((parseText source).1.block.nodes[0]?).bind
      (·.descendant? [0, 2, 1, 0, 0])).bind (·.expr?)).map (·.span.excerpt source) =
        some "-x ^ --[[é]] 2" := by decide +kernel
  obtain ⟨e, he, htext⟩ := Option.map_eq_some_iff.1 hfound
  obtain ⟨n, hn, hexpr⟩ := Option.bind_eq_some_iff.1 he
  obtain ⟨root, hroot, hdescendant⟩ := Option.bind_eq_some_iff.1 hn
  obtain rfl := Node.eq_of_expr? hexpr
  have hunder : (Node.expr e).Under (parseText source).1.block.nodes :=
    Node.under_of_descendant? (List.mem_of_getElem? hroot) hdescendant
  exact ⟨hclean, e, hunder, htext, parseText_expr_excerpt source hclean e hunder⟩

end LuaSyntax
