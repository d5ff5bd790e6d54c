import LuaSyntax.Proofs.RoundTrip
/-!
# The language of expressions

An expression without functions in it is parsed without a diagnostic exactly if it is derived in the
grammar, and then to the tree that it is derived with. Ambiguity comes from statements alone: where
there is no function there is no statement.
-/

namespace LuaSyntax

namespace Language

open Operator

/-- No token begins a function. -/
def FunctionFree (ts : List Token) : Prop := ∀ t ∈ ts, t ≠ .keyword .function_

@[simp] theorem functionFree_cons {t : Token} {ts : List Token} :
    FunctionFree (t :: ts) ↔ t ≠ .keyword .function_ ∧ FunctionFree ts :=
  List.forall_mem_cons

@[simp] theorem functionFree_append {ts us : List Token} :
    FunctionFree (ts ++ us) ↔ FunctionFree ts ∧ FunctionFree us :=
  List.forall_mem_append

/-- What is derived as `item` without a function is derived as `item'` too. It has no targets. -/
def Carries (item item' : List Token → Expr → Prop) : Prop :=
  ∀ ts e, FunctionFree ts → item ts e → item' ts e ∧ e.targets = []

variable {L M : Language} {ts : List Token}

theorem Carries.exprs (h : Carries L.expr M.expr) (hts : FunctionFree ts) {es : List (Located Expr)}
    (hes : Listed .comma L.expr ts es) :
    Listed .comma M.expr ts es ∧ targetsOfExprs es = [] := by
  induction hes with
  | one he =>
    obtain ⟨he', hnone⟩ := h _ _ hts he
    exact ⟨.one he', by simp [hnone]⟩
  | more he _ ih =>
    simp only [functionFree_append, functionFree_cons] at hts
    obtain ⟨he', hnone⟩ := h _ _ hts.1 he
    obtain ⟨hes', hnone'⟩ := ih hts.2.2
    exact ⟨.more he' hes', by simp [hnone, hnone']⟩

theorem Carries.field (h : Carries L.expr M.expr) (hts : FunctionFree ts) {f : Field}
    (hf : IsField L ts f) : IsField M ts f ∧ f.targets = [] := by
  cases hf with
  | keyed hkey hvalue =>
    simp only [List.cons_append, functionFree_append, functionFree_cons] at hts
    obtain ⟨hkey', hnone⟩ := h _ _ hts.2.1 hkey
    obtain ⟨hvalue', hnone'⟩ := h _ _ hts.2.2.2.2 hvalue
    exact ⟨.keyed hkey' hvalue', by simp [hnone, hnone']⟩
  | named name hvalue =>
    simp only [functionFree_cons] at hts
    obtain ⟨hvalue', hnone⟩ := h _ _ hts.2.2 hvalue
    exact ⟨.named name hvalue', hnone⟩
  | positional hvalue =>
    obtain ⟨hvalue', hnone⟩ := h _ _ hts hvalue
    exact ⟨.positional hvalue', hnone⟩

theorem Carries.fields (h : Carries L.expr M.expr) (hts : FunctionFree ts)
    {fs : List (Located Field)} (hfs : Fields L ts fs) :
    Fields M ts fs ∧ targetsOfFields fs = [] := by
  induction hfs with
  | nil => exact ⟨.nil, rfl⟩
  | last hf =>
    obtain ⟨hf', hnone⟩ := h.field hts hf
    exact ⟨.last hf', by simp [hnone]⟩
  | more hf hseparator _ ih =>
    simp only [functionFree_append, functionFree_cons] at hts
    obtain ⟨hf', hnone⟩ := h.field hts.1 hf
    obtain ⟨hfs', hnone'⟩ := ih hts.2.2
    exact ⟨.more hf' hseparator hfs', by simp [hnone, hnone']⟩

theorem Carries.table (h : Carries L.expr M.expr) (hts : FunctionFree ts)
    {fs : List (Located Field)} (hfs : Table L ts fs) :
    Table M ts fs ∧ targetsOfFields fs = [] := by
  cases hfs with
  | intro hfs =>
    simp only [List.cons_append, functionFree_append, functionFree_cons] at hts
    obtain ⟨hfs', hnone⟩ := h.fields hts.2.1 hfs
    exact ⟨.intro hfs', hnone⟩

theorem Carries.args (h : Carries L.expr M.expr) (hts : FunctionFree ts) {a : Args}
    (ha : IsArgs L ts a) : IsArgs M ts a ∧ a.targets = [] := by
  cases ha with
  | empty => exact ⟨.empty, rfl⟩
  | list hes =>
    simp only [List.cons_append, functionFree_append, functionFree_cons] at hts
    obtain ⟨hes', hnone⟩ := h.exprs hts.2.1 hes
    exact ⟨.list hes', hnone⟩
  | table hfs =>
    obtain ⟨hfs', hnone⟩ := h.table hts hfs
    exact ⟨.table hfs', hnone⟩
  | str raw => exact ⟨.str raw, rfl⟩

theorem Carries.suffix (h : Carries L.expr M.expr) (hts : FunctionFree ts) {s : Suffix}
    (hs : IsSuffix L ts s) : IsSuffix M ts s ∧ s.targets = [] := by
  cases hs with
  | call ha =>
    obtain ⟨ha', hnone⟩ := h.args hts ha
    exact ⟨.call ha', hnone⟩
  | method name ha =>
    simp only [functionFree_cons] at hts
    obtain ⟨ha', hnone⟩ := h.args hts.2.2 ha
    exact ⟨.method name ha', hnone⟩
  | index he =>
    simp only [List.cons_append, functionFree_append, functionFree_cons] at hts
    obtain ⟨he', hnone⟩ := h _ _ hts.2.1 he
    exact ⟨.index he', hnone⟩
  | field name => exact ⟨.field name, rfl⟩

theorem Carries.suffixes (h : Carries L.expr M.expr) (hts : FunctionFree ts)
    {ss : List (Located Suffix)} (hss : Suffixes L ts ss) :
    Suffixes M ts ss ∧ targetsOfSuffixes ss = [] := by
  induction hss with
  | nil => exact ⟨.nil, rfl⟩
  | cons hs _ ih =>
    rw [functionFree_append] at hts
    obtain ⟨hs', hnone⟩ := h.suffix hts.1 hs
    obtain ⟨hss', hnone'⟩ := ih hts.2
    exact ⟨.cons hs' hss', by simp [hnone, hnone']⟩

theorem Carries.head (h : Carries L.expr M.expr) (hts : FunctionFree ts) {a : Head}
    (ha : IsHead L ts a) : IsHead M ts a ∧ a.targets = [] := by
  cases ha with
  | name n => exact ⟨.name n, rfl⟩
  | paren he =>
    simp only [List.cons_append, functionFree_append, functionFree_cons] at hts
    obtain ⟨he', hnone⟩ := h _ _ hts.2.1 he
    exact ⟨.paren he', hnone⟩

theorem Carries.access (h : Carries L.expr M.expr) (hts : FunctionFree ts) {p : PrefixExp}
    (hp : Access L ts p) : Access M ts p ∧ p.targets = [] := by
  cases hp with
  | intro hhead hsuffixes =>
    rw [functionFree_append] at hts
    obtain ⟨hhead', hnone⟩ := h.head hts.1 hhead
    obtain ⟨hsuffixes', hnone'⟩ := h.suffixes hts.2 hsuffixes
    exact ⟨.intro hhead' hsuffixes', by simp [hnone, hnone']⟩

theorem Carries.atom (h : Carries L.expr M.expr) : Carries (Atom L) (Atom M) := by
  intro ts e hts he
  cases he with
  | nil => exact ⟨.nil, rfl⟩
  | false => exact ⟨.false, rfl⟩
  | true => exact ⟨.true, rfl⟩
  | number raw => exact ⟨.number raw, rfl⟩
  | str raw => exact ⟨.str raw, rfl⟩
  | vararg => exact ⟨.vararg, rfl⟩
  | function _ => exact absurd rfl (functionFree_cons.1 hts).1
  | access hp =>
    obtain ⟨hp', hnone⟩ := h.access hts hp
    exact ⟨.access hp', hnone⟩
  | table hfs =>
    obtain ⟨hfs', hnone⟩ := h.table hts hfs
    exact ⟨.table hfs', hnone⟩

theorem Carries.unary (h : Carries L.expr M.expr) : Carries (Unary L) (Unary M) := by
  intro ts e hts he
  induction he with
  | operator hop _ ih =>
    obtain ⟨he', hnone⟩ := ih (functionFree_cons.1 hts).2
    exact ⟨.operator hop he', hnone⟩
  | atom he =>
    obtain ⟨he', hnone⟩ := h.atom _ _ hts he
    exact ⟨.atom he', hnone⟩
  | power hbase hop _ ih =>
    simp only [functionFree_append, functionFree_cons] at hts
    obtain ⟨hbase', hnone⟩ := h.atom _ _ hts.1 hbase
    obtain ⟨hexponent', hnone'⟩ := ih hts.2.2
    exact ⟨.power hbase' hop hexponent', by simp [hnone, hnone']⟩

section

variable {ops : List (Token × BinOp)} {item item' : List Token → Expr → Prop}

theorem Carries.leftAssoc (h : Carries item item') :
    Carries (LeftAssoc ops item) (LeftAssoc ops item') := by
  intro ts e hts he
  induction he with
  | operand he =>
    obtain ⟨he', hnone⟩ := h _ _ hts he
    exact ⟨.operand he', hnone⟩
  | binary _ hop hright ih =>
    simp only [functionFree_append, functionFree_cons] at hts
    obtain ⟨hleft', hnone⟩ := ih hts.1
    obtain ⟨hright', hnone'⟩ := h _ _ hts.2.2 hright
    exact ⟨.binary hleft' hop hright', by simp [hnone, hnone']⟩

theorem Carries.rightAssoc (h : Carries item item') :
    Carries (RightAssoc ops item) (RightAssoc ops item') := by
  intro ts e hts he
  induction he with
  | operand he =>
    obtain ⟨he', hnone⟩ := h _ _ hts he
    exact ⟨.operand he', hnone⟩
  | binary hleft hop _ ih =>
    simp only [functionFree_append, functionFree_cons] at hts
    obtain ⟨hleft', hnone⟩ := h _ _ hts.1 hleft
    obtain ⟨hright', hnone'⟩ := ih hts.2.2
    exact ⟨.binary hleft' hop hright', by simp [hnone, hnone']⟩

end

theorem Carries.disjunction (h : Carries L.expr M.expr) :
    Carries (Disjunction L) (Disjunction M) := by
  have hproduct : Carries (Product L) (Product M) := h.unary.leftAssoc
  have hsum : Carries (Sum L) (Sum M) := hproduct.leftAssoc
  have hconcat : Carries (Concat L) (Concat M) := hsum.rightAssoc
  have hcomparison : Carries (Comparison L) (Comparison M) := hconcat.leftAssoc
  have hconjunction : Carries (Conjunction L) (Conjunction M) := hcomparison.leftAssoc
  exact hconjunction.leftAssoc

theorem carries_nest (h : Carries L.expr M.expr) (depth : Nat) :
    Carries (nest L depth).expr (nest M depth).expr := by
  induction depth with
  | zero => exact h
  | succ depth ih => exact ih.disjunction

/-- Where there is no function nothing can be taken for something else. -/
theorem carries_unambiguous (depth : Nat) :
    Carries (within depth).expr (unambiguous depth).expr := by
  have hbare : ∀ follows follows', Carries (bare follows).expr (bare follows').expr :=
    fun _ _ _ _ _ he => he.elim
  exact carries_nest (hbare _ _) depth

end Language

open Grammar LuaSyntax.Language

/-! ### Notes alone -/

namespace Law

variable {law : Law} {ds : List Diagnostic}

/-- What is left without a repair cuts nothing off. -/
theorem uncut_of_unrepaired (hlaw : ∀ d ∈ ds, law.Allows d)
    (hnotes : ∀ d ∈ ds, d.repair = .unrepaired) : ∀ d ∈ ds, ¬ d.CutsOff := by
  rintro d hd ⟨limit, hcause⟩
  rcases (hlaw d hd).unrepaired (hnotes d hd) with h | h <;> rw [hcause] at h <;> cases h

end Law

theorem Diagnostic.notes_eq_self {ds : List Diagnostic}
    (hnotes : ∀ d ∈ ds, d.repair = .unrepaired) : Diagnostic.notes ds = ds :=
  List.filter_eq_self.2 fun d hd => by simp [Diagnostic.isNote, hnotes d hd]

/-! ### Parsing an expression -/

section

variable {depth : Nat}

/-- A run that leaves nothing but notes gives a tree that is derived from the tokens. -/
theorem expr_of_notes (stream : TokenStream) (depth limit : Nat) (fallback : Located Expr) :
    ∃ e ds, (nested depth).expr.run stream limit fallback = (e, ds) ∧
      ((∀ d ∈ ds, d.repair = .unrepaired) →
        (within depth).expr (stream.tokens.toList.map (·.node)) e.node ∧
          ds = targetNotes e.node.targets) := by
  obtain ⟨e, s, ds, ts, -, hrun, hedit, hlaw, hpost⟩ :=
    (sound_nested bottom_uncut depth).expr.completes.run stream limit fallback
  refine ⟨e, ds, hrun, fun hnotes => ?_⟩
  obtain ⟨hderives, htargets⟩ := hpost (Law.uncut_of_unrepaired hlaw hnotes)
  have hts : ts = stream.tokens.toList.map (·.node) := hedit.eq_rest hnotes rfl
  rw [Diagnostic.notes_eq_self hnotes] at htargets
  exact ⟨hts ▸ hderives, htargets⟩

/-- An expression without functions is parsed to the tree that it is derived with. -/
theorem expr_of_derivation (stream : TokenStream) {e : Expr}
    (hfree : FunctionFree (stream.tokens.toList.map (·.node)))
    (he : (within depth).expr (stream.tokens.toList.map (·.node)) e) (limit : Nat)
    (fallback : Located Expr) :
    ∃ a, (nested depth).expr.run stream limit fallback = (a, []) ∧ a.node.same e = true := by
  have hreads : Rule.Reads (nested depth).expr (stream.tokens.toList.map (·.node)) (· = none)
      fun a => a.node.same e = true := by
    refine ((complete_nested depth).expr (carries_unambiguous depth _ _ hfree he).1).mono_follow ?_
    rintro _ rfl
    exact nofun
  obtain ⟨a, ds, hrun, ha, hnotes⟩ := hreads.run rfl limit fallback
  obtain ⟨a', ds', hrun', hpost⟩ := expr_of_notes stream depth limit fallback
  rw [hrun] at hrun'
  cases hrun'
  obtain ⟨hderives, hds⟩ := hpost hnotes
  rw [(carries_unambiguous depth _ _ hfree hderives).2] at hds
  subst hds
  exact ⟨a, hrun, ha⟩

end

/-- Tokens without a function among them are parsed as an expression without a diagnostic exactly if
they are derived in the grammar, with at most 32 expressions inside one another. Then the result is
the tree that they are derived with. -/
theorem parseExpr_clean_iff {tokens : List (Located Token)}
    (hfree : ∀ t ∈ tokens, t.node ≠ .keyword .function_) :
    let ts := (withoutComments tokens).map (·.node)
    let result := parseExpr tokens
    (result.2 = [] ↔ ∃ e, (within 32).expr ts e) ∧
      (result.2 = [] → (within 32).expr ts result.1.node) ∧
      ∀ e, (within 32).expr ts e → result.1.node.same e = true := by
  intro ts result
  have hfree : FunctionFree ts := by
    intro t ht
    obtain ⟨u, hu, rfl⟩ := List.mem_map.1 ht
    exact hfree u (List.mem_filter.1 hu).1
  have hparsed : ∀ e, (within 32).expr ts e → result.2 = [] ∧ result.1.node.same e = true := by
    intro e he
    obtain ⟨a, hrun, ha⟩ := expr_of_derivation (.ofTokens (withoutComments tokens)) hfree he
      defaultMaxDepth ⟨.nil, default⟩
    have hresult : result = (a, []) := hrun
    rw [hresult]
    exact ⟨rfl, ha⟩
  have hderived : result.2 = [] → (within 32).expr ts result.1.node := by
    intro hclean
    obtain ⟨e, ds, hrun, hpost⟩ := expr_of_notes (.ofTokens (withoutComments tokens))
      defaultMaxDepth defaultMaxDepth ⟨.nil, default⟩
    have hresult : result = (e, ds) := hrun
    rw [hresult] at hclean ⊢
    dsimp only at hclean
    subst hclean
    exact (hpost (List.forall_mem_nil _)).1
  exact ⟨⟨fun hclean => ⟨_, hderived hclean⟩, fun ⟨e, he⟩ => (hparsed e he).1⟩, hderived,
    fun e he => (hparsed e he).2⟩

/-- `-a^b` negates a power. -/
theorem parseExpr_clean_negatedPower :
    let tokens : List (Located Token) := [⟨.symbol .minus, default⟩, ⟨.ident "a", default⟩,
      ⟨.symbol .caret, default⟩, ⟨.ident "b", default⟩]
    let power := Expr.ofBinary ⟨.pow, default⟩
      (Expr.ofAccess ⟨⟨.name "a", default⟩, []⟩) (Expr.ofAccess ⟨⟨.name "b", default⟩, []⟩)
    (∀ t ∈ tokens, t.node ≠ .keyword .function_) ∧ (parseExpr tokens).2 = [] ∧
      (parseExpr tokens).1.node.same (Expr.ofUnary ⟨.neg, default⟩ power).node = true := by
  intro tokens power
  have hfree : ∀ t ∈ tokens, t.node ≠ .keyword .function_ := by simp [tokens]
  have hname : ∀ n, Atom (within 31) ([.ident n] ++ []) (.access ⟨⟨.name n, default⟩, []⟩) :=
    fun n => .access (.intro (.name n) .nil)
  have hpower : Unary (within 31) ([.ident "a"] ++ .symbol .caret :: [.ident "b"]) power.node :=
    .power (hname "a") (by decide) (.atom (hname "b"))
  have hts : (withoutComments tokens).map (·.node) =
      [.symbol .minus, .ident "a", .symbol .caret, .ident "b"] := rfl
  have hderives : (within 32).expr ((withoutComments tokens).map (·.node))
      (Expr.ofUnary ⟨.neg, default⟩ power).node := by
    rw [hts]
    exact .operand (.operand (.operand (.operand (.operand (.operand
      (.operator (by decide) hpower))))))
  obtain ⟨hclean, -, hsame⟩ := parseExpr_clean_iff hfree
  exact ⟨hfree, hclean.2 ⟨_, hderives⟩, hsame _ hderives⟩

end LuaSyntax
