import LuaSyntax.Proofs.Grammar.Language
import LuaSyntax.Rule.Skip
/-!
# Balanced tokens

What is derived as an expression or a block is balanced: a count of nesting levels that goes over it
is afterwards as deep as it was before, and meets no end of the level on the way. An expression may
stand on any level. The statements of a block have commas and semicolons in them, so a block may
only stand where separators do not end the level, or further inside.
-/

namespace LuaSyntax.Language

open Rule Operator

/-- The level that the tokens `ts` stand on goes on after them, at each depth and with each choice
of separators that satisfy `Levels`. -/
def Passes (Levels : Bool → Nat → Prop) (ts : List Token) : Prop :=
  ∀ separators depth, Levels separators depth → ∀ rest,
    levelLength separators depth (ts ++ rest) = ts.length + levelLength separators depth rest

def AnyLevel (_ : Bool) (_ : Nat) : Prop := True

/-- A level that separators do not end. -/
def BlockLevel (separators : Bool) (depth : Nat) : Prop := separators = true → 0 < depth

/-- A level inside the one that is to be ended. -/
def InnerLevel (_ : Bool) (depth : Nat) : Prop := 0 < depth

variable {Levels Levels' : Bool → Nat → Prop} {t u : Token} {ts us : List Token}

theorem Passes.mono (h : Passes Levels ts)
    (hLevels : ∀ separators depth, Levels' separators depth → Levels separators depth) :
    Passes Levels' ts :=
  fun separators depth hlevel => h separators depth (hLevels _ _ hlevel)

theorem Passes.inBlock (h : Passes AnyLevel ts) : Passes BlockLevel ts :=
  h.mono fun _ _ _ => trivial

theorem Passes.inside (h : Passes BlockLevel ts) : Passes InnerLevel ts :=
  h.mono fun _ _ h _ => h

theorem passes_nil : Passes Levels [] := by
  intro separators depth _ rest
  simp

theorem Passes.append (h : Passes Levels ts) (h' : Passes Levels us) :
    Passes Levels (ts ++ us) := by
  intro separators depth hlevel rest
  rw [List.append_assoc, h _ _ hlevel, h' _ _ hlevel, List.length_append, Nat.add_assoc]

theorem Passes.cons (h : Passes Levels [t]) (h' : Passes Levels ts) : Passes Levels (t :: ts) :=
  h.append h'

/-- A token that opens and closes nothing and does not end the level. -/
theorem passes_token (hopens : t.opensNesting = false) (hcloses : t.closesNesting = false)
    (hends : ∀ separators, Levels separators 0 → endsLevel separators t = false) :
    Passes Levels [t] := by
  intro separators depth hlevel rest
  have hgoes : (depth = 0 && endsLevel separators t) = false := by
    cases depth with
    | zero => simp [hends separators hlevel]
    | succ depth => rfl
  have hdepth : depthAfter depth t = depth := by simp [depthAfter, hopens, hcloses]
  rw [List.singleton_append, levelLength, hgoes, hdepth, List.length_singleton]
  exact Nat.add_comm _ 1

theorem passes_plain (hopens : t.opensNesting = false) (hends : endsLevel true t = false) :
    Passes AnyLevel [t] := by
  simp only [endsLevel, Bool.or_eq_false_iff] at hends
  obtain ⟨⟨hcloses, hblock⟩, hseparator⟩ := hends
  refine passes_token hopens hcloses fun separators _ => ?_
  cases separators with
  | false => simp [endsLevel, hcloses, hblock]
  | true => simp only [endsLevel, hcloses, hblock, hseparator, Bool.or_self]

theorem passes_separator (hopens : t.opensNesting = false) (hends : endsLevel false t = false) :
    Passes BlockLevel [t] := by
  simp only [endsLevel, Bool.or_eq_false_iff] at hends
  obtain ⟨⟨hcloses, hblock⟩, -⟩ := hends
  refine passes_token hopens hcloses fun separators hlevel => ?_
  cases separators with
  | false => simp [endsLevel, hcloses, hblock]
  | true => exact absurd (hlevel rfl) (Nat.lt_irrefl 0)

theorem passes_inner (hopens : t.opensNesting = false) (hcloses : t.closesNesting = false) :
    Passes InnerLevel [t] :=
  passes_token hopens hcloses fun _ hlevel => absurd hlevel (Nat.lt_irrefl 0)

/-- What nests stands one level deeper than the tokens around it. -/
theorem Passes.nest (h : Passes InnerLevel ts) (hopens : t.opensNesting = true)
    (hcloses : u.closesNesting = true) (hends : endsLevel true t = false)
    (hopens' : u.opensNesting = false) : Passes AnyLevel (t :: ts ++ [u]) := by
  intro separators depth _ rest
  have hplain : endsLevel separators t = false := by
    cases separators with
    | true => exact hends
    | false =>
      simp only [endsLevel, Bool.or_eq_false_iff] at hends
      simp [endsLevel, hends.1.1, hends.1.2]
  have hdown : depthAfter depth t = depth + 1 := by simp [depthAfter, hopens]
  have hup : depthAfter (depth + 1) u = depth := by simp [depthAfter, hopens', hcloses]
  have hu : levelLength separators (depth + 1) (u :: rest) =
      levelLength separators depth rest + 1 := by
    rw [levelLength, hup]
    rfl
  rw [List.append_assoc, List.cons_append, levelLength, hplain, hdown, Bool.and_false,
    h separators (depth + 1) (Nat.succ_pos _), List.singleton_append, hu]
  simp only [Bool.false_eq_true, if_false, List.length_append, List.length_cons,
    List.length_nil]
  omega

theorem passes_listed {α : Type} {item : List Token → α → Prop} {separator : Symbol}
    {as : List (Located α)} (hitem : ∀ {ts a}, item ts a → Passes Levels ts)
    (hseparator : Passes Levels [.symbol separator]) (h : Listed separator item ts as) :
    Passes Levels ts := by
  induction h with
  | one h => exact hitem h
  | more h _ ih => exact (hitem h).append (hseparator.cons ih)

theorem passes_name {n : Name} (h : IsName ts n) : Passes AnyLevel ts := by
  cases h
  exact passes_plain rfl rfl

theorem passes_names {ns : List (Located Name)} (h : Listed .comma IsName ts ns) :
    Passes BlockLevel ts :=
  passes_listed (fun h => (passes_name h).inBlock) (passes_separator rfl rfl) h

theorem passes_funcName {n : FuncName} (h : IsFuncName ts n) : Passes InnerLevel ts := by
  have hpath : ∀ {ts : List Token} {path : List (Located Name)}, Listed .dot IsName ts path →
      Passes InnerLevel ts :=
    passes_listed (fun h => (passes_name h).inBlock.inside) (passes_inner rfl rfl)
  cases h with
  | plain h => exact hpath h
  | method h name => exact (hpath h).append ((passes_inner rfl rfl).cons (passes_inner rfl rfl))

theorem passes_params {ns : List (Located Name)} {vararg : Option Span} (h : Params ts ns vararg) :
    Passes InnerLevel ts := by
  cases h with
  | none => exact passes_nil
  | names h => exact (passes_names h).inside
  | vararg span => exact passes_inner rfl rfl
  | namesVararg h span =>
    exact (passes_names h).inside.append ((passes_inner rfl rfl).cons (passes_inner rfl rfl))

/-- What the language has on the next level is balanced. -/
structure Balanced (L : Language) : Prop where
  expr : ∀ {ts e}, L.expr ts e → Passes AnyLevel ts
  block : ∀ {ts b}, L.block ts b → Passes BlockLevel ts

namespace Balanced

variable {L : Language}

theorem exprs (hL : L.Balanced) {es : List (Located Expr)} (h : Listed .comma L.expr ts es) :
    Passes BlockLevel ts :=
  passes_listed (fun h => (hL.expr h).inBlock) (passes_separator rfl rfl) h

/-! ### Expressions -/

/-- A function and its `end`, which closes what the word `function` opens. -/
theorem func (hL : L.Balanced) {f : FuncBody} (h : Func L ts f) (hfront : Passes InnerLevel us) :
    Passes AnyLevel (.keyword .function_ :: us ++ ts) := by
  cases h with
  | @intro ps bs names vararg body params h =>
    have hparams := ((passes_params params).nest (t := .symbol .openParen)
      (u := .symbol .closeParen) rfl rfl rfl rfl).inBlock.inside
    have hbody := hparams.append (hL.block h).inside
    have hnest := (hfront.append hbody).nest (t := .keyword .function_) (u := .keyword .end_)
      rfl rfl rfl rfl
    simpa using hnest

theorem field (hL : L.Balanced) {f : Field} (h : IsField L ts f) : Passes AnyLevel ts := by
  cases h with
  | keyed hkey hvalue =>
    have hbrackets := (hL.expr hkey).inBlock.inside.nest (t := .symbol .openBracket)
      (u := .symbol .closeBracket) rfl rfl rfl rfl
    have hfield := hbrackets.append ((passes_plain (t := .symbol .equal) rfl rfl).cons
      (hL.expr hvalue))
    simpa using hfield
  | named name hvalue =>
    exact (passes_plain rfl rfl).cons ((passes_plain rfl rfl).cons (hL.expr hvalue))
  | positional hvalue => exact hL.expr hvalue

theorem fields (hL : L.Balanced) {fs : List (Located Field)} (h : Fields L ts fs) :
    Passes BlockLevel ts := by
  induction h with
  | nil => exact passes_nil
  | last h => exact (hL.field h).inBlock
  | more h hseparator _ ih =>
    refine (hL.field h).inBlock.append (.cons ?_ ih)
    rcases hseparator with rfl | rfl <;> exact passes_separator rfl rfl

theorem table (hL : L.Balanced) {fs : List (Located Field)} (h : Table L ts fs) :
    Passes AnyLevel ts := by
  cases h with
  | intro h => exact (hL.fields h).inside.nest rfl rfl rfl rfl

theorem args (hL : L.Balanced) {a : Args} (h : IsArgs L ts a) : Passes AnyLevel ts := by
  cases h with
  | empty => exact passes_nil.nest rfl rfl rfl rfl
  | list h => exact (hL.exprs h).inside.nest rfl rfl rfl rfl
  | table h => exact hL.table h
  | str raw => exact passes_plain rfl rfl

theorem suffix (hL : L.Balanced) {s : Suffix} (h : IsSuffix L ts s) : Passes AnyLevel ts := by
  cases h with
  | call h => exact hL.args h
  | method name h => exact (passes_plain rfl rfl).cons ((passes_plain rfl rfl).cons (hL.args h))
  | index h => exact (hL.expr h).inBlock.inside.nest rfl rfl rfl rfl
  | field name => exact (passes_plain rfl rfl).cons (passes_plain rfl rfl)

theorem suffixes (hL : L.Balanced) {ss : List (Located Suffix)} (h : Suffixes L ts ss) :
    Passes AnyLevel ts := by
  induction h with
  | nil => exact passes_nil
  | cons h _ ih => exact (hL.suffix h).append ih

theorem head (hL : L.Balanced) {a : Head} (h : IsHead L ts a) : Passes AnyLevel ts := by
  cases h with
  | name n => exact passes_plain rfl rfl
  | paren h => exact (hL.expr h).inBlock.inside.nest rfl rfl rfl rfl

theorem access (hL : L.Balanced) {p : PrefixExp} (h : Access L ts p) : Passes AnyLevel ts := by
  cases h with
  | intro hhead hsuffixes => exact (hL.head hhead).append (hL.suffixes hsuffixes)

theorem atom (hL : L.Balanced) {e : Expr} (h : Atom L ts e) : Passes AnyLevel ts := by
  cases h with
  | nil | «false» | «true» | number _ | str _ | vararg => exact passes_plain rfl rfl
  | function h => exact hL.func h passes_nil
  | access h => exact hL.access h
  | table h => exact hL.table h

/-- The operators of a table open and close nothing, and do not end a level. -/
abbrev PlainOps {α : Type} (ops : List (Token × α)) : Prop :=
  ∀ p ∈ ops, p.1.opensNesting = false ∧ endsLevel true p.1 = false

theorem passes_operator {α : Type} {ops : List (Token × α)} {op : α} (h : PlainOps ops)
    (hop : (t, op) ∈ ops) : Passes AnyLevel [t] :=
  passes_plain (h _ hop).1 (h _ hop).2

theorem unary (hL : L.Balanced) {e : Expr} (h : Unary L ts e) : Passes AnyLevel ts := by
  have hunary : PlainOps unaryOps := by decide
  have hpow : PlainOps powOps := by decide
  induction h with
  | operator hop _ ih => exact (passes_operator hunary hop).cons ih
  | atom h => exact hL.atom h
  | power hbase hop _ ih => exact (hL.atom hbase).append ((passes_operator hpow hop).cons ih)

section

variable {operand : List Token → Expr → Prop} {ops : List (Token × BinOp)} {e : Expr}

theorem leftAssoc (hops : PlainOps ops) (hoperand : ∀ {ts e}, operand ts e → Passes AnyLevel ts)
    (h : LeftAssoc ops operand ts e) : Passes AnyLevel ts := by
  induction h with
  | operand h => exact hoperand h
  | binary _ hop hright ih => exact ih.append ((passes_operator hops hop).cons (hoperand hright))

theorem rightAssoc (hops : PlainOps ops) (hoperand : ∀ {ts e}, operand ts e → Passes AnyLevel ts)
    (h : RightAssoc ops operand ts e) : Passes AnyLevel ts := by
  induction h with
  | operand h => exact hoperand h
  | binary hleft hop _ ih => exact (hoperand hleft).append ((passes_operator hops hop).cons ih)

end

theorem disjunction (hL : L.Balanced) {e : Expr} (h : Disjunction L ts e) :
    Passes AnyLevel ts := by
  have hproduct : ∀ {ts e}, Product L ts e → Passes AnyLevel ts := leftAssoc (by decide) hL.unary
  have hsum : ∀ {ts e}, Sum L ts e → Passes AnyLevel ts := leftAssoc (by decide) hproduct
  have hconcat : ∀ {ts e}, Concat L ts e → Passes AnyLevel ts := rightAssoc (by decide) hsum
  have hcomparison : ∀ {ts e}, Comparison L ts e → Passes AnyLevel ts :=
    leftAssoc (by decide) hconcat
  have hconjunction : ∀ {ts e}, Conjunction L ts e → Passes AnyLevel ts :=
    leftAssoc (by decide) hcomparison
  exact leftAssoc (by decide) hconjunction h

/-! ### Statements -/

theorem clause (hL : L.Balanced) {c : IfClause} (h : Clause L ts c) : Passes InnerLevel ts := by
  cases h with
  | intro hcond hbody =>
    have hthen := (passes_inner (t := .keyword .then_) rfl rfl).cons (hL.block hbody).inside
    exact (hL.expr hcond).inBlock.inside.append hthen

/-- All of the clauses but their first word. -/
theorem clauses (hL : L.Balanced) {word : Keyword} {cs : List IfClause}
    (h : Clauses L word ts cs) : ∃ us, ts = .keyword word :: us ∧ Passes InnerLevel us := by
  induction h with
  | one h => exact ⟨_, rfl, hL.clause h⟩
  | more h _ ih =>
    obtain ⟨us, rfl, hrest⟩ := ih
    exact ⟨_, rfl, (hL.clause h).append ((passes_inner rfl rfl).cons hrest)⟩

theorem otherwise (hL : L.Balanced) {b : Option Block} (h : Else L ts b) :
    Passes InnerLevel ts := by
  cases h with
  | none => exact passes_nil
  | some h => exact (passes_inner rfl rfl).cons (hL.block h).inside

/-- A block between `do` and `end`. -/
theorem body (hL : L.Balanced) {b : Block} (h : L.block ts b) :
    Passes AnyLevel (.keyword .do_ :: ts ++ [.keyword .end_]) :=
  (hL.block h).inside.nest rfl rfl rfl rfl

theorem stmt (hL : L.Balanced) {s : Stmt} (h : IsStmt L ts s) : Passes BlockLevel ts := by
  have hplain : ∀ {t : Token}, t.opensNesting = false → endsLevel true t = false →
      Passes BlockLevel [t] := fun hopens hends => (passes_plain hopens hends).inBlock
  have hcomma : Passes BlockLevel [.symbol .comma] := passes_separator rfl rfl
  cases h with
  | label _ | breakLoop | continueLoop => exact hplain rfl rfl
  | goto name => exact (hplain rfl rfl).cons (hplain rfl rfl)
  | block h => exact (hL.body h).inBlock
  | whileLoop hcond h =>
    have hloop := ((hplain (t := .keyword .while_) rfl rfl).cons (hL.expr hcond).inBlock).append
      (hL.body h).inBlock
    simpa using hloop
  | repeatLoop h hcond =>
    have hbody := (hL.block h).inside.nest (t := .keyword .repeat_) (u := .keyword .until_)
      rfl rfl rfl rfl
    have hloop := hbody.inBlock.append (hL.expr hcond).inBlock
    simpa using hloop
  | numericFor var hstart hstop hstep h =>
    have hfor := (hplain (t := .keyword .for_) rfl rfl).cons ((hplain (t := .ident var.node) rfl
      rfl).cons ((hplain (t := .symbol .equal) rfl rfl).cons ((hL.expr hstart).inBlock.append
      (hcomma.cons ((hL.expr hstop).inBlock.append (hcomma.cons ((hL.expr hstep).inBlock.append
      (hL.body h).inBlock)))))))
    simpa using hfor
  | numericForByOne var span hstart hstop h =>
    have hfor := (hplain (t := .keyword .for_) rfl rfl).cons ((hplain (t := .ident var.node) rfl
      rfl).cons ((hplain (t := .symbol .equal) rfl rfl).cons ((hL.expr hstart).inBlock.append
      (hcomma.cons ((hL.expr hstop).inBlock.append (hL.body h).inBlock)))))
    simpa using hfor
  | genericFor hvars hexprs h =>
    have hfor := (hplain (t := .keyword .for_) rfl rfl).cons ((passes_names hvars).append
      ((hplain (t := .keyword .in_) rfl rfl).cons ((hL.exprs hexprs).append (hL.body h).inBlock)))
    simpa using hfor
  | conditional hclauses hotherwise =>
    obtain ⟨us, rfl, hbranches⟩ := hL.clauses hclauses
    have hif := (hbranches.append (hL.otherwise hotherwise)).nest (t := .keyword .if_)
      (u := .keyword .end_) rfl rfl rfl rfl
    simpa using hif.inBlock
  | function hname hbody => exact (hL.func hbody (passes_funcName hname)).inBlock
  | localFunction name hbody =>
    have hname : Passes InnerLevel [.ident name.node] := passes_inner rfl rfl
    have hfunction := hL.func hbody hname
    exact (hplain rfl rfl).cons hfunction.inBlock
  | localDecl hnames _ => exact (hplain rfl rfl).cons (passes_names hnames)
  | localValues hnames hvalues _ =>
    exact ((hplain rfl rfl).cons (passes_names hnames)).append
      ((hplain rfl rfl).cons (hL.exprs hvalues))
  | call h _ => exact (hL.access h).inBlock
  | assign htargets hvalues _ =>
    exact (passes_listed (fun h => (hL.access h).inBlock) hcomma htargets).append
      ((hplain rfl rfl).cons (hL.exprs hvalues))

theorem semicolons (count : Nat) :
    Passes BlockLevel (List.replicate count (.symbol .semicolon)) := by
  induction count with
  | zero => exact passes_nil
  | succ count ih => exact (passes_separator rfl rfl).cons ih

theorem isReturn (hL : L.Balanced) {r : Return} (h : IsReturn L ts r) : Passes BlockLevel ts := by
  cases h with
  | bare count => exact (passes_separator rfl rfl).cons (semicolons count)
  | values h count =>
    exact ((passes_separator rfl rfl).cons (hL.exprs h)).append (semicolons count)

theorem isBlock (hL : L.Balanced) {b : Block} (h : IsBlock L ts b) : Passes BlockLevel ts := by
  induction h with
  | empty => exact passes_nil
  | ret h => exact hL.isReturn h
  | semicolon _ ih => exact (passes_separator rfl rfl).cons ih
  | stmt h _ _ ih => exact (hL.stmt h).append ih

theorem next (hL : L.Balanced) : (next L).Balanced := ⟨hL.disjunction, hL.isBlock⟩

end Balanced

theorem balanced_within (depth : Nat) : (within depth).Balanced := by
  induction depth with
  | zero =>
    refine ⟨fun h => h.elim, ?_⟩
    rintro ts b ⟨rfl, -⟩
    exact passes_nil
  | succ depth ih => exact ih.next

end LuaSyntax.Language
