import LuaSyntax.Proofs.Grammar.Heads
/-!
# What follows a slash

A `/` of the language divides, so that an expression stands after it. No expression starts with `/`
or `*`: two of the three never stand next to each other in the way a comment of GLua opens.
-/

namespace LuaSyntax

namespace Language

open Operator

/-- A token follows each slash, and it is none that a slash opens a comment with. -/
def SlashesDivide : List Token → Prop
  | [] => True
  | t :: ts =>
    (t = .symbol .slash → ∃ u ∈ ts.head?, u ≠ .symbol .slash ∧ u ≠ .symbol .star) ∧
      SlashesDivide ts

variable {L : Language} {t : Token} {ts us : List Token}

@[simp] theorem slashesDivide_nil : SlashesDivide [] := trivial

@[simp] theorem slashesDivide_cons (ht : t ≠ .symbol .slash) :
    SlashesDivide (t :: ts) ↔ SlashesDivide ts := by
  simp [SlashesDivide, ht]

@[simp] theorem slashesDivide_append (hts : SlashesDivide ts) :
    SlashesDivide (ts ++ us) ↔ SlashesDivide us := by
  induction ts with
  | nil => rfl
  | cons t ts ih =>
    have hhead : t = .symbol .slash →
        ∃ u ∈ (ts ++ us).head?, u ≠ .symbol .slash ∧ u ≠ .symbol .star := by
      intro ht
      obtain ⟨u, hu, hne⟩ := hts.1 ht
      exact ⟨u, by rw [List.head?_append, hu]; rfl, hne⟩
    rw [List.cons_append, SlashesDivide, and_iff_right hhead, ih hts.2]

theorem slashesDivide_of_begins (hbegins : Begins Token.startsExpr us) (hus : SlashesDivide us) :
    SlashesDivide (t :: us) := by
  refine ⟨fun _ => ?_, hus⟩
  obtain ⟨u, hu, hstarts⟩ := hbegins.head
  refine ⟨u, hu, ?_, ?_⟩
  · rintro rfl
    exact absurd hstarts (by decide)
  · rintro rfl
    exact absurd hstarts (by decide)

/-- Slashes divide in all that the language has. -/
structure Divides (L : Language) : Prop where
  expr : ∀ ts e, L.expr ts e → SlashesDivide ts
  block : ∀ ts b, L.block ts b → SlashesDivide ts

/-! ### Expressions -/

section

variable {α : Type} {item : List Token → α → Prop}

theorem slashesDivide_listed {separator : Symbol} (hseparator : separator ≠ .slash)
    (hitem : ∀ ts a, item ts a → SlashesDivide ts) {as : List (Located α)}
    (h : Listed separator item ts as) : SlashesDivide ts := by
  induction h with
  | one h => exact hitem _ _ h
  | more h _ ih => simp [hitem _ _ h, hseparator, ih]

theorem slashesDivide_name {name : Name} (h : IsName ts name) : SlashesDivide ts := by
  cases h
  simp

theorem slashesDivide_params {names : List (Located Name)} {vararg : Option Span}
    (h : Params ts names vararg) : SlashesDivide ts := by
  have hnames {ts : List Token} {names : List (Located Name)} (h : Listed .comma IsName ts names) :
      SlashesDivide ts :=
    slashesDivide_listed (by decide) (fun _ _ => slashesDivide_name) h
  cases h with
  | none => simp
  | names h => exact hnames h
  | vararg => simp
  | namesVararg h => simp [hnames h]

theorem slashesDivide_funcName {name : FuncName} (h : IsFuncName ts name) : SlashesDivide ts := by
  cases h with
  | plain h => exact slashesDivide_listed (by decide) (fun _ _ => slashesDivide_name) h
  | method h name =>
    have hpath := slashesDivide_listed (by decide) (fun _ _ => slashesDivide_name) h
    simp [hpath]

end

theorem slashesDivide_semicolons (count : Nat) :
    SlashesDivide (List.replicate count (.symbol .semicolon)) := by
  induction count with
  | zero => trivial
  | succ count ih => simp [List.replicate_succ, ih]

namespace Divides

theorem exprs (h : L.Divides) {es : List (Located Expr)} (hes : Listed .comma L.expr ts es) :
    SlashesDivide ts :=
  slashesDivide_listed (by decide) h.expr hes

theorem func (h : L.Divides) {f : FuncBody} (hf : Func L ts f) : SlashesDivide ts := by
  cases hf with
  | intro params hbody => simp [slashesDivide_params params, h.block _ _ hbody]

theorem field (h : L.Divides) {f : Field} (hf : IsField L ts f) : SlashesDivide ts := by
  cases hf with
  | keyed hkey hvalue => simp [h.expr _ _ hkey, h.expr _ _ hvalue]
  | named name hvalue => simp [h.expr _ _ hvalue]
  | positional hvalue => exact h.expr _ _ hvalue

theorem fields (h : L.Divides) {fs : List (Located Field)} (hfs : Fields L ts fs) :
    SlashesDivide ts := by
  induction hfs with
  | nil => trivial
  | last hf => exact h.field hf
  | more hf hseparator _ ih =>
    rcases hseparator with rfl | rfl <;> simp [h.field hf, ih]

theorem table (h : L.Divides) {fs : List (Located Field)} (hfs : Table L ts fs) :
    SlashesDivide ts := by
  cases hfs with
  | intro hfs => simp [h.fields hfs]

theorem args (h : L.Divides) {a : Args} (ha : IsArgs L ts a) : SlashesDivide ts := by
  cases ha with
  | empty => simp
  | list hes => simp [h.exprs hes]
  | table hfs => exact h.table hfs
  | str raw => simp

theorem suffix (h : L.Divides) {s : Suffix} (hs : IsSuffix L ts s) : SlashesDivide ts := by
  cases hs with
  | call ha => exact h.args ha
  | method name ha => simp [h.args ha]
  | index he => simp [h.expr _ _ he]
  | field name => simp

theorem suffixes (h : L.Divides) {ss : List (Located Suffix)} (hss : Suffixes L ts ss) :
    SlashesDivide ts := by
  induction hss with
  | nil => trivial
  | cons hs _ ih => simp [h.suffix hs, ih]

theorem head (h : L.Divides) {a : Head} (ha : IsHead L ts a) : SlashesDivide ts := by
  cases ha with
  | name n => simp
  | paren he => simp [h.expr _ _ he]

theorem access (h : L.Divides) {p : PrefixExp} (hp : Access L ts p) : SlashesDivide ts := by
  cases hp with
  | intro hhead hsuffixes => simp [h.head hhead, h.suffixes hsuffixes]

theorem atom (h : L.Divides) {e : Expr} (he : Atom L ts e) : SlashesDivide ts := by
  cases he with
  | function hf => simp [h.func hf]
  | access hp => exact h.access hp
  | table hfs => exact h.table hfs
  | _ => simp

theorem unary (h : L.Divides) {e : Expr} (he : Unary L ts e) : SlashesDivide ts := by
  induction he with
  | operator hop _ ih =>
    have hne := (by decide : ∀ o ∈ unaryOps, o.1 ≠ .symbol .slash) _ hop
    simp [hne, ih]
  | atom he => exact h.atom he
  | power hbase hop _ ih =>
    have hne := (by decide : ∀ o ∈ powOps, o.1 ≠ .symbol .slash) _ hop
    simp [h.atom hbase, hne, ih]

section

variable {ops : List (Token × BinOp)} {operand : List Token → Expr → Prop}

/-- An operator may be a slash if what its operands start with starts an expression. -/
theorem leftAssoc (hops : (∀ o ∈ ops, o.1 ≠ .symbol .slash) ∨
      ∀ ts e, operand ts e → Begins Token.startsExpr ts)
    (hoperand : ∀ ts e, operand ts e → SlashesDivide ts) {e : Expr}
    (h : LeftAssoc ops operand ts e) : SlashesDivide ts := by
  induction h with
  | operand h => exact hoperand _ _ h
  | @binary ts us t op lhs rhs _ hop right ih =>
    rw [slashesDivide_append ih]
    rcases hops with hops | hbegins
    · rw [slashesDivide_cons (hops _ hop)]
      exact hoperand _ _ right
    · exact slashesDivide_of_begins (hbegins _ _ right) (hoperand _ _ right)

theorem rightAssoc (hops : ∀ o ∈ ops, o.1 ≠ .symbol .slash)
    (hoperand : ∀ ts e, operand ts e → SlashesDivide ts) {e : Expr}
    (h : RightAssoc ops operand ts e) : SlashesDivide ts := by
  induction h with
  | operand h => exact hoperand _ _ h
  | binary left hop _ ih =>
    rw [slashesDivide_append (hoperand _ _ left), slashesDivide_cons (hops _ hop)]
    exact ih

end

theorem disjunction (h : L.Divides) {e : Expr} (he : Disjunction L ts e) : SlashesDivide ts := by
  have hproduct : ∀ ts e, Product L ts e → SlashesDivide ts := fun _ _ =>
    leftAssoc (.inr fun _ _ he => he.begins) fun _ _ => h.unary
  have hsum : ∀ ts e, Sum L ts e → SlashesDivide ts := fun _ _ =>
    leftAssoc (.inl (by decide)) hproduct
  have hconcat : ∀ ts e, Concat L ts e → SlashesDivide ts := fun _ _ =>
    rightAssoc (by decide) hsum
  have hcomparison : ∀ ts e, Comparison L ts e → SlashesDivide ts := fun _ _ =>
    leftAssoc (.inl (by decide)) hconcat
  have hconjunction : ∀ ts e, Conjunction L ts e → SlashesDivide ts := fun _ _ =>
    leftAssoc (.inl (by decide)) hcomparison
  exact leftAssoc (.inl (by decide)) hconjunction he

/-! ### Statements -/

theorem clause (h : L.Divides) {c : IfClause} (hc : Clause L ts c) : SlashesDivide ts := by
  cases hc with
  | intro hcond hbody => simp [h.expr _ _ hcond, h.block _ _ hbody]

theorem clauses (h : L.Divides) {word : Keyword} {cs : List IfClause} (hcs : Clauses L word ts cs) :
    SlashesDivide ts := by
  induction hcs with
  | one hc => simp [h.clause hc]
  | more hc _ ih => simp [h.clause hc, ih]

theorem otherwise (h : L.Divides) {b : Option Block} (hb : Else L ts b) : SlashesDivide ts := by
  cases hb with
  | none => trivial
  | some hbody => simp [h.block _ _ hbody]

theorem stmt (h : L.Divides) {s : Stmt} (hs : IsStmt L ts s) : SlashesDivide ts := by
  have hnames {ts : List Token} {names : List (Located Name)} (h : Listed .comma IsName ts names) :
      SlashesDivide ts :=
    slashesDivide_listed (by decide) (fun _ _ => slashesDivide_name) h
  cases hs with
  | block hbody => simp [h.block _ _ hbody]
  | whileLoop hcond hbody => simp [h.expr _ _ hcond, h.block _ _ hbody]
  | repeatLoop hbody hcond => simp [h.expr _ _ hcond, h.block _ _ hbody]
  | numericFor var hstart hstop hstep hbody =>
    simp [h.expr _ _ hstart, h.expr _ _ hstop, h.expr _ _ hstep, h.block _ _ hbody]
  | numericForByOne var span hstart hstop hbody =>
    simp [h.expr _ _ hstart, h.expr _ _ hstop, h.block _ _ hbody]
  | genericFor hvars hexprs hbody => simp [hnames hvars, h.exprs hexprs, h.block _ _ hbody]
  | conditional hclauses hotherwise => simp [h.clauses hclauses, h.otherwise hotherwise]
  | function hname hbody => simp [slashesDivide_funcName hname, h.func hbody]
  | localFunction name hbody => simp [h.func hbody]
  | localDecl hnames' _ => simp [hnames hnames']
  | localValues hnames' hvalues _ => simp [hnames hnames', h.exprs hvalues]
  | call hp _ => exact h.access hp
  | assign htargets hvalues _ =>
    have htargets := slashesDivide_listed (by decide) (fun _ _ => h.access) htargets
    simp [htargets, h.exprs hvalues]
  | _ => simp

theorem return_ (h : L.Divides) {r : Return} (hr : IsReturn L ts r) : SlashesDivide ts := by
  cases hr with
  | bare count => simp [slashesDivide_semicolons]
  | values hes count => simp [h.exprs hes, slashesDivide_semicolons]

theorem statements (h : L.Divides) {b : Block} (hb : IsBlock L ts b) : SlashesDivide ts := by
  induction hb with
  | empty => trivial
  | ret hr => exact h.return_ hr
  | semicolon _ ih => simp [ih]
  | stmt hs _ _ ih => simp [h.stmt hs, ih]

theorem next (h : L.Divides) : (next L).Divides :=
  ⟨fun _ _ => h.disjunction, fun _ _ => h.statements⟩

theorem nest (h : L.Divides) (depth : Nat) : (nest L depth).Divides := by
  induction depth with
  | zero => exact h
  | succ depth ih => exact ih.next

end Divides

theorem divides_within (depth : Nat) : (within depth).Divides := by
  refine Divides.nest ⟨fun _ _ => False.elim, ?_⟩ depth
  rintro ts b ⟨rfl, -⟩
  trivial

end Language

end LuaSyntax
