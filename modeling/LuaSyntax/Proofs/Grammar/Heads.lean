import LuaSyntax.Proofs.Grammar.Language
import LuaSyntax.Token.Role
/-!
# First tokens

The rules of the grammar look at one token to tell what comes next. The first tokens of what is
derived say that they do not mistake it for something else.
-/

namespace LuaSyntax

namespace Token

/-- Whether an expression without operators can start with the token. -/
def startsAtom : Token → Bool
  | keyword .nil_ | keyword .false_ | keyword .true_ | keyword .function_ => true
  | symbol .ellipsis | symbol .openParen | symbol .openBrace => true
  | number _ | str _ | ident _ => true
  | _ => false

/-- Whether the token is a unary operator. -/
def isUnary (t : Token) : Bool := (Operator.unaryOps.lookup t).isSome

/-- Whether an expression can start with the token. -/
def startsExpr (t : Token) : Bool := t.isUnary || t.startsAtom

/-- How tightly the token goes on with the expression before it: from one for the loosest operators
to seven for `^`, eight for a suffix, and zero for a token that does not. -/
def tightness : Token → Nat
  | keyword .or_ | symbol .pipePipe => 1
  | keyword .and_ | symbol .ampAmp => 2
  | symbol .less | symbol .greater | symbol .lessEqual | symbol .greaterEqual | symbol .tildeEqual
  | symbol .bangEqual | symbol .equalEqual => 3
  | symbol .dotDot => 4
  | symbol .plus | symbol .minus => 5
  | symbol .star | symbol .slash | symbol .percent => 6
  | symbol .caret => 7
  | symbol .openParen | symbol .openBracket | symbol .openBrace | symbol .colon | symbol .dot
  | str _ => 8
  | _ => 0

end Token

namespace Language

open Operator

/-- The tokens start with one that satisfies `p`, and not with a name and an `=`. -/
structure Begins (p : Token → Bool) (ts : List Token) : Prop where
  head : ∃ t, ts.head? = some t ∧ p t = true
  not_named : ∀ name us, ts = .ident name :: us → us.head? ≠ some (.symbol .equal)

variable {p q : Token → Bool} {L : Language} {ts us : List Token}

namespace Begins

theorem mono (h : Begins p ts) (hpq : ∀ t, p t = true → q t = true) : Begins q ts := by
  obtain ⟨t, ht, hp⟩ := h.head
  exact ⟨⟨t, ht, hpq t hp⟩, h.not_named⟩

theorem ne_nil (h : Begins p ts) : ts ≠ [] := by
  obtain ⟨t, ht, -⟩ := h.head
  rintro rfl
  cases ht

theorem single {t : Token} (h : p t = true) : Begins p [t] := by
  refine ⟨⟨t, rfl, h⟩, ?_⟩
  rintro name us ⟨⟩
  nofun

theorem cons {t : Token} (h : p t = true) (ht : ∀ name, t ≠ .ident name) (us : List Token) :
    Begins p (t :: us) :=
  ⟨⟨t, rfl, h⟩, fun _ _ heq => absurd (List.cons.inj heq).1 (ht _)⟩

theorem append (h : Begins p ts) (hus : us.head? ≠ some (.symbol .equal)) :
    Begins p (ts ++ us) := by
  obtain ⟨t, rest, rfl⟩ := List.exists_cons_of_ne_nil h.ne_nil
  refine ⟨h.head, fun name vs heq => ?_⟩
  obtain ⟨rfl, rfl⟩ := List.cons.inj heq
  cases rest with
  | nil => simpa using hus
  | cons u rest => simpa using h.not_named name (u :: rest) rfl

end Begins

/-! ### Expressions -/

theorem IsArgs.exists_head {a : Args} (h : IsArgs L ts a) :
    ∃ t, ts.head? = some t ∧ t.tightness = 8 := by
  cases h with
  | table h =>
    cases h
    exact ⟨_, rfl, rfl⟩
  | _ => exact ⟨_, rfl, rfl⟩

theorem IsSuffix.exists_head {s : Suffix} (h : IsSuffix L ts s) :
    ∃ t, ts.head? = some t ∧ t.tightness = 8 := by
  cases h with
  | call h => exact h.exists_head
  | _ => exact ⟨_, rfl, rfl⟩

theorem Suffixes.not_equal {ss : List (Located Suffix)} (h : Suffixes L ts ss) :
    ts.head? ≠ some (.symbol .equal) := by
  cases h with
  | nil => nofun
  | cons h _ =>
    obtain ⟨t, ht, htight⟩ := h.exists_head
    rw [List.head?_append, ht]
    rintro ⟨⟩
    cases htight

theorem IsHead.name_or_paren {a : Head} (h : IsHead L ts a) :
    (∃ name, ts = [.ident name]) ∨ ∃ us, ts = .symbol .openParen :: us ∧ a.isParen = true := by
  cases h with
  | name name => exact .inl ⟨name, rfl⟩
  | paren _ => exact .inr ⟨_, rfl, rfl⟩

theorem Access.begins {a : PrefixExp} (h : Access L ts a) : Begins Token.startsAtom ts := by
  cases h with
  | intro hhead hsuffixes =>
    rcases hhead.name_or_paren with ⟨name, rfl⟩ | ⟨us, rfl, -⟩
    · exact (Begins.single rfl).append hsuffixes.not_equal
    · exact Begins.cons rfl (fun _ => by simp) _

theorem Atom.begins {e : Expr} (h : Atom L ts e) : Begins Token.startsAtom ts := by
  cases h with
  | access h => exact h.begins
  | table h =>
    cases h
    exact Begins.cons rfl (fun _ => by simp) _
  | function _ => exact Begins.cons rfl (fun _ => by simp) _
  | _ => exact Begins.single rfl

theorem Unary.begins {e : Expr} (h : Unary L ts e) : Begins Token.startsExpr ts := by
  have hmono : ∀ t : Token, t.startsAtom = true → t.startsExpr = true := by
    intro t ht
    simp [Token.startsExpr, ht]
  cases h with
  | @operator us t op operand hop _ =>
    have hop : t.startsExpr = true ∧ t.startsAtom = false :=
      (by decide : ∀ p ∈ unaryOps, p.1.startsExpr = true ∧ p.1.startsAtom = false) _ hop
    refine Begins.cons hop.1 ?_ _
    rintro name rfl
    cases hop.2
  | atom h => exact h.begins.mono hmono
  | power h hop _ =>
    have hop := (by decide : ∀ p ∈ powOps, p.1 ≠ .symbol .equal) _ hop
    exact (h.begins.mono hmono).append (by simpa using hop)

section

variable {ops : List (Token × BinOp)} {item : List Token → Expr → Prop}

theorem LeftAssoc.begins (hops : ∀ o ∈ ops, o.1 ≠ .symbol .equal)
    (hitem : ∀ {ts e}, item ts e → Begins p ts) {e : Expr} (h : LeftAssoc ops item ts e) :
    Begins p ts := by
  induction h with
  | operand h => exact hitem h
  | binary _ hop _ ih => exact ih.append (by simpa using hops _ hop)

theorem RightAssoc.begins (hops : ∀ o ∈ ops, o.1 ≠ .symbol .equal)
    (hitem : ∀ {ts e}, item ts e → Begins p ts) {e : Expr} (h : RightAssoc ops item ts e) :
    Begins p ts := by
  cases h with
  | operand h => exact hitem h
  | binary h hop _ => exact (hitem h).append (by simpa using hops _ hop)

end

theorem begins_disjunction {e : Expr} (h : Disjunction L ts e) : Begins Token.startsExpr ts :=
  LeftAssoc.begins (by decide) (LeftAssoc.begins (by decide) (LeftAssoc.begins (by decide)
    (RightAssoc.begins (by decide) (LeftAssoc.begins (by decide) (LeftAssoc.begins (by decide)
      Unary.begins))))) h

/-! ### Statements -/

theorem Access.exists_head {a : PrefixExp} (h : Access L ts a) :
    ∃ t, ts.head? = some t ∧ t.startsStmt = true ∧ t ≠ .symbol .semicolon ∧
      (t = .symbol .openParen → a.head.node.isParen = true) := by
  cases h with
  | intro hhead _ =>
    rcases hhead.name_or_paren with ⟨name, rfl⟩ | ⟨us, rfl, hparen⟩
    · exact ⟨_, rfl, rfl, by simp, by simp⟩
    · exact ⟨_, rfl, rfl, by simp, fun _ => hparen⟩

/-- The first token of a statement tells that it is one. It goes on with the statement before it
only if it is an opening parenthesis. -/
theorem IsStmt.exists_head {s : Stmt} (h : IsStmt L ts s) :
    ∃ t, ts.head? = some t ∧ t.startsStmt = true ∧ t ≠ .symbol .semicolon ∧
      (t = .symbol .openParen → s.startsWithParen = true) := by
  cases h with
  | call h _ => exact h.exists_head
  | assign htargets _ _ =>
    cases htargets with
    | one h =>
      obtain ⟨t, ht, hrest⟩ := h.exists_head
      exact ⟨t, by rw [List.head?_append, ht]; rfl, by simpa [Stmt.startsWithParen] using hrest⟩
    | more h _ =>
      obtain ⟨t, ht, hrest⟩ := h.exists_head
      exact ⟨t, by rw [List.append_assoc, List.head?_append, ht]; rfl, by
        simpa [Stmt.startsWithParen] using hrest⟩
  | conditional hclauses _ =>
    cases hclauses with
    | one _ => exact ⟨_, rfl, rfl, by simp, by simp⟩
    | more _ _ => exact ⟨_, rfl, rfl, by simp, by simp⟩
  | _ => exact ⟨_, rfl, rfl, by simp, by simp⟩

theorem Clauses.head? {word : Keyword} {cs : List IfClause} (h : Clauses L word ts cs) :
    ts.head? = some (.keyword word) := by
  cases h <;> rfl

theorem IsReturn.head? {r : Return} (h : IsReturn L ts r) :
    ts.head? = some (.keyword .return_) := by
  cases h <;> rfl

end Language

end LuaSyntax
