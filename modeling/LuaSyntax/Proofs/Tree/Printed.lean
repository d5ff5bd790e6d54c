import LuaSyntax.Tree.Layout
/-!
# The tokens of a printed tree

The tokens of a layout, blanks and line breaks aside.
-/

namespace LuaSyntax

namespace Piece

def token? : Piece → Option Token
  | token t => some t
  | _ => none

end Piece

/-- The token that the operator is printed as. -/
def UnOp.token : UnOp → Token
  | neg => .symbol .minus
  | not => .keyword .not_
  | len => .symbol .hash

namespace Layout

def tokens (l : Layout) : List Token :=
  l.filterMap (·.token?)

@[simp] theorem tokens_nil : tokens [] = [] := rfl

@[simp] theorem tokens_append (l m : Layout) : tokens (l ++ m) = tokens l ++ tokens m :=
  List.filterMap_append

@[simp] theorem tokens_cons_token (t : Token) (l : Layout) :
    tokens (.token t :: l) = t :: tokens l := rfl

@[simp] theorem tokens_cons_keyword (k : Keyword) (l : Layout) :
    tokens (.keyword k :: l) = .keyword k :: tokens l := rfl

@[simp] theorem tokens_cons_symbol (s : Symbol) (l : Layout) :
    tokens (.symbol s :: l) = .symbol s :: tokens l := rfl

@[simp] theorem tokens_cons_ident (name : String) (l : Layout) :
    tokens (.ident name :: l) = .ident name :: tokens l := rfl

@[simp] theorem tokens_cons_blank (l : Layout) : tokens (.blank :: l) = tokens l := rfl

@[simp] theorem tokens_cons_newline (l : Layout) : tokens (.newline :: l) = tokens l := rfl

@[simp] theorem tokens_bracketed (l : Layout) :
    tokens (bracketed l) = .symbol .openBracket :: tokens l ++ [.symbol .closeBracket] := by
  unfold bracketed
  split <;> simp

@[simp] theorem tokens_signed (op : UnOp) (l : Layout) :
    tokens (signed op l) = op.token :: tokens l := by
  cases op with
  | neg =>
    simp only [signed]
    split <;> simp [UnOp.token]
  | not => simp [signed, UnOp.token]
  | len => simp [signed, UnOp.token]

@[simp] theorem tokens_body (l : Layout) : tokens (body l) = tokens l ++ [.keyword .end_] := by
  simp [body]

@[simp] theorem tokens_braced (ls : List Layout) :
    tokens (braced ls) =
      .symbol .openBrace :: tokens (commas ls) ++ [.symbol .closeBrace] := by
  simp [braced]

@[simp] theorem commas_nil : commas [] = [] := rfl

@[simp] theorem commas_singleton (l : Layout) : commas [l] = l := rfl

theorem commas_cons (l m : Layout) (ls : List Layout) :
    commas (l :: m :: ls) = l ++ [.symbol .comma, .blank] ++ commas (m :: ls) := rfl

end Layout

theorem layoutExprs_eq_map (es : List (Located Expr)) :
    layoutExprs es = es.map (·.node.layout) := by
  induction es with
  | nil => simp [layoutExprs]
  | cons e es ih => simp [layoutExprs, ih]

theorem layoutTargets_eq_map (ts : List (Located PrefixExp)) :
    layoutTargets ts = ts.map (·.node.layout) := by
  induction ts with
  | nil => simp [layoutTargets]
  | cons t ts ih => simp [layoutTargets, ih]

end LuaSyntax
