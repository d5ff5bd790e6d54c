import LuaSyntax.Source.Span
import LuaSyntax.Token.Basic
/-!
# Comments among the tokens

Comments take no part in the grammar. They are split off before a token list is parsed.
-/

namespace LuaSyntax

/-- The comments of a token list, in order. -/
def commentsOf (tokens : List (Located Token)) : List (Located Comment) :=
  tokens.filterMap fun t => t.node.comment?.map (⟨·, t.span⟩)

/-- The tokens of a list that are no comments, in order. -/
def withoutComments (tokens : List (Located Token)) : List (Located Token) :=
  tokens.filter fun t => !t.node.isComment

end LuaSyntax
