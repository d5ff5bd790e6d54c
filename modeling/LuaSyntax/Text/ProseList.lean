/-!
# Prose lists

A list as it is written in a sentence: `a`, `a or b`, `a, b, or c`.
-/

namespace LuaSyntax.Text

/-- The items as a prose list with the conjunction `join`; from three items on, a comma follows
every item but the last. -/
def proseList (join : String) : List String → String
  | [] => ""
  | [a] => a
  | [a, b] => a ++ " " ++ join ++ " " ++ b
  | a :: b :: c :: items => enumerate (a :: b :: c :: items)
where
  enumerate : List String → String
    | [] => ""
    | [last] => join ++ " " ++ last
    | item :: items => item ++ ", " ++ enumerate items

/-- A prose list of alternatives. -/
def orList : List String → String := proseList "or"

end LuaSyntax.Text
