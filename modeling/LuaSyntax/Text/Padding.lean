/-!
# Padding

Texts cut and filled up to a width, both counted in characters.
-/

namespace LuaSyntax.Text

/-- Where a text stands in a wider field. -/
inductive Alignment where
  | left
  | right
  | centre
deriving DecidableEq, Repr

/-- Fills `text` up to `width` characters. A centred text has the odd character on its right. -/
def pad (fill : Char) (align : Alignment) (width : Nat) (text : String) : String :=
  let missing := width - text.length
  let before := match align with
    | .left => 0
    | .right => missing
    | .centre => missing / 2
  String.ofList (List.replicate before fill) ++ text ++
    String.ofList (List.replicate (missing - before) fill)

/-- The first `n` characters of `text`. -/
def cut (n : Nat) (text : String) : String :=
  String.ofList (text.toList.take n)

/-- Padding never cuts a text, and fills it exactly up to the width. -/
theorem length_pad (fill : Char) (align : Alignment) (width : Nat) (text : String) :
    (pad fill align width text).length = max width text.length := by
  simp only [pad, String.length_append, String.length_ofList, List.length_replicate]
  cases align
  all_goals
    dsimp only
    omega

theorem length_cut (n : Nat) (text : String) : (cut n text).length = min n text.length := by
  rw [cut, String.length_ofList, List.length_take, String.length_toList]

/-- A text cut and then filled up to one width has this width. -/
theorem length_pad_cut (fill : Char) (align : Alignment) (width : Nat) (text : String) :
    (pad fill align width (cut width text)).length = width := by
  rw [length_pad, length_cut]
  omega

end LuaSyntax.Text
