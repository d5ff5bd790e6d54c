/-!
# Positions in a source text

A position counts lines and columns in characters and offsets in UTF-8 bytes, all from zero.
Positions are ordered lexicographically by line, column and offset.
-/

namespace LuaSyntax

/-- A point in a source text. -/
structure Pos where
  line : Nat
  column : Nat
  offset : Nat
deriving DecidableEq, Repr, Inhabited

namespace Pos

/-- The position just after the character `c` that stands at `p`. -/
def advance (p : Pos) (c : Char) : Pos :=
  if c = '\n' then ⟨p.line + 1, 0, p.offset + c.utf8Size⟩
  else ⟨p.line, p.column + 1, p.offset + c.utf8Size⟩

/-- The position just after the text `cs` that starts at `p`. -/
def advanceOver (p : Pos) (cs : List Char) : Pos :=
  cs.foldl advance p

/-- The size of a text in UTF-8 bytes. -/
def byteSize : List Char → Nat
  | [] => 0
  | c :: cs => c.utf8Size + byteSize cs

/-- The position at the end of the text `cs`: its line breaks, the characters of its last line,
and its size. -/
def endOf (cs : List Char) : Pos where
  line := cs.count '\n'
  column := (cs.reverse.takeWhile (· ≠ '\n')).length
  offset := byteSize cs

@[simp] theorem advanceOver_nil (p : Pos) : p.advanceOver [] = p := rfl

@[simp] theorem advanceOver_cons (p : Pos) (c : Char) (cs : List Char) :
    p.advanceOver (c :: cs) = (p.advance c).advanceOver cs := rfl

@[simp] theorem advanceOver_append (p : Pos) (cs ds : List Char) :
    p.advanceOver (cs ++ ds) = (p.advanceOver cs).advanceOver ds :=
  List.foldl_append

instance : Ord Pos where
  compare p q := (compare p.line q.line).then
    ((compare p.column q.column).then (compare p.offset q.offset))

instance : LE Pos := leOfOrd

instance : DecidableLE Pos := inferInstanceAs (DecidableRel (leOfOrd (α := Pos)).le)

theorem le_iff {p q : Pos} : p ≤ q ↔
    p.line < q.line ∨ p.line = q.line ∧
      (p.column < q.column ∨ p.column = q.column ∧ p.offset ≤ q.offset) := by
  change ((compare p.line q.line).then
    ((compare p.column q.column).then (compare p.offset q.offset))).isLE ↔ _
  simp only [Ordering.isLE_then_iff_or]
  simp only [Nat.compare_eq_lt, Nat.compare_eq_eq, Nat.isLE_compare]

instance : Min Pos := minOfLe

instance : Max Pos := maxOfLe

/-- Line and column, counted from one. -/
def text (p : Pos) : String :=
  toString (p.line + 1) ++ ":" ++ toString (p.column + 1)

end Pos

end LuaSyntax
