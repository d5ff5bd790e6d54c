import LuaSyntax.Text.CodeRange
/-!
# Blank characters

The characters with the Unicode property `White_Space`.
-/

namespace LuaSyntax.Text

/-- The ranges of `White_Space`. -/
def blankRanges : List CodeRange :=
  [(0x09, 0x0D), (0x20, 0x20), (0x85, 0x85), (0xA0, 0xA0), (0x1680, 0x1680), (0x2000, 0x200A),
    (0x2028, 0x2029), (0x202F, 0x202F), (0x205F, 0x205F), (0x3000, 0x3000)]

def isBlank (c : Char) : Bool :=
  inRanges c.toNat blankRanges

end LuaSyntax.Text
