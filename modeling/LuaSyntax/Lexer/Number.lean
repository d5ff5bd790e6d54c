import LuaSyntax.Lexer.CharClass
import LuaSyntax.Lexer.Fault
import LuaSyntax.Text.Start
/-!
# Number lexemes

A number is read part by part, each part as far as its characters go. What is no numeral is still
one lexeme, with a fault: an exponent without a digit, or further name characters and dots at the
end.
-/

namespace LuaSyntax.Lexer

open Text

/-- The parts of a number, in the order they are written. -/
structure NumberParts where
  /-- The first character, with the `x` or `X` of a hexadecimal number. -/
  lead : List Char
  digits : List Char
  /-- A dot and the digits after it. -/
  fraction : List Char
  /-- The mark of the exponent and its sign. -/
  exponent : List Char
  exponentDigits : List Char
  /-- What follows without a gap and belongs to no numeral. -/
  excess : List Char

namespace NumberParts

def isHex (first : Char) (cs : List Char) : Bool :=
  first == '0' && cs.head?.any fun c => c == 'x' || c == 'X'

def isExponentMark (hex : Bool) (c : Char) : Bool :=
  if hex then c == 'p' || c == 'P' else c == 'e' || c == 'E'

def fractionOf (digit : Char → Bool) : List Char → List Char
  | '.' :: cs => '.' :: cs.takeWhile digit
  | _ => []

def signOf : List Char → List Char
  | '+' :: _ => ['+']
  | '-' :: _ => ['-']
  | _ => []

def exponentOf (hex : Bool) : List Char → List Char
  | c :: cs => if isExponentMark hex c then c :: signOf cs else []
  | [] => []

/-- Splits the number that starts with `first`, a digit or a dot, and goes on in `cs`. -/
def split (first : Char) (cs : List Char) : NumberParts :=
  let hex := isHex first cs
  let digit := if hex then isHexDigit else Char.isDigit
  let mark := if hex then cs.take 1 else []
  let afterMark := cs.drop mark.length
  let digits := afterMark.takeWhile digit
  let afterDigits := afterMark.drop digits.length
  let fraction := if first == '.' then [] else fractionOf digit afterDigits
  let afterFraction := afterDigits.drop fraction.length
  let exponent := exponentOf hex afterFraction
  let afterExponent := afterFraction.drop exponent.length
  let exponentDigits := if exponent.isEmpty then [] else afterExponent.takeWhile Char.isDigit
  let excess := (afterExponent.drop exponentDigits.length).takeWhile fun c =>
    isNameChar c || c == '.'
  { lead := first :: mark, digits, fraction, exponent, exponentDigits, excess }

/-- The characters before the digits of the exponent. -/
def base (p : NumberParts) : List Char :=
  p.lead ++ p.digits ++ p.fraction ++ p.exponent

def chars (p : NumberParts) : List Char :=
  p.base ++ p.exponentDigits ++ p.excess

/-- The faults of the number, each with how many of its characters had been read. -/
def faults (p : NumberParts) : List (LexFault × Nat) :=
  (if !p.exponent.isEmpty && p.exponentDigits.isEmpty
    then [(.malformedNumber, p.base.length)] else []) ++
  (if p.excess.isEmpty then [] else [(.malformedNumber, p.chars.length)])

theorem fractionOf_isPrefix (digit : Char → Bool) (cs : List Char) :
    fractionOf digit cs <+: cs := by
  unfold fractionOf
  split
  · exact List.cons_prefix_cons.2 ⟨rfl, List.takeWhile_prefix _⟩
  · exact List.nil_prefix

theorem signOf_isPrefix (cs : List Char) : signOf cs <+: cs := by
  unfold signOf
  split
  · exact List.cons_prefix_cons.2 ⟨rfl, List.nil_prefix⟩
  · exact List.cons_prefix_cons.2 ⟨rfl, List.nil_prefix⟩
  · exact List.nil_prefix

theorem exponentOf_isPrefix (hex : Bool) (cs : List Char) : exponentOf hex cs <+: cs := by
  unfold exponentOf
  split
  · split
    · exact List.cons_prefix_cons.2 ⟨rfl, signOf_isPrefix _⟩
    · exact List.nil_prefix
  · exact List.nil_prefix

/-- A number is a start of the text. -/
theorem chars_split_isPrefix (first : Char) (cs : List Char) :
    (split first cs).chars <+: first :: cs := by
  have hmark : (if isHex first cs then cs.take 1 else []) <+: cs := by
    split
    · exact List.take_prefix 1 cs
    · exact List.nil_prefix
  unfold chars base split
  refine append_isPrefix (append_isPrefix (append_isPrefix (append_isPrefix (append_isPrefix
    (List.cons_prefix_cons.2 ⟨rfl, hmark⟩) ?_) ?_) ?_) ?_) ?_
  all_goals
    simp only [List.length_append, ← List.drop_drop, List.length_cons, List.drop_succ_cons]
  · exact List.takeWhile_prefix _
  · exact unless_isPrefix (fractionOf_isPrefix _ _)
  · exact exponentOf_isPrefix _ _
  · exact unless_isPrefix <| List.takeWhile_prefix _
  · exact List.takeWhile_prefix _

theorem chars_split_ne_nil (first : Char) (cs : List Char) :
    (split first cs).chars ≠ [] := by
  simp [split, chars, base]

end NumberParts

end LuaSyntax.Lexer
