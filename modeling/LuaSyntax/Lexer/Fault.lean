import LuaSyntax.Source.Span
import LuaSyntax.Text.Quoted
/-!
# Lexical errors

A lexical error never stops the lexer: it says what is wrong with the text that its span covers.
-/

namespace LuaSyntax

/-- What is wrong with a piece of source text. -/
inductive LexFault where
  | unterminatedString
  | unterminatedLongString
  | unterminatedComment
  | malformedNumber
  | malformedLabel
  | unrecognizedChar (c : Char)
deriving DecidableEq, Repr

namespace LexFault

def message : LexFault → String
  | unterminatedString => "unterminated string literal"
  | unterminatedLongString => "unterminated long string"
  | unterminatedComment => "unterminated block comment"
  | malformedNumber => "malformed number"
  | malformedLabel => "malformed label"
  | unrecognizedChar c => "unrecognized character " ++ Text.quoted c

/-- What a report says about the marked text. -/
def label : LexFault → String
  | unterminatedString => "this string is missing its closing quote"
  | unterminatedLongString => "this string is missing its closing bracket"
  | unterminatedComment => "this comment is never closed"
  | malformedNumber => "this is not a valid number"
  | malformedLabel => "labels are written `::name::`"
  | unrecognizedChar _ => "this character is not part of any token"

end LexFault

structure LexError where
  fault : LexFault
  span : Span
deriving DecidableEq, Repr

namespace LexError

def text (e : LexError) : String :=
  e.fault.message ++ " at " ++ e.span.start.text

end LexError

end LuaSyntax
