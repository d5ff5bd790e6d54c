import LuaSyntax.Dialect
/-!
# Tokens

Reserved words and symbols have one spelling each; the other tokens carry the text they were read
from.
-/

namespace LuaSyntax

/-- A reserved word. -/
inductive Keyword where
  | and_ | break_ | continue_ | do_ | else_ | elseif_ | end_ | false_ | for_ | function_ | goto_
  | if_ | in_ | local_ | nil_ | not_ | or_ | repeat_ | return_ | then_ | true_ | until_ | while_
deriving DecidableEq, Repr

/-- An operator or a mark of punctuation. -/
inductive Symbol where
  | plus | minus | star | slash | percent | caret | hash
  | equalEqual | tildeEqual | lessEqual | greaterEqual | less | greater | equal
  | openParen | closeParen | openBrace | closeBrace | openBracket | closeBracket
  | semicolon | colon | comma | dot | dotDot | ellipsis
  | ampAmp | pipePipe | bangEqual | bang
deriving DecidableEq, Repr

/-- How a comment is written: `-- …`, `--[[ … ]]` at any bracket level, `// …` or `/* … */`. -/
inductive CommentKind where
  | line
  | block
  | slashLine
  | slashBlock
deriving DecidableEq, Repr

/-- A comment, its delimiters included. -/
structure Comment where
  kind : CommentKind
  text : String
deriving DecidableEq, Repr

/-- A token. A string is raw, with its delimiters and escapes; a label is without its colons. -/
inductive Token where
  | keyword (k : Keyword)
  | symbol (s : Symbol)
  | ident (name : String)
  | str (raw : String)
  | number (raw : String)
  | label (name : String)
  | comment (c : Comment)
deriving DecidableEq, Repr

namespace Keyword

def all : List Keyword :=
  [and_, break_, continue_, do_, else_, elseif_, end_, false_, for_, function_, goto_, if_, in_,
    local_, nil_, not_, or_, repeat_, return_, then_, true_, until_, while_]

def spelling : Keyword → String
  | and_ => "and"
  | break_ => "break"
  | continue_ => "continue"
  | do_ => "do"
  | else_ => "else"
  | elseif_ => "elseif"
  | end_ => "end"
  | false_ => "false"
  | for_ => "for"
  | function_ => "function"
  | goto_ => "goto"
  | if_ => "if"
  | in_ => "in"
  | local_ => "local"
  | nil_ => "nil"
  | not_ => "not"
  | or_ => "or"
  | repeat_ => "repeat"
  | return_ => "return"
  | then_ => "then"
  | true_ => "true"
  | until_ => "until"
  | while_ => "while"

/-- Whether the word is reserved in the dialect. -/
def isReserved (d : Dialect) : Keyword → Bool
  | continue_ => d.hasExtensions
  | _ => true

/-- The word of the dialect that is spelled `word`. -/
def ofSpelling? (d : Dialect) (word : String) : Option Keyword :=
  all.find? fun k => k.isReserved d && k.spelling == word

end Keyword

namespace Symbol

/-- Every symbol, a longer one before those that it starts with. -/
def all : List Symbol :=
  [ellipsis, dotDot, dot, equalEqual, equal, tildeEqual, lessEqual, less, greaterEqual, greater,
    ampAmp, pipePipe, bangEqual, bang, plus, minus, star, slash, percent, caret, hash,
    openParen, closeParen, openBrace, closeBrace, openBracket, closeBracket,
    semicolon, colon, comma]

def spelling : Symbol → String
  | plus => "+"
  | minus => "-"
  | star => "*"
  | slash => "/"
  | percent => "%"
  | caret => "^"
  | hash => "#"
  | equalEqual => "=="
  | tildeEqual => "~="
  | lessEqual => "<="
  | greaterEqual => ">="
  | less => "<"
  | greater => ">"
  | equal => "="
  | openParen => "("
  | closeParen => ")"
  | openBrace => "\x7b"
  | closeBrace => "\x7d"
  | openBracket => "["
  | closeBracket => "]"
  | semicolon => ";"
  | colon => ":"
  | comma => ","
  | dot => "."
  | dotDot => ".."
  | ellipsis => "..."
  | ampAmp => "&&"
  | pipePipe => "||"
  | bangEqual => "!="
  | bang => "!"

/-- Whether the dialect has the symbol. -/
def isUsed (d : Dialect) : Symbol → Bool
  | ampAmp | pipePipe | bangEqual | bang => d.hasExtensions
  | _ => true

/-- The longest symbol of the dialect that `cs` starts with. -/
def longest? (d : Dialect) (cs : List Char) : Option Symbol :=
  all.find? fun s => s.isUsed d && s.spelling.toList.isPrefixOf cs

end Symbol

namespace Token

/-- The token as it is written in a source text. -/
def text : Token → String
  | keyword k => k.spelling
  | symbol s => s.spelling
  | ident name => name
  | str raw => raw
  | number raw => raw
  | label name => "::" ++ name ++ "::"
  | comment c => c.text

/-- The token as a message speaks of it. -/
def describe : Token → String
  | keyword k => "`" ++ k.spelling ++ "`"
  | symbol s => "`" ++ s.spelling ++ "`"
  | ident name => "identifier `" ++ name ++ "`"
  | str _ => "string literal"
  | number raw => "number `" ++ raw ++ "`"
  | label name => "label `::" ++ name ++ "::`"
  | comment _ => "comment"

def comment? : Token → Option Comment
  | comment c => some c
  | _ => none

def isComment (t : Token) : Bool :=
  t.comment?.isSome

end Token

end LuaSyntax
