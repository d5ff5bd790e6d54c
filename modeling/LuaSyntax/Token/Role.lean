import LuaSyntax.Token.Basic
/-!
# The part a token plays

Which tokens start a statement, end a block, open and close a nesting level, and what it costs to
insert one where it is missing.
-/

namespace LuaSyntax

namespace Keyword

def startsStmt : Keyword → Bool
  | break_ | continue_ | goto_ | do_ | while_ | repeat_ | if_ | for_ | function_ | local_ => true
  | _ => false

def endsBlock : Keyword → Bool
  | end_ | else_ | elseif_ | until_ => true
  | _ => false

def opensNesting : Keyword → Bool
  | function_ | do_ | if_ | repeat_ => true
  | _ => false

def closesNesting : Keyword → Bool
  | end_ | until_ => true
  | _ => false

def insertionCost : Keyword → Nat
  | end_ | then_ | do_ | until_ | in_ => 2
  | _ => 4

end Keyword

namespace Symbol

def startsStmt : Symbol → Bool
  | openParen | semicolon => true
  | _ => false

def opensNesting : Symbol → Bool
  | openParen | openBracket | openBrace => true
  | _ => false

def closesNesting : Symbol → Bool
  | closeParen | closeBracket | closeBrace => true
  | _ => false

def insertionCost : Symbol → Nat
  | closeParen | closeBracket | closeBrace | equal | comma => 2
  | _ => 4

end Symbol

namespace Token

/-- Whether the token can begin a statement. `return` cannot: it only stands last in a block. -/
def startsStmt : Token → Bool
  | keyword k => k.startsStmt
  | symbol s => s.startsStmt
  | ident _ | label _ => true
  | _ => false

/-- Whether the token ends the block before it. -/
def endsBlock : Token → Bool
  | keyword k => k.endsBlock
  | _ => false

/-- Whether the token opens a construct that a `closesNesting` token ends. -/
def opensNesting : Token → Bool
  | keyword k => k.opensNesting
  | symbol s => s.opensNesting
  | _ => false

def closesNesting : Token → Bool
  | keyword k => k.closesNesting
  | symbol s => s.closesNesting
  | _ => false

/-- The cost of inserting the token during recovery. Closing delimiters and separators, which are
most often left out, are the cheapest. -/
def insertionCost : Token → Nat
  | keyword k => k.insertionCost
  | symbol s => s.insertionCost
  | ident _ | str _ | number _ | label _ => 5
  | comment _ => 4

end Token

end LuaSyntax
