import LuaSyntax.Token.Comments
/-!
# Token streams

A token stream never changes: what has been consumed of it is said by a cursor, the index of the
first token that has not. The position of a cursor is the start of the token it points at, and past
the last token the end of the source.
-/

namespace LuaSyntax

structure TokenStream where
  tokens : Array (Located Token)
  /-- Where the source ends. -/
  stop : Pos

namespace TokenStream

/-- The position at which the last token of a list ends. -/
def endOfLast (tokens : List (Located Token)) : Pos :=
  (tokens.getLast?.map (·.span.stop)).getD default

/-- A stream that ends where its last token ends. -/
def ofTokens (tokens : List (Located Token)) : TokenStream :=
  ⟨tokens.toArray, endOfLast tokens⟩

def size (s : TokenStream) : Nat := s.tokens.size

def get? (s : TokenStream) (cursor : Nat) : Option (Located Token) :=
  s.tokens[cursor]?

/-- The tokens from `cursor` on. -/
def rest (s : TokenStream) (cursor : Nat) : List (Located Token) :=
  s.tokens.toList.drop cursor

def pos (s : TokenStream) (cursor : Nat) : Pos :=
  ((s.get? cursor).map (·.span.start)).getD s.stop

/-- The span of the tokens from `start` up to, but not including, `stop`. Without a token it is the
empty span at `start`. -/
def spanBetween (s : TokenStream) (start stop : Nat) : Span :=
  if stop ≤ start then .point (s.pos start)
  else match s.get? start, s.get? (stop - 1) with
    | some first, some last => first.span.join last.span
    | _, _ => .point (s.pos start)

end TokenStream

end LuaSyntax
