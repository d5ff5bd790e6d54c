import LuaSyntax.Rule.Match
/-!
# Skipping

Tokens that fit nowhere, or that nest too deep, are passed over with one diagnostic for the whole
run.
-/

namespace LuaSyntax.Rule

/-- Passes over `count` tokens, or all that are left. -/
def skipTokens (count : Nat) (expected : List Expected) : Rule Unit := fun c s =>
  let skipped := min count (c.remaining s)
  if skipped = 0 then .ok () s
  else
    let span := c.stream.spanBetween s.cursor (s.cursor + skipped)
    let cause := .unexpected ((c.next? s).map (·.node)) expected
    .ok () ((s.advance skipped).record ⟨span, cause, .skipped skipped⟩)

/-- Whether the token ends the nesting level it stands in. With `separators`, a comma and a
semicolon do too. -/
def endsLevel (separators : Bool) (t : Token) : Bool :=
  t.closesNesting || t.endsBlock ||
    (separators && (t == .symbol .comma || t == .symbol .semicolon))

/-- How deep the tokens after `t` nest, if `t` stands at `depth`. -/
def depthAfter (depth : Nat) (t : Token) : Nat :=
  if t.opensNesting then depth + 1
  else if t.closesNesting then depth - 1
  else depth

/-- The number of tokens before the first one that ends the level `depth` levels further out. -/
def levelLength (separators : Bool) (depth : Nat) : List Token → Nat
  | [] => 0
  | t :: ts =>
    if depth = 0 && endsLevel separators t then 0
    else levelLength separators (depthAfter depth t) ts + 1

/-- Passes over the rest of the nesting level, and gives the span of its tokens if there are any. -/
def skipLevel (separators : Bool) : Rule (Option Span) := fun c s =>
  let count := levelLength separators 0 ((c.stream.rest s.cursor).map (·.node))
  if count = 0 then .ok none s
  else
    let span := c.stream.spanBetween s.cursor (s.cursor + count)
    .ok (some span) ((s.advance count).record ⟨span, .tooDeep c.limit, .skipped count⟩)

/-- Requires the end of the input. A committed rule passes over all that is left. -/
def endOfInput : Rule Unit := fun c s =>
  if (c.next? s).isNone then .ok () s
  else if c.isCommitted s then skipTokens (c.remaining s) [.named "end of input"] c s
  else .error ⟨[.named "end of input"], 0⟩ s

end LuaSyntax.Rule
