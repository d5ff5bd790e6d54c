import LuaSyntax.Lexer.Lexeme
/-!
# Tokens of a source text

Reading goes on past every fault: blank characters are skipped, and a character that starts no token
is reported and skipped, so the token list is as complete as the text allows.
-/

namespace LuaSyntax

namespace Lexer

/-- What is read up to the end of the next token, or to the end of the text. -/
structure Reading where
  token : Option (Located Token)
  /-- The errors found on the way, in the order they were found. -/
  errors : List LexError
  pos : Pos
  rest : List Char

/-- The errors of a lexeme that starts at `p`. -/
def Lexeme.errors (p : Pos) (l : Lexeme) : List LexError :=
  l.faults.map fun (fault, read) => ⟨fault, ⟨p, p.advanceOver (l.chars.take read)⟩⟩

/-- Reads the next token of the text that starts at `p`. -/
def read (d : Dialect) (p : Pos) : List Char → Reading
  | [] => ⟨none, [], p, []⟩
  | c :: cs =>
    if Text.isBlank c then read d (p.advance c) cs
    else match Lexeme.first? d (c :: cs) with
      | some l =>
        let stop := p.advanceOver l.chars
        ⟨some ⟨l.token, ⟨p, stop⟩⟩, l.errors p, stop, (c :: cs).drop l.chars.length⟩
      | none =>
        let next := read d (p.advance c) cs
        { next with errors := ⟨.unrecognizedChar c, ⟨p, p.advance c⟩⟩ :: next.errors }

theorem length_rest_read_lt {d : Dialect} {p : Pos} {cs : List Char} {t : Located Token}
    (h : (read d p cs).token = some t) : (read d p cs).rest.length < cs.length := by
  induction cs generalizing p with
  | nil => simp [read] at h
  | cons c cs ih =>
    rw [read] at h ⊢
    split
    · rw [if_pos ‹_›] at h
      exact Nat.lt_succ_of_lt (ih h)
    · rw [if_neg ‹_›] at h
      split
      · next l _ =>
        have := List.length_pos_iff.2 l.chars_ne_nil
        simp only [List.length_drop, List.length_cons]
        omega
      · next hl =>
        rw [hl] at h
        exact Nat.lt_succ_of_lt (ih h)

/-- The tokens and errors of the text that starts at `p`. -/
def tokenizeFrom (d : Dialect) (p : Pos) (cs : List Char) :
    List (Located Token) × List LexError :=
  match _h : (read d p cs).token with
  | none => ([], (read d p cs).errors)
  | some t =>
    let (tokens, errors) := tokenizeFrom d (read d p cs).pos (read d p cs).rest
    (t :: tokens, (read d p cs).errors ++ errors)
termination_by cs.length
decreasing_by exact length_rest_read_lt _h

end Lexer

/-- A lexer that yields the tokens of a text one by one. -/
structure Lexer where
  dialect : Dialect
  pos : Pos
  rest : List Char
  /-- The errors found so far. -/
  errors : List LexError

namespace Lexer

def ofSource (source : String) (d : Dialect) : Lexer :=
  ⟨d, default, source.toList, []⟩

/-- The next token, if there is one, and the lexer after it. -/
def next (l : Lexer) : Option (Located Token) × Lexer :=
  let reading := read l.dialect l.pos l.rest
  (reading.token, ⟨l.dialect, reading.pos, reading.rest, l.errors ++ reading.errors⟩)

end Lexer

/-- The tokens of a source text, comments included, and its lexical errors. -/
def tokenize (source : String) (d : Dialect) : List (Located Token) × List LexError :=
  Lexer.tokenizeFrom d default source.toList

/-- The position just past the end of a source text. -/
def endOfSource (source : String) : Pos :=
  Pos.endOf source.toList

end LuaSyntax
