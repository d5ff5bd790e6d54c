import LuaSyntax.Lexer.Delimited
import LuaSyntax.Lexer.Number
import LuaSyntax.Text.Blank
import LuaSyntax.Token.Basic
/-!
# Lexemes

A lexeme is the stretch of characters that one token is read from. `Lexeme.first?` finds the lexeme
that a text starts with.
-/

namespace LuaSyntax.Lexer

open Text

/-- A token with the characters it was read from, which are at least one. Each fault comes with the
number of characters that had been read when it was found. -/
structure Lexeme where
  token : Token
  chars : List Char
  faults : List (LexFault × Nat)
  chars_ne_nil : chars ≠ []

/-- The parts of a label after its opening colons. -/
structure LabelParts where
  before : List Char
  name : List Char
  after : List Char
  /-- The closing colons, if the label is well formed. -/
  closer : List Char

namespace LabelParts

def nameOf : List Char → List Char
  | c :: cs => if isNameStart c then c :: cs.takeWhile isNameChar else []
  | [] => []

def split (cs : List Char) : LabelParts :=
  let before := cs.takeWhile Text.isBlank
  let afterBlank := cs.drop before.length
  let name := nameOf afterBlank
  let afterName := afterBlank.drop name.length
  let after := afterName.takeWhile Text.isBlank
  let closed := !name.isEmpty && [':', ':'].isPrefixOf (afterName.drop after.length)
  { before, name, after, closer := if closed then [':', ':'] else [] }

/-- The label after its opening colons. -/
def chars (p : LabelParts) : List Char :=
  p.before ++ p.name ++ p.after ++ p.closer

theorem nameOf_isPrefix (cs : List Char) : nameOf cs <+: cs := by
  unfold nameOf
  split
  · split
    · exact List.cons_prefix_cons.2 ⟨rfl, List.takeWhile_prefix _⟩
    · exact List.nil_prefix
  · exact List.nil_prefix

/-- A label is a start of the text. -/
theorem chars_split_isPrefix (cs : List Char) : (split cs).chars <+: cs := by
  unfold chars split
  refine append_isPrefix (append_isPrefix (append_isPrefix (List.takeWhile_prefix _)
    (nameOf_isPrefix _)) ?_) ?_
  all_goals simp only [List.length_append, ← List.drop_drop]
  · exact List.takeWhile_prefix _
  · split
    · next h => exact List.isPrefixOf_iff_prefix.1 (Bool.and_eq_true_iff.1 h).2
    · exact List.nil_prefix

end LabelParts

namespace Lexeme

/-- The fault of an unfinished lexeme, found when all of it had been read. -/
def unlessClosed (closed : Bool) (fault : LexFault) (chars : List Char) :
    List (LexFault × Nat) :=
  if closed then [] else [(fault, chars.length)]

def comment (kind : CommentKind) (c : Char) (cs : List Char) (closed : Bool) : Lexeme where
  token := .comment ⟨kind, String.ofList (c :: cs)⟩
  chars := c :: cs
  faults := unlessClosed closed .unterminatedComment (c :: cs)
  chars_ne_nil := by simp

/-- The comment that opens with two dashes and goes on in `cs`. -/
def dashComment (cs : List Char) : Lexeme :=
  match bracketLevel? cs with
  | some level =>
    let (body, closed) := bracketed level cs
    comment .block '-' ('-' :: body) closed
  | none => comment .line '-' ('-' :: untilLineBreak cs) true

/-- The comment that opens with a slash and a star and goes on in `cs`. -/
def slashBlockComment (cs : List Char) : Lexeme :=
  match through? ['*', '/'] cs with
  | some body => comment .slashBlock '/' ('*' :: body) true
  | none => comment .slashBlock '/' ('*' :: cs) false

def slashLineComment (cs : List Char) : Lexeme :=
  comment .slashLine '/' ('/' :: untilLineBreak cs) true

def quotedString (quote : Char) (cs : List Char) : Lexeme where
  token := .str (String.ofList (quote :: (quotedTail quote cs).1))
  chars := quote :: (quotedTail quote cs).1
  faults := unlessClosed (quotedTail quote cs).2 .unterminatedString
    (quote :: (quotedTail quote cs).1)
  chars_ne_nil := by simp

/-- The long string of the given level whose first bracket is followed by `cs`. -/
def longString (level : Nat) (cs : List Char) : Lexeme :=
  let (bracket, closed) := bracketed level ('[' :: cs)
  let chars := '[' :: bracket.tail
  { token := .str (String.ofList chars)
    chars
    faults := unlessClosed closed .unterminatedLongString chars
    chars_ne_nil := by simp [chars] }

def number (first : Char) (cs : List Char) : Lexeme where
  token := .number (String.ofList (NumberParts.split first cs).chars)
  chars := (NumberParts.split first cs).chars
  faults := (NumberParts.split first cs).faults
  chars_ne_nil := NumberParts.chars_split_ne_nil first cs

/-- The label that opens with two colons and goes on in `cs`. -/
def label (cs : List Char) : Lexeme :=
  let parts := LabelParts.split cs
  let chars := ':' :: ':' :: parts.chars
  { token := .label (String.ofList parts.name)
    chars
    faults := unlessClosed (!parts.closer.isEmpty) .malformedLabel chars
    chars_ne_nil := by simp [chars] }

/-- A name, or a word that the dialect reserves. -/
def word (d : Dialect) (first : Char) (cs : List Char) : Lexeme :=
  let chars := first :: cs.takeWhile isNameChar
  { token := match Keyword.ofSpelling? d (String.ofList chars) with
      | some k => .keyword k
      | none => .ident (String.ofList chars)
    chars
    faults := []
    chars_ne_nil := by simp [chars] }

def symbol (s : Symbol) : Lexeme where
  token := .symbol s
  chars := s.spelling.toList
  faults := []
  chars_ne_nil := by cases s <;> decide

/-- The lexeme that the text starts with. There is none at the end of the text and where a character
stands that starts no token. -/
def first? (d : Dialect) : List Char → Option Lexeme
  | [] => none
  | '-' :: '-' :: cs => some (dashComment cs)
  | ':' :: ':' :: cs => some (label cs)
  | c :: cs =>
    if c == '/' && cs.head? == some '/' && d.hasExtensions then some (slashLineComment cs.tail)
    else if c == '/' && cs.head? == some '*' && d.hasExtensions then
      some (slashBlockComment cs.tail)
    else if c == '"' || c == '\'' then some (quotedString c cs)
    else if c.isDigit || (c == '.' && cs.head?.any Char.isDigit) then some (number c cs)
    else if isNameStart c then some (word d c cs)
    else match bracketLevel? (c :: cs) with
      | some level => some (longString level cs)
      | none => (Symbol.longest? d (c :: cs)).map symbol

theorem dashComment_isPrefix (cs : List Char) :
    (dashComment cs).chars <+: '-' :: '-' :: cs := by
  unfold dashComment
  split
  · exact List.cons_prefix_cons.2 ⟨rfl, List.cons_prefix_cons.2 ⟨rfl, bracketed_isPrefix _ _⟩⟩
  · exact List.cons_prefix_cons.2 ⟨rfl, List.cons_prefix_cons.2 ⟨rfl, untilLineBreak_isPrefix _⟩⟩

theorem slashBlockComment_isPrefix (cs : List Char) :
    (slashBlockComment cs).chars <+: '/' :: '*' :: cs := by
  unfold slashBlockComment
  split
  · next h =>
    exact List.cons_prefix_cons.2 ⟨rfl, List.cons_prefix_cons.2 ⟨rfl, through?_isPrefix h⟩⟩
  · exact List.prefix_refl _

theorem longString_isPrefix (level : Nat) (cs : List Char) :
    (longString level cs).chars <+: '[' :: cs := by
  have h := bracketed_isPrefix level ('[' :: cs)
  unfold longString
  refine List.cons_prefix_cons.2 ⟨rfl, ?_⟩
  cases hb : (bracketed level ('[' :: cs)).1 with
  | nil => exact List.nil_prefix
  | cons c tail =>
    rw [hb] at h
    exact (List.cons_prefix_cons.1 h).2

theorem slashLineComment_isPrefix (cs : List Char) :
    (slashLineComment cs).chars <+: '/' :: '/' :: cs :=
  List.cons_prefix_cons.2 ⟨rfl, List.cons_prefix_cons.2 ⟨rfl, untilLineBreak_isPrefix _⟩⟩

theorem longest?_isPrefix {d : Dialect} {cs : List Char} {s : Symbol}
    (h : Symbol.longest? d cs = some s) : s.spelling.toList <+: cs := by
  have h := List.find?_some h
  exact List.isPrefixOf_iff_prefix.1 (Bool.and_eq_true_iff.1 h).2

private theorem eq_cons_of_head? {cs : List Char} {c : Char} (h : cs.head? = some c) :
    cs = c :: cs.tail := by
  cases cs with
  | nil => simp at h
  | cons d cs => simpa using h

/-- A lexeme is a start of the text it is found in. -/
theorem first?_isPrefix {d : Dialect} {cs : List Char} {l : Lexeme} (h : first? d cs = some l) :
    l.chars <+: cs := by
  revert h
  fun_cases first? d cs <;> intro h
  case case1 => cases h
  case case2 cs =>
    cases h
    exact dashComment_isPrefix cs
  case case3 cs =>
    cases h
    exact List.cons_prefix_cons.2 ⟨rfl, List.cons_prefix_cons.2
      ⟨rfl, LabelParts.chars_split_isPrefix cs⟩⟩
  case case4 c cs _ _ hc =>
    cases h
    simp only [Bool.and_eq_true, beq_iff_eq] at hc
    rw [hc.1.1, eq_cons_of_head? hc.1.2]
    exact slashLineComment_isPrefix _
  case case5 c cs _ _ _ hc =>
    cases h
    simp only [Bool.and_eq_true, beq_iff_eq] at hc
    rw [hc.1.1, eq_cons_of_head? hc.1.2]
    exact slashBlockComment_isPrefix _
  case case6 c cs _ _ _ _ _ =>
    cases h
    exact List.cons_prefix_cons.2 ⟨rfl, quotedTail_isPrefix c cs⟩
  case case7 c cs _ _ _ _ _ _ =>
    cases h
    exact NumberParts.chars_split_isPrefix c cs
  case case8 c cs _ _ _ _ _ _ _ =>
    cases h
    exact List.cons_prefix_cons.2 ⟨rfl, List.takeWhile_prefix _⟩
  case case9 c cs _ _ _ _ _ _ _ level hlevel =>
    cases h
    have hc : c = '[' := by
      unfold bracketLevel? at hlevel
      split at hlevel
      · next heq => exact (List.cons.inj heq).1
      · cases hlevel
    rw [hc]
    exact longString_isPrefix level cs
  case case10 c cs _ _ _ _ _ _ _ _ =>
    obtain ⟨s, hs, rfl⟩ := Option.map_eq_some_iff.1 h
    exact longest?_isPrefix hs

end Lexeme

end LuaSyntax.Lexer
