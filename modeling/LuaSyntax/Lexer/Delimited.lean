import LuaSyntax.Lexer.Fault
/-!
# Strings and comments

Texts between delimiters. A quoted string ends at its quote, a long bracket at the closing bracket
of its level, and a line comment before the line break.
-/

namespace LuaSyntax.Lexer

/-- The shortest start of the text that ends with `mark`. -/
def through? (mark : List Char) : List Char → Option (List Char)
  | [] => none
  | c :: cs =>
    if mark.isPrefixOf (c :: cs) then some mark else (through? mark cs).map (c :: ·)

/-- What follows the opening quote of a string, its closing quote included, and whether it has one.
A backslash takes the next character with it, even a line break. -/
def quotedTail (quote : Char) : List Char → List Char × Bool
  | [] => ([], false)
  | '\n' :: _ => ([], false)
  | '\\' :: c :: cs =>
    let (tail, closed) := quotedTail quote cs
    ('\\' :: c :: tail, closed)
  | c :: cs =>
    if c = quote then ([c], true)
    else
      let (tail, closed) := quotedTail quote cs
      (c :: tail, closed)

/-- The level of the long bracket that opens the text: zero for `[[`, one for `[=[`, and so on. -/
def bracketLevel? : List Char → Option Nat
  | '[' :: cs =>
    let signs := cs.takeWhile (· == '=')
    if (cs.drop signs.length).head? = some '[' then some signs.length else none
  | _ => none

/-- The closing long bracket of a level. -/
def closingBracket (level : Nat) : List Char :=
  ']' :: (List.replicate level '=' ++ [']'])

/-- The long bracket of the given level that opens the text, and whether it is closed. -/
def bracketed (level : Nat) (cs : List Char) : List Char × Bool :=
  match through? (closingBracket level) (cs.drop (level + 2)) with
  | some body => (cs.take (level + 2) ++ body, true)
  | none => (cs, false)

/-- The text up to the end of its line. -/
def untilLineBreak (cs : List Char) : List Char :=
  cs.takeWhile (· ≠ '\n')

/-! ### What is read is a start of the text -/

theorem through?_isPrefix {mark cs body : List Char} (h : through? mark cs = some body) :
    body <+: cs := by
  induction cs generalizing body with
  | nil => simp [through?] at h
  | cons c cs ih =>
    rw [through?] at h
    split at h
    · next hmark =>
      cases h
      exact List.isPrefixOf_iff_prefix.1 hmark
    · obtain ⟨tail, htail, rfl⟩ := Option.map_eq_some_iff.1 h
      exact List.cons_prefix_cons.2 ⟨rfl, ih htail⟩

theorem quotedTail_isPrefix (quote : Char) (cs : List Char) :
    (quotedTail quote cs).1 <+: cs := by
  fun_induction quotedTail quote cs with
  | case1 => exact List.nil_prefix
  | case2 => exact List.nil_prefix
  | case3 c cs tail closed h ih =>
    rw [h] at ih
    exact List.cons_prefix_cons.2 ⟨rfl, List.cons_prefix_cons.2 ⟨rfl, ih⟩⟩
  | case4 => exact List.cons_prefix_cons.2 ⟨rfl, List.nil_prefix⟩
  | case5 c cs _ _ _ tail closed h ih =>
    rw [h] at ih
    exact List.cons_prefix_cons.2 ⟨rfl, ih⟩

theorem bracketed_isPrefix (level : Nat) (cs : List Char) : (bracketed level cs).1 <+: cs := by
  unfold bracketed
  split
  · next body h =>
    have := (List.prefix_append_right_inj (cs.take (level + 2))).2 (through?_isPrefix h)
    rwa [List.take_append_drop] at this
  · exact List.prefix_refl cs

theorem untilLineBreak_isPrefix (cs : List Char) : untilLineBreak cs <+: cs :=
  List.takeWhile_prefix _

end LuaSyntax.Lexer
