import LuaSyntax.Proofs.Lexer.Seam
import LuaSyntax.Proofs.Lexer.Spacing
/-!
# Tokens on lines of their own

The tokens of a text without errors, comments included, can be written down one after another. If
each has a line of its own, they are read back as they are.
-/

namespace LuaSyntax

namespace Token

/-- The tokens as they are written, with a line break after each. -/
def lines (ts : List Token) : String := String.join (ts.map fun t => t.text ++ "\n")

theorem toList_lines_nil : (lines []).toList = [] := by
  simp [lines]

theorem toList_lines_cons (t : Token) (ts : List Token) :
    (lines (t :: ts)).toList = t.text.toList ++ '\n' :: (lines ts).toList := by
  simp [lines, String.join_cons]

theorem mergesWith_newline (t : Token) : t.mergesWith '\n' = false := by
  cases t with
  | symbol s => cases s <;> rfl
  | _ => rfl

end Token

namespace Lexer

variable {d : Dialect} {p : Pos} {cs rest : List Char} {l : Lexeme} {ts : List Token}
  {tokens : List (Located Token)} {errors : List LexError}

theorem lineWithin_newline (cs rest : List Char) : LineWithin ('\n' :: cs) rest :=
  List.nil_prefix

/-- The token of a lexeme without a fault is read back from a line of its own. A label is written
without the blanks in it; other tokens are written as they were read. -/
theorem Lexes.line (hblank : ∀ c ∈ l.chars.head?, Text.isBlank c = false)
    (hl : Lexeme.first? d (l.chars ++ rest) = some l) (hfaults : l.faults = [])
    (h : Lexes d cs ts) : Lexes d (l.token.text.toList ++ '\n' :: cs) (l.token :: ts) := by
  have hbreak : Lexes d ('\n' :: cs) ts := h.blank (by decide)
  cases hcomment : l.token.isComment with
  | false =>
    exact hbreak.token (Lexeme.writable_of_first? hl hfaults hcomment)
      (stops_cons.2 l.token.mergesWith_newline)
  | true =>
    have hlabel : ∀ name, l.token ≠ .label name := by
      intro name hname
      rw [hname] at hcomment
      cases hcomment
    rw [Lexeme.text_token hl hlabel]
    have hreread := Lexeme.first?_reread hl hfaults (lineWithin_newline cs rest)
    exact hbreak.lexeme hblank hreread hfaults

theorem Pieces.lexes_lines (h : Pieces d p cs tokens errors) (herrors : errors = []) :
    Lexes d (Token.lines (tokens.map (·.node))).toList (tokens.map (·.node)) := by
  induction h with
  | done p =>
    rw [List.map_nil, Token.toList_lines_nil]
    exact .nil
  | blank _ _ ih => exact ih herrors
  | stray _ _ _ _ => cases herrors
  | lexeme hblank hl _ ih =>
    obtain ⟨hfirst, hrest⟩ := List.append_eq_nil_iff.1 herrors
    rw [List.map_cons, Token.toList_lines_cons]
    exact (ih hrest).line hblank hl (Lexeme.faults_of_errors hfirst)

end Lexer

/-- The tokens of a source without lexical errors, each written on a line of its own, are read back
without an error. -/
theorem tokenize_lines (source : String) (d : Dialect) (h : (tokenize source d).2 = []) :
    let written := Token.lines ((tokenize source d).1.map (·.node))
    (tokenize written d).2 = [] ∧
      (tokenize written d).1.map (·.node) = (tokenize source d).1.map (·.node) := by
  intro written
  have hpieces := Lexer.pieces_tokenizeFrom d default source.toList
  obtain ⟨htokens, herrors⟩ := hpieces.lexes_lines h default
  exact ⟨herrors, htokens⟩

/-- A label with blanks in it, a string with an escaped line break, a long bracket in a comment, and
symbols that are starts of others. -/
theorem tokenize_lines_mixed :
    let source := "::\tnext\n::a..[=[ ]] \n]=]--[==[ ]=] ]==]0X.8p-1'\\\n\\''~=-/* * /*/=//"
    let written := Token.lines ((tokenize source .glua).1.map (·.node))
    (tokenize source .glua).2 = [] ∧ (tokenize source .glua).1.length = 12 ∧
      written =
        "::next::\na\n..\n[=[ ]] \n]=]\n--[==[ ]=] ]==]\n0X.8p-1\n'\\\n\\''\n~=\n-\n/* * /*/\n=\n//\n" ∧
      (tokenize written .glua).2 = [] ∧
      (tokenize written .glua).1.map (·.node) = (tokenize source .glua).1.map (·.node) := by
  intro source written
  have h : (tokenize source .glua).2 = [] := List.length_eq_zero_iff.1 (by decide +kernel)
  exact ⟨h, by decide +kernel, by decide +kernel, tokenize_lines source .glua h⟩

end LuaSyntax
