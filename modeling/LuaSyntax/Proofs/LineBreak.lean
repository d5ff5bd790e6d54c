import LuaSyntax.Proofs.Lexer.Seam
/-!
# Texts on both sides of a line break

A text that is read without errors is read the same before a line break, and what comes after the
line break is read as if it stood alone, further down.
-/

namespace LuaSyntax

/-! ### Places further down -/

/-- The position so many lines further down, in the same column. -/
def Pos.down (lines bytes : Nat) (p : Pos) : Pos := ⟨p.line + lines, p.column, p.offset + bytes⟩

def Span.down (lines bytes : Nat) (s : Span) : Span :=
  ⟨s.start.down lines bytes, s.stop.down lines bytes⟩

def Located.down {α : Type} (lines bytes : Nat) (x : Located α) : Located α :=
  ⟨x.node, x.span.down lines bytes⟩

def LexError.down (lines bytes : Nat) (e : LexError) : LexError :=
  ⟨e.fault, e.span.down lines bytes⟩

namespace Pos

variable {lines bytes : Nat}

theorem advance_down (p : Pos) (c : Char) :
    (p.down lines bytes).advance c = (p.advance c).down lines bytes := by
  unfold advance down
  split
  · simp only [Nat.add_right_comm]
  · simp only [Nat.add_right_comm]

theorem advanceOver_down (p : Pos) (cs : List Char) :
    (p.down lines bytes).advanceOver cs = (p.advanceOver cs).down lines bytes := by
  induction cs generalizing p with
  | nil => rfl
  | cons c cs ih => rw [advanceOver_cons, advanceOver_cons, advance_down, ih]

/-- What follows a line break starts in the first column. -/
theorem advance_endOf_newline (cs : List Char) :
    (endOf cs).advance '\n' = (default : Pos).down (cs.count '\n' + 1) (byteSize cs + 1) := by
  have hline : (default : Pos).line + (cs.count '\n' + 1) = cs.count '\n' + 1 := Nat.zero_add _
  have hoffset : (default : Pos).offset + (byteSize cs + 1) = byteSize cs + 1 := Nat.zero_add _
  rw [down, hline, hoffset]
  rfl

end Pos

namespace Lexer

variable {d : Dialect} {p : Pos} {cs : List Char} {tokens : List (Located Token)}
  {errors : List LexError}

theorem Lexeme.errors_down {lines bytes : Nat} (l : Lexeme) :
    l.errors (p.down lines bytes) = (l.errors p).map (·.down lines bytes) := by
  simp [errors, LexError.down, Span.down, Pos.advanceOver_down]

/-- Tokens and errors move with the place that a text starts at. -/
theorem Pieces.down (h : Pieces d p cs tokens errors) (lines bytes : Nat) :
    Pieces d (p.down lines bytes) cs (tokens.map (·.down lines bytes))
      (errors.map (·.down lines bytes)) := by
  induction h with
  | done p => exact .done _
  | blank hc _ ih =>
    rw [← Pos.advance_down] at ih
    exact .blank hc ih
  | stray hc hnone _ ih =>
    rw [← Pos.advance_down] at ih
    have hpieces := Pieces.stray hc hnone ih
    rw [Pos.advance_down] at hpieces
    exact hpieces
  | lexeme hblank hl _ ih =>
    rw [← Pos.advanceOver_down] at ih
    have hpieces := Pieces.lexeme hblank hl ih
    rw [Pos.advanceOver_down, Lexeme.errors_down, ← List.map_append] at hpieces
    exact hpieces

end Lexer

/-! ### The seam -/

theorem byteSize_toList (s : String) : Pos.byteSize s.toList = s.utf8ByteSize := by
  rw [Pos.byteSize_eq_utf8Len, ← String.utf8ByteSize_ofList, String.ofList_toList]

/-- At a line break after a text without errors, reading is compositional: what follows is read as
on its own, with its places moved down by the lines and bytes before it. -/
theorem tokenize_append_newline (d : Dialect) (s t : String) (h : (tokenize s d).2 = []) :
    tokenize (s ++ "\n" ++ t) d =
      ((tokenize s d).1 ++ (tokenize t d).1.map
          (·.down (s.toList.count '\n' + 1) (s.utf8ByteSize + 1)),
        (tokenize t d).2.map (·.down (s.toList.count '\n' + 1) (s.utf8ByteSize + 1))) := by
  have hs := Lexer.pieces_tokenizeFrom d default s.toList
  have ht := (Lexer.pieces_tokenizeFrom d default t.toList).down (s.toList.count '\n' + 1)
    (s.utf8ByteSize + 1)
  rw [← byteSize_toList, ← Pos.advance_endOf_newline, ← Pos.advanceOver_eq_endOf] at ht
  have hwhole := hs.append h (Lexer.stops_cons.2 (by decide)) (.blank (by decide) ht)
  rw [byteSize_toList] at hwhole
  have htext : (s ++ "\n" ++ t).toList = s.toList ++ '\n' :: t.toList := by simp
  rw [tokenize, htext]
  exact hwhole.eq

/-- A label that runs across lines and a comment, before a text with two errors. -/
theorem tokenize_append_newline_malformed :
    (tokenize "::\ndone :: -- [=" .glua).2 = [] ∧
      tokenize ("::\ndone :: -- [=" ++ "\n" ++ "[ 3..4 ::") .glua =
        ((tokenize "::\ndone :: -- [=" .glua).1 ++ (tokenize "[ 3..4 ::" .glua).1.map (·.down 2 17),
          (tokenize "[ 3..4 ::" .glua).2.map (·.down 2 17)) ∧
      (tokenize "[ 3..4 ::" .glua).2.length = 2 := by
  have h : (tokenize "::\ndone :: -- [=" .glua).2 = [] :=
    List.length_eq_zero_iff.1 (by decide +kernel)
  exact ⟨h, tokenize_append_newline .glua _ "[ 3..4 ::" h, by decide +kernel⟩

end LuaSyntax
