import LuaSyntax.Source.Position
import LuaSyntax.Text.Blank
import LuaSyntax.Text.DisplayWidth
/-!
# Lines of a source text

The lines that a report shows, and the columns that their characters take.
-/

namespace LuaSyntax.Report

/-- A line of a source text, with its line break. -/
structure SourceLine where
  /-- Counted from one. -/
  number : Nat
  /-- The offset of its first byte. -/
  start : Nat
  chars : List Char
deriving Repr

/-- A character of a line as it is shown. -/
structure Cell where
  char : Char
  /-- The bytes of the line before it. -/
  offset : Nat
  /-- The columns that it takes. -/
  width : Nat
deriving Repr

/-- A tab goes on to the next column that is a multiple of this. -/
def tabWidth : Nat := 4

def cellWidth (column : Nat) (c : Char) : Nat :=
  if c = '\t' then tabWidth - column % tabWidth else Text.displayWidth c

/-- After a tab, the column is a multiple of the tab width. -/
theorem add_cellWidth_tab (column : Nat) : (column + cellWidth column '\t') % tabWidth = 0 := by
  rw [cellWidth, if_pos rfl]
  unfold tabWidth
  omega

theorem cellWidth_le (column : Nat) (c : Char) : cellWidth column c ≤ tabWidth := by
  unfold cellWidth
  split
  · exact Nat.sub_le _ _
  · exact Nat.le_trans (Text.displayWidth_le c) (Nat.le_succ 3)

/-- The cells of a text that starts at the given offset and column. -/
def cellsFrom (offset column : Nat) : List Char → List Cell
  | [] => []
  | c :: cs =>
    let width := cellWidth column c
    ⟨c, offset, width⟩ :: cellsFrom (offset + c.utf8Size) (column + width) cs

/-- A text cut after each line break. What follows the last one is a line too, even if it is empty.
-/
def splitLines : List Char → List (List Char)
  | [] => [[]]
  | c :: cs =>
    if c = '\n' then [c] :: splitLines cs
    else match splitLines cs with
      | line :: lines => (c :: line) :: lines
      | [] => [[c]]

def numberLines (number start : Nat) : List (List Char) → List SourceLine
  | [] => []
  | chars :: lines =>
    ⟨number, start, chars⟩ :: numberLines (number + 1) (start + Pos.byteSize chars) lines

def sourceLines (source : String) : List SourceLine :=
  numberLines 1 0 (splitLines source.toList)

namespace SourceLine

/-- The characters of the line without the line breaks and null characters at its end. -/
def shown (l : SourceLine) : List Char :=
  (l.chars.reverse.dropWhile fun c => c == '\n' || c == '\r' || c == '\x00').reverse

def cells (l : SourceLine) : List Cell :=
  cellsFrom 0 0 l.shown

/-- The line with its tabs expanded. -/
def text (l : SourceLine) : String :=
  String.ofList <| l.cells.flatMap fun cell =>
    if cell.char = '\t' then List.replicate cell.width ' ' else [cell.char]

/-- The number of characters that end at or before an offset of the source. -/
def column (l : SourceLine) (offset : Nat) : Nat :=
  ((cellsFrom l.start 0 l.chars).takeWhile fun cell =>
    cell.offset + cell.char.utf8Size ≤ offset).length

/-- The bytes of the blank characters at the start of the line. -/
def indent (l : SourceLine) : Nat :=
  Pos.byteSize (l.shown.takeWhile Text.isBlank)

end SourceLine

/-- The line that an offset lies in: the last one that starts at or before it. -/
def lineAt (lines : List SourceLine) (offset : Nat) : SourceLine :=
  ((lines.takeWhile (·.start ≤ offset)).getLast?).getD ⟨1, 0, []⟩

end LuaSyntax.Report
