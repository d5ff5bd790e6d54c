import LuaSyntax.Diagnostic.Report
import LuaSyntax.Report.SourceLine
/-!
# Reports beside their source

A report is shown with the source lines that it marks. A mark on one line has carets under it; one
over several lines has a bracket in the margin, and only its first and last lines are shown if there
are many. The lines are shown in the order of the source, also if a mark ends on a line before the
one that it starts on: then its bracket closes first and opens later.

```text
error: unexpected end of input
  ┌─ test.lua:1:15
  │
1 │ local x = f(1,
  │               ^ inserted `)` here
  │
  = expected `)`
  = repair cost 2
```
-/

namespace LuaSyntax.Report

/-- A marked part of a source, in bytes, and what is said about it. -/
structure Mark where
  start : Nat
  stop : Nat
  label : String
deriving Repr

/-- Of the lines inside a mark, those this near to its first line are shown. -/
def linesAfterFirst : Nat := 3

/-- Of the lines inside a mark, those this near to its last line are shown. -/
def linesBeforeLast : Nat := 1

def blanks (n : Nat) : String := String.ofList (List.replicate n ' ')

def repeated (n : Nat) (c : Char) : String := String.ofList (List.replicate n c)

/-- A label after what it is attached to. -/
def attached (label : String) : String :=
  if label.isEmpty then "" else " " ++ label

/-- A margin of `width` columns for line numbers, and the edge of the excerpt. -/
def edge (width : Nat) : String := blanks width ++ " │"

/-- The start of a line that shows the source line `number`. -/
def numbered (width number : Nat) : String :=
  let digits := toString number
  blanks (width - digits.length) ++ digits ++ " │"

/-- Carets under the characters from `start` to `stop`, given in bytes of the line, and blanks
before them. There is room for one more caret at the end of the line. -/
def carets (l : SourceLine) (start stop : Nat) : String :=
  let cells := l.cells ++ [⟨'\x00', Pos.byteSize l.shown, 1⟩]
  String.ofList <| cells.flatMap fun cell =>
    if max start cell.offset < min stop (cell.offset + cell.char.utf8Size) then
      List.replicate cell.width '^'
    else if cell.offset < stop then List.replicate cell.width ' '
    else []

/-- The lines for a mark on one source line. An empty mark covers one byte. -/
def oneLine (width : Nat) (l : SourceLine) (m : Mark) : List String :=
  let start := m.start - l.start
  let stop := max (m.stop - l.start) (start + 1)
  [numbered width l.number ++ " " ++ l.text,
    edge width ++ " " ++ carets l start stop ++ attached m.label]

/-- A bracket arm under the characters of a line that start before `stop`. -/
def arm (l : SourceLine) (stop : Nat) : String :=
  let columns := (l.cells.takeWhile (·.offset < stop)).foldl (fun n cell => n + cell.width) 0
  repeated columns '─' ++ "^"

/-- Whether a bracket can open beside the line, without an arm. -/
def opensBeside (l : SourceLine) (m : Mark) : Bool :=
  m.start - l.start ≤ l.indent

/-- A source line inside a bracket. -/
def innerLine (width : Nat) (l : SourceLine) : String :=
  numbered width l.number ++ " │ " ++ l.text

/-- A source line beside a bracket, or one whose bracket opens under it. -/
def outerLine (width : Nat) (l : SourceLine) : String :=
  numbered width l.number ++ "   " ++ l.text

def openingLines (width : Nat) (l : SourceLine) (m : Mark) : List String :=
  if opensBeside l m then [numbered width l.number ++ " ╭ " ++ l.text]
  else [outerLine width l, edge width ++ " ╭" ++ arm l (m.start - l.start + 1)]

def closingLines (width : Nat) (l : SourceLine) (m : Mark) : List String :=
  [innerLine width l,
    edge width ++ " ╰" ++ arm l (m.stop - l.start) ++ attached m.label]

/-- A line that stands for source lines left out. -/
def omission (width : Nat) : String := blanks width ++ " · │"

/-- The lines between the first and the last one of a mark. A gap of one line is filled; a longer
one is shown as a break. -/
def innerLines (width : Nat) (inner : List SourceLine) : List String :=
  let near := inner.take linesAfterFirst
  let others := inner.drop linesAfterFirst
  let gap := others.length - linesBeforeLast
  if gap ≤ 1 then inner.map (innerLine width)
  else near.map (innerLine width) ++ [omission width] ++ (others.drop gap).map (innerLine width)

/-- The lines between the last and the first one of a mark that runs backwards, which are outside
its bracket. A gap of one line is filled; a longer one is shown as a break. -/
def outerLines (width : Nat) (outer : List SourceLine) : List String :=
  if outer.length ≤ 1 then outer.map (outerLine width) else [omission width]

/-- The source lines that lie between two others. -/
def linesBetween (lines : List SourceLine) (before after : SourceLine) : List SourceLine :=
  lines.filter fun l => before.number < l.number && l.number < after.number

/-- The lines for a mark over several source lines. -/
def severalLines (width : Nat) (lines : List SourceLine) (first last : SourceLine) (m : Mark) :
    List String :=
  if first.number < last.number then
    openingLines width first m ++ innerLines width (linesBetween lines first last) ++
      closingLines width last m
  else
    closingLines width last m ++ outerLines width (linesBetween lines last first) ++
      openingLines width first m

/-- The lines of an excerpt, from the place that it shows to its last source line, and those before
the notes. -/
structure Excerpt where
  width : Nat
  lines : List String
  beforeNotes : List String

def excerpt (name : String) (lines : List SourceLine) (m : Mark) : Excerpt :=
  let first := lineAt lines m.start
  let last := lineAt lines m.stop
  let width := (toString (max first.number last.number)).length
  let place := name ++ ":" ++ toString first.number ++ ":" ++
    toString (first.column m.start + 1)
  let top := blanks width ++ " ┌─ " ++ place
  if first.number = last.number then
    ⟨width, top :: edge width :: oneLine width first m, [edge width]⟩
  else
    let gutter := edge width ++ "  "
    ⟨width, top :: gutter :: severalLines width lines first last m, [gutter]⟩

/-- The lines of a note, without the line breaks. A line break at the end starts no line. -/
def noteLines (note : String) : List String :=
  (splitLines note.toList).filterMap fun l =>
    match l.reverse with
    | [] => none
    | '\n' :: '\r' :: r => some (String.ofList r.reverse)
    | '\n' :: r => some (String.ofList r.reverse)
    | r => some (String.ofList r.reverse)

def noteText (width : Nat) (note : String) : List String :=
  match noteLines note with
  | [] => []
  | first :: others =>
    (blanks width ++ " = " ++ first) :: others.map (blanks width ++ "   " ++ ·)

def severityText : Severity → String
  | .warning => "warning"
  | .error => "error"

/-- The lines of a report, shown beside the source lines that it marks. -/
def lines (name : String) (source : List SourceLine) (r : Report) : List String :=
  let header := severityText r.severity ++ ": " ++ r.message
  match r.primary with
  | none => header :: r.notes.flatMap (noteText 0) ++ [""]
  | some (span, label) =>
    let e := excerpt name source ⟨span.start.offset, span.stop.offset, label⟩
    header :: e.lines ++ (if r.notes.isEmpty then [] else e.beforeNotes) ++
      r.notes.flatMap (noteText e.width) ++ [""]

/-- The text of reports on a source, which is shown under the given name. -/
def render (name source : String) (reports : List Report) : String :=
  let sourceLines := sourceLines source
  String.join ((reports.flatMap (lines name sourceLines)).map (· ++ "\n"))

end LuaSyntax.Report
