import LuaSyntax.Proofs.Places
import LuaSyntax.Proofs.Report.SourceLine
import LuaSyntax.Report.Excerpt
/-!
# What a report shows

The head of a report names the place where its span starts, by line and column. A mark on one line
is shown under that line, and its carets take the columns that the marked text takes above them. One
over several lines is shown by a few of them, however many there are.
-/

namespace LuaSyntax

namespace Report

open Pos

variable {done rest slice as bs cs : List Char} {l : SourceLine}

/-! ### The place -/

/-- The excerpt of a mark names the position at which the mark starts. -/
theorem excerpt_place (name : String) {source : String} {p : Pos} (hp : p.IsIn source.toList)
    (stop : Nat) (label : String) :
    ∃ width more, (excerpt name (sourceLines source) ⟨p.offset, stop, label⟩).lines =
      (blanks width ++ " ┌─ " ++ (name ++ ":" ++ p.text)) :: more := by
  obtain ⟨hnumber, hcolumn⟩ := lineAt_of_isIn hp
  simp only [excerpt, hnumber, hcolumn, Pos.text, String.append_assoc]
  split
  · exact ⟨_, _, rfl⟩
  · exact ⟨_, _, rfl⟩

/-! ### Carets -/

theorem flatMap_cellsFrom (c : Char) (offset column : Nat) (cs : List Char) :
    (cellsFrom offset column cs).flatMap (fun cell => List.replicate cell.width c) =
      List.replicate (widthFrom column cs) c := by
  induction cs generalizing offset column with
  | nil => rfl
  | cons a cs ih =>
    rw [cellsFrom, List.flatMap_cons, ih, widthFrom, List.replicate_append_replicate]

/-- What stands under a cell if carets run from `start` to `stop`. -/
def under (start stop : Nat) (cell : Cell) : List Char :=
  if max start cell.offset < min stop (cell.offset + cell.char.utf8Size) then
    List.replicate cell.width '^'
  else if cell.offset < stop then List.replicate cell.width ' '
  else []

/-- The place for a caret at the end of a line. -/
def endCell (l : SourceLine) : Cell := ⟨'\x00', byteSize l.shown, 1⟩

theorem carets_eq_flatMap (l : SourceLine) (start stop : Nat) :
    carets l start stop = String.ofList ((l.cells ++ [endCell l]).flatMap (under start stop)) :=
  rfl

theorem under_past {start stop : Nat} {cell : Cell} (h : stop ≤ cell.offset) :
    under start stop cell = [] := by
  rw [under, if_neg (by omega), if_neg (by omega)]

/-- Blanks stand under the text before the carets. -/
theorem flatMap_under_before {stop : Nat} (h : byteSize as ≤ stop) :
    (cellsFrom 0 0 as).flatMap (under (byteSize as) stop) =
      List.replicate (widthFrom 0 as) ' ' := by
  rw [← flatMap_cellsFrom ' ' 0 0 as]
  apply List.flatMap_congr
  intro cell hcell
  have hwithin := cellsFrom_within hcell
  have hpos := cell.char.utf8Size_pos
  rw [under, if_neg (by omega), if_pos (by omega)]

/-- Carets stand under a text if they start with it and reach into each of its characters. -/
theorem flatMap_under_marked {start stop column : Nat}
    (h : ∀ cell ∈ cellsFrom start column bs, cell.offset < stop) :
    (cellsFrom start column bs).flatMap (under start stop) =
      List.replicate (widthFrom column bs) '^' := by
  rw [← flatMap_cellsFrom '^' start column bs]
  apply List.flatMap_congr
  intro cell hcell
  have hwithin := cellsFrom_within hcell
  have hlt := h cell hcell
  have hpos := cell.char.utf8Size_pos
  rw [under, if_pos (by omega)]

/-- Nothing stands under the text after the carets. -/
theorem flatMap_under_after {start stop offset column : Nat} (h : stop ≤ offset) :
    (cellsFrom offset column cs).flatMap (under start stop) = [] := by
  rw [List.flatMap_eq_nil_iff]
  intro cell hcell
  exact under_past (Nat.le_trans h (cellsFrom_within hcell).1)

/-- Carets that reach into each character of a part of a line take its columns, after blanks for the
part before it. -/
theorem carets_eq {stop : Nat} (hshown : l.shown = as ++ bs ++ cs) (hstart : byteSize as ≤ stop)
    (hreach : ∀ cell ∈ cellsFrom (byteSize as) (widthFrom 0 as) bs, cell.offset < stop)
    (hstop : stop ≤ byteSize (as ++ bs)) :
    carets l (byteSize as) stop =
      blanks (widthFrom 0 as) ++ repeated (widthFrom (widthFrom 0 as) bs) '^' := by
  have hcells : l.cells = cellsFrom 0 0 as ++ cellsFrom (byteSize as) (widthFrom 0 as) bs ++
      cellsFrom (byteSize (as ++ bs)) (widthFrom 0 (as ++ bs)) cs := by
    rw [SourceLine.cells, hshown, cellsFrom_append, cellsFrom_append, Nat.zero_add, Nat.zero_add,
      Nat.zero_add, Nat.zero_add]
  have hend : stop ≤ (endCell l).offset := by
    change stop ≤ byteSize l.shown
    rw [hshown, byteSize_append]
    exact Nat.le_trans hstop (Nat.le_add_right _ _)
  rw [carets_eq_flatMap, hcells, List.flatMap_append, List.flatMap_append, List.flatMap_append,
    flatMap_under_before hstart, flatMap_under_marked hreach, flatMap_under_after hstop,
    List.flatMap_singleton, under_past hend, List.append_nil, List.append_nil, String.ofList_append]
  rfl

/-- A caret from the end of a line stands after it. -/
theorem carets_end (l : SourceLine) :
    carets l (byteSize l.shown) (byteSize l.shown + 1) =
      blanks (widthFrom 0 l.shown) ++ repeated 1 '^' := by
  have hcaret : under (byteSize l.shown) (byteSize l.shown + 1) (endCell l) = ['^'] := by
    have hsize : '\x00'.utf8Size = 1 := by decide
    have hlt : max (byteSize l.shown) (byteSize l.shown) <
        min (byteSize l.shown + 1) (byteSize l.shown + 1) := by omega
    rw [under, endCell, hsize, if_pos hlt]
    rfl
  rw [carets_eq_flatMap, SourceLine.cells, List.flatMap_append,
    flatMap_under_before (Nat.le_add_right _ 1), List.flatMap_singleton, hcaret,
    String.ofList_append]
  rfl

-- The tab takes four columns, and the wide character two.
example : carets ⟨1, 0, ['\t', '変', '1']⟩ 1 4 = "    ^^" := by decide +kernel

/-! ### A mark on one line -/

/-- A source line in three parts as they are drawn, with carets under the middle one. -/
def underlined (width number : Nat) (before marked after : List Char) (label : String) :
    List String :=
  [numbered width number ++ " " ++ String.ofList (before ++ marked ++ after),
    edge width ++ " " ++ (blanks (drawnWidth before) ++ repeated (drawnWidth marked) '^') ++
      attached label]

/-- A line in three parts of the source, whose tabs are expanded, with carets under the middle one.
-/
def underlinedIn (width number : Nat) (as bs cs : List Char) (label : String) : List String :=
  underlined width number (expandFrom 0 as) (expandFrom (widthFrom 0 as) bs)
    (expandFrom (widthFrom 0 (as ++ bs)) cs) label

theorem oneLine_eq (m : Mark) (width stop : Nat) (hshown : l.shown = as ++ bs ++ cs)
    (hstart : m.start - l.start = byteSize as)
    (hstop : max (m.stop - l.start) (m.start - l.start + 1) = stop)
    (hcarets : carets l (byteSize as) stop =
      blanks (widthFrom 0 as) ++ repeated (widthFrom (widthFrom 0 as) bs) '^') :
    oneLine width l m = underlinedIn width l.number as bs cs m.label := by
  have htext : l.text = String.ofList (expandFrom 0 as ++ expandFrom (widthFrom 0 as) bs ++
      expandFrom (widthFrom 0 (as ++ bs)) cs) := by
    rw [SourceLine.text_eq, hshown, expandFrom_append, expandFrom_append, Nat.zero_add,
      Nat.zero_add]
  rw [oneLine, underlinedIn, underlined, htext, drawnWidth_expandFrom, drawnWidth_expandFrom,
    ← hcarets, ← hstop, ← hstart]

/-- A mark on a part of a line is shown by carets under this part. -/
theorem oneLine_part (width : Nat) (label : String) (hshown : l.shown = as ++ bs ++ cs)
    (hbs : bs ≠ []) :
    oneLine width l ⟨l.start + byteSize as, l.start + byteSize (as ++ bs), label⟩ =
      underlinedIn width l.number as bs cs label := by
  have hpos := byteSize_pos hbs
  have happend := byteSize_append as bs
  apply oneLine_eq _ width (byteSize (as ++ bs)) hshown (Nat.add_sub_cancel_left _ _)
  · dsimp only
    omega
  · apply carets_eq hshown (by omega) _ (Nat.le_refl _)
    intro cell hcell
    have hwithin := cellsFrom_within hcell
    have hsize := cell.char.utf8Size_pos
    omega

/-- An empty mark before a character is shown by carets under it. -/
theorem oneLine_point (width : Nat) (label : String) {c : Char}
    (hshown : l.shown = as ++ [c] ++ cs) :
    oneLine width l ⟨l.start + byteSize as, l.start + byteSize as, label⟩ =
      underlinedIn width l.number as [c] cs label := by
  apply oneLine_eq _ width (byteSize as + 1) hshown (Nat.add_sub_cancel_left _ _)
  · dsimp only
    omega
  · have hpos := c.utf8Size_pos
    apply carets_eq hshown (Nat.le_add_right _ _)
    · intro cell hcell
      rw [List.mem_singleton.1 hcell]
      exact Nat.lt_succ_self _
    · rw [byteSize_append, byteSize, byteSize]
      omega

/-- A mark at the end of a line is shown by a caret after the line. -/
theorem oneLine_end (width : Nat) (label : String) (l : SourceLine) :
    oneLine width l ⟨l.start + byteSize l.shown, l.start + byteSize l.shown, label⟩ =
      [numbered width l.number ++ " " ++ l.text,
        edge width ++ " " ++ (blanks (widthFrom 0 l.shown) ++ repeated 1 '^') ++
          attached label] := by
  have hstop : max (byteSize l.shown) (byteSize l.shown + 1) = byteSize l.shown + 1 :=
    Nat.max_eq_right (Nat.le_add_right _ 1)
  simp only [oneLine, Nat.add_sub_cancel_left, hstop, carets_end]

/-! ### A mark over several lines -/

theorem foldl_width (offset column total : Nat) (cs : List Char) :
    (cellsFrom offset column cs).foldl (fun n cell => n + cell.width) total =
      total + widthFrom column cs := by
  induction cs generalizing offset column total with
  | nil => rfl
  | cons c cs ih => rw [cellsFrom, List.foldl_cons, ih, widthFrom, Nat.add_assoc]

/-- The arm of a bracket takes the columns of the part of the line that it leads under. -/
theorem arm_eq (hshown : l.shown = as ++ bs) :
    arm l (byteSize as) = repeated (widthFrom 0 as) '─' ++ "^" := by
  have has : ∀ cell ∈ cellsFrom 0 0 as, decide (cell.offset < byteSize as) = true := by
    intro cell hcell
    have hwithin := cellsFrom_within hcell
    have hpos := cell.char.utf8Size_pos
    exact decide_eq_true (by omega)
  have hnext : ∀ cell : Cell, cell.offset = 0 + byteSize as →
      ¬decide (cell.offset < byteSize as) = true := by
    intro cell hcell
    rw [decide_eq_true_eq]
    omega
  rw [arm, SourceLine.cells, hshown, takeWhile_cellsFrom has hnext, foldl_width, Nat.zero_add]

/-- Of the lines inside a mark, only a few are shown. -/
theorem length_innerLines_le (width : Nat) (inner : List SourceLine) :
    (innerLines width inner).length ≤ linesAfterFirst + 1 + linesBeforeLast := by
  simp only [innerLines]
  split
  · next h =>
    rw [List.length_drop] at h
    rw [List.length_map]
    unfold linesAfterFirst linesBeforeLast at *
    omega
  · next h =>
    simp only [List.length_append, List.length_map, List.length_take, List.length_drop,
      List.length_singleton] at h ⊢
    omega

theorem length_outerLines_le (width : Nat) (outer : List SourceLine) :
    (outerLines width outer).length ≤ 1 := by
  unfold outerLines
  split
  · next h => rwa [List.length_map]
  · exact Nat.le_refl 1

theorem length_openingLines_le (width : Nat) (l : SourceLine) (m : Mark) :
    (openingLines width l m).length ≤ 2 := by
  unfold openingLines
  split
  · exact Nat.le_succ 1
  · exact Nat.le_refl 2

theorem length_severalLines_le (width : Nat) (source : List SourceLine) (first last : SourceLine)
    (m : Mark) : (severalLines width source first last m).length ≤ 9 := by
  have hopening := length_openingLines_le width first m
  have hclosing : (closingLines width last m).length = 2 := rfl
  have hinner : (innerLines width (linesBetween source first last)).length ≤ 5 :=
    length_innerLines_le _ _
  have houter := length_outerLines_le width (linesBetween source last first)
  unfold severalLines
  split
  · rw [List.length_append, List.length_append]
    omega
  · rw [List.length_append, List.length_append]
    omega

/-- However long a mark is, its excerpt is short. -/
theorem length_excerpt_le (name : String) (source : List SourceLine) (m : Mark) :
    (excerpt name source m).lines.length ≤ 11 := by
  simp only [excerpt]
  split
  · change 4 ≤ 11
    omega
  · exact Nat.add_le_add_right (length_severalLines_le _ source _ _ m) 2

/-! ### Reports -/

/-- Carets under the text `slice`, which stands after `done`, show the span: it covers this text, or
it is empty and stands before this one character. -/
def Marked (done slice : List Char) (s : Span) : Prop :=
  s.Covers default done slice ∨ s.Covers default done [] ∧ ∃ c, slice = [c]

theorem Marked.start_eq {s : Span} (h : Marked done slice s) : s.start = endOf done := by
  rcases h with h | ⟨h, -⟩
  all_goals
    rw [Span.covers_default] at h
    rw [h]

/-- The span ends where the text does, or where it starts. -/
theorem Marked.stop_cases {s : Span} (h : Marked done slice s) :
    s.stop.offset = byteSize (done ++ slice) ∨
      s.stop.offset = byteSize done ∧ ∃ c, slice = [c] := by
  rcases h with h | ⟨h, hslice⟩
  all_goals rw [Span.covers_default] at h
  · left
    rw [h]
    rfl
  · right
    rw [h, List.append_nil]
    exact ⟨rfl, hslice⟩

/-- The line shows the text `slice`, which stands after `done`, between `lead` and `trail`. -/
structure SourceLine.Shows (l : SourceLine) (source : String) (done slice lead trail : List Char) :
    Prop where
  lineAt_start : lineAt (sourceLines source) (byteSize done) = l
  lineAt_stop : lineAt (sourceLines source) (byteSize (done ++ slice)) = l
  shown : l.shown = lead ++ slice ++ trail
  start_eq : byteSize done = l.start + byteSize lead
  lead_suffix : lead <:+ done
  length_lead : lead.length = (endOf done).column

theorem exists_shows {source : String} {body : List Char} {c : Char}
    (hsource : source.toList = done ++ slice ++ rest) (hbreak : '\n' ∉ slice)
    (hslice : slice = body ++ [c]) (hc : c ∉ ['\n', '\r', '\x00']) :
    ∃ l lead trail, SourceLine.Shows l source done slice lead trail ∧ trail <+: rest := by
  rw [List.append_assoc] at hsource
  obtain ⟨before, lead, first, more, hcut⟩ := exists_cutAt done (slice ++ rest)
  obtain ⟨tail, rfl, halong⟩ := hcut.along hbreak
  let l : SourceLine := ⟨before.length + 1, byteSize before.flatten, lead ++ slice ++ tail⟩
  have hchars : l.chars = lead ++ body ++ [c] ++ tail := by
    rw [List.append_assoc lead, ← hslice]
  obtain ⟨trail, htrail, hshown⟩ := SourceLine.shown_eq hchars hc
  rw [List.append_assoc lead, ← hslice] at hshown
  refine ⟨l, lead, trail, ⟨?_, ?_, hshown, ?_, ⟨before.flatten, hcut.done_eq.symm⟩, ?_⟩, ?_⟩
  · rw [sourceLines, hsource, hcut.lineAt_eq, ← List.append_assoc]
  · rw [sourceLines, hsource, ← List.append_assoc, halong.lineAt_eq]
  · rw [hcut.done_eq, byteSize_append]
  · rw [hcut.endOf_done]
  · exact htrail.trans ⟨more.flatten, halong.rest_eq.symm⟩

section

variable {source : String} {lead trail : List Char} {span : Span}

theorem SourceLine.Shows.lineAt_of_marked (h : l.Shows source done slice lead trail)
    (hspan : Marked done slice span) : lineAt (sourceLines source) span.stop.offset = l := by
  rcases hspan.stop_cases with hstop | ⟨hstop, -⟩
  · rw [hstop, h.lineAt_stop]
  · rw [hstop, h.lineAt_start]

theorem SourceLine.Shows.oneLine_eq (h : l.Shows source done slice lead trail)
    (hspan : Marked done slice span) (hne : slice ≠ []) (width : Nat) (label : String) :
    oneLine width l ⟨span.start.offset, span.stop.offset, label⟩ =
      underlinedIn width l.number lead slice trail label := by
  have hshown := h.shown
  have hstart : span.start.offset = l.start + byteSize lead := by
    rw [hspan.start_eq]
    exact h.start_eq
  rcases hspan.stop_cases with hstop | ⟨hstop, c, rfl⟩
  · have hend : byteSize (done ++ slice) = l.start + byteSize (lead ++ slice) := by
      rw [byteSize_append, byteSize_append, h.start_eq, Nat.add_assoc]
    rw [hstart, hstop, hend]
    exact oneLine_part width label hshown hne
  · rw [hstart, hstop, h.start_eq]
    exact oneLine_point width label hshown

end

/-- A span on one line of the source is shown under that line, below the place where it starts. -/
theorem excerpt_part (name label : String) {source : String} {span : Span} {body : List Char}
    {c : Char} (hspan : Marked done slice span) (hsource : source.toList = done ++ slice ++ rest)
    (hbreak : '\n' ∉ slice) (hslice : slice = body ++ [c]) (hc : c ∉ ['\n', '\r', '\x00']) :
    ∃ lead trail, lead <:+ done ∧ lead.length = span.start.column ∧ trail <+: rest ∧
      let number := span.start.line + 1
      let width := (toString number).length
      (excerpt name (sourceLines source) ⟨span.start.offset, span.stop.offset, label⟩).lines =
        (blanks width ++ " ┌─ " ++ (name ++ ":" ++ span.start.text)) :: edge width ::
          underlinedIn width number lead slice trail label := by
  obtain ⟨l, lead, trail, hl, htrail⟩ := exists_shows hsource hbreak hslice hc
  have hne : slice ≠ [] := by
    rw [hslice]
    exact List.append_ne_nil_of_right_ne_nil _ (List.cons_ne_nil _ _)
  have hfirst : lineAt (sourceLines source) span.start.offset = l := by
    rw [hspan.start_eq]
    exact hl.lineAt_start
  have hin : span.start.IsIn source.toList :=
    ⟨done, slice ++ rest, by rw [hsource, List.append_assoc], hspan.start_eq⟩
  obtain ⟨hnumber, hcolumn⟩ := lineAt_of_isIn hin
  rw [hfirst] at hnumber hcolumn
  refine ⟨lead, trail, hl.lead_suffix, hspan.start_eq ▸ hl.length_lead, htrail, ?_⟩
  simp only [excerpt, hfirst, hl.lineAt_of_marked hspan, if_true, Nat.max_self, hcolumn,
    hl.oneLine_eq hspan hne, hnumber, Pos.text, String.append_assoc]

/-- A report always says something about the text that it marks. -/
theorem attached_label (d : Diagnostic) : attached d.label = " " ++ d.label := by
  have hne : d.label ≠ "" := by
    unfold Diagnostic.label
    split
    all_goals simp [← String.toList_inj]
  rw [attached, if_neg (by simpa using hne)]

theorem lines_report (name : String) (source : List SourceLine) (d : Diagnostic) :
    ∃ notes, lines name source d.report =
      (severityText d.severity ++ ": " ++ d.message) ::
        ((excerpt name source ⟨d.span.start.offset, d.span.stop.offset, d.label⟩).lines ++
          notes) := by
  refine ⟨(if d.report.notes.isEmpty then []
    else (excerpt name source ⟨d.span.start.offset, d.span.stop.offset, d.label⟩).beforeNotes) ++
      (d.report.notes.flatMap (noteText (excerpt name source
        ⟨d.span.start.offset, d.span.stop.offset, d.label⟩).width) ++ [""]), ?_⟩
  rw [← List.append_assoc, ← List.append_assoc]
  rfl

/-- A report is shown under its message, with the place where its span starts. -/
theorem lines_report_place (name : String) {source : String} {d : Diagnostic}
    (hd : d.span.IsIn source.toList) :
    ∃ width more, lines name (sourceLines source) d.report =
      (severityText d.severity ++ ": " ++ d.message) ::
        (blanks width ++ " ┌─ " ++ (name ++ ":" ++ d.span.start.text)) :: more := by
  obtain ⟨width, more, hplace⟩ := excerpt_place name hd.start d.span.stop.offset d.label
  obtain ⟨notes, hlines⟩ := lines_report name (sourceLines source) d
  refine ⟨width, more ++ notes, ?_⟩
  rw [hlines, hplace]
  rfl

-- A bracket that is missing at the end of the source.
example :
    let source := "x = f(1"
    let token := .symbol .closeParen
    let d : Diagnostic := ⟨.point (endOf source.toList), .unexpected none [.token token],
      .inserted token 2⟩
    lines "a.lua" (sourceLines source) d.report = [
      "error: unexpected end of input",
      "  ┌─ a.lua:1:8",
      "  │",
      "1 │ x = f(1",
      "  │        ^ inserted `)` here",
      "  │",
      "  = expected `)`",
      "  = repair cost 2",
      ""] := by decide +kernel

/-- A report on a part of one line is shown under its message, with the place where the part starts,
the line, carets under the part, and the label. -/
theorem lines_report_part (name : String) {source : String} {d : Diagnostic} {body : List Char}
    {c : Char} (hd : Marked done slice d.span) (hsource : source.toList = done ++ slice ++ rest)
    (hbreak : '\n' ∉ slice) (hslice : slice = body ++ [c]) (hc : c ∉ ['\n', '\r', '\x00']) :
    ∃ lead trail notes, lead <:+ done ∧ lead.length = d.span.start.column ∧ trail <+: rest ∧
      let number := d.span.start.line + 1
      let width := (toString number).length
      lines name (sourceLines source) d.report =
        (severityText d.severity ++ ": " ++ d.message) ::
          (blanks width ++ " ┌─ " ++ (name ++ ":" ++ d.span.start.text)) :: edge width ::
            (underlinedIn width number lead slice trail d.label ++ notes) := by
  obtain ⟨lead, trail, hlead, hcolumn, htrail, hpart⟩ :=
    excerpt_part name d.label hd hsource hbreak hslice hc
  obtain ⟨notes, hlines⟩ := lines_report name (sourceLines source) d
  refine ⟨lead, trail, notes, hlead, hcolumn, htrail, ?_⟩
  rw [hlines, hpart]
  rfl

end Report

/-- Each diagnostic of a source is shown with its severity, its message, and the line and the column
at which it stands. -/
theorem lines_parseWith (name source : String) (config : ParseConfig) :
    ∀ d ∈ (parseWith source config).2, ∃ width more,
      Report.lines name (Report.sourceLines source) d.report =
        (Report.severityText d.severity ++ ": " ++ d.message) ::
          (Report.blanks width ++ " ┌─ " ++ (name ++ ":" ++ d.span.start.text)) :: more :=
  fun _ hd => Report.lines_report_place name ((isIn_parseWith source config).2 _ hd)

end LuaSyntax
