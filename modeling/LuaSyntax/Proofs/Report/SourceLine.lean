import LuaSyntax.Proofs.Source.Place
import LuaSyntax.Report.SourceLine
/-!
# Lines and columns

The lines of a source make up all of it, and each of them but the last ends with its only line
break. A position of the source lies on the line that it says, after as many characters as it says.
-/

namespace LuaSyntax.Report

open Pos

variable {as bs cs done rest pre first line : List Char} {lines before more : List (List Char)}

/-! ### Cutting a text into lines -/

/-- A line that its line break ends. -/
def Ended (line : List Char) : Prop := ∃ body, line = body ++ ['\n'] ∧ '\n' ∉ body

theorem exists_splitLines (cs : List Char) : ∃ line lines, splitLines cs = line :: lines := by
  induction cs with
  | nil => exact ⟨[], [], rfl⟩
  | cons c cs ih =>
    obtain ⟨line, lines, h⟩ := ih
    by_cases hc : c = '\n'
    · exact ⟨[c], splitLines cs, by rw [splitLines, if_pos hc]⟩
    · exact ⟨c :: line, lines, by rw [splitLines, if_neg hc, h]⟩

theorem splitLines_newline (cs : List Char) :
    splitLines ('\n' :: cs) = ['\n'] :: splitLines cs := by
  rw [splitLines, if_pos rfl]

theorem splitLines_cons {c : Char} (hc : c ≠ '\n') (h : splitLines cs = line :: lines) :
    splitLines (c :: cs) = (c :: line) :: lines := by
  rw [splitLines, if_neg hc, h]

/-- The lines of a text make up all of it. -/
theorem flatten_splitLines (cs : List Char) : (splitLines cs).flatten = cs := by
  induction cs with
  | nil => rfl
  | cons c cs ih =>
    by_cases hc : c = '\n'
    · rw [hc, splitLines_newline, List.flatten_cons, ih]
      rfl
    · obtain ⟨line, lines, h⟩ := exists_splitLines cs
      rw [h, List.flatten_cons] at ih
      rw [splitLines_cons hc h, List.flatten_cons, List.cons_append, ih]

/-- All lines but the last end with their only line break, and the last one has none. -/
theorem splitLines_spec (cs : List Char) : ∃ whole last, splitLines cs = whole ++ [last] ∧
    (∀ line ∈ whole, Ended line) ∧ '\n' ∉ last := by
  induction cs with
  | nil => exact ⟨[], [], rfl, List.forall_mem_nil _, List.not_mem_nil⟩
  | cons c cs ih =>
    obtain ⟨whole, last, h, hwhole, hlast⟩ := ih
    by_cases hc : c = '\n'
    · refine ⟨['\n'] :: whole, last, ?_, ?_, hlast⟩
      · rw [hc, splitLines_newline, h, List.cons_append]
      · exact List.forall_mem_cons.2 ⟨⟨[], rfl, List.not_mem_nil⟩, hwhole⟩
    · cases whole with
      | nil =>
        refine ⟨[], c :: last, splitLines_cons hc h, List.forall_mem_nil _, ?_⟩
        rw [List.mem_cons, not_or]
        exact ⟨Ne.symm hc, hlast⟩
      | cons line whole =>
        rw [List.forall_mem_cons] at hwhole
        obtain ⟨⟨body, hbody, hnone⟩, hwhole⟩ := hwhole
        refine ⟨(c :: line) :: whole, last, splitLines_cons hc h, ?_, hlast⟩
        refine List.forall_mem_cons.2 ⟨⟨c :: body, by rw [hbody]; rfl, ?_⟩, hwhole⟩
        rw [List.mem_cons, not_or]
        exact ⟨Ne.symm hc, hnone⟩

/-- The line in which a text is cut in two: the lines before it, its two parts, and the lines after
it. -/
structure CutAt (done rest : List Char) (before : List (List Char)) (pre first : List Char)
    (more : List (List Char)) : Prop where
  lines : splitLines (done ++ rest) = before ++ (pre ++ first) :: more
  done_eq : done = before.flatten ++ pre
  before_ended : ∀ line ∈ before, Ended line
  not_mem : '\n' ∉ pre
  /-- If the line is not the last one, its break is in what follows the cut. -/
  goesOn : more ≠ [] → Ended first

theorem exists_cutAt (done rest : List Char) :
    ∃ before pre first more, CutAt done rest before pre first more := by
  induction done with
  | nil =>
    obtain ⟨whole, last, h, hwhole, -⟩ := splitLines_spec rest
    cases whole with
    | nil => exact ⟨[], [], last, [], h, rfl, List.forall_mem_nil _, List.not_mem_nil, absurd rfl⟩
    | cons line whole =>
      exact ⟨[], [], line, whole ++ [last], h, rfl, List.forall_mem_nil _, List.not_mem_nil,
        fun _ => hwhole line List.mem_cons_self⟩
  | cons c done ih =>
    obtain ⟨before, pre, first, more, h⟩ := ih
    by_cases hc : c = '\n'
    · refine ⟨['\n'] :: before, pre, first, more, ?_, ?_, ?_, h.not_mem, h.goesOn⟩
      · rw [hc, List.cons_append, splitLines_newline, h.lines, List.cons_append]
      · rw [hc, List.flatten_cons, List.append_assoc, ← h.done_eq]
        rfl
      · exact List.forall_mem_cons.2 ⟨⟨[], rfl, List.not_mem_nil⟩, h.before_ended⟩
    · have hlines := h.lines
      have hdone := h.done_eq
      cases before with
      | nil =>
        refine ⟨[], c :: pre, first, more, splitLines_cons hc hlines, congrArg (c :: ·) hdone,
          List.forall_mem_nil _, ?_, h.goesOn⟩
        rw [List.mem_cons, not_or]
        exact ⟨Ne.symm hc, h.not_mem⟩
      | cons line before =>
        obtain ⟨⟨body, hbody, hnone⟩, hbefore⟩ := List.forall_mem_cons.1 h.before_ended
        refine ⟨(c :: line) :: before, pre, first, more, splitLines_cons hc hlines,
          congrArg (c :: ·) hdone, ?_, h.not_mem, h.goesOn⟩
        refine List.forall_mem_cons.2 ⟨⟨c :: body, by rw [hbody]; rfl, ?_⟩, hbefore⟩
        rw [List.mem_cons, not_or]
        exact ⟨Ne.symm hc, hnone⟩

theorem CutAt.rest_eq (h : CutAt done rest before pre first more) :
    rest = first ++ more.flatten := by
  have hflat := flatten_splitLines (done ++ rest)
  rw [h.lines, List.flatten_append, List.flatten_cons, List.append_assoc, ← List.append_assoc,
    ← h.done_eq] at hflat
  exact (List.append_cancel_left hflat).symm

/-- A text without a line break is read along the line that it starts on. -/
theorem CutAt.along {slice : List Char} (h : CutAt done (slice ++ rest) before pre first more)
    (hslice : '\n' ∉ slice) :
    ∃ trail, first = slice ++ trail ∧
      CutAt (done ++ slice) rest before (pre ++ slice) trail more := by
  have hrest := h.rest_eq
  have hdone : done ++ slice = before.flatten ++ (pre ++ slice) := by
    rw [h.done_eq, List.append_assoc]
  have hnone : '\n' ∉ pre ++ slice := by
    rw [List.mem_append, not_or]
    exact ⟨h.not_mem, hslice⟩
  -- It is enough to cut the rest of the line, with its break if it has one.
  suffices hcut : ∃ trail, first = slice ++ trail ∧ (more ≠ [] → Ended trail) by
    obtain ⟨trail, rfl, hends⟩ := hcut
    refine ⟨trail, rfl, ?_, hdone, h.before_ended, hnone, hends⟩
    rw [List.append_assoc, h.lines, List.append_assoc]
  by_cases hmore : more = []
  · refine ⟨rest, ?_, absurd hmore⟩
    rw [hrest, hmore, List.flatten_nil, List.append_nil]
  · obtain ⟨body, rfl, hbody⟩ := h.goesOn hmore
    rw [List.append_assoc] at hrest
    rcases List.append_eq_append_iff.1 hrest with ⟨trail, rfl, -⟩ | ⟨excess, rfl, hexcess⟩
    · refine ⟨trail ++ ['\n'], List.append_assoc _ _ _, fun _ => ⟨trail, rfl, ?_⟩⟩
      exact fun hmem => hbody (List.mem_append_right _ hmem)
    · cases excess with
      | nil =>
        refine ⟨['\n'], by rw [List.append_nil], fun _ => ⟨[], rfl, List.not_mem_nil⟩⟩
      | cons c excess =>
        obtain ⟨rfl, -⟩ := List.cons.inj hexcess
        exact absurd (List.mem_append_right _ List.mem_cons_self) hslice

/-! ### Positions -/

/-- Without a line break, a text leads along one line. -/
theorem advanceOver_of_not_mem (h : '\n' ∉ cs) (p : Pos) :
    p.advanceOver cs = ⟨p.line, p.column + cs.length, p.offset + byteSize cs⟩ := by
  induction cs generalizing p with
  | nil => rfl
  | cons c cs ih =>
    rw [List.mem_cons, not_or] at h
    have hc : p.advance c = ⟨p.line, p.column + 1, p.offset + c.utf8Size⟩ := if_neg (Ne.symm h.1)
    rw [advanceOver_cons, hc, ih h.2, List.length_cons, byteSize]
    dsimp only
    rw [Nat.add_right_comm, Nat.add_assoc, Nat.add_assoc]

/-- Whole lines lead to the start of the next one. -/
theorem endOf_flatten (h : ∀ line ∈ before, Ended line) :
    endOf before.flatten = ⟨before.length, 0, byteSize before.flatten⟩ := by
  have hany : ∀ line : Nat, ∀ offset : Nat, Pos.advanceOver ⟨line, 0, offset⟩ before.flatten =
      ⟨line + before.length, 0, offset + byteSize before.flatten⟩ := by
    induction before with
    | nil =>
      intro line offset
      rfl
    | cons first before ih =>
      intro line offset
      rw [List.forall_mem_cons] at h
      obtain ⟨⟨body, rfl, hbody⟩, hbefore⟩ := h
      have hbreak : Pos.advanceOver ⟨line, 0 + body.length, offset + byteSize body⟩ ['\n'] =
          ⟨line + 1, 0, offset + byteSize body + byteSize ['\n']⟩ := rfl
      rw [List.flatten_cons, advanceOver_append, advanceOver_append, advanceOver_of_not_mem hbody,
        hbreak, ih hbefore, byteSize_append, byteSize_append, List.length_cons]
      congr 1 <;> omega
  calc
    endOf before.flatten = Pos.advanceOver ⟨0, 0, 0⟩ before.flatten :=
      (advanceOver_eq_endOf _).symm
    _ = ⟨0 + before.length, 0, 0 + byteSize before.flatten⟩ := hany 0 0
    _ = ⟨before.length, 0, byteSize before.flatten⟩ := by rw [Nat.zero_add, Nat.zero_add]

theorem CutAt.endOf_done (h : CutAt done rest before pre first more) :
    endOf done = ⟨before.length, pre.length, byteSize before.flatten + byteSize pre⟩ := by
  rw [h.done_eq, endOf_append, endOf_flatten h.before_ended, advanceOver_of_not_mem h.not_mem,
    Nat.zero_add]

/-! ### The line of a position -/

theorem numberLines_append (number start : Nat) (before more : List (List Char)) :
    numberLines number start (before ++ more) = numberLines number start before ++
      numberLines (number + before.length) (start + byteSize before.flatten) more := by
  induction before generalizing number start with
  | nil => simp [numberLines, byteSize]
  | cons line before ih =>
    rw [List.cons_append, numberLines, numberLines, ih, List.cons_append, List.flatten_cons,
      byteSize_append, List.length_cons, Nat.add_assoc, Nat.add_assoc, Nat.add_comm 1]

theorem start_le_of_mem_numberLines {number start : Nat} {l : SourceLine}
    (h : l ∈ numberLines number start lines) : l.start ≤ start + byteSize lines.flatten := by
  induction lines generalizing number start with
  | nil => cases h
  | cons line lines ih =>
    rw [List.flatten_cons, byteSize_append]
    rcases List.mem_cons.1 h with rfl | h
    · exact Nat.le_add_right _ _
    · have hle := ih h
      omega

/-- The line in which the source is cut is the line of the offset there. -/
theorem CutAt.lineAt_eq (h : CutAt done rest before pre first more) :
    lineAt (numberLines 1 0 (splitLines (done ++ rest))) (byteSize done) =
      ⟨before.length + 1, byteSize before.flatten, pre ++ first⟩ := by
  have hsize : byteSize done = byteSize before.flatten + byteSize pre := by
    rw [h.done_eq, byteSize_append]
  have hbefore : ∀ l ∈ numberLines 1 0 before, decide (l.start ≤ byteSize done) = true := by
    intro l hl
    have hle := start_le_of_mem_numberLines hl
    exact decide_eq_true (by omega)
  -- The next line, if there is one, starts past the cut.
  have hmore : ∀ number, (numberLines number (byteSize before.flatten + byteSize (pre ++ first))
      more).takeWhile (fun l => decide (l.start ≤ byteSize done)) = [] := by
    intro number
    cases more with
    | nil => rfl
    | cons line more =>
      obtain ⟨body, hbody, -⟩ := h.goesOn (List.cons_ne_nil _ _)
      have hpos : 0 < byteSize first := by
        rw [hbody]
        exact byteSize_pos (List.append_ne_nil_of_right_ne_nil _ (List.cons_ne_nil _ _))
      have hlt : ¬ byteSize before.flatten + byteSize (pre ++ first) ≤ byteSize done := by
        rw [byteSize_append]
        omega
      rw [numberLines, List.takeWhile_cons_of_neg (by simpa using hlt)]
  have hline : decide (byteSize before.flatten ≤ byteSize done) = true :=
    decide_eq_true (by omega)
  rw [lineAt, h.lines, numberLines_append, List.takeWhile_append_of_pos hbefore, Nat.zero_add,
    numberLines, List.takeWhile_cons, if_pos hline, hmore,
    List.getLast?_append_of_ne_nil _ (List.cons_ne_nil _ _), Nat.add_comm 1]
  rfl

/-! ### Columns -/

/-- The columns that a text takes that starts at the given one. -/
def widthFrom (column : Nat) : List Char → Nat
  | [] => 0
  | c :: cs => cellWidth column c + widthFrom (column + cellWidth column c) cs

/-- No character takes more columns than a tab can. -/
theorem widthFrom_le (column : Nat) (cs : List Char) :
    widthFrom column cs ≤ tabWidth * cs.length := by
  induction cs generalizing column with
  | nil => exact Nat.zero_le _
  | cons c cs ih =>
    rw [widthFrom, List.length_cons, Nat.mul_add, Nat.mul_one, Nat.add_comm]
    exact Nat.add_le_add (ih _) (cellWidth_le column c)

/-- A text that starts at the given column, with its tabs expanded. -/
def expandFrom (column : Nat) : List Char → List Char
  | [] => []
  | c :: cs =>
    (if c = '\t' then List.replicate (cellWidth column c) ' ' else [c]) ++
      expandFrom (column + cellWidth column c) cs

theorem cellsFrom_append (offset column : Nat) (as bs : List Char) :
    cellsFrom offset column (as ++ bs) = cellsFrom offset column as ++
      cellsFrom (offset + byteSize as) (column + widthFrom column as) bs := by
  induction as generalizing offset column with
  | nil => rfl
  | cons a as ih =>
    rw [List.cons_append, cellsFrom, cellsFrom, ih, byteSize, widthFrom, Nat.add_assoc,
      Nat.add_assoc]
    rfl

theorem expandFrom_append (column : Nat) (as bs : List Char) :
    expandFrom column (as ++ bs) =
      expandFrom column as ++ expandFrom (column + widthFrom column as) bs := by
  induction as generalizing column with
  | nil => rfl
  | cons a as ih =>
    rw [List.cons_append, expandFrom, expandFrom, ih, widthFrom, List.append_assoc, Nat.add_assoc]

/-- What is shown of a line is its text with the tabs expanded. -/
theorem SourceLine.text_eq (l : SourceLine) : l.text = String.ofList (expandFrom 0 l.shown) := by
  have hcells : ∀ offset column cs, ((cellsFrom offset column cs).flatMap fun cell =>
      if cell.char = '\t' then List.replicate cell.width ' ' else [cell.char]) =
        expandFrom column cs := by
    intro offset column cs
    induction cs generalizing offset column with
    | nil => rfl
    | cons c cs ih => rw [cellsFrom, List.flatMap_cons, ih, expandFrom]
  rw [SourceLine.text, SourceLine.cells, hcells]

/-- A line is shown up to its last character that does not end lines, at least. -/
theorem SourceLine.shown_eq {l : SourceLine} {c : Char} {body tail : List Char}
    (hchars : l.chars = body ++ [c] ++ tail) (hc : c ∉ ['\n', '\r', '\x00']) :
    ∃ kept, kept <+: tail ∧ l.shown = body ++ [c] ++ kept := by
  let ends : Char → Bool := fun c => c == '\n' || c == '\r' || c == '\x00'
  have hstays : ¬ends c = true := by simpa [ends, and_assoc] using hc
  have hdrop : (tail.reverse ++ c :: body.reverse).dropWhile ends =
      tail.reverse.dropWhile ends ++ c :: body.reverse := by
    rw [List.dropWhile_append, List.dropWhile_cons_of_neg hstays]
    split
    · next hempty => rw [List.isEmpty_iff.1 hempty, List.nil_append]
    · rfl
  refine ⟨(tail.reverse.dropWhile ends).reverse, ?_, ?_⟩
  · have hsuffix := (tail.reverse.dropWhile_suffix ends).reverse
    rwa [List.reverse_reverse] at hsuffix
  · have hshown : l.shown = (l.chars.reverse.dropWhile ends).reverse := rfl
    rw [hshown, hchars, List.reverse_append, List.reverse_append, List.reverse_singleton,
      List.singleton_append, hdrop, List.reverse_append, List.reverse_cons, List.reverse_reverse]

/-- The columns that a text takes that has no tabs. -/
def drawnWidth : List Char → Nat
  | [] => 0
  | c :: cs => Text.displayWidth c + drawnWidth cs

theorem drawnWidth_append (as bs : List Char) :
    drawnWidth (as ++ bs) = drawnWidth as + drawnWidth bs := by
  induction as with
  | nil => exact (Nat.zero_add _).symm
  | cons a as ih => rw [List.cons_append, drawnWidth, drawnWidth, ih, Nat.add_assoc]

theorem drawnWidth_blanks (n : Nat) : drawnWidth (List.replicate n ' ') = n := by
  have hblank : Text.displayWidth ' ' = 1 := by decide
  induction n with
  | zero => rfl
  | succ n ih => rw [List.replicate_succ, drawnWidth, hblank, ih, Nat.add_comm]

/-- With its tabs expanded, a text takes the columns that its cells have. -/
theorem drawnWidth_expandFrom (column : Nat) (cs : List Char) :
    drawnWidth (expandFrom column cs) = widthFrom column cs := by
  induction cs generalizing column with
  | nil => rfl
  | cons c cs ih =>
    rw [expandFrom, drawnWidth_append, ih, widthFrom]
    by_cases hc : c = '\t'
    · rw [if_pos hc, drawnWidth_blanks]
    · rw [if_neg hc, drawnWidth, drawnWidth, cellWidth, if_neg hc, Nat.add_zero]

theorem length_cellsFrom (offset column : Nat) (cs : List Char) :
    (cellsFrom offset column cs).length = cs.length := by
  induction cs generalizing offset column with
  | nil => rfl
  | cons c cs ih => rw [cellsFrom, List.length_cons, ih, List.length_cons]

/-- The cells of a text lie within its bytes. -/
theorem cellsFrom_within {offset column : Nat} {cell : Cell}
    (h : cell ∈ cellsFrom offset column cs) :
    offset ≤ cell.offset ∧ cell.offset + cell.char.utf8Size ≤ offset + byteSize cs := by
  induction cs generalizing offset column with
  | nil => cases h
  | cons c cs ih =>
    rw [byteSize]
    rcases List.mem_cons.1 h with rfl | h
    · exact ⟨Nat.le_refl _, by dsimp only; omega⟩
    · obtain ⟨hle, hend⟩ := ih h
      omega

/-- The cells that a test accepts are those of a start of the text if it rejects the next offset. -/
theorem takeWhile_cellsFrom {test : Cell → Bool} {offset column : Nat}
    (has : ∀ cell ∈ cellsFrom offset column as, test cell = true)
    (hnext : ∀ cell : Cell, cell.offset = offset + byteSize as → ¬test cell = true) :
    (cellsFrom offset column (as ++ bs)).takeWhile test = cellsFrom offset column as := by
  rw [cellsFrom_append, List.takeWhile_append_of_pos has]
  cases bs with
  | nil => exact List.append_nil _
  | cons b bs => rw [cellsFrom, List.takeWhile_cons_of_neg (hnext _ rfl), List.append_nil]

theorem SourceLine.column_eq (number start : Nat) (pre first : List Char) :
    SourceLine.column ⟨number, start, pre ++ first⟩ (start + byteSize pre) = pre.length := by
  have hpre : ∀ cell ∈ cellsFrom start 0 pre,
      decide (cell.offset + cell.char.utf8Size ≤ start + byteSize pre) = true :=
    fun cell hcell => decide_eq_true (cellsFrom_within hcell).2
  have hnext : ∀ cell : Cell, cell.offset = start + byteSize pre →
      ¬decide (cell.offset + cell.char.utf8Size ≤ start + byteSize pre) = true := by
    intro cell hcell
    have hpos := cell.char.utf8Size_pos
    rw [decide_eq_true_eq]
    omega
  rw [SourceLine.column, takeWhile_cellsFrom hpre hnext, length_cellsFrom]

/-- A position of the source lies on the line that it says, after as many characters of the line as
it says. -/
theorem lineAt_of_isIn {source : String} {p : Pos} (h : p.IsIn source.toList) :
    (lineAt (sourceLines source) p.offset).number = p.line + 1 ∧
      (lineAt (sourceLines source) p.offset).column p.offset = p.column := by
  obtain ⟨done, rest, hsource, rfl⟩ := h
  obtain ⟨before, pre, first, more, hcut⟩ := exists_cutAt done rest
  have hline : lineAt (sourceLines source) (endOf done).offset =
      ⟨before.length + 1, byteSize before.flatten, pre ++ first⟩ := by
    rw [sourceLines, hsource]
    exact hcut.lineAt_eq
  rw [hline, hcut.endOf_done]
  exact ⟨rfl, SourceLine.column_eq _ _ pre first⟩

end LuaSyntax.Report
