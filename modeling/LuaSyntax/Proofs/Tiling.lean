import LuaSyntax.Proofs.Lexer.Order
import LuaSyntax.Proofs.Lexer.Pieces
/-!
# How tokens and errors cover a text

Tokens stand one after another in the text, and between them are only blank characters and those
that start no token. Each of the latter is reported, once and where it stands. A lexer that is asked
for token after token gives the same tokens, and stays at the end of the text once it is there.
-/

namespace LuaSyntax

/-- The error reports the character at the offset as one that starts no token. -/
def LexError.isStrayAt (offset : Nat) (e : LexError) : Bool :=
  e.fault.isStray && decide (e.span.Holds offset)

namespace Lexer

variable {d : Dialect} {p : Pos} {c : Char} {cs before after : List Char}
  {tokens : List (Located Token)} {errors : List LexError}

/-! ### Characters that start no token -/

/-- Neither a token nor an error covers what is before the text. -/
theorem Pieces.nothing_before (h : Pieces d p cs tokens errors) {offset : Nat}
    (hoffset : offset < p.offset) :
    (∀ t ∈ tokens, ¬t.span.Holds offset) ∧ errors.filter (·.isStrayAt offset) = [] := by
  constructor
  · intro t ht hholds
    have hle := (h.standsIn t ht).isSlice.offset_le
    exact absurd hholds.1 (by omega)
  · rw [List.filter_eq_nil_iff]
    intro e he hstray
    have hle := (h.isSlice_errors e he).offset_le
    exact absurd (of_decide_eq_true (Bool.and_eq_true_iff.1 hstray).2).1 (by omega)

theorem Lexeme.filter_isStrayAt {l : Lexeme} (h : first? d cs = some l) (offset : Nat) :
    (l.errors p).filter (·.isStrayAt offset) = [] := by
  rw [List.filter_eq_nil_iff]
  intro e he
  obtain ⟨fault, hfault, rfl⟩ := List.mem_map.1 he
  simp [LexError.isStrayAt, isStray_of_mem_faults h fault hfault]

/-- The errors that report a character of the text as one that starts no token: none if it is blank
or in a token, and else one. -/
theorem Pieces.filter_isStrayAt (h : Pieces d p cs tokens errors)
    (hcs : cs = before ++ c :: after) :
    errors.filter (·.isStrayAt (p.offset + Pos.byteSize before)) =
      if Text.isBlank c = true ∨ ∃ t ∈ tokens, t.span.Holds (p.offset + Pos.byteSize before) then []
      else [⟨.unrecognizedChar c, ⟨p.advanceOver before, p.advanceOver (before ++ [c])⟩⟩] := by
  induction h generalizing before with
  | done p => exact absurd hcs (by simp)
  | @blank p b cs tokens errors hb rest ih =>
    rcases List.cons_eq_append_iff.1 hcs with ⟨rfl, hc⟩ | ⟨before, rfl, hrest⟩
    · obtain ⟨rfl, -⟩ := List.cons.inj hc
      rw [if_pos (.inl hb)]
      exact (rest.nothing_before (p.offset_lt_advance c)).2
    · rw [Pos.byteSize, ← Nat.add_assoc, ← Pos.offset_advance]
      exact ih hrest
  | @stray p b cs tokens errors hb hnone rest ih =>
    have hlt := p.offset_lt_advance b
    rcases List.cons_eq_append_iff.1 hcs with ⟨rfl, hc⟩ | ⟨before, rfl, hrest⟩
    · obtain ⟨rfl, -⟩ := List.cons.inj hc
      obtain ⟨htokens, herrors⟩ := rest.nothing_before hlt
      have hnot : ¬(Text.isBlank c = true ∨ ∃ t ∈ tokens, t.span.Holds p.offset) := by
        rintro (hblank | ⟨t, ht, hholds⟩)
        · rw [hb] at hblank
          cases hblank
        · exact htokens t ht hholds
      have hhere : (LexError.mk (.unrecognizedChar c) ⟨p, p.advance c⟩).isStrayAt p.offset :=
        decide_eq_true ⟨Nat.le_refl _, hlt⟩
      rw [Pos.byteSize, Nat.add_zero, if_neg hnot, List.filter_cons_of_pos hhere, herrors]
      rfl
    · rw [Pos.byteSize, ← Nat.add_assoc, ← Pos.offset_advance, List.filter_cons_of_neg]
      · exact ih hrest
      · have hend : ¬Span.Holds ⟨p, p.advance b⟩ ((p.advance b).offset + Pos.byteSize before) :=
          fun h => absurd h.2 (by dsimp only; omega)
        simp [LexError.isStrayAt, hend]
  | @lexeme p l cs tokens errors hblank hl rest ih =>
    have hsize := p.offset_advanceOver l.chars
    rw [List.filter_append, Lexeme.filter_isStrayAt hl, List.nil_append]
    -- the character is after the lexeme or in it
    have hcase : (∃ others, before = l.chars ++ others ∧ cs = others ++ c :: after) ∨
        ∃ others, l.chars = before ++ c :: others := by
      rcases List.append_eq_append_iff.1 hcs with h | ⟨others, hchars, hrest⟩
      · exact .inl h
      · cases others with
        | nil => exact .inl ⟨[], by simpa using hchars.symm, hrest.symm⟩
        | cons c' others =>
          obtain ⟨rfl, -⟩ := List.cons.inj hrest
          exact .inr ⟨others, hchars⟩
    rcases hcase with ⟨others, rfl, hrest⟩ | ⟨others, hchars⟩
    · have hend : ¬Span.Holds ⟨p, p.advanceOver l.chars⟩
          ((p.advanceOver l.chars).offset + Pos.byteSize others) :=
        fun h => absurd h.2 (by dsimp only; omega)
      rw [Pos.byteSize_append, ← Nat.add_assoc, ← hsize, ih hrest, List.append_assoc,
        Pos.advanceOver_append, Pos.advanceOver_append p]
      simp [hend]
    · have hin : p.offset + Pos.byteSize before < (p.advanceOver l.chars).offset := by
        have hc := Char.utf8Size_pos c
        rw [hsize, hchars, Pos.byteSize_append, Pos.byteSize]
        omega
      rw [if_pos (.inr ⟨_, List.mem_cons_self, Nat.le_add_right _ _, hin⟩)]
      exact (rest.nothing_before hin).2

/-! ### Token after token -/

/-- The lexer after it was asked `n` times for a token. -/
def steps : Nat → Lexer → Lexer
  | 0, l => l
  | n + 1, l => steps n l.next.2

theorem rest_read_of_none (h : (read d p cs).token = none) : (read d p cs).rest = [] := by
  fun_induction read d p cs with
  | case1 p => rfl
  | case2 p c cs _ ih => exact ih h
  | case3 p c cs _ l hl stop => cases h
  | case4 p c cs _ _ next ih => exact ih h

/-- Asked again and again, a lexer gives the tokens of its text, and then none. It is then at the
end of the text and has found all errors. -/
theorem next_steps (n : Nat) (d : Dialect) (p : Pos) (cs : List Char) (found : List LexError) :
    (steps n ⟨d, p, cs, found⟩).next.1 = (tokenizeFrom d p cs).1[n]? ∧
      ((tokenizeFrom d p cs).1.length ≤ n →
        (steps n ⟨d, p, cs, found⟩).next.2 =
          ⟨d, p.advanceOver cs, [], found ++ (tokenizeFrom d p cs).2⟩) := by
  induction n generalizing p cs found with
  | zero =>
    have hpos := pos_read d p cs
    rw [tokenizeFrom_eq]
    cases htoken : (read d p cs).token with
    | none =>
      have hrest := rest_read_of_none htoken
      rw [hrest, Pos.advanceOver_nil] at hpos
      refine ⟨htoken, fun _ => ?_⟩
      rw [steps, next, hrest, hpos]
    | some t => exact ⟨htoken, fun hlength => absurd hlength (by simp)⟩
  | succ n ih =>
    have hpos := pos_read d p cs
    have hstep : steps (n + 1) ⟨d, p, cs, found⟩ =
        steps n ⟨d, (read d p cs).pos, (read d p cs).rest, found ++ (read d p cs).errors⟩ := rfl
    obtain ⟨htoken, hend⟩ :=
      ih (read d p cs).pos (read d p cs).rest (found ++ (read d p cs).errors)
    rw [hpos, List.append_assoc] at hend
    rw [hstep, tokenizeFrom_eq d p cs]
    cases hread : (read d p cs).token with
    | none =>
      rw [rest_read_of_none hread, tokenizeFrom_nil] at htoken hend ⊢
      rw [List.append_nil] at hend
      exact ⟨htoken, fun _ => hend (Nat.zero_le n)⟩
    | some t => exact ⟨htoken, fun hlength => hend (Nat.le_of_succ_le_succ hlength)⟩

end Lexer

/-! ### The tiling -/

open Pos (byteSize endOf)

/-- The tokens and errors cover the text, each character once. -/
structure Tiled (cs : List Char) (tokens : List (Located Token)) (errors : List LexError) :
    Prop where
  nonempty : ∀ t ∈ tokens, t.span.start.offset < t.span.stop.offset
  disjoint : tokens.Pairwise fun t u => t.span.stop.offset ≤ u.span.start.offset
  /-- A character is blank, in a token, or reported, and reported only if it is nothing else. -/
  strays : ∀ before c after, cs = before ++ c :: after →
    errors.filter (·.isStrayAt (byteSize before)) =
      if Text.isBlank c = true ∨ ∃ t ∈ tokens, t.span.Holds (byteSize before) then []
      else [⟨.unrecognizedChar c, ⟨endOf before, endOf (before ++ [c])⟩⟩]
  /-- A token other than a label is written as the slice of the text that its span covers. -/
  slices : ∀ t ∈ tokens, ∃ before slice after, cs = before ++ slice ++ after ∧
    t.span = ⟨endOf before, endOf (before ++ slice)⟩ ∧
    ((∀ name, t.node ≠ .label name) → t.node.text.toList = slice)
  ordered : errors.Pairwise fun e f => e.span.start ≤ f.span.start
  places : (∀ t ∈ tokens, t.span.IsIn cs) ∧ ∀ e ∈ errors, e.span.IsIn cs

theorem tiled_of_pieces {d : Dialect} {cs : List Char} {tokens : List (Located Token)}
    {errors : List LexError} (h : Lexer.Pieces d default cs tokens errors) :
    Tiled cs tokens errors where
  nonempty := fun t ht => (h.standsIn t ht).offset_lt
  disjoint := h.disjoint
  strays := by
    intro before c after hcs
    have hfilter := h.filter_isStrayAt hcs
    have hzero : (default : Pos).offset = 0 := rfl
    rw [Pos.advanceOver_eq_endOf, Pos.advanceOver_eq_endOf] at hfilter
    simpa only [hzero, Nat.zero_add] using hfilter
  slices := by
    intro t ht
    obtain ⟨before, slice, after, hcs, -, hcovers, htext⟩ := h.standsIn t ht
    exact ⟨before, slice, after, hcs, Span.covers_default.1 hcovers, htext⟩
  ordered := h.ordered
  places := h.isIn

/-- The tokens and errors of a source tile it. A lexer gives just these tokens, one by one, and then
none: it is at the end of the source, has found just these errors, and stays so. -/
theorem tokenize_tiles (source : String) (d : Dialect) :
    Tiled source.toList (tokenize source d).1 (tokenize source d).2 ∧
      ∀ n, ((Lexer.ofSource source d).steps n).next.1 = (tokenize source d).1[n]? ∧
        ((tokenize source d).1.length ≤ n →
          ((Lexer.ofSource source d).steps n).next.2.pos = endOfSource source ∧
            ((Lexer.ofSource source d).steps n).next.2.errors = (tokenize source d).2) := by
  refine ⟨tiled_of_pieces (Lexer.pieces_tokenizeFrom d default source.toList), fun n => ?_⟩
  obtain ⟨htoken, hend⟩ := Lexer.next_steps n d default source.toList []
  rw [Pos.advanceOver_eq_endOf] at hend
  refine ⟨htoken, fun hlength => ?_⟩
  have hlexer : ((Lexer.ofSource source d).steps n).next.2 = _ := hend hlength
  rw [hlexer]
  exact ⟨rfl, rfl⟩

end LuaSyntax
