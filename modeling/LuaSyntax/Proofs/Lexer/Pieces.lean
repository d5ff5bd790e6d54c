import LuaSyntax.Lexer.Tokenize
import LuaSyntax.Proofs.Source.Place
/-!
# The pieces of a text

A text is read piece by piece: blank characters, characters that start no token, and lexemes, each
piece from where the one before it ends.
-/

namespace LuaSyntax

/-- Whether the fault is that of a character that starts no token. -/
def LexFault.isStray : LexFault → Bool
  | unrecognizedChar _ => true
  | _ => false

namespace Lexer

variable {d : Dialect} {p : Pos} {c : Char} {cs : List Char} {l : Lexeme}
  {tokens : List (Located Token)} {errors : List LexError}

/-- The text that starts at `p` is made of pieces with these tokens and errors. -/
inductive Pieces (d : Dialect) : Pos → List Char → List (Located Token) → List LexError → Prop
  | done (p : Pos) : Pieces d p [] [] []
  | blank {p : Pos} {c : Char} {cs : List Char} {tokens : List (Located Token)}
      {errors : List LexError} (hc : Text.isBlank c = true)
      (rest : Pieces d (p.advance c) cs tokens errors) : Pieces d p (c :: cs) tokens errors
  | stray {p : Pos} {c : Char} {cs : List Char} {tokens : List (Located Token)}
      {errors : List LexError} (hc : Text.isBlank c = false)
      (hnone : Lexeme.first? d (c :: cs) = none)
      (rest : Pieces d (p.advance c) cs tokens errors) :
      Pieces d p (c :: cs) tokens (⟨.unrecognizedChar c, ⟨p, p.advance c⟩⟩ :: errors)
  | lexeme {p : Pos} {l : Lexeme} {cs : List Char} {tokens : List (Located Token)}
      {errors : List LexError} (hblank : ∀ c ∈ l.chars.head?, Text.isBlank c = false)
      (hl : Lexeme.first? d (l.chars ++ cs) = some l)
      (rest : Pieces d (p.advanceOver l.chars) cs tokens errors) :
      Pieces d p (l.chars ++ cs) (⟨l.token, ⟨p, p.advanceOver l.chars⟩⟩ :: tokens)
        (l.errors p ++ errors)

/-! ### Reading is reading piece by piece -/

theorem tokenizeFrom_eq (d : Dialect) (p : Pos) (cs : List Char) :
    tokenizeFrom d p cs =
      match (read d p cs).token with
      | none => ([], (read d p cs).errors)
      | some t =>
        let others := tokenizeFrom d (read d p cs).pos (read d p cs).rest
        (t :: others.1, (read d p cs).errors ++ others.2) := by
  rw [tokenizeFrom]
  split <;> next h => rw [h]

theorem tokenizeFrom_nil (d : Dialect) (p : Pos) : tokenizeFrom d p [] = ([], []) := by
  rw [tokenizeFrom_eq]
  rfl

theorem tokenizeFrom_blank (hc : Text.isBlank c = true) :
    tokenizeFrom d p (c :: cs) = tokenizeFrom d (p.advance c) cs := by
  have hread : read d p (c :: cs) = read d (p.advance c) cs := if_pos hc
  rw [tokenizeFrom_eq, hread, ← tokenizeFrom_eq]

theorem tokenizeFrom_stray (hc : Text.isBlank c = false)
    (hnone : Lexeme.first? d (c :: cs) = none) :
    tokenizeFrom d p (c :: cs) =
      ((tokenizeFrom d (p.advance c) cs).1,
        ⟨.unrecognizedChar c, ⟨p, p.advance c⟩⟩ :: (tokenizeFrom d (p.advance c) cs).2) := by
  have hread : read d p (c :: cs) =
      { read d (p.advance c) cs with
        errors := ⟨.unrecognizedChar c, ⟨p, p.advance c⟩⟩ ::
          (read d (p.advance c) cs).errors } := by
    rw [read, if_neg (by simp [hc]), hnone]
  rw [tokenizeFrom_eq, hread, tokenizeFrom_eq d (p.advance c) cs]
  dsimp only
  split <;> rfl

theorem tokenizeFrom_lexeme (hblank : ∀ c ∈ l.chars.head?, Text.isBlank c = false)
    (hl : Lexeme.first? d (l.chars ++ cs) = some l) :
    tokenizeFrom d p (l.chars ++ cs) =
      (⟨l.token, ⟨p, p.advanceOver l.chars⟩⟩ ::
          (tokenizeFrom d (p.advanceOver l.chars) cs).1,
        l.errors p ++ (tokenizeFrom d (p.advanceOver l.chars) cs).2) := by
  obtain ⟨c, rest, hchars⟩ := List.exists_cons_of_ne_nil l.chars_ne_nil
  have hread : read d p (l.chars ++ cs) =
      ⟨some ⟨l.token, ⟨p, p.advanceOver l.chars⟩⟩, l.errors p, p.advanceOver l.chars, cs⟩ := by
    have hdrop : (l.chars ++ cs).drop l.chars.length = cs := List.drop_left
    have hc : Text.isBlank c = false := hblank c (by simp [hchars])
    rw [hchars, List.cons_append] at hl hdrop ⊢
    rw [read, if_neg (by simp [hc]), hl]
    simp [hchars]
  rw [tokenizeFrom_eq, hread]

theorem Pieces.eq (h : Pieces d p cs tokens errors) : tokenizeFrom d p cs = (tokens, errors) := by
  induction h with
  | done p => exact tokenizeFrom_nil d p
  | blank hc _ ih => rw [tokenizeFrom_blank hc, ih]
  | stray hc hnone _ ih => rw [tokenizeFrom_stray hc hnone, ih]
  | lexeme hblank hl _ ih => rw [tokenizeFrom_lexeme hblank hl, ih]

theorem pieces_tokenizeFrom (d : Dialect) (p : Pos) (cs : List Char) :
    Pieces d p cs (tokenizeFrom d p cs).1 (tokenizeFrom d p cs).2 := by
  induction hn : cs.length using Nat.strongRecOn generalizing p cs with
  | ind n ih =>
    cases cs with
    | nil =>
      rw [tokenizeFrom_nil]
      exact .done p
    | cons c cs =>
      subst hn
      cases hc : Text.isBlank c with
      | true =>
        rw [tokenizeFrom_blank hc]
        exact .blank hc (ih _ (Nat.lt_succ_self _) _ cs rfl)
      | false =>
        cases hl : Lexeme.first? d (c :: cs) with
        | none =>
          rw [tokenizeFrom_stray hc hl]
          exact .stray hc hl (ih _ (Nat.lt_succ_self _) _ cs rfl)
        | some l =>
          obtain ⟨rest, hrest⟩ := Lexeme.first?_isPrefix hl
          have hpos := List.length_pos_iff.2 l.chars_ne_nil
          have hlength := congrArg List.length hrest
          rw [List.length_append] at hlength
          have hblank : ∀ a ∈ l.chars.head?, Text.isBlank a = false := by
            intro a ha
            have hhead := congrArg List.head? hrest
            rw [List.head?_append, ha] at hhead
            cases hhead
            exact hc
          rw [← hrest] at hl ⊢
          rw [tokenizeFrom_lexeme hblank hl]
          exact .lexeme hblank hl (ih _ (by omega) _ rest rfl)

/-! ### Lexemes -/

theorem Lexeme.isStray_of_unlessClosed {closed : Bool} {fault : LexFault}
    (hfault : fault.isStray = false) : ∀ f ∈ unlessClosed closed fault cs, f.1.isStray = false := by
  cases closed <;> simp [unlessClosed, hfault]

theorem Lexeme.isStray_of_mem_comment {kind : CommentKind} {closed : Bool} :
    ∀ f ∈ (comment kind c cs closed).faults, f.1.isStray = false :=
  isStray_of_unlessClosed rfl

/-- A lexeme has other faults than a character that starts no token. -/
theorem Lexeme.isStray_of_mem_faults (h : first? d cs = some l) :
    ∀ f ∈ l.faults, f.1.isStray = false := by
  revert h
  fun_cases first? d cs <;> intro h
  case case1 => cases h
  case case2 =>
    cases h
    unfold dashComment
    split <;> exact isStray_of_mem_comment
  case case3 =>
    cases h
    exact isStray_of_unlessClosed rfl
  case case4 =>
    cases h
    exact isStray_of_mem_comment
  case case5 =>
    cases h
    unfold slashBlockComment
    split <;> exact isStray_of_mem_comment
  case case6 =>
    cases h
    exact isStray_of_unlessClosed rfl
  case case7 c cs _ _ _ _ _ _ =>
    cases h
    intro f hf
    simp only [number, NumberParts.faults, List.mem_append] at hf
    rcases hf with hf | hf <;> split at hf <;> simp_all [LexFault.isStray]
  case case8 =>
    cases h
    exact nofun
  case case9 =>
    cases h
    exact isStray_of_unlessClosed rfl
  case case10 =>
    obtain ⟨s, -, rfl⟩ := Option.map_eq_some_iff.1 h
    exact nofun

/-- Other tokens than labels are written with the characters that they were read from. -/
theorem Lexeme.text_token (h : first? d cs = some l) (hlabel : ∀ name, l.token ≠ .label name) :
    l.token.text.toList = l.chars := by
  revert h
  fun_cases first? d cs <;> intro h
  case case1 => cases h
  case case2 =>
    cases h
    unfold dashComment
    split <;> exact String.toList_ofList
  case case3 =>
    cases h
    exact absurd rfl (hlabel _)
  case case4 =>
    cases h
    exact String.toList_ofList
  case case5 =>
    cases h
    unfold slashBlockComment
    split <;> exact String.toList_ofList
  case case6 =>
    cases h
    exact String.toList_ofList
  case case7 =>
    cases h
    exact String.toList_ofList
  case case8 c cs _ _ _ _ _ _ _ =>
    cases h
    unfold word
    dsimp only
    split
    · next k hk =>
      have hfound := List.find?_some hk
      rw [Bool.and_eq_true, beq_iff_eq] at hfound
      rw [Token.text, hfound.2, String.toList_ofList]
    · exact String.toList_ofList
  case case9 =>
    cases h
    exact String.toList_ofList
  case case10 =>
    obtain ⟨s, -, rfl⟩ := Option.map_eq_some_iff.1 h
    rfl

/-! ### Where the spans are -/

/-- The span covers a slice of the text, which starts at `p`. -/
def IsSlice (p : Pos) (cs : List Char) (s : Span) : Prop :=
  ∃ before slice after, cs = before ++ slice ++ after ∧ s.Covers p before slice

theorem IsSlice.notAfter {s : Span} (h : IsSlice p cs s) : p.NotAfter s.start := by
  obtain ⟨before, slice, after, -, rfl⟩ := h
  exact p.notAfter_advanceOver before

theorem IsSlice.offset_le {s : Span} (h : IsSlice p cs s) : p.offset ≤ s.start.offset := by
  obtain ⟨before, slice, after, -, rfl⟩ := h
  dsimp only
  rw [Pos.offset_advanceOver]
  exact Nat.le_add_right _ _

theorem IsSlice.after {s : Span} (chars : List Char) (h : IsSlice (p.advanceOver chars) cs s) :
    IsSlice p (chars ++ cs) s := by
  obtain ⟨before, slice, after, rfl, rfl⟩ := h
  exact ⟨chars ++ before, slice, after, by simp, by simp [Span.Covers]⟩

theorem IsSlice.isIn {s : Span} (h : IsSlice default cs s) : s.IsIn cs := by
  obtain ⟨before, slice, after, hcs, hcovers⟩ := h
  exact hcovers.isIn hcs

/-- The token stands in the text, which starts at `p`: its span covers some characters, and unless
it is a label it is written with just these. -/
def StandsIn (p : Pos) (cs : List Char) (t : Located Token) : Prop :=
  ∃ before slice after, cs = before ++ slice ++ after ∧ slice ≠ [] ∧ t.span.Covers p before slice ∧
    ((∀ name, t.node ≠ .label name) → t.node.text.toList = slice)

theorem StandsIn.isSlice {t : Located Token} (h : StandsIn p cs t) : IsSlice p cs t.span := by
  obtain ⟨before, slice, after, hcs, -, hcovers, -⟩ := h
  exact ⟨before, slice, after, hcs, hcovers⟩

theorem StandsIn.offset_lt {t : Located Token} (h : StandsIn p cs t) :
    t.span.start.offset < t.span.stop.offset := by
  obtain ⟨before, slice, after, -, hslice, hcovers, -⟩ := h
  have hpos := Pos.byteSize_pos hslice
  rw [hcovers]
  dsimp only
  rw [Pos.offset_advanceOver, Pos.offset_advanceOver, Pos.byteSize_append]
  omega

theorem StandsIn.after {t : Located Token} (chars : List Char)
    (h : StandsIn (p.advanceOver chars) cs t) : StandsIn p (chars ++ cs) t := by
  obtain ⟨before, slice, after, rfl, hslice, hcovers, htext⟩ := h
  refine ⟨chars ++ before, slice, after, by simp, hslice, ?_, htext⟩
  rw [hcovers]
  simp [Span.Covers]

theorem Lexeme.standsIn (h : first? d (l.chars ++ cs) = some l) :
    StandsIn p (l.chars ++ cs) ⟨l.token, ⟨p, p.advanceOver l.chars⟩⟩ :=
  ⟨[], l.chars, cs, rfl, l.chars_ne_nil, rfl, text_token h⟩

theorem Lexeme.start_of_mem_errors {e : LexError} (h : e ∈ l.errors p) : e.span.start = p := by
  obtain ⟨⟨fault, length⟩, -, rfl⟩ := List.mem_map.1 h
  rfl

theorem Lexeme.isSlice_of_mem_errors {e : LexError} (h : e ∈ l.errors p) :
    IsSlice p (l.chars ++ cs) e.span := by
  obtain ⟨⟨fault, length⟩, -, rfl⟩ := List.mem_map.1 h
  refine ⟨[], l.chars.take length, l.chars.drop length ++ cs, ?_, rfl⟩
  rw [List.nil_append, ← List.append_assoc, List.take_append_drop]

theorem Pieces.standsIn (h : Pieces d p cs tokens errors) : ∀ t ∈ tokens, StandsIn p cs t := by
  induction h with
  | done p => exact nofun
  | @blank p c cs tokens errors _ _ ih => exact fun t ht => (ih t ht).after [c]
  | @stray p c cs tokens errors _ _ _ ih => exact fun t ht => (ih t ht).after [c]
  | @lexeme p l cs tokens errors _ hl _ ih =>
    rw [List.forall_mem_cons]
    exact ⟨Lexeme.standsIn hl, fun t ht => (ih t ht).after l.chars⟩

theorem Pieces.isSlice_errors (h : Pieces d p cs tokens errors) :
    ∀ e ∈ errors, IsSlice p cs e.span := by
  induction h with
  | done p => exact nofun
  | @blank p c cs tokens errors _ _ ih => exact fun e he => (ih e he).after [c]
  | @stray p c cs tokens errors _ _ _ ih =>
    rw [List.forall_mem_cons]
    exact ⟨⟨[], [c], cs, rfl, rfl⟩, fun e he => (ih e he).after [c]⟩
  | @lexeme p l cs tokens errors _ _ _ ih =>
    intro e he
    rcases List.mem_append.1 he with he | he
    · exact Lexeme.isSlice_of_mem_errors he
    · exact (ih e he).after l.chars

theorem Pieces.isIn (h : Pieces d default cs tokens errors) :
    (∀ t ∈ tokens, t.span.IsIn cs) ∧ ∀ e ∈ errors, e.span.IsIn cs :=
  ⟨fun t ht => (h.standsIn t ht).isSlice.isIn, fun e he => (h.isSlice_errors e he).isIn⟩

theorem Pieces.disjoint (h : Pieces d p cs tokens errors) :
    tokens.Pairwise fun t u => t.span.stop.offset ≤ u.span.start.offset := by
  induction h with
  | done p => exact .nil
  | blank _ _ ih => exact ih
  | stray _ _ _ ih => exact ih
  | lexeme _ _ rest ih => exact .cons (fun u hu => (rest.standsIn u hu).isSlice.offset_le) ih

theorem Pieces.ordered (h : Pieces d p cs tokens errors) :
    errors.Pairwise fun e f => e.span.start ≤ f.span.start := by
  induction h with
  | done p => exact .nil
  | blank _ _ ih => exact ih
  | @stray p c cs tokens errors _ _ rest ih =>
    refine .cons (fun e he => ?_) ih
    exact (Pos.NotAfter.trans (.inr (p.before_advance c)) (rest.isSlice_errors e he).notAfter).le
  | @lexeme p l cs tokens errors _ _ rest ih =>
    refine List.pairwise_append.2 ⟨List.pairwise_of_forall_mem_list ?_, ih, ?_⟩
    · intro e he f hf
      rw [Lexeme.start_of_mem_errors he, Lexeme.start_of_mem_errors hf]
      exact p.le_refl
    · intro e he f hf
      rw [Lexeme.start_of_mem_errors he]
      exact (Pos.NotAfter.trans (p.notAfter_advanceOver l.chars)
        (rest.isSlice_errors f hf).notAfter).le

end Lexer

end LuaSyntax
