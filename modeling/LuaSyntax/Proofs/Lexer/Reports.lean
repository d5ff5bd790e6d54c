import LuaSyntax.Proofs.Lexer.First
import LuaSyntax.Proofs.Lexer.Pieces
/-!
# What is reported of a token

A token of a text is that of a lexeme, and the errors that start where the token does are just the
faults of this lexeme.
-/

namespace LuaSyntax

/-- The errors that start at the position. -/
def reportsAt (errors : List LexError) (p : Pos) : List LexError :=
  errors.filter fun e => e.span.start = p

theorem reportsAt_append (errors errors' : List LexError) (p : Pos) :
    reportsAt (errors ++ errors') p = reportsAt errors p ++ reportsAt errors' p :=
  List.filter_append errors errors'

theorem reportsAt_eq_self {errors : List LexError} {p : Pos}
    (h : ∀ e ∈ errors, e.span.start = p) : reportsAt errors p = errors :=
  List.filter_eq_self.2 fun e he => decide_eq_true (h e he)

theorem reportsAt_eq_nil {errors : List LexError} {p : Pos}
    (h : ∀ e ∈ errors, e.span.start ≠ p) : reportsAt errors p = [] :=
  List.filter_eq_nil_iff.2 fun e he hp => h e he (of_decide_eq_true hp)

namespace Lexer

variable {d : Dialect} {p : Pos} {cs : List Char} {l : Lexeme} {tokens : List (Located Token)}
  {errors : List LexError}

/-- The token is that of the lexeme `l`, which stands between `before` and `after` in a text with
these errors. -/
structure ReadFrom (d : Dialect) (p : Pos) (cs : List Char) (errors : List LexError)
    (t : Located Token) (l : Lexeme) (before after : List Char) : Prop where
  text : cs = before ++ (l.chars ++ after)
  first : Lexeme.first? d (l.chars ++ after) = some l
  token : t = ⟨l.token, ⟨p.advanceOver before, p.advanceOver (before ++ l.chars)⟩⟩
  reports : reportsAt errors t.span.start = l.errors t.span.start

namespace ReadFrom

variable {t : Located Token} {before after : List Char}

theorem offset_le (h : ReadFrom d p cs errors t l before after) :
    p.offset ≤ t.span.start.offset := by
  rw [h.token, Pos.offset_advanceOver]
  exact Nat.le_add_right _ _

/-- What comes before a text in a larger one changes nothing, if none of its errors starts where the
token does. -/
theorem after_start (start : List Char) (earlier : List LexError)
    (h : ReadFrom d (p.advanceOver start) cs errors t l before after)
    (hearlier : ∀ e ∈ earlier, e.span.start ≠ t.span.start) :
    ReadFrom d p (start ++ cs) (earlier ++ errors) t l (start ++ before) after where
  text := by rw [h.text, List.append_assoc]
  first := h.first
  token := by
    rw [h.token]
    simp
  reports := by
    rw [reportsAt_append, reportsAt_eq_nil hearlier, List.nil_append, h.reports]

end ReadFrom

theorem Pieces.exists_readFrom (h : Pieces d p cs tokens errors) :
    ∀ t ∈ tokens, ∃ l before after, ReadFrom d p cs errors t l before after := by
  induction h with
  | done p => exact nofun
  | @blank p c cs tokens errors _ _ ih =>
    intro t ht
    obtain ⟨l, before, after, h⟩ := ih t ht
    exact ⟨l, c :: before, after, h.after_start [c] [] nofun⟩
  | @stray p c cs tokens errors _ _ _ ih =>
    intro t ht
    obtain ⟨l, before, after, h⟩ := ih t ht
    refine ⟨l, c :: before, after, h.after_start [c] [_] ?_⟩
    rw [List.forall_mem_singleton]
    intro hstart
    have hle := h.offset_le
    rw [← hstart] at hle
    exact absurd hle (Nat.not_le.2 (p.offset_lt_advance c))
  | @lexeme p l cs tokens errors _ hl rest ih =>
    have hsize : p.offset < (p.advanceOver l.chars).offset := by
      have hpos := Pos.byteSize_pos l.chars_ne_nil
      rw [Pos.offset_advanceOver]
      omega
    rw [List.forall_mem_cons]
    constructor
    · refine ⟨l, [], cs, rfl, hl, rfl, ?_⟩
      have hhere : ∀ e ∈ l.errors p, e.span.start = p := fun e => Lexeme.start_of_mem_errors
      have hlater : ∀ e ∈ errors, e.span.start ≠ p := by
        rintro e he rfl
        exact absurd (rest.isSlice_errors e he).offset_le (Nat.not_le.2 hsize)
      rw [reportsAt_append, reportsAt_eq_self hhere, reportsAt_eq_nil hlater, List.append_nil]
    · intro t ht
      obtain ⟨m, before, after, h⟩ := ih t ht
      refine ⟨m, l.chars ++ before, after, h.after_start l.chars _ fun e he hstart => ?_⟩
      have hle := h.offset_le
      rw [← hstart, Lexeme.start_of_mem_errors he] at hle
      exact absurd hle (Nat.not_le.2 hsize)

/-- Each error is that of a character that starts no token, or starts where a token does. -/
theorem Pieces.exists_token_of_error (h : Pieces d p cs tokens errors) :
    ∀ e ∈ errors, e.fault.isStray = false → ∃ t ∈ tokens, t.span.start = e.span.start := by
  induction h with
  | done p => exact nofun
  | blank _ _ ih => exact ih
  | stray _ _ _ ih => exact List.forall_mem_cons.2 ⟨nofun, ih⟩
  | @lexeme p l cs tokens errors _ _ _ ih =>
    intro e he hstray
    rcases List.mem_append.1 he with he | he
    · exact ⟨_, List.mem_cons_self, (Lexeme.start_of_mem_errors he).symm⟩
    · obtain ⟨t, ht, hstart⟩ := ih e he hstray
      exact ⟨t, List.mem_cons_of_mem _ ht, hstart⟩

/-! ### Numbers and labels -/

namespace Lexeme

theorem fault_of_mem_unlessClosed {closed : Bool} {fault : LexFault} :
    ∀ f ∈ unlessClosed closed fault cs, f.1 = fault := by
  cases closed <;> simp [unlessClosed]

theorem exists_dashComment (cs : List Char) :
    ∃ kind body closed, dashComment cs = comment kind '-' ('-' :: body) closed := by
  unfold dashComment
  split <;> exact ⟨_, _, _, rfl⟩

theorem exists_slashBlockComment (cs : List Char) :
    ∃ body closed, slashBlockComment cs = comment .slashBlock '/' ('*' :: body) closed := by
  unfold slashBlockComment
  split <;> exact ⟨_, _, rfl⟩

/-- What the text and its first lexeme are if the token of the lexeme is this one. Any lexeme but a
number lacks the fault of numbers. -/
def Starts (cs : List Char) (l : Lexeme) : Token → Prop
  | .number _ => ∃ c rest, startsNumber c rest = true ∧ cs = c :: rest ∧ l = number c rest
  | .label _ => ∃ rest, cs = ':' :: ':' :: rest ∧ l = label rest
  | _ => ∀ f ∈ l.faults, f.1 ≠ .malformedNumber

theorem starts_of_first? (h : first? d cs = some l) : Starts cs l l.token := by
  have hother {closed : Bool} {fault : LexFault} {chars : List Char}
      (hfault : fault ≠ .malformedNumber) :
      ∀ f ∈ unlessClosed closed fault chars, f.1 ≠ .malformedNumber :=
    fun f hf => (fault_of_mem_unlessClosed f hf).trans_ne hfault
  revert h
  fun_cases first? d cs <;> intro h
  case case1 => cases h
  case case2 cs =>
    cases h
    obtain ⟨kind, body, closed, hcomment⟩ := exists_dashComment cs
    rw [hcomment]
    exact hother (by decide)
  case case3 rest =>
    cases h
    exact ⟨rest, rfl, rfl⟩
  case case4 =>
    cases h
    exact List.forall_mem_nil _
  case case5 cs _ _ _ _ =>
    cases h
    obtain ⟨body, closed, hcomment⟩ := exists_slashBlockComment cs.tail
    rw [hcomment]
    exact hother (by decide)
  case case6 | case9 =>
    cases h
    exact hother (by decide)
  case case7 c cs _ _ _ _ _ hstarts =>
    cases h
    exact ⟨c, cs, hstarts, rfl, rfl⟩
  case case8 c cs _ _ _ _ _ _ _ =>
    cases h
    have hnone : ∀ f ∈ (word d c cs).faults, f.1 ≠ .malformedNumber :=
      List.forall_mem_nil _
    cases hk : Keyword.ofSpelling? d (String.ofList (c :: cs.takeWhile isNameChar)) with
    | some k => simpa only [Starts, word, hk] using hnone
    | none => simpa only [Starts, word, hk] using hnone
  case case10 =>
    obtain ⟨s, -, rfl⟩ := Option.map_eq_some_iff.1 h
    exact List.forall_mem_nil _

theorem eq_number {raw : String} (h : first? d cs = some l) (htoken : l.token = .number raw) :
    ∃ c rest, startsNumber c rest = true ∧ cs = c :: rest ∧ l = number c rest := by
  have hform := starts_of_first? h
  rwa [htoken] at hform

theorem eq_label {name : String} (h : first? d cs = some l) (htoken : l.token = .label name) :
    ∃ rest, cs = ':' :: ':' :: rest ∧ l = label rest := by
  have hform := starts_of_first? h
  rwa [htoken] at hform

/-- The only fault of a label is that it is malformed. -/
theorem faults_label (cs : List Char) :
    (label cs).faults = [] ∨ ∃ read, (label cs).faults = [(.malformedLabel, read)] := by
  simp only [label, unlessClosed]
  split
  · exact .inl rfl
  · exact .inr ⟨_, rfl⟩

theorem exists_number_of_fault (h : first? d cs = some l)
    (hfault : ∃ f ∈ l.faults, f.1 = .malformedNumber) : ∃ raw, l.token = .number raw := by
  obtain ⟨f, hf, hmalformed⟩ := hfault
  have hform := starts_of_first? h
  cases htoken : l.token with
  | number raw => exact ⟨raw, rfl⟩
  | label name =>
    rw [htoken] at hform
    obtain ⟨rest, -, rfl⟩ := hform
    rcases faults_label rest with hnil | ⟨read, hread⟩
    · rw [hnil] at hf
      cases hf
    · rw [hread, List.mem_singleton] at hf
      rw [hf] at hmalformed
      cases hmalformed
  | _ =>
    rw [htoken] at hform
    exact absurd hmalformed (hform f hf)

end Lexeme

end Lexer

/-- Each token of a source is that of a lexeme in it. -/
theorem exists_readFrom_tokenize (source : String) (d : Dialect) :
    ∀ t ∈ (tokenize source d).1, ∃ l before after,
      Lexer.ReadFrom d default source.toList (tokenize source d).2 t l before after :=
  (Lexer.pieces_tokenizeFrom d default source.toList).exists_readFrom

end LuaSyntax
