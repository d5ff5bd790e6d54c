import LuaSyntax.Proofs.Lexer.Ending
import LuaSyntax.Proofs.Lexer.Reports
/-!
# The ends of strings and comments

A token that opens as a string or a comment does goes on to where it should end, and it is reported
just if it is not closed.
-/

namespace LuaSyntax

open Lexer

/-- The token is read from this text, which opens with `opener` and then goes on to its end. The
faults that are found in it are what is reported of the token, and each of them spans all of it. -/
def EndsAs (errors : List LexError) (t : Located Token) (text : List Char)
    (token : String → Token) (opener : List Char)
    (ends : List Char → List LexFault → Prop) : Prop :=
  t.node = token (String.ofList text) ∧ ∃ tail faults, text = opener ++ tail ∧ ends tail faults ∧
    reportsAt errors t.span.start = faults.map (⟨·, t.span⟩)

/-- A token that is read from `text`, before `after`, ends as what these characters open with. -/
structure EndsAsOpened (d : Dialect) (errors : List LexError) (t : Located Token)
    (text after : List Char) : Prop where
  quoted : ∀ q ∈ ['"', '\''], ∀ rest, text ++ after = q :: rest →
    EndsAs errors t text .str [q] (QuotedEnd q rest)
  longString : ∀ level rest, text ++ after = openingBracket level rest →
    EndsAs errors t text .str (openingBracket level [])
      (MarkedEnd (closingBracket level) .unterminatedLongString rest)
  blockComment : ∀ level rest, text ++ after = '-' :: '-' :: openingBracket level rest →
    EndsAs errors t text (.comment ⟨.block, ·⟩) ('-' :: '-' :: openingBracket level [])
      (MarkedEnd (closingBracket level) .unterminatedComment rest)
  lineComment : ∀ rest, text ++ after = '-' :: '-' :: rest →
    (EndsAs errors t text (.comment ⟨.line, ·⟩) ['-', '-']
        (fun line faults => LineEnd rest line ∧ faults = []) ↔
      ∀ level more, rest ≠ openingBracket level more)
  slashComment : d.hasExtensions = true → ∀ rest, text ++ after = '/' :: '*' :: rest →
    EndsAs errors t text (.comment ⟨.slashBlock, ·⟩) ['/', '*']
      (MarkedEnd ['*', '/'] .unterminatedComment rest)

namespace Lexer

variable {d : Dialect} {p : Pos} {cs before after rest tail opener : List Char} {l m : Lexeme}
  {errors : List LexError} {t : Located Token} {token : String → Token}
  {level : Nat} {faults : List LexFault} {ends : List Char → List LexFault → Prop}

theorem Lexeme.unlessClosed_eq (closed : Bool) (fault : LexFault) (cs : List Char) :
    unlessClosed closed fault cs = (if closed then [] else [fault]).map (·, cs.length) := by
  cases closed <;> rfl

theorem Lexeme.errors_of_faults (h : l.faults = faults.map (·, l.chars.length)) (p : Pos) :
    l.errors p = faults.map (⟨·, ⟨p, p.advanceOver l.chars⟩⟩) := by
  rw [errors, h, List.map_map]
  refine List.map_congr_left fun fault _ => ?_
  simp

theorem Lexeme.first?_dashes (cs : List Char) :
    first? d ('-' :: '-' :: cs) = some (dashComment cs) := rfl

theorem Lexeme.exists_slashBlockEnd (cs : List Char) :
    ∃ tail closed, slashBlockComment cs = comment .slashBlock '/' ('*' :: tail) closed ∧
      MarkedEnd ['*', '/'] .unterminatedComment cs tail
        (if closed then [] else [.unterminatedComment]) := by
  have hend := markedEnd_through? ['*', '/'] nofun .unterminatedComment cs
  rw [slashBlockComment]
  cases hbody : through? ['*', '/'] cs with
  | some body =>
    rw [hbody] at hend
    exact ⟨body, true, rfl, hend⟩
  | none =>
    rw [hbody] at hend
    exact ⟨cs, false, rfl, hend⟩

namespace ReadFrom

theorem endsAs (h : ReadFrom d p cs errors t l before after)
    (htoken : l.token = token (String.ofList l.chars)) (hchars : l.chars = opener ++ tail)
    (hfaults : l.faults = faults.map (·, l.chars.length)) (hends : ends tail faults) :
    EndsAs errors t l.chars token opener ends := by
  have hspan : t.span = ⟨t.span.start, t.span.start.advanceOver l.chars⟩ := by
    rw [h.token, Pos.advanceOver_append]
  refine ⟨by rw [h.token, htoken], tail, faults, hchars, hends, ?_⟩
  rw [h.reports, Lexeme.errors_of_faults hfaults, ← hspan]

theorem eq_of_first? (h : ReadFrom d p cs errors t l before after) {text : List Char}
    (hopen : l.chars ++ after = text) (hm : Lexeme.first? d text = some m) : l = m := by
  rw [← hopen, h.first] at hm
  exact Option.some.inj hm

theorem quoted (h : ReadFrom d p cs errors t l before after) {q : Char} (hq : q ∈ ['"', '\''])
    (hopen : l.chars ++ after = q :: rest) :
    EndsAs errors t l.chars .str [q] (QuotedEnd q rest) := by
  have hquote : (q == '"' || q == '\'') = true := by simpa using hq
  obtain rfl := h.eq_of_first? hopen (Lexeme.first?_of_isQuote hquote)
  exact h.endsAs rfl rfl (Lexeme.unlessClosed_eq _ _ _) (quotedEnd_quotedTail q rest)

theorem longString (h : ReadFrom d p cs errors t l before after)
    (hopen : l.chars ++ after = openingBracket level rest) :
    EndsAs errors t l.chars .str (openingBracket level [])
      (MarkedEnd (closingBracket level) .unterminatedLongString rest) := by
  have hlevel := bracketLevel?_openingBracket level rest
  obtain rfl := h.eq_of_first? hopen (Lexeme.first?_of_bracketLevel? hlevel)
  obtain ⟨tail, closed, hread, hend⟩ := markedEnd_bracketed level .unterminatedLongString rest
  rw [openingBracket] at hread
  refine h.endsAs rfl ?_ ?_ hend
  · simp only [Lexeme.longString, hread]
    exact (openingBracket_append level [] tail).symm
  · simp only [Lexeme.longString, hread]
    exact Lexeme.unlessClosed_eq _ _ _

theorem blockComment (h : ReadFrom d p cs errors t l before after)
    (hopen : l.chars ++ after = '-' :: '-' :: openingBracket level rest) :
    EndsAs errors t l.chars (.comment ⟨.block, ·⟩) ('-' :: '-' :: openingBracket level [])
      (MarkedEnd (closingBracket level) .unterminatedComment rest) := by
  have hcomment := Lexeme.dashComment_of_some (bracketLevel?_openingBracket level rest)
  obtain rfl := h.eq_of_first? hopen ((Lexeme.first?_dashes _).trans (congrArg some hcomment))
  obtain ⟨tail, closed, hread, hend⟩ := markedEnd_bracketed level .unterminatedComment rest
  refine h.endsAs rfl ?_ ?_ hend
  · rw [hread]
    exact congrArg ('-' :: '-' :: ·) (openingBracket_append level [] tail).symm
  · rw [hread]
    exact Lexeme.unlessClosed_eq _ _ _

theorem lineComment (h : ReadFrom d p cs errors t l before after)
    (hopen : l.chars ++ after = '-' :: '-' :: rest) :
    EndsAs errors t l.chars (.comment ⟨.line, ·⟩) ['-', '-']
        (fun line faults => LineEnd rest line ∧ faults = []) ↔
      ∀ level more, rest ≠ openingBracket level more := by
  constructor
  · rintro hline level more rfl
    have hblock := h.blockComment hopen
    exact absurd (hblock.1.symm.trans hline.1) (by simp)
  · intro hnone
    have hlevel : bracketLevel? rest = none := by
      refine Option.eq_none_iff_forall_ne_some.2 fun level hlevel => ?_
      obtain ⟨more, hmore⟩ := eq_openingBracket hlevel
      exact hnone level more hmore
    have hcomment := Lexeme.dashComment_of_none hlevel
    obtain rfl := h.eq_of_first? hopen ((Lexeme.first?_dashes _).trans (congrArg some hcomment))
    exact h.endsAs rfl rfl rfl ⟨lineEnd_untilLineBreak rest, rfl⟩

theorem slashComment (h : ReadFrom d p cs errors t l before after) (hd : d.hasExtensions = true)
    (hopen : l.chars ++ after = '/' :: '*' :: rest) :
    EndsAs errors t l.chars (.comment ⟨.slashBlock, ·⟩) ['/', '*']
      (MarkedEnd ['*', '/'] .unterminatedComment rest) := by
  obtain ⟨tail, closed, hcomment, hend⟩ := Lexeme.exists_slashBlockEnd rest
  obtain rfl := h.eq_of_first? hopen
    ((Lexeme.first?_slashStar hd rest).trans (congrArg some hcomment))
  exact h.endsAs rfl rfl (Lexeme.unlessClosed_eq _ _ _) hend

end ReadFrom

end Lexer

/-- Strings and comments end where they should: each token of a source covers a text in it that ends
as what opens it says. -/
theorem tokenize_endsAsOpened (source : String) (d : Dialect) :
    ∀ t ∈ (tokenize source d).1, ∃ before text after,
      source.toList = before ++ (text ++ after) ∧
        t.span = ⟨Pos.endOf before, Pos.endOf (before ++ text)⟩ ∧
        EndsAsOpened d (tokenize source d).2 t text after := by
  intro t ht
  obtain ⟨l, before, after, h⟩ := exists_readFrom_tokenize source d t ht
  refine ⟨before, l.chars, after, h.text, ?_, ?_⟩
  · rw [h.token, Pos.advanceOver_eq_endOf, Pos.advanceOver_eq_endOf]
  · exact ⟨fun q hq _ => h.quoted hq, fun _ _ => h.longString, fun _ _ => h.blockComment,
      fun _ => h.lineComment, fun hd _ => h.slashComment hd⟩

/-- The star that opens the comment is not in its closing mark. The long string is not closed. -/
theorem tokenize_endsAsOpened_mixed :
    let source := "/*/é*/[[]"
    let comment : Located Token :=
      ⟨.comment ⟨.slashBlock, "/*/é*/"⟩, ⟨⟨0, 0, 0⟩, ⟨0, 6, 7⟩⟩⟩
    let string : Located Token := ⟨.str "[[]", ⟨⟨0, 6, 7⟩, ⟨0, 9, 10⟩⟩⟩
    (tokenize source .glua).1 = [comment, string] ∧
      (tokenize source .glua).2 = [⟨.unterminatedLongString, string.span⟩] ∧
      ∀ t ∈ [comment, string], ∃ before text after,
        source.toList = before ++ (text ++ after) ∧
          t.span = ⟨Pos.endOf before, Pos.endOf (before ++ text)⟩ ∧
          EndsAsOpened .glua (tokenize source .glua).2 t text after := by
  intro source comment string
  have htokens : (tokenize source .glua).1 = [comment, string] := by decide +kernel
  have herrors : (tokenize source .glua).2 = [⟨.unterminatedLongString, string.span⟩] := by
    decide +kernel
  exact ⟨htokens, herrors, htokens ▸ tokenize_endsAsOpened source .glua⟩

end LuaSyntax
