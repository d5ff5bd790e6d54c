import LuaSyntax.Proofs.Lexer.Seam
import LuaSyntax.Proofs.Lexer.Spacing
import LuaSyntax.Token.Comments
/-!
# Excerpts of a text

The text that a span covers, taken by itself. An excerpt of a text without errors that starts with a
token and ends with one is read as the same tokens, with the comments between them.
-/

namespace LuaSyntax

/-- The text that the span covers in the source. -/
def Span.excerpt (source : String) (s : Span) : String :=
  String.Pos.Raw.extract source ⟨s.start.offset⟩ ⟨s.stop.offset⟩

theorem Span.Covers.excerpt {s : Span} {before slice after : List Char} {source : String}
    (h : s.Covers default before slice) (hsource : source.toList = before ++ slice ++ after) :
    s.excerpt source = .ofList slice := by
  have hoffset (cs : List Char) : ((default : Pos).advanceOver cs).offset = String.utf8Len cs := by
    rw [Pos.offset_advanceOver, Pos.byteSize_eq_utf8Len]
    exact Nat.zero_add _
  have htext : source = .ofList (before ++ slice ++ after) := by
    rw [← hsource, String.ofList_toList]
  rw [h, Span.excerpt, hoffset, hoffset, String.utf8Len_append, htext]
  exact String.extract_of_valid before slice after

theorem withoutComments_cons_comment {t : Located Token} (ht : t.node.isComment = true)
    (ts : List (Located Token)) : withoutComments (t :: ts) = withoutComments ts :=
  List.filter_cons_of_neg (by simp [ht])

theorem withoutComments_cons {t : Located Token} (ht : t.node.isComment = false)
    (ts : List (Located Token)) : withoutComments (t :: ts) = t :: withoutComments ts :=
  List.filter_cons_of_pos (by simp [ht])

theorem map_withoutComments (ts : List (Located Token)) :
    (withoutComments ts).map (·.node) = (ts.map (·.node)).filter (!·.isComment) := by
  rw [List.filter_map]
  rfl

namespace Lexer

variable {d : Dialect} {p : Pos} {cs : List Char} {tokens : List (Located Token)}
  {errors : List LexError} {t u : Located Token} {ts us : List (Located Token)}

theorem Pieces.lexes (h : Pieces d p cs tokens errors) (herrors : errors = []) :
    Lexes d cs (tokens.map (·.node)) := by
  induction h with
  | done p => exact .nil
  | blank hc _ ih => exact .blank hc (ih herrors)
  | stray _ _ _ _ => cases herrors
  | @lexeme p l cs tokens errors hblank hl _ ih =>
    obtain ⟨hfirst, hrest⟩ := List.append_eq_nil_iff.1 herrors
    exact (ih hrest).lexeme hblank hl (Lexeme.faults_of_errors hfirst)

/-- From the start of any of its tokens on, a text without errors is read as it was. -/
theorem Pieces.from_token (h : Pieces d p cs tokens errors) (herrors : errors = [])
    (htokens : withoutComments tokens = ts ++ t :: us) :
    ∃ before after tokens', cs = before ++ after ∧ t.span.start = p.advanceOver before ∧
      Pieces d t.span.start after tokens' [] ∧ withoutComments tokens' = t :: us := by
  induction h generalizing ts with
  | done p => cases ts <;> cases htokens
  | @blank p c cs tokens errors hc rest ih =>
    obtain ⟨before, after, tokens', rfl, hstart, hpieces⟩ := ih herrors htokens
    exact ⟨c :: before, after, tokens', rfl, hstart, hpieces⟩
  | stray _ _ _ _ => cases herrors
  | @lexeme p l cs tokens errors hblank hl rest ih =>
    obtain ⟨hfirst, hrest⟩ := List.append_eq_nil_iff.1 herrors
    have hlater {ts' : List (Located Token)} (htokens : withoutComments tokens = ts' ++ t :: us) :
        ∃ before after tokens', l.chars ++ cs = before ++ after ∧
          t.span.start = p.advanceOver before ∧ Pieces d t.span.start after tokens' [] ∧
            withoutComments tokens' = t :: us := by
      obtain ⟨before, after, tokens', rfl, hstart, hpieces⟩ := ih hrest htokens
      exact ⟨l.chars ++ before, after, tokens', by simp, by simp [hstart], hpieces⟩
    cases hcomment : l.token.isComment with
    | true =>
      rw [withoutComments_cons_comment hcomment] at htokens
      exact hlater htokens
    | false =>
      rw [withoutComments_cons hcomment] at htokens
      cases ts with
      | nil =>
        obtain ⟨rfl, hothers⟩ := List.cons.inj htokens
        refine ⟨[], _, _, rfl, rfl, ?_, (withoutComments_cons hcomment _).trans htokens⟩
        have hpieces := Pieces.lexeme (p := p) hblank hl rest
        rwa [herrors] at hpieces
      | cons t' ts => exact hlater (List.cons.inj htokens).2

/-- A lexeme without errors is read again before a start of what followed it. -/
theorem Pieces.cut_lexeme {l : Lexeme} {slice after : List Char}
    (hblank : ∀ c ∈ l.chars.head?, Text.isBlank c = false)
    (hl : Lexeme.first? d (l.chars ++ (slice ++ after)) = some l) (herrors : l.errors p = [])
    (hrest : Pieces d (p.advanceOver l.chars) slice tokens []) :
    Pieces d p (l.chars ++ slice) (⟨l.token, ⟨p, p.advanceOver l.chars⟩⟩ :: tokens) [] := by
  have hcut : Lexeme.first? d (l.chars ++ slice) = some l :=
    Lexeme.first?_reread hl (Lexeme.faults_of_errors herrors)
      (.of_isPrefix (List.prefix_append slice after))
  have hpieces := Pieces.lexeme (p := p) hblank hcut hrest
  rwa [herrors, List.nil_append] at hpieces

/-- Up to the end of any of its tokens, a text without errors is read as it was. -/
theorem Pieces.up_to_token (h : Pieces d p cs tokens errors) (herrors : errors = [])
    (htokens : withoutComments tokens = ts ++ u :: us) :
    ∃ slice after tokens', cs = slice ++ after ∧ u.span.stop = p.advanceOver slice ∧
      Pieces d p slice tokens' [] ∧ withoutComments tokens' = ts ++ [u] := by
  induction h generalizing ts with
  | done p => cases ts <;> cases htokens
  | @blank p c cs tokens errors hc rest ih =>
    obtain ⟨slice, after, tokens', rfl, hstop, hpieces, hwords⟩ := ih herrors htokens
    exact ⟨c :: slice, after, tokens', rfl, hstop, .blank hc hpieces, hwords⟩
  | stray _ _ _ _ => cases herrors
  | @lexeme p l cs tokens errors hblank hl rest ih =>
    obtain ⟨hfirst, hrest⟩ := List.append_eq_nil_iff.1 herrors
    cases hcomment : l.token.isComment with
    | true =>
      rw [withoutComments_cons_comment hcomment] at htokens
      obtain ⟨slice, after, tokens', rfl, hstop, hpieces, hwords⟩ := ih hrest htokens
      refine ⟨l.chars ++ slice, after, _, by simp, by simp [hstop],
        hpieces.cut_lexeme hblank hl hfirst, ?_⟩
      rw [withoutComments_cons_comment hcomment, hwords]
    | false =>
      rw [withoutComments_cons hcomment] at htokens
      cases ts with
      | nil =>
        obtain ⟨rfl, -⟩ := List.cons.inj htokens
        refine ⟨l.chars, cs, _, rfl, rfl, ?_, withoutComments_cons hcomment []⟩
        have hpieces : Pieces d p (l.chars ++ []) _ [] :=
          .cut_lexeme hblank hl hfirst (.done _)
        rwa [List.append_nil] at hpieces
      | cons t' ts =>
        obtain ⟨rfl, hothers⟩ := List.cons.inj htokens
        obtain ⟨slice, after, tokens', rfl, hstop, hpieces, hwords⟩ := ih hrest hothers
        refine ⟨l.chars ++ slice, after, _, by simp, by simp [hstop],
          hpieces.cut_lexeme hblank hl hfirst, ?_⟩
        rw [withoutComments_cons hcomment, hwords]
        rfl

end Lexer

/-- The text from the start of a token to the end of one is read as the tokens there. -/
theorem tokenize_excerpt {source : String} {d : Dialect} (herrors : (tokenize source d).2 = [])
    {before ts after : List (Located Token)} {first last : Located Token}
    (htokens : withoutComments (tokenize source d).1 = before ++ ts ++ after)
    (hfirst : ts.head? = some first) (hlast : ts.getLast? = some last) :
    let excerpt := Span.excerpt source ⟨first.span.start, last.span.stop⟩
    (tokenize excerpt d).2 = [] ∧
      (withoutComments (tokenize excerpt d).1).map (·.node) = ts.map (·.node) := by
  obtain ⟨others, rfl⟩ := List.head?_eq_some_iff.1 hfirst
  obtain ⟨init, hinit⟩ := List.getLast?_eq_some_iff.1 hlast
  have hpieces : Lexer.Pieces d default source.toList (tokenize source d).1 (tokenize source d).2 :=
    Lexer.pieces_tokenizeFrom d default source.toList
  rw [List.append_assoc] at htokens
  obtain ⟨front, rest, tokens, hfront, hstart, hrest, hwords⟩ :=
    hpieces.from_token herrors htokens
  have hsplit : withoutComments tokens = init ++ last :: after :=
    hwords.trans ((congrArg (· ++ after) hinit).trans (List.append_assoc init [last] after))
  obtain ⟨slice, back, tokens', hslice, hstop, hpieces', hwords'⟩ :=
    hrest.up_to_token rfl hsplit
  have hcovers : Span.Covers default front slice ⟨first.span.start, last.span.stop⟩ := by
    rw [Span.Covers, hstop, hstart, Pos.advanceOver_append]
  have hsource : source.toList = front ++ slice ++ back := by
    rw [hfront, hslice, List.append_assoc]
  have hexcerpt := hcovers.excerpt hsource
  have hlexes := hpieces'.lexes rfl default
  rw [← String.toList_ofList (l := slice), ← hexcerpt] at hlexes
  intro excerpt
  have htokenize : (tokenize excerpt d).1.map (·.node) = tokens'.map (·.node) := hlexes.1
  refine ⟨hlexes.2, ?_⟩
  rw [map_withoutComments, htokenize, ← map_withoutComments, hwords', ← hinit]

end LuaSyntax
