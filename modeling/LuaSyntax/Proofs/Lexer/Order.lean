import LuaSyntax.Lexer.Tokenize
import LuaSyntax.Proofs.Source.Order
import LuaSyntax.Token.Comments
/-!
# The order of tokens

The tokens of a text start one after another, and all of them before its end.
-/

namespace LuaSyntax

/-- Tokens that start one after another, and before `stop`. -/
structure Ascending (tokens : List (Located Token)) (stop : Pos) : Prop where
  pairwise : tokens.Pairwise fun t u => t.span.start.Before u.span.start
  before_stop : ∀ t ∈ tokens, t.span.start.Before stop

theorem Ascending.filter {tokens : List (Located Token)} {stop : Pos} (h : Ascending tokens stop)
    (p : Located Token → Bool) : Ascending (tokens.filter p) stop :=
  ⟨h.pairwise.filter p, fun t ht => h.before_stop t ((List.mem_filter.1 ht).1)⟩

namespace Lexer

/-- Reading goes on to the position that the characters before the rest lead to. -/
theorem pos_read (d : Dialect) (p : Pos) (cs : List Char) :
    (read d p cs).pos.advanceOver (read d p cs).rest = p.advanceOver cs := by
  fun_induction read d p cs with
  | case1 p => rfl
  | case2 p c cs _ ih => exact ih
  | case3 p c cs _ l hl stop =>
    obtain ⟨rest, hrest⟩ := Lexeme.first?_isPrefix hl
    change (p.advanceOver l.chars).advanceOver ((c :: cs).drop l.chars.length) = _
    rw [← hrest, List.drop_left, Pos.advanceOver_append]
  | case4 p c cs _ _ next ih => exact ih

theorem start_read {d : Dialect} {p : Pos} {cs : List Char} {t : Located Token}
    (h : (read d p cs).token = some t) :
    p.NotAfter t.span.start ∧ t.span.start.Before (read d p cs).pos := by
  fun_induction read d p cs with
  | case1 p => cases h
  | case2 p c cs _ ih => exact ⟨.trans (.inr (Pos.before_advance p c)) (ih h).1, (ih h).2⟩
  | case3 p c cs _ l hl stop =>
    cases h
    exact ⟨.inl rfl, Pos.before_advanceOver p l.chars_ne_nil⟩
  | case4 p c cs _ _ next ih => exact ⟨.trans (.inr (Pos.before_advance p c)) (ih h).1, (ih h).2⟩

theorem ascending_tokenizeFrom (d : Dialect) (p : Pos) (cs : List Char) :
    (∀ t ∈ (tokenizeFrom d p cs).1, p.NotAfter t.span.start) ∧
      Ascending (tokenizeFrom d p cs).1 (p.advanceOver cs) := by
  fun_induction tokenizeFrom d p cs with
  | case1 p cs _ => exact ⟨nofun, .nil, nofun⟩
  | case2 p cs t h tokens errors heq ih =>
    rw [heq, pos_read] at ih
    obtain ⟨hfirst, hrest⟩ := ih
    obtain ⟨hle, hlt⟩ := start_read h
    have hend : t.span.start.Before (p.advanceOver cs) := by
      rw [← pos_read d p cs]
      exact hlt.trans_notAfter (Pos.notAfter_advanceOver _ _)
    refine ⟨?_, ?_, ?_⟩
    · rw [List.forall_mem_cons]
      exact ⟨hle, fun u hu => .inr ((hle.trans_before hlt).trans_notAfter (hfirst u hu))⟩
    · rw [List.pairwise_cons]
      exact ⟨fun u hu => hlt.trans_notAfter (hfirst u hu), hrest.pairwise⟩
    · rw [List.forall_mem_cons]
      exact ⟨hend, hrest.before_stop⟩

end Lexer

theorem ascending_tokenize (source : String) (d : Dialect) :
    Ascending (withoutComments (tokenize source d).1) (endOfSource source) := by
  have h := (Lexer.ascending_tokenizeFrom d default source.toList).2
  rw [Pos.advanceOver_eq_endOf] at h
  exact h.filter _

end LuaSyntax
