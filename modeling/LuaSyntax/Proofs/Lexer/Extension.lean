import LuaSyntax.Proofs.Grammar.Division
import LuaSyntax.Proofs.Lexer.First
import LuaSyntax.Proofs.Lexer.Pieces
import LuaSyntax.Token.Comments
import Mathlib.Data.List.Find
/-!
# The same lexemes in both dialects

What is a lexeme of Lua 5.2 is one of GLua, but for the name `continue` and for a slash before
another slash or a star. A text with neither is read the same in both dialects, if all of it can be
read in Lua 5.2.
-/

namespace LuaSyntax

namespace Symbol

/-- No symbol of Lua 5.2 starts as those do that only GLua has. -/
theorem isUsed_of_head? {s t : Symbol} (hs : s.isUsed .lua52 = true)
    (hhead : s.spelling.toList.head? = t.spelling.toList.head?) : t.isUsed .lua52 = true := by
  have hown : ∀ s : Symbol, s.isUsed .lua52 = true →
      s.spelling.toList.head? ∉ [some '&', some '|', some '!'] := by
    intro s
    cases s <;> decide
  have hother : t.isUsed .lua52 = false →
      t.spelling.toList.head? ∈ [some '&', some '|', some '!'] := by
    cases t <;> decide
  cases hused : t.isUsed .lua52 with
  | true => rfl
  | false => exact absurd (hhead ▸ hother hused) (hown s hs)

theorem head?_of_isPrefix {s : Symbol} {cs : List Char} (h : s.spelling.toList <+: cs) :
    s.spelling.toList.head? = cs.head? := by
  obtain ⟨rest, rfl⟩ := h
  have hne : s.spelling.toList ≠ [] := by cases s <;> decide
  rw [List.head?_append, List.head?_eq_some_head hne]
  rfl

theorem longest?_glua {cs : List Char} {s : Symbol} (h : longest? .lua52 cs = some s) :
    longest? .glua cs = some s := by
  obtain ⟨hs, before, after, hall, hbefore⟩ := List.find?_eq_some_iff_append.1 h
  rw [Bool.and_eq_true, List.isPrefixOf_iff_prefix] at hs
  refine List.find?_eq_some_iff_append.2 ⟨?_, before, after, hall, fun t ht => ?_⟩
  · rw [Bool.and_eq_true, List.isPrefixOf_iff_prefix]
    exact ⟨by cases s <;> rfl, hs.2⟩
  · have hshorter := hbefore t ht
    rw [Bool.not_eq_true', Bool.and_eq_false_iff] at hshorter ⊢
    refine .inr (Bool.eq_false_iff.2 fun hprefix => ?_)
    have hused : t.isUsed .lua52 = true := isUsed_of_head? hs.1
      ((head?_of_isPrefix hs.2).trans
        (head?_of_isPrefix (List.isPrefixOf_iff_prefix.1 hprefix)).symm)
    rw [hused, hprefix] at hshorter
    simp at hshorter

end Symbol

namespace Keyword

theorem ofSpelling?_glua {word : String} (h : word ≠ "continue") :
    ofSpelling? .glua word = ofSpelling? .lua52 word := by
  refine List.find?_congr fun k _ => ?_
  cases k with
  | continue_ =>
    have hother : ("continue" == word) = false := beq_false_of_ne h.symm
    simp [spelling, hother]
  | _ => rfl

end Keyword

namespace Lexer

open LuaSyntax.Language

variable {p : Pos} {c : Char} {cs : List Char} {l : Lexeme} {tokens : List (Located Token)}
  {errors : List LexError}

/-- The text does not start as a comment with slashes does. -/
def NoSlashComment (cs : List Char) : Prop :=
  cs.head? = some '/' → cs.tail.head? ≠ some '/' ∧ cs.tail.head? ≠ some '*'

namespace Lexeme

theorem word_glua (hname : (word .lua52 c cs).token ≠ .ident "continue") :
    word .glua c cs = word .lua52 c cs := by
  have hword : String.ofList (c :: cs.takeWhile isNameChar) ≠ "continue" := by
    intro hword
    refine hname ?_
    have hfree : Keyword.ofSpelling? .lua52 "continue" = none := by decide
    simp only [word, hword, hfree]
  simp only [word, Keyword.ofSpelling?_glua hword]

theorem first?_glua (h : first? .lua52 cs = some l) (hname : l.token ≠ .ident "continue")
    (hslash : NoSlashComment cs) : first? .glua cs = some l := by
  revert h
  fun_cases first? .lua52 cs <;> intro h
  case case1 => cases h
  case case2 => exact h
  case case3 => exact h
  case case4 hc => simp [Dialect.hasExtensions] at hc
  case case5 hc => simp [Dialect.hasExtensions] at hc
  case case6 hc =>
    rw [← h]
    exact first?_of_isQuote hc
  case case7 hc =>
    rw [← h]
    exact first?_of_startsNumber hc
  case case8 hc =>
    cases h
    rw [← word_glua hname]
    exact first?_of_isNameStart hc
  case case9 c cs _ _ _ _ _ _ _ level hlevel =>
    obtain ⟨rest, hcs⟩ := eq_openingBracket hlevel
    obtain ⟨rfl, -⟩ := List.cons.inj hcs
    rw [← h]
    exact first?_of_bracketLevel? hlevel
  case case10 c cs hdash hcolon _ _ hquote hnumber hstart hlevel =>
    obtain ⟨s, hs, rfl⟩ := Option.map_eq_some_iff.1 h
    have hnext {a : Char} (hopen : ∀ ds, c = a → cs = a :: ds → False) (hc : c = a) :
        cs.head? ≠ some a := by
      intro ha
      obtain ⟨ds, hds⟩ := List.head?_eq_some_iff.1 ha
      exact hopen ds hc hds
    rw [first?_cons (hnext hdash) (hnext hcolon), if_neg, if_neg, if_neg hquote, if_neg hnumber,
      if_neg hstart, hlevel, Symbol.longest?_glua hs]
    · rfl
    · simp only [Bool.and_eq_true, beq_iff_eq]
      rintro ⟨⟨rfl, hstar⟩, -⟩
      exact (hslash rfl).2 hstar
    · simp only [Bool.and_eq_true, beq_iff_eq]
      rintro ⟨⟨rfl, hsecond⟩, -⟩
      exact (hslash rfl).1 hsecond

theorem first?_slash (cs : List Char) : first? .lua52 ('/' :: cs) = some (symbol .slash) := by
  have hplain (b : Bool) : ¬(b && Dialect.lua52.hasExtensions) = true := by
    simp [Dialect.hasExtensions]
  rw [first?_cons (by simp) (by simp), if_neg (hplain _), if_neg (hplain _)]
  rfl

theorem first?_star (cs : List Char) : first? .lua52 ('*' :: cs) = some (symbol .star) := by
  rw [first?_cons (by simp) (by simp)]
  rfl

end Lexeme

theorem Pieces.head?_of_symbol {d : Dialect} {s : Symbol} (h : Pieces d p cs tokens errors)
    (hs : s.spelling.toList <+: cs) (hfirst : Lexeme.first? d cs = some (.symbol s)) :
    ∃ t ∈ tokens.head?, t.node = .symbol s := by
  obtain ⟨rest, rfl⟩ := hs
  have hblank : ∀ c ∈ (Lexeme.symbol s).chars.head?, Text.isBlank c = false := by
    intro c hc
    cases s <;> cases hc <;> decide
  have htokens := h.eq.symm.trans (tokenizeFrom_lexeme hblank hfirst)
  obtain ⟨rfl, -⟩ := Prod.ext_iff.1 htokens
  exact ⟨_, rfl, rfl⟩

/-- What opens a comment after a slash in GLua is a token in Lua 5.2. -/
theorem Pieces.head?_of_opensComment (h : Pieces .lua52 p cs tokens errors)
    (hcs : cs.head? = some '/' ∨ cs.head? = some '*') :
    ∃ t ∈ tokens.head?, t.node = .symbol .slash ∨ t.node = .symbol .star := by
  rcases hcs with hcs | hcs
  · obtain ⟨ds, rfl⟩ := List.head?_eq_some_iff.1 hcs
    obtain ⟨t, ht, hnode⟩ := h.head?_of_symbol (s := .slash) ⟨ds, rfl⟩ (Lexeme.first?_slash ds)
    exact ⟨t, ht, .inl hnode⟩
  · obtain ⟨ds, rfl⟩ := List.head?_eq_some_iff.1 hcs
    obtain ⟨t, ht, hnode⟩ := h.head?_of_symbol (s := .star) ⟨ds, rfl⟩ (Lexeme.first?_star ds)
    exact ⟨t, ht, .inr hnode⟩

theorem slashesDivide_tail {t : Located Token}
    (h : SlashesDivide ((withoutComments (t :: tokens)).map (·.node))) :
    SlashesDivide ((withoutComments tokens).map (·.node)) := by
  cases hcomment : t.node.isComment with
  | true => simpa [withoutComments, hcomment] using h
  | false =>
    rw [withoutComments, List.filter_cons_of_pos (by simp [hcomment])] at h
    exact h.2

/-- A text that reads without errors in Lua 5.2 reads the same in GLua, if it does not have the name
`continue` and its slashes divide. -/
theorem Pieces.glua (h : Pieces .lua52 p cs tokens errors) (herrors : errors = [])
    (hname : ∀ t ∈ tokens, t.node ≠ .ident "continue")
    (hslashes : SlashesDivide ((withoutComments tokens).map (·.node))) :
    Pieces .glua p cs tokens errors := by
  induction h with
  | done p => exact .done p
  | blank hc _ ih => exact .blank hc (ih herrors hname hslashes)
  | stray => cases herrors
  | @lexeme p l cs tokens errors hblank hl rest ih =>
    rw [List.forall_mem_cons] at hname
    have hslash : NoSlashComment (l.chars ++ cs) := by
      intro hhead
      obtain ⟨ds, hds⟩ := List.head?_eq_some_iff.1 hhead
      have hsymbol := hl
      rw [hds, Lexeme.first?_slash] at hsymbol
      cases hsymbol
      obtain ⟨-, rfl⟩ := List.cons.inj hds
      rw [← not_or]
      intro hopens
      -- the token after the slash is itself a slash or a star
      obtain ⟨t, ht, hnode⟩ := rest.head?_of_opensComment hopens
      obtain ⟨others, rfl⟩ := List.head?_eq_some_iff.1 ht
      have hcomment : t.node.isComment = false := by
        rcases hnode with hnode | hnode <;> rw [hnode] <;> rfl
      obtain ⟨u, hu, hne⟩ := hslashes.1 rfl
      rw [List.filter_cons_of_pos (by simp [hcomment])] at hu
      cases hu
      exact hnode.elim hne.1 hne.2
    exact .lexeme hblank (Lexeme.first?_glua hl hname.1 hslash)
      (ih (List.append_eq_nil_iff.1 herrors).2 hname.2 (slashesDivide_tail hslashes))

end Lexer

end LuaSyntax
