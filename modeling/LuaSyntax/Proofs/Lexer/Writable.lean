import LuaSyntax.Lexer.Tokenize
import LuaSyntax.Proofs.Grammar.Sound
import LuaSyntax.Proofs.Lexer.First
import LuaSyntax.Token.Comments
/-!
# Tokens that can be written

The tokens that a text without lexical errors is made of. The text of such a token is read as that
token, as long as the next character does not merge with it.
-/

namespace LuaSyntax

open Lexer

namespace Keyword

theorem isWord_spelling (k : Keyword) : IsWord k.spelling.toList := by
  cases k
  all_goals
    simp only [spelling, String.reduceToList]
    exact ⟨_, _, rfl, rfl, List.all_eq_true.1 rfl⟩

theorem ofSpelling?_spelling {d : Dialect} {k : Keyword} (h : k.isReserved d = true) :
    ofSpelling? d k.spelling = some k := by
  cases d <;> cases k <;> first | decide | cases h

end Keyword

namespace Token

open Lexeme

/-- The tokens that the dialect has, each as it is written. -/
inductive Writable (d : Dialect) : Token → Prop
  | keyword {k : Keyword} (reserved : k.isReserved d = true) : Writable d (.keyword k)
  | symbol {s : Symbol} (used : s.isUsed d = true) : Writable d (.symbol s)
  | ident {cs : List Char} (word : IsWord cs)
      (free : Keyword.ofSpelling? d (String.ofList cs) = none) :
      Writable d (.ident (String.ofList cs))
  | label {cs : List Char} (word : IsWord cs) : Writable d (.label (String.ofList cs))
  | number {c : Char} {cs : List Char} (starts : startsNumber c cs = true)
      (faultless : (NumberParts.split c cs).faults = []) :
      Writable d (.number (String.ofList (NumberParts.split c cs).chars))
  | quoted {c : Char} {cs : List Char} (quote : (c == '"' || c == '\'') = true)
      (closed : (quotedTail c cs).2 = true) :
      Writable d (.str (String.ofList (c :: (quotedTail c cs).1)))
  | long {level : Nat} {cs : List Char} (opened : bracketLevel? cs = some level)
      (closed : (bracketed level cs).2 = true) :
      Writable d (.str (String.ofList (bracketed level cs).1))

theorem Writable.isComment_eq_false {d : Dialect} {t : Token} (h : t.Writable d) :
    t.isComment = false := by
  cases h <;> rfl

/-- Whether a token and a character right after it could be read as something else. -/
def mergesWith : Token → Char → Bool
  | keyword _, c | ident _, c => isNameChar c
  | number _, c => isNumberChar c
  | symbol s, c => s.mergesWith c
  | _, _ => false

/-- A token is read back where nothing that follows merges with it. -/
theorem Writable.first? {d : Dialect} {t : Token} (h : t.Writable d) {cs : List Char}
    (hcs : Stops t.mergesWith cs) :
    ∃ l, Lexeme.first? d (t.text.toList ++ cs) = some l ∧ l.token = t ∧ l.chars = t.text.toList ∧
      l.faults = [] := by
  cases h with
  | @keyword k reserved =>
    obtain ⟨l, hl, hchars, hfaults, hkeyword, -⟩ := first?_word (d := d) k.isWord_spelling hcs
    rw [String.ofList_toList] at hkeyword
    exact ⟨l, hl, hkeyword k (Keyword.ofSpelling?_spelling reserved), hchars, hfaults⟩
  | symbol used => exact ⟨_, first?_symbol used hcs, rfl, rfl, rfl⟩
  | ident word free =>
    obtain ⟨l, hl, hchars, hfaults, -, hident⟩ := first?_word word hcs
    refine ⟨l, ?_, hident free, ?_, hfaults⟩
    · simpa [text] using hl
    · simpa [text] using hchars
  | label word =>
    obtain ⟨l, hl, hlabel, hchars, hfaults⟩ := first?_label (d := d) word cs
    refine ⟨l, ?_, hlabel, ?_, hfaults⟩
    · simpa [text] using hl
    · simpa [text] using hchars
  | number starts faultless =>
    obtain ⟨l, hl, hnumber, hchars, hfaults⟩ := first?_number (d := d) starts faultless hcs
    refine ⟨l, ?_, hnumber, ?_, hfaults⟩
    · simpa [text] using hl
    · simpa [text] using hchars
  | quoted quote closed =>
    obtain ⟨l, hl, hstr, hchars, hfaults⟩ := first?_quotedString (d := d) quote closed cs
    refine ⟨l, ?_, hstr, ?_, hfaults⟩
    · simpa [text] using hl
    · simpa [text] using hchars
  | long opened closed =>
    obtain ⟨l, hl, hstr, hchars, hfaults⟩ := first?_longString (d := d) opened closed cs
    refine ⟨l, ?_, hstr, ?_, hfaults⟩
    · simpa [text] using hl
    · simpa [text] using hchars

/-- A shared token can be written in either dialect. -/
theorem writable_of_isShared {t : Token} (h : t.isShared = true) (d : Dialect) : t.Writable d := by
  cases t with
  | keyword k => cases k <;> first | exact .keyword rfl | cases h
  | symbol s => cases s <;> first | exact .symbol rfl | cases h
  | _ => cases h

theorem Filler.writable {t : Token} (h : t.Filler) (d : Dialect) : t.Writable d := by
  cases h with
  | shared h => exact writable_of_isShared h d
  | name =>
    have hword : IsWord "someVariable".toList :=
      ⟨_, _, rfl, rfl, List.all_eq_true.1 rfl⟩
    exact .ident hword (by cases d <;> decide)
  | str =>
    have hclosed : (quotedTail '"' "someString\"".toList).2 = true := by decide
    exact .quoted rfl hclosed
  | number =>
    have hstarts : startsNumber '0' [] = true := by decide
    exact .number hstarts (by decide)
  | label =>
    have hword : IsWord "someLabel".toList := ⟨_, _, rfl, rfl, List.all_eq_true.1 rfl⟩
    exact .label hword

theorem writable_one (d : Dialect) : Writable d (.number "1") := by
  have hstarts : startsNumber '1' [] = true := by decide
  exact .number hstarts (by decide)

end Token

namespace Lexer

theorem Lexeme.unlessClosed_eq_nil {closed : Bool} {fault : LexFault} {cs : List Char} :
    unlessClosed closed fault cs = [] ↔ closed = true := by
  cases closed <;> simp [unlessClosed]

theorem Lexeme.writable_of_first? {d : Dialect} {cs : List Char} {l : Lexeme}
    (h : first? d cs = some l) (hfaults : l.faults = []) (hcomment : l.token.isComment = false) :
    l.token.Writable d := by
  revert h
  fun_cases first? d cs <;> intro h
  case case1 => cases h
  case case2 cs =>
    cases h
    unfold dashComment at hcomment
    split at hcomment <;> cases hcomment
  case case3 cs =>
    cases h
    refine .label (LabelParts.isWord_nameOf fun hempty => ?_)
    have hclosed := unlessClosed_eq_nil.1 hfaults
    simp [LabelParts.split, hempty] at hclosed
  case case4 =>
    cases h
    cases hcomment
  case case5 =>
    cases h
    unfold slashBlockComment at hcomment
    split at hcomment <;> cases hcomment
  case case6 c cs _ _ _ _ hquote =>
    cases h
    exact .quoted hquote (unlessClosed_eq_nil.1 hfaults)
  case case7 c cs _ _ _ _ _ hstarts =>
    cases h
    exact .number hstarts hfaults
  case case8 c cs _ _ _ _ _ _ hname =>
    cases h
    unfold word
    dsimp only
    split
    · next k hk =>
      have hfound := List.find?_some hk
      exact .keyword (Bool.and_eq_true_iff.1 hfound).1
    · next hfree => exact .ident ⟨c, _, rfl, hname, List.all_eq_true.1 List.all_takeWhile⟩ hfree
  case case9 c cs _ _ _ _ _ _ _ level hlevel =>
    cases h
    obtain ⟨tail, htail⟩ := exists_cons_bracketed hlevel
    obtain ⟨rest, hrest⟩ := eq_openingBracket hlevel
    cases hrest
    have hlong := Token.Writable.long (d := d) hlevel (unlessClosed_eq_nil.1 hfaults)
    rw [htail] at hlong
    show Token.Writable d (.str (String.ofList ('[' :: (bracketed level _).1.tail)))
    rwa [htail]
  case case10 c cs _ _ _ _ _ _ _ _ =>
    obtain ⟨s, hs, rfl⟩ := Option.map_eq_some_iff.1 h
    have hfound := List.find?_some hs
    exact .symbol (Bool.and_eq_true_iff.1 hfound).1

theorem writable_read {d : Dialect} {p : Pos} {cs : List Char} {t : Located Token}
    (h : (read d p cs).token = some t) (herrors : (read d p cs).errors = [])
    (hcomment : t.node.isComment = false) : t.node.Writable d := by
  fun_induction read d p cs with
  | case1 p => cases h
  | case2 p c cs _ ih => exact ih h herrors
  | case3 p c cs _ l hl stop =>
    cases h
    exact Lexeme.writable_of_first? hl (List.map_eq_nil_iff.1 herrors) hcomment
  | case4 p c cs _ _ next ih => cases herrors

theorem writable_tokenizeFrom {d : Dialect} {p : Pos} {cs : List Char}
    (herrors : (tokenizeFrom d p cs).2 = []) :
    ∀ t ∈ (tokenizeFrom d p cs).1, t.node.isComment = false → t.node.Writable d := by
  fun_induction tokenizeFrom d p cs with
  | case1 p cs _ => exact fun t ht => absurd ht List.not_mem_nil
  | case2 p cs t h tokens errors heq ih =>
    obtain ⟨hfirst, hrest⟩ := List.append_eq_nil_iff.1 herrors
    rw [heq] at ih
    rw [List.forall_mem_cons]
    exact ⟨writable_read h hfirst, ih hrest⟩

end Lexer

theorem writable_tokenize {source : String} {d : Dialect} (h : (tokenize source d).2 = []) :
    ∀ t ∈ withoutComments (tokenize source d).1, t.node.Writable d := by
  intro t ht
  obtain ⟨hmem, hcomment⟩ := List.mem_filter.1 ht
  exact Lexer.writable_tokenizeFrom h t hmem (by simpa using hcomment)

end LuaSyntax
