import LuaSyntax.Proofs.Lexer.First
import LuaSyntax.Proofs.Lexer.Pieces
import LuaSyntax.Proofs.Lexer.Writable
/-!
# Seams of a text

No lexeme without a fault goes on past a line break that it has not reached, and what it looks at
after its own end is on the same line. So it is read again before any other text whose first line
is a start of what followed it, be that cut short or put before a line break.
-/

namespace LuaSyntax.Lexer

/-- The first line of `cs` is a start of `ds`. -/
def LineWithin (cs ds : List Char) : Prop := untilLineBreak cs <+: ds

section

variable {w as cs ds : List Char} {p : Char → Bool}

theorem LineWithin.of_isPrefix (h : cs <+: ds) : LineWithin cs ds :=
  (untilLineBreak_isPrefix cs).trans h

/-- A text and what is put after it at a line break. -/
theorem LineWithin.of_seam (h : Stops (· ≠ '\n') ds) : LineWithin (cs ++ ds) cs := by
  unfold LineWithin untilLineBreak
  rw [List.takeWhile_append, takeWhile_eq_nil h, List.append_nil]
  split
  · exact List.prefix_refl cs
  · exact List.takeWhile_prefix _

theorem LineWithin.append (h : LineWithin cs ds) (as : List Char) :
    LineWithin (as ++ cs) (as ++ ds) := by
  unfold LineWithin untilLineBreak
  rw [List.takeWhile_append]
  split
  · exact (List.prefix_append_right_inj as).2 h
  · exact (List.takeWhile_prefix _).trans (List.prefix_append as ds)

/-- A start without a line break is a start of both texts. -/
theorem LineWithin.isPrefix (h : LineWithin cs ds) (hline : '\n' ∉ w) (hw : w <+: cs) :
    w <+: ds := by
  obtain ⟨rest, rfl⟩ := hw
  have hall : ∀ c ∈ w, decide (c ≠ '\n') = true := fun c hc =>
    decide_eq_true (ne_of_mem_of_not_mem hc hline)
  refine List.IsPrefix.trans ?_ h
  rw [untilLineBreak, List.takeWhile_append_of_pos hall]
  exact List.prefix_append w _

theorem LineWithin.head?_eq (h : LineWithin cs ds) {c : Char} (hc : cs.head? = some c)
    (hline : c ≠ '\n') : ds.head? = some c := by
  obtain ⟨rest, rfl⟩ := List.head?_eq_some_iff.1 hc
  obtain ⟨rest', rfl⟩ := h.isPrefix (w := [c]) (by simpa using hline.symm) ⟨rest, rfl⟩
  rfl

theorem LineWithin.stops (h : LineWithin cs ds) (hds : Stops p ds) (hline : p '\n' = false) :
    Stops p cs := by
  intro c hc
  by_cases hbreak : c = '\n'
  · rwa [hbreak]
  · exact hds c (h.head?_eq hc hbreak)

theorem LineWithin.bracketLevel? (h : LineWithin cs ds)
    {level : Nat} (hlevel : Lexer.bracketLevel? cs = some level) :
    Lexer.bracketLevel? ds = some level := by
  obtain ⟨rest, rfl⟩ := eq_openingBracket hlevel
  have hopening : openingBracket level rest = openingBracket level [] ++ rest :=
    (openingBracket_append level [] rest).symm
  have hline : '\n' ∉ openingBracket level [] := by simp [openingBracket]
  obtain ⟨rest', rfl⟩ := h.isPrefix hline ⟨rest, hopening.symm⟩
  rw [openingBracket_append]
  exact bracketLevel?_openingBracket _ _

theorem LineWithin.bracketLevel?_eq_none (h : LineWithin cs ds)
    (hlevel : Lexer.bracketLevel? ds = none) : Lexer.bracketLevel? cs = none := by
  cases hcs : Lexer.bracketLevel? cs with
  | none => rfl
  | some level => rw [h.bracketLevel? hcs] at hlevel; cases hlevel

end

/-! ### Parts that end where the text goes on differently -/

theorem stops_of_append {p : Char → Bool} {as bs cs : List Char} (h : as ++ bs = cs)
    (hstops : Stops p (cs.drop as.length)) : Stops p bs := by
  have hdrop : (as ++ bs).drop as.length = bs := List.drop_left
  rwa [← h, hdrop] at hstops

theorem stops_of_untilLineBreak {cs rest : List Char} (h : untilLineBreak cs ++ rest = cs) :
    Stops (· ≠ '\n') rest :=
  stops_of_append h (stops_drop_takeWhile _ cs)

theorem NumberParts.stops_of_chars {first : Char} {cs rest : List Char}
    (h : (split first cs).chars ++ rest = first :: cs) : Stops isNumberChar rest := by
  refine stops_of_append h ?_
  simp only [chars, base, split, List.length_append, ← List.drop_drop, List.length_cons,
    List.drop_succ_cons]
  exact stops_drop_takeWhile _ _

theorem stops_isNameChar_of_isBlank {c : Char} (h : Text.isBlank c = true) :
    isNameChar c = false := by
  rw [Bool.eq_false_iff]
  intro hname
  rw [isBlank_of_isNameChar hname] at h
  cases h

namespace LabelParts

variable {before name after cs ds : List Char}

theorem split_closed (hbefore : ∀ c ∈ before, Text.isBlank c = true) (hname : IsWord name)
    (hafter : ∀ c ∈ after, Text.isBlank c = true) :
    split (before ++ (name ++ (after ++ ':' :: ':' :: ds))) =
      ⟨before, name, after, [':', ':']⟩ := by
  obtain ⟨c, rest, rfl, hc, hrest⟩ := hname
  have hblank : Text.isBlank c = false := isBlank_of_isNameChar (by simp [isNameChar, hc])
  have hstops : Stops isNameChar (after ++ ':' :: ':' :: ds) := by
    cases after with
    | nil => exact stops_cons.2 (by decide)
    | cons a after =>
      exact stops_cons.2 (stops_isNameChar_of_isBlank (hafter a List.mem_cons_self))
  have hbefore' : (before ++ (c :: rest ++ (after ++ ':' :: ':' :: ds))).takeWhile Text.isBlank =
      before :=
    takeWhile_append hbefore (stops_cons.2 hblank)
  have hname' : nameOf (c :: rest ++ (after ++ ':' :: ':' :: ds)) = c :: rest := by
    rw [List.cons_append, nameOf, if_pos hc, takeWhile_append hrest hstops]
  have hafter' : (after ++ ':' :: ':' :: ds).takeWhile Text.isBlank = after :=
    takeWhile_append hafter (stops_cons.2 (by decide))
  simp only [split, hbefore', List.drop_left, hname', hafter']
  simp

/-- A closed label is read again before any text. -/
theorem split_reread (h : (split cs).closer ≠ []) (ds : List Char) :
    split ((split cs).chars ++ ds) = split cs := by
  have hbefore : ∀ c ∈ (split cs).before, Text.isBlank c = true :=
    List.all_eq_true.1 List.all_takeWhile
  have hafter : ∀ c ∈ (split cs).after, Text.isBlank c = true :=
    List.all_eq_true.1 List.all_takeWhile
  have hname : (split cs).name ≠ [] := fun hempty => h (by simp_all [split])
  have hcloser : (split cs).closer = [':', ':'] := by
    unfold split at h ⊢
    dsimp only at h ⊢
    split
    · rfl
    · next hopen => exact absurd (if_neg hopen) h
  have hsplit : split ((split cs).before ++ ((split cs).name ++
      ((split cs).after ++ ':' :: ':' :: ds))) = _ :=
    split_closed hbefore (isWord_nameOf hname) hafter
  have hchars : (split cs).chars ++ ds = (split cs).before ++
      ((split cs).name ++ ((split cs).after ++ ':' :: ':' :: ds)) := by
    simp [chars, hcloser]
  rw [hchars]
  refine hsplit.trans ?_
  rw [← hcloser]

end LabelParts

/-! ### Lexemes -/

namespace Lexeme

variable {d : Dialect} {c : Char} {cs rest rest' : List Char}

theorem eq_of {l m : Lexeme} (htoken : l.token = m.token) (hchars : l.chars = m.chars)
    (hfaults : l.faults = m.faults) : l = m := by
  cases l
  cases m
  cases htoken
  cases hchars
  cases hfaults
  rfl

theorem eq_of_exists {l : Lexeme} {text : List Char} (hfaults : l.faults = [])
    (h : ∃ m, first? d text = some m ∧ m.token = l.token ∧ m.chars = l.chars ∧ m.faults = []) :
    first? d text = some l := by
  obtain ⟨m, hm, htoken, hchars, hm'⟩ := h
  rw [hm, eq_of htoken hchars (hm'.trans hfaults.symm)]

theorem dashComment_of_some {level : Nat} (h : bracketLevel? cs = some level) :
    dashComment cs =
      comment .block '-' ('-' :: (bracketed level cs).1) (bracketed level cs).2 := by
  rw [dashComment, h]

theorem dashComment_of_none (h : bracketLevel? cs = none) :
    dashComment cs = comment .line '-' ('-' :: untilLineBreak cs) true := by
  rw [dashComment, h]

theorem untilLineBreak_reread (hcs : untilLineBreak cs ++ rest = cs) (h : LineWithin rest' rest) :
    untilLineBreak (untilLineBreak cs ++ rest') = untilLineBreak cs :=
  takeWhile_append (List.all_eq_true.1 List.all_takeWhile)
    (h.stops (stops_of_untilLineBreak hcs) (by decide))

theorem dashComment_reread (hfaults : (dashComment cs).faults = [])
    (htext : (dashComment cs).chars ++ rest = '-' :: '-' :: cs) (h : LineWithin rest' rest) :
    first? d ((dashComment cs).chars ++ rest') = some (dashComment cs) := by
  have hfirst (ds : List Char) : first? d ('-' :: '-' :: ds) = some (dashComment ds) := rfl
  cases hlevel : bracketLevel? cs with
  | some level =>
    rw [dashComment_of_some hlevel] at hfaults ⊢
    have hclosed : (bracketed level cs).2 = true := unlessClosed_eq_nil.1 hfaults
    obtain ⟨hlevel', hread⟩ := bracketed_reread hlevel hclosed rest'
    refine (hfirst ((bracketed level cs).1 ++ rest')).trans (congrArg some ?_)
    rw [dashComment_of_some hlevel', hread, hclosed]
  | none =>
    rw [dashComment_of_none hlevel] at htext ⊢
    have hcs : untilLineBreak cs ++ rest = cs := by simpa [comment] using htext
    have hline : LineWithin (untilLineBreak cs ++ rest') cs := by
      have hseam := h.append (untilLineBreak cs)
      rwa [hcs] at hseam
    refine (hfirst (untilLineBreak cs ++ rest')).trans (congrArg some ?_)
    rw [dashComment_of_none (hline.bracketLevel?_eq_none hlevel), untilLineBreak_reread hcs h]

theorem label_reread (hfaults : (label cs).faults = []) :
    first? d ((label cs).chars ++ rest') = some (label cs) := by
  have hclosed : (LabelParts.split cs).closer ≠ [] := by
    simpa using unlessClosed_eq_nil.1 hfaults
  have hfirst : first? d ((label cs).chars ++ rest') =
      some (label ((LabelParts.split cs).chars ++ rest')) := rfl
  rw [hfirst]
  simp only [label, LabelParts.split_reread hclosed]

theorem first?_slashLine (hd : d.hasExtensions = true) (ds : List Char) :
    first? d ('/' :: '/' :: ds) = some (slashLineComment ds) := by
  rw [first?_cons (by simp) (by simp)]
  simp [hd]

theorem first?_slashStar (hd : d.hasExtensions = true) (ds : List Char) :
    first? d ('/' :: '*' :: ds) = some (slashBlockComment ds) := by
  rw [first?_cons (by simp) (by simp)]
  simp [hd]

theorem slashLineComment_reread (hd : d.hasExtensions = true)
    (htext : (slashLineComment cs).chars ++ rest = '/' :: '/' :: cs) (h : LineWithin rest' rest) :
    first? d ((slashLineComment cs).chars ++ rest') = some (slashLineComment cs) := by
  have hcs : untilLineBreak cs ++ rest = cs := by
    simpa [slashLineComment, comment] using htext
  refine (first?_slashLine hd (untilLineBreak cs ++ rest')).trans (congrArg some ?_)
  rw [slashLineComment, slashLineComment, untilLineBreak_reread hcs h]

theorem slashBlockComment_reread (hd : d.hasExtensions = true)
    (hfaults : (slashBlockComment cs).faults = []) :
    first? d ((slashBlockComment cs).chars ++ rest') = some (slashBlockComment cs) := by
  have hread {ds body : List Char} (hbody : through? ['*', '/'] ds = some body) :
      slashBlockComment ds = comment .slashBlock '/' ('*' :: body) true := by
    rw [slashBlockComment, hbody]
  cases hbody : through? ['*', '/'] cs with
  | some body =>
    rw [hread hbody]
    refine (first?_slashStar hd _).trans (congrArg some ?_)
    exact hread (through?_reread hbody (by simp) rest')
  | none =>
    rw [slashBlockComment, hbody] at hfaults
    cases hfaults

theorem word_reread (hname : isNameStart c = true)
    (htext : (word d c cs).chars ++ rest = c :: cs) (h : LineWithin rest' rest) :
    first? d ((word d c cs).chars ++ rest') = some (word d c cs) := by
  have hcs : cs.takeWhile isNameChar ++ rest = cs := by simpa [word] using htext
  have hstops : Stops isNameChar rest :=
    stops_of_append hcs (stops_drop_takeWhile _ cs)
  have htake : (cs.takeWhile isNameChar ++ rest').takeWhile isNameChar =
      cs.takeWhile isNameChar :=
    takeWhile_append (List.all_eq_true.1 List.all_takeWhile) (h.stops hstops (by decide))
  have hfirst : first? d (c :: (cs.takeWhile isNameChar ++ rest')) = _ :=
    first?_of_isNameStart hname
  refine hfirst.trans ?_
  simp only [word, htake]

/-- The longest symbol of a text is still the longest where no more of its line is left. -/
theorem longest?_reread {s : Symbol} (hs : Symbol.longest? d (s.spelling.toList ++ rest) = some s)
    (h : LineWithin rest' rest) : Symbol.longest? d (s.spelling.toList ++ rest') = some s := by
  obtain ⟨hused, before, after, hall, hbefore⟩ := List.find?_eq_some_iff_append.1 hs
  refine List.find?_eq_some_iff_append.2 ⟨?_, before, after, hall, fun t ht => ?_⟩
  · rw [Bool.and_eq_true] at hused ⊢
    exact ⟨hused.1, List.isPrefixOf_iff_prefix.2 (List.prefix_append _ _)⟩
  · have hnot := hbefore t ht
    have hline : '\n' ∉ t.spelling.toList := by cases t <;> decide
    rw [Bool.not_eq_true', Bool.and_eq_false_iff] at hnot ⊢
    refine hnot.imp_right fun hlonger => Bool.eq_false_iff.2 fun hprefix => ?_
    have hstart := (h.append s.spelling.toList).isPrefix hline
      (List.isPrefixOf_iff_prefix.1 hprefix)
    rw [List.isPrefixOf_iff_prefix.2 hstart] at hlonger
    cases hlonger

/-- A lexeme that opens a text as a symbol, where it is no comment, label, string, number or
word. -/
theorem symbol_reread {s : Symbol}
    (hdash : c = '-' → cs.head? ≠ some '-') (hcolon : c = ':' → cs.head? ≠ some ':')
    (hline : ¬(c == '/' && cs.head? == some '/' && d.hasExtensions) = true)
    (hblock : ¬(c == '/' && cs.head? == some '*' && d.hasExtensions) = true)
    (hquote : ¬(c == '"' || c == '\'') = true)
    (hnumber : ¬(c.isDigit || (c == '.' && cs.head?.any Char.isDigit)) = true)
    (hname : ¬isNameStart c = true) (hlevel : bracketLevel? (c :: cs) = none)
    (hs : Symbol.longest? d (c :: cs) = some s)
    (htext : s.spelling.toList ++ rest = c :: cs) (h : LineWithin rest' rest) :
    first? d (s.spelling.toList ++ rest') = some (symbol s) := by
  have hlongest : Symbol.longest? d (s.spelling.toList ++ rest') = some s :=
    longest?_reread (htext ▸ hs) h
  have hwhole := h.append s.spelling.toList
  obtain ⟨c', tail, hspelling, -⟩ := exists_cons_spelling s
  rw [hspelling, List.cons_append] at htext hlongest hwhole ⊢
  obtain ⟨rfl, rfl⟩ := List.cons.inj htext
  -- what stands after the first character is the same, or a line break, or nothing
  have hnext {a : Char} (ha : a ≠ '\n') (hhead : (tail ++ rest').head? = some a) :
      (tail ++ rest).head? = some a :=
    (h.append tail).head?_eq hhead ha
  rw [first?_cons (fun hc hhead => hdash hc (hnext (by decide) hhead))
    (fun hc hhead => hcolon hc (hnext (by decide) hhead)), if_neg, if_neg, if_neg hquote, if_neg,
    if_neg hname, hwhole.bracketLevel?_eq_none hlevel, hlongest]
  · rfl
  · intro hdigit
    refine hnumber ?_
    rw [Bool.or_eq_true, Bool.and_eq_true] at hdigit ⊢
    refine hdigit.imp_right fun hpoint => ⟨hpoint.1, ?_⟩
    obtain ⟨a, hhead, ha⟩ := (Option.any_eq_true _ _).1 hpoint.2
    have hbreak : a ≠ '\n' := by
      rintro rfl
      cases ha
    rw [hnext hbreak hhead]
    exact ha
  · intro hstar
    refine hblock ?_
    simp only [Bool.and_eq_true, beq_iff_eq] at hstar ⊢
    exact ⟨⟨hstar.1.1, hnext (by decide) hstar.1.2⟩, hstar.2⟩
  · intro hslash
    refine hline ?_
    simp only [Bool.and_eq_true, beq_iff_eq] at hslash ⊢
    exact ⟨⟨hslash.1.1, hnext (by decide) hslash.1.2⟩, hslash.2⟩

/-- A lexeme without a fault is read again before any text whose first line is a start of what
followed it. -/
theorem first?_reread {l : Lexeme} (hl : first? d (l.chars ++ rest) = some l)
    (hfaults : l.faults = []) (h : LineWithin rest' rest) :
    first? d (l.chars ++ rest') = some l := by
  generalize htext : l.chars ++ rest = text at hl
  revert hl
  fun_cases first? d text <;> intro hl
  case case1 => cases hl
  case case2 cs =>
    cases hl
    exact dashComment_reread hfaults htext h
  case case3 cs =>
    cases hl
    exact label_reread hfaults
  case case4 c cs _ _ hc =>
    cases hl
    simp only [Bool.and_eq_true, beq_iff_eq] at hc
    obtain ⟨ds, rfl⟩ := List.head?_eq_some_iff.1 hc.1.2
    rw [hc.1.1] at htext
    exact slashLineComment_reread hc.2 htext h
  case case5 c cs _ _ _ hc =>
    cases hl
    simp only [Bool.and_eq_true, beq_iff_eq] at hc
    exact slashBlockComment_reread hc.2 hfaults
  case case6 c cs _ _ _ _ hquote =>
    cases hl
    exact eq_of_exists hfaults
      (first?_quotedString hquote (unlessClosed_eq_nil.1 hfaults) rest')
  case case7 c cs _ _ _ _ _ hnumber =>
    cases hl
    have hstops := h.stops (NumberParts.stops_of_chars htext) (by decide)
    exact eq_of_exists hfaults (first?_number hnumber hfaults hstops)
  case case8 c cs _ _ _ _ _ _ hname =>
    cases hl
    exact word_reread hname htext h
  case case9 c cs _ _ _ _ _ _ _ level hlevel =>
    cases hl
    obtain ⟨tail, htail⟩ := exists_cons_bracketed hlevel
    obtain ⟨opened, hopened⟩ := eq_openingBracket hlevel
    obtain ⟨rfl, -⟩ := List.cons.inj hopened
    have hlong := first?_longString (d := d) hlevel (unlessClosed_eq_nil.1 hfaults) rest'
    have hchars : (longString level cs).chars = (bracketed level ('[' :: cs)).1 := by
      rw [htail]
      show '[' :: (bracketed level ('[' :: cs)).1.tail = _
      rw [htail, List.tail_cons]
    rw [← hchars] at hlong
    exact eq_of_exists hfaults hlong
  case case10 c cs hdash hcolon hline hblock hquote hnumber hname hlevel =>
    obtain ⟨s, hs, rfl⟩ := Option.map_eq_some_iff.1 hl
    refine symbol_reread (fun hc hhead => ?_) (fun hc hhead => ?_) hline hblock hquote hnumber hname
      hlevel hs htext h
    · obtain ⟨ds, hds⟩ := List.head?_eq_some_iff.1 hhead
      exact hdash ds hc hds
    · obtain ⟨ds, hds⟩ := List.head?_eq_some_iff.1 hhead
      exact hcolon ds hc hds

end Lexeme

/-! ### Pieces -/

variable {d : Dialect} {p : Pos} {cs ds : List Char} {tokens tokens' : List (Located Token)}
  {errors errors' : List LexError}

theorem Lexeme.faults_of_errors {l : Lexeme} (h : l.errors p = []) : l.faults = [] :=
  List.map_eq_nil_iff.1 h

/-- The pieces of a text without errors are followed by those of what comes after a line break. -/
theorem Pieces.append (h : Pieces d p cs tokens errors) (herrors : errors = [])
    (hseam : Stops (· ≠ '\n') ds) (hds : Pieces d (p.advanceOver cs) ds tokens' errors') :
    Pieces d p (cs ++ ds) (tokens ++ tokens') errors' := by
  induction h with
  | done p => exact hds
  | blank hc _ ih => exact .blank hc (ih herrors hds)
  | stray _ _ _ _ => cases herrors
  | @lexeme p l cs tokens errors hblank hl _ ih =>
    obtain ⟨hfirst, hrest⟩ := List.append_eq_nil_iff.1 herrors
    have hl' : Lexeme.first? d (l.chars ++ (cs ++ ds)) = some l :=
      Lexeme.first?_reread hl (Lexeme.faults_of_errors hfirst) (.of_seam hseam)
    rw [Pos.advanceOver_append] at hds
    have hpieces := Pieces.lexeme (p := p) hblank hl' (ih hrest hds)
    rwa [Lexeme.errors, Lexeme.faults_of_errors hfirst, List.map_nil, List.nil_append,
      ← List.append_assoc] at hpieces

end LuaSyntax.Lexer
