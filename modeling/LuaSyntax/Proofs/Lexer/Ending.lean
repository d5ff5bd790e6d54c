import LuaSyntax.Proofs.Lexer.Seam
/-!
# Where strings and comments end

A quoted string ends with the first quote that no backslash escapes, and a text between brackets
with the first closing mark. Where there is none, a fault is found.
-/

namespace LuaSyntax.Lexer

variable {cs ds body tail mark : List Char} {q c : Char} {fault : LexFault}
  {faults : List LexFault}

/-! ### Quoted strings -/

/-- What a string can hold between two quotes `q`. A backslash takes the next character with it; by
themselves, the quote, a line break and a backslash are not in it. -/
inductive QuotedBody (q : Char) : List Char → Prop
  | nil : QuotedBody q []
  | plain {c : Char} {cs : List Char} (hquote : c ≠ q) (hslash : c ≠ '\\') (hline : c ≠ '\n')
      (h : QuotedBody q cs) : QuotedBody q (c :: cs)
  | escaped (c : Char) {cs : List Char} (h : QuotedBody q cs) : QuotedBody q ('\\' :: c :: cs)

/-- How a string goes on after its opening quote in `cs`, and what is wrong with it. -/
inductive QuotedEnd (q : Char) (cs : List Char) : List Char → List LexFault → Prop
  | quote {body after : List Char} (hbody : QuotedBody q body) (hcs : cs = body ++ q :: after) :
      QuotedEnd q cs (body ++ [q]) []
  | lineBreak {body after : List Char} (hbody : QuotedBody q body)
      (hcs : cs = body ++ '\n' :: after) : QuotedEnd q cs body [.unterminatedString]
  | endOfText (hbody : QuotedBody q cs) : QuotedEnd q cs cs [.unterminatedString]
  | slashAtEnd {body : List Char} (hbody : QuotedBody q body) (hcs : cs = body ++ ['\\']) :
      QuotedEnd q cs cs [.unterminatedString]

theorem QuotedBody.append (hbody : QuotedBody q body) (h : QuotedBody q cs) :
    QuotedBody q (body ++ cs) := by
  induction hbody with
  | nil => exact h
  | plain hquote hslash hline _ ih => exact .plain hquote hslash hline ih
  | escaped c _ ih => exact .escaped c ih

theorem QuotedEnd.append (hbody : QuotedBody q body) (h : QuotedEnd q cs tail faults) :
    QuotedEnd q (body ++ cs) (body ++ tail) faults := by
  cases h with
  | quote hmore hcs =>
    rw [← List.append_assoc]
    exact .quote (hbody.append hmore) (by rw [hcs, List.append_assoc])
  | lineBreak hmore hcs =>
    exact .lineBreak (hbody.append hmore) (by rw [hcs, List.append_assoc])
  | endOfText hmore => exact .endOfText (hbody.append hmore)
  | slashAtEnd hmore hcs =>
    exact .slashAtEnd (hbody.append hmore) (by rw [hcs, List.append_assoc])

theorem quotedEnd_quotedTail (q : Char) (cs : List Char) :
    QuotedEnd q cs (quotedTail q cs).1
      (if (quotedTail q cs).2 then [] else [.unterminatedString]) := by
  fun_induction quotedTail q cs with
  | case1 => exact .endOfText .nil
  | case2 cs => exact .lineBreak .nil rfl
  | case3 c cs rest closed hrest ih =>
    rw [hrest] at ih
    exact ih.append (.escaped c .nil)
  | case4 => exact .quote .nil rfl
  | case5 c cs hbreak hescape hclose rest closed hrest ih =>
    rw [hrest] at ih
    by_cases hslash : c = '\\'
    · subst hslash
      cases cs with
      | cons d cs => exact absurd rfl (hescape d cs rfl)
      | nil =>
        cases hrest
        exact .slashAtEnd .nil rfl
    · exact ih.append (.plain hclose hslash hbreak .nil)

/-! ### Closing marks -/

/-- How a text goes on in `cs` that is closed by the first `mark`, and what is wrong with it: just
if there is no mark, it is not closed and goes on to the end. -/
inductive MarkedEnd (mark : List Char) (fault : LexFault) (cs : List Char) :
    List Char → List LexFault → Prop
  | mark (before after : List Char) (hcs : cs = before ++ (mark ++ after))
      (hfirst : ∀ before' after', cs = before' ++ (mark ++ after') →
        before.length ≤ before'.length) : MarkedEnd mark fault cs (before ++ mark) []
  | endOfText (h : ¬ mark <:+: cs) : MarkedEnd mark fault cs cs [fault]

theorem MarkedEnd.cons (hmark : ¬ mark <+: c :: cs) (h : MarkedEnd mark fault cs tail faults) :
    MarkedEnd mark fault (c :: cs) (c :: tail) faults := by
  cases h with
  | mark before after hcs hfirst =>
    rw [← List.cons_append]
    refine .mark (c :: before) after (by rw [hcs, List.cons_append]) fun before' after' h => ?_
    cases before' with
    | nil => exact absurd ⟨after', h.symm⟩ hmark
    | cons a before' =>
      obtain ⟨-, h⟩ := List.cons.inj h
      exact Nat.succ_le_succ (hfirst before' after' h)
  | endOfText h =>
    refine .endOfText fun hinfix => ?_
    rcases List.infix_cons_iff.1 hinfix with hprefix | hinfix
    · exact hmark hprefix
    · exact h hinfix

theorem markedEnd_through? (mark : List Char) (hne : mark ≠ []) (fault : LexFault)
    (cs : List Char) :
    match through? mark cs with
    | some tail => MarkedEnd mark fault cs tail []
    | none => MarkedEnd mark fault cs cs [fault] := by
  induction cs with
  | nil => exact .endOfText fun h => hne (List.infix_nil.1 h)
  | cons c cs ih =>
    by_cases hmark : mark.isPrefixOf (c :: cs) = true
    · rw [through?, if_pos hmark]
      obtain ⟨after, hafter⟩ := List.isPrefixOf_iff_prefix.1 hmark
      exact .mark [] after hafter.symm fun _ _ _ => Nat.zero_le _
    · rw [through?, if_neg hmark]
      rw [List.isPrefixOf_iff_prefix] at hmark
      cases htail : through? mark cs with
      | some tail =>
        rw [htail] at ih
        exact ih.cons hmark
      | none =>
        rw [htail] at ih
        exact ih.cons hmark

/-- A long bracket ends with the first closing one of its level. -/
theorem markedEnd_bracketed (level : Nat) (fault : LexFault) (rest : List Char) :
    ∃ tail closed,
      bracketed level (openingBracket level rest) = (openingBracket level tail, closed) ∧
      MarkedEnd (closingBracket level) fault rest tail (if closed then [] else [fault]) := by
  have hend := markedEnd_through? (closingBracket level) nofun fault rest
  rw [bracketed_openingBracket]
  cases hbody : through? (closingBracket level) rest with
  | some body =>
    rw [hbody] at hend
    exact ⟨body, true, rfl, hend⟩
  | none =>
    rw [hbody] at hend
    exact ⟨rest, false, rfl, hend⟩

/-! ### Line comments -/

/-- What goes on in `cs` up to the end of its line. -/
def LineEnd (cs line : List Char) : Prop :=
  '\n' ∉ line ∧ (cs = line ∨ ∃ after, cs = line ++ '\n' :: after)

theorem lineEnd_untilLineBreak (cs : List Char) : LineEnd cs (untilLineBreak cs) := by
  have hline : '\n' ∉ untilLineBreak cs := by
    intro h
    have hplain := List.all_eq_true.1 List.all_takeWhile _ h
    exact absurd rfl (of_decide_eq_true hplain)
  refine ⟨hline, ?_⟩
  obtain ⟨after, hafter⟩ := untilLineBreak_isPrefix cs
  cases after with
  | nil =>
    rw [List.append_nil] at hafter
    exact .inl hafter.symm
  | cons c after =>
    have hstops := stops_of_untilLineBreak hafter c rfl
    obtain rfl : c = '\n' := by simpa using hstops
    exact .inr ⟨after, hafter.symm⟩

end LuaSyntax.Lexer
