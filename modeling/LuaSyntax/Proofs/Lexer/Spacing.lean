import LuaSyntax.Proofs.Lexer.Pieces
import LuaSyntax.Proofs.Lexer.Writable
import LuaSyntax.Proofs.Tree.Printed
/-!
# Layouts that are read back

The text of a layout is read as the tokens of the layout, if no token merges with the character
after it. What a layout is made of keeps its tokens apart or stops where the next part starts.
-/

namespace LuaSyntax

open Lexer

/-! ### Reading a text token by token -/

namespace Token

/-- The characters that the text of a token can start with. -/
def opensWith : Token → Char → Bool
  | keyword _, c | ident _, c => isNameStart c
  | symbol s, c => s.spelling.toList.head? == some c
  | str _, c => c == '"' || c == '\'' || c == '['
  | number _, c => c.isDigit || c == '.'
  | label _, c => c == ':'
  | comment _, _ => false

theorem Writable.exists_cons {d : Dialect} {t : Token} (h : t.Writable d) :
    ∃ c cs, t.text.toList = c :: cs ∧ t.opensWith c = true := by
  cases h with
  | @keyword k _ =>
    obtain ⟨c, cs, hk, hc, -⟩ := k.isWord_spelling
    exact ⟨c, cs, hk, hc⟩
  | @symbol s _ => cases s <;> exact ⟨_, _, rfl, rfl⟩
  | ident word _ =>
    obtain ⟨c, cs, rfl, hc, -⟩ := word
    exact ⟨c, cs, String.toList_ofList, hc⟩
  | @label cs _ => exact ⟨':', ':' :: (cs ++ [':', ':']), by simp [text], rfl⟩
  | number starts _ =>
    exact ⟨_, _, String.toList_ofList, Lexeme.startsNumber.isDigit_or starts⟩
  | quoted quote _ => exact ⟨_, _, String.toList_ofList, by simp [opensWith, quote]⟩
  | long opened _ =>
    obtain ⟨tail, htail⟩ := Lexeme.exists_cons_bracketed opened
    rw [htail]
    exact ⟨_, _, String.toList_ofList, rfl⟩

theorem isBlank_of_opensWith {t : Token} {c : Char} (h : t.opensWith c = true) :
    Text.isBlank c = false := by
  cases t with
  | keyword _ | ident _ =>
    have hname : isNameStart c = true := h
    exact isBlank_of_isNameChar (by simp [isNameChar, hname])
  | symbol s =>
    have hhead := eq_of_beq h
    cases s <;> cases hhead <;> decide
  | str raw =>
    simp only [opensWith, Bool.or_eq_true, beq_iff_eq] at h
    rcases h with (rfl | rfl) | rfl <;> decide
  | number raw =>
    simp only [opensWith, Bool.or_eq_true, beq_iff_eq] at h
    rcases h with h | rfl
    · exact isBlank_of_isNameChar (isNameChar_of_isDigit h)
    · decide
  | label name =>
    cases eq_of_beq h
    decide
  | comment _ => cases h

end Token

namespace Lexer

/-- The text is read as the tokens `ts`, without an error. -/
def Lexes (d : Dialect) (cs : List Char) (ts : List Token) : Prop :=
  ∀ p, (tokenizeFrom d p cs).1.map (·.node) = ts ∧ (tokenizeFrom d p cs).2 = []

variable {d : Dialect} {cs : List Char} {ts : List Token}

theorem Lexes.nil : Lexes d [] [] := by
  intro p
  rw [tokenizeFrom_nil]
  exact ⟨rfl, rfl⟩

theorem Lexes.blank {c : Char} (hc : Text.isBlank c = true) (h : Lexes d cs ts) :
    Lexes d (c :: cs) ts := by
  intro p
  rw [tokenizeFrom_blank hc]
  exact h (p.advance c)

theorem Lexes.lexeme {l : Lexeme} (hblank : ∀ c ∈ l.chars.head?, Text.isBlank c = false)
    (hl : Lexeme.first? d (l.chars ++ cs) = some l) (hfaults : l.faults = [])
    (h : Lexes d cs ts) : Lexes d (l.chars ++ cs) (l.token :: ts) := by
  intro p
  obtain ⟨htokens, herrors⟩ := h (p.advanceOver l.chars)
  rw [tokenizeFrom_lexeme hblank hl, Lexeme.errors, hfaults]
  exact ⟨congrArg (l.token :: ·) htokens, herrors⟩

theorem Lexes.token {t : Token} (ht : t.Writable d) (hcs : Stops t.mergesWith cs)
    (h : Lexes d cs ts) : Lexes d (t.text.toList ++ cs) (t :: ts) := by
  obtain ⟨l, hl, htoken, hchars, hfaults⟩ := ht.first? hcs
  obtain ⟨c, rest, hrest, hc⟩ := ht.exists_cons
  have hblank : ∀ a ∈ l.chars.head?, Text.isBlank a = false := by
    rw [hchars, hrest]
    rintro a ⟨⟩
    exact Token.isBlank_of_opensWith hc
  rw [← hchars] at hl ⊢
  rw [← htoken]
  exact h.lexeme hblank hl hfaults

end Lexer

/-! ### Layouts -/

namespace Layout

variable {d : Dialect} {p q : Char → Bool} {l m : Layout} {t : Token}

/-- The characters of a layout. -/
def chars (l : Layout) : List Char := l.flatMap (·.text.toList)

@[simp] theorem chars_nil : chars [] = [] := rfl

@[simp] theorem chars_append (l m : Layout) : chars (l ++ m) = chars l ++ chars m :=
  List.flatMap_append

@[simp] theorem chars_cons (piece : Piece) (l : Layout) :
    chars (piece :: l) = piece.text.toList ++ chars l :=
  List.flatMap_cons

theorem toList_text (l : Layout) : l.text.toList = l.chars := by
  unfold text
  induction l with
  | nil => simp
  | cons piece l ih => rw [List.map_cons, String.join_cons, String.toList_append, ih, chars_cons]

/-- The dialect has all tokens of the layout. -/
def Written (d : Dialect) (l : Layout) : Prop := ∀ t ∈ l.tokens, t.Writable d

/-- The text of the layout starts with a character outside the class. -/
def Avoids (d : Dialect) (p : Char → Bool) (l : Layout) : Prop :=
  l.Written d → ∃ c cs, l.chars = c :: cs ∧ p c = false

/-- Before anything that starts outside the class, the text of the layout is read as its tokens. -/
def Lexes (d : Dialect) (p : Char → Bool) (l : Layout) : Prop :=
  l.Written d → ∀ cs ts, Stops p cs → Lexer.Lexes d cs ts →
    Lexer.Lexes d (l.chars ++ cs) (l.tokens ++ ts)

theorem written_append : (l ++ m).Written d ↔ l.Written d ∧ m.Written d := by
  simp [Written, or_imp, forall_and]

theorem written_cons_token : Written d (.token t :: l) ↔ t.Writable d ∧ l.Written d := by
  simp [Written]

/-! #### How a layout starts -/

theorem Avoids.stops (h : l.Avoids d p) (hl : l.Written d) (cs : List Char) :
    Stops p (l.chars ++ cs) := by
  obtain ⟨c, rest, hrest, hc⟩ := h hl
  rw [hrest]
  exact stops_cons.2 hc

theorem Avoids.append (h : l.Avoids d p) (m : Layout) : (l ++ m).Avoids d p := by
  intro hw
  obtain ⟨c, rest, hrest, hc⟩ := h (written_append.1 hw).1
  exact ⟨c, rest ++ m.chars, by simp [hrest], hc⟩

theorem avoids_token (h : ∀ c, t.opensWith c = true → p c = false) (l : Layout) :
    Avoids d p (.token t :: l) := by
  intro hw
  obtain ⟨c, rest, hrest, hc⟩ := (written_cons_token.1 hw).1.exists_cons
  exact ⟨c, rest ++ l.chars, by simp [Piece.text, hrest], h c hc⟩

theorem avoids_blank (l : Layout) (h : p ' ' = false) : Avoids d p (.blank :: l) :=
  fun _ => ⟨' ', l.chars, rfl, h⟩

theorem avoids_newline (l : Layout) (h : p '\n' = false) :
    Avoids d p (.newline :: l) :=
  fun _ => ⟨'\n', l.chars, rfl, h⟩

/-! #### How a layout is read -/

theorem Lexes.mono (h : l.Lexes d p) (hpq : ∀ c, p c = true → q c = true) : l.Lexes d q :=
  fun hw cs ts hcs hts => h hw cs ts (hcs.mono hpq) hts

theorem Lexes.nil : Lexes d p [] := fun _ _ _ _ hts => hts

theorem Lexes.append_stops (hl : l.Lexes d p) (hm : m.Lexes d q)
    (h : m.Written d → ∀ cs, Stops q cs → Stops p (m.chars ++ cs)) : (l ++ m).Lexes d q := by
  intro hw cs ts hcs hts
  obtain ⟨hwl, hwm⟩ := written_append.1 hw
  rw [chars_append, tokens_append, List.append_assoc, List.append_assoc]
  exact hl hwl _ _ (h hwm cs hcs) (hm hwm cs ts hcs hts)

theorem Lexes.append (hl : l.Lexes d p) (hm : m.Lexes d q) (h : m.Avoids d p) :
    (l ++ m).Lexes d q :=
  hl.append_stops hm fun hw cs _ => h.stops hw cs

theorem lexes_token (t : Token) (h : ∀ c, t.mergesWith c = true → p c = true) :
    Lexes d p [.token t] := by
  intro hw cs ts hcs hts
  simpa [Piece.text] using hts.token (written_cons_token.1 hw).1 (hcs.mono h)

theorem Lexes.cons (hm : m.Lexes d q) (h : m.Avoids d t.mergesWith) :
    Lexes d q (.token t :: m) :=
  (lexes_token t fun _ hc => hc).append hm h

/-- Nothing merges with the token. -/
theorem Lexes.cons_free (hm : m.Lexes d q) (h : ∀ c, t.mergesWith c = false) :
    Lexes d q (.token t :: m) :=
  (lexes_token (p := fun _ => false) t fun c hc => absurd hc (by simp [h])).append_stops hm
    fun _ _ _ _ _ => rfl

theorem Lexes.blank (hm : m.Lexes d q) : Lexes d q (.blank :: m) :=
  fun hw cs ts hcs hts => (hm hw cs ts hcs hts).blank (by decide)

theorem Lexes.newline (hm : m.Lexes d q) : Lexes d q (.newline :: m) :=
  fun hw cs ts hcs hts => (hm hw cs ts hcs hts).blank (by decide)

end Layout

end LuaSyntax
