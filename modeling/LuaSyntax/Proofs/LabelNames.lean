import LuaSyntax.Proofs.Lexer.Reports
import LuaSyntax.Proofs.Lexer.Spacing
/-!
# Names of labels

The name in a well-formed label is a word, which by itself is read as one token: a keyword if the
dialect reserves it, and else an identifier, which a `goto` can name.
-/

namespace LuaSyntax

namespace Lexer

variable {d : Dialect} {p : Pos} {cs : List Char} {l : Lexeme} {name : String}

/-- A word stands for a keyword of the dialect or for an identifier. -/
theorem Lexes.word {w : List Char} (hw : IsWord w) :
    Lexes d w [(Keyword.ofSpelling? d (String.ofList w)).elim
      (.ident (String.ofList w)) .keyword] := by
  obtain ⟨l, hl, hchars, hfaults, hkeyword, hident⟩ := Lexeme.first?_word (d := d) hw .nil
  have htoken : l.token = (Keyword.ofSpelling? d (String.ofList w)).elim
      (.ident (String.ofList w)) .keyword := by
    cases hk : Keyword.ofSpelling? d (String.ofList w) with
    | some k => exact hkeyword k hk
    | none => exact hident hk
  have hblank : ∀ c ∈ l.chars.head?, Text.isBlank c = false := by
    obtain ⟨c, rest, rfl, hc, -⟩ := hw
    rw [hchars]
    rintro a ⟨⟩
    exact isBlank_of_isNameChar (by simp [isNameChar, hc])
  rw [← hchars] at hl
  have hread := Lexes.nil.lexeme hblank hl hfaults
  rwa [List.append_nil, hchars, htoken] at hread

theorem Lexeme.faults_label_eq_nil
    (h : ∀ e ∈ (label cs).errors p, e.fault ≠ .malformedLabel) : (label cs).faults = [] := by
  rcases faults_label cs with hnil | ⟨read, hread⟩
  · exact hnil
  · rw [errors, hread] at h
    exact absurd rfl (h _ (List.mem_singleton_self _))

end Lexer

/-- The name of a label that is not reported as malformed is read as one token. It is an identifier
unless the dialect reserves it. -/
theorem tokenize_label_name (source : String) (d : Dialect) (t : Located Token)
    (ht : t ∈ (tokenize source d).1) (name : String) (hlabel : t.node = .label name)
    (hformed : ∀ e ∈ (tokenize source d).2, e.span.start = t.span.start →
      e.fault ≠ .malformedLabel) :
    (tokenize name d).2 = [] ∧
      (tokenize name d).1.map (·.node) =
        [(Keyword.ofSpelling? d name).elim (.ident name) .keyword] := by
  obtain ⟨l, before, after, h⟩ := exists_readFrom_tokenize source d t ht
  have htoken : l.token = .label name := by rw [← hlabel, h.token]
  obtain ⟨rest, -, rfl⟩ := Lexer.Lexeme.eq_label h.first htoken
  have hfaults : (Lexer.Lexeme.label rest).faults = [] := by
    refine Lexer.Lexeme.faults_label_eq_nil (p := t.span.start) fun e he => ?_
    rw [← h.reports] at he
    obtain ⟨hmem, hstart⟩ := List.mem_filter.1 he
    exact hformed e hmem (of_decide_eq_true hstart)
  have hwritable := Lexer.Lexeme.writable_of_first? h.first hfaults rfl
  rw [htoken] at hwritable
  cases hwritable with
  | label word =>
    obtain ⟨htokens, herrors⟩ := Lexer.Lexes.word (d := d) word default
    rw [tokenize, String.toList_ofList]
    exact ⟨herrors, htokens⟩

/-- Lua 5.2 does not reserve `continue`. -/
theorem tokenize_label_name_continue :
    let source := "goto continue :: continue ::"
    let t : Located Token := ⟨.label "continue", ⟨⟨0, 14, 14⟩, ⟨0, 28, 28⟩⟩⟩
    t ∈ (tokenize source .lua52).1 ∧
      (∀ e ∈ (tokenize source .lua52).2, e.span.start = t.span.start →
        e.fault ≠ .malformedLabel) ∧
      (Keyword.ofSpelling? .lua52 "continue" = none ∧
        Keyword.ofSpelling? .glua "continue" = some .continue_) ∧
      (tokenize "continue" .lua52).2 = [] ∧
      (tokenize "continue" .lua52).1.map (·.node) =
        [(Keyword.ofSpelling? .lua52 "continue").elim (.ident "continue") .keyword] := by
  intro source t
  have ht : t ∈ (tokenize source .lua52).1 := by decide +kernel
  have hformed : ∀ e ∈ (tokenize source .lua52).2, e.span.start = t.span.start →
      e.fault ≠ .malformedLabel := by decide +kernel
  exact ⟨ht, hformed, by decide, tokenize_label_name source .lua52 t ht "continue" rfl hformed⟩

/-- A label may have the name of a keyword, which is no identifier. -/
theorem label_named_as_keyword :
    ¬ ∀ (source : String) (d : Dialect), ∀ t ∈ (tokenize source d).1, ∀ name,
      t.node = .label name →
      (∀ e ∈ (tokenize source d).2, e.span.start = t.span.start → e.fault ≠ .malformedLabel) →
        (tokenize name d).1.map (·.node) = [.ident name] := by
  intro h
  have hend := h "::end::" .lua52 ⟨.label "end", ⟨⟨0, 0, 0⟩, ⟨0, 7, 7⟩⟩⟩ (by decide +kernel) "end"
    rfl (by decide +kernel)
  exact absurd hend (by decide +kernel)

end LuaSyntax
