/-!
# Starts of a text

A text is read from its start, part by part: each part is a start of what the parts before it have
left.
-/

namespace LuaSyntax.Text

theorem append_isPrefix {as bs cs : List Char} (ha : as <+: cs)
    (hb : bs <+: cs.drop as.length) : as ++ bs <+: cs := by
  obtain ⟨rest, rfl⟩ := ha
  rw [List.drop_left] at hb
  exact (List.prefix_append_right_inj as).2 hb

theorem unless_isPrefix {b : Bool} {as cs : List Char} (h : as <+: cs) :
    (if b then [] else as) <+: cs := by
  cases b
  · exact h
  · exact List.nil_prefix

end LuaSyntax.Text
