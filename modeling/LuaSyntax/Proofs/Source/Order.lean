import LuaSyntax.Source.Position
/-!
# The order of positions

Reading a character moves a position forward, so the positions of a text are met in order and none
of them twice. The end of a text is where reading all of it leads.
-/

namespace LuaSyntax.Pos

/-- `p` stands on an earlier line than `q`, or further left on the same line. -/
def Before (p q : Pos) : Prop :=
  p.line < q.line ∨ p.line = q.line ∧ p.column < q.column

variable {p q r : Pos}

theorem Before.trans (hpq : p.Before q) (hqr : q.Before r) : p.Before r := by
  unfold Before at *
  omega

theorem Before.le (h : p.Before q) : p ≤ q := by
  unfold Before at h
  rw [le_iff]
  omega

theorem not_le_of_before (h : p.Before q) : ¬q ≤ p := by
  unfold Before at h
  rw [le_iff]
  omega

theorem Before.ne (h : p.Before q) : p ≠ q := by
  rintro rfl
  unfold Before at h
  omega

theorem before_advance (p : Pos) (c : Char) : p.Before (p.advance c) := by
  unfold Before advance
  split <;> simp

/-- `p` is `q` or stands before it. -/
def NotAfter (p q : Pos) : Prop := p = q ∨ p.Before q

theorem NotAfter.trans_before (hpq : p.NotAfter q) (hqr : q.Before r) : p.Before r := by
  rcases hpq with rfl | hpq
  · exact hqr
  · exact hpq.trans hqr

theorem Before.trans_notAfter (hpq : p.Before q) (hqr : q.NotAfter r) : p.Before r := by
  rcases hqr with rfl | hqr
  · exact hpq
  · exact hpq.trans hqr

theorem NotAfter.trans (hpq : p.NotAfter q) (hqr : q.NotAfter r) : p.NotAfter r := by
  rcases hpq with rfl | hpq
  · exact hqr
  · exact .inr (hpq.trans_notAfter hqr)

theorem notAfter_advanceOver (p : Pos) (cs : List Char) : p.NotAfter (p.advanceOver cs) := by
  induction cs generalizing p with
  | nil => exact .inl rfl
  | cons c cs ih => exact .inr ((before_advance p c).trans_notAfter (ih _))

theorem before_advanceOver (p : Pos) {cs : List Char} (h : cs ≠ []) :
    p.Before (p.advanceOver cs) := by
  cases cs with
  | nil => exact absurd rfl h
  | cons c cs => exact (before_advance p c).trans_notAfter (notAfter_advanceOver _ cs)

theorem byteSize_append (cs ds : List Char) :
    byteSize (cs ++ ds) = byteSize cs + byteSize ds := by
  induction cs with
  | nil => simp [byteSize]
  | cons c cs ih => simp [byteSize, ih, Nat.add_assoc]

theorem endOf_append_singleton (cs : List Char) (c : Char) :
    endOf (cs ++ [c]) = (endOf cs).advance c := by
  by_cases hc : c = '\n'
  · subst hc
    simp [endOf, advance, byteSize_append, byteSize]
  · simp [endOf, advance, byteSize_append, byteSize, hc]

theorem advanceOver_eq_endOf (cs : List Char) : advanceOver default cs = endOf cs := by
  induction h : cs.length generalizing cs with
  | zero =>
    rw [List.eq_nil_of_length_eq_zero h]
    rfl
  | succ n ih =>
    obtain ⟨ds, c, rfl⟩ : ∃ ds c, cs = ds ++ [c] :=
      ⟨cs.dropLast, cs.getLast (by rintro rfl; cases h), (List.dropLast_concat_getLast _).symm⟩
    rw [advanceOver_append, ih ds (by simpa using h), endOf_append_singleton]
    rfl

end LuaSyntax.Pos
