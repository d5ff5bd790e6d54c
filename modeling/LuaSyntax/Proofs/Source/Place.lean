import LuaSyntax.Proofs.Source.Order
import LuaSyntax.Source.Span
import Mathlib.Data.String.Basic
/-!
# Places in a text

A position is in a text if a start of the text ends there: its line and its column are then counted
right, and its offset does not cut a character in two. A span is in a text if both its ends are, and
they are in order. Joining spans never leads out of the text.
-/

namespace LuaSyntax

namespace Pos

variable {p q r : Pos} {cs : List Char}

theorem le_refl (p : Pos) : p ≤ p := by
  rw [le_iff]
  omega

theorem le_trans (hpq : p ≤ q) (hqr : q ≤ r) : p ≤ r := by
  rw [le_iff] at *
  omega

theorem le_total (p q : Pos) : p ≤ q ∨ q ≤ p := by
  rw [le_iff, le_iff]
  omega

theorem NotAfter.le (h : p.NotAfter q) : p ≤ q := by
  rcases h with rfl | h
  · exact le_refl p
  · exact h.le

theorem min_cases (p q : Pos) : min p q = p ∧ p ≤ q ∨ min p q = q ∧ q ≤ p := by
  change (if p ≤ q then p else q) = p ∧ _ ∨ (if p ≤ q then p else q) = q ∧ _
  by_cases h : p ≤ q
  · exact .inl ⟨if_pos h, h⟩
  · exact .inr ⟨if_neg h, (le_total p q).resolve_left h⟩

theorem max_cases (p q : Pos) : max p q = q ∧ p ≤ q ∨ max p q = p ∧ q ≤ p := by
  change (if p ≤ q then q else p) = q ∧ _ ∨ (if p ≤ q then q else p) = p ∧ _
  by_cases h : p ≤ q
  · exact .inl ⟨if_pos h, h⟩
  · exact .inr ⟨if_neg h, (le_total p q).resolve_left h⟩

theorem offset_advance (p : Pos) (c : Char) : (p.advance c).offset = p.offset + c.utf8Size := by
  unfold advance
  split <;> rfl

theorem offset_lt_advance (p : Pos) (c : Char) : p.offset < (p.advance c).offset := by
  rw [offset_advance]
  exact Nat.lt_add_of_pos_right c.utf8Size_pos

theorem offset_advanceOver (p : Pos) (cs : List Char) :
    (p.advanceOver cs).offset = p.offset + byteSize cs := by
  induction cs generalizing p with
  | nil => rfl
  | cons c cs ih => rw [advanceOver_cons, ih, offset_advance, byteSize, Nat.add_assoc]

theorem byteSize_eq_utf8Len (cs : List Char) : byteSize cs = String.utf8Len cs := by
  induction cs with
  | nil => rfl
  | cons c cs ih => rw [byteSize, ih, String.utf8Len_cons, Nat.add_comm]

theorem byteSize_pos (h : cs ≠ []) : 0 < byteSize cs := by
  obtain ⟨c, cs, rfl⟩ := List.exists_cons_of_ne_nil h
  exact Nat.add_pos_left c.utf8Size_pos _

theorem endOf_append (cs ds : List Char) : endOf (cs ++ ds) = (endOf cs).advanceOver ds := by
  rw [← advanceOver_eq_endOf, advanceOver_append, advanceOver_eq_endOf]

/-- The position is the end of a start of the text. -/
def IsIn (cs : List Char) (p : Pos) : Prop :=
  ∃ before after, cs = before ++ after ∧ p = endOf before

theorem isIn_endOf (cs : List Char) : (endOf cs).IsIn cs := ⟨cs, [], by simp, rfl⟩

end Pos

namespace Span

variable {cs : List Char} {s t : Span}

/-- Both ends of the span are in the text, the start not after the stop. -/
structure IsIn (cs : List Char) (s : Span) : Prop where
  start : s.start.IsIn cs
  stop : s.stop.IsIn cs
  start_le_stop : s.start ≤ s.stop

theorem isIn_point {p : Pos} (h : p.IsIn cs) : (point p).IsIn cs := ⟨h, h, p.le_refl⟩

theorem IsIn.join (hs : s.IsIn cs) (ht : t.IsIn cs) : (s.join t).IsIn cs := by
  unfold Span.join
  refine ⟨?_, ?_, ?_⟩
  · rcases Pos.min_cases s.start t.start with ⟨h, -⟩ | ⟨h, -⟩ <;> simp only [h]
    · exact hs.start
    · exact ht.start
  · rcases Pos.max_cases s.stop t.stop with ⟨h, -⟩ | ⟨h, -⟩ <;> simp only [h]
    · exact ht.stop
    · exact hs.stop
  · have hstart : min s.start t.start ≤ s.start := by
      rcases Pos.min_cases s.start t.start with ⟨h, -⟩ | ⟨h, hle⟩ <;> rw [h]
      · exact s.start.le_refl
      · exact hle
    have hstop : s.stop ≤ max s.stop t.stop := by
      rcases Pos.max_cases s.stop t.stop with ⟨h, hle⟩ | ⟨h, -⟩ <;> rw [h]
      · exact hle
      · exact s.stop.le_refl
    exact Pos.le_trans (Pos.le_trans hstart hs.start_le_stop) hstop

/-- The span is that of the characters `slice` after `before`, in a text that starts at `p`. -/
def Covers (p : Pos) (before slice : List Char) (s : Span) : Prop :=
  s = ⟨p.advanceOver before, p.advanceOver (before ++ slice)⟩

theorem covers_default {before slice : List Char} :
    s.Covers default before slice ↔ s = ⟨Pos.endOf before, Pos.endOf (before ++ slice)⟩ := by
  unfold Covers
  rw [Pos.advanceOver_eq_endOf, Pos.advanceOver_eq_endOf]

theorem Covers.isIn {before slice after : List Char} (h : s.Covers default before slice)
    (hcs : cs = before ++ slice ++ after) : s.IsIn cs := by
  rw [covers_default] at h
  subst h
  refine ⟨⟨before, slice ++ after, by simp [hcs], rfl⟩, ⟨before ++ slice, after, hcs, rfl⟩, ?_⟩
  rw [Pos.endOf_append]
  exact (Pos.notAfter_advanceOver _ _).le

/-- The byte at the offset is one of those that the span covers. -/
def Holds (s : Span) (offset : Nat) : Prop := s.start.offset ≤ offset ∧ offset < s.stop.offset

instance (s : Span) (offset : Nat) : Decidable (s.Holds offset) :=
  inferInstanceAs (Decidable (_ ∧ _))

end Span

end LuaSyntax
