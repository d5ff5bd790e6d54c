import LuaSyntax.Source.Span
import Mathlib.Data.List.Forall2
/-!
# Equality up to spans

Values of different sources can be compared only without the spans in them.
-/

namespace LuaSyntax

/-- Equality up to the spans in a value. -/
class SpanEq (α : Type) where
  same : α → α → Prop

namespace SpanEq

variable {α β : Type} [SpanEq α] [SpanEq β]

instance : SpanEq Unit := ⟨fun _ _ => True⟩

instance : SpanEq Span := ⟨fun _ _ => True⟩

instance : SpanEq Bool := ⟨(· = ·)⟩

instance : SpanEq String := ⟨(· = ·)⟩

instance : SpanEq (Located α) := ⟨fun a b => same a.node b.node⟩

instance : SpanEq (Option α) := ⟨Option.Rel same⟩

instance : SpanEq (List α) := ⟨List.Forall₂ same⟩

instance : SpanEq (α × β) := ⟨fun x y => same x.1 y.1 ∧ same x.2 y.2⟩

variable {f : α → Option β}

theorem filterMap (hf : ∀ a b, same a b → same (f a) (f b)) {as bs : List α} (h : same as bs) :
    same (as.filterMap f) (bs.filterMap f) := by
  induction h with
  | nil => exact .nil
  | @cons a b as bs hab _ ih =>
    have hhead : Option.Rel same (f a) (f b) := hf a b hab
    rw [List.filterMap_cons, List.filterMap_cons]
    generalize f a = x, f b = y at hhead
    cases hhead with
    | none => exact ih
    | some hxy => exact .cons hxy ih

theorem findSome? (hf : ∀ a b, same a b → same (f a) (f b)) {as bs : List α} (h : same as bs) :
    same (as.findSome? f) (bs.findSome? f) := by
  induction h with
  | nil => exact .none
  | @cons a b as bs hab _ ih =>
    have hhead : Option.Rel same (f a) (f b) := hf a b hab
    rw [List.findSome?_cons, List.findSome?_cons]
    generalize f a = x, f b = y at hhead
    cases hhead with
    | none => exact ih
    | some hxy => exact .some hxy

end SpanEq

end LuaSyntax
