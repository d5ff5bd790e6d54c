import LuaSyntax.Source.Position
/-!
# Regions of a source text

A span runs from its first position up to, but not including, its last one. `Located` pairs a value
with the span of source that it was read from.
-/

namespace LuaSyntax

/-- A contiguous region of a source text. -/
structure Span where
  start : Pos
  stop : Pos
deriving DecidableEq, Repr, Inhabited

namespace Span

/-- The empty span at `p`. -/
def point (p : Pos) : Span := ⟨p, p⟩

/-- A span is empty when it holds no byte. -/
def isEmpty (s : Span) : Bool := s.start.offset == s.stop.offset

/-- The smallest span that covers both `s` and `t`. -/
def join (s t : Span) : Span := ⟨min s.start t.start, max s.stop t.stop⟩

def text (s : Span) : String :=
  s.start.text ++ ".." ++ s.stop.text

@[simp] theorem isEmpty_point (p : Pos) : (point p).isEmpty = true := by
  simp [point, isEmpty]

end Span

/-- A value together with the span of source it was read from. -/
structure Located (α : Type) where
  node : α
  span : Span
deriving DecidableEq, Repr, Inhabited

namespace Located

variable {α β : Type}

def map (f : α → β) (x : Located α) : Located β := ⟨f x.node, x.span⟩

@[simp] theorem node_map (f : α → β) (x : Located α) : (x.map f).node = f x.node := rfl

@[simp] theorem span_map (f : α → β) (x : Located α) : (x.map f).span = x.span := rfl

end Located

end LuaSyntax
