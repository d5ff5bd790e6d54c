import LuaSyntax.Proofs.Token.Stream
import LuaSyntax.Rule.Run
/-!
# Edit scripts along a token stream

A rule reads a stretch of the stream and records diagnostics on the way. Each diagnostic is an edit:
a token put in, a run of tokens deleted, a run cut off for which `nil` stands, or a mere note.
`Edited` says what the stretch becomes under these edits.
-/

namespace LuaSyntax

namespace Diagnostic

/-- The diagnostic reports a nesting level past the limit. -/
def CutsOff (d : Diagnostic) : Prop := ∃ limit, d.cause = .tooDeep limit

/-- The diagnostic changes nothing. -/
def isNote (d : Diagnostic) : Bool := d.repair == .unrepaired

/-- The diagnostics that change nothing, in order. -/
def notes (ds : List Diagnostic) : List Diagnostic := ds.filter isNote

@[simp] theorem notes_nil : notes [] = [] := rfl

@[simp] theorem notes_append (ds es : List Diagnostic) : notes (ds ++ es) = notes ds ++ notes es :=
  List.filter_append ..

theorem notes_cons_of_unrepaired {d : Diagnostic} (h : d.repair = .unrepaired)
    (ds : List Diagnostic) : notes (d :: ds) = d :: notes ds := by
  simp [notes, isNote, h]

theorem notes_cons_of_repaired {d : Diagnostic} (h : d.repair ≠ .unrepaired)
    (ds : List Diagnostic) : notes (d :: ds) = notes ds := by
  simp [notes, isNote, h]

end Diagnostic

/-- `Edited stream i ds ts j`: the tokens from cursor `i` up to cursor `j`, edited as the
diagnostics `ds` say in the order they were recorded, are `ts`. -/
inductive Edited (stream : TokenStream) : Nat → List Diagnostic → List Token → Nat → Prop
  | done (i : Nat) : Edited stream i [] [] i
  | keep {i j : Nat} {ds : List Diagnostic} {ts : List Token} {t : Located Token}
      (found : stream.get? i = some t) (rest : Edited stream (i + 1) ds ts j) :
      Edited stream i ds (t.node :: ts) j
  | insert {i j cost : Nat} {d : Diagnostic} {ds : List Diagnostic} {t : Token} {ts : List Token}
      (repair : d.repair = .inserted t cost) (place : d.span.start = stream.pos i)
      (rest : Edited stream i ds ts j) : Edited stream i (d :: ds) (t :: ts) j
  | delete {i j count : Nat} {d : Diagnostic} {ds : List Diagnostic} {ts : List Token}
      (repair : d.repair = .skipped count) (pos : 0 < count) (fits : i + count ≤ stream.size)
      (place : stream.Ordered → d.span.start = stream.pos i)
      (rest : Edited stream (i + count) ds ts j) :
      Edited stream i (d :: ds) ts j
  | cutOff {i j count : Nat} {d : Diagnostic} {ds : List Diagnostic} {ts : List Token}
      (cause : d.CutsOff) (repair : d.repair = .skipped count) (pos : 0 < count)
      (fits : i + count ≤ stream.size) (place : stream.Ordered → d.span.start = stream.pos i)
      (rest : Edited stream (i + count) ds ts j) :
      Edited stream i (d :: ds) (.keyword .nil_ :: ts) j
  | note {i j : Nat} {d : Diagnostic} {ds : List Diagnostic} {ts : List Token}
      (repair : d.repair = .unrepaired) (rest : Edited stream i ds ts j) :
      Edited stream i (d :: ds) ts j

namespace Edited

variable {stream : TokenStream} {i j k : Nat} {ds es : List Diagnostic} {ts us : List Token}

theorem append (h : Edited stream i ds ts j) (h' : Edited stream j es us k) :
    Edited stream i (ds ++ es) (ts ++ us) k := by
  induction h with
  | done => exact h'
  | keep found _ ih => exact .keep found (ih h')
  | insert repair place _ ih => exact .insert repair place (ih h')
  | delete repair pos fits place _ ih => exact .delete repair pos fits place (ih h')
  | cutOff cause repair pos fits place _ ih =>
    exact .cutOff cause repair pos fits place (ih h')
  | note repair _ ih => exact .note repair (ih h')

theorem le (h : Edited stream i ds ts j) : i ≤ j := by
  induction h with
  | done => exact Nat.le_refl _
  | keep _ _ ih => omega
  | insert _ _ _ ih => exact ih
  | delete _ _ _ _ _ ih => omega
  | cutOff _ _ _ _ _ _ ih => omega
  | note _ _ ih => exact ih

theorem le_size (h : Edited stream i ds ts j) (hi : i ≤ stream.size) : j ≤ stream.size := by
  induction h with
  | done => exact hi
  | keep found _ ih => exact ih (TokenStream.lt_size_of_get? found)
  | insert _ _ _ ih => exact ih hi
  | delete _ _ fits _ _ ih => exact ih fits
  | cutOff _ _ _ fits _ _ ih => exact ih fits
  | note _ _ ih => exact ih hi

end Edited

end LuaSyntax
