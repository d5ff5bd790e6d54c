import LuaSyntax.Grammar.Operator
import LuaSyntax.Token.Role
/-!
# Spellings of operators

GLua has second spellings for four operators of Lua. A function of tokens for which the spelling
makes no difference is blind to it.
-/

namespace LuaSyntax

namespace Token

/-- The token in Lua's own spelling. -/
def standard : Token → Token
  | symbol .ampAmp => keyword .and_
  | symbol .pipePipe => keyword .or_
  | symbol .bangEqual => symbol .tildeEqual
  | symbol .bang => keyword .not_
  | t => t

/-- Whether the token is one of two spellings. -/
def hasTwin (t : Token) : Bool :=
  t.standard ∈ [keyword .and_, keyword .or_, symbol .tildeEqual, keyword .not_]

theorem standard_of_not_hasTwin {t : Token} (h : t.hasTwin = false) : t.standard = t := by
  unfold standard
  split
  iterate 4 cases h
  rfl

theorem standard_standard (t : Token) : t.standard.standard = t.standard := by
  by_cases h : t.hasTwin = true
  · have hmem : t.standard ∈ [keyword .and_, keyword .or_, symbol .tildeEqual, keyword .not_] :=
      of_decide_eq_true h
    simp only [List.mem_cons, List.not_mem_nil, or_false] at hmem
    rcases hmem with h | h | h | h <;> rw [h] <;> rfl
  · have ht := standard_of_not_hasTwin (Bool.eq_false_iff.2 h)
    rw [ht, ht]

/-- A token with one spelling is told apart from every other token. -/
theorem standard_eq_iff {t u : Token} (ht : t.hasTwin = false) : u.standard = t ↔ u = t := by
  have ht' := standard_of_not_hasTwin ht
  constructor
  · intro hu
    have hu' : u.hasTwin = false := by
      unfold hasTwin at ht ⊢
      rw [hu, ← ht', ht]
    rw [← standard_of_not_hasTwin hu', hu]
  · rintro rfl
    exact ht'

/-- The function gives the same for both spellings of a token. -/
def Blind {β : Type} (f : Token → β) : Prop := ∀ t, f t.standard = f t

namespace Blind

variable {β γ : Type} {f g : Token → β} {t u : Token}

theorem eq (h : Blind f) (htu : t.standard = u.standard) : f t = f u := by
  rw [← h t, htu, h u]

theorem comp (h : Blind f) (k : β → γ) : Blind fun t => k (f t) := fun t => congrArg k (h t)

theorem or {p q : Token → Bool} (hp : Blind p) (hq : Blind q) : Blind fun t => p t || q t :=
  fun t => by dsimp only; rw [hp t, hq t]

theorem beq (h : t.hasTwin = false) : Blind (· == t) := by
  intro u
  rw [Bool.eq_iff_iff, beq_iff_eq, beq_iff_eq, standard_eq_iff h]

end Blind

theorem blind_comment? : Blind comment? := by
  intro t
  unfold standard
  split <;> rfl

theorem blind_isComment : Blind isComment := blind_comment?.comp _

theorem blind_startsStmt : Blind startsStmt := by
  intro t
  unfold standard
  split <;> rfl

theorem blind_endsBlock : Blind endsBlock := by
  intro t
  unfold standard
  split <;> rfl

theorem blind_opensNesting : Blind opensNesting := by
  intro t
  unfold standard
  split <;> rfl

theorem blind_closesNesting : Blind closesNesting := by
  intro t
  unfold standard
  split <;> rfl

end Token

namespace Operator

/-- Every table that has one spelling of an operator has the other one too, with the same value. -/
theorem blind_lookup {α : Type} {ops : List (Token × α)}
    (hand : ops.lookup (.keyword .and_) = ops.lookup (.symbol .ampAmp))
    (hor : ops.lookup (.keyword .or_) = ops.lookup (.symbol .pipePipe))
    (hne : ops.lookup (.symbol .tildeEqual) = ops.lookup (.symbol .bangEqual))
    (hnot : ops.lookup (.keyword .not_) = ops.lookup (.symbol .bang)) :
    Token.Blind (List.lookup · ops) := by
  intro t
  unfold Token.standard
  split
  · exact hand
  · exact hor
  · exact hne
  · exact hnot
  · rfl

end Operator

end LuaSyntax
