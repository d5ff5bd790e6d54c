import LuaSyntax.Grammar.Nesting
import LuaSyntax.Proofs.Grammar.StmtSound
import LuaSyntax.Proofs.Rule.Skip
/-!
# Soundness of the nested grammar

The rules are sound for the language that nests as deep as they do. At the limit, where an
expression is cut off, the language has to have `nil` in its place.
-/

namespace LuaSyntax.Grammar

open Rule LuaSyntax.Language

variable {law : Law} {L : Language}

/-- What a language has to have at the limit of nesting. -/
structure Bottom (law : Law) (L : Language) : Prop where
  fills : ∀ {t : Token}, t.Filler → law.insertable t
  follows : ∀ ts, L.follows ts
  cut : law.cut → L.expr [.keyword .nil_] .nil
  empty : L.block [] .empty

section

variable {c : Context} {s s' : State}

theorem cutOffExpr_of_some {span : Span} (h : skipLevel true c s = .ok (some span) s') :
    cutOffExpr c s = .ok (Expr.nilAt span) s' := by
  rw [cutOffExpr, bind_of_ok h]
  rfl

theorem cutOffExpr_of_committed (h : skipLevel true c s = .ok none s)
    (hc : c.isCommitted s = true) :
    cutOffExpr c s = .ok (Expr.nilAt (.point (c.pos s)))
      (s.record ⟨.point (c.pos s), .tooDeep c.limit,
        .inserted (.keyword .nil_) (Token.keyword .nil_).insertionCost⟩) := by
  have hcommitted : committed c s = .ok true s := by rw [committed, hc]
  rw [cutOffExpr, bind_of_ok h]
  dsimp only
  rw [bind_of_ok hcommitted]
  rfl

theorem cutOffExpr_of_not_committed (h : skipLevel true c s = .ok none s)
    (hc : c.isCommitted s = false) : ∃ why, cutOffExpr c s = .error why s := by
  have hcommitted : committed c s = .ok false s := by rw [committed, hc]
  rw [cutOffExpr, bind_of_ok h]
  dsimp only
  rw [bind_of_ok hcommitted]
  exact ⟨_, rfl⟩

end

/-- An expression past the limit is passed over, or `nil` is put in for it. -/
theorem opens_cutOffExpr (h : Bottom law L) :
    Opens law cutOffExpr fun y e => y.Writes L.expr Expr.targets e.node := by
  refine ⟨fun c s _ hc => ?_, fun c s _ hc => ?_⟩
  · rcases skipLevel_spec true c s with hskip | ⟨count, span, hpos, hfits, hplace, hskip⟩
    · exact ⟨_, _, cutOffExpr_of_committed hskip hc, .of_insert rfl rfl (h.fills (.shared rfl)) rfl
        rfl fun hcut => ⟨h.cut (hcut ⟨_, rfl⟩), rfl⟩⟩
    · exact ⟨_, _, cutOffExpr_of_some hskip, .of_cutOff ⟨_, rfl⟩ rfl hpos hfits hplace
        fun hcut => ⟨h.cut hcut, rfl⟩⟩
  · rcases skipLevel_spec true c s with hskip | ⟨count, span, hpos, hfits, hplace, hskip⟩
    · exact .inr (cutOffExpr_of_not_committed hskip hc)
    · exact .inl ⟨_, _, cutOffExpr_of_some hskip, .of_cutOff ⟨_, rfl⟩ rfl hpos hfits hplace
        fun hcut => ⟨h.cut hcut, rfl⟩, Nat.lt_add_of_pos_right hpos⟩

theorem always_cutOffBlock (h : Bottom law L) :
    Always law (fun _ => False) cutOffBlock fun y b => y.Writes L.block Block.targets b := by
  intro c s _
  rcases skipLevel_spec false c s with hskip | ⟨count, span, hpos, hfits, hplace, hskip⟩
  · exact ⟨.empty, s, bind_of_ok hskip, .refl ⟨h.empty, rfl⟩, nofun, fun _ _ => rfl⟩
  · refine ⟨.empty, _, bind_of_ok hskip, .of_skip rfl hpos hfits hplace ⟨h.empty, rfl⟩, nofun,
      fun _ hsame => ?_⟩
    have : s.cursor + count = s.cursor := hsame
    omega

/-- The rules at each level give trees of the language that nests as deep. -/
theorem sound_nested (h : Bottom law L) (depth : Nat) :
    (nested depth).Sound law (nest L depth) := by
  induction depth with
  | zero => exact ⟨h.fills, h.follows, opens_cutOffExpr h, always_cutOffBlock h⟩
  | succ depth ih => exact ⟨h.fills, ih.follows, opens_orExpr ih, always_stmts ih⟩

theorem bottom_bare (hfills : ∀ {t : Token}, t.Filler → law.insertable t) (hcut : ¬ law.cut) :
    Bottom law (bare fun _ => True) :=
  ⟨hfills, fun _ => trivial, fun h => absurd h hcut, rfl, rfl⟩

/-- One more level has room for the `nil`s of what is cut off. -/
theorem bottom_within_one (hfills : ∀ {t : Token}, t.Filler → law.insertable t) :
    Bottom law (within 1) :=
  ⟨hfills, fun _ => trivial, fun _ => .operand (.operand (.operand (.operand (.operand (.operand
    (.atom .nil)))))), .empty⟩

theorem bottom_stub (hfills : ∀ {t : Token}, t.Filler → law.insertable t) : Bottom law stub :=
  ⟨hfills, fun _ => trivial, fun _ => ⟨rfl, rfl⟩, rfl, rfl⟩

/-- A run over a whole stream gives a block of the language that the edited stream derives. -/
theorem run_nested (h : Bottom law L) (happends : L.Appends) (depth : Nat) (stream : TokenStream)
    (limit : Nat) (fallback : Block) :
    ∃ b ds ts, (chunk (nested depth)).run stream limit fallback = (b, ds) ∧
      Edited stream 0 ds ts stream.size ∧ (∀ d ∈ ds, law.Allows d) ∧
      ((∀ d ∈ ds, d.CutsOff → law.cut) →
        (nest L depth).block ts b ∧ Diagnostic.notes ds = targetNotes b.targets) := by
  obtain ⟨b, s, ds, ts, -, hrun, hedit, hlaw, hpost⟩ :=
    (always_chunk (sound_nested h depth)
      (appends_nest h.follows happends depth)).completes.run stream limit fallback
  exact ⟨b, ds, ts, hrun, hedit, hlaw, fun hcut => ⟨(hpost hcut).derives, (hpost hcut).notes⟩⟩

end LuaSyntax.Grammar
