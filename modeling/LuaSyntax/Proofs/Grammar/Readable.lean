import LuaSyntax.Proofs.Grammar.Shift
import LuaSyntax.Proofs.Grammar.StmtLockstep
import LuaSyntax.Proofs.Grammar.StmtRegion
import LuaSyntax.Proofs.Rule.Elsewhere
/-!
# What is read back

The tokens of a clean run are read back to the same tree wherever else they stand, so what nodes are
written with can be told without the grammar. A block is readable as the tokens of any clean run of
it; an expression, operands of operators included, is derived over the readable ones below it.
-/

namespace LuaSyntax.Grammar

open Rule LuaSyntax.Language

variable {stream : TokenStream} {ts : List Token} {e : Expr} {room more : Nat}

/-- What is read back on each level with room for `room` others below it. -/
def readable (room : Nat) : Language where
  expr ts e := Begins Token.startsExpr ts ∧
    ∀ more, Reads (nested (room + more)).expr ts (Looser 1) fun a => a.node.same e = true
  block ts b := ∀ more, Reads (nested (room + more)).block ts BlockEnds fun a => a.same b = true
  follows _ := True

theorem complete_readable (room more : Nat) :
    (nested (room + more)).Complete (readable room) where
  expr he := he.2 more
  begins he := he.1
  needs := (complete_nested _).needs
  block hb := hb more

/-- What is derived over readable parts is readable one level further out. -/
theorem readable_disjunction (he : Disjunction (readable room) ts e) :
    (readable (room + 1)).expr ts e := by
  refine ⟨begins_disjunction he, fun more => ?_⟩
  rw [Nat.add_right_comm]
  exact reads_orExpr (complete_readable room more) he

/-- The tokens of a clean block are readable where they end as a block may. -/
theorem cleanly_readable_block (room : Nat) :
    Cleanly stream (nested room).block fun i b j =>
      BlockEnds (stream.word j) → stream.Writes (readable room).block i b j where
  orderly := (confined_block room).toOrderly
  post := by
    rintro c s b t rfl hs hclean hends
    have ht := (confined_block room).onward hs hclean.ok
    refine ⟨_, ⟨ht.cursor_le, ht.le_size, rfl⟩, fun more => ?_⟩
    exact (confined_block room).reads (shifts_nested room).block
      (fun P => (inStep_nested P room).block) (repeats_nested room more).block hs hclean hends

/-- An expression in this place is derived over what is readable on some level below `depth`. -/
def ReadBack (stream : TokenStream) (depth : Nat) (i : Nat) (n : Node) (j : Nat) : Prop :=
  ∀ e, n = .expr e →
    ∃ room < depth, stream.Writes (Disjunction (readable room)) i e.node j

theorem levelsHold_readable (stream : TokenStream) (depth : Nat) :
    LevelsHold stream (ReadBack stream depth) readable depth where
  expr _ _ _ _ he := readable_disjunction he
  block room _ := cleanly_readable_block room
  node room hroom i n j := by
    rintro hn e rfl
    exact ⟨room, hroom, hn⟩
  stmt room _ :=
    (opens_stmt (sound_lenient room) trivial).cleanly.mono fun _ _ _ _ e he => by cases he
  ret room _ := (opens_returnStmt (sound_lenient room)).cleanly.mono fun _ _ _ _ e he => by cases he

end LuaSyntax.Grammar
