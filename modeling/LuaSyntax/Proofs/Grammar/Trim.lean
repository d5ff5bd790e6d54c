import LuaSyntax.Proofs.Grammar.Balance
import LuaSyntax.Proofs.Grammar.Confined
import LuaSyntax.Proofs.Grammar.Refuse
import LuaSyntax.Proofs.Rule.Cut
import LuaSyntax.Proofs.Tree.Truncated
/-!
# Levels that cut off what another level reads

A level trims another one if it gives, from where that level has a clean run, what is left of the
value with so much room, and cuts off what is replaced in it. An expression must be followed by a
token that ends its level if it is to be cut off, and a block by a word that ends it.
-/

namespace LuaSyntax.Grammar

open Rule

variable {α : Type} {stream : TokenStream} {limit room : Nat} {inner inner' : Level} {i j k : Nat}
  {start : Start} {closed : Bool}

/-- The next token, if there is one, ends the level that an expression stands on. -/
def LevelEnds (next : Option Token) : Prop := ∀ t, next = some t → endsLevel true t = true

theorem LevelEnds.without {next : Option Token} (h : LevelEnds next) :
    Without (fun t => !endsLevel true t) next := by
  intro t ht
  simp [h t ht]

theorem levelEnds_of_get? {w : Token} {span : Span} (h : stream.get? i = some ⟨w, span⟩)
    (hw : endsLevel true w = true) : LevelEnds (stream.word i) := by
  rw [TokenStream.word_of_get? h]
  rintro _ ⟨⟩
  exact hw

theorem blockEnds_of_get? {w : Token} {span : Span} (h : stream.get? i = some ⟨w, span⟩)
    (hw : w.endsBlock = true) : BlockEnds (stream.word i) := by
  rw [TokenStream.word_of_get? h]
  exact blockEnds_some hw

theorem BlockEnds.levelEnds {next : Option Token} (h : BlockEnds next) :
    LevelEnds next := by
  intro t ht
  simp [endsLevel, h t ht]

/-! ### Trimmed values -/

/-- From `i` to `j` a value is read that spans just this, and the other rule gives `trimmed` there
and cuts the items off. -/
structure Trimmed (stream : TokenStream) (limit : Nat) (rule' : Rule (Located α))
    (items : List Replaced) (trimmed : α) (i : Nat) (a : Located α) (j : Nat) : Prop where
  moves : i < j
  span : a.span = stream.spanBetween i j
  cuts : Cuts stream limit rule' i items ⟨trimmed, a.span⟩ j

theorem Trimmed.alt {rule' : Rule (Located α)} {items : List Replaced} {trimmed : α}
    {a : Located α} {before after : List (Rule (Located α))}
    (h : Trimmed stream limit rule' items trimmed i a j)
    (hbefore : ∀ r ∈ before, Refuses r (stream.words i)) :
    Trimmed stream limit (alt (before ++ rule' :: after)) items trimmed i a j :=
  ⟨h.moves, h.span, h.cuts.alt hbefore⟩

/-- An expression that fits, with so much room inside it. -/
abbrev TrimmedExpr (stream : TokenStream) (limit room : Nat) (rule' : Rule (Located Expr)) (i : Nat)
    (e : Located Expr) (j : Nat) : Prop :=
  Trimmed stream limit rule' (replacedIn room e) (e.node.truncate room) i e j

/-- An expression on a level of its own, which fits or is cut off. -/
structure FittedExpr (stream : TokenStream) (limit room : Nat) (rule' : Rule (Located Expr))
    (i : Nat) (e : Located Expr) (j : Nat) : Prop where
  moves : i < j
  span : e.span = stream.spanBetween i j
  cuts : ∀ bracketed, (bracketed = true → LevelEnds (stream.word j)) →
    Cuts stream limit rule' i
      (replacedExpr room bracketed e.span (e.node.replaced · e.span))
      (fittedExpr room e.span (e.node.truncate ·)) j

/-- A block on a level of its own, which fits or is cut off. Its extent is what was read for it,
wherever the construct ends that it stands in. -/
structure FittedBlock (stream : TokenStream) (limit room : Nat) (rule' : Rule Block) (i : Nat)
    (b : Block) (j : Nat) : Prop where
  extent : ∀ m, j ≤ m → m ≤ stream.size → b.extent (stream.slice i m) = stream.slice i j
  cuts : ∀ opening m, j ≤ m → m ≤ stream.size →
    opening.rest stream.tokens.toList = stream.slice i m →
    Cuts stream limit rule' i (b.replaced room opening) (b.truncate room) j

/-- The rules of `inner'` cut off what does not fit into the room of what those of `inner` read. -/
structure Level.Trims (stream : TokenStream) (limit room : Nat) (inner inner' : Level) : Prop where
  apart : stream.Apart
  sound : ∃ law L, inner.Sound law L
  sound' : ∃ law L, inner'.Sound law L
  confined : inner.Confined StmtEnds
  complete : ∃ L, inner'.Complete L
  expr : Cleanly stream inner.expr (FittedExpr stream limit room inner'.expr)
  block : Cleanly stream inner.block fun i b j =>
    BlockEnds (stream.word j) → FittedBlock stream limit room inner'.block i b j

namespace Level.Trims

variable (h : inner.Trims stream limit room inner')

include h

/-- Where a rule is stuck over the one level, it is stuck over the other one. -/
theorem refuses {rule : Level → Rule α} (hrule : Scheme .token closed rule)
    (hbalked : Balked stream (rule inner) i) : Refuses (rule inner') (stream.words i) := by
  obtain ⟨law, L, hsound⟩ := h.sound
  obtain ⟨law', L', hsound'⟩ := h.sound'
  obtain ⟨c, s, why, t, rfl, hs, hc, rfl, herr⟩ := hbalked
  exact hrule.refuses rfl hsound hsound' hs hc herr

/-- A clean run of a rule that begins with a token consumes one. -/
theorem moves {rule : Level → Rule α} (hrule : Scheme start true rule) (hstart : start ≠ .any) :
    Cleanly stream (rule inner) fun i _ j => i < j := by
  obtain ⟨law, L, hsound⟩ := h.sound
  have hconfined := (hrule.confined endsStmts_stmtEnds hsound h.confined).2 hstart
  refine ⟨hconfined.toOrderly, fun _ hs hclean => ?_⟩
  exact hconfined.lt_of_clean nofun hs hclean ⟨(hconfined.onward hs hclean.ok).le_size, .inl rfl⟩

/-- What a rule reads, with its span. -/
theorem located {rule : Level → Rule α} (items : Span → α → List Replaced) (g : α → α)
    (hscheme : Scheme .token true fun inner => Rule.located (rule inner))
    (hrule : Cleanly stream (rule inner) fun i a j =>
      Cuts stream limit (rule inner') i (items (stream.spanBetween i j) a) (g a) j) :
    Cleanly stream (Rule.located (rule inner)) fun i a j =>
      Trimmed stream limit (Rule.located (rule inner')) (items a.span a.node) (g a.node) i a j := by
  have hcuts : Cleanly stream (Rule.located (rule inner)) fun i a j =>
      a.span = stream.spanBetween i j ∧ Cuts stream limit (Rule.located (rule inner')) i
        (items a.span a.node) ⟨g a.node, a.span⟩ j :=
    .located (hrule.mono fun _ _ _ ha => ⟨rfl, ha.located⟩)
  exact ((h.moves hscheme nofun).and hcuts).mono fun _ _ _ ha => ⟨ha.1, ha.2.1, ha.2.2⟩

/-- A choice trims what each of its alternatives trims. Only the last one may begin like an
expression. -/
theorem alt {P : Rule α → Nat → α → Nat → Prop}
    (hP : ∀ {before rule after i a j}, P rule i a j →
      (∀ r ∈ before, Refuses r (stream.words i)) → P (Rule.alt (before ++ rule :: after)) i a j)
    (rules : List (Level → Rule α)) (last : Level → Rule α)
    (hrules : ∀ rule ∈ rules, Scheme .token true rule) (hlast : Scheme .inner true last)
    (hcleanly : ∀ rule ∈ rules ++ [last], Cleanly stream (rule inner) (P (rule inner'))) :
    Cleanly stream (Rule.alt ((rules ++ [last]).map (· inner)))
      (P (Rule.alt ((rules ++ [last]).map (· inner')))) := by
  obtain ⟨law, L, hsound⟩ := h.sound
  have hconfined : ∀ r ∈ (rules ++ [last]).map (· inner), ConfinedOpening StmtEnds true r := by
    rw [List.forall_mem_map]
    intro rule hrule
    rcases List.mem_append.1 hrule with hrule | hrule
    · exact ((hrules rule hrule).confined endsStmts_stmtEnds hsound h.confined).2 nofun
    · rw [List.mem_singleton.1 hrule]
      exact (hlast.confined endsStmts_stmtEnds hsound h.confined).2 nofun
  refine .alt nofun (by simp) hconfined fun before r after hsplit => ?_
  obtain ⟨front, back, hrules', rfl, hback⟩ := List.map_eq_append_iff.1 hsplit
  obtain ⟨rule, rest, rfl, rfl, rfl⟩ := List.map_eq_cons_iff.1 hback
  have hlength := congrArg List.length hrules'
  simp only [List.length_append, List.length_cons, List.length_nil] at hlength
  -- the last alternative is not among those before another one
  have hbefore : front <+: rules := List.prefix_of_prefix_length_le ⟨_, hrules'.symm⟩
    (List.prefix_append rules [last]) (by omega)
  refine (hcleanly rule (by simp [hrules'])).mono fun i a j ha hbalked => ?_
  rw [hrules', List.map_append, List.map_cons]
  refine hP ha ?_
  rw [List.forall_mem_map]
  exact fun other hother => h.refuses (hrules other (hbefore.subset hother))
    (hbalked _ (List.mem_map_of_mem hother))

end Level.Trims

end LuaSyntax.Grammar
