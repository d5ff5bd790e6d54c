import LuaSyntax.Parse
import LuaSyntax.Proofs.Grammar.StmtLockstep
/-!
# What makes no difference to a parse

Where the tokens stand and which comments are between them does not decide the tree, and neither
does the spelling of operators. Comments are kept as they are, whatever becomes of the tokens.
-/

namespace LuaSyntax

open Grammar Rule

/-! ### Comments -/

/-- The comment as the token that it was. -/
def commentToken (c : Located Comment) : Located Token := c.map .comment

theorem map_commentsOf (tokens : List (Located Token)) :
    (commentsOf tokens).map commentToken = tokens.filter (·.node.isComment) := by
  induction tokens with
  | nil => rfl
  | cons t ts ih =>
    obtain ⟨node, span⟩ := t
    cases node with
    | comment c => exact congrArg (⟨.comment c, span⟩ :: ·) ih
    | _ => exact ih

theorem comments_parseTokens (tokens : List (Located Token)) (stop : Pos) (config : ParseConfig) :
    (parseTokens tokens stop config).1.comments = commentsOf tokens := by
  unfold parseTokens
  dsimp only
  split <;> rfl

/-! ### Parses of paired token lists -/

section

variable {exact : Prop}

/-- The streams of two lists that are the same token by token. -/
def pairing {ts us : List (Located Token)} {stop stop' : Pos}
    (h : List.Forall₂ (TokenPair exact) ts us) (hstop : exact → stop = stop') : Pairing where
  left := ⟨ts.toArray, stop⟩
  right := ⟨us.toArray, stop'⟩
  exact := exact
  tokens := h
  stop := hstop

/-- Paired token lists are over the token limit alike, and otherwise they are parsed alike. -/
theorem parseTokens_pairs {tokens tokens' : List (Located Token)} (stop stop' : Pos)
    (config config' : ParseConfig)
    (h : List.Forall₂ (TokenPair exact) (withoutComments tokens) (withoutComments tokens'))
    (hstop : exact → stop = stop') (hdepth : config.maxDepth = config'.maxDepth)
    (hlimit : config.tokenLimit = config'.tokenLimit) :
    let result := parseTokens tokens stop config
    let result' := parseTokens tokens' stop' config'
    (pairing h hstop).Twins result.1.block result'.1.block ∧
      List.Forall₂ (pairing h hstop).Reports result.2 result'.2 := by
  have hempty : (pairing h hstop).Twins Block.empty Block.empty := ⟨rfl, fun _ => rfl⟩
  have hrun := (lockstep_chunk (inStep_nested (pairing h hstop) config.maxDepth)).run
    config.maxDepth hempty
  unfold parseTokens
  rw [← hdepth, ← hlimit]
  cases config.tokenLimit with
  | none => exact hrun
  | some limit =>
    dsimp only [Option.bind_some]
    rcases forall₂_getElem? h limit with ⟨hleft, hright⟩ | ⟨t, u, hleft, hright, htu⟩
    · rw [hleft, hright]
      exact hrun
    · rw [hleft, hright]
      refine ⟨hempty, .cons ⟨htu.span, ?_, rfl⟩ .nil⟩
      exact congrArg (Cause.tokenLimitExceeded limit) h.length_eq.symm

end

/-! ### Spans and comments -/

/-- Only the sequence of the tokens that are no comments decides the tree: parses of two lists that
agree on it give the same tree up to spans and report the same, one by one. Each keeps the comments
of its own list. -/
theorem parseTokens_of_same_nodes {tokens tokens' : List (Located Token)}
    {config config' : ParseConfig}
    (htokens : (withoutComments tokens).map (·.node) = (withoutComments tokens').map (·.node))
    (hdepth : config.maxDepth = config'.maxDepth) (hlimit : config.tokenLimit = config'.tokenLimit)
    (stop stop' : Pos) :
    let result := parseTokens tokens stop config
    let result' := parseTokens tokens' stop' config'
    result.1.block.same result'.1.block = true ∧
      List.Forall₂ (fun d d' => d.cause = d'.cause ∧ d.severity = d'.severity ∧
        d.repair = d'.repair) result.2 result'.2 ∧
      result.1.comments.map commentToken = tokens.filter (·.node.isComment) ∧
      result'.1.comments.map commentToken = tokens'.filter (·.node.isComment) := by
  intro result result'
  have hnodes : List.Forall₂ (fun t u : Located Token => t.node = u.node) (withoutComments tokens)
      (withoutComments tokens') := by
    rw [← List.forall₂_eq_eq_eq, List.forall₂_map_left_iff, List.forall₂_map_right_iff] at htokens
    exact htokens
  have hpairs : List.Forall₂ (TokenPair False) (withoutComments tokens)
      (withoutComments tokens') := hnodes.imp fun _ _ h => ⟨congrArg Token.standard h, nofun⟩
  obtain ⟨hblock, hdiags⟩ := parseTokens_pairs stop stop' config config' hpairs nofun hdepth hlimit
  have hget : ∀ i : Nat, (withoutComments tokens')[i]?.map Located.node =
      (withoutComments tokens)[i]?.map Located.node := by
    intro i
    rw [← List.getElem?_map, ← List.getElem?_map, htokens]
  refine ⟨hblock.same, hdiags.imp fun d d' hd => ⟨?_, hd.severity, hd.repair⟩,
    by rw [comments_parseTokens, map_commentsOf], by rw [comments_parseTokens, map_commentsOf]⟩
  refine (hd.cause.cause_eq fun i => ?_).symm
  simpa [pairing, TokenStream.get?] using hget i

/-- A `break` and a stray bracket with a comment between them, and by themselves at another place.
-/
theorem parseTokens_of_same_nodes_break :
    let comment : Located Token := ⟨.comment ⟨.line, "-- done"⟩, default⟩
    let tokens : List (Located Token) :=
      [⟨.keyword .break_, default⟩, comment, ⟨.symbol .closeParen, default⟩]
    let tokens' : List (Located Token) :=
      [⟨.keyword .break_, .point ⟨9, 0, 9⟩⟩, ⟨.symbol .closeParen, .point ⟨14, 1, 0⟩⟩]
    let config : ParseConfig := default
    let result := parseTokens tokens default config
    let result' := parseTokens tokens' ⟨15, 1, 1⟩ config
    (withoutComments tokens).map (·.node) = (withoutComments tokens').map (·.node) ∧
      result.2.map (·.repair) = [.skipped 1] ∧ result.1.block.same result'.1.block = true ∧
      List.Forall₂ (fun d d' => d.cause = d'.cause ∧ d.severity = d'.severity ∧
        d.repair = d'.repair) result.2 result'.2 ∧
      result.1.comments.map commentToken = [comment] ∧
      result'.1.comments.map commentToken = [] := by
  intro comment tokens tokens' config result result'
  have hnodes : (withoutComments tokens).map (·.node) = (withoutComments tokens').map (·.node) :=
    rfl
  have hskipped : (parseTokens tokens default config).2.map (·.repair) = [.skipped 1] := by
    decide +kernel
  exact ⟨hnodes, hskipped, parseTokens_of_same_nodes hnodes (Eq.refl config.maxDepth)
    (Eq.refl config.tokenLimit) default ⟨15, 1, 1⟩⟩

/-! ### Spellings -/

/-- The tokens with those that are chosen spelled as Lua has them. -/
def respell (chosen : Nat → Bool) (tokens : List (Located Token)) : List (Located Token) :=
  tokens.mapIdx fun i t => if chosen i then ⟨t.node.standard, t.span⟩ else t

/-- The second diagnostic is the first one, except that a token found in the one stream is the one
at the same place in the other. -/
structure Diagnostic.Respelled (stream stream' : TokenStream) (d d' : Diagnostic) : Prop where
  span : d'.span = d.span
  repair : d'.repair = d.repair
  cause : d.FoundAlike stream stream' d'

/-- The results are identical, except for the tokens that were found. -/
def SameButFound {α : Type} (stream stream' : TokenStream) (result result' : α × List Diagnostic) :
    Prop :=
  result'.1 = result.1 ∧ List.Forall₂ (Diagnostic.Respelled stream stream') result.2 result'.2

theorem forall₂_respell (chosen : Nat → Bool) (tokens : List (Located Token)) :
    List.Forall₂ (fun t u => t.span = u.span ∧ (u.node = t.node ∨ u.node = t.node.standard))
      tokens (respell chosen tokens) := by
  unfold respell
  induction tokens generalizing chosen with
  | nil => exact .nil
  | cons t ts ih =>
    rw [List.mapIdx_cons]
    refine .cons ?_ (ih (chosen ∘ (· + 1)))
    split
    · exact ⟨rfl, .inr rfl⟩
    · exact ⟨rfl, .inl rfl⟩

theorem withoutComments_respell (chosen : Nat → Bool) (tokens : List (Located Token)) :
    List.Forall₂ (TokenPair True) (withoutComments tokens)
      (withoutComments (respell chosen tokens)) := by
  unfold withoutComments
  have h := forall₂_respell chosen tokens
  generalize respell chosen tokens = tokens' at h
  induction h with
  | nil => exact .nil
  | @cons t u ts us htu _ ih =>
    have hnode : t.node.standard = u.node.standard := by
      rcases htu.2 with h | h
      · rw [h]
      · rw [h, Token.standard_standard]
    rw [List.filter_cons, List.filter_cons, Token.blind_isComment.eq hnode]
    split
    · exact .cons ⟨hnode, fun _ => htu.1⟩ ih
    · exact ih

theorem commentsOf_respell (chosen : Nat → Bool) (tokens : List (Located Token)) :
    commentsOf (respell chosen tokens) = commentsOf tokens := by
  unfold commentsOf
  have h := forall₂_respell chosen tokens
  generalize respell chosen tokens = tokens' at h
  induction h with
  | nil => rfl
  | @cons t u ts us htu _ ih =>
    have hcomment : u.node.comment? = t.node.comment? := by
      rcases htu.2 with h | h
      · rw [h]
      · rw [h, Token.blind_comment?]
    rw [List.filterMap_cons, List.filterMap_cons, hcomment, htu.1, ih]

theorem endOfLast_pairs {ts us : List (Located Token)}
    (h : List.Forall₂ (fun t u => t.span = u.span) ts us) :
    TokenStream.endOfLast ts = TokenStream.endOfLast us := by
  have hspans : ts.map (·.span) = us.map (·.span) := by
    rw [← List.forall₂_eq_eq_eq, List.forall₂_map_left_iff, List.forall₂_map_right_iff]
    exact h
  have hlast := congrArg List.getLast? hspans
  rw [List.getLast?_map, List.getLast?_map] at hlast
  have hstop := congrArg (Option.map (·.stop)) hlast
  rw [Option.map_map, Option.map_map] at hstop
  exact congrArg (·.getD default) hstop

theorem respelled_of_reports {P : Pairing} {d d' : Diagnostic} (hexact : P.exact)
    (h : P.Reports d d') : d.Respelled P.left P.right d' :=
  ⟨(h.span hexact).symm, h.repair.symm, h.cause⟩

/-- For rules that keep in step it makes no difference how operators are spelled. -/
theorem run_respell {α : Type} [SpanEq α] {rule : Rule α}
    (hrule : ∀ P : Pairing, Lockstep P P.Twins rule rule) (chosen : Nat → Bool)
    (tokens : List (Located Token)) (limit : Nat) (fallback : α)
    (hfallback : SpanEq.same fallback fallback) :
    let stream := TokenStream.ofTokens (withoutComments tokens)
    let stream' := TokenStream.ofTokens (withoutComments (respell chosen tokens))
    SameButFound stream stream' (rule.run stream limit fallback)
      (rule.run stream' limit fallback) := by
  have hpairs := withoutComments_respell chosen tokens
  have hstop : True → TokenStream.endOfLast (withoutComments tokens) =
      TokenStream.endOfLast (withoutComments (respell chosen tokens)) :=
    fun _ => endOfLast_pairs (hpairs.imp fun _ _ h => h.span trivial)
  obtain ⟨hvalue, hdiags⟩ := (hrule (pairing hpairs hstop)).run limit ⟨hfallback, fun _ => rfl⟩
  exact ⟨(hvalue.eq trivial).symm, hdiags.imp fun _ _ => respelled_of_reports trivial⟩

theorem parseTokens_respell (chosen : Nat → Bool) (tokens : List (Located Token)) (stop : Pos)
    (config : ParseConfig) :
    SameButFound ⟨(withoutComments tokens).toArray, stop⟩
      ⟨(withoutComments (respell chosen tokens)).toArray, stop⟩ (parseTokens tokens stop config)
      (parseTokens (respell chosen tokens) stop config) := by
  obtain ⟨hblock, hdiags⟩ := parseTokens_pairs stop stop config config
    (withoutComments_respell chosen tokens) (fun _ => rfl) rfl rfl
  refine ⟨?_, hdiags.imp fun _ _ => respelled_of_reports trivial⟩
  have hcomments : (parseTokens (respell chosen tokens) stop config).1.comments =
      (parseTokens tokens stop config).1.comments := by
    rw [comments_parseTokens, comments_parseTokens, commentsOf_respell]
  exact congrArg₂ Chunk.mk hcomments (hblock.eq trivial).symm

/-- How operators are spelled makes no difference: with any of them spelled as Lua has them, the
tree is identical, and so are the diagnostics, except for the tokens that were found. This is so for
chunks, and for expressions, statements and blocks by themselves, however deep they may nest. -/
theorem parse_respell (chosen : Nat → Bool) (tokens : List (Located Token)) :
    let tokens' := respell chosen tokens
    let ts := TokenStream.ofTokens (withoutComments tokens)
    let ts' := TokenStream.ofTokens (withoutComments tokens')
    (∀ stop config, SameButFound ⟨(withoutComments tokens).toArray, stop⟩
      ⟨(withoutComments tokens').toArray, stop⟩ (parseTokens tokens stop config)
      (parseTokens tokens' stop config)) ∧
    SameButFound ⟨(withoutComments tokens).toArray, TokenStream.endOfLast tokens⟩
      ⟨(withoutComments tokens').toArray, TokenStream.endOfLast tokens'⟩ (parse tokens)
      (parse tokens') ∧
    SameButFound ts ts' (parseExpr tokens) (parseExpr tokens') ∧
    SameButFound ts ts' (parseStmt tokens) (parseStmt tokens') ∧
    SameButFound ts ts' (parseBlock tokens) (parseBlock tokens') ∧
    ∀ depth,
      SameButFound ts ts' ((nested depth).expr.run ts depth ⟨.nil, default⟩)
        ((nested depth).expr.run ts' depth ⟨.nil, default⟩) ∧
      SameButFound ts ts' ((stmt (nested depth)).run ts depth ⟨.block .empty, default⟩)
        ((stmt (nested depth)).run ts' depth ⟨.block .empty, default⟩) ∧
      SameButFound ts ts' ((nested depth).block.run ts depth .empty)
        ((nested depth).block.run ts' depth .empty) := by
  intro tokens' ts ts'
  have hend : TokenStream.endOfLast tokens' = TokenStream.endOfLast tokens :=
    (endOfLast_pairs ((forall₂_respell chosen tokens).imp fun _ _ h => h.1)).symm
  have hexpr := fun depth =>
    run_respell (fun P => (inStep_nested P depth).expr) chosen tokens depth
      ⟨.nil, default⟩ rfl
  have hstmt := fun depth =>
    run_respell (fun P => lockstep_stmt (inStep_nested P depth)) chosen tokens depth
      ⟨.block .empty, default⟩ rfl
  have hblock := fun depth =>
    run_respell (fun P => (inStep_nested P depth).block) chosen tokens depth
      Block.empty rfl
  refine ⟨parseTokens_respell chosen tokens, ?_, hexpr _, hstmt _, hblock _,
    fun depth => ⟨hexpr depth, hstmt depth, hblock depth⟩⟩
  unfold parse
  rw [hend]
  exact parseTokens_respell chosen tokens _ _

end LuaSyntax
