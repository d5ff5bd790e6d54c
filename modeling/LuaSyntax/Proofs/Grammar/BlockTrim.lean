import LuaSyntax.Proofs.CleanPrefix
import LuaSyntax.Proofs.Grammar.StmtTrim
/-!
# Trimmed blocks and levels

A block trims what its parts trim. Its tokens are found again from where its last statement ends,
since nothing but semicolons can come after that. At the limit the rules cut off all that a level
reads, because what it reads is balanced; so each level trims the one that has as many levels more
to go.
-/

namespace LuaSyntax

/-- Whether the token is before the end of the last statement, or a semicolon. -/
def Block.covers (b : Block) (t : Located Token) : Bool :=
  t.node == .symbol .semicolon || b.stmts.any (t.span.stop ≤ ·.span.stop) ||
    b.ret.any (t.span.stop ≤ ·.span.stop)

namespace Grammar

open Rule

namespace BlockPart

def replaced (room : Nat) : BlockPart → List Replaced
  | stmt s => s.node.replaced room s.span
  | ret r => r.node.replaced room
  | junk => []

def truncate (room : Nat) : BlockPart → BlockPart
  | stmt s => .stmt ⟨s.node.truncate room, s.span⟩
  | ret r => .ret ⟨r.node.truncate room, r.span⟩
  | junk => .junk

end BlockPart

variable {stream : TokenStream} {limit room : Nat} {inner inner' : Level} {i j k m : Nat}

def Semicolons (stream : TokenStream) (i j : Nat) : Prop :=
  ∀ t ∈ stream.slice i j, t.node = .symbol .semicolon

/-- A part of a block: semicolons, and then a statement, a `return` or the end of the block. -/
inductive PartRead (stream : TokenStream) (i : Nat) : Option (BlockPart × Bool) → Nat → Prop
  | stmt {k j : Nat} {s : Located Stmt} (hik : i ≤ k) (hkj : k < j)
    (hsemicolons : Semicolons stream i k) (hspan : s.span = stream.spanBetween k j) :
    PartRead stream i (some (.stmt s, true)) j
  | ret {k j : Nat} {r : Located Return} (hik : i ≤ k) (hkj : k < j)
    (hsemicolons : Semicolons stream i k) (hspan : r.span = stream.spanBetween k j) :
    PartRead stream i (some (.ret r, false)) j
  | stop {j : Nat} (hij : i ≤ j) (hsemicolons : Semicolons stream i j) : PartRead stream i none j

/-- A part with so much room in its block. The block has to end after the last one. -/
abbrev TrimmedPart (stream : TokenStream) (limit room : Nat)
    (step' : Rule (Option (BlockPart × Bool))) :
    Nat → Option (BlockPart × Bool) → Nat → Prop :=
  CutsRound stream limit step' (fun j => BlockEnds (stream.word j)) (BlockPart.replaced room)
    (BlockPart.truncate room)

/-! ### The tokens of a block -/

theorem covers_of_semicolons {t : Located Token} (b : Block) (h : Semicolons stream i j)
    (ht : t ∈ stream.slice i j) : b.covers t = true := by
  simp [Block.covers, h t ht]

theorem covers_stmt (s : Located Stmt) (parts : List BlockPart) (t : Located Token) :
    (blockOf (.stmt s :: parts)).covers t =
      (decide (t.span.stop ≤ s.span.stop) || (blockOf parts).covers t) := by
  have hblock : blockOf (.stmt s :: parts) =
    ⟨s :: (blockOf parts).stmts, (blockOf parts).ret⟩ := rfl
  rw [hblock, Block.covers, Block.covers, List.any_cons, Bool.or_assoc, Bool.or_assoc,
    Bool.or_left_comm, Bool.or_assoc]

/-- The parts cover the tokens that were read for them, and no others but semicolons. -/
theorem covers_of_rounds (hstream : stream.Apart) {parts : List BlockPart}
    (h : EachRound (PartRead stream) i parts j) (hj : j ≤ stream.size) :
    i ≤ j ∧ (∀ t ∈ stream.slice i j, (blockOf parts).covers t = true) ∧
      ∀ k t, j ≤ k → stream.get? k = some t → t.node ≠ .symbol .semicolon →
        (blockOf parts).covers t = false := by
  induction h with
  | stop h =>
    cases h with
    | stop hij hsemicolons =>
      refine ⟨hij, fun t ht => covers_of_semicolons _ hsemicolons ht, fun k t _ _ hne => ?_⟩
      simpa [blockOf, Block.covers] using hne
  | last h =>
    cases h with
    | @ret k _ r hik hkj hsemicolons hspan =>
      refine ⟨by omega, fun t ht => ?_, fun m t hm hget hne => ?_⟩
      · rw [← TokenStream.slice_append hik (Nat.le_of_lt hkj) hj] at ht
        rcases List.mem_append.1 ht with ht | ht
        · exact covers_of_semicolons _ hsemicolons ht
        · have hle := hstream.stop_le_spanBetween hj ht
          rw [← hspan] at hle
          simp [blockOf, Block.covers, BlockPart.ret?, hle]
      · have hnot := hstream.not_stop_le_spanBetween hkj hm hget
        rw [← hspan] at hnot
        simp [blockOf, Block.covers, BlockPart.ret?, BlockPart.stmt?, hnot, hne]
  | @more i m j part parts h hrest ih =>
    obtain ⟨hmj, hinside, houtside⟩ := ih hj
    cases h with
    | @stmt k _ s hik hkm hsemicolons hspan =>
      refine ⟨by omega, fun t ht => ?_, fun n t hn hget hne => ?_⟩
      · rw [← TokenStream.slice_append (show i ≤ m by omega) hmj hj,
          ← TokenStream.slice_append hik (Nat.le_of_lt hkm) (Nat.le_trans hmj hj)] at ht
        rw [covers_stmt]
        rcases List.mem_append.1 ht with ht | ht
        · rcases List.mem_append.1 ht with ht | ht
          · rw [covers_of_semicolons _ hsemicolons ht, Bool.or_true]
          · have hle := hstream.stop_le_spanBetween (Nat.le_trans hmj hj) ht
            rw [← hspan] at hle
            rw [decide_eq_true hle, Bool.true_or]
        · rw [hinside t ht, Bool.or_true]
      · have hnot := hstream.not_stop_le_spanBetween hkm (Nat.le_trans hmj hn) hget
        rw [← hspan] at hnot
        rw [covers_stmt, decide_eq_false hnot, houtside n t hn hget hne, Bool.or_false]

/-- The extent of a block that ends where a word ends it is what was read for its parts. -/
theorem extent_of_rounds (hstream : stream.Apart) {parts : List BlockPart}
    (h : EachRound (PartRead stream) i parts j) (hends : BlockEnds (stream.word j)) (hjm : j ≤ m)
    (hm : m ≤ stream.size) :
    (blockOf parts).extent (stream.slice i m) = stream.slice i j := by
  obtain ⟨hij, hinside, houtside⟩ := covers_of_rounds hstream h (Nat.le_trans hjm hm)
  refine TokenStream.takeWhile_slice hij hjm hm hinside fun t ht => ?_
  refine houtside j t (Nat.le_refl j) ht fun hsemicolon => ?_
  rw [TokenStream.word, ht, Option.map_some, hsemicolon] at hends
  exact hends.ne_semicolon rfl

/-! ### Parts that are trimmed -/

/-- What is replaced in a block is what is replaced in its parts. -/
theorem replaced_blockOf {parts : List BlockPart} (h : EachRound (PartRead stream) i parts j)
    (opening : BlockStart) :
    (blockOf parts).replaced (room + 1) opening = parts.flatMap (·.replaced room) := by
  induction h with
  | stop _ => simp [blockOf, Block.replaced, replacedInStmts, replacedInReturn?]
  | last h =>
    cases h
    simp [blockOf, Block.replaced, replacedInStmts, replacedInReturn?, BlockPart.stmt?,
      BlockPart.ret?, BlockPart.replaced]
  | @more _ _ _ part parts h _ ih =>
    cases h with
    | @stmt _ _ s =>
      rw [List.flatMap_cons, ← ih, blockOf, blockOf, replaced_block, replaced_block,
        ← List.append_assoc]
      congr 1

theorem truncate_blockOf (parts : List BlockPart) :
    (blockOf parts).truncate (room + 1) = blockOf (parts.map (·.truncate room)) := by
  have hstmt : ∀ part : BlockPart,
      (part.truncate room).stmt? = part.stmt?.map fun s => ⟨s.node.truncate room, s.span⟩ := by
    rintro (s | r | _) <;> rfl
  have hret : ∀ part : BlockPart,
      (part.truncate room).ret? = part.ret?.map fun r => ⟨r.node.truncate room, r.span⟩ := by
    rintro (s | r | _) <;> rfl
  rw [blockOf, blockOf, Block.truncate, truncateStmts_eq_map, truncateReturn?_eq_map,
    List.map_filterMap, List.filterMap_map, List.map_findSome?, List.findSome?_map]
  simp only [Function.comp_def, hstmt, hret]

namespace Level.Trims

variable (h : inner.Trims stream limit room inner')

include h

omit h in
theorem semicolons : Cleanly stream (many (symbol .semicolon)) fun i spans j =>
    Semicolons stream i j ∧
      ∀ limit, Determined stream limit (many (symbol .semicolon)) i spans j [] := by
  have hagain : Cleanly stream (many (symbol .semicolon)) fun i spans j =>
      ∀ limit, Determined stream limit (many (symbol .semicolon)) i spans j [] :=
    .again repeats_semicolons
  have hread := (cleanly_token (.symbol .semicolon)).many
    fun i _ _ (hread : _ ∧ stream.get? i = _) => hread.1 ▸ Nat.lt_succ_self i
  refine (hread.and hagain).mono ?_
  rintro i spans j ⟨hseries, hdetermined⟩
  refine ⟨?_, hdetermined⟩
  clear hdetermined
  induction hseries with
  | nil _ =>
    rw [Semicolons, TokenStream.slice_self]
    exact List.forall_mem_nil _
  | cons hread hrest ih =>
    obtain ⟨rfl, hget⟩ := hread
    have hle := hrest.le fun _ _ _ hread => hread.1 ▸ Nat.le_succ _
    rw [Semicolons, TokenStream.slice_eq_cons hget hle, List.forall_mem_cons]
    exact ⟨rfl, ih⟩

/-- Where there are no values, there is a semicolon or the block ends. -/
theorem returnStmt : Cleanly stream (returnStmt inner) fun i r j => i < j ∧
    r.span = stream.spanBetween i j ∧ (BlockEnds (stream.word j) →
      Cuts stream limit (Grammar.returnStmt inner') i (r.node.replaced room)
        ⟨r.node.truncate room, r.span⟩ j) := by
  refine .located (.token_bind fun _ => h.exprList.bounds.optional_bind
    (fun values => semicolons.bounds.bind fun spans => .pure ?_)
    (semicolons.bounds.bind fun spans => .pure ?_))
  · rintro j _ k _ ⟨hkj, -, -, hsemicolons⟩ _ _ ⟨hik, -, hvalues⟩ i rfl hreturn
    refine ⟨by omega, rfl, fun _ => .located ?_⟩
    rw [Option.getD_some, Return.replaced, Return.truncate]
    have hrest := (hsemicolons limit).bind_pure fun _ => Return.mk (truncateExprs room values)
    exact .token_bind hreturn ((hvalues.cuts false nofun).optional.before hrest)
  · rintro j hj _ _ ⟨hij, -, hsemi, hsemicolons⟩ _ i rfl hreturn
    refine ⟨hij, rfl, fun hends => .located ?_⟩
    have hlevel : LevelEnds (stream.word (i + 1)) := by
      rcases Nat.lt_or_eq_of_le hij with hlt | rfl
      · obtain ⟨t, hget⟩ : ∃ t, stream.get? (i + 1) = some t :=
          TokenStream.exists_get? (Nat.lt_of_lt_of_le hlt hj)
        have hnode := hsemi t (TokenStream.mem_slice.2 ⟨i + 1, Nat.le_refl _, hlt, hget⟩)
        exact levelEnds_of_get? hget (hnode ▸ rfl)
      · exact hends.levelEnds
    have hrest := (hsemicolons limit).bind_pure fun _ => Return.mk []
    rw [Option.getD_none, Return.replaced, Return.truncate, replacedInExprs, truncateExprs]
    exact .token_bind hreturn (.after (refusesExprs h.complete hlevel).determined hrest.cuts)

/-- A clean round reads a part, and the same round over the other level trims it. -/
theorem blockPart : Cleanly stream (blockPart inner) fun i r j => PartRead stream i r j ∧
    TrimmedPart stream limit room (Grammar.blockPart inner') i r j := by
  have hjunk : Cleanly stream skipJunk fun i _ _ => stream.size ≤ i :=
    { orderly := orderly_skipAhead junkLength [.named "statement"]
      post := by
        rintro c s _ t rfl _ hclean
        exact (size_le_of_skipAhead (fun _ _ => Nat.add_pos_left Nat.one_pos _) hclean).1 }
  have hstop {i k : Nat} {spans : List Span} (hik : i ≤ k) (hsemi : Semicolons stream i k)
      (hspans : ∀ limit, Determined stream limit (many (symbol .semicolon)) i spans k []) :
      PartRead stream i none k ∧
        TrimmedPart stream limit room (Grammar.blockPart inner') i none k := by
    refine ⟨.stop hik hsemi, fun hends => .after (hspans limit) (Determined.cuts ?_)⟩
    rintro c s rfl _ hs rfl
    exact ⟨s, part_of_end inner' hs (c.map_next? s ▸ hends), hs, rfl, rfl⟩
  refine semicolons.bounds.bind fun spans => h.stmt.optional_bind (fun s => .pure ?_)
    (h.returnStmt.optional_bind (fun r => .pure ?_) (.peek_bind fun next => ?_))
  · rintro j _ k _ hs i _ ⟨hik, -, hsemi, hspans⟩
    refine ⟨.stmt hik hs.moves hsemi hs.span, Nat.lt_of_le_of_lt hik hs.moves, ?_⟩
    exact .after (hspans limit) (hs.cuts.optional.before (.pure _ _))
  · rintro j _ k _ ⟨hlt, hspan, hr⟩ hnone i _ ⟨hik, -, hsemi, hspans⟩
    refine ⟨.ret hik hlt hsemi hspan, fun hends => ?_⟩
    have hrefuses := h.refuses scheme_stmt hnone
    exact .after (hspans limit) (.after hrefuses.determined
      ((hr hends).optional.before (.pure _ _)))
  · cases next with
    | none =>
      refine .pure ?_
      rintro k _ _ _ _ i _ ⟨hik, -, hsemi, hspans⟩
      exact hstop hik hsemi hspans
    | some t =>
      dsimp only
      split
      · refine .pure ?_
        rintro k _ _ _ _ i _ ⟨hik, -, hsemi, hspans⟩
        exact hstop hik hsemi hspans
      · refine hjunk.bind fun _ => .pure ?_
        rintro _ _ k _ hsize hnext
        obtain ⟨u, hget, -⟩ := Option.map_eq_some_iff.1 hnext.symm
        exact absurd (TokenStream.lt_size_of_get? hget) (Nat.not_lt_of_le hsize)

/-- The block that is left of what the parts make up. -/
theorem stmts : Cleanly stream (stmts inner) fun i b j => BlockEnds (stream.word j) →
    FittedBlock stream limit (room + 1) (Grammar.stmts inner') i b j := by
  have hparts := h.blockPart.mono fun _ _ _ hpart => hpart.2
  have hread := (h.blockPart.mono fun _ _ _ hpart => hpart.1).collect (by
    rintro _ _ _ (_ | _)
    omega)
  refine (hread.and hparts.collect_cuts).bind fun parts => .pure ?_
  rintro j _ i _ ⟨hrounds, hcuts⟩ hends
  refine ⟨fun m hjm hm => extent_of_rounds h.apart hrounds hends hjm hm,
    fun opening m _ _ _ => ?_⟩
  rw [replaced_blockOf hrounds, truncate_blockOf]
  exact (hcuts hends).bind_pure blockOf

end Level.Trims

/-! ### At the limit -/

/-- The values of a level span what was read for them. -/
structure Level.Spans (stream : TokenStream) (inner : Level) : Prop where
  expr : Cleanly stream inner.expr fun i e j => i < j ∧ e.span = stream.spanBetween i j
  block : Cleanly stream inner.block fun i b j => BlockEnds (stream.word j) →
    ∀ m, j ≤ m → m ≤ stream.size → b.extent (stream.slice i m) = stream.slice i j

theorem Level.Trims.spans (h : inner.Trims stream limit room inner') : inner.Spans stream where
  expr := h.expr.mono fun _ _ _ he => ⟨he.moves, he.span⟩
  block := h.block.mono fun _ _ _ hb hends => (hb hends).extent

/-- Nothing is read at the limit, except for an empty block. -/
theorem spans_cutOff (hstream : stream.Apart) : (nested 0).Spans stream where
  expr :=
    { orderly := (opens_cutOffExpr bottom_lenient).orderly
      post := fun _ _ hclean => absurd hclean not_clean_cutOffExpr }
  block :=
    { orderly := (always_cutOffBlock bottom_lenient).orderly
      post := by
        intro c s b t _ _ hclean hends m hm
        obtain ⟨-, rfl, rfl⟩ := clean_cutOffBlock hclean
        have hnone : Semicolons stream t.cursor t.cursor := by
          rw [Semicolons, TokenStream.slice_self]
          exact List.forall_mem_nil _
        exact extent_of_rounds hstream (.stop (.stop (Nat.le_refl _) hnone)) hends hm }

theorem levelLength_of_balanced {Levels : Bool → Nat → Prop} {separators : Bool}
    (h : Language.Passes Levels ((stream.slice i j).map (·.node))) (hlevel : Levels separators 0)
    (hij : i ≤ j) (hj : j ≤ stream.size)
    (hends : ∀ t, stream.word j = some t → endsLevel separators t = true) :
    levelLength separators 0 (stream.words i) = j - i := by
  rw [TokenStream.words_eq hij hj, h _ _ hlevel, List.length_map, TokenStream.length_slice hj]
  have hnone : levelLength separators 0 (stream.words j) = 0 := by
    cases hwords : stream.words j with
    | nil => rfl
    | cons t ts =>
      have ht := hends t (by rw [← TokenStream.head?_words, hwords]; rfl)
      simp [levelLength, ht]
  rw [hnone, Nat.add_zero]

theorem determined_skipLevel {separators : Bool} (hij : i < j) (hj : j ≤ stream.size)
    (hlength : levelLength separators 0 (stream.words i) = j - i) :
    Determined stream limit (skipLevel separators) i (some (stream.spanBetween i j)) j
      [⟨stream.spanBetween i j, .tooDeep limit, .skipped (j - i)⟩] := by
  rintro c s rfl rfl hs rfl
  have hcount : levelLength separators 0 ((c.stream.rest s.cursor).map (·.node)) =
    j - s.cursor := hlength
  have hstop : s.cursor + (j - s.cursor) = j := by omega
  refine ⟨(s.advance (j - s.cursor)).record _, ?_, hs.of_le (Nat.le_add_right _ _) ?_, hstop, rfl⟩
  · simp only [skipLevel, hcount]
    rw [if_neg (by omega), hstop]
  · show s.cursor + (j - s.cursor) ≤ c.stream.size
    omega

theorem determined_skipLevel_none {separators : Bool}
    (hlength : levelLength separators 0 (stream.words i) = 0) :
    Determined stream limit (skipLevel separators) i none i [] := by
  rintro c s rfl _ hs rfl
  exact ⟨s, if_pos hlength, hs, rfl, rfl⟩

theorem reportOf_slice (hij : i < j) (hj : j ≤ stream.size) :
    Replaced.reportOf limit (stream.slice i j) =
      some ⟨stream.spanBetween i j, .tooDeep limit, .skipped (j - i)⟩ := by
  obtain ⟨t, ht⟩ : ∃ t, stream.get? i = some t := TokenStream.exists_get? (by omega)
  obtain ⟨u, hu⟩ : ∃ u, stream.get? (j - 1) = some u := TokenStream.exists_get? (by omega)
  have hlast : (stream.slice i j).getLast? = some u := by
    rw [← TokenStream.slice_append (show i ≤ j - 1 by omega) (Nat.sub_le j 1) hj,
      TokenStream.slice_eq_cons hu (by omega), Nat.sub_add_cancel (by omega),
      TokenStream.slice_self, List.getLast?_concat]
  have hfirst : (stream.slice i j).head? = some t := by
    rw [TokenStream.slice_eq_cons ht hij, List.head?_cons]
  have hspan : stream.spanBetween i j = t.span.join u.span := by
    simp only [TokenStream.spanBetween, if_neg (Nat.not_le.2 hij), ht, hu]
  simp only [Replaced.reportOf, hfirst, hlast, hspan, TokenStream.length_slice hj]

/-- What does not fit is passed over, since it is balanced. -/
theorem trims_cutOff (hstream : stream.Apart) {depth : Nat} (hspans : (nested depth).Spans stream) :
    (nested depth).Trims stream limit 0 (nested 0) := by
  have hsound := sound_lenient depth
  have hbalanced := Language.balanced_within (depth + 1)
  refine ⟨hstream, ⟨_, _, hsound⟩, ⟨_, _, sound_lenient 0⟩,
    confined_nested endsStmts_stmtEnds depth,
    ⟨_, complete_nested 0⟩, ?_, ?_⟩
  · refine (hspans.expr.and hsound.expr.cleanly).bounds.mono ?_
    rintro i e j ⟨-, hj, ⟨hij, hspan⟩, hderives⟩
    refine ⟨hij, hspan, fun bracketed hends => ?_⟩
    cases bracketed with
    | false => exact .of_bare (List.mem_singleton_self _) rfl
    | true =>
      intro _
      have hlength := levelLength_of_balanced (hbalanced.expr hderives.derives) trivial
        (Nat.le_of_lt hij) hj (hends rfl)
      have hreports : Replaced.reports limit stream.tokens.toList [.expr e.span true] =
          [⟨stream.spanBetween i j, .tooDeep limit, .skipped (j - i)⟩] := by
        rw [Replaced.reports_singleton, Replaced.tokens, hspan,
          hstream.tokens_spanBetween hij hj, reportOf_slice hij hj, Option.toList_some]
      rw [replacedExpr, fittedExpr, fitted_zero, fitted_zero, hreports, hspan]
      exact (determined_skipLevel hij hj hlength).bind (.pure _ _)
  · refine (hspans.block.and hsound.block.cleanly).bounds.mono ?_
    rintro i b j ⟨hij, hj, hextent, hderives⟩ hends
    have hextent := hextent hends
    refine ⟨hextent, fun opening m hjm hm hrest => ?_⟩
    have hlength : levelLength false 0 (stream.words i) = j - i :=
      levelLength_of_balanced (hbalanced.block hderives.derives) (by rintro ⟨⟩) hij hj
        fun t ht => by simp [endsLevel, hends t ht]
    have hreports : Replaced.reports limit stream.tokens.toList [.block opening b] =
        (Replaced.reportOf limit (stream.slice i j)).toList := by
      rw [Replaced.reports_singleton, Replaced.tokens, hrest, hextent m hjm hm]
    rw [Block.replaced, Block.truncate]
    intro _
    rw [hreports]
    rcases Nat.lt_or_eq_of_le hij with hlt | rfl
    · rw [reportOf_slice hlt hj]
      exact (determined_skipLevel hlt hj hlength).bind (.pure _ _)
    · rw [TokenStream.slice_self]
      rw [Nat.sub_self] at hlength
      exact (determined_skipLevel_none hlength).bind (.pure _ _)

/-- One level more on both sides. -/
theorem trims_succ {depth : Nat} (h : (nested depth).Trims stream limit room (nested room)) :
    (nested (depth + 1)).Trims stream limit (room + 1) (nested (room + 1)) where
  apart := h.apart
  sound := ⟨_, _, sound_lenient (depth + 1)⟩
  sound' := ⟨_, _, sound_lenient (room + 1)⟩
  confined := confined_nested endsStmts_stmtEnds (depth + 1)
  complete := ⟨_, complete_nested (room + 1)⟩
  expr := h.orExpr.mono fun _ _ _ he => ⟨he.moves, he.span, fun _ _ => he.cuts⟩
  block := h.stmts

theorem spans_nested (hstream : stream.Apart) (depth : Nat) : (nested depth).Spans stream := by
  induction depth with
  | zero => exact spans_cutOff hstream
  | succ depth ih =>
    have hzero : (nested depth).Trims stream 0 0 (nested 0) := trims_cutOff hstream ih
    exact (trims_succ hzero).spans

/-- Each level trims those that have more levels to go. -/
theorem trims_nested (hstream : stream.Apart) (limit room more : Nat) :
    (nested (room + more)).Trims stream limit room (nested room) := by
  induction room with
  | zero =>
    rw [Nat.zero_add]
    exact trims_cutOff hstream (spans_nested hstream more)
  | succ room ih =>
    rw [Nat.succ_add]
    exact trims_succ ih

end Grammar

end LuaSyntax
