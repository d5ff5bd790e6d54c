import LuaSyntax.Proofs.Grammar.Confined
import LuaSyntax.Proofs.Grammar.Shift
import LuaSyntax.Proofs.Progress
/-!
# Clean prefixes

What follows a clean source does not disturb it. Its statements are read as if nothing came after
them, and what comes after them is read as if nothing stood in front.
-/

namespace LuaSyntax

namespace Block

theorem empty_append (b : Block) : empty ++ b = b := by
  obtain ⟨stmts, ret⟩ := b
  cases ret <;> rfl

theorem append_assoc (a b c : Block) : a ++ b ++ c = a ++ (b ++ c) := by
  change Block.mk (a.stmts ++ b.stmts ++ c.stmts) (c.ret.or (b.ret.or a.ret)) =
    Block.mk (a.stmts ++ (b.stmts ++ c.stmts)) ((c.ret.or b.ret).or a.ret)
  rw [List.append_assoc, Option.or_assoc]

theorem foldl_append (a b : Block) (more : List Block) :
    more.foldl (· ++ ·) (a ++ b) = a ++ more.foldl (· ++ ·) b := by
  induction more generalizing b with
  | nil => rfl
  | cons c more ih => rw [List.foldl_cons, List.foldl_cons, append_assoc, ih]

end Block

namespace Grammar

open Rule

variable {inner : Level} {law : Law} {L : Language} {c c' : Context} {s s' t u : State}

/-! ### Parts of a block -/

theorem blockOf_stmt_append (stmt : Located Stmt) (ps : List BlockPart) (b : Block) :
    blockOf (.stmt stmt :: ps) ++ b = ⟨stmt :: (blockOf ps ++ b).stmts, (blockOf ps ++ b).ret⟩ :=
  rfl

/-- A semicolon in front of a part of a block makes no difference. -/
theorem blockPart_of_semicolon (hs : c.Proper s) {span : Span}
    (hnext : c.next? s = some ⟨.symbol .semicolon, span⟩) :
    blockPart inner c s = blockPart inner c (s.advance 1) := by
  have hlt := lt_of_next? hnext
  have hs' : c.Proper (s.advance 1) := hs.of_le (Nat.le_succ _) hlt
  have hread : symbol .semicolon (c.speculating s) s = .ok span (s.advance 1) := by
    rw [← c.next?_speculating s] at hnext
    exact bind_of_ok (satisfy_of_accept (m := .exactly _) (a := ()) hnext (if_pos rfl))
  have hmore : ∃ spans t, many (symbol .semicolon) c (s.advance 1) = .ok spans t := by
    rcases (opening_token (.symbol .semicolon)).many_cases hs' with
      ⟨spans, t, hmany, -⟩ | ⟨-, hmany⟩
    · exact ⟨spans, t, hmany⟩
    · exact ⟨[], _, hmany⟩
  obtain ⟨spans, t, hmore⟩ := hmore
  have hall : many (symbol .semicolon) c s = .ok (span :: spans) t :=
    collect_of_more (bind_of_ok (optional_of_ok hread)) (lt_advance s) hs'.cursor_le hmore
  rw [blockPart, bind_of_ok hall, bind_of_ok hmore]

/-- Neither do all the semicolons that were read in a shorter stream. -/
theorem blockPart_of_semicolons (inner : Level) {spans : List Span}
    (hclean : Clean (many (symbol .semicolon)) c s spans t)
    (hsharing : c.Sharing StmtEnds c.stream.size s c' s') :
    blockPart inner c' s' = blockPart inner c' (s'.moveTo t.cursor) := by
  obtain ⟨hok, hdiags⟩ := hclean
  have hitems := (opening_token _).items_of_many hsharing.left hok
  clear hok
  induction hitems generalizing s' with
  | nil _ => rw [← hsharing.cursor, State.moveTo_self]
  | cons hread hu _ hrest ih =>
    have hquiet := hu.diags_eq (hrest.onward (hu.proper hsharing.left)) hdiags
    obtain ⟨found, rfl⟩ := Clean.of_token ⟨hread, hquiet⟩
    rw [c.next?_speculating] at found
    have hsame := hsharing.next? (lt_of_next? found)
    have hnext := ih (hsharing.onward hu hu.le_size) (hdiags.trans hquiet.symm)
    rw [blockPart_of_semicolon hsharing.right (hsame.trans found), State.advance, hsharing.cursor]
    exact hnext

/-- What a clean round finds after the semicolons. There is no junk. -/
inductive CleanPart (inner : Level) (c : Context) (s : State) :
    Option (BlockPart × Bool) → State → Prop
  | stmt {found : Located Stmt} {t : State}
    (h : Clean (optional (Grammar.stmt inner)) c s (some found) t) :
    CleanPart inner c s (some (.stmt found, true)) t
  | ret (found : Located Return) (t : State) : CleanPart inner c s (some (.ret found, false)) t
  | stop : CleanPart inner c s none s

theorem clean_partAfterSemicolons (hsound : inner.Sound law L) (hs : c.Proper s)
    {r : Option (BlockPart × Bool)} (hclean : Clean (partAfterSemicolons inner) c s r t) :
    CleanPart inner c s r t := by
  have hstmt := scheme_stmt.begins hsound
  have hret := scheme_returnStmt.begins hsound
  rcases hstmt.optional_cases hs with ⟨found, u, -, hsome, -⟩ | ⟨-, hnone⟩
  · have hpart : partAfterSemicolons inner c s = .ok (some (.stmt found, true)) u :=
      bind_of_ok hsome
    cases hpart.symm.trans hclean.ok
    exact .stmt ⟨hsome, hclean.diags⟩
  · rcases hret.optional_cases hs with ⟨found, u, -, hsome', -⟩ | ⟨-, hnone'⟩
    · have hpart : partAfterSemicolons inner c s = .ok (some (.ret found, false)) u :=
        (bind_of_ok hnone).trans (bind_of_ok hsome')
      cases hpart.symm.trans hclean.ok
      exact .ret found t
    · have hjunk : partAfterSemicolons inner c s = _ := bind_of_ok hnone
      obtain ⟨rfl, rfl, -⟩ := ends_of_clean_junk hs
        ⟨(bind_of_ok hnone').symm.trans (hjunk.symm.trans hclean.ok), hclean.diags⟩
      exact .stop

/-- Where a clean round has read the semicolons, and what it finds there. -/
theorem clean_blockPart (hsound : inner.Sound law L) (hs : c.Proper s)
    {r : Option (BlockPart × Bool)} (hclean : Clean (blockPart inner) c s r t) :
    ∃ spans u, Clean (many (symbol .semicolon)) c s spans u ∧ c.Onward s u ∧
      CleanPart inner c u r t := by
  have hsemicolon : Opening (symbol .semicolon) := opening_token _
  obtain ⟨spans, u, hspans, hu, hpart⟩ := hclean.of_bind hsemicolon.toOrderly.many
    (fun _ => scheme_partAfterSemicolons.orderly hsound) hs
  exact ⟨spans, u, hspans, hu, clean_partAfterSemicolons hsound (hu.proper hs) hpart⟩

/-! ### Blocks -/

/-- A statement that is read without a diagnostic is read again in a longer stream. -/
theorem blockPart_of_stmt (hsound : inner.Sound law L) (hinner : inner.Confined StmtEnds)
    (hsharing : c.Sharing StmtEnds c.stream.size s c' s') {spans : List Span} {found : Located Stmt}
    (hspans : Clean (many (symbol .semicolon)) c s spans u) (hu : c.Onward s u)
    (hstmt : Clean (optional (stmt inner)) c u (some found) t) :
    blockPart inner c' s' = .ok (some (.stmt found, true)) (s'.moveTo t.cursor) := by
  have hsemicolons := (scheme_semicolons.confined endsStmts_stmtEnds hsound hinner).1
  have hconfined := (scheme_stmt.confined endsStmts_stmtEnds hsound hinner).2 nofun
  have hs := hu.proper hsharing.left
  have hsharing' := (hsharing.onward hu hu.le_size).speculating
  rcases hconfined.toOpening.optional_cases hs with ⟨a, v, hread, hsome, hv, hmoved⟩ | ⟨-, hnone⟩
  · cases hsome.symm.trans hstmt.ok
    have hread' := optional_of_ok
      (hconfined.again hsharing' ⟨hread, hstmt.diags⟩ ⟨hv.le_size, .inl rfl⟩)
    have hmany :=
      hsemicolons.again hsharing hspans (.of_lt (Nat.lt_of_lt_of_le hmoved hv.le_size))
    rw [blockPart, bind_of_ok hmany, bind_of_ok hread']
    rfl
  · cases hnone.symm.trans hstmt.ok

/-- The parts that were read without a diagnostic and without a `return` are read again in a longer
stream, and then those after them. -/
theorem blockParts_longer (hsound : inner.Sound law L) (hinner : inner.Confined StmtEnds)
    {ps qs : List BlockPart} (hrounds : LoopRun (blockPart inner) c s ps t)
    (hdiags : t.diags = s.diags) (hret : (blockOf ps).ret = none)
    (hsharing : c.Sharing StmtEnds c.stream.size s c' s')
    (hrest : Unchecked (blockPart inner) c' (s'.moveTo t.cursor) qs u) :
    Unchecked (blockPart inner) c' s' (ps ++ qs) u ∧
      blockOf (ps ++ qs) = blockOf ps ++ blockOf qs := by
  have hprogressive := progressive_of_always (always_blockPart hsound)
  induction hrounds generalizing s' with
  | stop hstep =>
    obtain ⟨spans, u, hspans, -, hpart⟩ :=
      clean_blockPart hsound hsharing.left ⟨hstep, hdiags⟩
    cases hpart
    have hsame := blockPart_of_semicolons inner hspans hsharing
    refine ⟨?_, (Block.empty_append _).symm⟩
    cases hrest with
    | stop h => exact .stop (hsame.trans h)
    | last h => exact .last (hsame.trans h)
    | more h hrest => exact .more (hsame.trans h) hrest
  | last hstep =>
    obtain ⟨spans, u, -, -, hpart⟩ := clean_blockPart hsound hsharing.left ⟨hstep, hdiags⟩
    cases hpart
    cases hret
  | stalled hstep hstalled =>
    have hmoved := hprogressive.advances hsharing.left hstep
    have hle := (hprogressive.onward hsharing.left hstep).le_size
    unfold Context.remaining at hstalled
    omega
  | more hstep hmoved hlater ih =>
    obtain ⟨hv, hquiet⟩ := hlater.quiet hprogressive.toOrderly hsharing.left hstep hdiags
    obtain ⟨spans, u, hspans, hu, hpart⟩ :=
      clean_blockPart hsound hsharing.left ⟨hstep, hquiet⟩
    cases hpart with
    | stmt hstmt =>
      have hstep' := blockPart_of_stmt hsound hinner hsharing hspans hu hstmt
      obtain ⟨hparts, hblock⟩ :=
        ih (hdiags.trans hquiet.symm) hret (hsharing.onward hv hv.le_size) hrest
      refine ⟨.more hstep' hparts, ?_⟩
      rw [List.cons_append, blockOf_stmt, hblock, blockOf_stmt_append]

/-- On a clean run there are no blocks after the first one, since the input ends. -/
theorem moreBlocks_of_clean (horderly : Orderly inner.block) (hs : c.Proper s) {more : List Block}
    (hclean : Clean (collect (chunkPart inner)) c s more t) :
    c.next? s = none ∧ more = [] ∧ t = s := by
  obtain ⟨r, u, hstep⟩ : ∃ r u, Clean (chunkPart inner) c s r u := by
    have hrounds := loopRun_of_collect hclean.ok
    have hpart := orderly_chunkPart horderly
    cases hrounds with
    | stop hstep => exact ⟨_, _, hstep, hclean.diags⟩
    | last hstep => exact ⟨_, _, hstep, hclean.diags⟩
    | stalled hstep _ => exact ⟨_, _, hstep, hclean.diags⟩
    | more hstep _ hlater => exact ⟨_, _, hstep, (hlater.quiet hpart hs hstep hclean.diags).2⟩
  have hend := next_of_clean_chunkPart horderly hs hstep
  cases (collect_of_none (chunkPart_of_end inner hend)).symm.trans hclean.ok
  exact ⟨hend, rfl, rfl⟩

section

variable {stream after : TokenStream} {limit : Nat} {first more : Block}

/-- The tokens of the first stream, and then those of the other. -/
theorem longer_start (stream : TokenStream) (limit : Nat)
    (hnext : StmtEnds ((after.get? 0).map (·.node))) :
    (start stream limit).Sharing StmtEnds stream.size initial
      ((start after limit).behind stream.tokens) initial where
  stream :=
    { get?_eq := fun hi => Array.getElem?_append_left hi
      le := Nat.le_refl _
      le' := by
        have hsize : ((start after limit).behind stream.tokens).stream.size =
            stream.size + after.size := Array.size_append
        rw [hsize]
        exact Nat.le_add_right _ _
      ends_left := (TokenStream.Shares.all stream nofun).ends_left
      ends_right := by
        rwa [← TokenStream.get?_append stream.tokens after 0] at hnext }
  cursor := rfl
  le := Nat.zero_le _
  left := proper_start _ _
  right := ⟨Nat.zero_le _, nofun, nofun⟩

/-- A block that is read without a diagnostic to the end of the stream goes on with the block that
comes after it. -/
theorem block_longer (depth : Nat) (hnext : StmtEnds ((after.get? 0).map (·.node)))
    (hclean : Clean (nested depth).block (start stream limit) initial first t)
    (hend : t.cursor = stream.size) (hret : first.ret = none)
    (hmore : (nested depth).block (start after limit) initial = .ok more u) :
    (nested depth).block ((start after limit).behind stream.tokens) initial =
      .ok (first ++ more) (u.behind stream.size []) := by
  have hproper := proper_start after limit
  cases depth with
  | zero =>
    -- past the limit nothing is read without a diagnostic
    obtain ⟨-, rfl, rfl⟩ := clean_cutOffBlock hclean
    have hinitial : initial.behind stream.tokens.size [] = initial := by
      have hsize : stream.tokens.size = 0 := hend.symm
      rw [hsize]
      rfl
    have hshift := (shifts_nested 0).block _ _ hproper stream.tokens []
    rw [hmore, hinitial] at hshift
    rw [Block.empty_append]
    exact hshift
  | succ depth =>
    have hsound := sound_lenient depth
    have hprogressive := progressive_of_always (always_blockPart hsound)
    obtain ⟨ps, v, hparts, -, hfirst⟩ :=
      hclean.of_bind hprogressive.toOrderly.collect (fun _ => .pure _) (proper_start _ _)
    cases hfirst.ok
    obtain ⟨qs, w, hparts', hblock'⟩ := ok_of_bind hmore
    cases hblock'
    have hshift := scheme_blockPart.collect.shifts hsound (shifts_nested depth) _ _ hproper
      stream.tokens []
    rw [hparts'] at hshift
    have hrest : Unchecked (blockPart (nested depth)) ((start after limit).behind stream.tokens)
        (initial.moveTo t.cursor) qs (u.behind stream.size []) := by
      rw [hend]
      exact (hprogressive.collect_iff (hproper.behind stream.tokens [])).1 hshift
    have hsharing := longer_start stream limit hnext
    obtain ⟨hall, hblock⟩ := blockParts_longer hsound (confined_nested endsStmts_stmtEnds depth)
      (loopRun_of_collect hparts.ok) hparts.diags hret hsharing hrest
    rw [← hblock]
    exact bind_of_ok ((hprogressive.collect_iff hsharing.right).2 hall)

/-- A chunk that is read without a diagnostic goes on with the chunk that comes after it. -/
theorem chunk_longer (depth : Nat) (hnext : StmtEnds ((after.get? 0).map (·.node)))
    (hclean : Clean (chunk (nested depth)) (start stream limit) initial first t)
    (hret : first.ret = none)
    (hmore : chunk (nested depth) (start after limit) initial = .ok more u) :
    chunk (nested depth) ((start after limit).behind stream.tokens) initial =
      .ok (first ++ more) (u.behind stream.size []) := by
  have hsound := sound_lenient depth
  have hpart := scheme_chunkPart.orderly hsound
  have hs := proper_start stream limit
  obtain ⟨b, v, hblock, hv, hrest⟩ := hclean.of_bind hsound.block.orderly
    (fun b => by split; exacts [.pure _, hpart.collect.bind fun _ => .pure _]) hs
  -- the chunk of the first stream is its first block
  obtain ⟨rfl, hend⟩ : b = first ∧ v.cursor = stream.size := by
    split at hrest
    · next hsome =>
      cases hrest.ok
      rw [hret] at hsome
      cases hsome
    · obtain ⟨bs, w, hbs, -, hfold⟩ :=
        hrest.of_bind hpart.collect (fun _ => .pure _) (hv.proper hs)
      obtain ⟨hnone, rfl, rfl⟩ := moreBlocks_of_clean hsound.block.orderly (hv.proper hs) hbs
      cases hfold.ok
      refine ⟨rfl, Nat.le_antisymm hv.le_size (Nat.le_of_not_lt fun hlt => ?_)⟩
      obtain ⟨u, hu⟩ := next?_of_lt (c := start stream limit) hlt
      cases hnone.symm.trans hu
  obtain ⟨b', v', hblock', hrest'⟩ := ok_of_bind hmore
  have hlong := block_longer depth hnext hblock hend hret hblock'
  have hret' : (b ++ b').ret = b'.ret := by rw [Block.append_ret, hret, Option.or_none]
  rw [chunk, bind_of_ok hlong, hret']
  split at hrest' <;> rename_i hsome
  · cases hrest'
    rw [if_pos hsome]
    rfl
  · obtain ⟨bs, w, hbs, hfold⟩ := ok_of_bind hrest'
    cases hfold
    have hv' := (hsound.block.orderly.onward (proper_start _ _) hblock').proper (proper_start _ _)
    have hshift := scheme_chunkPart.collect.shifts hsound (shifts_nested depth) _ _ hv'
      stream.tokens []
    rw [hbs] at hshift
    rw [if_neg hsome, ← Block.foldl_append]
    exact bind_of_ok hshift

/-- A run over both streams gives what the runs over each of them give. -/
theorem run_longer (depth : Nat) (fallback : Block)
    (hnext : StmtEnds ((after.get? 0).map (·.node)))
    (hclean : ((chunk (nested depth)).run stream limit fallback).2 = [])
    (hret : ((chunk (nested depth)).run stream limit fallback).1.ret = none) :
    (chunk (nested depth)).run ⟨stream.tokens ++ after.tokens, after.stop⟩ limit fallback =
      (((chunk (nested depth)).run stream limit fallback).1 ++
        ((chunk (nested depth)).run after limit fallback).1,
        ((chunk (nested depth)).run after limit fallback).2) := by
  have horderly := scheme_chunk.orderly (sound_lenient depth)
  have hproper := proper_start after limit
  obtain ⟨first, t, hfirst, -, hresult⟩ := clean_of_run horderly hclean
  rw [hresult] at hret ⊢
  cases hmore : chunk (nested depth) (start after limit) initial with
  | error why u => cases horderly.completes hproper hmore
  | ok more u =>
    have hlong : chunk (nested depth)
        (start ⟨stream.tokens ++ after.tokens, after.stop⟩ limit) initial =
          .ok (first ++ more) (u.behind stream.size []) :=
      chunk_longer depth hnext hfirst hret hmore
    have hu := (horderly.onward hproper hmore).proper hproper
    have hshift : endOfInput (start ⟨stream.tokens ++ after.tokens, after.stop⟩ limit)
        (u.behind stream.size []) = _ := shifts_endOfInput _ u hu stream.tokens []
    simp only [Rule.run, hlong, hmore, hshift]
    cases endOfInput (start after limit) u <;> simp [mapState, State.behind]

/-- Of no tokens the parse is empty, wherever the source ends. -/
theorem run_empty (depth : Nat) (stop : Pos) (limit : Nat) (fallback : Block) :
    (chunk (nested depth)).run ⟨#[], stop⟩ limit fallback = (.empty, []) := by
  have hend : (start ⟨#[], stop⟩ limit).next? initial = none := rfl
  have hblock : (nested depth).block (start ⟨#[], stop⟩ limit) initial = .ok .empty initial :=
    block_of_end depth (proper_start _ _) nofun
  have hchunk : chunk (nested depth) (start ⟨#[], stop⟩ limit) initial = .ok .empty initial := by
    rw [chunk, bind_of_ok hblock]
    exact bind_of_ok (collect_of_none (chunkPart_of_end _ hend))
  simp only [Rule.run, hchunk]
  rfl

end

end Grammar

/-- The tree of a token list in which expressions and blocks nest `maxDepth` deep at most. -/
def parseTo (maxDepth : Nat) (tokens : List (Located Token)) : Chunk × List Diagnostic :=
  parseTokens tokens (TokenStream.endOfLast tokens) { maxDepth }

example : parseTo defaultMaxDepth = parse := rfl

/-- What it takes to parse the tokens that are no comments. -/
theorem parseTo_eq (maxDepth : Nat) (tokens : List (Located Token)) :
    parseTo maxDepth tokens =
      let result := (Grammar.chunk (Grammar.nested maxDepth)).run
        ⟨(withoutComments tokens).toArray, TokenStream.endOfLast tokens⟩ maxDepth .empty
      (⟨commentsOf tokens, result.1⟩, result.2) :=
  parseTokens_of_no_limit tokens _ _ maxDepth

theorem endOfLast_append (A : List (Located Token)) {B : List (Located Token)} (hB : B ≠ []) :
    TokenStream.endOfLast (A ++ B) = TokenStream.endOfLast B := by
  rw [TokenStream.endOfLast, TokenStream.endOfLast, List.getLast?_append_of_ne_nil A hB]

/-- It matters to no parse of a token list what stood in front of the list. -/
theorem run_behind (maxDepth : Nat) (A B : List (Located Token)) :
    (Grammar.chunk (Grammar.nested maxDepth)).run
        ⟨(withoutComments B).toArray, TokenStream.endOfLast (A ++ B)⟩ maxDepth .empty =
      (Grammar.chunk (Grammar.nested maxDepth)).run
        ⟨(withoutComments B).toArray, TokenStream.endOfLast B⟩ maxDepth .empty := by
  by_cases hB : B = []
  · subst hB
    exact (Grammar.run_empty maxDepth _ _ _).trans (Grammar.run_empty maxDepth _ _ _).symm
  · rw [endOfLast_append A hB]

/-- What follows a clean source does not disturb it, nor is it disturbed: if it begins with a
`return` or a statement, other than with an opening parenthesis, the tree of both is the tree of the
one and then that of the other, and the diagnostics are those of the other. -/
theorem parseTo_append (maxDepth : Nat) (A B : List (Located Token))
    (hclean : (parseTo maxDepth A).2 = []) (hret : (parseTo maxDepth A).1.block.ret = none)
    (hnext : ∀ t, (withoutComments B).head? = some t →
      t.node = .keyword .return_ ∨ t.node.startsStmt = true ∧ t.node ≠ .symbol .openParen) :
    parseTo maxDepth (A ++ B) =
      (⟨(parseTo maxDepth A).1.comments ++ (parseTo maxDepth B).1.comments,
        (parseTo maxDepth A).1.block ++ (parseTo maxDepth B).1.block⟩,
        (parseTo maxDepth B).2) := by
  rw [parseTo_eq] at hclean hret
  simp only [parseTo_eq]
  have hends : Grammar.StmtEnds
      ((TokenStream.get? ⟨(withoutComments B).toArray, TokenStream.endOfLast (A ++ B)⟩ 0).map
        (·.node)) := by
    intro node hnode
    obtain ⟨t, ht, rfl⟩ := Option.map_eq_some_iff.1 hnode
    rw [TokenStream.get?, List.getElem?_toArray, ← List.head?_eq_getElem?] at ht
    rcases hnext t ht with hreturn | ⟨hstarts, hparen⟩
    · rw [hreturn]
      exact ⟨rfl, by decide⟩
    · exact ⟨by rw [Grammar.resumesAt, hstarts]; rfl, hparen⟩
  have hrun := Grammar.run_longer maxDepth .empty hends hclean hret
  have htokens : (withoutComments A).toArray ++ (withoutComments B).toArray =
      (withoutComments (A ++ B)).toArray := by
    rw [withoutComments, withoutComments, withoutComments, List.filter_append,
      List.append_toArray]
  have hcomments : commentsOf (A ++ B) = commentsOf A ++ commentsOf B := List.filterMap_append
  rw [run_behind, htokens] at hrun
  rw [hrun, hcomments]

/-- A call and a declaration, and then a `return` with an operand missing and a stray `end`. -/
theorem parseTo_append_malformed_return :
    let tokens := (tokenize "x.f() local y = #t -- t\n return 1 + end" .glua).1
    let clean := tokens.take 10
    let rest := tokens.drop 10
    (parseTo 2 clean).2 = [] ∧ (parseTo 2 clean).1.block.ret = none ∧ (parseTo 2 rest).2 ≠ [] ∧
      parseTo 2 (clean ++ rest) =
        (⟨(parseTo 2 clean).1.comments ++ (parseTo 2 rest).1.comments,
          (parseTo 2 clean).1.block ++ (parseTo 2 rest).1.block⟩, (parseTo 2 rest).2) := by
  intro tokens clean rest
  have hclean : (parseTo 2 clean).2 = [] := List.length_eq_zero_iff.1 (by decide +kernel)
  have hret : (parseTo 2 clean).1.block.ret = none :=
    Option.isNone_iff_eq_none.1 (by decide +kernel)
  have hmalformed : (parseTo 2 rest).2 ≠ [] := by
    have hlength : (parseTo 2 rest).2.length ≠ 0 := by decide +kernel
    exact fun hnil => hlength (List.length_eq_zero_iff.2 hnil)
  have hhead : (withoutComments rest).head?.map (·.node) = some (.keyword .return_) := by
    decide +kernel
  refine ⟨hclean, hret, hmalformed, parseTo_append 2 clean rest hclean hret fun t ht => ?_⟩
  rw [ht] at hhead
  exact .inl (Option.some.inj hhead)

end LuaSyntax
