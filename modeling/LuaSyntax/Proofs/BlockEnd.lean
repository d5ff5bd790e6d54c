import LuaSyntax.Proofs.Grammar.Alike
import LuaSyntax.Proofs.Rule.Advance
/-!
# Where a block ends

A block is never stuck. It ends with a `return`, or where a token ends it, or with the input. There
is one exception: past the nesting limit it is passed over by counting brackets, and a closing
bracket that no one opened ends it too.
-/

namespace LuaSyntax

namespace Rule

variable {α β : Type} {rule : Rule α} {f : α → Rule β}

/-! ### Rules that are never stuck -/

/-- The rule gives a value in whatever mode it runs. -/
def NeverStuck (rule : Rule α) : Prop := ∀ c s, ∃ a t, rule c s = .ok a t

theorem NeverStuck.bind (h : NeverStuck rule) (hf : ∀ a, NeverStuck (f a)) :
    NeverStuck (rule >>= f) := by
  intro c s
  obtain ⟨a, t, hrule⟩ := h c s
  rw [bind_of_ok hrule]
  exact hf a c t

theorem NeverStuck.pure (a : α) : NeverStuck (pure a) := fun _ s => ⟨a, s, rfl⟩

theorem neverStuck_optional (rule : Rule α) : NeverStuck (optional rule) := by
  intro c s
  rcases optional_cases rule c s with ⟨a, t, -, hok⟩ | ⟨why, t, -, hok⟩
  · exact ⟨some a, t, hok⟩
  · exact ⟨none, t.rewind s, hok⟩

theorem NeverStuck.collect {step : Rule (Option (α × Bool))} (h : NeverStuck step) :
    NeverStuck (collect step) := by
  intro c s
  induction hn : c.remaining s using Nat.strongRecOn generalizing s with
  | ind n ih =>
    obtain ⟨r, t, hstep⟩ := h c s
    rw [Rule.collect, hstep]
    cases r with
    | none => exact ⟨_, _, rfl⟩
    | some round =>
      obtain ⟨a, goesOn⟩ := round
      cases goesOn with
      | false => exact ⟨_, _, rfl⟩
      | true =>
        dsimp only
        split
        · next hmoved =>
          obtain ⟨as, u, hrest⟩ := ih _ (hn ▸ hmoved) t rfl
          exact ⟨a :: as, u, by rw [hrest]⟩
        · exact ⟨[], t, rfl⟩

theorem neverStuck_many (rule : Rule α) : NeverStuck (many rule) :=
  ((neverStuck_optional rule).bind fun r => .pure (r.map (·, true))).collect

end Rule

namespace Grammar

open Rule

variable {α : Type} {start : Start} {closed : Bool} {rule : Level → Rule α} {inner : Level}
  {c : Context} {s t : State}

/-! ### The rules of the grammar go forward -/

/-- The rules for what nests one level deeper go forward. -/
structure Level.Advances (inner : Level) : Prop where
  expr : Proceeds inner.expr
  block : Rule.Advances inner.block

/-- Wherever the suffixes of a prefix expression were marked, the cursor had not gone back. -/
theorem forward_of_suffixChain (hsuffix : Proceeds (suffix inner))
    {marks : List (Located Suffix × State)} (hok : suffixChain inner c s = .ok marks t) :
    ∀ m ∈ marks, c.Forward s m.2 := by
  have hround : ∀ {s t m more}, suffixRound inner c s = .ok (some (m, more)) t →
      m.2 = t ∧ c.Forward s t := by
    intro s t m more hstep
    obtain ⟨r, u, hoptional, hrest⟩ := ok_of_bind hstep
    cases r with
    | none => cases hrest
    | some a =>
      cases hrest
      exact ⟨rfl, hsuffix.toAdvances.optional.forward hoptional⟩
  have hrounds := loopRun_of_collect hok
  change LoopRun (suffixRound inner) c s marks t at hrounds
  clear hok
  induction hrounds with
  | stop _ => exact List.forall_mem_nil _
  | last hstep =>
    obtain ⟨hmark, hforward⟩ := hround hstep
    rw [List.forall_mem_singleton, hmark]
    exact hforward
  | stalled _ _ => exact List.forall_mem_nil _
  | more hstep _ _ ih =>
    obtain ⟨hmark, hforward⟩ := hround hstep
    rw [List.forall_mem_cons, hmark]
    exact ⟨hforward, fun m hm => hforward.trans (ih m hm)⟩

theorem proceeds_prefixExp (hhead : Proceeds (head inner)) (hsuffix : Proceeds (suffix inner)) :
    Proceeds (prefixExp inner .unrestricted) := by
  have hparts : ∀ {c s a t}, prefixExp inner .unrestricted c s = .ok a t →
      ∃ h u, head inner c s = .ok h u ∧ c.Forward u t := by
    intro c s a t hok
    rw [prefixExp_unrestricted_eq] at hok
    obtain ⟨h, u, hh, hok⟩ := ok_of_bind hok
    obtain ⟨_, _, ⟨⟩, hok⟩ := ok_of_bind hok
    obtain ⟨marks, v, hmarks, hok⟩ := ok_of_bind hok
    cases hok
    refine ⟨h, u, hh, ?_⟩
    -- The cursor goes back to the last mark that is kept, or to where the head ended.
    cases hlast : (keepThroughLast
        (fun m => SuffixPolicy.unrestricted.allowsLast m.1.node) marks).getLast? with
    | none => exact .of_eq rfl
    | some m =>
      have hkept := (keepThroughLast_isPrefix _ marks).subset (List.mem_of_getLast? hlast)
      exact (forward_of_suffixChain hsuffix hmarks m hkept).congr rfl rfl rfl
  refine ⟨⟨fun hok => ?_⟩, fun hc hok => ?_⟩
  · obtain ⟨h, u, hh, hrest⟩ := hparts hok
    exact (hhead.forward hh).trans hrest
  · obtain ⟨h, u, hh, hrest⟩ := hparts hok
    exact Nat.lt_of_lt_of_le (hhead.lt hc hh) hrest.cursor_le

/-- The rules go forward, and those that begin with a token consume one. -/
theorem Scheme.goes (h : Scheme start closed rule) (hinner : inner.Advances) :
    Rule.Advances (rule inner) ∧ (start ≠ .any → Proceeds (rule inner)) := by
  induction h with
  | pure a => exact ⟨advances_of_ok fun _ _ => rfl, absurd rfl⟩
  | satisfy m => exact ⟨(proceeds_satisfy m).toAdvances, fun _ => proceeds_satisfy m⟩
  | fieldName =>
    have hname : Proceeds Grammar.fieldName := .attempt <| (proceeds_satisfy .name).bind fun _ =>
      ((proceeds_satisfy _).bind fun _ => advances_of_ok fun _ _ => rfl).toAdvances.bind fun _ =>
        advances_of_ok fun _ _ => rfl
    exact ⟨hname.toAdvances, fun _ => hname⟩
  | record d _ => exact ⟨advances_record d, absurd rfl⟩
  | look g _ => exact ⟨advances_of_ok (g := fun c s => g (c.next? s)) fun _ _ => rfl, absurd rfl⟩
  | skip count expected _ =>
    exact ⟨⟨fun hok => (advances_skipTokens _ expected).forward hok⟩, absurd rfl⟩
  | expr => exact ⟨hinner.expr.toAdvances, fun _ => hinner.expr⟩
  | block => exact ⟨hinner.block, absurd rfl⟩
  | seq _ _ _ ih ihf =>
    exact ⟨ih.1.bind fun a => (ihf a).1, fun hstart => (ih.2 hstart).bind fun a => (ihf a).1⟩
  | manySeq _ _ ih ihf =>
    have hproceeds := ih.1.many.bind_proceeds fun as => (ihf as).2 nofun
    exact ⟨hproceeds.toAdvances, fun _ => hproceeds⟩
  | located _ hstart ih => exact ⟨ih.1.located, fun _ => (ih.2 hstart).located⟩
  | optional _ _ _ ih => exact ⟨ih.1.optional, absurd rfl⟩
  | collect _ ih => exact ⟨ih.1.collect, absurd rfl⟩
  | alt rules _ _ hstart ih =>
    have hproceeds : Proceeds (Rule.alt (rules.map (· inner))) := by
      refine .alt ?_
      rw [List.forall_mem_map]
      exact fun rule hrule => (ih rule hrule).2 hstart
    exact ⟨hproceeds.toAdvances, fun _ => hproceeds⟩
  | prefixExp _ _ ihhead ihsuffix =>
    have hproceeds := proceeds_prefixExp (ihhead.2 nofun) (ihsuffix.2 nofun)
    exact ⟨hproceeds.toAdvances, fun _ => hproceeds⟩
  | weaken _ hstart _ _ ih => exact ⟨ih.1, fun h => ih.2 (hstart h)⟩

theorem Scheme.advances (h : Scheme start closed rule) (hinner : inner.Advances) :
    Rule.Advances (rule inner) :=
  (h.goes hinner).1

theorem Scheme.proceeds (h : Scheme .token closed rule) (hinner : inner.Advances) :
    Proceeds (rule inner) :=
  (h.goes hinner).2 nofun

theorem proceeds_cutOffExpr : Proceeds cutOffExpr := by
  have hcases : ∀ {c s e t}, cutOffExpr c s = .ok e t →
      c.Forward s t ∧ (c.isCommitted s = false → s.cursor < t.cursor) := by
    intro c s e t hok
    rcases skipLevel_spec true c s with hskip | ⟨count, span, hpos, hle, -, hskip⟩
    · cases hc : c.isCommitted s with
      | true =>
        cases (cutOffExpr_of_committed hskip hc).symm.trans hok
        exact ⟨.of_eq rfl, nofun⟩
      | false =>
        obtain ⟨why, herr⟩ := cutOffExpr_of_not_committed hskip hc
        cases herr.symm.trans hok
    · cases (cutOffExpr_of_some hskip).symm.trans hok
      exact ⟨⟨Nat.le_add_right _ _, fun _ => hle⟩, fun _ => Nat.lt_add_of_pos_right hpos⟩
  exact ⟨⟨fun hok => (hcases hok).1⟩, fun hc hok => (hcases hok).2 hc⟩

theorem advances_cutOffBlock : Rule.Advances cutOffBlock :=
  (advances_skipLevel false).bind fun _ => advances_of_ok fun _ _ => rfl

theorem advances_nested (depth : Nat) : (nested depth).Advances := by
  induction depth with
  | zero => exact ⟨proceeds_cutOffExpr, advances_cutOffBlock⟩
  | succ depth ih => exact ⟨scheme_orExpr.proceeds ih, scheme_stmts.advances ih⟩

/-! ### Blocks -/

/-- What a round of the loop over the parts of a block does: it reads a part and goes on after it,
it reads a `return`, which is the last part, or it has come to where the block ends. -/
inductive PartEnds (c : Context) (s t : State) : Option (BlockPart × Bool) → Prop
  | more {p : BlockPart} (h : c.Forward s t) (hlt : s.cursor < t.cursor) :
    PartEnds c s t (some (p, true))
  | last {r : Located Return} : PartEnds c s t (some (.ret r, false))
  | stop (h : BlockEnds ((c.next? t).map (·.node))) : PartEnds c s t none

theorem neverStuck_skipJunk : NeverStuck skipJunk := by
  intro c s
  obtain ⟨t, hok, -⟩ := exists_skipTokens (junkLength (c.ahead s)) [.named "statement"] c s
  exact ⟨(), t, hok⟩

/-- Junk begins with the next token. -/
theorem forward_of_skipJunk {token : Located Token} (hnext : c.next? s = some token)
    (hok : skipJunk c s = .ok () t) : c.Forward s t ∧ s.cursor < t.cursor := by
  obtain ⟨u, hskip, hcursor⟩ :=
    exists_skipTokens (junkLength (c.ahead s)) [.named "statement"] c s
  have hforward := (advances_skipTokens _ _).forward hskip
  cases hskip.symm.trans hok
  refine ⟨hforward, ?_⟩
  have hhead := c.map_next? s
  have hlength := c.length_ahead s
  rw [hnext] at hhead
  cases hahead : c.ahead s with
  | nil =>
    rw [hahead] at hhead
    cases hhead
  | cons u us =>
    rw [hahead] at hcursor hlength
    simp only [junkLength, List.length_cons] at hcursor hlength
    omega

theorem neverStuck_blockPart (inner : Level) : NeverStuck (blockPart inner) := by
  refine (neverStuck_many _).bind fun _ => (neverStuck_optional _).bind fun stmt => ?_
  cases stmt with
  | some found => exact .pure _
  | none =>
    refine (neverStuck_optional _).bind fun ret => ?_
    cases ret with
    | some found => exact .pure _
    | none =>
      refine .bind (fun c s => ⟨_, s, rfl⟩) fun next => ?_
      cases next with
      | none => exact .pure none
      | some token =>
        dsimp only
        split
        · exact .pure none
        · exact neverStuck_skipJunk.bind fun _ => .pure _

/-- What a round of the loop over the parts of a block runs, by its result: semicolons first, then
each kind of part that is tried. -/
inductive PartRun (inner : Level) (c : Context) (s t : State) : Option (BlockPart × Bool) → Prop
  | stmt {spans : List Span} {u : State} {a : Located Stmt}
    (semicolons : many (symbol .semicolon) c s = .ok spans u)
    (read : optional (stmt inner) c u = .ok (some a) t) : PartRun inner c s t (some (.stmt a, true))
  | ret {spans : List Span} {u v : State} {a : Located Return}
    (semicolons : many (symbol .semicolon) c s = .ok spans u)
    (noStmt : optional (stmt inner) c u = .ok none v)
    (read : optional (returnStmt inner) c v = .ok (some a) t) :
    PartRun inner c s t (some (.ret a, false))
  | stop {spans : List Span} {u v : State}
    (semicolons : many (symbol .semicolon) c s = .ok spans u)
    (noStmt : optional (stmt inner) c u = .ok none v)
    (noRet : optional (returnStmt inner) c v = .ok none t)
    (ends : BlockEnds ((c.next? t).map (·.node))) : PartRun inner c s t none
  | junk {spans : List Span} {u v w : State} {found : Located Token}
    (semicolons : many (symbol .semicolon) c s = .ok spans u)
    (noStmt : optional (stmt inner) c u = .ok none v)
    (noRet : optional (returnStmt inner) c v = .ok none w)
    (next : c.next? w = some found) (goesOn : found.node.endsBlock = false)
    (skips : skipJunk c w = .ok () t) : PartRun inner c s t (some (.junk, true))

theorem partRun_of_blockPart {r : Option (BlockPart × Bool)}
    (hok : blockPart inner c s = .ok r t) : PartRun inner c s t r := by
  obtain ⟨_, u, hsemicolons, hok⟩ := ok_of_bind hok
  obtain ⟨stmt, v, hstmt, hok⟩ := ok_of_bind hok
  cases stmt with
  | some found =>
    cases hok
    exact .stmt hsemicolons hstmt
  | none =>
    obtain ⟨ret, w, hret, hok⟩ := ok_of_bind hok
    cases ret with
    | some found =>
      cases hok
      exact .ret hsemicolons hstmt hret
    | none =>
      obtain ⟨next, _, hpeek, hok⟩ := ok_of_bind hok
      cases hpeek
      cases hnext : c.next? w with
      | none =>
        rw [hnext] at hok
        cases hok
        refine .stop hsemicolons hstmt hret ?_
        rw [hnext]
        exact nofun
      | some token =>
        rw [hnext] at hok
        dsimp only [Option.map_some] at hok
        split at hok
        · next hends =>
          cases hok
          refine .stop hsemicolons hstmt hret ?_
          rw [hnext]
          rintro _ ⟨⟩
          exact hends
        · next hends =>
          obtain ⟨_, x, hskip, hok⟩ := ok_of_bind hok
          cases hok
          exact .junk hsemicolons hstmt hret hnext (Bool.eq_false_iff.2 hends) hskip

theorem partEnds_of_blockPart (hinner : inner.Advances) {r : Option (BlockPart × Bool)}
    (hok : blockPart inner c s = .ok r t) : PartEnds c s t r := by
  have hsemicolon := scheme_semicolons.advances hinner
  have hstmt := scheme_stmt.proceeds hinner
  have hret := (scheme_returnStmt.proceeds hinner).toAdvances.optional
  cases partRun_of_blockPart hok with
  | stmt semicolons read =>
    have hu := hsemicolon.forward semicolons
    exact .more (hu.trans (hstmt.toAdvances.optional.forward read))
      (Nat.lt_of_le_of_lt hu.cursor_le (hstmt.lt_of_some read))
  | ret _ _ _ => exact .last
  | stop _ _ _ ends => exact .stop ends
  | junk semicolons noStmt noRet next _ skips =>
    obtain ⟨hforward, hlt⟩ := forward_of_skipJunk next skips
    have hbefore := (hsemicolon.forward semicolons).trans
      ((hstmt.toAdvances.optional.forward noStmt).trans (hret.forward noRet))
    exact .more (hbefore.trans hforward) (Nat.lt_of_le_of_lt hbefore.cursor_le hlt)

/-- The rounds of a block end with a `return`, or where the block ends. -/
theorem ends_of_rounds (hinner : inner.Advances) {parts : List BlockPart}
    (hrounds : LoopRun (blockPart inner) c s parts t) :
    (blockOf parts).ret.isSome ∨ BlockEnds ((c.next? t).map (·.node)) := by
  induction hrounds with
  | stop hstep =>
    cases partEnds_of_blockPart hinner hstep with
    | stop hends => exact .inr hends
  | last hstep =>
    cases partEnds_of_blockPart hinner hstep with
    | last => exact .inl rfl
  | stalled hstep hstalled =>
    cases partEnds_of_blockPart hinner hstep with
    | more hforward hlt => exact absurd (hforward.remaining_lt hlt) hstalled
  | @more s u t part parts hstep _ _ ih =>
    refine ih.imp_left fun hret => ?_
    change (List.findSome? _ (part :: parts)).isSome
    rw [List.findSome?_cons]
    split
    · rfl
    · exact hret

/-- After a level has been passed over, the next token ends it. -/
theorem endsLevel_after_levelLength {separators : Bool} {depth : Nat} {ts : List Token} {t : Token}
    (h : (ts.drop (levelLength separators depth ts)).head? = some t) :
    endsLevel separators t = true := by
  induction ts generalizing depth with
  | nil => cases h
  | cons u us ih =>
    rw [levelLength] at h
    split at h
    · next hends =>
      cases h
      exact (Bool.and_eq_true _ _ ▸ hends).2
    · exact ih h

theorem endsBlock_of_closesNesting {k : Keyword} (h : k.closesNesting = true) :
    k.endsBlock = true := by
  revert h
  cases k <;> decide

/-- A token that ends a level and no block is a closing bracket. -/
theorem bracket_of_endsLevel {t : Token} (h : endsLevel false t = true)
    (hblock : t.endsBlock = false) :
    ∃ bracket : Symbol, bracket.closesNesting = true ∧ t = .symbol bracket := by
  simp only [endsLevel, hblock, Bool.or_false, Bool.false_and] at h
  cases t with
  | keyword k =>
    rw [Token.endsBlock, endsBlock_of_closesNesting h] at hblock
    cases hblock
  | symbol s => exact ⟨s, h, rfl⟩
  | _ => cases h

/-- A block ends with a `return`, or where a token ends it, or with the input. Past the nesting
limit it is left empty, and it may also end at a closing bracket. -/
theorem block_ends (depth : Nat) (c : Context) (s : State) :
    ∃ b t, (nested depth).block c s = .ok b t ∧
      (b.ret.isSome ∨ BlockEnds ((c.next? t).map (·.node)) ∨
        depth = 0 ∧ b = .empty ∧ ∃ bracket : Symbol, bracket.closesNesting = true ∧
          (c.next? t).map (·.node) = some (.symbol bracket)) := by
  cases depth with
  | zero =>
    obtain ⟨r, t, hskip, hcursor⟩ := exists_skipLevel false c s
    refine ⟨.empty, t, bind_of_ok hskip, .inr ?_⟩
    cases hnext : (c.next? t).map (·.node) with
    | none => exact .inl nofun
    | some token =>
      rw [c.map_next?, Context.ahead, hcursor, ← TokenStream.drop_rest, List.map_drop] at hnext
      have hends : endsLevel false token = true := endsLevel_after_levelLength hnext
      cases hblock : token.endsBlock with
      | true =>
        refine .inl ?_
        rintro _ ⟨⟩
        exact hblock
      | false =>
        obtain ⟨bracket, hcloses, rfl⟩ := bracket_of_endsLevel hends hblock
        exact .inr ⟨rfl, rfl, bracket, hcloses, rfl⟩
  | succ depth =>
    have hinner := advances_nested depth
    obtain ⟨parts, t, hok⟩ := (neverStuck_blockPart (nested depth)).collect c s
    refine ⟨blockOf parts, t, bind_of_ok hok, ?_⟩
    exact (ends_of_rounds hinner (loopRun_of_collect hok)).imp_right .inl

/-- In `do ) end`, with room for the block of the chunk only, the block after `do` is passed over up
to the bracket. Neither does a token there end a block, nor is there a `return`. -/
theorem block_ends_at_bracket :
    ¬ ∀ (depth : Nat) (c : Context) (s : State) (b : Block) (t : State),
      (nested depth).block c s = .ok b t →
        b.ret.isSome ∨ BlockEnds ((c.next? t).map (·.node)) := by
  intro h
  let tokens : List Token := [.keyword .do_, .symbol .closeParen, .keyword .end_]
  let stream : TokenStream := .ofTokens (tokens.map fun t => ⟨t, default⟩)
  have hblock : (nested 0).block (start stream 1) ⟨1, [], none⟩ = .ok .empty ⟨1, [], none⟩ := rfl
  rcases h 0 (start stream 1) ⟨1, [], none⟩ .empty ⟨1, [], none⟩ hblock with hret | hends
  · cases hret
  · cases hends (.symbol .closeParen) rfl

end Grammar

end LuaSyntax
