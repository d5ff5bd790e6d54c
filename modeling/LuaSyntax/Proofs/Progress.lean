import LuaSyntax.Proofs.Grammar.Reentry
import LuaSyntax.Proofs.NestingLimit
/-!
# Progress

A loop of the grammar goes on only after a round that has consumed a token, so none of them could
run forever even if it did not check that. And the rules that nest never come back to where they
are still running: on any chain of nested calls, an expression, a statement or a block is entered at
most once at each token. Therefore a run nests no deeper than there are tokens, whatever the limit.
-/

namespace LuaSyntax

namespace Grammar

open Rule Operator

variable {α β : Type}

/-! ### Loops -/

/-- A round that goes on to the next one has consumed a token. -/
structure Progressive (step : Rule (Option (α × Bool))) : Prop extends Orderly step where
  advances : ∀ {c s a t}, c.Proper s → step c s = .ok (some (a, true)) t → s.cursor < t.cursor

/-- The rounds of a loop that goes on for as long as its rounds say so, whether they have consumed a
token or not. -/
inductive Unchecked (step : Rule (Option (α × Bool))) (c : Context) : State → List α → State → Prop
  | stop {s t : State} (h : step c s = .ok none t) : Unchecked step c s [] t
  | last {s t : State} {a : α} (h : step c s = .ok (some (a, false)) t) : Unchecked step c s [a] t
  | more {s t u : State} {a : α} {as : List α} (h : step c s = .ok (some (a, true)) t)
    (rest : Unchecked step c t as u) : Unchecked step c s (a :: as) u

/-- The loop ends, though it does not check that its rounds consume anything. -/
theorem Progressive.collect_iff {step : Rule (Option (α × Bool))} (h : Progressive step)
    {c : Context} {s t : State} {as : List α} (hs : c.Proper s) :
    collect step c s = .ok as t ↔ Unchecked step c s as t := by
  refine ⟨fun hok => ?_, fun hrounds => ?_⟩
  · have hrounds := loopRun_of_collect hok
    clear hok
    induction hrounds with
    | stop hstep => exact .stop hstep
    | last hstep => exact .last hstep
    | stalled hstep hstalled =>
      have hlt := h.advances hs hstep
      have hle := (h.onward hs hstep).le_size
      unfold Context.remaining at hstalled
      omega
    | more hstep _ _ ih => exact .more hstep (ih ((h.onward hs hstep).proper hs))
  · induction hrounds with
    | stop hstep => exact collect_of_none hstep
    | last hstep => exact collect_of_last hstep
    | more hstep _ ih =>
      have hround := h.onward hs hstep
      exact collect_of_more hstep (h.advances hs hstep) hround.le_size (ih (hround.proper hs))

/-- A round of a repetition. -/
abbrev itemRound (item : Rule α) : Rule (Option (α × Bool)) := do
  return (← optional item).map (·, true)

theorem many_eq (item : Rule α) : many item = collect (itemRound item) := rfl

/-- The rounds of the loops of the grammar. -/
inductive Round (inner : Level) : {α : Type} → Rule (Option (α × Bool)) → Prop
  | suffixes : Round inner (suffixRound inner)
  | disjuncts : Round inner (operandRound orOps (andExpr inner))
  | conjuncts : Round inner (operandRound andOps (compareExpr inner))
  | comparisons : Round inner (operandRound compareOps (concatExpr inner))
  | concatenations : Round inner (operandRound concatOps (addExpr inner))
  | summands : Round inner (operandRound addOps (mulExpr inner))
  | factors : Round inner (operandRound mulOps (unaryExpr inner))
  | exponents : Round inner (operandRound powOps (signed inner))
  | unaryOperators : Round inner (itemRound (oneOf unaryOps))
  | parameters : Round inner nextParam
  | tableFields : Round inner (fieldRound inner)
  | expressions : Round inner (itemRound (following .comma inner.expr))
  | names (separator : Symbol) : Round inner (itemRound (following separator name))
  | targets : Round inner (targetRound inner)
  | elseifs : Round inner (itemRound (elseifClause inner))
  | semicolons : Round inner (itemRound (symbol .semicolon))
  | blockParts : Round inner (blockPart inner)
  | chunkParts : Round inner (chunkPart inner)

theorem progressive_optional {rule : Rule β} {f : Option β → Rule (Option (α × Bool))}
    (h : Opening rule) (hnone : f none = pure none) (hsome : ∀ b, Orderly (f (some b))) :
    Progressive (optional rule >>= f) where
  toOrderly := by
    refine h.toOrderly.optional.bind fun r => ?_
    cases r with
    | none =>
      rw [hnone]
      exact .pure none
    | some b => exact hsome b
  advances {c s a u} hs hok := by
    rcases h.optional_cases hs with ⟨b, t, -, hoptional, ht, hlt⟩ | ⟨-, hoptional⟩ <;>
      rw [bind_of_ok hoptional] at hok
    · exact Nat.lt_of_lt_of_le hlt ((hsome b).onward (ht.proper hs) hok).cursor_le
    · rw [hnone] at hok
      cases hok

theorem progressive_item {item : Rule α} (h : Opening item) : Progressive (itemRound item) :=
  progressive_optional h rfl fun _ => .pure _

theorem progressive_operand {ops : List (Token × BinOp)} (hops : ops ≠ []) {operand : Rule β}
    (h : Orderly operand) : Progressive (operandRound ops operand) :=
  progressive_optional (opening_oneOf hops) rfl fun _ => h.bind fun _ => .pure _

theorem progressive_of_always {law : Law} {step : Rule (Option (α × Bool))}
    {P : Yield → Option (α × Bool) → Prop} (h : Always law (fun r => r.isSome = true) step P) :
    Progressive step where
  toOrderly := h.orderly
  advances {c s a t} hs hok := by
    obtain ⟨r, u, hstep, -, hmoves, -⟩ := h c s hs
    cases hstep.symm.trans hok
    exact hmoves rfl

theorem Round.progressive {inner : Level} {law : Law} {L : Language} (hinner : inner.Sound law L)
    {step : Rule (Option (α × Bool))} (h : Round inner step) : Progressive step := by
  have hne {γ δ : Type} {p : γ × δ} {ps : List (γ × δ)} : p :: ps ≠ [] := List.cons_ne_nil p ps
  cases h with
  | suffixes =>
    exact progressive_optional (scheme_suffix.begins hinner) rfl
      fun _ => orderly_mark.bind fun _ => .pure _
  | disjuncts => exact progressive_operand hne (scheme_andExpr.orderly hinner)
  | conjuncts => exact progressive_operand hne (scheme_compareExpr.orderly hinner)
  | comparisons => exact progressive_operand hne (scheme_concatExpr.orderly hinner)
  | concatenations => exact progressive_operand hne (scheme_addExpr.orderly hinner)
  | summands => exact progressive_operand hne (scheme_mulExpr.orderly hinner)
  | factors => exact progressive_operand hne (scheme_unaryExpr.orderly hinner)
  | exponents => exact progressive_operand hne (scheme_signed.orderly hinner)
  | unaryOperators => exact progressive_item (opening_oneOf hne)
  | parameters =>
    have hparam : Opening (do let _ ← symbol .comma; param) :=
      (opening_token _).bind fun _ => scheme_param.orderly hinner
    exact progressive_optional hparam rfl fun _ => .pure _
  | tableFields =>
    have hseparator := (scheme_fieldSeparator.orderly hinner).optional
    exact progressive_optional (scheme_field.opening nofun hinner) rfl
      fun _ => hseparator.bind fun _ => .pure _
  | expressions =>
    exact progressive_item ((scheme_following .comma Scheme.expr).begins hinner)
  | names separator =>
    exact progressive_item ((scheme_following separator Scheme.name).begins hinner)
  | targets =>
    exact progressive_optional ((scheme_following .comma scheme_prefixExp).begins hinner) rfl
      fun target => ((scheme_checkedTarget target).orderly hinner).bind fun _ => .pure _
  | elseifs => exact progressive_item (scheme_elseifClause.begins hinner)
  | semicolons => exact progressive_item (opening_token _)
  | blockParts => exact progressive_of_always (always_blockPart hinner)
  | chunkParts => exact progressive_of_always (always_chunkPart hinner)

/-! ### Nested calls -/

/-- The rules that nest. -/
inductive Construct where
  | expr
  | stmt
  | block
deriving DecidableEq

/-- The nested calls that are still running, each with the cursor at which it was entered. -/
abbrev Calls := List (Construct × Nat)

/-- What is run instead of a call that is entered at a cursor at which the same construct is still
running. -/
structure Alarm where
  expr : Rule (Located Expr)
  stmt : Rule (Located Stmt)
  block : Rule Block

/-- Runs `body` with one more call, unless that call is running already. -/
def entered (calls : Calls) (construct : Construct) (alarm : Rule α) (body : Calls → Rule α) :
    Rule α := fun c s =>
  if (construct, s.cursor) ∈ calls then alarm c s else body ((construct, s.cursor) :: calls) c s

/-- The nested grammar with an alarm where a construct is entered while it is already running at the
same cursor. -/
def watched (alarm : Alarm) : Nat → Calls → Level
  | 0, calls =>
    { expr := entered calls .expr alarm.expr fun _ => cutOffExpr
      block := entered calls .block alarm.block fun _ => cutOffBlock }
  | depth + 1, calls =>
    { expr := fun c s =>
        entered calls .expr alarm.expr (fun calls => orExpr (watched alarm depth calls)) c s
      block := fun c s =>
        entered calls .block alarm.block (fun calls =>
          stmtsWith (entered calls .stmt alarm.stmt fun calls => stmt (watched alarm depth calls))
            (watched alarm depth calls)) c s }

@[simp] theorem watched_zero_expr (alarm : Alarm) (calls : Calls) :
    (watched alarm 0 calls).expr = entered calls .expr alarm.expr fun _ => cutOffExpr := rfl

@[simp] theorem watched_zero_block (alarm : Alarm) (calls : Calls) :
    (watched alarm 0 calls).block = entered calls .block alarm.block fun _ => cutOffBlock := rfl

@[simp] theorem watched_succ_expr (alarm : Alarm) (depth : Nat) (calls : Calls) :
    (watched alarm (depth + 1) calls).expr =
      entered calls .expr alarm.expr fun calls => orExpr (watched alarm depth calls) := rfl

@[simp] theorem watched_succ_block (alarm : Alarm) (depth : Nat) (calls : Calls) :
    (watched alarm (depth + 1) calls).block = entered calls .block alarm.block fun calls =>
      stmtsWith (entered calls .stmt alarm.stmt fun calls => stmt (watched alarm depth calls))
        (watched alarm depth calls) := rfl

section

variable {m n : Nat} {alarm : Alarm} {calls : Calls} {construct : Construct} {c : Context}
  {s t : State}

theorem entered_of_not_mem {alarm : Rule α} {body : Calls → Rule α}
    (h : (construct, s.cursor) ∉ calls) :
    entered calls construct alarm body c s = body ((construct, s.cursor) :: calls) c s :=
  if_neg h

/-- All running calls were entered before the cursor. -/
def Calls.Before (calls : Calls) (cursor : Nat) : Prop := ∀ call ∈ calls, call.2 < cursor

theorem Calls.Before.mono (h : calls.Before m) (hle : m ≤ n) : calls.Before n :=
  fun call hcall => Nat.lt_of_lt_of_le (h call hcall) hle

theorem Calls.Before.cons (h : calls.Before n) (hlt : m < n) :
    Calls.Before ((construct, m) :: calls) n :=
  List.forall_mem_cons.2 ⟨hlt, h⟩

theorem Calls.Before.not_mem (h : calls.Before n) : (construct, n) ∉ calls :=
  fun hmem => Nat.lt_irrefl n (h _ hmem)

/-- In a block, at the cursor `start` or past it, no statement and nothing inside one sets off an
alarm. -/
theorem watched_stmts {depth start : Nat} (hcalls : calls.Before start)
    (ih : ∀ {calls : Calls} {c : Context} {s : State}, c.Proper s → calls.Before s.cursor →
      (watched alarm depth calls).expr c s = (nested depth).expr c s ∧
        (watched alarm depth calls).block c s = (nested depth).block c s) :
    AlikeWhere (fun _ s => start ≤ s.cursor)
      (stmtsWith (entered ((.block, start) :: calls) .stmt alarm.stmt fun calls =>
        stmt (watched alarm depth calls)) (watched alarm depth ((.block, start) :: calls)))
      (stmts (nested depth)) := by
  have hinner := sound_lenient depth
  refine alike_stmtsWith hinner (fun c s hs hle => ?_) (fun c s _ hle => ?_)
    fun hle ht => Nat.le_trans hle ht.cursor_le
  · -- the statement is not running: the running calls are the block and what was entered before it
    have hfresh : ((.stmt, s.cursor) : Construct × Nat) ∉ (.block, start) :: calls := by
      rw [List.mem_cons, not_or]
      exact ⟨nofun, (hcalls.mono hle).not_mem⟩
    rw [entered_of_not_mem hfresh]
    refine scheme_stmt.fresh hinner _ s hs.speculating
      ⟨Context.isCommitted_speculating hs, fun c' s' _ hs' hlt => ih hs' ?_⟩
    exact ((hcalls.mono (by omega)).cons (by omega)).cons hlt
  · exact fun c' s' _ hs' hlt => ih hs' ((hcalls.mono (by omega)).cons (by omega))

/-- No alarm goes off. -/
theorem watched_eq (alarm : Alarm) (depth : Nat) (hs : c.Proper s)
    (hcalls : calls.Before s.cursor) :
    (watched alarm depth calls).expr c s = (nested depth).expr c s ∧
      (watched alarm depth calls).block c s = (nested depth).block c s := by
  induction depth generalizing c s calls with
  | zero =>
    rw [watched_zero_expr, watched_zero_block, entered_of_not_mem hcalls.not_mem,
      entered_of_not_mem hcalls.not_mem]
    exact ⟨rfl, rfl⟩
  | succ depth ih =>
    rw [watched_succ_expr, watched_succ_block, entered_of_not_mem hcalls.not_mem,
      entered_of_not_mem hcalls.not_mem]
    refine ⟨?_, watched_stmts hcalls ih c s hs (Nat.le_refl _)⟩
    exact alike_orExpr (sound_lenient depth) c s hs fun c' s' _ hs' hlt =>
      ih hs' ((hcalls.mono (by omega)).cons hlt)

/-- So no alarm goes off in any rule of the grammar. -/
theorem watched_scheme {rule : Level → Rule α} {start : Start} {closed : Bool}
    (h : Scheme start closed rule) (alarm : Alarm) (depth : Nat) (hs : c.Proper s) :
    rule (watched alarm depth []) c s = rule (nested depth) c s :=
  h.early (sound_lenient depth) c s hs fun _ _ _ hs' _ => watched_eq alarm depth hs' nofun

/-- Where there is room for all the tokens that are left, more room makes no difference: a run does
not nest deeper than that. -/
theorem nested_eq_of_room {depth depth' : Nat} (hs : c.Proper s) (hroom : c.remaining s < depth)
    (hroom' : c.remaining s < depth') :
    (nested depth).expr c s = (nested depth').expr c s ∧
      (nested depth).block c s = (nested depth').block c s := by
  induction depth generalizing depth' c s with
  | zero => omega
  | succ depth ih =>
    obtain ⟨depth', rfl⟩ := Nat.exists_eq_add_one.2 (Nat.lt_of_le_of_lt (Nat.zero_le _) hroom')
    have halike : (nested depth).AlikePast (nested depth') 1 c s := by
      intro c' s' hstream hs' hlt
      have hle := hs'.cursor_le
      have hlt' : c'.remaining s' < c.remaining s := by
        unfold Context.remaining
        rw [hstream] at hle ⊢
        omega
      exact ih hs' (by omega) (by omega)
    exact ⟨alike_orExpr (sound_lenient depth') c s hs halike,
      alike_stmts (sound_lenient depth') c s hs halike⟩

end

end Grammar

open Rule Grammar

/-- Parsing is a matter of finitely many steps that each get somewhere. In every loop, a round that
goes on to the next one has consumed a token, so the loop would end even if it did not check that.
Nested calls never enter an expression, a statement or a block at a cursor at which the same is
still running inside the outermost call: whatever should happen then makes no difference to any of
the rules, nor to what is parsed. And however large the limit is, calls nest no deeper than there
are tokens left. -/
theorem parsing_progresses :
    (∀ (depth : Nat) {α : Type} {step : Rule (Option (α × Bool))}, Round (nested depth) step →
      ∀ c s, c.Proper s →
        (∀ a t, step c s = .ok (some (a, true)) t → s.cursor < t.cursor) ∧
        ∀ as t, collect step c s = .ok as t ↔ Unchecked step c s as t) ∧
    (∀ (alarm : Alarm) (depth : Nat) (c : Context) (s : State), c.Proper s →
      (watched alarm depth []).expr c s = (nested depth).expr c s ∧
      (watched alarm depth []).block c s = (nested depth).block c s ∧
      stmt (watched alarm depth []) c s = stmt (nested depth) c s ∧
      chunk (watched alarm depth []) c s = chunk (nested depth) c s) ∧
    (∀ (depth depth' : Nat) (c : Context) (s : State), c.Proper s →
      c.remaining s < depth → c.remaining s < depth' →
      (nested depth).expr c s = (nested depth').expr c s ∧
      (nested depth).block c s = (nested depth').block c s) ∧
    ∀ (alarm : Alarm) (tokens : List (Located Token)) (stop : Pos) (dialect : Dialect)
      (maxDepth : Nat),
      parseTokens tokens stop ⟨dialect, none, maxDepth⟩ =
        let result := (chunk (watched alarm maxDepth [])).run
          ⟨(withoutComments tokens).toArray, stop⟩ maxDepth .empty
        (⟨commentsOf tokens, result.1⟩, result.2) := by
  refine ⟨fun depth α step h c s hs => ?_, fun alarm depth c s hs => ?_,
    fun depth depth' c s hs => nested_eq_of_room hs, fun alarm tokens stop dialect maxDepth => ?_⟩
  · have hstep := h.progressive (sound_lenient depth)
    exact ⟨fun a t => hstep.advances hs, fun as t => hstep.collect_iff hs⟩
  · have hcalls : Calls.Before [] s.cursor := nofun
    obtain ⟨hexpr, hblock⟩ := watched_eq alarm depth hs hcalls
    exact ⟨hexpr, hblock, watched_scheme scheme_stmt alarm depth hs,
      watched_scheme scheme_chunk alarm depth hs⟩
  · rw [parseTokens_of_no_limit, Rule.run, Rule.run,
      watched_scheme scheme_chunk alarm maxDepth (proper_start _ _)]

/-- A comma and a name are one more parameter. At two tokens, it makes no difference whether three
levels may nest or four. -/
theorem parsing_progresses_parameter :
    let c := start (.ofTokens [⟨.symbol .comma, default⟩, ⟨.ident "x", default⟩]) 3
    let alarm : Alarm := ⟨stuck [] 0, stuck [] 0, pure .empty⟩
    c.Proper initial ∧
      (∃ p t, nextParam c initial = .ok (some (p, true)) t ∧ initial.cursor < t.cursor) ∧
      (watched alarm 3 []).block c initial = (nested 3).block c initial ∧
      c.remaining initial = 2 ∧ (nested 3).block c initial = (nested 4).block c initial := by
  intro c alarm
  obtain ⟨hloops, hcalls, hroom, -⟩ := parsing_progresses
  have hs : c.Proper initial := proper_start _ _
  have hnext : nextParam c initial =
      .ok (some (.name ⟨"x", default⟩, true)) ((initial.advance 1).advance 1) := rfl
  exact ⟨hs, ⟨_, _, hnext, (hloops 3 .parameters c initial hs).1 _ _ hnext⟩,
    (hcalls alarm 3 c initial hs).2.1, rfl, (hroom 3 4 c initial hs (by decide) (by decide)).2⟩

end LuaSyntax
