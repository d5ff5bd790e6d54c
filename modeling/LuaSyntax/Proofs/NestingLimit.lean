import LuaSyntax.Proofs.Grammar.Commit
import LuaSyntax.Proofs.Grammar.StmtRepeats
import LuaSyntax.Proofs.RoundTrip
/-!
# The limit of nesting

A clean source nests no deeper than the limit, so a higher limit makes no difference to it. At the
limit an expression is never read cleanly, and a block only where it is empty; there the rules of
deeper levels are stuck and find nothing, too. The levels above inherit this from their parts.
-/

namespace LuaSyntax

namespace Grammar

open Rule

variable {c c' : Context} {s s' t : State}

/-! ### At the limit -/

/-- Nothing is passed over only where the level ends. -/
theorem endsLevel_of_skipLevel {separators : Bool} (hskip : skipLevel separators c s = .ok none t)
    {u : Token} (hnext : (c.ahead s).head? = some u) : endsLevel separators u = true := by
  unfold skipLevel at hskip
  dsimp only at hskip
  split at hskip
  · next hcount =>
    have hcount : levelLength separators 0 (c.ahead s) = 0 := hcount
    obtain ⟨ts, hts⟩ := List.head?_eq_some_iff.1 hnext
    rw [hts, levelLength] at hcount
    split at hcount
    · next hends => simpa using hends
    · cases hcount
  · cases hskip

/-- An expression past the limit is never read cleanly. -/
theorem not_clean_cutOffExpr {e : Located Expr} : ¬ Clean cutOffExpr c s e t := by
  rintro ⟨hok, hdiags⟩
  rcases skipLevel_spec true c s with hskip | ⟨count, span, -, -, -, hskip⟩
  · cases hc : c.isCommitted s with
    | true =>
      rw [cutOffExpr_of_committed hskip hc] at hok
      cases hok
      exact List.cons_ne_self _ _ hdiags
    | false =>
      obtain ⟨why, herr⟩ := cutOffExpr_of_not_committed hskip hc
      rw [herr] at hok
      cases hok
  · rw [cutOffExpr_of_some hskip] at hok
    cases hok
    exact List.cons_ne_self _ _ hdiags

/-- Past the limit, only an empty block is read cleanly. -/
theorem clean_cutOffBlock {b : Block} (hclean : Clean cutOffBlock c s b t) :
    skipLevel false c s = .ok none s ∧ b = .empty ∧ t = s := by
  obtain ⟨hok, hdiags⟩ := hclean
  rcases skipLevel_spec false c s with hskip | ⟨count, span, -, -, -, hskip⟩
  · have hempty : cutOffBlock c s = .ok .empty s := bind_of_ok hskip
    cases hempty.symm.trans hok
    exact ⟨hskip, rfl, rfl⟩
  · have hcut : cutOffBlock c s = .ok .empty _ := bind_of_ok hskip
    cases hcut.symm.trans hok
    exact absurd hdiags (List.cons_ne_self _ _)

theorem skipLevel_of_stuck {why : Stuck} (herr : cutOffExpr c s = .error why t) :
    skipLevel true c s = .ok none s := by
  rcases skipLevel_spec true c s with hskip | ⟨count, span, -, -, -, hskip⟩
  · exact hskip
  · rw [cutOffExpr_of_some hskip] at herr
    cases herr

/-- Where an expression past the limit cannot begin, no expression can. -/
theorem reopens_cutOffExpr (depth : Nat) :
    Reopens AnyNext cutOffExpr (nested depth).expr where
  orderly := (opens_cutOffExpr bottom_lenient).orderly
  again _ hclean := absurd hclean not_clean_cutOffExpr
  moves := (opens_cutOffExpr bottom_lenient).lt_of_ok
  stuck {c s c' s' why t} hbeside _ hc' herr := by
    have hskip := skipLevel_of_stuck herr
    have hahead : c'.ahead s' = c.ahead s := by
      rw [Context.ahead, hbeside.stream, hbeside.cursor]
      rfl
    have hwithout : Without (fun t => !endsLevel true t) (c'.ahead s').head? := by
      intro u hu
      rw [hahead] at hu
      simp [endsLevel_of_skipLevel hskip hu]
    obtain ⟨why', herr'⟩ :=
      (complete_nested depth).needs _ hwithout c' s' hbeside.right hc' rfl
    exact ⟨why', s', herr'⟩

/-- Where a block can end, each level finds an empty one. -/
theorem block_of_end (depth : Nat) (hs : c.Proper s) (hends : BlockEnds (c.ahead s).head?) :
    (nested depth).block c s = .ok .empty s := by
  cases depth with
  | zero =>
    have hskip : skipLevel false c s = .ok none s := skipLevel_of_end fun t ht => by
      simp [endsLevel, hends t ht]
    exact bind_of_ok hskip
  | succ depth =>
    have hsemicolons : many (symbol .semicolon) c s = .ok [] s := by
      have hnone : optional (symbol .semicolon) c s = .ok none s :=
        (needs_symbol .semicolon _ fun t ht => by
          rw [beq_eq_false_iff_ne]
          rintro rfl
          exact hends.ne_semicolon ht).optional hs rfl
      exact collect_of_none (bind_of_ok hnone)
    have hpart : blockPart (nested depth) c s = .ok none s :=
      (bind_of_ok hsemicolons).trans (part_of_end (nested depth) hs hends)
    exact bind_of_ok (collect_of_none hpart)

/-- A block past the limit is read cleanly where it is empty. -/
theorem repeats_cutOffBlock (depth : Nat) :
    Rule.Repeats BlockEnds cutOffBlock (nested depth).block where
  orderly := (always_cutOffBlock bottom_lenient).orderly
  again {c s c' s' b t} hbeside hclean hends := by
    obtain ⟨-, rfl, rfl⟩ := clean_cutOffBlock hclean
    refine ⟨s', ⟨block_of_end depth hbeside.right ?_, rfl⟩, hbeside.cursor⟩
    rwa [← c'.map_next?, hbeside.next?]

/-! ### Below the limit -/

/-- The rules of a level repeat those of any level with less room. -/
theorem repeats_nested (depth more : Nat) : (nested depth).Repeats (nested (depth + more)) := by
  induction depth with
  | zero =>
    rw [Nat.zero_add]
    exact ⟨reopens_cutOffExpr more, repeats_cutOffBlock more, ⟨_, _, sound_lenient _⟩,
      ⟨_, _, sound_lenient _⟩⟩
  | succ depth ih =>
    rw [Nat.succ_add]
    exact ⟨reopens_orExpr ih, repeats_stmts ih, ⟨_, _, sound_lenient _⟩, ⟨_, _, sound_lenient _⟩⟩

end Grammar

namespace Rule

variable {α : Type} {rule rule' : Rule α} {stream : TokenStream} {limit : Nat} {fallback : α}

/-- If nothing is reported, the rule has run cleanly to the end of the stream. -/
theorem clean_of_run (h : Orderly rule) (hclean : (rule.run stream limit fallback).2 = []) :
    ∃ a t, Clean rule (start stream limit) initial a t ∧ (start stream limit).next? t = none ∧
      rule.run stream limit fallback = (a, []) := by
  have hs := proper_start stream limit
  cases hrule : rule (start stream limit) initial with
  | error why t => cases h.completes hs hrule
  | ok a t =>
    have ht := h.onward hs hrule
    obtain ⟨u, hend, hreach, -⟩ := endOfInput_spec ⟨fun _ => True, True⟩ (ht.proper hs) rfl
    have hresult : rule.run stream limit fallback = (a, u.diags.reverse) := by
      simp only [Rule.run, hrule, hend]
    have hu : u.diags = [] := by
      rw [hresult] at hclean
      exact List.reverse_eq_nil_iff.1 hclean
    have hquiet : t.diags = [] := ht.diags_eq (onward_of_reaches hreach (ht.proper hs)) hu
    refine ⟨a, t, ⟨hrule, hquiet⟩, ?_, by rw [hresult, hu]; rfl⟩
    cases hnext : (start stream limit).next? t with
    | none => rfl
    | some v =>
      -- what is left would have been passed over
      have hskip : Clean (skipTokens ((start stream limit).remaining t) [.named "end of input"])
          (start stream limit) t () u := by
        refine ⟨?_, hu.trans hquiet.symm⟩
        rw [← hend, endOfInput, if_neg (by simp [hnext])]
        exact (if_pos rfl).symm
      have hnone := hskip.of_skipTokens.1
      have hlt := lt_of_next? hnext
      rw [Nat.min_self, Context.remaining] at hnone
      omega

/-- A run over a whole stream without any diagnostic is repeated, whatever limit the diagnostics
would have reported. -/
theorem Repeats.run (h : Repeats (· = none) rule rule') (limit' : Nat)
    (hclean : (rule.run stream limit fallback).2 = []) :
    rule'.run stream limit' fallback = rule.run stream limit fallback := by
  obtain ⟨a, t, hrun, hnext, hresult⟩ := clean_of_run h.orderly hclean
  have hbeside : (start stream limit).Beside initial (start stream limit') initial :=
    ⟨rfl, rfl, proper_start _ _, proper_start _ _⟩
  obtain ⟨t', ⟨hok', hdiags'⟩, hcursor⟩ := h.again hbeside hrun (by rw [hnext, Option.map_none])
  have hend : endOfInput (start stream limit') t' = .ok () t' := by
    refine if_pos ?_
    rw [Context.next?, hcursor]
    exact congrArg Option.isNone hnext
  rw [hresult]
  simp only [Rule.run, hok', hend, hdiags']
  rfl

end Rule

open Grammar

/-- A source that is clean at some limit of nesting is parsed to the same tree at each higher limit,
spans included, and is clean there too. -/
theorem parseWith_deeper (source : String) (dialect : Dialect) (limit : Option Nat)
    (depth depth' : Nat) (hle : depth ≤ depth')
    (hclean : (parseWith source ⟨dialect, limit, depth⟩).2 = []) :
    (parseWith source ⟨dialect, limit, depth'⟩).2 = [] ∧
      (parseWith source ⟨dialect, limit, depth'⟩).1 =
        (parseWith source ⟨dialect, limit, depth⟩).1 := by
  obtain ⟨more, rfl⟩ := Nat.exists_eq_add_of_le hle
  have hunlimited : (parseWith source ⟨dialect, none, depth⟩).2 = [] := by
    rw [← parseWith_unlimited hclean, hclean]
  have hrun := (repeats_chunk (repeats_nested depth more)).run (depth + more)
    (parseWith_eq_nil rfl hunlimited).2
  have hsame : parseWith source ⟨dialect, limit, depth + more⟩ =
      parseWith source ⟨dialect, limit, depth⟩ := by
    rw [parseWith_unlimited hclean, parseWith_unlimited hclean]
    simp only [parseWith, parseTokens_of_no_limit]
    rw [← streamOf, hrun]
  rw [hsame]
  exact ⟨hclean, rfl⟩

/-- The block, the arguments and the returned values are past the limit here, and there are none. -/
theorem parseWith_deeper_empty_parts :
    let source := "do end f() return"
    (parseWith source ⟨.lua52, some 9, 1⟩).2 = [] ∧ (parseWith source ⟨.lua52, some 9, 6⟩).2 = [] ∧
      (parseWith source ⟨.lua52, some 9, 6⟩).1 = (parseWith source ⟨.lua52, some 9, 1⟩).1 := by
  intro source
  have hclean : (parseWith source ⟨.lua52, some 9, 1⟩).2 = [] :=
    List.length_eq_zero_iff.1 (by decide +kernel)
  exact ⟨hclean, parseWith_deeper source .lua52 (some 9) 1 6 (by decide) hclean⟩

end LuaSyntax
