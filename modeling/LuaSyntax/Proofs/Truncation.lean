import LuaSyntax.Proofs.EditScript
import LuaSyntax.Proofs.Grammar.BlockTrim
/-!
# Truncation

A lower limit of nesting cuts a clean source off at just that level: the tree is the one that a
higher limit gives, truncated, and each item that is missing in it is reported with all its tokens.
-/

namespace LuaSyntax

open Grammar

namespace Grammar

open Rule

variable {stream : TokenStream} {limit room : Nat} {inner inner' : Level} {i : Nat}

/-- After a block that goes up to the end there is no other one. -/
theorem determined_moreBlocks (inner : Level) (first : Block) :
    Determined stream limit (do
      if first.ret.isSome then return first
      return (← collect (chunkPart inner)).foldl (· ++ ·) first)
      stream.size first stream.size [] := by
  rintro c s rfl _ hs hi
  have hnext : c.next? s = none := by
    rw [Context.next?, hi]
    exact TokenStream.get?_size _
  refine ⟨s, ?_, hs, hi, rfl⟩
  split
  · rfl
  · rw [bind_of_ok (collect_of_none (chunkPart_of_end inner hnext))]
    rfl

/-- A clean chunk is one block, and what is left of it is a chunk as well. -/
theorem Level.Trims.chunk (h : inner.Trims stream limit room inner') :
    Cleanly stream (chunk inner) fun i b j => j = stream.size →
      FittedBlock stream limit room (Grammar.chunk inner') i b j := by
  have hchunk {i : Nat} {b : Block} (hb : BlockEnds (stream.word stream.size) →
      FittedBlock stream limit room inner'.block i b stream.size) :
      FittedBlock stream limit room (Grammar.chunk inner') i b stream.size := by
    have hends : BlockEnds (stream.word stream.size) := by
      rw [TokenStream.word, TokenStream.get?_size]
      rintro _ ⟨⟩
    exact ⟨(hb hends).extent, fun opening m hjm hm hrest =>
      ((hb hends).cuts opening m hjm hm hrest).before (determined_moreBlocks inner' _)⟩
  have hmore : Cleanly stream (collect (chunkPart inner)) fun i more j => more = [] ∧ j = i :=
    { orderly := (orderly_chunkPart h.block.orderly).collect
      post := fun _ hs hclean => by
        obtain ⟨-, rfl, rfl⟩ := moreBlocks_of_clean h.block.orderly hs hclean
        exact ⟨rfl, rfl⟩ }
  refine h.block.bind fun first => ?_
  split
  · refine .pure ?_
    rintro _ _ i _ hfirst rfl
    exact hchunk hfirst
  · refine hmore.bind fun more => .pure ?_
    rintro _ _ _ _ ⟨rfl, rfl⟩ i _ hfirst rfl
    exact hchunk hfirst

/-- A run that is determined up to the end is all that there is. -/
theorem run_of_determined {α : Type} {rule : Rule α} {a : α} {ds : List Diagnostic}
    (h : Determined stream limit rule 0 a stream.size ds) (fallback : α) :
    rule.run stream limit fallback = (a, ds) := by
  obtain ⟨t, hok, -, hcursor, hdiags⟩ := h (start stream limit) initial rfl rfl
    (proper_start stream limit) rfl
  have hnext : (start stream limit).next? t = none := by
    rw [Context.next?, hcursor]
    exact TokenStream.get?_size _
  have hend : endOfInput (start stream limit) t = .ok () t := by
    rw [endOfInput, hnext]
    rfl
  have hquiet : t.diags = ds.reverse := by rw [hdiags]; exact List.append_nil _
  simp only [Rule.run, hok, hend, hquiet, List.reverse_reverse]

/-- What is left of a clean chunk, and the reports of what is replaced in it. -/
theorem run_truncated (hstream : stream.Apart) (depth more : Nat) {b : Block}
    (hclean : (chunk (nested (depth + more))).run stream (depth + more) .empty = (b, []))
    (hbracketed : ∀ r ∈ b.replaced depth .source, r.isBracketed = true) :
    (chunk (nested depth)).run stream depth .empty = (b.truncate depth,
      Replaced.reports depth stream.tokens.toList (b.replaced depth .source)) := by
  have htrims := (trims_nested hstream depth depth more).chunk
  obtain ⟨a, t, hrun, hend, hresult⟩ := clean_of_run htrims.orderly (congrArg Prod.snd hclean)
  obtain rfl : a = b := (Prod.mk.inj (hresult.symm.trans hclean)).1
  have hsize : t.cursor = stream.size := by
    have ht := htrims.orderly.onward (proper_start _ _) hrun.ok
    refine Nat.le_antisymm ht.le_size (Nat.le_of_not_lt fun hlt => ?_)
    obtain ⟨u, hu⟩ := TokenStream.exists_get? hlt
    cases hu.symm.trans hend
  have hcuts := (htrims.post rfl (proper_start _ _) hrun hsize).cuts .source stream.size
    (Nat.le_of_eq hsize) (Nat.le_refl _) stream.slice_zero_size.symm
  rw [hsize] at hcuts
  exact run_of_determined (hcuts hbracketed) .empty

end Grammar

/-! ### The order of the reports -/

/-- Edits are recorded in the order in which they start. -/
theorem pairwise_of_edited {stream : TokenStream} {i j : Nat} {ds : List Diagnostic}
    {ts : List Token} (h : Ascending stream.tokens.toList stream.stop)
    (hedit : Edited stream i ds ts j) (hj : j ≤ stream.size)
    (hds : ∀ d ∈ ds, d.repair ≠ .unrepaired) : ds.Pairwise fun d e => d.notAfter e = true := by
  have hordered := ordered_of_ascending h
  have hafter {i k : Nat} {d e : Diagnostic} (hd : d.span.start = stream.pos i) (hik : i ≤ k)
      (he : EditsFrom stream k e) (hrepair : e.repair ≠ .unrepaired) : d.notAfter e = true := by
    rcases he with ⟨hinserted, hrun⟩ | ⟨m, hkm, hm, hpos⟩
    · cases hcase : e.repair with
      | unrepaired => exact absurd hcase hrepair
      | inserted t cost => simp [Diagnostic.inserted?, hcase] at hinserted
      | skipped count => cases hcause : e.cause <;> simp [Diagnostic.run?, hcase, hcause] at hrun
    · refine decide_eq_true ?_
      rw [hd, hpos]
      rcases Nat.lt_or_eq_of_le (Nat.le_trans hik hkm) with hlt | rfl
      · exact (before_pos h hlt hm).le
      · exact Pos.le_refl _
  induction hedit with
  | done => exact .nil
  | keep _ _ ih => exact ih hj hds
  | insert _ place rest ih =>
    rw [List.forall_mem_cons] at hds
    have hlater := editsFrom_of_edited hordered rest hj
    exact .cons (fun e he => hafter place (Nat.le_refl _) (hlater e he) (hds.2 e he)) (ih hj hds.2)
  | delete _ _ _ place rest ih | cutOff _ _ _ _ place rest ih =>
    rw [List.forall_mem_cons] at hds
    have hlater := editsFrom_of_edited hordered rest hj
    exact .cons (fun e he => hafter (place hordered) (Nat.le_add_right _ _) (hlater e he)
      (hds.2 e he)) (ih hj hds.2)
  | note repair _ _ => exact absurd repair (hds _ List.mem_cons_self)

theorem repair_reports {limit : Nat} {all : List (Located Token)} {items : List Replaced} :
    ∀ d ∈ Replaced.reports limit all items, d.repair ≠ .unrepaired := by
  intro d hd
  obtain ⟨item, -, hreport⟩ := List.mem_filterMap.1 hd
  unfold Replaced.reportOf at hreport
  split at hreport
  · cases hreport
    exact nofun
  · cases hreport

section

variable {source : String} {dialect : Dialect} {depth : Nat} {b : Block} {ds : List Diagnostic}

theorem parseWith_eq_of_run
    (h : (chunk (nested depth)).run (streamOf source dialect) depth .empty = (b, ds)) :
    parseWith source ⟨dialect, none, depth⟩ = (⟨commentsOf (tokenize source dialect).1, b⟩,
      ((tokenize source dialect).2.map Diagnostic.ofLexError ++ ds).mergeSort
        Diagnostic.notAfter) := by
  simp only [parseWith, parseTokens_of_no_limit]
  rw [← streamOf, h]

end

/-- A source that is clean at some limit of nesting is cut off at a lower one, if all expressions
that are just past that limit are bracketed. -/
theorem parseWith_truncated (source : String) (dialect : Dialect) (limit : Option Nat)
    (depth depth' : Nat) (hlt : depth < depth')
    (hclean : (parseWith source ⟨dialect, limit, depth'⟩).2 = []) :
    let tokens := withoutComments (tokenize source dialect).1
    let tree := (parseWith source ⟨dialect, limit, depth'⟩).1
    let replaced := tree.block.replaced depth .source
    (∀ r ∈ replaced, r.isBracketed = true) →
      parseWith source ⟨dialect, limit, depth⟩ =
        (⟨tree.comments, tree.block.truncate depth⟩, Replaced.reports depth tokens replaced) := by
  intro tokens tree replaced hbracketed
  obtain ⟨more, rfl⟩ := Nat.exists_eq_add_of_le (Nat.le_of_lt hlt)
  obtain ⟨b, ds, hrun⟩ : ∃ b ds, (chunk (nested (depth + more))).run (streamOf source dialect)
    (depth + more) .empty = (b, ds) := ⟨_, _, rfl⟩
  have hparse := (parseWith_unlimited hclean (depth + more)).trans (parseWith_eq_of_run hrun)
  have htree : tree = ⟨commentsOf (tokenize source dialect).1, b⟩ := congrArg Prod.fst hparse
  obtain ⟨hlex, rfl⟩ := parseWith_eq_nil hrun (by rw [← parseWith_unlimited hclean, hclean])
  have hreplaced : replaced = b.replaced depth .source :=
    congrArg (·.block.replaced depth .source) htree
  rw [hreplaced] at hbracketed ⊢
  have hcut := run_truncated (apart_tokenize source dialect) depth more hrun hbracketed
  obtain ⟨b', ds, ts, hcut', hedit, -⟩ := run_chunk depth (streamOf source dialect) depth .empty
  cases hcut.symm.trans hcut'
  have hsorted := List.mergeSort_of_pairwise
    (pairwise_of_edited (ascending_tokenize source dialect) hedit (Nat.le_refl _) repair_reports)
  rw [parseWith_unlimited hclean, parseWith_eq_of_run hcut, hlex, List.map_nil, List.nil_append,
    hsorted, htree]

/-- An argument and the statement of a block are past the limit here. -/
theorem parseWith_truncated_call :
    let source := "f(a(1)) do g() end"
    let tokens := withoutComments (tokenize source .glua).1
    let tree := (parseWith source ⟨.glua, none, 3⟩).1
    let replaced := tree.block.replaced 1 .source
    (parseWith source ⟨.glua, none, 3⟩).2 = [] ∧ (∀ r ∈ replaced, r.isBracketed = true) ∧
      (Replaced.reports 1 tokens replaced).map (·.repair) = [.skipped 4, .skipped 3] ∧
      parseWith source ⟨.glua, none, 1⟩ =
        (⟨tree.comments, tree.block.truncate 1⟩, Replaced.reports 1 tokens replaced) := by
  have hclean : (parseWith "f(a(1)) do g() end" ⟨.glua, none, 3⟩).2 = [] :=
    List.length_eq_zero_iff.1 (by decide +kernel)
  have hbracketed : ∀ r ∈ (parseWith "f(a(1)) do g() end" ⟨.glua, none, 3⟩).1.block.replaced 1
      .source, r.isBracketed = true := by decide +kernel
  refine ⟨hclean, hbracketed, by decide +kernel, ?_⟩
  exact parseWith_truncated "f(a(1)) do g() end" .glua none 1 3 (by decide) hclean hbracketed

end LuaSyntax
