import LuaSyntax.Parse
import LuaSyntax.Proofs.Grammar.Canonical
import LuaSyntax.Proofs.Grammar.NestSound
import LuaSyntax.Proofs.Grammar.Printed
import LuaSyntax.Proofs.Grammar.StmtReads
import LuaSyntax.Proofs.Tree.Same
import LuaSyntax.Proofs.Tree.Spacing
/-!
# Printing and parsing again

Whatever tree a parse gives, be the source repaired or not, its text is parsed to the same tree
again, if one more level may nest. What was clean within a limit stays so if the printed tree nests
no deeper.
-/

namespace LuaSyntax

open Grammar LuaSyntax.Language

/-! ### Notes of the same targets -/

namespace PrefixExp

/-- A target in parentheses does not end in a call. -/
theorem endsInCall_of_isBareParen {p : PrefixExp} (h : p.isBareParen = true) :
    p.endsInCall = false := by
  obtain ⟨head, suffixes⟩ := p
  cases suffixes with
  | nil => rfl
  | cons s ss => cases h

end PrefixExp

/-- The causes of the notes that targets leave. -/
def targetCauses (ts : List (Located PrefixExp)) : List Cause :=
  ts.filterMap fun t => targetCause? t.node

theorem map_cause_targetNotes (ts : List (Located PrefixExp)) :
    (targetNotes ts).map (·.cause) = targetCauses ts := by
  rw [targetNotes, targetCauses, List.map_filterMap]
  congr 1
  funext t
  rw [targetNote?, Option.map_map]
  exact congrFun Option.map_id _

theorem repair_of_mem_targetNotes {ts : List (Located PrefixExp)} {d : Diagnostic}
    (h : d ∈ targetNotes ts) : d.repair = .unrepaired := by
  obtain ⟨t, -, ht⟩ := List.mem_filterMap.1 h
  obtain ⟨cause, -, rfl⟩ := Option.map_eq_some_iff.1 ht
  rfl

theorem targetCauses_of_kinds {ts us : List (Located PrefixExp)}
    (h : targetKinds ts = targetKinds us) : targetCauses ts = targetCauses us := by
  have hkinds (ts : List (Located PrefixExp)) : targetCauses ts =
      (targetKinds ts).filterMap fun (call, paren) =>
        if call then some .notAssignable
        else if paren then some .parenthesizedTarget
        else none := by
    rw [targetKinds, List.filterMap_map]
    rfl
  rw [hkinds, hkinds, h]

theorem targetNotes_eq_nil_of_kinds {ts us : List (Located PrefixExp)}
    (h : targetKinds ts = targetKinds us) (hnone : targetNotes us = []) : targetNotes ts = [] := by
  have hcauses := targetCauses_of_kinds h
  rw [← map_cause_targetNotes, ← map_cause_targetNotes, hnone] at hcauses
  exact List.map_eq_nil_iff.1 hcauses

/-- One cause for each target that ends in a call, and for each one in parentheses. -/
theorem targetCauses_perm (ts : List (Located PrefixExp)) :
    (targetCauses ts).Perm
      ((ts.filter (·.node.endsInCall)).map (fun _ => .notAssignable) ++
        (ts.filter (·.node.isBareParen)).map fun _ => .parenthesizedTarget) := by
  induction ts with
  | nil => exact .nil
  | cons t ts ih =>
    cases hparen : t.node.isBareParen with
    | true =>
      have hcall := PrefixExp.endsInCall_of_isBareParen hparen
      simpa [targetCauses, targetCause?, hparen, hcall] using
        (ih.cons Cause.parenthesizedTarget).trans List.perm_middle.symm
    | false =>
      cases hcall : t.node.endsInCall with
      | true =>
        simpa [targetCauses, targetCause?, hparen, hcall] using ih.cons Cause.notAssignable
      | false => simpa [targetCauses, targetCause?, hparen, hcall] using ih

/-! ### Edited tokens -/

namespace Edited

variable {stream : TokenStream} {i j : Nat} {ds : List Diagnostic} {ts : List Token}

/-- What is true of the tokens of the stream, of those put in and of `nil` is true of the edited
tokens. -/
theorem forall_mem {P : Token → Prop} (h : Edited stream i ds ts j)
    (hstream : ∀ t ∈ stream.tokens.toList, P t.node)
    (hinserted : ∀ d ∈ ds, ∀ t cost, d.repair = .inserted t cost → P t)
    (hnil : P (.keyword .nil_)) : ∀ t ∈ ts, P t := by
  induction h with
  | done => simp
  | keep found _ ih =>
    rw [List.forall_mem_cons]
    exact ⟨hstream _ (Array.mem_toList_iff.2 (Array.mem_of_getElem? found)), ih hinserted⟩
  | insert repair _ _ ih =>
    rw [List.forall_mem_cons] at hinserted ⊢
    exact ⟨hinserted.1 _ _ repair, ih hinserted.2⟩
  | delete _ _ _ _ _ ih =>
    rw [List.forall_mem_cons] at hinserted
    exact ih hinserted.2
  | cutOff _ _ _ _ _ _ ih =>
    rw [List.forall_mem_cons] at hinserted ⊢
    exact ⟨hnil, ih hinserted.2⟩
  | note _ _ ih =>
    rw [List.forall_mem_cons] at hinserted
    exact ih hinserted.2

/-- Notes leave the tokens as they are. -/
theorem eq_rest (h : Edited stream i ds ts j) (hnotes : ∀ d ∈ ds, d.repair = .unrepaired)
    (hj : j = stream.size) : ts = (stream.rest i).map (·.node) := by
  induction h with
  | done i =>
    rw [hj, TokenStream.rest_size]
    rfl
  | keep found _ ih => rw [TokenStream.rest_of_get? found, List.map_cons, ih hnotes hj]
  | note _ _ ih =>
    rw [List.forall_mem_cons] at hnotes
    exact ih hnotes.2 hj
  | insert repair | delete repair | cutOff _ repair =>
    rw [List.forall_mem_cons, repair] at hnotes
    cases hnotes.1

end Edited

/-! ### What a source is parsed to -/

/-- The law of the grammar: what it puts in are fillers. -/
def filling (cut : Prop) : Law := ⟨Token.Filler, cut⟩

theorem bottom_uncut : Bottom (filling False) (bare fun _ => True) := bottom_bare id id

section

variable {source : String} {dialect : Dialect} {depth : Nat} {b : Block} {ds : List Diagnostic}

/-- The stream that a source is parsed from. -/
def streamOf (source : String) (dialect : Dialect) : TokenStream :=
  ⟨(withoutComments (tokenize source dialect).1).toArray, endOfSource source⟩

theorem parseWith_of_run
    (h : (chunk (nested depth)).run (streamOf source dialect) depth .empty = (b, ds)) :
    (parseWith source ⟨dialect, none, depth⟩).1.block = b ∧
      (parseWith source ⟨dialect, none, depth⟩).2 =
        ((tokenize source dialect).2.map Diagnostic.ofLexError ++ ds).mergeSort
          Diagnostic.notAfter := by
  have hparse : parseTokens (tokenize source dialect).1 (endOfSource source)
      ⟨dialect, none, depth⟩ = (⟨commentsOf (tokenize source dialect).1, b⟩, ds) := by
    rw [parseTokens_of_no_limit]
    show (_, _) = _
    rw [← streamOf, h]
  exact ⟨congrArg (·.1.block) hparse,
    congrArg (fun r : Chunk × List Diagnostic =>
      ((tokenize source dialect).2.map Diagnostic.ofLexError ++ r.2).mergeSort Diagnostic.notAfter)
      hparse⟩

theorem parseWith_eq_nil
    (h : (chunk (nested depth)).run (streamOf source dialect) depth .empty = (b, ds))
    (hclean : (parseWith source ⟨dialect, none, depth⟩).2 = []) :
    (tokenize source dialect).2 = [] ∧ ds = [] := by
  have hsorted := (parseWith_of_run h).2
  rw [hclean] at hsorted
  have hperm := List.mergeSort_perm ((tokenize source dialect).2.map Diagnostic.ofLexError ++ ds)
    Diagnostic.notAfter
  rw [← hsorted] at hperm
  simpa using hperm.nil_eq.symm

/-- A clean source has no more tokens than the limit, which then makes no difference. -/
theorem parseWith_unlimited {limit : Option Nat}
    (hclean : (parseWith source ⟨dialect, limit, depth⟩).2 = []) (depth' : Nat) :
    parseWith source ⟨dialect, limit, depth'⟩ = parseWith source ⟨dialect, none, depth'⟩ := by
  have hlimit : (limit.bind fun count =>
      (withoutComments (tokenize source dialect).1)[count]?.map (count, ·)) = none := by
    cases hover : limit.bind fun count =>
      (withoutComments (tokenize source dialect).1)[count]?.map (count, ·) with
    | none => rfl
    | some found =>
      simp only [parseWith, parseTokens, hover] at hclean
      have hperm := List.mergeSort_perm ((tokenize source dialect).2.map Diagnostic.ofLexError ++
        [overLimit found.2 found.1 (withoutComments (tokenize source dialect).1).length])
        Diagnostic.notAfter
      rw [hclean] at hperm
      simpa using hperm.nil_eq
  simp only [parseWith, parseTokens, hlimit, Option.bind_none]

/-- The tokens of a tree that is derived from tokens of the dialect are tokens of the dialect. -/
theorem written_of_prints {filled : Prop} {limit : Nat} {ts : List Token}
    (h : Prints filled limit ts b.layout.tokens b.levels) (hts : ∀ t ∈ ts, t.Writable dialect) :
    b.layout.Written dialect := by
  intro t ht
  rcases h.mem t ht with hmem | hplain
  · exact hts t hmem
  · rw [isPlain, Bool.or_eq_true, beq_iff_eq] at hplain
    rcases hplain with hshared | rfl
    · exact Token.writable_of_isShared hshared dialect
    · exact Token.writable_one dialect

/-- A tree that is parsed from a source without lexical errors can be printed. -/
theorem exists_run_printable (hlex : (tokenize source dialect).2 = []) (depth : Nat) :
    ∃ b ds ts, (chunk (nested depth)).run (streamOf source dialect) depth .empty = (b, ds) ∧
      (nest stub depth).block ts b ∧ Diagnostic.notes ds = targetNotes b.targets ∧
      b.layout.Written dialect ∧ b.levels ≤ depth + 1 := by
  have hbottom : Bottom (filling True) stub := bottom_stub id
  obtain ⟨b, ds, ts, hrun, hedit, hlaw, hpost⟩ :=
    run_nested hbottom appends_stub depth (streamOf source dialect) depth .empty
  obtain ⟨hb, hnotes⟩ := hpost fun _ _ _ => trivial
  have hprints := (fits_nest_stub depth).block hb
  have hts : ∀ t ∈ ts, t.Writable dialect := by
    refine hedit.forall_mem (fun t ht => ?_) (fun d hd t cost hrepair => ?_) ?_
    · exact writable_tokenize hlex t (by simpa [streamOf] using ht)
    · exact ((hlaw d hd).insertable hrepair).writable dialect
    · exact Token.writable_of_isShared rfl dialect
  refine ⟨b, ds, ts, hrun, hb, hnotes, written_of_prints hprints hts, ?_⟩
  rcases hprints.room with hlevels | ⟨hfilled, -⟩
  · exact hlevels
  · exact hfilled.elim

/-- A source whose tokens derive a tree, with nothing in them that can be taken for something else,
is parsed to that tree. Only its targets leave notes. -/
theorem parse_of_derivation
    (hb : (unambiguous depth).block
      ((withoutComments (tokenize source dialect).1).map (·.node)) b) :
    ∃ a, (chunk (nested depth)).run (streamOf source dialect) depth .empty =
        (a, targetNotes a.targets) ∧ a.same b = true := by
  have htokens : (streamOf source dialect).tokens.toList.map (·.node) =
    (withoutComments (tokenize source dialect).1).map (·.node) := rfl
  obtain ⟨a, ds, hrun, ha, hnotes⟩ :=
    (reads_chunk (complete_nested depth) hb).run htokens depth .empty
  obtain ⟨a', ds', ts, hrun', -, hlaw, hpost⟩ :=
    run_nested bottom_uncut (appends_bare _) depth (streamOf source dialect) depth .empty
  rw [hrun] at hrun'
  cases hrun'
  have huncut : ∀ d ∈ ds, d.CutsOff → False := by
    rintro d hd ⟨limit, hcause⟩
    rcases (hlaw d hd).unrepaired (hnotes d hd) with h | h <;> rw [hcause] at h <;> cases h
  have hds : Diagnostic.notes ds = ds :=
    List.filter_eq_self.2 fun d hd => by simp [Diagnostic.isNote, hnotes d hd]
  rw [← hds, (hpost huncut).2] at hrun
  exact ⟨a, hrun, ha⟩

end

/-- What is parsed from the text of a tree that its printed tokens derive. -/
theorem reparse {dialect : Dialect} {depth : Nat} {b : Block} (hw : b.layout.Written dialect)
    (hb : (unambiguous depth).block b.layout.tokens b) :
    let again := parseWith b.text ⟨dialect, none, depth⟩
    again.1.block.same b = true ∧ again.1.block.text = b.text ∧
      (again.2.map fun d => (d.cause, d.repair)).Perm
        ((targetCauses b.targets).map fun cause => (cause, .unrepaired)) := by
  intro again
  obtain ⟨htokens, herrors⟩ := tokenize_text hw
  rw [← htokens] at hb
  obtain ⟨a, hrun, hsame⟩ := parse_of_derivation hb
  obtain ⟨hblock, hdiags⟩ := parseWith_of_run hrun
  have halike := Block.alike_of_same a b hsame
  have hperm : again.2.Perm (targetNotes a.targets) := by
    rw [hdiags, herrors]
    exact List.mergeSort_perm _ _
  rw [hblock]
  refine ⟨hsame, congrArg Layout.text halike.layout, (hperm.map _).trans (.of_eq ?_)⟩
  rw [← targetCauses_of_kinds halike.targets, ← map_cause_targetNotes, List.map_map]
  refine List.map_congr_left fun d hd => ?_
  rw [repair_of_mem_targetNotes hd]
  rfl

/-! ### A value that is filled up -/

/-- A declaration without a value, and a call. The printer writes `nil` for the value. -/
def bareDeclaration : Layout :=
  [.keyword .local_, .blank, .ident "x", .blank, .ident "f", .symbol .openParen,
    .symbol .closeParen]

def bareCall : PrefixExp := ⟨⟨.name "f", default⟩, [⟨.call (.list []), default⟩]⟩

def filledLocal : Stmt := .localDecl [⟨"x", default⟩] [⟨.nil, default⟩]

def filledDeclaration : Block :=
  ⟨[⟨filledLocal, default⟩, ⟨.call bareCall, default⟩], none⟩

theorem text_bareDeclaration : bareDeclaration.text = "local x f()" := by decide

theorem tokenize_bareDeclaration (dialect : Dialect) :
    (withoutComments (tokenize "local x f()" dialect).1).map (·.node) = bareDeclaration.tokens ∧
      (tokenize "local x f()" dialect).2 = [] := by
  have hcall : Layout.Lexes dialect (fun _ => false)
      [.ident "f", .symbol .openParen, .symbol .closeParen] :=
    .cons (.cons_free (.cons_free .nil fun _ => rfl) fun _ => rfl) (Layout.avoids_symbol _ _ rfl)
  have hlexes : bareDeclaration.Lexes dialect fun _ => false :=
    .cons (.blank (.cons (.blank hcall) (Layout.avoids_blank _ rfl))) (Layout.avoids_blank _ rfl)
  have hword {c : Char} (hc : Lexer.isNameStart c = true) : Lexer.IsWord [c] :=
    ⟨c, [], rfl, hc, by simp⟩
  have hwritten : bareDeclaration.Written dialect := by
    intro t ht
    simp only [bareDeclaration, Layout.tokens_cons_keyword, Layout.tokens_cons_blank,
      Layout.tokens_cons_ident, Layout.tokens_cons_symbol, Layout.tokens_nil, List.mem_cons,
      List.not_mem_nil, or_false] at ht
    rcases ht with rfl | rfl | rfl | rfl | rfl
    · exact Token.writable_of_isShared rfl dialect
    · exact .ident (hword (c := 'x') rfl) (by cases dialect <;> decide)
    · exact .ident (hword (c := 'f') rfl) (by cases dialect <;> decide)
    · exact Token.writable_of_isShared rfl dialect
    · exact Token.writable_of_isShared rfl dialect
  exact text_bareDeclaration ▸ tokenize_layout hlexes hwritten

theorem derives_filledDeclaration (depth : Nat) :
    (unambiguous (depth + 1)).block bareDeclaration.tokens filledDeclaration := by
  have hfollows {us : List Token} (h : us.head? ≠ some (.symbol .openParen)) :
      (unambiguous depth).follows us := by
    rwa [unambiguous, follows_nest]
  have hdeclaration : IsStmt (unambiguous depth) [.keyword .local_, .ident "x"] filledLocal :=
    .localDecl (.one (.intro "x")) ⟨[⟨.nil, default⟩], rfl, rfl, by simp⟩
  have hsuffixes : Suffixes (unambiguous depth) ([.symbol .openParen, .symbol .closeParen] ++ [])
      [⟨.call (.list []), default⟩] :=
    .cons (.call .empty) .nil
  have hpath : Access (unambiguous depth)
      ([.ident "f"] ++ [.symbol .openParen, .symbol .closeParen]) bareCall :=
    .intro (.name "f") hsuffixes
  have hcall : IsBlock (unambiguous depth)
      ([.ident "f"] ++ [.symbol .openParen, .symbol .closeParen] ++ [])
      ⟨[⟨.call bareCall, default⟩], none⟩ :=
    .stmt (s := ⟨.call bareCall, default⟩) (.call hpath rfl) (hfollows (by decide)) .empty
  exact .stmt (s := ⟨filledLocal, default⟩) hdeclaration (hfollows (by decide)) hcall

/-- One level is enough to parse the declaration, but what is printed for it nests two levels deep.
-/
theorem parse_bareDeclaration (dialect : Dialect) (depth : Nat) :
    (parseWith "local x f()" ⟨dialect, none, depth + 1⟩).2 = [] ∧
      (parseWith "local x f()" ⟨dialect, none, depth + 1⟩).1.block.levels = 2 := by
  obtain ⟨htokens, herrors⟩ := tokenize_bareDeclaration dialect
  have hderives := derives_filledDeclaration depth
  rw [← htokens] at hderives
  obtain ⟨a, hrun, hsame⟩ := parse_of_derivation hderives
  have halike := Block.alike_of_same a _ hsame
  obtain ⟨hblock, hdiags⟩ := parseWith_of_run hrun
  have hnotes : targetNotes a.targets = [] := targetNotes_eq_nil_of_kinds halike.targets rfl
  rw [hblock, hdiags, herrors, halike.levels, hnotes]
  exact ⟨List.mergeSort_nil, rfl⟩

/-- The text of a parsed block, repaired or not, is parsed to the same block with one more level,
and prints the same again. The only diagnostics are a note for each target that ends in a call, and
one for each target in parentheses. -/
theorem parse_printed (source : String) (dialect : Dialect) (maxDepth : Nat)
    (hlex : (tokenize source dialect).2 = []) :
    let first := parseWith source ⟨dialect, none, maxDepth⟩
    let block := first.1.block
    let again := parseWith block.text ⟨dialect, none, maxDepth + 1⟩
    (tokenize block.text dialect).2 = [] ∧ again.1.block.same block = true ∧
      again.1.block.text = block.text ∧
      (again.2.map fun d => (d.cause, d.repair)).Perm
        ((block.targets.filter (·.node.endsInCall)).map (fun _ => (.notAssignable, .unrepaired)) ++
          (block.targets.filter (·.node.isBareParen)).map fun _ =>
            (.parenthesizedTarget, .unrepaired)) ∧
      (first.2 = [] → again.2 = []) := by
  intro first block again
  obtain ⟨b, ds, ts, hrun, hb, hnotes, hwritten, hlevels⟩ := exists_run_printable hlex maxDepth
  have hblock : block = b := (parseWith_of_run hrun).1
  have hprinted := (reprints_nest_stub maxDepth).block hb hlevels
  have hagain := reparse hwritten hprinted
  rw [← hblock] at hagain hwritten hnotes
  obtain ⟨hsame, htext, hperm⟩ := hagain
  refine ⟨(tokenize_text hwritten).2, hsame, htext, ?_, fun hclean => ?_⟩
  · have hcauses := (targetCauses_perm block.targets).map fun cause => (cause, Repair.unrepaired)
    rw [List.map_append, List.map_map, List.map_map] at hcauses
    exact hperm.trans hcauses
  · have hnone := (parseWith_eq_nil hrun hclean).2
    rw [hnone] at hnotes
    rw [← map_cause_targetNotes, ← hnotes] at hperm
    exact List.map_eq_nil_iff.1 hperm.eq_nil

theorem parse_printed_bareDeclaration :
    (tokenize "local x f()" .glua).2 = [] ∧
      (parseWith (parseWith "local x f()" ⟨.glua, none, 1⟩).1.block.text
        ⟨.glua, none, 2⟩).2 = [] := by
  have hlex := (tokenize_bareDeclaration .glua).2
  obtain ⟨-, -, -, -, hclean⟩ := parse_printed "local x f()" .glua 1 hlex
  exact ⟨hlex, hclean (parse_bareDeclaration .glua 0).1⟩

/-! ### The same limit -/

section

variable {source : String} {dialect : Dialect} {depth : Nat}

/-- A source without lexical errors is parsed to a tree that can be printed, at most one level
deeper than the limit. -/
theorem printable (hlex : (tokenize source dialect).2 = []) (depth : Nat) :
    let block := (parseWith source ⟨dialect, none, depth⟩).1.block
    block.layout.Written dialect ∧ block.levels ≤ depth + 1 := by
  obtain ⟨b, ds, ts, hrun, -, -, hwritten, hlevels⟩ := exists_run_printable hlex depth
  rw [(parseWith_of_run hrun).1]
  exact ⟨hwritten, hlevels⟩

/-- A clean source derives the tree that it is parsed to. -/
theorem derives_of_clean (hclean : (parseWith source ⟨dialect, none, depth⟩).2 = []) :
    (within depth).block ((withoutComments (tokenize source dialect).1).map (·.node))
        (parseWith source ⟨dialect, none, depth⟩).1.block ∧
      targetNotes (parseWith source ⟨dialect, none, depth⟩).1.block.targets = [] := by
  obtain ⟨b, ds, ts, hrun, hedit, -, hpost⟩ :=
    run_nested bottom_uncut (appends_bare _) depth (streamOf source dialect) depth .empty
  obtain ⟨-, rfl⟩ := parseWith_eq_nil hrun hclean
  obtain ⟨hb, hnotes⟩ := hpost (by simp)
  rw [(parseWith_of_run hrun).1]
  have hts : ts = (withoutComments (tokenize source dialect).1).map (·.node) :=
    hedit.eq_rest (by simp) rfl
  exact ⟨hts ▸ hb, hnotes.symm⟩

/-- A tree that is parsed back from its text within a limit nests no deeper than that. -/
theorem levels_le_of_reparse {b : Block} (hw : b.layout.Written dialect)
    (hclean : (parseWith b.text ⟨dialect, none, depth⟩).2 = [])
    (hsame : (parseWith b.text ⟨dialect, none, depth⟩).1.block.same b = true) :
    b.levels ≤ depth := by
  have halike := Block.alike_of_same _ b hsame
  have hprints := (fits_within depth).block (derives_of_clean hclean).1
  rw [(tokenize_text hw).1, halike.layout, halike.levels] at hprints
  -- nothing is filled up, since the printed tokens are the same
  rcases hprints.room with hlevels | ⟨-, hfilled⟩
  · exact hlevels
  · exact absurd hfilled (Nat.lt_irrefl _)

end

/-- A clean source is parsed to a tree that nests at most one level deeper when it is printed. Its
text is parsed to the same tree under the same limit, without diagnostics, just if it nests no
deeper than the limit. -/
theorem clean_reparse_iff (source : String) (dialect : Dialect) (maxDepth : Nat)
    (hclean : (parseWith source ⟨dialect, none, maxDepth⟩).2 = []) :
    let block := (parseWith source ⟨dialect, none, maxDepth⟩).1.block
    let again := parseWith block.text ⟨dialect, none, maxDepth⟩
    block.levels ≤ maxDepth + 1 ∧
      ((again.2 = [] ∧ again.1.block.same block = true) ↔ block.levels ≤ maxDepth) := by
  intro block again
  have hlex := (parseWith_eq_nil rfl hclean).1
  obtain ⟨hwritten, hlimit⟩ := printable hlex maxDepth
  obtain ⟨hderives, hnotes⟩ := derives_of_clean hclean
  refine ⟨hlimit, fun ⟨hagain, hsame⟩ =>
    levels_le_of_reparse hwritten hagain hsame, fun hlevels => ?_⟩
  have hprinted := (reprints_within maxDepth).block hderives hlevels
  obtain ⟨hsame, -, hperm⟩ := reparse hwritten hprinted
  rw [← map_cause_targetNotes, hnotes] at hperm
  exact ⟨List.map_eq_nil_iff.1 hperm.eq_nil, hsame⟩

theorem clean_reparse_bareDeclaration :
    let block := (parseWith "local x f()" ⟨.glua, none, 2⟩).1.block
    let again := parseWith block.text ⟨.glua, none, 2⟩
    (parseWith "local x f()" ⟨.glua, none, 2⟩).2 = [] ∧
      again.2 = [] ∧ again.1.block.same block = true := by
  intro block again
  obtain ⟨hclean, hlevels⟩ := parse_bareDeclaration .glua 1
  obtain ⟨-, hiff⟩ := clean_reparse_iff "local x f()" .glua 2 hclean
  exact ⟨hclean, hiff.2 (Nat.le_of_eq hlevels)⟩

/-- A clean source need not be parsed to the same tree again under the same limit: the `nil` that is
printed for the missing value of `local x` nests one level deeper than the declaration. -/
theorem filled_value_exceeds_limit :
    ¬ ∀ (source : String) (dialect : Dialect) (maxDepth : Nat),
      (parseWith source ⟨dialect, none, maxDepth⟩).2 = [] →
        let block := (parseWith source ⟨dialect, none, maxDepth⟩).1.block
        let again := parseWith block.text ⟨dialect, none, maxDepth⟩
        again.2 = [] ∧ again.1.block.same block = true := by
  intro h
  obtain ⟨hclean, hlevels⟩ := parse_bareDeclaration .glua 0
  obtain ⟨hagain, hsame⟩ := h "local x f()" .glua 1 hclean
  obtain ⟨hwritten, -⟩ := printable (tokenize_bareDeclaration .glua).2 1
  have hle := levels_le_of_reparse hwritten hagain hsame
  rw [hlevels] at hle
  exact absurd hle (by decide)

end LuaSyntax
