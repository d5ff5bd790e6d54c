import Mathlib.Data.List.Basic
import LuaSyntax.Proofs.Grammar.Commit
import LuaSyntax.Proofs.Lexer.Order
/-!
# Diagnostics as an edit script

The diagnostics of a parse say how to repair the source: put each inserted token in front of the
token that starts where its diagnostic starts, and take out each run that was passed over. What
comes of it is a chunk of the grammar, and the tree of the parse is the one it is derived with.
-/

namespace LuaSyntax

namespace Diagnostic

/-- The length of the run of tokens that was passed over, and whether it nested too deep. -/
def run? (d : Diagnostic) : Option (Nat × Bool) :=
  match d.repair, d.cause with
  | .skipped count, .tooDeep _ => some (count, true)
  | .skipped count, _ => some (count, false)
  | _, _ => none

end Diagnostic

/-- The tokens put in at a position, in the order they were recorded. -/
def insertedAt (ds : List Diagnostic) (p : Pos) : List Token :=
  ds.filterMap fun d => if d.span.start = p then d.inserted? else none

/-- The run that starts at a position. -/
def runAt? (ds : List Diagnostic) (p : Pos) : Option (Nat × Bool) :=
  ds.findSome? fun d => if d.span.start = p then d.run? else none

/-- The tokens put in where none of the given ones starts. -/
def insertedPast (ds : List Diagnostic) (tokens : List (Located Token)) : List Token :=
  ds.filterMap fun d => if ∃ t ∈ tokens, t.span.start = d.span.start then none else d.inserted?

/-- The tokens with the edits at each of them, while a run of `left` more tokens is taken out. Where
a run nests too deep, `nils` says whether `nil` takes its place. -/
def editFrom (ds : List Diagnostic) (nils : Pos → Bool) : Nat → List (Located Token) → List Token
  | _, [] => []
  | left + 1, t :: ts => insertedAt ds t.span.start ++ editFrom ds nils left ts
  | 0, t :: ts =>
    insertedAt ds t.span.start ++
      match runAt? ds t.span.start with
      | some (left + 1, cutOff) =>
        (if cutOff && nils t.span.start then [.keyword .nil_] else []) ++ editFrom ds nils left ts
      | _ => t.node :: editFrom ds nils 0 ts

/-- The tokens as the diagnostics edit them. -/
def edit (ds : List Diagnostic) (nils : Pos → Bool) (tokens : List (Located Token)) : List Token :=
  editFrom ds nils 0 tokens ++ insertedPast ds tokens

/-! ### Diagnostics that do not matter -/

/-- The diagnostic edits nothing at `p`. -/
def Diagnostic.Idle (d : Diagnostic) (p : Pos) : Prop :=
  d.span.start = p → d.inserted? = none ∧ d.run? = none

section

variable {d : Diagnostic} {ds : List Diagnostic} {p : Pos} {nils nils' : Pos → Bool}
  {tokens : List (Located Token)}

theorem insertedAt_cons_of_idle (h : d.Idle p) : insertedAt (d :: ds) p = insertedAt ds p := by
  by_cases hp : d.span.start = p
  · simp [insertedAt, hp, (h hp).1]
  · simp [insertedAt, hp]

theorem runAt_cons_of_idle (h : d.Idle p) : runAt? (d :: ds) p = runAt? ds p := by
  by_cases hp : d.span.start = p
  · simp [runAt?, hp, (h hp).2]
  · simp [runAt?, hp]

theorem insertedAt_of_idle (h : ∀ d ∈ ds, d.Idle p) : insertedAt ds p = [] := by
  rw [insertedAt, List.filterMap_eq_nil_iff]
  intro d hd
  split
  · next hp => exact (h d hd hp).1
  · rfl

theorem runAt_of_idle (h : ∀ d ∈ ds, d.Idle p) : runAt? ds p = none := by
  rw [runAt?, List.findSome?_eq_none_iff]
  intro d hd
  split
  · next hp => exact (h d hd hp).2
  · rfl

theorem editFrom_cons_of_idle (h : ∀ t ∈ tokens, d.Idle t.span.start) (left : Nat) :
    editFrom (d :: ds) nils left tokens = editFrom ds nils left tokens := by
  induction tokens generalizing left with
  | nil => cases left <;> rfl
  | cons t ts ih =>
    rw [List.forall_mem_cons] at h
    cases left with
    | zero =>
      simp only [editFrom, insertedAt_cons_of_idle h.1, runAt_cons_of_idle h.1, ih h.2]
    | succ left => simp only [editFrom, insertedAt_cons_of_idle h.1, ih h.2]

/-- Only the places of the tokens matter to the choice. -/
theorem editFrom_congr (h : ∀ t ∈ tokens, nils t.span.start = nils' t.span.start) (left : Nat) :
    editFrom ds nils left tokens = editFrom ds nils' left tokens := by
  induction tokens generalizing left with
  | nil => cases left <;> rfl
  | cons t ts ih =>
    rw [List.forall_mem_cons] at h
    cases left with
    | zero => simp only [editFrom, h.1, ih h.2]
    | succ left => simp only [editFrom, ih h.2]

/-- A run without edits inside it is dropped. -/
theorem editFrom_eq_drop {left : Nat}
    (h : ∀ t ∈ tokens.take left, insertedAt ds t.span.start = []) :
    editFrom ds nils left tokens = editFrom ds nils 0 (tokens.drop left) := by
  induction tokens generalizing left with
  | nil => cases left <;> rfl
  | cons t ts ih =>
    cases left with
    | zero => rfl
    | succ left =>
      rw [List.take_succ_cons, List.forall_mem_cons] at h
      rw [editFrom, h.1, List.nil_append, ih h.2, List.drop_succ_cons]

theorem insertedPast_cons_of_idle (h : d.inserted? = none) :
    insertedPast (d :: ds) tokens = insertedPast ds tokens := by
  simp [insertedPast, h]

end

/-! ### Edits along an ascending stream -/

section

variable {stream : TokenStream} {i j : Nat} {d : Diagnostic} {ds : List Diagnostic}
  {ts : List Token}

variable (h : Ascending stream.tokens.toList stream.stop)

include h

theorem before_pos (hij : i < j) (hj : j ≤ stream.size) : (stream.pos i).Before (stream.pos j) := by
  obtain ⟨t, ht⟩ : ∃ t, stream.get? i = some t := TokenStream.exists_get? (by omega)
  rw [TokenStream.pos_of_get? ht]
  have hmem : t ∈ stream.tokens.toList := Array.mem_toList_iff.2 (Array.mem_of_getElem? ht)
  rcases Nat.lt_or_eq_of_le hj with hlt | rfl
  · obtain ⟨u, hu⟩ := TokenStream.exists_get? hlt
    rw [TokenStream.pos_of_get? hu]
    obtain ⟨hi, rfl⟩ := Array.getElem?_eq_some_iff.1 ht
    obtain ⟨hj, rfl⟩ := Array.getElem?_eq_some_iff.1 hu
    have hbefore := List.pairwise_iff_getElem.1 h.pairwise i j (by simpa using hi)
      (by simpa using hj) hij
    simpa only [Array.getElem_toList] using hbefore
  · rw [TokenStream.pos_size]
    exact h.before_stop t hmem

theorem ordered_of_ascending : stream.Ordered := by
  intro i j t u hij ht hu
  rw [← TokenStream.pos_of_get? ht, ← TokenStream.pos_of_get? hu]
  rcases Nat.lt_or_eq_of_le hij with hlt | rfl
  · exact (before_pos h hlt (Nat.le_of_lt (TokenStream.lt_size_of_get? hu))).le
  · rw [Pos.le_iff]
    omega

omit h

/-- The diagnostic edits nothing, or something at a cursor from `i` on. -/
def EditsFrom (stream : TokenStream) (i : Nat) (d : Diagnostic) : Prop :=
  d.inserted? = none ∧ d.run? = none ∨ ∃ k, i ≤ k ∧ k ≤ stream.size ∧ d.span.start = stream.pos k

theorem EditsFrom.of_le (hd : EditsFrom stream j d) (hij : i ≤ j) : EditsFrom stream i d :=
  hd.imp_right fun ⟨k, hk, hrest⟩ => ⟨k, Nat.le_trans hij hk, hrest⟩

theorem editsFrom_of_edited (hordered : stream.Ordered) (hedit : Edited stream i ds ts j)
    (hj : j ≤ stream.size) : ∀ d ∈ ds, EditsFrom stream i d := by
  induction hedit with
  | done => simp
  | keep found _ ih => exact fun d hd => (ih hj d hd).of_le (Nat.le_succ _)
  | insert repair place rest ih =>
    rw [List.forall_mem_cons]
    exact ⟨.inr ⟨_, Nat.le_refl _, Nat.le_trans rest.le hj, place⟩, ih hj⟩
  | delete repair pos fits place rest ih =>
    rw [List.forall_mem_cons]
    exact ⟨.inr ⟨_, Nat.le_refl _, by omega, place hordered⟩,
      fun d hd => (ih hj d hd).of_le (Nat.le_add_right _ _)⟩
  | cutOff cause repair pos fits place rest ih =>
    rw [List.forall_mem_cons]
    exact ⟨.inr ⟨_, Nat.le_refl _, by omega, place hordered⟩,
      fun d hd => (ih hj d hd).of_le (Nat.le_add_right _ _)⟩
  | note repair _ ih =>
    rw [List.forall_mem_cons]
    exact ⟨.inl ⟨by simp [Diagnostic.inserted?, repair], by simp [Diagnostic.run?, repair]⟩, ih hj⟩

include h

theorem EditsFrom.idle (hd : EditsFrom stream j d) (hij : i < j) : d.Idle (stream.pos i) := by
  intro hstart
  rcases hd with hidle | ⟨k, hk, hsize, hpos⟩
  · exact hidle
  · exact absurd (hstart.symm.trans hpos) (before_pos h (Nat.lt_of_lt_of_le hij hk) hsize).ne

/-- What is put in past the end does not depend on the tokens before the first edit. -/
theorem insertedPast_rest (hds : ∀ d ∈ ds, EditsFrom stream j d) (hij : i ≤ j) :
    insertedPast ds (stream.rest i) = insertedPast ds (stream.rest j) := by
  unfold insertedPast
  apply List.filterMap_congr
  intro d hd
  rcases hds d hd with hidle | ⟨k, hk, hsize, hpos⟩
  · simp [hidle.1]
  · have hiff : (∃ t ∈ stream.rest i, t.span.start = d.span.start) ↔
        ∃ t ∈ stream.rest j, t.span.start = d.span.start := by
      rw [hpos]
      constructor
      · rintro ⟨t, ht, hstart⟩
        obtain ⟨l, hl, hlt, hget⟩ := TokenStream.exists_of_mem_rest ht
        rw [← TokenStream.pos_of_get? hget] at hstart
        rcases Nat.lt_trichotomy l k with hlk | rfl | hlk
        · exact absurd hstart (before_pos h hlk hsize).ne
        · exact ⟨t, TokenStream.mem_rest hk hget, (TokenStream.pos_of_get? hget).symm⟩
        · exact absurd hstart.symm (before_pos h hlk (Nat.le_of_lt hlt)).ne
      · rintro ⟨t, ht, hstart⟩
        obtain ⟨l, hl, -, hget⟩ := TokenStream.exists_of_mem_rest ht
        exact ⟨t, TokenStream.mem_rest (Nat.le_trans hij hl) hget, hstart⟩
    simp only [hiff]

theorem edit_cons_of_inserted {t : Token} {nils : Pos → Bool} (hinserted : d.inserted? = some t)
    (hrun : d.run? = none) (place : d.span.start = stream.pos i) (hi : i ≤ stream.size) :
    edit (d :: ds) nils (stream.rest i) = t :: edit ds nils (stream.rest i) := by
  rcases Nat.lt_or_eq_of_le hi with hlt | rfl
  · obtain ⟨u, hu⟩ := TokenStream.exists_get? hlt
    have hstart : d.span.start = u.span.start := place.trans (TokenStream.pos_of_get? hu)
    have hlater : ∀ v ∈ stream.rest (i + 1), d.Idle v.span.start := fun v hv hv' => by
      obtain ⟨k, hk, hsize, hget⟩ := TokenStream.exists_of_mem_rest hv
      rw [place, ← TokenStream.pos_of_get? hget] at hv'
      exact absurd hv' (before_pos h hk (Nat.le_of_lt hsize)).ne
    have hat : insertedAt (d :: ds) u.span.start = t :: insertedAt ds u.span.start := by
      simp [insertedAt, hstart, hinserted]
    have hruns : runAt? (d :: ds) u.span.start = runAt? ds u.span.start := by
      simp [runAt?, hstart, hrun]
    have hpast : insertedPast (d :: ds) (u :: stream.rest (i + 1)) =
        insertedPast ds (u :: stream.rest (i + 1)) := by
      simp [insertedPast, hstart]
    rw [TokenStream.rest_of_get? hu, edit, edit, hpast]
    simp only [editFrom, hat, hruns, editFrom_cons_of_idle hlater, List.cons_append]
  · rw [TokenStream.rest_size]
    simp [edit, editFrom, insertedPast, hinserted]

theorem edit_cons_of_run {left : Nat} {cutOff : Bool} {nils : Pos → Bool}
    (hrun : d.run? = some (left + 1, cutOff)) (hinserted : d.inserted? = none)
    (place : d.span.start = stream.pos i) (fits : i + (left + 1) ≤ stream.size)
    (hds : ∀ d ∈ ds, EditsFrom stream (i + (left + 1)) d) :
    edit (d :: ds) nils (stream.rest i) =
      (if cutOff && nils (stream.pos i) then [.keyword .nil_] else []) ++
        edit ds nils (stream.rest (i + (left + 1))) := by
  obtain ⟨u, hu⟩ : ∃ u, stream.get? i = some u := TokenStream.exists_get? (by omega)
  have hpos : stream.pos i = u.span.start := TokenStream.pos_of_get? hu
  have hlater : ∀ v ∈ stream.rest (i + 1), d.Idle v.span.start := fun v hv hv' => by
    obtain ⟨k, hk, hsize, hget⟩ := TokenStream.exists_of_mem_rest hv
    rw [place, ← TokenStream.pos_of_get? hget] at hv'
    exact absurd hv' (before_pos h hk (Nat.le_of_lt hsize)).ne
  have hinside : ∀ v ∈ (stream.rest (i + 1)).take left, insertedAt ds v.span.start = [] := by
    intro v hv
    obtain ⟨k, hk, rfl⟩ := List.getElem_of_mem hv
    rw [List.length_take] at hk
    rw [List.getElem_take]
    have hget : stream.get? (i + 1 + k) = some (stream.rest (i + 1))[k] := by
      simp [TokenStream.rest, TokenStream.get?]
    rw [← TokenStream.pos_of_get? hget]
    exact insertedAt_of_idle fun e he => (hds e he).idle h (by omega)
  have hat : insertedAt (d :: ds) u.span.start = [] := by
    rw [← hpos, insertedAt, List.filterMap_cons_none (by simp [place, hinserted])]
    exact insertedAt_of_idle fun e he => (hds e he).idle h (by omega)
  have hruns : runAt? (d :: ds) u.span.start = some (left + 1, cutOff) := by
    simp [runAt?, place.trans hpos, hrun]
  rw [edit, edit, insertedPast_cons_of_idle hinserted, insertedPast_rest h hds (by omega),
    TokenStream.rest_of_get? hu, hpos]
  simp only [editFrom, hat, hruns, List.nil_append, editFrom_cons_of_idle hlater,
    editFrom_eq_drop hinside, TokenStream.drop_rest, List.append_assoc]
  rw [Nat.add_assoc, Nat.add_comm 1 left]

/-- Whether `nil` takes the place of a run can be chosen for each run by itself. -/
theorem exists_edit_cons_of_run {count : Nat} {cutOff : Bool} (nils : Pos → Bool) (choice : Bool)
    (repair : d.repair = .skipped count) (hrun : d.run? = some (count, cutOff)) (hpos : 0 < count)
    (place : d.span.start = stream.pos i) (fits : i + count ≤ stream.size)
    (hds : ∀ d ∈ ds, EditsFrom stream (i + count) d) :
    ∃ nils', edit (d :: ds) nils' (stream.rest i) =
      (if cutOff && choice then [.keyword .nil_] else []) ++
        edit ds nils (stream.rest (i + count)) := by
  obtain ⟨left, rfl⟩ : ∃ left, count = left + 1 := ⟨count - 1, by omega⟩
  have hinserted : d.inserted? = none := by simp [Diagnostic.inserted?, repair]
  refine ⟨fun p => if p = stream.pos i then choice else nils p, ?_⟩
  rw [edit_cons_of_run h hrun hinserted place fits hds, if_pos rfl, edit, edit]
  congr 2
  refine editFrom_congr (fun u hu => if_neg fun hu' => ?_) 0
  obtain ⟨k, hk, hsize, hget⟩ := TokenStream.exists_of_mem_rest hu
  rw [← TokenStream.pos_of_get? hget] at hu'
  exact absurd hu'.symm (before_pos h (by omega) (Nat.le_of_lt hsize)).ne

/-- The diagnostics have the same effect as a run from cursor `i` has with them. -/
theorem exists_eq_edit (hedit : Edited stream i ds ts j) (hj : j = stream.size) :
    ∃ nils, ts = edit ds nils (stream.rest i) := by
  have hordered := ordered_of_ascending h
  induction hedit with
  | done i =>
    subst hj
    exact ⟨fun _ => false, by rw [TokenStream.rest_size]; rfl⟩
  | @keep i j ds ts t found rest ih =>
    obtain ⟨nils, hts⟩ := ih hj
    have hds := editsFrom_of_edited hordered rest (Nat.le_of_eq hj)
    have hidle : ∀ d ∈ ds, d.Idle t.span.start := fun d hd => by
      rw [← TokenStream.pos_of_get? found]
      exact (hds d hd).idle h (Nat.lt_succ_self i)
    refine ⟨nils, ?_⟩
    rw [edit, insertedPast_rest h hds (Nat.le_succ i), TokenStream.rest_of_get? found, editFrom,
      insertedAt_of_idle hidle, runAt_of_idle hidle, hts]
    rfl
  | @insert i j cost d ds t ts repair place rest ih =>
    obtain ⟨nils, hts⟩ := ih hj
    have hi : i ≤ stream.size := hj ▸ rest.le
    exact ⟨nils, by rw [edit_cons_of_inserted h (t := t) (by simp [Diagnostic.inserted?, repair])
      (by simp [Diagnostic.run?, repair]) place hi, hts]⟩
  | @delete i j count d ds ts repair pos fits place rest ih =>
    obtain ⟨nils, hts⟩ := ih hj
    have hds := editsFrom_of_edited hordered rest (Nat.le_of_eq hj)
    obtain ⟨cutOff, hrun⟩ : ∃ cutOff, d.run? = some (count, cutOff) := by
      unfold Diagnostic.run?
      rw [repair]
      cases d.cause <;> exact ⟨_, rfl⟩
    obtain ⟨nils', hedit⟩ := exists_edit_cons_of_run h nils false repair hrun pos
      (place hordered) fits hds
    exact ⟨nils', by rw [hedit, hts, Bool.and_false]; rfl⟩
  | @cutOff i j count d ds ts cause repair pos fits place rest ih =>
    obtain ⟨nils, hts⟩ := ih hj
    have hds := editsFrom_of_edited hordered rest (Nat.le_of_eq hj)
    have hrun : d.run? = some (count, true) := by
      obtain ⟨limit, hcause⟩ := cause
      simp [Diagnostic.run?, repair, hcause]
    obtain ⟨nils', hedit⟩ := exists_edit_cons_of_run h nils true repair hrun pos
      (place hordered) fits hds
    exact ⟨nils', by rw [hedit, hts]; rfl⟩
  | @note i j d ds ts repair rest ih =>
    obtain ⟨nils, hts⟩ := ih hj
    have hinserted : d.inserted? = none := by simp [Diagnostic.inserted?, repair]
    have hrun : d.run? = none := by simp [Diagnostic.run?, repair]
    refine ⟨nils, ?_⟩
    rw [edit, insertedPast_cons_of_idle hinserted,
      editFrom_cons_of_idle fun _ _ _ => ⟨hinserted, hrun⟩]
    exact hts

end

/-! ### Parsing a source -/

namespace Grammar

open LuaSyntax.Language

/-- A chunk derives what its run makes of the stream. -/
theorem run_chunk (depth : Nat) (stream : TokenStream) (limit : Nat) (fallback : Block) :
    ∃ b ds ts, (chunk (nested depth)).run stream limit fallback = (b, ds) ∧
      Edited stream 0 ds ts stream.size ∧ Derives ts b := by
  obtain ⟨b, ds, ts, hrun, hedit, -, hpost⟩ :=
    run_nested bottom_lenient (appends_within 1) depth stream limit fallback
  have hblock : (nest (within 1) depth).block ts b := (hpost fun _ _ _ => trivial).1
  have hnest : nest (within 1) depth = within (depth + 1) := nest_next _ depth
  exact ⟨b, ds, ts, hrun, hedit, depth + 1, hnest ▸ hblock⟩

end Grammar

theorem edit_nil (nils : Pos → Bool) (tokens : List (Located Token)) :
    edit [] nils tokens = tokens.map (·.node) := by
  have hfrom : editFrom [] nils 0 tokens = tokens.map (·.node) := by
    induction tokens with
    | nil => rfl
    | cons t ts ih => simp [editFrom, insertedAt, runAt?, ih]
  simp [edit, hfrom, insertedPast]

/-- A source that is edited as its recorded diagnostics say, comments aside, is a chunk of the
grammar, and the block of the parse is the tree that it is derived with. Without diagnostics this is
true of the tokens as they stand. -/
theorem diagnostics_edit_source (source : String) (dialect : Dialect) (maxDepth : Nat) :
    let config : ParseConfig := ⟨dialect, none, maxDepth⟩
    let tokens := withoutComments (tokenize source dialect).1
    let recorded := (parseTokens (tokenize source dialect).1 (endOfSource source) config).2
    let block := (parseWith source config).1.block
    (parseWith source config).2 = ((tokenize source dialect).2.map Diagnostic.ofLexError ++
        recorded).mergeSort Diagnostic.notAfter ∧
      (∃ nils, Language.Derives (edit recorded nils tokens) block) ∧
      (recorded = [] → Language.Derives (tokens.map (·.node)) block) := by
  intro config tokens recorded block
  obtain ⟨b, ds, ts, hrun, hedit, hderives⟩ :=
    Grammar.run_chunk maxDepth ⟨tokens.toArray, endOfSource source⟩ maxDepth .empty
  have hparse : parseTokens (tokenize source dialect).1 (endOfSource source) config =
      (⟨commentsOf (tokenize source dialect).1, b⟩, ds) := by
    rw [parseTokens_of_no_limit, hrun]
  have hrecorded : recorded = ds := congrArg Prod.snd hparse
  have hblock : block = b := congrArg (·.1.block) hparse
  have hascending : Ascending tokens.toArray.toList (endOfSource source) :=
    ascending_tokenize source dialect
  obtain ⟨nils, hts⟩ := exists_eq_edit hascending hedit rfl
  have hderives : Language.Derives (edit ds nils tokens) b := by rwa [hts] at hderives
  refine ⟨rfl, ⟨nils, by rwa [hrecorded, hblock]⟩, fun hnone => ?_⟩
  rw [← hrecorded, hnone, edit_nil] at hderives
  rwa [hblock]

end LuaSyntax
