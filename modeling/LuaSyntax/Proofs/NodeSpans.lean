import LuaSyntax.Proofs.Grammar.StmtRegion
import LuaSyntax.Proofs.Places
import LuaSyntax.Proofs.RoundTrip
/-!
# The spans of nodes

In the tree of a source without diagnostics, spans nest as the nodes do. Each node runs from the
start of its first token to the end of its last one, and its children have spans of their own inside
it, in the order of the source. What fills a statement up is at a token of the statement.
-/

namespace LuaSyntax

open Grammar Rule

/-- All of the second span is in the first one. -/
structure Span.Contains (outer inner : Span) : Prop where
  start : outer.start ≤ inner.start
  stop : inner.stop ≤ outer.stop

/-- The first node ends before the second one starts. -/
def Node.Precedes (m n : Node) : Prop := m.span.stop ≤ n.span.start

/-- The node has the tokens `ts` to itself: it is written with them, and spans from the start of the
first of them to the end of the last one. -/
structure Node.Covers (depth : Nat) (n : Node) (ts : List (Located Token)) : Prop where
  spelled : ∃ room < depth, n.Spelled (Language.within room) (ts.map (·.node))
  span : ∃ first last, ts.head? = some first ∧ ts.getLast? = some last ∧
    n.span = ⟨first.span.start, last.span.stop⟩
  fills : n.Fills ts

/-- A node of the tree of the tokens `all`, with its children inside it. -/
structure Node.Nests (depth : Nat) (all : List (Located Token)) (n : Node) : Prop where
  nonempty : n.span.isEmpty = false
  covers : ∃ before ts after, all = before ++ ts ++ after ∧ n.Covers depth ts
  contains : ∀ child ∈ n.children, n.span.Contains child.span
  ordered : n.children.Pairwise Node.Precedes
  fillers : ∀ s, n = .stmt s → ∀ e ∈ s.node.fillers, s.span.Contains e.span

/-! ### Positions of one text -/

theorem Pos.IsIn.offset_lt {cs : List Char} {p q : Pos} (hp : p.IsIn cs) (hq : q.IsIn cs)
    (h : p.Before q) : p.offset < q.offset := by
  obtain ⟨before, after, hcs, rfl⟩ := hp
  obtain ⟨before', after', hcs', rfl⟩ := hq
  rcases List.append_eq_append_iff.1 (hcs.symm.trans hcs') with ⟨cs, rfl, -⟩ | ⟨cs, rfl, -⟩
  · rw [Pos.endOf_append] at h ⊢
    rw [Pos.offset_advanceOver]
    refine Nat.lt_add_of_pos_right (Pos.byteSize_pos ?_)
    rintro rfl
    exact h.ne rfl
  · rw [Pos.endOf_append] at h
    exact absurd rfl (h.trans_notAfter (Pos.notAfter_advanceOver _ cs)).ne

namespace TokenStream

variable {stream : TokenStream} {i j k m : Nat}

/-- A span within the tokens of another one. -/
theorem Apart.contains (h : stream.Apart) (hik : i ≤ k) (hkm : k < m) (hmj : m ≤ j)
    (hj : j ≤ stream.size) :
    (stream.spanBetween i j).Contains (stream.spanBetween k m) := by
  obtain ⟨t, u, ht, hu, houter⟩ := h.exists_spanBetween (show i < j by omega) hj
  obtain ⟨v, w, hv, hw, hinner⟩ := h.exists_spanBetween hkm (by omega)
  rw [houter, hinner]
  exact ⟨h.start_le hik ht hv, h.stop_le (show m - 1 ≤ j - 1 by omega) hw hu⟩

theorem head?_slice {t : Located Token} (ht : stream.get? i = some t) (hij : i < j) :
    (stream.slice i j).head? = some t := by
  rw [slice_eq_cons ht hij]
  rfl

theorem getLast?_slice {t : Located Token} (ht : stream.get? (j - 1) = some t) (hij : i < j)
    (hj : j ≤ stream.size) : (stream.slice i j).getLast? = some t := by
  rw [← slice_append (show i ≤ j - 1 by omega) (Nat.sub_le j 1) hj,
    slice_eq_cons ht (by omega), Nat.sub_add_cancel (by omega), slice_self, List.getLast?_concat]

/-- A span starts with the first of its tokens and stops with the last one. -/
theorem Apart.exists_ends (h : stream.Apart) (hij : i < j) (hj : j ≤ stream.size) :
    ∃ first last, (stream.slice i j).head? = some first ∧
      (stream.slice i j).getLast? = some last ∧
      stream.spanBetween i j = ⟨first.span.start, last.span.stop⟩ := by
  obtain ⟨first, last, hfirst, hlast, hspan⟩ := h.exists_spanBetween hij hj
  exact ⟨first, last, head?_slice hfirst hij, getLast?_slice hlast hij hj, hspan⟩

end TokenStream

/-! ### Nodes of a stream -/

section

variable {stream : TokenStream} {P : Nat → Node → Nat → Prop} {roots : List Node} {n : Node}

/-- Each node of the tree occupies a region. -/
theorem Arranged.occupies_of_under {i j : Nat} (h : Arranged stream P i roots j)
    (hn : n.Under roots) : ∃ k m, Occupies stream P k n m := by
  induction hn with
  | root hn =>
    obtain ⟨k, m, -, -, hoccupies⟩ := h.occupies_of_mem hn
    exact ⟨k, m, hoccupies⟩
  | child _ hn ih =>
    obtain ⟨k, m, hparent⟩ := ih
    obtain ⟨k', m', -, -, hoccupies⟩ := hparent.children.occupies_of_mem hn
    exact ⟨k', m', hoccupies⟩

/-- The tokens of the region are a way to write the node. -/
def WrittenWithin (stream : TokenStream) (depth : Nat) (i : Nat) (n : Node) (j : Nat) : Prop :=
  ∃ room < depth, n.Spelled (Language.within room) ((stream.slice i j).map (·.node))

theorem Occupies.nests {cs : List Char} {depth i j : Nat} (hstream : stream.Apart)
    (htokens : ∀ t ∈ stream.tokens.toList, t.span.IsIn cs)
    (h : Occupies stream (WrittenWithin stream depth) i n j) :
    n.Nests depth stream.tokens.toList := by
  obtain ⟨first, last, hfirst, hlast, hspan⟩ := hstream.exists_spanBetween h.moves h.size
  have hmoves := h.moves
  have hisIn {k : Nat} {t : Located Token} (ht : stream.get? k = some t) : t.span.IsIn cs := by
    refine htokens t (List.mem_of_getElem? (i := k) ?_)
    rw [Array.getElem?_toList]
    exact ht
  have hall := TokenStream.slice_around (Nat.le_of_lt hmoves) h.size
  refine ⟨?_, ⟨_, _, _, hall, h.holds, ?_, h.fills⟩, fun child hchild => ?_,
    (h.children.pairwise hstream).imp fun hle => hle.le, ?_⟩
  · have hbefore : first.span.start.Before last.span.stop :=
      (hstream.covers hfirst).trans_notAfter (hstream.stop_notAfter (by omega) hfirst hlast)
    have hlt := (hisIn hfirst).start.offset_lt (hisIn hlast).stop hbefore
    rw [h.span, hspan, Span.isEmpty, beq_eq_false_iff_ne]
    exact Nat.ne_of_lt hlt
  · rw [h.span]
    exact hstream.exists_ends hmoves h.size
  · obtain ⟨k, m, hik, hmj, hoccupies⟩ := h.children.occupies_of_mem hchild
    rw [h.span, hoccupies.span]
    exact hstream.contains hik hoccupies.moves hmj h.size
  · rintro s rfl e he
    obtain ⟨t, ht, hfiller, -⟩ := h.fills e he
    obtain ⟨k, hik, hkj, hget⟩ := TokenStream.mem_slice.1 ht
    have hcontains := hstream.contains hik (Nat.lt_succ_self k) hkj h.size
    rw [← h.span, hstream.spanBetween_succ hget, ← hfiller] at hcontains
    exact hcontains

end

/-! ### The trees of sources -/

/-- Insertions of any tokens, without a level that is cut off. -/
theorem bottom_inserting : Bottom ⟨fun _ => True, False⟩ (Language.bare fun _ => True) :=
  bottom_bare (fun _ => trivial) id

/-- What is read at a level is written in the language of the level. -/
theorem levelsHold_within (stream : TokenStream) (depth : Nat) :
    LevelsHold stream (WrittenWithin stream depth) Language.within depth where
  expr _ _ _ _ he := he
  block room _ := by
    refine (sound_nested bottom_inserting room).block.cleanly.bounds.mono ?_
    rintro i b j ⟨hij, hj, hderives⟩ -
    exact ⟨_, ⟨hij, hj, rfl⟩, hderives.derives⟩
  node room hroom i n j := by
    rintro ⟨_, ⟨-, -, rfl⟩, hn⟩
    exact ⟨room, hroom, hn⟩
  stmt room hroom :=
    (opens_stmt (sound_nested bottom_inserting room) trivial).cleanly.mono fun _ _ _ hs =>
      ⟨room, hroom, hs.derives⟩
  ret room hroom :=
    (opens_returnStmt (sound_nested bottom_inserting room)).cleanly.mono fun _ _ _ hr =>
      ⟨room, hroom, hr.derives⟩

/-- The spans in the tree of a source without diagnostics nest in the order of the source, each of
them the span of the tokens that its node is written with. -/
theorem parseWith_nodes_nest (source : String) (config : ParseConfig)
    (hclean : (parseWith source config).2 = []) :
    let all := withoutComments (tokenize source config.dialect).1
    let roots := (parseWith source config).1.block.nodes
    roots.Pairwise Node.Precedes ∧ ∀ n : Node, n.Under roots → n.Nests config.maxDepth all := by
  obtain ⟨dialect, limit, depth⟩ := config
  obtain ⟨b, ds, hrun⟩ : ∃ b ds, (chunk (nested depth)).run (streamOf source dialect) depth .empty =
    (b, ds) := ⟨_, _, rfl⟩
  have hunlimited := parseWith_unlimited hclean depth
  obtain ⟨-, rfl⟩ := parseWith_eq_nil hrun (by rw [← hunlimited, hclean])
  intro all roots
  have hroots : roots = b.nodes := by
    show (parseWith source ⟨dialect, limit, depth⟩).1.block.nodes = b.nodes
    rw [hunlimited, (parseWith_of_run hrun).1]
  have hstream : (streamOf source dialect).Apart := apart_tokenize source dialect
  have hlaid := laid_nested hstream (levelsHold_within _ depth) depth (Nat.le_refl depth)
  have harranged := arranged_run hlaid hrun
  have htokens : ∀ t ∈ (streamOf source dialect).tokens.toList, t.span.IsIn source.toList :=
    fun t ht => (Lexer.pieces_tokenizeFrom dialect default source.toList).isIn.1 t
      (List.mem_filter.1 ht).1
  rw [hroots]
  refine ⟨(harranged.pairwise hstream).imp fun hle => hle.le, fun n hn => ?_⟩
  obtain ⟨i, j, hoccupies⟩ := harranged.occupies_of_under hn
  exact hoccupies.nests hstream htokens

/-- A right-grouped power after a unary operator, values that are filled up, and a step left out. -/
theorem parseWith_nodes_nest_fillers :
    let source := "local a, b = -i ^ 2 ^ x for i = 1, f(a).y do local c, d end"
    let roots := (parseWith source default).1.block.nodes
    (parseWith source default).2 = [] ∧ roots.length = 2 ∧ roots.Pairwise Node.Precedes ∧
      ∀ n : Node, n.Under roots →
        n.Nests defaultMaxDepth (withoutComments (tokenize source .glua).1) := by
  have hclean : (parseWith "local a, b = -i ^ 2 ^ x for i = 1, f(a).y do local c, d end"
      default).2 = [] := List.length_eq_zero_iff.1 (by decide +kernel)
  obtain ⟨hroots, hnodes⟩ := parseWith_nodes_nest _ default hclean
  exact ⟨hclean, by decide +kernel, hroots, hnodes⟩

end LuaSyntax
