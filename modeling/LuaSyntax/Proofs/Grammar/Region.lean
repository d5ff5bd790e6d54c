import LuaSyntax.Proofs.Grammar.Confined
import LuaSyntax.Proofs.Rule.Cleanly
import LuaSyntax.Proofs.Tree.Nodes
/-!
# Regions of a token stream

A node occupies a region of a token stream when its span is that of the tokens there, they are a way
to write it, and its children occupy regions of their own in there, one after the other.
-/

namespace LuaSyntax

namespace Operator

/-- The tokens of the binary operators. -/
def binaryOps : List (Token × BinOp) :=
  orOps ++ andOps ++ compareOps ++ concatOps ++ addOps ++ mulOps ++ powOps

end Operator

namespace Node

open LuaSyntax.Language Operator

/-- The tokens are a way to write the node. -/
def Spelled (L : Language) (ts : List Token) : Node → Prop
  | stmt s => IsStmt L ts s.node
  | ret r => IsReturn L ts r.node
  | expr e => Disjunction L ts e.node
  | binOp op => ∃ t, ts = [t] ∧ (t, op.node) ∈ binaryOps
  | unOp op => ∃ t, ts = [t] ∧ (t, op.node) ∈ unaryOps
  | target p => Access L ts p.node
  | head a => IsHead L ts a.node
  | suffix s => IsSuffix L ts s.node
  | field f => IsField L ts f.node
  | name n => ts = [.ident n.node]
  | vararg _ => ts = [.symbol .ellipsis]

/-- Each filler of the node is at one of the tokens, the one that it belongs to. -/
def Fills (ts : List (Located Token)) : Node → Prop
  | stmt s => ∀ e ∈ s.node.fillers, ∃ t ∈ ts, e.span = t.span ∧ s.node.FillsAt t e.node
  | _ => True

end Node

/-! ### The tokens of a region -/

namespace TokenStream

variable {α : Type} {stream : TokenStream} {i j k : Nat} {t : Token} {span : Span}
  {ts us : List Token}

/-- The tokens from cursor `i` up to cursor `j` are `ts`. -/
structure Has (stream : TokenStream) (i : Nat) (ts : List Token) (j : Nat) : Prop where
  le : i ≤ j
  size : j ≤ stream.size
  words : (stream.slice i j).map (·.node) = ts

theorem Has.nil (hi : i ≤ stream.size) : stream.Has i [] i :=
  ⟨Nat.le_refl i, hi, by rw [slice_self]; rfl⟩

theorem Has.append (h : stream.Has i ts k) (h' : stream.Has k us j) :
    stream.Has i (ts ++ us) j := by
  refine ⟨Nat.le_trans h.le h'.le, h'.size, ?_⟩
  rw [← slice_append h.le h'.le h'.size, List.map_append, h.words, h'.words]

theorem Has.token (h : stream.get? i = some ⟨t, span⟩) : stream.Has i [t] (i + 1) := by
  refine ⟨Nat.le_succ i, lt_size_of_get? h, ?_⟩
  rw [slice_eq_cons h (Nat.lt_succ_self i), slice_self]
  rfl

theorem Has.cons (h : stream.get? i = some ⟨t, span⟩) (h' : stream.Has (i + 1) ts j) :
    stream.Has i (t :: ts) j :=
  (Has.token h).append h'

theorem Has.snoc (h : stream.Has i ts j) (h' : stream.get? j = some ⟨t, span⟩) :
    stream.Has i (ts ++ [t]) (j + 1) :=
  h.append (.token h')

theorem Has.lt (h : stream.Has i (t :: ts) j) : i < j := by
  refine Nat.lt_of_le_of_ne h.le fun hij => ?_
  have hwords := h.words
  rw [hij, slice_self] at hwords
  cases hwords

theorem Has.get?_of_single (h : stream.Has i [t] j) :
    j = i + 1 ∧ ∃ span, stream.get? i = some ⟨t, span⟩ := by
  have hlength := congrArg List.length h.words
  rw [List.length_map, length_slice h.size, List.length_singleton] at hlength
  obtain rfl : j = i + 1 := by omega
  obtain ⟨u, hu⟩ := exists_get? (show i < stream.size from h.size)
  have hwords := h.words
  rw [slice_eq_cons hu (Nat.lt_succ_self i), slice_self] at hwords
  obtain rfl : u.node = t := (List.cons.inj hwords).1
  exact ⟨rfl, u.span, hu⟩

/-- The tokens from cursor `i` up to cursor `j` are a way to write `a`. -/
def Writes (stream : TokenStream) (derived : List Token → α → Prop) (i : Nat) (a : α) (j : Nat) :
    Prop :=
  ∃ ts, stream.Has i ts j ∧ derived ts a

theorem Writes.mono {derived derived' : List Token → α → Prop} {a : α}
    (h : stream.Writes derived i a j) (hmono : ∀ ts a, derived ts a → derived' ts a) :
    stream.Writes derived' i a j := by
  obtain ⟨ts, hts, ha⟩ := h
  exact ⟨ts, hts, hmono ts a ha⟩

end TokenStream

/-! ### Nodes in their regions -/

section

variable (stream : TokenStream) (P : Nat → Node → Nat → Prop)

mutual

/-- The node has the tokens from cursor `i` up to cursor `j` to itself, and `P` holds of it and of
all nodes under it. -/
inductive Occupies : Nat → Node → Nat → Prop
  | intro {i j : Nat} {n : Node} (moves : i < j) (size : j ≤ stream.size)
    (span : n.span = stream.spanBetween i j) (holds : P i n j) (fills : n.Fills (stream.slice i j))
    (children : Arranged i n.children j) : Occupies i n j

/-- The nodes occupy regions between the two cursors, one after the other. -/
inductive Arranged : Nat → List Node → Nat → Prop
  | nil {i j : Nat} (h : i ≤ j) : Arranged i [] j
  | cons {i k m j : Nat} {n : Node} {ns : List Node} (h : i ≤ k) (first : Occupies k n m)
    (rest : Arranged m ns j) : Arranged i (n :: ns) j

end

end

section

variable {stream : TokenStream} {P : Nat → Node → Nat → Prop} {i j k m : Nat} {n : Node}
  {ms ns : List Node}

namespace Occupies

theorem moves (h : Occupies stream P i n j) : i < j := by
  cases h
  assumption

theorem size (h : Occupies stream P i n j) : j ≤ stream.size := by
  cases h
  assumption

theorem span (h : Occupies stream P i n j) : n.span = stream.spanBetween i j := by
  cases h
  assumption

theorem holds (h : Occupies stream P i n j) : P i n j := by
  cases h
  assumption

theorem fills (h : Occupies stream P i n j) : n.Fills (stream.slice i j) := by
  cases h
  assumption

theorem children (h : Occupies stream P i n j) : Arranged stream P i n.children j := by
  cases h
  assumption

end Occupies

/-! ### The order of nodes and tokens -/

namespace Occupies

variable {t : Located Token} {n' : Node} {i' j' : Nat}

/-- A node ends before the tokens after its region. -/
theorem stop_le_token (h : Occupies stream P i n j) (hstream : stream.Apart) (hjk : j ≤ k)
    (ht : stream.get? k = some t) : n.span.stop ≤ t.span.start := by
  obtain ⟨_, u, -, hu, hspan⟩ := hstream.exists_spanBetween h.moves h.size
  have hmoves := h.moves
  rw [h.span, hspan]
  exact (hstream.after (show j - 1 < k by omega) hu ht).le

/-- A node starts after the tokens before its region. -/
theorem token_stop_le (h : Occupies stream P i n j) (hstream : stream.Apart) (hki : k < i)
    (ht : stream.get? k = some t) : t.span.stop ≤ n.span.start := by
  obtain ⟨u, _, hu, -, hspan⟩ := hstream.exists_spanBetween h.moves h.size
  rw [h.span, hspan]
  exact (hstream.after hki ht hu).le

theorem not_start_le_token (h : Occupies stream P i n j) (hstream : stream.Apart) (hki : k < i)
    (ht : stream.get? k = some t) : ¬n.span.start ≤ t.span.start := by
  obtain ⟨u, _, hu, -, hspan⟩ := hstream.exists_spanBetween h.moves h.size
  rw [h.span, hspan]
  exact Pos.not_le_of_before (hstream.start_before hki ht hu)

theorem start_le (h : Occupies stream P i n j) (hstream : stream.Apart)
    (h' : Occupies stream P i' n' j') (hle : i ≤ i') : n.span.start ≤ n'.span.start := by
  obtain ⟨t, _, ht, -, hspan⟩ := hstream.exists_spanBetween h.moves h.size
  obtain ⟨u, _, hu, -, hspan'⟩ := hstream.exists_spanBetween h'.moves h'.size
  rw [h.span, h'.span, hspan, hspan']
  exact hstream.start_le hle ht hu

theorem span_ne (h : Occupies stream P i n j) (hstream : stream.Apart)
    (h' : Occupies stream P i' n' j') (hle : j ≤ i') : n.span ≠ n'.span := by
  have hmoves := h'.moves
  rw [h.span, h'.span]
  exact hstream.spanBetween_ne h.moves (by omega) hmoves h'.size

end Occupies

namespace Arranged

theorem le (h : Arranged stream P i ns j) : i ≤ j := by
  induction ns generalizing i with
  | nil =>
    cases h
    assumption
  | cons n ns ih =>
    cases h with
    | cons hi first rest =>
      exact Nat.le_trans hi (Nat.le_trans (Nat.le_of_lt first.moves) (ih rest))

theorem append (h : Arranged stream P i ms k) (h' : Arranged stream P k ns j) :
    Arranged stream P i (ms ++ ns) j := by
  induction ms generalizing i with
  | nil =>
    cases h with
    | nil hik =>
      cases h' with
      | nil hkj => exact .nil (Nat.le_trans hik hkj)
      | cons hk first rest => exact .cons (Nat.le_trans hik hk) first rest
  | cons n ms ih =>
    cases h with
    | cons hi first rest => exact .cons hi first (ih rest)

/-- What is around the nodes may be a part of the region. -/
theorem widen (h : Arranged stream P k ns m) (hik : i ≤ k) (hmj : m ≤ j) :
    Arranged stream P i ns j := by
  have hwide := (Arranged.nil hik).append (h.append (.nil hmj))
  rwa [List.nil_append, List.append_nil] at hwide

theorem single (h : Occupies stream P i n j) : Arranged stream P i [n] j :=
  .cons (Nat.le_refl i) h (.nil (Nat.le_refl j))

theorem snoc (h : Arranged stream P i ns k) (h' : Occupies stream P k n j) :
    Arranged stream P i (ns ++ [n]) j :=
  h.append (.single h')

/-- Each of the nodes occupies a region between the two cursors. -/
theorem occupies_of_mem (h : Arranged stream P i ns j) (hn : n ∈ ns) :
    ∃ k m, i ≤ k ∧ m ≤ j ∧ Occupies stream P k n m := by
  induction ns generalizing i with
  | nil => cases hn
  | cons first ns ih =>
    cases h with
    | @cons _ k m _ _ _ hik hfirst hrest =>
      rcases List.mem_cons.1 hn with rfl | hn
      · exact ⟨k, m, hik, hrest.le, hfirst⟩
      · obtain ⟨k', m', hk', hm', hoccupies⟩ := ih hrest hn
        have hmoves := hfirst.moves
        exact ⟨k', m', by omega, hm', hoccupies⟩

/-- The nodes have no token in common, and stand in the order of the source. -/
theorem pairwise (hstream : stream.Apart) (h : Arranged stream P i ns j) :
    ns.Pairwise fun m n => m.span.stop.NotAfter n.span.start := by
  induction ns generalizing i with
  | nil => exact .nil
  | cons first ns ih =>
    cases h with
    | @cons _ k m _ _ _ hik hfirst hrest =>
      refine .cons (fun n hn => ?_) (ih hrest)
      obtain ⟨k', m', hk', -, hoccupies⟩ := hrest.occupies_of_mem hn
      obtain ⟨_, u, -, hu, hspan⟩ := hstream.exists_spanBetween hfirst.moves hfirst.size
      obtain ⟨v, _, hv, -, hspan'⟩ := hstream.exists_spanBetween hoccupies.moves hoccupies.size
      have hmoves := hfirst.moves
      rw [hfirst.span, hoccupies.span, hspan, hspan']
      exact hstream.after (by omega) hu hv

end Arranged

/-- A token that a node is written with, all of it. -/
theorem occupies_token {t : Token} {span : Span} (hstream : stream.Apart)
    (hget : stream.get? i = some ⟨t, span⟩) (hspan : n.span = span) (hholds : P i n (i + 1))
    (hfills : ∀ ts, n.Fills ts) (hchildren : n.children = []) :
    Occupies stream P i n (i + 1) := by
  refine .intro (Nat.lt_succ_self i) (TokenStream.lt_size_of_get? hget) ?_ hholds (hfills _) ?_
  · rw [hstream.spanBetween_succ hget, hspan]
  · rw [hchildren]
    exact .nil (Nat.le_succ i)

end

end LuaSyntax
