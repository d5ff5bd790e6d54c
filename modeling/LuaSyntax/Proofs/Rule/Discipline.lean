import LuaSyntax.Proofs.Rule.Edit
import LuaSyntax.Rule.Loop
/-!
# The discipline of rules

A committed rule gives a value (`Completes`). An uncommitted one gives a value after consuming a
token, or is stuck and leaves the state as it was (`Speculates`). A rule that does both `Opens`;
rules that are never stuck, such as loops and optional parts, `Always` give a value. Each predicate
also says what a run yields: the edited tokens that it read and the notes that it left.

The predicates are closed under sequencing, so a rule of the grammar has them because its parts do.
-/

namespace LuaSyntax

namespace Context

/-- A state that a rule can run from: the cursor lies in the stream, the context is not one of pure
lookahead, and a speculation did not start past the cursor. -/
structure Proper (c : Context) (s : State) : Prop where
  cursor_le : s.cursor ≤ c.stream.size
  not_strict : c.mode ≠ .strict
  start_le : ∀ {start : Nat}, c.mode = .since start → start ≤ s.cursor

variable {c : Context} {s s' : State}

theorem Proper.of_le (h : c.Proper s) (hle : s.cursor ≤ s'.cursor)
    (hsize : s'.cursor ≤ c.stream.size) : c.Proper s' :=
  ⟨hsize, h.not_strict, fun hmode => Nat.le_trans (h.start_le hmode) hle⟩

theorem isCommitted_congr (hcursor : s'.cursor = s.cursor) :
    c.isCommitted s' = c.isCommitted s := by
  simp [isCommitted, hcursor]

theorem isCommitted_of_lt (h : c.Proper s) (hlt : s.cursor < s'.cursor) :
    c.isCommitted s' = true := by
  unfold isCommitted
  split
  · rfl
  · next start hmode =>
    have := h.start_le hmode
    simp only [bne_iff_ne]
    omega
  · next hmode => exact absurd hmode h.not_strict

theorem isCommitted_of_le (h : c.Proper s) (hs : c.isCommitted s = true)
    (hle : s.cursor ≤ s'.cursor) : c.isCommitted s' = true := by
  rcases Nat.lt_or_eq_of_le hle with hlt | heq
  · exact isCommitted_of_lt h hlt
  · rw [isCommitted_congr heq.symm, hs]

@[simp] theorem stream_speculating (c : Context) (s : State) :
    (c.speculating s).stream = c.stream := by
  unfold speculating
  split <;> rfl

@[simp] theorem limit_speculating (c : Context) (s : State) :
    (c.speculating s).limit = c.limit := by
  unfold speculating
  split <;> rfl

theorem mode_speculating (h : c.Proper s) : (c.speculating s).mode = .since s.cursor := by
  unfold speculating
  split
  · next hmode => exact absurd hmode h.not_strict
  · rfl

theorem Proper.speculating (h : c.Proper s) : (c.speculating s).Proper s := by
  refine ⟨by simpa using h.cursor_le, ?_, ?_⟩
  · simp [mode_speculating h]
  · intro start hstart
    rw [mode_speculating h] at hstart
    cases hstart
    exact Nat.le_refl _

theorem isCommitted_speculating (h : c.Proper s) : (c.speculating s).isCommitted s = false := by
  simp [isCommitted, mode_speculating h]

end Context

/-- The terms on which runs are described. -/
structure Law where
  /-- The tokens that may be put in. -/
  insertable : Token → Prop
  /-- Whether runs that cut off a nesting level are described as well. -/
  cut : Prop

/-- What any rule may record: insertions of insertable tokens, and notes on assignment targets. -/
structure Law.Allows (law : Law) (d : Diagnostic) : Prop where
  insertable : ∀ {t : Token} {cost : Nat}, d.repair = .inserted t cost → law.insertable t
  unrepaired : d.repair = .unrepaired → d.cause = .notAssignable ∨ d.cause = .parenthesizedTarget

/-- What a run gives besides its value: the edited tokens that it read, and its notes. -/
structure Yield where
  tokens : List Token
  notes : List Diagnostic

namespace Yield

def empty : Yield := ⟨[], []⟩

def token (t : Token) : Yield := ⟨[t], []⟩

instance : Append Yield := ⟨fun y z => ⟨y.tokens ++ z.tokens, y.notes ++ z.notes⟩⟩

@[simp] theorem tokens_append (y z : Yield) : (y ++ z).tokens = y.tokens ++ z.tokens := rfl

@[simp] theorem notes_append (y z : Yield) : (y ++ z).notes = y.notes ++ z.notes := rfl

@[simp] theorem tokens_empty : empty.tokens = [] := rfl

@[simp] theorem notes_empty : empty.notes = [] := rfl

@[simp] theorem tokens_token (t : Token) : (token t).tokens = [t] := rfl

@[simp] theorem notes_token (t : Token) : (token t).notes = [] := rfl

@[simp] theorem append_empty (y : Yield) : y ++ empty = y := by
  change Yield.mk (y.tokens ++ []) (y.notes ++ []) = y
  rw [List.append_nil, List.append_nil]

@[simp] theorem empty_append (y : Yield) : empty ++ y = y := rfl

theorem append_assoc (y z w : Yield) : y ++ z ++ w = y ++ (z ++ w) := by
  change Yield.mk (y.tokens ++ z.tokens ++ w.tokens) (y.notes ++ z.notes ++ w.notes) =
    Yield.mk (y.tokens ++ (z.tokens ++ w.tokens)) (y.notes ++ (z.notes ++ w.notes))
  rw [List.append_assoc, List.append_assoc]

end Yield

/-- The run from `s` to `s'` edits the stream truthfully, records only what is allowed, and yields
what `post` says. Unless the law has cut-offs, the latter is said only of runs without one. -/
def Reaches (law : Law) (c : Context) (s s' : State) (post : Yield → Prop) : Prop :=
  ∃ ds ts, s'.diags = ds.reverse ++ s.diags ∧ Edited c.stream s.cursor ds ts s'.cursor ∧
    (∀ d ∈ ds, law.Allows d) ∧
    ((∀ d ∈ ds, d.CutsOff → law.cut) → post ⟨ts, Diagnostic.notes ds⟩)

namespace Reaches

variable {law : Law} {c : Context} {s s' s'' : State} {P Q R : Yield → Prop}

theorem le (h : Reaches law c s s' P) : s.cursor ≤ s'.cursor := by
  obtain ⟨_, _, _, hedit, _⟩ := h
  exact hedit.le

theorem proper (h : Reaches law c s s' P) (hs : c.Proper s) : c.Proper s' := by
  obtain ⟨_, _, _, hedit, _⟩ := h
  exact hs.of_le hedit.le (hedit.le_size hs.cursor_le)

theorem mono (h : Reaches law c s s' P) (hPQ : ∀ y, P y → Q y) : Reaches law c s s' Q := by
  obtain ⟨ds, ts, hdiags, hedit, hlaw, hpost⟩ := h
  exact ⟨ds, ts, hdiags, hedit, hlaw, fun hcut => hPQ _ (hpost hcut)⟩

/-- A run is known by the cursors and diagnostics at its ends. -/
theorem congr {t t' : State} (h : Reaches law c s s' P) (hcursor : t.cursor = s.cursor)
    (hdiags : t.diags = s.diags) (hcursor' : t'.cursor = s'.cursor)
    (hdiags' : t'.diags = s'.diags) : Reaches law c t t' P := by
  unfold Reaches
  rwa [hcursor, hdiags, hcursor', hdiags']

theorem of_stream {c' : Context} (h : Reaches law c' s s' P) (hstream : c'.stream = c.stream) :
    Reaches law c s s' P := by
  unfold Reaches
  rw [← hstream]
  exact h

theorem refl (h : P .empty) : Reaches law c s s P :=
  ⟨[], [], rfl, .done _, by simp, fun _ => h⟩

theorem trans (h : Reaches law c s s' P) (h' : Reaches law c s' s'' R)
    (hQ : ∀ y z, P y → R z → Q (y ++ z)) : Reaches law c s s'' Q := by
  obtain ⟨ds, ts, hdiags, hedit, hlaw, hpost⟩ := h
  obtain ⟨ds', ts', hdiags', hedit', hlaw', hpost'⟩ := h'
  refine ⟨ds ++ ds', ts ++ ts', ?_, hedit.append hedit', ?_, fun hcut => ?_⟩
  · simp [hdiags', hdiags]
  · simpa only [List.mem_append, or_imp, forall_and] using ⟨hlaw, hlaw'⟩
  · simp only [List.mem_append, or_imp, forall_and] at hcut
    rw [Diagnostic.notes_append]
    exact hQ _ _ (hpost hcut.1) (hpost' hcut.2)

/-- Reading the token at the cursor. -/
theorem advance {t : Located Token} (found : c.next? s = some t) (h : P (.token t.node)) :
    Reaches law c s (s.advance 1) P :=
  ⟨[], [t.node], rfl, .keep found (.done _), by simp, fun _ => h⟩

/-- Recording an edit that consumes nothing. -/
theorem of_insert {d : Diagnostic} {t : Token} {cost : Nat} (repair : d.repair = .inserted t cost)
    (place : d.span.start = c.pos s) (insertable : law.insertable t)
    (hdiags : s'.diags = d :: s.diags)
    (hcursor : s'.cursor = s.cursor) (h : (d.CutsOff → law.cut) → P (.token t)) :
    Reaches law c s s' P := by
  refine ⟨[d], [t], by simpa using hdiags, ?_, ?_, ?_⟩
  · rw [hcursor]
    exact .insert repair place (.done _)
  · rw [List.forall_mem_singleton]
    exact ⟨by rw [repair]; rintro _ _ ⟨⟩; exact insertable, by rw [repair]; nofun⟩
  · rw [List.forall_mem_singleton, Diagnostic.notes_cons_of_repaired (by simp [repair])]
    exact h

/-- Passing over a run of tokens. -/
theorem of_skip {d : Diagnostic} {count : Nat} (repair : d.repair = .skipped count)
    (pos : 0 < count) (fits : s.cursor + count ≤ c.stream.size)
    (place : c.stream.Ordered → d.span.start = c.pos s) (h : P .empty) :
    Reaches law c s ((s.advance count).record d) P := by
  refine ⟨[d], [], rfl, .delete repair pos fits place (.done _), ?_, ?_⟩
  · rw [List.forall_mem_singleton]
    exact ⟨by rw [repair]; nofun, by rw [repair]; nofun⟩
  · rw [Diagnostic.notes_cons_of_repaired (by simp [repair])]
    exact fun _ => h

/-- Passing over an expression that nests too deep. -/
theorem of_cutOff {d : Diagnostic} {count : Nat} (cause : d.CutsOff)
    (repair : d.repair = .skipped count) (pos : 0 < count)
    (fits : s.cursor + count ≤ c.stream.size)
    (place : c.stream.Ordered → d.span.start = c.pos s)
    (h : law.cut → P (.token (.keyword .nil_))) :
    Reaches law c s ((s.advance count).record d) P := by
  refine ⟨[d], [.keyword .nil_], rfl, .cutOff cause repair pos fits place (.done _), ?_, ?_⟩
  · rw [List.forall_mem_singleton]
    exact ⟨by rw [repair]; nofun, by rw [repair]; nofun⟩
  · rw [Diagnostic.notes_cons_of_repaired (by simp [repair]), List.forall_mem_singleton]
    exact fun hcut => h (hcut cause)

/-- Recording a note. -/
theorem of_note {d : Diagnostic} (repair : d.repair = .unrepaired)
    (cause : d.cause = .notAssignable ∨ d.cause = .parenthesizedTarget) (h : P ⟨[], [d]⟩) :
    Reaches law c s (s.record d) P := by
  refine ⟨[d], [], rfl, .note repair (.done _), ?_, ?_⟩
  · rw [List.forall_mem_singleton]
    exact ⟨by rw [repair]; nofun, fun _ => cause⟩
  · rw [Diagnostic.notes_cons_of_unrepaired repair]
    exact fun _ => h

end Reaches

namespace Rule

variable {α β : Type}

/-- Committed runs of the rule give a value. -/
def Completes (law : Law) (rule : Rule α) (post : Yield → α → Prop) : Prop :=
  ∀ c s, c.Proper s → c.isCommitted s = true →
    ∃ a s', rule c s = .ok a s' ∧ Reaches law c s s' (post · a)

/-- Uncommitted runs of the rule give a value after consuming a token, or they are stuck and leave
the state as it was. -/
def Speculates (law : Law) (rule : Rule α) (post : Yield → α → Prop) : Prop :=
  ∀ c s, c.Proper s → c.isCommitted s = false →
    (∃ a s', rule c s = .ok a s' ∧ Reaches law c s s' (post · a) ∧ s.cursor < s'.cursor) ∨
      ∃ why, rule c s = .error why s

/-- The rule has to see a token to begin, and goes through with it once it has begun. -/
structure Opens (law : Law) (rule : Rule α) (post : Yield → α → Prop) : Prop where
  completes : Completes law rule post
  speculates : Speculates law rule post

/-- The rule gives a value from any state. It has consumed a token if the value `moves`; an
uncommitted run that has consumed none has done nothing at all. -/
def Always (law : Law) (moves : α → Prop) (rule : Rule α) (post : Yield → α → Prop) : Prop :=
  ∀ c s, c.Proper s → ∃ a s', rule c s = .ok a s' ∧ Reaches law c s s' (post · a) ∧
    (moves a → s.cursor < s'.cursor) ∧
    (c.isCommitted s = false → s'.cursor = s.cursor → s' = s)

variable {law : Law} {rule : Rule α} {f : α → Rule β} {P : Yield → α → Prop} {Q : Yield → β → Prop}
  {moves : α → Prop} {moves' : β → Prop}

theorem bind_of_ok {c : Context} {s s' : State} {a : α} (h : rule c s = .ok a s') :
    (rule >>= f) c s = f a c s' := by
  rw [bind_apply, h]

theorem bind_of_error {c : Context} {s s' : State} {why : Stuck} (h : rule c s = .error why s') :
    (rule >>= f) c s = .error why s' := by
  rw [bind_apply, h]

theorem Always.completes (h : Always law moves rule P) : Completes law rule P := by
  intro c s hs _
  obtain ⟨a, s', hok, hreach, -⟩ := h c s hs
  exact ⟨a, s', hok, hreach⟩

/-! ### Weaker postconditions -/

theorem Completes.mono {P' : Yield → α → Prop} (h : Completes law rule P)
    (hP : ∀ y a, P y a → P' y a) : Completes law rule P' := by
  intro c s hs hc
  obtain ⟨a, s', hok, hreach⟩ := h c s hs hc
  exact ⟨a, s', hok, hreach.mono fun y => hP y a⟩

theorem Speculates.mono {P' : Yield → α → Prop} (h : Speculates law rule P)
    (hP : ∀ y a, P y a → P' y a) : Speculates law rule P' := by
  intro c s hs hc
  rcases h c s hs hc with ⟨a, s', hok, hreach, hlt⟩ | hstuck
  · exact .inl ⟨a, s', hok, hreach.mono fun y => hP y a, hlt⟩
  · exact .inr hstuck

theorem Opens.mono {P' : Yield → α → Prop} (h : Opens law rule P)
    (hP : ∀ y a, P y a → P' y a) : Opens law rule P' :=
  ⟨h.completes.mono hP, h.speculates.mono hP⟩

theorem Always.mono {P' : Yield → α → Prop} (h : Always law moves rule P)
    (hP : ∀ y a, P y a → P' y a) : Always law moves rule P' := by
  intro c s hs
  obtain ⟨a, s', hok, hreach, hrest⟩ := h c s hs
  exact ⟨a, s', hok, hreach.mono fun y => hP y a, hrest⟩

/-! ### Sequencing -/

theorem Always.pure {a : α} (hmoves : ¬ moves a) (h : P .empty a) :
    Always law moves (pure a) P := by
  intro c s _
  exact ⟨a, s, rfl, .refl h, fun hm => absurd hm hmoves, fun _ _ => rfl⟩

theorem Completes.pure {a : α} (h : P .empty a) : Completes law (pure a) P := by
  have halways : Always law (fun _ => False) (Pure.pure a) P := .pure (fun h => h) h
  exact halways.completes

theorem Completes.bind (h : Completes law rule P)
    (hf : ∀ a, Completes law (f a) fun z b => ∀ y, P y a → Q (y ++ z) b) :
    Completes law (rule >>= f) Q := by
  intro c s hs hc
  obtain ⟨a, s', hok, hreach⟩ := h c s hs hc
  obtain ⟨b, s'', hok', hreach'⟩ :=
    hf a c s' (hreach.proper hs) (Context.isCommitted_of_le hs hc hreach.le)
  refine ⟨b, s'', by rw [bind_of_ok hok, hok'], hreach.trans hreach' ?_⟩
  exact fun y z hy hz => hz y hy

/-- What follows a rule that has consumed a token runs committed. -/
theorem Speculates.bind (h : Speculates law rule P)
    (hf : ∀ a, Completes law (f a) fun z b => ∀ y, P y a → Q (y ++ z) b) :
    Speculates law (rule >>= f) Q := by
  intro c s hs hc
  rcases h c s hs hc with ⟨a, s', hok, hreach, hlt⟩ | ⟨why, herr⟩
  · obtain ⟨b, s'', hok', hreach'⟩ :=
      hf a c s' (hreach.proper hs) (Context.isCommitted_of_lt hs hlt)
    refine .inl ⟨b, s'', by rw [bind_of_ok hok, hok'], hreach.trans hreach' ?_,
      Nat.lt_of_lt_of_le hlt hreach'.le⟩
    exact fun y z hy hz => hz y hy
  · exact .inr ⟨why, bind_of_error herr⟩

theorem Opens.bind (h : Opens law rule P)
    (hf : ∀ a, Completes law (f a) fun z b => ∀ y, P y a → Q (y ++ z) b) :
    Opens law (rule >>= f) Q :=
  ⟨h.completes.bind hf, h.speculates.bind hf⟩

theorem Always.bind (h : Always law moves rule P)
    (hf : ∀ a, Always law moves' (f a) fun z b => ∀ y, P y a → Q (y ++ z) b) :
    Always law moves' (rule >>= f) Q := by
  intro c s hs
  obtain ⟨a, s', hok, hreach, -, hquiet⟩ := h c s hs
  obtain ⟨b, s'', hok', hreach', hmoves', hquiet'⟩ := hf a c s' (hreach.proper hs)
  refine ⟨b, s'', by rw [bind_of_ok hok, hok'], hreach.trans hreach' fun y z hy hz => hz y hy,
    fun hb => Nat.lt_of_le_of_lt hreach.le (hmoves' hb), fun hc hcursor => ?_⟩
  have hle := hreach.le
  have hle' := hreach'.le
  have hs' : s' = s := hquiet hc (by omega)
  subst hs'
  exact hquiet' hc hcursor

/-- A rule that may do nothing, and then one that opens. -/
theorem Always.bind_opens (h : Always law moves rule P)
    (hf : ∀ a, Opens law (f a) fun z b => ∀ y, P y a → Q (y ++ z) b) :
    Opens law (rule >>= f) Q := by
  refine ⟨h.completes.bind fun a => (hf a).completes, fun c s hs hc => ?_⟩
  obtain ⟨a, s', hok, hreach, -, hquiet⟩ := h c s hs
  have hbind : (rule >>= f) c s = f a c s' := bind_of_ok hok
  rcases Nat.lt_or_eq_of_le hreach.le with hmoved | hsame
  · obtain ⟨b, s'', hok', hreach'⟩ :=
      (hf a).completes c s' (hreach.proper hs) (Context.isCommitted_of_lt hs hmoved)
    exact .inl ⟨b, s'', by rw [hbind, hok'], hreach.trans hreach' fun y z hy hz => hz y hy,
      Nat.lt_of_lt_of_le hmoved hreach'.le⟩
  · have hs' : s' = s := hquiet hc hsame.symm
    subst hs'
    rcases (hf a).speculates c s' hs hc with ⟨b, s'', hok', hreach', hlt⟩ | ⟨why, herr⟩
    · exact .inl ⟨b, s'', by rw [hbind, hok'],
        hreach.trans hreach' fun y z hy hz => hz y hy, hlt⟩
    · exact .inr ⟨why, by rw [hbind, herr]⟩

theorem Completes.map {g : α → β} (h : Completes law rule P)
    (hQ : ∀ y a, P y a → Q y (g a)) : Completes law (g <$> rule) Q := by
  intro c s hs hc
  obtain ⟨a, s', hok, hreach⟩ := h c s hs hc
  exact ⟨g a, s', by rw [map_apply, hok], hreach.mono fun y => hQ y a⟩

theorem Opens.map {g : α → β} (h : Opens law rule P)
    (hQ : ∀ y a, P y a → Q y (g a)) : Opens law (g <$> rule) Q := by
  refine ⟨h.completes.map hQ, fun c s hs hc => ?_⟩
  rcases h.speculates c s hs hc with ⟨a, s', hok, hreach, hlt⟩ | ⟨why, herr⟩
  · exact .inl ⟨g a, s', by rw [map_apply, hok], hreach.mono fun y => hQ y a, hlt⟩
  · exact .inr ⟨why, by rw [map_apply, herr]⟩

end Rule

end LuaSyntax
