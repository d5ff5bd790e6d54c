import LuaSyntax.Proofs.Rule.Confined
import Mathlib.Logic.Nonempty
/-!
# What clean runs come to

A clean run over a stream is known by the cursor at its start, its value, and the cursor at its end.
`Cleanly` says what holds of these for every clean run of a rule. In a sequence, what is to be shown
of the later part is shown under what is known of the earlier one.
-/

namespace LuaSyntax

/-- Without an edit the tokens are those of the stream. -/
theorem Edited.tokens_eq {stream : TokenStream} {i j : Nat} {ts : List Token}
    (h : Edited stream i [] ts j) : ts = (stream.slice i j).map (·.node) := by
  generalize hds : ([] : List Diagnostic) = ds at h
  induction h with
  | done i => rw [TokenStream.slice_self, List.map_nil]
  | keep found rest ih =>
    rw [TokenStream.slice_eq_cons found rest.le, List.map_cons, ← ih hds]
  | insert _ _ _ _ | delete _ _ _ _ _ _ | cutOff _ _ _ _ _ _ _ | note _ _ _ => cases hds

namespace Rule

variable {α β : Type} {stream : TokenStream} {rule : Rule α} {f : α → Rule β}
  {P : Nat → α → Nat → Prop} {Q : Nat → β → Nat → Prop} {i j : Nat}

/-- `P` holds of the start, the value and the end of each clean run of the rule over the stream. -/
structure Cleanly (stream : TokenStream) (rule : Rule α) (P : Nat → α → Nat → Prop) : Prop where
  orderly : Orderly rule
  post : ∀ {c s a t}, c.stream = stream → c.Proper s → Clean rule c s a t → P s.cursor a t.cursor

/-- Some uncommitted run of the rule is stuck at the cursor. -/
def Balked (stream : TokenStream) (rule : Rule α) (i : Nat) : Prop :=
  ∃ c s why t, c.stream = stream ∧ c.Proper s ∧ c.isCommitted s = false ∧ s.cursor = i ∧
    rule c s = .error why t

theorem Cleanly.mono {P' : Nat → α → Nat → Prop} (h : Cleanly stream rule P)
    (hP : ∀ i a j, P i a j → P' i a j) : Cleanly stream rule P' :=
  ⟨h.orderly, fun hstream hs hclean => hP _ _ _ (h.post hstream hs hclean)⟩

theorem Cleanly.and {P' : Nat → α → Nat → Prop} (h : Cleanly stream rule P)
    (h' : Cleanly stream rule P') : Cleanly stream rule fun i a j => P i a j ∧ P' i a j :=
  ⟨h.orderly, fun hstream hs hclean => ⟨h.post hstream hs hclean, h'.post hstream hs hclean⟩⟩

theorem Cleanly.all {ι : Type} [Nonempty ι] {P : ι → Nat → α → Nat → Prop}
    (h : ∀ x, Cleanly stream rule (P x)) : Cleanly stream rule fun i a j => ∀ x, P x i a j :=
  ⟨(h (Classical.arbitrary ι)).orderly, fun hstream hs hclean x => (h x).post hstream hs hclean⟩

/-- A run goes on within the stream. -/
theorem Cleanly.bounds (h : Cleanly stream rule P) :
    Cleanly stream rule fun i a j => i ≤ j ∧ j ≤ stream.size ∧ P i a j where
  orderly := h.orderly
  post hstream hs hclean := by
    have ht := h.orderly.onward hs hclean.ok
    exact ⟨ht.cursor_le, hstream ▸ ht.le_size, h.post hstream hs hclean⟩

theorem Cleanly.congr {plain : Rule α} (h : Cleanly stream plain P)
    (heq : ∀ c s, c.Proper s → rule c s = plain c s) : Cleanly stream rule P where
  orderly :=
    { onward := fun hs hok => h.orderly.onward hs (heq _ _ hs ▸ hok)
      completes := fun hs herr => h.orderly.completes hs (heq _ _ hs ▸ herr) }
  post hstream hs hclean := h.post hstream hs ⟨heq _ _ hs ▸ hclean.ok, hclean.diags⟩

/-! ### Sequencing -/

theorem Cleanly.pure {a : α} (h : ∀ i, i ≤ stream.size → P i a i) :
    Cleanly stream (pure a) P where
  orderly := .pure a
  post hstream hs hclean := by
    cases hclean.ok
    exact h _ (hstream ▸ hs.cursor_le)

theorem Cleanly.bind (h : Cleanly stream rule P)
    (hf : ∀ a, Cleanly stream (f a) fun k b j => ∀ i, i ≤ k → P i a k → Q i b j) :
    Cleanly stream (rule >>= f) Q where
  orderly := h.orderly.bind fun a => (hf a).orderly
  post hstream hs hclean := by
    obtain ⟨a, t, hfirst, ht, hrest⟩ := hclean.of_bind h.orderly (fun a => (hf a).orderly) hs
    exact (hf a).post hstream (ht.proper hs) hrest _ ht.cursor_le (h.post hstream hs hfirst)

theorem Cleanly.map {g : α → β} (h : Cleanly stream rule fun i a j => Q i (g a) j) :
    Cleanly stream (g <$> rule) Q := by
  rw [map_eq_pure_bind]
  exact h.bind fun a => .pure fun i _ k _ hQ => hQ

theorem cleanly_token (k : Token) :
    Cleanly stream (token k) fun i span j => j = i + 1 ∧ stream.get? i = some ⟨k, span⟩ where
  orderly := orderly_token k
  post := by
    rintro c s span t rfl _ hclean
    obtain ⟨found, rfl⟩ := hclean.of_token
    exact ⟨rfl, found⟩

theorem Cleanly.token_bind {k : Token} {f : Span → Rule β}
    (hf : ∀ span, Cleanly stream (f span) fun m b j => ∀ i, m = i + 1 →
      stream.get? i = some ⟨k, span⟩ → Q i b j) : Cleanly stream (token k >>= f) Q :=
  (cleanly_token k).bind fun span => (hf span).mono fun _ _ _ h i _ hread => h i hread.1 hread.2

theorem cleanly_satisfy (m : Matcher α) :
    Cleanly stream (satisfy m) fun i a j => j = i + 1 ∧
      ∃ u, stream.get? i = some ⟨u, a.span⟩ ∧ m.accept u = some a.node where
  orderly := orderly_satisfy m
  post := by
    rintro c s a t rfl _ hclean
    obtain ⟨u, b, found, accepted, rfl, rfl⟩ := hclean.of_satisfy
    exact ⟨rfl, u.node, found, accepted⟩

theorem Cleanly.located {P : Nat → Located α → Nat → Prop}
    (h : Cleanly stream rule fun i a j => P i ⟨a, stream.spanBetween i j⟩ j) :
    Cleanly stream (located rule) P where
  orderly := h.orderly.located
  post {c s a t} hstream hs hclean := by
    obtain ⟨hok, hspan⟩ := ok_of_located hclean.ok
    have hpost := h.post hstream hs ⟨hok, hclean.diags⟩
    rwa [← hstream, ← hspan] at hpost

/-- Looking at the next token. -/
theorem Cleanly.peek_bind {f : Option Token → Rule β}
    (hf : ∀ next, Cleanly stream (f next) fun i b j => next = stream.word i → Q i b j) :
    Cleanly stream (peek >>= f) Q := by
  have hpeek : Cleanly stream peek fun i next j => j = i ∧ next = stream.word i :=
    { orderly := orderly_look _
      post := by
        rintro c s next t rfl _ ⟨hok, -⟩
        cases hok
        exact ⟨rfl, rfl⟩ }
  refine hpeek.bind fun next => (hf next).mono ?_
  rintro k b j h i - ⟨rfl, hnext⟩
  exact h hnext

/-! ### What is read -/

section

variable {law : Law} {Y : Yield → α → Prop}

/-- A clean run yields the tokens that it reads. -/
theorem cleanly_of_reaches (law : Law) (horderly : Orderly rule)
    (h : ∀ c s a t, c.Proper s → rule c s = .ok a t → Reaches law c s t (Y · a)) :
    Cleanly stream rule fun i a j => Y ⟨(stream.slice i j).map (·.node), []⟩ a where
  orderly := horderly
  post := by
    rintro c s a t rfl hs ⟨hok, hquiet⟩
    obtain ⟨ds, ts, hdiags, hedit, -, hpost⟩ := h c s a t hs hok
    obtain rfl : ds = [] := by simpa [hquiet] using hdiags
    rw [← hedit.tokens_eq]
    exact hpost (List.forall_mem_nil _)

theorem Opens.cleanly (h : Opens law rule Y) :
    Cleanly stream rule fun i a j => Y ⟨(stream.slice i j).map (·.node), []⟩ a := by
  refine cleanly_of_reaches law h.orderly fun c s a t hs hok => ?_
  cases hc : c.isCommitted s with
  | true =>
    obtain ⟨b, u, hrule, hreach⟩ := h.completes c s hs hc
    cases hrule.symm.trans hok
    exact hreach
  | false =>
    rcases h.speculates c s hs hc with ⟨b, u, hrule, hreach, -⟩ | ⟨why, hrule⟩
    · cases hrule.symm.trans hok
      exact hreach
    · cases hrule.symm.trans hok

theorem Always.cleanly {moves : α → Prop} (h : Always law moves rule Y) :
    Cleanly stream rule fun i a j => Y ⟨(stream.slice i j).map (·.node), []⟩ a := by
  refine cleanly_of_reaches law h.orderly fun c s a t hs hok => ?_
  obtain ⟨b, u, hrule, hreach, -⟩ := h c s hs
  cases hrule.symm.trans hok
  exact hreach

end

/-! ### Optional parts and loops -/

/-- A part that is there, and one that is not because its rule is stuck. -/
theorem Cleanly.optional_bind {f : Option α → Rule β} (h : Cleanly stream rule P)
    (hsome : ∀ a, Cleanly stream (f (some a)) fun k b j => ∀ i, i ≤ k → P i a k → Q i b j)
    (hnone : Cleanly stream (f none) fun i b j => Balked stream rule i → Q i b j) :
    Cleanly stream (optional rule >>= f) Q := by
  have hf : ∀ r, Orderly (f r) := by
    rintro (_ | a)
    · exact hnone.orderly
    · exact (hsome a).orderly
  refine ⟨h.orderly.optional.bind hf, fun {c s b u} hstream hs hclean => ?_⟩
  obtain ⟨r, t, hfirst, ht, hrest⟩ := hclean.of_bind h.orderly.optional hf hs
  have hstream' : (c.speculating s).stream = stream := (c.stream_speculating s).trans hstream
  rcases optional_cases rule c s with ⟨a, v, hrule, hsome'⟩ | ⟨why, v, hrule, hnone'⟩
  · cases hsome'.symm.trans hfirst.ok
    exact (hsome a).post hstream (ht.proper hs) hrest _ ht.cursor_le
      (h.post hstream' hs.speculating ⟨hrule, hfirst.diags⟩)
  · cases hnone'.symm.trans hfirst.ok
    have hbalked : Balked stream rule s.cursor :=
      ⟨_, s, why, v, hstream', hs.speculating, Context.isCommitted_speculating hs, rfl, hrule⟩
    have hpost := hnone.post hstream (ht.proper hs) hrest
    exact hpost hbalked

/-- The rounds of a loop, of each of which `P` holds. -/
inductive EachRound (P : Nat → Option (α × Bool) → Nat → Prop) : Nat → List α → Nat → Prop
  | stop {i j : Nat} (h : P i none j) : EachRound P i [] j
  | last {i j : Nat} {a : α} (h : P i (some (a, false)) j) : EachRound P i [a] j
  | more {i k j : Nat} {a : α} {as : List α} (h : P i (some (a, true)) k)
    (rest : EachRound P k as j) : EachRound P i (a :: as) j

theorem Cleanly.collect {step : Rule (Option (α × Bool))}
    {P : Nat → Option (α × Bool) → Nat → Prop} (h : Cleanly stream step P)
    (hmoves : ∀ i a j, P i (some (a, true)) j → i < j) :
    Cleanly stream (collect step) (EachRound P) where
  orderly := h.orderly.collect
  post {c s as t} hstream hs hclean := by
    obtain ⟨hok, hdiags⟩ := hclean
    have hrounds := loopRun_of_collect hok
    clear hok
    induction hrounds with
    | stop hstep => exact .stop (h.post hstream hs ⟨hstep, hdiags⟩)
    | last hstep => exact .last (h.post hstream hs ⟨hstep, hdiags⟩)
    | stalled hstep hstalled =>
      have hmoved := hmoves _ _ _ (h.post hstream hs ⟨hstep, hdiags⟩)
      have hle := (h.orderly.onward hs hstep).le_size
      unfold Context.remaining at hstalled
      omega
    | more hstep _ hrest ih =>
      obtain ⟨hround, hquiet⟩ := hrest.quiet h.orderly hs hstep hdiags
      exact .more (h.post hstream hs ⟨hstep, hquiet⟩)
        (ih (hround.proper hs) (hdiags.trans hquiet.symm))

/-- Items one after the other, of each of which `P` holds, until the rule is stuck. -/
inductive Series (stream : TokenStream) (rule : Rule α) (P : Nat → α → Nat → Prop) :
    Nat → List α → Nat → Prop
  | nil {i : Nat} (h : Balked stream rule i) : Series stream rule P i [] i
  | cons {i k j : Nat} {a : α} {as : List α} (h : P i a k) (rest : Series stream rule P k as j) :
    Series stream rule P i (a :: as) j

theorem Series.le {as : List α} (h : Series stream rule P i as j)
    (hP : ∀ i a j, P i a j → i ≤ j) : i ≤ j := by
  induction h with
  | nil _ => exact Nat.le_refl _
  | cons ha _ ih => exact Nat.le_trans (hP _ _ _ ha) ih

theorem Cleanly.many (h : Cleanly stream rule P) (hmoves : ∀ i a j, P i a j → i < j) :
    Cleanly stream (many rule) (Series stream rule P) := by
  have hround : Cleanly stream (do return (← Rule.optional rule).map (·, true)) fun i r j =>
      r.elim (j = i ∧ Balked stream rule i) fun round => round.2 = true ∧ P i round.1 j :=
    h.optional_bind (fun a => .pure fun _ _ _ _ ha => ⟨rfl, ha⟩)
      (.pure fun _ _ hnone => ⟨rfl, hnone⟩)
  refine (hround.collect fun i a j ha => hmoves i a j ha.2).mono fun i as j hrounds => ?_
  induction hrounds with
  | stop hnone =>
    obtain ⟨rfl, hbalked⟩ := hnone
    exact .nil hbalked
  | last hlast => cases hlast.1
  | more hmore _ ih => exact .cons hmore.2 ih

/-! ### Choice -/

section

variable {rules : List (Rule α)} {c : Context} {s t : State} {a : α}

/-- The first attempt of a choice gives the value of one rule, and those before it are stuck. -/
theorem split_of_firstOf (h : ∀ r ∈ rules, Opening r) (hs : c.Proper s)
    (hok : firstOf rules c s = .ok a t) : ∃ before r after, rules = before ++ r :: after ∧
      (∀ r' ∈ before, ∃ why, r' c s = .error why s) ∧ r c s = .ok a t := by
  induction rules with
  | nil => cases hok
  | cons rule rules ih =>
    rw [List.forall_mem_cons] at h
    cases hrule : rule c s with
    | ok b u =>
      rw [firstOf, hrule] at hok
      cases hok
      exact ⟨[], rule, rules, rfl, List.forall_mem_nil _, hrule⟩
    | error why u =>
      obtain rfl := h.1.restores hs hrule
      have hrewind : u.rewind u = u := rfl
      simp only [firstOf, hrule, hrewind] at hok
      split at hok
      · next hrest =>
        cases hok
        obtain ⟨before, r, after, rfl, hbefore, hgives⟩ := ih h.2 hrest
        exact ⟨rule :: before, r, after, rfl,
          List.forall_mem_cons.2 ⟨⟨why, hrule⟩, hbefore⟩, hgives⟩
      · cases hok

/-- A clean run of a choice is one of its first attempt. -/
theorem Cleanly.alt {ends : Option Token → Prop} (hends : ends none) (hne : rules ≠ [])
    (hconfined : ∀ r ∈ rules, ConfinedOpening ends true r)
    (h : ∀ before r after, rules = before ++ r :: after → Cleanly stream r fun i a j =>
      (∀ r' ∈ before, Balked stream r' i) → P i a j) : Cleanly stream (alt rules) P where
  orderly := .alt hne fun r hr => (hconfined r hr).toOrderly
  post {c s a t} hstream hs hclean := by
    have hfirst := firstOf_of_clean_alt hends hne hconfined hs hclean
    have hstream' : (c.speculating s).stream = stream := (c.stream_speculating s).trans hstream
    obtain ⟨before, r, after, hrules, hbefore, hrule⟩ :=
      split_of_firstOf (fun r hr => (hconfined r hr).toOpening) hs.speculating hfirst
    refine (h before r after hrules).post hstream' hs.speculating ⟨hrule, hclean.diags⟩ ?_
    intro r' hr'
    obtain ⟨why, hstuck⟩ := hbefore r' hr'
    exact ⟨_, s, why, s, hstream', hs.speculating, Context.isCommitted_speculating hs, rfl, hstuck⟩

end

end Rule

end LuaSyntax
