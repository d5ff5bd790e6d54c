import LuaSyntax.Proofs.Rule.Cleanly
import LuaSyntax.Proofs.Rule.Repeats
/-!
# Runs that are the same wherever they are made

Where a rule makes no repair, its mode, the hint and what was recorded before make no difference to
what it does: that depends on the cursor alone (`Determined`). A rule cuts items off if it reports
those that have tokens, and nothing else, provided that all of them are bracketed (`Cuts`).
-/

namespace LuaSyntax

theorem Replaced.reports_append (limit : Nat) (all : List (Located Token))
    (items items' : List Replaced) :
    reports limit all (items ++ items') = reports limit all items ++ reports limit all items' :=
  List.filterMap_append

theorem Replaced.reports_singleton (limit : Nat) (all : List (Located Token)) (item : Replaced) :
    reports limit all [item] = (reportOf limit (item.tokens all)).toList := by
  rw [reports, List.filterMap_cons]
  cases reportOf limit (item.tokens all) <;> rfl

theorem Context.Proper.of_speculating {c : Context} {s t : State} (hs : c.Proper s)
    (ht : (c.speculating s).Proper t) : c.Proper t :=
  hs.of_le (ht.start_le (mode_speculating hs)) (by simpa using ht.cursor_le)

namespace Rule

variable {α β : Type} {stream : TokenStream} {limit : Nat} {rule : Rule α} {f : α → Rule β}
  {i j k : Nat} {a : α} {b : β} {ds ds' : List Diagnostic} {items items' : List Replaced}

/-- From cursor `i` the rule always gives `a`, comes to cursor `j` and records `ds`. -/
def Determined (stream : TokenStream) (limit : Nat) (rule : Rule α) (i : Nat) (a : α) (j : Nat)
    (ds : List Diagnostic) : Prop :=
  ∀ c s, c.stream = stream → c.limit = limit → c.Proper s → s.cursor = i →
    ∃ t, rule c s = .ok a t ∧ c.Proper t ∧ t.cursor = j ∧ t.diags = ds.reverse ++ s.diags

/-- If all the items are bracketed, the rule gives `a` from cursor `i` to `j` and reports them. -/
def Cuts (stream : TokenStream) (limit : Nat) (rule : Rule α) (i : Nat) (items : List Replaced)
    (a : α) (j : Nat) : Prop :=
  (∀ r ∈ items, r.isBracketed = true) →
    Determined stream limit rule i a j (Replaced.reports limit stream.tokens.toList items)

/-! ### Determined runs -/

namespace Determined

theorem pure (a : α) (i : Nat) : Determined stream limit (pure a) i a i [] :=
  fun _ s _ _ hs hi => ⟨s, rfl, hs, hi, rfl⟩

theorem bind (h : Determined stream limit rule i a k ds)
    (hf : Determined stream limit (f a) k b j ds') :
    Determined stream limit (rule >>= f) i b j (ds ++ ds') := by
  intro c s hstream hlimit hs hi
  obtain ⟨t, hok, ht, hk, hdiags⟩ := h c s hstream hlimit hs hi
  obtain ⟨u, hok', hu, hj, hdiags'⟩ := hf c t hstream hlimit ht hk
  refine ⟨u, by rw [bind_of_ok hok, hok'], hu, hj, ?_⟩
  rw [hdiags', hdiags, List.reverse_append, List.append_assoc]

theorem map (g : α → β) (h : Determined stream limit rule i a j ds) :
    Determined stream limit (g <$> rule) i (g a) j ds := by
  intro c s hstream hlimit hs hi
  obtain ⟨t, hok, hrest⟩ := h c s hstream hlimit hs hi
  exact ⟨t, by rw [map_apply, hok], hrest⟩

theorem bind_pure (h : Determined stream limit rule i a j ds) (g : α → β) :
    Determined stream limit (rule >>= fun a => Pure.pure (g a)) i (g a) j ds := by
  have hbind : Determined stream limit (rule >>= fun a => Pure.pure (g a)) i (g a) j (ds ++ []) :=
    h.bind (pure (g a) j)
  rwa [List.append_nil] at hbind

theorem congr {plain : Rule α} (h : Determined stream limit plain i a j ds)
    (heq : ∀ c s, c.Proper s → rule c s = plain c s) : Determined stream limit rule i a j ds := by
  intro c s hstream hlimit hs hi
  rw [heq c s hs]
  exact h c s hstream hlimit hs hi

theorem satisfy {m : Matcher α} {t : Located Token} (hget : stream.get? i = some t)
    (accepted : m.accept t.node = some a) :
    Determined stream limit (satisfy m) i ⟨a, t.span⟩ (i + 1) [] := by
  rintro c s rfl _ hs rfl
  refine ⟨_, satisfy_of_accept hget accepted, hs.of_le (Nat.le_succ _) ?_, rfl, rfl⟩
  exact TokenStream.lt_size_of_get? hget

theorem token {t : Token} {span : Span} (hget : stream.get? i = some ⟨t, span⟩) :
    Determined stream limit (token t) i span (i + 1) [] := by
  have hread : Determined stream limit (Rule.satisfy (.exactly t)) i ⟨(), span⟩ (i + 1) [] :=
    satisfy hget (if_pos rfl)
  exact hread.bind (pure _ _)

theorem located (h : Determined stream limit rule i a j ds) :
    Determined stream limit (located rule) i ⟨a, stream.spanBetween i j⟩ j ds := by
  rintro c s rfl hlimit hs rfl
  obtain ⟨t, hok, ht, rfl, hdiags⟩ := h c s rfl hlimit hs rfl
  exact ⟨t, located_of_ok hok, ht, rfl, hdiags⟩

theorem optional (h : Determined stream limit rule i a j ds) :
    Determined stream limit (optional rule) i (some a) j ds := by
  intro c s hstream hlimit hs hi
  obtain ⟨t, hok, ht, hrest⟩ := h (c.speculating s) s ((c.stream_speculating s).trans hstream)
    ((c.limit_speculating s).trans hlimit) hs.speculating hi
  exact ⟨t, optional_of_ok hok, hs.of_speculating ht, hrest⟩

end Determined

theorem Refuses.determined (h : Refuses rule (stream.words i)) :
    Determined stream limit (Rule.optional rule) i none i [] := by
  rintro c s rfl _ hs rfl
  exact ⟨s, h.optional hs rfl, hs, rfl, rfl⟩

/-- A choice between rules that refuse what is ahead, one that does not, and others. -/
theorem Determined.alt {before after : List (Rule α)} (h : Determined stream limit rule i a j ds)
    (hbefore : ∀ r ∈ before, Refuses r (stream.words i)) :
    Determined stream limit (alt (before ++ rule :: after)) i a j ds := by
  intro c s hstream hlimit hs hi
  have hstream' : (c.speculating s).stream = stream := (c.stream_speculating s).trans hstream
  obtain ⟨t, hok, ht, hrest⟩ := h (c.speculating s) s hstream'
    ((c.limit_speculating s).trans hlimit) hs.speculating hi
  have hfirst : firstOf (rule :: after) (c.speculating s) s = .ok a t := by rw [firstOf, hok]
  have hahead : (c.speculating s).ahead s = stream.words i := by
    rw [Context.ahead, hstream', hi]
    rfl
  have hall : firstOf (before ++ rule :: after) (c.speculating s) s = .ok a t :=
    (firstOf_of_refused (fun r hr => hbefore r hr _ s hs.speculating
      (Context.isCommitted_speculating hs) hahead) _).2 a t hfirst
  exact ⟨t, by rw [Rule.alt, hall], hs.of_speculating ht, hrest⟩

/-- A clean run is the same from wherever it is made. -/
theorem Cleanly.again {rule' : Rule α} (h : Repeats AnyNext rule rule') :
    Cleanly stream rule fun i a j => ∀ limit, Determined stream limit rule' i a j [] where
  orderly := h.orderly
  post {c s a t} hstream hs hclean := by
    intro limit c' s' hstream' _ hs' hcursor
    have hbeside : c.Beside s c' s' := ⟨hstream'.trans hstream.symm, hcursor, hs, hs'⟩
    obtain ⟨t', ⟨hok, hdiags⟩, hcursor'⟩ := h.again hbeside hclean trivial
    have ht := hbeside.onward (h.orderly.onward hs hclean.ok) hcursor'
    exact ⟨t', hok, ht.right, hcursor', hdiags⟩

/-! ### Runs that cut items off -/

theorem Determined.cuts (h : Determined stream limit rule i a j []) :
    Cuts stream limit rule i [] a j :=
  fun _ => h

namespace Cuts

theorem pure (a : α) (i : Nat) : Cuts stream limit (pure a) i [] a i :=
  (Determined.pure a i).cuts

/-- What has an item that is not bracketed need not be cut off. -/
theorem of_bare {item : Replaced} (hmem : item ∈ items) (hbare : item.isBracketed = false) :
    Cuts stream limit rule i items a j := by
  intro hbracketed
  cases hbare.symm.trans (hbracketed item hmem)

/-- Other items, which are the same if all of them are bracketed. -/
theorem congr_items (h : Cuts stream limit rule i items a j)
    (heq : (∀ r ∈ items', r.isBracketed = true) → items' = items) :
    Cuts stream limit rule i items' a j := by
  intro hbracketed
  have hitems := heq hbracketed
  subst hitems
  exact h hbracketed

theorem bind (h : Cuts stream limit rule i items a k)
    (hf : Cuts stream limit (f a) k items' b j) :
    Cuts stream limit (rule >>= f) i (items ++ items') b j := by
  intro hbracketed
  rw [List.forall_mem_append] at hbracketed
  rw [Replaced.reports_append]
  exact (h hbracketed.1).bind (hf hbracketed.2)

/-- A run that ends with one that cuts items off. -/
theorem after (h : Determined stream limit rule i a k [])
    (hf : Cuts stream limit (f a) k items b j) : Cuts stream limit (rule >>= f) i items b j :=
  h.cuts.bind hf

theorem token_bind {t : Token} {span : Span} {f : Span → Rule β}
    (hget : stream.get? i = some ⟨t, span⟩) (hf : Cuts stream limit (f span) (i + 1) items b j) :
    Cuts stream limit (token t >>= f) i items b j :=
  after (.token hget) hf

/-- A run that begins with one that cuts items off. -/
theorem before (h : Cuts stream limit rule i items a k)
    (hf : Determined stream limit (f a) k b j []) :
    Cuts stream limit (rule >>= f) i items b j := by
  have hbind := h.bind hf.cuts
  rwa [List.append_nil] at hbind

/-- A run that cuts items off, a token after it, and then nothing more. -/
theorem before_token {t : Token} {span : Span} (h : Cuts stream limit rule i items a j)
    (hget : stream.get? j = some ⟨t, span⟩) (g : α → β) :
    Cuts stream limit (do let a ← rule; let _ ← token t; return g a) i items (g a) (j + 1) :=
  h.before ((Determined.token hget).bind_pure _)

theorem bind_pure (h : Cuts stream limit rule i items a j) (g : α → β) :
    Cuts stream limit (rule >>= fun a => Pure.pure (g a)) i items (g a) j :=
  h.before (.pure _ _)

theorem congr {plain : Rule α} (h : Cuts stream limit plain i items a j)
    (heq : ∀ c s, c.Proper s → rule c s = plain c s) : Cuts stream limit rule i items a j :=
  fun hbracketed => (h hbracketed).congr heq

theorem located (h : Cuts stream limit rule i items a j) :
    Cuts stream limit (located rule) i items ⟨a, stream.spanBetween i j⟩ j :=
  fun hbracketed => (h hbracketed).located

theorem optional (h : Cuts stream limit rule i items a j) :
    Cuts stream limit (optional rule) i items (some a) j :=
  fun hbracketed => (h hbracketed).optional

theorem alt {before after : List (Rule α)} (h : Cuts stream limit rule i items a j)
    (hbefore : ∀ r ∈ before, Refuses r (stream.words i)) :
    Cuts stream limit (alt (before ++ rule :: after)) i items a j :=
  fun hbracketed => (h hbracketed).alt hbefore

section

variable {step : Rule (Option (α × Bool))} {as : List α}

theorem collect_stop (h : Cuts stream limit step i items none j) :
    Cuts stream limit (collect step) i items [] j := by
  intro hbracketed c s hstream hlimit hs hi
  obtain ⟨t, hok, hrest⟩ := h hbracketed c s hstream hlimit hs hi
  exact ⟨t, collect_of_none hok, hrest⟩

theorem collect_last (h : Cuts stream limit step i items (some (a, false)) j) :
    Cuts stream limit (collect step) i items [a] j := by
  intro hbracketed c s hstream hlimit hs hi
  obtain ⟨t, hok, hrest⟩ := h hbracketed c s hstream hlimit hs hi
  exact ⟨t, collect_of_last hok, hrest⟩

theorem collect_more (h : Cuts stream limit step i items (some (a, true)) k) (hlt : i < k)
    (hrest : Cuts stream limit (collect step) k items' as j) :
    Cuts stream limit (collect step) i (items ++ items') (a :: as) j := by
  intro hbracketed c s hstream hlimit hs hi
  rw [List.forall_mem_append] at hbracketed
  obtain ⟨t, hok, ht, hk, hdiags⟩ := h hbracketed.1 c s hstream hlimit hs hi
  obtain ⟨u, hok', hu, hj, hdiags'⟩ := hrest hbracketed.2 c t hstream hlimit ht hk
  refine ⟨u, collect_of_more hok (by omega) ht.cursor_le hok', hu, hj, ?_⟩
  rw [hdiags', hdiags, Replaced.reports_append, List.reverse_append, List.append_assoc]

end

theorem many_nil (h : Refuses rule (stream.words i)) :
    Cuts stream limit (many rule) i [] [] i := by
  have hnone : Determined stream limit (Rule.optional rule) i none i [] := h.determined
  exact collect_stop (after hnone (pure none i))

theorem many_cons {as : List α} (h : Cuts stream limit rule i items a k) (hlt : i < k)
    (hrest : Cuts stream limit (many rule) k items' as j) :
    Cuts stream limit (many rule) i (items ++ items') (a :: as) j :=
  collect_more (h.optional.bind_pure _) hlt hrest

end Cuts

/-! ### Loops -/

section

variable {g : α → β} {itemsOf : α → List Replaced} {as : List α}

/-- From `i` to `j` a round of a loop is read, and that of another loop cuts off what is in its
value. For the last round `F` has to hold of the end. -/
def CutsRound (stream : TokenStream) (limit : Nat) (step : Rule (Option (β × Bool)))
    (F : Nat → Prop) (itemsOf : α → List Replaced) (g : α → β) (i : Nat) :
    Option (α × Bool) → Nat → Prop
  | none, j => F j → Cuts stream limit step i [] none j
  | some (a, false), j => F j → Cuts stream limit step i (itemsOf a) (some (g a, false)) j
  | some (a, true), j => i < j ∧ Cuts stream limit step i (itemsOf a) (some (g a, true)) j

/-- A loop cuts off what its rounds cut off. -/
theorem Cleanly.collect_cuts {step : Rule (Option (α × Bool))} {step' : Rule (Option (β × Bool))}
    {F : Nat → Prop} (h : Cleanly stream step (CutsRound stream limit step' F itemsOf g)) :
    Cleanly stream (Rule.collect step) fun i as j => F j →
      Cuts stream limit (Rule.collect step') i (as.flatMap itemsOf) (as.map g) j := by
  refine (h.collect fun i a j ha => ha.1).mono fun i as j hrounds hj => ?_
  induction hrounds with
  | stop hstep => exact .collect_stop (hstep hj)
  | last hstep => simpa using Cuts.collect_last (hstep hj)
  | more hstep _ ih =>
    have hloop := Cuts.collect_more hstep.2 hstep.1 (ih hj)
    simpa using hloop

/-- A repetition cuts off what its items cut off. What each item needs to be known of the cursor
where it ends is known where the next one starts. -/
theorem Cleanly.many_cuts {rule' : Rule β} {F : Nat → Prop}
    (h : Cleanly stream rule fun i a k =>
      i < k ∧ (F k → F i ∧ Cuts stream limit rule' i (itemsOf a) (g a) k))
    (hstuck : ∀ i, Balked stream rule i → Refuses rule' (stream.words i)) :
    Cleanly stream (Rule.many rule) fun i as j => F j →
      F i ∧ Cuts stream limit (Rule.many rule') i (as.flatMap itemsOf) (as.map g) j := by
  refine (h.many fun i a j ha => ha.1).mono fun i as j hseries hj => ?_
  induction hseries with
  | nil hnone => exact ⟨hj, .many_nil (hstuck _ hnone)⟩
  | cons ha _ ih =>
    obtain ⟨hk, hrest⟩ := ih hj
    obtain ⟨hi, hcuts⟩ := ha.2 hk
    exact ⟨hi, hcuts.many_cons ha.1 hrest⟩

end

end Rule

end LuaSyntax
