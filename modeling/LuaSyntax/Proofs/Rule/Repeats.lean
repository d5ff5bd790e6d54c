import LuaSyntax.Proofs.Rule.Clean
import Mathlib.Data.List.Forall2
/-!
# Running a rule again

One rule repeats another if, from the same place in the same stream, it does what every clean run of
the other one did: it gives the same value, cleanly, and reads as far (`Repeats`). The mode, the
limit, the hint and what was recorded before may all differ. A rule that is tried speculatively must
also be stuck wherever the other one is (`Reopens`). Both are closed under the ways in which rules
are put together.

Some clean runs can be repeated only before certain tokens. A predicate on the next token says which
ones, and what comes after the rule has to promise them (`Heralds`).
-/

namespace LuaSyntax

namespace Context

variable {c c' : Context} {s s' t t' : State}

/-- Both runs stand at the same place in the same stream. -/
structure Beside (c : Context) (s : State) (c' : Context) (s' : State) : Prop where
  stream : c'.stream = c.stream
  cursor : s'.cursor = s.cursor
  left : c.Proper s
  right : c'.Proper s'

namespace Beside

theorem next? (h : c.Beside s c' s') : c'.next? s' = c.next? s := by
  rw [Context.next?, h.stream, h.cursor]
  rfl

theorem remaining (h : c.Beside s c' s') : c'.remaining s' = c.remaining s := by
  rw [Context.remaining, h.stream, h.cursor]
  rfl

theorem onward (h : c.Beside s c' s') (ht : c.Onward s t) (hcursor : t'.cursor = t.cursor) :
    c.Beside t c' t' where
  stream := h.stream
  cursor := hcursor
  left := ht.proper h.left
  right := h.right.of_le (by rw [hcursor, h.cursor]; exact ht.cursor_le)
    (by rw [hcursor, h.stream]; exact ht.le_size)

theorem congr (h : c.Beside s c' s') (hcursor : t.cursor = s.cursor)
    (hcursor' : t'.cursor = s'.cursor) : c.Beside t c' t' :=
  ⟨h.stream, by rw [hcursor, hcursor', h.cursor], h.left.congr hcursor, h.right.congr hcursor'⟩

theorem speculating (h : c.Beside s c' s') : (c.speculating s).Beside s (c'.speculating s') s' where
  stream := by rw [stream_speculating, stream_speculating, h.stream]
  cursor := h.cursor
  left := h.left.speculating
  right := h.right.speculating

end Beside

end Context

namespace Rule

variable {α β : Type} {rule rule' : Rule α} {f f' : α → Rule β} {c c' : Context}
  {s s' t u : State} {a : α} {b : β} {follow first mid : Option Token → Prop}

/-- The clean runs of `rule` before a token of `follow` are runs of `rule'`, too. -/
structure Repeats (follow : Option Token → Prop) (rule rule' : Rule α) : Prop where
  orderly : Orderly rule
  again : ∀ {c s c' s' a t}, c.Beside s c' s' → Clean rule c s a t →
    follow ((c.next? t).map (·.node)) → ∃ t', Clean rule' c' s' a t' ∧ t'.cursor = t.cursor

/-- Besides, uncommitted runs consume a token if they give a value, and where they are stuck, those
of `rule'` are stuck. -/
structure Reopens (follow : Option Token → Prop) (rule rule' : Rule α) : Prop extends
    Repeats follow rule rule' where
  moves : ∀ {c s a t}, c.Proper s → c.isCommitted s = false → rule c s = .ok a t →
    s.cursor < t.cursor
  stuck : ∀ {c s c' s' why t}, c.Beside s c' s' → c.isCommitted s = false →
    c'.isCommitted s' = false → rule c s = .error why t → ∃ why' t', rule' c' s' = .error why' t'

/-- Before a token of `follow`, a clean run of the rule begins at a token of `first`. -/
def Heralds (follow first : Option Token → Prop) (rule : Rule α) : Prop :=
  ∀ c s a t, c.Proper s → Clean rule c s a t → follow ((c.next? t).map (·.node)) →
    first ((c.next? s).map (·.node))

/-- Any token may come next, or none. -/
def AnyNext (_ : Option Token) : Prop := True

theorem heralds_any : Heralds follow AnyNext rule := fun _ _ _ _ _ _ _ => trivial

/-! ### Sequencing -/

theorem Repeats.pure (a : α) : Repeats follow (pure a) (pure a) where
  orderly := .pure a
  again {c s c' s' b t} hbeside hclean _ := by
    obtain ⟨hok, -⟩ := hclean
    cases hok
    exact ⟨s', ⟨rfl, rfl⟩, hbeside.cursor⟩

/-- What comes after the first rule promises the token that this rule needs. -/
theorem Repeats.bind_before (h : Repeats mid rule rule')
    (hf : ∀ a, Repeats follow (f a) (f' a)) (hmid : ∀ a, Heralds follow mid (f a)) :
    Repeats follow (rule >>= f) (rule' >>= f') where
  orderly := h.orderly.bind fun a => (hf a).orderly
  again {c s c' s' b u} hbeside hclean hfollow := by
    obtain ⟨a, t, hfirst, ht, hrest⟩ :=
      hclean.of_bind h.orderly (fun a => (hf a).orderly) hbeside.left
    obtain ⟨t', hfirst', hcursor⟩ :=
      h.again hbeside hfirst (hmid a _ _ _ _ (ht.proper hbeside.left) hrest hfollow)
    obtain ⟨u', hrest', hcursor'⟩ := (hf a).again (hbeside.onward ht hcursor) hrest hfollow
    exact ⟨u', hfirst'.bind hrest', hcursor'⟩

theorem Repeats.bind (h : Repeats AnyNext rule rule') (hf : ∀ a, Repeats follow (f a) (f' a)) :
    Repeats follow (rule >>= f) (rule' >>= f') :=
  h.bind_before hf fun _ => heralds_any

/-- What follows a rule that has consumed a token runs committed, so it is never stuck. -/
theorem Reopens.bind (h : Reopens AnyNext rule rule')
    (hf : ∀ a, Repeats follow (f a) (f' a)) : Reopens follow (rule >>= f) (rule' >>= f') where
  toRepeats := h.toRepeats.bind hf
  moves {c s b u} hs hc hok := by
    obtain ⟨a, t, hrule, hrest⟩ := ok_of_bind hok
    have hu := (hf a).orderly.onward ((h.orderly.onward hs hrule).proper hs) hrest
    exact Nat.lt_of_lt_of_le (h.moves hs hc hrule) hu.cursor_le
  stuck {c s c' s' why u} hbeside hc hc' herr := by
    rcases error_of_bind herr with hrule | ⟨a, t, hrule, hrest⟩
    · obtain ⟨why', t', herr'⟩ := h.stuck hbeside hc hc' hrule
      exact ⟨why', t', bind_of_error herr'⟩
    · have hs := hbeside.left
      exact absurd hrest
        ((hf a).orderly.not_stuck hs (h.orderly.onward hs hrule) (h.moves hs hc hrule))

/-- A rule that may do nothing, and then one that opens. -/
theorem Repeats.bind_reopens {law : Law} {moves : α → Prop} {P : Yield → α → Prop}
    (h : Repeats AnyNext rule rule') (halways : Always law moves rule P)
    (hf : ∀ a, Reopens follow (f a) (f' a)) : Reopens follow (rule >>= f) (rule' >>= f') where
  toRepeats := h.bind fun a => (hf a).toRepeats
  moves {c s b u} hs hc hok := by
    obtain ⟨a, t, hrule, hreach, -, hquiet⟩ := halways c s hs
    rw [bind_of_ok hrule] at hok
    rcases Nat.lt_or_eq_of_le hreach.le with hlt | heq
    · have hu := (hf a).orderly.onward (hreach.proper hs) hok
      exact Nat.lt_of_lt_of_le hlt hu.cursor_le
    · obtain rfl := hquiet hc heq.symm
      exact (hf a).moves hs hc hok
  stuck {c s c' s' why u} hbeside hc hc' herr := by
    have hs := hbeside.left
    obtain ⟨a, t, hrule, hreach, -, hquiet⟩ := halways c s hs
    rw [bind_of_ok hrule] at herr
    rcases Nat.lt_or_eq_of_le hreach.le with hlt | heq
    · have hcommitted := (hf a).orderly.completes (hreach.proper hs) herr
      rw [Context.isCommitted_of_lt hs hlt] at hcommitted
      cases hcommitted
    · -- nothing has happened yet, and that is a clean run
      obtain rfl := hquiet hc heq.symm
      obtain ⟨t', ⟨hrule', -⟩, hcursor⟩ := h.again hbeside ⟨hrule, rfl⟩ trivial
      have hcursor' := hcursor.trans hbeside.cursor.symm
      obtain ⟨why', u', herr'⟩ := (hf a).stuck (hbeside.congr rfl hcursor') hc
        (by rw [Context.isCommitted_congr hcursor', hc']) herr
      exact ⟨why', u', by rw [bind_of_ok hrule', herr']⟩

theorem Reopens.map (g : α → β) (h : Reopens AnyNext rule rule') :
    Reopens follow (g <$> rule) (g <$> rule') := by
  rw [map_eq_pure_bind, map_eq_pure_bind]
  exact h.bind fun a => .pure (g a)

/-- Both rules may be replaced by ones that run alike. -/
theorem Reopens.congr {plain plain' : Rule α} (h : Reopens follow plain plain')
    (heq : ∀ c s, c.Proper s → rule c s = plain c s)
    (heq' : ∀ c s, c.Proper s → rule' c s = plain' c s) : Reopens follow rule rule' where
  orderly :=
    { onward := fun hs hok => h.orderly.onward hs (heq _ _ hs ▸ hok)
      completes := fun hs herr => h.orderly.completes hs (heq _ _ hs ▸ herr) }
  again hbeside hclean hfollow := by
    obtain ⟨t', hclean', hcursor⟩ :=
      h.again hbeside ⟨heq _ _ hbeside.left ▸ hclean.ok, hclean.diags⟩ hfollow
    exact ⟨t', ⟨by rw [heq' _ _ hbeside.right, hclean'.ok], hclean'.diags⟩, hcursor⟩
  moves hs hc hok := h.moves hs hc (heq _ _ hs ▸ hok)
  stuck hbeside hc hc' herr := by
    rw [heq' _ _ hbeside.right]
    exact h.stuck hbeside hc hc' (heq _ _ hbeside.left ▸ herr)

/-! ### What comes next -/

theorem Heralds.pure (a : α) : Heralds follow follow (pure a) := by
  intro c s b t _ hclean hfollow
  obtain ⟨hok, -⟩ := hclean
  cases hok
  exact hfollow

theorem Heralds.mono {first' : Option Token → Prop} (h : Heralds follow first rule)
    (hfirst : ∀ next, first next → first' next) : Heralds follow first' rule :=
  fun c s a t hs hclean hfollow => hfirst _ (h c s a t hs hclean hfollow)

theorem Heralds.bind (h : Heralds mid first rule) (horderly : Orderly rule)
    (hf : ∀ a, Heralds follow mid (f a)) (hforderly : ∀ a, Orderly (f a)) :
    Heralds follow first (rule >>= f) := by
  intro c s b u hs hclean hfollow
  obtain ⟨a, t, hfirst, ht, hrest⟩ := hclean.of_bind horderly hforderly hs
  exact h c s a t hs hfirst (hf a c t b u (ht.proper hs) hrest hfollow)

/-- The first rule alone tells what is next. -/
theorem Heralds.bind_any (h : Heralds AnyNext first rule) (horderly : Orderly rule)
    (hforderly : ∀ a, Orderly (f a)) : Heralds follow first (rule >>= f) :=
  h.bind horderly (fun _ => heralds_any) hforderly

/-! ### Tokens -/

theorem reopens_satisfy (m : Matcher α) : Reopens follow (satisfy m) (satisfy m) where
  orderly := orderly_satisfy m
  again {c s c' s' a t} hbeside hclean _ := by
    obtain ⟨u, b, found, accepted, rfl, rfl⟩ := hclean.of_satisfy
    rw [← hbeside.next?] at found
    exact ⟨_, ⟨satisfy_of_accept found accepted, rfl⟩, congrArg (· + 1) hbeside.cursor⟩
  moves := (opens_anyhow m).lt_of_ok
  stuck {c s c' s' why t} hbeside _ hc' herr := by
    have hreject : satisfy m c' s' = supply m c' s' := by
      refine satisfy_of_not_accept fun u found => ?_
      rw [hbeside.next?] at found
      cases haccept : m.accept u.node with
      | none => rfl
      | some a =>
        rw [satisfy_of_accept found haccept] at herr
        cases herr
    exact ⟨_, _, by rw [hreject, supply_of_not_committed hc']⟩

theorem reopens_token (t : Token) : Reopens follow (token t) (token t) :=
  (reopens_satisfy (.exactly t)).bind fun a => .pure a.span

theorem reopens_keyword (k : Keyword) : Reopens follow (keyword k) (keyword k) :=
  reopens_token _

theorem reopens_symbol (k : Symbol) : Reopens follow (symbol k) (symbol k) :=
  reopens_token _

theorem reopens_name : Reopens follow name name :=
  reopens_satisfy _

theorem reopens_oneOf {ops : List (Token × α)} (hne : ops ≠ []) :
    Reopens follow (oneOf ops) (oneOf ops) := by
  cases ops with
  | nil => exact absurd rfl hne
  | cons op ops => exact reopens_satisfy (.oneOf op.1 op.2 ops)

theorem heralds_token {k : Token} (h : first (some k)) : Heralds follow first (token k) := by
  intro c s span t _ hclean _
  rwa [hclean.of_token.1]

/-! ### Rules that look at the state or record something -/

/-- A rule that looks at nothing but its place. -/
theorem repeats_look {g : TokenStream → Nat → α}
    (h : ∀ c s, rule c s = .ok (g c.stream s.cursor) s) : Repeats follow rule rule where
  orderly :=
    { onward := by
        intro c s a t hs hok
        rw [h] at hok
        cases hok
        exact .refl hs
      completes := by
        intro c s why t _ herr
        rw [h] at herr
        cases herr }
  again {c s c' s' a t} hbeside hclean _ := by
    obtain ⟨hok, -⟩ := hclean
    rw [h] at hok
    cases hok
    exact ⟨s', ⟨by rw [h, hbeside.stream, hbeside.cursor], rfl⟩, hbeside.cursor⟩

/-- What is recorded is not repeated. -/
theorem repeats_record (d : Diagnostic) : Repeats follow (record d) (record d) where
  orderly :=
    { onward := by
        intro c s a t hs hok
        cases hok
        exact (Context.Onward.refl hs).record d
      completes := by
        intro c s why t _ herr
        cases herr }
  again {c s c' s' a t} _ hclean _ := by
    obtain ⟨hok, hdiags⟩ := hclean
    cases hok
    exact absurd hdiags (List.cons_ne_self _ _)

/-- How many tokens are passed over may depend on where they stand. -/
theorem repeats_skipTokens (count : TokenStream → Nat → Nat) (expected : List Expected) :
    Repeats follow (fun c s => skipTokens (count c.stream s.cursor) expected c s)
      (fun c s => skipTokens (count c.stream s.cursor) expected c s) where
  orderly :=
    ⟨fun hs hok => (orderly_skipTokens _ _).onward hs hok,
      fun hs herr => (orderly_skipTokens _ _).completes hs herr⟩
  again {c s c' s' a t} hbeside hclean _ := by
    have hskip : Clean (skipTokens (count c.stream s.cursor) expected) c s a t :=
      ⟨hclean.ok, hclean.diags⟩
    obtain ⟨hnone, rfl⟩ := hskip.of_skipTokens
    refine ⟨s', ⟨if_pos ?_, rfl⟩, hbeside.cursor⟩
    rw [hbeside.remaining, hbeside.stream, hbeside.cursor]
    exact hnone

/-! ### Spans and optional parts -/

/-- Both runs consume the same tokens, so their spans are the same. -/
theorem Reopens.located (h : Reopens follow rule rule') :
    Reopens follow (located rule) (located rule') where
  orderly := h.orderly.located
  again {c s c' s' a t} hbeside hclean hfollow := by
    obtain ⟨hok, hspan⟩ := ok_of_located hclean.ok
    obtain ⟨t', ⟨hok', hdiags'⟩, hcursor⟩ := h.again hbeside ⟨hok, hclean.diags⟩ hfollow
    refine ⟨t', ⟨?_, hdiags'⟩, hcursor⟩
    rw [located_of_ok hok', hbeside.stream, hbeside.cursor, hcursor, ← hspan]
  moves hs hc hok := h.moves hs hc (ok_of_located hok).1
  stuck {c s c' s' why t} hbeside hc hc' herr := by
    obtain ⟨why', t', herr'⟩ := h.stuck hbeside hc hc' (error_of_located herr)
    exact ⟨why', t', located_of_error herr'⟩

theorem Reopens.optional (h : Reopens follow rule rule') :
    Repeats follow (optional rule) (optional rule') where
  orderly := h.orderly.optional
  again {c s c' s' r t} hbeside hclean hfollow := by
    obtain ⟨hok, hdiags⟩ := hclean
    have hspeculating := hbeside.speculating
    rcases optional_cases rule c s with ⟨a, u, hrule, hoptional⟩ | ⟨why, u, hrule, hoptional⟩
    · rw [hoptional] at hok
      cases hok
      obtain ⟨t', ⟨hok', hdiags'⟩, hcursor⟩ :=
        h.again hspeculating ⟨hrule, hdiags⟩ (by rwa [c.next?_speculating])
      exact ⟨t', ⟨optional_of_ok hok', hdiags'⟩, hcursor⟩
    · rw [hoptional] at hok
      cases hok
      obtain ⟨why', u', herr'⟩ := h.stuck hspeculating
        (Context.isCommitted_speculating hbeside.left)
        (Context.isCommitted_speculating hbeside.right) hrule
      have hoptional' : Rule.optional rule' c' s' = .ok none (u'.rewind s') := by
        simp only [Rule.optional, herr']
      exact ⟨_, ⟨hoptional', rfl⟩, hbeside.cursor⟩

theorem Heralds.optional (h : Heralds follow follow rule) :
    Heralds follow follow (optional rule) := by
  intro c s r t hs hclean hfollow
  obtain ⟨hok, hdiags⟩ := hclean
  rcases optional_cases rule c s with ⟨a, u, hrule, hoptional⟩ | ⟨why, u, -, hoptional⟩
  · rw [hoptional] at hok
    cases hok
    rw [← c.next?_speculating s] at hfollow ⊢
    exact h _ s a t hs.speculating ⟨hrule, hdiags⟩ hfollow
  · rw [hoptional] at hok
    cases hok
    exact hfollow

/-! ### Loops -/

section

variable {step step' : Rule (Option (α × Bool))} {as : List α}

theorem Heralds.collect (h : Heralds follow follow step) (horderly : Orderly step) :
    Heralds follow follow (collect step) := by
  intro c s as t hs hclean hfollow
  obtain ⟨hok, hdiags⟩ := hclean
  have hrounds := loopRun_of_collect hok
  clear hok
  induction hrounds with
  | stop hstep => exact h _ _ _ _ hs ⟨hstep, hdiags⟩ hfollow
  | last hstep => exact h _ _ _ _ hs ⟨hstep, hdiags⟩ hfollow
  | stalled hstep _ => exact h _ _ _ _ hs ⟨hstep, hdiags⟩ hfollow
  | more hstep _ hrest ih =>
    obtain ⟨hround, hquiet⟩ := hrest.quiet horderly hs hstep hdiags
    exact h _ _ _ _ hs ⟨hstep, hquiet⟩ (ih (hround.proper hs) hfollow (hdiags.trans hquiet.symm))

/-- Every round of a clean run is repeated, and the last one is the last again. -/
theorem Repeats.collect (h : Repeats follow step step') (hheralds : Heralds follow follow step) :
    Repeats follow (collect step) (collect step') where
  orderly := h.orderly.collect
  again {c s c' s' as t} hbeside hclean hfollow := by
    obtain ⟨hok, hdiags⟩ := hclean
    have hrounds := loopRun_of_collect hok
    clear hok
    induction hrounds generalizing s' with
    | stop hstep =>
      obtain ⟨t', hstep', hcursor⟩ := h.again hbeside ⟨hstep, hdiags⟩ hfollow
      exact ⟨t', ⟨collect_of_none hstep'.ok, hstep'.diags⟩, hcursor⟩
    | last hstep =>
      obtain ⟨t', hstep', hcursor⟩ := h.again hbeside ⟨hstep, hdiags⟩ hfollow
      exact ⟨t', ⟨collect_of_last hstep'.ok, hstep'.diags⟩, hcursor⟩
    | stalled hstep hstalled =>
      obtain ⟨t', hstep', hcursor⟩ := h.again hbeside ⟨hstep, hdiags⟩ hfollow
      have hround := hbeside.onward (h.orderly.onward hbeside.left hstep) hcursor
      have hrounds' := LoopRun.stalled hstep'.ok (by rwa [hround.remaining, hbeside.remaining])
      exact ⟨t', ⟨hrounds'.collect, hstep'.diags⟩, hcursor⟩
    | @more s u t a as hstep hmoved hrest ih =>
      obtain ⟨hround, hquiet⟩ := hrest.quiet h.orderly hbeside.left hstep hdiags
      have hproper := hround.proper hbeside.left
      have hclean : Clean (Rule.collect step) c u as t := ⟨hrest.collect, hdiags.trans hquiet.symm⟩
      obtain ⟨u', hstep', hcursor⟩ := h.again hbeside ⟨hstep, hquiet⟩
        (hheralds.collect h.orderly _ _ _ _ hproper hclean hfollow)
      have hbeside' := hbeside.onward hround hcursor
      obtain ⟨t', hrest', hcursor'⟩ := ih hbeside' hfollow hclean.diags
      have hrounds' := LoopRun.more hstep'.ok
        (by rwa [hbeside'.remaining, hbeside.remaining]) (loopRun_of_collect hrest'.ok)
      exact ⟨t', ⟨hrounds'.collect, hrest'.diags.trans hstep'.diags⟩, hcursor'⟩

end

/-- A round of a repetition. -/
theorem Heralds.round (h : Heralds follow follow rule) (horderly : Orderly rule) :
    Heralds follow follow (do return (← Rule.optional rule).map (·, true)) :=
  h.optional.bind horderly.optional (fun _ => .pure _) fun _ => .pure _

theorem Heralds.many (h : Heralds follow follow rule) (horderly : Orderly rule) :
    Heralds follow follow (many rule) :=
  (h.round horderly).collect (horderly.optional.bind fun _ => .pure _)

theorem Repeats.many (h : Reopens follow rule rule') (hheralds : Heralds follow follow rule) :
    Repeats follow (many rule) (many rule') :=
  .collect (h.optional.bind_before (fun r => .pure (r.map (·, true))) fun _ => .pure _)
    (hheralds.round h.orderly)

theorem Reopens.sepBy1 {separator separator' : Rule β} (h : Reopens AnyNext rule rule')
    (hseparator : Reopens AnyNext separator separator') :
    Reopens AnyNext (sepBy1 rule separator) (sepBy1 rule' separator') := by
  have hnext : Reopens AnyNext (do let _ ← separator; rule) (do let _ ← separator'; rule') :=
    hseparator.bind fun _ => h.toRepeats
  exact h.bind fun a => (Repeats.many hnext heralds_any).bind fun as => .pure (a :: as)

/-! ### Choice -/

section

variable {rules rules' : List (Rule α)}

/-- What the speculation of a choice does, the other one does again. -/
theorem firstOf_again (h : List.Forall₂ (Reopens follow) rules rules')
    (hbeside : c.Beside s c' s') (hc : c.isCommitted s = false) (hc' : c'.isCommitted s' = false) :
    (∀ {a t}, firstOf rules c s = .ok a t → t.diags = s.diags →
      follow ((c.next? t).map (·.node)) →
      ∃ t', firstOf rules' c' s' = .ok a t' ∧ t'.diags = s'.diags ∧ t'.cursor = t.cursor) ∧
    ∀ {failures t}, firstOf rules c s = .error failures t →
      ∃ failures' t', firstOf rules' c' s' = .error failures' t' := by
  induction h generalizing s s' with
  | nil => exact ⟨nofun, fun _ => ⟨[], s', rfl⟩⟩
  | @cons r r' rules rules' hr _ ih =>
    cases hrule : r c s with
    | ok b u =>
      refine ⟨fun hok hdiags hfollow => ?_, fun herr => ?_⟩
      · rw [firstOf, hrule] at hok
        cases hok
        obtain ⟨t', ⟨hok', hdiags'⟩, hcursor⟩ := hr.again hbeside ⟨hrule, hdiags⟩ hfollow
        exact ⟨t', by rw [firstOf, hok'], hdiags', hcursor⟩
      · rw [firstOf, hrule] at herr
        cases herr
    | error why u =>
      obtain ⟨why', u', herr'⟩ := hr.stuck hbeside hc hc' hrule
      obtain ⟨ihok, iherr⟩ := ih (hbeside.congr (u.rewind_cursor s) (u'.rewind_cursor s')) hc hc'
      refine ⟨fun hok hdiags hfollow => ?_, fun herr => ?_⟩
      · simp only [firstOf, hrule] at hok
        split at hok
        · next hrest =>
          cases hok
          obtain ⟨t', hok', hquiet⟩ := ihok hrest hdiags hfollow
          exact ⟨t', by simp only [firstOf, herr', hok'], hquiet⟩
        · cases hok
      · simp only [firstOf, hrule] at herr
        split at herr
        · cases herr
        · next hrest =>
          obtain ⟨failures', t', hfail⟩ := iherr hrest
          exact ⟨why' :: failures', t', by simp only [firstOf, herr', hfail]⟩

theorem forall_orderly (h : List.Forall₂ (Reopens follow) rules rules') :
    ∀ r ∈ rules, Orderly r := by
  induction h with
  | nil => exact nofun
  | cons hr _ ih => exact List.forall_mem_cons.2 ⟨hr.orderly, ih⟩

theorem exists_reopens (h : List.Forall₂ (Reopens follow) rules rules') {r : Rule α}
    (hr : r ∈ rules) : ∃ r', Reopens follow r r' := by
  induction h with
  | nil => cases hr
  | cons hrule _ ih =>
    rcases List.mem_cons.1 hr with rfl | hr
    · exact ⟨_, hrule⟩
    · exact ih hr

/-- Where a rule is stuck it has no clean run, not even a committed one: the rule that repeats it
would both give a value and be stuck. -/
theorem Reopens.not_clean_of_stuck (h : Reopens follow rule rule') (hbeside : c.Beside s c' s')
    {why : Stuck} {v : State} (hc' : c'.isCommitted s' = false)
    (hstuck : rule c' s' = .error why v) (hfollow : follow ((c.next? t).map (·.node))) :
    ¬ Clean rule c s a t := by
  intro hclean
  have hitself : c'.Beside s' c' s' := ⟨rfl, rfl, hbeside.right, hbeside.right⟩
  obtain ⟨why', v', hstuck'⟩ := h.stuck hitself hc' hc' hstuck
  obtain ⟨t', ⟨hok', -⟩, -⟩ := h.again hbeside hclean hfollow
  cases hok'.symm.trans hstuck'

/-- A choice that can be repeated makes no repair on a clean run. -/
theorem firstOf_of_repeated (h : List.Forall₂ (Reopens follow) rules rules') (hs : c.Proper s)
    (hclean : Clean (alt rules) c s a t) (hfollow : follow ((c.next? t).map (·.node))) :
    firstOf rules (c.speculating s) s = .ok a t := by
  refine firstOf_of_clean hclean fun r hr {u u' w w' why} hu hu' hw hrepair hstuck => ?_
  obtain ⟨r', hr'⟩ := exists_reopens h hr
  have hbeside : c.Beside u (c.speculating s) w :=
    ⟨c.stream_speculating s, hw.trans hu.symm, hs.congr hu, hs.speculating.congr hw⟩
  have hc : (c.speculating s).isCommitted w = false := by
    rw [Context.isCommitted_congr hw, Context.isCommitted_speculating hs]
  have hnext : c.next? u' = c.next? t := congrArg c.stream.get? hu'
  exact hr'.not_clean_of_stuck hbeside hc hstuck (by rwa [hnext]) hrepair

theorem Reopens.alt (hne : rules ≠ []) (h : List.Forall₂ (Reopens follow) rules rules') :
    Reopens follow (alt rules) (alt rules') where
  orderly := .alt hne (forall_orderly h)
  again {c s c' s' a t} hbeside hclean hfollow := by
    obtain ⟨t', hok', hdiags', hcursor⟩ := (firstOf_again h hbeside.speculating
      (Context.isCommitted_speculating hbeside.left)
      (Context.isCommitted_speculating hbeside.right)).1
      (firstOf_of_repeated h hbeside.left hclean hfollow) hclean.diags
      (by rwa [c.next?_speculating])
    exact ⟨t', ⟨by rw [Rule.alt, hok'], hdiags'⟩, hcursor⟩
  moves {c s a t} hs hc hok := by
    rcases alt_cases hok with hfirst | ⟨hcommitted, -⟩
    · obtain ⟨r, hr, u, hu, hrule⟩ := firstOf_progress.1 hfirst
      obtain ⟨r', hr'⟩ := exists_reopens h hr
      have hcursor : u.cursor = s.cursor := congrArg Progress.cursor hu
      rw [← hcursor]
      refine hr'.moves (hs.speculating.congr hcursor) ?_ hrule
      rw [Context.isCommitted_congr hcursor, Context.isCommitted_speculating hs]
    · rw [hc] at hcommitted
      cases hcommitted
  stuck {c s c' s' why t} hbeside _ hc' herr := by
    cases hfirst : firstOf rules (c.speculating s) s with
    | ok a u =>
      rw [Rule.alt, hfirst] at herr
      cases herr
    | error failures u =>
      obtain ⟨failures', u', hfail⟩ := (firstOf_again h hbeside.speculating
        (Context.isCommitted_speculating hbeside.left)
        (Context.isCommitted_speculating hbeside.right)).2 hfirst
      simp only [Rule.alt, hfail, hc']
      split <;> exact ⟨_, _, rfl⟩

end

end Rule

end LuaSyntax
