import LuaSyntax.Proofs.Rule.Primitive
import LuaSyntax.Proofs.Rule.Skip
/-!
# What rules read

Where the tokens ahead are as the grammar has them, a rule reads exactly those and repairs nothing
(`Reads`). It is stuck where it cannot begin (`Refuses`), and mostly one token tells (`Needs`). Both
are closed under the ways in which rules are put together.
-/

namespace LuaSyntax

namespace Context

variable {c : Context} {s s' : State} {t : Token} {ts us : List Token}

/-- The tokens from the cursor on. -/
def ahead (c : Context) (s : State) : List Token :=
  (c.stream.rest s.cursor).map (·.node)

theorem length_ahead (c : Context) (s : State) : (c.ahead s).length = c.remaining s := by
  rw [ahead, List.length_map, TokenStream.length_rest, remaining]

/-- What is ahead once the tokens `ts` have been read. -/
theorem ahead_of_read (h : c.ahead s = ts ++ us) (hcursor : s'.cursor = s.cursor + ts.length) :
    c.ahead s' = us := by
  rw [ahead, hcursor, ← TokenStream.drop_rest, List.map_drop]
  exact (congrArg (List.drop ts.length) h).trans List.drop_left

theorem getElem?_ahead (c : Context) (s : State) (i : Nat) :
    (c.ahead s)[i]? = (c.stream.get? (s.cursor + i)).map (·.node) := by
  rw [ahead, List.getElem?_map, TokenStream.rest, List.getElem?_drop, Array.getElem?_toList]
  rfl

theorem map_next? (c : Context) (s : State) : (c.next? s).map (·.node) = (c.ahead s).head? := by
  rw [ahead, List.head?_map, TokenStream.rest, List.head?_drop, Array.getElem?_toList]
  rfl

theorem exists_next? (h : c.ahead s = t :: ts) : ∃ u, c.next? s = some u ∧ u.node = t := by
  have hnext := c.map_next? s
  rw [h] at hnext
  exact Option.map_eq_some_iff.1 hnext

theorem Proper.of_read (hs : c.Proper s) (h : c.ahead s = ts ++ us)
    (hcursor : s'.cursor = s.cursor + ts.length) : c.Proper s' := by
  have hlength := c.length_ahead s
  rw [h, List.length_append, remaining] at hlength
  have hle := hs.cursor_le
  exact hs.of_le (by omega) (by omega)

theorem ahead_speculating (c : Context) (s s' : State) :
    (c.speculating s).ahead s' = c.ahead s' := by
  rw [ahead, ahead, stream_speculating]

end Context

/-- Whatever is recorded on the way from `s` to `s'` is a note. -/
def State.OnlyNotes (s s' : State) : Prop :=
  ∃ ds, s'.diags = ds ++ s.diags ∧ ∀ d ∈ ds, d.repair = .unrepaired

namespace State.OnlyNotes

variable {s s' s'' : State}

theorem refl (s : State) : s.OnlyNotes s :=
  ⟨[], rfl, by simp⟩

theorem trans (h : s.OnlyNotes s') (h' : s'.OnlyNotes s'') : s.OnlyNotes s'' := by
  obtain ⟨ds, hds, hnotes⟩ := h
  obtain ⟨es, hes, hnotes'⟩ := h'
  refine ⟨es ++ ds, by rw [hes, hds, List.append_assoc], ?_⟩
  simpa only [List.mem_append, or_imp, forall_and] using ⟨hnotes', hnotes⟩

end State.OnlyNotes

namespace Rule

variable {α β : Type}

/-- Where `ts` is ahead and `follow` holds of the token after it, the rule reads `ts`, records
nothing but notes, and gives what `post` says. -/
def Reads (rule : Rule α) (ts : List Token) (follow : Option Token → Prop) (post : α → Prop) :
    Prop :=
  ∀ c s us, c.Proper s → c.ahead s = ts ++ us → follow us.head? →
    ∃ a s', rule c s = .ok a s' ∧ post a ∧ s'.cursor = s.cursor + ts.length ∧ s.OnlyNotes s'

/-- Uncommitted runs are stuck where `ts` is all that is ahead. -/
def Refuses (rule : Rule α) (ts : List Token) : Prop :=
  ∀ c s, c.Proper s → c.isCommitted s = false → c.ahead s = ts →
    ∃ why, rule c s = .error why s

/-- The next token, if there is one, does not satisfy `p`. -/
def Without (p : Token → Bool) (next : Option Token) : Prop := ∀ t, next = some t → p t = false

/-- The rule begins only with a token that satisfies `p`. -/
def Needs (p : Token → Bool) (rule : Rule α) : Prop := ∀ ts, Without p ts.head? → Refuses rule ts

variable {rule : Rule α} {f : α → Rule β} {P : α → Prop} {Q : β → Prop} {ts us : List Token}
  {t : Token} {p q : Token → Bool} {follow follow' : Option Token → Prop}

theorem without_some (h : p t = false) : Without p (some t) := by
  rintro u ⟨⟩
  exact h

/-! ### Sequencing -/

theorem Reads.mono {P' : α → Prop} (h : Reads rule ts follow P) (hP : ∀ a, P a → P' a) :
    Reads rule ts follow P' := by
  intro c s us hs hahead hfollow
  obtain ⟨a, s', hok, ha, hrest⟩ := h c s us hs hahead hfollow
  exact ⟨a, s', hok, hP a ha, hrest⟩

theorem Reads.mono_follow (h : Reads rule ts follow P)
    (hfollow : ∀ next, follow' next → follow next) :
    Reads rule ts follow' P :=
  fun c s us hs hahead hus => h c s us hs hahead (hfollow _ hus)

theorem Reads.pure {a : α} (h : P a) : Reads (pure a) [] follow P :=
  fun _ s _ _ _ _ => ⟨a, s, rfl, h, rfl, .refl s⟩

theorem Reads.bind (h : Reads rule ts follow P) (hf : ∀ a, P a → Reads (f a) us follow' Q)
    (hfollow : ∀ vs : List Token, follow' vs.head? → follow (us ++ vs).head?) :
    Reads (rule >>= f) (ts ++ us) follow' Q := by
  intro c s vs hs hahead hvs
  rw [List.append_assoc] at hahead
  obtain ⟨a, s', hok, ha, hcursor, hnotes⟩ := h c s (us ++ vs) hs hahead (hfollow vs hvs)
  obtain ⟨b, s'', hok', hb, hcursor', hnotes'⟩ := hf a ha c s' vs (hs.of_read hahead hcursor)
    (c.ahead_of_read hahead hcursor) hvs
  refine ⟨b, s'', by rw [bind_of_ok hok, hok'], hb, ?_, hnotes.trans hnotes'⟩
  rw [hcursor', hcursor, List.length_append]
  omega

/-- What comes after does not matter to the first rule. -/
theorem Reads.bind_any (h : Reads rule ts (fun _ => True) P)
    (hf : ∀ a, P a → Reads (f a) us follow Q) : Reads (rule >>= f) (ts ++ us) follow Q :=
  h.bind hf fun _ _ => trivial

/-- The first rule ends before a token that is known. -/
theorem Reads.bind_before (h : Reads rule ts follow P) (ht : follow (some t))
    (hf : ∀ a, P a → Reads (f a) (t :: us) follow' Q) :
    Reads (rule >>= f) (ts ++ t :: us) follow' Q :=
  h.bind hf fun _ _ => ht

/-- Nothing is read after the first rule. -/
theorem Reads.bind_last (h : Reads rule ts follow P)
    (hf : ∀ a, P a → Reads (f a) [] follow Q) : Reads (rule >>= f) ts follow Q := by
  have hbind := h.bind hf fun _ hfollow => hfollow
  rwa [List.append_nil] at hbind

/-- Nothing is read before the second rule. -/
theorem Reads.bind_first (h : Reads rule [] follow P)
    (hf : ∀ a, P a → Reads (f a) ts follow' Q)
    (hfollow : ∀ vs : List Token, follow' vs.head? → follow (ts ++ vs).head?) :
    Reads (rule >>= f) ts follow' Q :=
  h.bind hf hfollow

theorem Reads.map {g : α → β} (h : Reads rule ts follow P) (hQ : ∀ a, P a → Q (g a)) :
    Reads (g <$> rule) ts follow Q := by
  intro c s us hs hahead hfollow
  obtain ⟨a, s', hok, ha, hrest⟩ := h c s us hs hahead hfollow
  exact ⟨g a, s', by rw [map_apply, hok], hQ a ha, hrest⟩

theorem Reads.located (h : Reads rule ts follow P) :
    Reads (located rule) ts follow fun a => P a.node := by
  intro c s us hs hahead hfollow
  obtain ⟨a, s', hok, ha, hrest⟩ := h c s us hs hahead hfollow
  refine ⟨⟨a, c.stream.spanBetween s.cursor s'.cursor⟩, s', ?_, ha, hrest⟩
  simp only [Rule.located, bind_apply, cursor, hok]
  rfl

theorem Refuses.bind (h : Refuses rule ts) : Refuses (rule >>= f) ts := by
  intro c s hs hc hahead
  obtain ⟨why, herr⟩ := h c s hs hc hahead
  exact ⟨why, bind_of_error herr⟩

theorem Refuses.map {g : α → β} (h : Refuses rule ts) : Refuses (g <$> rule) ts := by
  intro c s hs hc hahead
  obtain ⟨why, herr⟩ := h c s hs hc hahead
  exact ⟨why, by rw [map_apply, herr]⟩

theorem Refuses.located (h : Refuses rule ts) : Refuses (located rule) ts := by
  intro c s hs hc hahead
  obtain ⟨why, herr⟩ := h c s hs hc hahead
  exact ⟨why, by simp [Rule.located, bind_apply, cursor, herr]⟩

theorem Needs.mono (h : Needs p rule) (hpq : ∀ t, p t = true → q t = true) : Needs q rule := by
  refine fun ts hts => h ts fun t ht => Bool.eq_false_iff.2 fun hp => ?_
  have hq := hts t ht
  rw [hpq t hp] at hq
  cases hq

theorem Needs.refuses (h : Needs p rule) (hhead : ts.head? = some t) (ht : p t = false) :
    Refuses rule ts :=
  h ts (hhead ▸ without_some ht)

theorem Needs.bind (h : Needs p rule) : Needs p (rule >>= f) := fun ts hts => (h ts hts).bind

theorem Needs.map {g : α → β} (h : Needs p rule) : Needs p (g <$> rule) :=
  fun ts hts => (h ts hts).map

theorem Needs.located (h : Needs p rule) : Needs p (located rule) :=
  fun ts hts => (h ts hts).located

/-! ### Matchers -/

theorem reads_satisfy {m : Matcher α} {a : α} (h : m.accept t = some a) :
    Reads (satisfy m) [t] follow fun b => b.node = a := by
  intro c s us _ hahead _
  obtain ⟨u, found, rfl⟩ := c.exists_next? hahead
  exact ⟨_, _, satisfy_of_accept found h, rfl, rfl, .refl s⟩

theorem needs_satisfy {m : Matcher α} (h : ∀ t a, m.accept t = some a → p t = true) :
    Needs p (satisfy m) := by
  intro ts hts c s _ hc hahead
  rw [satisfy_of_not_accept, supply_of_not_committed hc]
  · exact ⟨_, rfl⟩
  · intro t found
    have hnext := c.map_next? s
    rw [found, hahead] at hnext
    have hp : p t.node = false := hts _ hnext.symm
    cases haccept : m.accept t.node with
    | none => rfl
    | some a =>
      rw [h _ _ haccept] at hp
      cases hp

theorem reads_token (t : Token) : Reads (token t) [t] follow fun _ => True :=
  (reads_satisfy (m := .exactly t) (if_pos rfl)).bind_last fun _ _ => .pure trivial

theorem needs_token (t : Token) : Needs (· == t) (token t) := by
  refine (needs_satisfy fun u a hu => ?_).bind
  simpa [Matcher.exactly] using hu

/-- A token that is told by its constructor. -/
theorem reads_token_bind {f : Span → Rule β} (h : ∀ span, Reads (f span) ts follow Q) :
    Reads (token t >>= f) (t :: ts) follow Q :=
  (reads_token t).bind_any fun span _ => h span

theorem needs_keyword (k : Keyword) : Needs (· == .keyword k) (keyword k) := needs_token _

theorem needs_symbol (s : Symbol) : Needs (· == .symbol s) (symbol s) := needs_token _

theorem reads_name (name : String) :
    Reads Rule.name [.ident name] follow fun n => n.node = name := reads_satisfy rfl

theorem reads_str (raw : String) :
    Reads Rule.str [.str raw] follow fun n => n.node = raw := reads_satisfy rfl

theorem reads_number (raw : String) :
    Reads Rule.number [.number raw] follow fun n => n.node = raw := reads_satisfy rfl

theorem reads_label (name : String) :
    Reads Rule.label [.label name] follow fun n => n.node = name := reads_satisfy rfl

theorem needs_name : Needs (· matches .ident _) Rule.name := by
  refine needs_satisfy fun t a ht => ?_
  cases t <;> simp_all [Matcher.name]

theorem needs_str : Needs (· matches .str _) Rule.str := by
  refine needs_satisfy fun t a ht => ?_
  cases t <;> simp_all [Matcher.str]

theorem needs_number : Needs (· matches .number _) Rule.number := by
  refine needs_satisfy fun t a ht => ?_
  cases t <;> simp_all [Matcher.number]

theorem needs_label : Needs (· matches .label _) Rule.label := by
  refine needs_satisfy fun t a ht => ?_
  cases t <;> simp_all [Matcher.label]

/-- A table is read by its first entry for the token. -/
theorem reads_oneOf {ops : List (Token × α)} {a : α} (h : ops.lookup t = some a) :
    Reads (oneOf ops) [t] follow fun b => b.node = a := by
  cases ops with
  | nil => cases h
  | cons op ops => exact reads_satisfy (m := .oneOf op.1 op.2 ops) h

theorem needs_oneOf (ops : List (Token × α)) :
    Needs (fun t => (ops.lookup t).isSome) (oneOf ops) := by
  cases ops with
  | nil => exact fun _ _ c s _ _ _ => ⟨_, rfl⟩
  | cons op ops =>
    refine needs_satisfy fun t a ht => ?_
    have ht : (op :: ops).lookup t = some a := ht
    simp [ht]

/-! ### Optional parts and loops -/

theorem Reads.optional (h : Reads rule ts follow P) :
    Reads (optional rule) ts follow fun r => ∃ a, r = some a ∧ P a := by
  intro c s us hs hahead hfollow
  obtain ⟨a, s', hok, ha, hrest⟩ :=
    h (c.speculating s) s us hs.speculating (by rwa [c.ahead_speculating]) hfollow
  exact ⟨some a, s', by simp [Rule.optional, hok], ⟨a, rfl, ha⟩, hrest⟩

/-- An optional part that is not there leaves the state as it is. -/
theorem Refuses.optional (h : Refuses rule ts) {c : Context} {s : State} (hs : c.Proper s)
    (hahead : c.ahead s = ts) : Rule.optional rule c s = .ok none s := by
  obtain ⟨why, herr⟩ := h (c.speculating s) s hs.speculating (Context.isCommitted_speculating hs)
    (by rwa [c.ahead_speculating])
  simp [Rule.optional, herr, State.rewind]

theorem Needs.optional (h : Needs p rule) :
    Reads (optional rule) [] (Without p) (· = none) :=
  fun _ s us hs hahead hfollow => ⟨none, s, (h us hfollow).optional hs hahead, rfl, rfl, .refl s⟩

section

variable {step : Rule (Option (α × Bool))} {R : List α → Prop}

theorem Reads.collect_none (h : Reads step ts follow (· = none)) :
    Reads (collect step) ts follow (· = []) := by
  intro c s us hs hahead hfollow
  obtain ⟨_, s', hok, rfl, hrest⟩ := h c s us hs hahead hfollow
  exact ⟨[], s', collect_of_none hok, rfl, hrest⟩

theorem Reads.collect_last (h : Reads step ts follow fun r => ∃ a, r = some (a, false) ∧ P a) :
    Reads (collect step) ts follow fun as => ∃ a, as = [a] ∧ P a := by
  intro c s us hs hahead hfollow
  obtain ⟨_, s', hok, ⟨a, rfl, ha⟩, hrest⟩ := h c s us hs hahead hfollow
  exact ⟨[a], s', collect_of_last hok, ⟨a, rfl, ha⟩, hrest⟩

/-- One round of a loop, which reads at least one token, and then the others. -/
theorem Reads.collect_more (hne : ts ≠ [])
    (h : Reads step ts follow fun r => ∃ a, r = some (a, true) ∧ P a)
    (hrest : Reads (collect step) us follow' R)
    (hfollow : ∀ vs : List Token, follow' vs.head? → follow (us ++ vs).head?) :
    Reads (collect step) (ts ++ us) follow' fun as => ∃ a bs, as = a :: bs ∧ P a ∧ R bs := by
  intro c s vs hs hahead hvs
  rw [List.append_assoc] at hahead
  obtain ⟨_, s', hok, ⟨a, rfl, ha⟩, hcursor, hnotes⟩ := h c s (us ++ vs) hs hahead (hfollow vs hvs)
  have hs' := hs.of_read hahead hcursor
  obtain ⟨bs, s'', hok', hbs, hcursor', hnotes'⟩ :=
    hrest c s' vs hs' (c.ahead_of_read hahead hcursor) hvs
  have hpos := List.length_pos_iff.2 hne
  refine ⟨a :: bs, s'', collect_of_more hok (by omega) hs'.cursor_le hok',
    ⟨a, bs, rfl, ha, hbs⟩, ?_, hnotes.trans hnotes'⟩
  rw [hcursor', hcursor, List.length_append]
  omega

/-- One round of a loop, and then the others together with what is made of them all. -/
theorem Reads.collect_more_bind {k : List α → Rule β} (hne : ts ≠ [])
    (h : Reads step ts follow fun r => ∃ a, r = some (a, true) ∧ P a)
    (hrest : ∀ a, P a → Reads (do let as ← collect step; k (a :: as)) us follow' Q)
    (hfollow : ∀ vs : List Token, follow' vs.head? → follow (us ++ vs).head?) :
    Reads (do let as ← collect step; k as) (ts ++ us) follow' Q := by
  intro c s vs hs hahead hvs
  rw [List.append_assoc] at hahead
  obtain ⟨_, s', hok, ⟨a, rfl, ha⟩, hcursor, hnotes⟩ := h c s (us ++ vs) hs hahead (hfollow vs hvs)
  have hs' := hs.of_read hahead hcursor
  obtain ⟨b, s'', hok', hb, hcursor', hnotes'⟩ :=
    hrest a ha c s' vs hs' (c.ahead_of_read hahead hcursor) hvs
  have hpos := List.length_pos_iff.2 hne
  have hlength : s''.cursor = s.cursor + (ts ++ us).length := by
    rw [hcursor', hcursor, List.length_append]
    omega
  cases hloop : collect step c s' with
  | ok as t =>
    have hrun := collect_of_more hok (by omega) hs'.cursor_le hloop
    exact ⟨b, s'', (bind_of_ok hrun).trans ((bind_of_ok hloop).symm.trans hok'), hb, hlength,
      hnotes.trans hnotes'⟩
  | error why t => cases (bind_of_error hloop).symm.trans hok'

end

theorem Needs.many (h : Needs p rule) : Reads (many rule) [] (Without p) (· = []) := by
  refine Reads.collect_none (h.optional.bind_last ?_)
  rintro _ rfl
  exact .pure rfl

theorem Reads.many_cons {R : List α → Prop} (hne : ts ≠ []) (h : Reads rule ts follow P)
    (hrest : Reads (many rule) us follow' R)
    (hfollow : ∀ vs : List Token, follow' vs.head? → follow (us ++ vs).head?) :
    Reads (many rule) (ts ++ us) follow' fun as => ∃ a bs, as = a :: bs ∧ P a ∧ R bs := by
  refine Reads.collect_more hne (h.optional.bind_last ?_) hrest hfollow
  rintro _ ⟨a, rfl, ha⟩
  exact .pure ⟨a, rfl, ha⟩

/-! ### Choice -/

theorem firstOf_of_refused {rules : List (Rule α)} {c : Context} {s : State}
    (h : ∀ r ∈ rules, ∃ why, r c s = .error why s) (others : List (Rule α)) :
    (∃ failures, firstOf rules c s = .error failures s) ∧
      ∀ a s', firstOf others c s = .ok a s' → firstOf (rules ++ others) c s = .ok a s' := by
  induction rules with
  | nil => exact ⟨⟨[], rfl⟩, fun _ _ hok => hok⟩
  | cons rule rules ih =>
    rw [List.forall_mem_cons] at h
    obtain ⟨⟨why, herr⟩, hrules⟩ := h
    obtain ⟨⟨failures, hfail⟩, hothers⟩ := ih hrules
    exact ⟨⟨why :: failures, firstOf_cons_error herr hfail⟩, fun a s' hok =>
      firstOf_cons_ok herr (hothers a s' hok)⟩

/-- A choice reads what one of its rules reads, if all those before it refuse. -/
theorem Reads.alt (before : List (Rule α)) {after : List (Rule α)} (h : Reads rule ts follow P)
    (hbefore : ∀ us : List Token, follow us.head? → ∀ r ∈ before, Refuses r (ts ++ us)) :
    Reads (alt (before ++ rule :: after)) ts follow P := by
  intro c s us hs hahead hfollow
  obtain ⟨a, s', hok, ha, hrest⟩ :=
    h (c.speculating s) s us hs.speculating (by rwa [c.ahead_speculating]) hfollow
  have hrefused : ∀ r ∈ before, ∃ why, r (c.speculating s) s = .error why s := fun r hr =>
    hbefore us hfollow r hr _ s hs.speculating (Context.isCommitted_speculating hs)
      (by rwa [c.ahead_speculating])
  have hfirst : firstOf (rule :: after) (c.speculating s) s = .ok a s' := by rw [firstOf, hok]
  exact ⟨a, s', by rw [Rule.alt, (firstOf_of_refused hrefused _).2 a s' hfirst], ha, hrest⟩

theorem Refuses.alt {rules : List (Rule α)} (h : ∀ r ∈ rules, Refuses r ts) :
    Refuses (alt rules) ts := by
  intro c s hs hc hahead
  have hrefused : ∀ r ∈ rules, ∃ why, r (c.speculating s) s = .error why s := fun r hr =>
    h r hr _ s hs.speculating (Context.isCommitted_speculating hs) (by rwa [c.ahead_speculating])
  obtain ⟨failures, hfail⟩ := (firstOf_of_refused hrefused []).1
  rw [Rule.alt, hfail]
  dsimp only
  split
  · rw [hc]
    exact ⟨_, rfl⟩
  · exact ⟨_, rfl⟩

theorem Needs.alt {rules : List (Rule α)} (h : ∀ r ∈ rules, Needs p r) : Needs p (alt rules) :=
  fun ts hts => .alt fun r hr => h r hr ts hts

/-- The alternatives of a choice, each with the tokens that it begins with. -/
def Guarded (table : List ((Token → Bool) × Rule α)) : Prop :=
  ∀ entry ∈ table, Needs entry.1 entry.2

theorem Guarded.needs {table : List ((Token → Bool) × Rule α)} (h : Guarded table) :
    Needs (fun t => table.any (·.1 t)) (Rule.alt (table.map (·.2))) := by
  intro ts hts
  refine .alt fun r hr => ?_
  obtain ⟨entry, hentry, rfl⟩ := List.mem_map.1 hr
  refine h entry hentry ts fun t ht => ?_
  simpa using (List.any_eq_false.1 (hts t ht)) entry hentry

/-- The next token tells which alternative reads on. -/
theorem Guarded.reads {table : List ((Token → Bool) × Rule α)} (h : Guarded table)
    (hhead : ts.head? = some t) (hfind : table.find? (·.1 t) = some (p, rule))
    (hrule : Reads rule ts follow P) : Reads (Rule.alt (table.map (·.2))) ts follow P := by
  obtain ⟨-, before, after, rfl, hbefore⟩ := List.find?_eq_some_iff_append.1 hfind
  rw [List.map_append, List.map_cons]
  refine .alt _ hrule fun us _ r hr => ?_
  obtain ⟨entry, hentry, rfl⟩ := List.mem_map.1 hr
  refine h entry (List.mem_append_left _ hentry) _ fun u hu => ?_
  rw [List.head?_append, hhead] at hu
  cases hu
  simpa using hbefore entry hentry

/-! ### Running a rule -/

/-- A run over tokens that the rule reads to the end leaves nothing but notes. -/
theorem Reads.run {stream : TokenStream} (h : Reads rule ts (· = none) P)
    (hstream : stream.tokens.toList.map (·.node) = ts) (limit : Nat) (fallback : α) :
    ∃ a ds, rule.run stream limit fallback = (a, ds) ∧ P a ∧ ∀ d ∈ ds, d.repair = .unrepaired := by
  have hahead : (start stream limit).ahead initial = ts := by
    rw [Context.ahead, ← hstream]
    rfl
  obtain ⟨a, s, hok, ha, hcursor, ds, hds, hnotes⟩ :=
    h (start stream limit) initial [] (proper_start _ _) (by rwa [List.append_nil]) rfl
  have hnext : (start stream limit).next? s = none := by
    have hrest : (start stream limit).ahead s = [] :=
      Context.ahead_of_read (by rwa [List.append_nil]) hcursor
    have hmap := (start stream limit).map_next? s
    rw [hrest] at hmap
    exact Option.map_eq_none_iff.1 hmap
  have hend : endOfInput (start stream limit) s = .ok () s := if_pos (by rw [hnext]; rfl)
  refine ⟨a, s.diags.reverse, ?_, ha, ?_⟩
  · simp only [Rule.run, hok, hend]
  · intro d hd
    rw [hds, List.mem_reverse] at hd
    exact hnotes d (by simpa [initial] using hd)

end Rule

end LuaSyntax
