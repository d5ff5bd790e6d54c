import LuaSyntax.Proofs.Rule.Discipline
/-!
# The discipline of the primitive rules

Matchers open and yield the token that they accept. Alternatives that open make a choice that opens.
Optional parts and loops always give a value, provided that what they repeat opens.
-/

namespace LuaSyntax.Rule

variable {α β : Type} {law : Law} {P : Yield → α → Prop} {c : Context} {s : State}

/-! ### Matchers -/

theorem satisfy_of_accept {m : Matcher α} {t : Located Token} {a : α} (found : c.next? s = some t)
    (accepted : m.accept t.node = some a) : satisfy m c s = .ok ⟨a, t.span⟩ (s.advance 1) := by
  simp [satisfy, found, accepted]

theorem satisfy_of_not_accept {m : Matcher α}
    (rejected : ∀ t, c.next? s = some t → m.accept t.node = none) :
    satisfy m c s = supply m c s := by
  unfold satisfy
  cases found : c.next? s with
  | none => rfl
  | some t => simp [rejected t found]

theorem supply_of_not_committed {m : Matcher α} (h : c.isCommitted s = false) :
    supply m c s = .error ⟨[m.expected], m.repair.insertionCost⟩ s := by
  simp [supply, h]

theorem start_insertion (m : Matcher α) (c : Context) (s : State) :
    (insertion m c s).span.start = c.pos s := by
  unfold insertion Context.pos TokenStream.pos Context.next?
  cases c.stream.get? s.cursor <;> rfl

theorem lt_advance (s : State) : s.cursor < (s.advance 1).cursor :=
  Nat.lt_succ_self _

theorem accept_or_reject (m : Matcher α) (c : Context) (s : State) :
    (∃ t a, c.next? s = some t ∧ m.accept t.node = some a) ∨ satisfy m c s = supply m c s := by
  by_cases haccept : ∃ t a, c.next? s = some t ∧ m.accept t.node = some a
  · exact .inl haccept
  · refine .inr (satisfy_of_not_accept fun t found => ?_)
    cases haccepted : m.accept t.node with
    | none => rfl
    | some a => exact absurd ⟨t, a, found, haccepted⟩ haccept

/-- A matcher yields one token that it accepts. -/
theorem speculates_satisfy (m : Matcher α) :
    Speculates law (satisfy m) fun y a => ∃ t, y = .token t ∧ m.accept t = some a.node := by
  intro c s _ hc
  rcases accept_or_reject m c s with ⟨t, a, found, accepted⟩ | hsupply
  · exact .inl ⟨_, _, satisfy_of_accept found accepted, .advance found ⟨_, rfl, accepted⟩,
      lt_advance s⟩
  · exact .inr ⟨_, by rw [hsupply, supply_of_not_committed hc]⟩

theorem opens_satisfy {m : Matcher α} (insertable : law.insertable m.repair) :
    Opens law (satisfy m) fun y a => ∃ t, y = .token t ∧ m.accept t = some a.node := by
  refine ⟨fun c s _ hc => ?_, speculates_satisfy m⟩
  rcases accept_or_reject m c s with ⟨t, a, found, accepted⟩ | hsupply
  · exact ⟨_, _, satisfy_of_accept found accepted, .advance found ⟨_, rfl, accepted⟩⟩
  · refine ⟨⟨m.value, .point (c.pos s)⟩, _, by rw [hsupply, supply, if_pos hc], ?_⟩
    exact .of_insert rfl (start_insertion m c s) insertable rfl rfl
      fun _ => ⟨_, rfl, m.accept_repair⟩

theorem eq_token_of_exactly {t : Token} {y : Yield} {a : Unit}
    (h : ∃ u, y = .token u ∧ (Matcher.exactly t).accept u = some a) : y = .token t := by
  obtain ⟨u, rfl, hu⟩ := h
  have hu : u = t := by simpa [Matcher.exactly] using hu
  rw [hu]

theorem speculates_token (t : Token) : Speculates law (token t) fun y _ => y = .token t := by
  refine (speculates_satisfy (.exactly t)).bind fun a => .pure fun y hy => ?_
  rw [Yield.append_empty, eq_token_of_exactly hy]

theorem opens_token {t : Token} (insertable : law.insertable t) :
    Opens law (token t) fun y _ => y = .token t := by
  refine ⟨(opens_satisfy (m := .exactly t) insertable).completes.bind fun a =>
    .pure fun y hy => ?_, speculates_token t⟩
  rw [Yield.append_empty, eq_token_of_exactly hy]

theorem opens_oneOf {t : Token} {a : α} {others : List (Token × α)}
    (insertable : law.insertable t) :
    Opens law (oneOf ((t, a) :: others)) fun y b =>
      ∃ u, y = .token u ∧ (u, b.node) ∈ (t, a) :: others := by
  refine (opens_satisfy (m := .oneOf t a others) insertable).mono ?_
  rintro y b ⟨u, rfl, hu⟩
  obtain ⟨before, after, hsplit, -⟩ := List.lookup_eq_some_iff.1 hu
  exact ⟨u, rfl, by simp [hsplit]⟩

theorem opens_name (insertable : law.insertable (.ident "someVariable")) :
    Opens law name fun y a => y = .token (.ident a.node) := by
  refine (opens_satisfy (m := .name) insertable).mono ?_
  rintro y a ⟨t, rfl, ht⟩
  cases t <;> simp_all [Matcher.name]

theorem opens_str (insertable : law.insertable (.str "\"someString\"")) :
    Opens law str fun y a => y = .token (.str a.node) := by
  refine (opens_satisfy (m := .str) insertable).mono ?_
  rintro y a ⟨t, rfl, ht⟩
  cases t <;> simp_all [Matcher.str]

theorem opens_number (insertable : law.insertable (.number "0")) :
    Opens law number fun y a => y = .token (.number a.node) := by
  refine (opens_satisfy (m := .number) insertable).mono ?_
  rintro y a ⟨t, rfl, ht⟩
  cases t <;> simp_all [Matcher.number]

theorem opens_label (insertable : law.insertable (.label "someLabel")) :
    Opens law label fun y a => y = .token (.label a.node) := by
  refine (opens_satisfy (m := .label) insertable).mono ?_
  rintro y a ⟨t, rfl, ht⟩
  cases t <;> simp_all [Matcher.label]

/-! ### State -/

theorem completes_of_ok {rule : Rule α} {g : Context → State → α}
    (hok : ∀ c s, rule c s = .ok (g c s) s) (h : ∀ a, P .empty a) : Completes law rule P :=
  fun c s _ _ => ⟨g c s, s, hok c s, .refl (h _)⟩

theorem located_of_ok {rule : Rule α} {a : α} {s' : State} (h : rule c s = .ok a s') :
    located rule c s = .ok ⟨a, c.stream.spanBetween s.cursor s'.cursor⟩ s' := by
  simp [located, bind_apply, map_apply, h, cursor, spanFrom]

theorem located_of_error {rule : Rule α} {why : Stuck} {s' : State}
    (h : rule c s = .error why s') : located rule c s = .error why s' := by
  simp [located, bind_apply, h, cursor]

theorem Completes.located {rule : Rule α} (h : Completes law rule P) :
    Completes law (located rule) fun y a => P y a.node := by
  intro c s hs hc
  obtain ⟨a, s', hok, hreach⟩ := h c s hs hc
  exact ⟨_, s', located_of_ok hok, hreach⟩

theorem Speculates.located {rule : Rule α} (h : Speculates law rule P) :
    Speculates law (located rule) fun y a => P y a.node := by
  intro c s hs hc
  rcases h c s hs hc with ⟨a, s', hok, hreach, hlt⟩ | ⟨why, herr⟩
  · exact .inl ⟨_, s', located_of_ok hok, hreach, hlt⟩
  · exact .inr ⟨why, located_of_error herr⟩

theorem Opens.located {rule : Rule α} (h : Opens law rule P) :
    Opens law (located rule) fun y a => P y a.node :=
  ⟨h.completes.located, h.speculates.located⟩

/-! ### Optional parts -/

theorem optional_of_ok {rule : Rule α} {a : α} {s' : State}
    (h : rule (c.speculating s) s = .ok a s') : optional rule c s = .ok (some a) s' := by
  simp [optional, h]

theorem optional_of_error {rule : Rule α} {why : Stuck}
    (h : rule (c.speculating s) s = .error why s) : optional rule c s = .ok none s := by
  simp [optional, h, State.rewind]

/-- What an optional rule does: it is stuck and leaves the state as it was, or it consumes a token.
-/
theorem Speculates.optional {rule : Rule α} (h : Speculates law rule P) (hs : c.Proper s) :
    Rule.optional rule c s = .ok none s ∨
      ∃ a s', Rule.optional rule c s = .ok (some a) s' ∧ Reaches law c s s' (P · a) ∧
        s.cursor < s'.cursor := by
  rcases h _ s hs.speculating (Context.isCommitted_speculating hs) with
    ⟨a, s', hok, hreach, hlt⟩ | ⟨why, herr⟩
  · exact .inr ⟨a, s', optional_of_ok hok, hreach.of_stream (c.stream_speculating s), hlt⟩
  · exact .inl (optional_of_error herr)

/-- What follows an optional part runs committed if the part is there. -/
theorem Speculates.optional_bind {rule : Rule α} {f : Option α → Rule β} {Q : Yield → β → Prop}
    {moves : β → Prop} (h : Speculates law rule P) (hnone : Always law moves (f none) Q)
    (hsome : ∀ a, Completes law (f (some a)) fun z b => ∀ y, P y a → Q (y ++ z) b) :
    Always law moves (Rule.optional rule >>= f) Q := by
  intro c s hs
  rcases h.optional hs with hok | ⟨a, s', hok, hreach, hlt⟩
  · obtain ⟨b, s', hok', hrest⟩ := hnone c s hs
    exact ⟨b, s', by rw [bind_of_ok hok, hok'], hrest⟩
  · obtain ⟨b, s'', hok', hreach'⟩ :=
      hsome a c s' (hreach.proper hs) (Context.isCommitted_of_lt hs hlt)
    have hlt' : s.cursor < s''.cursor := Nat.lt_of_lt_of_le hlt hreach'.le
    exact ⟨b, s'', by rw [bind_of_ok hok, hok'], hreach.trans hreach' fun y z hy hz => hz y hy,
      fun _ => hlt', fun _ hcursor => by omega⟩

/-- What an optional part yields. -/
def Maybe (P : Yield → α → Prop) (y : Yield) : Option α → Prop
  | none => y = .empty
  | some a => P y a

/-- An optional part whose value does not matter further on. -/
theorem Speculates.always_optional {rule : Rule α} (h : Speculates law rule P) :
    Always law (fun r => r.isSome = true) (Rule.optional rule) (Maybe P) := by
  intro c s hs
  rcases h.optional hs with hok | ⟨a, s', hok, hreach, hlt⟩
  · exact ⟨none, s, hok, .refl rfl, nofun, fun _ _ => rfl⟩
  · exact ⟨some a, s', hok, hreach, fun _ => hlt, fun _ hcursor => by omega⟩

/-! ### Loops -/

/-- What a loop yields whose rounds yield what `P` says. -/
inductive Loop (P : Yield → Option (α × Bool) → Prop) : Yield → List α → Prop
  | stop {y : Yield} (h : P y none) : Loop P y []
  | last {y : Yield} {a : α} (h : P y (some (a, false))) : Loop P y [a]
  | more {y z : Yield} {a : α} {as : List α} (h : P y (some (a, true))) (rest : Loop P z as) :
    Loop P (y ++ z) (a :: as)

theorem collect_of_none {step : Rule (Option (α × Bool))} {s' : State}
    (h : step c s = .ok none s') : collect step c s = .ok [] s' := by
  rw [collect, h]

theorem collect_of_last {step : Rule (Option (α × Bool))} {s' : State} {a : α}
    (h : step c s = .ok (some (a, false)) s') : collect step c s = .ok [a] s' := by
  rw [collect, h]

theorem collect_of_more {step : Rule (Option (α × Bool))} {s' s'' : State} {a : α} {as : List α}
    (h : step c s = .ok (some (a, true)) s') (hlt : s.cursor < s'.cursor)
    (hsize : s'.cursor ≤ c.stream.size) (hrest : collect step c s' = .ok as s'') :
    collect step c s = .ok (a :: as) s'' := by
  have hremaining : c.remaining s' < c.remaining s := by
    unfold Context.remaining
    omega
  rw [collect, h]
  simp only [if_pos hremaining, hrest]

/-- A loop whose every round consumes a token goes through all of its rounds. -/
theorem Always.collect {step : Rule (Option (α × Bool))} {P : Yield → Option (α × Bool) → Prop}
    (h : Always law (fun r => r.isSome = true) step P) :
    Always law (fun _ => False) (Rule.collect step) (Loop P) := by
  intro c s hs
  induction hn : c.remaining s using Nat.strongRecOn generalizing s with
  | ind n ih =>
    obtain ⟨r, s', hok, hreach, hmoves, hquiet⟩ := h c s hs
    match r with
    | none =>
      exact ⟨[], s', collect_of_none hok, hreach.mono fun y => .stop, nofun, hquiet⟩
    | some (a, false) =>
      exact ⟨[a], s', collect_of_last hok, hreach.mono fun y => .last, nofun, hquiet⟩
    | some (a, true) =>
      have hlt : s.cursor < s'.cursor := hmoves rfl
      have hs' := hreach.proper hs
      have hremaining : c.remaining s' < n := by
        have := hs'.cursor_le
        unfold Context.remaining at hn ⊢
        omega
      obtain ⟨as, s'', hok', hreach', -, -⟩ := ih _ hremaining s' hs' rfl
      have hle := hreach'.le
      exact ⟨a :: as, s'', collect_of_more hok hlt hs'.cursor_le hok',
        hreach.trans hreach' fun y z => .more, nofun, fun _ hcursor => by omega⟩

/-- What a repetition yields whose items yield what `P` says. -/
inductive Repeated (P : Yield → α → Prop) : Yield → List α → Prop
  | nil : Repeated P .empty []
  | cons {y z : Yield} {a : α} {as : List α} (h : P y a) (rest : Repeated P z as) :
    Repeated P (y ++ z) (a :: as)

theorem Loop.repeated {R : Yield → Option (α × Bool) → Prop} (hnone : ∀ y, R y none → y = .empty)
    (hsome : ∀ y a more, R y (some (a, more)) → P y a) {y : Yield} {as : List α}
    (h : Loop R y as) : Repeated P y as := by
  induction h with
  | stop h =>
    rw [hnone _ h]
    exact .nil
  | last h => simpa using Repeated.cons (hsome _ _ _ h) .nil
  | more h _ ih => exact .cons (hsome _ _ _ h) ih

theorem Speculates.many {rule : Rule α} (h : Speculates law rule P) :
    Always law (fun _ => False) (Rule.many rule) (Repeated P) := by
  have hstep : Always law (fun r => r.isSome = true)
      (do return (← Rule.optional rule).map (·, true)) fun y r =>
        match r with
        | none => y = .empty
        | some (a, _) => P y a := by
    refine h.optional_bind (.pure nofun rfl) fun a => .pure fun y hy => ?_
    simpa using hy
  exact hstep.collect.mono fun y as hloop =>
    hloop.repeated (fun _ h => h) (fun _ _ _ h => h)

/-- One or more items with the token `t` between them. -/
inductive Separated (t : Token) (P : Yield → α → Prop) : Yield → List α → Prop
  | one {y : Yield} {a : α} (h : P y a) : Separated t P y [a]
  | more {y z : Yield} {a : α} {as : List α} (h : P y a) (rest : Separated t P z as) :
    Separated t P (y ++ (.token t ++ z)) (a :: as)

theorem Separated.of_repeated {t : Token} {y z : Yield} {a : α} {as : List α} (h : P y a)
    (hrest : Repeated (fun z b => ∃ y, z = .token t ++ y ∧ P y b) z as) :
    Separated t P (y ++ z) (a :: as) := by
  induction hrest generalizing y a with
  | nil => simpa using Separated.one h
  | cons hitem _ ih =>
    obtain ⟨w, rfl, hw⟩ := hitem
    exact .more h (ih hw)

theorem Opens.sepBy1 {item : Rule α} {separator : Rule β} {t : Token} (h : Opens law item P)
    (hseparator : Opens law separator fun y _ => y = .token t) :
    Opens law (Rule.sepBy1 item separator) (Separated t P) := by
  have hmore : Opens law (do let _ ← separator; item) fun z b =>
      ∃ y, z = .token t ++ y ∧ P y b :=
    hseparator.bind fun _ => h.completes.mono fun z b hz y hy => ⟨z, by rw [hy], hz⟩
  refine h.bind fun a => hmore.speculates.many.completes.bind fun as => .pure ?_
  intro z hz y hy
  simpa using Separated.of_repeated hy hz

/-! ### Choice -/

theorem firstOf_cons_ok {rule : Rule α} {rules : List (Rule α)} {why : Stuck} {a : α} {s' : State}
    (hrefused : rule c s = .error why s) (hok : firstOf rules c s = .ok a s') :
    firstOf (rule :: rules) c s = .ok a s' := by
  have hrewind : firstOf rules c (s.rewind s) = .ok a s' := hok
  simp only [firstOf, hrefused, hrewind]

theorem firstOf_cons_error {rule : Rule α} {rules : List (Rule α)} {why : Stuck}
    {failures : List Stuck} {s' : State} (hrefused : rule c s = .error why s)
    (herr : firstOf rules c s = .error failures s') :
    firstOf (rule :: rules) c s = .error (why :: failures) s' := by
  have hrewind : firstOf rules c (s.rewind s) = .error failures s' := herr
  simp only [firstOf, hrefused, hrewind]

theorem firstOf_spec {rules : List (Rule α)} (h : ∀ r ∈ rules, Speculates law r P) (hs : c.Proper s)
    (hc : c.isCommitted s = false) :
    (∃ a s', firstOf rules c s = .ok a s' ∧ Reaches law c s s' (P · a) ∧ s.cursor < s'.cursor) ∨
      ∃ failures, firstOf rules c s = .error failures s ∧ failures.length = rules.length := by
  induction rules with
  | nil => exact .inr ⟨[], rfl, rfl⟩
  | cons rule rules ih =>
    rw [List.forall_mem_cons] at h
    rcases h.1 c s hs hc with ⟨a, s', hok, hreach, hlt⟩ | ⟨why, herr⟩
    · exact .inl ⟨a, s', by rw [firstOf, hok], hreach, hlt⟩
    · rcases ih h.2 with ⟨a, s', hok, hreach, hlt⟩ | ⟨failures, hfail, hlength⟩
      · exact .inl ⟨a, s', firstOf_cons_ok herr hok, hreach, hlt⟩
      · exact .inr ⟨why :: failures, firstOf_cons_error herr hfail, by simp [hlength]⟩

theorem exists_cost_eq_join {failures : List Stuck} (h : failures ≠ []) :
    ∃ f ∈ failures, f.cost = (Stuck.join failures).cost := by
  have hmap : failures.map (·.cost) ≠ [] := by simpa using h
  obtain ⟨cost, hcost⟩ := Option.ne_none_iff_exists'.1 (mt List.min?_eq_none_iff.1 hmap)
  obtain ⟨f, hf, rfl⟩ := List.mem_map.1 (List.min?_mem hcost)
  exact ⟨f, hf, by simp [Stuck.join, hcost]⟩

/-- Among the alternatives of a choice one is the cheapest. -/
theorem exists_cheapest {rules : List (Rule α)} {failures : List Stuck} (hne : rules ≠ [])
    (hlength : failures.length = rules.length) :
    ∃ r ∈ rules, cheapest? rules failures = some r := by
  have hfailures : failures ≠ [] := by
    rintro rfl
    exact hne (List.eq_nil_of_length_eq_zero hlength.symm)
  obtain ⟨f, hf, hcost⟩ := exists_cost_eq_join hfailures
  obtain ⟨i, hi, rfl⟩ := List.getElem_of_mem hf
  have hi' : i < rules.length := hlength ▸ hi
  have hmem : (rules[i], failures[i]) ∈ rules.zip failures := by
    rw [List.mem_iff_getElem]
    exact ⟨i, by rw [List.length_zip]; omega, by simp⟩
  have hsome : (cheapest? rules failures).isSome := by
    rw [cheapest?, Option.isSome_map, List.find?_isSome]
    exact ⟨_, hmem, by simpa using hcost⟩
  obtain ⟨r, hr⟩ := Option.isSome_iff_exists.1 hsome
  obtain ⟨⟨_, g⟩, hfind, rfl⟩ := Option.map_eq_some_iff.1 hr
  exact ⟨_, (List.of_mem_zip (List.mem_of_find?_eq_some hfind)).1, hr⟩

theorem Completes.hinted {rule : Rule α} (h : Completes law rule P) (expected : List Expected) :
    Completes law (hinted expected rule) P := by
  intro c s hs hc
  unfold Rule.hinted
  split
  · exact h c s hs hc
  · obtain ⟨a, s', hok, hreach⟩ := h c { s with hint := some expected }
      ⟨hs.cursor_le, hs.not_strict, hs.start_le⟩ hc
    exact ⟨a, { s' with hint := none }, by rw [hok], hreach.congr rfl rfl rfl rfl⟩

/-- An uncommitted choice repairs nothing. -/
theorem Speculates.alt {rules : List (Rule α)} (hne : rules ≠ [])
    (h : ∀ r ∈ rules, Speculates law r P) : Speculates law (alt rules) P := by
  intro c s hs hc
  rcases firstOf_spec h hs.speculating (Context.isCommitted_speculating hs) with
    ⟨a, s', hok, hreach, hlt⟩ | ⟨failures, hfail, hlength⟩
  · exact .inl ⟨a, s', by rw [Rule.alt, hok], hreach.of_stream (c.stream_speculating s), hlt⟩
  · obtain ⟨r, -, hcheapest⟩ := exists_cheapest hne hlength
    exact .inr ⟨Stuck.join failures, by simp [Rule.alt, hfail, hcheapest, hc]⟩

/-- A committed choice whose alternatives are all stuck goes through with the cheapest of them. -/
theorem Completes.alt {rules : List (Rule α)} (hne : rules ≠ [])
    (h : ∀ r ∈ rules, Opens law r P) : Completes law (alt rules) P := by
  intro c s hs hc
  rcases firstOf_spec (fun r hr => (h r hr).speculates) hs.speculating
      (Context.isCommitted_speculating hs) with
    ⟨a, s', hok, hreach, hlt⟩ | ⟨failures, hfail, hlength⟩
  · exact ⟨a, s', by rw [Rule.alt, hok], hreach.of_stream (c.stream_speculating s)⟩
  · obtain ⟨r, hr, hcheapest⟩ := exists_cheapest hne hlength
    obtain ⟨a, s', hok, hreach⟩ :=
      (h r hr).completes.hinted (Stuck.join failures).expected c s hs hc
    exact ⟨a, s', by simp [Rule.alt, hfail, hcheapest, hc, hok], hreach⟩

theorem Opens.alt {rules : List (Rule α)} (hne : rules ≠ [])
    (h : ∀ r ∈ rules, Opens law r P) : Opens law (alt rules) P :=
  ⟨.alt hne h, .alt hne fun r hr => (h r hr).speculates⟩

end LuaSyntax.Rule
