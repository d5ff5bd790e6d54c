import LuaSyntax.Proofs.Rule.Opening
import LuaSyntax.Proofs.Token.Slice
/-!
# Clean runs among shared tokens

Two streams may share their first tokens and go on differently. A clean run that ends among the
shared tokens is then the same in both (`Confined`), and where a rule is stuck at one of these
tokens in the one stream it is stuck in the other (`ConfinedOpening`). Both are closed under the
ways in which rules are put together.

A clean run may also end just after the shared tokens, if the rule does not read on there. Not all
rules stop at the same tokens, so what comes next in either stream satisfies a predicate `ends`, and
a rule that stops there is said to be `closed`.
-/

namespace LuaSyntax

/-- The streams share their first `stop` tokens, and then each goes on with what satisfies `ends`.
-/
structure TokenStream.Shares (ends : Option Token → Prop) (stop : Nat)
    (stream stream' : TokenStream) : Prop where
  get?_eq : ∀ {i}, i < stop → stream'.get? i = stream.get? i
  le : stop ≤ stream.size
  le' : stop ≤ stream'.size
  ends_left : ends (stream.word stop)
  ends_right : ends (stream'.word stop)

namespace TokenStream.Shares

variable {ends : Option Token → Prop} {stop : Nat} {stream stream' : TokenStream}

theorem spanBetween (h : stream.Shares ends stop stream') {i j : Nat} (hlt : i < j)
    (hle : j ≤ stop) : stream'.spanBetween i j = stream.spanBetween i j := by
  have hfirst : stream'.get? i = stream.get? i := h.get?_eq (by omega)
  have hlast : stream'.get? (j - 1) = stream.get? (j - 1) := h.get?_eq (by omega)
  obtain ⟨t, ht⟩ := exists_get? (Nat.lt_of_lt_of_le hlt (Nat.le_trans hle h.le))
  unfold TokenStream.spanBetween pos
  rw [hfirst, hlast, ht]
  rfl

theorem symm (h : stream.Shares ends stop stream') : stream'.Shares ends stop stream :=
  ⟨fun hi => (h.get?_eq hi).symm, h.le', h.le, h.ends_right, h.ends_left⟩

/-- A stream shares all its tokens with itself. -/
theorem all (stream : TokenStream) (hends : ends none) : stream.Shares ends stream.size stream := by
  have hword : stream.word stream.size = none := by
    rw [word, show stream.get? stream.size = none from Array.getElem?_eq_none (Nat.le_refl _)]
    rfl
  refine ⟨fun _ => rfl, Nat.le_refl _, Nat.le_refl _, ?_, ?_⟩ <;> rwa [hword]

end TokenStream.Shares

/-- The state with its cursor moved. -/
def State.moveTo (s : State) (cursor : Nat) : State := { s with cursor }

theorem State.moveTo_self (s : State) : s.moveTo s.cursor = s := rfl

namespace Context

variable {ends : Option Token → Prop} {stop : Nat} {c c' : Context} {s s' t u : State}

/-- The runs are at the same place among the tokens that their streams share. -/
structure Sharing (ends : Option Token → Prop) (stop : Nat) (c : Context) (s : State) (c' : Context)
    (s' : State) : Prop where
  stream : c.stream.Shares ends stop c'.stream
  cursor : s'.cursor = s.cursor
  le : s.cursor ≤ stop
  left : c.Proper s
  right : c'.Proper s'

namespace Sharing

theorem symm (h : c.Sharing ends stop s c' s') : c'.Sharing ends stop s' c s :=
  ⟨h.stream.symm, h.cursor.symm, h.cursor ▸ h.le, h.right, h.left⟩

theorem next? (h : c.Sharing ends stop s c' s') (hlt : s.cursor < stop) :
    c'.next? s' = c.next? s := by
  rw [Context.next?, h.cursor]
  exact h.stream.get?_eq hlt

/-- Just after the shared tokens, each of the runs has an end ahead. -/
theorem both_end (h : c.Sharing ends stop s c' s') (hstop : s.cursor = stop) :
    ends (c.ahead s).head? ∧ ends (c'.ahead s').head? := by
  rw [← c.map_next?, ← c'.map_next?, Context.next?, Context.next?, h.cursor, hstop]
  exact ⟨h.stream.ends_left, h.stream.ends_right⟩

theorem onward (h : c.Sharing ends stop s c' s') (ht : c.Onward s t) (hle : t.cursor ≤ stop) :
    c.Sharing ends stop t c' (s'.moveTo t.cursor) := by
  have hcursor : (s'.moveTo t.cursor).cursor = t.cursor := rfl
  refine ⟨h.stream, hcursor, hle, ht.proper h.left, h.right.of_le ?_ ?_⟩ <;> rw [hcursor]
  · rw [h.cursor]
    exact ht.cursor_le
  · exact Nat.le_trans hle h.stream.le'

theorem speculating (h : c.Sharing ends stop s c' s') :
    (c.speculating s).Sharing ends stop s (c'.speculating s') s' := by
  refine ⟨?_, h.cursor, h.le, h.left.speculating, h.right.speculating⟩
  rw [c.stream_speculating, c'.stream_speculating]
  exact h.stream

/-- A run is at the same place as its own speculation. -/
theorem itself (hends : ends none) (hs : c.Proper s) (ht : t.cursor = s.cursor)
    (hu : u.cursor = s.cursor) : c.Sharing ends c.stream.size t (c.speculating s) u := by
  refine ⟨?_, hu.trans ht.symm, ht ▸ hs.cursor_le, hs.congr ht, hs.speculating.congr hu⟩
  rw [c.stream_speculating]
  exact .all _ hends

end Sharing

end Context

/-- The state is among the first `stop` tokens, or just after them if that is allowed. -/
def State.IsWithin (closed : Bool) (stop : Nat) (t : State) : Prop :=
  t.cursor ≤ stop ∧ (closed = true ∨ t.cursor < stop)

namespace State.IsWithin

variable {closed closed' : Bool} {stop : Nat} {s t u : State}

theorem mono (h : t.IsWithin closed stop) (hclosed : closed = true → closed' = true) :
    t.IsWithin closed' stop :=
  ⟨h.1, h.2.imp_left hclosed⟩

/-- Whatever comes before is within, too. -/
theorem of_le (h : u.IsWithin closed stop) (hle : t.cursor ≤ u.cursor)
    (hclosed : closed = true → closed' = true) : t.IsWithin closed' stop :=
  ⟨Nat.le_trans hle h.1, h.2.imp hclosed (Nat.lt_of_le_of_lt hle)⟩

theorem of_lt (hlt : t.cursor < stop) : t.IsWithin closed stop :=
  ⟨Nat.le_of_lt hlt, .inr hlt⟩

end State.IsWithin

namespace Rule

variable {α β : Type} {ends : Option Token → Prop} {rule : Rule α} {f : α → Rule β}
  {closed closed' closed'' : Bool} {stop : Nat} {c c' : Context} {s s' t : State} {a : α}

/-- A clean run that ends among the shared tokens is the same in the other stream. Only if the rule
is `closed` may it also end just after them. -/
structure Confined (ends : Option Token → Prop) (closed : Bool) (rule : Rule α) : Prop
    extends Orderly rule where
  again : ∀ {stop c s c' s' a t}, c.Sharing ends stop s c' s' → Clean rule c s a t →
    t.IsWithin closed stop → rule c' s' = .ok a (s'.moveTo t.cursor)

/-- Where the rule is stuck at a shared token, it is stuck in the other stream, too. -/
structure ConfinedOpening (ends : Option Token → Prop) (closed : Bool) (rule : Rule α) : Prop
    extends Confined ends closed rule, Opening rule where
  stuck : ∀ {stop c s c' s' why t}, c.Sharing ends stop s c' s' → s.cursor < stop →
    c.isCommitted s = false → c'.isCommitted s' = false → rule c s = .error why t →
    ∃ why', rule c' s' = .error why' s'

/-- A clean run could as well have been a speculation, so it has consumed a token. -/
theorem ConfinedOpening.lt_of_clean (h : ConfinedOpening ends closed rule) (hends : ends none)
    (hs : c.Proper s) (hclean : Clean rule c s a t) (hend : t.IsWithin closed c.stream.size) :
    s.cursor < t.cursor := by
  have hspeculation := h.again (.itself hends hs rfl rfl) hclean hend
  have hmoved := h.moves hs.speculating (Context.isCommitted_speculating hs) hspeculation
  exact hmoved

theorem Confined.mono (h : Confined ends closed rule) (hclosed : closed' = true → closed = true) :
    Confined ends closed' rule where
  toOrderly := h.toOrderly
  again hsharing hclean hend := h.again hsharing hclean (hend.mono hclosed)

theorem ConfinedOpening.mono (h : ConfinedOpening ends closed rule)
    (hclosed : closed' = true → closed = true) : ConfinedOpening ends closed' rule where
  toConfined := h.toConfined.mono hclosed
  moves := h.moves
  restores := h.restores
  stuck := h.stuck

/-! ### Sequencing -/

theorem Confined.pure (a : α) : Confined ends closed (pure a) where
  toOrderly := .pure a
  again {stop c s c' s' b t} hsharing hclean _ := by
    cases hclean.ok
    rw [← hsharing.cursor, State.moveTo_self]
    rfl

/-- A sequence is confined if its first part ends where that part may end. -/
theorem Confined.bind_of (h : Confined ends closed rule) (hf : ∀ a, Confined ends closed' (f a))
    (hend : ∀ {stop c s a t b u}, stop ≤ c.stream.size → c.Proper s → Clean rule c s a t →
      Clean (f a) c t b u → c.Onward t u → u.IsWithin closed'' stop →
      t.IsWithin closed stop ∧ u.IsWithin closed' stop) :
    Confined ends closed'' (rule >>= f) where
  toOrderly := h.toOrderly.bind fun a => (hf a).toOrderly
  again {stop c s c' s' b u} hsharing hclean hwithin := by
    obtain ⟨a, t, hrule, ht, hrest⟩ :=
      hclean.of_bind h.toOrderly (fun a => (hf a).toOrderly) hsharing.left
    have hu := (hf a).onward (ht.proper hsharing.left) hrest.ok
    obtain ⟨hfirst, hlast⟩ := hend hsharing.stream.le hsharing.left hrule hrest hu hwithin
    rw [bind_of_ok (h.again hsharing hrule hfirst),
      (hf a).again (hsharing.onward ht hfirst.1) hrest hlast]
    rfl

theorem Confined.bind (h : Confined ends closed rule) (hf : ∀ a, Confined ends closed' (f a))
    (hclosed : closed'' = true → closed' = true ∧ closed = true) :
    Confined ends closed'' (rule >>= f) :=
  h.bind_of hf fun _ _ _ _ hu hend =>
    ⟨hend.of_le hu.cursor_le fun h => (hclosed h).2, hend.mono fun h => (hclosed h).1⟩

/-- What comes next consumes a token, so the first part ends before the shared tokens do. -/
theorem Confined.bind_opening (h : Confined ends closed rule) (hends : ends none)
    (hf : ∀ a, ConfinedOpening ends closed' (f a)) : Confined ends closed' (rule >>= f) := by
  refine h.bind_of (fun a => (hf a).toConfined) fun {stop c s a t b u} hstop hs hrule hrest hu hend
    => ⟨.of_lt ?_, hend⟩
  have hwithin : u.IsWithin closed' c.stream.size :=
    ⟨Nat.le_trans hend.1 hstop, hend.2.imp_right fun hlt => Nat.lt_of_lt_of_le hlt hstop⟩
  have hmoved := (hf a).lt_of_clean hends ((h.onward hs hrule.ok).proper hs) hrest hwithin
  exact Nat.lt_of_lt_of_le hmoved hend.1

theorem ConfinedOpening.bind (h : ConfinedOpening ends closed rule)
    (hrest : Confined ends closed' (rule >>= f)) (hf : ∀ a, Orderly (f a)) :
    ConfinedOpening ends closed' (rule >>= f) where
  toConfined := hrest
  moves := (h.toOpening.bind hf).moves
  restores := (h.toOpening.bind hf).restores
  stuck {stop c s c' s' why u} hsharing hlt hc hc' herr := by
    have hrule := h.toOpening.error_of_bind hf hsharing.left herr
    obtain ⟨why', hstuck⟩ := h.stuck hsharing hlt hc hc' hrule
    exact ⟨why', bind_of_error hstuck⟩

/-! ### Tokens -/

theorem confined_satisfy (m : Matcher α) : ConfinedOpening ends closed (satisfy m) where
  toOpening := opening_satisfy m
  again {stop c s c' s' a t} hsharing hclean hend := by
    obtain ⟨u, b, found, accepted, rfl, rfl⟩ := hclean.of_satisfy
    have hnext := hsharing.next? (Nat.lt_of_succ_le hend.1)
    rw [satisfy_of_accept (hnext.trans found) accepted, State.advance, hsharing.cursor]
    rfl
  stuck {stop c s c' s' why t} hsharing hlt hc hc' herr := by
    have hreject : satisfy m c' s' = supply m c' s' := by
      refine satisfy_of_not_accept fun u found => ?_
      rw [hsharing.next? hlt] at found
      cases haccept : m.accept u.node with
      | none => rfl
      | some b =>
        rw [satisfy_of_accept found haccept] at herr
        cases herr
    exact ⟨_, by rw [hreject, supply_of_not_committed hc']⟩

theorem confined_token (t : Token) : ConfinedOpening ends true (token t) := by
  have hread : ConfinedOpening ends true (satisfy (.exactly t)) := confined_satisfy _
  exact hread.bind (hread.toConfined.bind (fun _ => .pure _) fun h => ⟨h, h⟩) fun _ => .pure _

theorem confined_record (d : Diagnostic) : Confined ends closed (record d) where
  toOrderly := orderly_record d
  again {stop c s c' s' a t} _ hclean _ := by
    obtain ⟨hok, hdiags⟩ := hclean
    cases hok
    exact absurd hdiags (List.cons_ne_self _ _)

theorem confined_look (g : Option (Located Token) → α)
    (hclosed : closed = true → ∀ next, ends (next.map (·.node)) → g next = g none) :
    Confined ends closed (look g) where
  toOrderly := orderly_look g
  again {stop c s c' s' a t} hsharing hclean hend := by
    cases hclean.ok
    have hmove : s'.moveTo s.cursor = s' := by rw [← hsharing.cursor, State.moveTo_self]
    have hlook : g (c'.next? s') = g (c.next? s) := by
      rcases Nat.lt_or_eq_of_le hsharing.le with hlt | hstop
      · rw [hsharing.next? hlt]
      · have hclosed := hclosed (hend.2.resolve_right (by omega))
        obtain ⟨hends, hends'⟩ := hsharing.both_end hstop
        rw [← Context.map_next?] at hends hends'
        rw [hclosed _ hends, hclosed _ hends']
    rw [look, hlook, hmove]

/-- Before the end of the stream, a rule that passes over something does so with a diagnostic. -/
theorem size_le_of_skipAhead {count : List Token → Nat} {expected : List Expected}
    (hcount : ∀ t ts, 0 < count (t :: ts)) {a : Unit}
    (hclean : Clean (fun c s => skipTokens (count (c.ahead s)) expected c s) c s a t) :
    c.stream.size ≤ s.cursor ∧ t = s := by
  have hskip : Clean (skipTokens (count (c.ahead s)) expected) c s a t :=
    ⟨hclean.ok, hclean.diags⟩
  obtain ⟨hnone, rfl⟩ := hskip.of_skipTokens
  have hlength := c.length_ahead t
  unfold Context.remaining at hnone hlength
  refine ⟨?_, rfl⟩
  cases hahead : c.ahead t with
  | nil =>
    rw [hahead, List.length_nil] at hlength
    omega
  | cons u us =>
    have hpos := hcount u us
    rw [← hahead] at hpos
    omega

theorem confined_skipAhead {count : List Token → Nat} (expected : List Expected)
    (hcount : ∀ t ts, 0 < count (t :: ts)) :
    Confined ends false fun c s => skipTokens (count (c.ahead s)) expected c s where
  toOrderly := orderly_skipAhead count expected
  again {stop c s c' s' a t} hsharing hclean hend := by
    obtain ⟨hle, rfl⟩ := size_le_of_skipAhead hcount hclean
    have hlt := Nat.lt_of_lt_of_le (hend.2.resolve_left nofun) hsharing.stream.le
    exact absurd hlt (Nat.not_lt_of_le hle)

/-! ### Spans, optional parts and loops -/

theorem ConfinedOpening.located (h : ConfinedOpening ends closed rule) (hends : ends none) :
    ConfinedOpening ends closed (located rule) where
  toOpening := h.toOpening.located
  again {stop c s c' s' a t} hsharing hclean hend := by
    obtain ⟨hok, hspan⟩ := ok_of_located hclean.ok
    have hrule : Clean rule c s a.node t := ⟨hok, hclean.diags⟩
    have hmoved := h.lt_of_clean hends hsharing.left hrule
      ⟨(h.onward hsharing.left hok).le_size, hend.2.imp_right
        fun hlt => Nat.lt_of_lt_of_le hlt hsharing.stream.le⟩
    rw [located_of_ok (h.again hsharing hrule hend), hsharing.cursor]
    exact congrArg (EStateM.Result.ok · _) (congrArg (Located.mk a.node)
      ((hsharing.stream.spanBetween hmoved hend.1).trans hspan.symm))
  stuck hsharing hlt hc hc' herr := by
    obtain ⟨why', hstuck⟩ := h.stuck hsharing hlt hc hc' (error_of_located herr)
    exact ⟨why', located_of_error hstuck⟩

/-- An optional part is there again, or it is again not there. Just after the shared tokens, what
comes next has to be refused. -/
theorem ConfinedOpening.optional (h : ConfinedOpening ends closed rule)
    (hclosed : closed' = true → closed = true ∧ ∀ ts, ends ts.head? → Refuses rule ts) :
    Confined ends closed' (optional rule) where
  toOrderly := h.toOrderly.optional
  again {stop c s c' s' r t} hsharing hclean hend := by
    have hspeculating := hsharing.speculating
    have hc := Context.isCommitted_speculating hsharing.left
    have hc' := Context.isCommitted_speculating hsharing.right
    rcases h.toOpening.optional_cases hsharing.left with
      ⟨a, u, hrule, hsome, -, -⟩ | ⟨⟨why, hstuck⟩, hnone⟩
    · cases hsome.symm.trans hclean.ok
      exact optional_of_ok (h.again hspeculating ⟨hrule, hclean.diags⟩
        (hend.mono fun hclosed' => (hclosed hclosed').1))
    · cases hnone.symm.trans hclean.ok
      have hstuck' : ∃ why', rule (c'.speculating s') s' = .error why' s' := by
        rcases Nat.lt_or_eq_of_le hsharing.le with hlt | hstop
        · exact h.stuck hspeculating hlt hc hc' hstuck
        · have hcloses := hclosed (hend.2.resolve_right (by omega))
          have hrefuses := hcloses.2 _ (hsharing.both_end hstop).2
          exact hrefuses _ s' hsharing.right.speculating hc' (c'.ahead_speculating s' s')
      obtain ⟨why', hstuck'⟩ := hstuck'
      rw [optional_of_error hstuck', ← hsharing.cursor, State.moveTo_self]

/-- Every round of a clean loop is the same. -/
theorem Confined.collect {step : Rule (Option (α × Bool))} (h : Confined ends closed step) :
    Confined ends closed (collect step) where
  toOrderly := h.toOrderly.collect
  again {stop c s c' s' as t} hsharing hclean hend := by
    obtain ⟨hok, hdiags⟩ := hclean
    have hrounds := loopRun_of_collect hok
    clear hok
    induction hrounds generalizing s' with
    | stop hstep => exact collect_of_none (h.again hsharing ⟨hstep, hdiags⟩ hend)
    | last hstep => exact collect_of_last (h.again hsharing ⟨hstep, hdiags⟩ hend)
    | @stalled s t a hstep hstalled =>
      have ht := h.onward hsharing.left hstep
      refine (LoopRun.stalled (h.again hsharing ⟨hstep, hdiags⟩ hend) fun hmoved => ?_).collect
      have hcursor := hsharing.cursor
      have hcursor' : (s'.moveTo t.cursor).cursor = t.cursor := rfl
      have hle := ht.le_size
      unfold Context.remaining at hstalled hmoved
      omega
    | @more s u t a as hstep hmoved hrest ih =>
      have hu := h.onward hsharing.left hstep
      have ht := hrest.onward h.toOrderly (hu.proper hsharing.left)
      have hquiet := hu.diags_eq ht hdiags
      have hwithin := hend.of_le ht.cursor_le id
      have hround := h.again hsharing ⟨hstep, hquiet⟩ hwithin
      have hsharing' := hsharing.onward hu hwithin.1
      have hrest' := ih hsharing' hend (hdiags.trans hquiet.symm)
      refine collect_of_more hround ?_ hsharing'.right.cursor_le hrest'
      have hcursor := hsharing.cursor
      have hcursor' := hsharing'.cursor
      unfold Context.remaining at hmoved
      omega

theorem ConfinedOpening.many (h : ConfinedOpening ends closed rule)
    (hclosed : closed' = true → closed = true ∧ ∀ ts, ends ts.head? → Refuses rule ts) :
    Confined ends closed' (Rule.many rule) := by
  have hoptional : Confined ends closed' (Rule.optional rule) := h.optional hclosed
  have hpure (r : Option α) : Confined ends closed' (pure (r.map (·, true))) := .pure _
  exact .collect (hoptional.bind hpure fun hclosed' => ⟨hclosed', hclosed'⟩)

/-- A repetition that ends before the shared tokens do. -/
theorem ConfinedOpening.several (h : ConfinedOpening ends closed rule) :
    Confined ends false (Rule.many rule) :=
  h.many nofun

/-- A repetition, and then a rule that opens. -/
theorem ConfinedOpening.many_bind {f : List α → Rule β} (h : ConfinedOpening ends closed rule)
    (hends : ends none) (hf : ∀ as, ConfinedOpening ends closed' (f as)) :
    ConfinedOpening ends closed' (Rule.many rule >>= f) where
  toOpening := h.toOpening.many_bind fun as => (hf as).toOpening
  again := (h.several.bind_opening hends hf).again
  stuck {stop c s c' s' why u} hsharing hlt hc hc' herr := by
    rcases h.toOpening.many_cases hsharing.left with
      ⟨as, t, hmany, ht, hmoved⟩ | ⟨⟨_, hitem⟩, hmany⟩
    · rw [bind_of_ok hmany] at herr
      exact absurd herr ((hf as).toOrderly.not_stuck hsharing.left ht hmoved)
    · rw [bind_of_ok hmany] at herr
      obtain ⟨_, hitem'⟩ := h.stuck hsharing.speculating hlt
        (Context.isCommitted_speculating hsharing.left)
        (Context.isCommitted_speculating hsharing.right) hitem
      obtain ⟨why', hstuck⟩ := (hf []).stuck hsharing hlt hc hc' herr
      have hmany' : Rule.many rule c' s' = .ok [] s' :=
        collect_of_none (bind_of_ok (optional_of_error hitem'))
      exact ⟨why', by rw [bind_of_ok hmany', hstuck]⟩

/-! ### Choice -/

section

variable {rules : List (Rule α)}

/-- The same alternative succeeds. -/
theorem firstOf_sharing (h : ∀ r ∈ rules, ConfinedOpening ends true r)
    (hsharing : c.Sharing ends stop s c' s') (hlt : s.cursor < stop) (hc : c.isCommitted s = false)
    (hc' : c'.isCommitted s' = false) :
    (∀ {a t}, firstOf rules c s = .ok a t → t.diags = s.diags → t.cursor ≤ stop →
      firstOf rules c' s' = .ok a (s'.moveTo t.cursor)) ∧
    ∀ {failures t}, firstOf rules c s = .error failures t →
      ∃ failures', firstOf rules c' s' = .error failures' s' := by
  induction rules with
  | nil => exact ⟨nofun, fun _ => ⟨[], rfl⟩⟩
  | cons rule rules ih =>
    rw [List.forall_mem_cons] at h
    cases hrule : rule c s with
    | ok b u =>
      refine ⟨fun hok hdiags hle => ?_, fun herr => ?_⟩
      · rw [firstOf, hrule] at hok
        cases hok
        rw [firstOf, h.1.again hsharing ⟨hrule, hdiags⟩ ⟨hle, .inl rfl⟩]
      · rw [firstOf, hrule] at herr
        cases herr
    | error why u =>
      obtain rfl := h.1.restores hsharing.left hrule
      obtain ⟨why', hstuck⟩ := h.1.stuck hsharing hlt hc hc' hrule
      obtain ⟨ihok, iherr⟩ := ih h.2
      have hrewind : u.rewind u = u := rfl
      refine ⟨fun hok hdiags hle => ?_, fun herr => ?_⟩
      · simp only [firstOf, hrule, hrewind] at hok
        split at hok
        · next hrest =>
          cases hok
          exact firstOf_cons_ok hstuck (ihok hrest hdiags hle)
        · cases hok
      · simp only [firstOf, hrule, hrewind] at herr
        split at herr
        · cases herr
        · next hrest =>
          obtain ⟨failures', hfail⟩ := iherr hrest
          exact ⟨_, firstOf_cons_error hstuck hfail⟩

/-- A rule that makes a repair in a clean run would have succeeded at the first attempt. -/
theorem firstOf_of_clean_alt (hends : ends none) (hne : rules ≠ [])
    (h : ∀ r ∈ rules, ConfinedOpening ends true r) (hs : c.Proper s)
    (hclean : Clean (alt rules) c s a t) : firstOf rules (c.speculating s) s = .ok a t := by
  have ht := (Opening.alt hne fun r hr => (h r hr).toOpening).onward hs hclean.ok
  refine firstOf_of_clean hclean fun r hr {u u' w w' why} hu hu' hw hrepair hstuck => ?_
  have hok := (h r hr).again (.itself hends hs hu hw) hrepair ⟨hu' ▸ ht.le_size, .inl rfl⟩
  cases hstuck.symm.trans hok

theorem ConfinedOpening.alt (hends : ends none) (hne : rules ≠ [])
    (h : ∀ r ∈ rules, ConfinedOpening ends true r) : ConfinedOpening ends true (alt rules) where
  toOpening := .alt hne fun r hr => (h r hr).toOpening
  again {stop c s c' s' a t} hsharing hclean hend := by
    have hfirst := firstOf_of_clean_alt hends hne h hsharing.left hclean
    obtain ⟨r, hr, u, hu, hrule⟩ := firstOf_progress.1 hfirst
    have hcursor : u.cursor = s.cursor := congrArg Progress.cursor hu
    have hc := Context.isCommitted_speculating hsharing.left
    have hproper := hsharing.left.speculating.congr hcursor
    have hmoved := (h r hr).moves hproper (by rwa [Context.isCommitted_congr hcursor]) hrule
    have hlt : s.cursor < stop := by
      have hle := hend.1
      omega
    have hfirst' := (firstOf_sharing h hsharing.speculating hlt hc
      (Context.isCommitted_speculating hsharing.right)).1 hfirst hclean.diags hend.1
    rw [Rule.alt, hfirst']
  stuck {stop c s c' s' why t} hsharing hlt _ hc' herr := by
    cases hfirst : firstOf rules (c.speculating s) s with
    | ok a u =>
      rw [Rule.alt, hfirst] at herr
      cases herr
    | error failures u =>
      obtain ⟨failures', hfail⟩ := (firstOf_sharing h hsharing.speculating hlt
        (Context.isCommitted_speculating hsharing.left)
        (Context.isCommitted_speculating hsharing.right)).2 hfirst
      simp only [Rule.alt, hfail, hc']
      split <;> exact ⟨_, rfl⟩

end

end Rule

end LuaSyntax
