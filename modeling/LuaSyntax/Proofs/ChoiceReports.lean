import LuaSyntax.Proofs.Grammar.Hint
import LuaSyntax.Proofs.SuffixPolicies
/-!
# What a choice reports

A committed choice all of whose alternatives are stuck runs the cheapest one again, with all that
any of them expected as a hint. The first token that is put in takes the hint, so its diagnostic
lists all of it. For most alternatives this is the first thing that is recorded. A call, however,
may be stuck though its head is there; then the head has its own reports first, and the suffixes
that are given back, which have no call among them, must not have taken the hint.
-/

namespace LuaSyntax.Grammar

open Rule

/-- Two results of the same rule can be compared, so what it does on given tokens can be decided. -/
instance decidableEqResult {ε σ α : Type} [DecidableEq ε] [DecidableEq σ] [DecidableEq α] :
    DecidableEq (EStateM.Result ε σ α)
  | .ok a s, .ok b t =>
    decidable_of_iff (a = b ∧ s = t) (Iff.of_eq (EStateM.Result.ok.injEq a s b t).symm)
  | .error a s, .error b t =>
    decidable_of_iff (a = b ∧ s = t) (Iff.of_eq (EStateM.Result.error.injEq a s b t).symm)
  | .ok _ _, .error _ _ => .isFalse nofun
  | .error _ _, .ok _ _ => .isFalse nofun

/-- The alternatives of a choice: one token, or a rule of the grammar, and what is made of the
value. -/
inductive Alternative : Type → Type 1
  | token (t : Token) : Alternative Span
  | name : Alternative (Located String)
  | str : Alternative (Located String)
  | number : Alternative (Located String)
  | label : Alternative (Located String)
  | expr : Alternative (Located Expr)
  | stmt : Alternative (Located Stmt)
  | table : Alternative (Located (List (Located Field)))
  | prefixExp (policy : SuffixPolicy) : Alternative PrefixExp
  | map {α β : Type} (g : α → β) (x : Alternative α) : Alternative β

namespace Alternative

/-- The rule of the alternative over the rules one level down. -/
def rule (inner : Level) : {α : Type} → Alternative α → Rule α
  | _, .token t => Rule.token t
  | _, .name => Rule.name
  | _, .str => Rule.str
  | _, .number => Rule.number
  | _, .label => Rule.label
  | _, .expr => inner.expr
  | _, .stmt => Grammar.stmt inner
  | _, .table => Grammar.table inner
  | _, .prefixExp policy => Grammar.prefixExp inner policy
  | _, .map g x => g <$> x.rule inner

/-- Whether the alternative is a prefix expression that has to end in a call. -/
def isCall : {α : Type} → Alternative α → Bool
  | _, .prefixExp policy => policy == .callTerminated
  | _, .map _ x => x.isCall
  | _, _ => false

end Alternative

variable {α β : Type} {inner : Level} {law : Law} {L : Language} {c : Context} {s s' t u : State}
  {all : List Expected} {r : Rule α}

/-- If the head of a prefix expression puts in no token, then the suffixes after it put in none,
either. Otherwise they have taken the hint, which is not given back with them. -/
def SuffixesSpare (inner : Level) (c : Context) (s : State) : Prop :=
  ∀ h u p v, head inner c s = .ok h u → prefixExp inner .unrestricted c s = .ok p v →
    s.NothingFilled u → u.NothingFilled v

/-- From `s` to `t`, the diagnostic for the first token that is put in lists `all`. No diagnostic
comes before it, except that the head of a call may have reported something else. -/
def FirstLists (inner : Level) (c : Context) (all : List Expected) (isCall : Bool) (s t : State) :
    Prop :=
  ∃ later d earlier, t.diags = later ++ d :: (earlier ++ s.diags) ∧ d.filled? = some all ∧
    (∀ e ∈ earlier, e.filled? = none) ∧
    (earlier = [] ∨ isCall = true ∧
      ∃ h u, head inner c s = .ok h u ∧ earlier ++ s.diags <:+ u.diags)

/-- Where the rule is stuck, it leaves no trace. Run again, committed and with a hint, it gives a
value, and what it reports is as `FirstLists` says. -/
structure Answers (inner : Level) (isCall : Bool) (r : Rule α) : Prop where
  restores : ∀ {c : Context} {s u why}, c.Proper s → s.hint = none →
    r (c.speculating s) s = .error why u → u = s
  repairs : ∀ {c : Context} {s why} all, c.Proper s → c.isCommitted s = true → s.hint = none →
    r (c.speculating s) s = .error why s →
    ∃ a t, r c { s with hint := some all } = .ok a t ∧
      ((isCall = true → SuffixesSpare inner c { s with hint := some all }) →
        FirstLists inner c all isCall { s with hint := some all } t)

/-- Where the rule was stuck, it runs again committed, and first puts in what it was stuck for. -/
theorem mended_of_thrifty (h : Thrifty r) (hs : c.Proper s) (hc : c.isCommitted s = true)
    {why : Stuck} (herr : r (c.speculating s) s = .error why s) :
    ∃ a t ds d, r c { s with hint := some all } = .ok a t ∧ t.diags = ds ++ d :: s.diags ∧
      d.filled? = some all := by
  let hinting : State := { s with hint := some all }
  have hs' : c.Proper hinting := hs.congr rfl
  have herr' : r (c.speculating hinting) hinting = .error why hinting :=
    h.fixed hs.speculating herr rfl hs'.speculating (Context.isCommitted_speculating hs') rfl
  cases hrun : r c hinting with
  | error why' t =>
    have hcommitted := h.completes hs' hrun
    rw [show c.isCommitted hinting = c.isCommitted s from rfl, hc] at hcommitted
    cases hcommitted
  | ok a t =>
    obtain ⟨-, token, ds, hdiags, -⟩ := h.mends hs' rfl herr' hc hrun
    exact ⟨a, t, _, _, rfl, hdiags, rfl⟩

theorem Answers.of_thrifty {isCall : Bool} (h : Thrifty r) : Answers inner isCall r where
  restores hs _ herr := h.restores hs.speculating herr
  repairs all hs hc _ herr := by
    obtain ⟨a, t, ds, d, hok, hdiags, hd⟩ := mended_of_thrifty h hs hc herr
    exact ⟨a, t, hok, fun _ => ⟨ds, d, [], hdiags, hd, List.forall_mem_nil _, .inl rfl⟩⟩

theorem error_of_map {g : α → β} {why : Stuck} (herr : (g <$> r) c s = .error why u) :
    r c s = .error why u := by
  rw [map_eq_pure_bind] at herr
  rcases error_of_bind herr with hrun | ⟨a, t, -, hpure⟩
  · exact hrun
  · cases hpure

theorem Answers.map {isCall : Bool} (g : α → β) (h : Answers inner isCall r) :
    Answers inner isCall (g <$> r) where
  restores hs hhint herr := h.restores hs hhint (error_of_map herr)
  repairs all hs hc hhint herr := by
    obtain ⟨a, t, hok, hlists⟩ := h.repairs all hs hc hhint (error_of_map herr)
    refine ⟨g a, t, ?_, hlists⟩
    rw [map_apply, hok]

/-! ### Prefix expressions -/

section

variable {policy : SuffixPolicy} {a : Located Head} {marks : List (Located Suffix × State)}

theorem many_of_suffixChain (hchain : suffixChain inner c t = .ok marks (chainEnd t marks)) :
    many (suffix inner) c t = .ok (marks.map (·.1)) (chainEnd t marks) := by
  rw [← map_suffixChain, map_apply, hchain]

/-- A prefix expression with a head is stuck only if it has to end in a call and none of the
suffixes is one. -/
theorem no_call_of_stuck (hc : c.isCommitted s = false) (hhead : head inner c s = .ok a t)
    (hchain : suffixChain inner c t = .ok marks (chainEnd t marks)) {why : Stuck}
    (herr : prefixExp inner policy c s = .error why u) :
    policy = .callTerminated ∧ (∀ m ∈ marks, m.1.node.isCall = false) ∧
      u = { s with hint := (chainEnd t marks).hint } := by
  by_cases hkept : policy = .callTerminated ∧ keptBy policy marks = []
  · obtain ⟨rfl, hnone⟩ := hkept
    obtain ⟨why', hstuck⟩ := prefixExp_stuck hhead hchain hnone hc
    cases hstuck.symm.trans herr
    exact ⟨rfl, keptBy_eq_nil.1 hnone, rfl⟩
  · cases (prefixExp_of_kept hhead hchain hkept).symm.trans herr

/-- A committed prefix expression goes on from its head. -/
theorem prefixExp_after_head (hinner : inner.Sound law L) (hsteady : inner.Steady)
    (policy : SuffixPolicy) (hs : c.Proper s) (hc : c.isCommitted s = true)
    (hhead : head inner c s = .ok a t) :
    ∃ p u, prefixExp inner policy c s = .ok p u ∧ t.diags <:+ u.diags := by
  have ht := ((scheme_head.begins hinner).onward hs hhead).proper hs
  obtain ⟨marks, hchain, hfrom⟩ := suffixChain_spec hinner ht
  by_cases hkept : policy = .callTerminated ∧ keptBy policy marks = []
  · obtain ⟨rfl, hnone⟩ := hkept
    obtain ⟨b, es, u, ds, -, -, hok, hdiags⟩ :=
      call_repaired hinner hsteady hs hc hhead hchain (keptBy_eq_nil.1 hnone)
    refine ⟨_, u, hok, ?_⟩
    rw [hdiags]
    exact (List.suffix_cons _ _).trans (List.suffix_append _ _)
  · have hstart : keptBy policy marks <+: marks := keepThroughLast_isPrefix _ marks
    exact ⟨_, _, prefixExp_of_kept hhead hchain hkept,
      (onward_of_reaches (hfrom.of_isPrefix hstart).reaches ht).diags⟩

/-- Run again committed and with any hint, a prefix expression has the same head and suffixes. -/
theorem suffixes_again (hinner : inner.Sound law L) (hhints : inner.Hinted) (hs : c.Proper s)
    (hcursor : s'.cursor = s.cursor) (hhead : head inner (c.speculating s) s = .ok a t)
    (hchain : suffixChain inner (c.speculating s) t = .ok marks (chainEnd t marks)) :
    ∃ t' marks', head inner c s' = .ok a t' ∧
      suffixChain inner c t' = .ok marks' (chainEnd t' marks') ∧
      marks'.map (·.1) = marks.map (·.1) := by
  have hplain : head inner c s = .ok a t := alt_of_speculating hhead
  have hopening := scheme_head.begins hinner
  rcases scheme_head.heedless hinner hhints hs hcursor with
    ⟨b, u, t', hok, hagain, hcursor'⟩ | ⟨why, u, t', herr, -⟩
  · cases hplain.symm.trans hok
    have ht := (hopening.onward hs hplain).proper hs
    obtain ⟨marks', hchain', -⟩ := suffixChain_spec hinner (ht.congr hcursor')
    have hmany := many_of_suffixChain hchain
    rw [many_speculating] at hmany
    have horderly := (scheme_suffix.begins hinner).toOrderly
    rcases (scheme_suffix.heedless hinner hhints).many horderly ht hcursor' with
      ⟨as, v, v', has, has', -⟩ | ⟨why, v, v', herr, -⟩
    · obtain ⟨hmarks, -⟩ := EStateM.Result.ok.inj (hmany.symm.trans has)
      obtain ⟨hmarks', -⟩ := EStateM.Result.ok.inj ((many_of_suffixChain hchain').symm.trans has')
      exact ⟨t', marks', hagain, hchain', hmarks'.trans hmarks.symm⟩
    · cases hmany.symm.trans herr
  · cases hplain.symm.trans herr

/-- The head or the missing arguments take the hint, if the suffixes in between do not. -/
theorem firstLists_of_call (hinner : inner.Sound law L) (hhints : inner.Hinted) (hs : c.Proper s)
    (hhint : s.hint = some all) (hhead : head inner c s = .ok a t)
    (hchain : suffixChain inner c t = .ok marks (chainEnd t marks))
    (hspare : SuffixesSpare inner c s)
    {ds : List Diagnostic} {d : Diagnostic} (hdiags : u.diags = ds ++ d :: t.diags)
    (hd : (chainEnd t marks).hint = some all → d.filled? = some all) :
    FirstLists inner c all true s u := by
  have hspends := scheme_head.spends hinner hhints
  have ht := (hspends.onward hs hhead).proper hs
  cases hspends.spends hs hhint hhead with
  | taken later earlier e hlater hearlier he =>
    refine ⟨ds ++ d :: later, e, earlier, ?_, he, hearlier, .inr ⟨rfl, a, t, hhead, ?_⟩⟩
    · rw [hdiags, hlater]
      simp only [List.append_assoc, List.cons_append]
    · rw [hlater]
      exact (List.suffix_cons _ _).trans (List.suffix_append _ _)
  | left hnothing hpending =>
    have hmany := (scheme_suffix.spends hinner hhints).many (scheme_suffix.begins hinner)
    cases hmany.spends ht hpending (many_of_suffixChain hchain) with
    | taken later earlier e hlater _ he =>
      have hnothing' := hspare a t _ _ hhead (prefixExp_unrestricted_of_head hhead hchain) hnothing
      have hlater : (chainEnd t marks).diags = (later ++ e :: earlier) ++ t.diags := by
        rw [hlater, List.append_assoc]
        rfl
      cases (hnothing'.none_of_mem hlater e (by simp)).symm.trans he
    | left _ hpending' =>
      obtain ⟨es, hes, hnone⟩ := hnothing
      exact ⟨ds, d, es, by rw [hdiags, hes], hd hpending', hnone,
        .inr ⟨rfl, a, t, hhead, hes ▸ List.suffix_refl _⟩⟩

theorem answers_prefixExp (hinner : inner.Sound law L) (hsteady : inner.Steady)
    (hhints : inner.Hinted) (policy : SuffixPolicy) :
    Answers inner (policy == .callTerminated) (prefixExp inner policy) where
  restores {c s u why} hs hhint herr := by
    cases hhead : head inner (c.speculating s) s with
    | error why' t =>
      obtain rfl := (scheme_head.begins hinner).restores hs.speculating hhead
      cases (prefixExp_of_error hhead).symm.trans herr
      rfl
    | ok a t =>
      have ht := ((scheme_head.begins hinner).onward hs.speculating hhead).proper hs.speculating
      obtain ⟨marks, hchain, -⟩ := suffixChain_spec hinner ht
      obtain ⟨-, -, rfl⟩ := no_call_of_stuck (not_isCommitted_speculating c s) hhead hchain herr
      have hleads := (thrifty_prefixExp hinner hsteady).leads hs.speculating hhint
        (prefixExp_unrestricted_of_head hhead hchain)
      rw [hleads.hint, ← hhint]
  repairs {c s why} all hs hc hhint herr := by
    let hinting : State := { s with hint := some all }
    have hs' : c.Proper hinting := hs.congr rfl
    cases hhead : head inner (c.speculating s) s with
    | error why' t =>
      obtain rfl := (scheme_head.begins hinner).restores hs.speculating hhead
      obtain ⟨a, u, ds, d, hok, hdiags, hd⟩ := mended_of_thrifty (thrifty_head hsteady) hs hc hhead
      obtain ⟨p, v, hrun, more, hmore⟩ := prefixExp_after_head hinner hsteady policy hs' hc hok
      refine ⟨p, v, hrun, fun _ => ⟨more ++ ds, d, [], ?_, hd, List.forall_mem_nil _, .inl rfl⟩⟩
      rw [← hmore, hdiags, List.append_assoc]
      rfl
    | ok a t =>
      have ht := ((scheme_head.begins hinner).onward hs.speculating hhead).proper hs.speculating
      obtain ⟨marks, hchain, -⟩ := suffixChain_spec hinner ht
      obtain ⟨rfl, hnocall, -⟩ :=
        no_call_of_stuck (not_isCommitted_speculating c s) hhead hchain herr
      obtain ⟨t', marks', hhead', hchain', hsame⟩ :=
        suffixes_again hinner hhints hs (rfl : hinting.cursor = s.cursor) hhead hchain
      have hnocall' : ∀ m ∈ marks', m.1.node.isCall = false := by
        intro m hm
        obtain ⟨m₀, hm₀, hsuffix⟩ := List.mem_map.1 (hsame ▸ List.mem_map_of_mem hm)
        rw [← hsuffix]
        exact hnocall m₀ hm₀
      obtain ⟨b, es, u, ds, -, -, hok, hdiags⟩ :=
        call_repaired hinner hsteady hs' hc hhead' hchain' hnocall'
      refine ⟨_, u, hok, fun hspare => ?_⟩
      exact firstLists_of_call hinner hhints hs' rfl hhead' hchain' (hspare rfl) hdiags
        fun hpending => by rw [hpending]; rfl

end

/-! ### Choices -/

/-- Every alternative answers for what it expected. -/
theorem Alternative.answers (depth : Nat) (x : Alternative α) :
    Answers (nested (depth + 1)) x.isCall (x.rule (nested (depth + 1))) := by
  have hinner := sound_lenient (depth + 1)
  have hsteady := steady_nested (depth + 1)
  induction x with
  | token t => exact .of_thrifty (thrifty_token t)
  | name => exact .of_thrifty thrifty_name
  | str => exact .of_thrifty thrifty_str
  | number => exact .of_thrifty thrifty_number
  | label => exact .of_thrifty thrifty_label
  | expr => exact .of_thrifty (thrifty_orExpr (sound_lenient depth) (steady_nested depth))
  | stmt => exact .of_thrifty (thrifty_stmt hinner hsteady)
  | table => exact .of_thrifty (thrifty_table hinner hsteady)
  | prefixExp policy => exact answers_prefixExp hinner hsteady (hinted_nested _) policy
  | map g x ih => exact ih.map g

/-- The failure at `i` costs least, and is the first that does. -/
structure FirstCheapest (failures : List Stuck) (i : Nat) (why : Stuck) : Prop where
  get : failures[i]? = some why
  least : ∀ other ∈ failures, why.cost ≤ other.cost
  first : ∀ (j : Nat) (other : Stuck), j < i → failures[j]? = some other → why.cost < other.cost

/-- The rule that is run again is the one beside the first of the cheapest failures. -/
theorem cheapest?_spec {rules : List (Rule α)} {failures : List Stuck}
    (hlength : rules.length = failures.length) (hne : failures ≠ []) :
    ∃ (i : Nat) (r : Rule α) (why : Stuck), rules[i]? = some r ∧ FirstCheapest failures i why ∧
      cheapest? rules failures = some r := by
  have hsecond : (rules.zip failures).map Prod.snd = failures :=
    List.map_snd_zip (Nat.le_of_eq hlength.symm)
  obtain ⟨f, hf, hcost⟩ := exists_cost_eq_join hne
  rw [← hsecond, List.mem_map] at hf
  obtain ⟨pair, hpair, rfl⟩ := hf
  obtain ⟨⟨r, why⟩, hfind⟩ := Option.isSome_iff_exists.1
    (List.find?_isSome (p := fun pair => pair.2.cost == (Stuck.join failures).cost).2
      ⟨pair, hpair, beq_iff_eq.2 hcost⟩)
  obtain ⟨hwhy, i, hi, hget, hbefore⟩ := List.find?_eq_some_iff_getElem.1 hfind
  have hwhy : why.cost = (Stuck.join failures).cost := beq_iff_eq.1 hwhy
  obtain ⟨hr, hf⟩ := List.getElem?_zip_eq_some.1 (List.getElem?_eq_some_iff.2 ⟨hi, hget⟩)
  refine ⟨i, r, why, hr, ⟨hf, fun other hother => hwhy ▸ cost_join_le hother, ?_⟩, ?_⟩
  · intro j other hj hother
    have hdearer := hbefore j hj
    have hle := cost_join_le (List.mem_of_getElem? hother)
    rw [List.getElem_zip, (List.getElem_eq_iff _).2 hother] at hdearer
    have hne : other.cost ≠ (Stuck.join failures).cost := by simpa using hdearer
    omega
  · rw [cheapest?, hfind]
    rfl

/-- A committed choice all of whose alternatives are stuck runs the first of the cheapest again,
with all that any of them expected as a hint. That run gives the value, and the diagnostic for the
first token that it puts in lists all of the hint, of which nothing is left afterwards. -/
theorem choice_lists_all {depth : Nat} {alts : List (Alternative α)} {failures : List Stuck}
    {c : Context} {s : State} (hne : alts ≠ []) (hs : c.Proper s) (hc : c.isCommitted s = true)
    (hhint : s.hint = none)
    (hstuck : List.Forall₂ (fun x why => ∃ u,
      x.rule (nested (depth + 1)) (c.speculating s) s = .error why u) alts failures) :
    let all := (failures.flatMap (·.expected)).eraseDups
    let hinting : State := { s with hint := some all }
    ∃ (i : Nat) (x : Alternative α) (why : Stuck) (a : α) (t : State), alts[i]? = some x ∧
      FirstCheapest failures i why ∧ x.rule (nested (depth + 1)) c hinting = .ok a t ∧
      alt (alts.map (·.rule (nested (depth + 1)))) c s = .ok a { t with hint := none } ∧
      ((x.isCall = true → SuffixesSpare (nested (depth + 1)) c hinting) →
        FirstLists (nested (depth + 1)) c all x.isCall hinting t) := by
  intro all hinting
  have hrules : AllStuck (alts.map (·.rule (nested (depth + 1)))) (c.speculating s) s failures := by
    rw [AllStuck, List.forall₂_map_left_iff]
    refine hstuck.imp fun x why ⟨u, herr⟩ => ?_
    cases (x.answers depth).restores hs hhint herr
    exact herr
  have hlength := hrules.length_eq
  have hfailures : failures ≠ [] := by
    rintro rfl
    exact hne (List.map_eq_nil_iff.1 (List.eq_nil_of_length_eq_zero hlength))
  obtain ⟨i, r, why, hr, hcheapest, hchosen⟩ := cheapest?_spec hlength hfailures
  obtain ⟨x, hx, rfl⟩ := Option.map_eq_some_iff.1 (List.getElem?_map.symm.trans hr)
  have hpair : (x.rule (nested (depth + 1)), why) ∈ (alts.map _).zip failures :=
    List.mem_of_getElem? (List.getElem?_zip_eq_some.2 ⟨hr, hcheapest.get⟩)
  have herr := (List.forall₂_iff_zip.1 hrules).2 hpair
  obtain ⟨a, t, hok, hlists⟩ := (x.answers depth).repairs all hs hc hhint herr
  refine ⟨i, x, why, a, t, hx, hcheapest, hok, ?_, hlists⟩
  have hhinted : alt (alts.map (·.rule (nested (depth + 1)))) c s =
      hinted all (x.rule (nested (depth + 1))) c s := by
    simp only [alt, hrules.firstOf, hchosen, hc, if_true]
    rfl
  rw [hhinted, hinted, if_neg (by rw [hhint]; exact Bool.false_ne_true), hok]

/-- In `x.` the name that is put in after the dot takes the hint, and both are given back. What is
put in after that for the missing arguments does not list `function`. -/
example :
    let rules : List (Rule Unit) :=
      [(fun _ => ()) <$> call (nested 1), (fun _ => ()) <$> keyword .function_]
    let stream : TokenStream := .ofTokens [⟨.ident "x", default⟩, ⟨.symbol .dot, default⟩]
    ((alt rules).run stream 1 ()).2.head?.bind Diagnostic.filled? = some argsExpected := by
  decide +kernel

/-- Of `x`, where a call or a number is to be read, only the arguments are missing. -/
theorem choice_lists_all_call_or_number :
    let c := Rule.start (.ofTokens [⟨.ident "x", default⟩]) 1
    let alts : List (Alternative Unit) :=
      [.map (fun _ => ()) (.prefixExp .callTerminated), .map (fun _ => ()) .number]
    let failures : List Stuck := [⟨argsExpected, 4⟩, ⟨[.named "number"], 5⟩]
    alts ≠ [] ∧ c.Proper initial ∧ c.isCommitted initial = true ∧ initial.hint = none ∧
      List.Forall₂ (fun x why => ∃ u,
        x.rule (nested 1) (c.speculating initial) initial = .error why u) alts failures ∧
      ∃ a t later d earlier, alt (alts.map (·.rule (nested 1))) c initial = .ok a t ∧
        t.hint = none ∧ t.diags = later ++ d :: earlier ∧
        d.filled? = some (argsExpected ++ [.named "number"]) := by
  intro c alts failures
  have hs : c.Proper initial := proper_start _ _
  have hstuck : List.Forall₂ (fun x why => ∃ u,
      Alternative.rule (nested 1) x (c.speculating initial) initial = .error why u) alts
      failures :=
    .cons ⟨initial, by decide +kernel⟩
      (.cons ⟨initial, by decide +kernel⟩ .nil)
  refine ⟨List.cons_ne_nil _ _, hs, rfl, rfl, hstuck, ?_⟩
  obtain ⟨i, x, why, a, t, -, -, -, halt, hlists⟩ :=
    choice_lists_all (List.cons_ne_nil _ _) hs rfl rfl hstuck
  let hinting : State := ⟨0, [], some (argsExpected ++ [.named "number"])⟩
  have hspare : SuffixesSpare (nested 1) c hinting := by
    intro h u p v hfirst hok _
    have hhead : head (nested 1) c hinting =
      .ok ⟨.name "x", default⟩ { hinting with cursor := 1 } := rfl
    have hend : suffixRound (nested 1) c { hinting with cursor := 1 } =
      .ok none { hinting with cursor := 1 } := rfl
    cases (prefixExp_unrestricted_of_head hhead (collect_of_none hend)).symm.trans hok
    cases hhead.symm.trans hfirst
    exact .of_eq rfl
  obtain ⟨later, d, earlier, hdiags, hd, -⟩ := hlists fun _ => hspare
  exact ⟨a, _, later, d, _, halt, rfl, hdiags, hd⟩

/-- In `(function() ) end)` the head of the call first reports the parenthesis inside the function,
which is passed over, so the first diagnostic lists nothing of what the choice expected. -/
theorem head_reports_first :
    let c := Rule.start (.ofTokens [⟨.symbol .openParen, default⟩, ⟨.keyword .function_, default⟩,
      ⟨.symbol .openParen, default⟩, ⟨.symbol .closeParen, default⟩,
      ⟨.symbol .closeParen, default⟩, ⟨.keyword .end_, default⟩,
      ⟨.symbol .closeParen, default⟩]) 2
    let alts : List (Alternative Unit) :=
      [.map (fun _ => ()) (.prefixExp .callTerminated),
        .map (fun _ => ()) (.token (.keyword .function_))]
    let failures : List Stuck := [⟨argsExpected, 4⟩, ⟨[.token (.keyword .function_)], 4⟩]
    c.Proper initial ∧ c.isCommitted initial = true ∧ initial.hint = none ∧
      List.Forall₂ (fun x why => ∃ u,
        x.rule (nested 2) (c.speculating initial) initial = .error why u) alts failures ∧
      ∃ a t d, alt (alts.map (·.rule (nested 2))) c initial = .ok a t ∧
        t.diags.getLast? = some d ∧
        ∀ found, d.cause ≠ .unexpected found (failures.flatMap (·.expected)).eraseDups := by
  intro c alts failures
  refine ⟨proper_start _ _, rfl, rfl, .cons ⟨initial, by decide +kernel⟩
    (.cons ⟨initial, by decide +kernel⟩ .nil), ?_⟩
  let all := (failures.flatMap (·.expected)).eraseDups
  let skipped : Diagnostic :=
    ⟨default, .unexpected (some (.symbol .closeParen)) [.named "statement"], .skipped 1⟩
  refine ⟨(), ⟨7, [⟨default, .unexpected none [.token (.symbol .closeParen)],
    .inserted (.symbol .closeParen) 2⟩, ⟨default, .unexpected none all,
    .inserted (.symbol .openParen) 4⟩, skipped], none⟩, skipped, ?_, rfl, ?_⟩
  · decide +kernel
  · rintro found ⟨⟩

end LuaSyntax.Grammar
