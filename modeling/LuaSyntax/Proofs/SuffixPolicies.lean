import LuaSyntax.Proofs.BlockEnd
import LuaSyntax.Proofs.Grammar.StmtRepair
import LuaSyntax.Proofs.Rule.Hint
import Mathlib.Data.List.TakeWhile
/-!
# What the suffix policies keep

Under every policy the same suffixes are read after the head. A policy keeps the longest start of
them that it allows, and the run then stands where it stood when the last of these had been read.
Where a call is required and there is none, the missing arguments are put in right after the head,
or an uncommitted run gives the head back too.
-/

namespace LuaSyntax

/-- The first `count` elements are the longest start of the list that ends in an element satisfying
`p`, or there is no such element and `count` is zero. -/
structure LongestStart {α : Type} (p : α → Bool) (as : List α) (count : Nat) : Prop where
  le_length : count ≤ as.length
  last : ∀ a, (as.take count).getLast? = some a → p a = true
  rest : ∀ a ∈ as.drop count, p a = false

theorem LongestStart.of_map {α β : Type} {p : β → Bool} {g : α → β} {as : List α} {count : Nat}
    (h : LongestStart (fun a => p (g a)) as count) : LongestStart p (as.map g) count where
  le_length := by
    rw [List.length_map]
    exact h.le_length
  last b hb := by
    rw [← List.map_take, List.getLast?_map] at hb
    obtain ⟨a, ha, rfl⟩ := Option.map_eq_some_iff.1 hb
    exact h.last a ha
  rest := by
    rw [← List.map_drop, List.forall_mem_map]
    exact h.rest

namespace Grammar

open Rule

variable {α : Type} {inner : Level} {law : Law} {L : Language} {c : Context} {s t u : State}
  {marks : List (Located Suffix × State)}

theorem longestStart_keepThroughLast (p : α → Bool) (as : List α) :
    LongestStart p as (keepThroughLast p as).length ∧
      keepThroughLast p as = as.take (keepThroughLast p as).length := by
  have hstart := keepThroughLast_isPrefix p as
  have htake := List.prefix_iff_eq_take.1 hstart
  refine ⟨⟨hstart.length_le, fun a ha => ?_, ?_⟩, htake⟩
  · rw [← htake, keepThroughLast, List.getLast?_reverse] at ha
    have hhead := List.head?_dropWhile_not (!p ·) as.reverse
    rw [ha] at hhead
    simpa using hhead
  · have hsplit : as = keepThroughLast p as ++ (as.reverse.takeWhile (!p ·)).reverse := by
      rw [keepThroughLast, ← List.reverse_append, List.takeWhile_append_dropWhile,
        List.reverse_reverse]
    have hdrop : as.drop (keepThroughLast p as).length =
        (as.reverse.takeWhile (!p ·)).reverse :=
      (congrArg (List.drop _) hsplit).trans List.drop_left
    rw [hdrop]
    intro a ha
    simpa using List.all_eq_true.1 List.all_takeWhile a (List.mem_reverse.1 ha)

/-! ### The suffixes after a head -/

/-- The suffixes are read one after another, each up to the state beside it, until there is none. -/
inductive SuffixesRead (inner : Level) (c : Context) : State → List (Located Suffix × State) → Prop
  | nil {s : State} (h : optional (suffix inner) c s = .ok none s) : SuffixesRead inner c s []
  | cons {s t : State} {a : Located Suffix} {marks : List (Located Suffix × State)}
    (h : optional (suffix inner) c s = .ok (some a) t) (rest : SuffixesRead inner c t marks) :
    SuffixesRead inner c s ((a, t) :: marks)

theorem suffixesRead_of_suffixChain (hinner : inner.Sound law L) (hs : c.Proper s)
    (hok : suffixChain inner c s = .ok marks t) : SuffixesRead inner c s marks := by
  have hrounds := loopRun_of_collect hok
  change LoopRun (suffixRound inner) c s marks t at hrounds
  clear hok
  have hsuffix := scheme_suffix.begins hinner
  induction hrounds with
  | stop hstep =>
    rcases hsuffix.optional_cases hs with ⟨a, u, -, hsome, -⟩ | ⟨-, hnone⟩
    · cases (bind_of_ok hsome).symm.trans hstep
    · exact .nil hnone
  | last hstep =>
    obtain ⟨r, u, -, hrest⟩ := ok_of_bind hstep
    cases r <;> cases hrest
  | stalled hstep hstalled =>
    rcases hsuffix.optional_cases hs with ⟨a, u, -, hsome, hu, hlt⟩ | ⟨-, hnone⟩
    · cases (bind_of_ok hsome).symm.trans hstep
      have hle := hu.le_size
      unfold Context.remaining at hstalled
      omega
    · cases (bind_of_ok hnone).symm.trans hstep
  | more hstep _ _ ih =>
    rcases hsuffix.optional_cases hs with ⟨a, u, -, hsome, hu, -⟩ | ⟨-, hnone⟩
    · cases (bind_of_ok hsome).symm.trans hstep
      exact .cons hsome (ih (hu.proper hs))
    · cases (bind_of_ok hnone).symm.trans hstep

/-- Where the first suffix is no call, none of the arguments that a call may have is there. -/
theorem args_stuck_of_no_call (hinner : inner.Sound law L) (hs : c.Proper s)
    (hread : SuffixesRead inner c s marks) (hnocall : ∀ m ∈ marks, m.1.node.isCall = false) :
    ∃ why, args inner (c.speculating s) s = .error why s := by
  have hargs := scheme_args.begins hinner
  cases hrun : args inner (c.speculating s) s with
  | error why u =>
    obtain rfl := hargs.restores hs.speculating hrun
    exact ⟨why, rfl⟩
  | ok b u =>
    -- The arguments would be those of a call, which is the first suffix that is tried.
    have hcall : callSuffix inner (c.speculating s) s = .ok (.call b.node) u := bind_of_ok hrun
    obtain ⟨span, hsuffix⟩ : ∃ span, suffix inner (c.speculating s) s =
        .ok ⟨.call b.node, span⟩ u := by
      refine ⟨_, located_of_ok ?_⟩
      simp only [alt, c.speculating_speculating, firstOf, hcall]
    have hsome := optional_of_ok hsuffix
    cases hread with
    | nil hnone => cases hnone.symm.trans hsome
    | cons hfirst _ =>
      cases hfirst.symm.trans hsome
      cases hnocall _ List.mem_cons_self

theorem stuck_of_token {v : Token} {why : Stuck} (herr : token v c s = .error why t) :
    (∀ found, c.next? s = some found → (Matcher.exactly v).accept found.node = none) ∧
      why = ⟨[.token v], v.insertionCost⟩ := by
  rcases error_of_bind herr with hread | ⟨a, u, -, hrest⟩
  · exact rejects_of_stuck hread
  · cases hrest

/-- An argument list after its opening parenthesis. -/
abbrev listArgsRest (inner : Level) : Rule Args := do
  let exprs ← optional (exprList inner)
  let _ ← symbol .closeParen
  return .list (exprs.getD [])

theorem scheme_listArgsRest : Scheme .any true listArgsRest :=
  (scheme_exprList.maybe nofun).before fun exprs =>
    (Scheme.symbol .closeParen).bind fun _ => .pure (Args.list (exprs.getD []))

/-- What each kind of arguments needs first. -/
theorem args_failures (hinner : inner.Sound law L) (hs : c.Proper s) {failures : List Stuck}
    (h : AllStuck [listArgs inner, tableArgs inner, strArgs] c s failures) :
    failures = [⟨[.token (.symbol .openParen)], 4⟩, ⟨[.token (.symbol .openBrace)], 4⟩,
      ⟨[.named "string literal"], 5⟩] ∧
    ∀ found, c.next? s = some found →
      (Matcher.exactly (.symbol .openParen)).accept found.node = none := by
  cases h with
  | @cons _ list _ _ hlist h =>
    cases h with
    | @cons _ table _ _ htable h =>
      cases h with
      | @cons _ literal _ _ hstr h =>
        cases h
        have hopenParen := (opening_token (.symbol .openParen)).error_of_bind
          (fun _ => scheme_listArgsRest.orderly hinner) hs hlist
        have hopenBrace : symbol .openBrace c s = .error table s := by
          rcases error_of_bind htable with htable | ⟨_, _, -, hrest⟩
          · refine (opening_token _).error_of_bind (fun _ => ?_) hs (error_of_located htable)
            exact (scheme_fields.before fun fs =>
              (Scheme.symbol .closeBrace).bind fun _ => .pure fs).orderly hinner
          · cases hrest
        have hliteral : satisfy .str c s = .error literal s := by
          rcases error_of_bind hstr with hliteral | ⟨_, _, -, hrest⟩
          · exact hliteral
          · cases hrest
        obtain ⟨hnext, rfl⟩ := stuck_of_token hopenParen
        obtain ⟨-, rfl⟩ := stuck_of_token hopenBrace
        obtain ⟨-, rfl⟩ := rejects_of_stuck hliteral
        exact ⟨rfl, hnext⟩

/-- The parenthesis that opens the arguments is put in, and they are read after it. -/
theorem listArgs_repaired (hinner : inner.Sound law L) (hs : c.Proper s)
    (hc : c.isCommitted s = true)
    (hnext : ∀ found, c.next? s = some found →
      (Matcher.exactly (.symbol .openParen)).accept found.node = none) :
    ∃ es t ds, listArgs inner c s = .ok (.list es) t ∧ t.diags =
      ds ++ inserting c s (s.hint.getD [.token (.symbol .openParen)]) (.symbol .openParen) 4 ::
        s.diags := by
  let opened : State :=
    { s.record (insertion (.exactly (.symbol .openParen)) c s) with hint := none }
  have hopen : symbol .openParen c s = .ok (.point (c.pos s)) opened :=
    bind_of_ok (satisfy_of_committed hnext hc)
  have hopened : c.Proper opened := hs.congr rfl
  have hrest := scheme_listArgsRest.orderly hinner
  cases hrun : listArgsRest inner c opened with
  | error why u =>
    have hcommitted := hrest.completes hopened hrun
    rw [show c.isCommitted opened = c.isCommitted s from rfl, hc] at hcommitted
    cases hcommitted
  | ok b t =>
    obtain ⟨ds, hdiags⟩ := (hrest.onward hopened hrun).diags
    obtain ⟨exprs, _, -, hclose⟩ := ok_of_bind hrun
    obtain ⟨_, _, -, hvalue⟩ := ok_of_bind hclose
    cases hvalue
    exact ⟨exprs.getD [], t, ds, (bind_of_ok hopen).trans hrun, hdiags.symm⟩

/-- What the arguments of a call may begin with. -/
abbrev argsExpected : List Expected :=
  [.token (.symbol .openParen), .token (.symbol .openBrace), .named "string literal"]

/-- Of the arguments that are missing, an argument list is the first that costs least. -/
theorem args_repaired (hinner : inner.Sound law L) (hs : c.Proper s) (hc : c.isCommitted s = true)
    {why : Stuck} (herr : args inner (c.speculating s) s = .error why s) :
    ∃ b es t ds, args inner c s = .ok b t ∧ b.node = .list es ∧ t.diags =
      ds ++ inserting c s (s.hint.getD argsExpected) (.symbol .openParen) 4 :: s.diags := by
  have hopening : ∀ r ∈ [listArgs inner, tableArgs inner, strArgs], Opening r :=
    List.forall_mem_cons.2 ⟨scheme_listArgs.begins hinner, List.forall_mem_cons.2
      ⟨scheme_tableArgs.begins hinner, List.forall_mem_singleton.2
        (scheme_strArgs.begins hinner)⟩⟩
  obtain ⟨failures, hall, -⟩ :=
    stuck_of_alt (List.cons_ne_nil _ _) hopening hs.speculating (error_of_located herr)
  rw [c.speculating_speculating] at hall
  obtain ⟨rfl, hnext⟩ := args_failures hinner hs.speculating hall
  rw [c.next?_speculating] at hnext
  have halt : alt [listArgs inner, tableArgs inner, strArgs] c s =
      hinted argsExpected (listArgs inner) c s := by
    simp only [alt, hall.firstOf, hc, if_true]
    rfl
  cases hhint : s.hint with
  | some hint =>
    obtain ⟨es, t, ds, hlist, hdiags⟩ := listArgs_repaired hinner hs hc hnext
    have hok := halt.trans ((if_pos (by rw [hhint]; rfl)).trans hlist)
    rw [hhint] at hdiags
    exact ⟨_, es, t, ds, located_of_ok hok, rfl, hdiags⟩
  | none =>
    obtain ⟨es, t, ds, hlist, hdiags⟩ := listArgs_repaired hinner
      (s := { s with hint := some argsExpected }) (hs.congr rfl) hc hnext
    have hok : alt [listArgs inner, tableArgs inner, strArgs] c s =
        .ok (.list es) { t with hint := none } := by
      rw [halt, hinted, if_neg (by rw [hhint]; exact Bool.false_ne_true), hlist]
    exact ⟨_, es, _, ds, located_of_ok hok, rfl, hdiags⟩

/-- Nothing is kept just where no suffix is allowed last. -/
theorem keptBy_eq_nil {policy : SuffixPolicy} :
    keptBy policy marks = [] ↔ ∀ m ∈ marks, policy.allowsLast m.1.node = false := by
  simp [keptBy, keepThroughLast, List.dropWhile_eq_nil_iff]

/-- A committed run that has to end in a call, where none of the suffixes is one: the head stays,
and the parenthesis that opens the missing arguments is the next thing that is put in. -/
theorem call_repaired (hinner : inner.Sound law L) (hsteady : inner.Steady) (hs : c.Proper s)
    (hc : c.isCommitted s = true) {a : Located Head} (hhead : head inner c s = .ok a t)
    (hchain : suffixChain inner c t = .ok marks (chainEnd t marks))
    (hnocall : ∀ m ∈ marks, m.1.node.isCall = false) :
    ∃ b es u ds, args inner c ((chainEnd t marks).rewind t) = .ok b u ∧ b.node = .list es ∧
      prefixExp inner .callTerminated c s = .ok ⟨a, [b.map .call]⟩ u ∧
      u.diags = ds ++ inserting c t ((chainEnd t marks).hint.getD argsExpected)
        (.symbol .openParen) 4 :: t.diags := by
  have ht := (scheme_head.begins hinner).onward hs hhead
  have hproper := ht.proper hs
  -- The arguments are read from after the head, but with the hint as the suffixes left it.
  let given : State := (chainEnd t marks).rewind t
  have hgiven : c.Proper given := hproper.congr rfl
  obtain ⟨why, hstuck⟩ := args_stuck_of_no_call hinner hproper
    (suffixesRead_of_suffixChain hinner hproper hchain) hnocall
  have hstuck' : args inner (c.speculating given) given = .error why given :=
    (thrifty_args hinner hsteady).fixed hproper.speculating hstuck rfl hgiven.speculating
      (Context.isCommitted_speculating hgiven) rfl
  obtain ⟨b, es, u, ds, hargs, hb, hdiags⟩ := args_repaired hinner hgiven
    (Context.isCommitted_of_le hs hc ht.cursor_le) hstuck'
  refine ⟨b, es, u, ds, hargs, hb, ?_, hdiags⟩
  rw [prefixExp_of_no_call hhead hchain (keptBy_eq_nil.2 hnocall) hc]
  change args inner c given = _ at hargs
  simp only [map_apply, given] at hargs ⊢
  rw [hargs]

/-! ### Policies -/

/-- Without a policy all suffixes are kept. -/
theorem prefixExp_unrestricted_of_head {a : Located Head} (hhead : head inner c s = .ok a t)
    (hchain : suffixChain inner c t = .ok marks (chainEnd t marks)) :
    prefixExp inner .unrestricted c s = .ok ⟨a, marks.map (·.1)⟩ (chainEnd t marks) := by
  have hkept : prefixExp inner .unrestricted c s = _ := prefixExp_of_kept hhead hchain nofun
  rw [keptBy_unrestricted] at hkept
  exact hkept

/-- Under the policy the run from `s` keeps the longest start of the suffixes of `p` that ends in
one satisfying `ends`. The cursor and the diagnostics are those after the last of them, or else
those after the head. -/
def Truncates (inner : Level) (c : Context) (s : State) (p : PrefixExp) (afterHead : State)
    (marks : List (Located Suffix × State)) (policy : SuffixPolicy) (ends : Suffix → Bool) : Prop :=
  ∃ count t, LongestStart (fun a => ends a.node) p.suffixes count ∧
    prefixExp inner policy c s = .ok ⟨p.head, p.suffixes.take count⟩ t ∧
    t.cursor = (chainEnd afterHead (marks.take count)).cursor ∧
    t.diags = (chainEnd afterHead (marks.take count)).diags

theorem truncates_of_kept {a : Located Head} {policy : SuffixPolicy}
    (hhead : head inner c s = .ok a t)
    (hchain : suffixChain inner c t = .ok marks (chainEnd t marks))
    (hkept : ¬ (policy = .callTerminated ∧ keptBy policy marks = [])) :
    Truncates inner c s ⟨a, marks.map (·.1)⟩ t marks policy policy.allowsLast := by
  obtain ⟨hlongest, htake⟩ :=
    longestStart_keepThroughLast (fun m => policy.allowsLast m.1.node) marks
  have hok := prefixExp_of_kept hhead hchain hkept
  rw [keptBy, htake, List.map_take] at hok
  exact ⟨_, (chainEnd t marks).rewind (chainEnd t (marks.take _)),
    hlongest.of_map (p := fun a : Located Suffix => policy.allowsLast a.node), hok, rfl, rfl⟩

/-- The suffixes after the head of a prefix expression are the same under every policy, and a policy
keeps the longest start of them that it allows. Where a call is required and there is none, a
committed run puts in the parenthesis of the missing arguments right after the head, and an
uncommitted one is stuck with the cursor and the diagnostics as they were. -/
theorem suffix_policies {depth : Nat} {c : Context} {s t : State} {p : PrefixExp}
    (hs : c.Proper s) (hok : prefixExp (nested depth) .unrestricted c s = .ok p t) :
    ∃ afterHead marks, head (nested depth) c s = .ok p.head afterHead ∧
      SuffixesRead (nested depth) c afterHead marks ∧
      p.suffixes = marks.map (·.1) ∧ t = chainEnd afterHead marks ∧
      Truncates (nested depth) c s p afterHead marks .indexTerminated Suffix.isIndex ∧
      ((∃ a ∈ p.suffixes, a.node.isCall = true) →
        Truncates (nested depth) c s p afterHead marks .callTerminated Suffix.isCall) ∧
      ((∀ a ∈ p.suffixes, a.node.isCall = false) →
        (c.isCommitted s = true → ∃ hint expected b es u ds,
          args (nested depth) c { afterHead with hint } = .ok b u ∧ b.node = .list es ∧
          prefixExp (nested depth) .callTerminated c s = .ok ⟨p.head, [b.map .call]⟩ u ∧
          u.diags = ds ++ inserting c afterHead expected (.symbol .openParen) 4 ::
            afterHead.diags) ∧
        (c.isCommitted s = false → ∃ why u,
          prefixExp (nested depth) .callTerminated c s = .error why u ∧ u.cursor = s.cursor ∧
            u.diags = s.diags)) := by
  have hinner := sound_lenient depth
  cases hhead : head (nested depth) c s with
  | error why u =>
    obtain rfl := (scheme_head.begins hinner).restores hs hhead
    cases (prefixExp_of_error hhead).symm.trans hok
  | ok a afterHead =>
    have hafter := ((scheme_head.begins hinner).onward hs hhead)
    have hproper := hafter.proper hs
    obtain ⟨marks, hchain, -⟩ := suffixChain_spec hinner hproper
    cases (prefixExp_unrestricted_of_head hhead hchain).symm.trans hok
    have hread := suffixesRead_of_suffixChain hinner hproper hchain
    refine ⟨afterHead, marks, rfl, hread, rfl, rfl, truncates_of_kept hhead hchain nofun,
      fun ⟨x, hx, hcall⟩ => ?_, fun hnocall => ?_⟩
    · obtain ⟨m, hm, rfl⟩ := List.mem_map.1 hx
      refine truncates_of_kept hhead hchain fun ⟨_, hnone⟩ => ?_
      cases hcall.symm.trans (keptBy_eq_nil.1 hnone m hm)
    · rw [List.forall_mem_map] at hnocall
      refine ⟨fun hc => ?_, fun hc => ?_⟩
      · obtain ⟨b, es, u, ds, hargs, hb, hcall, hdiags⟩ :=
          call_repaired hinner (steady_nested depth) hs hc hhead hchain hnocall
        exact ⟨_, _, b, es, u, ds, hargs, hb, hcall, hdiags⟩
      · obtain ⟨why, hstuck⟩ := prefixExp_stuck hhead hchain (keptBy_eq_nil.2 hnocall) hc
        exact ⟨why, _, hstuck, rfl, rfl⟩

/-- In `f "".x` a run that has to end in a call gives back the field. -/
theorem suffix_policies_call_then_field :
    let stream : TokenStream := .ofTokens [⟨.ident "f", default⟩, ⟨.str "", default⟩,
      ⟨.symbol .dot, default⟩, ⟨.ident "x", default⟩]
    let c := Rule.start stream 1
    c.Proper initial ∧ ∃ p t, prefixExp (nested 0) .unrestricted c initial = .ok p t ∧
      ∃ afterHead marks, SuffixesRead (nested 0) c afterHead marks ∧
        Truncates (nested 0) c initial p afterHead marks .indexTerminated Suffix.isIndex ∧
        Truncates (nested 0) c initial p afterHead marks .callTerminated Suffix.isCall := by
  intro stream c
  have hs : c.Proper initial := proper_start _ _
  have hhead : head (nested 0) c initial = .ok ⟨.name "f", default⟩ ⟨1, [], none⟩ := rfl
  have hcall : suffixRound (nested 0) c ⟨1, [], none⟩ =
    .ok (some ((⟨.call (.str ""), default⟩, ⟨2, [], none⟩), true)) ⟨2, [], none⟩ := rfl
  have hfield : suffixRound (nested 0) c ⟨2, [], none⟩ =
    .ok (some ((⟨.field ⟨"x", default⟩, default⟩, ⟨4, [], none⟩), true)) ⟨4, [], none⟩ := rfl
  have hend : suffixRound (nested 0) c ⟨4, [], none⟩ = .ok none ⟨4, [], none⟩ := rfl
  have hchain : suffixChain (nested 0) c ⟨1, [], none⟩ = .ok _ ⟨4, [], none⟩ :=
    collect_of_more hcall (by decide) (by decide)
      (collect_of_more hfield (by decide) (by decide) (collect_of_none hend))
  have hok := prefixExp_unrestricted_of_head hhead hchain
  obtain ⟨afterHead, marks, -, hread, -, -, hindex, hcall, -⟩ := suffix_policies hs hok
  exact ⟨hs, _, _, hok, afterHead, marks, hread, hindex, hcall ⟨_, List.mem_cons_self, rfl⟩⟩

end Grammar

end LuaSyntax
