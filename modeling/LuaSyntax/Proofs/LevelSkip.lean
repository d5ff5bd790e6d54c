import LuaSyntax.Proofs.Rule.Reads
import Mathlib.Data.List.Induction
/-!
# Passing over a nesting level

The rest of a nesting level is found by counting: a token that opens a construct adds one to a
counter, and one that closes a construct takes one away. The counter never goes below zero, and it
is zero exactly where every opener passed over has its closer among the tokens passed over. So the
tokens before the first that ends the level are passed over, no more and no less.
-/

namespace LuaSyntax

/-! ### Openers and closers -/

/-- Token lists in which every opener has a closer and every closer an opener, whatever their kinds.
-/
inductive WellNested : List Token → Prop
  | nil : WellNested []
  | plain {t : Token} {ts : List Token} (hopens : t.opensNesting = false)
      (hcloses : t.closesNesting = false) (rest : WellNested ts) : WellNested (t :: ts)
  | nest {t u : Token} {ts us : List Token} (hopens : t.opensNesting = true)
      (inside : WellNested ts) (hcloses : u.closesNesting = true) (rest : WellNested us) :
      WellNested (t :: ts ++ u :: us)

/-- Every opener among the tokens is matched by a closer among them. -/
def Matched (ts : List Token) : Prop :=
  ∀ before t after, ts = before ++ t :: after → t.opensNesting = true →
    ∃ inside u rest, after = inside ++ u :: rest ∧ WellNested inside ∧ u.closesNesting = true

theorem Matched.suffix {ts us : List Token} (h : Matched (ts ++ us)) : Matched us := by
  intro before t after hsplit hopens
  refine h (ts ++ before) t after ?_ hopens
  rw [hsplit, List.append_assoc]

theorem opensNesting_of_closesNesting {t : Token} (h : t.closesNesting = true) :
    t.opensNesting = false := by
  cases t with
  | keyword k => cases k <;> first | rfl | cases h
  | symbol s => cases s <;> first | rfl | cases h
  | _ => rfl

theorem nesting_cases (t : Token) : t.closesNesting = true ∨ t.opensNesting = true ∨
    t.opensNesting = false ∧ t.closesNesting = false := by
  cases t.closesNesting <;> cases t.opensNesting <;> simp

namespace Rule

variable {t : Token} {ts : List Token} {separators : Bool} {depth : Nat}

/-! ### The counter -/

/-- The counter after the tokens have been passed over. -/
def levelAfter (ts : List Token) : Nat := ts.foldl depthAfter 0

/-- No closer among the tokens is met while the counter is zero. -/
def NeverBelow (ts : List Token) : Prop :=
  ∀ before t after, ts = before ++ t :: after → t.closesNesting = true → 0 < levelAfter before

theorem depthAfter_of_opens (h : t.opensNesting = true) : depthAfter depth t = depth + 1 := if_pos h

theorem depthAfter_of_closes (h : t.closesNesting = true) :
    depthAfter (depth + 1) t = depth := by
  simp [depthAfter, h, opensNesting_of_closesNesting h]

theorem depthAfter_of_plain (hopens : t.opensNesting = false) (hcloses : t.closesNesting = false) :
    depthAfter depth t = depth := by
  simp [depthAfter, hopens, hcloses]

theorem foldl_of_wellNested (h : WellNested ts) (depth : Nat) :
    ts.foldl depthAfter depth = depth := by
  induction h generalizing depth with
  | nil => rfl
  | plain hopens hcloses _ ih => rw [List.foldl_cons, depthAfter_of_plain hopens hcloses, ih]
  | nest hopens _ hcloses _ ihinside ihrest =>
    rw [List.cons_append, List.foldl_cons, depthAfter_of_opens hopens, List.foldl_append, ihinside,
      List.foldl_cons, depthAfter_of_closes hcloses, ihrest]

/-- Where the counter comes down, the construct that was open has been closed. -/
theorem exists_closer {ts : List Token} {depth : Nat}
    (h : ts.foldl depthAfter (depth + 1) ≤ depth) :
    ∃ inside u rest, ts = inside ++ u :: rest ∧ WellNested inside ∧ u.closesNesting = true := by
  induction hn : ts.length using Nat.strongRecOn generalizing ts depth with
  | ind n ih =>
    cases ts with
    | nil => exact absurd h (Nat.not_succ_le_self depth)
    | cons t ts =>
      rw [List.length_cons] at hn
      rw [List.foldl_cons] at h
      rcases nesting_cases t with hcloses | hopens | ⟨hopens, hcloses⟩
      · exact ⟨[], t, ts, rfl, .nil, hcloses⟩
      · -- First the construct that `t` opens is closed, then the one that was open before it.
        rw [depthAfter_of_opens hopens] at h
        obtain ⟨inside, u, rest, rfl, hinside, hu⟩ := ih _ (by omega) (Nat.le_succ_of_le h) rfl
        rw [List.foldl_append, foldl_of_wellNested hinside, List.foldl_cons,
          depthAfter_of_closes hu] at h
        rw [List.length_append, List.length_cons] at hn
        obtain ⟨inside', u', rest', rfl, hinside', hu'⟩ := ih _ (by omega) h rfl
        exact ⟨t :: inside ++ u :: inside', u', rest', by simp,
          .nest hopens hinside hu hinside', hu'⟩
      · rw [depthAfter_of_plain hopens hcloses] at h
        obtain ⟨inside, u, rest, rfl, hinside, hu⟩ := ih _ (by omega) h rfl
        exact ⟨t :: inside, u, rest, rfl, .plain hopens hcloses hinside, hu⟩

theorem matched_of_levelAfter (h : levelAfter ts = 0) : Matched ts := by
  rintro before t after rfl hopens
  rw [levelAfter, List.foldl_append, List.foldl_cons, depthAfter_of_opens hopens] at h
  exact exists_closer (h ▸ Nat.zero_le _)

theorem NeverBelow.suffix {us : List Token} (h : NeverBelow (ts ++ us)) (hts : levelAfter ts = 0) :
    NeverBelow us := by
  intro before t after hsplit hcloses
  have hlevel := h (ts ++ before) t after (by rw [hsplit, List.append_assoc]) hcloses
  rwa [levelAfter, List.foldl_append, ← levelAfter, hts] at hlevel

theorem NeverBelow.of_append {us : List Token} (h : NeverBelow (ts ++ us)) : NeverBelow ts := by
  intro before t after hsplit hcloses
  exact h before t (after ++ us) (by simp [hsplit]) hcloses

theorem NeverBelow.wellNested (h : NeverBelow ts) (hmatched : Matched ts) : WellNested ts := by
  induction hn : ts.length using Nat.strongRecOn generalizing ts with
  | ind n ih =>
    cases ts with
    | nil => exact .nil
    | cons t ts =>
      rw [List.length_cons] at hn
      rcases nesting_cases t with hcloses | hopens | ⟨hopens, hcloses⟩
      · exact absurd (h [] t ts rfl hcloses) (Nat.lt_irrefl 0)
      · obtain ⟨inside, u, rest, rfl, hinside, hu⟩ := hmatched [] t ts rfl hopens
        have hsplit : t :: (inside ++ u :: rest) = (t :: inside ++ [u]) ++ rest := by simp
        have hlevel : levelAfter (t :: inside ++ [u]) = 0 :=
          foldl_of_wellNested (.nest hopens hinside hu .nil) 0
        rw [List.length_append, List.length_cons] at hn
        have hrest := ih rest.length (by omega) (NeverBelow.suffix (hsplit ▸ h) hlevel)
          (Matched.suffix (hsplit ▸ hmatched)) rfl
        exact .nest hopens hinside hu hrest
      · have hlevel : levelAfter [t] = 0 := depthAfter_of_plain hopens hcloses
        have hsplit : t :: ts = [t] ++ ts := rfl
        have hrest := ih ts.length (by omega) (NeverBelow.suffix (hsplit ▸ h) hlevel)
          (Matched.suffix (hsplit ▸ hmatched)) rfl
        exact .plain hopens hcloses hrest

/-- The counter tells whether every opener has its closer. -/
theorem NeverBelow.levelAfter_eq_zero_iff (h : NeverBelow ts) : levelAfter ts = 0 ↔ Matched ts :=
  ⟨matched_of_levelAfter, fun hmatched => foldl_of_wellNested (h.wellNested hmatched) 0⟩

/-- The counter is the number of openers less that of closers. -/
theorem NeverBelow.levelAfter_add (h : NeverBelow ts) :
    levelAfter ts + ts.countP (·.closesNesting) = ts.countP (·.opensNesting) := by
  induction ts using List.reverseRecOn with
  | nil => rfl
  | append_singleton ts t ih =>
    have hcount := ih h.of_append
    rw [levelAfter] at hcount
    rw [levelAfter, List.foldl_append, List.foldl_cons, List.foldl_nil, List.countP_append,
      List.countP_append, List.countP_singleton, List.countP_singleton, depthAfter]
    cases hcloses : t.closesNesting with
    | true =>
      have hlevel := h ts t [] (by simp) hcloses
      rw [levelAfter] at hlevel
      simp only [opensNesting_of_closesNesting hcloses]
      grind
    | false => cases t.opensNesting <;> grind

/-! ### The tokens passed over -/

theorem levelLength_cons_eq_zero :
    levelLength separators depth (t :: ts) = 0 ↔ depth = 0 ∧ endsLevel separators t = true := by
  rw [levelLength]
  by_cases hdepth : depth = 0 <;> simp [hdepth]

/-- After tokens that are all passed over, the scan goes on with the counter that they leave. -/
theorem levelLength_append {before : List Token}
    (h : before.length ≤ levelLength separators depth (before ++ ts)) :
    levelLength separators depth (before ++ ts) =
      before.length + levelLength separators (before.foldl depthAfter depth) ts := by
  induction before generalizing depth with
  | nil => exact (Nat.zero_add _).symm
  | cons t before ih =>
    rw [List.cons_append, levelLength] at h ⊢
    split at h
    · cases h
    · next hgoes =>
      rw [if_neg hgoes, ih (Nat.le_of_succ_le_succ h), List.length_cons, List.foldl_cons]
      omega

/-- The tokens are the rest of a nesting level before `rest`: none of them ends the level with every
opener before it matched, and the token after them, if there is one, does. -/
structure IsRestOfLevel (separators : Bool) (skipped rest : List Token) : Prop where
  goes_on : ∀ before t after, skipped = before ++ t :: after → Matched before →
    endsLevel separators t = false
  stops : ∀ t, rest.head? = some t → Matched skipped ∧ endsLevel separators t = true

section

variable {skipped rest : List Token}
  (h : levelLength separators 0 (skipped ++ rest) = skipped.length)
include h

/-- The counter stands at `levelAfter before` once `before` has been passed over. -/
theorem levelLength_of_skipped {before after : List Token} (hsplit : skipped = before ++ after) :
    levelLength separators (levelAfter before) (after ++ rest) = after.length := by
  subst hsplit
  rw [List.append_assoc, List.length_append] at h
  have hlength := levelLength_append (by rw [h]; exact Nat.le_add_right _ _)
  rw [h] at hlength
  exact (Nat.add_left_cancel hlength).symm

theorem not_ends_of_skipped {before after : List Token} (hsplit : skipped = before ++ t :: after) :
    ¬ (levelAfter before = 0 ∧ endsLevel separators t = true) := by
  intro hends
  have hlength := levelLength_of_skipped h hsplit
  rw [List.cons_append, levelLength_cons_eq_zero.2 hends] at hlength
  cases hlength

theorem neverBelow_of_skipped : NeverBelow skipped := by
  intro before t after hsplit hcloses
  refine Nat.pos_of_ne_zero fun hzero => not_ends_of_skipped h hsplit ⟨hzero, ?_⟩
  simp [endsLevel, hcloses]

theorem isRestOfLevel_of_skipped : IsRestOfLevel separators skipped rest := by
  have hbelow := neverBelow_of_skipped h
  refine ⟨fun before t after hsplit hmatched => ?_, fun t ht => ?_⟩
  · have hbefore : NeverBelow before := (hsplit ▸ hbelow).of_append
    have hzero := hbefore.levelAfter_eq_zero_iff.2 hmatched
    exact Bool.eq_false_iff.2 fun hends => not_ends_of_skipped h hsplit ⟨hzero, hends⟩
  · obtain ⟨after, rfl⟩ := List.head?_eq_some_iff.1 ht
    have hstop := levelLength_of_skipped h (List.append_nil skipped).symm
    obtain ⟨hzero, hends⟩ := levelLength_cons_eq_zero.1 hstop
    exact ⟨matched_of_levelAfter hzero, hends⟩

end

/-- Where there are tokens to pass over, one diagnostic is recorded for all of them. -/
theorem skipLevel_of_ne_nil {c : Context} {s : State} {skipped rest : List Token}
    (hahead : c.ahead s = skipped ++ rest)
    (h : levelLength separators 0 (c.ahead s) = skipped.length) (hne : skipped ≠ []) :
    ∃ first last, c.next? s = some first ∧
      c.stream.get? (s.cursor + skipped.length - 1) = some last ∧
      skipLevel separators c s = .ok (some (first.span.join last.span))
        ⟨s.cursor + skipped.length,
          ⟨first.span.join last.span, .tooDeep c.limit, .skipped skipped.length⟩ :: s.diags,
          s.hint⟩ := by
  have hpos : 0 < skipped.length := List.length_pos_iff.2 hne
  have hsize := c.length_ahead s
  rw [hahead, List.length_append, Context.remaining] at hsize
  obtain ⟨first, hfirst⟩ : ∃ t, c.stream.get? s.cursor = some t :=
    TokenStream.exists_get? (by omega)
  obtain ⟨last, hlast⟩ : ∃ t, c.stream.get? (s.cursor + skipped.length - 1) = some t :=
    TokenStream.exists_get? (by omega)
  have hspan : c.stream.spanBetween s.cursor (s.cursor + skipped.length) =
      first.span.join last.span := by
    rw [TokenStream.spanBetween, if_neg (by omega)]
    simp only [hfirst, hlast]
  have hcount : levelLength separators 0 (c.ahead s) ≠ 0 := by omega
  have hskip : skipLevel separators c s = _ := if_neg hcount
  rw [← Context.ahead, h, hspan] at hskip
  exact ⟨first, last, hfirst, hlast, hskip⟩

/-- Of the tokens ahead, those are passed over that are the rest of the nesting level. At every one
of them the scan stands at the number of openers before it less that of closers, and it meets no
closer at zero. If there are any, the cursor moves behind them and one diagnostic is recorded, with
their number and their span; otherwise nothing happens. -/
theorem skipLevel_exact (separators : Bool) (c : Context) (s : State) :
    ∃ skipped rest, c.ahead s = skipped ++ rest ∧ IsRestOfLevel separators skipped rest ∧
      NeverBelow skipped ∧
      (∀ before after, skipped = before ++ after →
        levelLength separators (levelAfter before) (after ++ rest) = after.length ∧
        levelAfter before + before.countP (·.closesNesting) = before.countP (·.opensNesting)) ∧
      (skipped = [] → skipLevel separators c s = .ok none s) ∧
      (skipped ≠ [] → ∃ first last, c.next? s = some first ∧
        c.stream.get? (s.cursor + skipped.length - 1) = some last ∧
        skipLevel separators c s = .ok (some (first.span.join last.span))
          ⟨s.cursor + skipped.length,
            ⟨first.span.join last.span, .tooDeep c.limit, .skipped skipped.length⟩ :: s.diags,
            s.hint⟩) := by
  let count := levelLength separators 0 (c.ahead s)
  have hahead : c.ahead s = (c.ahead s).take count ++ (c.ahead s).drop count :=
    (List.take_append_drop count _).symm
  have hlength : count = ((c.ahead s).take count).length :=
    (List.length_take_of_le (levelLength_le separators 0 _)).symm
  have hscan : levelLength separators 0 ((c.ahead s).take count ++ (c.ahead s).drop count) =
      ((c.ahead s).take count).length := by rwa [← hahead]
  have hbelow := neverBelow_of_skipped hscan
  refine ⟨_, _, hahead, isRestOfLevel_of_skipped hscan, hbelow, fun before after hsplit => ?_,
    fun hnil => ?_, skipLevel_of_ne_nil hahead hlength⟩
  · exact ⟨levelLength_of_skipped hscan hsplit, (hsplit ▸ hbelow).of_append.levelAfter_add⟩
  · have hnone : count = 0 := by rw [hlength, hnil, List.length_nil]
    exact if_pos hnone

/-- Between the parentheses neither the comma nor `else` ends the level. -/
example : levelLength true 0
    [.symbol .openParen, .symbol .comma, .keyword .else_, .symbol .closeParen, .ident "x",
      .symbol .comma, .keyword .end_] = 5 := by
  decide

end Rule

end LuaSyntax
