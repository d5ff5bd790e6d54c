import LuaSyntax.Proofs.Grammar.Scheme
/-!
# Where a rule is stuck over any level

Whether a rule that begins with a token of its own is stuck depends on the tokens ahead alone, and
not on the rules one level down.
-/

namespace LuaSyntax

namespace Rule

variable {α β : Type} {rule : Rule α} {c : Context} {s t : State} {ts : List Token}

/-- A matcher is stuck at a token that it does not accept, or at the end. -/
theorem refuses_of_stuck_satisfy {m : Matcher α} {why : Stuck}
    (herr : satisfy m c s = .error why t) : Refuses (satisfy m) (c.ahead s) := by
  refine needs_satisfy (p := fun u => (m.accept u).isSome) (fun u a hu => by rw [hu]; rfl) _ ?_
  intro u hu
  rw [← c.map_next?] at hu
  obtain ⟨v, found, rfl⟩ := Option.map_eq_some_iff.1 hu
  refine Option.isSome_eq_false_iff.2 (Option.isNone_iff_eq_none.2 ?_)
  cases haccept : m.accept v.node with
  | none => rfl
  | some a => cases (satisfy_of_accept found haccept).symm.trans herr

/-- A repetition that finds nothing, and then a rule that is stuck. -/
theorem Refuses.many_bind {f : List α → Rule β} (h : Refuses rule ts) (hf : Refuses (f []) ts) :
    Refuses (many rule >>= f) ts := by
  intro c s hs hc hahead
  obtain ⟨why, herr⟩ := hf c s hs hc hahead
  have hmany : many rule c s = .ok [] s := collect_of_none (bind_of_ok (h.optional hs hahead))
  exact ⟨why, by rw [bind_of_ok hmany, herr]⟩

/-- A rule that runs like one that refuses. -/
theorem Refuses.congr {plain : Rule α} (h : Refuses plain ts)
    (heq : ∀ c s, c.Proper s → rule c s = plain c s) : Refuses rule ts := by
  intro c s hs hc hahead
  rw [heq c s hs]
  exact h c s hs hc hahead

end Rule

namespace Grammar

open Rule

variable {α : Type} {start : Start} {closed : Bool} {rule : Level → Rule α} {inner inner' : Level}
  {law law' : Law} {L L' : Language} {c : Context} {s t : State}

theorem refuses_of_stuck_fieldName {why : Stuck} (herr : fieldName c s = .error why t) :
    Refuses fieldName (c.ahead s) := by
  refine refuses_fieldName ?_
  intro name us hahead hequal
  obtain ⟨us, rfl⟩ := List.head?_eq_some_iff.1 hequal
  obtain ⟨u, found, hu⟩ := c.exists_next? hahead
  have hread : c.ahead s = [.ident name] ++ .symbol .equal :: us := hahead
  have hnext : c.ahead (s.advance 1) = .symbol .equal :: us := c.ahead_of_read hread rfl
  obtain ⟨v, found', hv⟩ := c.exists_next? hnext
  have hnamed : NamedNext c s ⟨name, u.span⟩ :=
    ⟨by rw [found, ← hu], v.span, by rw [found', ← hv]⟩
  cases (fieldName_of_next hnamed).symm.trans herr

/-- Where a rule of the grammar is stuck, so is the same rule over another level. -/
theorem Scheme.refuses (h : Scheme start closed rule) (hstart : start = .token)
    (hsound : inner.Sound law L) (hsound' : inner'.Sound law' L') (hs : c.Proper s)
    (hc : c.isCommitted s = false) {why : Stuck} (herr : rule inner c s = .error why t) :
    Refuses (rule inner') (c.ahead s) := by
  induction h generalizing c s t why with
  | pure _ | record _ _ | look _ _ | skip _ _ _ | expr | block | optional _ _ _ | collect _ =>
    cases hstart
  | satisfy m => exact refuses_of_stuck_satisfy herr
  | fieldName => exact refuses_of_stuck_fieldName herr
  | seq h hf _ ih _ =>
    subst hstart
    exact (ih rfl hs hc ((h.begins hsound).error_of_bind (fun a => (hf a).orderly hsound) hs
      herr)).bind
  | manySeq h hf ih ihf =>
    have horderly (as) := (hf as).orderly hsound
    rcases (h.begins hsound).many_cases hs with ⟨as, u, hmany, hu, hlt⟩ | ⟨⟨why', hitem⟩, hmany⟩
    · exact absurd ((bind_of_ok hmany).symm.trans herr) ((horderly as).not_stuck hs hu hlt)
    · have hrefuses := ih rfl hs.speculating (Context.isCommitted_speculating hs) hitem
      rw [c.ahead_speculating] at hrefuses
      exact hrefuses.many_bind (ihf [] rfl hs hc ((bind_of_ok hmany).symm.trans herr))
  | located _ _ ih => exact (ih hstart hs hc (error_of_located herr)).located
  | alt rules hne h _ ih =>
    dsimp only at herr
    refine .alt ?_
    rw [List.forall_mem_map]
    intro rule hrule
    cases hfirst : firstOf (rules.map (· inner)) (c.speculating s) s with
    | ok a u =>
      rw [Rule.alt, hfirst] at herr
      cases herr
    | error failures u =>
      obtain ⟨v, why', w, hv, hstuck⟩ :=
        (stuck_of_firstOf hfirst).2 (rule inner) (List.mem_map_of_mem hrule)
      have hcursor : v.cursor = s.cursor := congrArg Progress.cursor hv
      have hrefuses := ih rule hrule hstart (hs.speculating.congr hcursor)
        (by rw [Context.isCommitted_congr hcursor, Context.isCommitted_speculating hs]) hstuck
      rw [c.ahead_speculating, Context.ahead, hcursor] at hrefuses
      exact hrefuses
  | prefixExp hhead hsuffix ih _ =>
    dsimp only at herr
    rw [prefixExp_unrestricted hsound hs] at herr
    have hrest (a : Located Head) : Orderly
          (do return ⟨a, ← Rule.many (suffix inner)⟩ : Rule PrefixExp) :=
      (hsuffix.orderly hsound).many.bind fun _ => .pure _
    have hrefuses := ih rfl hs hc ((hhead.begins hsound).error_of_bind hrest hs herr)
    exact hrefuses.bind.congr fun _ _ => prefixExp_unrestricted hsound'
  | weaken _ _ htoken _ ih => exact ih (htoken hstart) hs hc herr

end Grammar

end LuaSyntax
