import LuaSyntax.Proofs.Grammar.StmtScheme
import LuaSyntax.Proofs.Rule.Alike
/-!
# Levels that run alike

Over two levels that run alike from the cursor on, every rule runs alike. An atom and a statement
begin with a token of their own. So it is enough for them, as long as they are not committed, if the
levels run alike past that token. A committed atom that is missing is `nil`, hence for expressions
and blocks it is enough in any case.
-/

namespace LuaSyntax.Grammar

open Rule Operator

variable {α β : Type}

/-- From the cursor `from` on, the rules of both levels run alike over the stream. -/
def Level.AlikeFrom (inner inner' : Level) (stream : TokenStream) (start : Nat) : Prop :=
  ∀ c s, c.stream = stream → c.Proper s → start ≤ s.cursor →
    inner.expr c s = inner'.expr c s ∧ inner.block c s = inner'.block c s

/-- From `count` tokens past the state, the rules of both levels run alike. -/
def Level.AlikePast (inner inner' : Level) (count : Nat) (c : Context) (s : State) : Prop :=
  inner.AlikeFrom inner' c.stream (s.cursor + count)

/-- The state is not committed, and the rules of both levels run alike past the next token. -/
def Level.AlikeFresh (inner inner' : Level) (c : Context) (s : State) : Prop :=
  c.isCommitted s = false ∧ inner.AlikePast inner' 1 c s

section

variable {inner inner' : Level} {law : Law} {L : Language} {c : Context} {s t : State}
  {m n : Nat} {start : Start} {closed : Bool}

theorem Level.AlikePast.onward (h : inner.AlikePast inner' m c s)
    (hle : s.cursor + m ≤ t.cursor + n) : inner.AlikePast inner' n c t :=
  fun c' s' hstream hs' hstart => h c' s' hstream hs' (Nat.le_trans hle hstart)

theorem Level.AlikePast.after (h : inner.AlikePast inner' n c s) (ht : c.Onward s t) :
    inner.AlikePast inner' n c t :=
  h.onward (Nat.add_le_add_right ht.cursor_le n)

theorem Level.AlikePast.speculating (h : inner.AlikePast inner' n c s) (t : State) :
    inner.AlikePast inner' n (c.speculating t) s := by
  unfold Level.AlikePast
  rw [c.stream_speculating]
  exact h

theorem Level.AlikePast.fresh (h : inner.AlikePast inner' 1 c s) (hs : c.Proper s) :
    inner.AlikeFresh inner' (c.speculating s) s :=
  ⟨Context.isCommitted_speculating hs, h.speculating s⟩

theorem byCursor_alikePast : ByCursor (inner.AlikePast inner' n) := by
  intro c s t hcursor h
  exact h.onward (Nat.le_of_eq (by rw [hcursor]))

theorem byCursor_alikeFresh : ByCursor (inner.AlikeFresh inner') := by
  intro c s t hcursor h
  exact ⟨by rw [Context.isCommitted_congr hcursor, h.1], byCursor_alikePast _ _ _ hcursor h.2⟩

/-- The arguments that a prefix expression may put in are only for one that must end in a call. -/
theorem prefixExp_unrestricted_eq (inner : Level) : prefixExp inner .unrestricted = (do
    let h ← head inner
    let afterHead ← mark
    let marks ← suffixChain inner
    let kept := keepThroughLast (fun s => SuffixPolicy.unrestricted.allowsLast s.1.node) marks
    reset ((kept.getLast?.map (·.2)).getD afterHead)
    return ⟨h, kept.map (·.1)⟩) := by
  funext c s
  simp [prefixExp, mark, committed, bind_apply]

theorem alike_suffixChain (hinner : inner'.Sound law L)
    (h : AlikeWhere (inner.AlikePast inner' 0) (suffix inner) (suffix inner')) :
    AlikeWhere (inner.AlikePast inner' 0) (suffixChain inner) (suffixChain inner') := by
  have horderly := (scheme_suffix.orderly hinner).optional
  have hround : Orderly (suffixRound inner') := by
    refine horderly.bind fun r => ?_
    cases r with
    | none => exact .pure none
    | some a => exact orderly_mark.bind fun t => .pure (some ((a, t), true))
  refine AlikeWhere.collect ?_ hround fun _ halike _ _ ht => halike.after ht
  exact (h.optional fun _ s _ halike => halike.speculating s).bind horderly (fun _ => .refl _)
    fun _ halike _ ht => halike.after ht

theorem alike_prefixExp {P : Context → State → Prop} (hinner : inner'.Sound law L)
    (hhead : AlikeWhere P (head inner) (head inner'))
    (hsuffix : AlikeWhere (inner.AlikePast inner' 0) (suffix inner) (suffix inner'))
    (hnext : ∀ {c s a t}, c.Proper s → P c s → head inner' c s = .ok a t → c.Onward s t →
      inner.AlikePast inner' 0 c t) :
    AlikeWhere P (prefixExp inner .unrestricted) (prefixExp inner' .unrestricted) := by
  rw [prefixExp_unrestricted_eq, prefixExp_unrestricted_eq]
  refine hhead.bind (scheme_head.orderly hinner) (fun a => ?_) hnext
  refine (AlikeWhere.refl mark).bind orderly_mark (fun afterHead => ?_)
    fun _ halike _ ht => halike.after ht
  intro c s hs halike
  rw [bind_apply, bind_apply, alike_suffixChain hinner hsuffix c s hs halike]

theorem fresh_seq {rule rule' : Rule α} {f f' : α → Rule β}
    (h : AlikeWhere (inner.AlikeFresh inner') rule rule') (hopening : Opening rule')
    (hf : ∀ a, AlikeWhere (inner.AlikePast inner' 0) (f a) (f' a)) :
    AlikeWhere (inner.AlikeFresh inner') (rule >>= f) (rule' >>= f') :=
  h.bind hopening.toOrderly hf fun hs hfresh hok _ =>
    hfresh.2.onward (hopening.moves hs hfresh.1 hok)

/-- A repetition and a rule after it that begins with a token of its own: the next token decides
which of them consumes it. -/
theorem fresh_manySeq {item item' : Rule α} {f f' : List α → Rule β}
    (h : AlikeWhere (inner.AlikeFresh inner') item item') (hitem : Opening item')
    (hf : ∀ as, AlikeWhere (inner.AlikePast inner' 0) (f as) (f' as))
    (hfresh : ∀ as, AlikeWhere (inner.AlikeFresh inner') (f as) (f' as)) :
    AlikeWhere (inner.AlikeFresh inner') (many item >>= f) (many item' >>= f') := by
  have hmany : AlikeWhere (inner.AlikePast inner' 1) (many item) (many item') :=
    h.many hitem.toOrderly (fun _ _ hs halike => halike.fresh hs) .after
  intro c s hs ⟨hc, halike⟩
  rw [bind_apply, bind_apply, hmany c s hs halike]
  rcases hitem.many_cases hs with ⟨as, t, hread, ht, hlt⟩ | ⟨-, hread⟩ <;> rw [hread]
  · exact hf as c t (ht.proper hs) (halike.onward hlt)
  · exact hfresh [] c s hs ⟨hc, halike⟩

/-- Rules that are put together in the same way run alike. If they begin with a token of their own,
it does not matter how the levels run before it. -/
theorem Scheme.alike {rule : Level → Rule α} (h : Scheme start closed rule)
    (hinner : inner'.Sound law L) :
    AlikeWhere (inner.AlikePast inner' 0) (rule inner) (rule inner') ∧
      (start = .token → AlikeWhere (inner.AlikeFresh inner') (rule inner) (rule inner')) := by
  induction h with
  | pure | satisfy | fieldName | record | look | skip => exact ⟨.refl _, fun _ => .refl _⟩
  | expr => exact ⟨fun c s hs halike => (halike c s rfl hs (Nat.le_refl _)).1, nofun⟩
  | block => exact ⟨fun c s hs halike => (halike c s rfl hs (Nat.le_refl _)).2, nofun⟩
  | seq h _ _ ih ihf =>
    refine ⟨ih.1.bind (h.orderly hinner) (fun a => (ihf a).1) fun _ halike _ => halike.after, ?_⟩
    rintro rfl
    exact fresh_seq (ih.2 rfl) (h.begins hinner) fun a => (ihf a).1
  | manySeq h _ ih ihf =>
    have hmany := ih.1.many (P := inner.AlikePast inner' 0) (h.orderly hinner)
      (fun _ s _ halike => halike.speculating s) .after
    refine ⟨hmany.bind (h.orderly hinner).many (fun as => (ihf as).1)
      fun _ halike _ => halike.after, fun _ => ?_⟩
    exact fresh_manySeq (ih.2 rfl) (h.begins hinner) (fun as => (ihf as).1)
      fun as => (ihf as).2 rfl
  | located _ _ ih => exact ⟨ih.1.located, fun htoken => (ih.2 htoken).located⟩
  | optional _ _ _ ih =>
    exact ⟨ih.1.optional fun _ s _ halike => halike.speculating s, nofun⟩
  | collect h ih =>
    exact ⟨ih.1.collect (h.orderly hinner) fun _ halike _ _ => halike.after, nofun⟩
  | alt rules hne _ _ ih =>
    refine ⟨fun c s hs halike => ?_, fun htoken c s hs hfresh => ?_⟩
    · refine alt_alike byCursor_alikePast (fun rule hrule => (ih rule hrule).1) hs
        (halike.speculating s) ?_
      intro _ r failures t _ hfind hcursor
      have hr := (List.of_mem_zip (List.mem_of_find?_eq_some hfind)).1
      exact (ih r.1 hr).1.hinted byCursor_alikePast _ c t (hs.congr hcursor)
        (byCursor_alikePast _ _ _ hcursor halike)
    · refine alt_alike byCursor_alikeFresh (fun rule hrule => (ih rule hrule).2 htoken) hs
        (hfresh.2.fresh hs) fun hcommitted => ?_
      rw [hfresh.1] at hcommitted
      cases hcommitted
  | prefixExp hhead hsuffix ihhead ihsuffix =>
    exact ⟨alike_prefixExp hinner ihhead.1 ihsuffix.1 fun _ halike _ => halike.after,
      fun _ => alike_prefixExp hinner (ihhead.2 rfl) ihsuffix.1 fun hs hfresh hok _ =>
        hfresh.2.onward ((hhead.begins hinner).moves hs hfresh.1 hok)⟩
  | weaken _ _ htoken _ ih => exact ⟨ih.1, fun h => ih.2 (htoken h)⟩

theorem Scheme.early {rule : Level → Rule α} (h : Scheme start closed rule)
    (hinner : inner'.Sound law L) :
    AlikeWhere (inner.AlikePast inner' 0) (rule inner) (rule inner') :=
  (h.alike hinner).1

theorem Scheme.fresh {rule : Level → Rule α} (h : Scheme .token closed rule)
    (hinner : inner'.Sound law L) :
    AlikeWhere (inner.AlikeFresh inner') (rule inner) (rule inner') :=
  (h.alike hinner).2 rfl

end

end LuaSyntax.Grammar
