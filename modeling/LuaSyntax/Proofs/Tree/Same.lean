import LuaSyntax.Proofs.Tree.Levels
import LuaSyntax.Proofs.Tree.Targets
import LuaSyntax.Tree.Layout
import LuaSyntax.Tree.Same
import Mathlib.Data.List.Forall2
/-!
# What trees have in common that differ in their spans

They are printed alike, nest equally deep, and have the same kinds of assignment targets.
-/

namespace LuaSyntax

/-! ### Lists -/

section

variable {α β : Type} {same : List α → List β → Bool} {R : α → β → Prop}

theorem forall₂_of_equations (hnil : same [] [] = true)
    (hcons : ∀ a as b bs, same (a :: as) (b :: bs) = true ↔ R a b ∧ same as bs = true)
    (hleft : ∀ a as, same (a :: as) [] = false) (hright : ∀ b bs, same [] (b :: bs) = false)
    {as : List α} {bs : List β} : same as bs = true ↔ List.Forall₂ R as bs := by
  induction as generalizing bs with
  | nil => cases bs <;> simp [hnil, hright]
  | cons a as ih => cases bs <;> simp [hcons, hleft, ih]

end

theorem sameExprs_iff {es fs : List (Located Expr)} :
    sameExprs es fs = true ↔ List.Forall₂ (fun e f => e.node.same f.node = true) es fs :=
  forall₂_of_equations rfl (fun _ _ _ _ => by rw [sameExprs, Bool.and_eq_true]) (fun _ _ => rfl)
    fun _ _ => rfl

theorem sameFields_iff {fs gs : List (Located Field)} :
    sameFields fs gs = true ↔ List.Forall₂ (fun f g => f.node.same g.node = true) fs gs :=
  forall₂_of_equations rfl (fun _ _ _ _ => by rw [sameFields, Bool.and_eq_true]) (fun _ _ => rfl)
    fun _ _ => rfl

theorem sameTargets_iff {ts us : List (Located PrefixExp)} :
    sameTargets ts us = true ↔ List.Forall₂ (fun t u => t.node.same u.node = true) ts us :=
  forall₂_of_equations rfl (fun _ _ _ _ => by rw [sameTargets, Bool.and_eq_true]) (fun _ _ => rfl)
    fun _ _ => rfl

theorem sameClauses_iff {cs ds : List IfClause} :
    sameClauses cs ds = true ↔ List.Forall₂ (fun c d => c.same d = true) cs ds :=
  forall₂_of_equations rfl (fun _ _ _ _ => by rw [sameClauses, Bool.and_eq_true]) (fun _ _ => rfl)
    fun _ _ => rfl

theorem sameNodes_iff {α : Type} [DecidableEq α] {as bs : List (Located α)} :
    sameNodes as bs = true ↔ List.Forall₂ (fun a b => a.node = b.node) as bs := by
  rw [sameNodes, beq_iff_eq]
  induction as generalizing bs with
  | nil => cases bs <;> simp
  | cons a as ih => cases bs <;> simp [ih]

/-! ### Heads and suffixes -/

theorem Head.isParen_of_same {a b : Head} (h : a.same b = true) : a.isParen = b.isParen := by
  cases a <;> cases b <;> first | rfl | cases h

theorem Suffix.isCall_of_same {a b : Suffix} (h : a.same b = true) : a.isCall = b.isCall := by
  cases a <;> cases b <;> first | rfl | cases h

theorem any_isCall_of_same {ss us : List (Located Suffix)} (h : sameSuffixes ss us = true) :
    ss.getLast?.any (·.node.isCall) = us.getLast?.any (·.node.isCall) := by
  induction ss generalizing us with
  | nil => cases us <;> first | rfl | cases h
  | cons s ss ih =>
    cases us with
    | nil => cases h
    | cons u us =>
      rw [sameSuffixes, Bool.and_eq_true] at h
      have hrest := ih h.2
      cases ss <;> cases us
      · exact Suffix.isCall_of_same h.1
      · cases h.2
      · cases h.2
      · simpa using hrest

namespace PrefixExp

variable {p q : PrefixExp}

theorem same_iff : p.same q = true ↔
    p.head.node.same q.head.node = true ∧ sameSuffixes p.suffixes q.suffixes = true := by
  obtain ⟨a, ss⟩ := p
  obtain ⟨b, us⟩ := q
  rw [same, Bool.and_eq_true]

theorem endsInCall_of_same (h : p.same q = true) : p.endsInCall = q.endsInCall :=
  any_isCall_of_same (same_iff.1 h).2

theorem isParen_of_same (h : p.same q = true) :
    p.head.node.isParen = q.head.node.isParen :=
  Head.isParen_of_same (same_iff.1 h).1

theorem isBareParen_of_same (h : p.same q = true) : p.isBareParen = q.isBareParen := by
  have hparen := isParen_of_same h
  have hsuffixes := (same_iff.1 h).2
  have hempty : p.suffixes.isEmpty = q.suffixes.isEmpty := by
    obtain ⟨_, ss⟩ := p
    obtain ⟨_, us⟩ := q
    cases ss <;> cases us <;> first | rfl | cases hsuffixes
  rw [isBareParen, isBareParen, hparen, hempty]

end PrefixExp

/-! ### Trees -/

/-- What kinds of assignment targets there are, in order. -/
def targetKinds (ts : List (Located PrefixExp)) : List (Bool × Bool) :=
  ts.map fun t => (t.node.endsInCall, t.node.isBareParen)

@[simp] theorem targetKinds_nil : targetKinds [] = [] := rfl

@[simp] theorem targetKinds_cons (t : Located PrefixExp) (ts : List (Located PrefixExp)) :
    targetKinds (t :: ts) = (t.node.endsInCall, t.node.isBareParen) :: targetKinds ts := rfl

@[simp] theorem targetKinds_append (ts us : List (Located PrefixExp)) :
    targetKinds (ts ++ us) = targetKinds ts ++ targetKinds us :=
  List.map_append

/-- Two trees are printed alike, nest equally deep, and have the same kinds of targets. -/
structure Alike {β : Type} (l l' : β) (n n' : Nat) (ts ts' : List (Located PrefixExp)) : Prop where
  layout : l = l'
  levels : n = n'
  targets : targetKinds ts = targetKinds ts'

theorem names_of_same {ns ns' : List (Located Name)} (h : sameNodes ns ns' = true) :
    Layout.names ns = Layout.names ns' := by
  rw [sameNodes, beq_iff_eq] at h
  simpa [Layout.names, Function.comp_def] using
    congrArg (List.map fun n => ([.ident n] : Layout)) h

theorem FuncName.layout_of_same {n n' : FuncName} (h : n.same n' = true) :
    n.layout = n'.layout := by
  rw [FuncName.same, Bool.and_eq_true, beq_iff_eq] at h
  obtain ⟨path, method⟩ := n
  obtain ⟨path', method'⟩ := n'
  have hpath := names_of_same h.1
  cases method <;> cases method' <;> simp_all [FuncName.layout]

theorem head?_isParen_of_same {ts us : List (Located PrefixExp)} (h : sameTargets ts us = true) :
    ts.head?.any (·.node.head.node.isParen) = us.head?.any (·.node.head.node.isParen) := by
  cases ts <;> cases us
  · rfl
  · cases h
  · cases h
  · rw [sameTargets, Bool.and_eq_true] at h
    exact PrefixExp.isParen_of_same h.1

mutual

theorem Block.alike_of_same : (a b : Block) → a.same b = true →
    Alike a.layout b.layout a.levels b.levels a.targets b.targets
  | ⟨ss, r⟩, ⟨ss', r'⟩, h => by
    rw [Block.same, Bool.and_eq_true] at h
    have hss := alike_of_sameStmts ss ss' h.1
    have hr := alike_of_sameReturn? r r' h.2
    constructor
    · simp [Block.layout, hss.layout, hr.layout]
    · have hempty : ss = [] ↔ ss' = [] := by cases ss <;> cases ss' <;> simp_all [sameStmts]
      have hnone : r = none ↔ r' = none := by cases r <;> cases r' <;> simp_all [sameReturn?]
      simp only [Block.levels_eq, hempty, hnone, hss.levels, hr.levels]
    · simp [hss.targets, hr.targets]
termination_by structural a => a

theorem alike_of_sameStmts : (as bs : List (Located Stmt)) → sameStmts as bs = true →
    Alike (layoutStmts as) (layoutStmts bs) (levelsOfStmts as) (levelsOfStmts bs)
      (targetsOfStmts as) (targetsOfStmts bs)
  | [], bs, h => by
    cases bs with
    | nil => exact ⟨rfl, rfl, rfl⟩
    | cons => cases h
  | a :: as, bs, h => by
    cases bs with
    | nil => cases h
    | cons b bs =>
      rw [sameStmts, Bool.and_eq_true] at h
      obtain ⟨ha, hparen⟩ := Stmt.alike_of_same a.node b.node h.1
      have has := alike_of_sameStmts as bs h.2
      constructor
      · simp [layoutStmts, ha.layout, has.layout, hparen]
      · simp [ha.levels, has.levels]
      · simp [ha.targets, has.targets]
termination_by structural a => a

theorem alike_of_sameReturn? : (r r' : Option (Located Return)) → sameReturn? r r' = true →
    Alike (layoutReturn? r) (layoutReturn? r') (levelsOfReturn? r) (levelsOfReturn? r')
      (targetsOfReturn? r) (targetsOfReturn? r')
  | none, r', h => by
    cases r' with
    | none => exact ⟨rfl, rfl, rfl⟩
    | some => cases h
  | some r, r', h => by
    cases r' with
    | none => cases h
    | some r' =>
      have hr := Return.alike_of_same r.node r'.node h
      constructor
      · simp [layoutReturn?, hr.layout]
      · simp [hr.levels]
      · simp [hr.targets]
termination_by structural a => a

theorem Return.alike_of_same : (a b : Return) → a.same b = true →
    Alike a.layout b.layout a.inside b.inside a.targets b.targets
  | ⟨es⟩, ⟨fs⟩, h => by
    have hes := alike_of_sameExprs es fs h
    constructor
    · have hempty := hes.layout
      cases es <;> cases fs <;> simp_all [Return.layout, layoutExprs]
    · simp [hes.levels]
    · simp [hes.targets]
termination_by structural a => a

theorem alike_of_sameExprs : (as bs : List (Located Expr)) → sameExprs as bs = true →
    Alike (layoutExprs as) (layoutExprs bs) (levelsOfExprs as) (levelsOfExprs bs)
      (targetsOfExprs as) (targetsOfExprs bs)
  | [], bs, h => by
    cases bs with
    | nil => exact ⟨rfl, rfl, rfl⟩
    | cons => cases h
  | a :: as, bs, h => by
    cases bs with
    | nil => cases h
    | cons b bs =>
      rw [sameExprs, Bool.and_eq_true] at h
      have ha := Expr.alike_of_same a.node b.node h.1
      have has := alike_of_sameExprs as bs h.2
      constructor
      · simp [layoutExprs, ha.layout, has.layout]
      · simp [ha.levels, has.levels]
      · simp [ha.targets, has.targets]
termination_by structural a => a

/-- Statements that are the same start alike as well. -/
theorem Stmt.alike_of_same : (a b : Stmt) → a.same b = true →
    Alike a.layout b.layout a.inside b.inside a.targets b.targets ∧
      a.startsWithParen = b.startsWithParen
  | .label n, b, h => by
    cases b <;> try cases h
    next n' =>
      obtain rfl : n = n' := by simpa [Stmt.same] using h
      exact ⟨⟨rfl, rfl, rfl⟩, rfl⟩
  | .breakLoop, b, h => by
    cases b <;> try cases h
    exact ⟨⟨rfl, rfl, rfl⟩, rfl⟩
  | .continueLoop, b, h => by
    cases b <;> try cases h
    exact ⟨⟨rfl, rfl, rfl⟩, rfl⟩
  | .goto n, b, h => by
    cases b <;> try cases h
    next n' =>
      have hn : n.node = n'.node := by simpa [Stmt.same, Located.sameNode] using h
      exact ⟨⟨by simp [Stmt.layout, hn], rfl, rfl⟩, rfl⟩
  | .block body, b, h => by
    cases b <;> try cases h
    next body' =>
      have hbody := Block.alike_of_same body body' h
      refine ⟨?_, rfl⟩
      constructor
      · simp [Stmt.layout, hbody.layout]
      · simp [hbody.levels]
      · simp [hbody.targets]
  | .whileLoop cond body, b, h => by
    cases b <;> try cases h
    next cond' body' =>
      simp only [Stmt.same, Bool.and_eq_true] at h
      have hcond := Expr.alike_of_same cond.node cond'.node h.1
      have hbody := Block.alike_of_same body body' h.2
      refine ⟨?_, rfl⟩
      constructor
      · simp [Stmt.layout, hcond.layout, hbody.layout]
      · simp [hcond.levels, hbody.levels]
      · simp [hcond.targets, hbody.targets]
  | .repeatLoop body cond, b, h => by
    cases b <;> try cases h
    next body' cond' =>
      simp only [Stmt.same, Bool.and_eq_true] at h
      have hbody := Block.alike_of_same body body' h.1
      have hcond := Expr.alike_of_same cond.node cond'.node h.2
      refine ⟨?_, rfl⟩
      constructor
      · simp [Stmt.layout, hcond.layout, hbody.layout]
      · simp [hcond.levels, hbody.levels]
      · simp [hcond.targets, hbody.targets]
  | .numericFor var start stop step body, b, h => by
    cases b <;> try cases h
    next var' start' stop' step' body' =>
      simp only [Stmt.same, Bool.and_eq_true] at h
      obtain ⟨⟨⟨⟨hvar, hstart⟩, hstop⟩, hstep⟩, hbody⟩ := h
      have hvar : var.node = var'.node := by simpa [Located.sameNode] using hvar
      have hstart := Expr.alike_of_same start.node start'.node hstart
      have hstop := Expr.alike_of_same stop.node stop'.node hstop
      have hstep := Expr.alike_of_same step.node step'.node hstep
      have hbody := Block.alike_of_same body body' hbody
      refine ⟨?_, rfl⟩
      constructor
      · simp [Stmt.layout, hstart.layout, hstop.layout, hstep.layout, hbody.layout, hvar]
      · simp [hstart.levels, hstop.levels, hstep.levels, hbody.levels]
      · simp [hstart.targets, hstop.targets, hstep.targets, hbody.targets]
  | .genericFor vars es body, b, h => by
    cases b <;> try cases h
    next vars' es' body' =>
      simp only [Stmt.same, Bool.and_eq_true] at h
      obtain ⟨⟨hvars, hes⟩, hbody⟩ := h
      have hvars := names_of_same hvars
      have hes := alike_of_sameExprs es es' hes
      have hbody := Block.alike_of_same body body' hbody
      refine ⟨?_, rfl⟩
      constructor
      · simp [Stmt.layout, hes.layout, hbody.layout, hvars]
      · simp [hes.levels, hbody.levels]
      · simp [hes.targets, hbody.targets]
  | .conditional cs other, b, h => by
    cases b <;> try cases h
    next cs' other' =>
      simp only [Stmt.same, Bool.and_eq_true] at h
      have hcs := alike_of_sameClauses .if_ cs cs' h.1
      have hb := alike_of_sameBlock? other other' h.2
      refine ⟨?_, rfl⟩
      constructor
      · simp [Stmt.layout, hcs.layout, hb.layout]
      · simp [hcs.levels, hb.levels]
      · simp [hcs.targets, hb.targets]
  | .function n f, b, h => by
    cases b <;> try cases h
    next n' f' =>
      simp only [Stmt.same, Bool.and_eq_true] at h
      have hn := FuncName.layout_of_same h.1
      have hf := FuncBody.alike_of_same f f' h.2
      refine ⟨?_, rfl⟩
      constructor
      · simp [Stmt.layout, hf.layout, hn]
      · simp [hf.levels]
      · simp [hf.targets]
  | .localFunction n f, b, h => by
    cases b <;> try cases h
    next n' f' =>
      simp only [Stmt.same, Bool.and_eq_true] at h
      have hn : n.node = n'.node := by simpa [Located.sameNode] using h.1
      have hf := FuncBody.alike_of_same f f' h.2
      refine ⟨?_, rfl⟩
      constructor
      · simp [Stmt.layout, hf.layout, hn]
      · simp [hf.levels]
      · simp [hf.targets]
  | .localDecl ns es, b, h => by
    cases b <;> try cases h
    next ns' es' =>
      simp only [Stmt.same, Bool.and_eq_true] at h
      have hns := names_of_same h.1
      have hes := alike_of_sameExprs es es' h.2
      refine ⟨?_, rfl⟩
      constructor
      · have hlayout := hes.layout
        cases es <;> cases es' <;> simp_all [Stmt.layout, layoutExprs]
      · simp [hes.levels]
      · simp [hes.targets]
  | .call p, b, h => by
    cases b <;> try cases h
    next q =>
      have hp := PrefixExp.alike_of_same p q h
      refine ⟨?_, PrefixExp.isParen_of_same h⟩
      constructor
      · simp [Stmt.layout, hp.layout]
      · simp [hp.levels]
      · simp [hp.targets]
  | .assign ts es, b, h => by
    cases b <;> try cases h
    next ts' es' =>
      simp only [Stmt.same, Bool.and_eq_true] at h
      have hts := alike_of_sameTargets ts ts' h.1
      have hes := alike_of_sameExprs es es' h.2
      refine ⟨?_, head?_isParen_of_same h.1⟩
      constructor
      · simp [Stmt.layout, hts.layout, hes.layout]
      · simp [hts.levels, hes.levels]
      · simp [hts.targets, hes.targets]
termination_by structural a => a

theorem alike_of_sameClauses (word : Keyword) : (as bs : List IfClause) →
    sameClauses as bs = true →
    Alike (layoutClauses word as) (layoutClauses word bs) (levelsOfClauses as) (levelsOfClauses bs)
      (targetsOfClauses as) (targetsOfClauses bs)
  | [], bs, h => by
    cases bs with
    | nil => exact ⟨rfl, rfl, rfl⟩
    | cons => cases h
  | a :: as, bs, h => by
    cases bs with
    | nil => cases h
    | cons b bs =>
      rw [sameClauses, Bool.and_eq_true] at h
      have ha := IfClause.alike_of_same a b h.1
      have has := alike_of_sameClauses .elseif_ as bs h.2
      constructor
      · simp [layoutClauses, ha.layout, has.layout]
      · simp [ha.levels, has.levels]
      · simp [ha.targets, has.targets]
termination_by structural a => a

theorem IfClause.alike_of_same : (a b : IfClause) → a.same b = true →
    Alike a.layout b.layout a.inside b.inside a.targets b.targets
  | ⟨cond, body⟩, ⟨cond', body'⟩, h => by
    rw [IfClause.same, Bool.and_eq_true] at h
    have hcond := Expr.alike_of_same cond.node cond'.node h.1
    have hbody := Block.alike_of_same body body' h.2
    constructor
    · simp [IfClause.layout, hcond.layout, hbody.layout]
    · simp [hcond.levels, hbody.levels]
    · simp [hcond.targets, hbody.targets]
termination_by structural a => a

theorem alike_of_sameBlock? : (a b : Option Block) → sameBlock? a b = true →
    Alike (layoutElse a) (layoutElse b) (levelsOfElse a) (levelsOfElse b)
      (targetsOfElse a) (targetsOfElse b)
  | none, b, h => by
    cases b with
    | none => exact ⟨rfl, rfl, rfl⟩
    | some => cases h
  | some a, b, h => by
    cases b with
    | none => cases h
    | some b =>
      have hblock := Block.alike_of_same a b h
      constructor
      · simp [layoutElse, hblock.layout]
      · simp [hblock.levels]
      · simp [hblock.targets]
termination_by structural a => a

theorem alike_of_sameTargets : (as bs : List (Located PrefixExp)) → sameTargets as bs = true →
    Alike (layoutTargets as) (layoutTargets bs) (levelsOfTargets as) (levelsOfTargets bs)
      (targetsOfTargets as) (targetsOfTargets bs)
  | [], bs, h => by
    cases bs with
    | nil => exact ⟨rfl, rfl, rfl⟩
    | cons => cases h
  | a :: as, bs, h => by
    cases bs with
    | nil => cases h
    | cons b bs =>
      rw [sameTargets, Bool.and_eq_true] at h
      have ha := PrefixExp.alike_of_same a.node b.node h.1
      have has := alike_of_sameTargets as bs h.2
      constructor
      · simp [layoutTargets, ha.layout, has.layout]
      · simp [ha.levels, has.levels]
      · simp [ha.targets, has.targets, PrefixExp.endsInCall_of_same h.1,
          PrefixExp.isBareParen_of_same h.1]
termination_by structural a => a

theorem FuncBody.alike_of_same : (a b : FuncBody) → a.same b = true →
    Alike a.layout b.layout a.inside b.inside a.targets b.targets
  | ⟨ps, v, body⟩, ⟨ps', v', body'⟩, h => by
    simp only [FuncBody.same, Bool.and_eq_true, beq_iff_eq] at h
    have hps := names_of_same h.1.1
    have hbody := Block.alike_of_same body body' h.2
    constructor
    · simp [FuncBody.layout, Layout.params, hps, h.1.2, hbody.layout]
    · simp [hbody.levels]
    · simp [hbody.targets]
termination_by structural a => a

theorem Expr.alike_of_same : (a b : Expr) → a.same b = true →
    Alike a.layout b.layout a.inside b.inside a.targets b.targets
  | .nil, b, h => by
    cases b <;> try cases h
    exact ⟨rfl, rfl, rfl⟩
  | .boolean v, b, h => by
    cases b <;> try cases h
    next v' =>
      obtain rfl : v = v' := by simpa [Expr.same] using h
      exact ⟨rfl, rfl, rfl⟩
  | .number raw, b, h => by
    cases b <;> try cases h
    next raw' =>
      obtain rfl : raw = raw' := by simpa [Expr.same] using h
      exact ⟨rfl, rfl, rfl⟩
  | .str raw, b, h => by
    cases b <;> try cases h
    next raw' =>
      obtain rfl : raw = raw' := by simpa [Expr.same] using h
      exact ⟨rfl, rfl, rfl⟩
  | .vararg, b, h => by
    cases b <;> try cases h
    exact ⟨rfl, rfl, rfl⟩
  | .function f, b, h => by
    cases b <;> try cases h
    next f' =>
      have hf := FuncBody.alike_of_same f f' h
      constructor
      · simp [Expr.layout, hf.layout]
      · simp [hf.levels]
      · simp [hf.targets]
  | .binary op lhs rhs, b, h => by
    cases b <;> try cases h
    next op' lhs' rhs' =>
      simp only [Expr.same, Bool.and_eq_true] at h
      have hop : op.node = op'.node := by simpa [Located.sameNode] using h.1.1
      have hlhs := Expr.alike_of_same lhs.node lhs'.node h.1.2
      have hrhs := Expr.alike_of_same rhs.node rhs'.node h.2
      constructor
      · simp [Expr.layout, hlhs.layout, hrhs.layout, hop]
      · simp [hlhs.levels, hrhs.levels]
      · simp [hlhs.targets, hrhs.targets]
  | .unary op e, b, h => by
    cases b <;> try cases h
    next op' e' =>
      simp only [Expr.same, Bool.and_eq_true] at h
      have hop : op.node = op'.node := by simpa [Located.sameNode] using h.1
      have he := Expr.alike_of_same e.node e'.node h.2
      constructor
      · simp [Expr.layout, he.layout, hop]
      · simp [he.levels]
      · simp [he.targets]
  | .table fs, b, h => by
    cases b <;> try cases h
    next fs' =>
      have hfs := alike_of_sameFields fs fs' h
      constructor
      · simp [Expr.layout, hfs.layout]
      · simp [hfs.levels]
      · simp [hfs.targets]
  | .access p, b, h => by
    cases b <;> try cases h
    next p' =>
      have hp := PrefixExp.alike_of_same p p' h
      constructor
      · simp [Expr.layout, hp.layout]
      · simp [hp.levels]
      · simp [hp.targets]
termination_by structural a => a

theorem PrefixExp.alike_of_same : (a b : PrefixExp) → a.same b = true →
    Alike a.layout b.layout a.inside b.inside a.targets b.targets
  | ⟨a, ss⟩, ⟨a', ss'⟩, h => by
    rw [PrefixExp.same, Bool.and_eq_true] at h
    have ha := Head.alike_of_same a.node a'.node h.1
    have hss := alike_of_sameSuffixes ss ss' h.2
    constructor
    · simp [PrefixExp.layout, ha.layout, hss.layout]
    · simp [ha.levels, hss.levels]
    · simp [ha.targets, hss.targets]
termination_by structural a => a

theorem Head.alike_of_same : (a b : Head) → a.same b = true →
    Alike a.layout b.layout a.inside b.inside a.targets b.targets
  | .name n, b, h => by
    cases b <;> try cases h
    next n' =>
      obtain rfl : n = n' := by simpa [Head.same] using h
      exact ⟨rfl, rfl, rfl⟩
  | .paren e, b, h => by
    cases b <;> try cases h
    next e' =>
      have he := Expr.alike_of_same e.node e'.node h
      constructor
      · simp [Head.layout, he.layout]
      · simp [he.levels]
      · simp [he.targets]
termination_by structural a => a

theorem alike_of_sameSuffixes : (as bs : List (Located Suffix)) → sameSuffixes as bs = true →
    Alike (layoutSuffixes as) (layoutSuffixes bs) (levelsOfSuffixes as) (levelsOfSuffixes bs)
      (targetsOfSuffixes as) (targetsOfSuffixes bs)
  | [], bs, h => by
    cases bs with
    | nil => exact ⟨rfl, rfl, rfl⟩
    | cons => cases h
  | a :: as, bs, h => by
    cases bs with
    | nil => cases h
    | cons b bs =>
      rw [sameSuffixes, Bool.and_eq_true] at h
      have ha := Suffix.alike_of_same a.node b.node h.1
      have has := alike_of_sameSuffixes as bs h.2
      constructor
      · simp [layoutSuffixes, ha.layout, has.layout]
      · simp [ha.levels, has.levels]
      · simp [ha.targets, has.targets]
termination_by structural a => a

theorem Suffix.alike_of_same : (a b : Suffix) → a.same b = true →
    Alike a.layout b.layout a.inside b.inside a.targets b.targets
  | .call a, b, h => by
    cases b <;> try cases h
    next a' =>
      have ha := Args.alike_of_same a a' h
      constructor
      · simp [Suffix.layout, ha.layout]
      · simp [ha.levels]
      · simp [ha.targets]
  | .method n a, b, h => by
    cases b <;> try cases h
    next n' a' =>
      simp only [Suffix.same, Bool.and_eq_true] at h
      have hn : n.node = n'.node := by simpa [Located.sameNode] using h.1
      have ha := Args.alike_of_same a a' h.2
      constructor
      · simp [Suffix.layout, ha.layout, hn]
      · simp [ha.levels]
      · simp [ha.targets]
  | .index e, b, h => by
    cases b <;> try cases h
    next e' =>
      have he := Expr.alike_of_same e.node e'.node h
      constructor
      · simp [Suffix.layout, he.layout]
      · simp [he.levels]
      · simp [he.targets]
  | .field n, b, h => by
    cases b <;> try cases h
    next n' =>
      have hn : n.node = n'.node := by simpa [Suffix.same, Located.sameNode] using h
      exact ⟨by simp [Suffix.layout, hn], rfl, rfl⟩
termination_by structural a => a

theorem Args.alike_of_same : (a b : Args) → a.same b = true →
    Alike a.layout b.layout a.inside b.inside a.targets b.targets
  | .list es, b, h => by
    cases b <;> try cases h
    next es' =>
      have hes := alike_of_sameExprs es es' h
      constructor
      · simp [Args.layout, hes.layout]
      · simp [hes.levels]
      · simp [hes.targets]
  | .table fs, b, h => by
    cases b <;> try cases h
    next fs' =>
      have hfs := alike_of_sameFields fs fs' h
      constructor
      · simp [Args.layout, hfs.layout]
      · simp [hfs.levels]
      · simp [hfs.targets]
  | .str raw, b, h => by
    cases b <;> try cases h
    next raw' =>
      obtain rfl : raw = raw' := by simpa [Args.same] using h
      exact ⟨rfl, rfl, rfl⟩
termination_by structural a => a

theorem alike_of_sameFields : (as bs : List (Located Field)) → sameFields as bs = true →
    Alike (layoutFields as) (layoutFields bs) (levelsOfFields as) (levelsOfFields bs)
      (targetsOfFields as) (targetsOfFields bs)
  | [], bs, h => by
    cases bs with
    | nil => exact ⟨rfl, rfl, rfl⟩
    | cons => cases h
  | a :: as, bs, h => by
    cases bs with
    | nil => cases h
    | cons b bs =>
      rw [sameFields, Bool.and_eq_true] at h
      have ha := Field.alike_of_same a.node b.node h.1
      have has := alike_of_sameFields as bs h.2
      constructor
      · simp [layoutFields, ha.layout, has.layout]
      · simp [ha.levels, has.levels]
      · simp [ha.targets, has.targets]
termination_by structural a => a

theorem Field.alike_of_same : (a b : Field) → a.same b = true →
    Alike a.layout b.layout a.inside b.inside a.targets b.targets
  | .keyed key value, b, h => by
    cases b <;> try cases h
    next key' value' =>
      simp only [Field.same, Bool.and_eq_true] at h
      have hkey := Expr.alike_of_same key.node key'.node h.1
      have hvalue := Expr.alike_of_same value.node value'.node h.2
      constructor
      · simp [Field.layout, hkey.layout, hvalue.layout]
      · simp [hkey.levels, hvalue.levels]
      · simp [hkey.targets, hvalue.targets]
  | .named n value, b, h => by
    cases b <;> try cases h
    next n' value' =>
      simp only [Field.same, Bool.and_eq_true] at h
      have hn : n.node = n'.node := by simpa [Located.sameNode] using h.1
      have hvalue := Expr.alike_of_same value.node value'.node h.2
      constructor
      · simp [Field.layout, hvalue.layout, hn]
      · simp [hvalue.levels]
      · simp [hvalue.targets]
  | .positional value, b, h => by
    cases b <;> try cases h
    next value' =>
      have hvalue := Expr.alike_of_same value.node value'.node h
      constructor
      · simp [Field.layout, hvalue.layout]
      · simp [hvalue.levels]
      · simp [hvalue.targets]
termination_by structural a => a

end

end LuaSyntax
