import LuaSyntax.Proofs.Source.SpanEq
import LuaSyntax.Proofs.Tree.Same
/-!
# Equality of trees up to spans

Trees are the same up to spans if their parts are.
-/

namespace LuaSyntax

instance : SpanEq BinOp := ⟨(· = ·)⟩

instance : SpanEq UnOp := ⟨(· = ·)⟩

instance : SpanEq FuncName := ⟨(·.same ·)⟩

instance : SpanEq Block := ⟨(·.same ·)⟩

instance : SpanEq Return := ⟨(·.same ·)⟩

instance : SpanEq Stmt := ⟨(·.same ·)⟩

instance : SpanEq IfClause := ⟨(·.same ·)⟩

instance : SpanEq FuncBody := ⟨(·.same ·)⟩

instance : SpanEq Expr := ⟨(·.same ·)⟩

instance : SpanEq PrefixExp := ⟨(·.same ·)⟩

instance : SpanEq Head := ⟨(·.same ·)⟩

instance : SpanEq Suffix := ⟨(·.same ·)⟩

instance : SpanEq Args := ⟨(·.same ·)⟩

instance : SpanEq Field := ⟨(·.same ·)⟩

namespace SpanEq

theorem stmts_iff {ss us : List (Located Stmt)} : sameStmts ss us = true ↔ same ss us :=
  forall₂_of_equations rfl (fun _ _ _ _ => by rw [sameStmts, Bool.and_eq_true]; rfl)
    (fun _ _ => rfl) fun _ _ => rfl

theorem suffixes_iff {ss us : List (Located Suffix)} : sameSuffixes ss us = true ↔ same ss us :=
  forall₂_of_equations rfl (fun _ _ _ _ => by rw [sameSuffixes, Bool.and_eq_true]; rfl)
    (fun _ _ => rfl) fun _ _ => rfl

theorem names_iff {ns ms : List (Located Name)} : sameNodes ns ms = true ↔ same ns ms :=
  sameNodes_iff

theorem exprs_iff {es fs : List (Located Expr)} : sameExprs es fs = true ↔ same es fs :=
  sameExprs_iff

theorem fields_iff {fs gs : List (Located Field)} : sameFields fs gs = true ↔ same fs gs :=
  sameFields_iff

theorem targets_iff {ts us : List (Located PrefixExp)} : sameTargets ts us = true ↔ same ts us :=
  sameTargets_iff

theorem clauses_iff {cs ds : List IfClause} : sameClauses cs ds = true ↔ same cs ds :=
  sameClauses_iff

theorem return?_iff {r r' : Option (Located Return)} : sameReturn? r r' = true ↔ same r r' := by
  cases r with
  | none => cases r' with
    | none => exact ⟨fun _ => .none, fun _ => rfl⟩
    | some r' => exact ⟨nofun, nofun⟩
  | some r => cases r' with
    | none => exact ⟨nofun, nofun⟩
    | some r' => exact ⟨fun h => .some h, fun | .some h => h⟩

theorem block?_iff {b b' : Option Block} : sameBlock? b b' = true ↔ same b b' := by
  cases b with
  | none => cases b' with
    | none => exact ⟨fun _ => .none, fun _ => rfl⟩
    | some b' => exact ⟨nofun, nofun⟩
  | some b => cases b' with
    | none => exact ⟨nofun, nofun⟩
    | some b' => exact ⟨fun h => .some h, fun | .some h => h⟩

theorem both {x y : Bool} (hx : x = true) (hy : y = true) : (x && y) = true := by
  rw [hx, hy]
  rfl

section

variable {op op' : Located BinOp} {sign sign' : Located UnOp} {d d' e e' f f' : Located Expr}
  {n n' : Located Name} {ns ns' : List (Located Name)} {es es' : List (Located Expr)}
  {body body' : Block} {args args' : Args} {func func' : FuncBody}

/-! ### Expressions -/

theorem binary (hop : same op op') (he : same e e') (hf : same f f') :
    same (Expr.ofBinary op e f) (Expr.ofBinary op' e' f') :=
  both (both (beq_iff_eq.2 hop) he) hf

theorem unary (hsign : same sign sign') (he : same e e') :
    same (Expr.ofUnary sign e) (Expr.ofUnary sign' e') :=
  both (beq_iff_eq.2 hsign) he

theorem funcBody {vararg vararg' : Option Span} (hns : same ns ns') (hvararg : same vararg vararg')
    (hbody : same body body') : same (FuncBody.mk ns vararg body) ⟨ns', vararg', body'⟩ := by
  have hsome : vararg.isSome = vararg'.isSome := by
    cases hvararg <;> rfl
  exact both (both (names_iff.2 hns) (beq_iff_eq.2 hsome)) hbody

theorem keyed (he : same e e') (hf : same f f') : same (Field.keyed e f) (.keyed e' f') :=
  both he hf

theorem named (hn : same n n') (he : same e e') : same (Field.named n e) (.named n' e') :=
  both (beq_iff_eq.2 hn) he

theorem prefixExp {head head' : Located Head} {ss ss' : List (Located Suffix)}
    (hhead : same head head') (hss : same ss ss') : same (PrefixExp.mk head ss) ⟨head', ss'⟩ :=
  both hhead (suffixes_iff.2 hss)

theorem method (hn : same n n') (hargs : same args args') :
    same (Suffix.method n args) (.method n' args') :=
  both (beq_iff_eq.2 hn) hargs

/-! ### Statements -/

theorem block {ss ss' : List (Located Stmt)} {r r' : Option (Located Return)} (hss : same ss ss')
    (hr : same r r') : same (Block.mk ss r) ⟨ss', r'⟩ :=
  both (stmts_iff.2 hss) (return?_iff.2 hr)

theorem block_iff {a b : Block} : same a b ↔ same a.stmts b.stmts ∧ same a.ret b.ret := by
  obtain ⟨ss, r⟩ := a
  obtain ⟨ss', r'⟩ := b
  refine ⟨fun h => ?_, fun h => block h.1 h.2⟩
  have h : (sameStmts ss ss' && sameReturn? r r') = true := h
  rw [Bool.and_eq_true] at h
  exact ⟨stmts_iff.1 h.1, return?_iff.1 h.2⟩

theorem append {a a' b b' : Block} (ha : same a a') (hb : same b b') :
    same (a ++ b) (a' ++ b') := by
  obtain ⟨hss, hr⟩ := block_iff.1 ha
  obtain ⟨hss', hr'⟩ := block_iff.1 hb
  refine block (List.rel_append hss hss') ?_
  revert hr'
  generalize b.ret = r, b'.ret = r'
  rintro (hr' | _)
  · exact .some hr'
  · exact hr

theorem funcName {path path' : List (Located Name)} {method method' : Option (Located Name)}
    (hpath : same path path') (hmethod : same method method') :
    same (FuncName.mk path method) ⟨path', method'⟩ := by
  have hmap : method.map (·.node) = method'.map (·.node) := by
    cases hmethod with
    | none => rfl
    | some h => exact congrArg some h
  exact both (names_iff.2 hpath) (beq_iff_eq.2 hmap)

theorem whileLoop (he : same e e') (hbody : same body body') :
    same (Stmt.whileLoop e body) (.whileLoop e' body') :=
  both he hbody

theorem repeatLoop (hbody : same body body') (he : same e e') :
    same (Stmt.repeatLoop body e) (.repeatLoop body' e') :=
  both hbody he

theorem clause (he : same e e') (hbody : same body body') :
    same (IfClause.mk e body) ⟨e', body'⟩ :=
  both he hbody

theorem conditional {cs cs' : List IfClause} {otherwise otherwise' : Option Block}
    (hcs : same cs cs') (hotherwise : same otherwise otherwise') :
    same (Stmt.conditional cs otherwise) (.conditional cs' otherwise') :=
  both (clauses_iff.2 hcs) (block?_iff.2 hotherwise)

theorem numericFor (hn : same n n') (hd : same d d') (he : same e e') (hf : same f f')
    (hbody : same body body') :
    same (Stmt.numericFor n d e f body) (.numericFor n' d' e' f' body') :=
  both (both (both (both (beq_iff_eq.2 hn) hd) he) hf) hbody

theorem genericFor (hns : same ns ns') (hes : same es es') (hbody : same body body') :
    same (Stmt.genericFor ns es body) (.genericFor ns' es' body') :=
  both (both (names_iff.2 hns) (exprs_iff.2 hes)) hbody

theorem function {name name' : FuncName} (hname : same name name') (hfunc : same func func') :
    same (Stmt.function name func) (.function name' func') :=
  both hname hfunc

theorem localFunction (hn : same n n') (hfunc : same func func') :
    same (Stmt.localFunction n func) (.localFunction n' func') :=
  both (beq_iff_eq.2 hn) hfunc

theorem padWithNil (count : Nat) {span span' : Span} (hes : same es es') :
    same (Expr.padWithNil count span es) (Expr.padWithNil count span' es') := by
  have hlength : es'.length = es.length := hes.length_eq.symm
  unfold Expr.padWithNil
  rw [hlength]
  refine List.rel_append hes ?_
  generalize count - es.length = missing
  induction missing with
  | zero => exact .nil
  | succ missing ih => exact .cons rfl ih

theorem localDecl (hns : same ns ns') (hes : same es es') :
    same (Stmt.localDecl ns es) (.localDecl ns' es') :=
  both (names_iff.2 hns) (exprs_iff.2 hes)

theorem assign {ts ts' : List (Located PrefixExp)} (hts : same ts ts') (hes : same es es') :
    same (Stmt.assign ts es) (.assign ts' es') :=
  both (targets_iff.2 hts) (exprs_iff.2 hes)

end

end SpanEq

end LuaSyntax
