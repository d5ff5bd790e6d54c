import LuaSyntax.Proofs.Grammar.Sound
import LuaSyntax.Proofs.Tree.Levels
import LuaSyntax.Proofs.Tree.Printed
/-!
# What printing adds to a derivation

The tokens of a printed tree are those that it is derived from, up to words and symbols that both
dialects have. Where the tree nests deeper than its derivation, the printer has filled up values,
and writes an `=` for them that was not there before.
-/

namespace LuaSyntax.Language

open Operator

/-- Whether a printer may write the token of its own accord. -/
def isPlain (t : Token) : Bool := t.isShared || t == .number "1"

/-- `us` is printed for what was read from `ts`, and nests `levels` deep: within the limit, or else,
if `filled`, with an `=` that was not there before. -/
structure Prints (filled : Prop) (limit : Nat) (ts us : List Token) (levels : Nat) : Prop where
  mem : ∀ t ∈ us, t ∈ ts ∨ isPlain t = true
  count : ts.count (.symbol .equal) ≤ us.count (.symbol .equal)
  room : levels ≤ limit ∨ filled ∧ ts.count (.symbol .equal) < us.count (.symbol .equal)

namespace Prints

variable {filled : Prop} {limit m n : Nat} {ts us vs ws : List Token}

theorem nil : Prints filled limit [] [] 0 :=
  ⟨nofun, Nat.le_refl _, .inl (Nat.zero_le _)⟩

theorem keep (ts : List Token) : Prints filled limit ts ts 0 :=
  ⟨fun _ h => .inl h, Nat.le_refl _, .inl (Nat.zero_le _)⟩

theorem swap {t u : Token} (ht : t ≠ .symbol .equal) (hu : isPlain u = true) :
    Prints filled limit [t] [u] 0 := by
  refine ⟨?_, ?_, .inl (Nat.zero_le _)⟩
  · rw [List.forall_mem_singleton]
    exact .inr hu
  · have hcount : [t].count (.symbol .equal) = 0 :=
      List.count_eq_zero.2 (by simpa using ht.symm)
    omega

theorem drops (h : ∀ t ∈ ts, t ≠ .symbol .equal) : Prints filled limit ts [] 0 := by
  have hcount : ts.count (.symbol .equal) = 0 :=
    List.count_eq_zero.2 fun ht => h _ ht rfl
  exact ⟨nofun, Nat.le_of_eq hcount, .inl (Nat.zero_le _)⟩

theorem fills (h : ∀ t ∈ us, isPlain t = true) : Prints filled limit [] us 0 :=
  ⟨fun t ht => .inr (h t ht), Nat.zero_le _, .inl (Nat.zero_le _)⟩

theorem append (h : Prints filled limit ts us m) (h' : Prints filled limit vs ws n) :
    Prints filled limit (ts ++ vs) (us ++ ws) (max m n) := by
  have hcount := h.count
  have hcount' := h'.count
  refine ⟨fun t ht => ?_, ?_, ?_⟩
  · rw [List.mem_append] at ht ⊢
    rcases ht with ht | ht
    · exact (h.mem t ht).imp_left .inl
    · exact (h'.mem t ht).imp_left .inr
  · simp only [List.count_append]
    omega
  · simp only [List.count_append]
    rcases h.room with hm | ⟨hf, hm⟩
    · rcases h'.room with hn | ⟨hf, hn⟩
      · exact .inl (by omega)
      · exact .inr ⟨hf, by omega⟩
    · exact .inr ⟨hf, by omega⟩

theorem congr (h : Prints filled limit ts us m) (hts : ts = vs) (hus : us = ws) (hn : n ≤ m) :
    Prints filled limit vs ws n := by
  subst hts hus
  exact ⟨h.mem, h.count, h.room.imp_left (Nat.le_trans hn)⟩

/-- A level further out there is one more level of room. -/
theorem succ (h : Prints filled limit ts us n) : Prints filled (limit + 1) ts us (n + 1) :=
  ⟨h.mem, h.count, h.room.imp_left Nat.succ_le_succ⟩

end Prints

/-! ### Lists -/

section

variable {α : Type} {separator : Symbol} {item item' : List Token → α → Prop} {ts : List Token}
  {as : List (Located α)}

theorem Listed.ne_nil (h : Listed separator item ts as) : as ≠ [] := by
  cases h <;> simp

theorem Listed.forall_mem (h : Listed separator item ts as) : ∀ a ∈ as, ∃ us, item us a.node := by
  induction h with
  | one h => simpa using ⟨_, h⟩
  | more h _ ih =>
    rw [List.forall_mem_cons]
    exact ⟨⟨_, h⟩, ih⟩

/-- Items with a separator between them, as they are printed. -/
theorem listed_separated {f : α → Layout} (hne : as ≠ [])
    (h : ∀ a ∈ as, item (f a.node).tokens a.node) (blanks : Layout) (hblanks : blanks.tokens = []) :
    Listed separator item (Layout.separated (.symbol separator :: blanks)
      (as.map fun a => f a.node)).tokens as := by
  induction as with
  | nil => exact absurd rfl hne
  | cons a as ih =>
    rw [List.forall_mem_cons] at h
    cases as with
    | nil => exact .one h.1
    | cons b bs =>
      have hrest := ih (by simp) h.2
      simpa [Layout.separated, hblanks] using Listed.more h.1 hrest

/-- Names are printed as they are read. -/
theorem tokens_names {ns : List (Located Name)} (h : Listed separator IsName ts ns)
    (blanks : Layout) (hblanks : blanks.tokens = []) :
    (Layout.separated (.symbol separator :: blanks) (Layout.names ns)).tokens = ts := by
  induction h with
  | one h =>
    cases h
    rfl
  | @more ts us a as h hrest ih =>
    cases h
    cases as with
    | nil => exact absurd rfl hrest.ne_nil
    | cons b bs =>
      simp only [Layout.names, List.map_cons] at ih
      simp [Layout.names, Layout.separated, hblanks, ih]

theorem tokens_commas_names {ns : List (Located Name)} (h : Listed .comma IsName ts ns) :
    (Layout.commas (Layout.names ns)).tokens = ts :=
  tokens_names h [.blank] rfl

theorem tokens_funcName {n : FuncName} (h : IsFuncName ts n) : n.layout.tokens = ts := by
  cases h with
  | plain h => simpa [FuncName.layout] using tokens_names h [] rfl
  | method h name => simp [FuncName.layout, tokens_names h [] rfl]

end

/-! ### Expressions -/

/-- What is derived in the language is printed within the limit, or with further values. A limit
that leaves no room for those is only kept where there may be some. -/
structure Fits (filled : Prop) (limit : Nat) (L : Language) : Prop where
  expr : ∀ {ts : List Token} {e : Expr}, L.expr ts e →
    Prints filled limit ts e.layout.tokens e.levels
  block : ∀ {ts : List Token} {b : Block}, L.block ts b →
    Prints filled limit ts b.layout.tokens b.levels
  spare : filled ∨ 1 ≤ limit

theorem tokens_commas_append (ls ms : List Layout) (hl : ls ≠ []) (hm : ms ≠ []) :
    (Layout.commas (ls ++ ms)).tokens =
      (Layout.commas ls).tokens ++ .symbol .comma :: (Layout.commas ms).tokens := by
  induction ls with
  | nil => exact absurd rfl hl
  | cons l ls ih =>
    cases ls with
    | nil =>
      obtain ⟨m, ms, rfl⟩ := List.exists_cons_of_ne_nil hm
      simp [Layout.commas_cons]
    | cons k ls =>
      have hrest := ih (by simp)
      simp only [List.cons_append] at hrest ⊢
      simp [Layout.commas_cons, hrest]

theorem tokens_params {ts : List Token} {ns : List (Located Name)} {vararg : Option Span}
    (h : Params ts ns vararg) :
    (Layout.params ns vararg).tokens = .symbol .openParen :: ts ++ [.symbol .closeParen] := by
  cases h with
  | none => rfl
  | names h => simp [Layout.params, tokens_commas_names h]
  | vararg span => rfl
  | @namesVararg ts ns h span =>
    have hne : Layout.names ns ≠ [] := by simpa [Layout.names] using h.ne_nil
    simp [Layout.params, tokens_commas_append _ _ hne, tokens_commas_names h]

section

variable {filled : Prop} {limit : Nat} {L : Language} {ts : List Token}

theorem Fits.exprs (h : L.Fits filled limit) {es : List (Located Expr)}
    (hes : Listed .comma L.expr ts es) :
    Prints filled limit ts (Layout.commas (layoutExprs es)).tokens (levelsOfExprs es) := by
  induction hes with
  | one he => exact (h.expr he).congr rfl rfl (by simp [Expr.levels])
  | @more ts us e es he hes ih =>
    obtain ⟨f, fs, rfl⟩ := List.exists_cons_of_ne_nil hes.ne_nil
    refine ((h.expr he).append ((Prints.keep [.symbol .comma]).append ih)).congr rfl ?_ ?_
    · simp [layoutExprs, Layout.commas_cons]
    · simp [Expr.levels]

theorem Fits.func (h : L.Fits filled limit) {f : FuncBody} (hf : Func L ts f) :
    Prints filled limit ts f.layout.tokens f.inside := by
  cases hf with
  | @intro ps bs names vararg body hparams hbody =>
    refine ((Prints.keep (.symbol .openParen :: ps ++ [.symbol .closeParen])).append
      ((h.block hbody).append (.keep [.keyword .end_]))).congr (by simp) ?_ ?_
    · simp [FuncBody.layout, tokens_params hparams]
    · simp

theorem Fits.field (h : L.Fits filled limit) {f : Field} (hf : IsField L ts f) :
    Prints filled limit ts f.layout.tokens f.inside := by
  cases hf with
  | keyed hkey hvalue =>
    refine ((Prints.keep [.symbol .openBracket]).append ((h.expr hkey).append
      ((Prints.keep [.symbol .closeBracket, .symbol .equal]).append (h.expr hvalue)))).congr
      (by simp) (by simp [Field.layout]) (by simp [Expr.levels])
  | named name hvalue =>
    exact ((Prints.keep [.ident name.node, .symbol .equal]).append (h.expr hvalue)).congr rfl
      (by simp [Field.layout]) (by simp [Expr.levels])
  | positional hvalue =>
    exact (h.expr hvalue).congr rfl (by simp [Field.layout]) (Nat.le_refl _)

theorem Fits.fields (h : L.Fits filled limit) {fs : List (Located Field)} (hfs : Fields L ts fs) :
    Prints filled limit ts (Layout.commas (layoutFields fs)).tokens (levelsOfFields fs) := by
  induction hfs with
  | nil => exact .nil
  | last hf => exact (h.field hf).congr rfl (by simp [layoutFields]) (by simp)
  | @more ts us f fs separator hf hseparator hfs ih =>
    have hne : Token.symbol separator ≠ .symbol .equal := by
      rcases hseparator with rfl | rfl <;> simp
    cases fs with
    | nil =>
      have hdrops : Prints filled limit [.symbol separator] [] 0 := .drops (by simpa using hne)
      exact ((h.field hf).append (hdrops.append ih)).congr rfl (by simp [layoutFields])
        (by simp)
    | cons g gs =>
      refine ((h.field hf).append ((Prints.swap (u := .symbol .comma) hne rfl).append ih)).congr rfl
        ?_ (by simp)
      simp [layoutFields, Layout.commas_cons]

theorem Fits.table (h : L.Fits filled limit) {fs : List (Located Field)} (hfs : Table L ts fs) :
    Prints filled limit ts (Layout.braced (layoutFields fs)).tokens (levelsOfFields fs) := by
  obtain ⟨hfs⟩ := hfs
  exact ((Prints.keep [.symbol .openBrace]).append ((h.fields hfs).append
    (.keep [.symbol .closeBrace]))).congr (by simp) (by simp) (by simp)

theorem Fits.args (h : L.Fits filled limit) {a : Args} (ha : IsArgs L ts a) :
    Prints filled limit ts a.layout.tokens a.inside := by
  cases ha with
  | empty => exact (Prints.keep _).congr rfl (by simp [Args.layout, layoutExprs]) (Nat.zero_le _)
  | list hes =>
    exact ((Prints.keep [.symbol .openParen]).append ((h.exprs hes).append
      (.keep [.symbol .closeParen]))).congr (by simp) (by simp [Args.layout])
      (by simp)
  | table hfs =>
    exact (h.table hfs).congr rfl (by simp [Args.layout]) (by simp)
  | str raw => exact (Prints.keep _).congr rfl (by simp [Args.layout]) (by simp)

theorem Fits.suffix (h : L.Fits filled limit) {s : Suffix} (hs : IsSuffix L ts s) :
    Prints filled limit ts s.layout.tokens s.inside := by
  cases hs with
  | call ha => exact (h.args ha).congr rfl (by simp [Suffix.layout]) (by simp)
  | method name ha =>
    exact ((Prints.keep [.symbol .colon, .ident name.node]).append (h.args ha)).congr (by simp)
      (by simp [Suffix.layout]) (by simp)
  | index he =>
    exact ((Prints.keep [.symbol .openBracket]).append ((h.expr he).append
      (.keep [.symbol .closeBracket]))).congr (by simp) (by simp [Suffix.layout])
      (by simp [Expr.levels])
  | field name =>
    exact (Prints.keep _).congr rfl (by simp [Suffix.layout]) (by simp)

theorem Fits.suffixes (h : L.Fits filled limit) {ss : List (Located Suffix)}
    (hss : Suffixes L ts ss) :
    Prints filled limit ts (layoutSuffixes ss).tokens (levelsOfSuffixes ss) := by
  induction hss with
  | nil => exact .nil
  | cons hs _ ih =>
    exact ((h.suffix hs).append ih).congr rfl (by simp [layoutSuffixes])
      (by simp)

theorem Fits.head (h : L.Fits filled limit) {a : Head} (ha : IsHead L ts a) :
    Prints filled limit ts a.layout.tokens a.inside := by
  cases ha with
  | name n => exact (Prints.keep _).congr rfl (by simp [Head.layout]) (by simp)
  | paren he =>
    exact ((Prints.keep [.symbol .openParen]).append ((h.expr he).append
      (.keep [.symbol .closeParen]))).congr (by simp) (by simp [Head.layout])
      (by simp [Expr.levels])

theorem Fits.access (h : L.Fits filled limit) {p : PrefixExp} (hp : Access L ts p) :
    Prints filled limit ts p.layout.tokens p.inside := by
  cases hp with
  | intro hhead hsuffixes =>
    exact ((h.head hhead).append (h.suffixes hsuffixes)).congr rfl (by simp [PrefixExp.layout])
      (by simp)

theorem Fits.atom (h : L.Fits filled limit) {e : Expr} (he : Atom L ts e) :
    Prints filled limit ts e.layout.tokens e.inside := by
  cases he with
  | function hf =>
    exact ((Prints.keep [.keyword .function_]).append (h.func hf)).congr rfl
      (by simp [Expr.layout]) (by simp)
  | access hp => exact (h.access hp).congr rfl (by simp [Expr.layout]) (by simp)
  | table hfs => exact (h.table hfs).congr rfl (by simp [Expr.layout]) (by simp)
  | nil | false | true | number | str | vararg =>
    exact (Prints.keep _).congr rfl (by simp [Expr.layout]) (by simp)

theorem isPlain_binOp (op : BinOp) : isPlain op.token = true := by
  cases op <;> rfl

theorem isPlain_unOp (op : UnOp) : isPlain op.token = true := by
  cases op <;> rfl

/-- Operators may be spelled in two ways. One of them is printed. -/
theorem Fits.binary {us : List Token} {t : Token} {op : Located BinOp} {lhs rhs : Located Expr}
    (hlhs : Prints filled limit ts lhs.node.layout.tokens lhs.node.inside)
    (ht : t ≠ .symbol .equal)
    (hrhs : Prints filled limit us rhs.node.layout.tokens rhs.node.inside) :
    Prints filled limit (ts ++ t :: us) (Expr.binary op lhs rhs).layout.tokens
      (Expr.binary op lhs rhs).inside :=
  (hlhs.append ((Prints.swap ht (isPlain_binOp op.node)).append hrhs)).congr rfl
    (by simp [Expr.layout]) (by simp)

theorem Fits.unary (h : L.Fits filled limit) {e : Expr} (he : Unary L ts e) :
    Prints filled limit ts e.layout.tokens e.inside := by
  induction he with
  | @operator ts t op operand hop _ ih =>
    have ht : t ≠ .symbol .equal := by
      rintro rfl
      simp [unaryOps] at hop
    exact ((Prints.swap ht (isPlain_unOp op.node)).append ih).congr rfl (by simp [Expr.layout])
      (by simp)
  | atom he => exact h.atom he
  | @power ts us t op base exponent hbase hop _ ih =>
    have ht : t ≠ .symbol .equal := by
      rintro rfl
      simp [powOps] at hop
    exact Fits.binary (h.atom hbase) ht ih

section

variable {ops : List (Token × BinOp)} {operand : List Token → Expr → Prop}

theorem Fits.leftAssoc (hops : ∀ p ∈ ops, p.1 ≠ .symbol .equal)
    (h : ∀ {ts e}, operand ts e → Prints filled limit ts e.layout.tokens e.inside) {e : Expr}
    (he : LeftAssoc ops operand ts e) : Prints filled limit ts e.layout.tokens e.inside := by
  induction he with
  | operand he => exact h he
  | binary _ hop hright ih => exact Fits.binary ih (hops _ hop) (h hright)

theorem Fits.rightAssoc (hops : ∀ p ∈ ops, p.1 ≠ .symbol .equal)
    (h : ∀ {ts e}, operand ts e → Prints filled limit ts e.layout.tokens e.inside) {e : Expr}
    (he : RightAssoc ops operand ts e) : Prints filled limit ts e.layout.tokens e.inside := by
  induction he with
  | operand he => exact h he
  | binary hleft hop _ ih => exact Fits.binary (h hleft) (hops _ hop) ih

end

theorem Fits.disjunction (h : L.Fits filled limit) {e : Expr} (he : Disjunction L ts e) :
    Prints filled limit ts e.layout.tokens e.inside :=
  Fits.leftAssoc (by simp [orOps])
    (Fits.leftAssoc (by simp [andOps])
      (Fits.leftAssoc (by simp [compareOps])
        (Fits.rightAssoc (by simp [concatOps])
          (Fits.leftAssoc (by simp [addOps])
            (Fits.leftAssoc (by simp [mulOps]) h.unary))))) he

/-! ### Statements -/

theorem Fits.clause (h : L.Fits filled limit) {c : IfClause} (hc : Clause L ts c) :
    Prints filled limit ts c.layout.tokens c.inside := by
  cases hc with
  | intro hcond hbody =>
    exact ((h.expr hcond).append ((Prints.keep [.keyword .then_]).append (h.block hbody))).congr
      (by simp) (by simp [IfClause.layout]) (by simp [Expr.levels])

theorem Fits.clauses (h : L.Fits filled limit) {word : Keyword} {cs : List IfClause}
    (hcs : Clauses L word ts cs) :
    Prints filled limit ts (layoutClauses word cs).tokens (levelsOfClauses cs) := by
  induction hcs with
  | @one word ts clause hc =>
    exact ((Prints.keep [.keyword word]).append (h.clause hc)).congr rfl (by simp [layoutClauses])
      (by simp)
  | @more word ts us clause clauses hc _ ih =>
    exact ((Prints.keep [.keyword word]).append ((h.clause hc).append ih)).congr (by simp)
      (by simp [layoutClauses]) (by simp)

theorem Fits.else (h : L.Fits filled limit) {b : Option Block} (hb : Else L ts b) :
    Prints filled limit ts (layoutElse b).tokens (levelsOfElse b) := by
  cases hb with
  | none => exact .nil
  | some hb =>
    exact ((Prints.keep [.keyword .else_]).append (h.block hb)).congr rfl (by simp [layoutElse])
      (by simp)

theorem Fits.targets (h : L.Fits filled limit) {targets : List (Located PrefixExp)}
    (htargets : Listed .comma (Access L) ts targets) :
    Prints filled limit ts (Layout.commas (layoutTargets targets)).tokens
      (levelsOfTargets targets) := by
  induction htargets with
  | one hp => exact (h.access hp).congr rfl rfl (by simp)
  | @more ts us p targets hp hrest ih =>
    obtain ⟨q, qs, rfl⟩ := List.exists_cons_of_ne_nil hrest.ne_nil
    refine ((h.access hp).append ((Prints.keep [.symbol .comma]).append ih)).congr rfl ?_ ?_
    · simp [layoutTargets, Layout.commas_cons]
    · simp

theorem isPlain_nils {padding : List (Located Expr)} (h : ∀ e ∈ padding, e.node = .nil) :
    ∀ t ∈ (Layout.commas (layoutExprs padding)).tokens, isPlain t = true := by
  induction padding with
  | nil => exact nofun
  | cons e es ih =>
    rw [List.forall_mem_cons] at h
    have hrest := ih h.2
    cases es with
    | nil =>
      rw [layoutExprs, layoutExprs, Layout.commas_singleton, h.1]
      simp [Expr.layout]
      rfl
    | cons f fs =>
      rw [layoutExprs, layoutExprs, Layout.commas_cons, h.1, ← layoutExprs]
      simp only [Expr.layout, Layout.tokens_append, Layout.tokens_cons_keyword,
        Layout.tokens_cons_symbol, Layout.tokens_cons_blank, Layout.tokens_nil]
      intro t ht
      rw [List.mem_append] at ht
      rcases ht with ht | ht
      · simp at ht
        rcases ht with rfl | rfl <;> rfl
      · exact hrest t ht

theorem levelsOfExprs_append (es fs : List (Located Expr)) :
    levelsOfExprs (es ++ fs) = max (levelsOfExprs es) (levelsOfExprs fs) := by
  induction es with
  | nil => simp
  | cons e es ih => simp [ih, Nat.max_assoc]

theorem levelsOfExprs_nils {padding : List (Located Expr)} (h : ∀ e ∈ padding, e.node = .nil) :
    levelsOfExprs padding ≤ 1 := by
  induction padding with
  | nil => exact Nat.zero_le _
  | cons e es ih =>
    rw [List.forall_mem_cons] at h
    have hrest := ih h.2
    simp only [levelsOfExprs, h.1, Expr.inside]
    omega

/-- Filling up values needs no more room than the values that are there. -/
theorem Fits.padded (h : L.Fits filled limit) {count : Nat} {values es : List (Located Expr)}
    (hvalues : Listed .comma L.expr ts values) (hes : Padded count values es) :
    Prints filled limit ts (Layout.commas (layoutExprs es)).tokens (levelsOfExprs es) := by
  obtain ⟨padding, rfl, -, hnil⟩ := hes
  have hlevel : 1 ≤ levelsOfExprs values := by
    obtain ⟨v, vs, rfl⟩ := List.exists_cons_of_ne_nil hvalues.ne_nil
    simp only [levelsOfExprs]
    omega
  have hnils := levelsOfExprs_nils hnil
  have hmax : levelsOfExprs (values ++ padding) ≤ levelsOfExprs values := by
    rw [levelsOfExprs_append]
    omega
  cases padding with
  | nil =>
    rw [List.append_nil]
    exact h.exprs hvalues
  | cons p ps =>
    have hlayout : (Layout.commas (layoutExprs (values ++ p :: ps))).tokens =
        (Layout.commas (layoutExprs values)).tokens ++
          .symbol .comma :: (Layout.commas (layoutExprs (p :: ps))).tokens := by
      have hne := hvalues.ne_nil
      rw [layoutExprs_eq_map, List.map_append, tokens_commas_append _ _ (by simpa using hne)
        (by simp), layoutExprs_eq_map, layoutExprs_eq_map]
    have hfill : ∀ t ∈ Token.symbol .comma :: (Layout.commas (layoutExprs (p :: ps))).tokens,
        isPlain t = true := by
      rw [List.forall_mem_cons]
      exact ⟨rfl, isPlain_nils hnil⟩
    exact ((h.exprs hvalues).append (.fills hfill)).congr (by simp) hlayout.symm (by omega)

/-- A declaration without values is printed with an `=` and as many `nil`s as it has names. -/
theorem Fits.unassigned (h : L.Fits filled limit) {ns : List Token} {names : List (Located Name)}
    {es : List (Located Expr)} (hnames : Listed .comma IsName ns names)
    (hes : Padded names.length [] es) :
    Prints filled limit (.keyword .local_ :: ns) (Stmt.localDecl names es).layout.tokens
      (levelsOfExprs es) := by
  obtain ⟨padding, heq, hlength, hnil⟩ := hes
  rw [List.nil_append] at heq
  subst heq
  have hnames' := tokens_commas_names hnames
  have hnils := levelsOfExprs_nils hnil
  obtain ⟨p, ps, rfl⟩ : ∃ p ps, es = p :: ps := by
    refine List.exists_cons_of_ne_nil fun hpadding => ?_
    have hne := List.length_pos_iff.2 hnames.ne_nil
    rw [hpadding, List.length_nil] at hlength
    omega
  have hlayout : (Stmt.localDecl names (p :: ps)).layout.tokens = .keyword .local_ :: ns ++
      .symbol .equal :: (Layout.commas (layoutExprs (p :: ps))).tokens := by
    simp [Stmt.layout, layoutExprs, hnames']
  have hfill := isPlain_nils hnil
  rw [hlayout]
  refine ⟨fun t ht => ?_, ?_, ?_⟩
  · rcases List.mem_append.1 ht with ht | ht
    · exact .inl ht
    · rcases List.mem_cons.1 ht with heq | ht
      · exact .inr (heq ▸ rfl)
      · exact .inr (hfill t ht)
  · rw [List.count_append]
    omega
  · rcases h.spare with hf | hlimit
    · refine .inr ⟨hf, ?_⟩
      rw [List.count_append, List.count_cons_self]
      omega
    · exact .inl (by omega)

theorem Fits.stmt (h : L.Fits filled limit) {s : Stmt} (hs : IsStmt L ts s) :
    Prints filled limit ts s.layout.tokens s.inside := by
  cases hs with
  | label | breakLoop | continueLoop | goto =>
    exact (Prints.keep _).congr rfl (by simp [Stmt.layout]) (by simp)
  | block hbody =>
    exact ((Prints.keep [.keyword .do_]).append ((h.block hbody).append
      (.keep [.keyword .end_]))).congr (by simp) (by simp [Stmt.layout]) (by simp)
  | whileLoop hcond hbody =>
    exact ((Prints.keep [.keyword .while_]).append ((h.expr hcond).append
      ((Prints.keep [.keyword .do_]).append ((h.block hbody).append
        (.keep [.keyword .end_]))))).congr (by simp) (by simp [Stmt.layout])
      (by simp [Expr.levels])
  | repeatLoop hbody hcond =>
    exact ((Prints.keep [.keyword .repeat_]).append ((h.block hbody).append
      ((Prints.keep [.keyword .until_]).append (h.expr hcond)))).congr (by simp)
      (by simp [Stmt.layout]) (by simp [Expr.levels])
  | numericFor var hstart hstop hstep hbody =>
    refine ((Prints.keep [.keyword .for_, .ident var.node, .symbol .equal]).append
      ((h.expr hstart).append ((Prints.keep [.symbol .comma]).append ((h.expr hstop).append
        ((Prints.keep [.symbol .comma]).append ((h.expr hstep).append
          ((Prints.keep [.keyword .do_]).append ((h.block hbody).append
            (.keep [.keyword .end_]))))))))).congr (by simp) ?_ ?_
    · simp [Stmt.layout, Layout.commas_cons]
    · simp only [Stmt.inside, Expr.levels]
      omega
  | numericForByOne var span hstart hstop hbody =>
    have hfills : Prints filled limit [] [.symbol .comma, .number "1"] 0 :=
      .fills (by simp [isPlain]; rfl)
    refine ((Prints.keep [.keyword .for_, .ident var.node, .symbol .equal]).append
      ((h.expr hstart).append ((Prints.keep [.symbol .comma]).append ((h.expr hstop).append
        (hfills.append
          ((Prints.keep [.keyword .do_]).append ((h.block hbody).append
            (.keep [.keyword .end_])))))))).congr (by simp) ?_ ?_
    · simp [Stmt.layout, Layout.commas_cons, Expr.layout]
    · simp only [Stmt.inside, Expr.levels, Expr.inside]
      omega
  | @genericFor ns es bs vars exprs body hvars hexprs hbody =>
    exact ((Prints.keep [.keyword .for_]).append ((Prints.keep ns).append
      ((Prints.keep [.keyword .in_]).append ((h.exprs hexprs).append
        ((Prints.keep [.keyword .do_]).append ((h.block hbody).append
          (.keep [.keyword .end_]))))))).congr (by simp)
      (by simp [Stmt.layout, tokens_commas_names hvars]) (by simp)
  | conditional hclauses hotherwise =>
    exact ((h.clauses hclauses).append ((h.else hotherwise).append
      (.keep [.keyword .end_]))).congr (by simp) (by simp [Stmt.layout]) (by simp)
  | @function ns fs name body hname hbody =>
    exact ((Prints.keep [.keyword .function_]).append ((Prints.keep ns).append
      (h.func hbody))).congr (by simp) (by simp [Stmt.layout, tokens_funcName hname])
      (by simp)
  | localFunction name hbody =>
    exact ((Prints.keep [.keyword .local_, .keyword .function_, .ident name.node]).append
      (h.func hbody)).congr (by simp) (by simp [Stmt.layout]) (by simp)
  | localDecl hnames hexprs =>
    exact (h.unassigned hnames hexprs).congr rfl rfl (by simp)
  | @localValues ns es names values exprs hnames hvalues hexprs =>
    obtain ⟨e, es', rfl⟩ : ∃ e es', exprs = e :: es' := by
      obtain ⟨padding, rfl, -⟩ := hexprs
      obtain ⟨v, vs, rfl⟩ := List.exists_cons_of_ne_nil hvalues.ne_nil
      exact ⟨_, _, rfl⟩
    refine ((Prints.keep (.keyword .local_ :: ns ++ [.symbol .equal])).append
      (h.padded hvalues hexprs)).congr (by simp) ?_ (by simp)
    simp [Stmt.layout, layoutExprs, tokens_commas_names hnames]
  | call hp => exact (h.access hp).congr rfl (by simp [Stmt.layout]) (by simp)
  | assign htargets hvalues hexprs =>
    exact ((h.targets htargets).append ((Prints.keep [.symbol .equal]).append
      (h.padded hvalues hexprs))).congr (by simp) (by simp [Stmt.layout]) (by simp)

theorem Fits.return (h : L.Fits filled limit) {r : Return} (hr : IsReturn L ts r) :
    Prints filled limit ts r.layout.tokens r.inside := by
  have hdrop (count : Nat) :
      Prints filled limit (List.replicate count (.symbol .semicolon)) [] 0 := by
    refine .drops fun t ht => ?_
    rw [(List.mem_replicate.1 ht).2]
    simp
  cases hr with
  | bare count =>
    exact ((Prints.keep [.keyword .return_]).append (hdrop count)).congr rfl
      (by simp [Return.layout]) (by simp)
  | values hes count =>
    obtain ⟨e, es, rfl⟩ := List.exists_cons_of_ne_nil hes.ne_nil
    exact ((Prints.keep [.keyword .return_]).append ((h.exprs hes).append (hdrop count))).congr
      (by simp) (by simp [Return.layout, layoutExprs]) (by simp)

/-- The levels inside a block, its own not counted. -/
theorem Fits.statements (h : L.Fits filled limit) {b : Block} (hb : IsBlock L ts b) :
    Prints filled limit ts b.layout.tokens
      (max (levelsOfStmts b.stmts) (levelsOfReturn? b.ret)) := by
  induction hb with
  | empty => exact .nil
  | ret hr =>
    exact (h.return hr).congr rfl (by simp [Block.layout, layoutStmts, layoutReturn?])
      (by simp)
  | semicolon _ ih =>
    have hdrops : Prints filled limit [.symbol .semicolon] [] 0 := .drops (by simp)
    exact (hdrops.append ih).congr rfl rfl (by simp)
  | @stmt ts us s ss r hs _ _ ih =>
    have hparen : Prints filled limit []
        (Layout.tokens (if s.node.startsWithParen then [.symbol .semicolon] else [])) 0 := by
      split
      · exact .fills (by simp [isPlain]; rfl)
      · exact .nil
    exact (hparen.append ((h.stmt hs).append ih)).congr rfl (by simp [Block.layout, layoutStmts])
      (by simp only [levelsOfStmts]; omega)

theorem Fits.next (h : L.Fits filled limit) : (next L).Fits filled (limit + 1) := by
  refine ⟨fun he => (h.disjunction he).succ, fun {ts b} hb => ?_, .inr (Nat.le_add_left 1 limit)⟩
  obtain ⟨ss, r⟩ := b
  refine (h.statements hb).succ.congr rfl rfl ?_
  cases ss with
  | nil => cases r <;> simp
  | cons s ss => simp

theorem Fits.nest (h : L.Fits filled limit) (depth : Nat) :
    (nest L depth).Fits filled (limit + depth) := by
  induction depth with
  | zero => exact h
  | succ depth ih => exact ih.next

end

/-- Without room for values of its own, the innermost level may be filled up. -/
theorem fits_within (depth : Nat) : (within depth).Fits True depth := by
  have h : (bare fun _ => True).Fits True 0 := by
    refine ⟨nofun, ?_, .inl trivial⟩
    rintro ts b ⟨rfl, rfl⟩
    exact .nil
  have hnest := h.nest depth
  rwa [Nat.zero_add] at hnest

/-- A language with `nil`s at the limit has room for the values that are filled up. -/
theorem fits_nest_stub (depth : Nat) : (nest stub depth).Fits False (depth + 1) := by
  have h : stub.Fits False 1 := by
    refine ⟨?_, ?_, .inr (Nat.le_refl _)⟩
    · rintro ts e ⟨rfl, rfl⟩
      exact ⟨fun t ht => .inl ht, Nat.le_refl _, .inl (by simp [Expr.levels])⟩
    · rintro ts b ⟨rfl, rfl⟩
      exact .nil
  have hnest := h.nest depth
  rwa [Nat.add_comm] at hnest

end LuaSyntax.Language
