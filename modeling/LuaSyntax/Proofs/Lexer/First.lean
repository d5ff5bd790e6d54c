import LuaSyntax.Proofs.Lexer.Reread
/-!
# Where lexemes start

How a text starts says what its first lexeme is, and the lexeme ends where what follows does not go
on with it.
-/

namespace LuaSyntax

open Lexer

namespace Symbol

/-- Whether a symbol and a character right after it could be read as something else. -/
def mergesWith : Symbol → Char → Bool
  | minus, c => c == '-'
  | colon, c => c == ':'
  | slash, c => c == '/' || c == '*'
  | dot, c => c == '.' || c.isDigit
  | dotDot, c => c == '.'
  | openBracket, c => c == '[' || c == '='
  | equal, c | less, c | greater, c | bang, c => c == '='
  | _, _ => false

/-- The symbols that are looked for before `s`. -/
def before (s : Symbol) : List Symbol := all.takeWhile (· ≠ s)

/-- A symbol that is looked for before `s` goes on where `s` ends. -/
theorem mergesWith_of_before (s : Symbol) : ∀ t ∈ s.before,
    ¬ t.spelling.toList <+: s.spelling.toList ∧ (s.spelling.toList <+: t.spelling.toList →
      (t.spelling.toList.drop s.spelling.toList.length).head?.any s.mergesWith = true) := by
  cases s <;> decide

theorem all_eq (s : Symbol) : ∃ after, all = s.before ++ s :: after := by
  refine ⟨(all.drop s.before.length).tail, ?_⟩
  cases s <;> decide

theorem longest?_spelling {d : Dialect} {s : Symbol} {cs : List Char} (hs : s.isUsed d = true)
    (hcs : Stops s.mergesWith cs) : longest? d (s.spelling.toList ++ cs) = some s := by
  obtain ⟨after, hall⟩ := all_eq s
  refine List.find?_eq_some_iff_append.2 ⟨by simp [hs], _, _, hall, fun t ht => ?_⟩
  obtain ⟨hshorter, hlonger⟩ := mergesWith_of_before s t ht
  rw [Bool.not_eq_true', Bool.and_eq_false_iff]
  refine .inr (Bool.eq_false_iff.2 fun hprefix => ?_)
  rw [List.isPrefixOf_iff_prefix] at hprefix
  rcases List.prefix_or_prefix_of_prefix hprefix (List.prefix_append _ cs) with h | h
  · exact hshorter h
  · have hmerges := hlonger h
    obtain ⟨rest, hrest⟩ := h
    rw [← hrest, List.prefix_append_right_inj] at hprefix
    rw [← hrest, List.drop_left] at hmerges
    cases rest with
    | nil => cases hmerges
    | cons c rest =>
      obtain ⟨others, rfl⟩ := hprefix
      exact Bool.eq_false_iff.1 (hcs c rfl) hmerges

end Symbol

namespace Lexer.Lexeme

variable {d : Dialect} {c : Char} {cs : List Char}

/-- How a text starts that opens with neither two dashes nor two colons. -/
theorem first?_cons (hdash : c = '-' → cs.head? ≠ some '-')
    (hcolon : c = ':' → cs.head? ≠ some ':') :
    first? d (c :: cs) =
      if c == '/' && cs.head? == some '/' && d.hasExtensions then some (slashLineComment cs.tail)
      else if c == '/' && cs.head? == some '*' && d.hasExtensions then
        some (slashBlockComment cs.tail)
      else if c == '"' || c == '\'' then some (quotedString c cs)
      else if c.isDigit || (c == '.' && cs.head?.any Char.isDigit) then some (number c cs)
      else if isNameStart c then some (word d c cs)
      else match bracketLevel? (c :: cs) with
        | some level => some (longString level cs)
        | none => (Symbol.longest? d (c :: cs)).map symbol := by
  refine (first?.eq_4 d c cs ?_ ?_).trans rfl
  · rintro ds rfl rfl
    exact hdash rfl rfl
  · rintro ds rfl rfl
    exact hcolon rfl rfl

/-- Whether the characters open something that is no symbol, if the first of them is one. -/
def opensOther (c next : Char) : Bool :=
  match c with
  | '-' => next == '-'
  | ':' => next == ':'
  | '/' => next == '/' || next == '*'
  | '.' => next.isDigit
  | '[' => next == '[' || next == '='
  | _ => false

theorem bracketLevel?_eq_none (h : Stops (opensOther c) cs) : bracketLevel? (c :: cs) = none := by
  unfold bracketLevel?
  split
  · next ds heq =>
    cases heq
    cases cs with
    | nil => rfl
    | cons next cs =>
      have hnext := stops_cons.1 h
      simp only [opensOther, Bool.or_eq_false_iff, beq_eq_false_iff_ne] at hnext
      simp [hnext.1, hnext.2]
  · rfl

theorem first?_eq_longest? (hquote : c ≠ '"' ∧ c ≠ '\'') (hdigit : c.isDigit = false)
    (hname : isNameStart c = false) (hcs : Stops (opensOther c) cs) :
    first? d (c :: cs) = (Symbol.longest? d (c :: cs)).map symbol := by
  have hnext {a b : Char} (hc : c = a) (hb : cs.head? = some b) (h : opensOther a b = true) :
      False := by
    subst hc
    exact Bool.eq_false_iff.1 (hcs b hb) h
  rw [first?_cons (fun hc hb => hnext hc hb rfl) (fun hc hb => hnext hc hb rfl), if_neg, if_neg,
    if_neg, if_neg, if_neg (by simp [hname]), bracketLevel?_eq_none hcs]
  · rw [hdigit, Bool.false_or, Bool.and_eq_true, beq_iff_eq]
    rintro ⟨rfl, hany⟩
    cases cs with
    | nil => cases hany
    | cons b cs => exact hnext rfl rfl hany
  · simpa using hquote
  · simp only [Bool.and_eq_true, beq_iff_eq]
    exact fun h => hnext h.1.1 h.1.2 rfl
  · simp only [Bool.and_eq_true, beq_iff_eq]
    exact fun h => hnext h.1.1 h.1.2 rfl

theorem exists_cons_spelling (s : Symbol) : ∃ c rest, s.spelling.toList = c :: rest ∧
    (c ≠ '"' ∧ c ≠ '\'') ∧ c.isDigit = false ∧ isNameStart c = false ∧
    Stops (opensOther c) rest ∧
      (rest = [] → ∀ next, opensOther c next = true → s.mergesWith next = true) := by
  cases s
  all_goals
    simp only [Symbol.spelling, String.reduceToList]
    exact ⟨_, _, rfl, by decide, by decide, by decide, by simp [Stops, opensOther],
      by simp +contextual [opensOther, Symbol.mergesWith]⟩

theorem first?_symbol {s : Symbol} (hs : s.isUsed d = true) (hcs : Stops s.mergesWith cs) :
    first? d (s.spelling.toList ++ cs) = some (symbol s) := by
  have hlongest := Symbol.longest?_spelling hs hcs
  obtain ⟨c, rest, hspelling, hquote, hdigit, hname, hrest, hmerges⟩ := exists_cons_spelling s
  rw [hspelling, List.cons_append] at hlongest ⊢
  have hstops : Stops (opensOther c) (rest ++ cs) := by
    by_cases hne : rest = []
    · subst hne
      exact hcs.mono (hmerges rfl)
    · exact hrest.start_of_ne_nil (List.prefix_refl _) hne
  rw [first?_eq_longest? hquote hdigit hname hstops, hlongest]
  rfl

private theorem ne_of_class {p : Char → Bool} {a : Char} (hc : p c = true) (ha : p a = false) :
    c ≠ a := by
  rintro rfl
  exact Bool.eq_false_iff.1 ha hc

theorem isDigit_of_isNameStart (h : isNameStart c = true) : c.isDigit = false := by
  unfold isNameStart Char.isAlpha Char.isUpper Char.isLower at h
  simp only [Bool.or_eq_true, Bool.and_eq_true, decide_eq_true_eq, beq_iff_eq, ge_iff_le,
    UInt32.le_iff_toNat_le] at h
  have hover {a : Char} (h : a.val.toNat ≤ c.val.toNat) (ha : '9'.val.toNat < a.val.toNat) :
      c.isDigit = false := by
    simp only [Char.isDigit, Bool.and_eq_false_iff, decide_eq_false_iff_not, ge_iff_le,
      UInt32.le_iff_toNat_le]
    exact .inr (by omega)
  rcases h with (h | h) | rfl
  · exact hover h.1 (by decide)
  · exact hover h.1 (by decide)
  · rfl

theorem first?_of_isNameStart (hc : isNameStart c = true) :
    first? d (c :: cs) = some (word d c cs) := by
  have hne {a : Char} (ha : isNameStart a = false) : c ≠ a := ne_of_class hc ha
  rw [first?_cons (fun h => absurd h (hne rfl)) (fun h => absurd h (hne rfl))]
  simp [hne (a := '/') rfl, hne (a := '"') rfl, hne (a := '\'') rfl, hne (a := '.') rfl,
    isDigit_of_isNameStart hc, hc]

theorem first?_of_isQuote (hc : (c == '"' || c == '\'') = true) :
    first? d (c :: cs) = some (quotedString c cs) := by
  have hne {a : Char} (ha : (a == '"' || a == '\'') = false) : c ≠ a :=
    ne_of_class (p := fun c => c == '"' || c == '\'') hc ha
  rw [first?_cons (fun h => absurd h (hne rfl)) (fun h => absurd h (hne rfl))]
  simp [hne (a := '/') rfl, hc]

/-- Whether a number starts here. -/
def startsNumber (c : Char) (cs : List Char) : Bool :=
  c.isDigit || (c == '.' && cs.head?.any Char.isDigit)

theorem startsNumber.isDigit_or (hc : startsNumber c cs = true) :
    (c.isDigit || c == '.') = true := by
  rw [startsNumber, Bool.or_eq_true, Bool.and_eq_true] at hc
  rw [Bool.or_eq_true]
  exact hc.imp_right (·.1)

theorem first?_of_startsNumber (hc : startsNumber c cs = true) :
    first? d (c :: cs) = some (number c cs) := by
  have hne {a : Char} (ha : (a.isDigit || a == '.') = false) : c ≠ a :=
    ne_of_class (p := fun c => c.isDigit || c == '.') (startsNumber.isDigit_or hc) ha
  rw [first?_cons (fun h => absurd h (hne rfl)) (fun h => absurd h (hne rfl))]
  simp only [startsNumber] at hc
  simp [hne (a := '/') rfl, hne (a := '"') rfl, hne (a := '\'') rfl, hc]

theorem first?_of_bracketLevel? {level : Nat} (h : bracketLevel? ('[' :: cs) = some level) :
    first? d ('[' :: cs) = some (longString level cs) := by
  rw [first?_cons (by simp) (by simp), h]
  rfl

theorem first?_word {w : List Char} (hw : IsWord w) (hcs : Stops isNameChar cs) :
    ∃ l, first? d (w ++ cs) = some l ∧ l.chars = w ∧ l.faults = [] ∧
      (∀ k, Keyword.ofSpelling? d (String.ofList w) = some k → l.token = .keyword k) ∧
      (Keyword.ofSpelling? d (String.ofList w) = none → l.token = .ident (String.ofList w)) := by
  obtain ⟨c, rest, rfl, hc, hrest⟩ := hw
  have htake : (rest ++ cs).takeWhile isNameChar = rest := takeWhile_append hrest hcs
  refine ⟨word d c (rest ++ cs), first?_of_isNameStart hc, ?_, rfl, fun k hk => ?_, fun hfree => ?_⟩
  · simp only [word, htake]
  · simp only [word, htake, hk]
  · simp only [word, htake, hfree]

theorem first?_label {name : List Char} (hname : IsWord name) (cs : List Char) :
    ∃ l, first? d (':' :: ':' :: (name ++ ':' :: ':' :: cs)) = some l ∧
      l.token = .label (String.ofList name) ∧ l.chars = ':' :: ':' :: (name ++ [':', ':']) ∧
      l.faults = [] := by
  refine ⟨label (name ++ ':' :: ':' :: cs), rfl, ?_⟩
  simp [label, LabelParts.split_of_isWord hname, LabelParts.chars, unlessClosed]

theorem startsNumber_reread (hc : startsNumber c cs = true) {tail : List Char}
    (htail : (NumberParts.split c cs).chars = c :: tail) (ds : List Char) :
    startsNumber c (tail ++ ds) = true := by
  unfold startsNumber at hc ⊢
  by_cases hdigit : c.isDigit
  · rw [hdigit, Bool.true_or]
  · simp only [hdigit, Bool.false_or, Bool.and_eq_true, beq_iff_eq] at hc ⊢
    obtain ⟨rfl, hnext⟩ := hc
    cases cs with
    | nil => cases hnext
    | cons b cs =>
      have hb : b.isDigit = true := hnext
      have hhead := congrArg (·.tail.head?) htail
      simp [NumberParts.split, NumberParts.isHex, NumberParts.chars, NumberParts.base, hb] at hhead
      obtain ⟨rest, rfl⟩ := List.head?_eq_some_iff.1 hhead.symm
      exact ⟨rfl, hb⟩

theorem first?_number (hc : startsNumber c cs = true)
    (hfaults : (NumberParts.split c cs).faults = []) {ds : List Char}
    (hds : Stops isNumberChar ds) :
    ∃ l, first? d ((NumberParts.split c cs).chars ++ ds) = some l ∧
      l.token = .number (String.ofList (NumberParts.split c cs).chars) ∧
      l.chars = (NumberParts.split c cs).chars ∧ l.faults = [] := by
  have hsplit := NumberParts.split_reread hfaults hds
  obtain ⟨tail, htail⟩ : ∃ tail, (NumberParts.split c cs).chars = c :: tail := ⟨_, rfl⟩
  rw [htail, List.tail_cons] at hsplit
  refine ⟨number c (tail ++ ds), ?_, ?_⟩
  · rw [htail]
    exact first?_of_startsNumber (startsNumber_reread hc htail ds)
  · simp [number, hsplit, hfaults]

theorem first?_quotedString (hc : (c == '"' || c == '\'') = true)
    (hclosed : (quotedTail c cs).2 = true) (ds : List Char) :
    ∃ l, first? d (c :: ((quotedTail c cs).1 ++ ds)) = some l ∧
      l.token = .str (String.ofList (c :: (quotedTail c cs).1)) ∧
      l.chars = c :: (quotedTail c cs).1 ∧ l.faults = [] := by
  have hslash : c ≠ '\\' := ne_of_class (p := fun c => c == '"' || c == '\'') hc rfl
  have htail : quotedTail c cs = ((quotedTail c cs).1, true) := Prod.ext rfl hclosed
  refine ⟨_, first?_of_isQuote hc, ?_⟩
  simp [quotedString, quotedTail_reread hslash htail ds, unlessClosed]

theorem exists_cons_bracketed {level : Nat} (h : bracketLevel? cs = some level) :
    ∃ tail, (bracketed level cs).1 = '[' :: tail := by
  obtain ⟨rest, rfl⟩ := eq_openingBracket h
  rw [bracketed_openingBracket]
  split <;> exact ⟨_, rfl⟩

theorem first?_longString {level : Nat} (hlevel : bracketLevel? cs = some level)
    (hclosed : (bracketed level cs).2 = true) (ds : List Char) :
    ∃ l, first? d ((bracketed level cs).1 ++ ds) = some l ∧
      l.token = .str (String.ofList (bracketed level cs).1) ∧
      l.chars = (bracketed level cs).1 ∧ l.faults = [] := by
  obtain ⟨hlevel', hread⟩ := bracketed_reread hlevel hclosed ds
  obtain ⟨tail, htail⟩ := exists_cons_bracketed hlevel
  rw [htail, List.cons_append] at hlevel' hread
  rw [htail]
  refine ⟨_, first?_of_bracketLevel? hlevel', ?_⟩
  simp [longString, hread, unlessClosed]

end Lexer.Lexeme

end LuaSyntax
