import LuaSyntax.Lexer.Lexeme
/-!
# Parts that are read again

A part of a text that is complete is read the same way whatever follows it, as long as what follows
does not go on with it.
-/

namespace LuaSyntax.Lexer

/-- The text does not go on with a character of the class. -/
def Stops (p : Char → Bool) (cs : List Char) : Prop := ∀ c ∈ cs.head?, p c = false

section

variable {p q : Char → Bool} {as bs cs ds : List Char}

theorem Stops.nil : Stops p [] := nofun

theorem stops_cons {c : Char} : Stops p (c :: cs) ↔ p c = false := by
  simp [Stops]

theorem Stops.mono (h : Stops p cs) (hpq : ∀ c, q c = true → p c = true) : Stops q cs := by
  intro c hc
  rw [Bool.eq_false_iff]
  intro hq
  exact Bool.eq_false_iff.1 (h c hc) (hpq c hq)

theorem Stops.start_of_ne_nil (h : Stops p cs) (has : as <+: cs) (hne : as ≠ []) :
    Stops p (as ++ ds) := by
  obtain ⟨a, as, rfl⟩ := List.exists_cons_of_ne_nil hne
  obtain ⟨rest, rfl⟩ := has
  exact h

/-- A start of a text that stops stops as well, if it does so at its own end. -/
theorem Stops.start (h : Stops p cs) (has : as <+: cs) (hds : Stops p ds) :
    Stops p (as ++ ds) := by
  by_cases hne : as = []
  · rwa [hne]
  · exact h.start_of_ne_nil has hne

theorem exists_cons_of_not_stops (h : ¬ Stops p cs) : ∃ c rest, cs = c :: rest ∧ p c = true := by
  cases cs with
  | nil => exact absurd .nil h
  | cons c cs => exact ⟨c, cs, rfl, by simpa [Stops] using h⟩

theorem takeWhile_eq_nil (h : Stops p cs) : cs.takeWhile p = [] := by
  cases cs with
  | nil => rfl
  | cons c cs => simp [stops_cons.1 h]

theorem stops_drop_takeWhile (p : Char → Bool) (cs : List Char) :
    Stops p (cs.drop (cs.takeWhile p).length) := by
  induction cs with
  | nil => exact .nil
  | cons c cs ih =>
    by_cases hc : p c
    · simpa [hc] using ih
    · simp [hc, stops_cons]

theorem takeWhile_append (has : ∀ c ∈ as, p c = true) (hds : Stops p ds) :
    (as ++ ds).takeWhile p = as := by
  rw [List.takeWhile_append_of_pos has, takeWhile_eq_nil hds, List.append_nil]

/-- A run of characters of a class is read again, with a start of what came after it. -/
theorem takeWhile_reread (h : cs.takeWhile p = as) (hbs : bs <+: cs.drop as.length)
    (hds : Stops p ds) : (as ++ (bs ++ ds)).takeWhile p = as := by
  subst h
  exact takeWhile_append (List.all_eq_true.1 List.all_takeWhile) <|
    (stops_drop_takeWhile p cs).start hbs hds

end

/-! ### Delimited texts -/

section

variable {mark body cs : List Char}

theorem length_through? (h : through? mark cs = some body) : mark.length ≤ body.length := by
  induction cs generalizing body with
  | nil => cases h
  | cons c cs ih =>
    rw [through?] at h
    split at h
    · cases h
      exact Nat.le_refl _
    · obtain ⟨tail, htail, rfl⟩ := Option.map_eq_some_iff.1 h
      exact Nat.le_succ_of_le (ih htail)

theorem through?_reread (h : through? mark cs = some body) (hne : mark ≠ []) (ds : List Char) :
    through? mark (body ++ ds) = some body := by
  induction cs generalizing body with
  | nil => cases h
  | cons c cs ih =>
    rw [through?] at h
    split at h
    · cases h
      obtain ⟨m, ms, rfl⟩ := List.exists_cons_of_ne_nil hne
      rw [List.cons_append, through?, if_pos]
      simp
    · next hmark =>
      obtain ⟨tail, htail, rfl⟩ := Option.map_eq_some_iff.1 h
      rw [List.cons_append, through?, if_neg, ih htail]
      · rfl
      -- the mark is no longer than the tail, so it would have been found before
      · rw [List.isPrefixOf_iff_prefix] at hmark ⊢
        intro hprefix
        have hlength := length_through? htail
        refine hmark ?_
        have hshort : mark <+: c :: tail :=
          List.prefix_of_prefix_length_le hprefix
            (List.cons_append ▸ List.prefix_append (c :: tail) ds) (by simp; omega)
        exact hshort.trans (List.cons_prefix_cons.2 ⟨rfl, through?_isPrefix htail⟩)

theorem quotedTail_reread {quote : Char} {tail : List Char} (hquote : quote ≠ '\\')
    (h : quotedTail quote cs = (tail, true)) (ds : List Char) :
    quotedTail quote (tail ++ ds) = (tail, true) := by
  fun_induction quotedTail quote cs generalizing tail with
  | case1 => cases h
  | case2 => cases h
  | case3 c cs rest closed hrest ih =>
    cases h
    simp [quotedTail, ih hrest]
  | case4 cs hbreak =>
    cases h
    rw [List.singleton_append, quotedTail.eq_4 _ _ _ hbreak, if_pos rfl]
    exact fun _ _ hslash _ => hquote hslash
  | case5 c cs hbreak hescape hclose rest closed hrest ih =>
    cases h
    have hslash : c ≠ '\\' := by
      -- a backslash that escapes nothing stands at the end of the text, with no quote after it
      rintro rfl
      cases cs with
      | nil => cases hrest
      | cons d ds => exact hescape d ds rfl rfl
    rw [List.cons_append, quotedTail.eq_4 _ _ _ hbreak, if_neg hclose, ih hrest]
    exact fun _ _ h _ => hslash h

end

/-! ### Long brackets -/

section

variable {level : Nat} {cs : List Char}

/-- A long bracket of the given level, before `rest`. -/
def openingBracket (level : Nat) (rest : List Char) : List Char :=
  '[' :: (List.replicate level '=' ++ '[' :: rest)

theorem openingBracket_append (level : Nat) (rest ds : List Char) :
    openingBracket level rest ++ ds = openingBracket level (rest ++ ds) := by
  simp [openingBracket]

theorem bracketLevel?_openingBracket (level : Nat) (rest : List Char) :
    bracketLevel? (openingBracket level rest) = some level := by
  have hsigns : (List.replicate level '=' ++ '[' :: rest).takeWhile (· == '=') =
      List.replicate level '=' :=
    takeWhile_append (by simp) (by simp [stops_cons])
  simp [bracketLevel?, openingBracket, hsigns]

theorem eq_openingBracket (h : bracketLevel? cs = some level) :
    ∃ rest, cs = openingBracket level rest := by
  unfold bracketLevel? at h
  split at h
  · next ds =>
    dsimp only at h
    split at h
    · next hhead =>
      cases h
      have hsigns : ds.takeWhile (· == '=') =
          List.replicate (ds.takeWhile (· == '=')).length '=' :=
        List.eq_replicate_iff.2 ⟨rfl, fun c hc => by
          simpa using List.all_eq_true.1 List.all_takeWhile c hc⟩
      obtain ⟨rest, hrest⟩ := List.head?_eq_some_iff.1 hhead
      refine ⟨rest, ?_⟩
      rw [openingBracket, ← hsigns, ← hrest,
        List.prefix_iff_eq_append.1 (List.takeWhile_prefix _)]
    · cases h
  · cases h

theorem bracketed_openingBracket (level : Nat) (rest : List Char) :
    bracketed level (openingBracket level rest) =
      match through? (closingBracket level) rest with
      | some body => (openingBracket level body, true)
      | none => (openingBracket level rest, false) := by
  have hlength : ('[' :: (List.replicate level '=' ++ ['['])).length = level + 2 := by simp
  have hsplit (ds : List Char) :
      openingBracket level ds = '[' :: (List.replicate level '=' ++ ['[']) ++ ds := by
    simp [openingBracket]
  rw [bracketed, hsplit rest, ← hlength, List.drop_left, List.take_left]
  cases through? (closingBracket level) rest with
  | none => rfl
  | some body => exact congrArg (·, true) (hsplit body).symm

theorem bracketed_reread (hlevel : bracketLevel? cs = some level)
    (hclosed : (bracketed level cs).2 = true) (ds : List Char) :
    bracketLevel? ((bracketed level cs).1 ++ ds) = some level ∧
      bracketed level ((bracketed level cs).1 ++ ds) = ((bracketed level cs).1, true) := by
  obtain ⟨rest, rfl⟩ := eq_openingBracket hlevel
  rw [bracketed_openingBracket] at hclosed ⊢
  cases hbody : through? (closingBracket level) rest with
  | none => simp [hbody] at hclosed
  | some body =>
    dsimp only
    rw [openingBracket_append, bracketed_openingBracket,
      through?_reread hbody (by simp [closingBracket])]
    exact ⟨bracketLevel?_openingBracket _ _, rfl⟩

end

/-! ### Numbers -/

/-- Whether the character goes on with a number, be it a fault. -/
def isNumberChar (c : Char) : Bool := isNameChar c || c == '.'

section

variable {c : Char}

theorem isNameChar_of_isDigit (h : c.isDigit = true) : isNameChar c = true := by
  simp [isNameChar, h]

theorem isNameChar_of_isHexDigit (h : isHexDigit c = true) : isNameChar c = true := by
  unfold isHexDigit at h
  unfold isNameChar isNameStart Char.isAlpha Char.isUpper Char.isLower
  simp only [Char.isDigit, Bool.or_eq_true, Bool.and_eq_true, decide_eq_true_eq, Char.le_def,
    UInt32.le_iff_toNat_le] at h ⊢
  rcases h with (h | h) | h
  · exact .inr h
  · exact .inl (.inl (.inr ⟨h.1, Nat.le_trans h.2 (by decide)⟩))
  · exact .inl (.inl (.inl ⟨h.1, Nat.le_trans h.2 (by decide)⟩))

theorem isNameChar_of_hexMark (h : (c == 'x' || c == 'X') = true) : isNameChar c = true := by
  rw [Bool.or_eq_true, beq_iff_eq, beq_iff_eq] at h
  rcases h with rfl | rfl <;> rfl

theorem isNameChar_of_isExponentMark {hex : Bool} (h : NumberParts.isExponentMark hex c = true) :
    isNameChar c = true := by
  unfold NumberParts.isExponentMark at h
  split at h <;> rw [Bool.or_eq_true, beq_iff_eq, beq_iff_eq] at h <;>
    rcases h with rfl | rfl <;> rfl

end

namespace NumberParts

variable {hex : Bool} {digit : Char → Bool} {as bs cs ds : List Char}

theorem fractionOf_of_stops (h : Stops (· == '.') cs) : fractionOf digit cs = [] := by
  unfold fractionOf
  split
  · simp [stops_cons] at h
  · rfl

theorem fractionOf_reread (h : fractionOf digit cs = as) (hbs : bs <+: cs.drop as.length)
    (hdot : Stops (· == '.') ds) (hdigit : Stops digit ds) :
    fractionOf digit (as ++ (bs ++ ds)) = as := by
  by_cases hcs : Stops (· == '.') cs
  · rw [fractionOf_of_stops hcs] at h
    subst h
    exact fractionOf_of_stops (show Stops _ (bs ++ ds) from hcs.start hbs hdot)
  · obtain ⟨c, cs, rfl, hc⟩ := exists_cons_of_not_stops hcs
    cases eq_of_beq hc
    subst h
    exact congrArg ('.' :: ·) (takeWhile_reread rfl hbs hdigit)

theorem exponentOf_of_stops (h : Stops (isExponentMark hex) cs) : exponentOf hex cs = [] := by
  unfold exponentOf
  split
  · rw [if_neg]
    simpa using stops_cons.1 h
  · rfl

theorem signOf_of_stops (h : Stops (fun c => c == '+' || c == '-') cs) : signOf cs = [] := by
  unfold signOf
  split
  · cases stops_cons.1 h
  · cases stops_cons.1 h
  · rfl

theorem signOf_reread (h : signOf cs = as) (hbs : bs <+: cs.drop as.length) (hne : bs ≠ []) :
    signOf (as ++ (bs ++ ds)) = as := by
  by_cases hcs : Stops (fun c => c == '+' || c == '-') cs
  · rw [signOf_of_stops hcs] at h
    subst h
    exact signOf_of_stops (show Stops _ (bs ++ ds) from hcs.start_of_ne_nil hbs hne)
  · obtain ⟨c, cs, rfl, hc⟩ := exists_cons_of_not_stops hcs
    subst h
    rw [Bool.or_eq_true, beq_iff_eq, beq_iff_eq] at hc
    rcases hc with rfl | rfl <;> rfl

theorem exponentOf_reread (h : exponentOf hex cs = as) (hbs : bs <+: cs.drop as.length)
    (hdigits : as ≠ [] → bs ≠ []) (hds : Stops (isExponentMark hex) ds) :
    exponentOf hex (as ++ (bs ++ ds)) = as := by
  by_cases hcs : Stops (isExponentMark hex) cs
  · rw [exponentOf_of_stops hcs] at h
    subst h
    exact exponentOf_of_stops (show Stops _ (bs ++ ds) from hcs.start hbs hds)
  · obtain ⟨c, cs, rfl, hc⟩ := exists_cons_of_not_stops hcs
    have hread (rest : List Char) : exponentOf hex (c :: rest) = c :: signOf rest := if_pos hc
    rw [hread] at h
    subst h
    rw [List.cons_append, hread, signOf_reread rfl hbs (hdigits (by simp))]

theorem isHex_of_stops {first : Char} (h : Stops (fun c => c == 'x' || c == 'X') cs) :
    isHex first cs = false := by
  cases cs with
  | nil => simp [isHex]
  | cons c cs => simp [isHex, stops_cons.1 h]

/-- The mark of a hexadecimal number is read again. -/
theorem isHex_reread {first : Char} (hhex : isHex first cs = hex)
    (hmark : (if hex then cs.take 1 else []) = as) (hbs : as ++ bs <+: cs)
    (hds : Stops (fun c => c == 'x' || c == 'X') ds) :
    isHex first (as ++ (bs ++ ds)) = hex ∧
      (if hex then (as ++ (bs ++ ds)).take 1 else []) = as := by
  subst hhex hmark
  by_cases hcs : Stops (fun c => c == 'x' || c == 'X') cs
  · rw [isHex_of_stops hcs] at hbs ⊢
    exact ⟨isHex_of_stops (show Stops _ (bs ++ ds) from hcs.start hbs hds), rfl⟩
  · obtain ⟨c, cs, rfl, hc⟩ := exists_cons_of_not_stops hcs
    cases hzero : first == '0' with
    | false => simp [isHex, hzero]
    | true => simp [isHex, hzero, hc]

/-- A number without a fault is read again before anything that does not go on with it. -/
theorem split_reread {first : Char} (hfaults : (split first cs).faults = [])
    (hds : Stops isNumberChar ds) :
    split first ((split first cs).chars.tail ++ ds) = split first cs := by
  generalize hp : split first cs = p at *
  dsimp only [split] at hp
  generalize hhex : isHex first cs = hex at hp
  generalize hdigit : (if hex then isHexDigit else Char.isDigit) = digit at hp
  generalize hmark : (if hex then cs.take 1 else []) = mark at hp
  generalize hdigits : (cs.drop mark.length).takeWhile digit = digits at hp
  generalize hfraction : (if first == '.' then [] else fractionOf digit _) = fraction at hp
  generalize hexponent : exponentOf hex _ = exponent at hp
  generalize hexponentDigits :
    (if exponent.isEmpty then [] else List.takeWhile Char.isDigit _) = exponentDigits at hp
  generalize List.takeWhile _ _ = excess at hp
  subst hp
  obtain ⟨hsome, hnone⟩ := List.append_eq_nil_iff.1 hfaults
  have hexcess : excess = [] := by simpa using hnone
  have hne : exponent ≠ [] → exponentDigits ≠ [] := by simpa using hsome
  subst hexcess
  -- what comes after a part is a start of the text there
  have h₄ : exponentDigits <+: (((cs.drop mark.length).drop digits.length).drop
      fraction.length).drop exponent.length := by
    rw [← hexponentDigits]
    exact Text.unless_isPrefix (List.takeWhile_prefix _)
  have h₃ := Text.append_isPrefix (hexponent ▸ exponentOf_isPrefix hex _) h₄
  have h₂ := Text.append_isPrefix
    (hfraction ▸ Text.unless_isPrefix (fractionOf_isPrefix digit _)) h₃
  have h₁ := Text.append_isPrefix (hdigits ▸ List.takeWhile_prefix _) h₂
  have hstart : mark <+: cs := by
    rw [← hmark]
    split
    · exact List.take_prefix 1 cs
    · exact List.nil_prefix
  have h₀ := Text.append_isPrefix hstart h₁
  have hdot : Stops (· == '.') ds := hds.mono fun c hc => by simp [isNumberChar, hc]
  have hname {q : Char → Bool} (h : ∀ c, q c = true → isNameChar c = true) : Stops q ds :=
    hds.mono fun c hc => by simp [isNumberChar, h c hc]
  have hdigitEnds : Stops digit ds := by
    subst hdigit
    cases hex with
    | false => exact hname fun c => isNameChar_of_isDigit
    | true => exact hname fun c => isNameChar_of_isHexDigit
  -- so each part is read again
  obtain ⟨hhex', hmark'⟩ := isHex_reread hhex hmark h₀ <| hname fun c => isNameChar_of_hexMark
  have hdigits' := takeWhile_reread hdigits h₂ hdigitEnds
  have hfraction' : (if first == '.' then [] else
      fractionOf digit (fraction ++ ((exponent ++ exponentDigits) ++ ds))) = fraction := by
    split
    · next hfirst => rwa [if_pos hfirst] at hfraction
    · next hfirst =>
      rw [if_neg hfirst] at hfraction
      exact fractionOf_reread hfraction h₃ hdot hdigitEnds
  have hexponent' := exponentOf_reread hexponent h₄ hne <|
    hname fun c => isNameChar_of_isExponentMark
  have hexponentDigits' : (if exponent.isEmpty then [] else
      (exponentDigits ++ ([] ++ ds)).takeWhile Char.isDigit) = exponentDigits := by
    split
    · next hempty => rwa [if_pos hempty] at hexponentDigits
    · next hempty =>
      rw [if_neg hempty] at hexponentDigits
      exact takeWhile_reread hexponentDigits List.nil_prefix (hname fun c => isNameChar_of_isDigit)
  rw [List.nil_append] at hexponentDigits'
  simp only [List.append_assoc] at hhex' hmark' hdigits' hfraction' hexponent'
  have htail : (NumberParts.chars ⟨first :: mark, digits, fraction, exponent, exponentDigits,
      []⟩).tail ++ ds = mark ++ (digits ++ (fraction ++ (exponent ++ (exponentDigits ++ ds)))) := by
    simp [chars, base]
  rw [htail]
  have hexcess' : ds.takeWhile (fun c => isNameChar c || c == '.') = [] := takeWhile_eq_nil hds
  simp only [split, hhex', hmark', hdigit, List.drop_left, hdigits', hfraction', hexponent',
    hexponentDigits', hexcess']

end NumberParts

/-! ### Words -/

/-- The characters of a name or a reserved word. -/
def IsWord (cs : List Char) : Prop :=
  ∃ c rest, cs = c :: rest ∧ isNameStart c = true ∧ ∀ d ∈ rest, isNameChar d = true

theorem isBlank_eq_false_of_le {c : Char} (h : 33 ≤ c.toNat) (h' : c.toNat ≤ 126) :
    Text.isBlank c = false := by
  have hspace : ¬ c.toNat ≤ 0x20 := by omega
  have hnext : c.toNat < 0x85 := by omega
  have hfirst : ¬ c.toNat ≤ 0x0D := by omega
  simp [Text.isBlank, Text.blankRanges, Text.inRanges, hspace, hnext, hfirst]

theorem isBlank_of_isNameChar {c : Char} (h : isNameChar c = true) : Text.isBlank c = false := by
  unfold isNameChar isNameStart Char.isAlpha Char.isUpper Char.isLower at h
  simp only [Char.isDigit, Bool.or_eq_true, Bool.and_eq_true, decide_eq_true_eq, beq_iff_eq,
    ge_iff_le, UInt32.le_iff_toNat_le] at h
  have hbounds {a b : Char} (h : a.val.toNat ≤ c.val.toNat ∧ c.val.toNat ≤ b.val.toNat)
      (ha : 33 ≤ a.val.toNat) (hb : b.val.toNat ≤ 126) :
      Text.isBlank c = false :=
    isBlank_eq_false_of_le (Nat.le_trans ha h.1) (Nat.le_trans h.2 hb)
  rcases h with ((h | h) | rfl) | h
  · exact hbounds h (by decide) (by decide)
  · exact hbounds h (by decide) (by decide)
  · rfl
  · exact hbounds h (by decide) (by decide)

namespace LabelParts

theorem isWord_nameOf {cs : List Char} (h : nameOf cs ≠ []) : IsWord (nameOf cs) := by
  unfold nameOf at h ⊢
  split
  · next c cs =>
    split
    · next hc => exact ⟨c, _, rfl, hc, List.all_eq_true.1 List.all_takeWhile⟩
    · next hc => simp [hc] at h
  · simp at h

/-- A label without blanks. -/
theorem split_of_isWord {name : List Char} (h : IsWord name) (ds : List Char) :
    split (name ++ ':' :: ':' :: ds) = ⟨[], name, [], [':', ':']⟩ := by
  obtain ⟨c, rest, rfl, hc, hrest⟩ := h
  have hblank : Text.isBlank c = false := isBlank_of_isNameChar (by simp [isNameChar, hc])
  have hname : nameOf (c :: (rest ++ ':' :: ':' :: ds)) = c :: rest := by
    rw [nameOf, if_pos hc, takeWhile_append hrest (stops_cons.2 (by decide))]
  have hcolon : Text.isBlank ':' = false := by decide
  simp [split, hblank, hname, hcolon]

end LabelParts

end LuaSyntax.Lexer
