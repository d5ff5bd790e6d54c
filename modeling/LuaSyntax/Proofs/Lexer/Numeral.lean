import LuaSyntax.Proofs.Lexer.Seam
/-!
# Numerals

How Lua 5.2 writes numbers, decimal and hexadecimal ones, and which of the texts that are read as
numbers are written so.
-/

namespace LuaSyntax.Lexer

/-! ### The language of numerals -/

/-- How the numbers of a base are written. -/
structure Radix where
  openings : List (List Char)
  isDigit : Char → Bool
  /-- The marks that an exponent can start with. -/
  marks : List Char

namespace Radix

def decimal : Radix := ⟨[[]], Char.isDigit, ['e', 'E']⟩

def hexadecimal : Radix := ⟨[['0', 'x'], ['0', 'X']], isHexDigit, ['p', 'P']⟩

def all : List Radix := [decimal, hexadecimal]

/-- Digits, with an optional fraction. -/
inductive IsMantissa (r : Radix) : List Char → Prop
  | whole {ds : List Char} (hds : ∀ c ∈ ds, r.isDigit c = true) : IsMantissa r ds
  | fraction {ds es : List Char} (hds : ∀ c ∈ ds, r.isDigit c = true)
      (hes : ∀ c ∈ es, r.isDigit c = true) : IsMantissa r (ds ++ '.' :: es)

def signs : List (List Char) := [[], ['+'], ['-']]

/-- A mark, an optional sign, and decimal digits, at least one of them. -/
def IsExponent (r : Radix) (cs : List Char) : Prop :=
  ∃ mark ∈ r.marks, ∃ sign ∈ signs, ∃ digits, digits ≠ [] ∧ (∀ c ∈ digits, c.isDigit = true) ∧
    cs = mark :: (sign ++ digits)

/-- The text has this mantissa, and a complete exponent if it has one. -/
def Writes (r : Radix) (mantissa cs : List Char) : Prop :=
  r.IsMantissa mantissa ∧ ∃ opening ∈ r.openings, ∃ exponent,
    (exponent = [] ∨ r.IsExponent exponent) ∧ cs = opening ++ (mantissa ++ exponent)

end Radix

/-- The text is a numeral of Lua 5.2: its mantissa has at least one digit. -/
def IsNumeral (cs : List Char) : Prop :=
  ∃ r ∈ Radix.all, ∃ mantissa, r.Writes mantissa cs ∧ ∃ c ∈ mantissa, r.isDigit c = true

/-- The text would be a hexadecimal numeral if its mantissa had a digit. -/
def LacksDigits (cs : List Char) : Prop :=
  ∃ mantissa, Radix.hexadecimal.Writes mantissa cs ∧ ∀ c ∈ mantissa, isHexDigit c = false

/-- The text runs on after the mark and the sign of an exponent, but not with a digit. -/
def RunsOn (cs : List Char) : Prop :=
  ∃ r ∈ Radix.all, ∃ mantissa, r.IsMantissa mantissa ∧ ∃ opening ∈ r.openings, ∃ mark ∈ r.marks,
    ∃ sign ∈ Radix.signs, ∃ c rest, isNumberChar c = true ∧ c.isDigit = false ∧
      cs = opening ++ (mantissa ++ mark :: (sign ++ c :: rest))

namespace NumberParts

variable {hex : Bool} {first c : Char} {cs ds ms more opening : List Char} {r : Radix}

/-! ### The mantissa -/

/-- The radix that a number is read in. -/
def radix (hex : Bool) : Radix := if hex then .hexadecimal else .decimal

theorem radix_mem_all (hex : Bool) : radix hex ∈ Radix.all := by
  cases hex <;> simp [radix, Radix.all]

theorem exists_eq_radix (h : r ∈ Radix.all) : ∃ hex, r = radix hex := by
  rw [Radix.all, List.mem_cons, List.mem_singleton] at h
  rcases h with rfl | rfl
  · exact ⟨false, rfl⟩
  · exact ⟨true, rfl⟩

/-- The mantissa that a text starts with. -/
def mantissaOf (digit : Char → Bool) (cs : List Char) : List Char :=
  cs.takeWhile digit ++ fractionOf digit (cs.drop (cs.takeWhile digit).length)

theorem isMantissa_mantissaOf (r : Radix) (cs : List Char) :
    r.IsMantissa (mantissaOf r.isDigit cs) := by
  have hds : ∀ c ∈ cs.takeWhile r.isDigit, r.isDigit c = true :=
    List.all_eq_true.1 List.all_takeWhile
  unfold mantissaOf fractionOf
  split
  · exact .fraction hds (List.all_eq_true.1 List.all_takeWhile)
  · rw [List.append_nil]
    exact .whole hds

/-- A mantissa is read as far as it goes. -/
theorem mantissaOf_append (hm : r.IsMantissa ms) (hdot : r.isDigit '.' = false)
    (hdigit : Stops r.isDigit more) (hpoint : Stops (· == '.') more) :
    mantissaOf r.isDigit (ms ++ more) = ms := by
  cases hm with
  | whole hds =>
    rw [mantissaOf, takeWhile_append hds hdigit, List.drop_left, fractionOf_of_stops hpoint,
      List.append_nil]
  | @fraction ds es hds hes =>
    have htake : (ds ++ '.' :: (es ++ more)).takeWhile r.isDigit = ds :=
      takeWhile_append hds (stops_cons.2 hdot)
    rw [List.append_assoc, List.cons_append, mantissaOf, htake, List.drop_left, fractionOf,
      takeWhile_append hes hdigit]

/-! ### The parts of a number -/

/-- The mark of a hexadecimal number, with the zero before it. -/
def openingOf (first : Char) (cs : List Char) : List Char :=
  if isHex first cs then first :: cs.take 1 else []

def bodyOf (first : Char) (cs : List Char) : List Char :=
  if isHex first cs then cs.drop 1 else first :: cs

/-- The mantissa of the number that starts with `first` and goes on in `cs`. -/
def mantissa (first : Char) (cs : List Char) : List Char :=
  mantissaOf (radix (isHex first cs)).isDigit (bodyOf first cs)

def afterMantissa (first : Char) (cs : List Char) : List Char :=
  (bodyOf first cs).drop (mantissa first cs).length

def exponentDigitsOf (hex : Bool) (cs : List Char) : List Char :=
  if (exponentOf hex cs).isEmpty then []
  else (cs.drop (exponentOf hex cs).length).takeWhile Char.isDigit

def excessOf (hex : Bool) (cs : List Char) : List Char :=
  ((cs.drop (exponentOf hex cs).length).drop (exponentDigitsOf hex cs).length).takeWhile fun c =>
    isNameChar c || c == '.'

theorem eq_of_isHex (h : isHex first cs = true) :
    first = '0' ∧ ∃ x rest, cs = x :: rest ∧ (x == 'x' || x == 'X') = true := by
  rw [isHex, Bool.and_eq_true, beq_iff_eq] at h
  cases cs with
  | nil => simp at h
  | cons x rest => exact ⟨h.1, x, rest, rfl, h.2⟩

/-- The parts of a number that stand before its exponent are its opening and its mantissa, and the
others are read from what follows these. -/
theorem split_parts (hstarts : Lexeme.startsNumber first cs = true) :
    (split first cs).lead ++ (split first cs).digits ++ (split first cs).fraction =
        openingOf first cs ++ mantissa first cs ∧
      (split first cs).exponent = exponentOf (isHex first cs) (afterMantissa first cs) ∧
      (split first cs).exponentDigits =
        exponentDigitsOf (isHex first cs) (afterMantissa first cs) ∧
      (split first cs).excess = excessOf (isHex first cs) (afterMantissa first cs) := by
  cases hhex : isHex first cs with
  | true =>
    obtain ⟨rfl, x, rest, rfl, -⟩ := eq_of_isHex hhex
    simp [split, openingOf, bodyOf, mantissa, mantissaOf, afterMantissa, exponentDigitsOf,
      excessOf, hhex, radix, Radix.hexadecimal]
  | false =>
    by_cases hdot : first = '.'
    · subst hdot
      -- what the mantissa has before its dot is empty, so the digits are those of its fraction
      have hdigit : Char.isDigit '.' = false := rfl
      simp [split, openingOf, bodyOf, mantissa, mantissaOf, afterMantissa, exponentDigitsOf,
        excessOf, hhex, radix, Radix.decimal, hdigit, fractionOf]
    · have hdigit : first.isDigit = true := by simpa [Lexeme.startsNumber, hdot] using hstarts
      simp [split, openingOf, bodyOf, mantissa, mantissaOf, afterMantissa, exponentDigitsOf,
        excessOf, hhex, radix, Radix.decimal, hdigit, hdot]

theorem openingOf_mem (first : Char) (cs : List Char) :
    openingOf first cs ∈ (radix (isHex first cs)).openings := by
  cases hhex : isHex first cs with
  | false => simp [openingOf, hhex, radix, Radix.decimal]
  | true =>
    obtain ⟨rfl, x, rest, rfl, hx⟩ := eq_of_isHex hhex
    rw [Bool.or_eq_true, beq_iff_eq, beq_iff_eq] at hx
    simp [openingOf, hhex, radix, Radix.hexadecimal, hx]

/-! ### A number is read as it is written -/

theorem isExponentMark_iff : isExponentMark hex c = true ↔ c ∈ (radix hex).marks := by
  cases hex <;> simp [isExponentMark, radix, Radix.decimal, Radix.hexadecimal]

theorem isNumberChar_of_isDigit (h : (radix hex).isDigit c = true) : isNumberChar c = true := by
  cases hex with
  | false => simp [isNumberChar, isNameChar_of_isDigit h]
  | true => simp [isNumberChar, isNameChar_of_isHexDigit h]

theorem forall_mem_pair {P : Char → Prop} {a b : Char} (ha : P a) (hb : P b) : ∀ c ∈ [a, b], P c :=
  List.forall_mem_cons.2 ⟨ha, List.forall_mem_singleton.2 hb⟩

theorem isDigit_of_mem_marks (hex : Bool) :
    ∀ c ∈ (radix hex).marks, (radix hex).isDigit c = false := by
  cases hex <;> exact forall_mem_pair rfl rfl

/-- The text starts with the mark of an exponent, or with what is in no number. -/
def EndsMantissa (hex : Bool) (cs : List Char) : Prop :=
  ∀ c ∈ cs.head?, c ∈ (radix hex).marks ∨ isNumberChar c = false

theorem EndsMantissa.stops {p : Char → Bool} (h : EndsMantissa hex cs)
    (hmarks : ∀ c ∈ (radix hex).marks, p c = false)
    (hnumber : ∀ c, p c = true → isNumberChar c = true) : Stops p cs := by
  intro c hc
  rcases h c hc with hmark | hother
  · exact hmarks c hmark
  · rw [← Bool.not_eq_true] at hother ⊢
    exact fun hp => hother (hnumber c hp)

theorem EndsMantissa.of_stops (h : Stops isNumberChar cs) : EndsMantissa hex cs :=
  fun c hc => .inr (h c hc)

theorem endsMantissa_mark (h : c ∈ (radix hex).marks) : EndsMantissa hex (c :: cs) := by
  rintro a ⟨⟩
  exact .inl h

theorem endsMantissa_exponent (h : cs = [] ∨ (radix hex).IsExponent cs)
    (hds : Stops isNumberChar ds) : EndsMantissa hex (cs ++ ds) := by
  rcases h with rfl | ⟨mark, hmark, -, -, -, -, -, rfl⟩
  · exact .of_stops hds
  · exact endsMantissa_mark hmark

/-- The characters of a decimal mantissa are no hexadecimal mark. -/
theorem isHex_of_isMantissa (hm : Radix.decimal.IsMantissa ms) (hmore : EndsMantissa false more)
    (htext : first :: cs = ms ++ more) : isHex first cs = false := by
  have hmark : ∀ c ∈ ms, (c == 'x' || c == 'X') = false := by
    have hdigit : ∀ c, Radix.decimal.isDigit c = true → (c == 'x' || c == 'X') = false := by
      intro c hc
      rw [← Bool.not_eq_true, Bool.or_eq_true, beq_iff_eq, beq_iff_eq]
      rintro (rfl | rfl) <;> cases hc
    cases hm with
    | whole hds => exact fun c hc => hdigit c (hds c hc)
    | fraction hds hes =>
      intro c hc
      rcases List.mem_append.1 hc with hc | hc
      · exact hdigit c (hds c hc)
      · rcases List.mem_cons.1 hc with rfl | hc
        · rfl
        · exact hdigit c (hes c hc)
  cases ms with
  | nil =>
    obtain rfl : first :: cs = more := htext
    have hzero : first ≠ '0' := by
      rintro rfl
      rcases hmore '0' rfl with h | h <;> revert h <;> decide
    simp [isHex, hzero]
  | cons c ms =>
    obtain ⟨rfl, rfl⟩ := List.cons.inj htext
    refine isHex_of_stops ?_
    cases ms with
    | nil =>
      refine hmore.stops (forall_mem_pair rfl rfl) fun c hc => ?_
      simp [isNumberChar, isNameChar_of_hexMark hc]
    | cons b ms => exact stops_cons.2 (hmark b (by simp))

/-- What is written as the opening and the mantissa of a number is read so. -/
theorem eq_of_isMantissa (ho : opening ∈ (radix hex).openings) (hm : (radix hex).IsMantissa ms)
    (hmore : EndsMantissa hex more) (htext : first :: cs = opening ++ (ms ++ more)) :
    isHex first cs = hex ∧ mantissa first cs = ms ∧ afterMantissa first cs = more := by
  obtain ⟨hhex, hbody⟩ : isHex first cs = hex ∧ bodyOf first cs = ms ++ more := by
    cases hex with
    | false =>
      obtain rfl : opening = [] := List.mem_singleton.1 ho
      have hhex := isHex_of_isMantissa hm hmore htext
      exact ⟨hhex, by simpa [bodyOf, hhex] using htext⟩
    | true =>
      have hmark : opening = ['0', 'x'] ∨ opening = ['0', 'X'] := by
        simpa [radix, Radix.hexadecimal] using ho
      have hhex : isHex first cs = true ∧ cs.drop 1 = ms ++ more := by
        rcases hmark with rfl | rfl <;> cases htext <;> exact ⟨rfl, rfl⟩
      exact ⟨hhex.1, by simpa [bodyOf, hhex.1] using hhex.2⟩
  have hread : mantissa first cs = ms := by
    rw [mantissa, hhex, hbody]
    refine mantissaOf_append hm (by cases hex <;> rfl) ?_ ?_
    · exact hmore.stops (isDigit_of_mem_marks hex) fun c => isNumberChar_of_isDigit
    · have hmarks : ∀ c ∈ (radix hex).marks, (c == '.') = false := by
        cases hex <;> exact forall_mem_pair rfl rfl
      exact hmore.stops hmarks fun c hc => by simp [isNumberChar, hc]
  refine ⟨hhex, hread, ?_⟩
  rw [afterMantissa, hread, hbody, List.drop_left]

/-! ### The exponent -/

theorem exponentOf_cons_mark {mark : Char} {sign : List Char} (hmark : mark ∈ (radix hex).marks)
    (hsign : sign ∈ Radix.signs) (hds : Stops (fun c => c == '+' || c == '-') ds) :
    exponentOf hex (mark :: (sign ++ ds)) = mark :: sign := by
  have hread : signOf (sign ++ ds) = sign := by
    simp only [Radix.signs, List.mem_cons, List.not_mem_nil, or_false] at hsign
    rcases hsign with rfl | rfl | rfl
    · exact signOf_of_stops hds
    · rfl
    · rfl
  rw [exponentOf, if_pos (isExponentMark_iff.2 hmark), hread]

/-- A sign is in a number only where its exponent starts. -/
theorem stops_sign (h : ∀ c ∈ cs.head?, isNumberChar c = true) :
    Stops (fun c => c == '+' || c == '-') cs := by
  intro c hc
  have hnumber := h c hc
  rw [← Bool.not_eq_true, Bool.or_eq_true, beq_iff_eq, beq_iff_eq]
  rintro (rfl | rfl) <;> revert hnumber <;> decide

/-- An exponent is read up to its digits. -/
theorem exists_of_exponentOf (hex : Bool) (cs : List Char) :
    exponentOf hex cs = [] ∨ ∃ mark ∈ (radix hex).marks, ∃ sign ∈ Radix.signs,
      exponentOf hex cs = mark :: sign := by
  unfold exponentOf
  split
  · next c cs =>
    split
    · next hc =>
      refine .inr ⟨c, isExponentMark_iff.1 hc, signOf cs, ?_, rfl⟩
      unfold signOf
      split <;> simp [Radix.signs]
    · exact .inl rfl
  · exact .inl rfl

/-- After the mark and the sign of an exponent come its digits. -/
theorem parts_cons_mark {mark : Char} {sign : List Char} (hmark : mark ∈ (radix hex).marks)
    (hsign : sign ∈ Radix.signs) (hds : ∀ c ∈ ds.head?, isNumberChar c = true) :
    exponentOf hex (mark :: (sign ++ ds)) = mark :: sign ∧
      exponentDigitsOf hex (mark :: (sign ++ ds)) = ds.takeWhile Char.isDigit ∧
      excessOf hex (mark :: (sign ++ ds)) =
        (ds.drop (ds.takeWhile Char.isDigit).length).takeWhile isNumberChar := by
  have hread := exponentOf_cons_mark hmark hsign (stops_sign hds)
  have hdigits : exponentDigitsOf hex (mark :: (sign ++ ds)) = ds.takeWhile Char.isDigit := by
    simp [exponentDigitsOf, hread]
  refine ⟨hread, hdigits, ?_⟩
  rw [excessOf, hdigits, hread, ← List.cons_append, List.drop_left]
  rfl

theorem exponentOf_eq_nil (h : Stops isNumberChar cs) : exponentOf hex cs = [] := by
  refine exponentOf_of_stops (h.mono fun c hc => ?_)
  simp [isNumberChar, isNameChar_of_isExponentMark hc]

theorem excessOf_eq_nil (h : Stops isNumberChar cs) : excessOf hex cs = [] := by
  rw [excessOf, exponentDigitsOf, exponentOf_eq_nil h]
  exact takeWhile_eq_nil h

/-- What stands where the digits of an exponent are missing. -/
theorem head_of_excessOf {after : List Char} (hexponent : exponentOf hex cs ≠ [])
    (hdigits : exponentDigitsOf hex cs = []) (hexcess : excessOf hex cs = c :: after) :
    isNumberChar c = true ∧ c.isDigit = false := by
  rw [excessOf, hdigits, List.length_nil, List.drop_zero] at hexcess
  rw [exponentDigitsOf, if_neg (by simpa using hexponent)] at hdigits
  generalize cs.drop (exponentOf hex cs).length = rest at hdigits hexcess
  cases rest with
  | nil => cases hexcess
  | cons a rest =>
    have hdigit : a.isDigit = false := by
      rw [← Bool.not_eq_true]
      intro ha
      rw [List.takeWhile_cons, if_pos ha] at hdigits
      cases hdigits
    by_cases ha : isNumberChar a = true
    · rw [isNumberChar] at ha
      rw [List.takeWhile_cons, if_pos ha] at hexcess
      obtain ⟨rfl, -⟩ := List.cons.inj hexcess
      exact ⟨ha, hdigit⟩
    · rw [isNumberChar] at ha
      rw [List.takeWhile_cons, if_neg ha] at hexcess
      cases hexcess

/-- An exponent that is not without digits is a complete one. -/
theorem isExponent_of_digits (h : exponentOf hex cs = [] ∨ exponentDigitsOf hex cs ≠ []) :
    exponentOf hex cs ++ exponentDigitsOf hex cs = [] ∨
      (radix hex).IsExponent (exponentOf hex cs ++ exponentDigitsOf hex cs) := by
  rcases exists_of_exponentOf hex cs with hnone | ⟨mark, hmark, sign, hsign, hsome⟩
  · refine .inl ?_
    rw [exponentDigitsOf, hnone]
    rfl
  · have hne : exponentOf hex cs ≠ [] := by simp [hsome]
    have hall : ∀ c ∈ exponentDigitsOf hex cs, c.isDigit = true := by
      rw [exponentDigitsOf, if_neg (by simp [hsome])]
      exact List.all_eq_true.1 List.all_takeWhile
    exact .inr ⟨mark, hmark, sign, hsign, _, h.resolve_left hne, hall, by rw [hsome]; rfl⟩

/-- An exponent without digits that something follows. -/
theorem runsOn_of_excess (hexponent : exponentOf hex cs ≠ [])
    (hdigits : exponentDigitsOf hex cs = []) (hexcess : excessOf hex cs ≠ []) :
    ∃ mark ∈ (radix hex).marks, ∃ sign ∈ Radix.signs, ∃ c after, isNumberChar c = true ∧
      c.isDigit = false ∧ exponentOf hex cs ++ excessOf hex cs = mark :: (sign ++ c :: after) := by
  obtain ⟨mark, hmark, sign, hsign, hsome⟩ := (exists_of_exponentOf hex cs).resolve_left hexponent
  obtain ⟨c, after, hafter⟩ := List.exists_cons_of_ne_nil hexcess
  obtain ⟨hnumber, hdigit⟩ := head_of_excessOf hexponent hdigits hafter
  exact ⟨mark, hmark, sign, hsign, c, after, hnumber, hdigit, by rw [hsome, hafter]; rfl⟩

/-! ### Faults -/

variable {p : NumberParts}

theorem faults_eq_nil_iff :
    p.faults = [] ↔ (p.exponent = [] ∨ p.exponentDigits ≠ []) ∧ p.excess = [] := by
  simp [faults, or_iff_not_imp_left]

theorem length_faults_eq_two_iff :
    p.faults.length = 2 ↔ p.exponent ≠ [] ∧ p.exponentDigits = [] ∧ p.excess ≠ [] := by
  rw [faults, List.length_append]
  cases p.exponent <;> cases p.exponentDigits <;> cases p.excess <;> simp

theorem length_faults_le_two (p : NumberParts) : p.faults.length ≤ 2 := by
  rw [faults, List.length_append]
  split <;> split <;> simp

theorem fault_of_mem_faults : ∀ f ∈ p.faults, f.1 = .malformedNumber := by
  intro f hf
  rw [faults, List.mem_append] at hf
  rcases hf with hf | hf <;> split at hf <;> simp_all

/-- What a number is written with: its mantissa, and the parts that follow it. -/
theorem chars_split (hstarts : Lexeme.startsNumber first cs = true) :
    (split first cs).chars = openingOf first cs ++ (mantissa first cs ++
      ((split first cs).exponent ++ ((split first cs).exponentDigits ++
        (split first cs).excess))) := by
  obtain ⟨hbase, -, -, -⟩ := split_parts hstarts
  rw [chars, base, ← List.append_assoc (openingOf first cs), ← hbase]
  simp

/-- A number without a fault is written as a numeral is, perhaps without a digit. -/
theorem writes_of_faults (hstarts : Lexeme.startsNumber first cs = true)
    (h : (split first cs).faults = []) :
    (radix (isHex first cs)).Writes (mantissa first cs) (split first cs).chars := by
  obtain ⟨hexponent, hexcess⟩ := faults_eq_nil_iff.1 h
  refine ⟨isMantissa_mantissaOf _ _, _, openingOf_mem first cs,
    (split first cs).exponent ++ (split first cs).exponentDigits, ?_, ?_⟩
  · obtain ⟨-, hread, hdigits, -⟩ := split_parts hstarts
    rw [hread, hdigits] at hexponent ⊢
    exact isExponent_of_digits hexponent
  · rw [chars_split hstarts, hexcess, List.append_nil]

/-- A number that is written with an opening, a mantissa and a tail is split there. -/
theorem split_of_chars {tail : List Char} (hstarts : Lexeme.startsNumber first cs = true)
    (ho : opening ∈ (radix hex).openings) (hm : (radix hex).IsMantissa ms)
    (hchars : (split first cs).chars = opening ++ (ms ++ tail))
    (htail : ∀ ds, Stops isNumberChar ds → EndsMantissa hex (tail ++ ds)) :
    ∃ ds, Stops isNumberChar ds ∧ (split first cs).exponent = exponentOf hex (tail ++ ds) ∧
      (split first cs).exponentDigits = exponentDigitsOf hex (tail ++ ds) ∧
      (split first cs).excess = excessOf hex (tail ++ ds) := by
  obtain ⟨ds, hds⟩ := chars_split_isPrefix first cs
  have hstops := stops_of_chars hds
  have htext : first :: cs = opening ++ (ms ++ (tail ++ ds)) := by
    rw [← hds, hchars]
    simp
  obtain ⟨rfl, -, hafter⟩ := eq_of_isMantissa ho hm (htail ds hstops) htext
  obtain ⟨-, hexponent, hdigits, hexcess⟩ := split_parts hstarts
  rw [hafter] at hexponent hdigits hexcess
  exact ⟨ds, hstops, hexponent, hdigits, hexcess⟩

/-- What is written as a numeral is, perhaps without a digit, is a number without a fault. -/
theorem faults_of_writes (hstarts : Lexeme.startsNumber first cs = true)
    (h : (radix hex).Writes ms (split first cs).chars) : (split first cs).faults = [] := by
  obtain ⟨hm, opening, ho, exponent, hexponent, hchars⟩ := h
  obtain ⟨ds, hds, hread, hreadDigits, hreadExcess⟩ :=
    split_of_chars hstarts ho hm hchars fun _ => endsMantissa_exponent hexponent
  rw [faults_eq_nil_iff, hread, hreadDigits, hreadExcess]
  rcases hexponent with rfl | ⟨mark, hmark, sign, hsign, digits, hne, hall, rfl⟩
  · exact ⟨.inl (exponentOf_eq_nil hds), excessOf_eq_nil hds⟩
  · have hnumber : ∀ c, c.isDigit = true → isNumberChar c = true :=
      fun c hc => @isNumberChar_of_isDigit false c hc
    have hnext : ∀ c ∈ (digits ++ ds).head?, isNumberChar c = true := by
      obtain ⟨c, digits, rfl⟩ := List.exists_cons_of_ne_nil hne
      rintro a ⟨⟩
      exact hnumber c (hall c List.mem_cons_self)
    have htake : (digits ++ ds).takeWhile Char.isDigit = digits :=
      takeWhile_append hall (hds.mono hnumber)
    obtain ⟨-, hparts, hrest⟩ := parts_cons_mark hmark hsign hnext
    rw [List.cons_append, List.append_assoc, hparts, hrest, htake, List.drop_left]
    exact ⟨.inr hne, takeWhile_eq_nil hds⟩

/-- A number has two faults if it breaks off in its exponent and then runs on. -/
theorem length_faults_iff_runsOn (hstarts : Lexeme.startsNumber first cs = true) :
    (split first cs).faults.length = 2 ↔ RunsOn (split first cs).chars := by
  rw [length_faults_eq_two_iff]
  constructor
  · rintro ⟨hexponent, hdigits, hexcess⟩
    have hchars := chars_split hstarts
    rw [hdigits, List.nil_append] at hchars
    obtain ⟨-, hread, hreadDigits, hreadExcess⟩ := split_parts hstarts
    rw [hread] at hexponent hchars
    rw [hreadDigits] at hdigits
    rw [hreadExcess] at hexcess hchars
    obtain ⟨mark, hmark, sign, hsign, c, after, hnumber, hdigit, htail⟩ :=
      runsOn_of_excess hexponent hdigits hexcess
    rw [htail] at hchars
    exact ⟨_, radix_mem_all _, mantissa first cs, isMantissa_mantissaOf _ _, _,
      openingOf_mem first cs, mark, hmark, sign, hsign, c, after, hnumber, hdigit, hchars⟩
  · rintro ⟨r, hr, ms, hm, opening, ho, mark, hmark, sign, hsign, c, after, hc, hdigit, hchars⟩
    obtain ⟨hex, rfl⟩ := exists_eq_radix hr
    obtain ⟨ds, -, hexponent, hdigits, hexcess⟩ := split_of_chars hstarts ho hm hchars
      fun ds _ => endsMantissa_mark hmark
    rw [hexponent, hdigits, hexcess]
    have hnext : ∀ a ∈ (c :: (after ++ ds)).head?, isNumberChar a = true := by
      rintro a ⟨⟩
      exact hc
    obtain ⟨hread, hreadDigits, hrest⟩ := parts_cons_mark hmark hsign hnext
    have htail : mark :: (sign ++ c :: after) ++ ds = mark :: (sign ++ c :: (after ++ ds)) := by
      simp
    rw [htail, hread, hreadDigits, hrest]
    simp [hdigit, hc]

/-- Only a hexadecimal number can have a mantissa without a digit. -/
theorem exists_digit_mantissa (hstarts : Lexeme.startsNumber first cs = true)
    (hhex : isHex first cs = false) : ∃ c ∈ mantissa first cs, c.isDigit = true := by
  have hread : mantissa first cs = mantissaOf Char.isDigit (first :: cs) := by
    simp [mantissa, bodyOf, hhex, radix, Radix.decimal]
  rw [hread, mantissaOf]
  by_cases hfirst : first.isDigit = true
  · exact ⟨first, by simp [hfirst], hfirst⟩
  · rw [Lexeme.startsNumber, Bool.or_eq_true, Bool.and_eq_true, beq_iff_eq] at hstarts
    obtain ⟨rfl, hany⟩ := hstarts.resolve_left hfirst
    obtain ⟨c, hhead, hc⟩ := (Option.any_eq_true _ _).1 hany
    obtain ⟨rest, rfl⟩ := List.head?_eq_some_iff.1 hhead
    exact ⟨c, by simp [hfirst, fractionOf, hc], hc⟩

/-- A number has no fault if it is a numeral, or would be one but for the digits of its mantissa. -/
theorem faults_split_eq_nil_iff (hstarts : Lexeme.startsNumber first cs = true) :
    (split first cs).faults = [] ↔
      IsNumeral (split first cs).chars ∨ LacksDigits (split first cs).chars := by
  constructor
  · intro h
    have hwrites := writes_of_faults hstarts h
    by_cases hdigit : ∃ c ∈ mantissa first cs, (radix (isHex first cs)).isDigit c = true
    · exact .inl ⟨_, radix_mem_all _, _, hwrites, hdigit⟩
    · cases hhex : isHex first cs with
      | false =>
        rw [hhex] at hdigit
        exact absurd (exists_digit_mantissa hstarts hhex) hdigit
      | true =>
        rw [hhex] at hwrites hdigit
        exact .inr ⟨_, hwrites, fun c hc => Bool.eq_false_iff.2 fun h => hdigit ⟨c, hc, h⟩⟩
  · rintro (⟨r, hr, ms, hwrites, -⟩ | ⟨ms, hwrites, -⟩)
    · obtain ⟨hex, rfl⟩ := exists_eq_radix hr
      exact faults_of_writes hstarts hwrites
    · have hwrites : (radix true).Writes ms (split first cs).chars := hwrites
      exact faults_of_writes hstarts hwrites

theorem eq_of_writes (h : (radix hex).Writes ms (first :: cs)) :
    isHex first cs = hex ∧ mantissa first cs = ms := by
  obtain ⟨hm, opening, ho, exponent, hexponent, htext⟩ := h
  have hmore := endsMantissa_exponent hexponent .nil
  rw [List.append_nil] at hmore
  obtain ⟨hhex, hread, -⟩ := eq_of_isMantissa ho hm hmore htext
  exact ⟨hhex, hread⟩

end NumberParts

theorem not_isNumeral_of_lacksDigits {cs : List Char} (h : LacksDigits cs) : ¬IsNumeral cs := by
  rintro ⟨r, hr, ms, hwrites, c, hc, hdigit⟩
  obtain ⟨hex, rfl⟩ := NumberParts.exists_eq_radix hr
  obtain ⟨ms', hwrites', hnone⟩ := h
  obtain ⟨first, rest, rfl⟩ : ∃ first rest, cs = first :: rest := by
    refine List.exists_cons_of_ne_nil ?_
    rintro rfl
    obtain ⟨-, opening, ho, exponent, -, htext⟩ := hwrites'
    obtain ⟨rfl, -⟩ := List.append_eq_nil_iff.1 htext.symm
    simp [Radix.hexadecimal] at ho
  obtain ⟨hhex, hread⟩ := NumberParts.eq_of_writes hwrites
  have hwrites' : (NumberParts.radix true).Writes ms' (first :: rest) := hwrites'
  obtain ⟨hhex', hread'⟩ := NumberParts.eq_of_writes hwrites'
  obtain rfl : hex = true := hhex.symm.trans hhex'
  obtain rfl : ms = ms' := hread.symm.trans hread'
  exact Bool.eq_false_iff.1 (hnone c hc) hdigit

end LuaSyntax.Lexer
