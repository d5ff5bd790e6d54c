import LuaSyntax.Proofs.Lexer.Numeral
import LuaSyntax.Proofs.Lexer.Reports
/-!
# Numbers that are reported

A number token is reported as malformed if it is no numeral. A hexadecimal one that lacks nothing
but the digits of its mantissa is not reported; one that breaks off in its exponent and runs on is
reported twice.
-/

namespace LuaSyntax

open Lexer

/-- The error of a malformed number starts where a number token does, and what is reported of a
number token is that it is malformed: not at all if it is a numeral or lacks only the digits of a
hexadecimal mantissa, twice if it runs on after the mark and the sign of an exponent, and else
once. -/
theorem number_reports (source : String) (d : Dialect) :
    (∀ e ∈ (tokenize source d).2, e.fault = .malformedNumber →
      ∃ t ∈ (tokenize source d).1, t.span.start = e.span.start ∧ ∃ raw, t.node = .number raw) ∧
    ∀ t ∈ (tokenize source d).1, ∀ raw, t.node = .number raw →
      let reports := reportsAt (tokenize source d).2 t.span.start
      (∀ e ∈ reports, e.fault = .malformedNumber) ∧
        (reports = [] ↔ IsNumeral raw.toList ∨ LacksDigits raw.toList) ∧
        (reports.length = 2 ↔ RunsOn raw.toList) ∧ reports.length ≤ 2 := by
  have hpieces := pieces_tokenizeFrom d default source.toList
  constructor
  · intro e he hfault
    obtain ⟨t, ht, hstart⟩ := hpieces.exists_token_of_error e he (by rw [hfault]; rfl)
    obtain ⟨l, before, after, h⟩ := hpieces.exists_readFrom t ht
    have hreported : e ∈ l.errors t.span.start := by
      rw [← h.reports]
      exact List.mem_filter.2 ⟨he, decide_eq_true hstart.symm⟩
    obtain ⟨f, hf, rfl⟩ := List.mem_map.1 hreported
    obtain ⟨raw, htoken⟩ := Lexeme.exists_number_of_fault h.first ⟨f, hf, hfault⟩
    exact ⟨t, ht, hstart, raw, by rw [h.token, htoken]⟩
  · intro t ht raw hraw reports
    obtain ⟨l, before, after, h⟩ := exists_readFrom_tokenize source d t ht
    have htoken : l.token = .number raw := by rw [← hraw, h.token]
    obtain ⟨c, rest, hstarts, -, rfl⟩ := Lexeme.eq_number h.first htoken
    obtain rfl : String.ofList (NumberParts.split c rest).chars = raw := Token.number.inj htoken
    have hreports : reports = (Lexeme.number c rest).errors t.span.start := h.reports
    have hlength : reports.length = (NumberParts.split c rest).faults.length := by
      rw [hreports, Lexeme.errors, List.length_map]
      rfl
    rw [String.toList_ofList, ← List.length_eq_zero_iff, hlength, List.length_eq_zero_iff]
    refine ⟨?_, NumberParts.faults_split_eq_nil_iff hstarts,
      NumberParts.length_faults_iff_runsOn hstarts, NumberParts.length_faults_le_two _⟩
    intro e he
    rw [hreports] at he
    obtain ⟨f, hf, rfl⟩ := List.mem_map.1 he
    exact NumberParts.fault_of_mem_faults f hf

/-- The first number lacks the digits of its mantissa, and the second runs on after its sign. -/
theorem number_reports_mixed :
    let source := "0X.P1 1e+_.5 0x.8p-1"
    let lacking : Located Token := ⟨.number "0X.P1", ⟨⟨0, 0, 0⟩, ⟨0, 5, 5⟩⟩⟩
    let running : Located Token := ⟨.number "1e+_.5", ⟨⟨0, 6, 6⟩, ⟨0, 12, 12⟩⟩⟩
    (lacking ∈ (tokenize source .lua52).1 ∧ running ∈ (tokenize source .lua52).1) ∧
      (IsNumeral "0X.P1".toList ∨ LacksDigits "0X.P1".toList) ∧ RunsOn "1e+_.5".toList := by
  intro source lacking running
  have hlacking : lacking ∈ (tokenize source .lua52).1 := by decide +kernel
  have hrunning : running ∈ (tokenize source .lua52).1 := by decide +kernel
  obtain ⟨-, hnone, -, -⟩ := (number_reports source .lua52).2 lacking hlacking "0X.P1" rfl
  obtain ⟨-, -, htwo, -⟩ := (number_reports source .lua52).2 running hrunning "1e+_.5" rfl
  exact ⟨⟨hlacking, hrunning⟩, hnone.1 (by decide +kernel), htwo.1 (by decide +kernel)⟩

/-- A hexadecimal mark without a digit after it is no numeral, but it is not reported. -/
theorem hexadecimal_mark_not_reported :
    ¬ ∀ (source : String) (d : Dialect), ∀ t ∈ (tokenize source d).1, ∀ raw, t.node = .number raw →
      let reports := reportsAt (tokenize source d).2 t.span.start
      (¬IsNumeral raw.toList → reports.length = 1) ∧ (IsNumeral raw.toList → reports = []) := by
  intro h
  have hlacks : LacksDigits "0x".toList :=
    ⟨[], ⟨.whole nofun, ['0', 'x'], List.mem_cons_self, [], .inl rfl, rfl⟩, nofun⟩
  obtain ⟨hone, -⟩ :=
    h "0x" .lua52 ⟨.number "0x", ⟨⟨0, 0, 0⟩, ⟨0, 2, 2⟩⟩⟩ (by decide +kernel) "0x" rfl
  exact absurd (hone (not_isNumeral_of_lacksDigits hlacks)) (by decide +kernel)

end LuaSyntax
