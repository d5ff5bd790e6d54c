import LuaSyntax.Proofs.RoundTrip
import LuaSyntax.Proofs.Tree.Portable
/-!
# Printing translates GLua to Lua 5.2

Whatever tree a GLua source is parsed to, be the source repaired or not, its text is a source of
Lua 5.2 for the same tree, unless it has a `continue`.
-/

namespace LuaSyntax

open Grammar LuaSyntax.Language

/-- A block without `continue` that is printed in GLua is printed in Lua 5.2 too. -/
theorem Layout.Written.lua52 {b : Block} (h : b.layout.Written .glua)
    (hstmts : NoContinue b.statements) : b.layout.Written .lua52 :=
  fun t ht => (h t ht).lua52 (b.portable hstmts t ht)

/-- The text of a block that is parsed from a source of GLua is read and parsed in Lua 5.2 to the
same block with one more level, if there is no `continue` in it. The only diagnostics are a note for
each target that ends in a call, and one for each target in parentheses. -/
theorem parse_printed_lua52 (source : String) (maxDepth : Nat)
    (hlex : (tokenize source .glua).2 = [])
    (hstmts : NoContinue (parseWith source ⟨.glua, none, maxDepth⟩).1.block.statements) :
    let block := (parseWith source ⟨.glua, none, maxDepth⟩).1.block
    let translated := parseWith block.text ⟨.lua52, none, maxDepth + 1⟩
    (tokenize block.text .lua52).2 = [] ∧ translated.1.block.same block = true ∧
      (translated.2.map fun d => (d.cause, d.repair)).Perm
        ((block.targets.filter (·.node.endsInCall)).map (fun _ => (.notAssignable, .unrepaired)) ++
          (block.targets.filter (·.node.isBareParen)).map fun _ =>
            (.parenthesizedTarget, .unrepaired)) := by
  intro block translated
  obtain ⟨b, ds, ts, hrun, hb, -, hglua, hlevels⟩ := exists_run_printable hlex maxDepth
  have hblock : block = b := (parseWith_of_run hrun).1
  have hwritten : block.layout.Written .lua52 := by
    rw [← hblock] at hglua
    exact hglua.lua52 hstmts
  have hprinted := (reprints_nest_stub maxDepth).block hb hlevels
  rw [← hblock] at hprinted
  obtain ⟨hsame, -, hperm⟩ := reparse hwritten hprinted
  have hcauses := (targetCauses_perm block.targets).map fun cause => (cause, Repair.unrepaired)
  rw [List.map_append, List.map_map, List.map_map] at hcauses
  exact ⟨(tokenize_text hwritten).2, hsame, hperm.trans hcauses⟩

/-- A source with operators and a comment of GLua, with an `end` left out and a target that is a
call. -/
theorem parse_printed_lua52_operators :
    let source := "f() = a && !b // calls\nif a != b || c then g()"
    let block := (parseWith source ⟨.glua, none, 4⟩).1.block
    (tokenize source .glua).2 = [] ∧ NoContinue block.statements ∧
      (tokenize block.text .lua52).2 = [] ∧
      (parseWith block.text ⟨.lua52, none, 5⟩).1.block.same block = true := by
  intro source block
  have hlex : (tokenize source .glua).2 = [] := by decide +kernel
  have hstmts : NoContinue block.statements := by decide +kernel
  obtain ⟨hread, hsame, -⟩ := parse_printed_lua52 source 4 hlex hstmts
  exact ⟨hlex, hstmts, hread, hsame⟩

end LuaSyntax
