import LuaSyntax.Proofs.Lexer.Extension
import LuaSyntax.Proofs.RoundTrip
/-!
# GLua extends Lua 5.2

A clean source of Lua 5.2 that does not have the name `continue` has the same tokens in GLua, and so
the same tree.
-/

namespace LuaSyntax

open LuaSyntax.Language

/-- The slashes of a clean source divide. -/
theorem slashesDivide_of_clean {source : String} {dialect : Dialect} {limit : Option Nat}
    {depth : Nat} (hclean : (parseWith source ⟨dialect, limit, depth⟩).2 = []) :
    SlashesDivide ((withoutComments (tokenize source dialect).1).map (·.node)) := by
  rw [parseWith_unlimited hclean] at hclean
  exact (divides_within depth).block _ _ (derives_of_clean hclean).1

/-- A source without the name `continue` that is clean in Lua 5.2 is parsed to the same tree in
GLua, spans and comments included, and is clean there too. -/
theorem parseWith_glua_eq (source : String) (limit : Option Nat) (maxDepth : Nat)
    (hclean : (parseWith source ⟨.lua52, limit, maxDepth⟩).2 = [])
    (hname : ∀ t ∈ (tokenize source .lua52).1, t.node ≠ .ident "continue") :
    (parseWith source ⟨.glua, limit, maxDepth⟩).2 = [] ∧
      (parseWith source ⟨.glua, limit, maxDepth⟩).1 =
        (parseWith source ⟨.lua52, limit, maxDepth⟩).1 := by
  have herrors : (tokenize source .lua52).2 = [] := by
    rw [parseWith_unlimited hclean] at hclean
    exact (parseWith_eq_nil rfl hclean).1
  have hpieces := Lexer.pieces_tokenizeFrom .lua52 default source.toList
  have htokens : tokenize source .glua = tokenize source .lua52 :=
    (hpieces.glua herrors hname (slashesDivide_of_clean hclean)).eq
  have hsame : parseWith source ⟨.glua, limit, maxDepth⟩ =
      parseWith source ⟨.lua52, limit, maxDepth⟩ := by
    rw [parseWith, parseWith, htokens]
    rfl
  rw [hsame]
  exact ⟨hclean, rfl⟩

/-- What would be comments and reserved words of GLua stands here in a string and in a comment. -/
theorem parseWith_glua_eq_division :
    let source := "local x = #'//' / 2 -- /* && continue"
    (parseWith source ⟨.lua52, some 7, 3⟩).2 = [] ∧ (parseWith source ⟨.glua, some 7, 3⟩).2 = [] ∧
      (parseWith source ⟨.glua, some 7, 3⟩).1 = (parseWith source ⟨.lua52, some 7, 3⟩).1 := by
  intro source
  have hclean : (parseWith source ⟨.lua52, some 7, 3⟩).2 = [] :=
    List.length_eq_zero_iff.1 (by decide +kernel)
  exact ⟨hclean, parseWith_glua_eq source (some 7) 3 hclean (by decide +kernel)⟩

end LuaSyntax
