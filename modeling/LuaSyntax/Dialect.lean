/-!
# Dialects

GLua is Lua 5.2 with `continue`, the operators `&&`, `||`, `!=` and `!`, and the comments `// …`
and `/* … */`.
-/

namespace LuaSyntax

/-- The language that a source text is written in. -/
inductive Dialect where
  | lua52
  | glua
deriving DecidableEq, Repr, Inhabited

namespace Dialect

/-- Whether the additions of GLua are part of the language. -/
def hasExtensions : Dialect → Bool
  | lua52 => false
  | glua => true

end Dialect

end LuaSyntax
