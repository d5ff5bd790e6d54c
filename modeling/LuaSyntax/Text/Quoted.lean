import LuaSyntax.Text.Unprintable
/-!
# Quoted characters

A character as a message shows it: between single quotes, with escapes for what cannot be seen.
-/

namespace LuaSyntax.Text

/-- The digits of `n` in base sixteen, in lower case and without leading zeros. -/
def hex (n : Nat) : String :=
  String.ofList (Nat.toDigits 16 n)

/-- The character, or the escape that stands for it. -/
def escaped (c : Char) : String :=
  if c = '\x00' then "\\0"
  else if c = '\t' then "\\t"
  else if c = '\n' then "\\n"
  else if c = '\r' then "\\r"
  else if c = '\\' then "\\\\"
  else if c = '\'' then "\\'"
  else if isUnprintable c then "\\u\x7b" ++ hex c.toNat ++ "\x7d"
  else String.singleton c

def quoted (c : Char) : String :=
  "'" ++ escaped c ++ "'"

end LuaSyntax.Text
