import LuaSyntax.Grammar.Nesting
import LuaSyntax.Lexer.Tokenize
import LuaSyntax.Rule.Run
/-!
# Parsing

Parsing never fails: every function here gives a tree, and the diagnostics for whatever had to be
repaired or passed over to build it.
-/

namespace LuaSyntax

/-- How many expressions and blocks may nest inside one another if nothing else is said. -/
def defaultMaxDepth : Nat := 32

structure ParseConfig where
  dialect : Dialect := .glua
  /-- A source with more tokens than this, comments excluded, is not parsed. -/
  tokenLimit : Option Nat := none
  /-- Expressions and blocks that nest deeper than this are passed over. -/
  maxDepth : Nat := defaultMaxDepth
deriving DecidableEq, Repr

instance : Inhabited ParseConfig := ⟨⟨.glua, none, defaultMaxDepth⟩⟩

/-- Runs a rule of the grammar over a token list, without the comments in it. -/
def parseRule {α : Type} (rule : Grammar.Level → Rule α) (tokens : List (Located Token))
    (fallback : α) : α × List Diagnostic :=
  (rule (Grammar.nested defaultMaxDepth)).run (.ofTokens (withoutComments tokens))
    defaultMaxDepth fallback

/-- The diagnostic for a source whose token `firstOver` is the first one past the limit. -/
def overLimit (firstOver : Located Token) (limit count : Nat) : Diagnostic :=
  ⟨firstOver.span, .tokenLimitExceeded limit count, .unrepaired⟩

/-- The tree of a token list whose source ends at `stop`. -/
def parseTokens (tokens : List (Located Token)) (stop : Pos) (config : ParseConfig) :
    Chunk × List Diagnostic :=
  let comments := commentsOf tokens
  let rest := withoutComments tokens
  match config.tokenLimit.bind fun limit => rest[limit]?.map (limit, ·) with
  | some (limit, firstOver) =>
    (⟨comments, .empty⟩, [overLimit firstOver limit rest.length])
  | none =>
    let (block, diags) := (Grammar.chunk (Grammar.nested config.maxDepth)).run
      ⟨rest.toArray, stop⟩ config.maxDepth .empty
    (⟨comments, block⟩, diags)

theorem parseTokens_of_no_limit (tokens : List (Located Token)) (stop : Pos) (dialect : Dialect)
    (maxDepth : Nat) :
    parseTokens tokens stop ⟨dialect, none, maxDepth⟩ =
      let result := (Grammar.chunk (Grammar.nested maxDepth)).run
        ⟨(withoutComments tokens).toArray, stop⟩ maxDepth .empty
      (⟨commentsOf tokens, result.1⟩, result.2) := rfl

/-- The tree of a token list. Its comments are kept beside the tree. -/
def parse (tokens : List (Located Token)) : Chunk × List Diagnostic :=
  parseTokens tokens (TokenStream.endOfLast tokens) default

/-- Whether `d` is reported no later than `e`. -/
def Diagnostic.notAfter (d e : Diagnostic) : Bool :=
  decide (d.span.start ≤ e.span.start)

/-- The tree of a source text. Lexical errors stand among the diagnostics, in source order. -/
def parseWith (source : String) (config : ParseConfig) : Chunk × List Diagnostic :=
  let (tokens, errors) := tokenize source config.dialect
  let (chunk, diags) := parseTokens tokens (endOfSource source) config
  (chunk, (errors.map Diagnostic.ofLexError ++ diags).mergeSort Diagnostic.notAfter)

/-- The tree of a source text that is written in GLua. -/
def parseText (source : String) : Chunk × List Diagnostic :=
  parseWith source default

def parseExpr (tokens : List (Located Token)) : Located Expr × List Diagnostic :=
  parseRule (·.expr) tokens ⟨.nil, default⟩

def parseStmt (tokens : List (Located Token)) : Located Stmt × List Diagnostic :=
  parseRule Grammar.stmt tokens ⟨.block .empty, default⟩

def parseBlock (tokens : List (Located Token)) : Block × List Diagnostic :=
  parseRule (·.block) tokens .empty

end LuaSyntax
