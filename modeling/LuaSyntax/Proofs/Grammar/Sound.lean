import LuaSyntax.Grammar.Level
import LuaSyntax.Proofs.Grammar.Language
import LuaSyntax.Proofs.Rule.Primitive
import LuaSyntax.Proofs.Tree.Targets
/-!
# Sound levels

A nesting level is sound for a language when its rules give trees of that language: the edited
tokens that a rule reads derive the tree that it gives, and its notes are those of the tree's
targets.
-/

namespace LuaSyntax

/-- The yield is a way to write `a`, with the notes that the targets in `a` leave. -/
structure Yield.Writes {α : Type} (y : Yield) (item : List Token → α → Prop)
    (targets : α → List (Located PrefixExp)) (a : α) : Prop where
  derives : item y.tokens a
  notes : y.notes = targetNotes (targets a)

namespace Token

/-- Whether the token is a word or a symbol of both dialects. -/
def isShared : Token → Bool
  | keyword k => k.isReserved .lua52
  | symbol s => s.isUsed .lua52
  | _ => false

/-- The tokens that the grammar puts in where they are missing. A missing statement is never a
`continue`. -/
inductive Filler : Token → Prop
  | shared {t : Token} (h : t.isShared = true) : Filler t
  | name : Filler (.ident "someVariable")
  | str : Filler (.str "\"someString\"")
  | number : Filler (.number "0")
  | label : Filler (.label "someLabel")

end Token

namespace Grammar

open Rule

/-- The rules of the level give trees of the language. -/
structure Level.Sound (law : Law) (L : Language) (inner : Level) : Prop where
  fills : ∀ {t : Token}, t.Filler → law.insertable t
  follows : ∀ ts, L.follows ts
  expr : Opens law inner.expr fun y e => y.Writes L.expr Expr.targets e.node
  block : Always law (fun _ => False) inner.block fun y b => y.Writes L.block Block.targets b

variable {law : Law} {L : Language} {inner : Level}

namespace Level.Sound

theorem symbol (h : inner.Sound law L) {s : Symbol} (hs : s.isUsed .lua52 = true) :
    Opens law (Rule.symbol s) fun y _ => y = .token (.symbol s) :=
  opens_token (h.fills (.shared hs))

theorem keyword (h : inner.Sound law L) {k : Keyword} (hk : k.isReserved .lua52 = true) :
    Opens law (Rule.keyword k) fun y _ => y = .token (.keyword k) :=
  opens_token (h.fills (.shared hk))

theorem name (h : inner.Sound law L) :
    Opens law Rule.name fun y a => y = .token (.ident a.node) :=
  opens_name (h.fills .name)

theorem str (h : inner.Sound law L) :
    Opens law Rule.str fun y a => y = .token (.str a.node) :=
  opens_str (h.fills .str)

theorem number (h : inner.Sound law L) :
    Opens law Rule.number fun y a => y = .token (.number a.node) :=
  opens_number (h.fills .number)

theorem label (h : inner.Sound law L) :
    Opens law Rule.label fun y a => y = .token (.label a.node) :=
  opens_label (h.fills .label)

theorem oneOf (h : inner.Sound law L) {α : Type} {t : Token} {a : α} {others : List (Token × α)}
    (ht : t.isShared = true) :
    Opens law (Rule.oneOf ((t, a) :: others)) fun y b =>
      ∃ u, y = .token u ∧ (u, b.node) ∈ (t, a) :: others :=
  opens_oneOf (h.fills (.shared ht))

end Level.Sound

end Grammar

end LuaSyntax
