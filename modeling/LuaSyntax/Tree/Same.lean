import LuaSyntax.Tree.Basic
/-!
# Equality up to spans

Two trees are the same if they differ only in their spans.
-/

namespace LuaSyntax

/-- Equality of located texts up to their spans. -/
def Located.sameNode {α : Type} [DecidableEq α] (a b : Located α) : Bool :=
  a.node == b.node

/-- Equality of lists of located values up to their spans. -/
def sameNodes {α : Type} [DecidableEq α] (as bs : List (Located α)) : Bool :=
  as.map (·.node) == bs.map (·.node)

namespace FuncName

def same (a b : FuncName) : Bool :=
  sameNodes a.path b.path && a.method.map (·.node) == b.method.map (·.node)

end FuncName

mutual

def Block.same : Block → Block → Bool
  | ⟨ss, r⟩, ⟨ss', r'⟩ => sameStmts ss ss' && sameReturn? r r'
termination_by structural a => a

def sameStmts : List (Located Stmt) → List (Located Stmt) → Bool
  | [], [] => true
  | s :: ss, s' :: ss' => s.node.same s'.node && sameStmts ss ss'
  | _, _ => false
termination_by structural a => a

def sameReturn? : Option (Located Return) → Option (Located Return) → Bool
  | none, none => true
  | some r, some r' => r.node.same r'.node
  | _, _ => false
termination_by structural a => a

def Return.same : Return → Return → Bool
  | ⟨es⟩, ⟨es'⟩ => sameExprs es es'
termination_by structural a => a

def sameExprs : List (Located Expr) → List (Located Expr) → Bool
  | [], [] => true
  | e :: es, e' :: es' => e.node.same e'.node && sameExprs es es'
  | _, _ => false
termination_by structural a => a

def Stmt.same : Stmt → Stmt → Bool
  | .label n, .label n' => n == n'
  | .breakLoop, .breakLoop => true
  | .continueLoop, .continueLoop => true
  | .goto n, .goto n' => n.sameNode n'
  | .block b, .block b' => b.same b'
  | .whileLoop e b, .whileLoop e' b' => e.node.same e'.node && b.same b'
  | .repeatLoop b e, .repeatLoop b' e' => b.same b' && e.node.same e'.node
  | .numericFor n e f g b, .numericFor n' e' f' g' b' =>
    n.sameNode n' && e.node.same e'.node && f.node.same f'.node && g.node.same g'.node &&
      b.same b'
  | .genericFor ns es b, .genericFor ns' es' b' =>
    sameNodes ns ns' && sameExprs es es' && b.same b'
  | .conditional cs b, .conditional cs' b' => sameClauses cs cs' && sameBlock? b b'
  | .function n f, .function n' f' => n.same n' && f.same f'
  | .localFunction n f, .localFunction n' f' => n.sameNode n' && f.same f'
  | .localDecl ns es, .localDecl ns' es' => sameNodes ns ns' && sameExprs es es'
  | .call p, .call p' => p.same p'
  | .assign ts es, .assign ts' es' => sameTargets ts ts' && sameExprs es es'
  | _, _ => false
termination_by structural a => a

def sameClauses : List IfClause → List IfClause → Bool
  | [], [] => true
  | c :: cs, c' :: cs' => c.same c' && sameClauses cs cs'
  | _, _ => false
termination_by structural a => a

def IfClause.same : IfClause → IfClause → Bool
  | ⟨e, b⟩, ⟨e', b'⟩ => e.node.same e'.node && b.same b'
termination_by structural a => a

def sameBlock? : Option Block → Option Block → Bool
  | none, none => true
  | some b, some b' => b.same b'
  | _, _ => false
termination_by structural a => a

def sameTargets : List (Located PrefixExp) → List (Located PrefixExp) → Bool
  | [], [] => true
  | t :: ts, t' :: ts' => t.node.same t'.node && sameTargets ts ts'
  | _, _ => false
termination_by structural a => a

def FuncBody.same : FuncBody → FuncBody → Bool
  | ⟨ps, v, b⟩, ⟨ps', v', b'⟩ => sameNodes ps ps' && v.isSome == v'.isSome && b.same b'
termination_by structural a => a

def Expr.same : Expr → Expr → Bool
  | .nil, .nil => true
  | .boolean v, .boolean v' => v == v'
  | .number r, .number r' => r == r'
  | .str r, .str r' => r == r'
  | .vararg, .vararg => true
  | .function f, .function f' => f.same f'
  | .binary op e f, .binary op' e' f' =>
    op.sameNode op' && e.node.same e'.node && f.node.same f'.node
  | .unary op e, .unary op' e' => op.sameNode op' && e.node.same e'.node
  | .table fs, .table fs' => sameFields fs fs'
  | .access p, .access p' => p.same p'
  | _, _ => false
termination_by structural a => a

def PrefixExp.same : PrefixExp → PrefixExp → Bool
  | ⟨h, ss⟩, ⟨h', ss'⟩ => h.node.same h'.node && sameSuffixes ss ss'
termination_by structural a => a

def Head.same : Head → Head → Bool
  | .name n, .name n' => n == n'
  | .paren e, .paren e' => e.node.same e'.node
  | _, _ => false
termination_by structural a => a

def sameSuffixes : List (Located Suffix) → List (Located Suffix) → Bool
  | [], [] => true
  | s :: ss, s' :: ss' => s.node.same s'.node && sameSuffixes ss ss'
  | _, _ => false
termination_by structural a => a

def Suffix.same : Suffix → Suffix → Bool
  | .call a, .call a' => a.same a'
  | .method n a, .method n' a' => n.sameNode n' && a.same a'
  | .index e, .index e' => e.node.same e'.node
  | .field n, .field n' => n.sameNode n'
  | _, _ => false
termination_by structural a => a

def Args.same : Args → Args → Bool
  | .list es, .list es' => sameExprs es es'
  | .table fs, .table fs' => sameFields fs fs'
  | .str r, .str r' => r == r'
  | _, _ => false
termination_by structural a => a

def sameFields : List (Located Field) → List (Located Field) → Bool
  | [], [] => true
  | f :: fs, f' :: fs' => f.node.same f'.node && sameFields fs fs'
  | _, _ => false
termination_by structural a => a

def Field.same : Field → Field → Bool
  | .keyed k v, .keyed k' v' => k.node.same k'.node && v.node.same v'.node
  | .named n v, .named n' v' => n.sameNode n' && v.node.same v'.node
  | .positional v, .positional v' => v.node.same v'.node
  | _, _ => false
termination_by structural a => a

end

namespace Chunk

/-- Equality of the trees and of the comments, up to spans. -/
def same (a b : Chunk) : Bool :=
  sameNodes a.comments b.comments && a.block.same b.block

end Chunk

end LuaSyntax
