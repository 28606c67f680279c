import Lox.Syntax.Basic

/-!
# Equality of syntax trees

Two trees are the same if they agree in shape, names, values, lines and slots.
-/

set_option autoImplicit false

namespace Lox

mutual

def Expr.same : Expr → Expr → Bool
  | .literal v l, .literal v' l' => v == v' && l == l'
  | .group e, .group e' => e.same e'
  | .variable n s, .variable n' s' => n == n' && s == s'
  | .assign n e s, .assign n' e' s' => n == n' && e.same e' && s == s'
  | .unary o e l, .unary o' e' l' => o == o' && e.same e' && l == l'
  | .binary o a b l, .binary o' a' b' l' => o == o' && a.same a' && b.same b' && l == l'
  | .logical o a b l, .logical o' a' b' l' => o == o' && a.same a' && b.same b' && l == l'
  | .call c as l, .call c' as' l' => c.same c' && sameExprs as as' && l == l'
  | .get e n, .get e' n' => e.same e' && n == n'
  | .set e n v, .set e' n' v' => e.same e' && n == n' && v.same v'
  | .this l s, .this l' s' => l == l' && s == s'
  | .super l m s, .super l' m' s' => l == l' && m == m' && s == s'
  | .lambda d, .lambda d' => d.same d'
  | _, _ => false

def sameExprs : List Expr → List Expr → Bool
  | [], [] => true
  | e :: es, e' :: es' => e.same e' && sameExprs es es'
  | _, _ => false

def Stmt.same : Stmt → Stmt → Bool
  | .expression e, .expression e' => e.same e'
  | .print e, .print e' => e.same e'
  | .var n none, .var n' none => n == n'
  | .var n (some e), .var n' (some e') => n == n' && e.same e'
  | .block b, .block b' => sameStmts b b'
  | .cond c t none, .cond c' t' none => c.same c' && t.same t'
  | .cond c t (some e), .cond c' t' (some e') => c.same c' && t.same t' && e.same e'
  | .loop c b, .loop c' b' => c.same c' && b.same b'
  | .function d, .function d' => d.same d'
  | .ret l none, .ret l' none => l == l'
  | .ret l (some e), .ret l' (some e') => l == l' && e.same e'
  | .brk l, .brk l' => l == l'
  | .classDecl n s ms, .classDecl n' s' ms' => n == n' && s == s' && sameDecls ms ms'
  | _, _ => false

def sameStmts : List Stmt → List Stmt → Bool
  | [], [] => true
  | s :: ss, s' :: ss' => s.same s' && sameStmts ss ss'
  | _, _ => false

def FunDecl.same : FunDecl → FunDecl → Bool
  | ⟨n, ps, b, l⟩, ⟨n', ps', b', l'⟩ => n == n' && ps == ps' && sameStmts b b' && l == l'

def sameDecls : List FunDecl → List FunDecl → Bool
  | [], [] => true
  | d :: ds, d' :: ds' => d.same d' && sameDecls ds ds'
  | _, _ => false

end

end Lox
