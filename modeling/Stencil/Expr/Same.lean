import Stencil.Expr.Basic

/-!
# Equality of expressions

Two expressions are equal if they have the same structure and equal literals. Resolved calls must
also go to the same registered function; of pending calls the candidates are only counted.
-/

namespace Stencil.Expr

mutual
/-- Equality of expressions. -/
def same : Expr → Expr → Bool
  | value a, value b => a.same b
  | keyword a, keyword b => a == b
  | operator a, operator b => a == b
  | var a, var b => a == b
  | unary op a, unary op' b => op == op' && same a b
  | binary op a b, binary op' c d => op == op' && same a c && same b d
  | conditional a b c, conditional d e f => same a d && same b e && same c f
  | sequence as, sequence bs => sameAll as bs
  | collection as, collection bs => sameItems as bs
  | call name method target _ as, call name' method' target' _ bs =>
    name == name' && method == method' && target.id == target'.id && sameItems as bs
  | overload name method candidates as, overload name' method' candidates' bs =>
    name == name' && method == method' && candidates.length == candidates'.length &&
      candidates.all (·.invariant) == candidates'.all (·.invariant) && sameItems as bs
  | _, _ => false

def sameAll : List Expr → List Expr → Bool
  | [], [] => true
  | a :: as, b :: bs => same a b && sameAll as bs
  | _, _ => false

def sameItems : List (Option String × Expr) → List (Option String × Expr) → Bool
  | [], [] => true
  | (j, a) :: as, (k, b) :: bs => j == k && same a b && sameItems as bs
  | _, _ => false
end

end Stencil.Expr
