import Stencil.Block.Basic
import Stencil.Encoder

/-!
# Templates

A parsed template is an array of tables of nodes. Table zero is the template itself. The table of a
body, or of what is spliced into a place, is named by a `scope` node right behind the node that it
belongs to. A table is kept once, however often it is walked or referred to.
-/

namespace Stencil

/-- The nodes of a table. -/
inductive Node
  | raw (text : String)
  | output (e : Expr)
  | declare (name : String) (constant : Bool) (value : Option Expr)
  | assign (v : Variable) (op : Operator) (value : Expr)
  /-- A block; `chained` if it goes on with the chain of the block before it. -/
  | block (name : String) (chained : Bool) (behaviour : Behaviour) (args : Tuple)
  /-- A definition: of a value, or of the body behind it. -/
  | define (name : String) (value : Option Expr)
  | evaluate (name : String) (default : Option Expr)
  /-- The place of an inlined template or raw text. -/
  | inline (file : String) (raw : Bool)
  /-- The encoder that writes the values of the body behind it. -/
  | encode (handler : String) (encoder : Encoder)
  /-- The table of the node before; none as long as nothing is spliced into a place. -/
  | scope (target : Option Nat)

/-- A parsed template. -/
structure Template where
  name : String
  indicator : Char
  tables : List (List Node)
  /-- The root keys of the variables that the context has to provide. -/
  required : NameSet
  /-- The templates that are not spliced in yet. -/
  templates : NameSet
  /-- The raw texts that are not spliced in yet. -/
  raws : NameSet
  /-- A lower bound of the size of the output, in bytes. -/
  size : Nat

/-- The bytes of raw text in a table. -/
def rawSize (table : List Node) : Nat :=
  table.foldl (fun total node => match node with
    | .raw text => total + text.utf8ByteSize
    | _ => total) 0

namespace Node

/-- A place for a template or a text: its file, and whether it is raw text. -/
def place? : Node → Option (String × Bool)
  | inline file asRaw => some (file, asRaw)
  | _ => none

/-- A node of a template whose tables are placed behind `offset` others. -/
def shift (offset : Nat) : Node → Node
  | scope (some table) => scope (some (table + offset))
  | node => node

/-- The empty places in a table, in order. -/
def emptyPlaces : List Node → List (String × Bool)
  | node :: .scope none :: rest => node.place?.toList ++ emptyPlaces (.scope none :: rest)
  | _ :: rest => emptyPlaces rest
  | [] => []

/-- Refers the empty places for a file in a table to another table. -/
def fillPlaces (place : String × Bool) (table : Nat) : List Node → List Node
  | node :: .scope none :: rest =>
    if node.place? = some place then node :: .scope (some table) :: fillPlaces place table rest
    else node :: fillPlaces place table (.scope none :: rest)
  | node :: rest => node :: fillPlaces place table rest
  | [] => []

end Node

namespace Template

/-- A table by number; a number beyond the last gives an empty table. -/
def table (t : Template) (index : Nat) : List Node := t.tables[index]?.getD []

/-- Whether every inlined template and text is in place. -/
def resolved (t : Template) : Bool := t.templates.isEmpty && t.raws.isEmpty

/-- The empty places of all tables. -/
def emptyPlaces (t : Template) : List (String × Bool) := t.tables.flatMap Node.emptyPlaces

/-- The number of places for a file that are empty. -/
def countAwaiting (t : Template) (file : String) (asRaw : Bool) : Nat :=
  t.emptyPlaces.countP fun place => place.1 == file && place.2 == asRaw

/-- Refers all empty places for a file to a table. -/
def fillAll (t : Template) (file : String) (asRaw : Bool) (table : Nat) : List (List Node) :=
  t.tables.map (Node.fillPlaces (file, asRaw) table)

/-- Splices a template into all places for it; gives the number of places. A template is never
spliced into itself, and without a place nothing changes. -/
def inlineTemplate (t : Template) (name : String) (other : Template) : Template × Nat :=
  let count := t.countAwaiting name false
  if name = t.name ∨ count = 0 then (t, 0)
  else
    let offset := t.tables.length
    ({ t with
        tables := t.fillAll name false offset ++ other.tables.map (·.map (Node.shift offset))
        templates := (t.templates.erase name).union other.templates
        raws := t.raws.union other.raws
        required := t.required.union other.required
        size := t.size + other.size * count }, count)

/-- Splices a raw text into all places for it; gives the number of places. -/
def inlineRaw (t : Template) (name text : String) : Template × Nat :=
  let count := t.countAwaiting name true
  if count = 0 then (t, 0)
  else
    ({ t with
        tables := t.fillAll name true t.tables.length ++ [[.raw text]]
        raws := t.raws.erase name
        size := t.size + text.utf8ByteSize * count }, count)

/-- The empty places by file and kind, with their numbers; files ascending, templates before raw
texts. -/
def awaiting (t : Template) : List ((String × Bool) × Nat) :=
  let files := t.emptyPlaces.foldl (fun names place => NameSet.insert place.1 names) []
  (files.flatMap fun file => [((file, false), t.countAwaiting file false),
    ((file, true), t.countAwaiting file true)]).filter fun entry => entry.2 ≠ 0

end Template

end Stencil
