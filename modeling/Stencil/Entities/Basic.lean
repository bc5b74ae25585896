import Stencil.Block.Core
import Stencil.Encoder

/-!
# The registry

The functions, methods, blocks and encoders that templates can use.
-/

namespace Stencil

/-- The functions, methods, blocks and encoders known by name. -/
structure Entities where
  /-- How many functions have been registered; the next one gets this number. -/
  registered : Nat := 0
  functionTable : Entries (List Function) := []
  methodTable : Entries (List Function) := []
  blockTable : Entries BlockForm := []
  encoderTable : Entries Encoder := []
  defaultEncoderName : String := "identity"

/-- Why the default encoder cannot be set. -/
inductive EntitiesError
  | unknownEncoder (name : String)

def EntitiesError.message : EntitiesError → String
  | unknownEncoder name => s!"编码器 '{name}' 未注册"

/-- Tag names with a meaning of their own. -/
def reservedTags : List String := ["define", "evaluate", "inline", "raw"]

namespace Entities

/-- The registry with nothing but the encoder that changes nothing. -/
def empty : Entities := { encoderTable := [("identity", Encoder.identity)] }

/-- The overloads of a function. -/
def functions (r : Entities) (name : String) : List Function := (r.functionTable.find? name).getD []

/-- The overloads of a method. -/
def methods (r : Entities) (name : String) : List Function := (r.methodTable.find? name).getD []

/-- The functions or the methods of a name. -/
def candidates (r : Entities) (method : Bool) (name : String) : List Function :=
  if method then r.methods name else r.functions name

def block? (r : Entities) (name : String) : Option BlockForm := r.blockTable.find? name

def encoder? (r : Entities) (name : String) : Option Encoder := r.encoderTable.find? name

/-- The encoder in effect outside of encoder tags. -/
def defaultEncoder (r : Entities) : Encoder :=
  (r.encoder? r.defaultEncoderName).getD Encoder.identity

/-- Adds an overload of a function. -/
def addFunction (r : Entities) (name : String) (f : Nat → Function) : Entities :=
  { r with
    registered := r.registered + 1
    functionTable := r.functionTable.insert name (r.functions name ++ [f r.registered]) }

/-- Adds an overload of a method. -/
def addMethod (r : Entities) (name : String) (f : Nat → Function) : Entities :=
  { r with
    registered := r.registered + 1
    methodTable := r.methodTable.insert name (r.methods name ++ [f r.registered]) }

/-- Whether a block of this name could be written: reserved tags and names that read as end tags
could not. -/
def admitsBlock (name : String) : Bool :=
  !(reservedTags.contains name || "end".toList.isPrefixOf name.toList)

/-- Sets the block of a name; a name that could not be written is passed over. -/
def addBlock (r : Entities) (name : String) (form : BlockForm) : Entities :=
  if admitsBlock name then { r with blockTable := r.blockTable.insert name form } else r

def addEncoder (r : Entities) (name : String) (encoder : Encoder) : Entities :=
  { r with encoderTable := r.encoderTable.insert name encoder }

def setDefaultEncoder (r : Entities) (name : String) : Except EntitiesError Entities :=
  if (r.encoder? name).isSome then .ok { r with defaultEncoderName := name }
  else .error (.unknownEncoder name)

/-- The registry of the language itself: control flow and the encoder for HTML. -/
def core : Entities :=
  empty
    |>.addBlock "if" Block.ifForm
    |>.addBlock "elseif" Block.elseifForm
    |>.addBlock "else" Block.elseForm
    |>.addBlock "for" Block.forForm
    |>.addBlock "while" Block.whileForm
    |>.addEncoder "html" Encoder.html

end Entities

end Stencil
