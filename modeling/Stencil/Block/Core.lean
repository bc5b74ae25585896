import Stencil.Block.Basic

/-!
# Control flow blocks

Conditional chains `if`/`elseif`/`else`, the loop over a collection `for`, and the loop with a
condition `while`.
-/

namespace Stencil.Block

/-- Whether the first argument is true. -/
def firstTruthy (values : List Value) : Bool := (values.head?.map Value.truthy).getD false

/-- A call with plain arguments, for blocks that know no pattern. -/
def makeCall (signature : Signature) (behaviour : Behaviour) (otherwise : BlockError) :
    BlockArguments → Except BlockError BlockInstance
  | .call t => do
    let args ← (signature.normalize t).mapError .bind
    return ⟨behaviour, args, []⟩
  | .parsed _ => .error otherwise

/-- One pass if the condition holds. -/
def condition : Behaviour where
  pass _ index current := (if index = 0 && firstTruthy current then .once else .discard, [])

/-- One pass in any case. -/
def otherwise : Behaviour where
  pass _ index _ := (if index = 0 then .once else .discard, [])
  parameters _ := ""

/-- The links that a further link of a conditional chain can follow. -/
def chainLinks : List String := ["if", "elseif"]

/-- `if(condition):` -/
def ifForm : BlockForm where
  signature := .single
  make := makeCall .single condition .conditionTakesNoPattern

/-- `elseif(condition):` -/
def elseifForm : BlockForm where
  signature := .single
  follows := chainLinks
  make := makeCall .single condition .conditionTakesNoPattern

/-- `else:` -/
def elseForm : BlockForm where
  signature := {}
  follows := chainLinks
  make := makeCall {} otherwise .conditionTakesNoPattern

/-- The names that every `for` binds besides its own. -/
def loopIndex : String := "index"
def loopIsFirst : String := "isFirst"
def loopIsLast : String := "isLast"

/-- Keys and values of an array, which has its positions for keys, or of a dictionary. Other values
have none. -/
def loopEntries : Option Value → List (Value × Value)
  | some (.array items) => items.zipIdx.map fun item => (.ofNat item.2, item.1)
  | some (.dictionary entries) => entries.map fun entry => (.string entry.1, entry.2)
  | _ => []

/-- What a loop binds for the entry at a position. -/
def loopBindings (key : Option String) (item : String) (count position : Nat)
    (entry : Value × Value) : List (String × Value) :=
  [(item, entry.2)] ++ key.toList.map (fun name => (name, entry.1)) ++
    [(loopIndex, .ofNat position), (loopIsFirst, .bool (position == 0)),
     (loopIsLast, .bool (position + 1 == count))]

/-- One pass for each entry of the collection as it was at entry. -/
def forLoop (key : Option String) (item : String) : Behaviour where
  pass entered index _ :=
    let entries := loopEntries entered.head?
    match entries[index]? with
    | none => (.discard, [])
    | some entry =>
      (.repeating (entries.length - index), loopBindings key item entries.length index entry)
  parameters t :=
    let collection := (t.head?.map fun item => item.2.text).getD ""
    match key with
    | some name => "(" ++ name ++ ", " ++ item ++ " in " ++ collection ++ ")"
    | none => "(" ++ item ++ " in " ++ collection ++ ")"

/-- `item in collection` -/
def itemSlots : List PatternSlot := [.declare, .word .within, .expression]

/-- Makes a loop from the names and the collection of its pattern. -/
def makeFor : BlockArguments → Except BlockError BlockInstance
  | .call _ => .error .forNeedsPattern
  | .parsed found => do
    let (key, item) ← match found.declared with
      | [item] => pure (none, item)
      | [key, item] =>
        if key = item then throw (.repeatedLoopVariable item) else pure (some key, item)
      | _ => throw .loopVariableCount
    return {
      behaviour := forLoop key item
      args := Tuple.ofList found.expressions
      declares := key.toList ++ [item, loopIndex, loopIsFirst, loopIsLast] }

/-- `for(item in collection):` and `for(key, item in collection):` -/
def forForm : BlockForm where
  signature := .single
  patterns := [⟨"item", [itemSlots]⟩, ⟨"keyed", [[.declare], itemSlots]⟩]
  make := makeFor

/-- A pass as long as the condition holds. -/
def whileLoop : Behaviour where
  pass _ _ current := (if firstTruthy current then .indefinite else .discard, [])

/-- `while(condition):` -/
def whileForm : BlockForm where
  signature := .single
  make := makeCall .single whileLoop .whileTakesNoPattern

end Stencil.Block
