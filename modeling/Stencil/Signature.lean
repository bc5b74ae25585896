import Stencil.Value

/-!
# Call signatures

A signature lists the parameters of a call. Binding looks at the shape of the arguments only: how
many there are and which carry which label. It gives each parameter a slot. Resolving then takes the
values from the slots and checks their types.

Unlabelled parameters take the unlabelled arguments in order, a labelled parameter takes the
argument with its label, a parameter left over takes its default, and no argument may be left over.
-/

namespace Stencil

/-- One parameter of a signature. No types means any value. -/
structure Parameter where
  label : Option String := none
  types : List ValueType := []
  default : Option Value := none

/-- Where a parameter takes its value from. -/
inductive Slot
  | argument (index : Nat)
  | default (value : Value)

/-- The value of an argument as a parameter takes it: of one of its types, an integer also as a
double. -/
def Parameter.coerce? (p : Parameter) (value : Value) : Option Value :=
  if p.types.isEmpty then some value
  else
    match value.type?, value with
    | none, _ => none
    | some type, value =>
      if type ∈ p.types then some value
      else
        match value with
        | .int i => if .double ∈ p.types then some (.double i.toFloat) else none
        | _ => none

/-- The parameters of a call. -/
structure Signature where
  params : List Parameter := []

namespace Signature

/-- One parameter that takes any value. -/
def single : Signature := ⟨[{}]⟩

/-- The positions of the arguments without label. -/
def positions (count : Nat) (labels : Entries Nat) : List Nat :=
  (List.range count).filter fun i => !(labels.map Prod.snd).contains i

/-- Whether some argument without label stands after one with a label. -/
def misplaced (positional : List Nat) (labels : Entries Nat) : Bool :=
  positional.any fun i => labels.any fun entry => entry.2 < i

/-- The argument that a parameter takes, and the unlabelled arguments left for the others. -/
def source (labels : Entries Nat) (p : Parameter) (positional : List Nat) :
    Option Nat × List Nat :=
  match p.label, positional with
  | some label, _ => (labels.find? label, positional)
  | none, i :: rest => (some i, rest)
  | none, [] => (none, [])

/-- Slots for the parameters in order, and the unlabelled arguments that are left over; `taken` of
them are already placed. -/
def fill (labels : Entries Nat) : List Parameter → (positional : List Nat) → (taken : Nat) →
    Except BindError (List Slot × List Nat)
  | [], positional, _ => .ok ([], positional)
  | p :: rest, positional, taken =>
    let (found, left) := source labels p positional
    let slot : Option Slot := match found with
      | some index => some (.argument index)
      | none => p.default.map .default
    match slot with
    | none =>
      .error <| match p.label with
        | some label => .missingLabel label
        | none => .missingPosition (taken + 1)
    | some slot => do
      let (slots, unused) ← fill labels rest left (taken + (positional.length - left.length))
      return (slot :: slots, unused)

/-- Binds arguments, given their number and the positions of the labelled ones. -/
def bind (s : Signature) (count : Nat) (labels : Entries Nat) : Except BindError (List Slot) := do
  let positional := positions count labels
  if misplaced positional labels then throw .labelBeforePositional
  let (slots, unused) ← fill labels s.params positional 0
  if !unused.isEmpty then
    throw (.tooManyPositions (positional.length - unused.length) positional.length)
  let used := s.params.countP fun p => p.label.any labels.has
  if used < labels.length then
    throw (.unknownLabels (labels.keys.filter fun label => !s.params.any (·.label == some label)))
  return slots

/-- The value in a slot. -/
def slotValue (values : List Value) : Slot → Value
  | .argument index => values[index]?.getD .nil
  | .default value => value

/-- The values for parameters, taken from their slots and coerced to their types. -/
def resolveParams (values : List Value) : List Parameter → List Slot → Except CallError (List Value)
  | p :: params, slot :: slots =>
    let value := slotValue values slot
    match p.coerce? value with
    | none => .error (.type p.types value.type?)
    | some coerced => do
      let rest ← resolveParams values params slots
      return coerced :: rest
  | _, _ => .ok []

/-- The arguments of a call, from bound slots and the values of the arguments as written. -/
def resolve (s : Signature) (slots : List Slot) (values : List Value) :
    Except CallError (List Value) :=
  resolveParams values s.params slots

/-- Binds and resolves at once. -/
def arguments (s : Signature) (values : List Value) (labels : Entries Nat) :
    Except CallError (List Value) := do
  let slots ← (s.bind values.length labels).mapError .bind
  s.resolve slots values

/-- Whether values under given labels can be passed. -/
def accepts (s : Signature) (values : List Value) (labels : Entries Nat) : Bool :=
  (s.arguments values labels).isOk

end Signature

/-- A function or method that templates can call. Two functions are the same only if they were
registered by one act, which `id` tells. -/
structure Function where
  id : Nat
  signature : Signature
  /-- Whether the result depends on the arguments only, so that it may be computed while parsing. -/
  invariant : Bool
  run : List Value → Value

end Stencil
