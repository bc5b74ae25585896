import Stencil.Proofs.CoreBlocks
import Stencil.Proofs.EvaluatedParts
import Stencil.Proofs.ReadArguments
import Stencil.Proofs.TupleLabels

/-!
# Calls and their slots

A call that was bound has slots for as many arguments as it has, so that its values are always found
when it is evaluated; a call whose function is chosen when it runs is bound to the values it has
then. `Expr.evalAt?` evaluates with every index checked, and for calls that fit it gives the value
of `Expr.eval`. Reading arguments makes such calls only.
-/

namespace Stencil

/-- A slot for one of so many arguments, or for a default. -/
def Slot.Fits (count : Nat) : Slot → Prop
  | .argument index => index < count
  | .default _ => True

namespace Signature

variable {labels : Entries Nat} {count : Nat} {values : List Value}

/-- Slots are filled from the positions without label and from those of the labels. -/
theorem fits_of_fill (inRange : ∀ entry ∈ labels, entry.2 < count) {params : List Parameter}
    {positional unused : List Nat} {taken : Nat} {slots : List Slot}
    (inside : ∀ i ∈ positional, i < count)
    (h : fill labels params positional taken = .ok (slots, unused)) :
    ∀ slot ∈ slots, slot.Fits count := by
  induction params generalizing positional taken slots with
  | nil =>
    cases h
    exact List.forall_mem_nil _
  | cons p params ih =>
    rw [fill] at h
    obtain ⟨found, left, here⟩ : ∃ found left, source labels p positional = (found, left) :=
      ⟨_, _, rfl⟩
    have position : (∀ index, found = some index → index < count) ∧ ∀ i ∈ left, i < count := by
      unfold source at here
      split at here
      · cases here
        exact ⟨fun index eq => inRange _ (Entries.mem_of_find? eq), inside⟩
      · cases here
        refine ⟨?_, fun i mem => inside i (.tail _ mem)⟩
        rintro index ⟨⟩
        exact inside _ List.mem_cons_self
      · cases here
        exact ⟨fun index eq => (by cases eq), inside⟩
    rw [here] at h
    dsimp only at h
    split at h
    · cases h
    · rename_i slot given
      obtain ⟨⟨more, rest⟩, filled, h⟩ := ok_of_bind h
      cases h
      intro other mem
      rcases List.mem_cons.mp mem with rfl | mem
      · cases found with
        | some index =>
          cases given
          exact position.1 index rfl
        | none =>
          obtain ⟨value, -, rfl⟩ := Option.map_eq_some_iff.mp given
          exact trivial
      · exact ih position.2 filled other mem

/-- Bound arguments are among those there are. -/
theorem fits_of_bind {s : Signature} {slots : List Slot}
    (inRange : ∀ entry ∈ labels, entry.2 < count) (h : s.bind count labels = .ok slots) :
    ∀ slot ∈ slots, slot.Fits count := by
  refine fits_of_fill inRange (fun i mem => ?_) (fill_of_bind h).1
  exact List.mem_range.mp (List.mem_of_mem_filter mem)

/-- The value in a slot, if the slot has one. -/
def slotValue? (values : List Value) : Slot → Option Value
  | .argument index => values[index]?
  | .default value => some value

/-- The values for parameters, each slot being looked up with its index checked. -/
def resolveAt? (values : List Value) : List Parameter → List Slot →
    Option (Except CallError (List Value))
  | p :: params, slot :: slots => do
    let value ← slotValue? values slot
    match p.coerce? value with
    | none => return .error (.type p.types value.type?)
    | some coerced =>
      let rest ← resolveAt? values params slots
      return rest.map (coerced :: ·)
  | _, _ => some (.ok [])

/-- Binds and resolves at once, each slot being looked up with its index checked. -/
def argumentsAt? (s : Signature) (values : List Value) (labels : Entries Nat) :
    Option (Except CallError (List Value)) :=
  match s.bind values.length labels with
  | .error e => some (.error (.bind e))
  | .ok slots => resolveAt? values s.params slots

theorem slotValue?_eq {slot : Slot} (fits : slot.Fits values.length) :
    slotValue? values slot = some (slotValue values slot) := by
  cases slot with
  | argument index =>
    have inside : index < values.length := fits
    rw [slotValue?, slotValue, List.getElem?_eq_getElem inside]
    rfl
  | default value => rfl

theorem resolveAt?_eq {params : List Parameter} {slots : List Slot}
    (fits : ∀ slot ∈ slots, slot.Fits values.length) :
    resolveAt? values params slots = some (resolveParams values params slots) := by
  induction params generalizing slots with
  | nil => rfl
  | cons p params ih =>
    cases slots with
    | nil => rfl
    | cons slot slots =>
      rw [resolveAt?, slotValue?_eq (fits slot List.mem_cons_self), Option.bind_eq_bind,
        Option.bind_some, resolveParams, ih fun slot mem => fits slot (.tail _ mem)]
      cases p.coerce? (slotValue values slot) with
      | none => rfl
      | some coerced => cases resolveParams values params slots <;> rfl

theorem argumentsAt?_eq (s : Signature) (inRange : ∀ entry ∈ labels, entry.2 < values.length) :
    s.argumentsAt? values labels = some (s.arguments values labels) := by
  unfold argumentsAt? arguments
  cases bound : s.bind values.length labels with
  | error e => rfl
  | ok slots => exact resolveAt?_eq (fits_of_bind inRange bound)

end Signature

namespace Function

/-- Runs a function on arguments bound to slots, with each index checked. -/
def runBoundAt? (f : Function) (name : String) (slots : List Slot) (values : List Value) :
    Option Value := do
  match ← Signature.resolveAt? values f.signature.params slots with
  | .ok arguments => return f.run arguments
  | .error reason => return .error (.typeMismatch name (.call reason))

/-- The candidates that accept the arguments, with each index checked. -/
def acceptingAt? (labels : Entries Nat) (values : List Value) :
    List Function → Option (List Function)
  | [] => some []
  | f :: candidates => do
    let arguments ← f.signature.argumentsAt? values labels
    let more ← acceptingAt? labels values candidates
    return if arguments.isOk then f :: more else more

/-- Runs the one candidate that accepts the arguments, with each index checked. -/
def runMatchingAt? (candidates : List Function) (name : String) (labels : Entries Nat)
    (values : List Value) : Option Value := do
  match ← acceptingAt? labels values candidates with
  | [f] =>
    match ← f.signature.argumentsAt? values labels with
    | .ok arguments => return f.run arguments
    | .error reason => return .error (.typeMismatch name (.call reason))
  | matching =>
    return .error (.typeMismatch name (.overloads (values.map Value.type?) matching.length))

variable {name : String} {labels : Entries Nat} {values : List Value}

theorem runBoundAt?_eq (f : Function) {slots : List Slot}
    (fits : ∀ slot ∈ slots, slot.Fits values.length) :
    f.runBoundAt? name slots values = some (f.runBound name slots values) := by
  unfold runBoundAt? runBound Signature.resolve
  rw [Signature.resolveAt?_eq fits, Option.bind_eq_bind, Option.bind_some]
  cases Signature.resolveParams values f.signature.params slots <;> rfl

theorem acceptingAt?_eq (candidates : List Function)
    (inRange : ∀ entry ∈ labels, entry.2 < values.length) :
    acceptingAt? labels values candidates =
      some (candidates.filter fun f => f.signature.accepts values labels) := by
  induction candidates with
  | nil => rfl
  | cons f candidates ih =>
    rw [acceptingAt?, Signature.argumentsAt?_eq _ inRange, ih, List.filter_cons]
    rfl

theorem runMatchingAt?_eq (candidates : List Function)
    (inRange : ∀ entry ∈ labels, entry.2 < values.length) :
    runMatchingAt? candidates name labels values =
      some (runMatching candidates name labels values) := by
  unfold runMatchingAt? runMatching
  rw [acceptingAt?_eq candidates inRange, Option.bind_eq_bind, Option.bind_some]
  generalize candidates.filter (fun f => f.signature.accepts values labels) = matching
  match matching with
  | [] => rfl
  | [f] =>
    dsimp only
    rw [Signature.argumentsAt?_eq _ inRange, Option.bind_eq_bind, Option.bind_some]
    cases f.signature.arguments values labels <;> rfl
  | _ :: _ :: _ => rfl

end Function

namespace Expr

mutual
/-- The slots of every call inside an expression, with the number of its arguments. -/
def calls : Expr → List (List Slot × Nat)
  | value _ | keyword _ | operator _ | var _ => []
  | unary _ e => e.calls
  | binary _ l r => l.calls ++ r.calls
  | conditional c t f => c.calls ++ t.calls ++ f.calls
  | sequence items => callsAll items
  | collection items => callsOf items
  | call _ _ _ slots args => (slots, args.length) :: callsOf args
  | overload _ _ _ args => callsOf args

def callsAll : List Expr → List (List Slot × Nat)
  | [] => []
  | e :: rest => e.calls ++ callsAll rest

def callsOf : List (Option String × Expr) → List (List Slot × Nat)
  | [] => []
  | (_, e) :: rest => e.calls ++ callsOf rest
end

/-- The slots of every call are among its arguments. -/
def CallsFit (e : Expr) : Prop := ∀ call ∈ e.calls, ∀ slot ∈ call.1, slot.Fits call.2

mutual
/-- The value of an expression, every index being checked: those of slots among the values of a
call, and those of labels among the values of a collection. -/
def evalAt? (env : Env) : Expr → Option Value
  | value data => some data
  | keyword word => some word.value
  | operator op => some (op.mismatch .missingOperand)
  | var v => some (env v)
  | unary op e => do
    match ← e.evalAt? env with
    | .error error => return .error error
    | operand => return op.applyUnary operand
  | binary op l r => do
    let left ← l.evalAt? env
    if op.wantsRight left then
      let right ← r.evalAt? env
      return op.withRight left right
    else return op.withoutRight left
  | conditional c t f => do
    match ← c.evalAt? env with
    | .error error => return .error error
    | condition => if condition.truthy then t.evalAt? env else f.evalAt? env
  | sequence _ => some (.error (.typeMismatch "表达式" .sequenceAsValue))
  | collection items => do
    match ← evalItemsAt? env items with
    | .error error => return .error error
    | .ok values => (Tuple.indexed items).gather? values
  | call name _ target slots args => do
    match ← evalItemsAt? env args with
    | .error error => return .error error
    | .ok values => target.runBoundAt? name slots values
  | overload name _ candidates args => do
    match ← evalItemsAt? env args with
    | .error error => return .error error
    | .ok values => Function.runMatchingAt? candidates name (Tuple.labels args) values

def evalItemsAt? (env : Env) :
    List (Option String × Expr) → Option (Except EvalError (List Value))
  | [] => some (.ok [])
  | (_, e) :: rest => do
    match ← e.evalAt? env with
    | .error error => return .error error
    | data =>
      match ← evalItemsAt? env rest with
      | .error error => return .error error
      | .ok values => return .ok (data :: values)
end

variable {env : Env}

/-- There are as many values as arguments. -/
theorem length_of_evalItems {items : List (Option String × Expr)} {values : List Value}
    (h : evalItems env items = .ok values) : values.length = items.length := by
  induction items generalizing values with
  | nil =>
    cases h
    rfl
  | cons item items ih =>
    obtain ⟨label, e⟩ := item
    rw [evalItems] at h
    split at h
    · cases h
    · split at h
      · cases h
      · rename_i more evaluated
        cases h
        rw [List.length_cons, List.length_cons, ih evaluated]

/-- The labels of arguments are in range of their values. -/
theorem labels_inRange {items : List (Option String × Expr)} {values : List Value}
    (h : evalItems env items = .ok values) :
    ∀ entry ∈ Tuple.labels items, entry.2 < values.length := by
  intro entry mem
  rw [length_of_evalItems h]
  exact (Tuple.of_mem_labels mem).1

mutual
/-- Where the slots of calls are among the arguments, evaluation finds a value at every index. -/
theorem evalAt?_eq (e : Expr) (fit : e.CallsFit) : e.evalAt? env = some (e.eval env) := by
  match e with
  | value _ | keyword _ | operator _ | var _ | sequence _ => rfl
  | unary op e =>
    have operand := evalAt?_eq e fit
    simp only [evalAt?, eval, operand, Option.bind_eq_bind, Option.bind_some]
    cases e.eval env <;> rfl
  | binary op l r =>
    have both := List.forall_mem_append.mp fit
    rw [evalAt?, evalAt?_eq l both.1, evalAt?_eq r both.2, eval_binary_eq, Option.bind_eq_bind,
      Option.bind_some]
    split <;> rfl
  | conditional c t f =>
    have all := List.forall_mem_append.mp fit
    have both := List.forall_mem_append.mp all.1
    simp only [evalAt?, eval, evalAt?_eq c both.1, evalAt?_eq t both.2,
      evalAt?_eq f all.2, Option.bind_eq_bind, Option.bind_some]
    cases c.eval env with
    | error error => rfl
    | _ => exact (apply_ite some _ _ _).symm
  | collection items =>
    have evaluated := evalItemsAt?_eq items fit
    simp only [evalAt?, eval, evaluated, Option.bind_eq_bind, Option.bind_some]
    cases found : evalItems env items with
    | error error => rfl
    | ok values => exact Tuple.gather?_eq (length_of_evalItems found)
  | call name method target slots args =>
    have both := List.forall_mem_cons.mp fit
    have evaluated := evalItemsAt?_eq args both.2
    simp only [evalAt?, eval, evaluated, Option.bind_eq_bind, Option.bind_some]
    cases found : evalItems env args with
    | error error => rfl
    | ok values =>
      have inside := both.1
      rw [← length_of_evalItems found] at inside
      exact target.runBoundAt?_eq inside
  | overload name method candidates args =>
    have evaluated := evalItemsAt?_eq args fit
    simp only [evalAt?, eval, evaluated, Option.bind_eq_bind, Option.bind_some]
    cases found : evalItems env args with
    | error error => rfl
    | ok values => exact Function.runMatchingAt?_eq candidates (labels_inRange found)

theorem evalItemsAt?_eq (items : List (Option String × Expr))
    (fit : ∀ call ∈ callsOf items, ∀ slot ∈ call.1, slot.Fits call.2) :
    evalItemsAt? env items = some (evalItems env items) := by
  match items with
  | [] => rfl
  | (label, e) :: rest =>
    have both := List.forall_mem_append.mp fit
    simp only [evalItemsAt?, evalItems, evalAt?_eq e both.1,
      evalItemsAt?_eq rest both.2, Option.bind_eq_bind, Option.bind_some]
    cases e.eval env with
    | error error => rfl
    | _ => cases evalItems env rest <;> rfl
end

end Expr

end Stencil
