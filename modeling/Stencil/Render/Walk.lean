import Stencil.Config
import Stencil.Context
import Stencil.Expr.Eval
import Stencil.Render.Output
import Stencil.Template.Basic

/-!
# Rendering

Rendering walks the tables of a template. Every scope (the body of a block, a definition or an
encoder tag, or a spliced template) has a frame for the locals and definitions made in it, which is
gone when the scope ends. Errors of evaluation do not stop the walk; they are gathered, and the
configuration decides in the end what becomes of them.

Tables refer forward only, and a definition is not evaluated below `maxScopeDepth` frames. So a walk
never has more frames than that limit and the number of tables together, and with that much room it
always ends.
-/

namespace Stencil

/-- The number of frames from which on no body of a definition is evaluated. -/
def maxScopeDepth : Nat := 256

/-- What a name is defined as. -/
inductive Definition
  | value (e : Expr)
  | body (table : Nat)

/-- The variables and definitions of a scope. -/
structure Frame where
  locals : Entries Value := []
  definitions : Entries Definition := []

/-- What a walk has brought about. -/
structure RenderState where
  output : Output := {}
  /-- The frames of the open scopes, the innermost first. -/
  frames : List Frame := []
  /-- The errors met, the last first. -/
  errors : List EvalError := []
  /-- A scope was met for which there was no room. -/
  exhausted : Bool := false

/-- What stays the same during a walk. -/
structure Rendering where
  template : Template
  context : Context
  config : Config

namespace RenderState

/-- Notes an error. -/
def record (s : RenderState) (e : EvalError) : RenderState := { s with errors := e :: s.errors }

/-- Changes the innermost frame. -/
def onTop (s : RenderState) (change : Frame → Frame) : RenderState :=
  match s.frames with
  | top :: outer => { s with frames := change top :: outer }
  | [] => s

/-- Sets a variable of the innermost frame. -/
def setLocal (s : RenderState) (name : String) (value : Value) : RenderState :=
  s.onTop fun top => { top with locals := top.locals.insert name value }

/-- Defines a name in the innermost frame. -/
def define (s : RenderState) (name : String) (definition : Definition) : RenderState :=
  s.onTop fun top => { top with definitions := top.definitions.insert name definition }

/-- The value of a local variable. -/
def local? (s : RenderState) (name : String) : Option Value :=
  s.frames.findSome? (·.locals.find? name)

/-- What a name is defined as. -/
def definition? (s : RenderState) (name : String) : Option Definition :=
  s.frames.findSome? (·.definitions.find? name)

/-- Writes a variable in the innermost frame that has it; tells whether there is one. -/
def assignIn (name : String) (value : Value) : List Frame → Option (List Frame)
  | [] => none
  | frame :: outer =>
    if frame.locals.has name then
      some ({ frame with locals := frame.locals.insert name value } :: outer)
    else (assignIn name value outer).map (frame :: ·)

/-- Writes a variable where it was declared. -/
def assign (s : RenderState) (name : String) (value : Value) : RenderState :=
  match assignIn name value s.frames with
  | some frames => { s with frames }
  | none => s.setLocal name value

/-- Opens a scope. -/
def openFrame (s : RenderState) (bindings : Bindings) : RenderState :=
  { s with frames := { locals := bindings } :: s.frames }

/-- Closes the innermost scope. -/
def closeFrame (s : RenderState) : RenderState := { s with frames := s.frames.tail }

/-- Writes raw text. -/
def writeRaw (s : RenderState) (text : String) : RenderState :=
  { s with output := s.output.writeRaw text }

end RenderState

namespace Rendering

/-- The values of variables: local ones first, then those of the context. -/
def env (r : Rendering) (s : RenderState) : Env := fun v =>
  let found := match v.scope, s.local? v.member with
    | none, some value => value.walk? v.path
    | _, _ => r.context.get? v
  match found with
  | some value => value
  | none => if r.config.strict then .error (.missingVariable v.text) else .nil

/-- The value of an expression. -/
def eval (r : Rendering) (s : RenderState) (e : Expr) : Value := e.eval (r.env s)

/-- A tag that stands on a line of its own leaves no blank line. -/
def trimLine (r : Rendering) (s : RenderState) : RenderState :=
  if r.config.trimBlockLines then { s with output := s.output.trimLine } else s

/-- Writes a value; an error is noted and nothing is written. -/
def writeValue (r : Rendering) (encoder : Encoder) (value : Value) (s : RenderState) :
    RenderState :=
  match value with
  | .error e => { s with output := s.output.markValue }.record e
  | value => { s with output := s.output.writeValue (r.config.formatters.format value) encoder }

/-- Declares a variable; in place of an error it is nil. -/
def declare (r : Rendering) (name : String) (value : Option Expr) (s : RenderState) : RenderState :=
  match value.map (r.eval s) with
  | none => s.setLocal name .nil
  | some (.error e) => (s.record e).setLocal name .nil
  | some value => s.setLocal name value

/-- The value that an assignment gives its variable. -/
def assigned (r : Rendering) (v : Variable) (op : Operator) (value : Expr) (s : RenderState) :
    Value :=
  match r.eval s value, op.compoundBase? with
  | .error e, _ => .error e
  | value, none => value
  | value, some base => base.apply (r.eval s (.var v)) value

/-- Assigns to a variable, unless the value is an error. -/
def assign (r : Rendering) (v : Variable) (op : Operator) (value : Expr) (s : RenderState) :
    RenderState :=
  match r.assigned v op value s with
  | .error e => s.record e
  | value => s.assign v.member value

/-- Runs the body of a block with a count of passes: now, and up to `left` times more. -/
def runCounted (body : Bindings → RenderState → RenderState) (behaviour : Behaviour) :
    (left : Nat) → Run → RenderState → RenderState
  | 0, run, s => body run.bindings s
  | left + 1, run, s =>
    let s := body run.bindings s
    match behaviour.again run run.entered with
    | (.discard, _) => s
    | (_, run) => runCounted body behaviour left run s

/-- Runs the body of a block without a count: now, and up to `left` times more as long as its
arguments, evaluated anew, let it. -/
def runIndefinite (r : Rendering) (body : Bindings → RenderState → RenderState) (name : String)
    (behaviour : Behaviour) (args : Tuple) : (left : Nat) → Run → RenderState → RenderState
  | 0, run, s => (body run.bindings s).record (.passLimit name r.config.maxLoopPasses)
  | left + 1, run, s =>
    let s := body run.bindings s
    match args.eval (r.env s) with
    | .error e => s.record e
    | .ok values =>
      match behaviour.again run values with
      | (.discard, _) => s
      | (_, run) => runIndefinite r body name behaviour args left run s

/-- Runs a block. Tells whether the chain of the block is settled: its body was run, or its
arguments had an error. -/
def runBlock (r : Rendering) (body : Bindings → RenderState → RenderState) (name : String)
    (behaviour : Behaviour) (args : Tuple) (s : RenderState) : Bool × RenderState :=
  match args.eval (r.env s) with
  | .error e => (true, s.record e)
  | .ok values =>
    match behaviour.enter {} values with
    | (.discard, _) => (false, s)
    | (.once, run) => (true, body run.bindings s)
    | (.repeating passes, run) => (true, runCounted body behaviour (passes - 1) run s)
    | (.indefinite, run) =>
      (true, r.runIndefinite body name behaviour args (r.config.maxLoopPasses - 1) run s)

/-- Puts out what a name is defined as, or the default. -/
def evaluate (r : Rendering) (scope : Nat → Encoder → Bindings → RenderState → RenderState)
    (encoder : Encoder) (name : String) (default : Option Expr) (s : RenderState) : RenderState :=
  match s.definition? name with
  | some (.value e) => r.writeValue encoder (r.eval s e) s
  | some (.body table) =>
    if maxScopeDepth ≤ s.frames.length then s.record (.passLimit name maxScopeDepth)
    else scope table encoder [] s
  | none => r.writeValue encoder ((default.map (r.eval s)).getD .nil) s

/-- Walks a node without a table of its own. A node that should have one and has not is passed over;
`scope` walks a table in a scope of its own. -/
def walkNode (r : Rendering) (scope : Nat → Encoder → Bindings → RenderState → RenderState)
    (encoder : Encoder) (node : Node) (s : RenderState) : RenderState :=
  match node with
  | .raw text => s.writeRaw text
  | .output e => r.writeValue encoder (r.eval s e) s
  | .declare name _ value => r.declare name value (r.trimLine s)
  | .assign v op value => r.assign v op value (r.trimLine s)
  | .define name (some value) => (r.trimLine s).define name (.value value)
  | .evaluate name default => r.evaluate scope encoder name default s
  | .block .. | .define _ none | .encode _ _ | .inline _ _ => r.trimLine s
  | .scope _ => s

/-- Walks the nodes of a table; `place` is the file of the place that was just met, and `settled`
tells that a link of the current chain was run. -/
def walkNodes (r : Rendering) (scope : Nat → Encoder → Bindings → RenderState → RenderState)
    (encoder : Encoder) : (place : Option String) → (settled : Bool) → List Node → RenderState →
    RenderState
  | _, _, [], s => s
  | place, settled, .block name chained behaviour args :: .scope (some body) :: rest, s =>
    let s := r.trimLine s
    if chained && settled then walkNodes r scope encoder place settled rest s
    else
      let (settled, s) := r.runBlock (scope body encoder) name behaviour args s
      walkNodes r scope encoder place settled rest s
  | place, settled, .define name none :: .scope (some body) :: rest, s =>
    walkNodes r scope encoder place settled rest ((r.trimLine s).define name (.body body))
  | place, settled, .encode _ inner :: .scope (some body) :: rest, s =>
    walkNodes r scope encoder place settled rest (scope body inner [] (r.trimLine s))
  | _, settled, .scope (some body) :: rest, s =>
    walkNodes r scope encoder none settled rest (scope body encoder [] s)
  | place, settled, .scope none :: rest, s =>
    walkNodes r scope encoder none settled rest (s.record (.unresolvedInline (place.getD "")))
  | place, settled, node :: rest, s =>
    let place := (node.place?.map Prod.fst).or place
    walkNodes r scope encoder place settled rest (r.walkNode scope encoder node s)

/-- Walks a table in a frame of its own. The line on which the scope ends is treated like that of a
tag. -/
def walkScope (r : Rendering) :
    (room : Nat) → (table : Nat) → Encoder → Bindings → RenderState → RenderState
  | 0, _, _, _, s => { s with exhausted := true }
  | room + 1, table, encoder, bindings, s =>
    let walked := walkNodes r (walkScope r room) encoder none false (r.template.table table)
      (s.openFrame bindings)
    r.trimLine walked.closeFrame

/-- The number of scopes that may be open inside each other, besides that of the template itself; a
walk of a parsed template never needs more. -/
def room (r : Rendering) : Nat := maxScopeDepth + r.template.tables.length - 1

/-- Walks the whole template. -/
def walk (r : Rendering) (encoder : Encoder) : RenderState :=
  walkNodes r (r.walkScope r.room) encoder none false (r.template.table 0)
    (RenderState.openFrame {} [])

/-- The error that makes a rendering fail: in strict mode the first variable without value,
otherwise the first error at all, where errors are fatal. -/
def fatal? (r : Rendering) (s : RenderState) : Option EvalError :=
  let errors := s.errors.reverse
  let missing := errors.find? fun e => match e with
    | .missingVariable _ => true
    | _ => false
  match r.config.strict, missing with
  | true, some e => some e
  | _, _ => if r.config.errorsAreFatal then errors.head? else none

/-- Renders the template, its values written by an encoder. -/
def render (r : Rendering) (encoder : Encoder) : Except EvalError String :=
  let s := r.walk encoder
  if s.exhausted then .error (.passLimit r.template.name r.room)
  else
    match r.fatal? s with
    | some e => .error e
    | none => .ok s.output.text

end Rendering

end Stencil
