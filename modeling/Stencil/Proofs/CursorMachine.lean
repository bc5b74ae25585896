import Mathlib.Logic.Relation
import Stencil.Render.Walk

/-!
# Rendering step by step

A rendering as a machine: a stack of cursors into tables, the innermost first, over the state of the
walk. One step takes a node, or ends a scope and decides about another pass. `Machine.reaches_walk`
says that the machine comes to what the recursive walk computes.
-/

namespace Stencil

/-- How passes over the body of a block go on: not at all, as long as the block wants but at most so
many times, or that with the arguments evaluated anew. -/
inductive PassMode
  | once
  | counted (left : Nat)
  | indefinite (left : Nat)

/-- A pass over the body of a block. -/
structure Pass where
  name : String
  behaviour : Behaviour
  args : Tuple
  run : Run
  mode : PassMode

/-- A scope that is walked: what is left of its table, and the pass it belongs to. -/
structure TableCursor where
  table : Nat
  rest : List Node
  encoder : Encoder
  place : Option String := none
  settled : Bool := false
  pass : Option Pass := none

/-- The scopes that are walked, the innermost first, and the state. -/
structure Machine where
  cursors : List TableCursor
  state : RenderState

namespace PassMode

/-- How passes go on after a verdict on the first, a loop without a count being limited. -/
def ofVerdict (limit : Nat) : Verdict → PassMode
  | .repeating passes => counted (passes - 1)
  | .indefinite => indefinite (limit - 1)
  | _ => once

end PassMode

namespace Machine

variable (r : Rendering)

/-- Opens a scope. -/
def enter (table : Nat) (encoder : Encoder) (bindings : Bindings) (pass : Option Pass)
    (outer : List TableCursor) (s : RenderState) : Machine :=
  ⟨{ table, rest := r.template.table table, encoder, pass } :: outer, s.openFrame bindings⟩

/-- Goes on with another pass, unless the block discards it. -/
def again (table : Nat) (encoder : Encoder) (pass : Pass) (mode : PassMode) (values : List Value)
    (outer : List TableCursor) (s : RenderState) : Machine :=
  match pass.behaviour.again pass.run values with
  | (.discard, _) => ⟨outer, s⟩
  | (_, run) => enter r table encoder run.bindings (some { pass with run, mode }) outer s

/-- What follows a scope: more passes over its table, if it was walked in a pass. -/
def leave (table : Nat) (encoder : Encoder) (pass : Option Pass) (outer : List TableCursor)
    (s : RenderState) : Machine :=
  match pass with
  | none => ⟨outer, s⟩
  | some pass =>
    match pass.mode with
    | .once | .counted 0 => ⟨outer, s⟩
    | .counted (left + 1) => again r table encoder pass (.counted left) pass.run.entered outer s
    | .indefinite 0 => ⟨outer, s.record (.passLimit pass.name r.config.maxLoopPasses)⟩
    | .indefinite (left + 1) =>
      match pass.args.eval (r.env s) with
      | .error e => ⟨outer, s.record e⟩
      | .ok values => again r table encoder pass (.indefinite left) values outer s

/-- Ends a scope; the walk ends with the outermost. -/
def close (cursor : TableCursor) (outer : List TableCursor) (s : RenderState) : Machine :=
  if outer.isEmpty then ⟨[], s.closeFrame⟩
  else leave r cursor.table cursor.encoder cursor.pass outer (r.trimLine s.closeFrame)

/-- Runs a block behind whose scope the cursor stands. -/
def runBlock (body : Nat) (name : String) (behaviour : Behaviour) (args : Tuple)
    (cursor : TableCursor) (outer : List TableCursor) (s : RenderState) : Machine :=
  match args.eval (r.env s) with
  | .error e => ⟨{ cursor with settled := true } :: outer, s.record e⟩
  | .ok values =>
    match behaviour.enter {} values with
    | (.discard, _) => ⟨{ cursor with settled := false } :: outer, s⟩
    | (verdict, run) =>
      let mode := PassMode.ofVerdict r.config.maxLoopPasses verdict
      enter r body cursor.encoder run.bindings (some ⟨name, behaviour, args, run, mode⟩)
        ({ cursor with settled := true } :: outer) s

/-- The table of a definition that a node puts out, unless too many scopes are open. -/
def bodyOf? (s : RenderState) : Node → Option Nat
  | .evaluate name _ =>
    match s.definition? name with
    | some (.body table) => if maxScopeDepth ≤ s.frames.length then none else some table
    | _ => none
  | _ => none

/-- Takes the next nodes of a cursor. -/
def advance (cursor : TableCursor) (outer : List TableCursor) (s : RenderState) : Machine :=
  match cursor.rest with
  | [] => close r cursor outer s
  | .block name chained behaviour args :: .scope (some body) :: rest =>
    if chained && cursor.settled then ⟨{ cursor with rest } :: outer, r.trimLine s⟩
    else runBlock r body name behaviour args { cursor with rest } outer (r.trimLine s)
  | .define name none :: .scope (some body) :: rest =>
    ⟨{ cursor with rest } :: outer, (r.trimLine s).define name (.body body)⟩
  | .encode _ inner :: .scope (some body) :: rest =>
    enter r body inner [] none ({ cursor with rest } :: outer) (r.trimLine s)
  | .scope (some body) :: rest =>
    enter r body cursor.encoder [] none ({ cursor with rest, place := none } :: outer) s
  | .scope none :: rest =>
    ⟨{ cursor with rest, place := none } :: outer,
      s.record (.unresolvedInline (cursor.place.getD ""))⟩
  | node :: rest =>
    let cursor := { cursor with rest, place := (node.place?.map Prod.fst).or cursor.place }
    match bodyOf? s node with
    | some body => enter r body cursor.encoder [] none (cursor :: outer) s
    | none => ⟨cursor :: outer, r.walkNode (fun _ _ _ s => s) cursor.encoder node s⟩

/-- One step, as long as a scope is open. -/
def step (m : Machine) : Option Machine :=
  match m.cursors with
  | [] => none
  | cursor :: outer => some (advance r cursor outer m.state)

/-- Where a rendering starts. -/
def start (encoder : Encoder) : Machine := enter r 0 encoder [] none [] {}

/-- A machine comes to another. -/
def Reaches : Machine → Machine → Prop := Relation.ReflTransGen fun m m' => step r m = some m'

end Machine

/-- The number of frames is kept, and whether a scope found no room. -/
def RenderState.Quiet (s s' : RenderState) : Prop :=
  s'.frames.length = s.frames.length ∧ s'.exhausted = s.exhausted

namespace RenderState

variable {s : RenderState}

theorem quiet_onTop (change : Frame → Frame) : s.Quiet (s.onTop change) := by
  unfold onTop Quiet
  split
  · rename_i frames
    simp [frames]
  · exact ⟨rfl, rfl⟩

theorem errors_onTop (change : Frame → Frame) : (s.onTop change).errors = s.errors := by
  unfold onTop
  split <;> rfl

theorem length_of_assignIn {name : String} {value : Value} {frames frames' : List Frame}
    (h : assignIn name value frames = some frames') : frames'.length = frames.length := by
  induction frames generalizing frames' with
  | nil => cases h
  | cons frame outer ih =>
    simp only [assignIn] at h
    split at h
    · cases h
      rfl
    · obtain ⟨more, made, rfl⟩ := Option.map_eq_some_iff.mp h
      simp [ih made]

theorem quiet_assign (name : String) (value : Value) : s.Quiet (s.assign name value) := by
  unfold assign
  split
  · rename_i frames made
    exact ⟨length_of_assignIn made, rfl⟩
  · exact quiet_onTop _

end RenderState

namespace Rendering

variable (r : Rendering) {s : RenderState}

theorem frames_trimLine : (r.trimLine s).frames = s.frames := by
  unfold trimLine
  split <;> rfl

theorem quiet_trimLine : s.Quiet (r.trimLine s) := by
  unfold trimLine
  split <;> exact ⟨rfl, rfl⟩

theorem quiet_writeValue (encoder : Encoder) (value : Value) :
    s.Quiet (r.writeValue encoder value s) := by
  unfold writeValue
  split <;> exact ⟨rfl, rfl⟩

theorem quiet_declare (name : String) (value : Option Expr) :
    s.Quiet (r.declare name value s) := by
  unfold declare
  split
  · exact RenderState.quiet_onTop _
  · exact RenderState.quiet_onTop (s := s.record _) _
  · exact RenderState.quiet_onTop _

theorem quiet_assign (v : Variable) (op : Operator) (value : Expr) :
    s.Quiet (r.assign v op value s) := by
  unfold assign
  split
  · exact ⟨rfl, rfl⟩
  · exact RenderState.quiet_assign _ _

/-- A node that opens no scope opens no frame. -/
theorem quiet_walkNode (encoder : Encoder) (node : Node) :
    s.Quiet (r.walkNode (fun _ _ _ s => s) encoder node s) := by
  have trimmed : s.Quiet (r.trimLine s) := r.quiet_trimLine
  have behind {s' : RenderState} (h : (r.trimLine s).Quiet s') : s.Quiet s' :=
    ⟨h.1.trans trimmed.1, h.2.trans trimmed.2⟩
  unfold walkNode
  split
  · exact ⟨rfl, rfl⟩
  · exact r.quiet_writeValue _ _
  · exact behind (r.quiet_declare _ _)
  · exact behind (r.quiet_assign _ _ _)
  · exact behind (RenderState.quiet_onTop _)
  · unfold evaluate
    split
    · exact r.quiet_writeValue _ _
    · split <;> exact ⟨rfl, rfl⟩
    · exact r.quiet_writeValue _ _
  all_goals first | exact trimmed | exact ⟨rfl, rfl⟩

/-- Only a definition with a body makes a node open a scope. -/
theorem walkNode_eq (scope : Nat → Encoder → Bindings → RenderState → RenderState)
    (encoder : Encoder) (node : Node) (s : RenderState) : r.walkNode scope encoder node s =
      match Machine.bodyOf? s node with
      | some body => scope body encoder [] s
      | none => r.walkNode (fun _ _ _ s => s) encoder node s := by
  cases node with
  | evaluate name default =>
    simp only [walkNode, evaluate, Machine.bodyOf?]
    cases s.definition? name with
    | none => rfl
    | some definition =>
      cases definition with
      | value e => rfl
      | body table =>
        by_cases deep : maxScopeDepth ≤ s.frames.length
        · simp only [if_pos deep]
        · simp only [if_neg deep]
  | define name value => cases value <;> rfl
  | _ => rfl

end Rendering

end Stencil
