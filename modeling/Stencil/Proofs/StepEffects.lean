import Stencil.Proofs.Coverage
import Stencil.Proofs.CursorWalk

/-!
# What a step does to the frames

Everything that one step of a rendering can do to the cursors and to the frames, with the node it
does it at: go on, declare, assign or define, open a scope, walk a table once more, or end a scope.
What is true of frames throughout a rendering is proved from this, without the functions that make
the step.
-/

namespace Stencil

namespace RenderState

variable {s s' : RenderState}

theorem frames_onTop (s : RenderState) (change : Frame → Frame) :
    (s.onTop change).frames =
      match s.frames with
      | top :: outer => change top :: outer
      | [] => [] := by
  unfold onTop
  cases frames : s.frames with
  | nil => exact frames
  | cons top outer => rfl

/-- Changes of frames depend on the frames alone. -/
theorem frames_onTop_congr (same : s'.frames = s.frames) (change : Frame → Frame) :
    (s'.onTop change).frames = (s.onTop change).frames := by
  rw [frames_onTop, frames_onTop, same]

theorem frames_assign_congr (same : s'.frames = s.frames) (name : String) (value : Value) :
    (s'.assign name value).frames = (s.assign name value).frames := by
  unfold assign
  rw [same]
  split
  · rfl
  · exact frames_onTop_congr same _

end RenderState

theorem Rendering.frames_writeValue (r : Rendering) (encoder : Encoder) (value : Value)
    (s : RenderState) : (r.writeValue encoder value s).frames = s.frames := by
  unfold writeValue
  split <;> rfl

namespace Machine

/-- The first of the remaining nodes is no scope that the node before binds names for. -/
def Apart (before : Option Node) (rest : List Node) : Prop :=
  ∀ body more, rest = .scope (some body) :: more → ∀ name, ¬Node.Binds before name

/-- What a step with this cursor innermost comes to. -/
inductive Acts (r : Rendering) (cursor : TableCursor) (outer : List TableCursor)
    (s : RenderState) : Machine → Prop
  /-- Nodes are passed that change no frame. -/
  | on (front : List Node) {rest : List Node} {place : Option String} {settled : Bool}
      {s' : RenderState}
      (past : cursor.rest = front ++ rest) (nothing : ∀ node ∈ front, node.declares = [])
      (apart : Apart front.getLast? rest) (frames : s'.frames = s.frames) :
      Acts r cursor outer s ⟨{ cursor with rest, place, settled } :: outer, s'⟩
  | declare {name : String} {constant : Bool} {value : Option Expr} {rest : List Node}
      {place : Option String} {s' : RenderState}
      (here : cursor.rest = .declare name constant value :: rest) (x : Value)
      (frames : s'.frames = (s.setLocal name x).frames) :
      Acts r cursor outer s ⟨{ cursor with rest, place } :: outer, s'⟩
  | assign {v : Variable} {op : Operator} {value : Expr} {rest : List Node}
      {place : Option String} {s' : RenderState}
      (here : cursor.rest = .assign v op value :: rest) (x : Value)
      (frames : s'.frames = (s.assign v.member x).frames) :
      Acts r cursor outer s ⟨{ cursor with rest, place } :: outer, s'⟩
  | defineValue {name : String} {e : Expr} {rest : List Node} {place : Option String}
      {s' : RenderState} (here : cursor.rest = .define name (some e) :: rest)
      (frames : s'.frames = (s.define name (.value e)).frames) :
      Acts r cursor outer s ⟨{ cursor with rest, place } :: outer, s'⟩
  | defineBody {name : String} {body : Nat} {rest : List Node} {s' : RenderState}
      (here : cursor.rest = .define name none :: .scope (some body) :: rest)
      (frames : s'.frames = (s.define name (.body body)).frames) :
      Acts r cursor outer s ⟨{ cursor with rest } :: outer, s'⟩
  /-- The body of a block is entered. -/
  | block {name : String} {chained : Bool} {behaviour : Behaviour} {args : Tuple} {body : Nat}
      {rest : List Node} {mode : PassMode} {values : List Value} {s' : RenderState}
      (here : cursor.rest = .block name chained behaviour args :: .scope (some body) :: rest)
      (runs : (behaviour.enter {} values).1 ≠ .discard) (frames : s'.frames = s.frames) :
      Acts r cursor outer s (enter r body cursor.encoder (behaviour.enter {} values).2.bindings
        (some ⟨name, behaviour, args, (behaviour.enter {} values).2, mode⟩)
        ({ cursor with rest, settled := true } :: outer) s')
  | encode {handler : String} {inner : Encoder} {body : Nat} {rest : List Node} {s' : RenderState}
      (here : cursor.rest = .encode handler inner :: .scope (some body) :: rest)
      (frames : s'.frames = s.frames) :
      Acts r cursor outer s (enter r body inner [] none ({ cursor with rest } :: outer) s')
  /-- A filled place is entered. -/
  | place {body : Nat} {rest : List Node} (here : cursor.rest = .scope (some body) :: rest) :
      Acts r cursor outer s
        (enter r body cursor.encoder [] none ({ cursor with rest, place := none } :: outer) s)
  /-- The body of a definition is entered. -/
  | jump {name : String} {default : Option Expr} {body : Nat} {rest : List Node}
      {place : Option String} (here : cursor.rest = .evaluate name default :: rest)
      (defined : s.definition? name = some (.body body)) :
      Acts r cursor outer s
        (enter r body cursor.encoder [] none ({ cursor with rest, place } :: outer) s)
  /-- The table is walked in another pass. -/
  | again {pass : Pass} {mode : PassMode} {values : List Value} {s' : RenderState}
      (ended : cursor.rest = []) (inPass : cursor.pass = some pass)
      (runs : (pass.behaviour.again pass.run values).1 ≠ .discard)
      (frames : s'.frames = s.frames.tail) :
      Acts r cursor outer s (enter r cursor.table cursor.encoder
        (pass.behaviour.again pass.run values).2.bindings
        (some { pass with run := (pass.behaviour.again pass.run values).2, mode }) outer s')
  /-- The scope ends. -/
  | out {s' : RenderState} (ended : cursor.rest = []) (frames : s'.frames = s.frames.tail) :
      Acts r cursor outer s ⟨outer, s'⟩

namespace Acts

variable {r : Rendering} {cursor : TableCursor} {outer : List TableCursor} {s : RenderState}

theorem of_leave (ended : cursor.rest = []) {s' : RenderState}
    (frames : s'.frames = s.frames.tail) :
    Acts r cursor outer s (leave r cursor.table cursor.encoder cursor.pass outer s') := by
  have again {pass : Pass} (inPass : cursor.pass = some pass) (mode : PassMode)
      (values : List Value) :
      Acts r cursor outer s
        (Machine.again r cursor.table cursor.encoder pass mode values outer s') := by
    unfold Machine.again
    split
    · exact .out ended frames
    · rename_i verdict run differs decided
      have runs : (pass.behaviour.again pass.run values).1 ≠ .discard := by
        intro discards
        rw [decided] at discards
        exact differs discards
      have acts : Acts r cursor outer s (enter r cursor.table cursor.encoder
          (pass.behaviour.again pass.run values).2.bindings
          (some { pass with run := (pass.behaviour.again pass.run values).2, mode }) outer s') :=
        .again ended inPass runs frames
      rw [decided] at acts
      exact acts
  unfold Machine.leave
  split
  · exact .out ended frames
  · rename_i pass inPass
    split
    · exact .out ended frames
    · exact .out ended frames
    · exact again inPass _ _
    · exact .out ended frames
    · split
      · exact .out ended frames
      · exact again inPass _ _

theorem of_close (ended : cursor.rest = []) : Acts r cursor outer s (close r cursor outer s) := by
  unfold Machine.close
  split
  · rename_i last
    rw [List.isEmpty_iff.mp last]
    exact .out ended rfl
  · exact of_leave ended r.frames_trimLine

theorem of_runBlock {name : String} {chained : Bool} {behaviour : Behaviour} {args : Tuple}
    {body : Nat} {rest : List Node}
    (here : cursor.rest = .block name chained behaviour args :: .scope (some body) :: rest)
    {s' : RenderState} (frames : s'.frames = s.frames) :
    Acts r cursor outer s (runBlock r body name behaviour args { cursor with rest } outer s') := by
  have past (settled : Bool) {s'' : RenderState} (same : s''.frames = s.frames) :
      Acts r cursor outer s ⟨{ cursor with rest, settled } :: outer, s''⟩ :=
    .on [_, _] here (by simp [Node.declares]) (fun _ _ _ _ => id) same
  unfold Machine.runBlock
  split
  · exact past true frames
  · rename_i values _
    split
    · exact past false frames
    · rename_i verdict run differs entered
      have runs : (behaviour.enter {} values).1 ≠ .discard := by
        intro discards
        rw [entered] at discards
        exact differs discards
      have acts : Acts r cursor outer s (enter r body cursor.encoder
          (behaviour.enter {} values).2.bindings
          (some ⟨name, behaviour, args, (behaviour.enter {} values).2,
            PassMode.ofVerdict r.config.maxLoopPasses verdict⟩)
          ({ cursor with rest, settled := true } :: outer) s') := .block here runs frames
      rw [entered] at acts
      exact acts

/-- A node that opens no scope is walked. -/
theorem of_walkNode {node : Node} {rest : List Node} {place : Option String}
    (here : cursor.rest = node :: rest) (apart : Apart (some node) rest) (encoder : Encoder) :
    Acts r cursor outer s ⟨{ cursor with rest, place } :: outer,
      r.walkNode (fun _ _ _ s => s) encoder node s⟩ := by
  have past {s' : RenderState} (nothing : node.declares = []) (same : s'.frames = s.frames) :
      Acts r cursor outer s ⟨{ cursor with rest, place } :: outer, s'⟩ := by
    refine .on [node] here (fun other mem => ?_) apart same
    rw [List.mem_singleton.mp mem]
    exact nothing
  have trimmed : (r.trimLine s).frames = s.frames := r.frames_trimLine
  cases node with
  | raw text => exact past rfl rfl
  | output e => exact past rfl (r.frames_writeValue _ _ _)
  | declare name constant value =>
    have declared (x : Value) {s' : RenderState} (same : s'.frames = s.frames) :
        Acts r cursor outer s ⟨{ cursor with rest, place } :: outer, s'.setLocal name x⟩ :=
      .declare here x (RenderState.frames_onTop_congr same _)
    simp only [Rendering.walkNode, Rendering.declare]
    split
    · exact declared _ trimmed
    · exact @declared _ ((r.trimLine s).record _) trimmed
    · exact declared _ trimmed
  | assign v op value =>
    simp only [Rendering.walkNode, Rendering.assign]
    split
    · exact past rfl trimmed
    · exact .assign here _ (RenderState.frames_assign_congr trimmed _ _)
  | define name value =>
    cases value with
    | none => exact past rfl trimmed
    | some e => exact .defineValue here (RenderState.frames_onTop_congr trimmed _)
  | evaluate name default =>
    refine past rfl ?_
    simp only [Rendering.walkNode, Rendering.evaluate]
    split
    · exact r.frames_writeValue _ _ _
    · split <;> rfl
    · exact r.frames_writeValue _ _ _
  | block | encode | inline => exact past rfl trimmed
  | scope => exact past rfl rfl

end Acts

theorem exists_of_bodyOf? {s : RenderState} {node : Node} {body : Nat}
    (h : bodyOf? s node = some body) :
    ∃ name default, node = .evaluate name default ∧ s.definition? name = some (.body body) := by
  unfold bodyOf? at h
  split at h
  · rename_i name default
    split at h
    · rename_i table found
      split at h
      · cases h
      · cases h
        exact ⟨name, default, rfl, found⟩
    · cases h
  · cases h

variable {r : Rendering}

theorem acts_advance (cursor : TableCursor) (outer : List TableCursor) (s : RenderState) :
    Acts r cursor outer s (advance r cursor outer s) := by
  have trimmed : (r.trimLine s).frames = s.frames := r.frames_trimLine
  unfold advance
  split
  · rename_i ended
    exact .of_close ended
  · rename_i name chained behaviour args body rest here
    split
    · exact .on [_, _] here (by simp [Node.declares]) (fun _ _ _ _ => id) trimmed
    · exact .of_runBlock here trimmed
  · rename_i name body rest here
    exact .defineBody here (RenderState.frames_onTop_congr trimmed _)
  · rename_i handler inner body rest here
    exact .encode here trimmed
  · rename_i body rest here
    exact .place here
  · rename_i rest here
    exact .on [_] here (by simp [Node.declares]) (fun _ _ _ _ => id) rfl
  · rename_i node rest notBlock notDefine notEncode notScope notEmpty here
    dsimp only
    split
    · rename_i body found
      obtain ⟨name, default, rfl, defined⟩ := exists_of_bodyOf? found
      exact .jump here defined
    · refine .of_walkNode here ?_ _
      rintro body more rfl name
      cases node with
      | block tag chained behaviour args =>
        exact (notBlock tag chained behaviour args body more rfl rfl).elim
      | _ => exact id

/-- Each step acts on its innermost cursor. -/
theorem acts_of_step {m m' : Machine} (step : step r m = some m') :
    ∃ cursor outer s, m = ⟨cursor :: outer, s⟩ ∧ Acts r cursor outer s m' := by
  obtain ⟨cursors, s⟩ := m
  cases cursors with
  | nil => cases step
  | cons cursor outer =>
    cases step
    exact ⟨cursor, outer, s, rfl, acts_advance cursor outer s⟩

end Machine

end Stencil
