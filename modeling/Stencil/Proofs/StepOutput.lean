import Stencil.Proofs.OutputMarks
import Stencil.Proofs.StepEffects

/-!
# The output of a step

A step writes at most one piece: the text of a raw node, or the text of a value with the encoder of
its scope. What an output has to do with the pieces written is a relation that every way of writing
keeps (`Rendering.Logs`); then every step keeps it, with the piece that the step writes.
-/

namespace Stencil

namespace Rendering

/-- The piece that a value is written as. An error is noted and not written. -/
def valuePiece? (r : Rendering) (encoder : Encoder) : Value → Option Piece
  | .error _ => none
  | value => some (.value (r.config.formatters.format value) encoder)

/-- The piece that a node without a table of its own writes. -/
def nodePiece? (r : Rendering) (encoder : Encoder) (s : RenderState) : Node → Option Piece
  | .raw text => some (.raw text)
  | .output e => r.valuePiece? encoder (r.eval s e)
  | .evaluate name default =>
    match s.definition? name with
    | some (.value e) => r.valuePiece? encoder (r.eval s e)
    | some (.body _) => none
    | none => r.valuePiece? encoder ((default.map (r.eval s)).getD .nil)
  | _ => none

/-- A relation between two outputs and the pieces written between them, kept by every way of
writing. -/
structure Logs (r : Rendering) (R : Output → List Piece → Output → Prop) : Prop where
  nothing (o : Output) : R o [] o
  raw (o : Output) (text : String) : R o [.raw text] (o.writeRaw text)
  value (o : Output) (text : String) (encoder : Encoder) :
    R o [.value text encoder] (o.writeValue text encoder)
  mark (o : Output) : R o [] o.markValue
  trim (s : RenderState) : R s.output [] (r.trimLine s).output
  trans {o o' o'' : Output} {written more : List Piece} (first : R o written o')
    (second : R o' more o'') : R o (written ++ more) o''

theorem output_onTop (s : RenderState) (change : Frame → Frame) :
    (s.onTop change).output = s.output := by
  unfold RenderState.onTop
  split <;> rfl

theorem output_declare (r : Rendering) (name : String) (value : Option Expr) (s : RenderState) :
    (r.declare name value s).output = s.output := by
  unfold declare
  split
  · exact output_onTop _ _
  · exact output_onTop (s.record _) _
  · exact output_onTop _ _

theorem output_assign (r : Rendering) (v : Variable) (op : Operator) (value : Expr)
    (s : RenderState) : (r.assign v op value s).output = s.output := by
  unfold assign
  split
  · rfl
  · unfold RenderState.assign
    split
    · rfl
    · exact output_onTop _ _

namespace Logs

variable {r : Rendering} {R : Output → List Piece → Output → Prop} (logs : r.Logs R)
  {s : RenderState}
include logs

/-- What does not change the output writes nothing. -/
theorem same {o o' : Output} (eq : o' = o) : R o [] o' := by
  rw [eq]
  exact logs.nothing o

/-- What happens behind the end of a line that is trimmed. -/
theorem trimmed {o : Output} {written : List Piece} (behind : R (r.trimLine s).output written o) :
    R s.output written o := by
  have both := logs.trans (logs.trim s) behind
  rwa [List.nil_append] at both

theorem writeValue (encoder : Encoder) (value : Value) :
    R s.output (r.valuePiece? encoder value).toList (r.writeValue encoder value s).output := by
  cases value with
  | error e => exact logs.mark s.output
  | _ => exact logs.value s.output _ encoder

/-- A node without a table of its own. -/
theorem walkNode (encoder : Encoder) (node : Node) :
    R s.output (r.nodePiece? encoder s node).toList
      (r.walkNode (fun _ _ _ s => s) encoder node s).output := by
  cases node with
  | raw text => exact logs.raw s.output text
  | output e => exact logs.writeValue encoder _
  | declare name constant value => exact logs.trimmed (logs.same (r.output_declare name value _))
  | assign v op value => exact logs.trimmed (logs.same (r.output_assign v op value _))
  | define name value =>
    cases value with
    | none => exact logs.trim s
    | some e => exact logs.trimmed (logs.same (output_onTop _ _))
  | evaluate name default =>
    rw [Rendering.walkNode, evaluate, nodePiece?]
    cases s.definition? name with
    | none => exact logs.writeValue encoder _
    | some definition =>
      cases definition with
      | value e => exact logs.writeValue encoder _
      | body table =>
        dsimp only
        split <;> exact logs.nothing _
  | scope => exact logs.nothing _
  | _ => exact logs.trim s

end Logs

/-- A rendering that succeeds gives what has been written. -/
theorem text_of_render {r : Rendering} {encoder : Encoder} {text : String}
    (done : r.render encoder = .ok text) : text = (r.walk encoder).output.text := by
  unfold render at done
  dsimp only at done
  split at done
  · cases done
  · split at done
    · cases done
    · cases done
      rfl

end Rendering

namespace Machine

variable {r : Rendering}

/-- The piece that the next step writes, values with a given encoder. -/
def stepPiece? (r : Rendering) (encoder : Encoder) (m : Machine) : Option Piece :=
  match m.cursors with
  | [] => none
  | cursor :: _ => cursor.rest.head?.bind (r.nodePiece? encoder m.state)

section Scopes

variable {table : Nat} {encoder : Encoder} {outer : List TableCursor} {s : RenderState}

theorem output_again (pass : Pass) (mode : PassMode) (values : List Value) :
    (again r table encoder pass mode values outer s).state.output = s.output := by
  unfold again
  split <;> rfl

theorem output_leave (pass : Option Pass) :
    (leave r table encoder pass outer s).state.output = s.output := by
  unfold leave
  split
  · rfl
  · split
    · rfl
    · rfl
    · exact output_again _ _ _
    · rfl
    · split
      · rfl
      · exact output_again _ _ _

theorem output_runBlock (name : String) (behaviour : Behaviour) (args : Tuple)
    (cursor : TableCursor) :
    (runBlock r table name behaviour args cursor outer s).state.output = s.output := by
  unfold runBlock
  split
  · rfl
  · split <;> rfl

end Scopes

section Logs

variable {R : Output → List Piece → Output → Prop} (logs : r.Logs R)
include logs

theorem logs_close (cursor : TableCursor) (outer : List TableCursor) (s : RenderState) :
    R s.output [] (close r cursor outer s).state.output := by
  unfold close
  split
  · exact logs.nothing _
  · rw [output_leave]
    exact logs.trim s.closeFrame

/-- A step writes its piece, with the encoder of the innermost cursor. -/
theorem logs_advance (cursor : TableCursor) (outer : List TableCursor) (s : RenderState) :
    R s.output (stepPiece? r cursor.encoder ⟨cursor :: outer, s⟩).toList
      (advance r cursor outer s).state.output := by
  have first {node : Node} {rest : List Node} (front : cursor.rest = node :: rest) :
      stepPiece? r cursor.encoder ⟨cursor :: outer, s⟩ = r.nodePiece? cursor.encoder s node := by
    simp only [stepPiece?, front]
    rfl
  unfold advance
  split
  · rename_i ended
    have nothing : stepPiece? r cursor.encoder ⟨cursor :: outer, s⟩ = none := by
      simp only [stepPiece?, ended]
      rfl
    rw [nothing]
    exact logs_close logs cursor outer s
  · rename_i name chained behaviour args body rest front
    rw [first front]
    split
    · exact logs.trim s
    · exact logs.trimmed (logs.same (output_runBlock name behaviour args _))
  · rename_i name body rest front
    rw [first front]
    exact logs.trimmed (logs.same (Rendering.output_onTop _ _))
  · rename_i handler inner body rest front
    rw [first front]
    exact logs.trim s
  · rename_i body rest front
    rw [first front]
    exact logs.nothing _
  · rename_i rest front
    rw [first front]
    exact logs.nothing _
  · rename_i node rest notBlock notDefine notEncode notScope notEmpty front
    rw [first front]
    dsimp only
    split
    · rename_i body found
      obtain ⟨name, default, rfl, defined⟩ := exists_of_bodyOf? found
      have nothing : r.nodePiece? cursor.encoder s (.evaluate name default) = none := by
        rw [Rendering.nodePiece?, defined]
      rw [nothing]
      exact logs.nothing _
    · exact logs.walkNode cursor.encoder node

end Logs

end Machine

end Stencil
