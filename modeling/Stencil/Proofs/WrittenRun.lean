import Stencil.Proofs.ChainWalk
import Stencil.Proofs.StepOutput

/-!
# What a run writes

Where no lines are trimmed, every step of a rendering appends to what is written before: a node of
raw text its text, a node that puts out an expression the text of its value, and any other node
nothing. So the output of a rendering is what its steps write, one after the other.
-/

namespace Stencil

namespace Output

variable {o : Output}

theorem text_writeRaw (whole : o.dropBlankLine = false) (text : String) :
    (o.writeRaw text).text = o.text ++ text := by
  rw [← String.toList_inj, String.toList_append, toList_text, toList_text, marked_writeRaw,
    undropped, whole, if_neg Bool.false_ne_true, List.map_append, Origin.map_fst_mark]

theorem text_markValue (o : Output) : o.markValue.text = o.text := by
  rw [← String.toList_inj, toList_text, toList_text, marked_markValue]

theorem text_writeValue (o : Output) (text : String) (encoder : Encoder) :
    (o.writeValue text encoder).text = o.text ++ encoder text := by
  rw [← String.toList_inj, String.toList_append, toList_text, toList_text, marked_writeValue,
    List.map_append, Origin.map_fst_mark]

/-- An output goes on with a text, with no line to be dropped before or after. -/
structure Appends (o : Output) (text : String) (o' : Output) : Prop where
  text : o'.text = o.text ++ text
  whole : o'.dropBlankLine = false

theorem Appends.nothing (whole : o.dropBlankLine = false) : o.Appends "" o :=
  ⟨(String.append_empty).symm, whole⟩

end Output

namespace Rendering

variable {r : Rendering} {s : RenderState}

/-- The text of a value as it is written; an error has none. -/
def valueText (r : Rendering) (encoder : Encoder) : Value → String
  | .error _ => ""
  | value => encoder (r.config.formatters.format value)

/-- What a node without a table of its own writes. -/
def nodeText (r : Rendering) (encoder : Encoder) (s : RenderState) : Node → String
  | .raw text => text
  | .output e => r.valueText encoder (r.eval s e)
  | .evaluate name default =>
    match s.definition? name with
    | some (.value e) => r.valueText encoder (r.eval s e)
    | some (.body _) => ""
    | none => r.valueText encoder ((default.map (r.eval s)).getD .nil)
  | _ => ""

theorem trimLine_of_plain (plain : r.config.trimBlockLines = false) (s : RenderState) :
    r.trimLine s = s := by
  rw [trimLine, plain, if_neg Bool.false_ne_true]

theorem text_valuePiece? (encoder : Encoder) (value : Value) :
    String.join ((r.valuePiece? encoder value).toList.map Piece.text) =
      r.valueText encoder value := by
  cases value with
  | error e => rfl
  | _ => exact String.empty_append

theorem text_nodePiece? (encoder : Encoder) (s : RenderState) (node : Node) :
    String.join ((r.nodePiece? encoder s node).toList.map Piece.text) =
      r.nodeText encoder s node := by
  cases node with
  | raw text => exact String.empty_append
  | output e => exact text_valuePiece? encoder _
  | evaluate name default =>
    rw [nodePiece?, nodeText]
    cases s.definition? name with
    | none => exact text_valuePiece? encoder _
    | some definition =>
      cases definition with
      | value e => exact text_valuePiece? encoder _
      | body table => rfl
  | _ => rfl

/-- Where no lines are trimmed, each way of writing appends the text of what it writes. -/
theorem logs_appends (plain : r.config.trimBlockLines = false) :
    r.Logs fun o written o' => o.dropBlankLine = false →
      o.Appends (String.join (written.map Piece.text)) o' where
  nothing _ whole := .nothing whole
  raw o text whole := by
    have single : String.join ([Piece.raw text].map Piece.text) = text := String.empty_append
    rw [single]
    exact ⟨o.text_writeRaw whole text, o.dropBlankLine_writeRaw text⟩
  value o text encoder _ := by
    have single : String.join ([Piece.value text encoder].map Piece.text) = encoder text :=
      String.empty_append
    rw [single]
    exact ⟨o.text_writeValue text encoder, rfl⟩
  mark o _ := ⟨o.text_markValue.trans String.append_empty.symm, rfl⟩
  trim s whole := by
    rw [trimLine_of_plain plain]
    exact .nothing whole
  trans {o o' o'' written more} first second whole := by
    have before := first whole
    have behind := second before.whole
    refine ⟨?_, behind.whole⟩
    rw [behind.text, before.text, List.map_append, String.join_append, String.append_assoc]

end Rendering

namespace Machine

variable {r : Rendering}

/-- What the next step writes where no lines are trimmed. -/
def stepText (r : Rendering) (m : Machine) : String :=
  match m.cursors with
  | [] => ""
  | cursor :: _ => (cursor.rest.head?.map (r.nodeText cursor.encoder m.state)).getD ""

theorem text_stepPiece? (cursor : TableCursor) (outer : List TableCursor) (s : RenderState) :
    String.join ((stepPiece? r cursor.encoder ⟨cursor :: outer, s⟩).toList.map Piece.text) =
      stepText r ⟨cursor :: outer, s⟩ := by
  unfold stepPiece? stepText
  dsimp only
  cases cursor.rest with
  | nil => rfl
  | cons node rest => exact Rendering.text_nodePiece? cursor.encoder s node

/-- One step appends what it writes. -/
theorem appends_of_step (plain : r.config.trimBlockLines = false) {m m' : Machine}
    (step : step r m = some m') (whole : m.state.output.dropBlankLine = false) :
    m.state.output.Appends (stepText r m) m'.state.output := by
  obtain ⟨cursors, s⟩ := m
  cases cursors with
  | nil => cases step
  | cons cursor outer =>
    cases step
    rw [← text_stepPiece?]
    exact logs_advance (Rendering.logs_appends plain) cursor outer s whole

/-- A run appends what its steps write, one after the other. -/
theorem appends_of_path (plain : r.config.trimBlockLines = false) {m m' : Machine}
    {ms : List Machine} (path : Path r m ms m')
    (whole : m.state.output.dropBlankLine = false) :
    m.state.output.Appends (String.join (ms.map (stepText r))) m'.state.output := by
  induction path with
  | nil => exact .nothing whole
  | @cons m next last ms step _ ih =>
    have first := appends_of_step plain step whole
    have rest := ih first.whole
    refine ⟨?_, rest.whole⟩
    calc last.state.output.text
        = next.state.output.text ++ String.join (ms.map (stepText r)) := rest.text
      _ = m.state.output.text ++ stepText r m ++ String.join (ms.map (stepText r)) := by
        rw [first.text]
      _ = m.state.output.text ++ String.join ((m :: ms).map (stepText r)) := by
        rw [String.append_assoc, List.map_cons, String.join_cons]

theorem exists_path {m m' : Machine} (h : Reaches r m m') : ∃ ms, Path r m ms m' := by
  induction h using Relation.ReflTransGen.head_induction_on with
  | refl => exact ⟨[], .nil _⟩
  | head step _ ih =>
    obtain ⟨ms, path⟩ := ih
    exact ⟨_, .cons step path⟩

end Machine

/-- Where no lines are trimmed, a rendering that succeeds gives what its steps write, one after the
other. -/
theorem Rendering.exists_path_of_render {r : Rendering}
    (forward : Forward r.template.tables.length r.template.tables)
    (plain : r.config.trimBlockLines = false) {encoder : Encoder} {text : String}
    (done : r.render encoder = .ok text) :
    ∃ ms last, Machine.Path r (Machine.start r encoder) ms last ∧ last.cursors = [] ∧
      text = String.join (ms.map (Machine.stepText r)) := by
  obtain ⟨ms, path⟩ := Machine.exists_path (Machine.reaches_walk forward encoder)
  refine ⟨ms, _, path, rfl, ?_⟩
  have appends := Machine.appends_of_path plain path rfl
  have begun : (Machine.start r encoder).state.output.text = "" := rfl
  have whole := appends.text
  rw [begun, String.empty_append] at whole
  rw [text_of_render done, ← whole]
  rfl

end Stencil
