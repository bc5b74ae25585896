import Stencil.Proofs.CursorMachine
import Stencil.Proofs.LinePositions
import Stencil.Proofs.ParallelWalks
import Stencil.Proofs.PastedTables

/-!
# Frames and cursors of spliced parts

What is spliced into a place runs in a frame of its own. As long as that stays empty, it makes no
difference: variables and definitions are found in the frames around it, and assignments write
there. So a state with such frames goes along with one that has none of them.

The machine of a template with spliced parts, next to that of a template in which the parts are
written out in place. The cursor into a part has no counterpart on the other side: there its nodes
are left in the table of the place, in front of the nodes behind it. A static check tells where a
part may be written out at all (`Template.admits`).
-/

namespace Stencil

/-- Frames among which there are empty ones of spliced parts, next to frames without those; for each
frame on the left a flag tells if it belongs to a part. -/
inductive Padded (B : Nat → Nat → Prop) : List Bool → List Frame → List Frame → Prop
  | nil : Padded B [] [] []
  | own {parts : List Bool} {f f' : Frame} {frames frames' : List Frame} (top : Frame.Alike B f f')
      (outer : Padded B parts frames frames') :
      Padded B (false :: parts) (f :: frames) (f' :: frames')
  | part {parts : List Bool} {frames frames' : List Frame} (outer : Padded B parts frames frames') :
      Padded B (true :: parts) ({} :: frames) frames'

namespace Padded

variable {B : Nat → Nat → Prop} {parts : List Bool} {frames frames' : List Frame}

theorem local? (h : Padded B parts frames frames') (name : String) :
    frames'.findSome? (·.locals.find? name) = frames.findSome? (·.locals.find? name) := by
  induction h with
  | nil => rfl
  | own top _ ih => simp only [List.findSome?_cons, top.locals, ih]
  | part _ ih => exact ih

theorem definition? (h : Padded B parts frames frames') (name : String) :
    Option.Rel (Definition.Alike B) (frames.findSome? (·.definitions.find? name))
      (frames'.findSome? (·.definitions.find? name)) := by
  induction h with
  | nil => exact .none
  | @own _ f f' _ _ top _ ih =>
    have found := top.definitions name
    simp only [List.findSome?_cons]
    generalize f.definitions.find? name = d at found
    generalize f'.definitions.find? name = d' at found
    cases found with
    | none => exact ih
    | some alike => exact .some alike
  | part _ ih => exact ih

theorem assignIn (h : Padded B parts frames frames') (name : String) (value : Value) :
    Option.Rel (Padded B parts) (RenderState.assignIn name value frames)
      (RenderState.assignIn name value frames') := by
  induction h with
  | nil => exact .none
  | @own _ f f' frames frames' top outer ih =>
    simp only [RenderState.assignIn, top.locals]
    split
    · exact .some (.own ⟨rfl, top.definitions⟩ outer)
    · generalize RenderState.assignIn name value frames = found at ih
      generalize RenderState.assignIn name value frames' = found' at ih
      cases ih with
      | none => exact .none
      | some outer => exact .some (.own top outer)
  | @part _ frames frames' outer ih =>
    have nothing : Entries.has name ([] : Entries Value) = false := rfl
    simp only [RenderState.assignIn, nothing, Bool.false_eq_true, if_false]
    generalize RenderState.assignIn name value frames = found at ih
    generalize RenderState.assignIn name value frames' = found' at ih
    cases ih with
    | none => exact .none
    | some outer => exact .some (.part outer)

theorem length_le (h : Padded B parts frames frames') : frames'.length ≤ frames.length := by
  induction h with
  | nil => exact Nat.le_refl _
  | own _ _ ih => exact Nat.succ_le_succ ih
  | part _ ih => exact Nat.le_succ_of_le ih

end Padded

/-- The same data and settings for another template. -/
def Rendering.onto (r : Rendering) (t : Template) : Rendering := { r with template := t }

open Output (Coincides)

/-- A state with frames of parts goes along with one without, which has raw text left to write. -/
structure RenderState.Splices (B : Nat → Nat → Prop) (parts : List Bool) (run : List Char)
    (s s' : RenderState) : Prop where
  frames : Padded B parts s.frames s'.frames
  errors : s'.errors = s.errors
  output : Coincides s.output (s'.output.writeRun run)

namespace RenderState.Splices

variable {B : Nat → Nat → Prop} {parts : List Bool} {run : List Char} {s s' : RenderState}
  {r : Rendering} {again : Template}

theorem record (h : Splices B parts run s s') (e : EvalError) :
    Splices B parts run (s.record e) (s'.record e) :=
  ⟨h.frames, congrArg (e :: ·) h.errors, h.output⟩

theorem onTop (h : Splices B (false :: parts) run s s') {change change' : Frame → Frame}
    (changed : ∀ {f f' : Frame}, f.Alike B f' → (change f).Alike B (change' f')) :
    Splices B (false :: parts) run (s.onTop change) (s'.onTop change') := by
  have frames := h.frames
  unfold RenderState.onTop
  generalize s.frames = all at frames
  generalize s'.frames = all' at frames
  cases frames with
  | own top outer => exact ⟨.own (changed top) outer, h.errors, h.output⟩

theorem setLocal (h : Splices B (false :: parts) run s s') (name : String) (value : Value) :
    Splices B (false :: parts) run (s.setLocal name value) (s'.setLocal name value) :=
  h.onTop fun top => top.setLocal name value

theorem define (h : Splices B (false :: parts) run s s') (name : String) {d d' : Definition}
    (alike : d.Alike B d') : Splices B (false :: parts) run (s.define name d) (s'.define name d') :=
  h.onTop fun top => top.define name alike

theorem assign (h : Splices B (false :: parts) run s s') (name : String) (value : Value) :
    Splices B (false :: parts) run (s.assign name value) (s'.assign name value) := by
  have assigned := h.frames.assignIn name value
  unfold RenderState.assign
  generalize RenderState.assignIn name value s.frames = found at assigned
  generalize RenderState.assignIn name value s'.frames = found' at assigned
  cases assigned with
  | none => exact h.setLocal name value
  | some frames => exact ⟨frames, h.errors, h.output⟩

theorem openFrame (h : Splices B parts run s s') (bindings : Bindings) :
    Splices B (false :: parts) run (s.openFrame bindings) (s'.openFrame bindings) :=
  ⟨.own (.start bindings) h.frames, h.errors, h.output⟩

theorem openPart (h : Splices B parts run s s') :
    Splices B (true :: parts) run (s.openFrame []) s' :=
  ⟨.part h.frames, h.errors, h.output⟩

theorem closeFrame (h : Splices B (false :: parts) run s s') :
    Splices B parts run s.closeFrame s'.closeFrame := by
  have frames := h.frames
  refine ⟨?_, h.errors, h.output⟩
  unfold RenderState.closeFrame
  generalize s.frames = all at frames
  generalize s'.frames = all' at frames
  cases frames with
  | own _ outer => exact outer

theorem closePart (h : Splices B (true :: parts) run s s') :
    Splices B parts run s.closeFrame s' := by
  have frames := h.frames
  refine ⟨?_, h.errors, h.output⟩
  unfold RenderState.closeFrame
  generalize s.frames = all at frames
  cases frames with
  | part outer => exact outer

theorem definition? (h : Splices B parts run s s') (name : String) :
    Option.Rel (Definition.Alike B) (s.definition? name) (s'.definition? name) :=
  h.frames.definition? name

/-- Variables have the same values. -/
theorem env (h : Splices B parts run s s') : (r.onto again).env s' = r.env s := by
  funext v
  have found : s'.local? v.member = s.local? v.member := h.frames.local? v.member
  rw [Rendering.env, Rendering.env, found]
  rfl

theorem eval (h : Splices B parts run s s') (e : Expr) :
    (r.onto again).eval s' e.reread = r.eval s e := by
  rw [Rendering.eval, Rendering.eval, h.env, Expr.eval_reread]

section

variable (h : Splices B parts [] s s')
include h

theorem trimLine : Splices B parts [] (r.trimLine s) ((r.onto again).trimLine s') := by
  have same : (r.onto again).config = r.config := rfl
  unfold Rendering.trimLine
  rw [same]
  split
  · exact ⟨h.frames, h.errors, h.output.trimLine⟩
  · exact h

theorem writeValue (encoder : Encoder) (value : Value) :
    Splices B parts [] (r.writeValue encoder value s)
      ((r.onto again).writeValue encoder value s') := by
  have same : (r.onto again).config = r.config := rfl
  unfold Rendering.writeValue
  rw [same]
  split
  · rename_i e
    exact ⟨h.frames, congrArg (e :: ·) h.errors, h.output.markValue⟩
  · exact ⟨h.frames, h.errors, h.output.writeValue _ _⟩

end

section

variable (h : Splices B (false :: parts) [] s s')
include h

theorem declare (name : String) (value : Option Expr) :
    Splices B (false :: parts) [] (r.declare name value s)
      ((r.onto again).declare name (value.map Expr.reread) s') := by
  have values : (value.map Expr.reread).map ((r.onto again).eval s') = value.map (r.eval s) := by
    cases value with
    | none => rfl
    | some e => exact congrArg some (h.eval e)
  unfold Rendering.declare
  rw [values]
  split
  · exact h.setLocal _ _
  · exact (h.record _).setLocal _ _
  · exact h.setLocal _ _

theorem assignNode (v : Variable) (op : Operator) (value : Expr) :
    Splices B (false :: parts) [] (r.assign v op value s)
      ((r.onto again).assign v op value.reread s') := by
  have assigned : (r.onto again).assigned v op value.reread s' = r.assigned v op value s := by
    have current : (r.onto again).eval s' (.var v) = r.eval s (.var v) := h.eval (.var v)
    rw [Rendering.assigned, Rendering.assigned, h.eval, current]
  unfold Rendering.assign
  rw [assigned]
  split
  · exact h.record _
  · exact h.assign _ _

end

end RenderState.Splices

/-- A node that changes the frame in which it is walked. -/
def Node.setsFrame : Node → Bool
  | .declare .. | .assign .. | .define .. => true
  | _ => false

namespace Template

/-- Whether a part can be written out in its place. It must not change its frame. Where lines are
trimmed, its last line must not be blank, and either something stands on the line before the place,
or nothing does and the part starts with something. -/
def admitsPart (trims : Bool) (p : LinePosition) (part : List Node) : Bool :=
  part.all (!·.setsFrame) && (!trims ||
    ((p == .inLine || (p == .lineStart && startsSolid part)) &&
      LinePosition.anywhere.afterAll part == .inLine))

/-- Whether the parts in some nodes can be written out, given where on a line the nodes start. -/
def admits (t : Template) (trims : Bool) : LinePosition → List Node → Bool
  | p, .inline _ _ :: .scope (some table) :: rest =>
    admitsPart trims p (t.table table) && t.admits trims .inLine rest
  | p, .raw text :: rest =>
    (!trims || text != "") && t.admits trims (p.afterText text.toList) rest
  | p, node :: rest => t.admits trims (p.after node) rest
  | _, [] => true

/-- Whether all parts of a template can be written out. -/
def admitsAll (t : Template) (trims : Bool) : Bool :=
  t.admits trims .lineStart (t.table 0) && t.tables.tail.all (t.admits trims .anywhere)

end Template

/-- Two nodes of raw text do not follow each other. -/
def Node.Apart (node next : Node) : Prop := ∀ text more, node = .raw text → next ≠ .raw more

/-- Nodes that are left in a table of a template whose parts can be written out. -/
structure Sited (t : Template) (trims : Bool) (p : LinePosition) (nodes : List Node) : Prop where
  admits : t.admits trims p nodes = true
  apart : nodes.IsChain Node.Apart
  encoders : ∀ handler inner, .encode handler inner ∈ nodes → inner.Plain
  later : ∀ table, .scope (some table) ∈ nodes → table ≠ 0

namespace Sited

variable {t : Template} {trims : Bool} {p : LinePosition} {node : Node} {rest : List Node}
  {table : Nat}

theorem suffix {q : LinePosition} {nodes : List Node} (h : Sited t trims p nodes)
    (suffix : rest <:+ nodes) (admits : t.admits trims q rest = true) : Sited t trims q rest where
  admits := admits
  apart := h.apart.suffix suffix
  encoders handler inner mem := h.encoders handler inner (suffix.subset mem)
  later table mem := h.later table (suffix.subset mem)

/-- Behind a node that stands for itself. -/
theorem behind_leaf (h : Sited t trims p (node :: rest)) (single : node.isLeaf = true) :
    Sited t trims (p.after node) rest := by
  refine h.suffix (List.suffix_cons _ _) ?_
  have admits := h.admits
  cases node with
  | raw text =>
    rw [Template.admits] at admits
    exact (Bool.and_eq_true_iff.mp admits).2
  | block | inline | encode | scope => cases single
  | _ => exact admits

/-- Behind a body. -/
theorem behind_body (h : Sited t trims p (node :: .scope (some table) :: rest))
    (opens : node.hasBody = true) : Sited t trims (p.after node) rest := by
  refine h.suffix ⟨[node, .scope (some table)], rfl⟩ ?_
  have admits := h.admits
  cases node with
  | block | encode | define => exact admits
  | _ => cases opens

/-- Behind a place. -/
theorem behind_place {file : String} {asRaw : Bool}
    (h : Sited t trims p (.inline file asRaw :: .scope (some table) :: rest)) :
    Template.admitsPart trims p (t.table table) = true ∧ Sited t trims .inLine rest := by
  have admits := h.admits
  rw [Template.admits] at admits
  obtain ⟨part, admits⟩ := Bool.and_eq_true_iff.mp admits
  exact ⟨part, h.suffix ⟨[.inline file asRaw, .scope (some table)], rfl⟩ admits⟩

end Sited

open Machine

/-- Two passes over tables that come to the same. -/
structure Pass.Alike (pass pass' : Pass) : Prop where
  name : pass'.name = pass.name
  behaviour : pass'.behaviour = pass.behaviour
  run : pass'.run = pass.run
  mode : pass'.mode = pass.mode
  values : ∀ env, pass'.args.eval env = pass.args.eval env

variable (r : Rendering) (again : Template)

/-- A table and one that its printed nodes are read as. -/
def Bodies (table copy : Nat) : Prop :=
  table ≠ 0 ∧ ∃ more, Pasted r.template.table again.table false (r.template.table table) more ∧
    again.table copy = joinRaw [] more

/-- A cursor next to one that is left with what its nodes are read as, and maybe more. -/
structure Beside (linked : Bool) (p : LinePosition) (cursor cursor' : TableCursor)
    (more : List Node) : Prop where
  encoder : cursor'.encoder = cursor.encoder
  plain : cursor.encoder.Plain
  settled : linked = true → cursor'.settled = cursor.settled
  sited : Sited r.template r.config.trimBlockLines p cursor.rest
  pasted : Pasted r.template.table again.table linked cursor.rest more

/-- Cursors of a template with spliced parts, next to those of one where the parts are written out.
The first flags tell which of the former belong to parts. What is left at the innermost of the
latter comes last, before raw text is joined. -/
inductive Tracked : List Bool → Bool → LinePosition → List TableCursor → List TableCursor →
    List Node → Prop
  | nil {linked : Bool} {p : LinePosition} : Tracked [] linked p [] [] []
  | own {parts : List Bool} {linked links : Bool} {p : LinePosition} {cursor cursor' : TableCursor}
      {outer outer' : List TableCursor} {more behind : List Node}
      (below : Tracked parts links .anywhere outer outer' behind)
      (waits : ∀ top ∈ outer'.head?, top.rest = joinRaw [] behind)
      (pass : Option.Rel Pass.Alike cursor.pass cursor'.pass)
      (tables : cursor.pass.isSome = true → Bodies r again cursor.table cursor'.table)
      (beside : Beside r again linked p cursor cursor' more) :
      Tracked (false :: parts) linked p (cursor :: outer) (cursor' :: outer') more
  | part {parts : List Bool} {linked : Bool} {p : LinePosition} {cursor cursor' : TableCursor}
      {outer outer' : List TableCursor} {more behind : List Node}
      (below : Tracked parts false .inLine outer (cursor' :: outer') behind)
      (pass : cursor.pass = none) (quiet : cursor.rest.all (!·.setsFrame) = true)
      (ends : r.config.trimBlockLines = true → p.afterAll cursor.rest = .inLine)
      (beside : Beside r again linked p cursor cursor' more) :
      Tracked (true :: parts) linked p (cursor :: outer) (cursor' :: outer') (more ++ behind)

/-- A cursor with the same table, encoder and pass. -/
structure TableCursor.Goes (cursor next : TableCursor) : Prop where
  table : next.table = cursor.table
  encoder : next.encoder = cursor.encoder
  pass : next.pass = cursor.pass

namespace Tracked

variable {r again} {parts : List Bool} {linked : Bool} {p : LinePosition}
  {cursor cursor' : TableCursor} {outer outer' cursors' : List TableCursor} {more : List Node}

/-- As long as no chain goes on, the cursor on the other side may go on. -/
theorem goes (h : Tracked r again parts false p outer (cursor' :: outer') more) {next : TableCursor}
    (goes : cursor'.Goes next) : Tracked r again parts false p outer (next :: outer') more := by
  generalize eq : cursor' :: outer' = cursors' at h
  generalize unlinked : false = linked at h
  induction h generalizing cursor' with
  | nil => cases eq
  | own below waits pass tables beside =>
    subst unlinked
    cases eq
    refine .own below waits (by rw [goes.pass]; exact pass) (by rw [goes.table]; exact tables)
      ⟨goes.encoder.trans beside.encoder, beside.plain, by rintro ⟨⟩, beside.sited, beside.pasted⟩
  | part below pass quiet ends beside ih =>
    subst unlinked
    cases eq
    exact .part (ih goes rfl rfl) pass quiet ends
      ⟨goes.encoder.trans beside.encoder, beside.plain, by rintro ⟨⟩, beside.sited, beside.pasted⟩

end Tracked

/-- The innermost cursors, what is left in front of what they were opened in, and how they can go
on. -/
structure Innermost (parts : List Bool) (linked : Bool) (p : LinePosition)
    (cursor cursor' : TableCursor) (outer outer' : List TableCursor) (front behind : List Node) :
    Prop where
  beside : Beside r again linked p cursor cursor' front
  quiet : parts.head? = some true → cursor.rest.all (!·.setsFrame) = true
  goes : ∀ {links : Bool} {q : LinePosition} {next next' : TableCursor} {left : List Node},
    cursor.Goes next → cursor'.Goes next' → next.rest <:+ cursor.rest →
      q.afterAll next.rest = p.afterAll cursor.rest → Beside r again links q next next' left →
        Tracked r again parts links q (next :: outer) (next' :: outer') (left ++ behind)

variable {r again} {parts : List Bool} {linked : Bool} {p : LinePosition} {cursor : TableCursor}
  {outer cursors' : List TableCursor} {more : List Node}

theorem Tracked.innermost (h : Tracked r again parts linked p (cursor :: outer) cursors' more) :
    ∃ cursor' outer' front behind, cursors' = cursor' :: outer' ∧ more = front ++ behind ∧
      Innermost r again parts linked p cursor cursor' outer outer' front behind := by
  cases h with
  | @own _ _ _ _ _ cursor' _ outer' _ _ below waits pass tables beside =>
    refine ⟨cursor', outer', more, [], rfl, (List.append_nil _).symm, beside, by rintro ⟨⟩, ?_⟩
    intro links q next next' left goes goes' _ _ beside
    rw [List.append_nil]
    refine .own below waits (by rw [goes.pass, goes'.pass]; exact pass) ?_ beside
    rw [goes.pass, goes.table, goes'.table]
    exact tables
  | @part _ _ _ _ cursor' _ outer' front behind below pass quiet ends beside =>
    refine ⟨cursor', outer', front, behind, rfl, rfl, beside, fun _ => quiet, ?_⟩
    intro links q next next' left goes goes' suffix ends' beside
    refine .part (below.goes goes') (goes.pass.trans pass) ?_ ?_ beside
    · exact List.all_eq_true.mpr fun node mem =>
        List.all_eq_true.mp quiet node (suffix.subset mem)
    · rw [ends']
      exact ends

end Stencil
