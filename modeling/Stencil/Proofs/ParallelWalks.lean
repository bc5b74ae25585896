import Stencil.Proofs.CursorWalk
import Stencil.Proofs.RenumberedTables

/-!
# Two renderings side by side

Two renderings with the same data and settings but for the trimming of lines, of templates whose
tables may be numbered differently. What has been written has no influence on what is evaluated, so
their walks go through the same states but for the output, the form of expressions that are defined
but not evaluated yet, and the numbers of tables. A relation between the two outputs that holds on
through every way of writing holds to the end.
-/

namespace Stencil

/-- The data and the settings are the same, but for the trimming of lines. -/
structure Rendering.SharesData (r r' : Rendering) : Prop where
  context : r'.context = r.context
  strict : r'.config.strict = r.config.strict
  errorsAreFatal : r'.config.errorsAreFatal = r.config.errorsAreFatal
  maxLoopPasses : r'.config.maxLoopPasses = r.config.maxLoopPasses
  formatters : r'.config.formatters = r.config.formatters

/-- Definitions that come to the same, given which tables do. -/
inductive Definition.Alike (B : Nat → Nat → Prop) : Definition → Definition → Prop
  | value {e e' : Expr} (values : ∀ env, e'.eval env = e.eval env) : Alike B (.value e) (.value e')
  | body {table table' : Nat} (same : B table table') : Alike B (.body table) (.body table')

/-- Frames with the same variables, whose definitions come to the same. -/
structure Frame.Alike (B : Nat → Nat → Prop) (f f' : Frame) : Prop where
  locals : f'.locals = f.locals
  definitions (name : String) :
    Option.Rel (Definition.Alike B) (f.definitions.find? name) (f'.definitions.find? name)

namespace Frame.Alike

variable {B : Nat → Nat → Prop} {f f' : Frame} {frames frames' : List Frame}

theorem start (bindings : Bindings) :
    Frame.Alike B { locals := bindings } { locals := bindings } := ⟨rfl, fun _ => .none⟩

theorem setLocal (h : Frame.Alike B f f') (name : String) (value : Value) :
    Frame.Alike B { f with locals := f.locals.insert name value }
      { f' with locals := f'.locals.insert name value } :=
  ⟨congrArg (Entries.insert name value) h.locals, h.definitions⟩

theorem define (h : Frame.Alike B f f') (name : String) {d d' : Definition}
    (alike : d.Alike B d') : Frame.Alike B { f with definitions := f.definitions.insert name d }
      { f' with definitions := f'.definitions.insert name d' } := by
  refine ⟨h.locals, fun other => ?_⟩
  by_cases same : other = name
  · subst same
    rw [Entries.find?_insert_self, Entries.find?_insert_self]
    exact .some alike
  · rw [Entries.find?_insert_of_ne same, Entries.find?_insert_of_ne same]
    exact h.definitions other

theorem assignIn (h : List.Forall₂ (Frame.Alike B) frames frames') (name : String) (value : Value) :
    Option.Rel (List.Forall₂ (Frame.Alike B)) (RenderState.assignIn name value frames)
      (RenderState.assignIn name value frames') := by
  induction h with
  | nil => exact .none
  | @cons f f' frames frames' top outer ih =>
    simp only [RenderState.assignIn, top.locals]
    split
    · exact .some (.cons ⟨rfl, top.definitions⟩ outer)
    · generalize RenderState.assignIn name value frames = found at ih
      generalize RenderState.assignIn name value frames' = found' at ih
      cases ih with
      | none => exact .none
      | some outer => exact .some (.cons top outer)

theorem local? (h : List.Forall₂ (Frame.Alike B) frames frames') (name : String) :
    frames'.findSome? (·.locals.find? name) = frames.findSome? (·.locals.find? name) := by
  induction h with
  | nil => rfl
  | cons top _ ih => simp only [List.findSome?_cons, top.locals, ih]

theorem definition? (h : List.Forall₂ (Frame.Alike B) frames frames') (name : String) :
    Option.Rel (Definition.Alike B) (frames.findSome? (·.definitions.find? name))
      (frames'.findSome? (·.definitions.find? name)) := by
  induction h with
  | nil => exact .none
  | @cons f f' frames frames' top _ ih =>
    have found := top.definitions name
    simp only [List.findSome?_cons]
    generalize f.definitions.find? name = d at found
    generalize f'.definitions.find? name = d' at found
    cases found with
    | none => exact ih
    | some alike => exact .some alike

end Frame.Alike

/-- All but the output comes to the same, given which tables do, and the outputs are related. -/
structure RenderState.AlikeIn (B : Nat → Nat → Prop) (R : Output → Output → Prop)
    (s s' : RenderState) : Prop where
  frames : List.Forall₂ (Frame.Alike B) s.frames s'.frames
  errors : s'.errors = s.errors
  exhausted : s'.exhausted = s.exhausted
  output : R s.output s'.output

/-- States that are alike in walks through the same tables. -/
abbrev RenderState.Alike (R : Output → Output → Prop) (s s' : RenderState) : Prop :=
  RenderState.AlikeIn Eq R s s'

namespace RenderState.AlikeIn

variable {B : Nat → Nat → Prop} {R : Output → Output → Prop} {s s' : RenderState}

theorem start (bindings : Bindings) (empty : R {} {}) :
    AlikeIn B R (RenderState.openFrame {} bindings) (RenderState.openFrame {} bindings) :=
  ⟨.cons (.start bindings) .nil, rfl, rfl, empty⟩

theorem record (h : AlikeIn B R s s') (e : EvalError) : AlikeIn B R (s.record e) (s'.record e) :=
  ⟨h.frames, congrArg (e :: ·) h.errors, h.exhausted, h.output⟩

theorem onTop (h : AlikeIn B R s s') {change change' : Frame → Frame}
    (changed : ∀ {f f' : Frame}, f.Alike B f' → (change f).Alike B (change' f')) :
    AlikeIn B R (s.onTop change) (s'.onTop change') := by
  have frames := h.frames
  unfold RenderState.onTop
  generalize inside : s.frames = all at frames
  generalize inside' : s'.frames = all' at frames
  cases frames with
  | nil => exact h
  | cons top outer => exact ⟨.cons (changed top) outer, h.errors, h.exhausted, h.output⟩

theorem setLocal (h : AlikeIn B R s s') (name : String) (value : Value) :
    AlikeIn B R (s.setLocal name value) (s'.setLocal name value) :=
  h.onTop fun top => top.setLocal name value

theorem define (h : AlikeIn B R s s') (name : String) {d d' : Definition} (alike : d.Alike B d') :
    AlikeIn B R (s.define name d) (s'.define name d') :=
  h.onTop fun top => top.define name alike

theorem assign (h : AlikeIn B R s s') (name : String) (value : Value) :
    AlikeIn B R (s.assign name value) (s'.assign name value) := by
  have assigned := Frame.Alike.assignIn h.frames name value
  unfold RenderState.assign
  generalize RenderState.assignIn name value s.frames = found at assigned
  generalize RenderState.assignIn name value s'.frames = found' at assigned
  cases assigned with
  | none => exact h.setLocal name value
  | some frames => exact ⟨frames, h.errors, h.exhausted, h.output⟩

theorem openFrame (h : AlikeIn B R s s') (bindings : Bindings) :
    AlikeIn B R (s.openFrame bindings) (s'.openFrame bindings) :=
  ⟨.cons (.start bindings) h.frames, h.errors, h.exhausted, h.output⟩

theorem closeFrame (h : AlikeIn B R s s') : AlikeIn B R s.closeFrame s'.closeFrame := by
  have frames := h.frames
  refine ⟨?_, h.errors, h.exhausted, h.output⟩
  unfold RenderState.closeFrame
  generalize s.frames = all at frames
  generalize s'.frames = all' at frames
  cases frames with
  | nil => exact .nil
  | cons _ outer => exact outer

theorem definition? (h : AlikeIn B R s s') (name : String) :
    Option.Rel (Definition.Alike B) (s.definition? name) (s'.definition? name) :=
  Frame.Alike.definition? h.frames name

theorem local? (h : AlikeIn B R s s') (name : String) : s'.local? name = s.local? name :=
  Frame.Alike.local? h.frames name

end RenderState.AlikeIn

namespace Rendering.SharesData

open RenderState (AlikeIn)

variable {r r' : Rendering} {B : Nat → Nat → Prop} {R R' : Output → Output → Prop}
  {s s' : RenderState}

/-- Variables have the same values. -/
theorem env (same : SharesData r r') (h : AlikeIn B R s s') : r'.env s' = r.env s := by
  funext v
  rw [Rendering.env, Rendering.env, h.local?, same.context, same.strict]

theorem eval (same : SharesData r r') (h : AlikeIn B R s s') (e : Expr) :
    r'.eval s' e = r.eval s e := by
  rw [Rendering.eval, Rendering.eval, same.env h]

/-- Other expressions with the same values. -/
theorem eval_alike (same : SharesData r r') (h : AlikeIn B R s s') {e e' : Expr}
    (values : ∀ env, e'.eval env = e.eval env) : r'.eval s' e' = r.eval s e :=
  (same.eval h e').trans (values (r.env s))

theorem eval_map (same : SharesData r r') (h : AlikeIn B R s s') {e e' : Option Expr}
    (values : ∀ env, e'.map (·.eval env) = e.map (·.eval env)) :
    e'.map (r'.eval s') = e.map (r.eval s) := by
  rw [funext (same.eval h)]
  exact values (r.env s)

/-- What is found fatal in the end is the same. -/
theorem fatal? (same : SharesData r r') (h : AlikeIn B R s s') : r'.fatal? s' = r.fatal? s := by
  unfold Rendering.fatal?
  rw [h.errors, same.strict, same.errorsAreFatal]

theorem writeValue (same : SharesData r r') (h : AlikeIn B R s s') (encoder : Encoder)
    (value : Value) (marks : R s.output s'.output → R' s.output.markValue s'.output.markValue)
    (writes : ∀ text encoder, R s.output s'.output →
      R' (s.output.writeValue text encoder) (s'.output.writeValue text encoder)) :
    AlikeIn B R' (r.writeValue encoder value s) (r'.writeValue encoder value s') := by
  unfold Rendering.writeValue
  rw [same.formatters]
  split
  · rename_i e
    exact ⟨h.frames, congrArg (e :: ·) h.errors, h.exhausted, marks h.output⟩
  · exact ⟨h.frames, h.errors, h.exhausted, writes _ _ h.output⟩

theorem declare (same : SharesData r r') (h : AlikeIn B R s s') (name : String)
    {value value' : Option Expr}
    (values : ∀ env, value'.map (·.eval env) = value.map (·.eval env)) :
    AlikeIn B R (r.declare name value s) (r'.declare name value' s') := by
  unfold Rendering.declare
  rw [same.eval_map h values]
  split
  · exact h.setLocal _ _
  · exact (h.record _).setLocal _ _
  · exact h.setLocal _ _

theorem assign (same : SharesData r r') (h : AlikeIn B R s s') (v : Variable) (op : Operator)
    {value value' : Expr} (values : ∀ env, value'.eval env = value.eval env) :
    AlikeIn B R (r.assign v op value s) (r'.assign v op value' s') := by
  have assigned : r'.assigned v op value' s' = r.assigned v op value s := by
    rw [Rendering.assigned, Rendering.assigned, same.eval_alike h values, same.eval h]
  unfold Rendering.assign
  rw [assigned]
  split
  · exact h.record _
  · exact h.assign _ _

section Passes

variable {body body' : Bindings → RenderState → RenderState}
  (bodies : ∀ {s s' : RenderState} (bindings : Bindings), AlikeIn B R s s' →
    AlikeIn B R (body bindings s) (body' bindings s'))

include bodies

theorem runCounted (behaviour : Behaviour) (left : Nat) (run : Run) (h : AlikeIn B R s s') :
    AlikeIn B R (Rendering.runCounted body behaviour left run s)
      (Rendering.runCounted body' behaviour left run s') := by
  induction left generalizing run s s' with
  | zero => exact bodies _ h
  | succ left ih =>
    have walked := bodies run.bindings h
    simp only [Rendering.runCounted]
    split
    · exact walked
    · exact ih _ walked

theorem runIndefinite (same : SharesData r r') (name : String) (behaviour : Behaviour)
    {args args' : Tuple} (values : ∀ env, args'.eval env = args.eval env) (left : Nat) (run : Run)
    (h : AlikeIn B R s s') :
    AlikeIn B R (r.runIndefinite body name behaviour args left run s)
      (r'.runIndefinite body' name behaviour args' left run s') := by
  induction left generalizing run s s' with
  | zero =>
    simp only [Rendering.runIndefinite, same.maxLoopPasses]
    exact (bodies _ h).record _
  | succ left ih =>
    have walked := bodies run.bindings h
    simp only [Rendering.runIndefinite, same.env walked, values]
    split
    · exact walked.record _
    · split
      · exact walked
      · exact ih _ walked

/-- A block is run as often, and settles its chain alike. -/
theorem runBlock (same : SharesData r r') (name : String) (behaviour : Behaviour)
    {args args' : Tuple} (values : ∀ env, args'.eval env = args.eval env) (h : AlikeIn B R s s') :
    (r'.runBlock body' name behaviour args' s').1 = (r.runBlock body name behaviour args s).1 ∧
      AlikeIn B R (r.runBlock body name behaviour args s).2
        (r'.runBlock body' name behaviour args' s').2 := by
  simp only [Rendering.runBlock, same.env h, same.maxLoopPasses, values]
  split
  · exact ⟨rfl, h.record _⟩
  · split
    · exact ⟨rfl, h⟩
    · exact ⟨rfl, bodies _ h⟩
    · exact ⟨rfl, runCounted bodies _ _ _ h⟩
    · exact ⟨rfl, runIndefinite bodies same _ _ values _ _ h⟩

end Passes

end Rendering.SharesData

namespace Node

/-- A node in front of others that is walked by itself: it is no scope, and no body of it follows.
-/
structure Alone (node : Node) (nodes : List Node) : Prop where
  noScope : ∀ target, node ≠ .scope target
  noBody : ∀ body more, node.hasBody = true → nodes ≠ .scope (some body) :: more

/-- Other tables behind it make no difference. -/
theorem Alone.renamed {B : Nat → Nat → Prop} {node : Node} {nodes nodes' : List Node}
    (h : node.Alone nodes) (renamed : List.Forall₂ (Renamed B) nodes nodes') :
    node.Alone nodes' := by
  refine ⟨h.noScope, ?_⟩
  rintro body more opens rfl
  obtain ⟨target, more', rfl, named⟩ := Renamed.exists_scope renamed
  cases named with
  | some => exact h.noBody _ _ opens rfl

end Node

namespace Rendering

variable {scope : Nat → Encoder → Bindings → RenderState → RenderState} {node : Node}
  {nodes : List Node}

/-- A node in none of the other forms that a walk knows. -/
theorem alone_of_not
    (notBlock : ∀ name chained behaviour args body more,
      node = .block name chained behaviour args → nodes = .scope (some body) :: more → False)
    (notDefine : ∀ name body more,
      node = .define name none → nodes = .scope (some body) :: more → False)
    (notEncode : ∀ handler inner body more,
      node = .encode handler inner → nodes = .scope (some body) :: more → False)
    (notScope : ∀ body, node = .scope (some body) → False) (notEmpty : node = .scope none → False) :
    node.Alone nodes := by
  refine ⟨?_, fun body more opens eq => ?_⟩
  · rintro (_ | body) rfl
    · exact notEmpty rfl
    · exact notScope body rfl
  · unfold Node.hasBody at opens
    split at opens
    · exact notBlock _ _ _ _ _ _ rfl eq
    · exact notDefine _ _ _ rfl eq
    · exact notEncode _ _ _ _ rfl eq
    · cases opens

/-- A node that is walked by itself, and what is behind it. -/
theorem walkNodes_alone {r : Rendering} {s : RenderState} {encoder : Encoder}
    {place : Option String} {settled : Bool} (alone : node.Alone nodes) :
    r.walkNodes scope encoder place settled (node :: nodes) s =
      r.walkNodes scope encoder ((node.place?.map Prod.fst).or place) settled nodes
        (r.walkNode scope encoder node s) := by
  refine walkNodes.eq_7 r scope encoder place settled s node nodes ?_ ?_ ?_ ?_ ?_
  · rintro name chained behaviour args body more rfl eq
    exact alone.noBody body more rfl eq
  · rintro name body more rfl eq
    exact alone.noBody body more rfl eq
  · rintro handler inner body more rfl eq
    exact alone.noBody body more rfl eq
  · rintro body rfl
    exact alone.noScope _ rfl
  · rintro rfl
    exact alone.noScope _ rfl

end Rendering

/-- A relation between outputs that two renderings keep in whatever they write. -/
structure Rendering.Keeps (r r' : Rendering) (R : Output → Output → Prop) : Prop where
  writeRaw : ∀ {o o'} (text : String), R o o' → R (o.writeRaw text) (o'.writeRaw text)
  markValue : ∀ {o o'}, R o o' → R o.markValue o'.markValue
  writeValue : ∀ {o o'} (text : String) (encoder : Encoder), R o o' →
    R (o.writeValue text encoder) (o'.writeValue text encoder)
  trimLine : ∀ {B s s'}, s.AlikeIn B R s' → (r.trimLine s).AlikeIn B R (r'.trimLine s')

namespace Rendering.Keeps

open RenderState (AlikeIn)

variable {r r' : Rendering} {B : Nat → Nat → Prop} {R : Output → Output → Prop}
  {s s' : RenderState}
  {scope scope' : Nat → Encoder → Bindings → RenderState → RenderState}

theorem value (keeps : Keeps r r' R) (same : SharesData r r') (h : AlikeIn B R s s')
    (encoder : Encoder) (value : Value) :
    AlikeIn B R (r.writeValue encoder value s) (r'.writeValue encoder value s') :=
  same.writeValue h encoder value keeps.markValue keeps.writeValue

theorem evaluate (keeps : Keeps r r' R) (same : SharesData r r') (h : AlikeIn B R s s')
    (encoder : Encoder)
    (scopes : ∀ {table table' : Nat}, B table table' →
      AlikeIn B R (scope table encoder [] s) (scope' table' encoder [] s'))
    (name : String) {default default' : Option Expr}
    (values : ∀ env, default'.map (·.eval env) = default.map (·.eval env)) :
    AlikeIn B R (r.evaluate scope encoder name default s)
      (r'.evaluate scope' encoder name default' s') := by
  have found := h.definition? name
  unfold Rendering.evaluate
  rw [same.eval_map h values, ← h.frames.length_eq]
  generalize s.definition? name = d at found
  generalize s'.definition? name = d' at found
  cases found with
  | none => exact keeps.value same h _ _
  | some alike =>
    cases alike with
    | value values =>
      dsimp only
      rw [same.eval_alike h values]
      exact keeps.value same h _ _
    | body named =>
      dsimp only
      split
      · exact h.record _
      · exact scopes named

variable (scopes : ∀ {s s' : RenderState} {table table' : Nat} (encoder : Encoder)
  (bindings : Bindings), B table table' → AlikeIn B R s s' →
    AlikeIn B R (scope table encoder bindings s) (scope' table' encoder bindings s'))
include scopes

theorem walkNode (keeps : Keeps r r' R) (same : SharesData r r') (h : AlikeIn B R s s')
    (encoder : Encoder) (node : Node) :
    AlikeIn B R (r.walkNode scope encoder node s) (r'.walkNode scope' encoder node s') := by
  have trimmed := keeps.trimLine h
  unfold Rendering.walkNode
  split
  · exact ⟨h.frames, h.errors, h.exhausted, keeps.writeRaw _ h.output⟩
  · rw [same.eval h]
    exact keeps.value same h _ _
  · exact same.declare trimmed _ fun _ => rfl
  · exact same.assign trimmed _ _ fun _ => rfl
  · exact trimmed.define _ (.value fun _ => rfl)
  · exact evaluate keeps same h _ (fun named => scopes _ _ named h) _ fun _ => rfl
  all_goals first | exact trimmed | exact h

/-- The nodes of a table, by induction on the walk: the same branches are taken on both sides. -/
theorem walkNodes (keeps : Keeps r r' R) (same : SharesData r r') (encoder : Encoder)
    (place : Option String) (settled : Bool) {nodes nodes' : List Node}
    (renamed : List.Forall₂ (Node.Renamed B) nodes nodes') (h : AlikeIn B R s s') :
    AlikeIn B R (r.walkNodes scope encoder place settled nodes s)
      (r'.walkNodes scope' encoder place settled nodes' s') := by
  have body {node : Node} {table : Nat} {rest nodes' : List Node}
      (renamed : List.Forall₂ (Node.Renamed B) (node :: .scope (some table) :: rest) nodes')
      (opens : node.hasBody = true) : ∃ table' rest',
        nodes' = node :: .scope (some table') :: rest' ∧ B table table' ∧
          List.Forall₂ (Node.Renamed B) rest rest' := by
    refine Node.Renamed.exists_body renamed ?_
    rintro target rfl
    cases opens
  revert s' nodes'
  fun_induction Rendering.walkNodes r scope encoder place settled nodes s with
  | case1 =>
    intro s' nodes' renamed h
    cases renamed
    exact h
  | case2 place settled name chained behaviour args table rest s trimmed skip =>
    rename_i ih
    intro s' nodes' renamed h
    obtain ⟨table', rest', rfl, named, behind⟩ := body renamed rfl
    simp only [Rendering.walkNodes, if_pos skip]
    exact ih behind (keeps.trimLine h)
  | case3 place settled name chained behaviour args table rest s trimmed run settled' s₁ ran =>
    rename_i ih
    intro s' nodes' renamed h
    obtain ⟨table', rest', rfl, named, behind⟩ := body renamed rfl
    have ran' := SharesData.runBlock (fun bindings => scopes encoder bindings named) same name
      behaviour (fun _ => rfl : ∀ env, args.eval env = args.eval env) (keeps.trimLine h)
    simp only [trimmed] at ran
    rw [ran] at ran'
    simp only [Rendering.walkNodes, if_neg run, ran'.1]
    exact ih behind ran'.2
  | case4 place settled name table rest s ih =>
    intro s' nodes' renamed h
    obtain ⟨table', rest', rfl, named, behind⟩ := body renamed rfl
    rw [Rendering.walkNodes]
    exact ih behind ((keeps.trimLine h).define _ (.body named))
  | case5 place settled handler inner table rest s ih =>
    intro s' nodes' renamed h
    obtain ⟨table', rest', rfl, named, behind⟩ := body renamed rfl
    rw [Rendering.walkNodes]
    exact ih behind (scopes _ _ named (keeps.trimLine h))
  | case6 place settled table rest s ih =>
    intro s' nodes' renamed h
    obtain _ | ⟨first, behind⟩ := renamed
    cases first with
    | same other => exact absurd rfl (other _)
    | scope named =>
      cases named with
      | some named => exact ih behind (scopes _ _ named h)
  | case7 place settled rest s ih =>
    intro s' nodes' renamed h
    obtain _ | ⟨first, behind⟩ := renamed
    cases first with
    | same other => exact absurd rfl (other _)
    | scope named =>
      cases named
      exact ih behind (h.record _)
  | case8 place settled node rest s notBlock notDefine notEncode notScope notEmpty next =>
    rename_i ih
    intro s' nodes' renamed h
    have alone : node.Alone rest :=
      Rendering.alone_of_not notBlock notDefine notEncode notScope notEmpty
    cases renamed with
    | cons first behind =>
      cases first with
      | scope => exact absurd rfl (alone.noScope _)
      | same =>
        rw [Rendering.walkNodes_alone (alone.renamed behind)]
        exact ih behind (walkNode scopes keeps same h encoder node)

omit scopes

/-- Scopes of renumbered templates, by induction on the room. -/
theorem walkScope (keeps : Keeps r r' R) (same : SharesData r r')
    (templates : r.template.Renumbered B r'.template) (room : Nat) {table table' : Nat}
    (encoder : Encoder) (bindings : Bindings) (named : B table table') (h : AlikeIn B R s s') :
    AlikeIn B R (r.walkScope room table encoder bindings s)
      (r'.walkScope room table' encoder bindings s') := by
  induction room generalizing table table' encoder bindings s s' with
  | zero => exact ⟨h.frames, h.errors, rfl, h.output⟩
  | succ room ih =>
    exact keeps.trimLine (walkNodes (fun encoder bindings named => ih encoder bindings named) keeps
      same encoder none false (templates.tables named) (h.openFrame bindings)).closeFrame

theorem room_eq (templates : r.template.Renumbered B r'.template) : r'.room = r.room := by
  rw [Rendering.room, Rendering.room, templates.length]

theorem walk (keeps : Keeps r r' R) (same : SharesData r r')
    (templates : r.template.Renumbered B r'.template) (encoder : Encoder) (empty : R {} {}) :
    AlikeIn B R (r.walk encoder) (r'.walk encoder) := by
  unfold Rendering.walk
  rw [room_eq templates]
  exact walkNodes (keeps.walkScope same templates r.room) keeps same encoder none false
    (templates.tables templates.start) (.start [] empty)

end Rendering.Keeps

/-- Renumbered templates are rendered alike. -/
theorem Template.Renumbered.render_eq {B : Nat → Nat → Prop} {t u : Template}
    (h : t.Renumbered B u) (context : Context) (config : Config) (encoder : Encoder) :
    Rendering.render ⟨u, context, config⟩ encoder =
      Rendering.render ⟨t, context, config⟩ encoder := by
  let r : Rendering := ⟨t, context, config⟩
  let r' : Rendering := ⟨u, context, config⟩
  have same : r.SharesData r' := ⟨rfl, rfl, rfl, rfl, rfl⟩
  have keeps : r.Keeps r' Eq :=
    { writeRaw := fun text h => congrArg (·.writeRaw text) h
      markValue := fun h => congrArg Output.markValue h
      writeValue := fun text encoder h => congrArg (·.writeValue text encoder) h
      trimLine := fun {B s s'} h => by
        unfold Rendering.trimLine
        split
        · exact ⟨h.frames, h.errors, h.exhausted, congrArg Output.trimLine h.output⟩
        · exact h }
  have alike := keeps.walk same h encoder rfl
  change r'.render encoder = r.render encoder
  have room : r'.room = r.room := Rendering.Keeps.room_eq h
  have name : r'.template.name = r.template.name := h.name
  rw [Rendering.render, Rendering.render, alike.exhausted, same.fatal? alike, ← alike.output, room,
    name]

end Stencil
