import Stencil.Proofs.FramedRun
import Stencil.Proofs.ProvidedValues
import Stencil.Proofs.RecordedErrors
import Stencil.Proofs.SoundValues
import Stencil.Proofs.Splices

/-!
# Assignments in longhand

A compound assignment in longhand assigns the result of its operation. The two differ where the
variable has an error for a value: only the longhand passes it on before the operation is tried. But
what an assignment names is live where it stands, and frames hold no errors. So a template and the
same template in longhand go through the same states.
-/

namespace Stencil

namespace Node

/-- A compound assignment as the assignment of its operation, and any other node as it is. -/
def longhand : Node → Node
  | assign v op value =>
    match op.compoundBase? with
    | some base => assign v .assign (.binary base (.var v) value)
    | none => assign v op value
  | node => node

theorem longhand_assign {op base : Operator} (compound : op.compoundBase? = some base)
    (v : Variable) (value : Expr) :
    (assign v op value).longhand = assign v .assign (.binary base (.var v) value) := by
  simp only [longhand, compound]

/-- In longhand an assignment is one to the same variable. -/
theorem exists_longhand_assign (v : Variable) (op : Operator) (value : Expr) :
    ∃ op' value', (assign v op value).longhand = .assign v op' value' := by
  cases compound : op.compoundBase? with
  | none => exact ⟨op, value, by simp only [longhand, compound]⟩
  | some base => exact ⟨_, _, longhand_assign compound v value⟩

theorem longhand_eq_scope {node : Node} {target : Option Nat} :
    node.longhand = .scope target ↔ node = .scope target := by
  cases node with
  | assign v op value =>
    obtain ⟨op', value', eq⟩ := exists_longhand_assign v op value
    rw [eq]
    constructor <;> rintro ⟨⟩
  | _ => exact Iff.rfl

theorem place?_longhand (node : Node) : node.longhand.place? = node.place? := by
  cases node with
  | assign v op value =>
    obtain ⟨op', value', eq⟩ := exists_longhand_assign v op value
    rw [eq]
    rfl
  | _ => rfl

theorem longhand_shift (offset : Nat) (node : Node) :
    (node.shift offset).longhand = node.longhand.shift offset := by
  cases node with
  | assign v op value =>
    obtain ⟨op', value', eq⟩ := exists_longhand_assign v op value
    change (assign v op value).longhand = _
    rw [eq]
    rfl
  | scope target => cases target <;> rfl
  | _ => rfl

/-- The scope of an empty place stands behind a node in longhand as it does behind the node. -/
theorem exists_of_map_longhand {nodes more : List Node} {target : Option Nat}
    (h : nodes.map longhand = .scope target :: more) : ∃ rest, nodes = .scope target :: rest := by
  obtain ⟨node, rest, rfl, eq, -⟩ := List.map_eq_cons_iff.mp h
  exact ⟨rest, by rw [longhand_eq_scope.mp eq]⟩

theorem emptyPlaces_longhand (nodes : List Node) :
    emptyPlaces (nodes.map longhand) = emptyPlaces nodes := by
  fun_induction emptyPlaces nodes with
  | case1 node rest ih =>
    have empty : (scope none).longhand = scope none := rfl
    rw [List.map_cons, empty] at ih
    rw [List.map_cons, List.map_cons, empty, emptyPlaces, place?_longhand, ih]
  | case2 node rest other ih =>
    rw [List.map_cons, emptyPlaces]
    · exact ih
    · intro more eq
      obtain ⟨rest', rfl⟩ := exists_of_map_longhand eq
      exact other rest' rfl
  | case3 => rfl

theorem fillPlaces_longhand (place : String × Bool) (table : Nat) (nodes : List Node) :
    fillPlaces place table (nodes.map longhand) = (fillPlaces place table nodes).map longhand := by
  fun_induction fillPlaces place table nodes with
  | case1 node rest same ih =>
    rw [List.map_cons, List.map_cons, longhand_eq_scope.mpr rfl, fillPlaces,
      if_pos ((place?_longhand node).trans same), ih]
    rfl
  | case2 node rest differs ih =>
    have other : node.longhand.place? ≠ some place := by rwa [place?_longhand]
    rw [List.map_cons, List.map_cons, longhand_eq_scope.mpr rfl, fillPlaces, if_neg other]
    exact congrArg (node.longhand :: ·) ih
  | case3 node rest other ih =>
    rw [List.map_cons, fillPlaces]
    · exact congrArg (node.longhand :: ·) ih
    · intro more eq
      obtain ⟨rest', rfl⟩ := exists_of_map_longhand eq
      exact other rest' rfl
  | case4 => rfl

end Node

namespace Template

/-- A template with all of its compound assignments in longhand. -/
def longhand (t : Template) : Template :=
  { t with tables := t.tables.map (List.map Node.longhand) }

theorem table_longhand (t : Template) (index : Nat) :
    t.longhand.table index = (t.table index).map Node.longhand := by
  unfold table longhand
  rw [List.getElem?_map]
  cases t.tables[index]? <;> rfl

theorem forward_longhand {t : Template} (h : Forward t.tables.length t.tables) :
    Forward t.longhand.tables.length t.longhand.tables := by
  intro i nodes j found mem
  have length : t.longhand.tables.length = t.tables.length := List.length_map _
  rw [longhand, List.getElem?_map] at found
  obtain ⟨old, here, rfl⟩ := Option.map_eq_some_iff.mp found
  obtain ⟨node, inside, eq⟩ := List.mem_map.mp mem
  rw [Node.longhand_eq_scope.mp eq] at inside
  rw [length]
  exact h i old j here inside

theorem emptyPlaces_longhand (t : Template) : t.longhand.emptyPlaces = t.emptyPlaces := by
  unfold emptyPlaces longhand
  rw [List.flatMap_map]
  exact congrArg (List.flatMap · t.tables) (funext Node.emptyPlaces_longhand)

theorem countAwaiting_longhand (t : Template) (file : String) (asRaw : Bool) :
    t.longhand.countAwaiting file asRaw = t.countAwaiting file asRaw := by
  unfold countAwaiting
  rw [emptyPlaces_longhand]

theorem fillAll_longhand (t : Template) (file : String) (asRaw : Bool) (table : Nat) :
    t.longhand.fillAll file asRaw table =
      (t.fillAll file asRaw table).map (List.map Node.longhand) := by
  unfold fillAll longhand
  rw [List.map_map, List.map_map]
  exact congrArg (List.map · t.tables) (funext (Node.fillPlaces_longhand _ _))

/-- What is assigned to has neither scope nor path. -/
theorem Covered.isAtomic_assigned {t : Template} {known : Nat → List String} (h : t.Covered known)
    {table : Nat} {v : Variable} {op : Operator} {value : Expr}
    (mem : .assign v op value ∈ t.table table) : v.isAtomic = true := by
  obtain ⟨nodes, found, inside⟩ := exists_of_mem_getD mem
  obtain ⟨front, rest, rfl⟩ := List.append_of_mem inside
  have covered := (Node.allCovered_append.mp (h.tables table _ found)).2.1
  exact (covered.assigned v op value rfl).1

end Template

namespace Splice

/-- A splice with all of its compound assignments in longhand. -/
def longhand : Splice → Splice
  | template name other => template name other.longhand
  | raw name text => raw name text

theorem tables_longhand (s : Splice) :
    s.longhand.tables = s.tables.map (List.map Node.longhand) := by
  cases s <;> rfl

theorem filling_longhand (s : Splice) (t : Template) :
    s.longhand.filling t.longhand = (s.filling t).longhand := by
  have length : t.longhand.tables.length = t.tables.length := List.length_map _
  have shifted : (s.longhand.tables).map (·.map (Node.shift t.tables.length)) =
      (s.tables.map (·.map (Node.shift t.tables.length))).map (List.map Node.longhand) := by
    rw [tables_longhand, List.map_map, List.map_map]
    refine List.map_congr_left fun nodes _ => ?_
    dsimp only [Function.comp_apply]
    rw [List.map_map, List.map_map]
    exact List.map_congr_left fun node _ => (Node.longhand_shift _ node).symm
  have place : s.longhand.place = s.place := by cases s <;> rfl
  have templates : s.longhand.templates = s.templates := by cases s <;> rfl
  have raws : s.longhand.raws = s.raws := by cases s <;> rfl
  have required : s.longhand.required = s.required := by cases s <;> rfl
  have size : s.longhand.size = s.size := by cases s <;> rfl
  have without : s.longhand.without t.longhand = s.without t := by
    unfold without
    rw [place]
    rfl
  unfold filling
  rw [place, templates, raws, required, size, without, length, shifted,
    Template.fillAll_longhand, Template.countAwaiting_longhand, ← List.map_append]
  rfl

/-- Splicing takes templates in longhand to the result in longhand. -/
theorem into_longhand (s : Splice) (t : Template) :
    (s.longhand.into t.longhand).1 = (s.into t).1.longhand := by
  have place : s.longhand.place = s.place := by cases s <;> rfl
  have own : s.longhand.IsOwn t.longhand ↔ s.IsOwn t := by
    unfold IsOwn
    rw [place]
    rfl
  rw [into_eq, into_eq, place, Template.countAwaiting_longhand,
    if_congr (or_congr_left own) rfl rfl]
  split
  · rfl
  · exact filling_longhand s t

end Splice

namespace Rendering

/-- A rendering of the template in longhand. -/
def longhand (r : Rendering) : Rendering := { r with template := r.template.longhand }

variable {r : Rendering} {s : RenderState}

theorem env_trimmed (r : Rendering) (s : RenderState) : r.env (r.trimLine s) = r.env s := by
  funext v
  unfold env RenderState.local?
  rw [frames_trimLine]

/-- What a plain assignment assigns is the value. -/
theorem assigned_plain (v : Variable) (value : Expr) :
    r.assigned v .assign value s = r.eval s value := by
  unfold assigned
  cases r.eval s value <;> rfl

/-- Unless the variable has an error for a value, its longhand assigns the same. -/
theorem assigned_longhand {v : Variable} {op base : Operator} {value : Expr}
    (compound : op.compoundBase? = some base) (valued : ∀ e, r.env s v ≠ .error e) :
    r.assigned v .assign (.binary base (.var v) value) s = r.assigned v op value s := by
  have left : (Expr.var v).eval (r.env s) = r.env s v := rfl
  have own : r.eval s (.var v) = r.env s v := rfl
  have right : r.eval s value = value.eval (r.env s) := rfl
  rw [assigned_plain]
  unfold assigned
  rw [compound]
  change Expr.eval (r.env s) (.binary base (.var v) value) = _
  cases op <;> cases compound <;>
  · rw [Expr.eval, left]
    · cases found : r.env s v with
      | error e => exact absurd found (valued e)
      | _ =>
        rw [right, own, found]
        cases value.eval (r.env s) <;> rfl
    all_goals rintro ⟨⟩

theorem assign_longhand {v : Variable} {op base : Operator} {value : Expr}
    (compound : op.compoundBase? = some base) (valued : ∀ e, r.env s v ≠ .error e) :
    r.assign v .assign (.binary base (.var v) value) s = r.assign v op value s := by
  unfold assign
  rw [assigned_longhand compound valued]

end Rendering

/-- A cursor in the same place of the table in longhand. -/
def TableCursor.longhand (c : TableCursor) : TableCursor :=
  { c with rest := c.rest.map Node.longhand }

namespace Machine

/-- The machine in the same state of the rendering in longhand. -/
def longhand (m : Machine) : Machine := { m with cursors := m.cursors.map TableCursor.longhand }

/-- The next node is no assignment to a variable with an error for a value. -/
def AssignsToValue (r : Rendering) (m : Machine) : Prop :=
  ∀ cursor outer v op value rest, m.cursors = cursor :: outer →
    cursor.rest = .assign v op value :: rest → ∀ e, r.env m.state v ≠ .error e

variable {r : Rendering}

section Steps

variable {cursor : TableCursor} {outer : List TableCursor} {s : RenderState}

theorem enter_longhand (table : Nat) (encoder : Encoder) (bindings : Bindings)
    (pass : Option Pass) (outer : List TableCursor) :
    enter r.longhand table encoder bindings pass (outer.map TableCursor.longhand) s =
      (enter r table encoder bindings pass outer s).longhand := by
  unfold enter
  rw [show r.longhand.template = r.template.longhand from rfl, Template.table_longhand]
  rfl

theorem again_longhand (table : Nat) (encoder : Encoder) (pass : Pass) (mode : PassMode)
    (values : List Value) : again r.longhand table encoder pass mode values
      (outer.map TableCursor.longhand) s =
        (again r table encoder pass mode values outer s).longhand := by
  unfold again
  split
  · rfl
  · exact enter_longhand _ _ _ _ _

theorem leave_longhand (table : Nat) (encoder : Encoder) (pass : Option Pass) :
    leave r.longhand table encoder pass (outer.map TableCursor.longhand) s =
      (leave r table encoder pass outer s).longhand := by
  unfold leave
  split
  · rfl
  · split
    · rfl
    · rfl
    · exact again_longhand _ _ _ _ _
    · rfl
    · rw [show r.longhand.env s = r.env s from rfl]
      split
      · rfl
      · exact again_longhand _ _ _ _ _

theorem close_longhand : close r.longhand cursor.longhand (outer.map TableCursor.longhand) s =
    (close r cursor outer s).longhand := by
  unfold close
  rw [List.isEmpty_map]
  split
  · rfl
  · exact leave_longhand _ _ _

theorem runBlock_longhand (body : Nat) (name : String) (behaviour : Behaviour) (args : Tuple)
    (cursor : TableCursor) :
    runBlock r.longhand body name behaviour args cursor.longhand
      (outer.map TableCursor.longhand) s =
        (runBlock r body name behaviour args cursor outer s).longhand := by
  unfold runBlock
  rw [show r.longhand.env s = r.env s from rfl]
  split
  · rfl
  · split
    · rfl
    · exact enter_longhand _ _ _ _ ({ cursor with settled := true } :: outer)

/-- A node that is walked by itself, unless it assigns to a variable with an error for a value. -/
theorem walkNode_longhand {node : Node} {encoder : Encoder} (valued : ∀ v op value,
    node = .assign v op value → ∀ e, r.env s v ≠ .error e) :
    r.longhand.walkNode (fun _ _ _ s => s) encoder node.longhand s =
      r.walkNode (fun _ _ _ s => s) encoder node s := by
  cases node with
  | assign v op value =>
    cases compound : op.compoundBase? with
    | none => simp only [Node.longhand, compound]; rfl
    | some base =>
      rw [Node.longhand_assign compound]
      have trimmed (e : EvalError) : r.env (r.trimLine s) v ≠ .error e := by
        rw [Rendering.env_trimmed]
        exact valued v op value rfl e
      exact Rendering.assign_longhand (r := r) compound trimmed
  | define name value => cases value <;> rfl
  | _ => rfl

/-- Without its body behind it, a node that has one is passed. -/
theorem advance_bodiless {table : Nat} {encoder : Encoder} {place : Option String}
    {settled : Bool} {pass : Option Pass} {node : Node} {nodes : List Node}
    (opens : node.hasBody = true) (none : ∀ body more, nodes ≠ .scope (some body) :: more) :
    advance r ⟨table, node :: nodes, encoder, place, settled, pass⟩ outer s =
      ⟨⟨table, nodes, encoder, place, settled, pass⟩ :: outer, r.trimLine s⟩ := by
  have passed (other : Node) (more : List Node) (eq : nodes = other :: more) :
      ∀ body, other ≠ .scope (some body) := by
    rintro body rfl
    exact none body more eq
  -- whatever stands behind the node, it is not the scope of a body
  unfold Node.hasBody at opens
  split at opens
  case h_4 => cases opens
  all_goals
    rcases nodes with _ | ⟨other, more⟩
    · rfl
    · have plain := passed other more rfl
      cases other with
      | scope target =>
        cases target with
        | none => rfl
        | some body => exact absurd rfl (plain body)
      | _ => rfl

/-- A step from the same place in longhand, unless it assigns to a variable with an error. -/
theorem advance_longhand (valued : AssignsToValue r ⟨cursor :: outer, s⟩) :
    advance r.longhand cursor.longhand (outer.map TableCursor.longhand) s =
      (advance r cursor outer s).longhand := by
  obtain ⟨table, nodes, encoder, place, settled, pass⟩ := cursor
  rcases nodes with _ | ⟨node, nodes⟩
  · exact close_longhand
  · have walked : r.longhand.walkNode (fun _ _ _ s => s) encoder node.longhand s =
        r.walkNode (fun _ _ _ s => s) encoder node s :=
      walkNode_longhand fun v op value eq => valued _ _ v op value nodes rfl (by rw [eq])
    have bodiless (opens : node.hasBody = true) (same : node.longhand = node)
        (none : ∀ body more, nodes ≠ .scope (some body) :: more) :
        advance r.longhand
          ⟨table, node.longhand :: nodes.map Node.longhand, encoder, place, settled, pass⟩
          (outer.map TableCursor.longhand) s =
            (advance r ⟨table, node :: nodes, encoder, place, settled, pass⟩ outer s).longhand := by
      rw [same, advance_bodiless opens none, advance_bodiless opens]
      · rfl
      · intro body more eq
        obtain ⟨rest, rfl⟩ := Node.exists_of_map_longhand eq
        exact none body rest rfl
    have bodyOr : (∃ body more, nodes = .scope (some body) :: more) ∨
        ∀ body more, nodes ≠ .scope (some body) :: more := by
      by_cases body : ∃ body more, nodes = .scope (some body) :: more
      · exact .inl body
      · exact .inr fun body' more eq => body ⟨body', more, eq⟩
    cases node with
    | block name chained behaviour args =>
      rcases bodyOr with ⟨body, more, rfl⟩ | none
      · change (if chained && settled then _ else runBlock r.longhand _ _ _ _ _ _ _) =
          Machine.longhand (if chained && settled then _ else runBlock r _ _ _ _ _ _ _)
        split
        · rfl
        · exact runBlock_longhand _ _ _ _ ⟨table, more, encoder, place, settled, pass⟩
      · exact bodiless rfl rfl none
    | encode handler inner =>
      rcases bodyOr with ⟨body, more, rfl⟩ | none
      · exact enter_longhand _ _ _ _ (⟨table, more, encoder, place, settled, pass⟩ :: outer)
      · exact bodiless rfl rfl none
    | define name value =>
      cases value with
      | none =>
        rcases bodyOr with ⟨body, more, rfl⟩ | none
        · rfl
        · exact bodiless rfl rfl none
      | some => rfl
    | assign v op value =>
      obtain ⟨op', value', eq⟩ := Node.exists_longhand_assign v op value
      change advance r.longhand ⟨table, (Node.assign v op value).longhand :: _, _, _, _, _⟩ _ s = _
      rw [eq] at walked ⊢
      change Machine.mk _ (r.longhand.walkNode _ _ _ s) = _
      rw [walked]
      rfl
    | evaluate name default =>
      change advance r.longhand ⟨table, .evaluate name default :: _, _, _, _, _⟩ _ s = _
      simp only [advance]
      split
      · exact enter_longhand _ _ _ _ (⟨table, nodes, encoder, place, settled, pass⟩ :: outer)
      · rfl
    | scope target =>
      cases target with
      | none => rfl
      | some =>
        exact enter_longhand _ _ _ _ (⟨table, nodes, encoder, none, settled, pass⟩ :: outer)
    | _ => rfl

end Steps

/-- A run from the same place in longhand comes to the same places, if no assignment on the way is
to a variable with an error; by induction on the run. -/
theorem reaches_longhand {m m' : Machine} (reaches : Reaches r m m')
    (valued : ∀ site, Reaches r m site → AssignsToValue r site) :
    Reaches r.longhand m.longhand m'.longhand := by
  induction reaches with
  | refl => exact .refl
  | @tail site next before step ih =>
    refine ih.tail ?_
    obtain ⟨cursors, s⟩ := site
    cases cursors with
    | nil => cases step
    | cons cursor outer =>
      cases step
      exact congrArg some (advance_longhand (valued _ before))

/-- Throughout a rendering of an assembled template, what is assigned to has a value. -/
theorem assignsToValue_of_reaches (assembled : r.template.Assembled Template.ParsedCore)
    (context : r.context.Sound) {encoder : Encoder} {m : Machine}
    (reaches : Reaches r (start r encoder) m) : AssignsToValue r m := by
  obtain ⟨env, all⟩ := assembled.scopes
  obtain ⟨known, covered⟩ := assembled.covered
  have layout := (assembled.mono fun _ h => h.parsed).layout
  have framed := framed_of_reaches all covered reaches
  have sound := soundValues_of_reaches covered layout.forward context reaches
  intro cursor outer v op value rest cursors here e
  obtain ⟨_, s⟩ := m
  subst cursors
  obtain ⟨front, place, -, -⟩ := framed.live
  rw [here] at place
  have atomic := covered.isAtomic_assigned
    (place ▸ List.mem_append_right front List.mem_cons_self)
  have found := live_of_assign (r := r) all framed here v.member List.mem_cons_self
  obtain ⟨x, found⟩ := Option.isSome_iff_exists.mp found
  have known : s.local? v.member = some x := found
  have value : r.env s v = x := by
    obtain ⟨scope, member, path⟩ := v
    simp only [Variable.isAtomic, Bool.and_eq_true, Option.isNone_iff_eq_none,
      List.isEmpty_iff] at atomic
    obtain ⟨rfl, rfl⟩ := atomic
    rw [Rendering.env_eq, Rendering.find?, known]
    rfl
  rw [value]
  rintro rfl
  cases sound.state.of_local? known

end Machine

/-- A template in longhand is rendered as the template itself. -/
theorem Template.render_longhand {t : Template} (assembled : t.Assembled ParsedCore)
    {context : Context} (sound : context.Sound) (config : Config) (encoder : Encoder) :
    Rendering.render ⟨t.longhand, context, config⟩ encoder =
      Rendering.render ⟨t, context, config⟩ encoder := by
  let r : Rendering := ⟨t, context, config⟩
  change r.longhand.render encoder = r.render encoder
  have layout := (assembled.mono fun _ h => h.parsed).layout
  have reaches := Machine.reaches_walk (r := r) layout.forward encoder
  have own := Machine.reaches_longhand reaches fun site met =>
    Machine.assignsToValue_of_reaches assembled sound met
  have other := Machine.reaches_walk (r := r.longhand) (forward_longhand layout.forward) encoder
  have start : (Machine.start r encoder).longhand = Machine.start r.longhand encoder :=
    (Machine.enter_longhand _ _ _ _ []).symm
  rw [start] at own
  have ends : (Machine.longhand ⟨[], (r.walk encoder).closeFrame⟩) =
      ⟨[], (r.longhand.walk encoder).closeFrame⟩ := by
    rcases (Machine.reaches_end other rfl own).cases_head with same | ⟨next, step, -⟩
    · exact same
    · cases step
  have states : (r.walk encoder).closeFrame = (r.longhand.walk encoder).closeFrame :=
    congrArg Machine.state ends
  have room : r.longhand.room = r.room := by
    unfold Rendering.room
    exact congrArg (maxScopeDepth + · - 1) (List.length_map _)
  -- leaving the last frame takes a frame only
  have exhausted : (r.longhand.walk encoder).exhausted = (r.walk encoder).exhausted := by
    change (r.longhand.walk encoder).closeFrame.exhausted = (r.walk encoder).closeFrame.exhausted
    rw [states]
  have fatal : r.longhand.fatal? (r.longhand.walk encoder) = r.fatal? (r.walk encoder) := by
    change r.fatal? (r.longhand.walk encoder).closeFrame = r.fatal? (r.walk encoder).closeFrame
    rw [states]
  have output : (r.longhand.walk encoder).output = (r.walk encoder).output := by
    change (r.longhand.walk encoder).closeFrame.output = (r.walk encoder).closeFrame.output
    rw [states]
  rw [Rendering.render, Rendering.render, exhausted, fatal, output, room]
  rfl

end Stencil
