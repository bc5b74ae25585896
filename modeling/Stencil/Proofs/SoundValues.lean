import Stencil.Proofs.ChainWalk
import Stencil.Proofs.SoundRun

/-!
# Values in frames

Where the values of the context are sound, those of the frames are so throughout a rendering,
whether or not the context provides all that is required: an expression has a sound value or an
error, and no error is stored (`Machine.soundValues_of_reaches`). In particular the keys of each
dictionary that an expression evaluates to are ascending.
-/

namespace Stencil

/-- All values of the open scopes are sound. -/
def RenderState.SoundValues (s : RenderState) : Prop := ∀ frame ∈ s.frames, AllSound frame.locals

/-- What a pass binds stays sound: its block is of the core registry, and was entered with sound
values. -/
structure Pass.SoundValues (pass : Pass) : Prop where
  made : ∃ declared, Block.Made pass.name ⟨pass.behaviour, pass.args, declared⟩
  entered : ∀ v ∈ pass.run.entered, v.Sound
  bindings : AllSound pass.run.bindings

/-- All values of the open scopes and of their passes are sound. -/
structure Machine.SoundValues (m : Machine) : Prop where
  state : m.state.SoundValues
  passes : ∀ cursor ∈ m.cursors, ∀ pass, cursor.pass = some pass → pass.SoundValues

/-- A sound value or an error. -/
abbrev Value.SoundOrError (v : Value) : Prop := v.Outcome (fun _ => True) fun _ => True

theorem Context.Sound.of_get? {c : Context} (h : c.Sound) {v : Variable} {value : Value}
    (found : c.get? v = some value) : value.Sound := by
  unfold get? at found
  obtain ⟨base, here, walked⟩ := Option.bind_eq_some_iff.mp found
  refine Value.Plain.of_walk? ?_ walked
  split at here
  · exact h.root _ (Entries.mem_of_find? here)
  · split at here
    · exact h.root _ (Entries.mem_of_find? here)
    · obtain ⟨values, scope, here⟩ := Option.bind_eq_some_iff.mp here
      exact h.of_scope? scope _ (Entries.mem_of_find? here)

namespace RenderState

variable {s s' : RenderState}

theorem SoundValues.congr (h : s.SoundValues) (same : s'.frames = s.frames) : s'.SoundValues := by
  unfold SoundValues
  rw [same]
  exact h

theorem SoundValues.grow (h : s.SoundValues) (grow : FramesGrow s.frames s'.frames) :
    s'.SoundValues := by
  unfold SoundValues at h ⊢
  generalize s.frames = frames at h grow
  generalize s'.frames = frames' at grow
  induction grow with
  | nil => exact h
  | cons first _ ih =>
    obtain ⟨here, outer⟩ := List.forall_mem_cons.mp h
    exact List.forall_mem_cons.mpr ⟨first.plain here, ih outer⟩

theorem SoundValues.define (h : s.SoundValues) (name : String) (definition : Definition) :
    (s.define name definition).SoundValues := by
  unfold RenderState.define onTop
  split
  · rename_i top outer frames
    unfold SoundValues at h
    rw [frames] at h
    obtain ⟨here, outer⟩ := List.forall_mem_cons.mp h
    exact List.forall_mem_cons.mpr ⟨here, outer⟩
  · exact h

theorem SoundValues.of_local? (h : s.SoundValues) {name : String} {value : Value}
    (found : s.local? name = some value) : value.Sound := by
  obtain ⟨frame, mem, here⟩ := List.exists_of_findSome?_eq_some found
  exact h frame mem _ (Entries.mem_of_find? here)

theorem SoundValues.trimLine (h : s.SoundValues) (r : Rendering) : (r.trimLine s).SoundValues :=
  h.congr r.frames_trimLine

end RenderState

namespace Rendering

variable {r : Rendering} {s : RenderState}

/-- Every variable has a sound value or is an error. -/
theorem soundOrError_env (context : r.context.Sound) (h : s.SoundValues) (v : Variable) :
    (r.env s v).SoundOrError := by
  rw [r.env_eq]
  split
  · rename_i value found
    refine .plain ?_
    unfold find? at found
    split at found
    · rename_i base _ here
      exact (h.of_local? here).of_walk? found
    · exact context.of_get? found
  · split
    · exact .error trivial
    · exact .plain .nil

theorem soundOrError_eval (context : r.context.Sound) (h : s.SoundValues) {e : Expr}
    (settled : e.Settled) : (r.eval s e).SoundOrError := by
  have literals : e.PlainLiterals fun _ => True := settled.plainLiterals.mono fun _ _ => trivial
  exact literals.outcome ⟨fun _ _ => trivial, fun _ _ => trivial⟩
    fun v _ => soundOrError_env context h v

theorem sound_of_eval (context : r.context.Sound) (h : s.SoundValues) {args : Tuple}
    (settled : ∀ e ∈ args.values, e.Settled) {values : List Value}
    (given : args.eval (r.env s) = .ok values) : ∀ v ∈ values, v.Sound := by
  have each : ∀ item ∈ args, (item.2.eval (r.env s)).SoundOrError := fun item mem =>
    soundOrError_eval context h (settled item.2 (List.mem_map.mpr ⟨item, mem, rfl⟩))
  exact (Expr.plain_of_evalItems each).1 values given

theorem soundValues_writeValue (h : s.SoundValues) (encoder : Encoder) (value : Value) :
    (r.writeValue encoder value s).SoundValues := by
  unfold writeValue
  split <;> exact h.congr rfl

theorem soundValues_declare (context : r.context.Sound) (h : s.SoundValues) (name : String)
    {value : Option Expr} (settled : ∀ e ∈ value.toList, e.Settled) :
    (r.declare name value s).SoundValues := by
  have set {s : RenderState} (h : s.SoundValues) {value : Value} (sound : value.Sound) :
      (s.setLocal name value).SoundValues := h.grow (framesGrow_setLocal s name sound)
  unfold declare
  split
  · exact set h .nil
  · exact set (s := s.record _) (h.congr rfl) .nil
  · rename_i data notError evaluated
    obtain ⟨e, rfl, rfl⟩ := Option.map_eq_some_iff.mp evaluated
    have outcome := soundOrError_eval context h (settled e (by simp))
    exact set h (outcome.plain_of_not_error fun e eq => notError e (by rw [eq]))

theorem soundValues_assign (context : r.context.Sound) (h : s.SoundValues) {v : Variable}
    {op : Operator} {value : Expr} (settled : value.Settled) :
    (r.assign v op value s).SoundValues := by
  have outcome : (r.assigned v op value s).SoundOrError := by
    have right := soundOrError_eval context h settled
    unfold assigned
    split
    · exact .error trivial
    · exact right
    · rename_i base compound notError
      cases sound : (base.apply (r.eval s (.var v)) (r.eval s value)).isError with
      | true =>
        obtain ⟨e, failed⟩ := Value.eq_error_of_isError sound
        rw [failed]
        exact .error trivial
      | false =>
        have notFailed := Operator.sound_of_compound compound sound
        have left : (r.eval s (.var v)).Sound := by
          refine (soundOrError_env context h v).plain_of_not_error fun e eq => ?_
          rw [show r.eval s (.var v) = .error e from eq] at notFailed
          cases notFailed
        exact Operator.Closed.outcome_apply ⟨fun _ _ => trivial, fun _ _ => trivial⟩ base left
          (right.plain_of_not_error notError)
  unfold assign
  split
  · exact h.congr rfl
  · rename_i notError
    exact h.grow (framesGrow_assign s v.member (outcome.plain_of_not_error notError))

end Rendering

/-- The expressions of a template are settled. -/
theorem Template.Covered.settled {t : Template} {known : Nat → List String} (h : t.Covered known)
    {table : Nat} {node : Node} (mem : node ∈ t.table table) : ∀ e ∈ node.exprs, e.Settled := by
  unfold Template.table at mem
  cases found : t.tables[table]? with
  | none =>
    rw [found] at mem
    cases mem
  | some nodes =>
    rw [found, Option.getD_some] at mem
    obtain ⟨front, rest, rfl⟩ := List.append_of_mem mem
    have covered := (Node.allCovered_append.mp (h.tables table _ found)).2.1
    exact fun e inside => (covered.exprs e inside).settled

namespace Machine

namespace SoundValues

variable {r : Rendering} {cursor next : TableCursor} {outer : List TableCursor}
  {s s' : RenderState} {pass : Pass}

theorem on (h : SoundValues ⟨cursor :: outer, s⟩) (same : next.pass = cursor.pass)
    (state : s'.SoundValues) : SoundValues ⟨next :: outer, s'⟩ := by
  obtain ⟨here, below⟩ := List.forall_mem_cons.mp h.passes
  exact ⟨state, List.forall_mem_cons.mpr ⟨same ▸ here, below⟩⟩

theorem enter {outer : List TableCursor} (h : SoundValues ⟨outer, s⟩) (table : Nat)
    (encoder : Encoder) {bindings : Bindings} (bound : AllSound bindings) {pass : Option Pass}
    (passes : ∀ p, pass = some p → p.SoundValues) :
    SoundValues (Machine.enter r table encoder bindings pass outer s) :=
  ⟨List.forall_mem_cons.mpr ⟨bound, h.state⟩, List.forall_mem_cons.mpr ⟨passes, h.passes⟩⟩

theorem enterPlain {outer : List TableCursor} (h : SoundValues ⟨outer, s⟩) (table : Nat)
    (encoder : Encoder) : SoundValues (Machine.enter r table encoder [] none outer s) :=
  h.enter table encoder (List.forall_mem_nil _) (by rintro p ⟨⟩)

/-- What a pass binds is sound. -/
theorem bound {tag : String} {behaviour : Behaviour} {args : Tuple}
    (made : ∃ declared, Block.Made tag ⟨behaviour, args, declared⟩) {entered : List Value}
    (sound : ∀ v ∈ entered, v.Sound) {bindings : Bindings} (old : AllSound bindings) (index : Nat)
    (current : List Value) :
    AllSound (bindings.insertAll (behaviour.pass entered index current).2) := by
  obtain ⟨declared, made⟩ := made
  intro entry mem
  rcases Entries.mem_insertAll mem with mem | mem
  · exact old entry mem
  · exact made.sound sound entry mem

theorem again {outer : List TableCursor} (h : SoundValues ⟨outer, s⟩) (table : Nat)
    (encoder : Encoder) (sound : pass.SoundValues) (mode : PassMode) (values : List Value) :
    SoundValues (Machine.again r table encoder pass mode values outer s) := by
  unfold Machine.again
  split
  · exact h
  · rename_i verdict run _ decided
    have bound := bound sound.made sound.entered sound.bindings (pass.run.index + 1) values
    cases decided
    refine h.enter table encoder bound ?_
    rintro p ⟨⟩
    exact ⟨sound.made, sound.entered, bound⟩

theorem leave {outer : List TableCursor} (h : SoundValues ⟨outer, s⟩) (table : Nat)
    (encoder : Encoder) {pass : Option Pass} (sound : ∀ p, pass = some p → p.SoundValues) :
    SoundValues (Machine.leave r table encoder pass outer s) := by
  have recorded (e : EvalError) : SoundValues ⟨outer, s.record e⟩ := ⟨h.state.congr rfl, h.passes⟩
  unfold Machine.leave
  split
  · exact h
  · rename_i pass
    have sound := sound pass rfl
    split
    · exact h
    · exact h
    · exact h.again _ _ sound _ _
    · exact recorded _
    · split
      · exact recorded _
      · exact h.again _ _ sound _ _

theorem close (h : SoundValues ⟨cursor :: outer, s⟩) :
    SoundValues (Machine.close r cursor outer s) := by
  obtain ⟨here, below⟩ := List.forall_mem_cons.mp h.passes
  have closed : s.closeFrame.SoundValues := fun frame mem =>
    h.state frame (List.mem_of_mem_tail mem)
  unfold Machine.close
  split
  · exact ⟨closed, by simp⟩
  · exact leave ⟨closed.trimLine r, below⟩ _ _ here

theorem runBlock (context : r.context.Sound) (h : SoundValues ⟨cursor :: outer, s⟩) (body : Nat)
    {name : String} {behaviour : Behaviour} {args : Tuple}
    (made : ∃ declared, Block.Made name ⟨behaviour, args, declared⟩)
    (settled : ∀ e ∈ args.values, e.Settled) :
    SoundValues (Machine.runBlock r body name behaviour args cursor outer s) := by
  have on (settled : Bool) {s' : RenderState} (state : s'.SoundValues) :
      SoundValues ⟨{ cursor with settled } :: outer, s'⟩ := h.on rfl state
  unfold Machine.runBlock
  split
  · exact on true (h.state.congr rfl)
  · rename_i values given
    have sound := Rendering.sound_of_eval context h.state settled given
    split
    · exact on false h.state
    · rename_i verdict run _ decided
      have bound := bound made sound (List.forall_mem_nil _ : AllSound []) 0 values
      cases decided
      refine (on true h.state).enter _ _ bound ?_
      rintro p ⟨⟩
      exact ⟨made, sound, bound⟩

/-- A node that opens no scope stores sound values only. -/
theorem walkNode (context : r.context.Sound) (h : s.SoundValues) (encoder : Encoder) {node : Node}
    (settled : ∀ e ∈ node.exprs, e.Settled) :
    (r.walkNode (fun _ _ _ s => s) encoder node s).SoundValues := by
  have trimmed := h.trimLine r
  cases node with
  | raw text => exact h.congr rfl
  | output e => exact Rendering.soundValues_writeValue h _ _
  | declare name constant value => exact Rendering.soundValues_declare context trimmed _ settled
  | assign v op value =>
    exact Rendering.soundValues_assign context trimmed (settled value (by simp [Node.exprs]))
  | define name value =>
    cases value with
    | none => exact trimmed
    | some e => exact trimmed.define _ _
  | evaluate name default =>
    simp only [Rendering.walkNode, Rendering.evaluate]
    split
    · exact Rendering.soundValues_writeValue h _ _
    · split <;> exact h.congr rfl
    · exact Rendering.soundValues_writeValue h _ _
  | block | encode | inline => exact trimmed
  | scope => exact h

theorem advance {known : Nat → List String} (covered : r.template.Covered known)
    (context : r.context.Sound) (h : SoundValues ⟨cursor :: outer, s⟩)
    (stands : cursor.rest ⊆ r.template.table cursor.table) :
    SoundValues (Machine.advance r cursor outer s) := by
  have trimmed := h.state.trimLine r
  have on {rest : List Node} {place : Option String} {s' : RenderState} (state : s'.SoundValues) :
      SoundValues ⟨{ cursor with rest, place } :: outer, s'⟩ := h.on rfl state
  unfold Machine.advance
  split
  · exact h.close
  · rename_i name chained behaviour args body rest here
    have mem : .block name chained behaviour args ∈ r.template.table cursor.table :=
      stands (by rw [here]; exact List.mem_cons_self)
    split
    · exact on trimmed
    · exact (on trimmed).runBlock context body (covered.made mem) (covered.settled mem)
  · exact on (trimmed.define _ _)
  · exact (on trimmed).enterPlain _ _
  · exact (on h.state).enterPlain _ _
  · exact on (h.state.congr rfl)
  · rename_i node rest _ _ _ _ _ here
    have mem : node ∈ r.template.table cursor.table :=
      stands (by rw [here]; exact List.mem_cons_self)
    dsimp only
    split
    · exact (on h.state).enterPlain _ _
    · exact on (walkNode context h.state _ (covered.settled mem))

end SoundValues

/-- Throughout a rendering the values in frames are sound. -/
theorem soundValues_of_reaches {r : Rendering} {known : Nat → List String}
    (covered : r.template.Covered known)
    (forward : Forward r.template.tables.length r.template.tables) (context : r.context.Sound)
    {encoder : Encoder} {m : Machine} (reaches : Reaches r (start r encoder) m) :
    m.SoundValues := by
  induction reaches with
  | refl =>
    have nothing : SoundValues ⟨[], {}⟩ := ⟨by rintro _ ⟨⟩, by rintro _ ⟨⟩⟩
    exact nothing.enterPlain _ _
  | @tail m next before step ih =>
    obtain ⟨cursors, s⟩ := m
    cases cursors with
    | nil => cases step
    | cons cursor outer =>
      cases step
      have stands := (stacked_of_reaches forward before).stands List.mem_cons_self
      exact ih.advance covered context stands.subset

end Machine

end Stencil
