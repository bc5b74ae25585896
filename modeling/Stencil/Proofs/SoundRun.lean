import Stencil.Proofs.CoveredTemplates
import Stencil.Proofs.LiveNames
import Stencil.Proofs.ProvidedValues

/-!
# Sound runs

A rendering of a covered template whose context provides what is required stays *sound*: its
cursors, definitions and passes are grounded in the frames, and a variable is reported as missing
only for its path. Every step keeps this, so that each expression that is evaluated finds its
variables.
-/

namespace Stencil

/-- A variable occurs in an expression of a template. -/
def Template.Mentions (t : Template) (v : Variable) : Prop :=
  ∃ table node e, node ∈ t.table table ∧ e ∈ node.exprs ∧ v ∈ e.vars

/-- A variable is missing only if it has a path. -/
def Template.Excuses (t : Template) (e : EvalError) : Prop :=
  ∀ name, e = .missingVariable name → ∃ v, t.Mentions v ∧ v.Spelled ∧ v.path ≠ [] ∧ name = v.text

theorem Template.closed_excuses (t : Template) :
    Operator.Closed (fun _ => True) t.Excuses :=
  ⟨fun _ _ => trivial, by rintro name reason other ⟨⟩⟩

/-- A covered template, and a context of plain values that provides all that is required. -/
structure Rendering.Ready (r : Rendering) (known : Nat → List String) : Prop where
  covered : r.template.Covered known
  context : r.context.Sound
  provided : ∀ key ∈ r.template.required, r.context.provides key = true

namespace Rendering.Ready

variable {r : Rendering} {known : Nat → List String}

theorem node (h : r.Ready known) {table : Nat} {front rest : List Node} {node : Node}
    (place : r.template.table table = front ++ node :: rest) :
    node.Covered r.template.required known front.getLast?
      (Node.namesAfter (known table) front) := by
  unfold Template.table at place
  cases found : r.template.tables[table]? with
  | none =>
    rw [found] at place
    exact absurd place (by simp)
  | some nodes =>
    have all := h.covered.tables table nodes found
    rw [found, Option.getD_some] at place
    subst place
    have behind := (Node.allCovered_append.mp all).2
    rw [Option.or_none] at behind
    exact behind.1

theorem sound_of_find? (h : r.Ready known) {s : RenderState}
    (frames : FramesGrounded r.template known s.frames) {names : List String}
    (holds : Holds s.frames names) {v : Variable} (spelled : v.Spelled)
    (covered : v.Covered r.template.required names) :
    ∃ base : Value, base.Sound ∧ r.find? s v = base.walk? v.path := by
  have fromFrames {value : Value} (plain : v.scope = none)
      (found : s.local? v.member = some value) :
      ∃ base : Value, base.Sound ∧ r.find? s v = base.walk? v.path := by
    refine ⟨value, frames.plain_of_local? found, ?_⟩
    unfold Rendering.find?
    rw [plain, found]
  rcases covered with ⟨plain, known⟩ | required
  · obtain ⟨value, found⟩ := Option.isSome_iff_exists.mp (holds v.member known)
    exact fromFrames plain found
  · cases found : s.local? v.member with
    | none =>
      obtain ⟨base, sound, got⟩ := h.context.get?_of_provides spelled (h.provided _ required)
      refine ⟨base, sound, ?_⟩
      rw [← got]
      unfold Rendering.find?
      rw [found]
      cases v.scope <;> rfl
    | some value =>
      cases plain : v.scope with
      | none => exact fromFrames plain found
      | some scope =>
        obtain ⟨base, sound, got⟩ := h.context.get?_of_provides spelled (h.provided _ required)
        refine ⟨base, sound, ?_⟩
        rw [← got]
        unfold Rendering.find?
        rw [plain]

/-- A variable of a grounded expression has a value, up to its path. -/
theorem found (h : r.Ready known) {s : RenderState}
    (frames : FramesGrounded r.template known s.frames) {e : Expr}
    (grounded : Grounded r.template known s.frames e) {v : Variable} (mem : v ∈ e.vars) :
    ∃ base : Value, base.Sound ∧ r.find? s v = base.walk? v.path := by
  obtain ⟨table, front, node, rest, place, inside, holds⟩ := grounded
  have covered := (h.node place).exprs e inside
  exact h.sound_of_find? frames holds (covered.settled.spelled v mem) (covered.vars v mem)

/-- A grounded expression has a plain value, or an error that is excused. -/
theorem outcome (h : r.Ready known) {s : RenderState}
    (frames : FramesGrounded r.template known s.frames) {e : Expr}
    (grounded : Grounded r.template known s.frames e) :
    (r.eval s e).Outcome (fun _ => True) r.template.Excuses := by
  obtain ⟨table, front, node, rest, place, inside, holds⟩ := id grounded
  have settled := ((h.node place).exprs e inside).settled
  have literals : e.PlainLiterals fun _ => True := settled.plainLiterals.mono fun _ _ => trivial
  refine literals.outcome r.template.closed_excuses fun v mem => ?_
  obtain ⟨base, sound, found⟩ := h.found frames grounded mem
  rw [r.env_eq, found]
  cases walked : base.walk? v.path with
  | some value => exact .plain (sound.of_walk? walked)
  | none =>
    dsimp only
    split
    · refine .error ?_
      rintro name ⟨⟩
      have mentioned : node ∈ r.template.table table := by
        rw [place]
        simp
      refine ⟨v, ⟨table, node, e, mentioned, inside, mem⟩, settled.spelled v mem, ?_, rfl⟩
      intro empty
      rw [empty] at walked
      cases walked
    · exact .plain .nil

/-- Arguments that are grounded have plain values, or one of them an error that is excused. -/
theorem outcomes (h : r.Ready known) {s : RenderState}
    (frames : FramesGrounded r.template known s.frames) {args : Tuple}
    (grounded : ∀ e ∈ args.values, Grounded r.template known s.frames e) :
    (∀ values, args.eval (r.env s) = .ok values → ∀ v ∈ values, v.Sound) ∧
      ∀ e, args.eval (r.env s) = .error e → r.template.Excuses e := by
  refine Expr.plain_of_evalItems fun item mem => ?_
  exact h.outcome frames (grounded item.2 (List.mem_map.mpr ⟨item, mem, rfl⟩))

end Rendering.Ready

/-- Each pass of a block of the core registry binds plain values, if its arguments had such. -/
theorem Block.Made.sound {tag : String} {made : BlockInstance} (h : Block.Made tag made)
    {entered current : List Value} {index : Nat} (values : ∀ v ∈ entered, v.Sound) :
    AllSound (made.behaviour.pass entered index current).2 := by
  cases h with
  | forLoop =>
    rename_i key item e _ _ _
    simp only [Block.forLoop]
    split
    · intro entry mem
      cases mem
    · rename_i found some
      have inside : found.2.Sound ∧ found.1.Sound := by
        have mem := List.mem_of_getElem? some
        unfold Block.loopEntries at mem
        split at mem
        · rename_i items eq
          obtain ⟨⟨v, position⟩, zipped, rfl⟩ := List.mem_map.mp mem
          have array := values _ (List.mem_of_head? eq)
          cases array with
          | array each => exact ⟨each v (List.fst_mem_of_mem_zipIdx zipped), .int _⟩
        · rename_i entries eq
          obtain ⟨entry, inside, rfl⟩ := List.mem_map.mp mem
          have dictionary := values _ (List.mem_of_head? eq)
          cases dictionary with
          | dictionary _ _ each => exact ⟨each entry inside, .string trivial⟩
        · cases mem
      intro entry mem
      simp only [Block.loopBindings, List.mem_append, List.mem_cons, List.mem_map,
        List.not_mem_nil, or_false] at mem
      rcases mem with (rfl | ⟨name, _, rfl⟩) | rfl | rfl | rfl
      · exact inside.1
      · exact inside.2
      · exact .int _
      · exact .bool _
      · exact .bool _
  | _ =>
    intro entry mem
    cases mem

namespace Machine

variable {r : Rendering} {known : Nat → List String}

/-- The cursors and definitions of a machine are grounded, and its errors are excused. -/
structure Sound (r : Rendering) (known : Nat → List String) (m : Machine) : Prop where
  cursors : CursorsGrounded r.template known m.cursors m.state.frames
  frames : FramesGrounded r.template known m.state.frames
  errors : ∀ e ∈ m.state.errors, r.template.Excuses e

namespace Sound

variable {cursors : List TableCursor} {s s' : RenderState}

theorem of_same (h : Sound r known ⟨cursors, s⟩) (frames : s'.frames = s.frames)
    (errors : s'.errors = s.errors) : Sound r known ⟨cursors, s'⟩ := by
  constructor
  · rw [frames]
    exact h.cursors
  · rw [frames]
    exact h.frames
  · rw [errors]
    exact h.errors

theorem of_grow (h : Sound r known ⟨cursors, s⟩) (grow : FramesGrow s.frames s'.frames)
    (errors : s'.errors = s.errors) : Sound r known ⟨cursors, s'⟩ := by
  constructor
  · exact h.cursors.kept grow.kept
  · exact h.frames.grow grow
  · rw [errors]
    exact h.errors

theorem record (h : Sound r known ⟨cursors, s⟩) {e : EvalError} (excused : r.template.Excuses e) :
    Sound r known ⟨cursors, s.record e⟩ := by
  refine ⟨h.cursors, h.frames, ?_⟩
  intro other mem
  rcases List.mem_cons.mp mem with rfl | mem
  · exact excused
  · exact h.errors other mem

theorem trimLine (h : Sound r known ⟨cursors, s⟩) : Sound r known ⟨cursors, r.trimLine s⟩ := by
  unfold Rendering.trimLine
  split
  · exact h.of_same rfl rfl
  · exact h

theorem setLocal (h : Sound r known ⟨cursors, s⟩) (name : String) {value : Value}
    (sound : value.Sound) : Sound r known ⟨cursors, s.setLocal name value⟩ :=
  h.of_grow (framesGrow_setLocal s name sound) (RenderState.errors_onTop _)

theorem assign (h : Sound r known ⟨cursors, s⟩) (name : String) {value : Value}
    (sound : value.Sound) : Sound r known ⟨cursors, s.assign name value⟩ := by
  refine h.of_grow (framesGrow_assign s name sound) ?_
  unfold RenderState.assign
  split
  · rfl
  · exact RenderState.errors_onTop _

theorem define (h : Sound r known ⟨cursors, s⟩) (name : String) {d : Definition}
    (grounded : d.Grounded r.template known s.frames) :
    Sound r known ⟨cursors, s.define name d⟩ := by
  refine ⟨h.cursors.kept (namesKept_define s name d), h.frames.define name grounded, ?_⟩
  rw [RenderState.define, RenderState.errors_onTop]
  exact h.errors

theorem writeValue (h : Sound r known ⟨cursors, s⟩) (encoder : Encoder) {value : Value}
    (outcome : value.Outcome (fun _ => True) r.template.Excuses) :
    Sound r known ⟨cursors, r.writeValue encoder value s⟩ := by
  unfold Rendering.writeValue
  split
  · have marked : Sound r known ⟨cursors, { s with output := s.output.markValue }⟩ :=
      h.of_same rfl rfl
    exact marked.record outcome.fault_of_error
  · exact h.of_same rfl rfl

section Cursor

variable {cursor : TableCursor} {outer : List TableCursor} {node : Node} {rest : List Node}

theorem frames_cons (h : Sound r known ⟨cursor :: outer, s⟩) :
    ∃ frame frames, s.frames = frame :: frames := by
  have cursors := h.cursors
  cases eq : s.frames with
  | nil =>
    rw [eq] at cursors
    exact cursors.elim
  | cons frame frames => exact ⟨frame, frames, rfl⟩

theorem top (h : Sound r known ⟨cursor :: outer, s⟩) :
    cursor.Grounded r.template known s.frames := by
  obtain ⟨frame, frames, eq⟩ := h.frames_cons
  have cursors := h.cursors
  rw [eq] at cursors ⊢
  exact cursors.1

/-- The node a cursor stands before. -/
theorem here (h : Sound r known ⟨cursor :: outer, s⟩) (eq : cursor.rest = node :: rest) :
    ∃ front, StandsBehind r.template known s.frames cursor.table front (node :: rest) := by
  have stands := h.top.place
  rw [eq] at stands
  exact stands

theorem grounded (h : Sound r known ⟨cursor :: outer, s⟩) (eq : cursor.rest = node :: rest)
    {e : Expr}
    (mem : e ∈ node.exprs) : Grounded r.template known s.frames e := by
  obtain ⟨front, stands⟩ := h.here eq
  exact ⟨cursor.table, front, node, rest, stands.place, mem, stands.holds⟩

/-- The innermost cursor may stand anywhere in its table where all that is known is live. -/
theorem moved (h : Sound r known ⟨cursor :: outer, s⟩) {front : List Node}
    (stands : StandsBehind r.template known s.frames cursor.table front rest)
    (place : Option String) (settled : Bool) :
    Sound r known ⟨{ cursor with rest, place, settled } :: outer, s⟩ := by
  obtain ⟨frame, frames, opened⟩ := h.frames_cons
  have moved : ({ cursor with rest, place, settled } : TableCursor).Grounded r.template known
      s.frames := ⟨⟨front, stands⟩, h.top.pass⟩
  have cursors := h.cursors
  rw [opened] at cursors moved
  refine ⟨?_, h.frames, h.errors⟩
  rw [opened]
  exact ⟨moved, cursors.2⟩

/-- The innermost cursor goes on behind a node whose declarations are live. -/
theorem behind (h : Sound r known ⟨cursor :: outer, s⟩) (eq : cursor.rest = node :: rest)
    (declared : Holds s.frames node.declares)
    (apart : ∀ body more, rest = .scope (some body) :: more → ∀ name, ¬Node.Binds (some node) name)
    (place : Option String) (settled : Bool) :
    Sound r known ⟨{ cursor with rest, place, settled } :: outer, s⟩ := by
  obtain ⟨front, stands⟩ := h.here eq
  have behind : StandsBehind r.template known s.frames cursor.table (front ++ [node]) rest := by
    refine ⟨?_, ?_, ?_⟩
    · rw [stands.place]
      simp
    · intro name mem
      rw [Node.namesAfter_append] at mem
      rcases List.mem_append.mp mem with new | old
      · exact declared name new
      · exact stands.holds name old
    · rw [List.getLast?_concat]
      exact apart
  exact h.moved behind place settled

/-- Behind a node that declares nothing, and the scope of the node. -/
theorem behindScope {target : Option Nat} (h : Sound r known ⟨cursor :: outer, s⟩)
    (eq : cursor.rest = node :: .scope target :: rest) (nothing : node.declares = [])
    (settled : Bool) : Sound r known ⟨{ cursor with rest, settled } :: outer, s⟩ := by
  obtain ⟨front, stands⟩ := h.here eq
  have behind : StandsBehind r.template known s.frames cursor.table
      (front ++ [node, .scope target]) rest := by
    refine ⟨?_, ?_, ?_⟩
    · rw [stands.place]
      simp
    · rw [Node.namesAfter_append]
      change Holds s.frames
        ([] ++ (node.declares ++ Node.namesAfter (known cursor.table) front))
      rw [nothing]
      exact stands.holds
    · intro body more _ name
      rw [List.getLast?_append]
      exact id
  exact h.moved behind cursor.place settled

/-- What is known in the table of a scope is live where the scope stands, or bound by the node
before it. -/
theorem entry_of_scope (ready : r.Ready known) (h : Sound r known ⟨cursor :: outer, s⟩) {body : Nat}
    (eq : cursor.rest = node :: .scope (some body) :: rest) (nothing : node.declares = []) :
    ∀ name ∈ known body, Holds s.frames [name] ∨ Node.Binds (some node) name := by
  obtain ⟨front, stands⟩ := h.here eq
  have behind :
      r.template.table cursor.table = (front ++ [node]) ++ .scope (some body) :: rest := by
    rw [stands.place]
    simp
  intro name mem
  have covered := (ready.node behind).entered body rfl name mem
  rw [List.getLast?_concat, Node.namesAfter_append] at covered
  change name ∈ node.declares ++ Node.namesAfter (known cursor.table) front ∨ _ at covered
  rw [nothing, List.nil_append] at covered
  refine covered.imp_left fun inside other same => ?_
  rw [List.mem_singleton.mp same]
  exact stands.holds name inside

/-- A table is entered where what is known there is live or bound. -/
theorem enter {outer : List TableCursor} (h : Sound r known ⟨outer, s⟩) {table : Nat}
    (encoder : Encoder) {bindings : Bindings} {pass : Option Pass}
    (entry : ∀ name ∈ known table, Holds s.frames [name] ∨ (bindings.find? name).isSome = true)
    (sound : AllSound bindings)
    (passes : ∀ p, pass = some p → p.Grounded r.template known s.frames table) :
    Sound r known (enter r table encoder bindings pass outer s) := by
  have holds : Holds ({ locals := bindings } :: s.frames) (known table) := by
    intro name mem
    rcases entry name mem with live | bound
    · exact live.cons _ name List.mem_cons_self
    · exact findSome?_cons_isSome.mpr (.inl bound)
  have start : StandsBehind r.template known ({ locals := bindings } :: s.frames) table []
      (r.template.table table) := ⟨rfl, holds, fun _ _ _ _ => id⟩
  refine ⟨⟨⟨⟨[], start⟩, passes⟩, h.cursors⟩, ⟨sound, ?_, h.frames⟩, h.errors⟩
  intro entry mem
  cases mem

theorem holds_nothing {frames : List Frame} : Holds frames [] := by
  intro name mem
  cases mem

theorem holds_setLocal (h : Sound r known ⟨cursor :: outer, s⟩) (name : String) (value : Value) :
    Holds (s.setLocal name value).frames [name] := by
  obtain ⟨frame, frames, opened⟩ := h.frames_cons
  unfold RenderState.setLocal RenderState.onTop
  rw [opened]
  intro other mem
  rw [List.mem_singleton.mp mem]
  exact findSome?_cons_isSome.mpr (.inl (by simp))

theorem declare (ready : r.Ready known) (h : Sound r known ⟨cursor :: outer, s⟩) (name : String)
    {value : Option Expr} (grounded : ∀ e ∈ value.toList, Grounded r.template known s.frames e) :
    Sound r known ⟨cursor :: outer, r.declare name value s⟩ ∧
      Holds (r.declare name value s).frames [name] := by
  unfold Rendering.declare
  cases value with
  | none => exact ⟨h.setLocal name .nil, h.holds_setLocal name .nil⟩
  | some e =>
    have outcome := ready.outcome h.frames (grounded e (by simp))
    rw [Option.map_some]
    split
    · rename_i noValue
      cases noValue
    · rename_i error evaluated
      rw [Option.some.inj evaluated] at outcome
      have recorded := h.record outcome.fault_of_error
      exact ⟨recorded.setLocal name .nil, recorded.holds_setLocal name .nil⟩
    · rename_i value notError evaluated
      rw [Option.some.inj evaluated] at outcome
      have sound : value.Sound := outcome.plain_of_not_error fun e eq => notError e (by rw [eq])
      exact ⟨h.setLocal name sound, h.holds_setLocal name _⟩

/-- What an assignment gives its variable, which is a local one. -/
theorem outcome_assigned (ready : r.Ready known) (h : Sound r known ⟨cursor :: outer, s⟩)
    {v : Variable} {op : Operator} {value : Expr} (eq : cursor.rest = .assign v op value :: rest) :
    (r.assigned v op value s).Outcome (fun _ => True) r.template.Excuses := by
  have outcome := ready.outcome h.frames (h.grounded eq (e := value) (by simp [Node.exprs]))
  obtain ⟨front, stands⟩ := h.here eq
  obtain ⟨atomic, mem⟩ := (ready.node stands.place).assigned v op value rfl
  have old : (r.eval s (.var v)).Sound := by
    rw [Variable.isAtomic, Bool.and_eq_true, Option.isNone_iff_eq_none, List.isEmpty_iff] at atomic
    obtain ⟨found, isLocal⟩ := Option.isSome_iff_exists.mp (stands.holds v.member mem)
    have eval : r.eval s (.var v) = found := by
      change r.env s v = found
      rw [r.env_eq, Rendering.find?, atomic.1]
      unfold RenderState.local?
      rw [isLocal, atomic.2]
      rfl
    rw [eval]
    exact h.frames.plain_of_local? isLocal
  unfold Rendering.assigned
  split
  · rename_i error evaluated
    rw [evaluated] at outcome
    exact outcome
  · exact outcome
  · rename_i base _ _
    have new := outcome.plain_of_not_error ‹_›
    exact r.template.closed_excuses.outcome_apply base old new

theorem assignNode (ready : r.Ready known) (h : Sound r known ⟨cursor :: outer, s⟩)
    {v : Variable} {op : Operator} {value : Expr} (eq : cursor.rest = .assign v op value :: rest) :
    Sound r known ⟨cursor :: outer, r.assign v op value s⟩ := by
  have outcome := h.outcome_assigned ready eq
  unfold Rendering.assign
  split
  · rename_i error assigned
    rw [assigned] at outcome
    exact h.record outcome.fault_of_error
  · rename_i value notError
    exact h.assign v.member (outcome.plain_of_not_error notError)

/-- A definition or its default is put out, unless it has a body to be entered. -/
theorem evaluate (ready : r.Ready known) (h : Sound r known ⟨cursor :: outer, s⟩)
    {name : String} {default : Option Expr} (eq : cursor.rest = .evaluate name default :: rest)
    (encoder : Encoder) :
    Sound r known ⟨cursor :: outer, r.evaluate (fun _ _ _ s => s) encoder name default s⟩ := by
  unfold Rendering.evaluate
  split
  · rename_i e found
    have grounded : Grounded r.template known s.frames e := h.frames.of_definition? found
    exact h.writeValue encoder (ready.outcome h.frames grounded)
  · split
    · exact h.record (by rintro other ⟨⟩)
    · exact h
  · cases default with
    | none => exact h.writeValue encoder (.plain .nil)
    | some e =>
      have grounded := h.grounded eq (e := e) (by simp [Node.exprs])
      exact h.writeValue encoder (ready.outcome h.frames grounded)

/-- A node that is walked without a scope of its own. -/
theorem walkNode (ready : r.Ready known) (h : Sound r known ⟨cursor :: outer, s⟩)
    (eq : cursor.rest = node :: rest) (encoder : Encoder) :
    Sound r known ⟨cursor :: outer, r.walkNode (fun _ _ _ s => s) encoder node s⟩ ∧
      Holds (r.walkNode (fun _ _ _ s => s) encoder node s).frames node.declares := by
  have trimmed := h.trimLine
  cases node with
  | raw text => exact ⟨h.of_same rfl rfl, holds_nothing⟩
  | output e =>
    have outcome := ready.outcome h.frames (h.grounded eq (e := e) (by simp [Node.exprs]))
    exact ⟨h.writeValue encoder outcome, holds_nothing⟩
  | declare name constant value =>
    exact trimmed.declare ready name fun e mem => trimmed.grounded eq mem
  | assign v op value => exact ⟨trimmed.assignNode ready eq, holds_nothing⟩
  | define name value =>
    cases value with
    | none => exact ⟨trimmed, holds_nothing⟩
    | some e =>
      have grounded := trimmed.grounded eq (e := e) (by simp [Node.exprs])
      exact ⟨trimmed.define name grounded, holds_nothing⟩
  | evaluate name default => exact ⟨h.evaluate ready eq encoder, holds_nothing⟩
  | block | encode | inline => exact ⟨trimmed, holds_nothing⟩
  | scope => exact ⟨h, holds_nothing⟩

end Cursor

section Passes

variable {outer : List TableCursor} {table : Nat} {pass : Pass}

/-- The names and values of one more pass. -/
theorem pass_bindings {tag : String} {behaviour : Behaviour} {args : Tuple}
    (made : ∃ declared, Block.Made tag ⟨behaviour, args, declared⟩) {entered : List Value}
    (sound : ∀ v ∈ entered, v.Sound) {bindings : Bindings} (old : AllSound bindings) {index : Nat}
    {current : List Value} (goes : (behaviour.pass entered index current).1 ≠ .discard) :
    AllSound (bindings.insertAll (behaviour.pass entered index current).2) ∧
      ∀ name, behaviour.Binds name →
        ((bindings.insertAll (behaviour.pass entered index current).2).find? name).isSome =
          true := by
  obtain ⟨declared, made⟩ := made
  constructor
  · intro entry mem
    rcases Entries.mem_insertAll mem with mem | mem
    · exact old entry mem
    · exact made.sound sound entry mem
  · intro name binds
    exact Entries.find?_insertAll_isSome.mpr (.inr (binds entered index current goes))

theorem again (h : Sound r known ⟨outer, s⟩) (encoder : Encoder)
    (grounded : pass.Grounded r.template known s.frames table) (mode : PassMode)
    (values : List Value) :
    Sound r known (Machine.again r table encoder pass mode values outer s) := by
  unfold Machine.again
  rcases decided : pass.behaviour.again pass.run values with ⟨verdict, run⟩
  cases verdict with
  | discard => exact h
  | _ =>
    simp only [Behaviour.again, Prod.mk.injEq] at decided
    obtain ⟨goes, rfl⟩ := decided
    have goesOn : (pass.behaviour.pass pass.run.entered (pass.run.index + 1) values).1 ≠
        .discard := by
      rw [goes]
      rintro ⟨⟩
    have bound := pass_bindings grounded.made grounded.entered grounded.bindings goesOn
    refine h.enter encoder (fun name mem => ?_) bound.1 ?_
    · exact (grounded.entry name mem).imp_right (bound.2 name)
    · rintro p ⟨⟩
      exact ⟨grounded.made, grounded.args, grounded.entry, grounded.entered, bound.1⟩

theorem leave (ready : r.Ready known) (h : Sound r known ⟨outer, s⟩) (encoder : Encoder)
    {pass : Option Pass}
    (grounded : ∀ p, pass = some p → p.Grounded r.template known s.frames table) :
    Sound r known (Machine.leave r table encoder pass outer s) := by
  unfold Machine.leave
  split
  · exact h
  · rename_i pass
    have grounded := grounded pass rfl
    split
    · exact h
    · exact h
    · exact h.again encoder grounded _ _
    · exact h.record (by rintro other ⟨⟩)
    · have outcomes := ready.outcomes h.frames grounded.args
      split
      · rename_i error evaluated
        exact h.record (outcomes.2 error evaluated)
      · exact h.again encoder grounded _ _

theorem close {cursor : TableCursor} (ready : r.Ready known)
    (h : Sound r known ⟨cursor :: outer, s⟩) : Sound r known (Machine.close r cursor outer s) := by
  obtain ⟨frame, frames, opened⟩ := h.frames_cons
  have tail : s.closeFrame.frames = frames := by
    rw [RenderState.closeFrame, opened]
    rfl
  have passes := h.top.pass
  have closed : Sound r known ⟨outer, s.closeFrame⟩ := by
    obtain ⟨cursors, grounded, errors⟩ := h
    rw [opened] at cursors grounded
    refine ⟨?_, ?_, errors⟩
    · rw [tail]
      exact cursors.2
    · rw [tail]
      exact grounded.2.2
  unfold Machine.close
  split
  · rename_i last
    rw [List.isEmpty_iff.mp last] at closed
    exact closed
  · refine closed.trimLine.leave ready cursor.encoder fun p eq => ?_
    rw [r.frames_trimLine]
    exact passes p eq

theorem runBlock {cursor : TableCursor} {rest : List Node} (ready : r.Ready known) {name : String}
    {chained : Bool} {behaviour : Behaviour} {args : Tuple} {body : Nat}
    (h : Sound r known ⟨cursor :: outer, s⟩)
    (eq : cursor.rest = .block name chained behaviour args :: .scope (some body) :: rest) :
    Sound r known
      (Machine.runBlock r body name behaviour args { cursor with rest := rest } outer s) := by
  have behind (settled : Bool) : Sound r known ⟨{ cursor with rest, settled } :: outer, s⟩ :=
    h.behindScope eq rfl settled
  have grounded : ∀ e ∈ args.values, Grounded r.template known s.frames e :=
    fun e mem => h.grounded eq mem
  have outcomes := ready.outcomes h.frames grounded
  obtain ⟨front, stands⟩ := h.here eq
  have made := (ready.node stands.place).made name chained behaviour args rfl
  unfold Machine.runBlock
  split
  · rename_i error evaluated
    exact (behind true).record (outcomes.2 error evaluated)
  · rename_i values evaluated
    have sound := outcomes.1 values evaluated
    rcases decided : behaviour.enter {} values with ⟨verdict, run⟩
    cases verdict with
    | discard => exact behind false
    | _ =>
      simp only [Behaviour.enter, Prod.mk.injEq] at decided
      obtain ⟨goes, rfl⟩ := decided
      have goesOn : (behaviour.pass values 0 values).1 ≠ .discard := by
        rw [goes]
        rintro ⟨⟩
      have none : AllSound [] := by simp [AllSound]
      have bound := pass_bindings made sound none goesOn
      have entry := h.entry_of_scope ready eq rfl
      refine (behind true).enter cursor.encoder (fun name mem => ?_) bound.1 ?_
      · exact (entry name mem).imp_right (bound.2 name)
      · rintro p ⟨⟩
        exact ⟨made, grounded, entry, sound, bound.1⟩

end Passes

end Sound

/-- Only an evaluation of a definition with a body opens the body. -/
theorem evaluate_of_bodyOf? {s : RenderState} {node : Node} {body : Nat}
    (h : bodyOf? s node = some body) :
    ∃ name default, node = .evaluate name default ∧ s.definition? name = some (.body body) := by
  unfold bodyOf? at h
  split at h
  · rename_i name default
    split at h
    · rename_i table found
      split at h
      · cases h
      · cases h
        exact ⟨name, default, rfl, found⟩
    · cases h
  · cases h

theorem sound_advance (ready : r.Ready known) {cursor : TableCursor} {outer : List TableCursor}
    {s : RenderState} (h : Sound r known ⟨cursor :: outer, s⟩) :
    Sound r known (advance r cursor outer s) := by
  have trimmed := h.trimLine
  have noBinding : AllSound [] := by simp [AllSound]
  unfold advance
  split
  · exact h.close ready
  · rename_i name chained behaviour args body rest eq
    split
    · exact trimmed.behindScope eq rfl cursor.settled
    · exact trimmed.runBlock ready eq
  · rename_i name body rest eq
    have behind := trimmed.behindScope eq rfl cursor.settled
    refine behind.define name fun other mem => ?_
    exact (trimmed.entry_of_scope ready eq rfl other mem).resolve_right id other List.mem_cons_self
  · rename_i handler inner body rest eq
    have behind := trimmed.behindScope eq rfl cursor.settled
    refine behind.enter inner (fun name mem => ?_) noBinding ?_
    · exact .inl ((trimmed.entry_of_scope ready eq rfl name mem).resolve_right id)
    · rintro p ⟨⟩
  · rename_i body rest eq
    obtain ⟨front, stands⟩ := h.here eq
    have behind := h.behind eq Sound.holds_nothing (fun _ _ _ _ => id) none cursor.settled
    refine behind.enter cursor.encoder (fun name mem => ?_) noBinding ?_
    · have known := (ready.node stands.place).entered body rfl name mem
      refine .inl fun other same => ?_
      rw [List.mem_singleton.mp same]
      exact stands.holds name (known.resolve_right (stands.apart body rest rfl name))
    · rintro p ⟨⟩
  · rename_i rest eq
    have behind := h.behind eq Sound.holds_nothing (fun _ _ _ _ => id) none cursor.settled
    exact behind.record (by rintro other ⟨⟩)
  · rename_i node rest notBlock _ _ _ _ eq
    have apart : ∀ body more, rest = .scope (some body) :: more →
        ∀ name, ¬Node.Binds (some node) name := by
      rintro body more rfl name
      cases node with
      | block tag chained behaviour args =>
        exact (notBlock tag chained behaviour args body more rfl rfl).elim
      | _ => exact id
    have walked := h.walkNode ready eq cursor.encoder
    dsimp only
    split
    · rename_i body found
      obtain ⟨name, default, rfl, defined⟩ := evaluate_of_bodyOf? found
      have behind := h.behind eq Sound.holds_nothing apart (none.or cursor.place) cursor.settled
      have grounded : Holds s.frames (known body) := h.frames.of_definition? defined
      refine behind.enter cursor.encoder (fun other mem => .inl fun same inside => ?_) noBinding ?_
      · rw [List.mem_singleton.mp inside]
        exact grounded other mem
      · rintro p ⟨⟩
    · exact walked.1.behind eq walked.2 apart _ _

/-- A step keeps a machine sound. -/
theorem sound_of_step (ready : r.Ready known) {m m' : Machine} (h : Sound r known m)
    (step : step r m = some m') : Sound r known m' := by
  unfold Machine.step at step
  split at step
  · cases step
  · rename_i cursor outer cursors
    cases step
    have here : Sound r known ⟨cursor :: outer, m.state⟩ := by
      rw [← cursors]
      exact h
    exact sound_advance ready here

/-- A sound machine stays sound. -/
theorem sound_of_reaches (ready : r.Ready known) {m m' : Machine} (h : Sound r known m)
    (reaches : Reaches r m m') : Sound r known m' := by
  induction reaches with
  | refl => exact h
  | tail _ step ih => exact sound_of_step ready ih step

theorem sound_start (ready : r.Ready known) (encoder : Encoder) :
    Sound r known (start r encoder) := by
  have nothing : Sound r known ⟨[], {}⟩ := ⟨trivial, trivial, by simp⟩
  refine nothing.enter encoder ?_ ?_ ?_
  · rw [ready.covered.start]
    simp
  · intro entry mem
    cases mem
  · rintro p ⟨⟩

end Machine

end Stencil
