import Stencil.Proofs.RecordedErrors
import Stencil.Proofs.LenientDefaults
import Stencil.Proofs.ReadExpressions

/-!
# Strict and lenient renderings side by side

The same template is rendered in strict and in lenient mode. As long as no variable is missing in
strict mode, each step in lenient mode does the same: it walks the same nodes, writes the same
output, and records an error where the other records one (`Machine.tracks_step`). So what succeeds
in strict mode succeeds in lenient mode with the same text, if every `??` replaces its left operand
in both (`Template.render_lenient`), which can be seen from the template if each left operand fades
(`Template.render_lenient_of_fading`). A `??` whose left operand makes something else of nil tells
the modes apart (`Template.default_tells_modes_apart`).
-/

namespace Stencil

/-- The same rendering in lenient mode. -/
def Rendering.lenient (r : Rendering) : Rendering :=
  { r with config := { r.config with strict := false } }

namespace RenderState

/-- A variable was missing. -/
def Misses (s : RenderState) : Prop := ∃ name, .missingVariable name ∈ s.errors

/-- States that differ at most in which errors are recorded, but not in how many. -/
structure Parallels (s s' : RenderState) : Prop where
  output : s'.output = s.output
  frames : s'.frames = s.frames
  exhausted : s'.exhausted = s.exhausted
  errors : s'.errors.length = s.errors.length

/-- The state in lenient mode goes with that in strict mode, unless a variable was missing. -/
def Tracks (s s' : RenderState) : Prop := s.Misses ∨ s.Parallels s'

variable {s s' : RenderState}

theorem misses_record (name : String) : (s.record (.missingVariable name)).Misses :=
  ⟨name, List.mem_cons_self⟩

namespace Parallels

theorem record (h : Parallels s s') (e e' : EvalError) :
    Parallels (s.record e) (s'.record e') :=
  ⟨h.output, h.frames, h.exhausted, congrArg Nat.succ h.errors⟩

theorem onTop (h : Parallels s s') (change : Frame → Frame) :
    Parallels (s.onTop change) (s'.onTop change) := by
  unfold RenderState.onTop
  rw [h.frames]
  split
  · exact ⟨h.output, rfl, h.exhausted, h.errors⟩
  · exact h

theorem setLocal (h : Parallels s s') (name : String) (value : Value) :
    Parallels (s.setLocal name value) (s'.setLocal name value) := h.onTop _

theorem define (h : Parallels s s') (name : String) (definition : Definition) :
    Parallels (s.define name definition) (s'.define name definition) := h.onTop _

theorem assign (h : Parallels s s') (name : String) (value : Value) :
    Parallels (s.assign name value) (s'.assign name value) := by
  unfold RenderState.assign
  rw [h.frames]
  split
  · exact ⟨h.output, rfl, h.exhausted, h.errors⟩
  · exact h.setLocal name value

theorem openFrame (h : Parallels s s') (bindings : Bindings) :
    Parallels (s.openFrame bindings) (s'.openFrame bindings) :=
  ⟨h.output, congrArg (_ :: ·) h.frames, h.exhausted, h.errors⟩

theorem closeFrame (h : Parallels s s') : Parallels s.closeFrame s'.closeFrame :=
  ⟨h.output, congrArg List.tail h.frames, h.exhausted, h.errors⟩

/-- What is written depends on what was written before. -/
theorem write (h : Parallels s s') (change : Output → Output) :
    Parallels { s with output := change s.output } { s' with output := change s'.output } :=
  ⟨congrArg change h.output, h.frames, h.exhausted, h.errors⟩

theorem trimLine (h : Parallels s s') (r : Rendering) :
    Parallels (r.trimLine s) (r.lenient.trimLine s') := by
  have same : r.lenient.trimLine s' = r.trimLine s' := rfl
  rw [same]
  unfold Rendering.trimLine
  split
  · exact h.write Output.trimLine
  · exact h

theorem definition? (h : Parallels s s') (name : String) :
    s'.definition? name = s.definition? name := by
  unfold RenderState.definition?
  rw [h.frames]

theorem lenient_env (h : Parallels s s') (r : Rendering) : r.lenient.env s' = r.lenient.env s := by
  funext v
  unfold Rendering.env RenderState.local?
  rw [h.frames]

theorem lenient_eval (h : Parallels s s') (r : Rendering) (e : Expr) :
    r.lenient.eval s' e = r.lenient.eval s e := by
  unfold Rendering.eval
  rw [h.lenient_env]

end Parallels

end RenderState

namespace Rendering

open RenderState (Misses Parallels Tracks)

variable (r : Rendering) {s s' : RenderState}

/-- An expression has the same value in both modes, unless a variable is missing. -/
def Relaxes (s : RenderState) (e : Expr) : Prop := (r.eval s e).Relaxes (r.lenient.eval s e)

theorem relaxes_env (s : RenderState) : (r.env s).Relaxes (r.lenient.env s) := by
  intro v
  rw [r.env_eq, r.lenient.env_eq]
  have same : r.lenient.find? s v = r.find? s v := rfl
  rw [same]
  cases r.find? s v with
  | some value => exact .inl rfl
  | none =>
    cases strict : r.config.strict with
    | true => exact .inr ⟨⟨_, rfl⟩, rfl⟩
    | false => exact .inl rfl

variable {r}

theorem Relaxes.trimLine {e : Expr} (h : r.Relaxes s e) : r.Relaxes (r.trimLine s) e := by
  unfold Relaxes at h ⊢
  have same : r.lenient.eval (r.trimLine s) e = r.lenient.eval s e := r.lenient.eval_trimLine s e
  rwa [r.eval_trimLine, same]

theorem tracks_writeValue (h : Parallels s s') (encoder : Encoder) {value value' : Value}
    (relaxes : value.Relaxes value') :
    Tracks (r.writeValue encoder value s) (r.lenient.writeValue encoder value' s') := by
  rcases relaxes with rfl | ⟨name, rfl⟩
  · refine .inr ?_
    unfold writeValue
    split
    · exact (h.write Output.markValue).record _ _
    · exact h.write fun o => o.writeValue _ encoder
  · exact .inl (RenderState.misses_record name)

theorem tracks_declare (h : Parallels s s') (name : String) {value : Option Expr}
    (relaxes : ∀ e ∈ value.toList, r.Relaxes s e) :
    Tracks (r.declare name value s) (r.lenient.declare name value s') := by
  cases value with
  | none => exact .inr (h.setLocal name .nil)
  | some e =>
    unfold declare
    rw [Option.map_some, Option.map_some, h.lenient_eval]
    rcases relaxes e (by simp) with same | ⟨missing, failed⟩
    · rw [same]
      refine .inr ?_
      split
      · exact h.setLocal _ _
      · exact (h.record _ _).setLocal _ _
      · exact h.setLocal _ _
    · rw [failed]
      have kept : ((s.record (.missingVariable missing)).setLocal name .nil).errors = _ :=
        RenderState.errors_onTop _
      exact .inl ⟨missing, kept ▸ List.mem_cons_self⟩

/-- An assignment gives the same value in both modes, unless a variable is missing, or fails in
both: no operation of a compound assignment applies to nil. -/
theorem relaxes_assigned (h : Parallels s s') (v : Variable) (op : Operator) {value : Expr}
    (relaxes : r.Relaxes s value) :
    (r.assigned v op value s).Relaxes (r.lenient.assigned v op value s') ∨
      (r.assigned v op value s).isError = true ∧
        (r.lenient.assigned v op value s').isError = true := by
  unfold assigned
  rw [h.lenient_eval, h.lenient_eval]
  rcases relaxes with same | ⟨missing, failed⟩
  · rw [same]
    split
    · exact .inl (.inl rfl)
    · exact .inl (.inl rfl)
    · rename_i base compound plain
      rcases r.relaxes_env s v with same | ⟨⟨name, missing⟩, nil⟩
      · rw [show r.lenient.eval s (.var v) = r.eval s (.var v) from same]
        exact .inl (.inl rfl)
      · rw [show r.lenient.eval s (.var v) = .nil from nil,
          show r.eval s (.var v) = .error (.missingVariable name) from missing]
        have fails := Operator.failsOnNil_of_compound compound
        refine .inr ⟨?_, Operator.isError_apply_of_nil fails (.inl rfl)⟩
        refine Bool.of_not_eq_false fun sound => ?_
        cases Operator.sound_of_compound compound sound
  · rw [failed]
    exact .inl (.inr ⟨missing, rfl⟩)

theorem tracks_assign (h : Parallels s s') (v : Variable) (op : Operator) {value : Expr}
    (relaxes : r.Relaxes s value) :
    Tracks (r.assign v op value s) (r.lenient.assign v op value s') := by
  unfold assign
  rcases relaxes_assigned h v op relaxes with (same | ⟨name, failed⟩) | ⟨failed, failed'⟩
  · rw [same]
    refine .inr ?_
    split
    · exact h.record _ _
    · exact h.assign _ _
  · rw [failed]
    exact .inl (RenderState.misses_record name)
  · obtain ⟨e, eq⟩ := Value.eq_error_of_isError failed
    obtain ⟨e', eq'⟩ := Value.eq_error_of_isError failed'
    rw [eq, eq']
    exact .inr (h.record _ _)

end Rendering

namespace Machine

open RenderState (Misses)

/-- Machines in front of the same nodes, whose states differ at most in which errors are recorded.
-/
structure Parallels (m m' : Machine) : Prop where
  cursors : m'.cursors = m.cursors
  state : m.state.Parallels m'.state

/-- The machine in lenient mode goes with that in strict mode, unless a variable was missing. -/
def Tracks (m m' : Machine) : Prop := m.state.Misses ∨ m.Parallels m'

variable {r : Rendering} {s s' : RenderState} {cursor : TableCursor} {outer : List TableCursor}

theorem parallels_on {cursors : List TableCursor} (h : s.Parallels s') :
    Tracks ⟨cursors, s⟩ ⟨cursors, s'⟩ := .inr ⟨rfl, h⟩

theorem tracks_enter (h : s.Parallels s') (table : Nat) (encoder : Encoder) (bindings : Bindings)
    (pass : Option Pass) :
    Tracks (enter r table encoder bindings pass outer s)
      (enter r.lenient table encoder bindings pass outer s') :=
  parallels_on (h.openFrame bindings)

theorem tracks_again (h : s.Parallels s') (table : Nat) (encoder : Encoder) (pass : Pass)
    (mode : PassMode) (values : List Value) :
    Tracks (again r table encoder pass mode values outer s)
      (again r.lenient table encoder pass mode values outer s') := by
  unfold again
  split
  · exact parallels_on h
  · exact tracks_enter h _ _ _ _

/-- Arguments have the same values in both modes, unless a variable is missing. -/
theorem relaxes_args (h : s.Parallels s') {args : Tuple}
    (relaxes : ∀ e ∈ args.values, r.Relaxes s e) :
    args.eval (r.lenient.env s') = args.eval (r.env s) ∨
      ∃ name, args.eval (r.env s) = .error (.missingVariable name) := by
  rw [h.lenient_env]
  exact Tuple.relaxes relaxes

theorem tracks_leave (h : s.Parallels s') (table : Nat) (encoder : Encoder) {pass : Option Pass}
    (relaxes : ∀ e ∈ evaluatesAgain (cursor :: outer) pass, r.Relaxes s e) :
    Tracks (leave r table encoder pass (cursor :: outer) s)
      (leave r.lenient table encoder pass (cursor :: outer) s') := by
  cases pass with
  | none => exact parallels_on h
  | some pass =>
    obtain ⟨name, behaviour, args, run, mode⟩ := pass
    cases mode with
    | once => exact parallels_on h
    | counted left =>
      cases left with
      | zero => exact parallels_on h
      | succ left => exact tracks_again h _ _ _ _ _
    | indefinite left =>
      cases left with
      | zero => exact parallels_on (h.record _ _)
      | succ left =>
        simp only [leave]
        rcases relaxes_args h relaxes with same | ⟨name, failed⟩
        · rw [same]
          split
          · exact parallels_on (h.record _ _)
          · exact tracks_again h _ _ _ _ _
        · rw [failed]
          exact .inl (RenderState.misses_record name)

theorem tracks_runBlock (h : s.Parallels s') (body : Nat) (name : String) (behaviour : Behaviour)
    {args : Tuple} (relaxes : ∀ e ∈ args.values, r.Relaxes s e) :
    Tracks (runBlock r body name behaviour args cursor outer s)
      (runBlock r.lenient body name behaviour args cursor outer s') := by
  unfold runBlock
  rcases relaxes_args h relaxes with same | ⟨name, failed⟩
  · rw [same]
    split
    · exact parallels_on (h.record _ _)
    · split
      · exact parallels_on h
      · exact tracks_enter h _ _ _ _
  · rw [failed]
    exact .inl (RenderState.misses_record name)

theorem tracks_close (h : s.Parallels s')
    (relaxes : ∀ e ∈ evaluatesAgain outer cursor.pass, r.Relaxes s.closeFrame e) :
    Tracks (close r cursor outer s) (close r.lenient cursor outer s') := by
  unfold close
  cases outer with
  | nil => exact parallels_on h.closeFrame
  | cons below outer =>
    exact tracks_leave (h.closeFrame.trimLine r) _ _ fun e mem => (relaxes e mem).trimLine

theorem bodyOf?_congr (h : s.Parallels s') (node : Node) : bodyOf? s' node = bodyOf? s node := by
  cases node with
  | evaluate name default => simp only [bodyOf?, h.definition?, h.frames]
  | _ => rfl

theorem tracks_walkNode (h : s.Parallels s') (encoder : Encoder) {node : Node}
    (relaxes : ∀ e ∈ evaluates s node, r.Relaxes s e) :
    (r.walkNode (fun _ _ _ s => s) encoder node s).Tracks
      (r.lenient.walkNode (fun _ _ _ s => s) encoder node s') := by
  have trimmed := h.trimLine r
  cases node with
  | raw text => exact .inr (h.write fun o => o.writeRaw text)
  | output e =>
    have value := relaxes e List.mem_cons_self
    refine Rendering.tracks_writeValue h encoder ?_
    rw [h.lenient_eval]
    exact value
  | declare name constant value =>
    exact Rendering.tracks_declare trimmed name fun e mem => (relaxes e mem).trimLine
  | assign v op value =>
    exact Rendering.tracks_assign trimmed v op (relaxes value List.mem_cons_self).trimLine
  | define name value =>
    cases value with
    | none => exact .inr trimmed
    | some e => exact .inr (trimmed.define name (.value e))
  | evaluate name default =>
    simp only [evaluates] at relaxes
    simp only [Rendering.walkNode, Rendering.evaluate, h.definition?, h.frames]
    cases found : s.definition? name with
    | none =>
      rw [found] at relaxes
      refine Rendering.tracks_writeValue h encoder ?_
      cases default with
      | none => exact .inl rfl
      | some e =>
        have value := relaxes e List.mem_cons_self
        rw [Option.map_some, Option.map_some, h.lenient_eval]
        exact value
    | some definition =>
      rw [found] at relaxes
      cases definition with
      | value e =>
        have value := relaxes e List.mem_cons_self
        refine Rendering.tracks_writeValue h encoder ?_
        rw [h.lenient_eval]
        exact value
      | body table =>
        dsimp only
        split
        · exact .inr (h.record _ _)
        · exact .inr h
  | block | encode | inline => exact .inr trimmed
  | scope => exact .inr h

theorem tracks_advance (h : s.Parallels s')
    (relaxes : ∀ e ∈ reads ⟨cursor :: outer, s⟩, r.Relaxes (readState ⟨cursor :: outer, s⟩) e) :
    Tracks (advance r cursor outer s) (advance r.lenient cursor outer s') := by
  have trimmed := h.trimLine r
  obtain ⟨table, rest, encoder, place, settled, pass⟩ := cursor
  unfold advance
  split
  · rename_i eq
    subst eq
    exact tracks_close h relaxes
  · rename_i name chained behaviour args body rest eq
    subst eq
    split
    · exact parallels_on trimmed
    · rename_i runs
      simp only [reads, readState, if_neg runs] at relaxes
      exact tracks_runBlock trimmed body name behaviour fun e mem => (relaxes e mem).trimLine
  · exact parallels_on (trimmed.define _ _)
  · exact tracks_enter trimmed _ _ _ _
  · exact tracks_enter h _ _ _ _
  · exact parallels_on (h.record _ _)
  · rename_i node rest notBlock _ _ _ _ eq
    subst eq
    have reading : reads ⟨⟨table, node :: rest, encoder, place, settled, pass⟩ :: outer, s⟩ =
        evaluates s node := by
      simp only [reads]
    rw [reading] at relaxes
    dsimp only
    rw [bodyOf?_congr h]
    split
    · exact tracks_enter h _ _ _ _
    · exact (tracks_walkNode h encoder relaxes).imp_right fun walked => ⟨rfl, walked⟩

/-- One step in both modes, if what it evaluates is the same in both, unless a variable is missing.
-/
theorem tracks_step {m m' next : Machine} (h : m.Parallels m')
    (relaxes : ∀ e ∈ reads m, r.Relaxes (readState m) e) (step : step r m = some next) :
    ∃ next', Machine.step r.lenient m' = some next' ∧ next.Tracks next' := by
  obtain ⟨cursors, s⟩ := m
  obtain ⟨cursors', s'⟩ := m'
  obtain ⟨same, state⟩ := h
  change cursors' = cursors at same
  subst same
  cases cursors' with
  | nil => cases step
  | cons cursor outer =>
    cases step
    exact ⟨_, rfl, tracks_advance state relaxes⟩

/-- A run in both modes. A variable that is missing stays recorded. -/
theorem tracks_reaches {m m' last : Machine} (reaches : Reaches r m last) (h : m.Parallels m')
    (relaxes : ∀ site, Reaches r m site → ∀ e ∈ reads site, r.Relaxes (readState site) e) :
    last.state.Misses ∨ ∃ last', Reaches r.lenient m' last' ∧ last.Parallels last' := by
  induction reaches with
  | refl => exact .inr ⟨m', .refl, h⟩
  | @tail site next before step ih =>
    rcases ih with ⟨name, mem⟩ | ⟨site', before', here⟩
    · exact .inl ⟨name, subset_of_reaches (.single step) mem⟩
    · obtain ⟨next', step', tracks⟩ := tracks_step here (relaxes site before) step
      exact tracks.imp_right fun parallels => ⟨next', before'.tail step', parallels⟩

end Machine

namespace Rendering

open Machine (Reaches start reads readState)

variable {r : Rendering} {s s' : RenderState} {encoder : Encoder} {text : String}

theorem render_eq_ok : r.render encoder = .ok text ↔
    (r.walk encoder).exhausted = false ∧ r.fatal? (r.walk encoder) = none ∧
      (r.walk encoder).output.text = text := by
  unfold render
  dsimp only
  cases exhausted : (r.walk encoder).exhausted with
  | true => simp
  | false => cases fatal : r.fatal? (r.walk encoder) <;> simp

/-- A missing variable is fatal in strict mode. -/
theorem not_misses_of_fatal? (strict : r.config.strict = true) (passed : r.fatal? s = none) :
    ¬ s.Misses := by
  rintro ⟨name, mem⟩
  unfold fatal? at passed
  rw [strict] at passed
  dsimp only at passed
  split at passed
  · cases passed
  · rename_i other
    refine other _ rfl (Option.some_get ?_).symm
    exact List.find?_isSome.mpr ⟨_, List.mem_reverse.mpr mem, rfl⟩

/-- Where nothing is fatal in strict mode, nothing is in lenient mode. -/
theorem fatal?_lenient (h : s.Parallels s') (passed : r.fatal? s = none) :
    r.lenient.fatal? s' = none := by
  have fatal : r.lenient.fatal? s' =
      if r.config.errorsAreFatal then s'.errors.reverse.head? else none := rfl
  rw [fatal]
  split
  · rename_i fatal
    have clean : s.errors = [] := by
      unfold fatal? at passed
      dsimp only at passed
      split at passed
      · cases passed
      · rwa [if_pos fatal, List.head?_eq_none_iff, List.reverse_eq_nil_iff] at passed
    have clean' : s'.errors = [] := List.length_eq_zero_iff.mp (by rw [h.errors, clean]; rfl)
    rw [clean']
    rfl
  · rfl

/-- The walks of both modes go together to the end, unless a variable is missing. -/
theorem tracks_walk (encoder : Encoder)
    (forward : Forward r.template.tables.length r.template.tables)
    (relaxes : ∀ m, Reaches r (start r encoder) m → ∀ e ∈ reads m, r.Relaxes (readState m) e) :
    (r.walk encoder).closeFrame.Tracks (r.lenient.walk encoder).closeFrame := by
  have ends : Reaches r (start r encoder) ⟨[], (r.walk encoder).closeFrame⟩ :=
    Machine.reaches_walk forward encoder
  have ends' : Reaches r.lenient (start r.lenient encoder)
      ⟨[], (r.lenient.walk encoder).closeFrame⟩ :=
    Machine.reaches_walk (r := r.lenient) forward encoder
  have starts : (start r encoder).Parallels (start r.lenient encoder) := ⟨rfl, rfl, rfl, rfl, rfl⟩
  rcases Machine.tracks_reaches ends starts relaxes with missed | ⟨last, reaches, parallels⟩
  · exact .inl missed
  · have ended : Machine.step r.lenient last = none := by
      unfold Machine.step
      rw [parallels.cursors]
    rcases (Machine.reaches_end ends' rfl reaches).cases_head with rfl | ⟨next, step, -⟩
    · exact .inr parallels.state
    · rw [ended] at step
      cases step

/-- What succeeds in strict mode succeeds in lenient mode with the same text, if each step evaluates
what has the same value in both modes, unless a variable is missing. -/
theorem render_lenient_of_relaxes (strict : r.config.strict = true)
    (forward : Forward r.template.tables.length r.template.tables)
    (relaxes : ∀ m, Reaches r (start r encoder) m → ∀ e ∈ reads m, r.Relaxes (readState m) e)
    (done : r.render encoder = .ok text) : r.lenient.render encoder = .ok text := by
  obtain ⟨room, passed, rfl⟩ := render_eq_ok.mp done
  rcases r.tracks_walk encoder forward relaxes with missed | parallels
  · exact absurd missed (not_misses_of_fatal? strict passed)
  · have passed : r.fatal? (r.walk encoder).closeFrame = none := passed
    have passed' := fatal?_lenient parallels passed
    exact render_eq_ok.mpr ⟨parallels.exhausted.trans room, passed',
      congrArg Output.text parallels.output⟩

end Rendering

namespace Template

open Machine (Reaches start reads readState)

/-- What succeeds in strict mode succeeds in lenient mode with the same text, whatever the template
is made of and whatever is registered, if each `??` replaces its left operand in lenient mode, too,
where this is a missing variable in strict mode: if it is nil there, or an error. -/
theorem render_lenient {t : Template} (assembled : t.Assembled Parsed) (context : Context)
    (config : Config) (encoder : Encoder) {text : String} :
    let strict : Rendering := ⟨t, context, { config with strict := true }⟩
    let lenient : Rendering := ⟨t, context, { config with strict := false }⟩
    strict.render encoder = .ok text →
    (∀ m, Reaches strict (start strict encoder) m → ∀ e ∈ reads m,
      e.ReplacesAlike (strict.env (readState m)) (lenient.env (readState m))) →
    lenient.render encoder = .ok text := by
  intro strict lenient done alike
  refine Rendering.render_lenient_of_relaxes rfl assembled.layout.forward ?_ done
  intro m met e read
  exact Expr.relaxes_eval (strict.relaxes_env (readState m)) e (alike m met e read)

/-- A variable without value and a default for it. -/
theorem render_lenient_default : ∃ page : Template,
    parse .core {} "page" "#(x ?? 5)" = .ok page ∧
      Rendering.render ⟨page, ⟨[], []⟩, { strict := true }⟩ .identity = .ok "5" ∧
      Rendering.render ⟨page, ⟨[], []⟩, { strict := false }⟩ .identity = .ok "5" := by
  have run : ((parse .core {} "page" "#(x ?? 5)").toOption.any fun page =>
      decide (page.Holds fun e => e.defaultsFade = true) &&
      Rendering.render ⟨page, ⟨[], []⟩, { strict := true }⟩ .identity = .ok "5") = true := by
    decide +kernel
  cases parsed : parse .core {} "page" "#(x ?? 5)" with
  | error failure =>
    rw [parsed] at run
    cases run
  | ok page =>
    rw [parsed] at run
    obtain ⟨fading, done⟩ := (Bool.and_eq_true _ _).mp run
    have fading := of_decide_eq_true fading
    have done := of_decide_eq_true done
    have assembled : page.Assembled Parsed := .given (parsed_of_parse parsed)
    refine ⟨page, rfl, done, ?_⟩
    refine render_lenient assembled ⟨[], []⟩ {} .identity done fun m met e read => ?_
    exact Expr.replacesAlike_of_defaultsFade (Rendering.relaxes_env _ (readState m)) e
      (Machine.holds_of_reads assembled.layout.forward fading met e read)

/-- A default for the negation of a variable without value: in lenient mode the negation is true. -/
theorem default_tells_modes_apart :
    ((parse .core {} "page" "#(!x ?? 5)").toOption.any fun page =>
      Rendering.render ⟨page, ⟨[], []⟩, { strict := true }⟩ .identity = .ok "5" &&
      Rendering.render ⟨page, ⟨[], []⟩, { strict := false }⟩ .identity = .ok "true") = true := by
  decide +kernel

/-- The same by the text of the template alone: what succeeds in strict mode succeeds in lenient
mode, if the left operand of each `??` fades, such as a variable or a subscript. -/
theorem render_lenient_of_fading {t : Template} (assembled : t.Assembled Parsed)
    (fading : t.Holds fun e => e.defaultsFade = true) (context : Context) (config : Config)
    (encoder : Encoder) {text : String}
    (done : Rendering.render ⟨t, context, { config with strict := true }⟩ encoder = .ok text) :
    Rendering.render ⟨t, context, { config with strict := false }⟩ encoder = .ok text := by
  refine Rendering.render_lenient_of_relaxes rfl assembled.layout.forward ?_ done
  intro m met e read
  have fades := Machine.holds_of_reads assembled.layout.forward fading met e read
  have env := Rendering.relaxes_env ⟨t, context, { config with strict := true }⟩ (readState m)
  exact Expr.relaxes_eval env e (Expr.replacesAlike_of_defaultsFade env e fades)

end Template

end Stencil
