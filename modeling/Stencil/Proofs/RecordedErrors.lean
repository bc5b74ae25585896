import Stencil.Proofs.CursorErrors
import Stencil.Proofs.CursorWalk
import Stencil.Proofs.EvaluatedParts
import Stencil.Proofs.Splicing

/-!
# No error is lost

A step that computes an error records one, and what is recorded stays (`clean_of_step`). So a
rendering that succeeds where errors are fatal has computed none, in no expression and in no part of
one that a `??` does not shield (`Rendering.sound_of_render`).

No step drops an error either that was recorded before it, whether errors are fatal or not
(`Machine.subset_of_reaches`).
-/

namespace Stencil

/-- Where no error is recorded afterwards none was before, and something more holds. -/
def RenderState.CleanIf (P : Prop) (s s' : RenderState) : Prop := s'.errors = [] → s.errors = [] ∧ P

namespace RenderState

variable {P : Prop} {s s' s'' : RenderState}

theorem cleanIf_of_same (same : s'.errors = s.errors) (h : P) : CleanIf P s s' := by
  intro clean
  exact ⟨same ▸ clean, h⟩

theorem cleanIf_record (e : EvalError) : CleanIf P s (s.record e) := by
  rintro ⟨⟩

theorem CleanIf.behind (h : CleanIf P s' s'') (same : s'.errors = s.errors) : CleanIf P s s'' := by
  intro clean
  exact same ▸ h clean

theorem CleanIf.before (h : CleanIf P s s') (same : s''.errors = s'.errors) : CleanIf P s s'' := by
  intro clean
  exact h (same ▸ clean)

theorem CleanIf.mono {Q : Prop} (h : CleanIf P s s') (keep : P → Q) : CleanIf Q s s' := by
  intro clean
  exact ⟨(h clean).1, keep (h clean).2⟩

end RenderState

/-- Arguments that have values have no error among them. -/
theorem Tuple.sound_of_eval {env : Env} {t : Tuple} {values : List Value}
    (h : t.eval env = .ok values) : ∀ x ∈ t.values, (x.eval env).isError = false := by
  unfold Tuple.eval at h
  induction t generalizing values with
  | nil => rintro x ⟨⟩
  | cons item items ih =>
    obtain ⟨label, y⟩ := item
    unfold Expr.evalItems at h
    split at h
    · cases h
    · rename_i sound
      split at h
      · cases h
      · rename_i rest evaluated
        intro x mem
        rcases List.mem_cons.mp mem with rfl | mem
        · exact Value.isError_of_ne sound
        · exact ih evaluated x mem

/-- A compound assignment of an error to an error or from one gives an error. -/
theorem Operator.sound_of_compound {op base : Operator} (compound : op.compoundBase? = some base)
    {left right : Value} (sound : (base.apply left right).isError = false) :
    left.isError = false := by
  have arithmetic : base.apply left right = base.arithmetic left right := by
    cases op <;> cases compound <;> rfl
  rw [arithmetic] at sound
  cases left with
  | error e => cases base <;> cases right <;> cases sound
  | _ => rfl

namespace Rendering

open RenderState

variable (r : Rendering) {s : RenderState}

theorem cleanIf_writeValue (encoder : Encoder) (value : Value) :
    CleanIf (value.isError = false) s (r.writeValue encoder value s) := by
  unfold writeValue
  split
  · exact cleanIf_record _
  · rename_i sound
    exact cleanIf_of_same rfl (Value.isError_of_ne sound)

theorem cleanIf_declare (name : String) (value : Option Expr) :
    CleanIf (∀ x ∈ value.toList, (r.eval s x).isError = false) s (r.declare name value s) := by
  unfold declare
  cases value with
  | none => exact cleanIf_of_same (errors_onTop _) (by simp)
  | some x =>
    dsimp only [Option.map_some]
    split
    · rename_i given
      cases given
    · exact (cleanIf_record _).before (errors_onTop _)
    · rename_i data sound given
      cases given
      refine cleanIf_of_same (errors_onTop _) ?_
      simpa using Value.isError_of_ne sound

/-- The value that an assignment gives is no error only if those it is made of are none. -/
theorem sound_of_assigned {v : Variable} {op : Operator} {value : Expr}
    (sound : (r.assigned v op value s).isError = false) :
    (r.eval s value).isError = false ∧
      (op.compoundBase?.isSome → (r.eval s (.var v)).isError = false) := by
  unfold assigned at sound
  split at sound
  · cases sound
  · rename_i base plain
    exact ⟨sound, by simp [base]⟩
  · rename_i base compound plain
    exact ⟨Value.isError_of_ne plain, fun _ => Operator.sound_of_compound compound sound⟩

theorem assigned_trimLine (v : Variable) (op : Operator) (value : Expr) :
    r.assigned v op value (r.trimLine s) = r.assigned v op value s := by
  unfold assigned
  rw [r.eval_trimLine, r.eval_trimLine]

theorem cleanIf_assign (v : Variable) (op : Operator) (value : Expr) :
    CleanIf ((r.assigned v op value s).isError = false) s (r.assign v op value s) := by
  unfold assign
  split
  · exact cleanIf_record _
  · rename_i sound
    exact cleanIf_of_same (errors_assign _ _) (Value.isError_of_ne sound)

end Rendering

namespace Machine

open RenderState

variable {r : Rendering} {cursor : TableCursor} {outer : List TableCursor} {s : RenderState}

/-- The value that an assignment makes of those of its expressions. -/
def assigns (r : Rendering) (s : RenderState) : Node → List Value
  | .assign v op value => [r.assigned v op value s]
  | _ => []

/-- The values that the next step computes: those of the expressions it evaluates, and what an
assignment makes of them. -/
def computes (r : Rendering) (m : Machine) : List Value :=
  match m.cursors with
  | ⟨_, node :: _, _, _, _, _⟩ :: _ =>
    (reads m).map (r.eval (readState m)) ++ assigns r m.state node
  | _ => (reads m).map (r.eval (readState m))

theorem cleanIf_walkNode (encoder : Encoder) (node : Node) :
    CleanIf ((∀ x ∈ evaluates s node, (r.eval s x).isError = false) ∧
        ∀ v ∈ assigns r s node, v.isError = false) s
      (r.walkNode (fun _ _ _ s => s) encoder node s) := by
  have trimmed : (r.trimLine s).errors = s.errors := r.errors_trimLine
  cases node with
  | raw text => exact cleanIf_of_same rfl (by simp [evaluates, assigns])
  | output x =>
    refine (r.cleanIf_writeValue encoder _).mono fun sound => ?_
    simpa [evaluates, assigns] using sound
  | declare name constant value =>
    refine ((r.cleanIf_declare name value).behind trimmed).mono fun sound => ⟨?_, by simp [assigns]⟩
    simpa only [evaluates, r.eval_trimLine] using sound
  | assign v op value =>
    refine ((r.cleanIf_assign v op value).behind trimmed).mono fun sound => ?_
    rw [r.assigned_trimLine] at sound
    obtain ⟨given, old⟩ := r.sound_of_assigned sound
    refine ⟨?_, by simpa [assigns] using sound⟩
    intro x mem
    simp only [evaluates] at mem
    rcases List.mem_cons.mp mem with rfl | mem
    · exact given
    · split at mem
      · rename_i compound
        cases List.mem_singleton.mp mem
        exact old compound
      · cases mem
  | define name value =>
    cases value with
    | none => exact cleanIf_of_same trimmed (by simp [evaluates, assigns])
    | some x =>
      exact cleanIf_of_same ((errors_onTop _).trans trimmed) (by simp [evaluates, assigns])
  | evaluate name default =>
    simp only [evaluates, Rendering.walkNode, Rendering.evaluate]
    cases s.definition? name with
    | none =>
      refine (r.cleanIf_writeValue encoder _).mono fun sound => ⟨?_, by simp [assigns]⟩
      cases default with
      | none => simp
      | some x => simpa using sound
    | some definition =>
      cases definition with
      | value x =>
        refine (r.cleanIf_writeValue encoder _).mono fun sound => ?_
        simpa [assigns] using sound
      | body table =>
        dsimp only
        split
        · exact cleanIf_record _
        · exact cleanIf_of_same rfl (by simp [assigns])
  | block | encode | inline => exact cleanIf_of_same trimmed (by simp [evaluates, assigns])
  | scope => exact cleanIf_of_same rfl (by simp [evaluates, assigns])

theorem errors_again (table : Nat) (encoder : Encoder) (pass : Pass) (mode : PassMode)
    (values : List Value) :
    (again r table encoder pass mode values outer s).state.errors = s.errors := by
  unfold again
  split <;> rfl

theorem cleanIf_leave (table : Nat) (encoder : Encoder) (pass : Option Pass) :
    CleanIf (∀ x ∈ evaluatesAgain (cursor :: outer) pass, (r.eval s x).isError = false) s
      (leave r table encoder pass (cursor :: outer) s).state := by
  cases pass with
  | none => exact cleanIf_of_same rfl (by simp [evaluatesAgain])
  | some pass =>
    obtain ⟨name, behaviour, args, run, mode⟩ := pass
    cases mode with
    | once => exact cleanIf_of_same rfl (by simp [evaluatesAgain])
    | counted left =>
      cases left with
      | zero => exact cleanIf_of_same rfl (by simp [evaluatesAgain])
      | succ left => exact cleanIf_of_same (errors_again _ _ _ _ _) (by simp [evaluatesAgain])
    | indefinite left =>
      cases left with
      | zero => exact cleanIf_record _
      | succ left =>
        simp only [leave, evaluatesAgain]
        split
        · exact cleanIf_record _
        · rename_i values evaluated
          exact cleanIf_of_same (errors_again _ _ _ _ _) (Tuple.sound_of_eval evaluated)

theorem cleanIf_runBlock (body : Nat) (name : String) (behaviour : Behaviour) (args : Tuple) :
    CleanIf (∀ x ∈ args.values, (r.eval s x).isError = false) s
      (runBlock r body name behaviour args cursor outer s).state := by
  unfold runBlock
  split
  · exact cleanIf_record _
  · rename_i values evaluated
    have sound := Tuple.sound_of_eval evaluated
    split <;> exact cleanIf_of_same rfl sound

theorem cleanIf_close :
    CleanIf (∀ x ∈ evaluatesAgain outer cursor.pass, (r.eval s.closeFrame x).isError = false) s
      (close r cursor outer s).state := by
  unfold close
  cases outer with
  | nil => exact cleanIf_of_same rfl (by simp [evaluatesAgain])
  | cons below outer =>
    have trimmed : (r.trimLine s.closeFrame).errors = s.errors := r.errors_trimLine
    refine ((cleanIf_leave _ _ _).behind trimmed).mono fun sound x mem => ?_
    rw [← r.eval_trimLine]
    exact sound x mem

/-- A node that puts out the body of a definition computes nothing itself. -/
theorem nothing_of_bodyOf? {node : Node} {body : Nat} (h : bodyOf? s node = some body) :
    evaluates s node = [] ∧ assigns r s node = [] := by
  cases node with
  | evaluate name default =>
    simp only [bodyOf?] at h
    split at h
    · rename_i found
      simp only [evaluates, found, assigns, and_self]
    · cases h
  | _ => cases h

/-- Behind a step without errors there was none before it, and it computed none. -/
theorem cleanIf_advance : CleanIf (∀ v ∈ computes r ⟨cursor :: outer, s⟩, v.isError = false) s
    (advance r cursor outer s).state := by
  have trimmed : (r.trimLine s).errors = s.errors := r.errors_trimLine
  obtain ⟨table, rest, encoder, place, settled, pass⟩ := cursor
  unfold advance
  split
  · rename_i eq
    subst eq
    refine cleanIf_close.mono fun sound => ?_
    simpa [computes, reads, readState] using sound
  · rename_i name chained behaviour args body rest eq
    subst eq
    split
    · rename_i skipped
      refine cleanIf_of_same trimmed ?_
      simp [computes, reads, skipped, assigns]
    · rename_i runs
      refine ((cleanIf_runBlock _ _ _ _).behind trimmed).mono fun sound => ?_
      simp only [computes, reads, if_neg runs]
      simpa [readState, assigns, r.eval_trimLine] using sound
  · rename_i eq
    subst eq
    exact cleanIf_of_same ((errors_onTop _).trans trimmed)
      (by simp [computes, reads, evaluates, assigns])
  · rename_i eq
    subst eq
    exact cleanIf_of_same trimmed (by simp [computes, reads, evaluates, assigns])
  · rename_i eq
    subst eq
    exact cleanIf_of_same rfl (by simp [computes, reads, evaluates, assigns])
  · exact cleanIf_record _
  · rename_i node rest notBlock _ _ _ _ eq
    subst eq
    have reading : reads ⟨⟨table, node :: rest, encoder, place, settled, pass⟩ :: outer, s⟩ =
        evaluates s node := by
      simp only [reads]
    simp only [computes, reading]
    split
    · rename_i body opens
      obtain ⟨read, made⟩ := nothing_of_bodyOf? (r := r) opens
      exact cleanIf_of_same rfl (by simp [read, made])
    · refine (cleanIf_walkNode encoder node).mono fun sound v mem => ?_
      rcases List.mem_append.mp mem with mem | mem
      · obtain ⟨x, inside, rfl⟩ := List.mem_map.mp mem
        exact sound.1 x inside
      · exact sound.2 v mem

/-- A step without errors behind it. -/
theorem clean_of_step {m m' : Machine} (step : step r m = some m') (clean : m'.state.errors = []) :
    m.state.errors = [] ∧ ∀ v ∈ computes r m, v.isError = false := by
  obtain ⟨cursors, s⟩ := m
  cases cursors with
  | nil => cases step
  | cons cursor outer =>
    cases step
    exact cleanIf_advance clean

theorem computes_nil {m : Machine} (ends : step r m = none) : computes r m = [] := by
  obtain ⟨cursors, s⟩ := m
  cases cursors with
  | nil => rfl
  | cons cursor outer => cases ends

/-- Every machine that a run comes to comes to its end. -/
theorem reaches_end {m m' site : Machine} (reaches : Reaches r m m') (ends : step r m' = none)
    (met : Reaches r m site) : Reaches r site m' := by
  have unique : Relator.RightUnique fun m m' => step r m = some m' :=
    fun _ _ _ h h' => Option.some.inj (h.symm.trans h')
  rcases Relation.ReflTransGen.total_of_right_unique unique met reaches with later | earlier
  · exact later
  · rcases earlier.cases_head with rfl | ⟨next, step, _⟩
    · exact .refl
    · rw [ends] at step
      cases step

/-- No machine that a run without errors comes to computes one. -/
theorem clean_of_reaches {m m' site : Machine} (reaches : Reaches r m m')
    (ends : step r m' = none) (clean : m'.state.errors = []) (met : Reaches r m site) :
    ∀ v ∈ computes r site, v.isError = false := by
  have rest := reaches_end reaches ends met
  have before : site.state.errors = [] ∧ ∀ v ∈ computes r site, v.isError = false := by
    clear met
    induction rest using Relation.ReflTransGen.head_induction_on with
    | refl => exact ⟨clean, by simp [computes_nil ends]⟩
    | head step _ ih => exact clean_of_step step ih.1
  exact before.2

theorem mem_computes {m : Machine} {e : Expr} (read : e ∈ reads m) :
    r.eval (readState m) e ∈ computes r m := by
  have mem : r.eval (readState m) e ∈ (reads m).map (r.eval (readState m)) :=
    List.mem_map_of_mem read
  unfold computes
  split
  · exact List.mem_append_left _ mem
  · exact mem

end Machine

namespace Rendering

/-- A rendering that succeeds where errors are fatal has recorded none. -/
theorem errors_of_render {r : Rendering} {encoder : Encoder} {text : String}
    (fatal : r.config.errorsAreFatal = true) (done : r.render encoder = .ok text) :
    (r.walk encoder).errors = [] := by
  unfold render at done
  dsimp only at done
  split at done
  · cases done
  · split at done
    · cases done
    · rename_i none
      unfold fatal? at none
      dsimp only at none
      split at none
      · cases none
      · rw [if_pos fatal, List.head?_eq_none_iff, List.reverse_eq_nil_iff] at none
        exact none

/-- A rendering that succeeds where errors are fatal has lost no error. Whatever the template is
made of and whatever is registered: no value that a step of the walk computes is an error, be it put
out, declared, assigned, put out in place of a definition, or an argument of a block, before a pass
over it as well as between two. Nor is the value of any part of an expression that is evaluated on
the way, except in the left operand of a `??`. -/
theorem sound_of_render {t : Template} (assembled : t.Assembled Template.Parsed) (context : Context)
    (config : Config) (fatal : config.errorsAreFatal = true) (encoder : Encoder) {text : String}
    (done : render ⟨t, context, config⟩ encoder = .ok text) {m : Machine}
    (met : Machine.Reaches ⟨t, context, config⟩ (Machine.start ⟨t, context, config⟩ encoder) m) :
    (∀ v ∈ Machine.computes ⟨t, context, config⟩ m, v.isError = false) ∧
      ∀ e ∈ Machine.reads m, ∀ x,
        Expr.Evaluates (env ⟨t, context, config⟩ (Machine.readState m)) e false x →
        (eval ⟨t, context, config⟩ (Machine.readState m) x).isError = false := by
  have sound := Machine.clean_of_reaches
    (Machine.reaches_walk (r := ⟨t, context, config⟩) assembled.layout.forward encoder) rfl
    (errors_of_render (r := ⟨t, context, config⟩) fatal done) met
  refine ⟨sound, fun e read x part => ?_⟩
  have whole := sound _ (Machine.mem_computes read)
  cases value : eval ⟨t, context, config⟩ (Machine.readState m) x with
  | error error =>
    have failed : eval ⟨t, context, config⟩ (Machine.readState m) e = .error error :=
      Expr.error_of_evaluates part value
    rw [failed] at whole
    cases whole
  | _ => rfl

/-- A sum that fails, and a default for it. -/
theorem sound_of_render_default : ∃ page : Template, ∃ text,
    Template.parse .core {} "page" "#((1 + a) ?? 2)" = .ok page ∧
      render ⟨page, ⟨[], []⟩, {}⟩ .identity = .ok text ∧
      ∀ m, Machine.Reaches ⟨page, ⟨[], []⟩, {}⟩ (Machine.start ⟨page, ⟨[], []⟩, {}⟩ .identity) m →
        ∀ v ∈ Machine.computes ⟨page, ⟨[], []⟩, {}⟩ m, v.isError = false := by
  have run : (match Template.parse .core {} "page" "#((1 + a) ?? 2)" with
      | .ok page => (render ⟨page, ⟨[], []⟩, {}⟩ .identity).isOk
      | .error _ => false) = true := by decide +kernel
  split at run
  · rename_i page parsed
    cases done : render ⟨page, ⟨[], []⟩, {}⟩ .identity with
    | error e =>
      rw [done] at run
      cases run
    | ok text =>
      refine ⟨page, text, parsed, done, fun m met => ?_⟩
      have assembled : page.Assembled Template.Parsed := .given (Template.parsed_of_parse parsed)
      exact (sound_of_render assembled ⟨[], []⟩ {} rfl .identity done met).1
  · cases run

end Rendering

namespace Rendering

open RenderState

variable {r : Rendering} {s : RenderState}

theorem subset_writeValue (encoder : Encoder) (value : Value) :
    s.errors ⊆ (r.writeValue encoder value s).errors := by
  unfold writeValue
  split
  · exact List.subset_cons_self _ _
  · exact List.Subset.refl _

theorem subset_declare (name : String) (value : Option Expr) :
    s.errors ⊆ (r.declare name value s).errors := by
  unfold declare setLocal
  split <;> rw [errors_onTop]
  · exact List.Subset.refl _
  · exact List.subset_cons_self _ _
  · exact List.Subset.refl _

theorem subset_assign (v : Variable) (op : Operator) (value : Expr) :
    s.errors ⊆ (r.assign v op value s).errors := by
  unfold assign
  split
  · exact List.subset_cons_self _ _
  · rw [errors_assign]
    exact List.Subset.refl _

/-- What a node without a table of its own meets is added. -/
theorem subset_walkNode (encoder : Encoder) (node : Node) :
    s.errors ⊆ (r.walkNode (fun _ _ _ s => s) encoder node s).errors := by
  have trimmed : (r.trimLine s).errors = s.errors := r.errors_trimLine
  cases node with
  | raw | scope => exact List.Subset.refl _
  | output e => exact subset_writeValue _ _
  | declare name constant value =>
    rw [← trimmed]
    exact subset_declare _ _
  | assign v op value =>
    rw [← trimmed]
    exact subset_assign _ _ _
  | define name value =>
    rw [← trimmed]
    cases value with
    | none => exact List.Subset.refl _
    | some e =>
      have same : (r.walkNode (fun _ _ _ s => s) encoder (.define name (some e)) s).errors =
          (r.trimLine s).errors := errors_onTop _
      rw [same]
      exact List.Subset.refl _
  | evaluate name default =>
    rw [walkNode, evaluate]
    split
    · exact subset_writeValue _ _
    · split
      · exact List.subset_cons_self _ _
      · exact List.Subset.refl _
    · exact subset_writeValue _ _
  | block | inline | encode =>
    rw [← trimmed]
    exact List.Subset.refl _

end Rendering

namespace Machine

open RenderState

variable {r : Rendering} {s : RenderState} {table : Nat} {encoder : Encoder}
  {outer : List TableCursor}

theorem subset_leave (pass : Option Pass) :
    s.errors ⊆ (leave r table encoder pass outer s).state.errors := by
  unfold leave
  split
  · exact List.Subset.refl _
  · split
    · exact List.Subset.refl _
    · exact List.Subset.refl _
    · rw [errors_again]
      exact List.Subset.refl _
    · exact List.subset_cons_self _ _
    · split
      · exact List.subset_cons_self _ _
      · rw [errors_again]
        exact List.Subset.refl _

theorem subset_runBlock (name : String) (behaviour : Behaviour) (args : Tuple)
    (cursor : TableCursor) :
    s.errors ⊆ (runBlock r table name behaviour args cursor outer s).state.errors := by
  unfold runBlock
  split
  · exact List.subset_cons_self _ _
  · split <;> exact List.Subset.refl _

/-- Errors that were met stay recorded. -/
theorem subset_advance (cursor : TableCursor) :
    s.errors ⊆ (advance r cursor outer s).state.errors := by
  have trimmed : (r.trimLine s).errors = s.errors := r.errors_trimLine
  unfold advance
  split
  · unfold close
    split
    · exact List.Subset.refl _
    · have same : (r.trimLine s.closeFrame).errors = s.errors := r.errors_trimLine
      rw [← same]
      exact subset_leave _
  · rw [← trimmed]
    split
    · exact List.Subset.refl _
    · exact subset_runBlock _ _ _ _
  · rename_i name body rest _
    have same : ((r.trimLine s).define name (.body body)).errors = (r.trimLine s).errors :=
      errors_onTop _
    rw [same, trimmed]
    exact List.Subset.refl _
  · rw [← trimmed]
    exact List.Subset.refl _
  · exact List.Subset.refl _
  · exact List.subset_cons_self _ _
  · dsimp only
    split
    · exact List.Subset.refl _
    · exact Rendering.subset_walkNode _ _

/-- A run has all errors of the states that it comes through. -/
theorem subset_of_reaches {m m' : Machine} (h : Reaches r m m') :
    m.state.errors ⊆ m'.state.errors := by
  induction h with
  | refl => exact List.Subset.refl _
  | @tail site last _ step ih =>
    refine List.Subset.trans ih ?_
    obtain ⟨cursors, s⟩ := site
    cases cursors with
    | nil => cases step
    | cons cursor outer =>
      cases step
      exact subset_advance cursor

end Machine

end Stencil
