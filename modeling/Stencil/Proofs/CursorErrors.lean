import Stencil.Proofs.CursorReads

/-!
# What a step records

The errors that a step records are those of what it evaluates, of an operator that does not apply,
of a limit, and of a place without a table. So each error of a rendering is raised at one of its
steps.
-/

namespace Stencil

namespace Operator

/-- Arithmetic fails as an operation that does not apply. -/
theorem mismatch_of_arithmetic {op : Operator} {left right : Value} {e : EvalError}
    (h : op.arithmetic left right = .error e) :
    ∃ symbol reason, e = .typeMismatch symbol reason := by
  have checked {n : Int} (h : op.checkedValue n = .error e) :
      ∃ symbol reason, e = .typeMismatch symbol reason := by
    unfold checkedValue at h
    split at h
    · cases h
    · cases h
      exact ⟨_, _, rfl⟩
  unfold arithmetic at h
  split at h
  · unfold onInts at h
    split at h
    · exact checked h
    · exact checked h
    · exact checked h
    · split at h
      · cases h
        exact ⟨_, _, rfl⟩
      · exact checked h
    · split at h
      · cases h
        exact ⟨_, _, rfl⟩
      · split at h
        · cases h
          exact ⟨_, _, rfl⟩
        · exact checked h
  · split at h
    · cases h
    · cases h
    · cases h
    · split at h
      · cases h
      · cases h
        exact ⟨_, _, rfl⟩

/-- The operation of a compound assignment fails as one that does not apply. -/
theorem mismatch_of_compound {op base : Operator} (compound : op.compoundBase? = some base)
    {left right : Value} {e : EvalError} (h : base.apply left right = .error e) :
    ∃ symbol reason, e = .typeMismatch symbol reason := by
  have arithmetic : base.apply left right = base.arithmetic left right := by
    cases op <;> cases compound <;> rfl
  rw [arithmetic] at h
  exact mismatch_of_arithmetic h

end Operator

/-- Arguments that cannot be evaluated contain one whose value is the error. -/
theorem Tuple.error_of_eval {env : Env} {t : Tuple} {e : EvalError} (h : t.eval env = .error e) :
    ∃ x ∈ t.values, x.eval env = .error e := by
  unfold Tuple.eval at h
  induction t with
  | nil => cases h
  | cons item items ih =>
    obtain ⟨label, x⟩ := item
    unfold Expr.evalItems at h
    split at h
    · rename_i error evaluated
      cases h
      exact ⟨x, List.mem_cons_self, evaluated⟩
    · split at h
      · rename_i error rest
        cases h
        obtain ⟨y, mem, evaluated⟩ := ih rest
        exact ⟨y, .tail _ mem, evaluated⟩
      · cases h

namespace RenderState

/-- The errors of a later state are those of the earlier one and some of a kind. -/
def Adds (P : EvalError → Prop) (s s' : RenderState) : Prop :=
  ∀ e ∈ s'.errors, e ∈ s.errors ∨ P e

variable {P : EvalError → Prop} {s s' s'' : RenderState}

theorem adds_of_same (h : s'.errors = s.errors) : Adds P s s' := by
  intro e mem
  rw [h] at mem
  exact .inl mem

theorem Adds.behind (h : Adds P s' s'') (same : s'.errors = s.errors) : Adds P s s'' := by
  intro e mem
  rw [← same]
  exact h e mem

theorem Adds.before (h : Adds P s s') (same : s''.errors = s'.errors) : Adds P s s'' := by
  intro e mem
  rw [same] at mem
  exact h e mem

theorem adds_record {e : EvalError} (h : P e) : Adds P s (s.record e) := by
  intro other mem
  rcases List.mem_cons.mp mem with rfl | mem
  · exact .inr h
  · exact .inl mem

theorem errors_assign (name : String) (value : Value) :
    (s.assign name value).errors = s.errors := by
  unfold assign
  split
  · rfl
  · exact errors_onTop _

end RenderState

namespace Rendering

open RenderState

variable (r : Rendering) {P : EvalError → Prop} {s : RenderState}

theorem errors_trimLine : (r.trimLine s).errors = s.errors := by
  unfold trimLine
  split <;> rfl

theorem adds_writeValue (encoder : Encoder) {value : Value}
    (failed : ∀ e, value = .error e → P e) : Adds P s (r.writeValue encoder value s) := by
  unfold writeValue
  split
  · rename_i e
    exact adds_record (failed e rfl)
  · exact adds_of_same rfl

theorem adds_declare (name : String) {value : Option Expr}
    (failed : ∀ x ∈ value.toList, ∀ e, r.eval s x = .error e → P e) :
    Adds P s (r.declare name value s) := by
  unfold declare
  split
  · exact adds_of_same (errors_onTop _)
  · rename_i e evaluated
    obtain ⟨x, rfl, error⟩ := Option.map_eq_some_iff.mp evaluated
    exact (adds_record (failed x (by simp) e error)).before (errors_onTop _)
  · exact adds_of_same (errors_onTop _)

theorem adds_assign {v : Variable} {op : Operator} {value : Expr}
    (failed : ∀ e, r.eval s value = .error e → P e)
    (mismatch : ∀ symbol reason, P (.typeMismatch symbol reason)) :
    Adds P s (r.assign v op value s) := by
  unfold assign
  split
  · rename_i e assigned
    refine adds_record ?_
    unfold Rendering.assigned at assigned
    split at assigned
    · rename_i error evaluated
      cases assigned
      exact failed _ evaluated
    · exact failed e assigned
    · rename_i base compound _
      obtain ⟨symbol, reason, rfl⟩ := Operator.mismatch_of_compound compound assigned
      exact mismatch symbol reason
  · exact adds_of_same (errors_assign _ _)

end Rendering

namespace Machine

open RenderState

variable {r : Rendering}

/-- The errors that the next step may record. -/
inductive Raises (r : Rendering) (m : Machine) : EvalError → Prop
  | value {x : Expr} {e : EvalError} (mem : x ∈ reads m)
      (failed : r.eval (readState m) x = .error e) :
      Raises r m e
  | mismatch {symbol : String} {reason : Mismatch} : Raises r m (.typeMismatch symbol reason)
  | limit {name : String} {count : Nat} : Raises r m (.passLimit name count)
  | place {cursor : TableCursor} {outer : List TableCursor} {rest : List Node}
      (here : m.cursors = cursor :: outer) (unfilled : cursor.rest = .scope none :: rest) :
      Raises r m (.unresolvedInline (cursor.place.getD ""))

variable {P : EvalError → Prop} {cursor : TableCursor} {outer : List TableCursor}
  {s : RenderState}

theorem adds_walkNode (encoder : Encoder) {node : Node}
    (failed : ∀ x ∈ evaluates s node, ∀ e, r.eval s x = .error e → P e)
    (mismatch : ∀ symbol reason, P (.typeMismatch symbol reason))
    (limit : ∀ name count, P (.passLimit name count)) :
    Adds P s (r.walkNode (fun _ _ _ s => s) encoder node s) := by
  have trimmed : (r.trimLine s).errors = s.errors := r.errors_trimLine
  cases node with
  | raw text => exact adds_of_same rfl
  | output x => exact r.adds_writeValue encoder (failed x List.mem_cons_self)
  | declare name constant value =>
    refine (r.adds_declare name fun x mem e evaluated => ?_).behind trimmed
    rw [r.eval_trimLine] at evaluated
    exact failed x mem e evaluated
  | assign v op value =>
    refine (r.adds_assign (fun e evaluated => ?_) mismatch).behind trimmed
    rw [r.eval_trimLine] at evaluated
    exact failed value List.mem_cons_self e evaluated
  | define name value =>
    cases value with
    | none => exact adds_of_same trimmed
    | some x => exact adds_of_same ((errors_onTop _).trans trimmed)
  | evaluate name default =>
    simp only [evaluates] at failed
    simp only [Rendering.walkNode, Rendering.evaluate]
    split
    · rename_i x found
      rw [found] at failed
      exact r.adds_writeValue encoder (failed x List.mem_cons_self)
    · split
      · exact adds_record (limit _ _)
      · exact adds_of_same rfl
    · rename_i found
      rw [found] at failed
      refine r.adds_writeValue encoder fun e evaluated => ?_
      cases default with
      | none => cases evaluated
      | some x => exact failed x List.mem_cons_self e evaluated
  | block | encode | inline => exact adds_of_same trimmed
  | scope => exact adds_of_same rfl

theorem adds_again (table : Nat) (encoder : Encoder) (pass : Pass) (mode : PassMode)
    (values : List Value) : Adds P s (again r table encoder pass mode values outer s).state := by
  unfold again
  split <;> exact adds_of_same rfl

theorem adds_leave {table : Nat} {encoder : Encoder} {pass : Option Pass}
    (failed : ∀ x ∈ evaluatesAgain (cursor :: outer) pass, ∀ e, r.eval s x = .error e → P e)
    (limit : ∀ name count, P (.passLimit name count)) :
    Adds P s (leave r table encoder pass (cursor :: outer) s).state := by
  unfold leave
  split
  · exact adds_of_same rfl
  · rename_i pass
    obtain ⟨name, behaviour, args, run, mode⟩ := pass
    split
    · exact adds_of_same rfl
    · exact adds_of_same rfl
    · exact adds_again _ _ _ _ _
    · exact adds_record (limit _ _)
    · rename_i left mode
      dsimp only at mode ⊢
      subst mode
      split
      · rename_i e evaluated
        obtain ⟨x, mem, error⟩ := Tuple.error_of_eval evaluated
        exact adds_record (failed x mem e error)
      · exact adds_again _ _ _ _ _

theorem adds_runBlock {body : Nat} {name : String} {behaviour : Behaviour} {args : Tuple}
    (failed : ∀ x ∈ args.values, ∀ e, r.eval s x = .error e → P e) :
    Adds P s (runBlock r body name behaviour args cursor outer s).state := by
  unfold runBlock
  split
  · rename_i e evaluated
    obtain ⟨x, mem, error⟩ := Tuple.error_of_eval evaluated
    exact adds_record (failed x mem e error)
  · split <;> exact adds_of_same rfl

theorem adds_close (failed : ∀ x ∈ evaluatesAgain outer cursor.pass, ∀ e,
      r.eval s.closeFrame x = .error e → P e)
    (limit : ∀ name count, P (.passLimit name count)) :
    Adds P s (close r cursor outer s).state := by
  unfold close
  cases outer with
  | nil => exact adds_of_same rfl
  | cons below outer =>
    have trimmed : (r.trimLine s.closeFrame).errors = s.errors := r.errors_trimLine
    refine (adds_leave (fun x mem e evaluated => ?_) limit).behind trimmed
    rw [r.eval_trimLine] at evaluated
    exact failed x mem e evaluated

theorem adds_advance : Adds (Raises r ⟨cursor :: outer, s⟩) s (advance r cursor outer s).state := by
  have trimmed : (r.trimLine s).errors = s.errors := r.errors_trimLine
  have limit (name : String) (count : Nat) :
      Raises r ⟨cursor :: outer, s⟩ (.passLimit name count) := .limit
  obtain ⟨table, rest, encoder, place, settled, pass⟩ := cursor
  unfold advance
  split
  · rename_i eq
    subst eq
    exact adds_close (fun x mem e evaluated => .value mem evaluated) limit
  · rename_i name chained behaviour args body rest eq
    subst eq
    split
    · exact adds_of_same trimmed
    · rename_i runs
      refine (adds_runBlock fun x mem e evaluated => ?_).behind trimmed
      rw [r.eval_trimLine] at evaluated
      refine .value (x := x) ?_ evaluated
      simp only [reads, if_neg runs]
      exact mem
  · exact adds_of_same ((errors_onTop _).trans trimmed)
  · exact adds_of_same trimmed
  · exact adds_of_same rfl
  · rename_i rest eq
    subst eq
    exact adds_record (.place rfl rfl)
  · rename_i node rest notBlock _ _ _ _ eq
    subst eq
    dsimp only
    split
    · exact adds_of_same rfl
    · refine adds_walkNode encoder (fun x mem e evaluated => .value ?_ evaluated)
        (fun _ _ => .mismatch) limit
      simp only [reads]
      exact mem

/-- What a step records it raises. -/
theorem adds_of_step {m m' : Machine} (step : step r m = some m') :
    Adds (Raises r m) m.state m'.state := by
  obtain ⟨cursors, s⟩ := m
  cases cursors with
  | nil => cases step
  | cons cursor outer =>
    cases step
    exact adds_advance

/-- Each error of a run was there before it or is raised at one of its steps. -/
theorem raised_of_reaches {m m' : Machine} (reaches : Reaches r m m') {e : EvalError}
    (mem : e ∈ m'.state.errors) :
    e ∈ m.state.errors ∨ ∃ site, Reaches r m site ∧ Raises r site e := by
  induction reaches with
  | refl => exact .inl mem
  | tail before step ih =>
    rcases adds_of_step step e mem with old | new
    · exact ih old
    · exact .inr ⟨_, before, new⟩

end Machine

end Stencil
