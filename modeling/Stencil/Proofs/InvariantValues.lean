import Mathlib.Logic.Basic
import Stencil.Expr.Eval

/-!
# Invariant values

The value of an expression depends on its variables and on the functions that do not say that they
are invariant. Such a function may give something else at every occasion, so the value is taken in a
*setting*, which fixes the variables and what each function gives; an invariant function gives what
it gives while parsing. An expression that says it is invariant has one value in all settings, and a
literal that was computed while parsing has the value of the expression it was computed from.
-/

namespace Stencil

/-- What the value of an expression depends on: the variables, and what functions give. -/
structure Setting where
  env : Env
  run : Function → List Value → Value

/-- Invariant functions give what they give while parsing. -/
def Setting.Lawful (w : Setting) : Prop :=
  ∀ f : Function, f.invariant = true → w.run f = f.run

/-- A function that gives what it gives in a setting. -/
def Function.calling (run : Function → List Value → Value) (f : Function) : Function :=
  { f with run := run f }

namespace Expr

mutual
/-- An expression whose functions give what they give in a setting. -/
def calling (run : Function → List Value → Value) : Expr → Expr
  | value data => value data
  | keyword word => keyword word
  | operator op => operator op
  | var v => var v
  | unary op e => unary op (e.calling run)
  | binary op l r => binary op (l.calling run) (r.calling run)
  | conditional c t f => conditional (c.calling run) (t.calling run) (f.calling run)
  | sequence items => sequence (callingAll run items)
  | collection items => collection (callingOf run items)
  | call name method target slots args =>
    call name method (target.calling run) slots (callingOf run args)
  | overload name method candidates args =>
    overload name method (candidates.map (Function.calling run)) (callingOf run args)

def callingAll (run : Function → List Value → Value) : List Expr → List Expr
  | [] => []
  | e :: rest => e.calling run :: callingAll run rest

def callingOf (run : Function → List Value → Value) :
    List (Option String × Expr) → List (Option String × Expr)
  | [] => []
  | (label, e) :: rest => (label, e.calling run) :: callingOf run rest
end

theorem callingOf_eq_map (run : Function → List Value → Value)
    (items : List (Option String × Expr)) :
    callingOf run items = items.map fun item => (item.1, item.2.calling run) := by
  induction items with
  | nil => rfl
  | cons item items ih => rw [callingOf, ih, List.map_cons]

end Expr

/-- The value of an expression in a setting. -/
def Setting.eval (w : Setting) (e : Expr) : Value := (e.calling w.run).eval w.env

namespace Expr

mutual
/-- An invariant expression mentions no variable. -/
theorem resolved_of_invariant (e : Expr) (h : e.invariant = true) : e.resolved = true := by
  match e with
  | value _ | keyword _ | operator _ => rfl
  | var _ => cases h
  | unary _ e => exact resolved_of_invariant e h
  | binary _ l r =>
    rw [invariant, Bool.and_eq_true] at h
    rw [resolved, resolved_of_invariant l h.1, resolved_of_invariant r h.2]
    rfl
  | conditional c t f =>
    rw [invariant, Bool.and_eq_true, Bool.and_eq_true] at h
    rw [resolved, resolved_of_invariant c h.1.1, resolved_of_invariant t h.1.2,
      resolved_of_invariant f h.2]
    rfl
  | sequence items => exact resolvedAll_of_invariant items h
  | collection items => exact resolvedOf_of_invariant items h
  | call _ _ _ _ args =>
    rw [invariant, Bool.and_eq_true] at h
    exact resolvedOf_of_invariant args h.2
  | overload _ _ _ args =>
    rw [invariant, Bool.and_eq_true] at h
    exact resolvedOf_of_invariant args h.2

theorem resolvedAll_of_invariant (items : List Expr) (h : invariantAll items = true) :
    resolvedAll items = true := by
  match items with
  | [] => rfl
  | e :: rest =>
    rw [invariantAll, Bool.and_eq_true] at h
    rw [resolvedAll, resolved_of_invariant e h.1, resolvedAll_of_invariant rest h.2]
    rfl

theorem resolvedOf_of_invariant (items : List (Option String × Expr))
    (h : invariantOf items = true) : resolvedOf items = true := by
  match items with
  | [] => rfl
  | (_, e) :: rest =>
    rw [invariantOf, Bool.and_eq_true] at h
    rw [resolvedOf, resolved_of_invariant e h.1, resolvedOf_of_invariant rest h.2]
    rfl
end

theorem eval_binary_congr {env env' : Env} {l r l' r' : Expr} (op : Operator)
    (hl : l'.eval env' = l.eval env) (hr : r'.eval env' = r.eval env) :
    (binary op l' r').eval env' = (binary op l r).eval env := by
  cases op <;> simp only [eval, hl, hr]

/-- The value of a collection depends on its items by their labels only. -/
theorem gather_congr {items others : List (Option String × Expr)} (values : List Value)
    (labels : others.map Prod.fst = items.map Prod.fst) :
    Tuple.gather others values = Tuple.gather items values := by
  have any : (others.any fun item => item.1.isSome) = items.any fun item => item.1.isSome := by
    have := congrArg (fun names => names.any Option.isSome) labels
    simpa [Function.comp_def] using this
  have pairs : (others.zip values).filterMap
      (fun pair => pair.1.1.map fun label => (label, pair.2)) =
      (items.zip values).filterMap fun pair => pair.1.1.map fun label => (label, pair.2) := by
    have zipped (list : List (Option String × Expr)) : (list.zip values).filterMap
        (fun pair => pair.1.1.map fun label => (label, pair.2)) =
        ((list.map Prod.fst).zip values).filterMap fun pair =>
          pair.1.map fun label => (label, pair.2) := by
      rw [List.zip_map_left, List.filterMap_map]
      rfl
    rw [zipped, zipped, labels]
  unfold Tuple.gather
  rw [any, pairs]

/-- The positions of the labels depend on the labels only. -/
theorem labels_congr {items others : Tuple} (labels : others.map Prod.fst = items.map Prod.fst) :
    Tuple.labels others = Tuple.labels items := by
  have labelled (list : Tuple) (start : Nat) : Tuple.labelled start list =
      Tuple.labelled start ((list.map Prod.fst).map fun label => (label, ())) := by
    induction list generalizing start with
    | nil => rfl
    | cons item list ih =>
      obtain ⟨_ | label, e⟩ := item
      · exact ih (start + 1)
      · exact congrArg _ (ih (start + 1))
  unfold Tuple.labels
  rw [labelled others, labelled items, labels]

mutual
/-- The value of an expression depends on its variables only. -/
theorem eval_congr_vars {env env' : Env} (e : Expr) (same : ∀ v ∈ e.vars, env' v = env v) :
    e.eval env' = e.eval env := by
  match e with
  | value _ | keyword _ | operator _ | sequence _ => simp only [eval]
  | var v => simpa only [eval] using same v (by simp [vars])
  | unary op e => rw [eval, eval, eval_congr_vars e same]
  | binary op l r =>
    have left := eval_congr_vars l fun v mem => same v (List.mem_append_left _ mem)
    have right := eval_congr_vars r fun v mem => same v (List.mem_append_right _ mem)
    exact eval_binary_congr op left right
  | conditional c t f =>
    have condition := eval_congr_vars c fun v mem =>
      same v (List.mem_append_left _ (List.mem_append_left _ mem))
    have whenTrue := eval_congr_vars t fun v mem =>
      same v (List.mem_append_left _ (List.mem_append_right _ mem))
    have whenFalse := eval_congr_vars f fun v mem => same v (List.mem_append_right _ mem)
    rw [eval, eval, condition, whenTrue, whenFalse]
  | collection items => rw [eval, eval, evalItems_congr_vars items same]
  | call name method target slots args => rw [eval, eval, evalItems_congr_vars args same]
  | overload name method candidates args => rw [eval, eval, evalItems_congr_vars args same]

theorem evalItems_congr_vars {env env' : Env} (items : List (Option String × Expr))
    (same : ∀ v ∈ varsOf items, env' v = env v) : evalItems env' items = evalItems env items := by
  match items with
  | [] => rfl
  | (_, e) :: rest =>
    have first := eval_congr_vars e fun v mem => same v (List.mem_append_left _ mem)
    have more := evalItems_congr_vars rest fun v mem => same v (List.mem_append_right _ mem)
    rw [evalItems, evalItems, first, more]
end

mutual
/-- A setting leaves invariant functions as they are. -/
theorem calling_of_invariant {w : Setting} (lawful : w.Lawful) (e : Expr)
    (h : e.invariant = true) : e.calling w.run = e := by
  match e with
  | value _ | keyword _ | operator _ => rfl
  | var _ => cases h
  | unary _ e => rw [calling, calling_of_invariant lawful e h]
  | binary _ l r =>
    rw [invariant, Bool.and_eq_true] at h
    rw [calling, calling_of_invariant lawful l h.1, calling_of_invariant lawful r h.2]
  | conditional c t f =>
    rw [invariant, Bool.and_eq_true, Bool.and_eq_true] at h
    rw [calling, calling_of_invariant lawful c h.1.1, calling_of_invariant lawful t h.1.2,
      calling_of_invariant lawful f h.2]
  | sequence items => rw [calling, callingAll_of_invariant lawful items h]
  | collection items => rw [calling, callingOf_of_invariant lawful items h]
  | call name method target slots args =>
    rw [invariant, Bool.and_eq_true] at h
    rw [calling, callingOf_of_invariant lawful args h.2, Function.calling, lawful target h.1]
  | overload name method candidates args =>
    rw [invariant, Bool.and_eq_true, List.all_eq_true] at h
    have same : candidates.map (Function.calling w.run) = candidates := by
      refine (List.map_congr_left fun f mem => ?_).trans (List.map_id candidates)
      rw [Function.calling, lawful f (h.1 f mem)]
      rfl
    rw [calling, callingOf_of_invariant lawful args h.2, same]

theorem callingAll_of_invariant {w : Setting} (lawful : w.Lawful) (items : List Expr)
    (h : invariantAll items = true) : callingAll w.run items = items := by
  match items with
  | [] => rfl
  | e :: rest =>
    rw [invariantAll, Bool.and_eq_true] at h
    rw [callingAll, calling_of_invariant lawful e h.1, callingAll_of_invariant lawful rest h.2]

theorem callingOf_of_invariant {w : Setting} (lawful : w.Lawful)
    (items : List (Option String × Expr)) (h : invariantOf items = true) :
    callingOf w.run items = items := by
  match items with
  | [] => rfl
  | (_, e) :: rest =>
    rw [invariantOf, Bool.and_eq_true] at h
    rw [callingOf, calling_of_invariant lawful e h.1, callingOf_of_invariant lawful rest h.2]
end

/-- An invariant expression has its value while parsing in every setting. -/
theorem eval_of_invariant {w : Setting} (lawful : w.Lawful) {e : Expr} (h : e.invariant = true) :
    w.eval e = e.eval Env.empty := by
  have closed : e.vars = [] := (resolved_iff_vars e).mp (resolved_of_invariant e h)
  rw [Setting.eval, calling_of_invariant lawful e h]
  refine eval_congr_vars e fun v mem => ?_
  rw [closed] at mem
  cases mem

/-- An expression that is computed while parsing keeps its value in every setting. -/
theorem eval_foldConstant {w : Setting} (lawful : w.Lawful) {e e' : Expr}
    (h : e.foldConstant = .ok e') : w.eval e' = w.eval e := by
  unfold foldConstant at h
  split at h
  · cases h
    rfl
  · rename_i computable
    simp only [Bool.or_eq_true, Bool.not_eq_true', not_or, Bool.not_eq_false, constant,
      Bool.and_eq_true] at computable
    split at h
    · cases h
    · cases h
      split
      · rw [eval_of_invariant lawful computable.1.1.2]
        rfl
      · rfl

/-- Computing fails for an expression that is constant, is no literal and has an error for its
value. -/
theorem foldConstant_error_iff {w : Setting} (lawful : w.Lawful) {e : Expr} :
    (∃ error, e.foldConstant = .error error) ↔
      e.constant = true ∧ e.value? = none ∧ ∃ error, w.eval e = .error error := by
  by_cases computable : e.constant = true ∧ e.value? = none
  · have invariant : e.invariant = true := by
      have := computable.1
      rw [constant, Bool.and_eq_true, Bool.and_eq_true] at this
      exact this.1.2
    have goes : (!e.constant || e.value?.isSome) = false := by
      rw [computable.1, computable.2]
      rfl
    rw [eval_of_invariant lawful invariant, foldConstant, goes]
    simp only [Bool.false_eq_true, if_false, computable, true_and]
    cases e.eval Env.empty <;> simp
  · have stays : (!e.constant || e.value?.isSome) = true := by
      rw [Bool.or_eq_true, Bool.not_eq_true', Option.isSome_iff_ne_none, ← Bool.not_eq_true,
        ← not_and_or]
      exact computable
    rw [foldConstant, if_pos stays]
    constructor
    · rintro ⟨error, ⟨⟩⟩
    · rintro ⟨constant, literal, _⟩
      exact absurd ⟨constant, literal⟩ computable

end Expr

end Stencil
