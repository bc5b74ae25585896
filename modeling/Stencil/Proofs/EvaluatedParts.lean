import Stencil.Expr.Eval

/-!
# What an evaluation evaluates

Which parts of an expression are evaluated depends on the values of others. `Expr.Evaluates` are the
parts of an expression that its evaluation comes to. Its value depends on them alone
(`eval_eq_of_evaluated`), and it is the error of each of them that has one, up to a `??`, which
replaces the errors of its left operand only (`error_of_evaluates`).
-/

namespace Stencil

theorem Value.isError_of_ne {v : Value} (h : ∀ error, v = .error error → False) :
    v.isError = false := by
  cases v with
  | error error => exact (h error rfl).elim
  | _ => rfl

theorem Value.eq_error_of_isError {v : Value} (h : v.isError = true) : ∃ e, v = .error e := by
  cases v with
  | error e => exact ⟨e, rfl⟩
  | _ => cases h

namespace Operator

/-- Whether an operator with this left operand wants its right one. -/
def wantsRight (op : Operator) (left : Value) : Bool :=
  match op, left with
  | nilCoalesce, left => left.isNil || left.isError
  | _, .error _ => false
  | and, left => left.truthy
  | or, left => !left.truthy
  | _, _ => true

/-- The value of an operator on operands of these values, the right one being wanted. -/
def withRight (op : Operator) (left right : Value) : Value :=
  match op, right with
  | nilCoalesce, right => right
  | _, .error error => .error error
  | and, right | or, right => .bool right.truthy
  | op, right => op.apply left right

/-- The value of an operator that does not want its right operand. -/
def withoutRight (op : Operator) (left : Value) : Value :=
  match op, left with
  | nilCoalesce, left => left
  | _, .error error => .error error
  | or, _ => .bool true
  | _, _ => .bool false

theorem wantsRight_or {left : Value} (sound : left.isError = false) :
    or.wantsRight left = !left.truthy := by
  cases left with
  | error => cases sound
  | _ => rfl

theorem withoutRight_or {left : Value} (sound : left.isError = false) :
    or.withoutRight left = .bool true := by
  cases left with
  | error => cases sound
  | _ => rfl

end Operator

namespace Expr

/-- The items of a collection, or the arguments of a call. -/
def items : Expr → List (Option String × Expr)
  | collection items => items
  | call _ _ _ _ args => args
  | overload _ _ _ args => args
  | _ => []

/-- The operands that an evaluation takes. An operand is tried if its error is replaced. -/
inductive Takes (env : Env) : Expr → (tried : Bool) → Expr → Prop
  | operand {op : Operator} {e : Expr} : Takes env (unary op e) false e
  | left {op : Operator} {l r : Expr} : Takes env (binary op l r) (op == .nilCoalesce) l
  | right {op : Operator} {l r : Expr} (wanted : op.wantsRight (l.eval env) = true) :
      Takes env (binary op l r) false r
  | condition {c t f : Expr} : Takes env (conditional c t f) false c
  | whenTrue {c t f : Expr} (sound : (c.eval env).isError = false)
      (holds : (c.eval env).truthy = true) : Takes env (conditional c t f) false t
  | whenFalse {c t f : Expr} (sound : (c.eval env).isError = false)
      (fails : (c.eval env).truthy = false) : Takes env (conditional c t f) false f
  | item {e x : Expr} {before after : List (Option String × Expr)} {label : Option String}
      (here : e.items = before ++ (label, x) :: after)
      (sound : ∀ item ∈ before, (item.2.eval env).isError = false) : Takes env e false x

/-- The parts of an expression that are evaluated when it is. A part is tried if it is in the left
operand of a `??`, at any depth. -/
inductive Evaluates (env : Env) (e : Expr) : (tried : Bool) → Expr → Prop
  | self : Evaluates env e false e
  | part {tried inside : Bool} {x y : Expr} (h : Evaluates env e tried x)
      (takes : Takes env x inside y) : Evaluates env e (tried || inside) y

variable {env env' : Env} {e x y : Expr}

/-- A binary operator by whether it wants its right operand. -/
theorem eval_binary_eq (op : Operator) (l r : Expr) : (binary op l r).eval env =
    if op.wantsRight (l.eval env) then op.withRight (l.eval env) (r.eval env)
    else op.withoutRight (l.eval env) := by
  cases op with
  | nilCoalesce =>
    simp only [eval]
    cases l.eval env <;> rfl
  | and =>
    simp only [eval]
    cases l.eval env with
    | error => rfl
    | _ => cases r.eval env <;> rfl
  | or =>
    simp only [eval]
    split
    · rename_i value
      rw [value]
      rfl
    · rename_i sound
      have sound := Value.isError_of_ne sound
      rw [Operator.wantsRight_or sound, Operator.withoutRight_or sound]
      cases (l.eval env).truthy with
      | true => rfl
      | false => cases r.eval env <;> rfl
  | _ =>
    simp only [eval]
    cases l.eval env with
    | error => rfl
    | _ => cases r.eval env <;> rfl

/-- The parts of an operand are parts. -/
theorem Evaluates.head {inside tried : Bool} (takes : Takes env e inside x)
    (h : Evaluates env x tried y) : Evaluates env e (inside || tried) y := by
  induction h with
  | self =>
    rw [Bool.or_false]
    exact .part .self takes
  | part _ more ih =>
    rw [← Bool.or_assoc]
    exact .part ih more

/-- Items are evaluated to values none of which is an error, or to the first error. -/
theorem evalItems_of_error {items before after : List (Option String × Expr)}
    {label : Option String} {error : EvalError} (here : items = before ++ (label, x) :: after)
    (sound : ∀ item ∈ before, (item.2.eval env).isError = false)
    (failed : x.eval env = .error error) : evalItems env items = .error error := by
  induction before generalizing items with
  | nil =>
    subst here
    simp only [List.nil_append, evalItems, failed]
  | cons item before ih =>
    subst here
    obtain ⟨label', e⟩ := item
    have first : (e.eval env).isError = false := sound _ List.mem_cons_self
    have rest := ih rfl fun item mem => sound item (.tail _ mem)
    simp only [List.cons_append, evalItems, rest]
    cases value : e.eval env with
    | error => rw [value] at first; cases first
    | _ => rfl

/-- An expression has the error of an operand that is not tried. -/
theorem error_of_takes {error : EvalError} (takes : Takes env e false x)
    (failed : x.eval env = .error error) : e.eval env = .error error := by
  generalize tried : false = inside at takes
  cases takes with
  | operand => simp only [eval, failed]
  | @left op l r =>
    rw [eval_binary_eq, failed]
    cases op with
    | nilCoalesce => cases tried
    | _ => rfl
  | @right op l r wanted =>
    rw [eval_binary_eq, if_pos wanted, failed]
    cases op <;> rfl
  | condition => simp only [eval, failed]
  | @whenTrue c t f sound holds =>
    simp only [eval]
    split
    · rename_i value
      rw [value] at sound
      cases sound
    · rw [if_pos holds, failed]
  | @whenFalse c t f sound fails =>
    simp only [eval]
    split
    · rename_i value
      rw [value] at sound
      cases sound
    · rw [fails]
      exact failed
  | item here sound =>
    have failed := evalItems_of_error here sound failed
    cases e with
    | collection | call | overload =>
      simp only [Expr.items] at failed
      simp only [eval, failed]
    | _ => cases (List.append_eq_nil_iff.mp here.symm).2

/-- An expression has the error of each part that is not tried. -/
theorem error_of_evaluates {error : EvalError} (h : Evaluates env e false x)
    (failed : x.eval env = .error error) : e.eval env = .error error := by
  generalize eq : false = tried at h
  induction h with
  | self => exact failed
  | @part tried inside x y _ takes ih =>
    obtain ⟨rfl, rfl⟩ := Bool.or_eq_false_iff.mp eq.symm
    exact ih (error_of_takes takes failed) rfl

mutual
/-- The value of an expression depends only on the variables that are evaluated. The induction is on
the expression: an operand that is taken has the same value, so the same operands are taken. -/
theorem eval_eq_of_evaluated {env env' : Env} : (e : Expr) →
    (∀ tried v, Evaluates env e tried (.var v) → env' v = env v) → e.eval env' = e.eval env
  | value _, _ | keyword _, _ | operator _, _ | sequence _, _ => by simp only [eval]
  | var v, same => by
    simp only [eval]
    exact same _ v .self
  | unary op e, same => by
    have operand := eval_eq_of_evaluated e fun _ v h => same _ v (h.head .operand)
    simp only [eval, operand]
  | binary op l r, same => by
    have left := eval_eq_of_evaluated l fun _ v h => same _ v (h.head .left)
    rw [eval_binary_eq, eval_binary_eq, left]
    split
    · rename_i wanted
      rw [eval_eq_of_evaluated r fun _ v h => same _ v (h.head (.right wanted))]
    · rfl
  | conditional c t f, same => by
    have condition := eval_eq_of_evaluated c fun _ v h => same _ v (h.head .condition)
    simp only [eval, condition]
    split
    · rfl
    · rename_i sound
      have sound := Value.isError_of_ne sound
      split
      · rename_i holds
        exact eval_eq_of_evaluated t fun _ v h => same _ v (h.head (.whenTrue sound holds))
      · rename_i fails
        exact eval_eq_of_evaluated f fun _ v h =>
          same _ v (h.head (.whenFalse sound (Bool.eq_false_iff.mpr fails)))
  | collection items, same => by
    simp only [eval, evalItems_eq_of_evaluated (collection items) [] items rfl (by simp) same]
  | call name method target slots args, same => by
    simp only [eval, evalItems_eq_of_evaluated (call name method target slots args) [] args rfl
      (by simp) same]
  | overload name method candidates args, same => by
    simp only [eval, evalItems_eq_of_evaluated (overload name method candidates args) [] args rfl
      (by simp) same]

/-- The same for items, behind others that are no errors. -/
theorem evalItems_eq_of_evaluated {env env' : Env} (e : Expr)
    (before : List (Option String × Expr)) : (items : List (Option String × Expr)) →
    e.items = before ++ items → (∀ item ∈ before, (item.2.eval env).isError = false) →
    (∀ tried v, Evaluates env e tried (.var v) → env' v = env v) →
    evalItems env' items = evalItems env items
  | [], _, _, _ => rfl
  | (label, x) :: items, here, sound, same => by
    have first := eval_eq_of_evaluated x fun _ v h => same _ v (h.head (.item here sound))
    simp only [evalItems, first]
    split
    · rfl
    · rename_i plain
      rw [evalItems_eq_of_evaluated e (before ++ [(label, x)]) items (by simp [here]) ?_ same]
      intro item mem
      rcases List.mem_append.mp mem with mem | mem
      · exact sound item mem
      · cases List.mem_singleton.mp mem
        exact Value.isError_of_ne plain
end

end Expr

end Stencil
