import Stencil.Proofs.EvaluatedParts
import Stencil.Proofs.ProvidedValues

/-!
# Defaults taken in both modes

A variable without value is an error in strict mode and nil in lenient mode. Both travel through an
expression: an operation on the error is the error, so an expression that has another value in
lenient mode is a missing variable in strict mode (`Expr.relaxes_eval`). Only a `??` puts its right
operand in place of the error, while it keeps what its left operand may be made of nil.

Whether a `??` replaces its left operand in lenient mode, too, can be seen from that operand. An
operand *fades* if nothing is made of a nil in it: where it is a missing variable in strict mode, it
is nil or an error in lenient mode (`Expr.wantsRight_of_fades`). A variable fades, and so does
arithmetic on it, its comparison or a subscript, but not a test for equality. If the left operand of
every `??` fades, each is replaced in both modes (`Expr.replacesAlike_of_defaultsFade`).
-/

namespace Stencil

/-- The error of a variable without value. -/
def Value.IsMissing (v : Value) : Prop := ∃ name, v = .error (.missingVariable name)

/-- What has a value in strict mode has the same in lenient mode, unless a variable is missing. -/
def Value.Relaxes (strict lenient : Value) : Prop := lenient = strict ∨ strict.IsMissing

/-- Variables have the same values, but those that are missing are nil. -/
def Env.Relaxes (strict lenient : Env) : Prop :=
  ∀ v, lenient v = strict v ∨ (strict v).IsMissing ∧ lenient v = .nil

/-- Items have the same values, unless a variable is missing. -/
def Tuple.Relaxes (strict lenient : Env) (t : Tuple) : Prop :=
  t.eval lenient = t.eval strict ∨ ∃ name, t.eval strict = .error (.missingVariable name)

namespace Tuple

variable {strict lenient : Env}

/-- An item, and others that are evaluated if it is no error. -/
theorem Relaxes.cons {label : Option String} {x : Expr} {t : Tuple}
    (first : (x.eval strict).Relaxes (x.eval lenient))
    (rest : (x.eval strict).isError = false → t.Relaxes strict lenient) :
    Relaxes strict lenient ((label, x) :: t) := by
  unfold Relaxes eval at rest ⊢
  rcases first with first | ⟨name, failed⟩
  · simp only [Expr.evalItems, first]
    split
    · exact .inl rfl
    · rename_i plain
      rcases rest (Value.isError_of_ne plain) with rest | ⟨name, failed⟩
      · exact .inl (by rw [rest])
      · exact .inr ⟨name, by rw [failed]⟩
  · exact .inr ⟨name, by simp only [Expr.evalItems, failed]⟩

theorem relaxes {t : Tuple} (each : ∀ x ∈ t.values, (x.eval strict).Relaxes (x.eval lenient)) :
    t.Relaxes strict lenient := by
  induction t with
  | nil => exact .inl rfl
  | cons item t ih =>
    obtain ⟨first, rest⟩ := List.forall_mem_cons.mp each
    exact .cons first fun _ => ih rest

/-- What is made of the values of items, if they have values. -/
theorem relaxes_gathered {t : Tuple} (h : t.Relaxes strict lenient) (make : List Value → Value) :
    Value.Relaxes
      (match Expr.evalItems strict t with
        | .error error => .error error
        | .ok values => make values)
      (match Expr.evalItems lenient t with
        | .error error => .error error
        | .ok values => make values) := by
  unfold Relaxes eval at h
  rcases h with same | ⟨name, failed⟩
  · exact .inl (by rw [same])
  · exact .inr ⟨name, by rw [failed]⟩

end Tuple

namespace Expr

variable {strict lenient : Env} {e x : Expr}

/-- Where a `??` is evaluated whose left operand is a missing variable in strict mode, this operand
is replaced in lenient mode, too. -/
def ReplacesAlike (strict lenient : Env) (e : Expr) : Prop :=
  ∀ tried l r, Evaluates strict e tried (.binary .nilCoalesce l r) → (l.eval strict).IsMissing →
    Operator.nilCoalesce.wantsRight (l.eval lenient) = true

theorem ReplacesAlike.of_takes {inside : Bool} (h : ReplacesAlike strict lenient e)
    (takes : Takes strict e inside x) : ReplacesAlike strict lenient x :=
  fun _ l r part missing => h _ l r (part.head takes) missing

/-- An operand that is missing and not tried makes the whole expression so. -/
theorem isMissing_of_takes (takes : Takes strict e false x) (missing : (x.eval strict).IsMissing) :
    (e.eval strict).IsMissing := by
  obtain ⟨name, failed⟩ := missing
  exact ⟨name, error_of_takes takes failed⟩

theorem wantsRight_of_isMissing {left : Value} (missing : left.IsMissing) :
    Operator.nilCoalesce.wantsRight left = true := by
  obtain ⟨name, rfl⟩ := missing
  rfl

theorem eval_nilCoalesce {env : Env} {l r : Expr}
    (wanted : Operator.nilCoalesce.wantsRight (l.eval env) = true) :
    (binary .nilCoalesce l r).eval env = r.eval env := by
  rw [eval_binary_eq, if_pos wanted]
  rfl

/-- The left operand alone decides, if the right one is not wanted. -/
theorem eval_binary_of_unwanted {op : Operator} {l r : Expr}
    (same : l.eval lenient = l.eval strict) (unwanted : op.wantsRight (l.eval strict) = false) :
    (binary op l r).eval lenient = (binary op l r).eval strict := by
  rw [eval_binary_eq, eval_binary_eq, same, unwanted]
  rfl

mutual
/-- An expression that has another value in lenient mode is a missing variable in strict mode. The
induction is on the expression; the operands that are evaluated are the same in both modes, as long
as none is missing. -/
theorem relaxes_eval {strict lenient : Env} (env : strict.Relaxes lenient) : (e : Expr) →
    ReplacesAlike strict lenient e → (e.eval strict).Relaxes (e.eval lenient)
  | value _, _ | keyword _, _ | operator _, _ | sequence _, _ => .inl (by simp only [eval])
  | var v, _ => by
    simp only [eval]
    exact (env v).imp_right And.left
  | unary op e, alike => by
    rcases relaxes_eval env e (alike.of_takes .operand) with operand | missing
    · exact .inl (by simp only [eval, operand])
    · exact .inr (isMissing_of_takes .operand missing)
  | binary op l r, alike => by
    have left := relaxes_eval env l (alike.of_takes .left)
    have right (wanted : op.wantsRight (l.eval strict) = true) :=
      relaxes_eval env r (alike.of_takes (.right wanted))
    rcases left with left | missing
    · cases wanted : op.wantsRight (l.eval strict) with
      | false => exact .inl (eval_binary_of_unwanted left wanted)
      | true =>
        rcases right wanted with right | missing
        · exact .inl (by rw [eval_binary_eq, eval_binary_eq, left, right])
        · exact .inr (isMissing_of_takes (.right wanted) missing)
    · by_cases replaced : op = .nilCoalesce
      · subst replaced
        have wanted := wantsRight_of_isMissing missing
        rw [eval_nilCoalesce wanted, eval_nilCoalesce (alike false l r .self missing)]
        exact right wanted
      · have untried : (op == .nilCoalesce) = false := beq_eq_false_iff_ne.mpr replaced
        exact .inr (isMissing_of_takes (untried ▸ .left) missing)
  | conditional c t f, alike => by
    rcases relaxes_eval env c (alike.of_takes .condition) with condition | missing
    · simp only [eval, condition]
      split
      · exact .inl rfl
      · rename_i sound
        have sound := Value.isError_of_ne sound
        split
        · rename_i holds
          exact relaxes_eval env t (alike.of_takes (.whenTrue sound holds))
        · rename_i fails
          exact relaxes_eval env f
            (alike.of_takes (.whenFalse sound (Bool.eq_false_iff.mpr fails)))
    · exact .inr (isMissing_of_takes .condition missing)
  | collection items, alike => by
    simp only [eval]
    exact Tuple.relaxes_gathered
      (relaxes_evalItems env (collection items) [] items rfl (by simp) alike) _
  | call name method target slots args, alike => by
    simp only [eval]
    exact Tuple.relaxes_gathered
      (relaxes_evalItems env (call name method target slots args) [] args rfl (by simp) alike) _
  | overload name method candidates args, alike => by
    simp only [eval]
    exact Tuple.relaxes_gathered
      (relaxes_evalItems env (overload name method candidates args) [] args rfl (by simp) alike) _

/-- The same for items, behind others that are no errors. -/
theorem relaxes_evalItems {strict lenient : Env} (env : strict.Relaxes lenient) (e : Expr)
    (before : List (Option String × Expr)) : (items : List (Option String × Expr)) →
    e.items = before ++ items → (∀ item ∈ before, (item.2.eval strict).isError = false) →
    ReplacesAlike strict lenient e → Tuple.Relaxes strict lenient items
  | [], _, _, _ => .inl rfl
  | (label, x) :: items, here, sound, alike => by
    refine .cons (relaxes_eval env x (alike.of_takes (.item here sound))) fun plain => ?_
    refine relaxes_evalItems env e (before ++ [(label, x)]) items (by simp [here]) ?_ alike
    intro item mem
    rcases List.mem_append.mp mem with mem | mem
    · exact sound item mem
    · cases List.mem_singleton.mp mem
      exact plain
end

end Expr

namespace Operator

/-- Whether an operator fails where one of its operands is nil. -/
def failsOnNil : Operator → Bool
  | plus | minus | multiply | divide | modulo => true
  | greater | greaterOrEqual | lesser | lesserOrEqual => true
  | subscript => true
  | _ => false

variable {op base : Operator} {left right : Value}

theorem isError_apply_of_nil (fails : op.failsOnNil = true)
    (absent : left.isNil = true ∨ right.isNil = true) : (op.apply left right).isError = true := by
  rcases absent with absent | absent
  · cases left <;> cases absent
    cases op <;> cases fails <;> cases right <;> rfl
  · cases right <;> cases absent
    cases op <;> cases fails <;> cases left <;> rfl

/-- The operation of a compound assignment fails on nil. -/
theorem failsOnNil_of_compound (compound : op.compoundBase? = some base) :
    base.failsOnNil = true := by
  cases op <;> cases compound <;> rfl

theorem isError_applyUnary_nil (other : op ≠ not) : (op.applyUnary .nil).isError = true := by
  cases op with
  | not => exact absurd rfl other
  | _ => rfl

theorem ne_nilCoalesce_of_failsOnNil (fails : op.failsOnNil = true) : op ≠ nilCoalesce := by
  rintro rfl
  cases fails

theorem wantsRight_of_failsOnNil (fails : op.failsOnNil = true) (sound : left.isError = false) :
    op.wantsRight left = true := by
  cases left with
  | error => cases sound
  | _ => cases op <;> cases fails <;> rfl

theorem withRight_of_failsOnNil (fails : op.failsOnNil = true) (sound : right.isError = false) :
    op.withRight left right = op.apply left right := by
  cases right with
  | error => cases sound
  | _ => cases op <;> cases fails <;> rfl

/-- What a `??` replaces, unless it is an error. -/
theorem isNil_of_wantsRight (wanted : nilCoalesce.wantsRight left = true)
    (sound : left.isError = false) : left.isNil = true := by
  cases left with
  | nil => rfl
  | error => cases sound
  | _ => cases wanted

theorem wantsRight_of_isError (failed : left.isError = true) :
    nilCoalesce.wantsRight left = true := by
  obtain ⟨e, rfl⟩ := Value.eq_error_of_isError failed
  rfl

end Operator

namespace Expr

/-- Whether an operand of `??` is replaced in lenient mode where it is a missing variable in strict
mode: the nil in place of the variable makes it nil or an error. -/
def fades : Expr → Bool
  | value _ | keyword _ | operator _ | var _ | sequence _ => true
  | unary op e => op != .not && e.fades
  | binary op l r => (op == .nilCoalesce || op.failsOnNil && l.fades) && r.fades
  | conditional .. | collection _ | call .. | overload .. => false

mutual
/-- Whether the left operand of every `??` fades. -/
def defaultsFade : Expr → Bool
  | value _ | keyword _ | operator _ | var _ | sequence _ => true
  | unary _ e => e.defaultsFade
  | binary op l r => (op != .nilCoalesce || l.fades) && l.defaultsFade && r.defaultsFade
  | conditional c t f => c.defaultsFade && t.defaultsFade && f.defaultsFade
  | collection items => defaultsFadeOf items
  | call _ _ _ _ args => defaultsFadeOf args
  | overload _ _ _ args => defaultsFadeOf args

def defaultsFadeOf : List (Option String × Expr) → Bool
  | [] => true
  | (_, e) :: rest => e.defaultsFade && defaultsFadeOf rest
end

variable {env strict lenient : Env} {e x l r : Expr} {op : Operator} {inside tried : Bool}

theorem isError_unary (other : op ≠ .not)
    (absent : Operator.nilCoalesce.wantsRight (e.eval env) = true) :
    ((unary op e).eval env).isError = true := by
  cases sound : (e.eval env).isError with
  | true =>
    obtain ⟨error, failed⟩ := Value.eq_error_of_isError sound
    rw [error_of_takes .operand failed]
    rfl
  | false =>
    have absent := Operator.isNil_of_wantsRight absent sound
    simp only [eval]
    cases value : e.eval env with
    | nil => exact Operator.isError_applyUnary_nil other
    | _ => rw [value] at absent; cases absent

/-- An operator that fails on nil fails where an operand is nil or an error. -/
theorem isError_binary (fails : op.failsOnNil = true)
    (absent : Operator.nilCoalesce.wantsRight (l.eval env) = true ∨
      Operator.nilCoalesce.wantsRight (r.eval env) = true) :
    ((binary op l r).eval env).isError = true := by
  have untried : (op == .nilCoalesce) = false :=
    beq_eq_false_iff_ne.mpr (Operator.ne_nilCoalesce_of_failsOnNil fails)
  cases left : (l.eval env).isError with
  | true =>
    obtain ⟨error, failed⟩ := Value.eq_error_of_isError left
    rw [error_of_takes (untried ▸ .left) failed]
    rfl
  | false =>
    have wanted := Operator.wantsRight_of_failsOnNil fails left
    cases right : (r.eval env).isError with
    | true =>
      obtain ⟨error, failed⟩ := Value.eq_error_of_isError right
      rw [error_of_takes (.right wanted) failed]
      rfl
    | false =>
      rw [eval_binary_eq, if_pos wanted, Operator.withRight_of_failsOnNil fails right]
      exact Operator.isError_apply_of_nil fails <| absent.imp
        (Operator.isNil_of_wantsRight · left) (Operator.isNil_of_wantsRight · right)

theorem wantsRight_of_same (same : e.eval lenient = e.eval strict)
    (missing : (e.eval strict).IsMissing) :
    Operator.nilCoalesce.wantsRight (e.eval lenient) = true := by
  rw [same]
  exact wantsRight_of_isMissing missing

/-- A `??` is missing with its right operand, and replaced where that is. -/
theorem wantsRight_nilCoalesce (env : strict.Relaxes lenient)
    (alike : ReplacesAlike strict lenient (.binary .nilCoalesce l r))
    (right : Operator.nilCoalesce.wantsRight (l.eval strict) = true → (r.eval strict).IsMissing →
      Operator.nilCoalesce.wantsRight (r.eval lenient) = true)
    (missing : ((binary .nilCoalesce l r).eval strict).IsMissing) :
    Operator.nilCoalesce.wantsRight ((binary .nilCoalesce l r).eval lenient) = true := by
  have wanted : Operator.nilCoalesce.wantsRight (l.eval strict) = true := by
    cases kept : Operator.nilCoalesce.wantsRight (l.eval strict) with
    | true => rfl
    | false =>
      rw [eval_binary_eq, kept] at missing
      exact kept.symm.trans (wantsRight_of_isMissing missing)
  have wanted' : Operator.nilCoalesce.wantsRight (l.eval lenient) = true := by
    rcases relaxes_eval env l (alike.of_takes .left) with same | absent
    · rwa [same]
    · exact alike false l r .self absent
  rw [eval_nilCoalesce wanted] at missing
  rw [eval_nilCoalesce wanted']
  exact right wanted missing

/-- An operator that fails on nil is missing with one of its operands, or has the same value. -/
theorem wantsRight_binary (env : strict.Relaxes lenient) (fails : op.failsOnNil = true)
    (alike : ReplacesAlike strict lenient (.binary op l r))
    (left : (l.eval strict).IsMissing → Operator.nilCoalesce.wantsRight (l.eval lenient) = true)
    (right : op.wantsRight (l.eval strict) = true → (r.eval strict).IsMissing →
      Operator.nilCoalesce.wantsRight (r.eval lenient) = true)
    (missing : ((binary op l r).eval strict).IsMissing) :
    Operator.nilCoalesce.wantsRight ((binary op l r).eval lenient) = true := by
  rcases relaxes_eval env l (alike.of_takes .left) with same | absent
  · cases wanted : op.wantsRight (l.eval strict) with
    | false => exact wantsRight_of_same (eval_binary_of_unwanted same wanted) missing
    | true =>
      rcases relaxes_eval env r (alike.of_takes (.right wanted)) with same' | absent
      · refine wantsRight_of_same ?_ missing
        rw [eval_binary_eq, eval_binary_eq, same, same']
      · exact Operator.wantsRight_of_isError (isError_binary fails (.inr (right wanted absent)))
  · exact Operator.wantsRight_of_isError (isError_binary fails (.inl (left absent)))

/-- What fades is nil or an error in lenient mode where it is a missing variable in strict mode. -/
theorem wantsRight_of_fades (env : strict.Relaxes lenient) : (e : Expr) → e.fades = true →
    ReplacesAlike strict lenient e → (e.eval strict).IsMissing →
    Operator.nilCoalesce.wantsRight (e.eval lenient) = true
  | value _, _, _, missing | keyword _, _, _, missing | operator _, _, _, missing
  | sequence _, _, _, missing => wantsRight_of_same (by simp only [eval]) missing
  | var v, _, _, missing => by
    simp only [eval] at missing ⊢
    rcases env v with same | ⟨-, absent⟩
    · rw [same]
      exact wantsRight_of_isMissing missing
    · rw [absent]
      rfl
  | unary op e, fades, alike, missing => by
    obtain ⟨other, fades⟩ := (Bool.and_eq_true _ _).mp fades
    have alike := alike.of_takes .operand
    rcases relaxes_eval env e alike with same | operand
    · exact wantsRight_of_same (by simp only [eval, same]) missing
    · have absent := wantsRight_of_fades env e fades alike operand
      exact Operator.wantsRight_of_isError (isError_unary (bne_iff_ne.mp other) absent)
  | binary op l r, fades, alike, missing => by
    obtain ⟨kind, last⟩ := (Bool.and_eq_true _ _).mp fades
    have right (wanted : op.wantsRight (l.eval strict) = true) :=
      wantsRight_of_fades env r last (alike.of_takes (.right wanted))
    rcases (Bool.or_eq_true _ _).mp kind with default | strictly
    · cases eq_of_beq default
      exact wantsRight_nilCoalesce env alike right missing
    · obtain ⟨fails, first⟩ := (Bool.and_eq_true _ _).mp strictly
      have left := wantsRight_of_fades env l first (alike.of_takes .left)
      exact wantsRight_binary env fails alike left right missing
  | conditional .., fades, _, _ | collection _, fades, _, _ | call .., fades, _, _
  | overload .., fades, _, _ => by cases fades

theorem defaultsFadeOf_iff {items : List (Option String × Expr)} :
    defaultsFadeOf items = true ↔ ∀ item ∈ items, item.2.defaultsFade = true := by
  induction items with
  | nil => simp [defaultsFadeOf]
  | cons item items ih =>
    obtain ⟨label, e⟩ := item
    rw [defaultsFadeOf, Bool.and_eq_true, ih, List.forall_mem_cons]

/-- Operands are no less strict about defaults than the whole. -/
theorem defaultsFade_of_takes (h : e.defaultsFade = true) (takes : Takes env e inside x) :
    x.defaultsFade = true := by
  cases takes with
  | operand => exact h
  | left | right | condition | whenTrue | whenFalse =>
    simp only [defaultsFade, Bool.and_eq_true] at h
    simp only [h]
  | item here =>
    cases e with
    | collection | call | overload =>
      exact defaultsFadeOf_iff.mp h _ (here ▸ List.mem_append_right _ List.mem_cons_self)
    | _ => cases (List.append_eq_nil_iff.mp here.symm).2

theorem Takes.sizeOf_lt (takes : Takes env e inside x) : sizeOf x < sizeOf e := by
  cases takes with
  | operand | left | right | condition | whenTrue | whenFalse =>
    simp only [unary.sizeOf_spec, binary.sizeOf_spec, conditional.sizeOf_spec]
    omega
  | item here =>
    have smaller {label : Option String} {items : List (Option String × Expr)}
        (mem : (label, x) ∈ items) : sizeOf x < sizeOf items := by
      have item := List.sizeOf_lt_of_mem mem
      simp only [Prod.mk.sizeOf_spec] at item
      omega
    cases e with
    | collection | call | overload =>
      have := smaller (here ▸ List.mem_append_right _ List.mem_cons_self)
      simp only [items] at this
      simp only [collection.sizeOf_spec, call.sizeOf_spec, overload.sizeOf_spec]
      omega
    | _ => cases (List.append_eq_nil_iff.mp here.symm).2

theorem Evaluates.sizeOf_le (h : Evaluates env e tried x) : sizeOf x ≤ sizeOf e := by
  induction h with
  | self => exact Nat.le_refl _
  | part _ takes ih => exact Nat.le_trans (Nat.le_of_lt takes.sizeOf_lt) ih

theorem defaultsFade_of_evaluates (h : e.defaultsFade = true) (part : Evaluates env e tried x) :
    x.defaultsFade = true := by
  induction part with
  | self => exact h
  | part _ takes ih => exact defaultsFade_of_takes ih takes

/-- If the left operand of every `??` fades, each is replaced in both modes. The induction is on the
size, as the `??` that is looked at may be at any depth. -/
theorem replacesAlike_of_defaultsFade (env : strict.Relaxes lenient) (e : Expr)
    (h : e.defaultsFade = true) : ReplacesAlike strict lenient e := by
  intro tried l r part missing
  have inside : Takes strict (.binary .nilCoalesce l r) true l := .left
  have smaller : sizeOf l < sizeOf e := Nat.lt_of_lt_of_le inside.sizeOf_lt part.sizeOf_le
  have here := defaultsFade_of_evaluates h part
  obtain ⟨both, -⟩ := (Bool.and_eq_true _ _).mp here
  obtain ⟨fades, inner⟩ := (Bool.and_eq_true _ _).mp both
  exact wantsRight_of_fades env l fades (replacesAlike_of_defaultsFade env l inner) missing
termination_by sizeOf e

end Expr

end Stencil
