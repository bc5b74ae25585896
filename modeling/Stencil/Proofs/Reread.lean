import Stencil.Proofs.DoubleBits
import Stencil.Proofs.InvariantValues
import Stencil.Proofs.RowFolding

/-!
# Expressions read back

What a printed expression is read as. Mostly that is the expression itself, but an infinite double
and a NaN are printed as the divisions that give them, and in front of a subscript a sign belongs to
the whole operand. Neither changes the variables of an expression or its value.
-/

namespace Stencil

mutual
/-- Whether every integer inside a value has a literal: there is none for the least one. -/
def Value.writable : Value → Bool
  | .int i => i != Int64.minValue
  | .array items => Value.writableItems items
  | .dictionary entries => Value.writableEntries entries
  | _ => true

def Value.writableItems : List Value → Bool
  | [] => true
  | v :: rest => v.writable && Value.writableItems rest

def Value.writableEntries : List (String × Value) → Bool
  | [] => true
  | (_, v) :: rest => v.writable && Value.writableEntries rest
end

mutual
/-- Whether every integer inside the literals of an expression has a literal. -/
def Expr.writable : Expr → Bool
  | .value data => data.writable
  | .keyword _ | .operator _ | .var _ => true
  | .unary _ e => e.writable
  | .binary _ l r => l.writable && r.writable
  | .conditional c t f => c.writable && t.writable && f.writable
  | .sequence items => Expr.writableAll items
  | .collection items => Expr.writableOf items
  | .call _ _ _ _ args => Expr.writableOf args
  | .overload _ _ _ args => Expr.writableOf args

def Expr.writableAll : List Expr → Bool
  | [] => true
  | e :: rest => e.writable && Expr.writableAll rest

def Expr.writableOf : List (Option String × Expr) → Bool
  | [] => true
  | (_, e) :: rest => e.writable && Expr.writableOf rest
end

/-- The number that a negative number is printed as behind its sign. -/
def Value.unsigned? : Value → Option Value
  | .int i => if i.toInt < 0 then some (.int (Int64.ofInt (-i.toInt))) else none
  | .double d => if d.isFinite && Double.isNegative d then some (.double (-d)) else none
  | _ => none

/-- What a printed value is read as. -/
def Value.reread : Value → Expr
  | .double d =>
    if d.isNaN then .binary .divide (.value (.double 0.0)) (.value (.double 0.0))
    else if d.isInf then
      if Double.isNegative d then .binary .divide (.value (.double (-1.0))) (.value (.double 0.0))
      else .binary .divide (.value (.double 1.0)) (.value (.double 0.0))
    else .value (.double d)
  | data => .value data

namespace Expr

mutual
/-- What a printed expression is read as. -/
def reread : Expr → Expr
  | value data => data.reread
  | unary op e => unary op e.reread
  | binary .subscript (value data) r =>
    match data.unsigned? with
    | some m => unary .negate (binary .subscript (value m) r.reread)
    | none => binary .subscript data.reread r.reread
  | binary op l r => binary op l.reread r.reread
  | conditional c t f => conditional c.reread t.reread f.reread
  | collection items => collection (rereadItems items)
  | e => e

/-- What printed items are read as. -/
def rereadItems : List (Option String × Expr) → List (Option String × Expr)
  | [] => []
  | (label, e) :: rest => (label, e.reread) :: rereadItems rest
end

/-- The elements that a printed expression is read as, before anything is computed. -/
def row : Expr → List Expr
  | value data =>
    match data.unsigned? with
    | some m => [operator .negate, value m]
    | none => [data.reread]
  | e => [e.reread]

theorem rereadItems_eq_map (items : List (Option String × Expr)) :
    rereadItems items = items.map fun item => (item.1, item.2.reread) := by
  induction items with
  | nil => rfl
  | cons item items ih => rw [rereadItems, ih, List.map_cons]

end Expr

namespace Value

variable {data m : Value}

theorem valued_reread (data : Value) : data.reread.valued = true := by
  unfold reread
  split
  · split
    · rfl
    · split
      · split <;> rfl
      · rfl
  · rfl

theorem vars_reread (data : Value) : data.reread.vars = [] := by
  unfold reread
  split
  · split
    · rfl
    · split
      · split <;> rfl
      · rfl
  · rfl

theorem invariant_reread (data : Value) : data.reread.invariant = true := by
  unfold reread
  split
  · split
    · rfl
    · split
      · split <;> rfl
      · rfl
  · rfl

theorem isFinite_eq (d : Float) : d.isFinite = (!d.isNaN && !d.isInf) := by
  unfold Float.isFinite Float.isNaN Float.isInf Float.Model.isFinite Float.Model.isNaN
    Float.Model.isInf
  cases d.toModel.unpack <;> rfl

theorem isFinite_of_bounded {d : Float} (number : ¬ d.isNaN = true) (bounded : ¬ d.isInf = true) :
    d.isFinite = true := by
  rw [isFinite_eq, Bool.eq_false_of_not_eq_true number, Bool.eq_false_of_not_eq_true bounded]
  rfl

theorem reread_of_finite (h : data.finite = true) : data.reread = .value data := by
  unfold reread
  split
  · rename_i d
    have finite : d.isFinite = true := h
    rw [isFinite_eq, Bool.and_eq_true, Bool.not_eq_true', Bool.not_eq_true'] at finite
    rw [finite.1, finite.2]
    rfl
  · rfl

/-- A division of doubles whose result has no literal. -/
theorem eval_divide {env : Env} (a b : Float) :
    (Expr.binary .divide (.value (.double a)) (.value (.double b))).eval env = .double (a / b) :=
  rfl

theorem eval_reread (env : Env) (data : Value) : data.reread.eval env = data := by
  unfold reread
  split
  · rename_i d
    split
    · rename_i nan
      rw [eval_divide, ← Double.eq_of_isNaN nan]
    · split
      · rename_i infinite
        have eq := Double.eq_of_isInf infinite
        split
        · rename_i negative
          rw [if_pos negative] at eq
          rw [eval_divide, ← eq]
        · rename_i positive
          rw [if_neg positive] at eq
          rw [eval_divide, ← eq]
      · rfl
  · rfl

/-- A sign in front of the number gives the value back. -/
theorem foldConstant_negate (h : data.unsigned? = some m) (writable : data.writable = true) :
    (Expr.unary .negate (.value m)).foldConstant = .ok (.value data) := by
  unfold unsigned? at h
  split at h
  · rename_i i
    split at h
    · rename_i negative
      cases h
      have least : i.toInt ≠ Int64.minValue.toInt := fun same =>
        absurd (Int64.toInt_inj.mp same) (by simpa [Value.writable] using writable)
      have low := i.le_toInt
      have high := i.toInt_lt
      rw [Int64.toInt_minValue] at least
      have back : (Int64.ofInt (-i.toInt)).toInt = -i.toInt :=
        Int64.toInt_ofInt_of_le (by omega) (by omega)
      have checked : int64? i.toInt = some i := by
        unfold int64?
        rw [Int64.toInt_minValue, Int64.toInt_maxValue, if_pos (by omega), Int64.ofInt_toInt]
      have given : (Expr.unary .negate (.value (.int (Int64.ofInt (-i.toInt))))).eval Env.empty =
          .int i := by
        show Operator.checkedValue .negate (-(Int64.ofInt (-i.toInt)).toInt) = _
        rw [back, neg_neg]
        unfold Operator.checkedValue
        rw [checked]
      unfold Expr.foldConstant
      rw [given]
      rfl
    · cases h
  · rename_i d
    split at h
    · rename_i negative
      cases h
      rw [Bool.and_eq_true] at negative
      have given : (Expr.unary .negate (.value (.double (-d)))).eval Env.empty = .double d := by
        show Value.double (- -d) = _
        rw [Double.neg_neg_of_finite negative.1]
      have finite : (Value.double d).finite = true := negative.1
      unfold Expr.foldConstant
      rw [given]
      simp only [finite]
      rfl
    · cases h
  · cases h

/-- A number and what is printed behind its sign are of one type, which has no elements. -/
theorem subscriptOf_unsigned (h : data.unsigned? = some m) (key : Value) :
    ∃ reason, Operator.subscriptOf data key = Operator.mismatch .subscript reason ∧
      Operator.subscriptOf m key = Operator.mismatch .subscript reason := by
  unfold unsigned? at h
  split at h
  · split at h
    · cases h
      exact ⟨_, rfl, rfl⟩
    · cases h
  · split at h
    · cases h
      exact ⟨_, rfl, rfl⟩
    · cases h
  · cases h

/-- Neither a number nor what is printed behind its sign is an error. -/
theorem isError_unsigned (h : data.unsigned? = some m) :
    data.isError = false ∧ m.isError = false := by
  unfold unsigned? at h
  split at h
  · split at h
    · cases h
      exact ⟨rfl, rfl⟩
    · cases h
  · split at h
    · cases h
      exact ⟨rfl, rfl⟩
    · cases h
  · cases h

theorem unsigned?_of_not_finite (h : data.finite = false) : data.unsigned? = none := by
  unfold unsigned?
  split
  · cases h
  · rename_i d
    have infinite : d.isFinite = false := h
    rw [infinite]
    rfl
  · rfl

end Value

namespace Expr

variable {env : Env} {e l r l' r' : Expr}

theorem reread_value (data : Value) : (value data).reread = data.reread := by
  rw [reread]

/-- A binary operation is read back as the same operation, but for a sign before a subscript. -/
theorem reread_binary (op : Operator) (l r : Expr) :
    (∃ data m, op = .subscript ∧ l = value data ∧ data.unsigned? = some m ∧
      (binary op l r).reread = unary .negate (binary .subscript (value m) r.reread)) ∨
    (binary op l r).reread = binary op l.reread r.reread ∧
      (op = .subscript → l.row = [l.reread]) := by
  by_cases literal : op = .subscript ∧ ∃ data, l = value data
  · obtain ⟨rfl, data, rfl⟩ := literal
    cases h : data.unsigned? with
    | some m => exact .inl ⟨data, m, rfl, rfl, h, by rw [reread, h]⟩
    | none =>
      refine .inr ⟨?_, fun _ => by rw [row, h, reread_value]⟩
      rw [reread_value]
      simp only [reread, h]
  · right
    constructor
    · rw [reread]
      rintro data rfl rfl
      exact literal ⟨rfl, data, rfl⟩
    · rintro rfl
      cases l with
      | value data => exact absurd ⟨rfl, data, rfl⟩ literal
      | _ => rfl

theorem labels_rereadItems (items : List (Option String × Expr)) :
    (rereadItems items).map Prod.fst = items.map Prod.fst := by
  rw [rereadItems_eq_map, List.map_map]
  rfl

theorem eval_subscript {data : Value} (whole : data.isError = false) (key : Expr) :
    (binary .subscript (value data) key).eval env =
      match key.eval env with
      | .error error => .error error
      | found => Operator.subscriptOf data found := by
  rw [eval_binary (by decide) (by decide) (by decide), eval]
  cases data with
  | error _ => cases whole
  | _ => rfl

/-- Neither a number nor its part behind the sign has elements, so the sign may stand outside. -/
theorem eval_signed {data m : Value} (h : data.unsigned? = some m)
    (right : r'.eval env = r.eval env) :
    (unary .negate (binary .subscript (value m) r')).eval env =
      (binary .subscript (value data) r).eval env := by
  obtain ⟨plain, plain'⟩ := Value.isError_unsigned h
  obtain ⟨reason, wanted, given⟩ := Value.subscriptOf_unsigned h (r.eval env)
  rw [eval, eval_subscript plain', eval_subscript plain, right]
  cases found : r.eval env with
  | error _ => rfl
  | _ =>
    rw [found] at wanted given
    simp only [wanted, given]
    rfl

theorem isError_eval_subscript {data m : Value} (h : data.unsigned? = some m) :
    ((binary .subscript (value data) r).eval env).isError = true := by
  obtain ⟨plain, _⟩ := Value.isError_unsigned h
  obtain ⟨reason, wanted, _⟩ := Value.subscriptOf_unsigned h (r.eval env)
  rw [eval_subscript plain]
  cases found : r.eval env with
  | error _ => rfl
  | _ =>
    rw [found] at wanted
    simp only [wanted]
    rfl

mutual
/-- Reading back changes no value. -/
theorem eval_reread (env : Env) (e : Expr) : e.reread.eval env = e.eval env := by
  match e with
  | value data => rw [reread_value, Value.eval_reread, eval]
  | keyword _ | operator _ | var _ | sequence _ | call .. | overload .. => rfl
  | unary op e => rw [reread, eval, eval, eval_reread env e]
  | conditional c t f =>
    rw [reread, eval, eval, eval_reread env c, eval_reread env t, eval_reread env f]
  | collection items =>
    rw [reread, eval, eval, evalItems_rereadItems env items]
    split
    · rfl
    · exact gather_congr _ (labels_rereadItems items)
  | binary op l r =>
    rcases reread_binary op l r with ⟨data, m, rfl, rfl, h, eq⟩ | ⟨eq, _⟩
    · rw [eq, eval_signed h (eval_reread env r)]
    · rw [eq]
      exact eval_binary_congr op (eval_reread env l) (eval_reread env r)

theorem evalItems_rereadItems (env : Env) (items : List (Option String × Expr)) :
    evalItems env (rereadItems items) = evalItems env items := by
  match items with
  | [] => rfl
  | (label, e) :: rest =>
    rw [rereadItems, evalItems, evalItems, eval_reread env e, evalItems_rereadItems env rest]
end

mutual
/-- Reading back changes no variable. -/
theorem vars_reread (e : Expr) : e.reread.vars = e.vars := by
  match e with
  | value data => rw [reread_value, Value.vars_reread, vars]
  | keyword _ | operator _ | var _ | sequence _ | call .. | overload .. => rfl
  | unary op e => rw [reread, vars, vars, vars_reread e]
  | conditional c t f => rw [reread, vars, vars, vars_reread c, vars_reread t, vars_reread f]
  | collection items => rw [reread, vars, vars, varsOf_rereadItems items]
  | binary op l r =>
    rcases reread_binary op l r with ⟨data, m, rfl, rfl, _, eq⟩ | ⟨eq, _⟩
    · rw [eq, vars, vars, vars, vars, vars, vars_reread r]
    · rw [eq, vars, vars, vars_reread l, vars_reread r]

theorem varsOf_rereadItems (items : List (Option String × Expr)) :
    varsOf (rereadItems items) = varsOf items := by
  match items with
  | [] => rfl
  | (label, e) :: rest =>
    rw [rereadItems, varsOf, varsOf, vars_reread e, varsOf_rereadItems rest]
end

mutual
theorem invariant_reread (e : Expr) : e.reread.invariant = e.invariant := by
  match e with
  | value data => rw [reread_value, Value.invariant_reread, invariant]
  | keyword _ | operator _ | var _ | sequence _ | call .. | overload .. => rfl
  | unary op e => rw [reread, invariant, invariant, invariant_reread e]
  | conditional c t f =>
    rw [reread, invariant, invariant, invariant_reread c, invariant_reread t, invariant_reread f]
  | collection items => rw [reread, invariant, invariant, invariantOf_rereadItems items]
  | binary op l r =>
    rcases reread_binary op l r with ⟨data, m, rfl, rfl, _, eq⟩ | ⟨eq, _⟩
    · rw [eq, invariant, invariant, invariant, invariant, invariant, invariant_reread r]
    · rw [eq, invariant, invariant, invariant_reread l, invariant_reread r]

theorem invariantOf_rereadItems (items : List (Option String × Expr)) :
    invariantOf (rereadItems items) = invariantOf items := by
  match items with
  | [] => rfl
  | (label, e) :: rest =>
    rw [rereadItems, invariantOf, invariantOf, invariant_reread e, invariantOf_rereadItems rest]
end

theorem resolved_reread (e : Expr) : e.reread.resolved = e.resolved := by
  rw [Bool.eq_iff_iff, resolved_iff_vars, resolved_iff_vars, vars_reread]

theorem valued_reread (e : Expr) : e.reread.valued = e.valued := by
  cases e with
  | value data =>
    rw [reread_value, Value.valued_reread]
    rfl
  | binary op l r =>
    rcases reread_binary op l r with ⟨data, m, rfl, rfl, _, eq⟩ | ⟨eq, _⟩ <;>
      · rw [eq]
        rfl
  | unary | conditional | collection =>
    rw [reread]
    rfl
  | _ => rfl

theorem constant_reread (e : Expr) : e.reread.constant = e.constant := by
  unfold constant
  rw [resolved_reread, invariant_reread, valued_reread]

/-- An operation that stays as it is when it is folded: it cannot be computed, or its value has no
literal. -/
theorem foldConstant_stays (h : e.value? = none) : e.foldConstant = .ok e ↔
    e.constant = true → (e.eval Env.empty).isError = false ∧
      (e.eval Env.empty).finite = false := by
  unfold foldConstant
  rw [h, Option.isSome_none, Bool.or_false]
  cases computable : e.constant with
  | false => simp
  | true =>
    simp only [Bool.not_true, Bool.false_eq_true, if_false, forall_const]
    split
    · rename_i failed
      rw [failed]
      constructor
      · rintro ⟨⟩
      · rintro ⟨⟨⟩, _⟩
    · rename_i data whole
      have plain : (e.eval Env.empty).isError = false := by
        cases given : e.eval Env.empty with
        | error error => exact absurd given (whole error)
        | _ => rfl
      constructor
      · intro same
        refine ⟨plain, ?_⟩
        rw [← Bool.not_eq_true]
        intro finite
        rw [if_pos finite] at same
        injection same with same
        rw [← same] at h
        cases h
      · rintro ⟨_, finite⟩
        rw [finite]
        rfl

/-- A sign that was taken out of a subscript leaves what cannot be computed. -/
theorem foldConstant_subscript {data m : Value} (h : data.unsigned? = some m)
    (stays : (binary .subscript (value data) r).foldConstant =
      .ok (binary .subscript (value data) r)) :
    (binary .subscript (value m) r.reread).foldConstant =
      .ok (binary .subscript (value m) r.reread) := by
  rw [foldConstant_stays rfl] at stays ⊢
  have same : (binary .subscript (value m) r.reread).constant =
      (binary .subscript (value data) r).constant := by
    unfold constant resolved invariant
    rw [resolved_reread, invariant_reread]
    rfl
  intro computable
  obtain ⟨plain, _⟩ := stays (same ▸ computable)
  rw [isError_eval_subscript h] at plain
  cases plain

/-- What stays as it is when it is folded is read back as what stays. -/
theorem foldConstant_reread (h : e.foldConstant = .ok e) :
    e.reread.foldConstant = .ok e.reread := by
  cases literal : e.reread.value? with
  | some data =>
    unfold foldConstant
    rw [literal]
    simp
  | none =>
    rw [foldConstant_stays literal, constant_reread, eval_reread]
    cases given : e.value? with
    | none => exact (foldConstant_stays given).mp h
    | some data =>
      intro _
      cases e with
      | value data =>
        cases finite : data.finite with
        | true =>
          rw [reread_value, Value.reread_of_finite finite] at literal
          cases literal
        | false =>
          refine ⟨?_, finite⟩
          cases data <;> first | rfl | cases finite
      | _ => cases given

/-- The elements that an operand is read as are one operand. -/
theorem operandRow (valued : e.valued = true) (writable : e.writable = true) :
    OperandRow e.row e.reread := by
  cases e with
  | value data =>
    rw [row, reread_value]
    cases h : data.unsigned? with
    | some m =>
      have finite : data.finite = true := by
        rw [← Bool.not_eq_false]
        intro infinite
        rw [Value.unsigned?_of_not_finite infinite] at h
        cases h
      rw [Value.reread_of_finite finite]
      exact .signed rfl rfl (Value.foldConstant_negate h writable)
    | none => exact .plain (Value.valued_reread data)
  | _ => exact .plain ((valued_reread _).trans valued)

end Expr

end Stencil
