import Stencil.Proofs.Formulas
import Stencil.Proofs.RowFolding

/-!
# Rows of integers

Rows of integers and of operators of arithmetic. What a row is reduced to does not depend on what
stands around it, as long as nothing there has to be computed first; so the reductions of two rows
are put together to that of the rows with an operator between them.
-/

namespace Stencil

namespace Expr

/-- The row of an integer, if there is one. -/
def single (i : Option Int64) : Option (List Expr) := i.map fun i => [.value (.int i)]

/-- Two rows with an operator between them. -/
def joined (left : Option (List Expr)) (op : Operator) (right : Option (List Expr)) :
    Option (List Expr) :=
  left.bind fun l => right.map fun r => l ++ .operator op :: r

theorem joined_eq_some {left right : Option (List Expr)} {op : Operator} {row : List Expr}
    (h : joined left op right = some row) :
    ∃ l r, left = some l ∧ right = some r ∧ row = l ++ .operator op :: r := by
  obtain ⟨l, hl, rest⟩ := Option.bind_eq_some_iff.mp h
  obtain ⟨r, hr, eq⟩ := Option.map_eq_some_iff.mp rest
  exact ⟨l, r, hl, hr, eq.symm⟩

theorem single_eq_some {i : Option Int64} {row : List Expr} (h : single i = some row) :
    ∃ n, i = some n ∧ row = [.value (.int n)] := by
  obtain ⟨n, found, eq⟩ := Option.map_eq_some_iff.mp h
  exact ⟨n, found, eq.symm⟩

/-- A row of integers and of some operators. -/
def Over (ops : List Operator) (row : List Expr) : Prop :=
  ∀ e ∈ row, (∃ i, e = .value (.int i)) ∨ ∃ op ∈ ops, e = .operator op

namespace Over

variable {ops : List Operator} {l r row : List Expr} {op : Operator}

theorem number (i : Int64) : Over ops [.value (.int i)] := by
  intro e mem
  exact .inl ⟨i, List.mem_singleton.mp mem⟩

theorem of_single {i : Option Int64} (h : single i = some row) : Over ops row := by
  obtain ⟨n, _, rfl⟩ := single_eq_some h
  exact number n

theorem cons (inside : op ∈ ops) (h : Over ops row) : Over ops (.operator op :: row) := by
  intro e mem
  rcases List.mem_cons.mp mem with rfl | mem
  · exact .inr ⟨op, inside, rfl⟩
  · exact h e mem

theorem join (hl : Over ops l) (inside : op ∈ ops) (hr : Over ops r) :
    Over ops (l ++ .operator op :: r) := by
  intro e mem
  rcases List.mem_append.mp mem with mem | mem
  · exact hl e mem
  · exact hr.cons inside e mem

/-- The operators of the row. -/
theorem mem (h : Over ops row) (inside : .operator op ∈ row) : op ∈ ops := by
  rcases h _ inside with ⟨i, eq⟩ | ⟨other, mem, eq⟩
  · cases eq
  · cases eq
    exact mem

/-- A row without operators of conditionals has none of the faults of its elements. -/
theorem faultless (h : Over ops row) (plain : ∀ op ∈ ops, op ≠ .question ∧ op ≠ .colon)
    (adjacent : firstAdjacent row = none) : rowFault row = none := by
  have absent (op : Operator) (other : op ∉ ops) : countOperator op row = 0 := by
    refine List.countP_eq_zero.mpr fun e mem => ?_
    rcases h e mem with ⟨i, rfl⟩ | ⟨found, inside, rfl⟩
    · simp [operator?_of_valued (x := .value (.int i)) rfl]
    · have differs : found ≠ op := fun same => other (same ▸ inside)
      simpa using differs
  refine rowFault_eq_none ?_ adjacent ?_
  · refine List.findSome?_eq_none_iff.mpr fun e mem => ?_
    rcases h e mem with ⟨i, rfl⟩ | ⟨op, _, rfl⟩ <;> rfl
  · rw [absent _ fun mem => (plain _ mem).1 rfl, absent _ fun mem => (plain _ mem).2 rfl]

end Over

/-- Between rows without neighbouring operands an operator keeps them apart. -/
theorem firstAdjacent_join {l r : List Expr} {op : Operator} (hl : firstAdjacent l = none)
    (hr : firstAdjacent r = none) : firstAdjacent (l ++ .operator op :: r) = none := by
  have behind : firstAdjacent (.operator op :: r) = none := by
    cases r with
    | nil => rfl
    | cons => exact hr
  induction l with
  | nil => exact behind
  | cons a l ih =>
    cases l with
    | nil =>
      rw [List.singleton_append, firstAdjacent, valued_operator, Bool.and_false]
      exact behind
    | cons b l =>
      rw [firstAdjacent] at hl
      rw [List.cons_append, List.cons_append, firstAdjacent]
      split at hl
      · cases hl
      · rename_i apart
        rw [if_neg apart]
        exact ih hl

/-- What is left of a row by reducing it: the same as of another row, or an error if there is no
other. -/
def Becomes (row : List Expr) : Option (List Expr) → Prop
  | some other => reduce row = reduce other
  | none => ∃ e, reduce row = .error e

namespace Becomes

variable {row : List Expr}

theorem refl (row : List Expr) : Becomes row (some row) := rfl

/-- One reduction after another. -/
theorem trans {made : Option (List Expr)} {place : List Expr → List Expr}
    {last : Option (List Expr)} (first : Becomes row (made.map place))
    (failed : made = none → last = none)
    (second : ∀ other, made = some other → Becomes (place other) last) : Becomes row last := by
  cases made with
  | none =>
    rw [failed rfl]
    exact first
  | some other =>
    have rest := second other rfl
    have same : reduce row = reduce (place other) := first
    cases last with
    | none => exact rest.imp fun _ failed => same.trans failed
    | some last => exact same.trans rest

end Becomes

/-- What becomes of a row wherever it stands, as far as what stands before it and behind it is of
the given kinds. -/
def BecomesWithin (before behind : List Expr → Prop) (row : List Expr)
    (made : Option (List Expr)) : Prop :=
  ∀ front post : List Expr, before front → behind post →
    Becomes (front ++ (row ++ post)) (made.map fun row => front ++ (row ++ post))

namespace BecomesWithin

variable {before behind : List Expr → Prop} {l r : List Expr} {l' r' : Option (List Expr)}
  {op : Operator}

theorem refl {row : List Expr} {made : Option (List Expr)} (same : made = some row) :
    BecomesWithin before behind row made := by
  intro front post _ _
  rw [same]
  exact Becomes.refl _

/-- The right side of an operator is reduced before the left. -/
theorem join_right (hl : BecomesWithin before behind l l') (hr : BecomesWithin before behind r r')
    (first : ∀ {front}, before front → before (front ++ (l ++ [.operator op])))
    (then' : ∀ {r post}, r' = some r → behind post → behind (.operator op :: (r ++ post))) :
    BecomesWithin before behind (l ++ .operator op :: r) (joined l' op r') := by
  intro front post hf hp
  have right := hr _ post (first hf) hp
  simp only [List.append_assoc, List.cons_append, List.nil_append] at right ⊢
  apply right.trans
  · rintro rfl
    cases l' <;> rfl
  · intro made found
    have left := hl front _ hf (then' found hp)
    subst found
    cases l' with
    | none => exact left
    | some => simpa [joined] using left

/-- The left side of an operator is reduced before the right. -/
theorem join_left (hl : BecomesWithin before behind l l') (hr : BecomesWithin before behind r r')
    (first : ∀ {post}, behind post → behind (.operator op :: (r ++ post)))
    (then' : ∀ {l front}, l' = some l → before front → before (front ++ (l ++ [.operator op]))) :
    BecomesWithin before behind (l ++ .operator op :: r) (joined l' op r') := by
  intro front post hf hp
  have left := hl front _ hf (first hp)
  simp only [List.append_assoc, List.cons_append] at left ⊢
  apply left.trans
  · rintro rfl
    rfl
  · intro made found
    have right := hr _ post (then' found hf) hp
    simp only [List.append_assoc, List.cons_append, List.nil_append] at right
    subst found
    cases r' with
    | none => exact right
    | some => simpa [joined] using right

end BecomesWithin

/-- Folding an operator on integers computes it, or fails where there is no integer. -/
theorem becomes_of_folded {row : List Expr} {e : Expr} {place : List Expr → List Expr}
    (step : reduce row = match e.folded with
      | .error error => .error error
      | .ok made => reduce (place [made]))
    (computable : e.constant = true) (pending : e.value? = none)
    (outcome : (∃ i, e.eval Env.empty = .int i) ∨ ∃ error, e.eval Env.empty = .error error) :
    Becomes row ((single (e.eval Env.empty).integer?).map place) := by
  unfold folded foldConstant at step
  rw [computable, pending] at step
  rcases outcome with ⟨i, value⟩ | ⟨error, value⟩
  · rw [value] at step ⊢
    exact step
  · rw [value] at step ⊢
    exact ⟨_, step⟩

end Expr

namespace Operator

theorem outcome_checkedValue (op : Operator) (n : Int) :
    (∃ i, op.checkedValue n = .int i) ∨ ∃ error, op.checkedValue n = .error error := by
  unfold checkedValue
  cases Value.int64? n with
  | some i => exact .inl ⟨i, rfl⟩
  | none => exact .inr ⟨_, rfl⟩

/-- Arithmetic on integers gives an integer or an error. -/
theorem outcome_apply {op : Operator} (h : op ∈ ofArithmetic) (a b : Int64) :
    (∃ i, op.apply (.int a) (.int b) = .int i) ∨
      ∃ error, op.apply (.int a) (.int b) = .error error := by
  simp only [ofArithmetic, List.mem_cons, List.not_mem_nil, or_false] at h
  rcases h with rfl | rfl | rfl | rfl | rfl
  · exact outcome_checkedValue _ _
  · exact outcome_checkedValue _ _
  · exact outcome_checkedValue _ _
  · show (∃ i, onInts .divide a b = _) ∨ ∃ error, onInts .divide a b = _
    unfold onInts
    dsimp only
    split
    · exact .inr ⟨_, rfl⟩
    · exact outcome_checkedValue _ _
  · show (∃ i, onInts .modulo a b = _) ∨ ∃ error, onInts .modulo a b = _
    unfold onInts
    dsimp only
    split
    · exact .inr ⟨_, rfl⟩
    · split
      · exact .inr ⟨_, rfl⟩
      · exact outcome_checkedValue _ _

/-- The value of an operator of arithmetic between two integers. -/
theorem eval_ofArithmetic {op : Operator} (h : op ∈ ofArithmetic) (a b : Int64) (env : Env) :
    (Expr.binary op (.value (.int a)) (.value (.int b))).eval env =
      op.apply (.int a) (.int b) := by
  simp only [ofArithmetic, List.mem_cons, List.not_mem_nil, or_false] at h
  rcases h with rfl | rfl | rfl | rfl | rfl <;> rfl

end Operator

namespace Expr

variable {front post : List Expr}

/-- A sign in front of an integer is computed, where no operand and no looser sign is in the way. -/
theorem becomes_sign (i : Int64) (free : ∀ e, front.getLast? = some e → e.valued = false)
    (loose : Redex.Loose front) (looser : Redex.Looser post) :
    Becomes (front ++ .operator .negate :: .value (.int i) :: post)
      ((single (Operator.negate.applyUnary (.int i)).integer?).map fun row =>
        front ++ (row ++ post)) := by
  have sign : Operator.negate.form = .unary := rfl
  have step := reduce_sign front.reverse post sign (x := .value (.int i)) rfl
    (by rwa [List.head?_reverse]) (by rwa [List.reverse_reverse]) looser
  rw [List.reverse_reverse] at step
  have value : (unary .negate (.value (.int i))).eval Env.empty =
      Operator.negate.applyUnary (.int i) := rfl
  rw [← value]
  exact becomes_of_folded step rfl rfl (Operator.outcome_checkedValue _ _)

/-- The first of the tightest operators is computed. -/
theorem becomes_leftmost {op : Operator} (h : op ∈ Operator.ofArithmetic) (a b : Int64)
    (before : ∀ other, .operator other ∈ front → other.precedence < op.precedence)
    (behind : Redex.AtMost op.precedence post) :
    Becomes (front ++ .value (.int a) :: .operator op :: .value (.int b) :: post)
      ((single (op.apply (.int a) (.int b)).integer?).map fun row => front ++ (row ++ post)) := by
  have form : op.form = .binary := by
    simp only [Operator.ofArithmetic, List.mem_cons, List.not_mem_nil, or_false] at h
    rcases h with rfl | rfl | rfl | rfl | rfl <;> rfl
  have value := Operator.eval_ofArithmetic h a b Env.empty
  have step := reduce_leftmost front.reverse post (x := .value (.int a)) (y := .value (.int b))
    rfl rfl form (fun other mem => before other (List.mem_reverse.mp mem)) behind
  rw [List.reverse_reverse] at step
  rw [← value]
  exact becomes_of_folded step rfl rfl (value ▸ Operator.outcome_apply h a b)

end Expr

end Stencil
