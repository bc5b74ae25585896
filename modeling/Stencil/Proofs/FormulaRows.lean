import Stencil.Proofs.IntegerRows

/-!
# Formulas as rows

The row of elements that a formula becomes before it is folded has its parentheses computed already.
Folding computes the signs from right to left, then the operators between factors from left to
right, and then those between terms. The three phases take a row through the row of its factors and
the row of its terms to the integer that the formula computes; where there is none, folding fails.
-/

namespace Stencil

variable {rank : Rank}

namespace Formula

open Stencil.Expr

/-- How far the row of a formula is computed. -/
inductive Stage
  /-- Nothing but parentheses. -/
  | read
  /-- The signs as well. -/
  | factors
  /-- The operators between factors as well. -/
  | terms

/-- The row of a formula at a stage. -/
def row (stage : Stage) {rank : Rank} : Formula rank → Option (List Expr)
  | numeral n => single (numeral n).computed?
  | group opening inner closing => single (group opening inner closing).computed?
  | negative gap operand =>
    match stage with
    | .read => (operand.row stage).map (.operator .negate :: ·)
    | _ => single (negative gap operand).computed?
  | factor only => only.row stage
  | scale left before op behind right =>
    match stage with
    | .terms => single (scale left before op behind right).computed?
    | _ => joined (left.row stage) op.operator (right.row stage)
  | term only => only.row stage
  | shift left _ op _ right => joined (left.row stage) op.operator (right.row stage)

theorem row_of_factor {stage : Stage} (later : stage ≠ .read) (e : Formula .factor) :
    e.row stage = single e.computed? := by
  cases stage with
  | read => exact absurd rfl later
  | factors | terms => cases e <;> rfl

theorem row_of_term (e : Formula .term) : e.row .terms = single e.computed? := by
  cases e with
  | factor only => exact row_of_factor (by rintro ⟨⟩) only
  | scale => rfl

/-- The operators that are left at a stage. -/
def Stage.operators : Stage → List Operator
  | read => .negate :: Operator.ofArithmetic
  | factors => Operator.ofArithmetic
  | terms => [.plus, .minus]

theorem Stage.operator_mem (stage : Stage) (op : SumOperator) : op.operator ∈ stage.operators := by
  cases stage <;> cases op <;> decide

section Computed

variable {stage : Stage} {e : Formula rank} {row : List Expr} {i : Int64}

theorem over_row (h : e.row stage = some row) : Over stage.operators row := by
  induction e generalizing row with
  | numeral | group => exact .of_single h
  | negative _ operand ih =>
    cases stage with
    | read =>
      obtain ⟨inner, found, rfl⟩ := Option.map_eq_some_iff.mp h
      exact (ih found).cons List.mem_cons_self
    | factors | terms => exact .of_single h
  | factor _ ih => exact ih h
  | scale left _ op _ right ihl ihr =>
    cases stage with
    | read =>
      obtain ⟨l, r, hl, hr, rfl⟩ := joined_eq_some h
      exact (ihl hl).join (.tail _ op.operator_mem) (ihr hr)
    | factors =>
      obtain ⟨l, r, hl, hr, rfl⟩ := joined_eq_some h
      exact (ihl hl).join op.operator_mem (ihr hr)
    | terms => exact .of_single h
  | term _ ih => exact ih h
  | shift left _ op _ right ihl ihr =>
    obtain ⟨l, r, hl, hr, rfl⟩ := joined_eq_some h
    exact (ihl hl).join (stage.operator_mem op) (ihr hr)

theorem exists_single {a : Option Int64} (h : a = some i) : ∃ row, single a = some row :=
  ⟨_, by rw [h]; rfl⟩

theorem exists_joined {left right : Option (List Expr)} (op : Operator)
    (hl : ∃ l, left = some l) (hr : ∃ r, right = some r) :
    ∃ row, joined left op right = some row := by
  obtain ⟨l, rfl⟩ := hl
  obtain ⟨r, rfl⟩ := hr
  exact ⟨_, rfl⟩

/-- A formula that is computed has a row at each stage. -/
theorem exists_row (stage : Stage) (h : e.computed? = some i) : ∃ row, e.row stage = some row := by
  induction e generalizing i with
  | numeral | group => exact exists_single h
  | negative _ operand ih =>
    cases stage with
    | read =>
      obtain ⟨a, computed, _⟩ := Option.bind_eq_some_iff.mp h
      obtain ⟨row, found⟩ := ih computed
      exact ⟨_, congrArg (Option.map _) found⟩
    | factors | terms => exact exists_single h
  | factor _ ih => exact ih h
  | scale _ _ op _ _ ihl ihr =>
    obtain ⟨a, hl, rest⟩ := Option.bind_eq_some_iff.mp h
    obtain ⟨b, hr, _⟩ := Option.bind_eq_some_iff.mp rest
    cases stage with
    | read | factors => exact exists_joined op.operator (ihl hl) (ihr hr)
    | terms => exact exists_single h
  | term _ ih => exact ih h
  | shift _ _ op _ _ ihl ihr =>
    obtain ⟨a, hl, rest⟩ := Option.bind_eq_some_iff.mp h
    obtain ⟨b, hr, _⟩ := Option.bind_eq_some_iff.mp rest
    exact exists_joined op.operator (ihl hl) (ihr hr)

/-- Without a row at some stage nothing is computed. -/
theorem computed?_eq_none (h : e.row stage = none) : e.computed? = none := by
  refine Option.eq_none_iff_forall_ne_some.mpr fun i computed => ?_
  obtain ⟨row, found⟩ := exists_row stage computed
  rw [h] at found
  cases found

end Computed

theorem firstAdjacent_row {e : Formula rank} {row : List Expr} (h : e.row .read = some row) :
    firstAdjacent row = none := by
  induction e generalizing row with
  | numeral | group =>
    obtain ⟨_, _, rfl⟩ := single_eq_some h
    rfl
  | negative _ operand ih =>
    obtain ⟨inner, found, rfl⟩ := Option.map_eq_some_iff.mp h
    exact firstAdjacent_join (l := []) rfl (ih found)
  | factor _ ih => exact ih h
  | scale left _ op _ right ihl ihr =>
    obtain ⟨l, r, hl, hr, rfl⟩ := joined_eq_some h
    exact firstAdjacent_join (ihl hl) (ihr hr)
  | term _ ih => exact ih h
  | shift left _ op _ right ihl ihr =>
    obtain ⟨l, r, hl, hr, rfl⟩ := joined_eq_some h
    exact firstAdjacent_join (ihl hl) (ihr hr)

/-- A row has a last element, which is an operand. -/
theorem endsValued_row {e : Formula rank} {row : List Expr} (h : e.row .read = some row) :
    ∃ before x, row = before ++ [x] ∧ x.valued = true := by
  induction e generalizing row with
  | numeral | group =>
    obtain ⟨n, _, rfl⟩ := single_eq_some h
    exact ⟨[], _, rfl, rfl⟩
  | negative _ operand ih =>
    obtain ⟨inner, found, rfl⟩ := Option.map_eq_some_iff.mp h
    obtain ⟨before, x, rfl, valued⟩ := ih found
    exact ⟨_ :: before, x, rfl, valued⟩
  | factor _ ih => exact ih h
  | scale left _ op _ right _ ihr =>
    obtain ⟨l, r, _, hr, rfl⟩ := joined_eq_some h
    obtain ⟨before, x, rfl, valued⟩ := ihr hr
    exact ⟨l ++ .operator op.operator :: before, x, by simp, valued⟩
  | term _ ih => exact ih h
  | shift left _ op _ right _ ihr =>
    obtain ⟨l, r, _, hr, rfl⟩ := joined_eq_some h
    obtain ⟨before, x, rfl, valued⟩ := ihr hr
    exact ⟨l ++ .operator op.operator :: before, x, by simp, valued⟩

section Phases

variable {front post row : List Expr} {op : Operator}

/-- What can stand before a sign that is computed. -/
def BeforeSign (front : List Expr) : Prop :=
  (∀ x, front.getLast? = some x → x.valued = false) ∧ Redex.Loose front

theorem BeforeSign.snoc (h : Redex.Loose front)
    (bound : op.precedence ≤ Operator.negate.precedence) :
    BeforeSign (front ++ [.operator op]) := by
  constructor
  · intro x last
    rw [List.getLast?_concat] at last
    cases last
    rfl
  · apply h.append
    intro other mem
    cases List.mem_singleton.mp mem
    exact bound

theorem loose_of_over (h : Over Stage.read.operators row) : Redex.Loose row := by
  have all : ∀ op ∈ Stage.read.operators,
      op.precedence ≤ Operator.negate.precedence := by decide
  exact fun op inside => all op (h.mem inside)

theorem looser_of_over (h : Over Stage.factors.operators row) : Redex.Looser row := by
  have all : ∀ op ∈ Stage.factors.operators,
      op.form ≠ .unary ∧ op.precedence < Operator.negate.precedence := by decide
  exact fun op inside => all op (h.mem inside)

/-- Signs on both sides of an operator. -/
theorem signs_join {l r : List Expr} {l' r' : Option (List Expr)}
    (inside : op ∈ Operator.ofArithmetic) (left : Over Stage.read.operators l)
    (right : ∀ {r}, r' = some r → Over Stage.factors.operators r)
    (hl : BecomesWithin BeforeSign Redex.Looser l l')
    (hr : BecomesWithin BeforeSign Redex.Looser r r') :
    BecomesWithin BeforeSign Redex.Looser (l ++ .operator op :: r) (joined l' op r') := by
  have all : ∀ op ∈ Operator.ofArithmetic,
      op.form ≠ .unary ∧ op.precedence < Operator.negate.precedence := by decide
  obtain ⟨form, bound⟩ := all op inside
  apply hl.join_right hr
  · intro front free
    rw [← List.append_assoc]
    exact .snoc (free.2.append (loose_of_over left)) (Nat.le_of_lt bound)
  · intro r post found looser
    exact (looser_operator form bound).append ((looser_of_over (right found)).append looser)

/-- The signs are computed first, from right to left. -/
theorem becomes_factors {e : Formula rank} (h : e.row .read = some row) :
    BecomesWithin BeforeSign Redex.Looser row (e.row .factors) := by
  induction e generalizing row with
  | numeral | group => exact BecomesWithin.refl h
  | negative gap operand ih =>
    obtain ⟨inner, found, rfl⟩ := Option.map_eq_some_iff.mp h
    intro front post free looser
    have sign : BeforeSign (front ++ [.operator .negate]) := .snoc free.2 (Nat.le_refl _)
    have reduced := ih found _ post sign looser
    rw [row_of_factor (by rintro ⟨⟩)] at reduced
    simp only [List.append_assoc, List.cons_append, List.nil_append] at reduced
    rw [List.cons_append]
    apply reduced.trans
    · intro none
      have stuck : operand.computed? = Option.none := Option.map_eq_none_iff.mp none
      simp only [row, computed?, stuck]
      rfl
    · intro other eq
      obtain ⟨i, computed, rfl⟩ := single_eq_some eq
      simp only [row, computed?, computed]
      exact becomes_sign i free.1 free.2 looser
  | factor _ ih => exact ih h
  | scale _ _ op _ _ ihl ihr =>
    obtain ⟨l, r, hl, hr, rfl⟩ := joined_eq_some h
    exact signs_join op.operator_mem (over_row hl) over_row (ihl hl) (ihr hr)
  | term _ ih => exact ih h
  | shift _ _ op _ _ ihl ihr =>
    obtain ⟨l, r, hl, hr, rfl⟩ := joined_eq_some h
    exact signs_join op.operator_mem (over_row hl) over_row (ihl hl) (ihr hr)

/-- What can stand before an operator between factors that is computed. -/
def BeforeProduct (front : List Expr) : Prop :=
  ∀ op, .operator op ∈ front → op.precedence < Operator.multiply.precedence

theorem BeforeProduct.append {more : List Expr} (h : BeforeProduct front)
    (h' : Over [.plus, .minus] more) : BeforeProduct (front ++ more) := by
  have all : ∀ op ∈ [Operator.plus, Operator.minus],
      op.precedence < Operator.multiply.precedence := by decide
  intro op mem
  rcases List.mem_append.mp mem with mem | mem
  · exact h op mem
  · exact all op (h'.mem mem)

/-- Two operands and their operator, the left one being computed first. -/
theorem leftmost_join {before : List Expr → Prop} {l r : List Expr} {a b : Option Int64}
    (inside : op ∈ Operator.ofArithmetic)
    (tight : ∀ {front}, before front →
      ∀ other, .operator other ∈ front → other.precedence < op.precedence)
    (hl : BecomesWithin before (Redex.AtMost op.precedence) l (single a))
    (hr : single b = some r) :
    BecomesWithin before (Redex.AtMost op.precedence) (l ++ .operator op :: r)
      (single (a.bind fun a => b.bind fun b => (op.apply (.int a) (.int b)).integer?)) := by
  obtain ⟨n, rfl, rfl⟩ := single_eq_some hr
  intro front post hf hp
  have behind : Redex.AtMost op.precedence (.operator op :: .value (.int n) :: post) := by
    have all : ∀ op ∈ Operator.ofArithmetic, op.form ≠ .unary := by decide
    intro other mem
    rcases List.mem_cons.mp mem with mem | mem
    · cases mem
      exact ⟨all op inside, Nat.le_refl _⟩
    · rcases List.mem_cons.mp mem with mem | mem
      · cases mem
      · exact hp other mem
  have left := hl front _ hf behind
  simp only [List.append_assoc, List.cons_append, List.nil_append]
  apply left.trans
  · intro none
    have stuck : a = Option.none := Option.map_eq_none_iff.mp none
    rw [stuck]
    rfl
  · intro other eq
    obtain ⟨m, rfl, rfl⟩ := single_eq_some eq
    exact becomes_leftmost inside m n (tight hf) hp

theorem atMost_of_over {ops : List Operator} {bound : Nat} (h : Over ops row)
    (all : ∀ op ∈ ops, op.form ≠ .unary ∧ op.precedence ≤ bound) : Redex.AtMost bound row :=
  fun op inside => all op (h.mem inside)

/-- The operators between factors are computed next, from left to right. -/
theorem becomes_terms {e : Formula rank} (h : e.row .factors = some row) :
    BecomesWithin BeforeProduct (Redex.AtMost Operator.multiply.precedence) row
      (e.row .terms) := by
  have products : ∀ op ∈ Operator.ofArithmetic,
      op.form ≠ .unary ∧ op.precedence ≤ Operator.multiply.precedence := by decide
  induction e generalizing row with
  | numeral | group | negative => exact BecomesWithin.refl h
  | factor only =>
    rw [Formula.row, row_of_factor (by rintro ⟨⟩)] at h
    exact BecomesWithin.refl ((row_of_term _).trans h)
  | scale left _ op _ right ih =>
    obtain ⟨l, r, hl, hr, rfl⟩ := joined_eq_some h
    rw [row_of_factor (by rintro ⟨⟩)] at hr
    have first := ih hl
    rw [row_of_term, ← op.precedence_operator] at first
    rw [← op.precedence_operator]
    refine leftmost_join op.operator_mem ?_ first hr
    intro front before other mem
    rw [op.precedence_operator]
    exact before other mem
  | term _ ih => exact ih h
  | shift left _ op _ right ihl ihr =>
    obtain ⟨l, r, hl, hr, rfl⟩ := joined_eq_some h
    apply (ihl hl).join_left (ihr hr)
    · intro post behind
      have sides : Over Operator.ofArithmetic (.operator op.operator :: r) :=
        (over_row hr).cons op.operator_mem
      exact (atMost_of_over sides products).append behind
    · intro l front found before
      exact before.append ((over_row found).join (Stage.terms.operator_mem op)
        (List.forall_mem_nil _))

/-- The operators between terms are computed last, from left to right. -/
theorem becomes_single {e : Formula rank} (h : e.row .terms = some row) :
    BecomesWithin (· = []) (Redex.AtMost Operator.plus.precedence) row (single e.computed?) := by
  induction e generalizing row with
  | numeral | group | negative | scale => exact BecomesWithin.refl h
  | factor only =>
    rw [Formula.row, row_of_factor (by rintro ⟨⟩)] at h
    exact BecomesWithin.refl h
  | term only =>
    rw [Formula.row, row_of_term] at h
    exact BecomesWithin.refl h
  | shift left _ op _ right ih =>
    obtain ⟨l, r, hl, hr, rfl⟩ := joined_eq_some h
    rw [row_of_term] at hr
    have first := ih hl
    rw [← op.precedence_operator] at first ⊢
    refine leftmost_join op.operator_mem ?_ first hr
    rintro _ rfl other mem
    cases mem

/-- Reducing the row of a formula computes the formula. -/
theorem becomes_computed {e : Formula rank} (h : e.row .read = some row) :
    Becomes row (single e.computed?) := by
  have free : BeforeSign [] := ⟨by rintro _ ⟨⟩, by rintro _ ⟨⟩⟩
  have signs : Redex.Looser [] := by rintro _ ⟨⟩
  have products : Redex.AtMost Operator.multiply.precedence [] := by rintro _ ⟨⟩
  have sums : Redex.AtMost Operator.plus.precedence [] := by rintro _ ⟨⟩
  have place (row : List Expr) : [] ++ (row ++ []) = row := by simp
  have first := becomes_factors h [] [] free signs
  rw [place] at first
  apply first.trans
  · intro none
    rw [computed?_eq_none none]
    rfl
  · intro row' found
    have second := becomes_terms found [] [] (by rintro _ ⟨⟩) products
    apply second.trans
    · intro none
      rw [computed?_eq_none none]
      rfl
    · intro row'' found'
      have third := becomes_single found' [] [] rfl sums
      have same : (fun row : List Expr => [] ++ (row ++ [])) = id := by
        funext row
        simp
      rwa [same, Option.map_id] at third

end Phases

/-- Folding the row of a formula computes the formula, or fails. -/
theorem fold_row {e : Formula rank} {row : List Expr} (h : e.row .read = some row)
    (mode : FoldMode) :
    (∀ i, e.computed? = some i → fold mode row = .ok (.value (.int i))) ∧
      (e.computed? = none → ∃ error, fold mode row = .error error) := by
  have nonempty : row ≠ [] := by
    obtain ⟨before, x, rfl, _⟩ := endsValued_row h
    simp
  have faultless : rowFault row = none := (over_row h).faultless (by decide) (firstAdjacent_row h)
  have folded : fold mode row = _ := fold_eq nonempty fun _ => faultless
  have reduced := becomes_computed h
  constructor
  · intro i computed
    rw [computed] at reduced
    have same : reduce row = reduce [.value (.int i)] := reduced
    rw [folded, same, reduce_operand rfl]
    exact finish_operand rfl
  · intro none
    rw [none] at reduced
    obtain ⟨error, failed⟩ := reduced
    exact ⟨error, by rw [folded, failed]⟩

end Formula

end Stencil
