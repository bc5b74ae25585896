import Stencil.Proofs.Settled

/-!
# Folding short rows

What folding makes of the rows that printed expressions are read as: an operand, an operator between
two operands, a conditional. A sign in front of a number is computed before anything else in such a
row.
-/

namespace Stencil

namespace Redex

variable {before rest post : List Expr} {e x y z c t f : Expr} {op : Operator}

theorem unaryAt_of_valued (h : x.valued = true) : unaryAt before (x :: rest) = none := by
  cases x <;> first | rfl | cases h

theorem binaryAt_single : binaryAt before [x] = none := rfl

theorem binaryAt_pair : binaryAt before [x, y] = none := by
  cases y <;> rfl

theorem ternaryAt_of_short {row : List Expr} (h : row.length < 5) :
    ternaryAt before row = none := by
  unfold ternaryAt
  split
  · simp only [List.length_cons] at h
    omega
  · rfl

theorem ternaryAt_operator : ternaryAt before (.operator op :: rest) = none := by
  unfold ternaryAt
  split
  · rename_i eq
    cases eq
    rfl
  · rfl

/-- The places of a row are those that start in its front and those that start behind. -/
theorem operators_append (before front rest : List Expr) :
    ∃ places, operators before (front ++ rest) =
      places ++ operators (front.reverse ++ before) rest := by
  induction front generalizing before with
  | nil => exact ⟨[], rfl⟩
  | cons e front ih =>
    obtain ⟨places, eq⟩ := ih (e :: before)
    refine ⟨(unaryAt before (e :: (front ++ rest))).toList ++
      (binaryAt before (e :: (front ++ rest))).toList ++ places, ?_⟩
    rw [List.cons_append, operators, eq]
    simp

/-- Every operator of a row binds at most as tight as a sign. -/
def Loose (row : List Expr) : Prop :=
  ∀ op, Expr.operator op ∈ row → op.precedence ≤ Operator.negate.precedence

/-- No operator of a row binds as tight as a sign. -/
def Looser (row : List Expr) : Prop :=
  ∀ op, Expr.operator op ∈ row → op.form ≠ .unary ∧ op.precedence < Operator.negate.precedence

theorem Loose.append {row more : List Expr} (h : Loose row) (h' : Loose more) :
    Loose (row ++ more) := by
  intro op mem
  exact (List.mem_append.mp mem).elim (h op) (h' op)

theorem Looser.append {row more : List Expr} (h : Looser row) (h' : Looser more) :
    Looser (row ++ more) := by
  intro op mem
  exact (List.mem_append.mp mem).elim (h op) (h' op)

/-- The operator of a place stands in the row, and it is a unary one if later places are preferred.
-/
theorem operator_of_mem_operators {row : List Expr} {r : Redex} (mem : r ∈ operators before row) :
    ∃ op, Expr.operator op ∈ row ∧ r.precedence = op.precedence ∧
      (r.prefersLater = true → op.form = .unary) := by
  induction row generalizing before with
  | nil => cases mem
  | cons e rest ih =>
    simp only [operators, List.mem_append, Option.mem_toList] at mem
    rcases mem with (mem | mem) | mem
    · unfold unaryAt at mem
      split at mem
      · rename_i op _ _ eq
        rw [eq]
        split at mem
        · rename_i here
          cases mem
          exact ⟨op, by simp, rfl, fun _ => here.1⟩
        · cases mem
      · cases mem
    · unfold binaryAt at mem
      split at mem
      · rename_i op _ _ eq
        rw [eq]
        split at mem
        · cases mem
          exact ⟨op, by simp, rfl, by rintro ⟨⟩⟩
        · cases mem
      · cases mem
    · obtain ⟨op, inside, same⟩ := ih mem
      exact ⟨op, .tail _ inside, same⟩

/-- In front of an operand, a place has its operator in front of it too. -/
theorem operators_front (hx : x.valued = true) (before front rest : List Expr) :
    ∃ places, operators before (front ++ x :: rest) =
        places ++ operators (front.reverse ++ before) (x :: rest) ∧
      ∀ r ∈ places, ∃ op, Expr.operator op ∈ front ∧ r.precedence = op.precedence := by
  induction front generalizing before with
  | nil => exact ⟨[], rfl, by simp⟩
  | cons e front ih =>
    obtain ⟨places, eq, inFront⟩ := ih (e :: before)
    refine ⟨(unaryAt before (e :: (front ++ x :: rest))).toList ++
      (binaryAt before (e :: (front ++ x :: rest))).toList ++ places, ?_, ?_⟩
    · rw [List.cons_append, operators, eq]
      simp
    · intro r mem
      simp only [List.mem_append, Option.mem_toList] at mem
      rcases mem with (mem | mem) | mem
      · unfold unaryAt at mem
        split at mem
        · rename_i op operand after here
          injection here with here
          split at mem
          · cases mem
            exact ⟨op, by simp [here], rfl⟩
          · cases mem
        · cases mem
      · unfold binaryAt at mem
        split at mem
        · rename_i left op right after here
          injection here with _ here
          split at mem
          · cases mem
            cases front with
            | nil =>
              injection here with here
              rw [here] at hx
              cases hx
            | cons d front =>
              injection here with here
              exact ⟨op, by simp [here], rfl⟩
          · cases mem
        · cases mem
      · obtain ⟨op, inside, same⟩ := inFront r mem
        exact ⟨op, .tail _ inside, same⟩

/-- A place is kept if those behind it bind no tighter, and none of them is preferred. -/
theorem foldl_prefer_of_le {places : List Redex} {r : Redex}
    (h : ∀ s ∈ places, s.precedence ≤ r.precedence ∧
      (s.precedence = r.precedence → s.prefersLater = false)) :
    places.foldl prefer (some r) = some r := by
  induction places with
  | nil => rfl
  | cons s places ih =>
    obtain ⟨le, early⟩ := h s List.mem_cons_self
    have kept : prefer (some r) s = some r := by
      unfold prefer
      dsimp only
      rw [if_neg]
      rintro (more | ⟨same, later⟩)
      · omega
      · rw [early same] at later
        cases later
    rw [List.foldl_cons, kept]
    exact ih fun s mem => h s (.tail _ mem)

/-- A place is the next one if all places before it give way to it and none behind it is preferred.
-/
theorem next?_of_places {row : List Expr} {places later : List Redex} {r : Redex}
    (split : operators [] row = places ++ r :: later)
    (front : ∀ s ∈ places, s.precedence < r.precedence ∨
      r.precedence = s.precedence ∧ r.prefersLater = true)
    (behind : ∀ s ∈ later, s.precedence ≤ r.precedence ∧
      (s.precedence = r.precedence → s.prefersLater = false)) : next? row = some r := by
  have taken : prefer (places.foldl prefer none) r = some r := by
    cases found : places.foldl prefer none with
    | none => rfl
    | some s =>
      rcases mem_of_foldl_prefer found with mem | other
      · exact if_pos (front s mem)
      · cases other
  unfold next? bestOperator?
  rw [split, List.foldl_append, List.foldl_cons, taken, foldl_prefer_of_le behind]

theorem precedence_of_unary (form : op.form = .unary) :
    op.precedence = Operator.negate.precedence := by
  cases op <;> first | rfl | cases form

/-- A unary operator in front of an operand is the next place, if what stands before it is no
operand, and behind it there is no other. -/
theorem next?_unary (form : op.form = .unary) (hx : x.valued = true)
    (front : ∀ e, before.head? = some e → e.valued = false) (loose : Loose before.reverse)
    (looser : Looser post) :
    next? (before.reverse ++ .operator op :: x :: post) = some (.unary before op x post) := by
  obtain ⟨places, eq⟩ := operators_append [] before.reverse (.operator op :: x :: post)
  rw [List.reverse_reverse, List.append_nil] at eq
  have here : unaryAt before (.operator op :: x :: post) =
      some (.unary before op x post) := by
    have free : before.head?.any Expr.valued = false := by
      cases first : before.head? with
      | none => rfl
      | some e => exact front e first
    simp [unaryAt, hx, free, form]
  have none : binaryAt before (.operator op :: x :: post) = none := by
    cases x <;> first | rfl | cases hx
  have same := precedence_of_unary form
  have all : Loose (before.reverse ++ .operator op :: x :: post) := by
    intro op mem
    simp only [List.mem_append, List.mem_cons] at mem
    rcases mem with mem | mem | mem | mem
    · exact loose op mem
    · cases mem
      exact Nat.le_of_eq same
    · subst mem
      cases hx
    · exact Nat.le_of_lt (looser op mem).2
  have behind : Looser (x :: post) := by
    intro op mem
    rcases List.mem_cons.mp mem with mem | mem
    · subst mem
      cases hx
    · exact looser op mem
  have tight : (Redex.unary before op x post).precedence = Operator.negate.precedence := same
  rw [operators, here, none] at eq
  refine next?_of_places eq (fun r mem => ?_) fun s mem => ?_
  · obtain ⟨other, inside, same, -⟩ :=
      operator_of_mem_operators (eq ▸ List.mem_append_left _ mem)
    have le := all other inside
    rw [← same, ← tight] at le
    exact (Nat.lt_or_eq_of_le le).imp_right fun equal => ⟨equal.symm, rfl⟩
  · obtain ⟨other, inside, same, -⟩ := operator_of_mem_operators mem
    have less := (behind other inside).2
    rw [← same, ← tight] at less
    exact ⟨Nat.le_of_lt less, fun equal => absurd equal (Nat.ne_of_lt less)⟩

/-- No operator of a row is unary, or binds tighter than a bound. -/
def AtMost (bound : Nat) (row : List Expr) : Prop :=
  ∀ op, Expr.operator op ∈ row → op.form ≠ .unary ∧ op.precedence ≤ bound

theorem AtMost.append {bound : Nat} {row more : List Expr} (h : AtMost bound row)
    (h' : AtMost bound more) : AtMost bound (row ++ more) := by
  intro op mem
  exact (List.mem_append.mp mem).elim (h op) (h' op)

/-- A binary operator between operands is the next place, if what stands before it binds less tight
and what stands behind it no tighter. -/
theorem next?_binary (hx : x.valued = true) (hy : y.valued = true) (form : op.form = .binary)
    (front : ∀ other, Expr.operator other ∈ before → other.precedence < op.precedence)
    (behind : AtMost op.precedence post) :
    next? (before.reverse ++ x :: .operator op :: y :: post) =
      some (.binary before x op y post) := by
  obtain ⟨places, eq, inFront⟩ := operators_front hx [] before.reverse (.operator op :: y :: post)
  rw [List.reverse_reverse, List.append_nil] at eq
  have here : binaryAt before (x :: .operator op :: y :: post) =
      some (.binary before x op y post) := by
    simp [binaryAt, form, hx, hy]
  have sign : unaryAt (x :: before) (.operator op :: y :: post) = none := by
    simp [unaryAt, form]
  have between : binaryAt (x :: before) (.operator op :: y :: post) = none := by
    cases y <;> first | rfl | cases hy
  rw [operators, operators, unaryAt_of_valued hx, here, sign, between] at eq
  refine next?_of_places eq (fun r mem => ?_) fun s mem => ?_
  · obtain ⟨other, inside, same⟩ := inFront r mem
    rw [same]
    exact .inl (front other (List.mem_reverse.mp inside))
  · obtain ⟨other, inside, same, unary⟩ := operator_of_mem_operators mem
    have loose : other.form ≠ .unary ∧ other.precedence ≤ op.precedence := by
      rcases List.mem_cons.mp inside with inside | inside
      · rw [← inside] at hy
        cases hy
      · exact behind other inside
    refine ⟨same ▸ loose.2, fun _ => ?_⟩
    rw [← Bool.not_eq_true]
    exact fun later => loose.1 (unary later)

theorem one_lt_precedence (form : op.form = .binary) : 1 < op.precedence := by
  cases op <;> first | decide | cases form

/-- Where no operator binds tighter than a conditional, no operator has a place. -/
theorem operators_eq_nil {row : List Expr} (h : AtMost 1 row) (before : List Expr) :
    operators before row = [] := by
  induction row generalizing before with
  | nil => rfl
  | cons e rest ih =>
    have unary : unaryAt before (e :: rest) = none := by
      unfold unaryAt
      split
      · rename_i op operand after eq
        rw [if_neg]
        rintro ⟨form, -⟩
        exact (h op (by rw [eq]; exact List.mem_cons_self)).1 form
      · rfl
    have binary : binaryAt before (e :: rest) = none := by
      unfold binaryAt
      split
      · rename_i left op right after eq
        rw [if_neg]
        rintro ⟨form, -⟩
        have bound := (h op (by rw [eq]; exact .tail _ List.mem_cons_self)).2
        exact Nat.not_lt_of_le bound (one_lt_precedence form)
      · rfl
    rw [operators, unary, binary, ih fun op mem => h op (.tail _ mem)]
    rfl

theorem ternaries_append (before front rest : List Expr) :
    ∃ places, ternaries before (front ++ rest) =
      places ++ ternaries (front.reverse ++ before) rest := by
  induction front generalizing before with
  | nil => exact ⟨[], rfl⟩
  | cons e front ih =>
    obtain ⟨places, eq⟩ := ih (e :: before)
    refine ⟨(ternaryAt before (e :: (front ++ rest))).toList ++ places, ?_⟩
    rw [List.cons_append, ternaries, eq]
    simp

theorem ternaries_eq_nil {row : List Expr} (h : Expr.operator .question ∉ row)
    (before : List Expr) : ternaries before row = [] := by
  induction row generalizing before with
  | nil => rfl
  | cons e rest ih =>
    have here : ternaryAt before (e :: rest) = none := by
      unfold ternaryAt
      split
      · rename_i eq
        exact absurd (by rw [eq]; exact .tail _ List.mem_cons_self) h
      · rfl
    rw [ternaries, here, ih fun mem => h (.tail _ mem)]
    rfl

/-- Where nothing binds tighter, a conditional with no other behind it is the next place. -/
theorem next?_ternary (hc : c.valued = true) (ht : t.valued = true) (hf : f.valued = true)
    (front : AtMost 1 before.reverse) (behind : AtMost 1 post)
    (last : Expr.operator .question ∉ post) :
    next? (before.reverse ++ c :: .operator .question :: t :: .operator .colon :: f :: post) =
      some (.ternary before c t f post) := by
  have operand {x : Expr} (hx : x.valued = true) (op : Operator) : Expr.operator op ≠ x := by
    rintro rfl
    cases hx
  have bare : AtMost 1
      (before.reverse ++ c :: .operator .question :: t :: .operator .colon :: f :: post) := by
    apply front.append
    intro op mem
    simp only [List.mem_cons, Expr.operator.injEq, operand hc, operand ht, operand hf,
      false_or] at mem
    rcases mem with rfl | rfl | mem
    · decide
    · decide
    · exact behind op mem
  have none : Expr.operator .question ∉ t :: .operator .colon :: f :: post := by
    simp [operand ht, operand hf, last]
  have here : ternaryAt before (c :: .operator .question :: t :: .operator .colon :: f :: post) =
      some (.ternary before c t f post) := by
    simp [ternaryAt, hc, ht, hf]
  obtain ⟨places, eq⟩ := ternaries_append [] before.reverse
    (c :: .operator .question :: t :: .operator .colon :: f :: post)
  rw [List.reverse_reverse, List.append_nil, ternaries, ternaries, here, ternaryAt_operator,
    ternaries_eq_nil none] at eq
  unfold next? bestOperator?
  rw [operators_eq_nil bare, eq]
  simp

end Redex

namespace Expr

open Redex

variable {before post : List Expr} {e x y z c t f : Expr} {op : Operator}

/-- A unary operator in front of an operand is computed before anything else. -/
theorem reduce_sign (before post : List Expr) (form : op.form = .unary) (hx : x.valued = true)
    (front : ∀ e, before.head? = some e → e.valued = false)
    (loose : Loose before.reverse) (looser : Looser post) :
    reduce (before.reverse ++ .operator op :: x :: post) =
      match (unary op x).folded with
      | .error e => .error e
      | .ok e => reduce (before.reverse ++ e :: post) := by
  rw [reduce_eq, next?_unary form hx front loose looser]
  rfl

theorem reduce_negate (hx : x.valued = true) (front : ∀ e, before.head? = some e → e.valued = false)
    (loose : Loose before.reverse) (looser : Looser post)
    (made : (unary .negate x).foldConstant = .ok e) :
    reduce (before.reverse ++ .operator .negate :: x :: post) =
      reduce (before.reverse ++ e :: post) := by
  rw [reduce_sign before post rfl hx front loose looser]
  unfold folded
  rw [made]
  rfl

/-- The first of the tightest operators is computed first. -/
theorem reduce_leftmost (before post : List Expr) (hx : x.valued = true) (hy : y.valued = true)
    (form : op.form = .binary)
    (front : ∀ other, operator other ∈ before → other.precedence < op.precedence)
    (behind : AtMost op.precedence post) :
    reduce (before.reverse ++ x :: .operator op :: y :: post) =
      match (binary op x y).folded with
      | .error e => .error e
      | .ok e => reduce (before.reverse ++ e :: post) := by
  rw [reduce_eq, next?_binary hx hy form front behind]
  rfl

theorem reduce_operand (hx : x.valued = true) : reduce [x] = .ok [x] := by
  have none : next? [x] = Option.none := by
    simp only [next?, bestOperator?, operators, ternaries, unaryAt_of_valued hx]
    rfl
  rw [reduce_eq, none]

theorem reduce_binary (hx : x.valued = true) (hy : y.valued = true) (form : op.form = .binary)
    (made : (binary op x y).foldConstant = .ok e) : reduce [x, .operator op, y] = reduce [e] := by
  have step := reduce_leftmost [] [] hx hy form (by simp) (by rintro _ ⟨⟩)
  rw [List.reverse_nil, List.nil_append] at step
  rw [step]
  unfold folded
  rw [made]
  rfl

/-- A row of three in which nothing can be computed. -/
theorem reduce_stuck (hx : x.valued = true) (hz : z.valued = true)
    (unary : unaryAt [x] [y, z] = none) (binary : binaryAt [] [x, y, z] = none) :
    reduce [x, y, z] = .ok [x, y, z] := by
  have none : next? [x, y, z] = Option.none := by
    have short (before row : List Expr) (h : row.length ≤ 3) : ternaryAt before row = Option.none :=
      ternaryAt_of_short (by omega)
    simp only [next?, bestOperator?, operators, ternaries, unaryAt_of_valued hx,
      unaryAt_of_valued hz, unary, binary, binaryAt_pair, binaryAt_single,
      short _ [x, y, z] (by simp), short _ [y, z] (by simp), short _ [z] (by simp)]
    rfl
  rw [reduce_eq, none]

theorem reduce_unary (hx : x.valued = true) (form : op.form = .unary)
    (made : (unary op x).foldConstant = .ok e) : reduce [.operator op, x] = reduce [e] := by
  have step := reduce_sign [] [] form hx (by simp) (by rintro _ ⟨⟩) (by rintro _ ⟨⟩)
  rw [List.reverse_nil, List.nil_append] at step
  rw [step]
  unfold folded
  rw [made]
  rfl

/-- Where nothing binds tighter, the last conditional is computed. -/
theorem reduce_last (before post : List Expr) (hc : c.valued = true) (ht : t.valued = true)
    (hf : f.valued = true) (front : AtMost 1 before.reverse) (behind : AtMost 1 post)
    (last : operator .question ∉ post) :
    reduce (before.reverse ++ c :: .operator .question :: t :: .operator .colon :: f :: post) =
      match (conditional c t f).folded with
      | .error e => .error e
      | .ok e => reduce (before.reverse ++ e :: post) := by
  rw [reduce_eq, next?_ternary hc ht hf front behind last]
  rfl

theorem reduce_conditional (hc : c.valued = true) (ht : t.valued = true) (hf : f.valued = true)
    (made : (conditional c t f).foldConstant = .ok e) :
    reduce [c, .operator .question, t, .operator .colon, f] = reduce [e] := by
  have step := reduce_last [] [] hc ht hf (by rintro _ ⟨⟩) (by rintro _ ⟨⟩) (by simp)
  rw [List.reverse_nil, List.nil_append] at step
  rw [step]
  unfold folded
  rw [made]
  rfl

/-- A row that is one operand: an expression, or a sign and what it turns into an expression. -/
inductive OperandRow : List Expr → Expr → Prop
  | plain {x : Expr} (hx : x.valued = true) : OperandRow [x] x
  | signed {m x : Expr} (hm : m.valued = true) (hx : x.valued = true)
      (made : (unary .negate m).foldConstant = .ok x) : OperandRow [.operator .negate, m] x

theorem OperandRow.valued {row : List Expr} (h : OperandRow row x) : x.valued = true := by
  cases h <;> assumption

theorem elementFault_of_valued (h : x.valued = true) : elementFault x = none := by
  cases x with
  | keyword word => exact if_pos h
  | sequence items => cases h
  | _ => rfl

theorem operator?_of_valued (h : x.valued = true) : x.operator? = none := by
  cases x <;> first | rfl | cases h

@[simp] theorem valued_operator (op : Operator) : (operator op).valued = false := rfl

@[simp] theorem elementFault_operator (op : Operator) : elementFault (operator op) = none := rfl

@[simp] theorem operator?_operator (op : Operator) : (operator op).operator? = some op := rfl

namespace OperandRow

variable {row more : List Expr}

/-- The operators of an operand are signs. -/
theorem operators (h : OperandRow row x) : ∀ op, operator op ∈ row → op = .negate := by
  intro op mem
  cases h with
  | plain hx =>
    rw [List.mem_singleton] at mem
    subst mem
    cases hx
  | signed hm =>
    simp only [List.mem_cons, List.not_mem_nil, or_false] at mem
    rcases mem with mem | mem
    · cases mem
      rfl
    · subst mem
      cases hm

theorem faults (h : OperandRow row x) : row.findSome? elementFault = none := by
  cases h with
  | plain hx => simp [elementFault_of_valued hx]
  | signed hm => simp [elementFault_of_valued hm]

theorem faults_append (h : OperandRow row x) {y : Expr} (hy : elementFault y = none)
    (hm : more.findSome? elementFault = none) :
    (row ++ y :: more).findSome? elementFault = none := by
  rw [List.findSome?_append, h.faults, Option.none_or, List.findSome?_cons, hy]
  exact hm

theorem adjacent (h : OperandRow row x) : firstAdjacent row = none := by
  cases h with
  | plain => rfl
  | signed => simp [firstAdjacent]

theorem adjacent_append (h : OperandRow row x) {y : Expr} (hy : y.valued = false)
    (more : List Expr) : firstAdjacent (row ++ y :: more) = firstAdjacent more := by
  have skip : firstAdjacent (y :: more) = firstAdjacent more := by
    cases more <;> simp [firstAdjacent, hy]
  cases h with
  | plain hx => simp [firstAdjacent, hy, skip]
  | signed hm => simp [firstAdjacent, hy, skip]

theorem count (h : OperandRow row x) {op : Operator} (other : op ≠ .negate) :
    countOperator op row = 0 := by
  have differs : (Operator.negate == op) = false := by
    simpa using Ne.symm other
  cases h with
  | plain hx => simp [countOperator, operator?_of_valued hx]
  | signed hm => simp [countOperator, operator?_of_valued hm, differs]

theorem reduce (h : OperandRow row x) (before post : List Expr)
    (front : ∀ e, before.head? = some e → e.valued = false) (loose : Loose before.reverse)
    (looser : Looser post) :
    Expr.reduce (before.reverse ++ row ++ post) = Expr.reduce (before.reverse ++ x :: post) := by
  cases h with
  | plain => rw [List.append_assoc, List.singleton_append]
  | signed hm _ made =>
    rw [List.append_assoc]
    exact reduce_negate hm front loose looser made

theorem loose (h : OperandRow row x) : Loose row := by
  intro op mem
  rw [h.operators op mem]

/-- One operand is folded to it, whatever is read. -/
theorem fold (h : OperandRow row x) (mode : FoldMode) : Expr.fold mode row = .ok x := by
  have nonempty : row.isEmpty = false := by cases h <;> rfl
  have faultless : rowFault row = none := by
    unfold rowFault
    rw [h.faults, h.adjacent, h.count (by decide), h.count (by decide)]
    simp
  have reduced : Expr.reduce row = .ok [x] := by
    have step := h.reduce [] [] (by simp) (by rintro op ⟨⟩) (by rintro op ⟨⟩)
    simp only [List.reverse_nil, List.nil_append, List.append_nil] at step
    rw [step, reduce_operand h.valued]
  unfold Expr.fold
  rw [nonempty, faultless, ite_self, reduced]
  simp [finish, h.valued]

end OperandRow

variable {lrow rrow crow trow frow : List Expr} {l r : Expr}

theorem rowFault_eq_none {row : List Expr} (faults : row.findSome? elementFault = none)
    (adjacent : firstAdjacent row = none)
    (paired : countOperator .question row = countOperator .colon row) : rowFault row = none := by
  unfold rowFault
  rw [faults, adjacent, if_pos paired]

/-- A row without faults is reduced, and what is left has to fit the mode. -/
theorem fold_eq {mode : FoldMode} {row : List Expr} (nonempty : row ≠ [])
    (faultless : mode ≠ .relaxed → rowFault row = none) : fold mode row =
      match reduce row with
      | .error e => .error e
      | .ok result => finish mode result := by
  have some : row.isEmpty = false := by simpa using nonempty
  have none : (if mode = .relaxed then Option.none else rowFault row) = Option.none := by
    split
    · rfl
    · rename_i other
      exact faultless other
  unfold fold
  rw [some, none]
  rfl

theorem fold_of_reduce {mode : FoldMode} {row result : List Expr} (nonempty : row ≠ [])
    (faultless : mode ≠ .relaxed → rowFault row = none) (reduced : reduce row = .ok result) :
    fold mode row = finish mode result := by
  rw [fold_eq nonempty faultless, reduced]

theorem finish_operand {mode : FoldMode} (hx : x.valued = true) : finish mode [x] = .ok x :=
  if_pos hx

theorem countOperator_append (op : Operator) (row more : List Expr) :
    countOperator op (row ++ more) = countOperator op row + countOperator op more :=
  List.countP_append

theorem loose_operator (bound : op.precedence < Operator.negate.precedence) :
    Loose [.operator op] := by
  intro other mem
  cases List.mem_singleton.mp mem
  exact Nat.le_of_lt bound

theorem looser_operator (form : op.form ≠ .unary)
    (bound : op.precedence < Operator.negate.precedence) : Looser [.operator op] := by
  intro other mem
  cases List.mem_singleton.mp mem
  exact ⟨form, bound⟩

theorem looser_operand (hx : x.valued = true) : Looser [x] := by
  intro op mem
  rw [← List.mem_singleton.mp mem] at hx
  cases hx

/-- An operator between two operands, whatever stands for it, in front of its right operand. -/
theorem reduce_right (hl : OperandRow lrow l) (hr : OperandRow rrow r) {y : Expr}
    (hy : y.valued = false) (loose : Loose [y]) (looser : Looser [y]) :
    reduce (lrow ++ y :: rrow) = reduce [l, y, r] := by
  have right := hr.reduce (lrow ++ [y]).reverse [] (by simp [hy])
    (by rw [List.reverse_reverse]; exact hl.loose.append loose) (by rintro op ⟨⟩)
  have left := hl.reduce [] [y, r] (by rintro _ ⟨⟩) (by rintro op ⟨⟩)
    (looser.append (looser_operand hr.valued))
  simp only [List.reverse_reverse, List.append_nil, List.append_assoc, List.cons_append,
    List.nil_append, List.reverse_nil] at right left
  rw [right, left]

/-- A binary operator between two operands. -/
theorem fold_binary (hl : OperandRow lrow l) (hr : OperandRow rrow r) (form : op.form = .binary)
    (bound : op.precedence < Operator.negate.precedence)
    (made : (binary op l r).foldConstant = .ok e) (he : e.valued = true) :
    fold .strict (lrow ++ .operator op :: rrow) = .ok e := by
  have question : Operator.question ≠ op := by
    rintro rfl
    cases form
  have colon : Operator.colon ≠ op := by
    rintro rfl
    cases form
  have reduced : reduce (lrow ++ .operator op :: rrow) = .ok [e] := by
    rw [reduce_right hl hr rfl (loose_operator bound) (looser_operator (by simp [form]) bound),
      reduce_binary hl.valued hr.valued form made, reduce_operand he]
  rw [fold_of_reduce (by simp) (fun _ => rowFault_eq_none ?_ ?_ ?_) reduced, finish_operand he]
  · exact hl.faults_append rfl hr.faults
  · rw [hl.adjacent_append rfl, hr.adjacent]
  · have plain (other : Operator) (differs : other ≠ op) :
        countOperator other (.operator op :: rrow) = countOperator other rrow := by
      simp [countOperator, Ne.symm differs]
    rw [countOperator_append, countOperator_append, plain _ question, plain _ colon,
      hl.count (by decide), hl.count (by decide), hr.count (by decide), hr.count (by decide)]

/-- A unary operator in front of an operand. -/
theorem fold_unary (hx : x.valued = true) (form : op.form = .unary)
    (made : (unary op x).foldConstant = .ok e) (he : e.valued = true) :
    fold .strict [.operator op, x] = .ok e := by
  have reduced : reduce [.operator op, x] = .ok [e] := by
    rw [reduce_unary hx form made, reduce_operand he]
  rw [fold_of_reduce (by simp) (fun _ => rowFault_eq_none ?_ ?_ ?_) reduced, finish_operand he]
  · simp [elementFault_of_valued hx]
  · simp [firstAdjacent]
  · have question : op ≠ .question := by
      rintro rfl
      cases form
    have colon : op ≠ .colon := by
      rintro rfl
      cases form
    simp [countOperator, operator?_of_valued hx, question, colon]

theorem countOperator_cons {op other : Operator} (differs : other ≠ op) (row : List Expr) :
    countOperator op (.operator other :: row) = countOperator op row := by
  simp [countOperator, differs]

theorem countOperator_cons_self (op : Operator) (row : List Expr) :
    countOperator op (.operator op :: row) = countOperator op row + 1 := by
  simp [countOperator]

/-- A conditional of three operands. -/
theorem fold_conditional (hc : OperandRow crow c) (ht : OperandRow trow t) (hf : OperandRow frow f)
    (made : (conditional c t f).foldConstant = .ok e) (he : e.valued = true) :
    fold .strict (crow ++ operator .question :: (trow ++ operator .colon :: frow)) = .ok e := by
  have colonLast : Looser [operator .colon, f] :=
    (looser_operator (by decide) (by decide)).append (looser_operand hf.valued)
  have questionFirst : Looser [operator .question, t, operator .colon, f] :=
    (looser_operator (by decide) (by decide)).append ((looser_operand ht.valued).append colonLast)
  have loose {row : List Expr} (op : Operator) (h : Loose row)
      (bound : op.precedence < Operator.negate.precedence) : Loose (row ++ [operator op]) :=
    h.append (loose_operator bound)
  -- the signs are computed from right to left
  have third := hf.reduce (crow ++ operator .question :: (trow ++ [operator .colon])).reverse
    [] (by simp) (by
      rw [List.reverse_reverse,
        show crow ++ operator .question :: (trow ++ [operator .colon]) =
          (crow ++ [operator .question]) ++ (trow ++ [operator .colon]) by simp]
      exact (loose _ hc.loose (by decide)).append (loose _ ht.loose (by decide)))
    (by rintro op ⟨⟩)
  have second := ht.reduce (crow ++ [operator .question]).reverse
    [operator .colon, f] (by simp) (by
      rw [List.reverse_reverse]
      exact loose _ hc.loose (by decide)) colonLast
  have first := hc.reduce [] [operator .question, t, operator .colon, f]
    (by rintro _ ⟨⟩) (by rintro op ⟨⟩) questionFirst
  simp only [List.reverse_reverse, List.append_nil, List.append_assoc, List.cons_append,
    List.nil_append, List.reverse_nil] at third second first
  have reduced : reduce (crow ++ operator .question :: (trow ++ operator .colon :: frow)) =
      .ok [e] := by
    rw [third, second, first, reduce_conditional hc.valued ht.valued hf.valued made,
      reduce_operand he]
  rw [fold_of_reduce (by simp) (fun _ => rowFault_eq_none ?_ ?_ ?_) reduced, finish_operand he]
  · exact hc.faults_append rfl (ht.faults_append rfl hf.faults)
  · rw [hc.adjacent_append rfl, ht.adjacent_append rfl, hf.adjacent]
  · rw [countOperator_append, countOperator_append, countOperator_cons_self,
      countOperator_cons (by decide), countOperator_append, countOperator_append,
      countOperator_cons (by decide), countOperator_cons_self, hc.count (by decide),
      hc.count (by decide), ht.count (by decide), ht.count (by decide), hf.count (by decide),
      hf.count (by decide)]

/-- An assignment of an operand. -/
theorem fold_assignment {v : Variable} (hr : OperandRow rrow r) (form : op.form = .assignment) :
    fold .assignment (var v :: operator op :: rrow) = .ok (sequence [var v, operator op, r]) := by
  have target : OperandRow [var v] (.var v) := .plain rfl
  have bound : op.precedence < Operator.negate.precedence := by
    cases op <;> first | decide | cases form
  have reduced : reduce (var v :: operator op :: rrow) = .ok [var v, operator op, r] := by
    have signs := reduce_right target hr (y := operator op) rfl (loose_operator bound)
      (looser_operator (by simp [form]) bound)
    rw [List.singleton_append] at signs
    rw [signs, reduce_stuck rfl hr.valued]
    · simp [unaryAt, form]
    · simp [binaryAt, form]
  rw [fold_of_reduce (by simp) (fun _ => rowFault_eq_none ?_ ?_ ?_) reduced]
  · have assigned : isAssignment [var v, operator op, r] = true := by
      simp [isAssignment, isAssignOperator, form, hr.valued]
    simp [finish, finish.leftover, assigned]
  · exact target.faults_append rfl hr.faults
  · rw [← List.singleton_append, target.adjacent_append rfl, hr.adjacent]
  · have question : op ≠ .question := by
      rintro rfl
      cases form
    have colon : op ≠ .colon := by
      rintro rfl
      cases form
    rw [← List.singleton_append, countOperator_append, countOperator_append,
      countOperator_cons question, countOperator_cons colon, target.count (by decide),
      target.count (by decide), hr.count (by decide), hr.count (by decide)]

/-- A name, the word of a loop and an operand. -/
theorem fold_within {v : Variable} (hr : OperandRow rrow r) :
    fold .relaxed (var v :: keyword .within :: rrow) =
      .ok (sequence [var v, keyword .within, r]) := by
  have target : OperandRow [var v] (.var v) := .plain rfl
  have signs := reduce_right target hr (y := keyword .within) rfl
    (by rintro op mem; cases List.mem_singleton.mp mem)
    (by rintro op mem; cases List.mem_singleton.mp mem)
  rw [List.singleton_append] at signs
  have reduced : reduce (var v :: keyword .within :: rrow) =
      .ok [var v, keyword .within, r] := by
    rw [signs, reduce_stuck rfl hr.valued rfl rfl]
  rw [fold_of_reduce (by simp) (fun other => absurd rfl other) reduced]
  rfl

/-- The word of a loop is no part of an expression. -/
theorem fold_strict_within {v : Variable} {row : List Expr} :
    fold .strict (var v :: keyword .within :: row) = .error (.keyword .within) := rfl

end Expr

end Stencil
