import Stencil.Proofs.ParseSteps
import Stencil.Proofs.Sentences

/-!
# Rows that are sentences

Folding a row of variables and operators gives a tree if and only if the row is a sentence, and the
tree is that of the sentence.

A row can be read from left to right with no more in mind than how many conditionals are open and
whether an operand came last. Computing an operator in a row changes nothing of what reading the row
comes to, so that a row that is folded to one operand is read like an operand
(`Expr.read_of_reduce`). A row that is read like that is a sentence: what was read is one sentence
at any time, and a binary operator with an operand behind it is taken into it where it binds
(`Sentence.snoc`).
-/

namespace Stencil

/-- What was read of a row: how many conditionals wait for their colon, and whether an operand came
last. -/
structure RowState where
  pending : Nat
  operand : Bool

namespace RowState

/-- Reads one more element of a row, if it can stand there. -/
def read (s : RowState) (e : Expr) : Option RowState :=
  match s.operand, e.operator? with
  | false, none => if e.valued then some ⟨s.pending, true⟩ else none
  | false, some op => if op.form = .unary then some s else none
  | true, none => none
  | true, some .question => some ⟨s.pending + 1, false⟩
  | true, some .colon =>
    match s.pending with
    | 0 => none
    | pending + 1 => some ⟨pending, false⟩
  | true, some op => if op.form = .binary then some ⟨s.pending, false⟩ else none

variable {p : Nat} {e : Expr} {op : Operator}

theorem read_operand (h : e.valued = true) : read ⟨p, false⟩ e = some ⟨p, true⟩ := by
  simp [read, Expr.operator?_of_valued h, h]

theorem read_adjacent (h : e.valued = true) : read ⟨p, true⟩ e = none := by
  simp [read, Expr.operator?_of_valued h]

theorem read_sign (h : op.form = .unary) : read ⟨p, false⟩ (.operator op) = some ⟨p, false⟩ := by
  simp [read, h]

theorem read_sign_behind (h : op.form = .unary) : read ⟨p, true⟩ (.operator op) = none := by
  cases op <;> first | rfl | cases h

theorem read_binary (h : op.form = .binary) : read ⟨p, true⟩ (.operator op) = some ⟨p, false⟩ := by
  cases op <;> first | rfl | cases h

theorem read_first (h : op.form ≠ .unary) : read ⟨p, false⟩ (.operator op) = none := by
  simp [read, h]

theorem read_question : read ⟨p, true⟩ (.operator .question) = some ⟨p + 1, false⟩ := rfl

theorem read_colon : read ⟨p + 1, true⟩ (.operator .colon) = some ⟨p, false⟩ := rfl

end RowState

/-- An operand in a place is read like the operator with its operands that was there. -/
theorem Redex.read_replace {r : Redex} (applies : r.Applies) {e : Expr} (valued : e.valued = true)
    (s : RowState) : (r.replace e).foldlM RowState.read s = r.items.foldlM RowState.read s := by
  have place (before part after : List Expr)
      (same : ∀ s, [e].foldlM RowState.read s = part.foldlM RowState.read s) :
      (before ++ e :: after).foldlM RowState.read s =
        (before ++ (part ++ after)).foldlM RowState.read s := by
    rw [← List.singleton_append (x := e)]
    simp only [List.foldlM_append, same]
  cases r with
  | unary before op x after =>
    obtain ⟨form, hx⟩ := applies
    refine place before.reverse [.operator op, x] after ?_
    rintro ⟨p, behind | behind⟩
    · simp [RowState.read_operand, RowState.read_sign, form, hx, valued]
    · simp [RowState.read_adjacent, RowState.read_sign_behind, form, valued]
  | binary before x op y after =>
    obtain ⟨form, hx, hy⟩ := applies
    refine place before.reverse [x, .operator op, y] after ?_
    rintro ⟨p, behind | behind⟩
    · simp [RowState.read_operand, RowState.read_binary, form, hx, hy, valued]
    · simp [RowState.read_adjacent, hx, valued]
  | ternary before c t f after =>
    obtain ⟨hc, ht, hf⟩ := applies
    refine place before.reverse [c, .operator .question, t, .operator .colon, f] after ?_
    rintro ⟨p, behind | behind⟩
    · simp [RowState.read_operand, RowState.read_question, RowState.read_colon, hc, ht, hf, valued]
    · simp [RowState.read_adjacent, hc, valued]

namespace Expr

variable {row result : List Expr} {e : Expr}

theorem valued_of_folded {x : Expr} (hx : x.valued = true) (h : x.folded = .ok e) :
    e.valued = true := by
  have made : x.foldConstant = .ok e := ok_of_mapError h
  unfold foldConstant at made
  split at made
  · cases made
    exact hx
  · split at made
    · cases made
    · cases made
      split
      · rfl
      · exact hx

/-- Folding changes nothing of what reading a row comes to. -/
theorem read_of_reduce (h : reduce row = .ok result) (s : RowState) :
    result.foldlM RowState.read s = row.foldlM RowState.read s := by
  induction hn : row.length using Nat.strongRecOn generalizing row with
  | ind n ih =>
    rw [reduce_eq] at h
    split at h
    · cases h
      rfl
    · rename_i place next
      split at h
      · cases h
      · rename_i x made
        have inside : place.items = row := Redex.items_of_next? next
        have valued : x.valued = true := by
          refine valued_of_folded ?_ made
          cases place <;> rfl
        have shorter : (place.replace x).length < n := by
          rw [← hn, ← inside]
          exact place.length_replace_lt x
        calc result.foldlM RowState.read s
            = (place.replace x).foldlM RowState.read s := ih _ shorter h rfl
          _ = place.items.foldlM RowState.read s :=
            Redex.read_replace (Redex.applies_of_next? next) valued s
          _ = row.foldlM RowState.read s := by rw [inside]

/-- What is folded to an expression is reduced to that expression alone. -/
theorem reduce_of_fold (h : fold .strict row = .ok e) :
    reduce row = .ok [e] ∧ e.valued = true := by
  have leftover {row : List Expr} : finish.leftover .strict row ≠ .ok e := by
    simp only [finish.leftover, reduceCtorEq, false_and, if_false]
    split <;> rintro ⟨⟩
  unfold fold at h
  split at h
  · cases h
  · split at h
    · cases h
    · split at h
      · cases h
      · rename_i result reduced
        unfold finish at h
        split at h
        · split at h
          · rename_i valued
            cases h
            exact ⟨reduced, valued⟩
          · exact absurd h leftover
        · exact absurd h leftover

end Expr

/-- The operators that the grammar has. -/
def Operator.ofGrammar : List Operator :=
  [not, negate, multiply, divide, modulo, plus, minus, lesser, lesserOrEqual, greater,
    greaterOrEqual, equal, unequal, and, or, nilCoalesce, question, colon]

/-- The elements of the rows that the grammar is about: variables and its operators. -/
inductive Expr.IsItem : Expr → Prop
  | var (v : Variable) : IsItem (.var v)
  | operator {op : Operator} (mem : op ∈ Operator.ofGrammar) : IsItem (.operator op)

namespace Operator

variable {op : Operator}

theorem sign_of_ofGrammar (mem : op ∈ ofGrammar) (form : op.form = .unary) :
    op ∈ [not, negate] := by
  revert op
  decide

theorem form_of_ofGrammar (mem : op ∈ ofGrammar) :
    op.form = .unary ∨ op.form = .binary ∨ op = .question ∨ op = .colon := by
  revert op
  decide

/-- Each binary operator of the grammar has its level. -/
theorem exists_mem_ofLevel (mem : op ∈ ofGrammar) (form : op.form = .binary) :
    ∃ level, 1 ≤ level ∧ op ∈ ofLevel level := by
  have all : ∀ op ∈ ofGrammar, op.form = .binary →
      ∃ level ∈ [1, 2, 3, 4, 5, 6, 7], op ∈ ofLevel level := by decide
  obtain ⟨level, few, here⟩ := all op mem form
  refine ⟨level, ?_, here⟩
  revert few
  simp only [List.mem_cons, List.not_mem_nil, or_false]
  omega

end Operator

namespace Sentence

open Stencil.Expr

variable {level n : Nat} {row rest : List Expr} {x e : Expr} {op : Operator} {p : Nat}

/-- A sentence of a level is one of each level below. -/
theorem weaken (h : Sentence level row x) (le : n ≤ level) : Sentence n row x := by
  induction le using Nat.decreasingInduction with
  | self => exact h
  | of_succ k _ ih => exact .tighter ih

/-- A binary operator with an operand behind it is taken into a sentence where it binds. -/
theorem snoc {right : List Expr} {y : Expr} (h : Sentence level row x)
    (mem : op ∈ Operator.ofLevel n) (second : Sentence 8 right y) :
    ∃ z, Sentence (min level n) (row ++ .operator op :: right) z := by
  have few := (Operator.of_mem_ofLevel mem).2.2
  -- where the operator binds less tight than the sentence, the sentence is its left operand
  have whole {level : Nat} {row : List Expr} {x : Expr} (h : Sentence level row x)
      (le : n ≤ level) : ∃ z, Sentence (min level n) (row ++ .operator op :: right) z := by
    rw [Nat.min_eq_right le]
    exact ⟨_, (h.weaken le).binary mem (second.weaken (by omega))⟩
  induction h with
  | operand v => exact whole (.operand v) (by omega)
  | unary sign operand => exact whole (operand.unary sign) (by omega)
  | @binary level other l r _ _ here hl hr _ ihr =>
    rcases Nat.lt_or_ge level n with tighter | le
    · obtain ⟨z, hz⟩ := ihr
      rw [Nat.min_eq_left tighter] at hz
      rw [Nat.min_eq_left (Nat.le_of_lt tighter), List.append_assoc, List.cons_append]
      exact ⟨_, hl.binary here hz⟩
    · exact whole (hl.binary here hr) le
  | conditional hc ht _ _ _ ihf =>
    obtain ⟨z, hz⟩ := ihf
    rw [Nat.zero_min] at hz ⊢
    have longer := hc.conditional ht hz
    rw [List.append_assoc, List.cons_append, List.append_assoc, List.cons_append]
    exact ⟨_, longer⟩
  | @tighter level _ _ _ ih =>
    obtain ⟨z, hz⟩ := ih
    exact ⟨z, hz.weaken (by omega)⟩

/-- What is read where an operand has to come starts with one. -/
theorem exists_operand {s : RowState} (items : ∀ x ∈ row, x.IsItem)
    (read : row.foldlM RowState.read ⟨p, false⟩ = some s) (last : s.operand = true) :
    ∃ front x rest, row = front ++ rest ∧ Sentence 8 front x ∧ front ≠ [] ∧
      rest.foldlM RowState.read ⟨p, true⟩ = some s := by
  induction row with
  | nil =>
    cases read
    cases last
  | cons item row ih =>
    rw [List.foldlM_cons] at read
    cases items item List.mem_cons_self with
    | var v =>
      rw [RowState.read_operand rfl] at read
      exact ⟨[.var v], _, row, rfl, .operand v, by simp, read⟩
    | @operator op mem =>
      by_cases form : op.form = .unary
      · rw [RowState.read_sign form] at read
        obtain ⟨front, x, rest, rfl, operand, -, read⟩ :=
          ih (fun x inside => items x (.tail _ inside)) read
        have sign := Operator.sign_of_ofGrammar mem form
        exact ⟨.operator op :: front, _, rest, rfl, operand.unary sign, by simp, read⟩
      · rw [RowState.read_first form] at read
        cases read

/-- A row starts with a sentence. Behind it nothing is left if no conditional is open, and otherwise
the colon of the conditional that was opened last. -/
def Starts (p : Nat) (row : List Expr) : Prop :=
  (p = 0 ∧ ∃ e, Sentence 0 row e) ∨
    ∃ q front e behind, p = q + 1 ∧ row = front ++ .operator .colon :: behind ∧ Sentence 0 front e ∧
      behind.foldlM RowState.read ⟨q, false⟩ = some ⟨0, true⟩

/-- What reads on behind a sentence without conditional starts with one. -/
theorem starts_behind (first : Sentence 1 row x) (items : ∀ x ∈ rest, x.IsItem)
    (read : rest.foldlM RowState.read ⟨p, true⟩ = some ⟨0, true⟩) : Starts p (row ++ rest) := by
  induction hn : rest.length using Nat.strongRecOn generalizing row x rest p with
  | ind n ih =>
    -- what is shorter and read from an operand on starts with a sentence
    have shorter {p : Nat} {rest : List Expr} (few : rest.length < n) (items : ∀ x ∈ rest, x.IsItem)
        (read : rest.foldlM RowState.read ⟨p, false⟩ = some ⟨0, true⟩) : Starts p rest := by
      obtain ⟨front, y, rest, rfl, operand, -, read⟩ := exists_operand items read rfl
      have fewer : rest.length < n := by
        rw [List.length_append] at few
        omega
      exact ih _ fewer (operand.weaken (by decide))
        (fun x inside => items x (List.mem_append_right _ inside)) read rfl
    cases rest with
    | nil =>
      cases read
      rw [List.append_nil]
      exact .inl ⟨rfl, _, .tighter first⟩
    | cons item rest =>
      rw [List.foldlM_cons] at read
      have behind : ∀ x ∈ rest, x.IsItem := fun x inside => items x (.tail _ inside)
      have few : rest.length < n := by
        rw [← hn]
        exact Nat.lt_succ_self _
      cases items item List.mem_cons_self with
      | var v =>
        rw [RowState.read_adjacent rfl] at read
        cases read
      | @operator op mem =>
        rcases Operator.form_of_ofGrammar mem with sign | form | rfl | rfl
        · rw [RowState.read_sign_behind sign] at read
          cases read
        · rw [RowState.read_binary form] at read
          obtain ⟨right, y, rest, rfl, operand, -, read⟩ := exists_operand behind read rfl
          obtain ⟨level, pos, here⟩ := Operator.exists_mem_ofLevel mem form
          obtain ⟨z, longer⟩ := first.snoc here operand
          rw [Nat.min_eq_left pos] at longer
          have fewer : rest.length < n := by
            rw [List.length_append] at few
            omega
          have := ih _ fewer longer (fun x inside => behind x (List.mem_append_right _ inside)) read
            rfl
          rwa [List.append_assoc, List.cons_append] at this
        · rw [RowState.read_question] at read
          rcases shorter few behind read with ⟨⟨⟩, -⟩ | ⟨_, middle, y, rest, ⟨⟩, rfl, second, read⟩
          have fewer : rest.length < n := by
            rw [List.length_append, List.length_cons] at few
            omega
          have last : ∀ x ∈ rest, x.IsItem := fun x inside =>
            behind x (List.mem_append_right _ (.tail _ inside))
          rcases shorter fewer last read with ⟨none, z, third⟩ |
            ⟨q, _, z, rest, outer, rfl, third, read⟩
          · exact .inl ⟨none, _, first.conditional second third⟩
          · refine .inr ⟨q, _, _, rest, outer, ?_, first.conditional second third, read⟩
            simp
        · cases p with
          | zero => cases read
          | succ q =>
            rw [RowState.read_colon] at read
            exact .inr ⟨q, row, x, rest, rfl, rfl, .tighter first, read⟩

/-- A row that is read like an operand is a sentence. -/
theorem exists_of_read (items : ∀ x ∈ row, x.IsItem)
    (read : row.foldlM RowState.read ⟨0, false⟩ = some ⟨0, true⟩) : ∃ e, Sentence 0 row e := by
  obtain ⟨front, x, rest, rfl, operand, -, read⟩ := exists_operand items read rfl
  have rest : ∀ x ∈ rest, x.IsItem := fun x inside => items x (List.mem_append_right _ inside)
  rcases starts_behind (operand.weaken (by decide)) rest read with ⟨-, whole⟩ | ⟨_, _, _, _, ⟨⟩, -⟩
  exact whole

theorem firstAdjacent (h : Sentence level row e) : firstAdjacent row = none := by
  induction h with
  | operand => rfl
  | unary _ _ ih => exact firstAdjacent_join (l := []) rfl ih
  | binary _ _ _ ihl ihr => exact firstAdjacent_join ihl ihr
  | conditional _ _ _ ihc iht ihf => exact firstAdjacent_join ihc (firstAdjacent_join iht ihf)
  | tighter _ ih => exact ih

/-- As many conditionals are closed as are opened. -/
theorem paired (h : Sentence level row e) :
    countOperator .question row = countOperator .colon row := by
  have plain (other : Operator) (h : other.form ≠ .ternary) (row : List Expr) :
      countOperator .question (.operator other :: row) = countOperator .question row ∧
        countOperator .colon (.operator other :: row) = countOperator .colon row := by
    constructor <;>
    · apply countOperator_cons
      rintro rfl
      exact h rfl
  induction h with
  | operand => rfl
  | @unary op row _ sign _ ih =>
    obtain ⟨question, colon⟩ := plain op (by simp [Operator.form_of_sign sign]) row
    rw [question, colon, ih]
  | @binary _ op _ r _ _ mem _ _ ihl ihr =>
    obtain ⟨question, colon⟩ := plain op (by simp [(Operator.of_mem_ofLevel mem).1]) r
    rw [countOperator_append, countOperator_append, question, colon, ihl, ihr]
  | conditional _ _ _ ihc iht ihf =>
    rw [countOperator_append, countOperator_append, countOperator_cons_self,
      countOperator_cons (by decide), countOperator_append, countOperator_append,
      countOperator_cons (by decide), countOperator_cons_self, ihc, iht, ihf]
    omega
  | tighter _ ih => exact ih

theorem ne_nil (h : Sentence level row e) : row ≠ [] := by
  induction h with
  | operand | unary | binary | conditional => simp
  | tighter _ ih => exact ih

theorem faultless (h : Sentence level row e) : ∀ x ∈ row, elementFault x = none := by
  induction h with
  | operand | unary | binary | conditional => simp_all [elementFault, or_imp]
  | tighter _ ih => exact ih

/-- A sentence is folded to its tree. -/
theorem folds (h : Sentence level row e) : fold .strict row = .ok e := by
  have free := rowFault_eq_none (List.findSome?_eq_none_iff.mpr h.faultless) h.firstAdjacent
    h.paired
  rw [fold_of_reduce h.ne_nil (fun _ => free) h.reduces]
  exact finish_operand h.valued

end Sentence

/-- Folding a row of variables and operators succeeds if and only if the row is a sentence of the
grammar of operators, and the tree is the one that the grammar gives. -/
theorem Expr.fold_eq_ok_iff_sentence {row : List Expr} (items : ∀ x ∈ row, x.IsItem) (e : Expr) :
    Expr.fold .strict row = .ok e ↔ Sentence 0 row e := by
  constructor
  · intro folded
    obtain ⟨reduced, valued⟩ := reduce_of_fold folded
    have read : row.foldlM RowState.read ⟨0, false⟩ = some ⟨0, true⟩ := by
      rw [← read_of_reduce reduced, List.foldlM_cons, RowState.read_operand valued]
      rfl
    obtain ⟨tree, sentence⟩ := Sentence.exists_of_read items read
    cases sentence.reduces.symm.trans reduced
    exact sentence
  · exact Sentence.folds

/-- `!a ? b - c - d * e : f ? g : h` -/
theorem Expr.folds_nested_conditional :
    let v (name : String) : Expr := .var { member := name }
    let row : List Expr :=
      [.operator .not, v "a", .operator .question, v "b", .operator .minus, v "c",
        .operator .minus, v "d", .operator .multiply, v "e", .operator .colon, v "f",
        .operator .question, v "g", .operator .colon, v "h"]
    let difference : Expr :=
      .binary .minus (.binary .minus (v "b") (v "c")) (.binary .multiply (v "d") (v "e"))
    let tree : Expr :=
      .conditional (.unary .not (v "a")) difference (.conditional (v "f") (v "g") (v "h"))
    (∀ x ∈ row, x.IsItem) ∧ Sentence 0 row tree ∧ fold .strict row = .ok tree := by
  intro v row difference tree
  have operand (name : String) {level : Nat} (few : level ≤ 8) : Sentence level [v name] (v name) :=
    (Sentence.operand { member := name }).weaken few
  have items : ∀ x ∈ row, x.IsItem := by
    have isVar (name : String) : (v name).IsItem := .var _
    simp only [row, List.forall_mem_cons, isVar, true_and]
    and_intros <;> first | exact .operator (by decide) | exact List.forall_mem_nil _
  have condition : Sentence 1 [.operator .not, v "a"] (.unary .not (v "a")) :=
    ((operand "a" (by decide)).unary (by decide)).weaken (by decide)
  have first : Sentence 6 ([v "b"] ++ .operator .minus :: [v "c"])
      (.binary .minus (v "b") (v "c")) :=
    .binary (by decide) (operand "b" (by decide)) (operand "c" (by decide))
  have product : Sentence 7 ([v "d"] ++ .operator .multiply :: [v "e"])
      (.binary .multiply (v "d") (v "e")) :=
    .binary (by decide) (operand "d" (by decide)) (operand "e" (by decide))
  have last := (operand "f" (by decide)).conditional (operand "g" (by decide))
    (operand "h" (by decide))
  have sentence : Sentence 0 row tree :=
    condition.conditional ((first.binary (by decide) product).weaken (by decide)) last
  exact ⟨items, sentence, (fold_eq_ok_iff_sentence items tree).mpr sentence⟩

end Stencil
