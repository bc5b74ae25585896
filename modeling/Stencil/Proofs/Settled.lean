import Stencil.Expr.Fold
import Stencil.Proofs.PlainValues
import Stencil.Proofs.Spelling

/-!
# Settled expressions

Without functions, what the parser makes of an argument is *settled*: literals and variables are
such as the lexer reads, operators stand where they belong, and every operation that could be
computed was computed, unless its value has no literal. Folding a row of elements gives settled
expressions.
-/

namespace Stencil

/-- A name that is no reserved word. -/
def Text.IsWord (s : String) : Prop := IsName s ∧ Keyword.ofWord? s = none

/-- The parts of a variable are names. -/
structure Variable.Spelled (v : Variable) : Prop where
  scope : ∀ s, v.scope = some s → Text.IsName s
  member : Text.IsWord v.member
  path : ∀ s ∈ v.path, Text.IsWord s

theorem Variable.spelled_plain {name : String} (h : Text.IsWord name) : (plain name).Spelled :=
  ⟨by rintro s ⟨⟩, h, by rintro s ⟨⟩⟩

namespace Expr

/-- An expression as the parser leaves it where nothing can be called. -/
inductive Settled : Expr → Prop
  | value {data : Value} (plain : data.Plain Text.Quotable)
      (form : data.finite = true ∨ ∃ d, data = .double d) : Settled (.value data)
  | var {v : Variable} (spelled : v.Spelled) : Settled (.var v)
  | unary {op : Operator} {e : Expr} (form : op.form = .unary) (operand : Settled e)
      (stays : (Expr.unary op e).foldConstant = .ok (.unary op e)) : Settled (.unary op e)
  | binary {op : Operator} {l r : Expr} (form : op.form = .binary) (left : Settled l)
      (right : Settled r) (stays : (Expr.binary op l r).foldConstant = .ok (.binary op l r)) :
      Settled (.binary op l r)
  | conditional {c t f : Expr} (condition : Settled c) (whenTrue : Settled t)
      (whenFalse : Settled f)
      (stays : (Expr.conditional c t f).foldConstant = .ok (.conditional c t f)) :
      Settled (.conditional c t f)
  | collection {items : Tuple}
      (labels : ∀ item ∈ items, ∀ label, item.1 = some label → Text.Quotable label)
      (distinct : (items.filterMap Prod.fst).Nodup) (alike : items.isCollection = true)
      (h : ∀ item ∈ items, Settled item.2)
      (stays : (Expr.collection items).foldConstant = .ok (.collection items)) :
      Settled (.collection items)

/-- What can stand in a row: operands, and operators and words that structure it. -/
inductive Element : Expr → Prop
  | operand {e : Expr} (h : e.Settled) : Element e
  | operator (op : Operator) : Element (.operator op)
  | keyword {word : Keyword} (structural : word.isValued = false) : Element (.keyword word)

theorem Settled.valued {e : Expr} (h : e.Settled) : e.valued = true := by
  cases h <;> rfl

theorem Element.settled {e : Expr} (h : e.Element) (valued : e.valued = true) : e.Settled := by
  cases h with
  | operand h => exact h
  | operator => cases valued
  | keyword structural =>
    rw [Expr.valued, structural] at valued
    cases valued

/-- Operators join quotable texts to quotable texts, and any error may come of them. -/
theorem closed_quotable : Operator.Closed Text.Quotable fun _ => True :=
  ⟨fun ha hb => ha.append hb, fun _ _ => trivial⟩

theorem Settled.plainLiterals {e : Expr} (h : e.Settled) : e.PlainLiterals Text.Quotable := by
  induction h with
  | value plain => exact .value plain
  | var => exact .var _
  | unary _ _ _ ih => exact .unary ih
  | binary _ _ _ _ left right => exact .binary left right
  | conditional _ _ _ _ c t f => exact .conditional c t f
  | collection labels _ _ _ _ ih => exact .collection labels ih

/-- The variables of a settled expression are spelled. -/
theorem Settled.spelled {e : Expr} (h : e.Settled) : ∀ v ∈ e.vars, v.Spelled := by
  induction h with
  | value => simp [vars]
  | var spelled =>
    intro v mem
    rw [vars, List.mem_singleton] at mem
    exact mem ▸ spelled
  | unary _ _ _ ih => exact ih
  | binary _ _ _ _ left right =>
    intro v mem
    rw [vars, List.mem_append] at mem
    exact mem.elim (left v) (right v)
  | conditional _ _ _ _ c t f =>
    intro v mem
    rw [vars, List.mem_append, List.mem_append] at mem
    exact mem.elim (fun mem => mem.elim (c v) (t v)) (f v)
  | @collection items _ _ _ _ _ ih =>
    intro v mem
    rw [vars] at mem
    clear * - ih mem
    induction items with
    | nil => cases mem
    | cons item items more =>
      obtain ⟨label, e⟩ := item
      rw [varsOf, List.mem_append] at mem
      rcases mem with mem | mem
      · exact ih _ List.mem_cons_self v mem
      · exact more (fun item inside => ih item (.tail _ inside)) mem

/-- What becomes of an operation that is computed if possible: nothing, or a value that has a
literal. -/
theorem foldConstant_cases {e e' : Expr} (h : e.foldConstant = .ok e') :
    e' = e ∨ ∃ data, e' = .value data ∧ e.eval Env.empty = data ∧ data.finite = true ∧
      (∀ error, data ≠ .error error) ∧ e.constant = true := by
  unfold foldConstant at h
  split at h
  · cases h
    exact .inl rfl
  · rename_i computable
    simp only [Bool.or_eq_true, Bool.not_eq_true', not_or, Bool.not_eq_false] at computable
    split at h
    · cases h
    · rename_i notError
      cases h
      split
      · rename_i finite
        exact .inr ⟨_, rfl, rfl, finite, notError, computable.1⟩
      · exact .inl rfl

theorem foldConstant_of_folded {e e' : Expr} (h : e.folded = .ok e') :
    e.foldConstant = .ok e' := by
  unfold folded at h
  cases made : e.foldConstant with
  | error error =>
    rw [made] at h
    cases h
  | ok a =>
    rw [made] at h
    cases h
    rfl

/-- An operation on settled operands, computed if possible, is settled. -/
theorem settled_of_folded {e e' : Expr} (h : e.folded = .ok e')
    (literals : e.PlainLiterals Text.Quotable)
    (stays : e.foldConstant = .ok e → e.Settled) : e'.Settled := by
  have made := foldConstant_of_folded h
  rcases foldConstant_cases made with rfl | ⟨data, rfl, given, finite, notError, constant⟩
  · exact stays made
  · refine .value ?_ (.inl finite)
    have outcome : (e.eval Env.empty).Outcome _ _ :=
      literals.outcome closed_quotable fun _ _ => .plain .nil
    rw [given] at outcome
    exact outcome.plain_of_not_error notError

theorem settled_of_folded_unary {op : Operator} {e e' : Expr} (form : op.form = .unary)
    (operand : e.Settled) (h : (unary op e).folded = .ok e') : e'.Settled :=
  settled_of_folded h (.unary operand.plainLiterals) (.unary form operand)

theorem settled_of_folded_binary {op : Operator} {l r e' : Expr} (form : op.form = .binary)
    (left : l.Settled) (right : r.Settled) (h : (binary op l r).folded = .ok e') : e'.Settled :=
  settled_of_folded h (.binary left.plainLiterals right.plainLiterals) (.binary form left right)

theorem settled_of_folded_conditional {c t f e' : Expr} (condition : c.Settled)
    (whenTrue : t.Settled) (whenFalse : f.Settled) (h : (conditional c t f).folded = .ok e') :
    e'.Settled :=
  settled_of_folded h
    (.conditional condition.plainLiterals whenTrue.plainLiterals whenFalse.plainLiterals)
    (.conditional condition whenTrue whenFalse)

theorem settled_of_folded_collection {items : Tuple} {e' : Expr}
    (labels : ∀ item ∈ items, ∀ label, item.1 = some label → Text.Quotable label)
    (distinct : (items.filterMap Prod.fst).Nodup) (alike : items.isCollection = true)
    (settled : ∀ item ∈ items, item.2.Settled) (h : (collection items).folded = .ok e') :
    e'.Settled :=
  settled_of_folded h (.collection labels fun item mem => (settled item mem).plainLiterals)
    (.collection labels distinct alike settled)

end Expr

/-- The operands of a place have values, and the operator has the form of the place. -/
def Redex.Applies : Redex → Prop
  | unary _ op operand _ => op.form = .unary ∧ operand.valued = true
  | binary _ left op right _ => op.form = .binary ∧ left.valued = true ∧ right.valued = true
  | ternary _ c t f _ => c.valued = true ∧ t.valued = true ∧ f.valued = true

namespace Redex

theorem applies_of_unaryAt {before rest : List Expr} {r : Redex}
    (h : unaryAt before rest = some r) : r.Applies := by
  unfold unaryAt at h
  split at h
  · split at h
    · rename_i found
      cases h
      exact ⟨found.1, found.2.1⟩
    · cases h
  · cases h

theorem applies_of_binaryAt {before rest : List Expr} {r : Redex}
    (h : binaryAt before rest = some r) : r.Applies := by
  unfold binaryAt at h
  split at h
  · split at h
    · rename_i found
      cases h
      exact found
    · cases h
  · cases h

theorem applies_of_ternaryAt {before rest : List Expr} {r : Redex}
    (h : ternaryAt before rest = some r) : r.Applies := by
  unfold ternaryAt at h
  split at h
  · split at h
    · rename_i found
      cases h
      exact found
    · cases h
  · cases h

theorem applies_of_mem_operators {before rest : List Expr} {r : Redex}
    (h : r ∈ operators before rest) : r.Applies := by
  induction rest generalizing before with
  | nil => cases h
  | cons e rest ih =>
    simp only [operators, List.mem_append, Option.mem_toList] at h
    rcases h with (h | h) | h
    · exact applies_of_unaryAt h
    · exact applies_of_binaryAt h
    · exact ih h

theorem applies_of_mem_ternaries {before rest : List Expr} {r : Redex}
    (h : r ∈ ternaries before rest) : r.Applies := by
  induction rest generalizing before with
  | nil => cases h
  | cons e rest ih =>
    simp only [ternaries, List.mem_append, Option.mem_toList] at h
    rcases h with h | h
    · exact applies_of_ternaryAt h
    · exact ih h

/-- A place that was found has an operator with its operands. -/
theorem applies_of_next? {row : List Expr} {r : Redex} (h : next? row = some r) : r.Applies := by
  unfold next? at h
  split at h
  · rename_i s found
    cases h
    rcases mem_of_foldl_prefer found with mem | none
    · exact applies_of_mem_operators mem
    · cases none
  · exact applies_of_mem_ternaries (List.mem_of_getLast? h)

/-- What a place becomes is settled in a row of elements. -/
theorem settled_of_folded {r : Redex} (elements : ∀ e ∈ r.items, e.Element) (applies : r.Applies)
    {e : Expr} (h : r.expr.folded = .ok e) : e.Settled := by
  cases r with
  | unary before op operand after =>
    have inside := (elements operand (by simp [items])).settled applies.2
    exact Expr.settled_of_folded_unary applies.1 inside h
  | binary before left op right after =>
    have inLeft := (elements left (by simp [items])).settled applies.2.1
    have inRight := (elements right (by simp [items])).settled applies.2.2
    exact Expr.settled_of_folded_binary applies.1 inLeft inRight h
  | ternary before c t f after =>
    have inCondition := (elements c (by simp [items])).settled applies.1
    have inTrue := (elements t (by simp [items])).settled applies.2.1
    have inFalse := (elements f (by simp [items])).settled applies.2.2
    exact Expr.settled_of_folded_conditional inCondition inTrue inFalse h

theorem mem_replace {r : Redex} {e x : Expr} (h : x ∈ r.replace e) : x = e ∨ x ∈ r.items := by
  cases r <;> simp only [replace, items, List.mem_append, List.mem_cons] at h ⊢ <;> tauto

end Redex

namespace Expr

/-- One step of folding. -/
theorem reduce_eq (row : List Expr) : reduce row =
    match Redex.next? row with
    | none => .ok row
    | some place =>
      match place.expr.folded with
      | .error e => .error e
      | .ok e => reduce (place.replace e) := by
  rw [reduce]
  split
  · rename_i next _
    exact next ▸ rfl
  · rename_i place _ next _
    exact next ▸ rfl

/-- A row of elements is folded to a row of elements. -/
theorem elements_of_reduce {row result : List Expr} (elements : ∀ e ∈ row, e.Element)
    (h : reduce row = .ok result) : ∀ e ∈ result, e.Element := by
  induction hn : row.length using Nat.strongRecOn generalizing row with
  | ind n ih =>
    rw [reduce_eq] at h
    split at h
    · cases h
      exact elements
    · rename_i place next
      split at h
      · cases h
      · rename_i e made
        have inside : place.items = row := Redex.items_of_next? next
        subst inside
        have settled := Redex.settled_of_folded elements (Redex.applies_of_next? next) made
        refine ih _ ?_ ?_ h rfl
        · rw [← hn]
          exact place.length_replace_lt e
        · intro x mem
          rcases Redex.mem_replace mem with rfl | mem
          · exact .operand settled
          · exact elements x mem

/-- An argument: settled, or outside of strict reading also a row of elements; if assignments are
read, the row is one. -/
def ReadIn (mode : FoldMode) (e : Expr) : Prop :=
  e.Settled ∨ mode ≠ .strict ∧ ∃ row, e = .sequence row ∧ (∀ x ∈ row, x.Element) ∧
    (mode = .assignment → isAssignment row = true)

theorem readIn_of_finish {mode : FoldMode} {row : List Expr} {e : Expr}
    (elements : ∀ e ∈ row, e.Element) (h : finish mode row = .ok e) : e.ReadIn mode := by
  have leftover {row : List Expr} (elements : ∀ e ∈ row, e.Element)
      (h : finish.leftover mode row = .ok e) : e.ReadIn mode := by
    unfold finish.leftover at h
    split at h
    · rename_i assignment
      cases h
      exact .inr ⟨by rw [assignment.1]; decide, row, rfl, elements, fun _ => assignment.2⟩
    · split at h
      · rename_i relaxed
        cases h
        refine .inr ⟨by rw [relaxed.1]; decide, row, rfl, elements, fun assignment => ?_⟩
        rw [relaxed.1] at assignment
        cases assignment
      · split at h <;> cases h
  unfold finish at h
  split at h
  · split at h
    · rename_i valued
      cases h
      exact .inl ((elements e List.mem_cons_self).settled valued)
    · exact leftover elements h
  · exact leftover elements h

/-- The parts of an assignment that was read. -/
theorem assignment_of_readIn {target value : Expr} {op : Operator}
    (h : (sequence [target, .operator op, value]).ReadIn .assignment) :
    target.Settled ∧ op.form = .assignment ∧ value.Settled := by
  rcases h with settled | ⟨_, row, eq, elements, assignment⟩
  · cases settled
  · cases eq
    have form := assignment rfl
    unfold isAssignment at form
    split at form
    · rename_i eq
      cases eq
      simp only [isAssignOperator, Bool.and_eq_true, beq_iff_eq] at form
      refine ⟨(elements _ List.mem_cons_self).settled rfl, form.1, ?_⟩
      exact (elements value (by simp)).settled form.2
    · cases form

/-- An argument that is no assignment is settled where assignments are read. -/
theorem settled_of_readIn {e : Expr} (h : e.ReadIn .assignment)
    (single : ∀ v op value, e ≠ .sequence [.var v, .operator op, value]) : e.Settled := by
  rcases h with settled | ⟨_, row, rfl, elements, assignment⟩
  · exact settled
  · have form := assignment rfl
    unfold isAssignment at form
    split at form
    · rename_i v op value
      rw [Bool.and_eq_true] at form
      cases op with
      | operator op => exact absurd rfl (single v op value)
      | _ => cases form.1
    · cases form

/-- A row of elements is folded to an argument. -/
theorem readIn_of_fold {mode : FoldMode} {row : List Expr} {e : Expr}
    (elements : ∀ e ∈ row, e.Element) (h : fold mode row = .ok e) : e.ReadIn mode := by
  unfold fold at h
  split at h
  · cases h
  · split at h
    · cases h
    · split at h
      · cases h
      · rename_i result reduced
        exact readIn_of_finish (elements_of_reduce elements reduced) h

end Expr

end Stencil
