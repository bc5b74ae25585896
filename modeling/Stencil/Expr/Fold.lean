import Stencil.Expr.Eval
import Stencil.Expr.Printer

/-!
# Folding operators

The elements of one argument, operands and operators in a row, are folded into one expression. Each
step takes the applicable operator of the highest precedence together with its operands: of several
unary ones the last, of several binary ones the first. Where no operator applies, the last `c ? t :
f` is taken. Each new expression that can be computed is replaced by its value at once.

A place where a step can be made is a `Redex`; it remembers what stands before and behind it, so
that `Redex.items` gives back the row it was found in.
-/

namespace Stencil

/-- What an argument may be besides one expression. -/
inductive FoldMode
  /-- Nothing else. -/
  | strict
  /-- Up to three elements for the patterns of a block, reserved words among them. -/
  | relaxed
  /-- An assignment to a variable. -/
  | assignment
  deriving DecidableEq

/-- Why a row of elements is no expression. -/
inductive FoldError
  | empty
  | keyword (word : Keyword)
  | sequence
  | adjacent (left right : Expr)
  | unpairedTernary
  | constant (error : EvalError)
  | assignment
  | unfoldable (items : List Expr)

def FoldError.message : FoldError → String
  | empty => "缺少表达式"
  | keyword word => "关键字 '" ++ word.word ++ "' 不能出现在表达式中"
  | sequence => "自定义语法不能出现在表达式中"
  | adjacent left right => "操作数 '" ++ left.text ++ "' 与 '" ++ right.text ++ "' 相邻"
  | unpairedTernary => "三元运算符 '?' 与 ':' 不成对"
  | constant error => "常量求值失败: " ++ error.message
  | assignment => "赋值只能出现在匿名标签的顶层"
  | unfoldable items => "无法折叠为单个表达式: " ++ " ".intercalate (Expr.textAll items)

namespace Expr

/-- An expression, computed if that can be done. -/
def folded (e : Expr) : Except FoldError Expr := e.foldConstant.mapError .constant

/-- An operator of the assignment form. -/
def isAssignOperator : Expr → Bool
  | operator op => op.form == .assignment
  | _ => false

/-- A variable, an assignment operator and a value. -/
def isAssignment : List Expr → Bool
  | [var _, op, e] => op.isAssignOperator && e.valued
  | _ => false

end Expr

/-- A place in a row of elements where an operator has its operands. What stands before it is given
with the last element first. -/
inductive Redex
  | unary (before : List Expr) (op : Operator) (operand : Expr) (after : List Expr)
  | binary (before : List Expr) (left : Expr) (op : Operator) (right : Expr) (after : List Expr)
  | ternary (before : List Expr) (condition whenTrue whenFalse : Expr) (after : List Expr)

namespace Redex

/-- The row in which the place was found. -/
def items : Redex → List Expr
  | unary before op operand after => before.reverse ++ .operator op :: operand :: after
  | binary before left op right after => before.reverse ++ left :: .operator op :: right :: after
  | ternary before c t f after =>
    before.reverse ++ c :: .operator .question :: t :: .operator .colon :: f :: after

/-- The expression that the place becomes. -/
def expr : Redex → Expr
  | unary _ op operand _ => .unary op operand
  | binary _ left op right _ => .binary op left right
  | ternary _ c t f _ => .conditional c t f

/-- The row with an expression in the place. -/
def replace (e : Expr) : Redex → List Expr
  | unary before _ _ after => before.reverse ++ e :: after
  | binary before _ _ _ after => before.reverse ++ e :: after
  | ternary before _ _ _ after => before.reverse ++ e :: after

theorem length_replace_lt (e : Expr) (r : Redex) : (r.replace e).length < r.items.length := by
  cases r <;> simp [replace, items]

/-- The precedence that decides between places. -/
def precedence : Redex → Nat
  | unary _ op _ _ => op.precedence
  | binary _ _ op _ _ => op.precedence
  | ternary .. => Operator.question.precedence

/-- Of places with the same precedence, a later unary one is taken before an earlier one. -/
def prefersLater : Redex → Bool
  | unary .. => true
  | _ => false

/-- The unary operator at the front of the rest of a row. -/
def unaryAt (before : List Expr) : List Expr → Option Redex
  | .operator op :: operand :: after =>
    if op.form = .unary ∧ operand.valued ∧ !(before.head?).any Expr.valued then
      some (unary before op operand after)
    else none
  | _ => none

/-- The binary operator after the first element of the rest of a row. -/
def binaryAt (before : List Expr) : List Expr → Option Redex
  | left :: .operator op :: right :: after =>
    if op.form = .binary ∧ left.valued ∧ right.valued then
      some (binary before left op right after)
    else none
  | _ => none

/-- The conditional at the front of the rest of a row. -/
def ternaryAt (before : List Expr) : List Expr → Option Redex
  | c :: .operator .question :: t :: .operator .colon :: f :: after =>
    if c.valued ∧ t.valued ∧ f.valued then some (ternary before c t f after) else none
  | _ => none

/-- The places of unary and binary operators, from left to right. -/
def operators (before : List Expr) : List Expr → List Redex
  | [] => []
  | e :: rest =>
    (unaryAt before (e :: rest)).toList ++ (binaryAt before (e :: rest)).toList ++
      operators (e :: before) rest

/-- The places of conditionals, from left to right. -/
def ternaries (before : List Expr) : List Expr → List Redex
  | [] => []
  | e :: rest => (ternaryAt before (e :: rest)).toList ++ ternaries (e :: before) rest

/-- The place taken of two, the second standing further right. -/
def prefer (best : Option Redex) (r : Redex) : Option Redex :=
  match best with
  | none => some r
  | some b =>
    if b.precedence < r.precedence ∨ (r.precedence = b.precedence ∧ r.prefersLater) then some r
    else some b

/-- The place of the operator to fold next. -/
def bestOperator? (row : List Expr) : Option Redex := (operators [] row).foldl prefer none

/-- The place to fold next. -/
def next? (row : List Expr) : Option Redex :=
  match bestOperator? row with
  | some r => some r
  | none => (ternaries [] row).getLast?

theorem items_of_unaryAt {before rest : List Expr} {r : Redex} (h : unaryAt before rest = some r) :
    r.items = before.reverse ++ rest := by
  unfold unaryAt at h
  split at h
  · split at h
    · cases h; rfl
    · cases h
  · cases h

theorem items_of_binaryAt {before rest : List Expr} {r : Redex}
    (h : binaryAt before rest = some r) : r.items = before.reverse ++ rest := by
  unfold binaryAt at h
  split at h
  · split at h
    · cases h; rfl
    · cases h
  · cases h

theorem items_of_ternaryAt {before rest : List Expr} {r : Redex}
    (h : ternaryAt before rest = some r) : r.items = before.reverse ++ rest := by
  unfold ternaryAt at h
  split at h
  · split at h
    · cases h; rfl
    · cases h
  · cases h

theorem items_of_mem_operators {before rest : List Expr} {r : Redex}
    (h : r ∈ operators before rest) : r.items = before.reverse ++ rest := by
  induction rest generalizing before with
  | nil => simp [operators] at h
  | cons e rest ih =>
    simp only [operators, List.mem_append, Option.mem_toList] at h
    rcases h with (h | h) | h
    · exact items_of_unaryAt h
    · exact items_of_binaryAt h
    · simpa using ih h

theorem items_of_mem_ternaries {before rest : List Expr} {r : Redex}
    (h : r ∈ ternaries before rest) : r.items = before.reverse ++ rest := by
  induction rest generalizing before with
  | nil => simp [ternaries] at h
  | cons e rest ih =>
    simp only [ternaries, List.mem_append, Option.mem_toList] at h
    rcases h with h | h
    · exact items_of_ternaryAt h
    · simpa using ih h

theorem prefer_eq {best : Option Redex} {r s : Redex} (h : prefer best r = some s) :
    s = r ∨ best = some s := by
  unfold prefer at h
  split at h
  · exact .inl (Option.some.inj h).symm
  · split at h
    · exact .inl (Option.some.inj h).symm
    · exact .inr h

theorem mem_of_foldl_prefer {places : List Redex} {best : Option Redex} {r : Redex}
    (h : places.foldl prefer best = some r) : r ∈ places ∨ best = some r := by
  induction places generalizing best with
  | nil => exact .inr h
  | cons p places ih =>
    rcases ih h with h | h
    · exact .inl (List.mem_cons_of_mem _ h)
    · rcases prefer_eq h with rfl | h
      · exact .inl List.mem_cons_self
      · exact .inr h

/-- A place that was found belongs to the row. -/
theorem items_of_next? {row : List Expr} {r : Redex} (h : next? row = some r) : r.items = row := by
  unfold next? at h
  split at h
  · rename_i s hs
    cases h
    rcases mem_of_foldl_prefer hs with hm | hm
    · simpa using items_of_mem_operators hm
    · cases hm
  · simpa using items_of_mem_ternaries (List.mem_of_getLast? h)

end Redex

namespace Expr

/-- Folds a row as far as it goes. -/
def reduce (row : List Expr) : Except FoldError (List Expr) :=
  have found (r : Redex) : Redex.next? row = some r → r.items = row := Redex.items_of_next?
  match Redex.next? row, found with
  | none, _ => .ok row
  | some place, found =>
    match place.expr.folded with
    | .error e => .error e
    | .ok e =>
      have : (place.replace e).length < row.length :=
        Nat.lt_of_lt_of_eq (place.length_replace_lt e) (congrArg List.length (found place rfl))
      reduce (place.replace e)
termination_by row.length

/-- The first two operands without an operator between them. -/
def firstAdjacent : List Expr → Option (Expr × Expr)
  | a :: b :: rest => if a.valued && b.valued then some (a, b) else firstAdjacent (b :: rest)
  | _ => none

/-- What is wrong with a single element of an expression. -/
def elementFault : Expr → Option FoldError
  | keyword word => if word.isValued then none else some (.keyword word)
  | sequence _ => some .sequence
  | _ => none

/-- How often an operator stands in a row. -/
def countOperator (op : Operator) (row : List Expr) : Nat :=
  row.countP fun e => e.operator? == some op

/-- What can be seen to be wrong with a row before folding. -/
def rowFault (row : List Expr) : Option FoldError :=
  match row.findSome? elementFault with
  | some fault => some fault
  | none =>
    match firstAdjacent row with
    | some (left, right) => some (.adjacent left right)
    | none =>
      if countOperator .question row = countOperator .colon row then none
      else some .unpairedTernary

/-- What a folded row is in a mode. -/
def finish (mode : FoldMode) (row : List Expr) : Except FoldError Expr :=
  match row with
  | [e] => if e.valued then .ok e else leftover [e]
  | row => leftover row
where
  /-- A row that is not one expression. -/
  leftover (row : List Expr) : Except FoldError Expr :=
    if mode = .assignment ∧ isAssignment row then .ok (.sequence row)
    else if mode = .relaxed ∧ row.length ≤ 3 then .ok (.sequence row)
    else if mode ≠ .assignment ∧ row.any isAssignOperator then .error .assignment
    else .error (.unfoldable row)

/-- Folds the elements of one argument. -/
def fold (mode : FoldMode) (row : List Expr) : Except FoldError Expr :=
  if row.isEmpty then .error .empty
  else
    match (if mode = .relaxed then none else rowFault row) with
    | some fault => .error fault
    | none =>
      match reduce row with
      | .error e => .error e
      | .ok row => finish mode row

end Expr

end Stencil
