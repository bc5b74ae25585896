import Stencil.Proofs.ArgumentEnds
import Stencil.Proofs.FoldedSentences
import Stencil.Proofs.Lines
import Stencil.Proofs.RowReading

/-!
# Values in parentheses

What is assigned may be put in parentheses, with an operator and its left operand in front of them.
Behind the assignment operator the elements are read on the level of the tag, in the parentheses on
a level of their own, but each token does the same to both. So either both readings fail or what is
read in parentheses is the value that is assigned without them.
-/

namespace Stencil

/-- Two computations that both fail, or both give results that belong together. -/
inductive Paired {ε ε' α β : Type} (R : α → β → Prop) : Except ε α → Except ε' β → Prop
  | failed (e : ε) (e' : ε') : Paired R (.error e) (.error e')
  | done {a : α} {b : β} (h : R a b) : Paired R (.ok a) (.ok b)

namespace Paired

variable {ε ε' α α' β β' : Type} {R : α → β → Prop} {S : α' → β' → Prop}
  {x : Except ε α} {y : Except ε' β}

theorem bind (h : Paired R x y) {f : α → Except ε α'} {g : β → Except ε' β'}
    (more : ∀ a b, R a b → Paired S (f a) (g b)) : Paired S (x >>= f) (y >>= g) := by
  cases h with
  | failed e e' => exact .failed e e'
  | done h => exact more _ _ h

theorem map (h : Paired R x y) {f : α → α'} {g : β → β'} (keep : ∀ a b, R a b → S (f a) (g b)) :
    Paired S (x.map f) (y.map g) := by
  cases h with
  | failed e e' => exact .failed e e'
  | done h => exact .done (keep _ _ h)

theorem mapError (h : Paired R x y) {δ δ' : Type} (f : ε → δ) (g : ε' → δ') :
    Paired R (x.mapError f) (y.mapError g) := by
  cases h with
  | failed e e' => exact .failed (f e) (g e')
  | done h => exact .done h

/-- A check before the rest. -/
theorem guard {c : Prop} [Decidable c] {e : ε} {e' : ε'} {f : PUnit → Except ε α}
    {g : PUnit → Except ε' β} (h : Paired R (f ⟨⟩) (g ⟨⟩)) :
    Paired R (if c then throw e >>= f else f ⟨⟩) (if c then throw e' >>= g else g ⟨⟩) := by
  split
  · exact .failed e e'
  · exact h

/-- The same computation twice. -/
theorem rfl {x : Except ε α} : Paired Eq x x := by
  cases x with
  | error e => exact .failed e e
  | ok a => exact .done (Eq.refl a)

/-- Computations with the same result in the end. -/
theorem of_map {γ : Type} {f : α → γ} {g : β → γ} {x : Except ε α} {y : Except ε β}
    (same : x.map f = y.map g) : Paired (fun a b => f a = g b) x y := by
  cases x with
  | error e =>
    cases y with
    | error e' => exact .failed e e'
    | ok b => cases same
  | ok a =>
    cases y with
    | error e' => cases same
    | ok b => exact .done (Except.ok.inj same)

theorem isOk_eq (h : Paired R x y) : x.isOk = y.isOk := by
  cases h <;> exact Eq.refl _

end Paired

namespace Redex

variable {front before rest : List Expr} {op : Operator}

/-- The same place with other elements in front of the row, the last of them first. -/
def behind (front : List Expr) : Redex → Redex
  | unary before op operand after => unary (before ++ front) op operand after
  | binary before left op right after => binary (before ++ front) left op right after
  | ternary before c t f after => ternary (before ++ front) c t f after

theorem expr_behind (front : List Expr) (place : Redex) :
    (place.behind front).expr = place.expr := by
  cases place <;> rfl

theorem replace_behind (front : List Expr) (place : Redex) (e : Expr) :
    (place.behind front).replace e = front.reverse ++ place.replace e := by
  cases place <;> simp [behind, replace]

theorem unaryAt_behind (last : (front.head?).any Expr.valued = false) (before rest : List Expr) :
    unaryAt (before ++ front) rest = (unaryAt before rest).map (behind front) := by
  have same : ((before ++ front).head?).any Expr.valued = (before.head?).any Expr.valued := by
    cases before with
    | nil => exact last
    | cons => rfl
  unfold unaryAt
  split
  · rw [same]
    split <;> rfl
  · rfl

theorem binaryAt_behind (front before rest : List Expr) :
    binaryAt (before ++ front) rest = (binaryAt before rest).map (behind front) := by
  unfold binaryAt
  split
  · split <;> rfl
  · rfl

theorem ternaryAt_behind (front before rest : List Expr) :
    ternaryAt (before ++ front) rest = (ternaryAt before rest).map (behind front) := by
  unfold ternaryAt
  split
  · split <;> rfl
  · rfl

theorem operators_behind (last : (front.head?).any Expr.valued = false) (before rest : List Expr) :
    operators (before ++ front) rest = (operators before rest).map (behind front) := by
  induction rest generalizing before with
  | nil => rfl
  | cons e rest ih =>
    rw [operators, operators, unaryAt_behind last, binaryAt_behind, Option.toList_map,
      Option.toList_map, ← List.cons_append, ih, List.map_append, List.map_append]

theorem ternaries_behind (front before rest : List Expr) :
    ternaries (before ++ front) rest = (ternaries before rest).map (behind front) := by
  induction rest generalizing before with
  | nil => rfl
  | cons e rest ih =>
    rw [ternaries, ternaries, ternaryAt_behind, Option.toList_map, ← List.cons_append, ih,
      List.map_append]

theorem prefer_behind (front : List Expr) (best : Option Redex) (place : Redex) :
    prefer (best.map (behind front)) (place.behind front) =
      (prefer best place).map (behind front) := by
  have precedence (place : Redex) : (place.behind front).precedence = place.precedence := by
    cases place <;> rfl
  have later : (place.behind front).prefersLater = place.prefersLater := by
    cases place <;> rfl
  cases best with
  | none => rfl
  | some b =>
    simp only [prefer, Option.map_some, precedence, later]
    split <;> rfl

theorem foldl_prefer_behind (front : List Expr) (best : Option Redex) (places : List Redex) :
    (places.map (behind front)).foldl prefer (best.map (behind front)) =
      (places.foldl prefer best).map (behind front) := by
  induction places generalizing best with
  | nil => rfl
  | cons place places ih => rw [List.map_cons, List.foldl_cons, prefer_behind, ih, List.foldl_cons]

/-- Neither a variable nor the assignment operator behind it is a place. -/
theorem operators_assigned (form : op.form = .assignment) (v : Variable) (row : List Expr) :
    operators [] (.var v :: .operator op :: row) = operators [.operator op, .var v] row := by
  have unary (row : List Expr) : unaryAt [.var v] (.operator op :: row) = none := by
    unfold unaryAt
    split
    · rename_i eq
      cases eq
      simp [form]
    · rfl
  have binary (row : List Expr) : binaryAt [] (.var v :: .operator op :: row) = none := by
    unfold binaryAt
    split
    · rename_i eq
      cases eq
      simp [form]
    · rfl
  have second (row : List Expr) : binaryAt [.var v] (.operator op :: row) = none := by
    unfold binaryAt
    split
    · rename_i eq
      cases eq
      simp [Expr.valued]
    · rfl
  rw [operators, operators, unary, binary, second]
  rfl

theorem ternaries_assigned (form : op.form = .assignment) (v : Variable) (row : List Expr) :
    ternaries [] (.var v :: .operator op :: row) = ternaries [.operator op, .var v] row := by
  have first : ternaryAt [] (.var v :: .operator op :: row) = none := by
    unfold ternaryAt
    split
    · rename_i eq
      cases eq
      cases form
    · rfl
  rw [ternaries, ternaries, first, ternaryAt_operator]
  rfl

theorem next?_assigned (form : op.form = .assignment) (v : Variable) (row : List Expr) :
    next? (.var v :: .operator op :: row) =
      (next? row).map (behind [.operator op, .var v]) := by
  have best : bestOperator? (.var v :: .operator op :: row) =
      (bestOperator? row).map (behind [.operator op, .var v]) := by
    unfold bestOperator?
    rw [operators_assigned form, ← foldl_prefer_behind _ none,
      ← operators_behind rfl []]
    rfl
  have last : (ternaries [] (.var v :: .operator op :: row)).getLast? =
      (ternaries [] row).getLast?.map (behind [.operator op, .var v]) := by
    rw [ternaries_assigned form, ← List.getLast?_map, ← ternaries_behind _ []]
    rfl
  unfold next?
  rw [best, last]
  cases bestOperator? row <;> rfl

end Redex

namespace Expr

variable {v : Variable} {op base : Operator} {row : List Expr} {e : Expr}

/-- What stands behind an assignment operator is reduced as it is alone. -/
theorem reduce_assigned (form : op.form = .assignment) (v : Variable) (row : List Expr) :
    reduce (var v :: operator op :: row) =
      (reduce row).map (var v :: operator op :: ·) := by
  induction hn : row.length using Nat.strongRecOn generalizing row with
  | ind n ih =>
    rw [reduce_eq, reduce_eq row, Redex.next?_assigned form]
    cases next : Redex.next? row with
    | none => rfl
    | some place =>
      simp only [Option.map_some, Redex.expr_behind, Redex.replace_behind]
      cases made : place.expr.folded with
      | error => rfl
      | ok x =>
        have shorter : (place.replace x).length < n := by
          rw [← hn, ← Redex.items_of_next? next]
          exact place.length_replace_lt x
        exact ih _ shorter _ rfl

/-- What can be wrong with a row that is assigned is what can be wrong with the row. -/
theorem rowFault_assigned (form : op.form = .assignment) (v : Variable) (row : List Expr) :
    rowFault (var v :: operator op :: row) = rowFault row := by
  have adjacent : firstAdjacent (var v :: operator op :: row) = firstAdjacent row := by
    cases row <;> rfl
  have count (other : Operator) (differs : op ≠ other) :
      countOperator other (var v :: operator op :: row) = countOperator other row :=
    (countOperator_append other [var v] _).trans
      ((Nat.zero_add _).trans (countOperator_cons differs row))
  have question : op ≠ .question := by
    rintro rfl
    cases form
  have colon : op ≠ .colon := by
    rintro rfl
    cases form
  unfold rowFault
  rw [adjacent, count _ question, count _ colon]
  rfl

theorem finish_assigned (form : op.form = .assignment) (v : Variable) (result : List Expr) :
    Paired (fun assigned e => assigned = sequence [var v, operator op, e] ∧ e.valued = true)
      (finish .assignment (var v :: operator op :: result)) (finish .strict result) := by
  have strict (row : List Expr) : ∃ fault, finish.leftover .strict row = .error fault := by
    simp only [finish.leftover, reduceCtorEq, false_and, if_false]
    split <;> exact ⟨_, rfl⟩
  have other (row : List Expr) (none : isAssignment row = false) :
      ∃ fault, finish.leftover .assignment row = .error fault := by
    simp [finish.leftover, none]
  have refused (none : isAssignment (var v :: operator op :: result) = false)
      (strictly : finish .strict result = finish.leftover .strict result) :
      Paired (fun assigned e => assigned = sequence [var v, operator op, e] ∧ e.valued = true)
        (finish .assignment (var v :: operator op :: result)) (finish .strict result) := by
    obtain ⟨_, eq⟩ := other _ none
    obtain ⟨_, eq'⟩ := strict result
    rw [strictly, eq', show finish .assignment (var v :: operator op :: result) = _ from eq]
    exact .failed _ _
  rcases result with _ | ⟨e, _ | ⟨e', result⟩⟩
  · exact refused rfl rfl
  · by_cases valued : e.valued = true
    · have assigned : isAssignment [var v, operator op, e] = true := by
        simp [isAssignment, isAssignOperator, form, valued]
      rw [finish_operand valued]
      simp only [finish, finish.leftover, assigned, and_self, if_true]
      exact .done ⟨rfl, valued⟩
    · refine refused ?_ (if_neg valued)
      simp [isAssignment, valued]
  · exact refused rfl rfl

/-- A row that is assigned is one assignment of the expression that the row is, if it is one. -/
theorem fold_assigned (form : op.form = .assignment) (v : Variable) (row : List Expr) :
    Paired (fun assigned e => assigned = sequence [var v, operator op, e] ∧ e.valued = true)
      (fold .assignment (var v :: operator op :: row)) (fold .strict row) := by
  -- with nothing to assign no row is left that could be one assignment
  by_cases empty : row = []
  · subst empty
    have none : Redex.next? [var v, operator op] = Option.none := by
      rw [Redex.next?_assigned form]
      rfl
    have left : reduce [var v, operator op] = .ok [var v, operator op] := by rw [reduce_eq, none]
    rw [fold_of_reduce (by simp) (fun _ => rowFault_assigned form v []) left]
    exact .failed _ _
  have filled : row.isEmpty = false := by simpa using empty
  unfold fold
  rw [filled, rowFault_assigned form]
  simp only [List.isEmpty_cons, reduceCtorEq, if_false]
  cases rowFault row with
  | some fault => exact .failed _ _
  | none =>
    dsimp only
    rw [reduce_assigned form]
    cases reduce row with
    | error => exact .failed _ _
    | ok result => exact finish_assigned form v result

/-- The operation on a variable and a computed operand, assigned. -/
theorem fold_longhand (compound : op.compoundBase? = some base) (v : Variable)
    (valued : e.valued = true) :
    fold .assignment [var v, operator .assign, var v, operator base, e] =
      .ok (sequence [var v, operator .assign, binary base (var v) e]) := by
  have form : base.form = .binary ∧ base.precedence < Operator.negate.precedence := by
    cases op <;> cases compound <;> decide
  have made : (binary base (var v) e).foldConstant = .ok (binary base (var v) e) :=
    ok_of_mapError (folded_of_unresolved rfl)
  have strict : fold .strict [var v, operator base, e] = .ok (binary base (var v) e) :=
    fold_binary (.plain rfl) (.plain valued) form.1 form.2 made rfl
  have assigned := @fold_assigned .assign rfl v [var v, operator base, e]
  rw [strict] at assigned
  generalize fold .assignment _ = result at assigned ⊢
  cases assigned with
  | done h => rw [h.1]

end Expr

/-- What a token keeps of a level that it leaves open. -/
structure Level.Kept (level level' : Level) : Prop where
  kind : level'.kind = level.kind
  tuple : level.tuple.length ≤ level'.tuple.length
  afterComma : level.afterComma = true → level'.afterComma = true

theorem Level.Kept.of_eq {level level' : Level} (kind : level'.kind = level.kind)
    (tuple : level'.tuple = level.tuple) (comma : level'.afterComma = level.afterComma) :
    level.Kept level' :=
  ⟨kind, Nat.le_of_eq (by rw [tuple]), fun after => comma.trans after⟩

theorem Level.kept_finish {mode : FoldMode} {level closed : Level}
    (made : level.finish mode = .ok closed) : level.Kept closed := by
  unfold Level.finish at made
  split at made
  · split at made
    · cases made
    · split at made
      · cases made
      · cases made
        exact .of_eq rfl rfl rfl
  · split at made
    · cases made
    · split at made
      · cases made
      · split at made
        · rename_i pushed
          cases made
          refine ⟨rfl, ?_, id⟩
          unfold Tuple.push? at pushed
          split at pushed
          · cases pushed
          · cases pushed
            simp
        · cases made

/-- What a token does to a level and the levels around it: it is refused, or it changes the level,
opens a level inside, or ends the level and gives the level around it an operand. Only the level of
the tag ends without an operand. -/
inductive Progress.Does (mode : FoldMode) (level : Level)
    (next : List Level → Except Fault Progress) : Prop
  | refuses (h : ∀ outer, ∃ fault, next outer = .error fault)
  | stays (level' : Level) (kept : level.Kept level')
      (h : ∀ outer, next outer = .ok (.reading level' outer))
  | enters (inner parent : Level) (kind : inner.kind ≠ .top) (kept : level.Kept parent)
      (h : ∀ outer, next outer = .ok (.reading inner (parent :: outer)))
  | leaves (e : Expr) (kind : level.kind ≠ .top)
      (h : ∀ parent outer, next (parent :: outer) = .ok (.reading (parent.add e) outer))
  | ends (closed : Level) (kind : level.kind = .top) (made : level.finish mode = .ok closed)
      (h : ∀ outer, next outer = .ok (.finished closed.tuple))

namespace Progress.Does

variable {r : Entities} {tag : String} {mode : FoldMode} {level : Level}
  {next : List Level → Except Fault Progress}

theorem add (e : Expr) (h : ∀ outer, next outer = .ok (.reading (level.add e) outer)) :
    Does mode level next :=
  .stays (level.add e) (.of_eq rfl rfl rfl) h

theorem await (pending : Pending)
    (h : ∀ outer, next outer = .ok (.reading (level.await pending) outer)) :
    Does mode level next :=
  .stays (level.await pending) (.of_eq rfl rfl rfl) h

theorem closeParen : Does mode level (Progress.closeParen r tag mode level) := by
  unfold Progress.closeParen
  cases made : level.finish mode with
  | error m => exact .refuses fun outer => ⟨.malformed tag m, rfl⟩
  | ok closed =>
    have same := (Level.kept_finish made).kind
    simp only [Except.mapError, bind, Except.bind]
    cases kind : closed.kind with
    | top => exact .ends closed (same.symm.trans kind) made fun outer => rfl
    | group =>
      have inside : level.kind ≠ .top := by simp [← same, kind]
      cases closed.tuple.single? with
      | none => exact .refuses fun outer => ⟨.malformed tag .notOneExpression, rfl⟩
      | some e => exact .leaves e inside fun parent outer => rfl
    | call name method =>
      have inside : level.kind ≠ .top := by simp [← same, kind]
      dsimp only
      cases r.resolveCall tag name method closed.tuple with
      | error fault => exact .refuses fun outer => ⟨fault, rfl⟩
      | ok e => exact .leaves e inside fun parent outer => rfl
    | collection | subscript =>
      exact .refuses fun outer => ⟨.malformed tag .bracketClosedByParen, rfl⟩

theorem closeBracket : Does mode level fun outer =>
    (Progress.closeBracket mode level outer).mapError (.malformed tag) := by
  unfold Progress.closeBracket
  cases made : level.finish mode with
  | error m => exact .refuses fun outer => ⟨.malformed tag m, rfl⟩
  | ok closed =>
    have same := (Level.kept_finish made).kind
    simp only [bind, Except.bind]
    cases kind : closed.kind with
    | subscript container =>
      have inside : level.kind ≠ .top := by simp [← same, kind]
      cases closed.tuple.single? with
      | none => exact .refuses fun outer => ⟨.malformed tag .notOneExpression, rfl⟩
      | some key =>
        dsimp only
        cases (Expr.binary .subscript container key).folded with
        | error fault => exact .refuses fun outer => ⟨.malformed tag (.fold fault), rfl⟩
        | ok e => exact .leaves e inside fun parent outer => rfl
    | collection =>
      have inside : level.kind ≠ .top := by simp [← same, kind]
      dsimp only
      cases closed.collected with
      | error m => exact .refuses fun outer => ⟨.malformed tag m, rfl⟩
      | ok e => exact .leaves e inside fun parent outer => rfl
    | top | group | call =>
      exact .refuses fun outer => ⟨.malformed tag .parenClosedByBracket, rfl⟩

theorem comma :
    Does mode level fun outer => (Progress.comma mode level outer).mapError (.malformed tag) := by
  have more : Does mode level fun outer =>
      (if level.row.isEmpty then .error .emptyArgument
        else (level.finish mode).map fun l => .reading { l with afterComma := true } outer :
          Except Malformed Progress).mapError (.malformed tag) := by
    split
    · exact .refuses fun outer => ⟨.malformed tag .emptyArgument, rfl⟩
    · cases made : level.finish mode with
      | error m => exact .refuses fun outer => ⟨.malformed tag m, rfl⟩
      | ok closed =>
        have kept := Level.kept_finish made
        exact .stays { closed with afterComma := true } ⟨kept.kind, kept.tuple, fun _ => rfl⟩
          fun outer => rfl
  unfold Progress.comma
  cases level.kind with
  | group | subscript => exact .refuses fun outer => ⟨.malformed tag .commaNotAllowed, rfl⟩
  | top | call | collection => exact more

theorem kept_takeLast? {e : Expr} {shorter : Level} (h : level.takeLast? = some (e, shorter)) :
    level.Kept shorter := by
  obtain ⟨_, _, eq⟩ := Option.map_eq_some_iff.mp h
  cases eq
  exact .of_eq rfl rfl rfl

theorem openBracket : Does mode level fun outer => .ok (Progress.openBracket level outer) := by
  unfold Progress.openBracket
  split
  · rename_i container parent _ taken
    exact .enters { kind := .subscript container } parent (by simp) (kept_takeLast? taken)
      fun outer => rfl
  · exact .enters { kind := .collection } level (by simp) (.of_eq rfl rfl rfl) fun outer => rfl

theorem colon : Does mode level fun outer => .ok (Progress.colon level outer) := by
  unfold Progress.colon
  split
  · exact .stays { level with label := some _, row := [] } (.of_eq rfl rfl rfl) fun outer => rfl
  · split
    · exact .stays { level with emptyDictionary := true } (.of_eq rfl rfl rfl) fun outer => rfl
    · exact .add _ fun outer => rfl

theorem point :
    Does mode level fun outer => (Progress.point level outer).mapError (.malformed tag) := by
  unfold Progress.point
  split
  · rename_i receiver shorter _ taken
    have kept := kept_takeLast? taken
    exact .stays (shorter.await (.member receiver)) ⟨kept.kind, kept.tuple, kept.afterComma⟩
      fun outer => rfl
  · exact .refuses fun outer => ⟨.malformed tag .memberNeedsOperand, rfl⟩

theorem operator (op : Operator) : Does mode level fun outer =>
    (Progress.operator mode op level outer).mapError (.malformed tag) := by
  cases op with
  | bracketOpen => exact openBracket
  | bracketClose => exact closeBracket
  | colon => exact colon
  | member => exact point
  | _ => exact .add _ fun outer => rfl

theorem freely (token : Token) (paren : Bool) :
    Does mode level (Progress.freely r tag mode token paren level) := by
  cases token with
  | openParen => exact .enters { kind := .group } level (by simp) (.of_eq rfl rfl rfl) fun _ => rfl
  | closeParen => exact closeParen
  | comma => exact comma
  | operator op => exact operator op
  | ident name =>
    cases paren with
    | true => exact .await _ fun outer => rfl
    | false => exact .add _ fun outer => rfl
  | scope name => exact .await _ fun outer => rfl
  | keyword word =>
    cases word with
    | own => exact .await _ fun outer => rfl
    | _ => exact .add _ fun outer => rfl
  | literal data => exact .add _ fun outer => rfl
  | raw | tag | blockMark => exact .refuses fun outer => ⟨_, rfl⟩

end Progress.Does

/-- What a token does to levels it does to the innermost one. -/
theorem Progress.does_next (r : Entities) (tag : String) (mode : FoldMode) (token : Token)
    (paren : Bool) (level : Level) :
    Does mode level (Progress.next r tag mode token paren level) := by
  unfold Progress.next
  split
  · exact .freely _ _
  · exact .await _ fun outer => rfl
  · exact .add _ fun outer => rfl
  · exact .refuses fun outer => ⟨_, rfl⟩
  · split
    · exact .await _ fun outer => rfl
    · split
      · exact .add _ fun outer => rfl
      · exact .refuses fun outer => ⟨_, rfl⟩
  · exact .refuses fun outer => ⟨_, rfl⟩
  · exact .enters _ (level.await .nothing) (by simp) (.of_eq rfl rfl rfl) fun outer => rfl
  · exact .refuses fun outer => ⟨_, rfl⟩

/-- A level of a tag that has an argument already and, behind a comma, needs another one. -/
structure Level.Continues (level : Level) : Prop where
  kind : level.kind = .top
  tuple : 0 < level.tuple.length
  afterComma : level.afterComma = true

theorem Level.Continues.kept {level level' : Level} (h : level.Continues)
    (kept : level.Kept level') : level'.Continues :=
  ⟨kept.kind.trans h.kind, Nat.lt_of_lt_of_le h.tuple kept.tuple, kept.afterComma h.afterComma⟩

/-- Another argument is added, or its lack is a fault. -/
theorem Level.Continues.finish {mode : FoldMode} {level closed : Level} (h : level.Continues)
    (made : level.finish mode = .ok closed) : 1 < closed.tuple.length := by
  unfold Level.finish at made
  split at made
  · split at made
    · cases made
    · rw [if_pos h.afterComma] at made
      cases made
  · split at made
    · cases made
    · split at made
      · cases made
      · split at made
        · rename_i pushed
          cases made
          unfold Tuple.push? at pushed
          split at pushed
          · cases pushed
          · cases pushed
            simpa using h.tuple
        · cases made

/-- Levels on that of a tag that needs another argument. -/
inductive Continuing : Level → List Level → Prop
  | own {level : Level} (h : level.Continues) : Continuing level []
  | inside {level parent : Level} {outer : List Level} (kind : level.kind ≠ .top)
      (below : Continuing parent outer) : Continuing level (parent :: outer)

theorem Continuing.kept {level level' : Level} {outer : List Level} (h : Continuing level outer)
    (kept : level.Kept level') : Continuing level' outer := by
  cases h with
  | own h => exact .own (h.kept kept)
  | inside kind below => exact .inside (kept.kind ▸ kind) below

theorem Continuing.add {level : Level} {outer : List Level} (h : Continuing level outer)
    (e : Expr) : Continuing (level.add e) outer :=
  h.kept (.of_eq rfl rfl rfl)

/-- Behind a comma an argument list has several arguments, if it is read at all. -/
theorem several_of_readLevels {r : Entities} {tag : String} {mode : FoldMode}
    {tokens left : List Lexeme} {t : Tuple} {level : Level} {outer : List Level}
    (h : Continuing level outer) (read : readLevels r tag mode tokens level outer = .ok (t, left)) :
    1 < t.length := by
  induction tokens generalizing level outer with
  | nil => cases read
  | cons lexeme rest ih =>
    rw [readLevels] at read
    rcases Progress.does_next r tag mode lexeme.token (parenFollows rest) level with
      refused | ⟨level', kept, next⟩ | ⟨inner, parent, kind, kept, next⟩ | ⟨e, kind, next⟩ |
      ⟨closed, kind, made, next⟩
    · obtain ⟨fault, next⟩ := refused outer
      rw [next] at read
      cases read
    · rw [next] at read
      exact ih (h.kept kept) read
    · rw [next] at read
      exact ih (.inside kind (h.kept kept)) read
    · cases h with
      | own h => exact absurd h.kind kind
      | inside _ below =>
        rw [next] at read
        exact ih (below.add e) read
    · rw [next] at read
      cases read
      cases h with
      | own h => exact h.finish made
      | inside other => exact absurd kind other

section Values

variable {v : Variable} {op : Operator} {parent : Level} {r : Entities} {tag : String}

/-- The level of a tag behind an assignment operator. -/
def Level.assigning (v : Variable) (op : Operator) (row : List Expr) (pending : Pending) : Level :=
  { kind := .top, row := .var v :: .operator op :: row, pending }

/-- A level in parentheses. -/
def Level.grouping (row : List Expr) (pending : Pending) : Level :=
  { kind := .group, row, pending }

/-- The levels of a value behind an assignment operator, and those of the same value in parentheses
on another level. -/
inductive Parenthesized (v : Variable) (op : Operator) (parent : Level) :
    Level → List Level → Level → List Level → Prop
  | value (row : List Expr) (pending : Pending) :
      Parenthesized v op parent (.assigning v op row pending) [] (.grouping row pending) [parent]
  | inside {level below below' : Level} {outer outer' : List Level} (kind : level.kind ≠ .top)
      (h : Parenthesized v op parent below outer below' outer') :
      Parenthesized v op parent level (below :: outer) level (below' :: outer')

/-- What a token does to the two readings of a value. -/
inductive Parenthesized.Leads (v : Variable) (op : Operator) (parent : Level) :
    Except Fault Progress → Except Fault Progress → Prop
  | failed (e e' : Fault) : Leads v op parent (.error e) (.error e')
  | reading {level level' : Level} {outer outer' : List Level}
      (h : Parenthesized v op parent level outer level' outer') :
      Leads v op parent (.ok (.reading level outer)) (.ok (.reading level' outer'))
  /-- The value ends. -/
  | closed (e : Expr) (valued : e.valued = true) :
      Leads v op parent (.ok (.finished [(none, .sequence [.var v, .operator op, e])]))
        (.ok (.reading (parent.add e) []))
  /-- A comma, which separates arguments of the tag, cannot be in parentheses. -/
  | refused {level : Level} {outer : List Level} (h : Continuing level outer) (e' : Fault) :
      Leads v op parent (.ok (.reading level outer)) (.error e')

namespace Parenthesized

/-- An operand for the innermost level. -/
theorem add {level level' : Level} {outer outer' : List Level}
    (h : Parenthesized v op parent level outer level' outer') (e : Expr) :
    Parenthesized v op parent (level.add e) outer (level'.add e) outer' := by
  cases h with
  | value row pending => exact .value (row ++ [e]) .nothing
  | inside kind below => exact .inside kind below

/-- A token on a level inside the value. -/
theorem leads_inside {token : Token} {paren : Bool}
    {level below below' : Level} {outer outer' : List Level} (kind : level.kind ≠ .top)
    (h : Parenthesized v op parent below outer below' outer') :
    Leads v op parent (Progress.next r tag .assignment token paren level (below :: outer))
      (Progress.next r tag .assignment token paren level (below' :: outer')) := by
  rcases Progress.does_next r tag .assignment token paren level with
    refused | ⟨level', kept, next⟩ | ⟨inner, parent, inside, kept, next⟩ | ⟨e, -, next⟩ |
    ⟨closed, own, -, -⟩
  · obtain ⟨fault, next⟩ := refused (below :: outer)
    obtain ⟨fault', next'⟩ := refused (below' :: outer')
    rw [next, next']
    exact .failed fault fault'
  · rw [next, next]
    exact .reading (.inside (kept.kind ▸ kind) h)
  · rw [next, next]
    exact .reading (.inside inside (.inside (kept.kind ▸ kind) h))
  · rw [next, next]
    exact .reading (h.add e)
  · exact absurd own kind

theorem lastValued_assigning (v : Variable) (op : Operator) (row : List Expr) (pending : Pending) :
    (Level.assigning v op row pending).lastValued = (Level.grouping row pending).lastValued := by
  unfold Level.lastValued Level.assigning Level.grouping
  cases row <;> rfl

/-- What is assigned ends where the row in parentheses is an expression. -/
theorem finish_assigning (form : op.form = .assignment) (row : List Expr) :
    (∃ m fault, (Level.assigning v op row .nothing).finish .assignment = .error m ∧
      Expr.fold .strict row = .error fault) ∨
    ∃ e, e.valued = true ∧ Expr.fold .strict row = .ok e ∧
      (Level.assigning v op row .nothing).finish .assignment = .ok
        { kind := .top, tuple := [(none, .sequence [.var v, .operator op, e])] } := by
  have assigned := Expr.fold_assigned form v row
  generalize folded : Expr.fold .assignment _ = result at assigned
  generalize strict : Expr.fold .strict row = value at assigned
  cases assigned with
  | failed fault fault' =>
    exact .inl ⟨_, fault', finish_of_fold_error rfl (by simp [Level.assigning]) folded, rfl⟩
  | done h =>
    obtain ⟨rfl, valued⟩ := h
    exact .inr ⟨_, valued, rfl,
      @finish_of_fold .assignment (.assigning v op row .nothing) _ rfl folded _ rfl⟩

/-- A parenthesis that closes the argument list, or the parentheses of the value. -/
theorem leads_closeParen (form : op.form = .assignment) (row : List Expr) :
    Leads v op parent (Progress.closeParen r tag .assignment (.assigning v op row .nothing) [])
      (Progress.closeParen r tag .assignment (.grouping row .nothing) [parent]) := by
  have group {fault : FoldError} (failed : Expr.fold .strict row = .error fault) :
      ∃ fault, Progress.closeParen r tag .assignment (.grouping row .nothing) [parent] =
        .error fault := by
    by_cases empty : row = []
    · subst empty
      exact ⟨_, rfl⟩
    · refine ⟨.malformed tag (.fold fault), ?_⟩
      unfold Progress.closeParen
      rw [@finish_of_fold_error .assignment (.grouping row .nothing) _ rfl empty failed]
      rfl
  rcases finish_assigning (v := v) form row with
    ⟨m, fault, made, failed⟩ | ⟨e, valued, folded, made⟩
  · obtain ⟨fault', eq⟩ := group failed
    rw [eq, Progress.closeParen, made]
    exact .failed _ _
  · have grouped : (Level.grouping row .nothing).finish .assignment = .ok
        { kind := .group, tuple := [(none, e)] } :=
      @finish_of_fold .assignment (.grouping row .nothing) _ rfl folded _ rfl
    rw [Progress.closeParen, Progress.closeParen, made, grouped]
    exact .closed e valued

theorem leads_comma (form : op.form = .assignment) (row : List Expr) : Leads v op parent
    ((Progress.comma .assignment (.assigning v op row .nothing) []).mapError (.malformed tag))
    ((Progress.comma .assignment (.grouping row .nothing) [parent]).mapError (.malformed tag)) := by
  have comma : Progress.comma .assignment (.assigning v op row .nothing) [] =
      ((Level.assigning v op row .nothing).finish .assignment).map fun l =>
        .reading { l with afterComma := true } [] := rfl
  rw [comma]
  rcases finish_assigning (v := v) form row with ⟨m, -, made, -⟩ | ⟨e, -, -, made⟩
  · rw [made]
    exact .failed _ _
  · rw [made]
    exact .refused (.own { kind := rfl, tuple := by simp, afterComma := rfl }) _

/-- A bracket does not close a level that a parenthesis opened. -/
theorem closeBracket_error (mode : FoldMode) (level : Level) (outer : List Level)
    (kind : level.kind.isBracket = false) :
    ∃ m, Progress.closeBracket mode level outer = .error m := by
  unfold Progress.closeBracket
  cases made : level.finish mode with
  | error m => exact ⟨m, rfl⟩
  | ok closed =>
    rw [← (Level.kept_finish made).kind] at kind
    simp only [bind, Except.bind]
    cases eq : closed.kind with
    | collection | subscript => rw [eq] at kind; cases kind
    | _ => exact ⟨_, rfl⟩

theorem leads_operator (row : List Expr) (symbol : Operator) : Leads v op parent
    ((Progress.operator .assignment symbol (.assigning v op row .nothing) []).mapError
      (.malformed tag))
    ((Progress.operator .assignment symbol (.grouping row .nothing) [parent]).mapError
      (.malformed tag)) := by
  have base (row : List Expr) (pending : Pending) : Parenthesized v op parent
      (.assigning v op row pending) [] (.grouping row pending) [parent] := .value row pending
  -- what a bracket or a point refers to is the last element behind the assignment operator
  have taken (front : List Expr) (e : Expr) :
      (Level.assigning v op (front ++ [e]) .nothing).takeLast? =
          some (e, .assigning v op front .nothing) ∧
        (Level.grouping (front ++ [e]) .nothing).takeLast? = some (e, .grouping front .nothing) :=
    ⟨(Level.assigning v op front .nothing).takeLast_grown e,
      (Level.grouping front .nothing).takeLast_grown e⟩
  have last := lastValued_assigning v op row .nothing
  cases symbol with
  | bracketClose =>
    obtain ⟨m, eq⟩ := closeBracket_error .assignment (.assigning v op row .nothing) [] rfl
    obtain ⟨m', eq'⟩ := closeBracket_error .assignment (.grouping row .nothing) [parent] rfl
    rw [Progress.operator, Progress.operator, eq, eq']
    exact .failed _ _
  | bracketOpen =>
    unfold Progress.operator Progress.openBracket
    rw [last]
    cases valued : (Level.grouping row .nothing).lastValued with
    | false => exact .reading (.inside (by simp) (base row .nothing))
    | true =>
      rcases List.eq_nil_or_concat' row with rfl | ⟨front, e, rfl⟩
      · cases valued
      · rw [(taken front e).1, (taken front e).2]
        exact .reading (.inside (by simp) (base front .nothing))
  | member =>
    unfold Progress.operator Progress.point
    rw [last]
    cases valued : (Level.grouping row .nothing).lastValued with
    | false => exact .failed _ _
    | true =>
      rcases List.eq_nil_or_concat' row with rfl | ⟨front, e, rfl⟩
      · cases valued
      · rw [(taken front e).1, (taken front e).2]
        exact .reading (base front (.member e))
  | colon =>
    have none : (Level.grouping row .nothing).labelCandidate? = Option.none := by
      unfold Level.labelCandidate? Level.grouping
      split <;> simp_all
    unfold Progress.operator Progress.colon
    rw [none]
    exact .reading ((base row .nothing).add _)
  | minus =>
    unfold Progress.operator
    rw [last]
    exact .reading ((base row .nothing).add _)
  | _ => exact .reading ((base row .nothing).add _)

/-- A token behind an assignment operator, and in parentheses. -/
theorem leads_value (form : op.form = .assignment) (token : Token) (paren : Bool)
    (row : List Expr) (pending : Pending) : Leads v op parent
    (Progress.next r tag .assignment token paren (.assigning v op row pending) [])
    (Progress.next r tag .assignment token paren (.grouping row pending) [parent]) := by
  have base : Parenthesized v op parent (.assigning v op row pending) [] (.grouping row pending)
      [parent] := .value row pending
  have await (pending' : Pending) : Parenthesized v op parent (.assigning v op row pending') []
      (.grouping row pending') [parent] := .value row pending'
  cases pending with
  | nothing =>
    cases token with
    | openParen => exact .reading (.inside (by simp) base)
    | closeParen => exact leads_closeParen form row
    | comma => exact leads_comma form row
    | operator symbol => exact leads_operator row symbol
    | ident name =>
      cases paren with
      | true => exact .reading (await (.callee name none))
      | false => exact .reading (base.add _)
    | scope name => exact .reading (await (.scope name false))
    | keyword word =>
      cases word with
      | own => exact .reading (await (.scope Variable.ownScope false))
      | _ => exact .reading (base.add _)
    | literal data => exact .reading (base.add _)
    | raw | tag | blockMark => exact .failed _ _
  | scope name dotted =>
    cases dotted with
    | false =>
      cases token with
      | operator symbol =>
        cases symbol with
        | member => exact .reading (await (.scope name true))
        | _ => exact .failed _ _
      | _ => exact .failed _ _
    | true =>
      cases token with
      | ident member => exact .reading (base.add _)
      | _ => exact .failed _ _
  | member receiver =>
    cases token with
    | ident name =>
      cases paren with
      | true => exact .reading (await (.callee name (some receiver)))
      | false =>
        simp only [Progress.next, Level.assigning, Level.grouping]
        cases receiver.access name with
        | ok e => exact .reading (base.add e)
        | error m => exact .failed _ _
    | _ => exact .failed _ _
  | callee name receiver =>
    cases token with
    | openParen => exact .reading (.inside (by simp) (await .nothing))
    | _ => exact .failed _ _

/-- A token in the two readings of a value. -/
theorem leads (form : op.form = .assignment) (r : Entities) (tag : String) (token : Token)
    (paren : Bool) {level level' : Level} {outer outer' : List Level}
    (h : Parenthesized v op parent level outer level' outer') : Leads v op parent
      (Progress.next r tag .assignment token paren level outer)
      (Progress.next r tag .assignment token paren level' outer') := by
  cases h with
  | value row pending => exact leads_value form token paren row pending
  | inside kind below => exact leads_inside kind below

end Parenthesized

/-- A value that is read behind an assignment operator and in parentheses: either it is the same
value, or there is no assignment and a fault in the parentheses. The induction is on the tokens,
which end with the parenthesis that closes the value. -/
theorem readLevels_grouped (form : op.form = .assignment) (r : Entities) (tag : String)
    {close : Lexeme} (closes : close.token = .closeParen) {tokens lexemes : List Lexeme}
    (same : lexemes.map (·.token) = tokens.map (·.token)) {depth : Nat}
    {level level' : Level} {outer outer' : List Level} (nested : Nested depth level outer)
    (ends : Token.behindList? depth tokens = some [])
    (h : Parenthesized v op parent level outer level' outer') :
    (∃ e, e.valued = true ∧
      readLevels r tag .assignment tokens level outer =
        .ok ([(none, .sequence [.var v, .operator op, e])], []) ∧
      readLevels r tag .assignment (lexemes ++ [close]) level' outer' =
        readLevels r tag .assignment [close] (parent.add e) []) ∨
    ((∀ t left, readLevels r tag .assignment tokens level outer = .ok (t, left) →
      t.single? = none) ∧
      ∃ fault, readLevels r tag .assignment (lexemes ++ [close]) level' outer' = .error fault) := by
  induction tokens generalizing lexemes depth level outer level' outer' with
  | nil => cases ends
  | cons lexeme rest ih =>
    obtain ⟨lexeme', rest', rfl, token', behind⟩ := List.map_eq_cons_iff.mp same
    obtain ⟨token, place⟩ := lexeme
    have paren : parenFollows (rest' ++ [close]) = parenFollows rest := by
      rw [← parenFollows_of_same behind]
      cases rest' with
      | nil => exact parenFollows_cons closes (by simp)
      | cons => exact parenFollows_append (List.cons_ne_nil _ _) _
    simp only [List.cons_append, readLevels, paren, token']
    have leads := h.leads form r tag token (parenFollows rest)
    generalize next : Progress.next r tag .assignment token (parenFollows rest) level outer = left
      at leads
    generalize Progress.next r tag .assignment token (parenFollows rest) level' outer' = right
      at leads
    cases leads with
    | failed e e' => exact .inr ⟨by rintro t left ⟨⟩, e', rfl⟩
    | refused continuing e' =>
      refine .inr ⟨fun t left read => ?_, e', rfl⟩
      have several := several_of_readLevels continuing read
      cases single : t.single? with
      | none => rfl
      | some e =>
        rw [TagSite.eq_of_single? single] at several
        cases several with
        | step none => cases none
    | closed e valued =>
      obtain ⟨inside, expects⟩ := stands_of_next next
      have follows := placed_next r tag .assignment (parenFollows rest) inside nested expects
      rw [next] at follows
      have last : rest = [] := by
        cases token <;> cases depth <;> first | exact Option.some.inj ends | cases follows
      subst last
      obtain rfl := List.map_eq_nil_iff.mp behind
      exact .inl ⟨e, valued, rfl, rfl⟩
    | reading grouped =>
      obtain ⟨inside, expects⟩ := stands_of_next next
      have follows := placed_next r tag .assignment (parenFollows rest) inside nested expects
      rw [next] at follows
      cases token with
      | openParen => exact ih behind follows.1 ends grouped
      | closeParen =>
        cases depth with
        | zero => cases follows
        | succ depth => exact ih behind follows.1 ends grouped
      | _ => exact ih behind follows.1 ends grouped

end Values

/-- The tokens of an assignment up to the parenthesis that closes it. -/
def Token.ofAssignment (x : String) (op : Operator) (value : List Token) : List Token :=
  .ident x :: .operator op :: value

/-- The tokens of an assignment of an operation on the variable and a value in parentheses. -/
def Token.ofLonghand (x : String) (base : Operator) (value : List Token) : List Token :=
  ofAssignment x .assign (.ident x :: .operator base :: .openParen :: (value ++ [.closeParen]))

/-- A compound assignment and its longhand are read as assignments of the same value, or neither is
read as an assignment. -/
theorem readArguments_longhand (r : Entities) (tag : String) {x : String} {op base : Operator}
    (compound : op.compoundBase? = some base) {short long : List Lexeme} {value : List Token}
    (assignment : short.map (·.token) = Token.ofAssignment x op value)
    (longhand : long.map (·.token) = Token.ofLonghand x base value)
    (ends : Token.behindList? 0 short = some []) :
    (∃ e,
      readArguments r tag .assignment short =
        .ok ([(none, .sequence [.var (.plain x), .operator op, e])], []) ∧
      readArguments r tag .assignment long = .ok ([(none, .sequence [.var (.plain x),
        .operator .assign, .binary base (.var (.plain x)) e])], [])) ∨
    ((∀ t left, readArguments r tag .assignment short = .ok (t, left) → t.single? = none) ∧
      ∃ fault, readArguments r tag .assignment long = .error fault) := by
  obtain ⟨⟨_, p₁⟩, _, rfl, rfl, assigned⟩ := List.map_eq_cons_iff.mp assignment
  obtain ⟨⟨_, p₂⟩, tokens, rfl, rfl, rfl⟩ := List.map_eq_cons_iff.mp assigned
  obtain ⟨⟨_, q₁⟩, _, rfl, rfl, behind₁⟩ := List.map_eq_cons_iff.mp longhand
  obtain ⟨⟨_, q₂⟩, _, rfl, rfl, behind₂⟩ := List.map_eq_cons_iff.mp behind₁
  obtain ⟨⟨_, q₃⟩, _, rfl, rfl, behind₃⟩ := List.map_eq_cons_iff.mp behind₂
  obtain ⟨⟨_, q₄⟩, _, rfl, rfl, behind₄⟩ := List.map_eq_cons_iff.mp behind₃
  obtain ⟨⟨_, q₅⟩, _, rfl, rfl, behind₅⟩ := List.map_eq_cons_iff.mp behind₄
  obtain ⟨lexemes, _, rfl, same, last⟩ := List.map_eq_append_iff.mp behind₅
  obtain ⟨close, rfl, closes⟩ := List.map_eq_singleton_iff.mp last
  let parent : Level := { kind := .top, row := [.var (.plain x), .operator .assign,
    .var (.plain x), .operator base] }
  have form : op.form = .assignment := by cases op <;> first | rfl | cases compound
  have first : readArguments r tag .assignment (⟨.ident x, p₁⟩ :: ⟨.operator op, p₂⟩ :: tokens) =
      readLevels r tag .assignment tokens (.assigning (.plain x) op [] .nothing) [] := by
    cases op <;> first | rfl | cases compound
  have second : readArguments r tag .assignment (⟨.ident x, q₁⟩ :: ⟨.operator .assign, q₂⟩ ::
        ⟨.ident x, q₃⟩ :: ⟨.operator base, q₄⟩ :: ⟨.openParen, q₅⟩ :: (lexemes ++ [close])) =
      readLevels r tag .assignment (lexemes ++ [close]) (.grouping [] .nothing) [parent] := by
    cases op <;> cases compound <;> rfl
  have nested : Nested 0 (.assigning (.plain x) op [] .nothing) [] := .list rfl
  have grouped : Parenthesized (.plain x) op parent (.assigning (.plain x) op [] .nothing) []
      (.grouping [] .nothing) [parent] := .value [] .nothing
  rw [first, second]
  rcases readLevels_grouped form r tag closes same nested ends grouped with
    ⟨e, valued, read, read'⟩ | none
  · refine .inl ⟨e, read, read'.trans ?_⟩
    have finished := @finish_of_fold .assignment (parent.add e) _ rfl
      (Expr.fold_longhand compound (.plain x) valued) _ rfl
    have closed : Progress.next r tag .assignment .closeParen false (parent.add e) [] =
        .ok (.finished [(none, .sequence [.var (.plain x), .operator .assign,
          .binary base (.var (.plain x)) e])]) := by
      change Progress.closeParen r tag .assignment (parent.add e) [] = _
      unfold Progress.closeParen
      rw [finished]
      rfl
    simp only [readLevels, parenFollows, closes, closed]
  · exact .inr none

end Stencil
