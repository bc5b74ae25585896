import Stencil.Proofs.FormulaRows

/-!
# The grammar of operators

What a row of operands and operators means. Unary operators bind tightest, the binary ones bind in
seven levels below them, each to the left, and the conditional binds loosest and to the right. A
sentence is a row together with the tree that this gives it.

Folding takes a sentence to its tree (`Sentence.reduces`): it computes the unary operators from
right to left, then the binary ones level by level, each level from left to right, and in the end
the conditionals from right to left.
-/

namespace Stencil

/-- The binary operators of a level of the grammar. Those of a higher level bind tighter. -/
def Operator.ofLevel : Nat → List Operator
  | 1 => [nilCoalesce]
  | 2 => [or]
  | 3 => [and]
  | 4 => [equal, unequal]
  | 5 => [lesser, lesserOrEqual, greater, greaterOrEqual]
  | 6 => [plus, minus]
  | 7 => [multiply, divide, modulo]
  | _ => []

/-- The sentences of a level and their trees. Conditionals are of level 0, which takes in all
others, and operands, with unary operators before them or not, are of level 8. -/
inductive Sentence : (level : Nat) → List Expr → Expr → Prop
  | operand (v : Variable) : Sentence 8 [.var v] (.var v)
  | unary {op : Operator} {row : List Expr} {x : Expr} (sign : op ∈ [Operator.not, .negate])
      (operand : Sentence 8 row x) : Sentence 8 (.operator op :: row) (.unary op x)
  | binary {level : Nat} {op : Operator} {left right : List Expr} {x y : Expr}
      (mem : op ∈ Operator.ofLevel level) (first : Sentence level left x)
      (second : Sentence (level + 1) right y) :
      Sentence level (left ++ .operator op :: right) (.binary op x y)
  | conditional {condition whenTrue whenFalse : List Expr} {x y z : Expr}
      (first : Sentence 1 condition x) (second : Sentence 0 whenTrue y)
      (third : Sentence 0 whenFalse z) :
      Sentence 0 (condition ++ .operator .question :: (whenTrue ++ .operator .colon :: whenFalse))
        (.conditional x y z)
  | tighter {level : Nat} {row : List Expr} {x : Expr} (h : Sentence (level + 1) row x) :
      Sentence level row x

/-- The row of a tree whose unary operators are computed, and those of a level and above. -/
def Expr.rowAt (level : Nat) : Expr → List Expr
  | binary op x y =>
    if level < op.precedence then [binary op x y]
    else rowAt level x ++ operator op :: rowAt level y
  | conditional x y z =>
    if level = 0 then [conditional x y z]
    else rowAt level x ++ operator .question :: (rowAt level y ++ operator .colon :: rowAt level z)
  | e => [e]

/-- What the grammar calls binary is so, with the precedence of its level. -/
theorem Operator.of_mem_ofLevel {level : Nat} {op : Operator} (h : op ∈ ofLevel level) :
    op.form = .binary ∧ op.precedence = level + 1 ∧ level ≤ 7 := by
  unfold ofLevel at h
  split at h <;> simp only [List.mem_cons, List.not_mem_nil, or_false] at h
  · subst h
    decide
  · subst h
    decide
  · subst h
    decide
  · rcases h with rfl | rfl <;> decide
  · rcases h with rfl | rfl | rfl | rfl <;> decide
  · rcases h with rfl | rfl <;> decide
  · rcases h with rfl | rfl | rfl <;> decide

theorem Operator.form_of_sign {op : Operator} (h : op ∈ [not, negate]) : op.form = .unary := by
  simp only [List.mem_cons, List.not_mem_nil, or_false] at h
  rcases h with rfl | rfl <;> rfl

theorem Expr.folded_of_unresolved {e : Expr} (h : e.resolved = false) : e.folded = .ok e := by
  simp [folded, foldConstant, constant, h, Except.mapError]

namespace Sentence

open Stencil.Expr

variable {level n : Nat} {row front post : List Expr} {e : Expr} {op : Operator}

theorem valued (h : Sentence level row e) : e.valued = true := by
  induction h with
  | tighter _ ih => exact ih
  | _ => rfl

/-- Nothing in a sentence can be computed while parsing. -/
theorem resolved (h : Sentence level row e) : e.resolved = false := by
  induction h with
  | operand => rfl
  | unary _ _ ih => simpa [Expr.resolved] using ih
  | binary _ _ _ ih | conditional _ _ _ ih => simp [Expr.resolved, ih]
  | tighter _ ih => exact ih

theorem folded (h : Sentence level row e) : e.folded = .ok e := folded_of_unresolved h.resolved

/-- When its level is computed, nothing is left but the tree. -/
theorem rowAt_of_le (h : Sentence level row e) (computed : n ≤ level) : e.rowAt n = [e] := by
  induction h with
  | operand => rfl
  | unary => rfl
  | binary mem =>
    obtain ⟨-, tight, -⟩ := Operator.of_mem_ofLevel mem
    rw [rowAt, if_pos (by omega)]
  | conditional => rw [rowAt, if_pos (by omega)]
  | tighter _ ih => exact ih (Nat.le_succ_of_le computed)

/-- The operators that are left are those of lower levels. -/
theorem atMost_rowAt (h : Sentence level row e) (n : Nat) : Redex.AtMost n (e.rowAt n) := by
  have single (x : Expr) (hx : x.valued = true) : Redex.AtMost n [x] := by
    intro op mem
    rw [← List.mem_singleton.mp mem] at hx
    cases hx
  induction h with
  | operand => exact single _ rfl
  | unary => exact single _ rfl
  | @binary level op _ _ _ _ mem _ _ ihx ihy =>
    obtain ⟨form, -, -⟩ := Operator.of_mem_ofLevel mem
    rw [rowAt]
    split
    · exact single _ rfl
    · rename_i loose
      refine ihx.append (List.singleton_append ▸ Redex.AtMost.append ?_ ihy)
      intro other inside
      cases List.mem_singleton.mp inside
      exact ⟨by simp [form], Nat.le_of_not_lt loose⟩
  | conditional _ _ _ ihx ihy ihz =>
    have between (op : Operator) (tern : op.form = .ternary) (tight : op.precedence = 1)
        (later : 0 < n) : Redex.AtMost n [operator op] := by
      intro other inside
      cases List.mem_singleton.mp inside
      exact ⟨by simp [tern], by omega⟩
    rw [rowAt]
    split
    · exact single _ rfl
    · rename_i later
      have later := Nat.pos_of_ne_zero later
      have last := (between .colon rfl rfl later).append ihz
      have middle := (between .question rfl rfl later).append (ihy.append last)
      exact ihx.append middle
  | tighter _ ih => exact ih

/-- All operators of a sentence bind at most as tight as a sign. -/
theorem loose (h : Sentence level row e) : Redex.Loose row := by
  induction h with
  | operand =>
    intro op mem
    cases List.mem_singleton.mp mem
  | unary sign _ ih =>
    intro op mem
    rcases List.mem_cons.mp mem with same | inside
    · cases same
      exact Nat.le_of_eq (Redex.precedence_of_unary (Operator.form_of_sign sign))
    · exact ih op inside
  | @binary level op _ _ _ _ mem _ _ ihx ihy =>
    obtain ⟨-, tight, few⟩ := Operator.of_mem_ofLevel mem
    have bound : op.precedence < Operator.negate.precedence := by
      show op.precedence < 10
      omega
    exact ihx.append ((loose_operator bound).append ihy)
  | conditional _ _ _ ihx ihy ihz =>
    have question : Redex.Loose [operator .question] := loose_operator (by decide)
    have colon : Redex.Loose [operator .colon] := loose_operator (by decide)
    exact ihx.append (question.append (ihy.append (colon.append ihz)))
  | tighter _ ih => exact ih

theorem looser_rowAt (h : Sentence level row e) : Redex.Looser (e.rowAt 8) := by
  intro op mem
  obtain ⟨form, bound⟩ := h.atMost_rowAt 8 op mem
  exact ⟨form, Nat.lt_of_le_of_lt bound (by decide)⟩

/-- Signs on both sides of an operator. -/
theorem signs_join {l l' r r' : List Expr} (form : op.form ≠ .unary)
    (bound : op.precedence < Operator.negate.precedence) (left : Redex.Loose l)
    (right : Redex.Looser r')
    (hl : BecomesWithin Formula.BeforeSign Redex.Looser l (some l'))
    (hr : BecomesWithin Formula.BeforeSign Redex.Looser r (some r')) :
    BecomesWithin Formula.BeforeSign Redex.Looser (l ++ operator op :: r)
      (some (l' ++ operator op :: r')) := by
  apply hl.join_right hr
  · intro front free
    rw [← List.append_assoc]
    exact .snoc (free.2.append left) (Nat.le_of_lt bound)
  · rintro _ post ⟨⟩ looser
    exact (looser_operator form bound).append (right.append looser)

/-- The unary operators are computed first, from right to left. -/
theorem becomes_signs (h : Sentence level row e) :
    BecomesWithin Formula.BeforeSign Redex.Looser row (some (e.rowAt 8)) := by
  induction h with
  | operand => exact .refl rfl
  | @unary op row x sign operand ih =>
    have form := Operator.form_of_sign sign
    have bound := Nat.le_of_eq (Redex.precedence_of_unary form)
    have whole := operand.unary sign
    intro front post free looser
    have first := ih (front ++ [operator op]) post (.snoc free.2 bound) looser
    have second := reduce_sign front.reverse post form operand.valued
      (by rw [List.head?_reverse]; exact free.1) (by rw [List.reverse_reverse]; exact free.2) looser
    rw [operand.rowAt_of_le (Nat.le_refl 8)] at first
    rw [List.reverse_reverse, whole.folded] at second
    rw [whole.rowAt_of_le (Nat.le_refl 8)]
    simp only [Becomes, Option.map_some, List.append_assoc, List.cons_append,
      List.nil_append] at first ⊢
    exact first.trans second
  | @binary level op _ _ x y mem hx hy ihx ihy =>
    obtain ⟨form, tight, few⟩ := Operator.of_mem_ofLevel mem
    have bound : op.precedence < Operator.negate.precedence := by
      show op.precedence < 10
      omega
    have whole : (Expr.binary op x y).rowAt 8 = x.rowAt 8 ++ operator op :: y.rowAt 8 := by
      rw [rowAt, if_neg (by omega)]
    rw [whole]
    exact signs_join (by simp [form]) bound hx.loose hy.looser_rowAt ihx ihy
  | conditional hx hy hz ihx ihy ihz =>
    have form : Operator.colon.form ≠ .unary := by decide
    have bound : Operator.colon.precedence < Operator.negate.precedence := by decide
    have last := signs_join form bound hy.loose hz.looser_rowAt ihy ihz
    have right := hy.looser_rowAt.append ((looser_operator form bound).append hz.looser_rowAt)
    exact signs_join (by decide) (by decide) hx.loose right ihx last
  | tighter _ ih => exact ih

/-- What can stand before a row whose operators above a level are computed. -/
def BeforeLevel (n : Nat) (front : List Expr) : Prop :=
  ∀ op, operator op ∈ front → op.precedence ≤ n

theorem BeforeLevel.append {more : List Expr} (h : BeforeLevel n front)
    (h' : Redex.AtMost n more) : BeforeLevel n (front ++ more) := by
  intro op mem
  exact (List.mem_append.mp mem).elim (h op) fun inside => (h' op inside).2

theorem atMost_operator (form : op.form ≠ .unary) (bound : op.precedence ≤ n) :
    Redex.AtMost n [operator op] := by
  intro other mem
  cases List.mem_singleton.mp mem
  exact ⟨form, bound⟩

theorem AtMost.mono {m : Nat} (h : Redex.AtMost n row) (le : n ≤ m) : Redex.AtMost m row :=
  fun op mem => ⟨(h op mem).1, Nat.le_trans (h op mem).2 le⟩

/-- Operators of a level on both sides of one of a lower level. -/
theorem level_join {l l' r r' : List Expr} (form : op.form ≠ .unary) (bound : op.precedence ≤ n)
    (left : Redex.AtMost n l') (right : Redex.AtMost (n + 1) r)
    (hl : BecomesWithin (BeforeLevel n) (Redex.AtMost (n + 1)) l (some l'))
    (hr : BecomesWithin (BeforeLevel n) (Redex.AtMost (n + 1)) r (some r')) :
    BecomesWithin (BeforeLevel n) (Redex.AtMost (n + 1)) (l ++ operator op :: r)
      (some (l' ++ operator op :: r')) := by
  apply hl.join_left hr
  · intro post behind
    exact (atMost_operator form (Nat.le_succ_of_le bound)).append (right.append behind)
  · rintro _ front ⟨⟩ before
    exact before.append (left.append (atMost_operator form bound))

/-- The binary operators of a level are computed from left to right, when those that bind tighter
are. -/
theorem becomes_level (h : Sentence level row e) (pos : 0 < n) :
    BecomesWithin (BeforeLevel n) (Redex.AtMost (n + 1)) (e.rowAt (n + 1)) (some (e.rowAt n)) := by
  induction h with
  | operand => exact .refl rfl
  | unary => exact .refl rfl
  | @binary level op _ _ x y mem hx hy ihx ihy =>
    obtain ⟨form, tight, -⟩ := Operator.of_mem_ofLevel mem
    have sign : op.form ≠ .unary := by simp [form]
    rcases Nat.lt_trichotomy level n with looser | same | tighter
    · rw [rowAt, rowAt, if_neg (by omega), if_neg (by omega)]
      exact level_join sign (by omega) (hx.atMost_rowAt _) (hy.atMost_rowAt _)
        ihx ihy
    · subst same
      have whole := hx.binary mem hy
      rw [whole.rowAt_of_le (Nat.le_refl level), rowAt, if_neg (by omega),
        hy.rowAt_of_le (Nat.le_refl _)]
      rw [hx.rowAt_of_le (Nat.le_refl level)] at ihx
      intro front post before behind
      have single : Redex.AtMost (level + 1) [y] := by
        rw [← hy.rowAt_of_le (Nat.le_refl _)]
        exact hy.atMost_rowAt _
      have after := (atMost_operator sign (Nat.le_of_eq tight)).append (single.append behind)
      have first := ihx front (operator op :: y :: post) before after
      have second := reduce_leftmost front.reverse post hx.valued hy.valued form
        (fun other mem => by
          have := before other (List.mem_reverse.mp mem)
          omega)
        (by rw [tight]; exact behind)
      rw [List.reverse_reverse, whole.folded] at second
      simp only [Becomes, Option.map_some, List.append_assoc, List.cons_append,
        List.nil_append] at first ⊢
      exact first.trans second
    · rw [rowAt, rowAt, if_pos (by omega), if_pos (by omega)]
      exact .refl rfl
  | conditional hx hy hz ihx ihy ihz =>
    have ternary (op : Operator) (h : op = .question ∨ op = .colon) :
        op.form ≠ .unary ∧ op.precedence ≤ n := by
      rcases h with rfl | rfl
      · exact ⟨by decide, pos⟩
      · exact ⟨by decide, pos⟩
    have question := ternary .question (.inl rfl)
    have colon := ternary .colon (.inr rfl)
    rw [rowAt, rowAt, if_neg (by omega), if_neg (by omega)]
    have last := level_join colon.1 colon.2 (hy.atMost_rowAt _)
      (hz.atMost_rowAt _) ihy ihz
    have behind := (atMost_operator colon.1 (Nat.le_succ_of_le colon.2)).append
      (hz.atMost_rowAt (n + 1))
    exact level_join question.1 question.2 (hx.atMost_rowAt _)
      ((hy.atMost_rowAt _).append behind) ihx last
  | tighter _ ih => exact ih

/-- What can stand behind conditionals that are computed. -/
def BehindConditional (post : List Expr) : Prop :=
  Redex.AtMost 1 post ∧ operator .question ∉ post

/-- The conditionals are computed last, from right to left. -/
theorem becomes_conditionals (h : Sentence level row e) :
    BecomesWithin (Redex.AtMost 1) BehindConditional (e.rowAt 1) (some [e]) := by
  induction h with
  | operand => exact .refl rfl
  | unary => exact .refl rfl
  | binary mem =>
    have bound := Redex.one_lt_precedence (Operator.of_mem_ofLevel mem).1
    exact .refl (by rw [rowAt, if_pos bound])
  | @conditional _ _ _ x y z hx hy hz _ ihy ihz =>
    have question : Redex.AtMost 1 [operator .question] := atMost_operator (by decide) (by decide)
    have colon : Redex.AtMost 1 [operator .colon] := atMost_operator (by decide) (by decide)
    have condition := hx.rowAt_of_le (Nat.le_refl 1)
    have single := hx.atMost_rowAt 1
    rw [condition] at single
    have parts : BecomesWithin (Redex.AtMost 1) BehindConditional
        (y.rowAt 1 ++ operator .colon :: z.rowAt 1) (some ([y] ++ operator .colon :: [z])) := by
      apply ihy.join_right ihz
      · intro front before
        exact before.append ((hy.atMost_rowAt _).append colon)
      · rintro _ post ⟨⟩ ⟨behind, none⟩
        have last := hz.atMost_rowAt 0
        rw [hz.rowAt_of_le (Nat.le_refl 0)] at last
        refine ⟨colon.append ((AtMost.mono last (Nat.zero_le 1)).append behind), ?_⟩
        have value : operator .question ≠ z := by
          rintro rfl
          cases hz.valued
        simp [value, none]
    intro front post before behind
    have first := parts (front ++ [x, operator .question]) post
      (before.append (single.append question)) behind
    have second := reduce_last front.reverse post hx.valued hy.valued hz.valued
      (by rwa [List.reverse_reverse]) behind.1 behind.2
    rw [List.reverse_reverse, (hx.conditional hy hz).folded] at second
    rw [rowAt, if_neg (by decide), condition]
    simp only [Becomes, Option.map_some, List.append_assoc, List.cons_append,
      List.nil_append] at first ⊢
    exact first.trans second
  | tighter _ ih => exact ih

/-- A sentence is reduced to its tree. The levels are computed one after the other. -/
theorem reduces (h : Sentence level row e) : reduce row = .ok [e] := by
  have signs := h.becomes_signs [] [] ⟨by simp, by rintro _ ⟨⟩⟩ (by rintro _ ⟨⟩)
  have levels (n : Nat) (few : n < 8) : reduce (e.rowAt 8) = reduce (e.rowAt (8 - n)) := by
    induction n with
    | zero => rfl
    | succ n ih =>
      have step := h.becomes_level (n := 8 - (n + 1)) (by omega) [] []
        (by rintro _ ⟨⟩) (by rintro _ ⟨⟩)
      have next : 8 - (n + 1) + 1 = 8 - n := by omega
      rw [next] at step
      simp only [Becomes, Option.map_some, List.append_nil, List.nil_append] at step
      exact (ih (by omega)).trans step
  have conditionals := h.becomes_conditionals [] [] (by rintro _ ⟨⟩) ⟨by rintro _ ⟨⟩, by simp⟩
  simp only [Becomes, Option.map_some, List.append_nil, List.nil_append] at signs conditionals
  calc reduce row = reduce (e.rowAt 8) := signs
    _ = reduce (e.rowAt 1) := levels 7 (by decide)
    _ = reduce [e] := conditionals
    _ = .ok [e] := reduce_operand h.valued

end Sentence

end Stencil
