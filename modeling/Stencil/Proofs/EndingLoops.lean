import Stencil.Proofs.LexerTurns
import Stencil.Proofs.Settled

/-!
# Loops that end

A loop goes from state to state, a round each, until a round gives its result. It ends if every
round leaves less to do (`Loop.endsWithin_of_falls`).

The lexer is a loop whose rounds are its turns. A turn that reads nothing only leaves a tag or its
arguments for text (`Token.step_of_turn`), and a turn in text reads something; so there are two
rounds at most for each character (`Token.scan_endsWithin`). Folding is a loop as well, once the
elements have passed the checks, and each round makes the row shorter (`Expr.applies_of_foldLoop`).
-/

namespace Stencil

/-- A loop, by what one round makes of a state: the next state, or the result. -/
abbrev Loop (State Result : Type) := State → State ⊕ Result

namespace Loop

variable {State Result : Type}

/-- After so many rounds a loop has ended with a result. -/
inductive Run (loop : Loop State Result) : State ⊕ Result → Nat → Result → Prop
  | ended {result : Result} : Run loop (.inr result) 0 result
  | round {state : State} {rounds : Nat} {result : Result}
      (rest : Run loop (loop state) rounds result) : Run loop (.inl state) (rounds + 1) result

/-- A loop ends with a result, after so many rounds at most. -/
def EndsWithin (loop : Loop State Result) (place : State ⊕ Result) (bound : Nat)
    (result : Result) : Prop :=
  ∃ rounds ≤ bound, Run loop place rounds result

namespace EndsWithin

variable {loop : Loop State Result} {place : State ⊕ Result} {bound bound' : Nat}
  {result : Result}

theorem ended (loop : Loop State Result) (bound : Nat) (result : Result) :
    EndsWithin loop (.inr result) bound result := ⟨0, Nat.zero_le _, .ended⟩

theorem round {state : State} (h : EndsWithin loop (loop state) bound result) :
    EndsWithin loop (.inl state) (bound + 1) result := by
  obtain ⟨rounds, few, run⟩ := h
  exact ⟨rounds + 1, Nat.succ_le_succ few, .round run⟩

theorem mono (h : EndsWithin loop place bound result) (le : bound ≤ bound') :
    EndsWithin loop place bound' result := by
  obtain ⟨rounds, few, run⟩ := h
  exact ⟨rounds, few.trans le, run⟩

end EndsWithin

/-- A loop ends if each round leaves less to do; what no round changes is then its result. -/
theorem endsWithin_of_falls {loop : Loop State Result} (left : State → Nat)
    (result : State → Result)
    (falls : ∀ {state state'}, loop state = .inl state' → left state' < left state)
    (keeps : ∀ state, (loop state).elim result id = result state) (state : State) :
    EndsWithin loop (.inl state) (left state + 1) (result state) := by
  induction size : left state using Nat.strong_induction_on generalizing state with
  | _ size' ih =>
    subst size
    have kept := keeps state
    refine .round ?_
    cases next : loop state with
    | inl state' =>
      rw [next] at kept
      have less := falls next
      have more := ih _ less state' rfl
      rw [show result state' = result state from kept] at more
      exact more.mono less
    | inr ended =>
      rw [next] at kept
      rw [← show ended = result state from kept]
      exact .ended _ _ _

end Loop

namespace Token

open Sliced (rank remaining remaining_nil)

variable {indicator : Char} {state state' : LexState} {cursor cursor' : Cursor}
  {front : List Lexeme}

theorem rank_le_one (state : LexState) : rank state ≤ 1 := by
  cases state with
  | behindTag | behindArguments => exact Nat.le_refl 1
  | text | arguments => exact Nat.zero_le 1

/-- The lexer before a round: what it has emitted, its state and its place. -/
structure Stand where
  emitted : List Lexeme
  state : LexState
  cursor : Cursor

namespace Stand

/-- The start of a source. -/
def start (source : String) : Stand := ⟨[], .text, .start source⟩

/-- What is emitted in the end. -/
def result (indicator : Char) (stand : Stand) : Except LexError (List Lexeme) :=
  (remaining indicator stand.state stand.cursor).map (stand.emitted ++ ·)

/-- Two rounds for each character that is left, one of them to leave a tag. -/
def left (stand : Stand) : Nat := 2 * stand.cursor.rest.length + rank stand.state

end Stand

/-- The lexer takes its turns as long as there is something to read. -/
def lexLoop (indicator : Char) : Loop Stand (Except LexError (List Lexeme)) := fun stand =>
  if stand.cursor.rest.isEmpty then .inr (.ok stand.emitted)
  else
    match turn indicator stand.state stand.cursor with
    | .error e => .inr (.error e)
    | .ok (front, state, cursor) => .inl ⟨stand.emitted ++ front, state, cursor⟩

/-- A round that reads no character leaves a tag or its arguments for text and does nothing else.
-/
theorem progress_of_lexLoop {stand stand' : Stand} (h : lexLoop indicator stand = .inl stand') :
    stand'.cursor.rest.length < stand.cursor.rest.length ∨
      (stand.state = .behindTag ∨ stand.state = .behindArguments) ∧
        stand' = { stand with state := .text } := by
  unfold lexLoop at h
  split at h
  · cases h
  · rename_i left
    split at h
    · cases h
    · rename_i front state cursor turns
      cases h
      have filled : stand.cursor.rest ≠ [] := by simpa using left
      refine (step_of_turn filled turns).imp (·.length_lt) ?_
      rintro ⟨leaves, rfl, rfl, rfl⟩
      exact ⟨leaves, by rw [List.append_nil]⟩

theorem left_of_lexLoop {stand stand' : Stand} (h : lexLoop indicator stand = .inl stand') :
    stand'.left < stand.left := by
  have once := rank_le_one stand'.state
  unfold Stand.left
  rcases progress_of_lexLoop h with reads | ⟨leaves, rfl⟩
  · omega
  · have passes : rank stand.state = 1 := by
      rcases leaves with eq | eq <;> rw [eq] <;> rfl
    rw [passes]
    exact Nat.lt_succ_self _

theorem result_of_lexLoop (indicator : Char) (stand : Stand) :
    (lexLoop indicator stand).elim (Stand.result indicator) id = stand.result indicator := by
  obtain ⟨emitted, state, ⟨rest, here⟩⟩ := stand
  cases rest with
  | nil => simp [lexLoop, Stand.result, remaining_nil, Except.map]
  | cons c rest =>
    have left : (⟨c :: rest, here⟩ : Cursor).rest ≠ [] := List.cons_ne_nil _ _
    unfold lexLoop Stand.result
    rw [remaining_of_turn indicator state left]
    cases turn indicator state ⟨c :: rest, here⟩ with
    | error e => rfl
    | ok next =>
      obtain ⟨front, state', cursor'⟩ := next
      simp [Except.bind, map_map]

/-- The lexer ends on every source, after two rounds for each character at most. -/
theorem scan_endsWithin (indicator : Char) (source : String) :
    (lexLoop indicator).EndsWithin (.inl (.start source)) (2 * source.length + 1)
      (scan indicator source) := by
  have ends := Loop.endsWithin_of_falls Stand.left (Stand.result indicator) left_of_lexLoop
    (result_of_lexLoop indicator) (.start source)
  have size : (Stand.start source).left = 2 * source.length := rfl
  have tokens : (Stand.start source).result indicator = scan indicator source :=
    map_nil_append _
  rwa [size, tokens] at ends

end Token

namespace Expr

/-- What is wrong with the elements of an argument before they are folded. -/
def refusal? (mode : FoldMode) (row : List Expr) : Option FoldError :=
  if row.isEmpty then some .empty else if mode = .relaxed then none else rowFault row

/-- Folding before a round. -/
inductive Stand
  /-- The elements as they are given. -/
  | given (row : List Expr)
  /-- The elements with some of their operators applied. -/
  | folding (row : List Expr)

namespace Stand

/-- What the elements are folded to. -/
def result (mode : FoldMode) : Stand → Except FoldError Expr
  | given row => fold mode row
  | folding row => (reduce row).bind (finish mode)

/-- How many rounds are left at most. -/
def left : Stand → Nat
  | given row => row.length
  | folding row => row.length - 1

end Stand

/-- Folding checks the elements, and applies one operator or conditional after the other as long as
there is one to apply. -/
def foldLoop (mode : FoldMode) : Loop Stand (Except FoldError Expr)
  | .given row =>
    match refusal? mode row with
    | some fault => .inr (.error fault)
    | none => .inl (.folding row)
  | .folding row =>
    match Redex.next? row with
    | none => .inr (finish mode row)
    | some place =>
      match place.expr.folded with
      | .error e => .inr (.error e)
      | .ok e => .inl (.folding (place.replace e))

variable {mode : FoldMode} {row : List Expr}

/-- A round that is not the last applies an operator or a conditional, and the row gets shorter. -/
theorem applies_of_foldLoop {stand : Stand} (h : foldLoop mode (.folding row) = .inl stand) :
    ∃ place e, Redex.next? row = some place ∧ place.items = row ∧
      stand = .folding (place.replace e) ∧ (place.replace e).length < row.length := by
  unfold foldLoop at h
  dsimp only at h
  split at h
  · cases h
  · rename_i place next
    split at h
    · cases h
    · rename_i e _
      cases h
      have found := Redex.items_of_next? next
      refine ⟨place, e, next, found, rfl, ?_⟩
      have shorter := place.length_replace_lt e
      rwa [found] at shorter

theorem replace_ne_nil (place : Redex) (e : Expr) : place.replace e ≠ [] := by
  cases place <;> simp [Redex.replace]

theorem left_of_foldLoop {stand stand' : Stand} (h : foldLoop mode stand = .inl stand') :
    stand'.left < stand.left := by
  cases stand with
  | given row =>
    simp only [foldLoop] at h
    split at h
    · cases h
    · rename_i accepted
      cases h
      have filled : row ≠ [] := by
        rintro rfl
        cases accepted
      exact Nat.sub_lt (List.length_pos_of_ne_nil filled) Nat.one_pos
  | folding row =>
    obtain ⟨place, e, -, -, rfl, shorter⟩ := applies_of_foldLoop h
    have filled := List.length_pos_of_ne_nil (replace_ne_nil place e)
    simp only [Stand.left]
    omega

theorem result_of_foldLoop (mode : FoldMode) (stand : Stand) :
    (foldLoop mode stand).elim (Stand.result mode) id = stand.result mode := by
  cases stand with
  | given row =>
    simp only [foldLoop, Stand.result, refusal?, fold]
    cases row.isEmpty with
    | true => rfl
    | false =>
      simp only [Bool.false_eq_true, if_false]
      cases (if mode = .relaxed then none else rowFault row) with
      | some fault => rfl
      | none =>
        simp only [Sum.elim_inl, Stand.result]
        cases reduce row <;> rfl
  | folding row =>
    simp only [foldLoop, Stand.result]
    rw [reduce_eq]
    cases Redex.next? row with
    | none => rfl
    | some place =>
      dsimp only
      cases place.expr.folded <;> rfl

/-- Folding ends on every row in every mode, after no more rounds than the row has elements, the
checks apart. -/
theorem fold_endsWithin (mode : FoldMode) (row : List Expr) :
    (foldLoop mode).EndsWithin (.inl (.given row)) (row.length + 1) (fold mode row) :=
  Loop.endsWithin_of_falls Stand.left (Stand.result mode) left_of_foldLoop
    (result_of_foldLoop mode) (.given row)

end Expr

end Stencil
