import Stencil.Proofs.LoopRounds

/-!
# How long a loop with a condition runs

A `while` evaluates its condition before each round, and walks its body as long as the condition is
true. It is allowed as many rounds as the configuration says, but at least one; when it has used
them up, the limit is recorded without asking whether the condition still holds
(`Template.while_rounds`). So a loop that ends with the last round it is allowed has exceeded
nothing and is reported all the same (`Template.limit_recorded_without_excess`).
-/

namespace Stencil

/-- A `while` is a loop with a condition. -/
theorem Block.Made.eq_of_while {tag : String} {made : BlockInstance} (h : Block.Made tag made)
    (named : tag = "while") :
    ∃ condition, made.behaviour = Block.whileLoop ∧ made.args = [(none, condition)] := by
  cases h with
  | whileLoop => exact ⟨_, rfl, rfl⟩
  | condition other =>
    subst named
    simp at other
  | otherwise | forLoop => simp at named

namespace Machine

/-- How a loop with a condition ends after a number of rounds, of which so many are allowed. -/
inductive WhileEnds (r : Rendering) (condition : Expr) (allowed : Nat) (below : List TableCursor)
    (count : Nat) (left : RenderState) : Machine → Prop
  | fails (few : count < allowed) (sound : (r.eval left condition).isError = false)
      (fails : (r.eval left condition).truthy = false) :
      WhileEnds r condition allowed below count left ⟨below, left⟩
  | error {e : EvalError} (few : count < allowed) (failed : r.eval left condition = .error e) :
      WhileEnds r condition allowed below count left ⟨below, left.record e⟩
  | limited (all : count = allowed) : WhileEnds r condition allowed below count left
      ⟨below, left.record (.passLimit "while" r.config.maxLoopPasses)⟩

/-- Rounds in which nothing is bound and before each of which a condition is true. -/
def AllHold (r : Rendering) (condition : Expr) (rounds : List (RenderState × Bindings)) : Prop :=
  ∀ round ∈ rounds, round.2 = [] ∧ (r.eval round.1 condition).truthy = true

variable {r : Rendering} {condition : Expr} {below : List TableCursor} {s : RenderState}

theorem WhileEnds.succ {allowed count : Nat} {left : RenderState} {m : Machine}
    (h : WhileEnds r condition allowed below count left m) :
    WhileEnds r condition (allowed + 1) below (count + 1) left m := by
  cases h with
  | fails few sound fails => exact .fails (Nat.succ_lt_succ few) sound fails
  | error few failed => exact .error (Nat.succ_lt_succ few) failed
  | limited all => exact .limited (congrArg Nat.succ all)

theorem AllHold.cons {rounds : List (RenderState × Bindings)}
    (holds : (r.eval s condition).truthy = true) (h : AllHold r condition rounds) :
    AllHold r condition ((s, []) :: rounds) :=
  List.forall_mem_cons.mpr ⟨⟨rfl, holds⟩, h⟩

/-- A pass over the body of a loop with a condition, after which so many more are allowed. -/
def whilePass (condition : Expr) (entered : List Value) (index left : Nat) : Pass :=
  ⟨"while", Block.whileLoop, [(none, condition)], ⟨entered, index, []⟩, .indefinite left⟩

section Leaving

variable {body : Nat} {encoder : Encoder} {entered : List Value} {index left : Nat}

theorem leave_while_limit :
    leave r body encoder (some (whilePass condition entered index 0)) below s =
      ⟨below, s.record (.passLimit "while" r.config.maxLoopPasses)⟩ := rfl

theorem leave_while_error {e : EvalError} (failed : r.eval s condition = .error e) :
    leave r body encoder (some (whilePass condition entered index (left + 1))) below s =
      ⟨below, s.record e⟩ := by
  simp only [leave, whilePass, eval_condition_error failed]

theorem leave_while_false (sound : (r.eval s condition).isError = false)
    (fails : (r.eval s condition).truthy = false) :
    leave r body encoder (some (whilePass condition entered index (left + 1))) below s =
      ⟨below, s⟩ := by
  have fails : (condition.eval (r.env s)).truthy = false := fails
  simp [leave, whilePass, eval_condition sound, again, Behaviour.again, Block.whileLoop,
    Block.firstTruthy, fails]

theorem leave_while_true (sound : (r.eval s condition).isError = false)
    (holds : (r.eval s condition).truthy = true) :
    leave r body encoder (some (whilePass condition entered index (left + 1))) below s =
      enter r body encoder [] (some (whilePass condition entered (index + 1) left)) below s := by
  have holds : (condition.eval (r.env s)).truthy = true := holds
  simp [leave, whilePass, eval_condition sound, again, Behaviour.again, Block.whileLoop,
    Block.firstTruthy, holds, Entries.insertAll]

theorem runBlock_while_true {cursor : TableCursor} {outer : List TableCursor}
    (sound : (r.eval s condition).isError = false) (holds : (r.eval s condition).truthy = true) :
    runBlock r body "while" Block.whileLoop [(none, condition)] cursor outer s =
      enter r body cursor.encoder []
        (some (whilePass condition [r.eval s condition] 0 (r.config.maxLoopPasses - 1)))
        ({ cursor with settled := true } :: outer) s := by
  have holds : (condition.eval (r.env s)).truthy = true := holds
  simp [runBlock, eval_condition sound, Behaviour.enter, Block.whileLoop, Block.firstTruthy, holds,
    whilePass, PassMode.ofVerdict, Entries.insertAll, Rendering.eval]

theorem runBlock_while_false {cursor : TableCursor} {outer : List TableCursor}
    (sound : (r.eval s condition).isError = false) (fails : (r.eval s condition).truthy = false) :
    runBlock r body "while" Block.whileLoop [(none, condition)] cursor outer s =
      ⟨{ cursor with settled := false } :: outer, s⟩ := by
  have fails : (condition.eval (r.env s)).truthy = false := fails
  refine runBlock_of_discard (eval_condition sound) ?_
  simp [Behaviour.enter, Block.whileLoop, Block.firstTruthy, fails]

/-- From the first round on. The induction is on how many more are allowed. -/
theorem rounds_while (filled : below ≠ []) (holds : (r.eval s condition).truthy = true)
    (halts : Halts r
      (enter r body encoder [] (some (whilePass condition entered index left)) below s)) :
    ∃ rounds last final,
      Rounds r body encoder below
        (enter r body encoder [] (some (whilePass condition entered index left)) below s) s rounds
        last final ∧
      AllHold r condition rounds ∧
      WhileEnds r condition (left + 1) below rounds.length final last := by
  induction left generalizing index s with
  | zero =>
    obtain ⟨s', walks⟩ := exists_walks filled halts
    refine ⟨_, _, s', .cons walks (.nil _ _), .cons holds (List.forall_mem_nil _), ?_⟩
    rw [leave_while_limit]
    exact .limited rfl
  | succ left ih =>
    obtain ⟨s', walks⟩ := exists_walks filled halts
    have next := halts.of_reaches walks.reaches
    have one : AllHold r condition [(s, [])] := .cons holds (List.forall_mem_nil _)
    cases sound : (r.eval s' condition).isError with
    | true =>
      obtain ⟨e, failed⟩ := Value.eq_error_of_isError sound
      refine ⟨_, _, s', .cons walks (.nil _ _), one, ?_⟩
      rw [leave_while_error failed]
      exact .error (Nat.succ_lt_succ (Nat.succ_pos left)) failed
    | false =>
      cases again : (r.eval s' condition).truthy with
      | false =>
        refine ⟨_, _, s', .cons walks (.nil _ _), one, ?_⟩
        rw [leave_while_false sound again]
        exact .fails (Nat.succ_lt_succ (Nat.succ_pos left)) sound again
      | true =>
        rw [leave_while_true sound again] at next
        obtain ⟨rounds, last, final, more, all, ends⟩ := ih again next
        rw [← leave_while_true sound again] at more
        exact ⟨_, last, final, .cons walks more, .cons holds all, ends.succ⟩

end Leaving

end Machine

namespace Template

open Machine (Reaches start Rounds AllHold WhileEnds)

/-- A loop with a condition runs as long as its condition is true, if it is allowed to. At each
place where a walk comes to a `while`, in whatever scope and splice, the condition is evaluated
where the loop stands and again in each state that a round left. The body is walked once in each
round, before each of which the condition is true, and in a frame without variables. If the
condition is false before all the rounds that are allowed are used up, the loop records nothing; if
they are used up, it records the limit, whatever the condition is by then. One round is allowed
where the limit is zero. -/
theorem while_rounds {t : Template} (assembled : Assembled ParsedCore t) (context : Context)
    (config : Config) (encoder : Encoder) {cursor : TableCursor} {outer : List TableCursor}
    {s : RenderState} {chained : Bool} {behaviour : Behaviour} {args : Tuple} {tail : List Node}
    (met : Reaches ⟨t, context, config⟩ (start ⟨t, context, config⟩ encoder) ⟨cursor :: outer, s⟩)
    (here : cursor.rest = .block "while" chained behaviour args :: tail) :
    ∃ condition body rest first rounds last left settled,
      cursor.rest = .block "while" false Block.whileLoop [(none, condition)] ::
        .scope (some body) :: rest ∧
      Machine.step ⟨t, context, config⟩ ⟨cursor :: outer, s⟩ = some first ∧
      Rounds ⟨t, context, config⟩ body cursor.encoder
        ({ cursor with rest, settled := true } :: outer) first
        (Rendering.trimLine ⟨t, context, config⟩ s) rounds last left ∧
      AllHold ⟨t, context, config⟩ condition rounds ∧
      WhileEnds ⟨t, context, config⟩ condition (max config.maxLoopPasses 1)
        ({ cursor with rest, settled } :: outer) rounds.length left last := by
  obtain ⟨body, rest, declared, same, made, halts⟩ :=
    assembled.exists_block met here ⟨by decide, by decide⟩
  obtain ⟨condition, rfl, rfl⟩ := made.eq_of_while rfl
  let r : Rendering := ⟨t, context, config⟩
  have step : Machine.step r ⟨cursor :: outer, s⟩ = some (Machine.runBlock r body "while"
      Block.whileLoop [(none, condition)] { cursor with rest } outer (r.trimLine s)) := by
    simp [Machine.step, Machine.advance, same]
  have allowed : config.maxLoopPasses - 1 + 1 = max config.maxLoopPasses 1 := by omega
  have room : 0 < max config.maxLoopPasses 1 := by omega
  cases sound : (r.eval (r.trimLine s) condition).isError with
  | true =>
    obtain ⟨e, failed⟩ := Value.eq_error_of_isError sound
    rw [Machine.runBlock_of_error (eval_condition_error failed)] at step
    exact ⟨condition, body, rest, _, [], _, _, true, same, step, .nil _ _, List.forall_mem_nil _,
      .error room failed⟩
  | false =>
    cases holds : (r.eval (r.trimLine s) condition).truthy with
    | false =>
      rw [Machine.runBlock_while_false sound holds] at step
      exact ⟨condition, body, rest, _, [], _, _, false, same, step, .nil _ _,
        List.forall_mem_nil _, .fails room sound holds⟩
    | true =>
      rw [Machine.runBlock_while_true sound holds] at step
      obtain ⟨rounds, last, left, walked, all, ends⟩ :=
        Machine.rounds_while (List.cons_ne_nil _ _) holds (halts.of_reaches (.single step))
      rw [allowed] at ends
      exact ⟨condition, body, rest, _, rounds, last, left, true, same, step, walked, all, ends⟩

/-- A loop that would never end, allowed two rounds. -/
theorem while_rounds_limited : ∃ page : Template,
    parse .core {} "page" "#while(true):x#endwhile" = .ok page ∧
      ∃ condition body rest first rounds last left settled,
        page.table 0 = .block "while" false Block.whileLoop [(none, condition)] ::
          .scope (some body) :: rest ∧
        Rounds ⟨page, ⟨[], []⟩, { maxLoopPasses := 2 }⟩ body .identity
          [{ table := 0, rest, encoder := .identity, settled := true }] first
          (Rendering.trimLine ⟨page, ⟨[], []⟩, { maxLoopPasses := 2 }⟩
            (({} : RenderState).openFrame [])) rounds last left ∧
        AllHold ⟨page, ⟨[], []⟩, { maxLoopPasses := 2 }⟩ condition rounds ∧
        WhileEnds ⟨page, ⟨[], []⟩, { maxLoopPasses := 2 }⟩ condition 2
          [{ table := 0, rest, encoder := .identity, settled }] rounds.length left last := by
  have starts : ((parse .core {} "page" "#while(true):x#endwhile").toOption.any
      fun page => (page.table 0).head?.bind (Node.chainHead none) == some "while") = true := by
    decide +kernel
  cases parsed : parse .core {} "page" "#while(true):x#endwhile" with
  | error failure =>
    rw [parsed] at starts
    cases starts
  | ok page =>
    rw [parsed] at starts
    obtain ⟨chained, behaviour, args, tail, here⟩ :=
      Node.exists_of_chainHead (beq_iff_eq.mp starts)
    have assembled : page.Assembled ParsedCore := .given ⟨_, _, _, parsed⟩
    obtain ⟨condition, body, rest, first, rounds, last, left, settled, eq, -, walked, all, ends⟩ :=
      while_rounds assembled ⟨[], []⟩ { maxLoopPasses := 2 } .identity .refl here
    exact ⟨page, rfl, condition, body, rest, first, rounds, last, left, settled, eq, walked, all,
      ends⟩

/-- A loop that ends after three rounds. Where three are allowed the limit is recorded. -/
theorem limit_recorded_without_excess :
    ((parse .core {} "page" "#(var i = 0)#while(i < 3):#(i)#(i += 1)#endwhile").toOption.any
      fun page =>
        Rendering.render ⟨page, ⟨[], []⟩, { maxLoopPasses := 4 }⟩ .identity = .ok "012" &&
        Rendering.render ⟨page, ⟨[], []⟩, { maxLoopPasses := 3 }⟩ .identity =
          .error (.passLimit "while" 3)) = true := by
  decide +kernel

end Template

end Stencil
