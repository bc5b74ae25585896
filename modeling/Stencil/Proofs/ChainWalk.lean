import Stencil.Proofs.ChainLayout
import Stencil.Proofs.ScopeWalks
import Stencil.Template.Printer

/-!
# How a conditional chain is passed

A run that passes a conditional chain, told by the machines it goes through: what the cursor in
front of the chain evaluates, and which scopes end directly above it. The scope of a body is left
once in a pass (`Walks.passes`), the links behind the one that was run are skipped
(`passes_settled`), and so a chain runs the body of its first true condition and no other
(`Template.chain_selects`).
-/

namespace Stencil

namespace Machine

/-- What is evaluated at a cursor above so many others. -/
def readAt (depth : Nat) (ms : List Machine) : List Expr :=
  (ms.filter fun m => m.cursors.length = depth + 1).flatMap reads

/-- The tables that are walked to their end above so many cursors. -/
def walkedAt (depth : Nat) (ms : List Machine) : List Nat := ms.filterMap (endedAt? depth)

/-- A run that stays above some cursors, with what is evaluated at the cursor directly above them
and the tables that are walked directly above that. -/
def Passes (r : Rendering) (outer : List TableCursor) (m : Machine) (read : List Expr)
    (walked : List Nat) (m' : Machine) : Prop :=
  ∃ ms, Path r m ms m' ∧ (∀ site ∈ ms, ∃ cursor upper, site.cursors = upper ++ cursor :: outer) ∧
    readAt outer.length ms = read ∧ walkedAt (outer.length + 1) ms = walked

variable {r : Rendering}

namespace Passes

variable {outer : List TableCursor} {m m' m'' : Machine} {read read' : List Expr}
  {walked walked' : List Nat}

theorem refl (m : Machine) : Passes r outer m [] [] m :=
  ⟨[], .nil m, by simp, rfl, rfl⟩

theorem trans (h : Passes r outer m read walked m')
    (more : Passes r outer m' read' walked' m'') :
    Passes r outer m (read ++ read') (walked ++ walked') m'' := by
  obtain ⟨ms, path, above, rfl, rfl⟩ := h
  obtain ⟨ms', path', above', rfl, rfl⟩ := more
  refine ⟨ms ++ ms', path.append path', fun site mem => ?_, ?_, ?_⟩
  · rcases List.mem_append.mp mem with mem | mem
    · exact above site mem
    · exact above' site mem
  · simp [readAt]
  · simp [walkedAt]

/-- A step at the cursor directly above. -/
theorem step {cursor : TableCursor} {node : Node} {rest : List Node} {s : RenderState}
    (filled : cursor.rest = node :: rest)
    (step : Machine.step r ⟨cursor :: outer, s⟩ = some m') :
    Passes r outer ⟨cursor :: outer, s⟩ (reads ⟨cursor :: outer, s⟩) [] m' := by
  refine ⟨[_], .cons step (.nil _), ?_, ?_, ?_⟩
  · intro site mem
    cases List.mem_singleton.mp mem
    exact ⟨cursor, [], rfl⟩
  · simp [readAt]
  · obtain ⟨table, rest', encoder, place, settled, pass⟩ := cursor
    cases filled
    rfl

end Passes

/-- A scope that is walked in a pass is left once. -/
theorem Walks.passes {table : Nat} {encoder : Encoder} {cursor : TableCursor}
    {outer : List TableCursor} {pass : Pass} {s s' : RenderState}
    (h : Walks r table encoder (cursor :: outer) pass s s') :
    Passes r outer (enter r table encoder pass.run.bindings (some pass) (cursor :: outer) s) []
      [table] (leave r table encoder (some pass) (cursor :: outer) s') := by
  obtain ⟨ms, inner, ended, path, above, rfl, ends, -, step⟩ := h
  let last : Machine := ⟨inner :: cursor :: outer, ended⟩
  have sites : ∀ site ∈ ms ++ [last], ∃ upper top, site.cursors = upper ++ top :: cursor :: outer :=
    List.forall_mem_append.mpr
      ⟨fun site mem => (above site mem).2, List.forall_mem_singleton.mpr ⟨[], inner, rfl⟩⟩
  refine ⟨ms ++ [last], path.append (.cons step (.nil _)), fun site mem => ?_, ?_, ?_⟩
  · obtain ⟨upper, top, eq⟩ := sites site mem
    exact ⟨cursor, upper ++ [top], by simp [eq]⟩
  · have higher : ∀ site ∈ ms ++ [last], ¬site.cursors.length = outer.length + 1 := by
      intro site mem
      obtain ⟨upper, top, eq⟩ := sites site mem
      simp [eq]
      omega
    rw [readAt, List.filter_eq_nil_iff.mpr (by simpa using higher)]
    rfl
  · have before : ms.filterMap (endedAt? (outer.length + 1)) = [] :=
      List.filterMap_eq_nil_iff.mpr fun site mem => (above site mem).1
    have here : endedAt? (outer.length + 1) last = some inner.table := endedAt?_of_end ends
    simp [walkedAt, before, here]

section Links

variable {cursor : TableCursor} {outer : List TableCursor} {s : RenderState} {name : String}
  {goesOn : Bool} {behaviour : Behaviour} {args : Tuple} {body : Nat} {rest : List Node}

/-- A link of a chain that is settled is passed over. -/
theorem passes_skip
    (here : cursor.rest = .block name true behaviour args :: .scope (some body) :: rest)
    (settled : cursor.settled = true) :
    Passes r outer ⟨cursor :: outer, s⟩ [] [] ⟨{ cursor with rest } :: outer, r.trimLine s⟩ := by
  have step : step r ⟨cursor :: outer, s⟩ = some ⟨{ cursor with rest } :: outer, r.trimLine s⟩ := by
    simp [Machine.step, advance, here, settled]
  have passes := Passes.step here step
  have none : reads ⟨cursor :: outer, s⟩ = [] := by
    simp [reads, here, settled]
  rwa [none] at passes

/-- A link of a chain that is not settled evaluates its arguments. -/
theorem passes_link (here : cursor.rest =
      .block name goesOn behaviour args :: .scope (some body) :: rest)
    (runs : (goesOn && cursor.settled) = false) :
    Passes r outer ⟨cursor :: outer, s⟩ args.values []
      (runBlock r body name behaviour args { cursor with rest } outer (r.trimLine s)) := by
  have step : step r ⟨cursor :: outer, s⟩ =
      some (runBlock r body name behaviour args { cursor with rest } outer (r.trimLine s)) := by
    simp [Machine.step, advance, here, runs]
  have passes := Passes.step here step
  have read : reads ⟨cursor :: outer, s⟩ = args.values := by
    simp only [reads, here, runs]
    rfl
  rwa [read] at passes

theorem runBlock_of_error {e : EvalError} (failed : args.eval (r.env s) = .error e) :
    runBlock r body name behaviour args cursor outer s =
      ⟨{ cursor with settled := true } :: outer, s.record e⟩ := by
  simp only [runBlock, failed]

theorem runBlock_of_discard {values : List Value} (given : args.eval (r.env s) = .ok values)
    (discards : (behaviour.enter {} values).1 = .discard) :
    runBlock r body name behaviour args cursor outer s =
      ⟨{ cursor with settled := false } :: outer, s⟩ := by
  simp only [runBlock, given]
  split
  · rfl
  · rename_i differs entered
    rw [entered] at discards
    exact (differs discards).elim

/-- A link that runs its body once settles the chain. -/
theorem passes_body (halts : Halts r ⟨cursor :: outer, s⟩) (here : cursor.rest =
      .block name goesOn behaviour args :: .scope (some body) :: rest)
    (runs : (goesOn && cursor.settled) = false) (values : List Value) {run : Run}
    (given : args.eval (r.env s) = .ok values) (once : behaviour.enter {} values = (.once, run)) :
    ∃ s', Passes r outer ⟨cursor :: outer, s⟩ args.values [body]
      ⟨{ cursor with rest, settled := true } :: outer, s'⟩ := by
  have first : Passes r outer ⟨cursor :: outer, s⟩ args.values [] _ := passes_link here runs
  have entered : runBlock r body name behaviour args { cursor with rest } outer (r.trimLine s) =
      enter r body cursor.encoder run.bindings (some ⟨name, behaviour, args, run, .once⟩)
        ({ cursor with rest, settled := true } :: outer) (r.trimLine s) := by
    simp [runBlock, r.env_trimLine, given, once, PassMode.ofVerdict]
  rw [entered] at first
  obtain ⟨ms, path, -⟩ := id first
  obtain ⟨s', walks⟩ : ∃ s', Walks r body cursor.encoder
      ({ cursor with rest, settled := true } :: outer) ⟨name, behaviour, args, run, .once⟩
      (r.trimLine s) s' := exists_walks (List.cons_ne_nil _ _) (halts.of_reaches path.reaches)
  refine ⟨s', ?_⟩
  have whole := first.trans walks.passes
  rwa [List.append_nil, List.nil_append] at whole

end Links

/-- The further links of a chain that is settled are passed over. -/
theorem passes_settled (outer : List TableCursor) {rest : List Node} (otherwise : Option Nat)
    (conditions : List (Expr × Nat)) (cursor : TableCursor) (s : RenderState)
    (here : cursor.rest = chainNodes true otherwise conditions ++ rest)
    (settled : cursor.settled = true) : ∃ s',
      Passes r outer ⟨cursor :: outer, s⟩ [] [] ⟨{ cursor with rest } :: outer, s'⟩ ∧
        s'.errors = s.errors := by
  induction conditions generalizing cursor s with
  | nil =>
    cases otherwise with
    | none =>
      obtain ⟨table, _, encoder, place, _, pass⟩ := cursor
      cases here
      exact ⟨s, .refl _, rfl⟩
    | some body => exact ⟨_, passes_skip here settled, r.errors_trimLine⟩
  | cons condition conditions ih =>
    obtain ⟨s', more, same⟩ := ih
      { cursor with rest := chainNodes true otherwise conditions ++ rest }
      (r.trimLine s) rfl settled
    exact ⟨s', (passes_skip here settled).trans more, same.trans r.errors_trimLine⟩

end Machine

/-- What a chain comes to where variables have these values: the conditions that are evaluated, and
the table of the body that is run, or the error of the last condition. -/
def chooseLink (env : Env) (otherwise : Option Nat) :
    List (Expr × Nat) → List Expr × Except EvalError (Option Nat)
  | [] => ([], .ok otherwise)
  | (condition, body) :: more =>
    match condition.eval env with
    | .error e => ([condition], .error e)
    | value =>
      if value.truthy then ([condition], .ok (some body))
      else
        let (evaluated, outcome) := chooseLink env otherwise more
        (condition :: evaluated, outcome)

section Choice

variable {env : Env} {otherwise : Option Nat} {condition : Expr} {body : Nat}
  {more : List (Expr × Nat)}

theorem chooseLink_error {e : EvalError} (failed : condition.eval env = .error e) :
    chooseLink env otherwise ((condition, body) :: more) = ([condition], .error e) := by
  simp only [chooseLink, failed]

theorem chooseLink_true (sound : (condition.eval env).isError = false)
    (holds : (condition.eval env).truthy = true) :
    chooseLink env otherwise ((condition, body) :: more) = ([condition], .ok (some body)) := by
  unfold chooseLink
  split
  · rename_i failed
    rw [failed] at sound
    cases sound
  · exact if_pos holds

theorem chooseLink_false (sound : (condition.eval env).isError = false)
    (fails : (condition.eval env).truthy = false) :
    chooseLink env otherwise ((condition, body) :: more) =
      (condition :: (chooseLink env otherwise more).1, (chooseLink env otherwise more).2) := by
  conv => lhs; unfold chooseLink
  split
  · rename_i failed
    rw [failed] at sound
    cases sound
  · rw [fails]
    rfl

theorem eval_condition_error {e : EvalError} (failed : condition.eval env = .error e) :
    Tuple.eval env [(none, condition)] = .error e := by
  simp only [Tuple.eval, Expr.evalItems, failed]

theorem eval_condition (sound : (condition.eval env).isError = false) :
    Tuple.eval env [(none, condition)] = .ok [condition.eval env] := by
  simp only [Tuple.eval, Expr.evalItems]
  split
  · rename_i failed
    rw [failed] at sound
    cases sound
  · rfl

end Choice

/-- The tables that are walked for an outcome of a chain. -/
def walkedFor : Except EvalError (Option Nat) → List Nat
  | .ok chosen => chosen.toList
  | .error _ => []

namespace Machine

/-- A chain evaluates its conditions up to the one that decides, and runs the body of its choice.
The induction is on the conditions, of which all before were false. -/
theorem passes_chain {outer : List TableCursor} {rest : List Node} (otherwise : Option Nat)
    (conditions : List (Expr × Nat)) {goesOn : Bool} {cursor : TableCursor} {s : RenderState}
    (here : cursor.rest = chainNodes goesOn otherwise conditions ++ rest)
    (runs : (goesOn && cursor.settled) = false) (halts : Halts r ⟨cursor :: outer, s⟩) :
    ∃ settled s', Passes r outer ⟨cursor :: outer, s⟩ (chooseLink (r.env s) otherwise conditions).1
        (walkedFor (chooseLink (r.env s) otherwise conditions).2)
        ⟨{ cursor with rest, settled } :: outer, s'⟩ ∧
      (∀ e, (chooseLink (r.env s) otherwise conditions).2 = .error e → s'.errors = e :: s.errors) ∧
      ((chooseLink (r.env s) otherwise conditions).2 = .ok none → s'.errors = s.errors) := by
  induction conditions generalizing goesOn cursor s with
  | nil =>
    cases otherwise with
    | none =>
      refine ⟨cursor.settled, s, ?_, by rintro _ ⟨⟩, fun _ => rfl⟩
      obtain ⟨table, _, encoder, place, _, pass⟩ := cursor
      cases here
      exact .refl _
    | some body =>
      obtain ⟨s', passes⟩ := passes_body halts here runs [] rfl rfl
      exact ⟨true, s', passes, by rintro _ ⟨⟩, by rintro ⟨⟩⟩
  | cons link conditions ih =>
    obtain ⟨condition, body⟩ := link
    -- the cursor behind the first link
    let behind : TableCursor :=
      { cursor with rest := chainNodes true otherwise conditions ++ rest }
    have first : Passes r outer ⟨cursor :: outer, s⟩ [condition] []
        (runBlock r body _ Block.condition [(none, condition)] behind outer (r.trimLine s)) :=
      passes_link here runs
    cases sound : (condition.eval (r.env s)).isError with
    | true =>
      obtain ⟨e, failed⟩ := Value.eq_error_of_isError sound
      rw [runBlock_of_error (r.env_trimLine s ▸ eval_condition_error failed)] at first
      obtain ⟨s', more, same⟩ := passes_settled outer otherwise conditions
        { behind with settled := true } ((r.trimLine s).record e) rfl rfl
      rw [chooseLink_error failed]
      refine ⟨true, s', first.trans more, ?_, by rintro ⟨⟩⟩
      rintro _ ⟨⟩
      exact same.trans (congrArg (e :: ·) r.errors_trimLine)
    | false =>
      have values := eval_condition sound
      cases holds : (condition.eval (r.env s)).truthy with
      | true =>
        have once : Block.condition.enter {} [condition.eval (r.env s)] =
            (.once, ⟨[condition.eval (r.env s)], 0, []⟩) := by
          simp [Behaviour.enter, Block.condition, Block.firstTruthy, holds, Entries.insertAll]
        obtain ⟨s', walked⟩ := passes_body halts here runs _ values once
        obtain ⟨s'', more, -⟩ := passes_settled outer otherwise conditions
          { behind with settled := true } s' rfl rfl
        rw [chooseLink_true sound holds]
        exact ⟨true, s'', walked.trans more, by rintro _ ⟨⟩, by rintro ⟨⟩⟩
      | false =>
        have discards : (Block.condition.enter {} [condition.eval (r.env s)]).1 = .discard := by
          simp [Behaviour.enter, Block.condition, Block.firstTruthy, holds]
        rw [runBlock_of_discard (r.env_trimLine s ▸ values) discards] at first
        obtain ⟨ms, path, -⟩ := id first
        obtain ⟨settled, s', more, failed, none⟩ :=
          ih rfl rfl (halts.of_reaches path.reaches)
        rw [r.env_trimLine, r.errors_trimLine] at *
        rw [chooseLink_false sound holds]
        exact ⟨settled, s', first.trans more, failed, none⟩

end Machine

namespace Template

open Machine (Reaches Passes start)

/-- A conditional chain runs the body of its first true condition. At each place where a walk comes
to an `if`, in whatever scope and splice, stands a whole chain, and the walk passes it: it evaluates
the conditions in order and none behind the one that decides. It walks the body of the first one
that is true, once, else the body of an `else` if there is one, and no other body of the chain. It
walks none if a condition fails first, and records that error. -/
theorem chain_selects {t : Template} (assembled : Assembled ParsedCore t) (context : Context)
    (config : Config) (encoder : Encoder) {cursor : TableCursor} {outer : List TableCursor}
    {s : RenderState} {chained : Bool} {behaviour : Behaviour} {args : Tuple} {tail : List Node}
    (met : Reaches ⟨t, context, config⟩ (start ⟨t, context, config⟩ encoder) ⟨cursor :: outer, s⟩)
    (here : cursor.rest = .block "if" chained behaviour args :: tail) :
    ∃ otherwise conditions rest settled s',
      cursor.rest = chainNodes false otherwise conditions ++ rest ∧ conditions ≠ [] ∧
      EndsChain rest ∧
      Passes ⟨t, context, config⟩ outer ⟨cursor :: outer, s⟩
        (chooseLink (Rendering.env ⟨t, context, config⟩ s) otherwise conditions).1
        (walkedFor (chooseLink (Rendering.env ⟨t, context, config⟩ s) otherwise conditions).2)
        ⟨{ cursor with rest, settled } :: outer, s'⟩ ∧
      (∀ e, (chooseLink (Rendering.env ⟨t, context, config⟩ s) otherwise conditions).2 = .error e →
        s'.errors = e :: s.errors) ∧
      ((chooseLink (Rendering.env ⟨t, context, config⟩ s) otherwise conditions).2 = .ok none →
        s'.errors = s.errors) := by
  have layout : t.Layout := (assembled.mono fun _ given => given.parsed).layout
  obtain ⟨known, covered⟩ := assembled.covered
  have stands := (Machine.stacked_of_reaches layout.forward met).stands List.mem_cons_self
  rw [here] at stands
  obtain ⟨otherwise, conditions, rest, eq, filled, ends⟩ :=
    exists_chain covered assembled.linked layout stands
  have halts : Machine.Halts ⟨t, context, config⟩ ⟨cursor :: outer, s⟩ :=
    ⟨_, Machine.reaches_end (Machine.reaches_walk layout.forward encoder) rfl met, rfl⟩
  obtain ⟨settled, s', passes, failed, none⟩ :=
    Machine.passes_chain otherwise conditions (here.trans eq) rfl halts
  exact ⟨otherwise, conditions, rest, settled, s', here.trans eq, filled, ends, passes, failed,
    none⟩

/-- A chain at the start of a page. -/
theorem chain_selects_first : ∃ page : Template,
    parse .core {} "page" "#if(a):x#elseif(true):y#else:z#endif" = .ok page ∧
      ∃ otherwise conditions rest settled s',
        page.table 0 = chainNodes false otherwise conditions ++ rest ∧ conditions ≠ [] ∧
          Passes ⟨page, ⟨[], []⟩, {}⟩ [] (start ⟨page, ⟨[], []⟩, {}⟩ .identity)
            (chooseLink (Rendering.env ⟨page, ⟨[], []⟩, {}⟩ (({} : RenderState).openFrame []))
              otherwise conditions).1
            (walkedFor (chooseLink
              (Rendering.env ⟨page, ⟨[], []⟩, {}⟩ (({} : RenderState).openFrame []))
              otherwise conditions).2)
            ⟨[{ table := 0, rest, encoder := .identity, settled }], s'⟩ := by
  have starts : ((parse .core {} "page" "#if(a):x#elseif(true):y#else:z#endif").toOption.any
      fun page => (page.table 0).head?.bind (Node.chainHead none) == some "if") = true := by
    decide +kernel
  cases parsed : parse .core {} "page" "#if(a):x#elseif(true):y#else:z#endif" with
  | error failure =>
    rw [parsed] at starts
    cases starts
  | ok page =>
    rw [parsed] at starts
    obtain ⟨chained, behaviour, args, tail, here⟩ : ∃ chained behaviour args tail,
        page.table 0 = .block "if" chained behaviour args :: tail := by
      cases nodes : page.table 0 with
      | nil => simp [Option.any, Except.toOption, nodes] at starts
      | cons node tail =>
        simp only [Except.toOption, Option.any_some, nodes, List.head?_cons, Option.bind_some,
          beq_iff_eq] at starts
        cases node with
        | block name chained behaviour args =>
          cases chained with
          | false =>
            cases starts
            exact ⟨_, _, _, _, rfl⟩
          | true => cases starts
        | _ => cases starts
    have assembled : page.Assembled ParsedCore := .given ⟨_, _, _, parsed⟩
    obtain ⟨otherwise, conditions, rest, settled, s', eq, filled, -, passes, -⟩ :=
      chain_selects assembled ⟨[], []⟩ {} .identity .refl here
    exact ⟨page, rfl, otherwise, conditions, rest, settled, s', eq, filled, passes⟩

end Template

end Stencil
