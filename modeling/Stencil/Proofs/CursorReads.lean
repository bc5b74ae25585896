import Stencil.Proofs.CursorMachine

/-!
# What a step evaluates

The expressions that the next step of a machine evaluates, and the state it evaluates them in. A
step depends on the context through these expressions alone.
-/

namespace Stencil

namespace Machine

/-- The expressions that a node evaluates. -/
def evaluates (s : RenderState) : Node → List Expr
  | .output e => [e]
  | .declare _ _ value => value.toList
  | .assign v op value => value :: if op.compoundBase?.isSome then [.var v] else []
  | .evaluate name default =>
    match s.definition? name with
    | some (.value e) => [e]
    | some (.body _) => []
    | none => default.toList
  | _ => []

/-- The expressions that the end of a scope evaluates: the arguments of a block without a count,
which may want another pass. -/
def evaluatesAgain (outer : List TableCursor) (pass : Option Pass) : List Expr :=
  match outer, pass with
  | _ :: _, some ⟨_, _, args, _, .indefinite (_ + 1)⟩ => args.values
  | _, _ => []

/-- The expressions that the next step evaluates. -/
def reads (m : Machine) : List Expr :=
  match m.cursors with
  | [] => []
  | cursor :: outer =>
    match cursor.rest with
    | [] => evaluatesAgain outer cursor.pass
    | .block _ chained _ args :: .scope (some _) :: _ =>
      if chained && cursor.settled then [] else args.values
    | node :: _ => evaluates m.state node

/-- The state in which the next step evaluates: at the end of a scope its frame is gone. -/
def readState (m : Machine) : RenderState :=
  match m.cursors with
  | ⟨_, [], _, _, _, _⟩ :: _ => m.state.closeFrame
  | _ => m.state

end Machine

theorem Expr.evalItems_congr {env env' : Env} {items : List (Option String × Expr)}
    (same : ∀ item ∈ items, item.2.eval env' = item.2.eval env) :
    evalItems env' items = evalItems env items := by
  induction items with
  | nil => rfl
  | cons item items ih =>
    have rest := ih fun item mem => same item (.tail _ mem)
    simp only [evalItems, same item List.mem_cons_self, rest]

namespace Rendering

variable (r : Rendering)

theorem env_trimLine (s : RenderState) : r.env (r.trimLine s) = r.env s := by
  unfold env RenderState.local?
  rw [frames_trimLine]

theorem eval_trimLine (s : RenderState) (e : Expr) : r.eval (r.trimLine s) e = r.eval s e := by
  unfold eval
  rw [env_trimLine]

end Rendering

namespace Machine

variable {r : Rendering} {context : Context} {s : RenderState}

/-- The same rendering with another context. -/
abbrev within (r : Rendering) (context : Context) : Rendering := { r with context }

theorem args_congr {args : Tuple}
    (same : ∀ e ∈ args.values, (within r context).eval s e = r.eval s e) :
    args.eval ((within r context).env s) = args.eval (r.env s) :=
  Expr.evalItems_congr fun item mem => same item.2 (List.mem_map.mpr ⟨item, mem, rfl⟩)

theorem walkNode_congr (encoder : Encoder) {node : Node}
    (same : ∀ e ∈ evaluates s node, (within r context).eval s e = r.eval s e) :
    (within r context).walkNode (fun _ _ _ s => s) encoder node s =
      r.walkNode (fun _ _ _ s => s) encoder node s := by
  have trim : (within r context).trimLine s = r.trimLine s := rfl
  cases node with
  | output e =>
    have value := same e List.mem_cons_self
    simp only [Rendering.walkNode, value]
    rfl
  | declare name constant value =>
    cases value with
    | none => rfl
    | some e =>
      have value := same e List.mem_cons_self
      rw [← Rendering.eval_trimLine, ← Rendering.eval_trimLine r, trim] at value
      simp only [Rendering.walkNode, Rendering.declare, Option.map_some, trim, value]
  | assign v op value =>
    have given := same value List.mem_cons_self
    rw [← Rendering.eval_trimLine, ← Rendering.eval_trimLine r, trim] at given
    have assigned : (within r context).assigned v op value (r.trimLine s) =
        r.assigned v op value (r.trimLine s) := by
      simp only [Rendering.assigned, given]
      cases base : op.compoundBase? with
      | none => cases r.eval (r.trimLine s) value <;> rfl
      | some operator =>
        have old := same (.var v) (by simp [evaluates, base])
        rw [← Rendering.eval_trimLine, ← Rendering.eval_trimLine r, trim] at old
        simp only [old]
    simp only [Rendering.walkNode, Rendering.assign, trim, assigned]
  | evaluate name default =>
    simp only [evaluates] at same
    simp only [Rendering.walkNode, Rendering.evaluate]
    cases found : s.definition? name with
    | none =>
      rw [found] at same
      cases default with
      | none => rfl
      | some e =>
        have value := same e List.mem_cons_self
        simp only [Option.map_some, value]
        rfl
    | some definition =>
      rw [found] at same
      cases definition with
      | value e =>
        have value := same e List.mem_cons_self
        simp only [value]
        rfl
      | body table => rfl
  | define name value => cases value <;> rfl
  | _ => rfl

theorem leave_congr {table : Nat} {encoder : Encoder} {cursor : TableCursor}
    {outer : List TableCursor} {pass : Option Pass}
    (same : ∀ e ∈ evaluatesAgain (cursor :: outer) pass,
      (within r context).eval s e = r.eval s e) :
    leave (within r context) table encoder pass (cursor :: outer) (r.trimLine s) =
      leave r table encoder pass (cursor :: outer) (r.trimLine s) := by
  cases pass with
  | none => rfl
  | some pass =>
    obtain ⟨name, behaviour, args, run, mode⟩ := pass
    cases mode with
    | once => rfl
    | counted left => cases left <;> rfl
    | indefinite left =>
      cases left with
      | zero => rfl
      | succ left =>
        have values := args_congr same
        rw [← Rendering.env_trimLine, ← Rendering.env_trimLine r] at values
        have trim : (within r context).trimLine s = r.trimLine s := rfl
        rw [trim] at values
        simp only [leave, values]
        rfl

theorem runBlock_congr {body : Nat} {name : String} {behaviour : Behaviour} {args : Tuple}
    {cursor : TableCursor} {outer : List TableCursor}
    (same : ∀ e ∈ args.values, (within r context).eval s e = r.eval s e) :
    runBlock (within r context) body name behaviour args cursor outer (r.trimLine s) =
      runBlock r body name behaviour args cursor outer (r.trimLine s) := by
  have values := args_congr same
  rw [← Rendering.env_trimLine, ← Rendering.env_trimLine r] at values
  have trim : (within r context).trimLine s = r.trimLine s := rfl
  rw [trim] at values
  simp only [runBlock, values]
  rfl

theorem advance_congr {cursor : TableCursor} {outer : List TableCursor}
    (same : ∀ e ∈ reads ⟨cursor :: outer, s⟩,
      (within r context).eval (readState ⟨cursor :: outer, s⟩) e =
        r.eval (readState ⟨cursor :: outer, s⟩) e) :
    advance (within r context) cursor outer s = advance r cursor outer s := by
  obtain ⟨table, rest, encoder, place, settled, pass⟩ := cursor
  unfold advance
  split
  · rename_i eq
    subst eq
    cases outer with
    | nil => rfl
    | cons cursor outer => exact leave_congr same
  · rename_i name chained behaviour args body rest eq
    subst eq
    split
    · rfl
    · rename_i runs
      simp only [reads, readState, if_neg runs] at same
      exact runBlock_congr same
  · rfl
  · rfl
  · rfl
  · rfl
  · rename_i node rest notBlock _ _ _ _ eq
    subst eq
    have reading : reads ⟨⟨table, node :: rest, encoder, place, settled, pass⟩ :: outer, s⟩ =
        evaluates s node := by
      simp only [reads]
    rw [reading] at same
    have walked := walkNode_congr encoder same
    dsimp only
    split
    · rfl
    · rw [walked]

/-- A step depends on the context only through what it evaluates. -/
theorem step_congr {m : Machine}
    (same : ∀ e ∈ reads m, (within r context).eval (readState m) e = r.eval (readState m) e) :
    step (within r context) m = step r m := by
  obtain ⟨cursors, s⟩ := m
  cases cursors with
  | nil => rfl
  | cons cursor outer => exact congrArg some (advance_congr same)

end Machine

end Stencil
