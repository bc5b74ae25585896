import Stencil.Proofs.CursorMachine
import Stencil.Proofs.ScopeArray

/-!
# The machine follows the walk

Where tables refer forward, a rendering has room for every scope it opens, and the machine comes to
the state that the recursive walk computes.
-/

namespace Stencil

namespace Machine

variable {r : Rendering}

/-- There is a frame for each cursor, and no scope was without room. -/
structure Balanced (m : Machine) : Prop where
  frames : m.state.frames.length = m.cursors.length
  room : m.state.exhausted = false

namespace Balanced

variable {outer : List TableCursor} {s s' : RenderState}

theorem of_quiet {cursors : List TableCursor} (h : Balanced ⟨outer, s⟩) (quiet : s.Quiet s')
    (same : cursors.length = outer.length) : Balanced ⟨cursors, s'⟩ := by
  have frames := quiet.1.trans h.frames
  have room := quiet.2.trans h.room
  exact ⟨frames.trans same.symm, room⟩

theorem enter (h : Balanced ⟨outer, s⟩) (table : Nat) (encoder : Encoder) (bindings : Bindings)
    (pass : Option Pass) : Balanced (Machine.enter r table encoder bindings pass outer s) :=
  ⟨congrArg Nat.succ h.frames, h.room⟩

theorem again (h : Balanced ⟨outer, s⟩) (table : Nat) (encoder : Encoder) (pass : Pass)
    (mode : PassMode) (values : List Value) :
    Balanced (Machine.again r table encoder pass mode values outer s) := by
  unfold Machine.again
  split
  · exact h
  · exact h.enter _ _ _ _

theorem leave (h : Balanced ⟨outer, s⟩) (table : Nat) (encoder : Encoder) (pass : Option Pass) :
    Balanced (Machine.leave r table encoder pass outer s) := by
  unfold Machine.leave
  split
  · exact h
  · split
    · exact h
    · exact h
    · exact h.again _ _ _ _ _
    · exact h.of_quiet ⟨rfl, rfl⟩ rfl
    · split
      · exact h.of_quiet ⟨rfl, rfl⟩ rfl
      · exact h.again _ _ _ _ _

theorem close {cursor : TableCursor} (h : Balanced ⟨cursor :: outer, s⟩) :
    Balanced (Machine.close r cursor outer s) := by
  have frames : s.closeFrame.frames.length = outer.length := by
    have := h.frames
    simp only [RenderState.closeFrame, List.length_tail, List.length_cons] at this ⊢
    omega
  have closed : Balanced ⟨outer, s.closeFrame⟩ := ⟨frames, h.room⟩
  unfold Machine.close
  split
  · rename_i last
    rw [List.isEmpty_iff.mp last] at closed
    exact closed
  · exact (closed.of_quiet r.quiet_trimLine rfl).leave _ _ _

theorem runBlock {cursor : TableCursor} (h : Balanced ⟨cursor :: outer, s⟩) (body : Nat)
    (name : String) (behaviour : Behaviour) (args : Tuple) :
    Balanced (Machine.runBlock r body name behaviour args cursor outer s) := by
  unfold Machine.runBlock
  split
  · exact h.of_quiet ⟨rfl, rfl⟩ rfl
  · split
    · exact h.of_quiet ⟨rfl, rfl⟩ rfl
    · have settled : Balanced ⟨{ cursor with settled := true } :: outer, s⟩ :=
        h.of_quiet ⟨rfl, rfl⟩ rfl
      exact settled.enter _ _ _ _

theorem advance {cursor : TableCursor} (h : Balanced ⟨cursor :: outer, s⟩) :
    Balanced (Machine.advance r cursor outer s) := by
  have passed {rest : List Node} {place : Option String} {s' : RenderState} (quiet : s.Quiet s') :
      Balanced ⟨{ cursor with rest, place } :: outer, s'⟩ := h.of_quiet quiet rfl
  unfold Machine.advance
  split
  · exact h.close
  · split
    · exact passed r.quiet_trimLine
    · exact (passed r.quiet_trimLine).runBlock _ _ _ _
  · have trimmed : s.Quiet (r.trimLine s) := r.quiet_trimLine
    have defined := RenderState.quiet_onTop (s := r.trimLine s)
    exact passed ⟨(defined _).1.trans trimmed.1, (defined _).2.trans trimmed.2⟩
  · exact (passed r.quiet_trimLine).enter _ _ _ _
  · exact (passed ⟨rfl, rfl⟩).enter _ _ _ _
  · exact passed ⟨rfl, rfl⟩
  · dsimp only
    split
    · exact (passed ⟨rfl, rfl⟩).enter _ _ _ _
    · exact passed (r.quiet_walkNode _ _)

end Balanced

theorem balanced_of_step {m m' : Machine} (h : Balanced m) (step : step r m = some m') :
    Balanced m' := by
  unfold Machine.step at step
  split at step
  · cases step
  · rename_i cursor outer cursors
    cases step
    have here : Balanced ⟨cursor :: outer, m.state⟩ := by
      rw [← cursors]
      exact h
    exact here.advance

/-- There are as many frames as cursors all the time. -/
theorem balanced_of_reaches {m m' : Machine} (h : Balanced m) (reaches : Reaches r m m') :
    Balanced m' := by
  induction reaches with
  | refl => exact h
  | tail _ step ih => exact balanced_of_step ih step

theorem balanced_start (encoder : Encoder) : Balanced (start r encoder) := by
  have initial : Balanced ⟨[], {}⟩ := ⟨rfl, rfl⟩
  exact initial.enter _ _ _ _

theorem reaches_of_advance {cursor : TableCursor} {outer : List TableCursor} {s : RenderState}
    {m : Machine} (h : Reaches r (advance r cursor outer s) m) :
    Reaches r ⟨cursor :: outer, s⟩ m :=
  .head rfl h

/-- Below some number of scopes the machine walks a table as a function of the walk says, and goes
on with what follows the scope. -/
def Follows (r : Rendering) (scope : Nat → Encoder → Bindings → RenderState → RenderState)
    (table depth : Nat) : Prop :=
  ∀ encoder bindings pass outer s, outer ≠ [] → outer.length = depth → Balanced ⟨outer, s⟩ →
    Reaches r (enter r table encoder bindings pass outer s)
      (leave r table encoder pass outer (scope table encoder bindings s))

section Scopes

variable {scope : Nat → Encoder → Bindings → RenderState → RenderState} {table depth : Nat}
  {outer : List TableCursor} {s : RenderState}

theorem Follows.balanced (h : Follows r scope table depth) (nonempty : outer ≠ [])
    (deep : outer.length = depth) (balanced : Balanced ⟨outer, s⟩) (encoder : Encoder)
    (bindings : Bindings) : Balanced ⟨outer, scope table encoder bindings s⟩ :=
  balanced_of_reaches (balanced.enter _ _ _ _)
    (h encoder bindings none outer s nonempty deep balanced)

/-- Passes that are counted. -/
theorem reaches_counted (h : Follows r scope table depth) (nonempty : outer ≠ [])
    (deep : outer.length = depth) (balanced : Balanced ⟨outer, s⟩) (encoder : Encoder)
    {pass : Pass} {left : Nat} (mode : pass.mode = .counted left) :
    Reaches r (enter r table encoder pass.run.bindings (some pass) outer s)
      ⟨outer, Rendering.runCounted (scope table encoder) pass.behaviour left pass.run s⟩ := by
  induction left generalizing pass s with
  | zero =>
    have first := h encoder pass.run.bindings (some pass) outer s nonempty deep balanced
    simp only [leave, mode] at first
    exact first
  | succ left ih =>
    have first := h encoder pass.run.bindings (some pass) outer s nonempty deep balanced
    have next := h.balanced nonempty deep balanced encoder pass.run.bindings
    simp only [leave, mode, again] at first
    simp only [Rendering.runCounted]
    split
    · rename_i decided
      simp only [decided] at first
      exact first
    · rename_i verdict run notDiscard decided
      simp only [decided] at first
      have fewer : ({ pass with run, mode := .counted left } : Pass).mode = .counted left := rfl
      exact first.trans (ih next fewer)

/-- Passes as long as the arguments let them. -/
theorem reaches_indefinite (h : Follows r scope table depth) (nonempty : outer ≠ [])
    (deep : outer.length = depth) (balanced : Balanced ⟨outer, s⟩) (encoder : Encoder)
    {pass : Pass} {left : Nat} (mode : pass.mode = .indefinite left) :
    Reaches r (enter r table encoder pass.run.bindings (some pass) outer s)
      ⟨outer, r.runIndefinite (scope table encoder) pass.name pass.behaviour pass.args left
        pass.run s⟩ := by
  induction left generalizing pass s with
  | zero =>
    have first := h encoder pass.run.bindings (some pass) outer s nonempty deep balanced
    simp only [leave, mode] at first
    exact first
  | succ left ih =>
    have first := h encoder pass.run.bindings (some pass) outer s nonempty deep balanced
    have next := h.balanced nonempty deep balanced encoder pass.run.bindings
    simp only [leave, mode, again] at first
    simp only [Rendering.runIndefinite]
    split
    · rename_i error evaluated
      simp only [evaluated] at first
      exact first
    · rename_i values evaluated
      simp only [evaluated] at first
      split
      · rename_i decided
        simp only [decided] at first
        exact first
      · rename_i verdict run notDiscard decided
        simp only [decided] at first
        have fewer : ({ pass with run, mode := .indefinite left } : Pass).mode = .indefinite left :=
          rfl
        exact first.trans (ih next fewer)

/-- A block is run pass by pass. -/
theorem reaches_runBlock {cursor : TableCursor} (h : Follows r scope table (outer.length + 1))
    (balanced : Balanced ⟨cursor :: outer, s⟩) (name : String) (behaviour : Behaviour)
    (args : Tuple) :
    let ran := r.runBlock (scope table cursor.encoder) name behaviour args s
    Reaches r (runBlock r table name behaviour args cursor outer s)
      ⟨{ cursor with settled := ran.1 } :: outer, ran.2⟩ := by
  have nonempty : { cursor with settled := true } :: outer ≠ [] := List.cons_ne_nil _ _
  have settled : Balanced ⟨{ cursor with settled := true } :: outer, s⟩ :=
    balanced.of_quiet ⟨rfl, rfl⟩ rfl
  intro ran
  unfold runBlock
  cases evaluated : args.eval (r.env s) with
  | error e =>
    simp only [ran, Rendering.runBlock, evaluated]
    exact .refl
  | ok values =>
    rcases decided : behaviour.enter {} values with ⟨verdict, run⟩
    cases verdict with
    | discard =>
      simp only [ran, Rendering.runBlock, evaluated, decided]
      exact .refl
    | once =>
      simp only [ran, Rendering.runBlock, evaluated, decided, PassMode.ofVerdict]
      exact h cursor.encoder run.bindings _ _ s nonempty rfl settled
    | repeating passes =>
      have mode : (⟨name, behaviour, args, run, .counted (passes - 1)⟩ : Pass).mode =
        .counted (passes - 1) := rfl
      simp only [ran, Rendering.runBlock, evaluated, decided, PassMode.ofVerdict]
      exact reaches_counted h nonempty rfl settled cursor.encoder mode
    | indefinite =>
      have mode : (⟨name, behaviour, args, run, .indefinite (r.config.maxLoopPasses - 1)⟩ :
        Pass).mode = .indefinite (r.config.maxLoopPasses - 1) := rfl
      simp only [ran, Rendering.runBlock, evaluated, decided, PassMode.ofVerdict]
      exact reaches_indefinite h nonempty rfl settled cursor.encoder mode

theorem lt_of_bodyOf? {node : Node} {body : Nat} (h : bodyOf? s node = some body) :
    s.frames.length < maxScopeDepth := by
  unfold bodyOf? at h
  split at h
  · split at h
    · split at h
      · cases h
      · rename_i few
        exact Nat.lt_of_not_le few
    · cases h
  · cases h

/-- What is opened in a table: the scopes in it, and any definition's while few scopes are open. -/
def Opened (outer : List TableCursor) (nodes : List Node) (body : Nat) : Prop :=
  .scope (some body) ∈ nodes ∨ outer.length + 1 < maxScopeDepth

/-- The machine ends the table of its innermost cursor. -/
def Finishes (r : Rendering) (m : Machine) (written : Nat) (encoder : Encoder) (pass : Option Pass)
    (outer : List TableCursor) (s : RenderState) : Prop :=
  ∃ place settled, Reaches r m ⟨⟨written, [], encoder, place, settled, pass⟩ :: outer, s⟩

theorem Finishes.of_reaches {m m' : Machine} {nodes rest : List Node} {written : Nat}
    {encoder : Encoder} {pass : Option Pass} (balanced : Balanced m) (reaches : Reaches r m m')
    (h : ∀ body, Opened outer nodes body → Follows r scope body (outer.length + 1))
    (inside : rest ⊆ nodes)
    (more : (∀ body, Opened outer rest body → Follows r scope body (outer.length + 1)) →
      Balanced m' → Finishes r m' written encoder pass outer s) :
    Finishes r m written encoder pass outer s := by
  have next := balanced_of_reaches balanced reaches
  have restFollows : ∀ body, Opened outer rest body → Follows r scope body (outer.length + 1) := by
    intro body opened
    apply h
    exact opened.imp_left fun mem => inside mem
  obtain ⟨place, settled, finish⟩ := more restFollows next
  exact ⟨place, settled, reaches.trans finish⟩

/-- The nodes of a table are taken in order. -/
theorem finishes_walkNodes {nodes : List Node} {encoder : Encoder} {pass : Option Pass}
    {place : Option String} {settled : Bool} {written : Nat}
    (h : ∀ body, Opened outer nodes body → Follows r scope body (outer.length + 1))
    (balanced : Balanced ⟨⟨written, nodes, encoder, place, settled, pass⟩ :: outer, s⟩) :
    Finishes r ⟨⟨written, nodes, encoder, place, settled, pass⟩ :: outer, s⟩ written encoder pass
      outer (Rendering.walkNodes r scope encoder place settled nodes s) := by
  have cons {c : TableCursor} : c :: outer ≠ [] := List.cons_ne_nil _ _
  have behind {a b : Node} {rest : List Node} : rest ⊆ a :: b :: rest :=
    fun _ mem => .tail _ (.tail _ mem)
  fun_induction Rendering.walkNodes r scope encoder place settled nodes s with
  | case1 place settled s => exact ⟨place, settled, .refl⟩
  | case2 place settled name chained behaviour args body rest s trimmed skip ih =>
    have step : Reaches r
        ⟨⟨written, .block name chained behaviour args :: .scope (some body) :: rest, encoder, place,
          settled, pass⟩ :: outer, s⟩
        ⟨⟨written, rest, encoder, place, settled, pass⟩ :: outer, trimmed⟩ := by
      apply reaches_of_advance
      simp only [advance, if_pos skip]
      exact .refl
    exact .of_reaches balanced step h behind ih
  | case3 place settled name chained behaviour args body rest s trimmed run settled' s' ran ih =>
    have opened : Follows r scope body (outer.length + 1) :=
      h body (.inl (.tail _ List.mem_cons_self))
    have step : Reaches r
        ⟨⟨written, .block name chained behaviour args :: .scope (some body) :: rest, encoder, place,
          settled, pass⟩ :: outer, s⟩
        ⟨⟨written, rest, encoder, place, settled', pass⟩ :: outer, s'⟩ := by
      apply reaches_of_advance
      simp only [advance, if_neg run]
      have trimmedBalance : Balanced
          ⟨⟨written, rest, encoder, place, settled, pass⟩ :: outer, trimmed⟩ :=
        balanced.of_quiet r.quiet_trimLine rfl
      have ends := reaches_runBlock opened trimmedBalance name behaviour args
      simp only [ran] at ends
      exact ends
    exact .of_reaches balanced step h behind ih
  | case4 place settled name body rest s ih =>
    have step : Reaches r
        ⟨⟨written, .define name none :: .scope (some body) :: rest, encoder, place, settled,
          pass⟩ ::
          outer, s⟩
        ⟨⟨written, rest, encoder, place, settled, pass⟩ :: outer,
          (r.trimLine s).define name (.body body)⟩ := by
      apply reaches_of_advance
      simp only [advance]
      exact .refl
    exact .of_reaches balanced step h behind ih
  | case5 place settled handler inner body rest s ih =>
    have opened : Follows r scope body (outer.length + 1) :=
      h body (.inl (.tail _ List.mem_cons_self))
    have step : Reaches r
        ⟨⟨written, .encode handler inner :: .scope (some body) :: rest, encoder, place, settled,
          pass⟩ :: outer, s⟩
        ⟨⟨written, rest, encoder, place, settled, pass⟩ :: outer,
          scope body inner [] (r.trimLine s)⟩ := by
      apply reaches_of_advance
      simp only [advance]
      exact opened inner [] none _ _ cons rfl (balanced.of_quiet r.quiet_trimLine rfl)
    exact .of_reaches balanced step h behind ih
  | case6 place settled body rest s ih =>
    have opened : Follows r scope body (outer.length + 1) := h body (.inl List.mem_cons_self)
    have step : Reaches r
        ⟨⟨written, .scope (some body) :: rest, encoder, place, settled, pass⟩ :: outer, s⟩
        ⟨⟨written, rest, encoder, none, settled, pass⟩ :: outer, scope body encoder [] s⟩ := by
      apply reaches_of_advance
      simp only [advance]
      exact opened encoder [] none _ _ cons rfl (balanced.of_quiet ⟨rfl, rfl⟩ rfl)
    exact .of_reaches balanced step h (List.subset_cons_self _ _) ih
  | case7 place settled rest s ih =>
    have step : Reaches r
        ⟨⟨written, .scope none :: rest, encoder, place, settled, pass⟩ :: outer, s⟩
        ⟨⟨written, rest, encoder, none, settled, pass⟩ :: outer,
          s.record (.unresolvedInline (place.getD ""))⟩ := by
      apply reaches_of_advance
      simp only [advance]
      exact .refl
    exact .of_reaches balanced step h (List.subset_cons_self _ _) ih
  | case8 place settled node rest s notBlock notDefine notEncode notScope notEmpty next ih =>
    have step : Reaches r ⟨⟨written, node :: rest, encoder, place, settled, pass⟩ :: outer, s⟩
        ⟨⟨written, rest, encoder, next, settled, pass⟩ :: outer,
          r.walkNode scope encoder node s⟩ := by
      apply reaches_of_advance
      simp only [advance]
      rw [r.walkNode_eq scope]
      split
      · rename_i body found
        have few : outer.length + 1 < maxScopeDepth := by
          rw [← List.length_cons, ← balanced.frames]
          exact lt_of_bodyOf? found
        exact h body (.inr few) encoder [] none _ _ cons rfl (balanced.of_quiet ⟨rfl, rfl⟩ rfl)
      · exact .refl
    exact .of_reaches balanced step h (List.subset_cons_self _ _) ih

end Scopes

/-- The room that a table needs below some number of scopes. Beyond the limit for definitions only
tables further on can be opened. -/
structure Roomy (tables room depth table : Nat) : Prop where
  early : depth < maxScopeDepth → maxScopeDepth - depth + tables ≤ room
  late : maxScopeDepth ≤ depth → table < tables ∧ tables - table ≤ room

theorem Roomy.pos {tables room depth table : Nat} (h : Roomy tables room depth table) :
    0 < room := by
  rcases Nat.lt_or_ge depth maxScopeDepth with few | many
  · have := h.early few
    omega
  · have := h.late many
    omega

/-- What a table opens needs less room. -/
theorem Roomy.opened {tables room depth table body : Nat}
    (h : Roomy tables (room + 1) depth table)
    (further : table < body ∧ body < tables ∨ depth + 1 < maxScopeDepth) :
    Roomy tables room (depth + 1) body := by
  constructor
  · intro few
    have := h.early (by omega)
    omega
  · intro many
    have inside : table < body ∧ body < tables := further.resolve_right (by omega)
    refine ⟨inside.2, ?_⟩
    rcases Nat.lt_or_ge depth maxScopeDepth with few | many
    · have := h.early few
      omega
    · have := h.late many
      omega

/-- A scope in a table refers to a table further on. -/
theorem further_of_mem_table {t : Template} (forward : Forward t.tables.length t.tables)
    {table body : Nat} (h : .scope (some body) ∈ t.table table) :
    table < body ∧ body < t.tables.length :=
  forward.of_mem_table h

/-- With enough room the machine follows the walk into a table. -/
theorem follows_walkScope (forward : Forward r.template.tables.length r.template.tables)
    {room table depth : Nat} (roomy : Roomy r.template.tables.length room depth table) :
    Follows r (r.walkScope room) table depth := by
  induction room generalizing table depth with
  | zero => exact absurd roomy.pos (Nat.lt_irrefl 0)
  | succ room ih =>
    intro encoder bindings pass outer s nonempty deep balanced
    subst deep
    have opened : ∀ body, Opened outer (r.template.table table) body →
        Follows r (r.walkScope room) body (outer.length + 1) := by
      intro body opened
      apply ih
      exact roomy.opened (opened.imp_left (further_of_mem_table forward))
    obtain ⟨place, settled, finish⟩ :=
      finishes_walkNodes opened (balanced.enter table encoder bindings pass)
    refine finish.trans (reaches_of_advance ?_)
    simp only [advance, close, List.isEmpty_eq_false_iff.mpr nonempty]
    exact .refl

/-- The room of a rendering is enough for the tables that the template itself opens. -/
theorem roomy_start {body : Nat} :
    Roomy r.template.tables.length r.room 1 body := by
  have limit : maxScopeDepth = 256 := rfl
  constructor
  · intro _
    unfold Rendering.room
    omega
  · intro many
    omega

/-- The machine comes to what the walk computes. -/
theorem reaches_walk (forward : Forward r.template.tables.length r.template.tables)
    (encoder : Encoder) :
    Reaches r (start r encoder) ⟨[], (r.walk encoder).closeFrame⟩ := by
  have opened : ∀ body, Opened [] (r.template.table 0) body →
      Follows r (r.walkScope r.room) body 1 := by
    intro body _
    exact follows_walkScope forward roomy_start
  obtain ⟨place, settled, finish⟩ := finishes_walkNodes opened (balanced_start encoder)
  refine finish.trans (reaches_of_advance ?_)
  simp only [advance, close, List.isEmpty_nil]
  exact .refl

/-- No scope of a walk is without room. -/
theorem exhausted_walk (forward : Forward r.template.tables.length r.template.tables)
    (encoder : Encoder) : (r.walk encoder).exhausted = false :=
  (balanced_of_reaches (balanced_start encoder) (reaches_walk forward encoder)).room

end Machine

end Stencil
