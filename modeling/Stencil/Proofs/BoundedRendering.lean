import Stencil.Proofs.CoveredTemplates
import Stencil.Proofs.CursorStack

/-!
# Renderings end

A block with a count of passes need not be counted: asked before every pass, it discards the pass
behind the last. `Machine.stepAsking` renders that way, and is the machine step by step. So a
rendering of core templates comes to its end although nothing but the blocks themselves limits their
passes, and with a bounded stack all the time.
-/

namespace Stencil

/-- A behaviour that announces a number of passes discards the one behind them. -/
def Behaviour.Announces (b : Behaviour) : Prop :=
  ∀ values passes, (b.pass values 0 values).1 = .repeating passes →
    0 < passes ∧ ∀ now, (b.pass values passes now).1 = .discard

/-- The blocks of the core registry announce their passes. -/
theorem Block.Made.announces {tag : String} {made : BlockInstance} (h : Block.Made tag made) :
    made.behaviour.Announces := by
  intro values passes decided
  cases h with
  | condition =>
    simp only [Block.condition] at decided
    split at decided <;> cases decided
  | otherwise => cases decided
  | whileLoop =>
    simp only [Block.whileLoop] at decided
    split at decided <;> cases decided
  | @forLoop key item =>
    simp only [Block.forLoop] at decided
    split at decided
    · cases decided
    · rename_i entry first
      cases decided
      refine ⟨(List.getElem?_eq_some_iff.mp first).1, fun now => ?_⟩
      simp only [Block.forLoop, Nat.sub_zero, List.getElem?_length]

namespace Template

/-- The blocks of a template announce their passes. -/
def Announces (t : Template) : Prop :=
  ∀ table name chained behaviour args,
    .block name chained behaviour args ∈ t.table table → behaviour.Announces

theorem Covered.announces {t : Template} {known : Nat → List String} (h : t.Covered known) :
    t.Announces := by
  intro table name chained behaviour args mem
  obtain ⟨declared, made⟩ := h.made mem
  exact made.announces

end Template

/-- A pass with a count behind which the block discards. -/
def Pass.Counts (pass : Pass) : Prop :=
  ∀ left, pass.mode = .counted left →
    ∀ now, (pass.behaviour.pass pass.run.entered (pass.run.index + left + 1) now).1 = .discard

namespace Machine

variable {r : Rendering}

/-- What follows a scope if blocks are asked before every pass. -/
def leaveAsking (r : Rendering) (table : Nat) (encoder : Encoder) (pass : Option Pass)
    (outer : List TableCursor) (s : RenderState) : Machine :=
  match pass with
  | none => ⟨outer, s⟩
  | some pass =>
    match pass.mode with
    | .counted left =>
      again r table encoder pass (.counted (left - 1)) pass.run.entered outer s
    | _ => leave r table encoder (some pass) outer s

/-- One step of a rendering that asks blocks before every pass. -/
def stepAsking (r : Rendering) (m : Machine) : Option Machine :=
  match m.cursors with
  | ⟨table, [], encoder, _, _, pass⟩ :: below :: outer =>
    some (leaveAsking r table encoder pass (below :: outer) (r.trimLine m.state.closeFrame))
  | _ => step r m

/-- A rendering that asks blocks before every pass comes to another point. -/
def ReachesAsking (r : Rendering) : Machine → Machine → Prop :=
  Relation.ReflTransGen fun m m' => stepAsking r m = some m'

/-- All counts are right. -/
def Counts (cursors : List TableCursor) : Prop :=
  ∀ cursor ∈ cursors, ∀ pass, cursor.pass = some pass → pass.Counts

namespace Counts

variable {cursor : TableCursor} {outer : List TableCursor} {s : RenderState}

theorem tail (h : Counts (cursor :: outer)) : Counts outer :=
  fun cursor mem => h cursor (.tail _ mem)

/-- Only the pass of a cursor counts. -/
theorem moved {next : TableCursor} (h : Counts (cursor :: outer)) (same : next.pass = cursor.pass) :
    Counts (next :: outer) := by
  intro other mem
  rcases List.mem_cons.mp mem with rfl | mem
  · rw [same]
    exact h cursor List.mem_cons_self
  · exact h.tail other mem

theorem enter (h : Counts outer) (table : Nat) (encoder : Encoder) (bindings : Bindings)
    {pass : Option Pass} (counts : ∀ p, pass = some p → p.Counts) :
    Counts (Machine.enter r table encoder bindings pass outer s).cursors := by
  intro other mem
  rcases List.mem_cons.mp mem with rfl | mem
  · exact counts
  · exact h other mem

theorem again (h : Counts outer) (table : Nat) (encoder : Encoder) {pass : Pass} {mode : PassMode}
    (values : List Value) (fewer : ∀ left, mode = .counted left → pass.mode = .counted (left + 1))
    (counts : pass.Counts) :
    Counts (Machine.again r table encoder pass mode values outer s).cursors := by
  unfold Machine.again
  rcases decided : pass.behaviour.again pass.run values with ⟨verdict, run⟩
  cases verdict with
  | discard => exact h
  | _ =>
    refine h.enter table encoder _ ?_
    rintro p ⟨⟩ left counted now
    simp only [Behaviour.again, Prod.mk.injEq] at decided
    obtain ⟨_, rfl⟩ := decided
    have last := counts (left + 1) (fewer left counted) now
    have index : pass.run.index + (left + 1) + 1 = pass.run.index + 1 + left + 1 := by omega
    rw [index] at last
    exact last

theorem leave (h : Counts outer) (table : Nat) (encoder : Encoder) {pass : Option Pass}
    (counts : ∀ p, pass = some p → p.Counts) :
    Counts (Machine.leave r table encoder pass outer s).cursors := by
  unfold Machine.leave
  split
  · exact h
  · rename_i pass
    have counts := counts pass rfl
    split
    · exact h
    · exact h
    · rename_i left mode
      exact h.again table encoder _ (by rintro _ ⟨⟩; exact mode) counts
    · exact h
    · split
      · exact h
      · exact h.again table encoder _ (by rintro _ ⟨⟩) counts

theorem runBlock {body : Nat} {name : String} {behaviour : Behaviour} {args : Tuple}
    (h : Counts (cursor :: outer)) (announces : behaviour.Announces) :
    Counts (Machine.runBlock r body name behaviour args cursor outer s).cursors := by
  unfold Machine.runBlock
  split
  · exact h.moved rfl
  · rename_i values _
    rcases decided : behaviour.enter {} values with ⟨verdict, run⟩
    simp only [Behaviour.enter, Prod.mk.injEq] at decided
    obtain ⟨verdictEq, rfl⟩ := decided
    have behind : Counts ({ cursor with settled := true } :: outer) := h.moved rfl
    cases verdict with
    | discard => exact h.moved rfl
    | repeating passes =>
      obtain ⟨positive, last⟩ := announces values passes verdictEq
      refine behind.enter body cursor.encoder _ ?_
      rintro p ⟨⟩ left counted now
      cases counted
      have index : 0 + (passes - 1) + 1 = passes := by omega
      dsimp only
      rw [index]
      exact last now
    | _ =>
      refine behind.enter body cursor.encoder _ ?_
      rintro p ⟨⟩ left ⟨⟩

theorem advance (h : Counts (cursor :: outer)) (announces : r.template.Announces)
    (stands : cursor.rest <:+ r.template.table cursor.table) :
    Counts (Machine.advance r cursor outer s).cursors := by
  have passed {rest : List Node} {place : Option String} :
      Counts ({ cursor with rest, place } :: outer) := h.moved rfl
  have noPass : ∀ p : Pass, none = some p → p.Counts := by rintro p ⟨⟩
  unfold Machine.advance
  split
  · unfold Machine.close
    split
    · intro other mem
      cases mem
    · exact h.tail.leave _ _ fun p eq => h cursor List.mem_cons_self p eq
  · rename_i name chained behaviour args body rest eq
    split
    · exact passed
    · refine passed.runBlock (announces cursor.table name chained behaviour args ?_)
      exact stands.subset (by rw [eq]; exact List.mem_cons_self)
  · exact passed
  · exact passed.enter _ _ _ noPass
  · exact passed.enter _ _ _ noPass
  · exact passed
  · dsimp only
    split
    · exact passed.enter _ _ _ noPass
    · exact passed

end Counts

/-- The counts stay right from step to step. -/
theorem counts_of_step {m m' : Machine} (announces : r.template.Announces)
    (stacked : Stacked r.template m.cursors) (h : Counts m.cursors) (step : step r m = some m') :
    Counts m'.cursors := by
  unfold Machine.step at step
  split at step
  · cases step
  · rename_i cursor outer cursors
    cases step
    rw [cursors] at h stacked
    exact h.advance announces (stacked.stands List.mem_cons_self)

/-- Where counts are right, asking changes nothing. -/
theorem stepAsking_eq {m : Machine} (h : Counts m.cursors) : stepAsking r m = step r m := by
  unfold stepAsking
  split
  · rename_i table encoder place settled pass below outer cursors
    have ends : step r m =
        some (leave r table encoder pass (below :: outer) (r.trimLine m.state.closeFrame)) := by
      unfold step
      rw [cursors]
      rfl
    rw [ends]
    refine congrArg some ?_
    rw [cursors] at h
    cases pass with
    | none => rfl
    | some pass =>
      have counts : pass.Counts := h _ List.mem_cons_self pass rfl
      cases mode : pass.mode with
      | once => simp only [leaveAsking, mode]
      | indefinite left => simp only [leaveAsking, mode]
      | counted left =>
        cases left with
        | succ left => simp only [leaveAsking, leave, mode, Nat.add_sub_cancel]
        | zero =>
          have discards := counts 0 mode pass.run.entered
          simp only [leaveAsking, leave, mode]
          unfold again Behaviour.again
          rw [show pass.run.index + 0 + 1 = pass.run.index + 1 from rfl] at discards
          simp only [discards]
  · rfl

/-- A rendering with directed tables and announced passes is the same if it asks. -/
theorem reachesAsking_iff (forward : Forward r.template.tables.length r.template.tables)
    (announces : r.template.Announces) {encoder : Encoder} {m : Machine} :
    ReachesAsking r (start r encoder) m ↔ Reaches r (start r encoder) m := by
  have counted {m : Machine} (reaches : Reaches r (start r encoder) m) : Counts m.cursors := by
    induction reaches with
    | refl =>
      have empty : Counts [] := by
        intro cursor mem
        cases mem
      exact empty.enter 0 encoder [] (by rintro p ⟨⟩)
    | tail before step ih =>
      exact counts_of_step announces (stacked_of_reaches forward before) ih step
  constructor
  · intro reaches
    induction reaches with
    | refl => exact .refl
    | tail _ step ih =>
      rw [stepAsking_eq (counted ih)] at step
      exact ih.tail step
  · intro reaches
    induction reaches with
    | refl => exact .refl
    | tail before step ih =>
      rw [← stepAsking_eq (counted before)] at step
      exact ih.tail step

end Machine

namespace Template

/-- A rendering of core templates, whatever is spliced into them, comes to its end, which is that of
the walk, and never has more cursors than the limit for definitions and the number of tables
together. -/
theorem bounded_of_assembled {t : Template} (assembled : Assembled ParsedCore t)
    (context : Context) (config : Config) (encoder : Encoder) :
    let r : Rendering := ⟨t, context, config⟩
    Machine.ReachesAsking r (Machine.start r encoder) ⟨[], (r.walk encoder).closeFrame⟩ ∧
      (r.walk encoder).exhausted = false ∧
      ∀ m, Machine.ReachesAsking r (Machine.start r encoder) m →
        m.cursors.length ≤ 256 + t.tables.length := by
  intro r
  have forward : Forward t.tables.length t.tables :=
    (assembled.mono fun _ h => h.parsed).layout.forward
  obtain ⟨known, covered⟩ := assembled.covered
  have same (m : Machine) : Machine.ReachesAsking r (Machine.start r encoder) m ↔
      Machine.Reaches r (Machine.start r encoder) m :=
    Machine.reachesAsking_iff forward covered.announces
  refine ⟨?_, Machine.exhausted_walk forward encoder, fun m reaches => ?_⟩
  · rw [same]
    exact Machine.reaches_walk forward encoder
  · exact (Machine.stacked_of_reaches forward ((same m).mp reaches)).length_le

/-- A definition that evaluates itself, put out in a loop without end. -/
theorem bounded_recursive_page :
    ∃ page : Template,
      Template.parse .core {} "page"
        "#define(a):#evaluate(a)#enddefine#while(true):#evaluate(a)#endwhile" = .ok page ∧
      page.tables.length = 3 ∧
      ∀ m, Machine.ReachesAsking ⟨page, ⟨[], []⟩, {}⟩
        (Machine.start ⟨page, ⟨[], []⟩, {}⟩ .identity) m → m.cursors.length ≤ 259 := by
  have run : (match Template.parse .core {} "page"
        "#define(a):#evaluate(a)#enddefine#while(true):#evaluate(a)#endwhile" with
      | .ok page => page.tables.length
      | .error _ => 0) = 3 := by decide +kernel
  split at run
  · rename_i page parsed
    refine ⟨page, parsed, run, fun m reaches => ?_⟩
    have assembled : Assembled ParsedCore page := .given ⟨_, _, _, parsed⟩
    have bound := (bounded_of_assembled assembled ⟨[], []⟩ {} .identity).2.2 m reaches
    rw [run] at bound
    exact bound
  · cases run

end Template

end Stencil
