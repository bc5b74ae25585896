import Stencil.Proofs.CursorReads
import Stencil.Proofs.CursorStack
import Stencil.Proofs.StepEffects

/-!
# Expressions on their way

Whatever a walk evaluates is written in its template: a step takes it from a node, from a definition
that a node made, or from the arguments of a block that is in a pass. So what holds of all
expressions of a template holds of all that are evaluated (`Machine.holds_of_reads`).
-/

namespace Stencil

/-- All definitions of a frame have a property. -/
def Frame.Defines (Q : Definition → Prop) (frame : Frame) : Prop :=
  ∀ entry ∈ frame.definitions, Q entry.2

/-- A definition with a property, if it is an expression. -/
def Definition.Holds (P : Expr → Prop) : Definition → Prop
  | value e => P e
  | body _ => True

/-- All expressions of a template have a property. -/
def Template.Holds (P : Expr → Prop) (t : Template) : Prop :=
  ∀ nodes ∈ t.tables, ∀ node ∈ nodes, ∀ e ∈ node.exprs, P e

instance (P : Expr → Prop) [DecidablePred P] (t : Template) : Decidable (t.Holds P) :=
  inferInstanceAs (Decidable (∀ nodes ∈ t.tables, ∀ node ∈ nodes, ∀ e ∈ node.exprs, P e))

/-- All expressions that wait for their evaluation have a property: those that are defined, and the
arguments of blocks in a pass. -/
structure Machine.Holds (P : Expr → Prop) (m : Machine) : Prop where
  args : ∀ cursor ∈ m.cursors, ∀ pass, cursor.pass = some pass → ∀ e ∈ pass.args.values, P e
  definitions : ∀ frame ∈ m.state.frames, frame.Defines (Definition.Holds P)

theorem Template.exists_of_mem_table {t : Template} {table : Nat} {node : Node}
    (mem : node ∈ t.table table) : ∃ nodes ∈ t.tables, node ∈ nodes := by
  obtain ⟨nodes, found, inside⟩ := exists_of_mem_getD mem
  exact ⟨nodes, List.mem_of_getElem? found, inside⟩

namespace RenderState

variable {Q : Definition → Prop} {s : RenderState}

/-! Variables change nothing about the definitions. -/

theorem definitions_setLocal (s : RenderState) (name : String) (value : Value) :
    (s.setLocal name value).frames.map Frame.definitions = s.frames.map Frame.definitions := by
  rw [setLocal, frames_onTop]
  cases s.frames <;> rfl

theorem definitions_assignIn {name : String} {value : Value} {frames frames' : List Frame}
    (h : assignIn name value frames = some frames') :
    frames'.map Frame.definitions = frames.map Frame.definitions := by
  induction frames generalizing frames' with
  | nil => cases h
  | cons frame outer ih =>
    rw [assignIn] at h
    split at h
    · cases h
      rfl
    · obtain ⟨more, made, rfl⟩ := Option.map_eq_some_iff.mp h
      rw [List.map_cons, List.map_cons, ih made]

theorem definitions_assign (s : RenderState) (name : String) (value : Value) :
    (s.assign name value).frames.map Frame.definitions = s.frames.map Frame.definitions := by
  unfold assign
  split
  · rename_i made
    exact definitions_assignIn made
  · exact definitions_setLocal s name value

theorem defines_of_same {frames frames' : List Frame}
    (same : frames'.map Frame.definitions = frames.map Frame.definitions)
    (h : ∀ frame ∈ frames, frame.Defines Q) : ∀ frame ∈ frames', frame.Defines Q := by
  intro frame mem
  have inside : frame.definitions ∈ frames.map Frame.definitions := by
    rw [← same]
    exact List.mem_map_of_mem mem
  obtain ⟨old, before, eq⟩ := List.mem_map.mp inside
  unfold Frame.Defines
  rw [← eq]
  exact h old before

theorem defines_define (h : ∀ frame ∈ s.frames, frame.Defines Q) (name : String)
    {definition : Definition} (new : Q definition) :
    ∀ frame ∈ (s.define name definition).frames, frame.Defines Q := by
  rw [define, frames_onTop]
  cases frames : s.frames with
  | nil => exact List.forall_mem_nil _
  | cons top outer =>
    rw [frames] at h
    obtain ⟨here, outer⟩ := List.forall_mem_cons.mp h
    refine List.forall_mem_cons.mpr ⟨fun entry mem => ?_, outer⟩
    rcases Entries.mem_insert mem with rfl | mem
    · exact new
    · exact here entry mem

/-- A definition that is found is that of a frame. -/
theorem of_definition? (h : ∀ frame ∈ s.frames, frame.Defines Q) {name : String}
    {definition : Definition} (found : s.definition? name = some definition) : Q definition := by
  obtain ⟨frame, mem, here⟩ := List.exists_of_findSome?_eq_some found
  exact h frame mem _ (Entries.mem_of_find? here)

end RenderState

theorem Template.Holds.of_mem_table {P : Expr → Prop} {t : Template} (h : t.Holds P) {table : Nat}
    {node : Node} (mem : node ∈ t.table table) : ∀ e ∈ node.exprs, P e := by
  obtain ⟨nodes, inside, mem⟩ := Template.exists_of_mem_table mem
  exact h nodes inside node mem

namespace Machine

variable {P : Expr → Prop} {r : Rendering} {cursor : TableCursor} {outer : List TableCursor}
  {s : RenderState} {m : Machine}

namespace Holds

/-- The innermost cursor goes on in its table. -/
theorem on (h : Holds P ⟨cursor :: outer, s⟩) {rest : List Node} {place : Option String}
    {settled : Bool} {s' : RenderState}
    (definitions : ∀ frame ∈ s'.frames, frame.Defines (Definition.Holds P)) :
    Holds P ⟨{ cursor with rest, place, settled } :: outer, s'⟩ := by
  obtain ⟨here, outer⟩ := List.forall_mem_cons.mp h.args
  exact ⟨List.forall_mem_cons.mpr ⟨here, outer⟩, definitions⟩

theorem enter {cursors : List TableCursor} {s' : RenderState}
    (args : ∀ cursor ∈ cursors, ∀ pass, cursor.pass = some pass → ∀ e ∈ pass.args.values, P e)
    (definitions : ∀ frame ∈ s'.frames, frame.Defines (Definition.Holds P)) (body : Nat)
    (encoder : Encoder) (bindings : Bindings) {pass : Option Pass}
    (inPass : ∀ p, pass = some p → ∀ e ∈ p.args.values, P e) :
    Holds P (Machine.enter r body encoder bindings pass cursors s') :=
  ⟨List.forall_mem_cons.mpr ⟨inPass, args⟩,
    List.forall_mem_cons.mpr ⟨List.forall_mem_nil _, definitions⟩⟩

/-- What a step puts by comes from its node. -/
theorem of_acts (written : r.template.Holds P)
    (stands : cursor.rest <:+ r.template.table cursor.table) (h : Holds P ⟨cursor :: outer, s⟩)
    (acts : Acts r cursor outer s m) : Holds P m := by
  have frames : ∀ frame ∈ s.frames, frame.Defines (Definition.Holds P) := h.definitions
  have tails : ∀ frame ∈ s.frames.tail, frame.Defines (Definition.Holds P) := fun frame mem =>
    frames frame (List.mem_of_mem_tail mem)
  have behind := (List.forall_mem_cons.mp h.args).2
  have first {node : Node} {rest : List Node} (here : cursor.rest = node :: rest) :
      ∀ e ∈ node.exprs, P e :=
    written.of_mem_table (stands.subset (here ▸ List.mem_cons_self))
  -- the cursors that stay where a scope is entered
  have left {rest : List Node} {place : Option String} {settled : Bool} :
      ∀ other ∈ { cursor with rest, place, settled } :: outer, ∀ pass, other.pass = some pass →
        ∀ e ∈ pass.args.values, P e := (h.on frames).args
  have noPass : ∀ p, (none : Option Pass) = some p → ∀ e ∈ p.args.values, P e := by
    rintro p ⟨⟩
  cases acts with
  | on _ _ _ _ same => exact h.on (by rw [same]; exact frames)
  | declare _ x same =>
    refine h.on ?_
    rw [same]
    exact RenderState.defines_of_same (RenderState.definitions_setLocal _ _ _) frames
  | assign _ x same =>
    refine h.on ?_
    rw [same]
    exact RenderState.defines_of_same (RenderState.definitions_assign _ _ _) frames
  | defineValue here same =>
    refine h.on ?_
    rw [same]
    exact RenderState.defines_define frames _ (first here _ List.mem_cons_self)
  | defineBody here same =>
    refine h.on ?_
    rw [same]
    exact RenderState.defines_define frames _ trivial
  | block here runs same =>
    refine enter left (by rw [same]; exact frames) _ _ _ ?_
    rintro _ ⟨⟩
    exact first here
  | encode here same => exact enter left (by rw [same]; exact frames) _ _ _ noPass
  | place here => exact enter left frames _ _ _ noPass
  | jump here defined => exact enter left frames _ _ _ noPass
  | @again pass _ _ _ _ inPass runs same =>
    refine enter behind (by rw [same]; exact tails) _ _ _ ?_
    rintro _ ⟨⟩
    exact (List.forall_mem_cons.mp h.args).1 pass inPass
  | out _ same => exact ⟨behind, by rw [same]; exact tails⟩

end Holds

/-- Throughout a rendering. The induction is on the run; where a cursor stands in its table is known
from the stack. -/
theorem holds_of_reaches (forward : Forward r.template.tables.length r.template.tables)
    (written : r.template.Holds P) {encoder : Encoder} (reaches : Reaches r (start r encoder) m) :
    Holds P m := by
  induction reaches with
  | refl =>
    refine ⟨List.forall_mem_singleton.mpr (by rintro p ⟨⟩), ?_⟩
    exact List.forall_mem_singleton.mpr (List.forall_mem_nil _)
  | tail before step ih =>
    have stacked := stacked_of_reaches forward before
    obtain ⟨cursor, outer, s, rfl, acts⟩ := acts_of_step step
    exact ih.of_acts written (stacked.stands List.mem_cons_self) acts

/-- What holds of all expressions of a template holds of each that a step of its rendering
evaluates. -/
theorem holds_of_reads (forward : Forward r.template.tables.length r.template.tables)
    (written : r.template.Holds P) {encoder : Encoder} (reaches : Reaches r (start r encoder) m) :
    ∀ e ∈ m.reads, P e := by
  have stacked := stacked_of_reaches forward reaches
  have h := holds_of_reaches forward written reaches
  obtain ⟨cursors, s⟩ := m
  cases cursors with
  | nil => exact List.forall_mem_nil _
  | cons cursor outer =>
    have stands := stacked.stands List.mem_cons_self
    have first {node : Node} {rest : List Node} (here : cursor.rest = node :: rest) :
        ∀ e ∈ node.exprs, P e :=
      written.of_mem_table (stands.subset (here ▸ List.mem_cons_self))
    have evaluated {node : Node} {rest : List Node} (here : cursor.rest = node :: rest) :
        ∀ e ∈ evaluates s node, P e := by
      have node := first here
      unfold evaluates
      split
      · exact node
      · exact node
      · rename_i v op value
        obtain ⟨given, target⟩ := List.forall_mem_cons.mp node
        refine List.forall_mem_cons.mpr ⟨given, ?_⟩
        split
        · exact target
        · exact List.forall_mem_nil _
      · split
        · rename_i e found
          exact List.forall_mem_singleton.mpr (RenderState.of_definition? h.definitions found)
        · exact List.forall_mem_nil _
        · exact node
      · exact List.forall_mem_nil _
    unfold reads
    dsimp only
    split
    · unfold evaluatesAgain
      split
      · rename_i inPass
        exact (List.forall_mem_cons.mp h.args).1 _ inPass
      · exact List.forall_mem_nil _
    · rename_i here
      split
      · exact List.forall_mem_nil _
      · exact first here
    · rename_i here
      exact evaluated here

end Machine

end Stencil
