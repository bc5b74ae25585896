import Stencil.Proofs.LineSlices
import Stencil.Proofs.ReadExpressions
import Stencil.Proofs.RowEdits
import Stencil.Proofs.SlicedLexer
import Stencil.Proofs.Splicing
import Stencil.Proofs.TablesInRange
import Stencil.Proofs.TemplateCalls

/-!
# Every index is in range

Reading a source, splicing, printing and rendering look things up by index: slices of texts,
elements of rows, positions of labels, slots of calls, tables, and the entries of loops. Each lookup
that is checked gives what is found without a check, whatever the source, the tokens, the registry,
the context and the configuration are (`indices_in_range`).

Throughout a rendering every cursor stands in a table that is there, every definition with a body
has a table that is there, and a loop that is in a pass has an entry for the pass
(`Machine.inRange_of_reaches`). One step after the other keeps this.
-/

namespace Stencil

namespace Block

variable {key : Option String} {item : String} {entered current : List Value} {index : Nat}

/-- A loop makes a pass only where it has an entry. -/
theorem lt_of_pass (current : List Value)
    (runs : ((forLoop key item).pass entered index current).1 ≠ .discard) :
    index < (loopEntries entered.head?).length := by
  refine Nat.lt_of_not_le fun beyond => runs ?_
  unfold forLoop
  dsimp only
  rw [List.getElem?_eq_none_iff.mpr beyond]

end Block

/-- A definition with a body has a table that is there. -/
def Definition.InRange (t : Template) : Definition → Prop
  | value _ => True
  | body table => table < t.tables.length

/-- A loop has an entry for the pass that it is in. -/
def Pass.InRange (pass : Pass) : Prop :=
  ∀ key item, pass.behaviour = Block.forLoop key item →
    pass.run.index < (Block.loopEntries pass.run.entered.head?).length

/-- A cursor in a table that is there. -/
structure TableCursor.InRange (t : Template) (cursor : TableCursor) : Prop where
  table : cursor.table < t.tables.length
  pass : ∀ pass, cursor.pass = some pass → pass.InRange

/-- Cursors and definitions of a machine are in range. -/
structure Machine.InRange (t : Template) (m : Machine) : Prop where
  cursors : ∀ cursor ∈ m.cursors, cursor.InRange t
  frames : ∀ frame ∈ m.state.frames, frame.Defines (Definition.InRange t)

namespace Machine

variable {r : Rendering} {cursor : TableCursor} {outer : List TableCursor} {s : RenderState}
  {m : Machine}

namespace InRange

/-- The innermost cursor goes on in its table. -/
theorem on (h : InRange r.template ⟨cursor :: outer, s⟩) {rest : List Node}
    {place : Option String} {settled : Bool} {s' : RenderState}
    (frames : ∀ frame ∈ s'.frames, frame.Defines (Definition.InRange r.template)) :
    InRange r.template ⟨{ cursor with rest, place, settled } :: outer, s'⟩ := by
  obtain ⟨here, outer⟩ := List.forall_mem_cons.mp h.cursors
  exact ⟨List.forall_mem_cons.mpr ⟨⟨here.table, here.pass⟩, outer⟩, frames⟩

/-- A table that is there is entered. -/
theorem enter {cursors : List TableCursor} {s' : RenderState}
    (cursorsIn : ∀ cursor ∈ cursors, cursor.InRange r.template)
    (frames : ∀ frame ∈ s'.frames, frame.Defines (Definition.InRange r.template)) {body : Nat}
    (inside : body < r.template.tables.length) (encoder : Encoder) (bindings : Bindings)
    {pass : Option Pass} (passIn : ∀ p, pass = some p → p.InRange) :
    InRange r.template (Machine.enter r body encoder bindings pass cursors s') := by
  refine ⟨List.forall_mem_cons.mpr ⟨⟨inside, passIn⟩, cursorsIn⟩, ?_⟩
  exact List.forall_mem_cons.mpr ⟨List.forall_mem_nil _, frames⟩

/-- One step keeps indices in range. -/
theorem of_acts (forward : Forward r.template.tables.length r.template.tables)
    (stands : cursor.rest <:+ r.template.table cursor.table)
    (h : InRange r.template ⟨cursor :: outer, s⟩) (acts : Acts r cursor outer s m) :
    InRange r.template m := by
  have frames : ∀ frame ∈ s.frames, frame.Defines (Definition.InRange r.template) := h.frames
  have tails : ∀ frame ∈ s.frames.tail, frame.Defines (Definition.InRange r.template) :=
    fun frame mem => frames frame (List.mem_of_mem_tail mem)
  have behind : ∀ cursor ∈ outer, cursor.InRange r.template :=
    (List.forall_mem_cons.mp h.cursors).2
  have named {body : Nat} (mem : .scope (some body) ∈ cursor.rest) :
      body < r.template.tables.length := (further_of_mem_table forward (stands.subset mem)).2
  -- the cursors that stay where a scope is entered
  have left {rest : List Node} {place : Option String} {settled : Bool} :
      ∀ other ∈ { cursor with rest, place, settled } :: outer, other.InRange r.template :=
    (h.on frames).cursors
  have noPass : ∀ p, (none : Option Pass) = some p → p.InRange := by
    rintro p ⟨⟩
  cases acts with
  | on _ _ _ _ same => exact h.on (by rw [same]; exact frames)
  | declare _ x same =>
    refine h.on ?_
    rw [same]
    exact RenderState.defines_of_same (RenderState.definitions_setLocal _ _ _) frames
  | assign _ x same =>
    refine h.on ?_
    rw [same]
    exact RenderState.defines_of_same (RenderState.definitions_assign _ _ _) frames
  | defineValue here same =>
    refine h.on ?_
    rw [same]
    exact RenderState.defines_define frames _ trivial
  | defineBody here same =>
    refine h.on ?_
    rw [same]
    exact RenderState.defines_define frames _ (named (by simp [here]))
  | @block _ _ _ _ _ _ _ values _ here runs same =>
    refine enter left (by rw [same]; exact frames) (named (by simp [here])) _ _ ?_
    rintro _ ⟨⟩ key item rfl
    exact Block.lt_of_pass values runs
  | encode here same =>
    exact enter left (by rw [same]; exact frames) (named (by simp [here])) _ _ noPass
  | place here =>
    exact enter left frames (named (by simp [here])) _ _ noPass
  | jump here defined =>
    exact enter left frames (RenderState.of_definition? frames defined) _ _ noPass
  | @again pass _ values _ _ inPass runs same =>
    have here := (List.forall_mem_cons.mp h.cursors).1
    refine enter behind (by rw [same]; exact tails) here.table _ _ ?_
    rintro _ ⟨⟩ key item eq
    rw [eq] at runs ⊢
    exact Block.lt_of_pass values runs
  | out _ same => exact ⟨behind, by rw [same]; exact tails⟩

end InRange

end Machine

end Stencil
